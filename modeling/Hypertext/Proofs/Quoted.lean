import Hypertext.Proofs.Product

/-! Selector lists with quoted strings. To separate the alternatives of a list one has to know what
is open in front of each comma: parentheses, brackets or a string, in which neither of them counts.
The bracket depth knows nothing of strings. It cuts where the alternatives end exactly if, at every
comma, it is zero when and only when nothing is open. -/

namespace Hypertext.Selector

inductive Mode where
  | plain
  /-- In a string that ends with the mark. -/
  | string (mark : Char)
  /-- After a backslash in such a string. -/
  | escape (mark : Char)
  deriving DecidableEq, Repr

/-- What is open at a place of a list. -/
structure Place where
  /-- The closing brackets that are still to come, the innermost first. -/
  due : List Char := []
  mode : Mode := .plain
  deriving DecidableEq, Repr

namespace Place

def closed? (p : Place) (c : Char) : Option Place :=
  match p.due with
  | [] => none
  | next :: outer => if c = next then some { p with due := outer } else none

def after? (p : Place) (c : Char) : Option Place :=
  match p.mode with
  | .string mark =>
      if c = mark then some { p with mode := .plain }
      else if c = '\\' then some { p with mode := .escape mark }
      else some p
  | .escape mark => some { p with mode := .string mark }
  | .plain =>
      if c = '"' || c = '\'' then some { p with mode := .string c }
      else if c = '(' then some { p with due := ')' :: p.due }
      else if c = '[' then some { p with due := ']' :: p.due }
      else if c = ')' || c = ']' then p.closed? c
      else some p

end Place

/-- The stretches between the commas at which nothing is open. There are none if a string or a
bracket is not closed. -/
def separated? : Place → Text → Option (List Text)
  | p, [] => if p = {} then some [[]] else none
  | p, c :: rest =>
      if c = ',' && p = {} then (separated? p rest).map ([] :: ·)
      else (p.after? c).bind fun q => (separated? q rest).map (·.modifyHead (c :: ·))

/-- A character of a list with the bracket depth and the place in front of it. -/
structure Seen where
  depth : Nat
  place : Place
  char : Char

def trace : Nat → Place → Text → List Seen
  | _, _, [] => []
  | d, p, c :: rest =>
      ⟨d, p, c⟩ :: (p.after? c).elim [] fun q => trace (depthAfter d c) q rest

/-- The depth tells of every comma whether something is open there. -/
def InStep (list : Text) : Prop :=
  ∀ seen ∈ trace 0 {} list, seen.char = ',' → (seen.depth = 0 ↔ seen.place = {})

/-- No string holds a bracket, nor a comma unless there are brackets around it. -/
def Calm (list : Text) : Prop :=
  ∀ seen ∈ trace 0 {} list, seen.place.mode ≠ .plain →
    isPlain seen.char ∨ seen.char = ',' ∧ seen.place.due ≠ []

instance (list : Text) : Decidable (InStep list) :=
  inferInstanceAs (Decidable (∀ seen ∈ trace 0 {} list, _))

instance (list : Text) : Decidable (Calm list) :=
  inferInstanceAs (Decidable (∀ seen ∈ trace 0 {} list, _))

theorem modifyHead_cons_inj {c : Char} {ts us : List Text} :
    ts.modifyHead (c :: ·) = us.modifyHead (c :: ·) ↔ ts = us := by
  cases ts <;> cases us <;> simp

theorem modifyHead_cons_ne {c : Char} {ts us : List Text} :
    ts.modifyHead (c :: ·) ≠ [] :: us := by
  cases ts <;> simp

theorem stretches_of_cut (rest : Text) : stretches 0 (',' :: rest) = [] :: stretches 0 rest := rfl

theorem stretches_of_no_cut {d : Nat} {c : Char} (h : ¬(c = ',' ∧ d = 0)) (rest : Text) :
    stretches d (c :: rest) = (stretches (depthAfter d c) rest).modifyHead (c :: ·) := by
  simp [stretches, h]

theorem separated?_cons_eq_some {p : Place} {c : Char} {rest : Text} {parts : List Text}
    (h : separated? p (c :: rest) = some parts) :
    (c = ',' ∧ p = {} ∧ ∃ others, separated? {} rest = some others ∧ parts = [] :: others) ∨
      ¬(c = ',' ∧ p = {}) ∧ ∃ q others, p.after? c = some q ∧ separated? q rest = some others ∧
        parts = others.modifyHead (c :: ·) := by
  by_cases cut : c = ',' ∧ p = {}
  · obtain ⟨rfl, rfl⟩ := cut
    simp only [separated?, decide_true, Bool.and_self, if_true, Option.map_eq_some_iff] at h
    obtain ⟨others, later, rfl⟩ := h
    exact .inl ⟨rfl, rfl, others, later, rfl⟩
  · simp only [separated?, Bool.and_eq_true, decide_eq_true_eq, cut, if_false,
      Option.bind_eq_some_iff, Option.map_eq_some_iff] at h
    obtain ⟨q, next, others, later, rfl⟩ := h
    exact .inr ⟨cut, q, others, next, later, rfl⟩

/-- The cuts are those of the alternatives if and only if no comma tells the depth otherwise. -/
theorem stretches_eq_iff {d : Nat} {p : Place} {list : Text} {parts : List Text}
    (separated : separated? p list = some parts) :
    stretches d list = parts ↔
      ∀ seen ∈ trace d p list, seen.char = ',' → (seen.depth = 0 ↔ seen.place = {}) := by
  induction list generalizing d p parts with
  | nil =>
      simp only [separated?, Option.ite_none_right_eq_some, Option.some.injEq] at separated
      obtain ⟨_, rfl⟩ := separated
      exact iff_of_true rfl (by simp [trace])
  | cons c rest ih =>
      rcases separated?_cons_eq_some separated with
        ⟨rfl, rfl, others, later, rfl⟩ | ⟨noCut, q, others, next, later, rfl⟩
      · have outside : depthAfter d ',' = d := rfl
        have here : ({} : Place).after? ',' = some {} := rfl
        rw [trace, here, Option.elim_some, outside, List.forall_mem_cons]
        by_cases zero : d = 0
        · subst zero
          rw [stretches_of_cut, List.cons.injEq, ih later]
          simp
        · rw [stretches_of_no_cut (by simp [zero])]
          simp [modifyHead_cons_ne, zero]
      · rw [trace, next, Option.elim_some, List.forall_mem_cons]
        by_cases cut : c = ',' ∧ d = 0
        · obtain ⟨rfl, rfl⟩ := cut
          have somethingOpen : p ≠ {} := fun same => noCut ⟨rfl, same⟩
          rw [stretches_of_cut]
          simp [modifyHead_cons_ne.symm, somethingOpen]
        · rw [stretches_of_no_cut cut, modifyHead_cons_inj, ih later]
          have fits : c = ',' → (d = 0 ↔ p = {}) := fun comma =>
            iff_of_false (fun zero => cut ⟨comma, zero⟩) fun same => noCut ⟨comma, same⟩
          exact ⟨fun rest => ⟨fits, rest⟩, And.right⟩

theorem depthAfter_of_inside {c : Char} {due : List Char} (d : Nat)
    (h : isPlain c ∨ c = ',' ∧ due ≠ []) : depthAfter d c = d := by
  rcases h with plain | ⟨rfl, _⟩
  · exact depthAfter_of_isPlain plain d
  · rfl

theorem Place.length_closed? {p q : Place} {c : Char} (h : p.closed? c = some q) :
    p.due.length = q.due.length + 1 := by
  unfold closed? at h
  split at h
  · cases h
  · next next outer due =>
    split_ifs at h
    cases h
    rw [due, List.length_cons]

/-- One step: outside strings the depth counts what is due, and inside nothing counts. -/
theorem depthAfter_length {p q : Place} {c : Char} (next : p.after? c = some q)
    (calm : p.mode ≠ .plain → isPlain c ∨ c = ',' ∧ p.due ≠ []) :
    depthAfter p.due.length c = q.due.length := by
  unfold Place.after? at next
  split at next
  · next mark inside =>
    rw [depthAfter_of_inside _ (calm (by simp [inside]))]
    split_ifs at next <;> cases next <;> rfl
  · next mark inside =>
    rw [depthAfter_of_inside _ (calm (by simp [inside]))]
    cases next
    rfl
  · split_ifs at next with quote opened opened closing
    · cases next
      rcases (by simpa using quote : c = '"' ∨ c = '\'') with rfl | rfl <;> rfl
    · cases next
      simp [depthAfter, opened]
    · cases next
      simp [depthAfter, opened]
    · rw [Place.length_closed? next]
      rcases (by simpa using closing : c = ')' ∨ c = ']') with rfl | rfl <;> rfl
    · cases next
      simp_all [depthAfter]

/-- A run: as long as the strings are calm, the depth is the number of brackets due. -/
theorem depth_of_calm {p : Place} {text : Text}
    (calm : ∀ seen ∈ trace p.due.length p text, seen.place.mode ≠ .plain →
      isPlain seen.char ∨ seen.char = ',' ∧ seen.place.due ≠ []) :
    ∀ seen ∈ trace p.due.length p text, seen.depth = seen.place.due.length := by
  induction text generalizing p with
  | nil => simp [trace]
  | cons c rest ih =>
      rw [trace, List.forall_mem_cons] at calm ⊢
      refine ⟨rfl, ?_⟩
      cases next : p.after? c with
      | none => simp
      | some q =>
          rw [next, Option.elim_some, depthAfter_length next calm.1] at calm
          rw [Option.elim_some, depthAfter_length next calm.1]
          exact ih calm.2

theorem inStep_of_calm {text : Text} (calm : Calm text) : InStep text := by
  intro seen member comma
  have counts : seen.depth = seen.place.due.length :=
    depth_of_calm (p := {}) calm seen member
  rw [counts, List.length_eq_zero_iff]
  constructor
  · intro nothingDue
    have outside : seen.place.mode = .plain := by
      by_contra inside
      rcases calm seen member inside with plain | ⟨_, due⟩
      · rw [comma] at plain
        cases plain
      · exact due nothingDue
    obtain ⟨_, ⟨due, mode⟩, _⟩ := seen
    simp_all
  · intro nothingOpen
    rw [nothingOpen]

/-- Every alternative of the parent gets the key as its descendant. -/
theorem combine_of_independent {parent key : Text} (parents : [] ∉ pieces parent)
    (independent : Independent key) :
    combine parent key = .ok (list ((pieces parent).map (· ++ ' ' :: key))) := by
  have single : pieces key = [key] := pieces_of_solid independent.toSolid
  have joins : ∀ k ∈ pieces key, Joinable k := by
    rw [single, List.forall_mem_singleton]
    exact independent.joinable
  rw [combine_joined parents joins, single]
  have added : joined (pieces parent) [key] = (pieces parent).map (· ++ ' ' :: key) := by
    simp only [joined, choices, List.map_cons, List.map_nil, ← List.map_eq_flatMap, List.map_map]
    rw [← suffix_of_independent independent.notDependent]
    rfl
  rw [added]

/-- For a list whose strings and brackets are closed: it is cut between its alternatives if and only
if the depth is in step with what is open, as it is where no string holds a bracket; and then a key
goes under each of them. -/
theorem combine_separated {parent : Text} {parts : List Text}
    (separated : separated? {} parent = some parts) :
    (stretches 0 parent = parts ↔ InStep parent) ∧ (Calm parent → InStep parent) ∧
    (InStep parent → (∀ part ∈ parts, Text.trim part ≠ []) →
      (∀ blamed, alternatives blamed parent = .ok (parts.map Text.trim)) ∧
      ∀ key, Independent key →
        combine parent key =
          .ok (list (parts.map fun part => Text.trim part ++ ' ' :: key))) := by
  have same : stretches 0 parent = parts ↔ InStep parent := stretches_eq_iff separated
  refine ⟨same, inStep_of_calm, fun inStep nonempty => ?_⟩
  have split : pieces parent = parts.map Text.trim := by rw [pieces, same.mpr inStep]
  have parents : [] ∉ pieces parent := by
    rw [split]
    intro empty
    obtain ⟨part, member, blank⟩ := List.mem_map.mp empty
    exact nonempty part member blank
  constructor
  · intro blamed
    rw [alternatives_eq, if_neg parents, split]
  · intro key independent
    rw [combine_of_independent parents independent, split, List.map_map]
    rfl

def descendant : Text := ['d']

theorem independent_descendant : Independent descendant := by
  refine ⟨⟨whole_of_zero rfl, ⟨?_, ?_⟩, by simp [descendant]⟩, rfl⟩
  · intro c first
    cases first
    rfl
  · intro c last
    cases last
    rfl

def titledList : Text := "a[title=\"x, y\"], b".toList

def titledParts : List Text := ["a[title=\"x, y\"]".toList, " b".toList]

theorem combine_titledList :
    separated? {} titledList = some titledParts ∧ Calm titledList ∧
    (∀ part ∈ titledParts, Text.trim part ≠ []) ∧ Independent descendant ∧
    stretches 0 titledList = titledParts ∧
    alternatives [] titledList = .ok (titledParts.map Text.trim) ∧
    combine titledList descendant = .ok "a[title=\"x, y\"] d, b d".toList := by
  have separated : separated? {} titledList = some titledParts := rfl
  have calm : Calm titledList := by decide
  have nonempty : ∀ part ∈ titledParts, Text.trim part ≠ [] := by decide
  obtain ⟨same, steady, combined⟩ := combine_separated separated
  obtain ⟨split, each⟩ := combined (steady calm) nonempty
  exact ⟨separated, calm, nonempty, independent_descendant, same.mpr (steady calm), split [],
    each descendant independent_descendant⟩

/-- The bracket in the string is taken for the end of the attribute selector. -/
def closingList : Text := "a[title=\"),x\"]".toList

/-- The bracket in the string is taken to be open to the end of the list. -/
def openingList : Text := "a[title=\"(x\"], b".toList

def openingParts : List Text := ["a[title=\"(x\"]".toList, " b".toList]

/-- The one list is cut in the middle of a string, and the other not at all. -/
theorem combine_bracket_in_string :
    Independent descendant ∧
    (separated? {} closingList = some [closingList] ∧ Text.trim closingList = closingList ∧
      alternatives [] closingList = .ok ["a[title=\")".toList, "x\"]".toList] ∧
      combine closingList descendant = .ok "a[title=\") d, x\"] d".toList ∧
      combine closingList descendant ≠ .ok (list [closingList ++ ' ' :: descendant])) ∧
    separated? {} openingList = some openingParts ∧
      (∀ part ∈ openingParts, Text.trim part ≠ []) ∧
      alternatives [] openingList = .ok [openingList] ∧
      combine openingList descendant = .ok "a[title=\"(x\"], b d".toList ∧
      combine openingList descendant ≠
        .ok (list (openingParts.map fun part => Text.trim part ++ ' ' :: descendant)) := by
  have closing : combine closingList descendant = .ok "a[title=\") d, x\"] d".toList := rfl
  have opening : combine openingList descendant = .ok "a[title=\"(x\"], b d".toList := rfl
  refine ⟨independent_descendant, ⟨rfl, rfl, rfl, closing, ?_⟩, rfl, by decide, rfl, opening, ?_⟩
  · rw [closing]
    decide
  · rw [opening]
    decide

end Hypertext.Selector
