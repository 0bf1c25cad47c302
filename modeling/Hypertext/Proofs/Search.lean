import Hypertext.Markup.Select
import Hypertext.Proofs.Tree

/-! What a search finds. A position is the path of child indices that leads to an element, and
document order is the lexicographic order of positions, in which an element stands before those
below it. A deep search lists the outermost matches in this order, and a single one ends with the
first of them, which is also the first of all matches. -/

namespace Hypertext

def elementAt? (nodes : List Node) : List Nat → Option Element
  | [] => none
  | i :: path =>
      match nodes[i]? with
      | some (.element e) => if path = [] then some e else elementAt? e.children path
      | _ => none

def Match (tag : Text) (nodes : List Node) (position : List Nat) (f : Element) : Prop :=
  elementAt? nodes position = some f ∧ f.tag = tag

/-- A match that is not below another one. -/
structure Outermost (tag : Text) (nodes : List Node) (position : List Nat) (f : Element) :
    Prop where
  isMatch : Match tag nodes position f
  outside : ∀ above g, above <+: position → above ≠ position → ¬Match tag nodes above g

/-- The elements that stand at positions with `P`, each position once and in document order. -/
def InOrder (P : List Nat → Element → Prop) (found : List Element) : Prop :=
  ∃ placed : List (List Nat × Element), placed.Pairwise (fun a b => a.1 < b.1) ∧
    (∀ position f, (position, f) ∈ placed ↔ P position f) ∧ found = placed.map Prod.snd

/-- A position below the first of some siblings, or that of the first itself. -/
def atFirst (path : List Nat) : List Nat := 0 :: path

/-- The same position with one more sibling in front. -/
def shifted : List Nat → List Nat
  | [] => []
  | i :: path => (i + 1) :: path

section Positions

variable {tag : Text} {e f : Element} {node : Node} {rest : List Node} {position : List Nat}

theorem elementAt?_shifted :
    elementAt? (node :: rest) (shifted position) = elementAt? rest position := by
  cases position <;> simp [shifted, elementAt?]

theorem elementAt?_atFirst (below : position ≠ []) :
    elementAt? (.element e :: rest) (atFirst position) = elementAt? e.children position := by
  simp [atFirst, elementAt?, below]

theorem Match.ne_nil {nodes : List Node} (h : Match tag nodes position f) : position ≠ [] := by
  rintro rfl
  cases h.1

theorem shifted_lt_shifted {p q : List Nat} (h : p < q) : shifted p < shifted q := by
  cases p with
  | nil =>
      cases q with
      | nil => exact h
      | cons j q => exact List.nil_lt_cons _ _
  | cons i p =>
      cases q with
      | nil => exact absurd h (List.not_lt_nil _)
      | cons j q =>
          rw [shifted, shifted, List.cons_lt_cons_iff, Nat.add_lt_add_iff_right,
            Nat.add_right_cancel_iff]
          exact List.cons_lt_cons_iff.mp h

theorem atFirst_lt_atFirst {p q : List Nat} (h : p < q) : atFirst p < atFirst q :=
  List.cons_lt_cons_iff.mpr (.inr ⟨rfl, h⟩)

theorem atFirst_lt_shifted {p q : List Nat} (h : q ≠ []) : atFirst p < shifted q := by
  obtain ⟨j, q, rfl⟩ := List.exists_cons_of_ne_nil h
  exact List.cons_lt_cons_iff.mpr (.inl (Nat.succ_pos j))

/-- A way of putting positions elsewhere that keeps what stands above them, the root apart. -/
structure Embeds (g : List Nat → List Nat) : Prop where
  inj : ∀ p q, g p = g q → p = q
  mono : ∀ p q, p <+: q → g p <+: g q
  above : ∀ p q, p <+: g q → p = [] ∨ ∃ r, r <+: q ∧ p = g r

theorem embeds_atFirst : Embeds atFirst := by
  refine ⟨fun p q same => (List.cons.inj same).2, fun p q shorter => ?_, fun p q shorter => ?_⟩
  · exact List.cons_prefix_cons.mpr ⟨rfl, shorter⟩
  · rcases List.prefix_cons_iff.mp shorter with rfl | ⟨r, rfl, inside⟩
    · exact .inl rfl
    · exact .inr ⟨r, inside, rfl⟩

theorem embeds_shifted : Embeds shifted := by
  refine ⟨fun p q same => ?_, fun p q shorter => ?_, fun p q shorter => ?_⟩
  · cases p <;> cases q <;> simp_all [shifted]
  · cases p with
    | nil => exact List.nil_prefix
    | cons i p =>
        obtain ⟨r, rfl⟩ := shorter
        exact ⟨r, rfl⟩
  · cases q with
    | nil => exact .inl (List.prefix_nil.mp shorter)
    | cons j q =>
        rcases List.prefix_cons_iff.mp shorter with rfl | ⟨r, rfl, inside⟩
        · exact .inl rfl
        · exact .inr ⟨j :: r, List.cons_prefix_cons.mpr ⟨rfl, inside⟩, rfl⟩

theorem outermost_of_embeds {g : List Nat → List Nat} {nodes inner : List Node} (embeds : Embeds g)
    (same : ∀ p h, Match tag nodes (g p) h ↔ Match tag inner p h) :
    Outermost tag nodes (g position) f ↔ Outermost tag inner position f := by
  constructor
  · intro h
    refine ⟨(same _ _).mp h.isMatch, ?_⟩
    intro above other shorter proper found
    exact h.outside (g above) other (embeds.mono _ _ shorter)
      (fun equal => proper (embeds.inj _ _ equal)) ((same _ _).mpr found)
  · intro h
    refine ⟨(same _ _).mpr h.isMatch, ?_⟩
    intro above other shorter proper found
    rcases embeds.above _ _ shorter with rfl | ⟨p, inside, rfl⟩
    · exact found.ne_nil rfl
    · exact h.outside p other inside (fun equal => proper (congrArg g equal))
        ((same _ _).mp found)

theorem match_shifted :
    Match tag (node :: rest) (shifted position) f ↔ Match tag rest position f := by
  rw [Match, elementAt?_shifted, Match]

theorem outermost_shifted :
    Outermost tag (node :: rest) (shifted position) f ↔ Outermost tag rest position f :=
  outermost_of_embeds embeds_shifted fun _ _ => match_shifted

/-- Nothing below a match is an outermost one. -/
theorem outermost_of_tag (isMatch : e.tag = tag) :
    Outermost tag (.element e :: rest) (atFirst position) f ↔ position = [] ∧ f = e := by
  have here : Match tag (.element e :: rest) (atFirst []) e := ⟨rfl, isMatch⟩
  constructor
  · intro h
    by_cases top : position = []
    · subst top
      exact ⟨rfl, Option.some.inj (h.isMatch.1.symm.trans here.1)⟩
    · exact absurd here (h.outside (atFirst []) e
        (List.cons_prefix_cons.mpr ⟨rfl, List.nil_prefix⟩) (by simpa [atFirst] using Ne.symm top))
  · rintro ⟨rfl, rfl⟩
    refine ⟨here, ?_⟩
    intro above g isPrefix proper other
    rcases List.prefix_cons_iff.mp isPrefix with rfl | ⟨t, rfl, shorter⟩
    · exact other.ne_nil rfl
    · rw [List.prefix_nil.mp shorter] at proper
      exact proper rfl

theorem match_atFirst (other : e.tag ≠ tag) :
    Match tag (.element e :: rest) (atFirst position) f ↔ Match tag e.children position f := by
  by_cases top : position = []
  · subst top
    refine iff_of_false ?_ fun below => below.ne_nil rfl
    rintro ⟨here, tagged⟩
    obtain rfl := Option.some.inj here
    exact other tagged
  · rw [Match, elementAt?_atFirst top, Match]

theorem outermost_atFirst (other : e.tag ≠ tag) :
    Outermost tag (.element e :: rest) (atFirst position) f ↔
      Outermost tag e.children position f :=
  outermost_of_embeds embeds_atFirst fun _ _ => match_atFirst other

theorem not_match_atFirst (leaf : ∀ e, node ≠ .element e) :
    ¬Match tag (node :: rest) (atFirst position) f := by
  rintro ⟨here, _⟩
  cases node with
  | element e => exact leaf e rfl
  | _ => simp [atFirst, elementAt?] at here

theorem outermost_cons {first : List Nat → Element → Prop}
    (here : ∀ path, Outermost tag (node :: rest) (atFirst path) f ↔ first path f) :
    Outermost tag (node :: rest) position f ↔
      (∃ path, position = atFirst path ∧ first path f) ∨
        ∃ path, position = shifted path ∧ Outermost tag rest path f := by
  constructor
  · intro h
    match position, h with
    | [], h => exact absurd rfl h.isMatch.ne_nil
    | 0 :: path, h => exact .inl ⟨path, rfl, (here path).mp h⟩
    | (i + 1) :: path, h => exact .inr ⟨i :: path, rfl, outermost_shifted.mp h⟩
  · rintro (⟨path, rfl, h⟩ | ⟨path, rfl, h⟩)
    · exact (here path).mpr h
    · exact outermost_shifted.mpr h

end Positions

namespace InOrder

variable {first later whole : List Nat → Element → Prop} {found others : List Element}

theorem nil (none : ∀ position f, ¬whole position f) : InOrder whole [] :=
  ⟨[], .nil, by simp [none], rfl⟩

theorem mem_moved {g : List Nat → List Nat} {placed : List (List Nat × Element)}
    {position : List Nat} {f : Element} :
    (position, f) ∈ placed.map (fun a => (g a.1, a.2)) ↔
      ∃ path, position = g path ∧ (path, f) ∈ placed := by
  constructor
  · intro member
    obtain ⟨a, inside, same⟩ := List.mem_map.mp member
    cases same
    exact ⟨a.1, rfl, inside⟩
  · rintro ⟨path, rfl, inside⟩
    exact List.mem_map.mpr ⟨_, inside, rfl⟩

/-- What is found at the first node comes before what is found at the others. -/
theorem cons (h : InOrder first found) (g : InOrder later others)
    (proper : ∀ path f, later path f → path ≠ [])
    (split : ∀ position f, whole position f ↔ (∃ path, position = atFirst path ∧ first path f) ∨
      ∃ path, position = shifted path ∧ later path f) :
    InOrder whole (found ++ others) := by
  obtain ⟨placed, ordered, all, rfl⟩ := h
  obtain ⟨placed', ordered', all', rfl⟩ := g
  refine ⟨placed.map (fun a => (atFirst a.1, a.2)) ++ placed'.map (fun a => (shifted a.1, a.2)),
    ?_, ?_, ?_⟩
  · rw [List.pairwise_append, List.pairwise_map, List.pairwise_map]
    refine ⟨ordered.imp atFirst_lt_atFirst, ordered'.imp shifted_lt_shifted, ?_⟩
    intro a member b member'
    obtain ⟨_, _, rfl⟩ := List.mem_map.mp member
    obtain ⟨c, inLater, rfl⟩ := List.mem_map.mp member'
    exact atFirst_lt_shifted (proper _ _ ((all' c.1 c.2).mp inLater))
  · intro position f
    simp only [List.mem_append, mem_moved, all, all', split]
  · simp [Function.comp_def]

end InOrder

theorem matchesBelow_eq (tag : Text) (how : Search) (e : Element) :
    matchesBelow tag how e = matchesAmong tag how e.children := by
  cases e
  rfl

/-- What a search that does not end finds at one node. -/
def matchesAt (tag : Text) (deep : Bool) : Node → List Element
  | .element e =>
      if e.tag = tag then [e]
      else if deep then (matchesAmong tag ⟨deep, false⟩ e.children).1
      else []
  | _ => []

section Searches

variable {tag : Text} {deep : Bool}

/-- A search that is to find all matches goes on to the end. -/
theorem matchesAmong_all (nodes : List Node)
    (inner : ∀ e, Node.element e ∈ nodes → (matchesBelow tag ⟨deep, false⟩ e).2 = false) :
    matchesAmong tag ⟨deep, false⟩ nodes = (nodes.flatMap (matchesAt tag deep), false) := by
  induction nodes with
  | nil => rfl
  | cons node rest ih =>
      have later := ih fun e member => inner e (List.mem_cons_of_mem _ member)
      rw [List.flatMap_cons]
      cases node with
      | element e =>
          have ended := inner e List.mem_cons_self
          rw [matchesBelow_eq] at ended
          by_cases found : e.tag = tag
          · simp [matchesAmong, matchesAt, found, later]
          · cases deep <;> simp [matchesAmong, matchesAt, found, later, matchesBelow_eq, ended]
      | _ => exact later

theorem not_ended (e : Element) : (matchesBelow tag ⟨deep, false⟩ e).2 = false := by
  induction e using Element.induction with
  | step e ih => rw [matchesBelow_eq, matchesAmong_all e.children ih]

theorem matchesAmong_eq (nodes : List Node) :
    (matchesAmong tag ⟨deep, false⟩ nodes).1 = nodes.flatMap (matchesAt tag deep) := by
  rw [matchesAmong_all nodes fun e _ => not_ended e]

def upToFirst (found : List Element) : List Element × Bool := (found.take 1, !found.isEmpty)

theorem upToFirst_append (found others : List Element) :
    upToFirst (found ++ others) =
      if (upToFirst found).2 then upToFirst found else upToFirst others := by
  cases found <;> simp [upToFirst]

theorem matchesAmong_single (nodes : List Node)
    (inner : ∀ e, Node.element e ∈ nodes →
      matchesBelow tag ⟨deep, true⟩ e = upToFirst (matchesBelow tag ⟨deep, false⟩ e).1) :
    matchesAmong tag ⟨deep, true⟩ nodes = upToFirst (nodes.flatMap (matchesAt tag deep)) := by
  induction nodes with
  | nil => rfl
  | cons node rest ih =>
      have later := ih fun e member => inner e (List.mem_cons_of_mem _ member)
      rw [List.flatMap_cons, upToFirst_append, ← later]
      cases node with
      | element e =>
          have here := inner e List.mem_cons_self
          rw [matchesBelow_eq, matchesBelow_eq] at here
          by_cases found : e.tag = tag
          · simp [matchesAmong, matchesAt, found, upToFirst]
          · cases deep with
            | false => simp [matchesAmong, matchesAt, found, upToFirst]
            | true =>
              simp only [matchesAmong, matchesAt, found, matchesBelow_eq, here]
              cases (matchesAmong tag ⟨true, false⟩ e.children).1 with
              | nil => simp [upToFirst]
              | cons first others => simp [upToFirst]
      | _ => rfl

theorem matchesBelow_single (e : Element) :
    matchesBelow tag ⟨deep, true⟩ e = upToFirst (matchesBelow tag ⟨deep, false⟩ e).1 := by
  induction e using Element.induction with
  | step e ih =>
      rw [matchesBelow_eq, matchesBelow_eq, matchesAmong_single e.children ih, matchesAmong_eq]

theorem everywhere_of_mem_matches {p : Element → Prop} {e : Element} (h : e.Everywhere p) :
    ∀ f ∈ (matchesBelow tag ⟨deep, false⟩ e).1, f.Everywhere p := by
  induction h with
  | @intro e _ below ih =>
      intro f found
      rw [matchesBelow_eq, matchesAmong_eq] at found
      obtain ⟨node, child, here⟩ := List.mem_flatMap.mp found
      cases node with
      | element g =>
          simp only [matchesAt, ← matchesBelow_eq] at here
          split at here
          · rw [List.mem_singleton.mp here]
            exact below g child
          · split at here
            · exact ih g child f here
            · cases here
      | _ => cases here

theorem everywhere_of_mem_matchesBelow {p : Element → Prop} {how : Search} {e f : Element}
    (h : e.Everywhere p) (found : f ∈ (matchesBelow tag how e).1) : f.Everywhere p := by
  obtain ⟨deep, single⟩ := how
  cases single with
  | false => exact everywhere_of_mem_matches h f found
  | true =>
      rw [matchesBelow_single] at found
      exact everywhere_of_mem_matches h f (List.mem_of_mem_take found)

theorem inOrder_matchesAt (node : Node) (rest : List Node)
    (inner : ∀ e, node = .element e →
      InOrder (Outermost tag e.children) (matchesAmong tag ⟨true, false⟩ e.children).1) :
    ∃ first, InOrder first (matchesAt tag true node) ∧
      ∀ path f, Outermost tag (node :: rest) (atFirst path) f ↔ first path f := by
  cases node with
  | element e =>
      by_cases found : e.tag = tag
      · refine ⟨_, ?_, fun path f => outermost_of_tag found⟩
        refine ⟨[([], e)], List.pairwise_singleton _ _, ?_, ?_⟩
        · simp
        · simp [matchesAt, found]
      · refine ⟨_, ?_, fun path f => outermost_atFirst found⟩
        simpa [matchesAt, found] using inner e rfl
  | _ =>
      refine ⟨fun _ _ => False, .nil fun _ _ => id, fun path f => iff_of_false ?_ id⟩
      exact fun h => not_match_atFirst (by simp) h.isMatch

theorem inOrder_matchesAmong (nodes : List Node)
    (inner : ∀ e, Node.element e ∈ nodes →
      InOrder (Outermost tag e.children) (matchesAmong tag ⟨true, false⟩ e.children).1) :
    InOrder (Outermost tag nodes) (matchesAmong tag ⟨true, false⟩ nodes).1 := by
  rw [matchesAmong_eq]
  induction nodes with
  | nil =>
      apply InOrder.nil
      intro position f h
      cases position <;> cases h.isMatch.1
  | cons node rest ih =>
      have later := ih fun e member => inner e (List.mem_cons_of_mem _ member)
      obtain ⟨first, here, same⟩ := inOrder_matchesAt node rest fun e isHere =>
        inner e (isHere ▸ List.mem_cons_self)
      rw [List.flatMap_cons]
      exact here.cons later (fun path f h => h.isMatch.ne_nil)
        fun position f => outermost_cons fun path => same path f

theorem inOrder_matchesBelow (e : Element) :
    InOrder (Outermost tag e.children) (matchesAmong tag ⟨true, false⟩ e.children).1 := by
  induction e using Element.induction with
  | step e ih => exact inOrder_matchesAmong e.children ih

end Searches

/-- A match that no other one stands before. -/
def IsFirst (tag : Text) (nodes : List Node) (position : List Nat) (f : Element) : Prop :=
  Match tag nodes position f ∧ ∀ other g, Match tag nodes other g → ¬other < position

theorem not_lt_of_prefix {p q : List Nat} (h : p <+: q) : ¬q < p := h.le

theorem exists_outermost_prefix {tag : Text} {nodes : List Node} {position : List Nat} {f : Element}
    (h : Match tag nodes position f) :
    ∃ above g, above <+: position ∧ Outermost tag nodes above g := by
  by_cases inside : ∃ above g, above <+: position ∧ above ≠ position ∧ Match tag nodes above g
  · obtain ⟨above, g, shorter, proper, found⟩ := inside
    have smaller : above.length < position.length :=
      Nat.lt_of_le_of_ne shorter.length_le fun same => proper (shorter.eq_of_length same)
    obtain ⟨top, t, higher, outermost⟩ := exists_outermost_prefix found
    exact ⟨top, t, higher.trans shorter, outermost⟩
  · refine ⟨position, f, List.prefix_rfl, h, ?_⟩
    intro above g shorter proper found
    exact inside ⟨above, g, shorter, proper, found⟩
termination_by position.length

section First

variable {tag : Text} {nodes : List Node} {position : List Nat} {f : Element}

/-- The first outermost match is the first of all, since a match stands after what it is below. -/
theorem isFirst_of_inOrder {found : List Element}
    (h : InOrder (Outermost tag nodes) (f :: found)) :
    ∃ position, IsFirst tag nodes position f := by
  obtain ⟨placed, ordered, all, split⟩ := h
  obtain ⟨⟨position, _⟩, others, rfl, rfl, _⟩ := List.map_eq_cons_iff.mp split.symm
  refine ⟨position, ((all _ _).mp List.mem_cons_self).isMatch, ?_⟩
  intro other g isMatch before
  obtain ⟨top, t, higher, outermost⟩ := exists_outermost_prefix isMatch
  rcases List.mem_cons.mp ((all top t).mpr outermost) with same | later
  · cases same
    exact not_lt_of_prefix higher before
  · have after : position < top := (List.pairwise_cons.mp ordered).1 _ later
    exact not_lt_of_prefix higher (List.lt_trans before after)

theorem isFirst_unique {p q : List Nat} {g : Element} (hp : IsFirst tag nodes p f)
    (hq : IsFirst tag nodes q g) : f = g := by
  obtain rfl : p = q := List.le_antisymm (hp.2 q g hq.1) (hq.2 p f hp.1)
  exact Option.some.inj (hp.1.1.symm.trans hq.1.1)

theorem not_match_of_inOrder_nil (h : InOrder (Outermost tag nodes) []) :
    ¬Match tag nodes position f := by
  intro isMatch
  obtain ⟨placed, _, all, none⟩ := h
  obtain ⟨top, t, _, outermost⟩ := exists_outermost_prefix isMatch
  have member := (all top t).mpr outermost
  rw [List.map_eq_nil_iff.mp none.symm] at member
  cases member

end First

namespace Element

def childWith? (tag : Text) : Node → Option Element
  | .element f => if f.tag = tag then some f else none
  | _ => none

theorem select_single (e : Element) (tag : Text) (deep : Bool) :
    e.select tag ⟨deep, true⟩ = (e.select tag ⟨deep, false⟩).take 1 := by
  rw [select, select, matchesBelow_single]
  rfl

theorem select_deep (e : Element) (tag : Text) :
    InOrder (Outermost (Text.lower tag) e.children) (e.select tag ⟨true, false⟩) := by
  rw [select, matchesBelow_eq]
  exact inOrder_matchesBelow e

theorem select_shallow (e : Element) (tag : Text) :
    e.select tag ⟨false, false⟩ = e.children.filterMap (childWith? (Text.lower tag)) := by
  rw [select, matchesBelow_eq, matchesAmong_eq]
  induction e.children with
  | nil => rfl
  | cons node rest ih =>
      rw [List.flatMap_cons, List.filterMap_cons, ih]
      cases node with
      | element f => by_cases found : f.tag = Text.lower tag <;> simp [matchesAt, childWith?, found]
      | _ => rfl

theorem find?_eq (e : Element) (tag : Text) : e.find? tag = (e.select tag ⟨true, false⟩).head? := by
  rw [find?, select_single]
  cases e.select tag ⟨true, false⟩ <;> rfl

/-- A search lists what it is to find in document order, each place once, and ends exactly at the
first if it is to find one. -/
theorem select_outcome (e : Element) (tag : Text) :
    InOrder (Outermost (Text.lower tag) e.children) (e.select tag ⟨true, false⟩) ∧
      e.select tag ⟨false, false⟩ = e.children.filterMap (childWith? (Text.lower tag)) ∧
      (∀ deep, e.select tag ⟨deep, true⟩ = (e.select tag ⟨deep, false⟩).take 1) ∧
      (∀ f, e.find? tag = some f ↔ ∃ position, IsFirst (Text.lower tag) e.children position f) ∧
      (e.find? tag = none ↔ ∀ position f, ¬Match (Text.lower tag) e.children position f) := by
  have listed := e.select_deep tag
  refine ⟨listed, e.select_shallow tag, e.select_single tag, ?_, ?_⟩
  all_goals
    rw [find?_eq]
    generalize e.select tag ⟨true, false⟩ = found at listed
  · intro f
    cases found with
    | nil =>
        refine iff_of_false (by simp) ?_
        rintro ⟨position, first, _⟩
        exact not_match_of_inOrder_nil listed first
    | cons g others =>
        obtain ⟨position, first⟩ := isFirst_of_inOrder listed
        rw [List.head?_cons, Option.some.injEq]
        constructor
        · rintro rfl
          exact ⟨position, first⟩
        · rintro ⟨other, isFirst⟩
          exact isFirst_unique first isFirst
  · cases found with
    | nil => exact iff_of_true rfl fun position f => not_match_of_inOrder_nil listed
    | cons g others =>
        obtain ⟨position, first, _⟩ := isFirst_of_inOrder listed
        refine iff_of_false (by simp) ?_
        intro none
        exact none position g first

-- Of two elements inside one another the search lists the outer one.
example :
    let b (children : List Node) : Element := ⟨['b'], [], children, false⟩
    let e : Element :=
      ⟨['p'], [], [.element ⟨['i'], [], [.element (b [.element (b [])])], false⟩, .element (b [])],
        false⟩
    e.select ['B'] ⟨true, false⟩ = [b [.element (b [])], b []] := rfl

end Element

end Hypertext
