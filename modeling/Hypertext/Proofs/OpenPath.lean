import Hypertext.Proofs.Pieces

/-! The stack of a stream of chunks is the path of open elements. Every chunk has a mark: it opens
the element at a position, closes it, or is content there. A call takes the first of the marks that
are still to come, and the frames on the stack stay the elements that the marks so far open and do
not close, from the root down. -/

namespace Hypertext

/-- What a chunk is written for, and where: the child indices on the way from the root. -/
inductive Mark where
  | opening (place : List Nat) (e : Element)
  | closing (place : List Nat) (e : Element)
  | content (place : List Nat) (chunk : Text)

def Mark.chunk : Mark → Text
  | .opening _ e => startTag e
  | .closing _ e => endTag e
  | .content _ chunk => chunk

mutual

def Element.marks (place : List Nat) : Element → List Mark
  | ⟨tag, attributes, children, void⟩ =>
      if void then [.opening place ⟨tag, attributes, children, void⟩]
      else .opening place ⟨tag, attributes, children, void⟩ ::
        (marksAmong place 0 children ++ [.closing place ⟨tag, attributes, children, void⟩])

def Node.marks (place : List Nat) : Node → List Mark
  | .element e => e.marks place
  | .text t => [.content place (escape t)]
  | .number x => [.content place x.toText]
  | .raw markup => [.content place markup]

def marksAmong (place : List Nat) (index : Nat) : List Node → List Mark
  | [] => []
  | node :: rest => node.marks (place ++ [index]) ++ marksAmong place (index + 1) rest

end

theorem Element.marks_eq (place : List Nat) (e : Element) :
    e.marks place =
      if e.void then [.opening place e]
      else .opening place e :: (marksAmong place 0 e.children ++ [.closing place e]) := by
  cases e
  rfl

theorem Node.marks_of_leaf {place : List Nat} {node : Node} {chunk : Text}
    (h : node.leaf? = some chunk) : node.marks place = [.content place chunk] := by
  cases node with
  | element e => cases h
  | _ =>
      cases h
      rfl

theorem Element.map_chunk_marks (e : Element) (place : List Nat) :
    (e.marks place).map Mark.chunk = e.pieces := by
  induction e using Element.induction generalizing place with
  | step e ih =>
      have among : ∀ (nodes : List Node) (index : Nat), (∀ node ∈ nodes, node ∈ e.children) →
          (marksAmong place index nodes).map Mark.chunk = nodes.flatMap Node.pieces := by
        intro nodes
        induction nodes with
        | nil => exact fun _ _ => rfl
        | cons node rest later =>
            intro index inside
            rw [List.forall_mem_cons] at inside
            have here : (node.marks (place ++ [index])).map Mark.chunk = node.pieces := by
              cases node with
              | element f => exact ih f inside.1 _
              | _ => rfl
            rw [marksAmong, List.map_append, here, later (index + 1) inside.2, List.flatMap_cons]
      rw [e.marks_eq, e.pieces_eq]
      split
      · rfl
      · rw [List.map_cons, List.map_append, among e.children 0 fun _ member => member]
        rfl

/-! Positions. Nothing is closed twice: below an element every mark is at a position of its own. -/

def closedPlaces (marks : List Mark) : List (List Nat) :=
  marks.filterMap fun
    | .closing place _ => some place
    | _ => none

theorem closedPlaces_append (before after : List Mark) :
    closedPlaces (before ++ after) = closedPlaces before ++ closedPlaces after :=
  List.filterMap_append

section Places

variable {place p : List Nat} {e : Element}

theorem mem_closedPlaces_marksAmong {index : Nat} {nodes : List Node}
    (each : ∀ f, Node.element f ∈ nodes → ∀ q, ∀ r ∈ closedPlaces (f.marks q), q <+: r)
    (h : p ∈ closedPlaces (marksAmong place index nodes)) :
    ∃ i, index ≤ i ∧ place ++ [i] <+: p := by
  induction nodes generalizing index with
  | nil => cases h
  | cons node rest ih =>
      rw [marksAmong, closedPlaces_append] at h
      rcases List.mem_append.mp h with here | later
      · cases node with
        | element f => exact ⟨index, Nat.le_refl index, each f List.mem_cons_self _ p here⟩
        | _ => cases here
      · obtain ⟨i, after, below⟩ :=
          ih (fun f member => each f (List.mem_cons_of_mem _ member)) later
        exact ⟨i, Nat.le_of_succ_le after, below⟩

theorem closedPlaces_marks (e : Element) (place : List Nat) :
    closedPlaces (e.marks place) =
      if e.void then [] else closedPlaces (marksAmong place 0 e.children) ++ [place] := by
  rw [e.marks_eq]
  split
  · rfl
  · rw [← List.singleton_append, closedPlaces_append, closedPlaces_append]
    rfl

theorem prefix_of_mem_closedPlaces (h : p ∈ closedPlaces (e.marks place)) : place <+: p := by
  induction e using Element.induction generalizing place p with
  | step e ih =>
      rw [closedPlaces_marks] at h
      split at h
      · cases h
      · rcases List.mem_append.mp h with below | same
        · obtain ⟨i, _, deeper⟩ :=
            mem_closedPlaces_marksAmong (fun f member q r => ih f member) below
          exact (List.prefix_append place [i]).trans deeper
        · obtain rfl := List.mem_singleton.mp same
          exact List.prefix_rfl

theorem below_of_mem_closedPlaces {index : Nat} {nodes : List Node}
    (h : p ∈ closedPlaces (marksAmong place index nodes)) :
    ∃ i, index ≤ i ∧ place ++ [i] <+: p :=
  mem_closedPlaces_marksAmong (fun _ _ _ _ => prefix_of_mem_closedPlaces) h

theorem index_eq_of_prefix {i j : Nat} (left : place ++ [i] <+: p) (right : place ++ [j] <+: p) :
    i = j := by
  have comparable := List.prefix_of_prefix_length_le left right (by simp)
  simpa using comparable

theorem nodup_closedPlaces_marks (e : Element) (place : List Nat) :
    (closedPlaces (e.marks place)).Nodup := by
  induction e using Element.induction generalizing place with
  | step e ih =>
      have among : ∀ (nodes : List Node) (index : Nat), (∀ node ∈ nodes, node ∈ e.children) →
          (closedPlaces (marksAmong place index nodes)).Nodup := by
        intro nodes
        induction nodes with
        | nil => exact fun _ _ => List.nodup_nil
        | cons node rest later =>
            intro index inside
            rw [List.forall_mem_cons] at inside
            rw [marksAmong, closedPlaces_append, List.nodup_append]
            refine ⟨?_, later (index + 1) inside.2, ?_⟩
            · cases node with
              | element f => exact ih f inside.1 _
              | _ => exact List.nodup_nil
            · rintro p here q there rfl
              obtain ⟨i, after, below⟩ := below_of_mem_closedPlaces there
              have own : place ++ [index] <+: p := by
                cases node with
                | element f => exact prefix_of_mem_closedPlaces here
                | _ => cases here
              have same := index_eq_of_prefix own below
              omega
      rw [closedPlaces_marks]
      split
      · exact List.nodup_nil
      · refine List.nodup_append.mpr ⟨among e.children 0 fun _ member => member,
          List.pairwise_singleton _ _, ?_⟩
        rintro p inside q own rfl
        obtain ⟨i, _, below⟩ := below_of_mem_closedPlaces inside
        have longer := below.length_le
        rw [List.mem_singleton.mp own, List.length_append, List.length_singleton] at longer
        omega

end Places

/-- The position of what stands on the given frames, which are listed innermost first. -/
def placeOn (outer : List OpenElement) : List Nat := outer.reverse.map fun f => f.passed - 1

/-- The open elements with their positions, from the root down. -/
def openAt : List OpenElement → List (List Nat × Element)
  | [] => []
  | f :: outer => openAt outer ++ [(placeOn outer, f.element)]

def marksOn : List OpenElement → List Mark
  | [] => []
  | f :: outer =>
      marksAmong (placeOn outer) f.passed f.rest ++ .closing (placeOn outer) f.element ::
        marksOn outer

theorem placeOn_advance (f : OpenElement) (outer : List OpenElement) :
    placeOn (f.advance :: outer) = placeOn outer ++ [f.passed] := by
  simp [placeOn, OpenElement.advance]

theorem map_snd_openAt (stack : List OpenElement) :
    (openAt stack).map Prod.snd = stack.reverse.map (·.element) := by
  induction stack with
  | nil => rfl
  | cons f outer ih => simp [openAt, ih]

theorem length_lt_of_mem_openAt {stack : List OpenElement} {frame : List Nat × Element}
    (h : frame ∈ openAt stack) : frame.1.length < stack.length := by
  induction stack with
  | nil => cases h
  | cons f outer ih =>
      rcases List.mem_append.mp h with below | top
      · exact Nat.lt_succ_of_lt (ih below)
      · rw [List.mem_singleton.mp top]
        simp [placeOn]

/-- The element that a mark opens, unless it is void or its position is among the closed ones. -/
def Mark.opened? (closed : List (List Nat)) : Mark → Option (List Nat × Element)
  | .opening place e => if e.void || closed.contains place then none else some (place, e)
  | _ => none

/-- The elements that the marks open and do not close, in the order in which they are opened. -/
def unclosed (marks : List Mark) : List (List Nat × Element) :=
  marks.filterMap (Mark.opened? (closedPlaces marks))

/-- What a mark does to the open elements. -/
inductive Mark.Turns : Mark → List (List Nat × Element) → List (List Nat × Element) → Prop
  | void {place : List Nat} {e : Element} (h : e.void = true) (frames) :
      Turns (.opening place e) frames frames
  | opening {place : List Nat} {e : Element} (h : e.void = false) (frames) :
      Turns (.opening place e) frames (frames ++ [(place, e)])
  | closing {place : List Nat} {frames} (e : Element) (h : ∀ frame ∈ frames, frame.1 ≠ place) :
      Turns (.closing place e) (frames ++ [(place, e)]) frames
  | content (place : List Nat) (chunk : Text) (frames) : Turns (.content place chunk) frames frames

theorem unclosed_concat_opening {done : List Mark} {place : List Nat} {e : Element}
    (fresh : e.void = false → place ∉ closedPlaces done) :
    unclosed (done ++ [.opening place e]) =
      unclosed done ++ if e.void then [] else [(place, e)] := by
  have same : closedPlaces (done ++ [.opening place e]) = closedPlaces done := by
    rw [closedPlaces_append]
    exact List.append_nil _
  rw [unclosed, List.filterMap_append, same, unclosed]
  congr 1
  cases void : e.void with
  | true => simp [Mark.opened?, void]
  | false => simp [Mark.opened?, void, fresh void]

theorem Mark.opened?_concat (closed : List (List Nat)) (place : List Nat) (mark : Mark) :
    mark.opened? (closed ++ [place]) = (mark.opened? closed).filter (·.1 ≠ place) := by
  cases mark with
  | opening q f =>
      by_cases shut : (f.void || closed.contains q) = true
      · have still : (f.void || (closed ++ [place]).contains q) = true := by
          rcases Bool.or_eq_true_iff.mp shut with void | known
          · simp [void]
          · simp_all
        rw [opened?, opened?, if_pos shut, if_pos still]
        rfl
      · rw [opened?, opened?, if_neg shut, Option.filter_some]
        by_cases own : q = place
        · simp [own]
        · simp_all
  | _ => rfl

theorem unclosed_concat_closing {done : List Mark} {place : List Nat} {e : Element} :
    unclosed (done ++ [.closing place e]) = (unclosed done).filter (·.1 ≠ place) := by
  have more : closedPlaces (done ++ [.closing place e]) = closedPlaces done ++ [place] :=
    closedPlaces_append _ _
  rw [unclosed, List.filterMap_append, more, unclosed, List.filter_filterMap]
  refine (List.append_nil _).trans (List.filterMap_congr fun mark _ => ?_)
  exact mark.opened?_concat (closedPlaces done) place

/-- One mark more: the unclosed elements turn as the mark says. -/
theorem unclosed_concat {done : List Mark} {mark : Mark} {frames : List (List Nat × Element)}
    (turns : mark.Turns (unclosed done) frames)
    (fresh : ∀ frame ∈ frames, frame.1 ∉ closedPlaces done) :
    unclosed (done ++ [mark]) = frames := by
  generalize before : unclosed done = opened at turns
  cases turns with
  | void isVoid =>
      rw [unclosed_concat_opening (by simp [isVoid]), if_pos isVoid, List.append_nil, before]
  | @opening place e notVoid =>
      have open_now : (place, e) ∈ opened ++ [(place, e)] := List.mem_append_right _ (by simp)
      rw [unclosed_concat_opening fun _ => fresh _ open_now, notVoid, before]
      rfl
  | @closing place _ e others =>
      have kept : frames.filter (·.1 ≠ place) = frames :=
        List.filter_eq_self.mpr fun frame member => decide_eq_true (others frame member)
      rw [unclosed_concat_closing, before, List.filter_append, kept]
      simp
  | content place chunk =>
      have same : closedPlaces (done ++ [.content place chunk]) = closedPlaces done := by
        rw [closedPlaces_append]
        exact List.append_nil _
      rw [unclosed, List.filterMap_append, same, ← before]
      exact List.append_nil _

theorem mem_closedPlaces_of_mem_openAt {stack : List OpenElement} {frame : List Nat × Element}
    (h : frame ∈ openAt stack) : frame.1 ∈ closedPlaces (marksOn stack) := by
  induction stack with
  | nil => cases h
  | cons f outer ih =>
      have split : closedPlaces (marksOn (f :: outer)) =
          closedPlaces (marksAmong (placeOn outer) f.passed f.rest) ++
            (placeOn outer :: closedPlaces (marksOn outer)) :=
        closedPlaces_append _ _
      rw [split]
      apply List.mem_append_right
      rcases List.mem_append.mp h with below | top
      · exact List.mem_cons_of_mem _ (ih below)
      · rw [List.mem_singleton.mp top]
        exact List.mem_cons_self

theorem marksOn_of_child {f : OpenElement} {node : Node} (outer : List OpenElement)
    (h : f.child? = some node) :
    marksOn (f :: outer) =
      node.marks (placeOn (f.advance :: outer)) ++ marksOn (f.advance :: outer) := by
  rw [marksOn, OpenElement.rest_eq_cons h, marksAmong, placeOn_advance, List.append_assoc]
  rfl

theorem marksOn_of_end {f : OpenElement} (outer : List OpenElement) (h : f.child? = none) :
    marksOn (f :: outer) = .closing (placeOn outer) f.element :: marksOn outer := by
  have passed : f.element.children.length ≤ f.passed := List.getElem?_eq_none_iff.mp h
  simp [marksOn, OpenElement.rest, List.drop_eq_nil_of_le passed, marksAmong]

namespace Chunks

def marks (c : Chunks) : List Mark :=
  (match c.root? with
    | some e => e.marks (placeOn c.stack)
    | none => []) ++ marksOn c.stack

theorem marks_start (e : Element) : (start e).marks = e.marks [] := List.append_nil _

theorem marks_enter (e : Element) (stack : List OpenElement) :
    e.marks (placeOn stack) ++ marksOn stack =
      .opening (placeOn stack) e :: (enter e stack).2.marks := by
  cases h : e.void with
  | true => simp [enter, marks, e.marks_eq, h]
  | false =>
      simp [enter, marks, e.marks_eq, h, marksOn, OpenElement.rest, OpenElement.start]

theorem turns_enter (e : Element) (stack : List OpenElement) :
    (Mark.opening (placeOn stack) e).Turns (openAt stack) (openAt (enter e stack).2.stack) := by
  cases h : e.void with
  | true =>
      rw [enter, h]
      exact .void h _
  | false =>
      rw [enter, h]
      exact .opening h _

theorem marks_open (f : OpenElement) (outer : List OpenElement) :
    (⟨none, f :: outer⟩ : Chunks).marks = marksOn (f :: outer) := rfl

/-- A call gives the chunk of the first mark to come, and the open elements turn as it says. -/
theorem Step.mark {c after : Chunks} {chunk : Text} (step : Step c chunk after) :
    ∃ mark : Mark, mark.chunk = chunk ∧ c.marks = mark :: after.marks ∧
      mark.Turns (openAt c.stack) (openAt after.stack) := by
  cases step with
  | root e stack =>
      exact ⟨.opening (placeOn stack) e, rfl, marks_enter e stack, turns_enter e stack⟩
  | @leave f passed outer =>
      refine ⟨.closing (placeOn outer) f.element, rfl, marksOn_of_end outer passed, .closing _ ?_⟩
      intro frame member same
      have shorter := length_lt_of_mem_openAt member
      rw [same, placeOn, List.length_map, List.length_reverse] at shorter
      exact absurd shorter (Nat.lt_irrefl _)
  | @enter f e reached outer =>
      have split : (⟨none, f :: outer⟩ : Chunks).marks =
          .opening (placeOn (f.advance :: outer)) e ::
            (Chunks.enter e (f.advance :: outer)).2.marks := by
        rw [marks_open, marksOn_of_child outer reached]
        exact marks_enter e (f.advance :: outer)
      exact ⟨_, rfl, split, turns_enter e (f.advance :: outer)⟩
  | @leaf f node chunk reached written outer =>
      have split : (⟨none, f :: outer⟩ : Chunks).marks =
          .content (placeOn (f.advance :: outer)) chunk :: marksOn (f.advance :: outer) := by
        rw [marks_open, marksOn_of_child outer reached, Node.marks_of_leaf written]
        rfl
      exact ⟨_, rfl, split, .content _ _ _⟩

theorem marks_of_next?_eq_none {c : Chunks} (h : c.next? = none) : c.marks = [] := by
  rw [eq_of_next?_eq_none h]
  rfl

end Chunks

/-- The frames on the stack, innermost first: at the bottom the root, and on each frame the child
that it passed last. -/
structure IsPath (root : Element) (stack : List OpenElement) : Prop where
  bottom : ∀ f ∈ stack.getLast?, f.element = root
  within : ∀ f ∈ stack, f.passed ≤ f.element.children.length
  linked : stack.IsChain fun f below =>
    0 < below.passed ∧ below.element.children[below.passed - 1]? = some (.element f.element)
  content : ∀ f ∈ stack, f.element.void = false

namespace IsPath

variable {root e : Element} {f : OpenElement} {outer : List OpenElement}

theorem nil (root : Element) : IsPath root [] := by
  constructor <;> simp

theorem single (content : root.void = false) : IsPath root [OpenElement.start root] := by
  constructor <;> simp [OpenElement.start, content]

theorem leave (h : IsPath root (f :: outer)) : IsPath root outer := by
  constructor
  · intro g last
    cases outer with
    | nil => cases last
    | cons below outer => exact h.bottom g (by rwa [List.getLast?_cons_cons])
  · exact fun g member => h.within g (List.mem_cons_of_mem _ member)
  · exact h.linked.of_cons
  · exact fun g member => h.content g (List.mem_cons_of_mem _ member)

theorem advance {node : Node} (h : IsPath root (f :: outer)) (reached : f.child? = some node) :
    IsPath root (f.advance :: outer) := by
  have bound : f.passed < f.element.children.length := (List.getElem?_eq_some_iff.mp reached).1
  constructor
  · intro g last
    cases outer with
    | nil =>
        rw [← Option.some.inj last]
        exact h.bottom f rfl
    | cons below outer => exact h.bottom g (by rwa [List.getLast?_cons_cons] at last ⊢)
  · rw [List.forall_mem_cons]
    exact ⟨bound, fun g member => h.within g (List.mem_cons_of_mem _ member)⟩
  · cases outer with
    | nil => exact List.IsChain.singleton _
    | cons below outer =>
        have links := List.isChain_cons_cons.mp h.linked
        exact List.isChain_cons_cons.mpr links
  · rw [List.forall_mem_cons]
    exact ⟨h.content f List.mem_cons_self,
      fun g member => h.content g (List.mem_cons_of_mem _ member)⟩

theorem enter (h : IsPath root (f :: outer)) (reached : f.child? = some (.element e))
    (content : e.void = false) : IsPath root (OpenElement.start e :: f.advance :: outer) := by
  have below := h.advance reached
  constructor
  · intro g last
    exact below.bottom g (by rwa [List.getLast?_cons_cons] at last)
  · rw [List.forall_mem_cons]
    exact ⟨Nat.zero_le _, below.within⟩
  · exact List.isChain_cons_cons.mpr ⟨⟨Nat.succ_pos _, reached⟩, below.linked⟩
  · rw [List.forall_mem_cons]
    exact ⟨content, below.content⟩

end IsPath

mutual

def Element.depth : Element → Nat
  | ⟨_, _, children, _⟩ => 1 + depthAmong children

def Node.depth : Node → Nat
  | .element e => e.depth
  | .text _ => 0
  | .number _ => 0
  | .raw _ => 0

def depthAmong : List Node → Nat
  | [] => 0
  | node :: rest => max node.depth (depthAmong rest)

end

theorem depth_le_depthAmong {node : Node} {nodes : List Node} (member : node ∈ nodes) :
    node.depth ≤ depthAmong nodes := by
  induction nodes with
  | nil => cases member
  | cons first rest ih =>
      rw [depthAmong]
      rcases List.mem_cons.mp member with rfl | later
      · exact Nat.le_max_left _ _
      · exact Nat.le_trans (ih later) (Nat.le_max_right _ _)

theorem Element.depth_eq (e : Element) : e.depth = 1 + depthAmong e.children := by
  cases e
  rfl

/-- Each frame leaves room for the depth of what is open on it. -/
theorem IsPath.length_add_depth_le {root : Element} {f : OpenElement} {outer : List OpenElement}
    (h : IsPath root (f :: outer)) : outer.length + f.element.depth ≤ root.depth := by
  induction outer generalizing f with
  | nil => simp [h.bottom f rfl]
  | cons below outer ih =>
      have lower := ih h.leave
      obtain ⟨⟨_, link⟩, _⟩ := List.isChain_cons_cons.mp h.linked
      have child : Node.element f.element ∈ below.element.children := List.mem_of_getElem? link
      have inside : f.element.depth ≤ depthAmong below.element.children :=
        depth_le_depthAmong child
      have deeper := below.element.depth_eq
      rw [List.length_cons]
      omega

theorem IsPath.length_le_depth {root : Element} {stack : List OpenElement}
    (h : IsPath root stack) : stack.length ≤ root.depth := by
  cases stack with
  | nil => exact Nat.zero_le _
  | cons f outer =>
      have room := h.length_add_depth_le
      have deep := f.element.depth_eq
      rw [List.length_cons]
      omega

namespace Chunks

def after (c : Chunks) : Nat → Chunks
  | 0 => c
  | n + 1 => (c.after n).call.2

/-- What holds between the marks that have been given and the state. The root waits only for the
first call. -/
structure Reached (root : Element) (given : List Mark) (c : Chunks) : Prop where
  marks : root.marks [] = given ++ c.marks
  frames : openAt c.stack = unclosed given
  path : IsPath root c.stack
  waiting : ∀ e ∈ c.root?, e = root ∧ c.stack = []

theorem reached_start (root : Element) : Reached root [] (start root) := by
  refine ⟨(marks_start root).symm, rfl, IsPath.nil root, ?_⟩
  rintro e waiting
  exact ⟨(Option.some.inj waiting).symm, rfl⟩

theorem Step.isPath {root : Element} {given : List Mark} {c after : Chunks} {chunk : Text}
    (step : Step c chunk after) (reached : Reached root given c) :
    IsPath root after.stack ∧ after.root? = none := by
  have path := reached.path
  cases step with
  | root e stack =>
      obtain ⟨rfl, rfl⟩ := reached.waiting e rfl
      refine ⟨?_, rfl⟩
      cases void : e.void with
      | true => simpa [Chunks.enter, void] using IsPath.nil e
      | false => simpa [Chunks.enter, void] using IsPath.single void
  | leave passed outer => exact ⟨path.leave, rfl⟩
  | @enter f e passed outer =>
      refine ⟨?_, rfl⟩
      cases void : e.void with
      | true => simpa [Chunks.enter, void] using path.advance passed
      | false => simpa [Chunks.enter, void] using path.enter passed void
  | leaf passed written outer => exact ⟨path.advance passed, rfl⟩

/-- What one call preserves. -/
theorem Reached.next {root : Element} {given : List Mark} {c after : Chunks} {chunk : Text}
    (reached : Reached root given c) (h : c.next? = some (chunk, after)) :
    ∃ mark : Mark, mark.chunk = chunk ∧ c.marks = mark :: after.marks ∧
      Reached root (given ++ [mark]) after := by
  have step := step_of_next? h
  obtain ⟨mark, written, first, turns⟩ := step.mark
  obtain ⟨path, opened⟩ := step.isPath reached
  have marks : root.marks [] = given ++ [mark] ++ after.marks := by
    rw [reached.marks, first, List.append_assoc]
    rfl
  refine ⟨mark, written, first, marks, ?_, path, ?_⟩
  · -- what is open now has still to be closed, so it has not been closed before
    have distinct := nodup_closedPlaces_marks root []
    rw [marks, closedPlaces_append, closedPlaces_append, List.append_assoc] at distinct
    refine (unclosed_concat (reached.frames ▸ turns) fun frame member closed => ?_).symm
    have later : frame.1 ∈ closedPlaces after.marks := by
      rw [Chunks.marks, opened]
      exact mem_closedPlaces_of_mem_openAt member
    exact (List.nodup_append.mp distinct).2.2 _ closed _ (List.mem_append_right _ later) rfl
  · rw [opened]
    simp

/-- What a run preserves: after `n` calls the first `n` marks have been given. -/
theorem reached_after (root : Element) (n : Nat) :
    Reached root ((root.marks []).take n) ((start root).after n) := by
  induction n with
  | zero => exact reached_start root
  | succ n ih =>
      have split : (root.marks []).drop n = ((start root).after n).marks := by
        have both := (List.take_append_drop n (root.marks [])).trans ih.marks
        exact List.append_cancel_left both
      rw [after, call]
      cases outcome : ((start root).after n).next? with
      | none =>
          rw [marks_of_next?_eq_none outcome, List.drop_eq_nil_iff] at split
          have all : (root.marks []).take (n + 1) = (root.marks []).take n := by
            rw [List.take_of_length_le split, List.take_of_length_le (Nat.le_succ_of_le split)]
          rwa [all]
      | some taken =>
          obtain ⟨mark, _, first, reached⟩ := ih.next outcome
          rw [first] at split
          have here : (root.marks [])[n]? = some mark := by
            rw [← List.head?_drop, split]
            rfl
          rw [List.take_add_one, here]
          exact reached

end Chunks

/-- The stack of a stream of chunks is the path of open elements, whenever one looks: the elements
on it are those whose start tag is among the chunks so far and whose end tag is not, the root at the
bottom and on each frame the child that it passed last. -/
theorem Element.isPath_after {e : Element} {c : Chunks} (written : e.chunks = .ok c) :
    c.stack = [] ∧ (e.marks []).map Mark.chunk = e.pieces ∧
    ∀ n, c.results n = (((e.marks []).take n).map fun mark => some mark.chunk) ++
        List.replicate (n - (e.marks []).length) none ∧
      IsPath e (c.after n).stack ∧
      (c.after n).stack.reverse.map (·.element) =
        (unclosed ((e.marks []).take n)).map Prod.snd ∧
      (c.after n).stack.length ≤ e.depth := by
  obtain rfl := chunks_eq_ok written
  have chunks := e.map_chunk_marks []
  refine ⟨rfl, chunks, fun n => ?_⟩
  have reached := Chunks.reached_after e n
  refine ⟨?_, reached.path, ?_, reached.path.length_le_depth⟩
  · rw [Chunks.results_eq, Chunks.pending_start, ← chunks, ← List.map_take, List.map_map,
      List.length_map]
    rfl
  · rw [← map_snd_openAt, reached.frames]

/-- The same paragraph twice, one after the other. -/
def Element.repeated : Element :=
  ⟨"div".toList, [], [.text ['a'], .element paragraph, .element paragraph], false⟩

theorem Element.isPath_after_repeated :
    let c := Chunks.start repeated
    repeated.chunks = .ok c ∧
      c.results 8 = (((repeated.marks []).take 8).map fun mark => some mark.chunk) ∧
      (c.after 8).stack.reverse.map (·.element) = [repeated, paragraph] ∧
      IsPath repeated (c.after 8).stack ∧ (c.after 8).stack.length ≤ repeated.depth ∧
      repeated.depth = 3 := by
  intro c
  have written : repeated.chunks = .ok c := chunks_of_finite (by decide)
  obtain ⟨_, _, each⟩ := isPath_after written
  obtain ⟨calls, path, frames, bound⟩ := each 8
  exact ⟨written, calls, frames, path, bound, rfl⟩

end Hypertext
