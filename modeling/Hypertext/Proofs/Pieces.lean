import Hypertext.Proofs.Numbers

/-! The chunks of a tree are its pieces: what a recursion over the tree lists in document order. The
pieces that a state has still to give are those of its unopened root and, for each open element from
the innermost, those of its other children and its end tag. A call gives the first of them. -/

namespace Hypertext

mutual

/-- A void element is its start tag alone. -/
def Element.pieces : Element → List Text
  | ⟨tag, attributes, children, void⟩ =>
      if void then [startTag ⟨tag, attributes, children, void⟩]
      else startTag ⟨tag, attributes, children, void⟩ ::
        (piecesAmong children ++ [endTag ⟨tag, attributes, children, void⟩])

def Node.pieces : Node → List Text
  | .element e => e.pieces
  | .text t => [escape t]
  | .number x => [x.toText]
  | .raw markup => [markup]

def piecesAmong : List Node → List Text
  | [] => []
  | node :: rest => node.pieces ++ piecesAmong rest

end

theorem piecesAmong_eq_flatMap (nodes : List Node) :
    piecesAmong nodes = nodes.flatMap Node.pieces := by
  induction nodes with
  | nil => rfl
  | cons node rest ih => simp [piecesAmong, ih]

theorem Element.pieces_eq (e : Element) :
    e.pieces =
      if e.void then [startTag e]
      else startTag e :: (e.children.flatMap Node.pieces ++ [endTag e]) := by
  rw [← piecesAmong_eq_flatMap]
  cases e
  rfl

def Node.leaf? : Node → Option Text
  | .element _ => none
  | .text t => some (escape t)
  | .number x => some x.toText
  | .raw markup => some markup

theorem Node.pieces_of_leaf {node : Node} {chunk : Text} (h : node.leaf? = some chunk) :
    node.pieces = [chunk] := by
  cases node with
  | element e => cases h
  | _ =>
      cases h
      rfl

def OpenElement.pieces (f : OpenElement) : List Text :=
  f.rest.flatMap Node.pieces ++ [endTag f.element]

theorem OpenElement.pieces_of_child {f : OpenElement} {node : Node} (h : f.child? = some node) :
    f.pieces = node.pieces ++ f.advance.pieces := by
  simp only [pieces, rest_eq_cons h, List.flatMap_cons, List.append_assoc]
  rfl

theorem OpenElement.pieces_of_end {f : OpenElement} (h : f.child? = none) :
    f.pieces = [endTag f.element] := by
  have passed : f.element.children.length ≤ f.passed := List.getElem?_eq_none_iff.mp h
  simp [pieces, rest, List.drop_eq_nil_of_le passed]

namespace Chunks

def pending (c : Chunks) : List Text :=
  (match c.root? with
    | some e => e.pieces
    | none => []) ++ c.stack.flatMap OpenElement.pieces

theorem pending_enter (e : Element) (stack : List OpenElement) :
    (enter e stack).1 :: (enter e stack).2.pending =
      e.pieces ++ stack.flatMap OpenElement.pieces := by
  cases h : e.void with
  | true => simp [enter, pending, e.pieces_eq, h]
  | false =>
      simp [enter, pending, e.pieces_eq, h, OpenElement.pieces, OpenElement.rest,
        OpenElement.start]

/-- What a call does: it enters the root, or it passes the next child of the innermost frame, or
that frame has no child left and is taken off. -/
inductive Step : Chunks → Text → Chunks → Prop
  | root (e : Element) (stack : List OpenElement) :
      Step ⟨some e, stack⟩ (startTag e) (enter e stack).2
  | leave {f : OpenElement} (passed : f.child? = none) (outer : List OpenElement) :
      Step ⟨none, f :: outer⟩ (endTag f.element) ⟨none, outer⟩
  | enter {f : OpenElement} {e : Element} (reached : f.child? = some (.element e))
      (outer : List OpenElement) :
      Step ⟨none, f :: outer⟩ (startTag e) (enter e (f.advance :: outer)).2
  | leaf {f : OpenElement} {node : Node} {chunk : Text} (reached : f.child? = some node)
      (written : node.leaf? = some chunk) (outer : List OpenElement) :
      Step ⟨none, f :: outer⟩ chunk ⟨none, f.advance :: outer⟩

theorem step_of_next? {c after : Chunks} {chunk : Text} (h : c.next? = some (chunk, after)) :
    Step c chunk after := by
  match c with
  | ⟨some e, stack⟩ =>
      cases h
      exact .root e stack
  | ⟨none, []⟩ => cases h
  | ⟨none, f :: outer⟩ =>
      simp only [next?] at h
      split at h
      · next passed =>
        cases h
        exact .leave passed outer
      · next e reached =>
        cases h
        exact .enter reached outer
      all_goals
        next reached =>
        cases h
        exact .leaf reached rfl outer

theorem eq_of_next?_eq_none {c : Chunks} (h : c.next? = none) : c = ⟨none, []⟩ := by
  match c with
  | ⟨some e, stack⟩ => cases h
  | ⟨none, []⟩ => rfl
  | ⟨none, f :: outer⟩ =>
      simp only [next?] at h
      split at h <;> cases h

theorem pending_of_next?_eq_none {c : Chunks} (h : c.next? = none) : c.pending = [] := by
  rw [eq_of_next?_eq_none h]
  rfl

theorem pending_open (f : OpenElement) (outer : List OpenElement) :
    (⟨none, f :: outer⟩ : Chunks).pending = f.pieces ++ outer.flatMap OpenElement.pieces := rfl

/-- One step: the chunk is the first piece to come, and the others are left. -/
theorem Step.pending {c after : Chunks} {chunk : Text} (step : Step c chunk after) :
    c.pending = chunk :: after.pending := by
  cases step with
  | root e stack => exact (pending_enter e stack).symm
  | leave passed outer =>
      rw [pending_open, OpenElement.pieces_of_end passed]
      rfl
  | @enter f e reached outer =>
      rw [pending_open, OpenElement.pieces_of_child reached, List.append_assoc]
      exact (pending_enter e (f.advance :: outer)).symm
  | leaf reached written outer =>
      rw [pending_open, OpenElement.pieces_of_child reached, Node.pieces_of_leaf written]
      rfl

/-- A call at the end of the stream leaves the state as it is. -/
def call (c : Chunks) : Option Text × Chunks :=
  match c.next? with
  | none => (none, c)
  | some (chunk, after) => (some chunk, after)

theorem call_spec (c : Chunks) :
    c.call.1 = c.pending.head? ∧ c.call.2.pending = c.pending.tail := by
  unfold call
  split
  · next ended => simp [pending_of_next?_eq_none ended]
  · next taken => simp [(step_of_next? taken).pending]

def results : Nat → Chunks → List (Option Text)
  | 0, _ => []
  | n + 1, c => c.call.1 :: results n c.call.2

theorem results_eq (n : Nat) (c : Chunks) :
    c.results n =
      (c.pending.take n).map some ++ List.replicate (n - c.pending.length) none := by
  induction n generalizing c with
  | zero => simp [results]
  | succ n ih =>
      obtain ⟨first, left⟩ := c.call_spec
      rw [results, ih, first, left]
      cases c.pending with
      | nil => simp [List.replicate_succ]
      | cons chunk others => simp

theorem toList_eq_pending (c : Chunks) : c.toList = c.pending := by
  induction c using toList.induct with
  | case1 c ended =>
      rw [toList, pending_of_next?_eq_none ended]
      split
      · rfl
      · next taken => cases ended.symm.trans taken
  | case2 c chunk after taken ih =>
      rw [toList, (step_of_next? taken).pending, ← ih]
      split
      · next ended => cases ended.symm.trans taken
      · next again =>
        cases taken.symm.trans again
        rfl

theorem pending_start (e : Element) : (start e).pending = e.pieces := by
  simp [start, pending]

end Chunks

theorem Element.chunks_eq_ok {e : Element} {c : Chunks} (h : e.chunks = .ok c) :
    c = Chunks.start e := by
  unfold chunks at h
  split at h
  · cases h
  · exact (Except.ok.inj h).symm

theorem Element.render_of_chunks {e : Element} {c : Chunks} (h : e.chunks = .ok c) :
    e.render = .ok e.pieces.flatten := by
  have written : c.toList = e.pieces := by
    rw [c.toList_eq_pending, chunks_eq_ok h, Chunks.pending_start]
  rw [render, h, ← written]
  rfl

namespace Node

def isElement : Node → Bool
  | .element _ => true
  | _ => false

def isClosed : Node → Bool
  | .element e => !e.void
  | _ => false

end Node

/-- Two pieces for an element with an end tag and one for every other node. -/
def pieceCount (nodes : List Node) : Nat :=
  nodes.countP Node.isElement + nodes.countP Node.isClosed + nodes.countP (!Node.isElement ·)

theorem pieceCount_append (before after : List Node) :
    pieceCount (before ++ after) = pieceCount before + pieceCount after := by
  simp only [pieceCount, List.countP_append]
  omega

theorem length_piecesAmong (children : List Node)
    (each : ∀ f, Node.element f ∈ children → f.pieces.length = pieceCount f.nodes) :
    (children.flatMap Node.pieces).length = pieceCount (children.flatMap Node.nodes) := by
  induction children with
  | nil => rfl
  | cons node rest ih =>
      have later := ih fun f member => each f (List.mem_cons_of_mem _ member)
      have here : node.pieces.length = pieceCount node.nodes := by
        cases node with
        | element e => exact each e List.mem_cons_self
        | _ => rfl
      rw [List.flatMap_cons, List.flatMap_cons, List.length_append, pieceCount_append, here, later]

/-- A void element has no children that its pieces could leave out. -/
theorem Element.length_pieces {e : Element} (legal : e.Legal) :
    e.pieces.length = pieceCount e.nodes := by
  induction legal with
  | @intro e shape _ ih =>
      have below := length_piecesAmong e.children ih
      have split : pieceCount e.nodes =
          pieceCount [.element e] + pieceCount (e.children.flatMap Node.nodes) := by
        rw [e.nodes_eq, ← pieceCount_append]
        rfl
      rw [split, ← below, e.pieces_eq]
      cases void : e.void with
      | true =>
          have empty := shape.content void
          simp [empty, pieceCount, Node.isElement, Node.isClosed, void]
      | false =>
          simp [pieceCount, Node.isElement, Node.isClosed, void]
          omega

/-- The stream of chunks refines the recursion: the calls give the pieces in order and nothing
after them, and the text is the pieces put together. -/
theorem Element.results_eq_pieces {e : Element} {c : Chunks} (made : e.Made)
    (written : e.chunks = .ok c) :
    (∀ n, c.results n =
      (e.pieces.take n).map some ++ List.replicate (n - e.pieces.length) none) ∧
    e.pieces.length = e.nodes.countP Node.isElement + e.nodes.countP Node.isClosed +
      e.nodes.countP (!Node.isElement ·) ∧
    e.render = .ok e.pieces.flatten := by
  refine ⟨?_, length_pieces made.legal, render_of_chunks written⟩
  intro n
  rw [Chunks.results_eq, chunks_eq_ok written, Chunks.pending_start]

theorem Element.results_eq_pieces_paragraph :
    (∀ n, (Chunks.start paragraph).results n =
      (paragraph.pieces.take n).map some ++
        List.replicate (n - paragraph.pieces.length) none) ∧
    paragraph.pieces.length = 5 ∧
    paragraph.render = .ok ("<p class=\"a b\" hidden title=\"&quot;&lt;&quot;\">".toList ++
      "x &amp; y".toList ++ "<br>".toList ++ "3".toList ++ "</p>".toList) := by
  obtain ⟨calls, count, text⟩ :=
    results_eq_pieces paragraph_made (chunks_of_finite paragraph_finite)
  refine ⟨calls, count.trans rfl, text.trans ?_⟩
  decide

end Hypertext
