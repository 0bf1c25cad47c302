import Hypertext.Page.Document
import Hypertext.Proofs.Outcome
import Hypertext.Proofs.Tree

/-! Adding to the head of an element. Lists of items act on elements: one list after another adds
what their concatenation adds. Of the element only its first head changes, which moves to the front
of the children. -/

namespace Hypertext.Element

/-- The first head among the children and the children without it. -/
inductive FirstHead : List Node → Option Element → List Node → Prop
  | found {before after : List Node} {head : Element} (isHead : head.tag = headTag)
      (first : ∀ f, Node.element f ∈ before → f.tag ≠ headTag) :
      FirstHead (before ++ .element head :: after) (some head) (before ++ after)
  | missing {children : List Node} (others : ∀ f, Node.element f ∈ children → f.tag ≠ headTag) :
      FirstHead children none children

/-- A head with more items, behind the children of an old one if there is one. -/
structure Gained (old : Option Element) (items : List Node) (head : Element) : Prop where
  tag : head.tag = headTag
  attributes : head.attributes = old.elim [] attributes
  children : head.children = old.elim [] children ++ items
  void : head.void = old.elim false void

/-- An element that differs from another in its head alone. -/
structure HeadAdded (e : Element) (items : List Node) (f : Element) : Prop where
  tag : f.tag = e.tag
  attributes : f.attributes = e.attributes
  void : f.void = e.void
  children : ∃ old others head, FirstHead e.children old others ∧ Gained old items head ∧
    f.children = .element head :: others

def withoutHead (children : List Node) : List Node :=
  children.eraseP fun node => (ofHead? node).isSome

theorem ofHead?_of_tag {f : Element} (isHead : f.tag = headTag) : ofHead? (.element f) = some f :=
  if_pos isHead

theorem ofHead?_eq_some {node : Node} {e : Element} (h : ofHead? node = some e) :
    node = .element e ∧ e.tag = headTag := by
  cases node with
  | element f =>
      simp only [ofHead?] at h
      split at h
      · next isHead =>
        cases h
        exact ⟨rfl, isHead⟩
      · cases h
  | _ => cases h

theorem ofHead?_eq_none_iff {node : Node} :
    ofHead? node = none ↔ ∀ f, node = .element f → f.tag ≠ headTag := by
  cases node <;> simp [ofHead?]

theorem notHead_cons {node : Node} {nodes : List Node}
    (here : ∀ f, node = .element f → f.tag ≠ headTag)
    (others : ∀ f, Node.element f ∈ nodes → f.tag ≠ headTag) :
    ∀ f, Node.element f ∈ node :: nodes → f.tag ≠ headTag := by
  intro f member
  rcases List.mem_cons.mp member with same | member
  · exact here f same.symm
  · exact others f member

theorem FirstHead.cons {node : Node} {children others : List Node} {old : Option Element}
    (notHead : ∀ f, node = .element f → f.tag ≠ headTag) (h : FirstHead children old others) :
    FirstHead (node :: children) old (node :: others) := by
  cases h with
  | @found before after head isHead first =>
      have later : FirstHead (node :: before ++ .element head :: after) (some head)
          (node :: before ++ after) := .found isHead (notHead_cons notHead first)
      exact later
  | missing others => exact .missing (notHead_cons notHead others)

theorem firstHead (children : List Node) :
    FirstHead children (children.findSome? ofHead?) (withoutHead children) := by
  induction children with
  | nil => exact .missing (by simp)
  | cons node rest ih =>
      cases here : ofHead? node with
      | none =>
          rw [List.findSome?_cons, here, withoutHead, List.eraseP_cons_of_neg (by simp [here])]
          exact ih.cons (ofHead?_eq_none_iff.mp here)
      | some head =>
          obtain ⟨rfl, isHead⟩ := ofHead?_eq_some here
          rw [List.findSome?_cons, here, withoutHead, List.eraseP_cons_of_pos (by simp [here])]
          have front : FirstHead ([] ++ .element head :: rest) (some head) ([] ++ rest) :=
            .found isHead (by simp)
          exact front

/-- The head after `items` are added to the old one, or a new one that holds them. -/
def headWith (old : Option Element) (items : List Node) : Element :=
  match old with
  | some head => head.withChildren (head.children ++ items)
  | none => ⟨headTag, [], items, false⟩

variable {old : Option Element} {xs ys : List Node}

theorem tag_headWith (isHead : ∀ head ∈ old, head.tag = headTag) (items : List Node) :
    (headWith old items).tag = headTag := by
  cases old with
  | none => rfl
  | some head => exact isHead head rfl

theorem gained_headWith (isHead : ∀ head ∈ old, head.tag = headTag) (items : List Node) :
    Gained old items (headWith old items) := by
  refine ⟨tag_headWith isHead items, ?_, ?_, ?_⟩ <;> cases old <;> rfl

theorem headWith_append (old : Option Element) (xs ys : List Node) :
    headWith (some (headWith old xs)) ys = headWith old (xs ++ ys) := by
  cases old with
  | none => rfl
  | some head => simp [headWith, withChildren]

theorem isHead_of_findSome? {children : List Node} :
    ∀ head ∈ children.findSome? ofHead?, head.tag = headTag := by
  intro head found
  obtain ⟨node, _, isHead⟩ := List.exists_of_findSome?_eq_some found
  exact (ofHead?_eq_some isHead).2

theorem addToHead_nil (e : Element) : e.addToHead [] = .ok e := rfl

theorem addToHead_of_void {e : Element} (void : e.void = true) (given : xs ≠ []) :
    e.addToHead xs = .error (.contentInVoid e.tag 1) := by
  simp [addToHead, given, void]

theorem addToHead_eq {e : Element} (content : e.void = false) (given : xs ≠ []) :
    e.addToHead xs = .ok (e.withChildren
      (.element (headWith (e.children.findSome? ofHead?) xs) :: withoutHead e.children)) := by
  simp only [addToHead, List.isEmpty_iff, given, if_false, content, Bool.false_eq_true]
  rfl

theorem addToHead_append (e : Element) (xs ys : List Node) :
    (e.addToHead xs >>= fun f => f.addToHead ys) = e.addToHead (xs ++ ys) := by
  by_cases noFirst : xs = []
  · subst noFirst
    rfl
  by_cases noSecond : ys = []
  · subst noSecond
    rw [List.append_nil]
    cases e.addToHead xs <;> rfl
  have both : xs ++ ys ≠ [] := by simp [noFirst]
  cases void : e.void with
  | true =>
      rw [addToHead_of_void void noFirst, addToHead_of_void void both]
      rfl
  | false =>
      rw [addToHead_eq void noFirst, addToHead_eq void both]
      generalize oldHead : e.children.findSome? ofHead? = old
      have isHead : (headWith old xs).tag = headTag := by
        apply tag_headWith
        rw [← oldHead]
        exact isHead_of_findSome?
      -- the head that was added to is in front now, so it is the first one again
      have front : ofHead? (.element (headWith old xs)) = some (headWith old xs) :=
        ofHead?_of_tag isHead
      change Element.addToHead (e.withChildren _) ys = _
      rw [addToHead_eq (show (e.withChildren _).void = false from void) noSecond]
      simp only [withChildren, children_mk, tag_mk, attributes_mk, void_mk, List.findSome?_cons,
        front, headWith_append, withoutHead, List.eraseP_cons_of_pos, Option.isSome_some]

theorem foldlM_addToHead (e : Element) (lists : List (List Node)) :
    lists.foldlM addToHead e = e.addToHead lists.flatten := by
  induction lists generalizing e with
  | nil => rfl
  | cons xs rest ih =>
      rw [List.foldlM_cons, List.flatten_cons, ← addToHead_append]
      congr 1
      funext f
      exact ih f

theorem foldlM_addToHead_document (d : Document) (lists : List (List Node)) :
    lists.foldlM Document.addToHead d = (lists.foldlM addToHead d.root).map Document.mk := by
  induction lists generalizing d with
  | nil => rfl
  | cons xs rest ih =>
      rw [List.foldlM_cons, List.foldlM_cons, Document.addToHead]
      cases d.root.addToHead xs with
      | error e => rfl
      | ok f => exact ih ⟨f⟩

theorem headAdded_of_addToHead {e : Element} (content : e.void = false) (given : xs ≠ []) :
    ∃ f, e.addToHead xs = .ok f ∧ HeadAdded e xs f := by
  refine ⟨_, addToHead_eq content given, rfl, rfl, rfl, ?_⟩
  exact ⟨_, _, _, firstHead e.children, gained_headWith isHead_of_findSome? xs, rfl⟩

/-- Lists of items act on an element by their concatenation, and change its first head alone. -/
theorem addToHead_action (e : Element) :
    (∀ xs ys, (e.addToHead xs >>= fun f => f.addToHead ys) = e.addToHead (xs ++ ys)) ∧
      (∀ lists : List (List Node), lists.foldlM addToHead e = e.addToHead lists.flatten) ∧
      (∀ lists : List (List Node),
        lists.foldlM Document.addToHead ⟨e⟩ = Document.addToHead ⟨e⟩ lists.flatten) ∧
      e.addToHead [] = .ok e ∧
      ∀ xs, xs ≠ [] →
        (e.void = true → e.addToHead xs = .error (.contentInVoid e.tag 1)) ∧
        (e.void = false → ∃ f, e.addToHead xs = .ok f ∧ HeadAdded e xs f) := by
  refine ⟨addToHead_append e, foldlM_addToHead e, ?_, addToHead_nil e, ?_⟩
  · intro lists
    rw [foldlM_addToHead_document, foldlM_addToHead]
    rfl
  · intro xs given
    exact ⟨fun void => addToHead_of_void void given,
      fun content => headAdded_of_addToHead content given⟩

-- The first of two heads moves to the front; the second stays, and so does one further down.
example :
    let head (children : List Node) : Node := .element ⟨headTag, [], children, false⟩
    let page (children : List Node) : Element := ⟨"html".toList, [], children, false⟩
    let body : Node := .element ⟨"body".toList, [], [head []], false⟩
    (page [body, head [.text ['a']], head []]).addToHead [.text ['b']] =
      .ok (page [head [.text ['a'], .text ['b']], body, head []]) := rfl

end Hypertext.Element
