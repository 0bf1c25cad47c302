import Hypertext.Markup.Element

/-! Element trees as a whole: induction over the elements of a tree, what holds of each of them, and
the nodes in document order. -/

namespace Hypertext

namespace Element

section Parts

variable (tag : Text) (attributes : List Attribute) (children : List Node) (void : Bool)

@[simp] theorem tag_mk : (mk tag attributes children void).tag = tag := rfl

@[simp] theorem attributes_mk : (mk tag attributes children void).attributes = attributes := rfl

@[simp] theorem children_mk : (mk tag attributes children void).children = children := rfl

@[simp] theorem void_mk : (mk tag attributes children void).void = void := rfl

theorem ext {e f : Element} (tag : e.tag = f.tag) (attributes : e.attributes = f.attributes)
    (children : e.children = f.children) (void : e.void = f.void) : e = f := by
  cases e
  cases f
  simp_all

end Parts

theorem induction {p : Element → Prop}
    (step : ∀ e, (∀ f, Node.element f ∈ e.children → p f) → p e) : ∀ e, p e := by
  intro e
  -- the other two motives carry `p` through a node and through a list of children
  refine @Element.rec p (fun node => ∀ f, node = .element f → p f)
    (fun nodes => ∀ f, Node.element f ∈ nodes → p f) ?_ ?_ ?_ ?_ ?_ ?_ ?_ e
  · intro tag attributes children void below
    exact step _ below
  · intro e here f same
    cases same
    exact here
  · intro t f same
    cases same
  · intro x f same
    cases same
  · intro markup f same
    cases same
  · intro f member
    cases member
  · intro node rest here below f member
    rcases List.mem_cons.mp member with same | member
    · exact here f same.symm
    · exact below f member

/-- `p` holds of an element and of every element below it. -/
inductive Everywhere (p : Element → Prop) : Element → Prop
  | intro {e : Element} (here : p e)
      (below : ∀ f, Node.element f ∈ e.children → Everywhere p f) : Everywhere p e

namespace Everywhere

variable {p : Element → Prop} {e f : Element}

theorem own (h : Everywhere p e) : p e := by
  cases h
  assumption

theorem child (h : Everywhere p e) (member : Node.element f ∈ e.children) : Everywhere p f := by
  cases h with
  | intro _ below => exact below f member

end Everywhere

end Element

mutual

/-- The nodes of a tree in document order, the root first. -/
def Element.nodes : Element → List Node
  | ⟨tag, attributes, children, void⟩ =>
      .element ⟨tag, attributes, children, void⟩ :: nodesAmong children

def Node.nodes : Node → List Node
  | .element e => e.nodes
  | .text t => [.text t]
  | .number x => [.number x]
  | .raw markup => [.raw markup]

def nodesAmong : List Node → List Node
  | [] => []
  | node :: rest => node.nodes ++ nodesAmong rest

end

theorem nodesAmong_eq_flatMap (nodes : List Node) :
    nodesAmong nodes = nodes.flatMap Node.nodes := by
  induction nodes with
  | nil => rfl
  | cons node rest ih => simp [nodesAmong, ih]

theorem Element.nodes_eq (e : Element) :
    e.nodes = .element e :: e.children.flatMap Node.nodes := by
  rw [← nodesAmong_eq_flatMap]
  cases e
  rfl

theorem Node.mem_nodes (node : Node) : node ∈ node.nodes := by
  cases node <;> simp [Node.nodes, Element.nodes_eq]

theorem Element.Everywhere.of_mem_nodes {p : Element → Prop} {e f : Element} (h : e.Everywhere p)
    (inside : Node.element f ∈ e.nodes) : p f := by
  induction h with
  | @intro e here _ ih =>
      rw [e.nodes_eq] at inside
      rcases List.mem_cons.mp inside with same | inside
      · cases same
        exact here
      · rcases List.mem_flatMap.mp inside with ⟨child, member, within⟩
        cases child with
        | element g => exact ih g member within
        | text t => simp [Node.nodes] at within
        | number x => simp [Node.nodes] at within
        | raw markup => simp [Node.nodes] at within

theorem Element.mem_nodes_of_child {e : Element} {child node : Node} (member : child ∈ e.children)
    (h : node ∈ child.nodes) : node ∈ e.nodes := by
  rw [e.nodes_eq]
  exact List.mem_cons_of_mem _ (List.mem_flatMap.mpr ⟨child, member, h⟩)

end Hypertext
