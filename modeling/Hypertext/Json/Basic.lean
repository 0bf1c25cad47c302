import Hypertext.Text.Basic
import Hypertext.Number.Binary64

/-! JSON values. An object is the list of its members as they are written, so their order is kept
and a key may occur more than once. -/

namespace Hypertext

inductive Json where
  | null
  | bool (b : Bool)
  | number (x : Binary64)
  | text (t : Text)
  | array (items : List Json)
  | object (members : List (Text × Json))

@[elab_as_elim]
theorem Json.induction {p : Json → Prop} (null : p .null) (bool : ∀ b, p (.bool b))
    (number : ∀ x, p (.number x)) (text : ∀ t, p (.text t))
    (array : ∀ items, (∀ item ∈ items, p item) → p (.array items))
    (object : ∀ members, (∀ member ∈ members, p member.2) → p (.object members)) (j : Json) :
    p j := by
  -- the other motives carry `p` through the items, the members and one member
  refine @Json.rec p (fun items => ∀ item ∈ items, p item)
    (fun members => ∀ member ∈ members, p member.2) (fun member => p member.2)
    null bool number text array object ?_ ?_ ?_ ?_ ?_ j
  · exact fun _ member => nomatch member
  · exact fun _ _ here below => List.forall_mem_cons.mpr ⟨here, below⟩
  · exact fun _ member => nomatch member
  · exact fun _ _ here below => List.forall_mem_cons.mpr ⟨here, below⟩
  · exact fun _ _ here => here

end Hypertext
