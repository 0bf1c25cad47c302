import Hypertext.Style.Json
import Hypertext.Proofs.Flattening
import Hypertext.Proofs.Merge

/-! How deep JSON texts nest. A reader holds at most so many containers open at a time, which bounds
the scopes of a style that comes from a text and the depths of its rules. -/

namespace Hypertext

namespace Json

/-- At most `n` containers of the value lie in one another, and all its numbers have `p`. -/
inductive Within (p : Binary64 → Prop) : Nat → Json → Prop where
  | null (n : Nat) : Within p n .null
  | bool (n : Nat) (b : Bool) : Within p n (.bool b)
  | number (n : Nat) {x : Binary64} (known : p x) : Within p n (.number x)
  | text (n : Nat) (t : Text) : Within p n (.text t)
  | array {n : Nat} {items : List Json} (each : ∀ item ∈ items, Within p n item) :
      Within p (n + 1) (.array items)
  | object {n : Nat} {members : List (Text × Json)}
      (each : ∀ member ∈ members, Within p n member.2) : Within p (n + 1) (.object members)

/-- Nothing is asked of the numbers. -/
abbrev Nests : Nat → Json → Prop := Within fun _ => True

def Container.values : Container → List Json
  | .array items => items
  | .object members _ => members.map Prod.snd

/-- The value that an open container is when nothing more is put into it. -/
def Container.closed : Container → Json
  | .array items => .array items.reverse
  | .object members _ => .object members.reverse

/-- What an open container holds is no deeper than the containers around it allow. -/
def Bounded : List Container → Prop
  | [] => True
  | container :: outer =>
      outer.length < maxDepth ∧
        (∀ value ∈ container.values, value.Nests (maxDepth - (outer.length + 1))) ∧ Bounded outer

theorem bounded_opened {container : Container} {outer : List Container}
    (empty : container.values = []) (room : outer.length < maxDepth) (bounded : Bounded outer) :
    Bounded (container :: outer) := by
  refine ⟨room, ?_, bounded⟩
  rw [empty]
  exact fun _ member => nomatch member

theorem nests_closed {container : Container} {outer : List Container}
    (bounded : Bounded (container :: outer)) :
    container.closed.Nests (maxDepth - outer.length) := by
  obtain ⟨room, held, _⟩ := bounded
  have level : maxDepth - outer.length = maxDepth - (outer.length + 1) + 1 := by omega
  rw [level]
  cases container with
  | array items => exact .array fun item member => held item (List.mem_reverse.mp member)
  | object members key =>
      refine .object fun member inside => held member.2 ?_
      exact List.mem_map_of_mem (List.mem_reverse.mp inside)

namespace Expected

def Bounded : Expected → Prop
  | .value outer => Json.Bounded outer
  | .itemOrEnd outer => Json.Bounded (.array [] :: outer)
  | .afterItem items outer => Json.Bounded (.array items :: outer)
  | .keyOrEnd outer => Json.Bounded (.object [] [] :: outer)
  | .nextKey members outer => Json.Bounded (.object members [] :: outer)
  | .afterKey members key outer => Json.Bounded (.object members key :: outer)
  | .afterMember members outer => Json.Bounded (.object members [] :: outer)
  | .nothing whole => whole.Nests maxDepth

theorem bounded_accept {value : Json} {outer : List Container} (bounded : Json.Bounded outer)
    (nests : value.Nests (maxDepth - outer.length)) : (accept value outer).Bounded := by
  cases outer with
  | nil => exact nests
  | cons container outer =>
      obtain ⟨room, held, around⟩ := bounded
      cases container with
      | array items => exact ⟨room, List.forall_mem_cons.mpr ⟨nests, held⟩, around⟩
      | object members key => exact ⟨room, List.forall_mem_cons.mpr ⟨nests, held⟩, around⟩

theorem bounded_begin? {token : Token} {outer : List Container} {next : Expected}
    (bounded : Json.Bounded outer) (h : begin? token outer = some next) : next.Bounded := by
  cases token with
  | null =>
      cases h
      exact bounded_accept bounded (.null _)
  | bool b =>
      cases h
      exact bounded_accept bounded (.bool _ b)
  | number x =>
      cases h
      exact bounded_accept bounded (.number _ trivial)
  | text t =>
      cases h
      exact bounded_accept bounded (.text _ t)
  | openArray =>
      obtain ⟨room, same⟩ := Option.ite_none_right_eq_some.mp h
      cases same
      exact bounded_opened rfl room bounded
  | openObject =>
      obtain ⟨room, same⟩ := Option.ite_none_right_eq_some.mp h
      cases same
      exact bounded_opened rfl room bounded
  | _ => cases h

theorem bounded_step? {token : Token} {expected next : Expected} (bounded : expected.Bounded)
    (h : expected.step? token = some next) : next.Bounded := by
  cases expected with
  | value outer => exact bounded_begin? bounded h
  | itemOrEnd outer =>
      by_cases ends : token = .closeArray
      · rw [ends] at h
        cases h
        exact bounded_accept bounded.2.2 (nests_closed bounded)
      · have starts : begin? token (.array [] :: outer) = some next := by
          cases token <;> first | exact h | exact absurd rfl ends
        exact bounded_begin? bounded starts
  | afterItem items outer =>
      cases token with
      | comma =>
          cases h
          exact bounded
      | closeArray =>
          cases h
          exact bounded_accept bounded.2.2 (nests_closed bounded)
      | _ => cases h
  | keyOrEnd outer =>
      cases token with
      | text key =>
          cases h
          exact bounded_opened rfl bounded.1 bounded.2.2
      | closeObject =>
          cases h
          exact bounded_accept bounded.2.2 (nests_closed bounded)
      | _ => cases h
  | nextKey members outer =>
      cases token with
      | text key =>
          cases h
          exact bounded
      | _ => cases h
  | afterKey members key outer =>
      cases token with
      | colon =>
          cases h
          exact bounded
      | _ => cases h
  | afterMember members outer =>
      cases token with
      | comma =>
          cases h
          exact bounded
      | closeObject =>
          cases h
          exact bounded_accept bounded.2.2 (nests_closed bounded)
      | _ => cases h
  | nothing whole => cases h

theorem nests_of_run? {tokens : List Token} {expected : Expected} {whole : Json}
    (bounded : expected.Bounded) (h : expected.run? tokens = some whole) :
    whole.Nests maxDepth := by
  induction tokens generalizing expected with
  | nil =>
      cases expected with
      | nothing whole =>
          cases h
          exact bounded
      | _ => cases h
  | cons token rest ih =>
      rw [run?] at h
      split at h
      · next next step => exact ih (bounded_step? bounded step) h
      · cases h

end Expected

theorem nests_of_ofText? {t : Text} {j : Json} (h : ofText? t = some j) : j.Nests maxDepth := by
  obtain ⟨tokens, _, run⟩ := Option.bind_eq_some_iff.mp h
  have bounded : (Expected.value []).Bounded := trivial
  exact Expected.nests_of_run? bounded run

end Json

theorem Value.length_scopes_le {n : Nat} {j : Json} (nests : j.Nests n) {s : Style}
    (read : ofJson? j = some (.scope s)) : ∀ scope ∈ s.scopes [], scope.1.length ≤ n := by
  induction nests generalizing s with
  | object _ ih =>
      intro scope member
      obtain ⟨entries, listed, same⟩ := Option.map_eq_some_iff.mp read
      cases same
      obtain ⟨key, inner, inside, place⟩ := Style.exists_of_mem_scopes member
      obtain ⟨source, given, value⟩ :=
        exists_of_mem_ofMembers? listed (Style.mem_entries_ofEntries inside)
      rcases place with rfl | ⟨below, deeper, rfl⟩
      · simp
      · have shorter := ih source given value below deeper
        rw [List.length_cons]
        omega
  | null => cases read
  | bool => cases read
  | number => cases read
  | text => cases read
  | array => cases read

/-- The rules of a sheet whose style was read from a text are not deeper than texts can nest. -/
theorem Sheet.depth_lt_of_ofJsonText? {source : Text} {s : Style} {sheet : Sheet}
    (read : Style.ofJsonText? source = some s) (compiled : ofStyle s = .ok sheet) :
    ∀ r ∈ sheet.rules, r.depth < Json.maxDepth := by
  obtain ⟨j, parsed, made⟩ := Option.bind_eq_some_iff.mp read
  have bound := Value.length_scopes_le (Json.nests_of_ofText? parsed)
    (Style.ofJson?_eq_some_iff.mp made)
  intro r member
  obtain ⟨scope, inside, describes⟩ := Sheet.exists_describes_of_mem_rules compiled member
  have short := bound scope inside
  have depth := describes.depth
  omega

end Hypertext
