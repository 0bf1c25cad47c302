import Mathlib.Data.List.Forall2

/-! Opening computations that may fail. -/

theorem List.Forall₂.exists_of_mem_left {α β : Type} {R : α → β → Prop} {xs : List α} {ys : List β}
    (h : List.Forall₂ R xs ys) {x : α} (member : x ∈ xs) : ∃ y ∈ ys, R x y := by
  induction h with
  | nil => cases member
  | @cons a b _ _ here _ ih =>
      rcases List.mem_cons.mp member with rfl | member
      · exact ⟨b, List.mem_cons_self, here⟩
      · obtain ⟨y, there, related⟩ := ih member
        exact ⟨y, List.mem_cons_of_mem _ there, related⟩

namespace Except

variable {ε α β : Type}

theorem map_eq_ok_iff {f : α → β} {x : Except ε α} {b : β} :
    x.map f = .ok b ↔ ∃ a, x = .ok a ∧ f a = b := by
  cases x <;> simp [Except.map]

theorem map_eq_error_iff {f : α → β} {x : Except ε α} {e : ε} :
    x.map f = .error e ↔ x = .error e := by
  cases x <;> simp [Except.map]

theorem mapError_eq_ok_iff {δ : Type} {f : ε → δ} {x : Except ε α} {a : α} :
    x.mapError f = .ok a ↔ x = .ok a := by
  cases x <;> simp [Except.mapError]

theorem mapError_eq_error_iff {δ : Type} {f : ε → δ} {x : Except ε α} {d : δ} :
    x.mapError f = .error d ↔ ∃ e, x = .error e ∧ f e = d := by
  cases x <;> simp [Except.mapError]

theorem bind_eq_ok_iff {f : α → Except ε β} {x : Except ε α} {b : β} :
    x >>= f = .ok b ↔ ∃ a, x = .ok a ∧ f a = .ok b := by
  cases x <;> simp [bind, Except.bind]

theorem mapM_eq_ok_iff {f : α → Except ε β} {xs : List α} {ys : List β} :
    xs.mapM f = .ok ys ↔ List.Forall₂ (fun x y => f x = .ok y) xs ys := by
  induction xs generalizing ys with
  | nil =>
      rw [List.mapM_nil, List.forall₂_nil_left_iff]
      exact ⟨fun h => (Except.ok.inj h).symm, fun h => congrArg Except.ok h.symm⟩
  | cons x xs ih =>
      rw [List.mapM_cons, List.forall₂_cons_left_iff, bind_eq_ok_iff]
      constructor
      · rintro ⟨y, here, h⟩
        obtain ⟨rest, there, same⟩ := bind_eq_ok_iff.mp h
        exact ⟨y, rest, here, ih.mp there, (Except.ok.inj same).symm⟩
      · rintro ⟨y, rest, here, there, rfl⟩
        exact ⟨y, here, bind_eq_ok_iff.mpr ⟨rest, ih.mpr there, rfl⟩⟩

theorem mapM_ok {f : α → β} {xs : List α} :
    (xs.mapM fun x => (.ok (f x) : Except ε β)) = .ok (xs.map f) :=
  List.mapM_pure

def error? : Except ε α → Option ε
  | .error e => some e
  | .ok _ => none

theorem error?_eq_some_iff {x : Except ε α} {e : ε} : x.error? = some e ↔ x = .error e := by
  cases x <;> simp [error?]

theorem error?_eq_none_iff {x : Except ε α} : x.error? = none ↔ ∃ a, x = .ok a := by
  cases x <;> simp [error?]

theorem mapError_bind {δ : Type} {g : ε → δ} {x : Except ε α} {f : α → Except ε β} :
    (x >>= f).mapError g = x.mapError g >>= fun a => (f a).mapError g := by
  cases x <;> rfl

/-- The first of two computations that fails decides. -/
theorem error?_bind {x : Except ε α} {f : α → Except ε β} {later : Option ε}
    (h : ∀ a, x = .ok a → (f a).error? = later) : (x >>= f).error? = x.error?.or later := by
  cases x with
  | error e => rfl
  | ok a => exact h a rfl

/-- A last step that cannot fail adds no error. -/
theorem error?_bind_ok {x : Except ε α} {f : α → β} :
    (x >>= fun a => .ok (f a)).error? = x.error? := by
  cases x <;> rfl

end Except

theorem List.findSome?_cons_eq_or {α β : Type} (f : α → Option β) (x : α) (xs : List α) :
    (x :: xs).findSome? f = (f x).or (xs.findSome? f) := by
  rw [List.findSome?_cons]
  cases f x <;> rfl

/-- A search that passes over what is fine finds the first that is not. -/
theorem List.findSome?_eq_some_iff_first {α β : Type} {f : α → Option β} {fine : α → Prop}
    {blames : α → β → Prop} {xs : List α} {b : β} (passes : ∀ x ∈ xs, f x = none ↔ fine x)
    (stops : ∀ x ∈ xs, f x = some b ↔ blames x b) :
    xs.findSome? f = some b ↔
      ∃ before x after, xs = before ++ x :: after ∧ blames x b ∧
        ∀ earlier ∈ before, fine earlier := by
  rw [List.findSome?_eq_some_iff]
  constructor
  · rintro ⟨before, x, after, rfl, found, silent⟩
    refine ⟨before, x, after, rfl, (stops x (by simp)).mp found, ?_⟩
    intro earlier member
    exact (passes earlier (by simp [member])).mp (silent earlier member)
  · rintro ⟨before, x, after, rfl, blamed, good⟩
    refine ⟨before, x, after, rfl, (stops x (by simp)).mpr blamed, ?_⟩
    intro earlier member
    exact (passes earlier (by simp [member])).mpr (good earlier member)

/-- A relation that is a map where it holds is one on lists. -/
theorem List.forall₂_iff_eq_map {α β : Type} {R : α → β → Prop} {p : α → Prop} {f : α → β}
    (each : ∀ x y, R x y ↔ p x ∧ y = f x) {xs : List α} {ys : List β} :
    List.Forall₂ R xs ys ↔ (∀ x ∈ xs, p x) ∧ ys = xs.map f := by
  induction xs generalizing ys with
  | nil => simp
  | cons x rest ih =>
      rw [List.forall₂_cons_left_iff, List.forall_mem_cons, List.map_cons]
      simp only [each, ih]
      constructor
      · rintro ⟨y, others, ⟨here, rfl⟩, ⟨later, rfl⟩, rfl⟩
        exact ⟨⟨here, later⟩, rfl⟩
      · rintro ⟨⟨here, later⟩, rfl⟩
        exact ⟨_, _, ⟨here, rfl⟩, ⟨later, rfl⟩, rfl⟩

theorem List.forall₂_of_common {α β γ : Type} {P : α → γ → Prop} {Q : β → γ → Prop}
    {R : α → β → Prop} {xs : List α} {ys : List β} {zs : List γ} (hp : List.Forall₂ P xs zs)
    (hq : List.Forall₂ Q ys zs) (h : ∀ x y, ∀ z ∈ zs, P x z → Q y z → R x y) :
    List.Forall₂ R xs ys := by
  induction hp generalizing ys with
  | nil =>
      cases hq
      exact .nil
  | @cons x z xs zs here _ ih =>
      cases hq with
      | cons there rest =>
          exact .cons (h _ _ z List.mem_cons_self here there)
            (ih rest fun x y z member => h x y z (List.mem_cons_of_mem _ member))
