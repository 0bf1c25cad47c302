import Hypertext.Proofs.Commands

/-! Room for the pads of a sheet. A pad is as long as the indent times a depth that the style
decides, and neither has a bound of its own, so no machine has room for every one. Whether one could
have it can be told from the style, and where none could a build breaks off before it has written. -/

namespace Hypertext

/-- There is room for one level, and for the levels above every scope that has a property of its
own. -/
structure Style.HasRoom (indent : Nat) (s : Style) : Prop where
  level : indent ≤ Text.capacity
  scopes : ∀ scope ∈ s.scopes [], scope.2.scalars ≠ [] →
    indent * (scope.1.length - 1) ≤ Text.capacity

namespace Sheet

variable {s : Style} {sheet : Sheet} {indent : Nat}

theorem forall_mem_padWidths {p : Nat → Prop} :
    (∀ width ∈ sheet.padWidths indent, p width) ↔
      p indent ∧ ∀ r ∈ sheet.rules, p (indent * r.depth) := by
  rw [padWidths, List.forall_mem_cons, List.forall_mem_map]
  rfl

theorem map_depth (compiled : ofStyle s = .ok sheet) :
    sheet.rules.map (·.depth) = ((s.scopes []).filter hasScalars).map (·.1.length - 1) := by
  have described : List.Forall₂ Rule.Describes sheet.rules ((s.scopes []).filter hasScalars) :=
    nestedRules_describe rfl rfl (ofStyle_eq_ok_iff.mp compiled).2
  rw [← List.forall₂_eq_eq_eq, List.forall₂_map_left_iff, List.forall₂_map_right_iff]
  refine described.imp fun r scope describes => ?_
  rw [describes.depth, Nat.add_sub_cancel]

theorem padWidths_le_iff_hasRoom (compiled : ofStyle s = .ok sheet) :
    (∀ width ∈ sheet.padWidths indent, width ≤ Text.capacity) ↔ s.HasRoom indent := by
  have depths : (∀ r ∈ sheet.rules, indent * r.depth ≤ Text.capacity) ↔
      ∀ depth ∈ sheet.rules.map (·.depth), indent * depth ≤ Text.capacity := by
    rw [List.forall_mem_map]
  rw [forall_mem_padWidths, depths, map_depth compiled, List.forall_mem_map]
  have scalars : ∀ scope : List Text × Style, hasScalars scope = true ↔ scope.2.scalars ≠ [] := by
    simp [hasScalars]
  simp only [List.mem_filter, scalars]
  constructor
  · rintro ⟨level, rules⟩
    exact ⟨level, fun scope member own => rules scope ⟨member, own⟩⟩
  · rintro ⟨level, scopes⟩
    exact ⟨level, fun scope member => scopes scope member.1 member.2⟩

end Sheet

/-- A style that is read from a text is so flat that only a huge indent leaves no room. -/
theorem Style.hasRoom_of_ofJsonText? {source : Text} {s : Style} {sheet : Sheet} {indent : Nat}
    (read : ofJsonText? source = some s) (compiled : Sheet.ofStyle s = .ok sheet)
    (small : indent * (Json.maxDepth - 1) ≤ Text.capacity) : s.HasRoom indent := by
  rw [← Sheet.padWidths_le_iff_hasRoom compiled, Sheet.forall_mem_padWidths]
  refine ⟨Nat.le_trans (Nat.le_mul_of_pos_right indent (by decide)) small, fun r member => ?_⟩
  have shallow := Sheet.depth_lt_of_ofJsonText? read compiled r member
  exact Nat.le_trans (Nat.mul_le_mul_left indent (Nat.le_sub_one_of_lt shallow)) small

/-- As every real one is. -/
def Host.Bounded (host : Host) : Prop := ∀ width, host.holds width = true → width ≤ Text.capacity

theorem Sheet.hasRoom_eq_false {s : Style} {sheet : Sheet} {indent : Nat} {host : Host}
    (bounded : host.Bounded) (compiled : ofStyle s = .ok sheet) (noRoom : ¬s.HasRoom indent) :
    sheet.hasRoom host.holds indent = false := by
  rw [Bool.eq_false_iff]
  intro room
  apply noRoom
  rw [← padWidths_le_iff_hasRoom compiled]
  exact fun width member => bounded width (List.all_eq_true.mp room width member)

theorem FileSystem.run_brokenOff {files : FileSystem} {host : Host} {words : List Text}
    {path : Text} {indent : Nat} {output : Option Text} {verbosity : Nat} {sheet : Sheet}
    (asked : Invocation.ofArguments words = .run (.build path indent output) verbosity)
    (own : files.Compiles path sheet) (full : sheet.hasRoom host.holds indent = false) :
    (files.run host words).reply = .brokenOff ∧ (files.run host words).files = files := by
  obtain ⟨log, run⟩ := run_of_compiles host asked own
  rw [run]
  simp only [Action.perform, full]
  exact ⟨rfl, rfl⟩

/-- The pads of a sheet are all within the capacity exactly if the indent, and the indent times the
depth of every scope with a property, is. A style from a text always meets this with an indent that
is small enough. Where it is not met every host breaks a build off with nothing printed or written;
where it is, that still depends on how much memory there is. -/
theorem Sheet.padWidths_le_iff {s : Style} {sheet : Sheet} (compiled : ofStyle s = .ok sheet)
    (indent : Nat) :
    ((∀ width ∈ sheet.padWidths indent, width ≤ Text.capacity) ↔ s.HasRoom indent) ∧
    (∀ source, Style.ofJsonText? source = some s →
      indent * (Json.maxDepth - 1) ≤ Text.capacity → s.HasRoom indent) ∧
    ∀ (files : FileSystem) (host : Host) (words : List Text) (path source : Text)
      (output : Option Text) (verbosity : Nat),
      host.Bounded → Invocation.ofArguments words = .run (.build path indent output) verbosity →
      files.read path = .text source → Style.ofJsonText? source = some s → ¬s.HasRoom indent →
      (files.run host words).reply = .brokenOff ∧ (files.run host words).files = files := by
  refine ⟨padWidths_le_iff_hasRoom compiled,
    fun _ read small => Style.hasRoom_of_ofJsonText? read compiled small, ?_⟩
  intro files host words path source output verbosity bounded asked found read noRoom
  exact FileSystem.run_brokenOff asked ⟨source, s, found, read, compiled⟩
    (hasRoom_eq_false bounded compiled noRoom)

theorem Sheet.padWidths_le_iff_hovered :
    let wide := ["build", "--indent=+9223372036854775808", "a.json"].map String.toList
    let files := FileSystem.oneFile
    ofStyle Style.hovered = .ok hovered ∧ hovered.padWidths 2 = [2, 0, 2] ∧
      Host.largest.Bounded ∧
      Invocation.ofArguments wide = .run (.build "a.json".toList (Nat.pow 2 63) none) 0 ∧
      (∀ width ∈ hovered.padWidths 2, width ≤ Text.capacity) ∧
      (files.run .largest wide).reply = .brokenOff ∧ (files.run .largest wide).files = files := by
  intro wide files
  have compiled : ofStyle Style.hovered = .ok hovered := rfl
  have bounded : Host.largest.Bounded := fun _ held => of_decide_eq_true held
  have asked :
      Invocation.ofArguments wide = .run (.build "a.json".toList (Nat.pow 2 63) none) 0 := by
    decide
  obtain ⟨source, found, read⟩ : ∃ source, files.read "a.json".toList = .text source ∧
      Style.ofJsonText? source = some Style.hovered := ⟨_, rfl, by decide +kernel⟩
  obtain ⟨widths, flat, _⟩ := padWidths_le_iff compiled 2
  obtain ⟨_, _, breaks⟩ := padWidths_le_iff compiled (Nat.pow 2 63)
  have noRoom : ¬Style.hovered.HasRoom (Nat.pow 2 63) := fun room => absurd room.level (by decide)
  exact ⟨compiled, rfl, bounded, asked, widths.mpr (flat source read (by decide)),
    breaks files .largest _ _ _ _ _ bounded asked found read noRoom⟩

def FileSystem.emptyStyle : FileSystem where
  locate path := if path = "s.json".toList then some ["s.json".toList] else none
  object place :=
    if place = ["s.json".toList] then .file (.text r"{}".toList) ⟨true, true⟩ else .vacant none

/-- The indent of `2 ^ 63` is accepted, and so is that of `2 ^ 62`, at which one level is within the
capacity and two are not. -/
theorem Sheet.padWidths_beyond_capacity :
    let words := ["build", "s.json", "--indent", "9223372036854775808"].map String.toList
    let fewer := ["build", "s.json", "--indent", "4611686018427387904"].map String.toList
    Invocation.ofArguments words = .run (.build "s.json".toList (Nat.pow 2 63) none) 0 ∧
      Invocation.ofArguments fewer = .run (.build "s.json".toList (Nat.pow 2 62) none) 0 ∧
      ofStyle .nil = .ok ⟨[]⟩ ∧ ofStyle Style.headings = .ok headings ∧
      (¬∀ width ∈ (⟨[]⟩ : Sheet).padWidths (Nat.pow 2 63), width ≤ Text.capacity) ∧
      Nat.pow 2 62 ≤ Text.capacity ∧
      (¬∀ width ∈ headings.padWidths (Nat.pow 2 62), width ≤ Text.capacity) ∧
      (FileSystem.emptyStyle.run .largest words).reply = .brokenOff := by
  decide +kernel

end Hypertext
