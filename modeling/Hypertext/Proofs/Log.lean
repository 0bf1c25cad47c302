import Hypertext.Proofs.Commands

/-! The log of a run. It tells of every rule of a sheet, more verbosity only adds to it, and what a
run says and leaves does not depend on it. -/

namespace Hypertext

namespace Sheet

theorem nestedFound_eq_of_nestedRules {s : Style} {selector : Text} {depth : Nat}
    {rules : List Rule} (compiled : nestedRules selector depth s = .ok rules) :
    nestedFound selector depth s = rules := by
  induction s generalizing selector depth rules with
  | nil =>
      cases compiled
      rfl
  | property key value rest ih => exact ih compiled
  | scope key inner rest ihInner ihRest =>
      obtain ⟨child, joined, h⟩ := Except.bind_eq_ok_iff.mp compiled
      obtain ⟨own, ownBuilt, h⟩ := Except.bind_eq_ok_iff.mp h
      obtain ⟨below, belowBuilt, h⟩ := Except.bind_eq_ok_iff.mp h
      obtain ⟨others, othersBuilt, h⟩ := Except.bind_eq_ok_iff.mp h
      cases h
      simp only [nestedFound, joined, ownBuilt, belowBuilt, ihInner belowBuilt,
        ihRest othersBuilt]

/-- Nothing is missing from what is found on the way to a sheet. -/
theorem found_eq_of_ofStyle {s : Style} {sheet : Sheet} (compiled : ofStyle s = .ok sheet) :
    found s = sheet.rules := by
  obtain ⟨own, ownBuilt, h⟩ := Except.bind_eq_ok_iff.mp compiled
  obtain ⟨below, belowBuilt, h⟩ := Except.bind_eq_ok_iff.mp h
  cases h
  simp only [found, ownBuilt, nestedFound_eq_of_nestedRules belowBuilt]

end Sheet

namespace FileSystem

variable {files : FileSystem} {words : List Text} {action : Action} {verbosity : Nat}

theorem log_run (files : FileSystem) (host : Host)
    (asked : Invocation.ofArguments words = .run action verbosity) :
    (files.run host words).log =
      (action.events (files.read action.path)).filter (host.logs verbosity) := by
  rw [run, asked]

/-- On the way to a sheet the file, every rule in order and their number can be logged. -/
theorem log_of_compiles {source : Text} {style : Style} {sheet : Sheet} (host : Host)
    (asked : Invocation.ofArguments words = .run action verbosity)
    (found : files.read action.path = .text source) (read : Style.ofJsonText? source = some style)
    (compiled : Sheet.ofStyle style = .ok sheet) :
    (files.run host words).log =
      (.read action.path (Text.utf8Size source) ::
        (sheet.rules.map Rule.event ++ [.compiled sheet.size])).filter (host.logs verbosity) := by
  simp only [log_run files host asked, found, Action.events, read, Sheet.events,
    Sheet.found_eq_of_ofStyle compiled, compiled]

/-- More verbosity only adds to the log. -/
theorem log_sublist {less more : List Text} {low high : Nat} (host : Host) (le : low ≤ high)
    (asked : Invocation.ofArguments less = .run action low)
    (again : Invocation.ofArguments more = .run action high) :
    ((files.run host less).log).Sublist (files.run host more).log := by
  rw [log_run files host asked, log_run files host again]
  apply List.monotone_filter_right
  intro event logged
  cases settings : host.wanted? with
  | some wanted => simpa [Host.logs, settings] using logged
  | none =>
      simp only [Host.logs, settings, Option.getD_none, decide_eq_true_eq] at logged ⊢
      exact Nat.le_trans logged le

/-- What a run says and leaves is the same whatever is logged. -/
theorem run_eq_of_verbosity {quiet loud : List Text} {low high : Nat} {host other : Host}
    (memory : host.holds = other.holds) (disk : host.stores = other.stores)
    (asked : Invocation.ofArguments quiet = .run action low)
    (again : Invocation.ofArguments loud = .run action high) :
    (files.run host quiet).reply = (files.run other loud).reply ∧
      (files.run host quiet).files = (files.run other loud).files := by
  have writes : files.write? host = files.write? other := by
    funext path content
    rw [write?, write?, disk]
  have outcomes : files.carryOut host = files.carryOut other := by
    funext plan
    cases plan with
    | reply reply => rfl
    | write path content written failed => rw [carryOut, carryOut, writes]
  obtain ⟨log, run⟩ := run_eq files host asked
  obtain ⟨otherLog, rerun⟩ := run_eq files other again
  rw [run, rerun, outcomes, memory]
  exact ⟨rfl, rfl⟩

end FileSystem

end Hypertext
