import Hypertext.Command.Arguments
import Hypertext.Proofs.Outcome
import Mathlib.Data.Nat.Digits.Defs

/-! What can be asked for on a command line: every action on every path, with an indent of 64 bits
if it is a build, and nothing else. -/

namespace Hypertext

theorem Text.toNat?_eq_ofDigitChars {t : Text} (digits : ∀ c ∈ t, c.isDigit) :
    toNat? t = some (Nat.ofDigitChars 10 t 0) := by
  have loop : ∀ (t : Text) (n : Nat), (∀ c ∈ t, c.isDigit) →
      t.foldlM (fun n c =>
        if c.isDigit then some (10 * n + (c.toNat - '0'.toNat)) else none) n =
        some (Nat.ofDigitChars 10 t n) := by
    intro t
    induction t with
    | nil => exact fun n _ => rfl
    | cons c rest ih =>
        intro n digits
        have first : c.isDigit = true := digits c List.mem_cons_self
        rw [List.foldlM_cons, if_pos first]
        exact ih _ fun d member => digits d (List.mem_cons_of_mem c member)
  exact loop t 0 digits

/-- What a request may hold: only an indent has a bound. -/
def Action.Sized : Action → Prop
  | .build _ indent _ => indent < Nat.pow 2 64
  | .rules _ => True
  | .check _ => True

namespace Invocation

theorem indentOf?_ofNat {n : Nat} (small : n < Nat.pow 2 64) :
    indentOf? (Nat.toDigits 10 n) = some n := by
  have digits : ∀ c ∈ Nat.toDigits 10 n, c.isDigit :=
    fun c member => Nat.isDigit_of_mem_toDigits (by decide) (by decide) member
  have read := Text.toNat?_eq_ofDigitChars digits
  rw [Nat.ofDigitChars_ten_toDigits] at read
  obtain ⟨c, rest, split⟩ := List.exists_cons_of_ne_nil (Nat.toDigits_ne_nil (n := n) (b := 10))
  rw [split] at digits read ⊢
  have noSign : c ≠ '+' := by
    rintro rfl
    exact absurd (digits '+' List.mem_cons_self) (by decide)
  simp [indentOf?, noSign, read, small]

theorem indentOf?_lt {t : Text} {n : Nat} (h : indentOf? t = some n) : n < Nat.pow 2 64 := by
  simp only [indentOf?] at h
  split_ifs at h
  obtain ⟨m, _, kept⟩ := Option.bind_eq_some_iff.mp h
  split_ifs at kept with small
  exact Option.some.inj kept ▸ small

/-- Words that ask for an action. The path comes after two hyphens, whatever it starts with. -/
def wordsFor : Action → List Text
  | .build path indent output? =>
      "build".toList :: ("--indent=".toList ++ Nat.toDigits 10 indent) ::
        output?.toList.map ("--output=".toList ++ ·) ++ ["--".toList, path]
  | .rules path => ["rules".toList, "--".toList, path]
  | .check path => ["check".toList, "--".toList, path]

theorem ofWords_setting {verb : Verb} {before more : Nat} {given after : Given} {word value : Text}
    {setting : Setting} (reads : meaning verb word = (more, .setting setting value))
    (goesOn : word ≠ ['-', '-'])
    (taken : (given.moreVerbose more).with? setting value = some after) (rest : List Text) :
    ofWords verb before given none (word :: rest) = ofWords verb before after none rest := by
  simp [ofWords, goesOn, reads, taken]

theorem ofArguments_wordsFor {a : Action} (sized : a.Sized) :
    ofArguments (wordsFor a) = .run a 0 := by
  cases a with
  | build path indent output? =>
      have word : meaning .build ("--indent=".toList ++ Nat.toDigits 10 indent) =
          (0, .setting .indent (Nat.toDigits 10 indent)) := rfl
      have given : Given.with? (Given.moreVerbose {} 0) .indent (Nat.toDigits 10 indent) =
          some { indent? := some indent } := by
        rw [Given.with?, indentOf?_ofNat sized]
        rfl
      have first : ∀ rest, ofArguments ("build".toList ::
          ("--indent=".toList ++ Nat.toDigits 10 indent) :: rest) =
            ofWords .build 0 { indent? := some indent } none rest := by
        intro rest
        calc
          _ = ofWords .build 0 {} none
                (("--indent=".toList ++ Nat.toDigits 10 indent) :: rest) := rfl
          _ = _ := ofWords_setting word (by simp) given rest
      rw [wordsFor, List.cons_append, List.cons_append, first]
      cases output? <;> rfl
  | rules path => rfl
  | check path => rfl

/-! What is accepted. -/

namespace Given

def Sized (g : Given) : Prop := ∀ n, g.indent? = some n → n < Nat.pow 2 64

variable {g after : Given}

theorem Sized.withPath? (sized : g.Sized) {path : Text} (h : g.withPath? path = some after) :
    after.Sized := by
  rw [Given.withPath?] at h
  split_ifs at h
  cases h
  exact sized

theorem Sized.with? (sized : g.Sized) {setting : Setting} {value : Text}
    (h : g.with? setting value = some after) : after.Sized := by
  cases setting with
  | indent =>
      rw [Given.with?] at h
      split_ifs at h
      obtain ⟨n, read, rfl⟩ := Option.map_eq_some_iff.mp h
      intro m same
      exact Option.some.inj same ▸ indentOf?_lt read
  | output =>
      rw [Given.with?] at h
      split_ifs at h
      cases h
      exact sized

theorem Sized.paths? {words : List Text} (sized : g.Sized) (h : g.paths? words = some after) :
    after.Sized := by
  induction words generalizing g with
  | nil =>
      cases h
      exact sized
  | cons word rest ih =>
      obtain ⟨next, one, h⟩ := Option.bind_eq_some_iff.mp h
      exact ih (sized.withPath? one) h

theorem Sized.action? (sized : g.Sized) {verb : Verb} {a : Action}
    (h : g.action? verb = some a) : a.Sized := by
  obtain ⟨path, _, rfl⟩ := Option.map_eq_some_iff.mp h
  cases verb with
  | build =>
      change g.indent?.getD 4 < Nat.pow 2 64
      cases given : g.indent? with
      | none => decide
      | some n => exact sized n given
  | rules => trivial
  | check => trivial

end Given

theorem sized_of_runIfComplete {verb : Verb} {before verbosity : Nat} {given? : Option Given}
    {a : Action} (sized : ∀ g, given? = some g → g.Sized)
    (h : runIfComplete verb before given? = .run a verbosity) : a.Sized := by
  cases given? with
  | none => cases h
  | some given =>
      rw [runIfComplete] at h
      split at h
      · cases h
      · rename_i found
        cases h
        exact (sized given rfl).action? found

/-- One word after another keeps the indent that is given within its bound. -/
theorem sized_of_ofWords {verb : Verb} {before verbosity : Nat} {given : Given}
    {expected? : Option Setting} {words : List Text} {a : Action} (sized : given.Sized)
    (h : ofWords verb before given expected? words = .run a verbosity) : a.Sized := by
  induction words generalizing given expected? with
  | nil =>
      rw [ofWords] at h
      split at h
      · cases h
      · refine sized_of_runIfComplete (fun g same => ?_) h
        cases same
        exact sized
  | cons word rest ih =>
      cases expected? with
      | some setting =>
          simp only [ofWords] at h
          split_ifs at h
          split at h
          · rename_i one
            exact ih (sized.with? one) h
          · cases h
      | none =>
          simp only [ofWords] at h
          split_ifs at h
          · exact sized_of_runIfComplete (fun g same => sized.paths? same) h
          · generalize meaning verb word = said at h
            obtain ⟨more, said⟩ := said
            have louder : (given.moreVerbose more).Sized := sized
            cases said with
            | nothing => exact ih louder h
            | path path =>
                simp only at h
                split at h
                · rename_i one
                  exact ih (louder.withPath? one) h
                · cases h
            | setting setting value =>
                simp only at h
                split at h
                · rename_i one
                  exact ih (louder.with? one) h
                · cases h
            | expects setting => exact ih louder h
            | help => cases h
            | misuse => cases h

theorem ofTopic_ne_run (words : List Text) (a : Action) (verbosity : Nat) :
    ofTopic words ≠ .run a verbosity := by
  intro h
  unfold ofTopic at h
  split at h
  · cases h
  · split_ifs at h
  · cases h

theorem ofFirstLetters_ne_run (letters : Text) (a : Action) (verbosity : Nat) :
    ofFirstLetters letters ≠ .error (.run a verbosity) := by
  induction letters with
  | nil => exact nofun
  | cons c rest ih =>
      intro h
      rw [ofFirstLetters] at h
      split_ifs at h
      · exact ih (Except.map_eq_error_iff.mp h)
      all_goals cases h

theorem sized_of_ofArguments {words : List Text} {a : Action} {verbosity : Nat}
    (h : ofArguments words = .run a verbosity) : a.Sized := by
  rw [ofArguments] at h
  generalize 0 = before at h
  induction words generalizing before with
  | nil => cases h
  | cons word rest ih =>
      simp only [ofArgumentsFrom] at h
      split at h
      · refine sized_of_ofWords (fun n given => ?_) h
        cases given
      · split_ifs at h
        · exact absurd h (ofTopic_ne_run rest a verbosity)
        · exact ih _ h
        · split at h
          · cases h
          · split at h
            · rename_i first
              exact absurd (h ▸ first) (ofFirstLetters_ne_run _ a verbosity)
            · exact ih _ h
          · cases h

/-- An action can be asked for exactly if its indent, should it have one, is of 64 bits. -/
theorem exists_words_iff (a : Action) :
    (∃ words verbosity, ofArguments words = .run a verbosity) ↔ a.Sized := by
  constructor
  · rintro ⟨words, verbosity, asked⟩
    exact sized_of_ofArguments asked
  · exact fun sized => ⟨wordsFor a, 0, ofArguments_wordsFor sized⟩

end Invocation

end Hypertext
