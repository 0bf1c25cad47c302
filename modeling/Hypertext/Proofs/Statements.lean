import Hypertext.Proofs.Entries
import Hypertext.Proofs.Inline

/-! What inline styles say. A text is accepted exactly if each of its statements that is not blank
has one colon. It stands for the pairs of its statements, and a semicolon between two texts for the
merge of their styles. -/

namespace Hypertext

namespace Text

def isAllBlank (t : Text) : Bool := t.all isBlank

theorem isEmpty_trim (t : Text) : (trim t).isEmpty = t.isAllBlank := by
  rw [Bool.eq_iff_iff, List.isEmpty_iff, trim_eq_nil_iff, isAllBlank, List.all_eq_true]

end Text

namespace Style

structure Statements (css : Text) (statements : List Text) : Prop where
  some : statements ≠ []
  apart : ∀ statement ∈ statements, ';' ∉ statement
  joined : List.intercalate [';'] statements = css

/-- A statement that a text may have: a blank one is passed over. -/
def Fits (statement : Text) : Prop := statement.isAllBlank ∨ statement.count ':' = 1

/-- The keys in the order in which they come first, each with the text that comes last. -/
structure Gathers (pairs : List (Text × Text)) (s : Style) : Prop where
  keys : s.keys = (pairs.map Prod.fst).eraseDups
  values : ∀ key value, s.get? key = some value ↔
    ∃ t, value = .scalar (.text t) ∧ LastUnder pairs key t

def Misfits (statement : Text) (e : StyleError) : Prop :=
  ¬Fits statement ∧ e = .malformedStatement (Text.trim statement)

def Offends (statements : List Text) (e : StyleError) : Prop :=
  ∃ before statement after, statements = before ++ statement :: after ∧ Misfits statement e ∧
    ∀ earlier ∈ before, Fits earlier

def nonblank (statements : List Text) : List Text := statements.filter (!·.isAllBlank)

def textEntry (pair : Text × Text) : Text × Value := (pair.1, .scalar (.text pair.2))

theorem insertStatements_eq (s : Style) (statements : List Text) :
    insertStatements s statements =
      ((nonblank statements).mapM statement?).map fun pairs =>
        (pairs.map textEntry).foldl (fun s entry => s.insert entry.1 entry.2) s := by
  -- the statements before these have gone into `s`
  induction statements generalizing s with
  | nil => rfl
  | cons statement rest ih =>
      rw [insertStatements, Text.isEmpty_trim, nonblank, List.filter_cons]
      cases blank : statement.isAllBlank with
      | true => exact ih s
      | false =>
          simp only [Bool.false_eq_true, if_false, Bool.not_false, if_true, List.mapM_cons, ih]
          cases statement? statement with
          | error e => rfl
          | ok pair =>
              change ((nonblank rest).mapM statement?).map _ =
                (((nonblank rest).mapM statement?).map (pair :: ·)).map _
              cases (nonblank rest).mapM statement? <;> rfl

theorem ofInline_eq (css : Text) :
    ofInline css =
      ((nonblank (Text.splitOn ';' css)).mapM statement?).map fun pairs =>
        ofEntries (pairs.map textEntry) :=
  insertStatements_eq .nil _

theorem lastUnder_map_textEntry {pairs : List (Text × Text)} {key : Text} {value : Value} :
    LastUnder (pairs.map textEntry) key value ↔
      ∃ t, value = .scalar (.text t) ∧ LastUnder pairs key t := by
  induction pairs using List.reverseRecOn with
  | nil => simp [not_lastUnder_nil]
  | append_singleton pairs pair ih =>
      obtain ⟨name, t⟩ := pair
      rw [List.map_append, List.map_singleton, lastUnder_concat, ih]
      simp only [lastUnder_concat, textEntry, Prod.mk.injEq]
      grind

/-- There is one style that gathers the pairs. -/
theorem gathers_iff {pairs : List (Text × Text)} {s : Style} :
    Gathers pairs s ↔ s = ofEntries (pairs.map textEntry) := by
  have keys : (ofEntries (pairs.map textEntry)).keys = (pairs.map Prod.fst).eraseDups := by
    rw [keys_ofEntries, List.map_map]
    rfl
  constructor
  · intro gathers
    have same := gathers.keys.trans keys.symm
    apply eq_of_keys_eq (same ▸ nodup_keys_ofEntries _) same
    intro key
    apply Option.ext
    intro value
    rw [gathers.values, get?_ofEntries, lastUnder_map_textEntry]
  · rintro rfl
    refine ⟨keys, ?_⟩
    intro key value
    rw [get?_ofEntries, lastUnder_map_textEntry]

theorem ofInline_eq_ok_iff {css : Text} {s : Style} :
    ofInline css = .ok s ↔
      ∃ pairs, List.Forall₂ Declares (nonblank (Text.splitOn ';' css)) pairs ∧
        Gathers pairs s := by
  rw [ofInline_eq, Except.map_eq_ok_iff]
  simp only [Except.mapM_eq_ok_iff, statement?_eq_ok_iff, gathers_iff]
  exact exists_congr fun pairs => and_congr_right' eq_comm

def offence? (statement : Text) : Option StyleError :=
  if statement.isAllBlank then none else (statement? statement).error?

theorem error?_insertStatements (s : Style) (statements : List Text) :
    (insertStatements s statements).error? = statements.findSome? offence? := by
  induction statements generalizing s with
  | nil => rfl
  | cons statement rest ih =>
      rw [insertStatements, Text.isEmpty_trim, List.findSome?_cons_eq_or, offence?]
      cases statement.isAllBlank with
      | true => exact ih s
      | false => exact Except.error?_bind fun pair _ => ih _

theorem Fits.offence? {statement : Text} (fits : Fits statement) : offence? statement = none := by
  rw [Style.offence?]
  rcases fits with blank | one
  · rw [if_pos blank]
  · obtain ⟨pair, declares⟩ := exists_declares_iff.mpr one
    rw [statement?_of_declares declares]
    exact ite_self _

theorem offence?_of_not_fits {statement : Text} (unfit : ¬Fits statement) :
    offence? statement = some (.malformedStatement (Text.trim statement)) := by
  rw [Fits, not_or] at unfit
  rw [offence?, if_neg unfit.1, statement?_of_count_ne unfit.2]
  rfl

theorem offence?_eq_none_iff {statement : Text} : offence? statement = none ↔ Fits statement := by
  refine ⟨?_, Fits.offence?⟩
  intro none
  by_contra unfit
  cases none.symm.trans (offence?_of_not_fits unfit)

theorem offence?_eq_some_iff {statement : Text} {e : StyleError} :
    offence? statement = some e ↔ Misfits statement e := by
  by_cases fits : Fits statement
  · rw [fits.offence?]
    exact iff_of_false nofun fun misfits => misfits.1 fits
  · rw [offence?_of_not_fits fits, Option.some.injEq]
    exact ⟨fun same => ⟨fits, same.symm⟩, fun misfits => misfits.2.symm⟩

theorem error?_ofInline (css : Text) :
    (ofInline css).error? = (Text.splitOn ';' css).findSome? offence? :=
  error?_insertStatements .nil _

theorem exists_ofInline_iff {css : Text} :
    (∃ s, ofInline css = .ok s) ↔ ∀ statement ∈ Text.splitOn ';' css, Fits statement := by
  rw [← Except.error?_eq_none_iff, error?_ofInline, List.findSome?_eq_none_iff]
  simp only [offence?_eq_none_iff]

theorem ofInline_eq_error_iff {css : Text} {e : StyleError} :
    ofInline css = .error e ↔ Offends (Text.splitOn ';' css) e := by
  rw [← Except.error?_eq_some_iff, error?_ofInline]
  exact List.findSome?_eq_some_iff_first (fun _ _ => offence?_eq_none_iff)
    fun _ _ => offence?_eq_some_iff

theorem statements_splitOn (css : Text) : Statements css (Text.splitOn ';' css) where
  some := Text.splitOn_ne_nil ';' css
  apart _ member := Text.not_mem_of_mem_splitOn member
  joined := Text.intercalate_splitOn css

theorem ofInline_append (a b : Text) :
    ofInline (a ++ ';' :: b) = do
      let s ← ofInline a
      let t ← ofInline b
      return s ++ t := by
  simp only [ofInline_eq, Text.splitOn_append, nonblank, List.filter_append, List.mapM_append]
  cases ((Text.splitOn ';' a).filter (!·.isAllBlank)).mapM statement? with
  | error e => rfl
  | ok first =>
      cases ((Text.splitOn ';' b).filter (!·.isAllBlank)).mapM statement? with
      | error e => rfl
      | ok second =>
          change Except.ok (ofEntries ((first ++ second).map textEntry)) = Except.ok _
          rw [List.map_append, ofEntries_append]

/-- A text is read exactly if all its statements fit, and is refused for the first that does not.
What is read has the keys in order of first occurrence, each with its last value. A semicolon
between texts merges their styles. -/
theorem ofInline_grammar :
    (∀ css, ∃ statements, Statements css statements ∧
      ((∃ s, ofInline css = .ok s) ↔ ∀ statement ∈ statements, Fits statement) ∧
      (∀ e, ofInline css = .error e ↔ Offends statements e) ∧
      ∀ s, ofInline css = .ok s ↔
        ∃ pairs, List.Forall₂ Declares (nonblank statements) pairs ∧ Gathers pairs s) ∧
    ∀ a b, ofInline (a ++ ';' :: b) = do
      let s ← ofInline a
      let t ← ofInline b
      return s ++ t := by
  refine ⟨?_, ofInline_append⟩
  intro css
  exact ⟨Text.splitOn ';' css, statements_splitOn css, exists_ofInline_iff,
    fun _ => ofInline_eq_error_iff, fun _ => ofInline_eq_ok_iff⟩

end Style

end Hypertext
