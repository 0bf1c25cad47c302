import Hypertext.Proofs.Merge

/-! Styles made of entries one after another. A key stands where it comes first and has what it is
given last, so entries after one another make the merge of the styles they make alone. -/

namespace Hypertext

/-- What stands last under a key. -/
def LastUnder {α : Type} (pairs : List (Text × α)) (key : Text) (value : α) : Prop :=
  ∃ before after, pairs = before ++ (key, value) :: after ∧ ∀ pair ∈ after, pair.1 ≠ key

section LastUnder

variable {α β : Type} {pairs : List (Text × α)} {pair : Text × α} {key : Text} {value : α}

theorem not_lastUnder_nil : ¬LastUnder [] key value := by
  rintro ⟨before, after, split, _⟩
  simp at split

theorem lastUnder_concat :
    LastUnder (pairs ++ [pair]) key value ↔
      pair = (key, value) ∨ pair.1 ≠ key ∧ LastUnder pairs key value := by
  constructor
  · rintro ⟨before, after, split, other⟩
    rcases List.eq_nil_or_concat after with rfl | ⟨later, last, rfl⟩
    · exact .inl (List.singleton_inj.mp (List.append_inj' split rfl).2)
    · rw [List.concat_eq_append, ← List.cons_append, ← List.append_assoc] at split
      rw [List.concat_eq_append, List.forall_mem_append] at other
      obtain ⟨rfl, same⟩ := List.append_inj' split rfl
      obtain rfl := List.singleton_inj.mp same
      exact .inr ⟨other.2 pair (List.mem_singleton.mpr rfl), before, later, rfl, other.1⟩
  · rintro (rfl | ⟨differs, before, after, rfl, other⟩)
    · exact ⟨pairs, [], rfl, nofun⟩
    · refine ⟨before, after ++ [pair], by simp, ?_⟩
      rw [List.forall_mem_append]
      exact ⟨other, by simpa using differs⟩

theorem LastUnder.mem (h : LastUnder pairs key value) : (key, value) ∈ pairs := by
  obtain ⟨before, after, rfl, _⟩ := h
  simp

theorem exists_lastUnder (known : key ∈ pairs.map Prod.fst) : ∃ value, LastUnder pairs key value := by
  induction pairs using List.reverseRecOn with
  | nil => cases known
  | append_singleton pairs pair ih =>
      simp only [lastUnder_concat]
      by_cases same : pair.1 = key
      · exact ⟨pair.2, .inl (Prod.ext same rfl)⟩
      · rw [List.map_append, List.mem_append] at known
        obtain ⟨value, last⟩ := ih (known.resolve_right (by simpa using Ne.symm same))
        exact ⟨value, .inr ⟨same, last⟩⟩

end LastUnder

namespace Style

theorem keys_ofEntries (entries : List (Text × Value)) :
    (ofEntries entries).keys = (entries.map Prod.fst).eraseDups := by
  induction entries using List.reverseRecOn with
  | nil => rfl
  | append_singleton entries entry ih =>
      have last : ([entry.1].removeAll (entries.map Prod.fst)).eraseDups =
          if entry.1 ∈ entries.map Prod.fst then [] else [entry.1] := by
        by_cases known : entry.1 ∈ entries.map Prod.fst
        · rw [if_pos known, List.removeAll, List.filter_cons_of_neg (by simpa using known)]
          rfl
        · rw [if_neg known, List.removeAll, List.filter_cons_of_pos (by simpa using known)]
          rfl
      rw [ofEntries_concat, keys_insert, ih, List.map_append, List.eraseDups_append,
        List.map_singleton, last]
      simp only [List.mem_eraseDups]
      split <;> simp

theorem get?_ofEntries {entries : List (Text × Value)} {key : Text} {value : Value} :
    (ofEntries entries).get? key = some value ↔ LastUnder entries key value := by
  induction entries using List.reverseRecOn with
  | nil => exact iff_of_false nofun not_lastUnder_nil
  | append_singleton entries entry ih =>
      rw [ofEntries_concat, get?_insert, lastUnder_concat, ← ih]
      obtain ⟨name, stored⟩ := entry
      by_cases same : name = key <;> simp [same]

theorem merge_insert {a b : Style} (distinctA : a.keys.Nodup) (distinctB : b.keys.Nodup)
    (key : Text) (value : Value) : a ++ b.insert key value = (a ++ b).insert key value := by
  have single : (cons key value nil).keys.Nodup := by simp
  have last : ∀ s : Style, s.insert key value = s ++ cons key value nil := by
    intro s
    rw [merge_cons, merge_nil]
  rw [last, last, merge_assoc distinctA distinctB single]

theorem ofEntries_append (before after : List (Text × Value)) :
    ofEntries (before ++ after) = ofEntries before ++ ofEntries after := by
  induction after using List.reverseRecOn with
  | nil =>
      rw [List.append_nil]
      rfl
  | append_singleton after entry ih =>
      rw [← List.append_assoc, ofEntries_concat, ofEntries_concat, ih,
        merge_insert (nodup_keys_ofEntries _) (nodup_keys_ofEntries _)]

end Style

end Hypertext
