import Hypertext.Proofs.Inline

/-! Styles without scopes. Written inline or as the body of one scope, such a style gives the same
properties; and if one of its entries is refused there, it is refused here, under the selector of
the scope. -/

namespace Hypertext

namespace Style

def Flat (s : Style) : Prop := ∀ entry ∈ s.entries, ∀ inner, entry.2 ≠ .scope inner

theorem Flat.rest {key : Text} {value : Scalar} {rest : Style}
    (flat : Flat (.property key value rest)) : rest.Flat :=
  fun entry member => flat entry (List.mem_cons_of_mem _ member)

theorem not_flat_scope {key : Text} {inner rest : Style} : ¬Flat (.scope key inner rest) :=
  fun flat => flat _ List.mem_cons_self inner rfl

theorem Flat.entries {s : Style} (flat : s.Flat) :
    s.entries = s.scalars.map fun entry => (entry.1, .scalar entry.2) := by
  induction s with
  | nil => rfl
  | scope key inner rest _ _ => exact absurd flat not_flat_scope
  | property key value rest ih => rw [Style.entries, scalars, List.map_cons, ih flat.rest]

theorem flat_of_ofInline {css : Text} {s : Style} (parsed : ofInline css = .ok s) : s.Flat := by
  intro entry member inner same
  obtain ⟨value, text, _⟩ := stated_of_ofInline parsed entry member
  rw [text] at same
  cases same

theorem Flat.error?_inlineText {s : Style} (flat : s.Flat) :
    s.inlineText.error? =
      s.scalars.findSome? fun entry => Property.error? [] entry.1 entry.2 := by
  rw [Style.error?_inlineText, flat.entries, List.findSome?_map]
  rfl

end Style

theorem Property.error?_within (selector key : Text) (value : Scalar) :
    error? selector key value = (error? [] key value).map (.within selector) := by
  rw [← error?_ofEntry, ← error?_ofEntry, ofEntry_within]
  cases ofEntry [] key value <;> rfl

namespace Sheet

variable {selector : Text} {s : Style}

theorem properties_of_flat (given : selector ≠ []) (flat : s.Flat) :
    properties selector false s = s.inlineProperties.mapError (.within selector) := by
  induction s with
  | nil => rfl
  | scope key inner rest _ _ => exact absurd flat Style.not_flat_scope
  | property key value rest ih =>
      rw [properties, if_neg Bool.false_ne_true, if_neg (by simpa using given),
        Property.ofEntry_within, ih flat.rest, Style.inlineProperties, Except.mapError_bind]
      congr 1
      funext property
      rw [Except.mapError_bind]
      rfl

theorem nestedRules_of_flat (flat : s.Flat) (depth : Nat) :
    nestedRules selector depth s = .ok [] := by
  induction s with
  | nil => rfl
  | scope key inner rest _ _ => exact absurd flat Style.not_flat_scope
  | property key value rest ih => exact ih flat.rest

/-- One loop over the entries decides both. -/
theorem ofStyle_under_of_flat {key : Text} (top : Selector.combine [] key = .ok selector)
    (flat : s.Flat) :
    ofStyle (Style.under key s) =
      (s.inlineProperties.mapError (.within selector)).map fun own =>
        ⟨ownRule selector 0 own⟩ := by
  have given := (Selector.isCombined_of_combine (.inl rfl) top).ne_nil
  have outside : properties [] false (Style.under key s) = .ok [] := rfl
  rw [← properties_of_flat given flat, ofStyle, outside, Style.under, nestedRules, top]
  cases built : properties selector false s with
  | error e => simp only [bind, Except.bind, built, Except.map]
  | ok own =>
      simp [bind, Except.bind, built, Except.map, nestedRules_of_flat flat, nestedRules, ownRule,
        depthWithin]

/-- The sheet and the inline text of a style without scopes: each has one property for each entry,
in their order. In the sheet they make up one rule at the top level, unless there are none. -/
def Spells (selector : Text) (s : Style) (sheet : Sheet) (t : Text) : Prop :=
  ∃ properties : List Property,
    properties.map some = s.scalars.map Property.declared? ∧
    sheet.rules = (if s.entries = [] then [] else [⟨selector, properties, 0⟩]) ∧
    t = List.intercalate [' ']
      (properties.map fun p => p.name ++ ": ".toList ++ p.value ++ ";".toList)

theorem spells_of_inlineProperties (given : selector ≠ []) (flat : s.Flat)
    {own : List Property} (built : s.inlineProperties = .ok own) :
    Spells selector s ⟨ownRule selector 0 own⟩
      (List.intercalate [' '] (own.map Property.toText)) := by
  have inScope : properties selector false s = .ok own := by
    rw [properties_of_flat given flat, built]
    rfl
  have declared := properties_declared inScope
  have none : own = [] ↔ s.entries = [] := by
    rw [flat.entries, List.map_eq_nil_iff, ← List.map_eq_nil_iff (f := Property.declared?),
      ← declared, List.map_eq_nil_iff]
  refine ⟨own, declared, ?_, ?_⟩
  · simp only [ownRule, List.isEmpty_iff, none]
  · congr 1
    apply List.map_congr_left
    intro p _
    simp [Property.toText]

/-- The first entry that is refused, with its error inside and outside of the scope. -/
def Refuses (selector : Text) (s : Style) (e : StyleError) : Prop :=
  ∃ before name value after,
    s.scalars = before ++ (name, value) :: after ∧
    (∀ earlier ∈ before, ∀ around, Property.error? around earlier.1 earlier.2 = none) ∧
    Property.error? [] name value = some e ∧
    Property.error? selector name value = some (e.within selector)

theorem refuses_of_inlineText (flat : s.Flat) {e : StyleError} (h : s.inlineText = .error e) :
    Refuses selector s e := by
  rw [← Except.error?_eq_some_iff, flat.error?_inlineText, List.findSome?_eq_some_iff] at h
  obtain ⟨before, ⟨name, value⟩, after, split, wrong, fine⟩ := h
  refine ⟨before, name, value, after, split, ?_, wrong, ?_⟩
  · intro earlier member around
    rw [Property.error?_within, fine earlier member]
    rfl
  · rw [Property.error?_within, wrong]
    rfl

/-- A style without scopes is written inline just when it has a sheet as the body of a scope, with
the same properties, and else both are refused for the same entry. So a sheet is made of what an
inline style says just when the style can be written inline again. -/
theorem ofStyle_under_agrees {key : Text} (top : Selector.combine [] key = .ok selector) :
    (∀ s : Style, s.Flat →
      ((∃ t, s.inlineText = .ok t) ↔ ∃ sheet, ofStyle (Style.under key s) = .ok sheet) ∧
      (∀ t sheet, s.inlineText = .ok t → ofStyle (Style.under key s) = .ok sheet →
        Spells selector s sheet t) ∧
      ∀ e, s.inlineText = .error e →
        ofStyle (Style.under key s) = .error (e.within selector) ∧ Refuses selector s e) ∧
    ∀ css,
      ((∃ sheet, ofInline key css = .ok sheet) ↔
        ∃ s t, Style.ofInline css = .ok s ∧ s.inlineText = .ok t) ∧
      ∀ s t sheet, Style.ofInline css = .ok s → s.inlineText = .ok t →
        ofInline key css = .ok sheet → Spells selector s sheet t := by
  have given := (Selector.isCombined_of_combine (.inl rfl) top).ne_nil
  have written : ∀ s : Style, s.Flat →
      ((∃ t, s.inlineText = .ok t) ↔ ∃ sheet, ofStyle (Style.under key s) = .ok sheet) := by
    intro s flat
    rw [ofStyle_under_of_flat top flat, Style.inlineText]
    cases s.inlineProperties <;> simp [Except.map, Except.mapError]
  have same : ∀ s : Style, s.Flat → ∀ t sheet, s.inlineText = .ok t →
      ofStyle (Style.under key s) = .ok sheet → Spells selector s sheet t := by
    intro s flat t sheet text compiled
    obtain ⟨own, built, rfl⟩ := Except.map_eq_ok_iff.mp text
    rw [ofStyle_under_of_flat top flat, built] at compiled
    cases compiled
    exact spells_of_inlineProperties given flat built
  constructor
  · intro s flat
    refine ⟨written s flat, same s flat, ?_⟩
    intro e refused
    refine ⟨?_, refuses_of_inlineText flat refused⟩
    rw [ofStyle_under_of_flat top flat, Except.map_eq_error_iff.mp refused]
    rfl
  · intro css
    constructor
    · constructor
      · rintro ⟨sheet, compiled⟩
        obtain ⟨s, parsed, compiled⟩ := Except.bind_eq_ok_iff.mp compiled
        obtain ⟨t, text⟩ := (written s (Style.flat_of_ofInline parsed)).mpr ⟨sheet, compiled⟩
        exact ⟨s, t, parsed, text⟩
      · rintro ⟨s, t, parsed, text⟩
        obtain ⟨sheet, compiled⟩ := (written s (Style.flat_of_ofInline parsed)).mp ⟨t, text⟩
        exact ⟨sheet, Except.bind_eq_ok_iff.mpr ⟨s, parsed, compiled⟩⟩
    · intro s t sheet parsed text compiled
      obtain ⟨again, reparsed, compiled⟩ := Except.bind_eq_ok_iff.mp compiled
      obtain rfl := Except.ok.inj (parsed.symm.trans reparsed)
      exact same s (Style.flat_of_ofInline parsed) t sheet text compiled

def buttonSheet : Sheet where
  rules := [⟨"a, .b".toList, [⟨"color".toList, "blue".toList⟩, ⟨"width".toList, "1px".toList⟩], 0⟩]

theorem ofStyle_under_agrees_button :
    Selector.combine [] "a,.b".toList = .ok "a, .b".toList ∧
      Spells "a, .b".toList Style.button buttonSheet "color: blue; width: 1px;".toList ∧
      Style.unfinished.Flat ∧
      Style.unfinished.inlineText = .error (.blankValue [] ['b']) ∧
      ofStyle (Style.under "a,.b".toList Style.unfinished) =
        .error (.blankValue "a, .b".toList ['b']) ∧
      ∃ sheet, ofInline "a,.b".toList "color: red; width: 1px; color:blue".toList = .ok sheet := by
  have top : Selector.combine [] "a,.b".toList = .ok "a, .b".toList := rfl
  have read : Style.ofInline "a:1; b:; :2".toList = .ok Style.unfinished := rfl
  have flat := Style.flat_of_ofInline read
  have refused : Style.unfinished.inlineText = .error (.blankValue [] ['b']) := rfl
  have text : Style.button.inlineText = .ok "color: blue; width: 1px;".toList := rfl
  have parsed : Style.ofInline "color: red; width: 1px; color:blue".toList = .ok Style.button := rfl
  have compiled : ofInline "a,.b".toList "color: red; width: 1px; color:blue".toList =
      .ok buttonSheet := rfl
  obtain ⟨flatStyles, inlineStyles⟩ := ofStyle_under_agrees top
  obtain ⟨accepted, spelled⟩ := inlineStyles "color: red; width: 1px; color:blue".toList
  exact ⟨top, spelled _ _ _ parsed text compiled, flat, refused,
    ((flatStyles _ flat).2.2 _ refused).1, accepted.mpr ⟨_, _, parsed, text⟩⟩

end Sheet

end Hypertext
