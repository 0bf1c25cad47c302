import Hypertext.Text.Split
import Hypertext.Proofs.Normal

/-! A written tree determines its normal form. Whatever follows a written part starts with a
character that the part cannot hold, so two readings of one text agree part by part. -/

namespace Hypertext

def Tag.isTagChar (c : Char) : Bool := isSmallLetter c || c.isDigit || c == '-'

theorem Tag.isTagChar_of_isLegal {tag : Text} (h : isLegal tag) : ∀ c ∈ tag, isTagChar c := by
  cases tag with
  | nil => cases h
  | cons first rest =>
      simp only [isLegal, Bool.and_eq_true, List.all_eq_true] at h
      intro c member
      rcases List.mem_cons.mp member with rfl | member
      · simp [isTagChar, h.1]
      · exact h.2 c member

/-- What stands after an attribute: the space before the next one or the end of the tag. -/
def AfterAttribute (t : Text) : Prop := ∃ c rest, t = c :: rest ∧ (c = ' ' ∨ c = '>')

theorem AfterAttribute.stops {t : Text} {p : Char → Bool} (h : AfterAttribute t)
    (space : p ' ' = false) (close : p '>' = false) : t.Stops p := by
  obtain ⟨c, rest, rfl, rfl | rfl⟩ := h
  · simpa [Text.Stops] using space
  · simpa [Text.Stops] using close

theorem attributeText_flag {a : Attribute} (h : a.value = .flag true) :
    attributeText a = ' ' :: a.name := by
  simp [attributeText, h]

theorem attributeText_text {a : Attribute} {t : Text} (h : a.value = .text t) :
    attributeText a = ' ' :: a.name ++ '=' :: '"' :: (escape t ++ ['"']) := by
  simp [attributeText, attributeText.quoted, h]

theorem attributeText_eq_cons {a : Attribute} (written : a.Written) :
    ∃ rest, attributeText a = ' ' :: rest := by
  rcases written.value with flag | ⟨t, text⟩
  · exact ⟨_, attributeText_flag flag⟩
  · exact ⟨_, attributeText_text text⟩

theorem afterAttribute_attributes {attributes : List Attribute} (h : ∀ a ∈ attributes, a.Written)
    (rest : Text) : AfterAttribute (attributes.flatMap attributeText ++ '>' :: rest) := by
  cases attributes with
  | nil => exact ⟨'>', rest, rfl, .inr rfl⟩
  | cons a others =>
      obtain ⟨own, space⟩ := attributeText_eq_cons (h a List.mem_cons_self)
      refine ⟨' ', own ++ others.flatMap attributeText ++ '>' :: rest, ?_, .inl rfl⟩
      rw [List.flatMap_cons, space]
      rfl

theorem notMark_of_isName {name : Text} (h : Attribute.isName name) :
    ∀ c ∈ name, !Attribute.endsName c := by
  simp only [Attribute.isName, Bool.and_eq_true, List.all_eq_true] at h
  exact h.2

theorem name_inj {name other x y : Text} (hname : Attribute.isName name)
    (hother : Attribute.isName other) (hx : x.Stops (!Attribute.endsName ·))
    (hy : y.Stops (!Attribute.endsName ·)) (h : ' ' :: name ++ x = ' ' :: other ++ y) :
    name = other ∧ x = y :=
  Text.append_inj_of_stops (notMark_of_isName hname) (notMark_of_isName hother) hx hy
    (List.cons.inj h).2

theorem quoted_inj {t u x y : Text} (h : escape t ++ '"' :: x = escape u ++ '"' :: y) :
    t = u ∧ x = y := by
  have noMark (v : Text) : ∀ c ∈ escape v, (c != '"') = true := by
    intro c member
    by_cases mark : c = '"'
    · cases reference?_of_mem_escape (mark ▸ member) (by decide)
    · simpa using mark
  have stops (z : Text) : Text.Stops (· != '"') ('"' :: z) := by simp [Text.Stops]
  obtain ⟨values, rests⟩ :=
    Text.append_inj_of_stops (noMark t) (noMark u) (stops x) (stops y) h
  exact ⟨escape_injective values, (List.cons.inj rests).2⟩

theorem attribute_inj {a b : Attribute} (ha : a.Written) (hb : b.Written) {x y : Text}
    (hx : AfterAttribute x) (hy : AfterAttribute y)
    (h : attributeText a ++ x = attributeText b ++ y) : a = b ∧ x = y := by
  have equals (z : Text) : Text.Stops (!Attribute.endsName ·) ('=' :: z) := by
    simp [Text.Stops]
    decide
  have ends {z : Text} (after : AfterAttribute z) : z.Stops (!Attribute.endsName ·) :=
    after.stops (by decide) (by decide)
  have notEquals {z : Text} (after : AfterAttribute z) (w : Text) : z ≠ '=' :: w := by
    rintro rfl
    obtain ⟨c, rest, same, rfl | rfl⟩ := after <;> cases same
  obtain ⟨name, value⟩ := a
  obtain ⟨other, value'⟩ := b
  rcases ha.value with flag | ⟨t, text⟩ <;> rcases hb.value with flag' | ⟨u, text'⟩
  · rw [attributeText_flag flag, attributeText_flag flag'] at h
    obtain ⟨names, rests⟩ := name_inj ha.name hb.name (ends hx) (ends hy) h
    simp_all
  · rw [attributeText_flag flag, attributeText_text text', List.append_assoc] at h
    obtain ⟨_, rests⟩ := name_inj ha.name hb.name (ends hx) (equals _) h
    exact absurd rests (notEquals hx _)
  · rw [attributeText_text text, attributeText_flag flag', List.append_assoc] at h
    obtain ⟨_, rests⟩ := name_inj ha.name hb.name (equals _) (ends hy) h
    exact absurd rests.symm (notEquals hy _)
  · rw [attributeText_text text, attributeText_text text', List.append_assoc,
      List.append_assoc] at h
    obtain ⟨names, rests⟩ := name_inj ha.name hb.name (equals _) (equals _) h
    obtain ⟨texts, rests⟩ := quoted_inj (by simpa using rests)
    simp_all

theorem attributes_inj {as bs : List Attribute} (ha : ∀ a ∈ as, a.Written)
    (hb : ∀ b ∈ bs, b.Written) {x y : Text}
    (h : as.flatMap attributeText ++ '>' :: x = bs.flatMap attributeText ++ '>' :: y) :
    as = bs ∧ x = y := by
  induction as generalizing bs with
  | nil =>
      cases bs with
      | nil => exact ⟨rfl, (List.cons.inj h).2⟩
      | cons b bs =>
          obtain ⟨rest, space⟩ := attributeText_eq_cons (hb b List.mem_cons_self)
          simp [space] at h
  | cons a as ih =>
      cases bs with
      | nil =>
          obtain ⟨rest, space⟩ := attributeText_eq_cons (ha a List.mem_cons_self)
          simp [space] at h
      | cons b bs =>
          have later : ∀ a ∈ as, a.Written := fun a member => ha a (List.mem_cons_of_mem _ member)
          have later' : ∀ b ∈ bs, b.Written := fun b member => hb b (List.mem_cons_of_mem _ member)
          simp only [List.flatMap_cons, List.append_assoc] at h
          obtain ⟨rfl, rests⟩ := attribute_inj (ha a List.mem_cons_self) (hb b List.mem_cons_self)
            (afterAttribute_attributes later x) (afterAttribute_attributes later' y) h
          obtain ⟨rfl, same⟩ := ih later later' rests
          exact ⟨rfl, same⟩

theorem startTag_inj {a b : Element} (ha : a.NormalShape) (hb : b.NormalShape) {x y : Text}
    (h : startTag a ++ x = startTag b ++ y) :
    a.tag = b.tag ∧ a.attributes = b.attributes ∧ x = y := by
  have opened : a.tag ++ (a.attributes.flatMap attributeText ++ '>' :: x) =
      b.tag ++ (b.attributes.flatMap attributeText ++ '>' :: y) := by
    simpa [startTag] using h
  have ends {attributes : List Attribute} (written : ∀ a ∈ attributes, a.Written) (z : Text) :
      Text.Stops Tag.isTagChar (attributes.flatMap attributeText ++ '>' :: z) :=
    (afterAttribute_attributes written z).stops (by decide) (by decide)
  obtain ⟨tags, rests⟩ := Text.append_inj_of_stops (Tag.isTagChar_of_isLegal ha.tag)
    (Tag.isTagChar_of_isLegal hb.tag) (ends ha.attributes x) (ends hb.attributes y) opened
  obtain ⟨attributes, rests⟩ := attributes_inj ha.attributes hb.attributes rests
  exact ⟨tags, attributes, rests⟩

/-! Content. An element starts with an opening angle bracket and a letter, an end tag with the
bracket and a slash, and a text with neither. -/

abbrev Element.Normal (e : Element) : Prop := e.Everywhere NormalShape

theorem markup_eq_cons {e : Element} (normal : e.NormalShape) :
    ∃ c rest, e.markup = '<' :: c :: rest ∧ c ≠ '/' := by
  have legal := normal.tag
  cases tag : e.tag with
  | nil =>
      rw [tag] at legal
      cases legal
  | cons c rest =>
      refine ⟨c, _, by rw [e.markup_eq, startTag, tag]; rfl, ?_⟩
      rintro rfl
      rw [tag] at legal
      simp only [Tag.isLegal, Bool.and_eq_true] at legal
      cases legal.1

theorem escape_stops_at_bracket (t : Text) : ∀ c ∈ escape t, (c != '<') = true := by
  intro c member
  by_cases bracket : c = '<'
  · cases reference?_of_mem_escape (bracket ▸ member) (by decide)
  · simpa using bracket

theorem text_ne_bracket {t z w : Text} (nonempty : t ≠ []) : escape t ++ z ≠ '<' :: w := by
  intro h
  cases written : escape t with
  | nil => exact escape_ne_nil nonempty written
  | cons c rest =>
      have other := escape_stops_at_bracket t c (by simp [written])
      rw [written] at h
      rw [(List.cons.inj h).1] at other
      cases other

/-- A text ends where an element or the end tag of its parent begins. -/
theorem content_stops {nodes : List Node} (separated : Separated nodes)
    (apart : ∀ u more, nodes ≠ .text u :: more)
    (below : ∀ e, Node.element e ∈ nodes → e.NormalShape) (z : Text) :
    Text.Stops (· != '<') (nodes.flatMap Node.markup ++ '<' :: z) := by
  cases separated with
  | nil => simp [Text.Stops]
  | @element e rest _ =>
      obtain ⟨c, own, opened, _⟩ := markup_eq_cons (below e List.mem_cons_self)
      simp [Text.Stops, opened]
  | @text t rest _ _ _ => exact absurd rfl (apart t rest)

theorem content_inj {as bs : List Node} {x y : Text}
    (inner : ∀ a, Node.element a ∈ as → ∀ b : Element, b.Normal → ∀ x y : Text,
      a.markup ++ x = b.markup ++ y → a = b ∧ x = y)
    (ha : ∀ a, Node.element a ∈ as → a.Normal) (hb : ∀ b, Node.element b ∈ bs → b.Normal)
    (sa : Separated as) (sb : Separated bs)
    (h : as.flatMap Node.markup ++ '<' :: '/' :: x = bs.flatMap Node.markup ++ '<' :: '/' :: y) :
    as = bs ∧ x = y := by
  induction sa generalizing bs with
  | nil =>
      cases sb with
      | nil => simpa using h
      | @element b rest _ =>
          obtain ⟨c, own, opened, letter⟩ := markup_eq_cons (hb b List.mem_cons_self).own
          simp [opened] at h
          exact absurd h.1.symm letter
      | @text u rest nonempty _ _ =>
          rw [List.flatMap_cons, Node.markup_text, List.append_assoc] at h
          exact absurd h.symm (text_ne_bracket nonempty)
  | @element a as _ ih =>
      have first := ha a List.mem_cons_self
      obtain ⟨c, own, opened, letter⟩ := markup_eq_cons first.own
      cases sb with
      | nil =>
          simp [opened] at h
          exact absurd h.1 letter
      | @element b bs separated =>
          simp only [List.flatMap_cons, Node.markup_element, List.append_assoc] at h
          obtain ⟨rfl, rests⟩ :=
            inner a List.mem_cons_self b (hb b List.mem_cons_self) _ _ h
          obtain ⟨rfl, same⟩ := ih (fun a member => inner a (List.mem_cons_of_mem _ member))
            (fun a member => ha a (List.mem_cons_of_mem _ member))
            (fun b member => hb b (List.mem_cons_of_mem _ member)) separated rests
          exact ⟨rfl, same⟩
      | @text u rest nonempty _ _ =>
          simp only [List.flatMap_cons, Node.markup_element, Node.markup_text, opened,
            List.append_assoc, List.cons_append] at h
          exact absurd h.symm (text_ne_bracket nonempty)
  | @text t as nonempty apart separated ih =>
      cases sb with
      | nil =>
          rw [List.flatMap_cons, Node.markup_text, List.append_assoc] at h
          exact absurd h (text_ne_bracket nonempty)
      | @element b rest _ =>
          obtain ⟨c, own, opened, _⟩ := markup_eq_cons (hb b List.mem_cons_self).own
          simp only [List.flatMap_cons, Node.markup_element, Node.markup_text, opened,
            List.append_assoc, List.cons_append] at h
          exact absurd h (text_ne_bracket nonempty)
      | @text u bs _ apart' separated' =>
          have later : ∀ a, Node.element a ∈ as → a.Normal :=
            fun a member => ha a (List.mem_cons_of_mem _ member)
          have later' : ∀ b, Node.element b ∈ bs → b.Normal :=
            fun b member => hb b (List.mem_cons_of_mem _ member)
          simp only [List.flatMap_cons, Node.markup_text, List.append_assoc] at h
          obtain ⟨texts, rests⟩ := Text.append_inj_of_stops (escape_stops_at_bracket t)
            (escape_stops_at_bracket u)
            (content_stops separated apart (fun a member => (later a member).own) _)
            (content_stops separated' apart' (fun b member => (later' b member).own) _) h
          obtain ⟨rfl, same⟩ := ih (fun a member => inner a (List.mem_cons_of_mem _ member))
            later later' separated' rests
          rw [escape_injective texts]
          exact ⟨rfl, same⟩

/-- One text has one normal reading: the tree and what follows it. -/
theorem markup_append_inj {a b : Element} (ha : a.Normal) (hb : b.Normal) {x y : Text}
    (h : a.markup ++ x = b.markup ++ y) : a = b ∧ x = y := by
  induction a using Element.induction generalizing b x y with
  | step a ih =>
      rw [a.markup_eq, b.markup_eq, List.append_assoc, List.append_assoc] at h
      obtain ⟨tags, attributes, rests⟩ := startTag_inj ha.own hb.own h
      have voids : a.void = b.void := by rw [ha.own.void, hb.own.void, tags]
      rw [← voids] at rests
      cases void : a.void with
      | true =>
          rw [void] at voids
          have children : a.children = b.children := by
            rw [ha.own.empty void, hb.own.empty voids.symm]
          refine ⟨Element.ext tags attributes children (void.trans voids), ?_⟩
          simpa [void] using rests
      | false =>
          have closed : a.children.flatMap Node.markup ++ '<' :: '/' :: (a.tag ++ '>' :: x) =
              b.children.flatMap Node.markup ++ '<' :: '/' :: (b.tag ++ '>' :: y) := by
            simpa [void, endTag] using rests
          obtain ⟨children, tails⟩ := content_inj
            (fun f member g normal x y same => ih f member (ha.child member) normal same)
            (fun f member => ha.child member) (fun f member => hb.child member)
            ha.own.content hb.own.content closed
          rw [tags] at tails
          have ends := List.append_cancel_left tails
          exact ⟨Element.ext tags attributes children voids, (List.cons.inj ends).2⟩

/-- Two trees are written alike exactly when their normal forms are one tree. -/
theorem Element.render_eq_iff_norm_eq {a b : Element} (madeA : a.Made) (madeB : b.Made)
    (plainA : ∀ markup, Node.raw markup ∉ a.nodes) (plainB : ∀ markup, Node.raw markup ∉ b.nodes)
    (finiteA : ∀ n ∈ a.numbers, n.2.isFinite) (finiteB : ∀ n ∈ b.numbers, n.2.isFinite) :
    ∃ s t, a.render = .ok s ∧ b.render = .ok t ∧ (s = t ↔ a.norm = b.norm) := by
  refine ⟨a.markup, b.markup, render_of_chunks (chunks_of_finite finiteA),
    render_of_chunks (chunks_of_finite finiteB), ?_⟩
  rw [← a.markup_norm, ← b.markup_norm]
  constructor
  · intro same
    have texts : a.norm.markup ++ [] = b.norm.markup ++ [] := by rw [same]
    exact (markup_append_inj (normal_norm madeA.legal plainA) (normal_norm madeB.legal plainB)
      texts).1
  · intro same
    rw [same]

/-- A tree that is written as `paragraph` is, with its texts in other pieces. -/
def Element.paragraphInPieces : Element :=
  ⟨['p'],
    [⟨"class".toList, .text "a b".toList⟩, ⟨"hidden".toList, .flag true⟩,
      ⟨"id".toList, .flag false⟩, ⟨"title".toList, .text "\"<\"".toList⟩],
    [.text "x &".toList, .text [], .text " y".toList, .element ⟨"br".toList, [], [], true⟩,
      .text "3".toList], false⟩

theorem Element.paragraphInPieces_made : paragraphInPieces.Made := by
  have lineBreak : Made ⟨"br".toList, [], [], true⟩ :=
    .draft (d := { tag := "br".toList }) (by simp) rfl
  refine .draft
    (d := { tag := ['P'],
            attributes := [("class".toList, .text "a b".toList), ("hidden_".toList, .flag true),
              ("id".toList, .flag false), ("title".toList, .text "\"<\"".toList)],
            children := paragraphInPieces.children }) ?_ rfl
  simpa [paragraphInPieces] using lineBreak

theorem Element.render_eq_iff_norm_eq_paragraph :
    paragraph.norm = paragraphInPieces.norm ∧
      ∃ s t, paragraph.render = .ok s ∧ paragraphInPieces.render = .ok t ∧
        (s = t ↔ paragraph.norm = paragraphInPieces.norm) :=
  ⟨rfl, render_eq_iff_norm_eq paragraph_made paragraphInPieces_made
    (by simp [paragraph, nodes, nodesAmong, Node.nodes])
    (by simp [paragraphInPieces, nodes, nodesAmong, Node.nodes]) paragraph_finite (by decide)⟩

end Hypertext
