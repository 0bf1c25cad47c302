import Hypertext.Proofs.Escape
import Hypertext.Proofs.Levels

/-! A value that is printed as JSON reads back. The characters become the tokens of the value,
whatever has been read before, and the tokens become the value, whatever containers are open. -/

namespace Hypertext

namespace Json

mutual

def tokens : Json → List Token
  | .null => [.null]
  | .bool b => [.bool b]
  | .number x => [.number x]
  | .text t => [.text t]
  | .array items => .openArray :: List.intercalate [.comma] (itemTokens items) ++ [.closeArray]
  | .object members =>
      .openObject :: List.intercalate [.comma] (memberTokens members) ++ [.closeObject]

def itemTokens : List Json → List (List Token)
  | [] => []
  | item :: rest => tokens item :: itemTokens rest

def memberTokens : List (Text × Json) → List (List Token)
  | [] => []
  | member :: rest => tokensOfMember member :: memberTokens rest

def tokensOfMember : Text × Json → List Token
  | (key, value) => .text key :: .colon :: tokens value

end

theorem itemTokens_eq_map (items : List Json) : itemTokens items = items.map tokens := by
  induction items with
  | nil => rfl
  | cons item rest ih => rw [itemTokens, ih, List.map_cons]

theorem memberTokens_eq_map (members : List (Text × Json)) :
    memberTokens members = members.map tokensOfMember := by
  induction members with
  | nil => rfl
  | cons member rest ih => rw [memberTokens, ih, List.map_cons]

theorem prettyItems_eq_map (level : Nat) (items : List Json) :
    prettyItems level items = items.map (pretty level) := by
  induction items with
  | nil => rfl
  | cons item rest ih => rw [prettyItems, ih, List.map_cons]

theorem prettyMembers_eq_map (level : Nat) (members : List (Text × Json)) :
    prettyMembers level members = members.map (prettyMember level) := by
  induction members with
  | nil => rfl
  | cons member rest ih => rw [prettyMembers, ih, List.map_cons]

/-! Characters to tokens. -/

def endsWord (c : Char) : Bool := isSpace c || (mark? c).isSome

def Ended (t : Text) : Prop := ∀ c ∈ t.head?, endsWord c = true

/-- In front of any text into which no word goes on, `t` is read as the tokens. -/
def Spells (t : Text) (ts : List Token) : Prop :=
  ∀ done rest, Ended rest →
    tokensFrom? done .between (t ++ rest) = tokensFrom? (ts.reverse ++ done) .between rest

theorem ended_cons {c : Char} (h : endsWord c = true) (rest : Text) : Ended (c :: rest) := by
  intro d first
  cases first
  exact h

def marks : Text := ['{', '}', '[', ']', ':', ',']

theorem mem_marks_of_mark? {c : Char} {mark : Token} (h : mark? c = some mark) : c ∈ marks := by
  unfold mark? at h
  split at h <;> cases h <;> decide

theorem plain_of_mem_marks : ∀ c ∈ marks, isSpace c = false ∧ c ≠ '"' := by
  simp [marks, isSpace]

theorem tokensFrom?_mark {c : Char} {mark : Token} (h : mark? c = some mark) (done : List Token)
    (rest : Text) :
    tokensFrom? done .between (c :: rest) = tokensFrom? (mark :: done) .between rest := by
  have plain := plain_of_mem_marks c (mem_marks_of_mark? h)
  simp [tokensFrom?, Place.step?, plain, h]

theorem tokensFrom?_blanks {blanks : Text} (h : ∀ c ∈ blanks, isSpace c = true)
    (done : List Token) (rest : Text) :
    tokensFrom? done .between (blanks ++ rest) = tokensFrom? done .between rest := by
  induction blanks with
  | nil => rfl
  | cons c blanks ih =>
      rw [List.forall_mem_cons] at h
      rw [List.cons_append, tokensFrom?, Place.step?, if_pos h.1]
      exact ih h.2

theorem newLine_isSpace (level : Nat) : ∀ c ∈ newLine level, isSpace c = true := by
  intro c member
  rcases List.mem_cons.mp member with rfl | member
  · rfl
  · rw [List.eq_of_mem_replicate member]
    rfl

def inWord (c : Char) : Bool := !endsWord c && c != '"'

theorem inWord_iff {c : Char} :
    inWord c = true ↔ isSpace c = false ∧ mark? c = none ∧ c ≠ '"' := by
  simp [inWord, endsWord, and_assoc]

theorem tokensFrom?_word {read word : Text} {token : Token} (h : ∀ c ∈ word, inWord c = true)
    (known : word? (read.reverse ++ word) = some token) {rest : Text} (ended : Ended rest)
    (done : List Token) :
    tokensFrom? done (.word read) (word ++ rest) = tokensFrom? (token :: done) .between rest := by
  induction word generalizing read with
  | nil =>
      rw [List.append_nil] at known
      cases rest with
      | nil => simp [tokensFrom?, Place.finish?, known]
      | cons c rest =>
          have ends := ended c rfl
          by_cases space : isSpace c = true
          · simp [tokensFrom?, Place.step?, space, known]
          · have isMark : (mark? c).isSome = true := by simpa [endsWord, space] using ends
            obtain ⟨mark, isMark⟩ := Option.isSome_iff_exists.mp isMark
            have plain := plain_of_mem_marks c (mem_marks_of_mark? isMark)
            simp [tokensFrom?, Place.step?, plain, isMark, known]
  | cons c word ih =>
      rw [List.forall_mem_cons, inWord_iff] at h
      have grown : word? ((c :: read).reverse ++ word) = some token := by simpa using known
      calc
        tokensFrom? done (.word read) (c :: word ++ rest)
          = tokensFrom? done (.word (c :: read)) (word ++ rest) := by
            simp [tokensFrom?, Place.step?, h.1]
        _ = tokensFrom? (token :: done) .between rest := ih h.2 grown

theorem spells_word {word : Text} {token : Token} (nonempty : word ≠ [])
    (h : word.all inWord = true) (known : word? word = some token) : Spells word [token] := by
  intro done rest ended
  cases word with
  | nil => exact absurd rfl nonempty
  | cons c word =>
      rw [List.all_eq_true, List.forall_mem_cons, inWord_iff] at h
      have grown : word? ([c].reverse ++ word) = some token := known
      calc
        tokensFrom? done .between (c :: word ++ rest)
          = tokensFrom? done (.word [c]) (word ++ rest) := by
            simp [tokensFrom?, Place.step?, h.1]
        _ = tokensFrom? (token :: done) .between rest := tokensFrom?_word h.2 grown ended done

theorem tokensFrom?_escape {letter c : Char} (h : escaped? letter = some c) (done : List Token)
    (read : List Piece) (rest : Text) :
    tokensFrom? done (.quoted read) ('\\' :: letter :: rest) =
      tokensFrom? done (.quoted (.char c :: read)) rest := by
  have other : letter ≠ 'u' := by
    rintro rfl
    cases h
  simp [tokensFrom?, Place.step?, other, h]

theorem hexValue?_hexDigit {n : Nat} (h : n < 0x20) :
    hexValue? (hexDigit (n / 16)) = some (n / 16) ∧ hexValue? (hexDigit n) = some (n % 16) := by
  decide +revert

theorem tokensFrom?_unit {n : Nat} (h : n < 0x20) (done : List Token) (read : List Piece)
    (rest : Text) :
    tokensFrom? done (.quoted read)
        ('\\' :: 'u' :: '0' :: '0' :: hexDigit (n / 16) :: hexDigit n :: rest) =
      tokensFrom? done (.quoted (.unit n :: read)) rest := by
  obtain ⟨high, low⟩ := hexValue?_hexDigit h
  have zero : hexValue? '0' = some 0 := rfl
  have whole : 16 * (n / 16) + n % 16 = n := Nat.div_add_mod n 16
  simp [tokensFrom?, Place.step?, high, low, zero, whole]

theorem quoteChar_cases (c : Char) :
    (∃ letter, quoteChar c = ['\\', letter] ∧ escaped? letter = some c) ∨
      (c.toNat < 0x20 ∧
        quoteChar c = ['\\', 'u', '0', '0', hexDigit (c.toNat / 16), hexDigit c.toNat]) ∨
      (quoteChar c = [c] ∧ c ≠ '"' ∧ c ≠ '\\' ∧ ¬c.toNat < 0x20) := by
  unfold quoteChar
  split_ifs with quote backslash back form line carriage tab control
  · subst quote
    exact .inl ⟨'"', rfl, rfl⟩
  · subst backslash
    exact .inl ⟨'\\', rfl, rfl⟩
  · subst back
    exact .inl ⟨'b', rfl, rfl⟩
  · subst form
    exact .inl ⟨'f', rfl, rfl⟩
  · subst line
    exact .inl ⟨'n', rfl, rfl⟩
  · subst carriage
    exact .inl ⟨'r', rfl, rfl⟩
  · subst tab
    exact .inl ⟨'t', rfl, rfl⟩
  · exact .inr (.inl ⟨control, rfl⟩)
  · exact .inr (.inr ⟨rfl, quote, backslash, control⟩)

theorem exists_piece (c : Char) :
    ∃ piece : Piece,
      (∀ done read rest, tokensFrom? done (.quoted read) (quoteChar c ++ rest) =
        tokensFrom? done (.quoted (piece :: read)) rest) ∧
      ∀ pieces, Piece.textOf? (piece :: pieces) = (Piece.textOf? pieces).map (c :: ·) := by
  rcases quoteChar_cases c with ⟨letter, written, known⟩ | ⟨control, written⟩ | ⟨written, plain⟩
  · refine ⟨.char c, ?_, fun _ => rfl⟩
    intro done read rest
    rw [written]
    exact tokensFrom?_escape known done read rest
  · refine ⟨.unit c.toNat, ?_, ?_⟩
    · intro done read rest
      rw [written]
      exact tokensFrom?_unit control done read rest
    · intro pieces
      have notLow : isLowSurrogate c.toNat = false := by
        simp [isLowSurrogate]
        omega
      have notHigh : isHighSurrogate c.toNat = false := by
        simp [isHighSurrogate]
        omega
      rw [Piece.textOf?.eq_def]
      simp [notLow, notHigh, Char.ofNat_toNat]
  · refine ⟨.char c, ?_, fun _ => rfl⟩
    intro done read rest
    rw [written]
    simp [tokensFrom?, Place.step?, plain]

theorem exists_pieces (t : Text) :
    ∃ pieces : List Piece, Piece.textOf? pieces = some t ∧
      ∀ done read rest, tokensFrom? done (.quoted read) (t.flatMap quoteChar ++ rest) =
        tokensFrom? done (.quoted (pieces.reverse ++ read)) rest := by
  induction t with
  | nil => exact ⟨[], rfl, fun _ _ _ => rfl⟩
  | cons c t ih =>
      obtain ⟨pieces, whole, reads⟩ := ih
      obtain ⟨piece, here, means⟩ := exists_piece c
      refine ⟨piece :: pieces, by rw [means, whole, Option.map_some], ?_⟩
      intro done read rest
      rw [List.flatMap_cons, List.append_assoc, here, reads, List.reverse_cons,
        List.append_assoc]
      rfl

theorem tokensFrom?_quote (t : Text) (done : List Token) (rest : Text) :
    tokensFrom? done .between (quote t ++ rest) =
      tokensFrom? (.text t :: done) .between rest := by
  obtain ⟨pieces, whole, reads⟩ := exists_pieces t
  calc
    tokensFrom? done .between (quote t ++ rest)
      = tokensFrom? done (.quoted []) (t.flatMap quoteChar ++ '"' :: rest) := by
        simp [quote, tokensFrom?, Place.step?, isSpace]
    _ = tokensFrom? done (.quoted (pieces.reverse ++ [])) ('"' :: rest) := reads done [] _
    _ = tokensFrom? (.text t :: done) .between rest := by
        simp [tokensFrom?, Place.step?, whole]

theorem spells_intercalate {texts : List Text} {tokens : List (List Token)}
    (each : List.Forall₂ Spells texts tokens) (level : Nat) :
    Spells (List.intercalate (',' :: newLine level) texts)
      (List.intercalate [.comma] tokens) := by
  induction each with
  | nil => exact fun _ _ _ => rfl
  | @cons t ts texts tokens here more ih =>
      cases more with
      | nil =>
          rw [List.intercalate_singleton, List.intercalate_singleton]
          exact here
      | @cons u us texts tokens next more =>
          intro done rest ended
          rw [List.intercalate_cons_cons, List.intercalate_cons_cons]
          calc
            tokensFrom? done .between
                (t ++ ',' :: newLine level ++ (',' :: newLine level).intercalate (u :: texts) ++ rest)
              = tokensFrom? (ts.reverse ++ done) .between
                  (',' :: (newLine level ++
                    ((',' :: newLine level).intercalate (u :: texts) ++ rest))) := by
                rw [← here done _ (ended_cons rfl _)]
                simp
            _ = tokensFrom? (.comma :: (ts.reverse ++ done)) .between
                  ((',' :: newLine level).intercalate (u :: texts) ++ rest) := by
                rw [tokensFrom?_mark rfl, tokensFrom?_blanks (newLine_isSpace level)]
            _ = _ := by
                rw [ih _ rest ended]
                simp

theorem spells_spread {left right : Char} {opening closing : Token}
    (hl : mark? left = some opening) (hr : mark? right = some closing) {texts : List Text}
    {tokens : List (List Token)} (each : List.Forall₂ Spells texts tokens) (level : Nat) :
    Spells (spread left right level texts)
      (opening :: List.intercalate [.comma] tokens ++ [closing]) := by
  intro done rest _
  cases each with
  | nil =>
      change tokensFrom? done .between (left :: right :: rest) = _
      rw [tokensFrom?_mark hl, tokensFrom?_mark hr]
      rfl
  | @cons t ts texts tokens here more =>
      have inside := spells_intercalate (.cons here more) (level + 1)
      have written : spread left right level (t :: texts) ++ rest =
          left :: (newLine (level + 1) ++
            ((',' :: newLine (level + 1)).intercalate (t :: texts) ++
              (newLine level ++ (right :: rest)))) := by
        simp [spread]
      have after : Ended (newLine level ++ right :: rest) := ended_cons rfl _
      rw [written, tokensFrom?_mark hl, tokensFrom?_blanks (newLine_isSpace _), inside _ _ after,
        tokensFrom?_blanks (newLine_isSpace _), tokensFrom?_mark hr]
      simp

def Reads (x : Binary64) : Prop := x.isFinite = true ∧ number? x.toText = some x

theorem inWord_of_isNumeral {c : Char} (h : Text.isNumeral c = true) : inWord c = true := by
  rw [inWord_iff]
  refine ⟨?_, ?_, ?_⟩
  · apply Bool.eq_false_iff.mpr
    intro space
    simp only [isSpace, Bool.or_eq_true, beq_iff_eq] at space
    rcases space with ((rfl | rfl) | rfl) | rfl <;> cases h
  · have others : ∀ c ∈ marks, Text.isNumeral c = false := by simp [marks, Text.isNumeral]
    apply Option.eq_none_iff_forall_ne_some.mpr
    intro mark isMark
    rw [others c (mem_marks_of_mark? isMark)] at h
    cases h
  · rintro rfl
    cases h

theorem spells_toText {x : Binary64} (h : Reads x) : Spells x.toText [.number x] := by
  have numeral := Binary64.toText_isNumeral h.1
  have other : ∀ word : Text, word.all Text.isNumeral = false → x.toText ≠ word := by
    intro word letters same
    rw [← same, List.all_eq_true.mpr numeral] at letters
    cases letters
  apply spells_word
  · intro none
    have known := h.2
    rw [none] at known
    cases known
  · exact List.all_eq_true.mpr fun c member => inWord_of_isNumeral (numeral c member)
  · rw [word?, if_neg (other _ rfl), if_neg (other _ rfl),
      if_neg (other _ rfl), h.2]
    rfl

theorem spells_pretty {n : Nat} {j : Json} (h : j.Within Reads n) (level : Nat) :
    Spells (j.pretty level) j.tokens := by
  have nullWord : Spells "null".toList [.null] := spells_word (by decide) rfl rfl
  have trueWord : Spells "true".toList [.bool true] := spells_word (by decide) rfl rfl
  have falseWord : Spells "false".toList [.bool false] := spells_word (by decide) rfl rfl
  induction h generalizing level with
  | null => exact nullWord
  | bool _ b =>
      cases b with
      | false => exact falseWord
      | true => exact trueWord
  | number _ known => exact spells_toText known
  | text _ t => exact fun done rest _ => tokensFrom?_quote t done rest
  | @array _ items _ ih =>
      rw [pretty, tokens, prettyItems_eq_map, itemTokens_eq_map]
      apply spells_spread rfl rfl
      rw [List.forall₂_map_left_iff, List.forall₂_map_right_iff]
      exact List.forall₂_same.mpr fun item member => ih item member (level + 1)
  | @object _ members _ ih =>
      rw [pretty, tokens, prettyMembers_eq_map, memberTokens_eq_map]
      apply spells_spread rfl rfl
      rw [List.forall₂_map_left_iff, List.forall₂_map_right_iff]
      refine List.forall₂_same.mpr ?_
      rintro ⟨key, value⟩ member done rest ended
      have after := ih _ member (level + 1) (.colon :: .text key :: done) rest ended
      have blank : ∀ c ∈ [' '], isSpace c = true := List.forall_mem_singleton.mpr rfl
      calc
        tokensFrom? done .between (prettyMember (level + 1) (key, value) ++ rest)
          = tokensFrom? done .between
              (quote key ++ ':' :: ([' '] ++ (value.pretty (level + 1) ++ rest))) := by
            simp [prettyMember]
        _ = tokensFrom? (.colon :: .text key :: done) .between
              (value.pretty (level + 1) ++ rest) := by
            rw [tokensFrom?_quote, tokensFrom?_mark rfl, tokensFrom?_blanks blank]
        _ = _ := by
            rw [after, tokensOfMember]
            simp

/-! Tokens to values. -/

namespace Expected

variable {outer : List Container}

theorem run?_cons {expected next : Expected} {token : Token} (h : expected.step? token = some next)
    (rest : List Token) : run? expected (token :: rest) = run? next rest := by
  rw [run?, h]

theorem run?_first_item (item : Json) (more : List Json) (rest : List Token) :
    run? (.itemOrEnd outer) (List.intercalate [.comma] ((item :: more).map tokens) ++ rest) =
      run? (.value (.array [] :: outer))
        (List.intercalate [.comma] ((item :: more).map tokens) ++ rest) := by
  cases more <;> cases item <;> rfl

theorem run?_first_member (member : Text × Json) (more : List (Text × Json)) (rest : List Token) :
    run? (.keyOrEnd outer)
        (List.intercalate [.comma] ((member :: more).map tokensOfMember) ++ rest) =
      run? (.nextKey [] outer)
        (List.intercalate [.comma] ((member :: more).map tokensOfMember) ++ rest) := by
  obtain ⟨key, value⟩ := member
  cases more <;> rfl

/-- What a container holds, one after another: `start` is where each of them is read, `after` where
it has been read, with all of them so far newest first, and `done` where the container ends. -/
theorem run?_separated {α : Type} (start after done : List α → Expected)
    {tokensOf : α → List Token} {close : Token} {held : List α} (nonempty : held ≠ [])
    (each : ∀ a ∈ held, ∀ before rest,
      run? (start before) (tokensOf a ++ rest) = run? (after (a :: before)) rest)
    (comma : ∀ before, (after before).step? .comma = some (start before))
    (ends : ∀ before, (after before).step? close = some (done before.reverse))
    (before : List α) (rest : List Token) :
    run? (start before) (List.intercalate [.comma] (held.map tokensOf) ++ close :: rest) =
      run? (done (before.reverse ++ held)) rest := by
  induction held generalizing before with
  | nil => exact absurd rfl nonempty
  | cons a more ih =>
      rw [List.forall_mem_cons] at each
      obtain ⟨first, later⟩ := each
      cases more with
      | nil =>
          rw [List.map_singleton, List.intercalate_singleton, first, run?_cons (ends _),
            List.reverse_cons]
      | cons next more =>
          have others := ih (List.cons_ne_nil next more) later (a :: before)
          rw [List.reverse_cons, List.append_assoc, List.singleton_append] at others
          rw [← others, List.map_cons, List.map_cons, List.intercalate_cons_cons,
            List.append_assoc, List.append_assoc, first, List.singleton_append,
            run?_cons (comma _)]

theorem run?_tokens {p : Binary64 → Prop} {n : Nat} {j : Json} (h : j.Within p n)
    (room : outer.length + n ≤ maxDepth) (rest : List Token) :
    run? (.value outer) (j.tokens ++ rest) = run? (accept j outer) rest := by
  induction h generalizing outer rest with
  | null => rfl
  | bool => rfl
  | number => rfl
  | text => rfl
  | @array n items _ ih =>
      have opens : (Expected.value outer).step? .openArray = some (.itemOrEnd outer) :=
        if_pos (by omega)
      rw [tokens, itemTokens_eq_map, List.append_assoc, List.cons_append, run?_cons opens]
      cases items with
      | nil => rfl
      | cons item more =>
          have each : ∀ i ∈ item :: more, ∀ before rest,
              run? (.value (.array before :: outer)) (i.tokens ++ rest) =
                run? (.afterItem (i :: before) outer) rest := by
            intro i member before rest
            have inside : (Container.array before :: outer).length + n ≤ maxDepth := by
              rw [List.length_cons]
              omega
            exact ih i member inside rest
          rw [run?_first_item]
          exact run?_separated (fun before => .value (.array before :: outer)) (.afterItem · outer)
            (fun items => accept (.array items) outer) (List.cons_ne_nil item more) each
            (fun _ => rfl) (fun _ => rfl) [] rest
  | @object n members _ ih =>
      have opens : (Expected.value outer).step? .openObject = some (.keyOrEnd outer) :=
        if_pos (by omega)
      rw [tokens, memberTokens_eq_map, List.append_assoc, List.cons_append, run?_cons opens]
      cases members with
      | nil => rfl
      | cons member more =>
          have each : ∀ m ∈ member :: more, ∀ before rest,
              run? (.nextKey before outer) (tokensOfMember m ++ rest) =
                run? (.afterMember (m :: before) outer) rest := by
            rintro ⟨key, value⟩ member before rest
            have inside : (Container.object before key :: outer).length + n ≤ maxDepth := by
              rw [List.length_cons]
              omega
            -- the key and the colon lead to the place where the value is read
            exact ih (key, value) member inside rest
          rw [run?_first_member]
          exact run?_separated (.nextKey · outer) (.afterMember · outer)
            (fun members => accept (.object members) outer) (List.cons_ne_nil member more) each
            (fun _ => rfl) (fun _ => rfl) [] rest

end Expected

theorem ofText?_pretty {n : Nat} {j : Json} (h : j.Within Reads n) (shallow : n ≤ maxDepth)
    (level : Nat) : ofText? (j.pretty level ++ ['\n']) = some j := by
  have ended : Ended ['\n'] := ended_cons rfl []
  have spelled : tokens? (j.pretty level ++ ['\n']) = some j.tokens := by
    rw [tokens?, spells_pretty h level [] ['\n'] ended]
    simp [tokensFrom?, Place.step?, Place.finish?, isSpace]
  have room : ([] : List Container).length + n ≤ maxDepth := by simpa using shallow
  have built := Expected.run?_tokens h room []
  rw [List.append_nil] at built
  rw [ofText?, spelled, Option.bind_some, built]
  rfl

end Json

theorem Json.reads_ofNat : ∀ n < maxDepth, Reads (.ofNat n) := by
  unfold Reads
  decide +kernel

theorem Property.toJson_within (p : Property) : p.toJson.Within Json.Reads 1 := by
  refine .array ?_
  rw [List.forall_mem_cons, List.forall_mem_singleton]
  exact ⟨.text 0 p.name, .text 0 p.value⟩

theorem Rule.toJson_within {r : Rule} (shallow : r.depth < Json.maxDepth) :
    r.toJson.Within Json.Reads 3 := by
  have properties : (Json.array (r.properties.map Property.toJson)).Within Json.Reads 2 :=
    .array (List.forall_mem_map.mpr fun p _ => p.toJson_within)
  refine .object ?_
  rw [List.forall_mem_cons, List.forall_mem_cons, List.forall_mem_singleton]
  exact ⟨.text 2 r.selector, properties, .number 2 (Json.reads_ofNat r.depth shallow)⟩

/-- The text of a sheet reads back, whatever its selectors, names and values hold. -/
theorem Sheet.ofText?_toJson {sheet : Sheet} (shallow : ∀ r ∈ sheet.rules, r.depth < Json.maxDepth) :
    Json.ofText? (sheet.toJson.pretty 0 ++ ['\n']) = some sheet.toJson := by
  have rules : (Json.array (sheet.rules.map Rule.toJson)).Within Json.Reads 4 :=
    .array (List.forall_mem_map.mpr fun r member => Rule.toJson_within (shallow r member))
  have whole : sheet.toJson.Within Json.Reads 5 := .object (List.forall_mem_singleton.mpr rules)
  exact Json.ofText?_pretty whole (by decide) 0

end Hypertext
