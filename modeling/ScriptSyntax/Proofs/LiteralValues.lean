import Mathlib.Data.List.Basic
import ScriptSyntax.Grammar.Expression
import ScriptSyntax.Proofs.Token.Longest

/-!
The values of the number literals that the scan makes. Digits are an integer unless they are too
many, and a number with a point or an exponent is a double unless its exponent has no digit.
-/

namespace ScriptSyntax

open Text Lexeme

namespace Text

variable {text : String}

/-- A text of bytes below 128 has one character for each of them. -/
theorem bytes_eq_map (h : ∀ b ∈ bytes text, b.toNat < 128) :
    (∀ c ∈ text.toList, c.toNat < 128) ∧ bytes text = text.toList.map Char.toUInt8 := by
  have hascii : ∀ c ∈ text.toList, c.toNat < 128 := by
    intro c hc
    obtain ⟨b, hb⟩ := List.exists_mem_of_ne_nil _ (String.utf8EncodeChar_ne_nil (c := c))
    rw [bytes_eq_flatMap] at h
    rcases byte_of_mem_utf8EncodeChar hb with ⟨hlt, -⟩ | hge
    · exact hlt
    · exact absurd (h b (List.mem_flatMap.2 ⟨c, hc, hb⟩)) (by omega)
  refine ⟨hascii, ?_⟩
  rw [← bytes_ofList_ascii hascii, String.ofList_toList]

theorem isDigit_toUInt8_iff {c : Char} (h : c.toNat < 128) : isDigit c.toUInt8 ↔ c.isDigit := by
  have hzero : '0'.toUInt8.toNat = 48 := rfl
  have hnine : '9'.toUInt8.toNat = 57 := rfl
  simp only [isDigit, Char.isDigit_iff_toNat, UInt8.le_iff_toNat_le, toNat_toUInt8 h, hzero, hnine,
    Bool.and_eq_true, decide_eq_true_eq]
  exact Iff.rfl

end Text

/-- An exponent mark with no digit behind it. -/
def LacksExponent (text : String) : Prop :=
  ∃ front behind, text.toList = front ++ 'e' :: behind ∧ ∀ c ∈ behind, ¬ c.isDigit

section Numerals

variable {text : String} {whole fraction scale : List UInt8}

/-- Digits are read as an integer if it fits. -/
theorem intLiteral?_digits (hne : bytes text ≠ []) (h : ∀ b ∈ bytes text, isDigit b) :
    (∀ c ∈ text.toList, c.isDigit) ∧ intLiteral? text =
      if Nat.ofDigitChars 10 text.toList 0 < 2 ^ 63 then some ↑(Nat.ofDigitChars 10 text.toList 0)
      else none := by
  obtain ⟨hascii, hbytes⟩ := bytes_eq_map fun b hb => toNat_of_isDigit_byte (h b hb)
  have hdigits : ∀ c ∈ text.toList, c.isDigit := fun c hc =>
    (isDigit_toUInt8_iff (hascii c hc)).1 (h _ (hbytes ▸ List.mem_map_of_mem hc))
  have hvalue : digitsValue (bytes text) = Nat.ofDigitChars 10 text.toList 0 := by
    rw [hbytes, digitsValue_map hdigits]
  refine ⟨hdigits, ?_⟩
  simp only [intLiteral?, hvalue, hne, ne_eq, not_false_eq_true, List.all_eq_true.2 h, true_and]
  rfl

theorem IsScale.exponentLength (h : IsScale scale) : exponentLength scale = scale.length := by
  obtain ⟨longest, hlength, hlongest⟩ := longest_scale scale
  have hle := hlongest.longest List.prefix_rfl h
  have hge := hlongest.inFront.length_le
  omega

theorem exponentValue?_cons_eq_none {b : UInt8} {rest : List UInt8} :
    exponentValue? (b :: rest) = none ↔ rest.drop (signLength rest) = [] := by
  simp only [exponentValue?]
  split_ifs <;> simp_all

theorem digits_eq_nil_iff {ds : List UInt8} (h : ∀ b ∈ ds, isDigit b) :
    ds = [] ↔ ∀ b ∈ ds, isDigit b = false := by
  cases ds with
  | nil => simp
  | cons b ds => simp [h b List.mem_cons_self]

/-- An exponent has a value unless no digit is behind its mark. -/
theorem exponentValue?_scale_eq_none (h : IsScale scale) :
    exponentValue? scale = none ↔
      ∃ behind, scale = 'e'.toUInt8 :: behind ∧ ∀ b ∈ behind, isDigit b = false := by
  cases h with
  | none => simp [exponentValue?]
  | @unsigned ds hds =>
    have hsign : signLength ds = 0 := by
      cases ds with
      | nil => rfl
      | cons b ds => exact signLength_digits (List.cons_ne_nil _ _) hds
    simp [exponentValue?_cons_eq_none, hsign, digits_eq_nil_iff hds]
  | @signed b ds hs hds =>
    have hsign : signLength (b :: ds) = 1 := if_pos hs
    have hb : isDigit b = false := by rcases hs with rfl | rfl <;> decide
    simp [exponentValue?_cons_eq_none, hsign, hb, digits_eq_nil_iff hds]

theorem mark_not_mem_digits {ds : List UInt8} (h : ∀ b ∈ ds, isDigit b) : 'e'.toUInt8 ∉ ds :=
  fun hmem => absurd (h _ hmem) (by decide)

theorem mark_not_mem (hw : ∀ b ∈ whole, isDigit b) (hf : IsFraction fraction) :
    'e'.toUInt8 ∉ whole ++ fraction := by
  rw [List.mem_append, not_or]
  refine ⟨mark_not_mem_digits hw, ?_⟩
  cases hf with
  | none => exact List.not_mem_nil
  | point hds => exact List.not_mem_cons_of_ne_of_not_mem (by decide) (mark_not_mem_digits hds)

theorem IsScale.mark_not_mem_tail (h : IsScale scale) : 'e'.toUInt8 ∉ scale.tail := by
  cases h with
  | none => exact List.not_mem_nil
  | unsigned hds => exact mark_not_mem_digits hds
  | signed hs hds =>
    refine List.not_mem_cons_of_ne_of_not_mem ?_ (mark_not_mem_digits hds)
    rcases hs with rfl | rfl <;> decide

/-- Among bytes below 128 the mark and the digits are found as among the characters. -/
theorem lacksExponent_iff (h : ∀ b ∈ bytes text, b.toNat < 128) : LacksExponent text ↔
    ∃ front behind, bytes text = front ++ 'e'.toUInt8 :: behind ∧
      ∀ b ∈ behind, isDigit b = false := by
  obtain ⟨hascii, hbytes⟩ := bytes_eq_map h
  rw [hbytes]
  constructor
  · rintro ⟨front, behind, hlist, hno⟩
    refine ⟨front.map Char.toUInt8, behind.map Char.toUInt8, ?_, fun b hb => ?_⟩
    · rw [hlist, List.map_append, List.map_cons]
    · obtain ⟨c, hc, rfl⟩ := List.mem_map.1 hb
      rw [← Bool.not_eq_true, isDigit_toUInt8_iff (hascii c (by simp [hlist, hc]))]
      exact hno c hc
  · rintro ⟨_, _, hmap, hno⟩
    obtain ⟨front, rest, hlist, rfl, hrest⟩ := List.map_eq_append_iff.1 hmap
    obtain ⟨c, behind, rfl, hc, rfl⟩ := List.map_eq_cons_iff.1 hrest
    obtain rfl : c = 'e' := toUInt8_inj (hascii c (by simp [hlist])) (by decide) hc
    refine ⟨front, behind, hlist, fun d hd hdigit => ?_⟩
    have hno := hno _ (List.mem_map_of_mem hd)
    rw [isDigit_toUInt8 hdigit] at hno
    contradiction

/-- A number is read as a double unless its exponent lacks digits. -/
theorem IsNumeral.doubleLiteral?_eq_none (h : IsNumeral (bytes text)) :
    doubleLiteral? text = none ↔ LacksExponent text := by
  obtain ⟨whole, t, hne, hw, ⟨f, e, hf, he, rfl⟩, htext⟩ := h
  have hhead : ∀ b ∈ e.head?, isDigit b = false ∧ b ≠ '.'.toUInt8 := fun b hb => by
    rw [he.head b hb]
    decide
  have hlow : ∀ b ∈ bytes text, b.toNat < 128 := by
    rw [htext]
    intro b hb
    rcases List.mem_append.1 hb with hb | hb
    · exact toNat_of_isDigit_byte (hw b hb)
    · exact IsTail.forall _ (fun _ => toNat_of_isDigit_byte) (by decide) ⟨f, e, hf, he, rfl⟩ b hb
  rw [doubleLiteral?_append hne hw hf hhead he.exponentLength htext, Option.map_eq_none_iff,
    exponentValue?_scale_eq_none he, lacksExponent_iff hlow, htext, ← List.append_assoc]
  constructor
  · rintro ⟨behind, rfl, hno⟩
    exact ⟨_, behind, rfl, hno⟩
  · rintro ⟨front, behind, hsplit, hno⟩
    -- The mark is not in front of the exponent, so the exponent begins with it.
    cases e with
    | nil =>
      rw [List.append_nil] at hsplit
      exact absurd (hsplit ▸ List.mem_append_right _ List.mem_cons_self) (mark_not_mem hw hf)
    | cons b rest =>
      obtain rfl := he.head b rfl
      obtain ⟨-, -, rfl⟩ := (List.append_cons_inj_of_notMem
        (mark_not_mem hw hf) he.mark_not_mem_tail).1 hsplit
      exact ⟨_, rfl, hno⟩

/-- A lexeme with the kind of a number is one, and its kind says whether it is more than digits. -/
theorem IsLexeme.isNumeral {l rest : List UInt8} {kind : TokenKind}
    (h : IsLexeme l rest kind text) (hkind : kind = .intLiteral ∨ kind = .doubleLiteral) :
    bytes text = l ∧ IsNumeral l ∧ kind = numeralKind l := by
  cases h with
  | identifier | keyword | string | symbol => simp at hkind
  | number hl ht => exact ⟨ht, hl.holds, rfl⟩
  | numberOfRange hl ht => exact ⟨ht, hl.holds.of_point, rfl⟩

theorem IsNumeral.digits {l : List UInt8} (h : IsNumeral l) (hkind : numeralKind l = .intLiteral) :
    l ≠ [] ∧ ∀ b ∈ l, isDigit b := by
  obtain ⟨whole, t, hne, hw, ht, rfl⟩ := h
  rw [numeralKind_append hw ht] at hkind
  split at hkind
  · next hlength =>
    rw [List.length_eq_zero_iff.1 hlength, List.append_nil]
    exact ⟨hne, hw⟩
  · contradiction

end Numerals

/-- What is read of a token by its kind, if it is a number. -/
def Token.Converts (t : Token) : Prop :=
  (t.kind = .intLiteral → t.text ≠ "" ∧ (∀ c ∈ t.text.toList, c.isDigit) ∧
    intLiteral? t.text = if Nat.ofDigitChars 10 t.text.toList 0 < 2 ^ 63
      then some ↑(Nat.ofDigitChars 10 t.text.toList 0) else none) ∧
  (t.kind = .doubleLiteral → (doubleLiteral? t.text = none ↔ LacksExponent t.text))

theorem converts_first {front : List UInt8} {x : Lexeme} (h : Lexeme.first front = .ok x)
    (location : Location) : (⟨x.kind, x.text, location⟩ : Token).Converts := by
  obtain ⟨l, rest, -, -, hlexeme⟩ := isLexeme_of_first h
  refine ⟨fun hkind => ?_, fun hkind => ?_⟩
  · obtain ⟨rfl, hnumeral, hsort⟩ := hlexeme.isNumeral (.inl hkind)
    obtain ⟨hne, hdigits⟩ := hnumeral.digits (hsort.symm.trans hkind)
    exact ⟨fun hempty => hne (congrArg bytes hempty), intLiteral?_digits hne hdigits⟩
  · obtain ⟨rfl, hnumeral, -⟩ := hlexeme.isNumeral (.inr hkind)
    exact hnumeral.doubleLiteral?_eq_none

namespace Parser

variable {c : Context} {s : Progress} {t : Token}

theorem intLiteral_run (ht : c.tokens.get s.position = t) (hkind : t.kind = .intLiteral) :
    intLiteral c s = match intLiteral? t.text with
      | some value => .ok (.int value (.single t.location)) { s with position := s.position + 1 }
      | none => .error ⟨.integerLiteral t.text, t.location⟩ { s with position := s.position + 1 } := by
  rw [intLiteral, bind_run, expect_run, ht, if_pos hkind]
  dsimp only
  cases intLiteral? t.text <;> rfl

theorem doubleLiteral_run (ht : c.tokens.get s.position = t) (hkind : t.kind = .doubleLiteral) :
    doubleLiteral c s = match doubleLiteral? t.text with
      | some value => .ok (.double value (.single t.location)) { s with position := s.position + 1 }
      | none => .error ⟨.doubleLiteral t.text, t.location⟩ { s with position := s.position + 1 } := by
  rw [doubleLiteral, bind_run, expect_run, ht, if_pos hkind]
  dsimp only
  cases doubleLiteral? t.text <;> rfl

/-- A number that the scan has made is converted, or its whole text is reported at its place. An
integer is reported just if it does not fit, a double just if its exponent has no digit. -/
theorem literals_convert {source : String} (hc : c.tokens = (TokenList.scan source).1)
    (hs : s.position < c.tokens.size) (ht : c.tokens.get s.position = t) :
    (t.kind = .intLiteral → t.text ≠ "" ∧ (∀ d ∈ t.text.toList, d.isDigit) ∧
      intLiteral c s = if Nat.ofDigitChars 10 t.text.toList 0 < 2 ^ 63
        then .ok (.int (Nat.ofDigitChars 10 t.text.toList 0) (.single t.location))
          { s with position := s.position + 1 }
        else .error ⟨.integerLiteral t.text, t.location⟩ { s with position := s.position + 1 }) ∧
    (t.kind = .doubleLiteral →
      (LacksExponent t.text → doubleLiteral c s =
        .error ⟨.doubleLiteral t.text, t.location⟩ { s with position := s.position + 1 }) ∧
      (¬ LacksExponent t.text → ∃ x, doubleLiteral c s =
        .ok (.double x (.single t.location)) { s with position := s.position + 1 })) := by
  have hconverts : t.Converts := by
    have hall := TokenList.forall_scan (P := Token.Converts) converts_first source
    rw [← ht, hc]
    exact hall _ (hc ▸ hs)
  refine ⟨fun hkind => ?_, fun hkind => ⟨fun hlacks => ?_, fun hlacks => ?_⟩⟩
  · obtain ⟨hne, hdigits, hvalue⟩ := hconverts.1 hkind
    refine ⟨hne, hdigits, ?_⟩
    rw [intLiteral_run ht hkind, hvalue]
    split_ifs <;> rfl
  · rw [doubleLiteral_run ht hkind, (hconverts.2 hkind).2 hlacks]
  · obtain ⟨x, hx⟩ := Option.ne_none_iff_exists'.1 (mt (hconverts.2 hkind).1 hlacks)
    exact ⟨x, by rw [doubleLiteral_run ht hkind, hx]⟩

/-- A sign is no digit, and the digits in front of two points are an integer by themselves. -/
theorem literals_convert_range :
    let c : Context := ⟨(TokenList.scan "1e+ 01.e5 07..2 9223372036854775808").1, 1, ⟨0⟩⟩
    doubleLiteral c ⟨0, .fresh⟩ = .error ⟨.doubleLiteral "1e+", .known 0 0⟩ ⟨1, .fresh⟩ ∧
    (∃ x, doubleLiteral c ⟨1, .fresh⟩ = .ok (.double x (.single (.known 0 4))) ⟨2, .fresh⟩) ∧
    intLiteral c ⟨2, .fresh⟩ = .ok (.int 7 (.single (.known 0 10))) ⟨3, .fresh⟩ ∧
    intLiteral c ⟨5, .fresh⟩ =
      .error ⟨.integerLiteral "9223372036854775808", .known 0 16⟩ ⟨6, .fresh⟩ := by
  intro c
  have htokens : c.tokens = ⟨#[⟨.doubleLiteral, "1e+", .known 0 0⟩,
      ⟨.doubleLiteral, "01.e5", .known 0 4⟩, ⟨.intLiteral, "07", .known 0 10⟩,
      .ofKind (.symbol .range) (.known 0 12), ⟨.intLiteral, "2", .known 0 14⟩,
      ⟨.intLiteral, "9223372036854775808", .known 0 16⟩], .known 0 35⟩ := by decide +kernel
  have hlacks : LacksExponent "1e+" := ⟨['1'], ['+'], rfl, List.forall_mem_singleton.2 (by decide)⟩
  have hhas : ¬ LacksExponent "01.e5" := by
    rintro ⟨front, behind, h, hno⟩
    have h : ['0', '1', '.'] ++ 'e' :: ['5'] = front ++ 'e' :: behind := h
    obtain ⟨-, -, rfl⟩ := (List.append_cons_inj_of_notMem (by decide) (by decide)).1 h
    exact hno '5' List.mem_cons_self (by decide)
  have hconverts (k : Nat) (hk : k < 6) := literals_convert (c := c) (s := ⟨k, .fresh⟩) rfl
    (by rw [htokens]; exact hk) rfl
  simp only [htokens] at hconverts
  have hfirst := (hconverts 0 (by decide)).2 rfl
  have hsecond := (hconverts 1 (by decide)).2 rfl
  have hthird := (hconverts 2 (by decide)).1 rfl
  have hlast := (hconverts 5 (by decide)).1 rfl
  exact ⟨hfirst.1 hlacks, hsecond.2 hhas, hthird.2.2.trans (if_pos (by decide)),
    hlast.2.2.trans (if_neg (by decide))⟩

end Parser

end ScriptSyntax
