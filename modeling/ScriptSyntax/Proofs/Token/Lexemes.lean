import ScriptSyntax.Program.Piece
import ScriptSyntax.Proofs.Number.Written

/-!
Every piece of a printed program is read back whole: a word, a number, a quoted string or a symbol,
if the bytes behind it do not go on with it.
-/

namespace ScriptSyntax

open Text

namespace Text

theorem byte_of_mem_utf8EncodeChar {c : Char} {b : UInt8} (h : b ∈ String.utf8EncodeChar c) :
    (c.toNat < 128 ∧ b = c.toUInt8) ∨ 128 ≤ b.toNat := by
  have hc : c.toNat = c.val.toNat := rfl
  unfold String.utf8EncodeChar at h
  dsimp only at h
  split at h
  · left
    refine ⟨by omega, ?_⟩
    rw [List.mem_singleton.1 h]
    rfl
  · right
    split at h
    · rcases h with _ | ⟨_, _ | ⟨_, ⟨⟩⟩⟩ <;> simp <;> omega
    split at h
    · rcases h with _ | ⟨_, _ | ⟨_, _ | ⟨_, ⟨⟩⟩⟩⟩ <;> simp <;> omega
    · rcases h with _ | ⟨_, _ | ⟨_, _ | ⟨_, _ | ⟨_, ⟨⟩⟩⟩⟩⟩ <;> simp <;> omega

end Text

namespace Lexeme

variable {rest : List UInt8}

/-- A text that is one word. -/
structure IsWord (n : String) : Prop where
  nonempty : bytes n ≠ []
  front : ∀ b ∈ (bytes n).head?, isWordStart b
  word : ∀ b ∈ bytes n, isWordByte b

/-- The kind of a word. -/
def wordKind (n : String) : TokenKind :=
  match Keyword.ofText? n with
  | some k => k
  | none => .identifier

theorem first_word {n : String} (hn : IsWord n) (hr : ∀ b ∈ rest.head?, isWordByte b = false) :
    first (bytes n ++ rest) = .ok ⟨wordKind n, n, (bytes n).length⟩ := by
  have hword : word (bytes n ++ rest) = ⟨wordKind n, n, (bytes n).length⟩ := by
    rw [word, takeWhile_run hn.word hr, ofBytes_bytes]
    rfl
  obtain ⟨b, bs, hb⟩ := List.exists_cons_of_ne_nil hn.nonempty
  have hstart := hn.front b (by rw [hb]; rfl)
  rw [← hword, hb, List.cons_append, first, if_pos hstart]

theorem not_isWordStart_of_isDigit {b : UInt8} (h : isDigit b) : ¬ isWordStart b := by
  simp only [isDigit, isWordStart, Bool.and_eq_true, Bool.or_eq_true, decide_eq_true_eq,
    UInt8.le_iff_toNat_le, ← UInt8.toNat_inj] at h ⊢
  have hnine : '9'.toUInt8.toNat = 57 := rfl
  have ha : 'a'.toUInt8.toNat = 97 := rfl
  have hA : 'A'.toUInt8.toNat = 65 := rfl
  have hunderscore : '_'.toUInt8.toNat = 95 := rfl
  omega

theorem first_number {text : String} {whole fraction exponent : List UInt8} {value : Int}
    (h : NumberParts whole fraction exponent value)
    (ht : bytes text = whole ++ (fraction ++ exponent)) (hr : NumberEnds rest) :
    first (bytes text ++ rest) = .ok ⟨if fraction ++ exponent = [] then .intLiteral
      else .doubleLiteral, text, (bytes text).length⟩ := by
  have hfront : bytes text ++ rest = whole ++ (fraction ++ (exponent ++ rest)) := by
    rw [ht, List.append_assoc, List.append_assoc]
  have hlength : whole.length + fraction.length + exponent.length = (bytes text).length := by
    simp only [ht, List.length_append]
    omega
  have hkind : fraction.length + exponent.length = 0 ↔ fraction ++ exponent = [] := by
    rw [← List.length_append, List.length_eq_zero_iff]
  have hnumber : number (bytes text ++ rest) = ⟨if fraction ++ exponent = [] then .intLiteral
      else .doubleLiteral, text, (bytes text).length⟩ := by
    simp only [number, hfront, h.lengths hr, hlength, hkind]
    rw [← hfront, List.take_left, ofBytes_bytes]
  obtain ⟨b, bs, hb⟩ := List.exists_cons_of_ne_nil h.nonempty
  have hdigit := h.digits b (by rw [hb]; exact List.mem_cons_self)
  rw [← hnumber, hfront, hb, List.cons_append, first, if_neg (not_isWordStart_of_isDigit hdigit),
    if_pos hdigit]

/-- Bytes that a symbol in front of them does not go on into. -/
def SymbolEnds (rest : List UInt8) : Prop :=
  ∀ b ∈ rest.head?, b ≠ '='.toUInt8 ∧ b ≠ '|'.toUInt8 ∧ b ≠ '&'.toUInt8 ∧ b ≠ '.'.toUInt8 ∧
    b ≠ '/'.toUInt8

theorem isPrefixOf_append {t u : List UInt8} {b : UInt8} (h : b ∉ t) :
    t.isPrefixOf (u ++ b :: rest) = t.isPrefixOf u := by
  induction u generalizing t with
  | nil =>
    cases t with
    | nil => rfl
    | cons c t =>
      have hne : (c == b) = false := beq_eq_false_iff_ne.2 fun hc => h (hc ▸ List.mem_cons_self)
      rw [List.nil_append, List.isPrefixOf_cons_cons, hne]
      rfl
  | cons d u ih =>
    cases t with
    | nil => rfl
    | cons c t =>
      rw [List.cons_append, List.isPrefixOf_cons_cons, List.isPrefixOf_cons_cons,
        ih fun ht => h (.tail _ ht)]

/-- The first byte of a symbol belongs to no other class, and these are the bytes behind it. -/
theorem symbol_bytes (s : Symbol) :
    (∃ b bs, bytes s.text = b :: bs ∧ isWordStart b = false ∧ isDigit b = false ∧
      b ≠ '\''.toUInt8 ∧ isBlank b = false ∧ (b = '/'.toUInt8 → bs = [])) ∧
    ∀ b ∈ (bytes s.text).tail, b = '='.toUInt8 ∨ b = '|'.toUInt8 ∨ b = '&'.toUInt8 ∨
      b = '.'.toUInt8 := by
  cases s <;> exact ⟨⟨_, _, rfl, by decide⟩, by decide +kernel⟩

theorem symbol?_append (s : Symbol) (hr : SymbolEnds rest) :
    symbol? (bytes s.text ++ rest) = some s := by
  have hself : symbol? (bytes s.text) = some s := by cases s <;> decide
  cases rest with
  | nil => rw [List.append_nil, hself]
  | cons b rest =>
    obtain ⟨h₁, h₂, h₃, h₄, _⟩ := hr b rfl
    obtain ⟨⟨c, cs, hc, _⟩, _⟩ := symbol_bytes s
    -- The byte behind the symbol stands in no symbol but as its first byte, so each symbol is
    -- found in front of the longer text as it is in front of `s` alone.
    rw [← hself, symbol?, symbol?]
    congr 1
    funext t
    obtain ⟨⟨d, ds, hd, _⟩, htail⟩ := symbol_bytes t
    have hb : b ∉ ds := fun hb => by
      rcases htail b (by rw [hd]; exact hb) with h | h | h | h
      · exact h₁ h
      · exact h₂ h
      · exact h₃ h
      · exact h₄ h
    rw [hc, hd, List.cons_append, List.isPrefixOf_cons_cons, List.isPrefixOf_cons_cons,
      isPrefixOf_append hb]

theorem first_symbol (s : Symbol) (hr : SymbolEnds rest) :
    first (bytes s.text ++ rest) = .ok ⟨s, s.text, (bytes s.text).length⟩ := by
  obtain ⟨⟨b, bs, hb, hw, hd, hq, _⟩, _⟩ := symbol_bytes s
  have hs := symbol?_append s hr
  rw [hb, List.cons_append] at hs ⊢
  simp only [first, hw, hd, hq, hs, if_false, Bool.false_eq_true]
  rw [hb]

section Quoted

variable {value : List UInt8} {length : Nat}

theorem quoted_plain {b : UInt8} (h₀ : b ≠ 0) (hq : b ≠ '\''.toUInt8) (he : b ≠ '\\'.toUInt8)
    (hr : quoted rest = .ok (value, length)) :
    quoted (b :: rest) = .ok (b :: value, length + 1) := by
  cases rest with
  | nil => exact nomatch hr
  | cons c rest => rw [quoted, if_neg h₀, if_neg hq, if_neg fun h => he h.1, hr]

theorem quoted_escaped {b : UInt8} (h₀ : b ≠ 0) (hr : quoted rest = .ok (value, length)) :
    quoted ('\\'.toUInt8 :: b :: rest) = .ok (unescape b :: value, length + 2) := by
  rw [quoted, if_neg (by decide), if_neg (by decide), if_pos ⟨rfl, h₀⟩, hr]

theorem quoted_close : quoted ('\''.toUInt8 :: rest) = .ok ([], 1) := by
  cases rest <;> rfl

theorem quoted_run {bs : List UInt8}
    (h : ∀ b ∈ bs, b ≠ 0 ∧ b ≠ '\''.toUInt8 ∧ b ≠ '\\'.toUInt8)
    (hr : quoted rest = .ok (value, length)) :
    quoted (bs ++ rest) = .ok (bs ++ value, length + bs.length) := by
  induction bs with
  | nil => exact hr
  | cons b bs ih =>
    obtain ⟨h₀, hq, he⟩ := h b List.mem_cons_self
    exact quoted_plain h₀ hq he (ih fun c hc => h c (.tail _ hc))

theorem toUInt8_inj {c d : Char} (hc : c.toNat < 128) (hd : d.toNat < 128)
    (h : c.toUInt8 = d.toUInt8) : c = d := by
  have h := congrArg UInt8.toNat h
  rw [toNat_toUInt8 hc, toNat_toUInt8 hd] at h
  exact Char.toNat_inj.1 h

theorem plain_of_le {b : UInt8} (h : 128 ≤ b.toNat) :
    b ≠ 0 ∧ b ≠ '\''.toUInt8 ∧ b ≠ '\\'.toUInt8 := by
  refine ⟨?_, ?_, ?_⟩ <;> rintro rfl <;> revert h <;> decide

/-- A character of several bytes has all of them from 128 on, where none is special. -/
theorem plain_of_mem_utf8EncodeChar {c : Char} (h₀ : c ≠ '\x00') (hq : c ≠ '\'') (he : c ≠ '\\') :
    ∀ b ∈ String.utf8EncodeChar c, b ≠ 0 ∧ b ≠ '\''.toUInt8 ∧ b ≠ '\\'.toUInt8 := by
  intro b hb
  rcases byte_of_mem_utf8EncodeChar hb with ⟨hlt, rfl⟩ | hge
  · exact ⟨fun h => h₀ (toUInt8_inj hlt (by decide) h), fun h => hq (toUInt8_inj hlt (by decide) h),
      fun h => he (toUInt8_inj hlt (by decide) h)⟩
  · exact plain_of_le hge

/-- A character is read back from its escaped form. -/
theorem quoted_escape {c : Char} (hc : c ≠ '\x00') (hr : quoted rest = .ok (value, length)) :
    quoted ((Piece.escape c).flatMap String.utf8EncodeChar ++ rest) =
      .ok (String.utf8EncodeChar c ++ value,
        length + ((Piece.escape c).flatMap String.utf8EncodeChar).length) := by
  unfold Piece.escape
  split
  · exact quoted_escaped (b := 'n'.toUInt8) (by decide) hr
  · exact quoted_escaped (b := 't'.toUInt8) (by decide) hr
  · exact quoted_escaped (b := 'r'.toUInt8) (by decide) hr
  · exact quoted_escaped (b := '\\'.toUInt8) (by decide) hr
  · exact quoted_escaped (b := '\''.toUInt8) (by decide) hr
  · next hescape hquote =>
    rw [List.flatMap_singleton]
    exact quoted_run (plain_of_mem_utf8EncodeChar hc hquote hescape) hr

theorem quoted_escapes {cs : List Char} (h : ∀ c ∈ cs, c ≠ '\x00') :
    quoted ((cs.flatMap Piece.escape).flatMap String.utf8EncodeChar ++ '\''.toUInt8 :: rest) =
      .ok (cs.flatMap String.utf8EncodeChar,
        1 + ((cs.flatMap Piece.escape).flatMap String.utf8EncodeChar).length) := by
  induction cs with
  | nil => exact quoted_close
  | cons c cs ih =>
    have hc := quoted_escape (h c List.mem_cons_self) (ih fun d hd => h d (.tail _ hd))
    simp only [List.flatMap_cons, List.flatMap_append, List.append_assoc, List.length_append]
      at hc ⊢
    rw [hc]
    congr 2
    omega

theorem bytes_quote (v : String) : bytes (Piece.quote v) = '\''.toUInt8 ::
    ((v.toList.flatMap Piece.escape).flatMap String.utf8EncodeChar ++ ['\''.toUInt8]) := by
  rw [Piece.quote, bytes_ofList, List.cons_append, List.flatMap_cons, List.flatMap_append]
  rfl

/-- A string without a zero byte is read back from between its quotes. -/
theorem first_quote {v : String} (h : 0 ∉ bytes v) :
    first (bytes (Piece.quote v) ++ rest) =
      .ok ⟨.stringLiteral, v, (bytes (Piece.quote v)).length⟩ := by
  have hv : v.toList.flatMap String.utf8EncodeChar = bytes v := (bytes_eq_flatMap v).symm
  have hzero : ∀ c ∈ v.toList, c ≠ '\x00' := by
    rintro c hc rfl
    rw [← hv] at h
    exact h (List.mem_flatMap.2 ⟨_, hc, List.mem_cons_self⟩)
  rw [bytes_quote, List.cons_append, List.append_assoc, List.singleton_append, first,
    if_neg (by decide), if_neg (by decide), if_pos rfl, quoted_escapes hzero]
  simp only [hv, ofBytes_bytes, List.length_cons, List.length_append, List.length_nil]
  congr 2
  omega

end Quoted

end Lexeme

end ScriptSyntax
