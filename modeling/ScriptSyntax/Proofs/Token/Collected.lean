import ScriptSyntax.Proofs.ClosingQuote

/-!
The bytes that the scan collects for a string, and how they become its text. Whatever stands between
the quotes, escapes in front of longer characters included, they encode a text, so that nothing in
it is a replacement for bytes that encode none.
-/

namespace ScriptSyntax

open Text Lexeme

namespace Text

/-- The number of bytes that a first byte announces behind it. -/
def announced (b : UInt8) : Nat :=
  if 0xC2 ≤ b ∧ b ≤ 0xDF then 1
  else if 0xE0 ≤ b ∧ b ≤ 0xEF then 2
  else if 0xF0 ≤ b ∧ b ≤ 0xF4 then 3
  else 0

/-- The bytes that may stand right behind a first byte that announces some. -/
def mayFollow (b next : UInt8) : Bool :=
  (if b = 0xE0 then 0xA0 else if b = 0xF0 then 0x90 else 0x80) ≤ next &&
    next ≤ (if b = 0xED then 0x9F else if b = 0xF4 then 0x8F else 0xBF)

/-- The bytes behind `b` that are given up with it, if it begins no character: those that go on as
if it did. -/
def brokenLength (b : UInt8) : List UInt8 → Nat
  | [] => 0
  | next :: rest =>
    if 0 < announced b ∧ mayFollow b next then
      ((rest.take (announced b - 1)).takeWhile fun c => 0x80 ≤ c && c ≤ 0xBF).length + 1
    else 0

/-- The characters that some bytes encode behind the first `skip` of them. -/
def lossyFrom : (skip : Nat) → List UInt8 → List Char
  | _, [] => []
  | skip + 1, _ :: rest => lossyFrom skip rest
  | 0, b :: rest =>
    match (b :: rest).toByteArray.utf8DecodeChar? 0 with
    | some c => c :: lossyFrom (c.utf8Size - 1) rest
    | none => '\uFFFD' :: lossyFrom (brokenLength b rest) rest

/-- The text that some bytes encode, with a replacement character for each run that encodes
nothing. -/
def lossy (bs : List UInt8) : String := String.ofList (lossyFrom 0 bs)

theorem lossyFrom_append (l rest : List UInt8) :
    lossyFrom l.length (l ++ rest) = lossyFrom 0 rest := by
  induction l with
  | nil => rfl
  | cons b l ih => exact ih

theorem lossyFrom_utf8EncodeChar (c : Char) (rest : List UInt8) :
    lossyFrom 0 (String.utf8EncodeChar c ++ rest) = c :: lossyFrom 0 rest := by
  have hdecode : (String.utf8EncodeChar c ++ rest).toByteArray.utf8DecodeChar? 0 = some c := by
    rw [List.toByteArray_append]
    exact ByteArray.utf8DecodeChar?_utf8EncodeChar_append
  have hlength := String.length_utf8EncodeChar c
  obtain ⟨b, bs, hbytes⟩ := List.exists_cons_of_ne_nil (String.utf8EncodeChar_ne_nil (c := c))
  rw [hbytes, List.cons_append] at hdecode
  rw [hbytes, List.length_cons] at hlength
  -- The other bytes of the character are passed over one by one.
  rw [hbytes, List.cons_append, lossyFrom, hdecode]
  simp only [← hlength, Nat.add_sub_cancel, lossyFrom_append]

/-- Of the bytes of a text none are given up. -/
theorem lossy_bytes (text : String) : lossy (bytes text) = text := by
  have hchars : ∀ cs : List Char, lossyFrom 0 (cs.flatMap String.utf8EncodeChar) = cs := by
    intro cs
    induction cs with
    | nil => rfl
    | cons c cs ih => rw [List.flatMap_cons, lossyFrom_utf8EncodeChar, ih]
  rw [lossy, bytes_eq_flatMap, hchars, String.ofList_toList]

/-- The bytes come back unless some of them were replaced. -/
theorem bytes_lossy_iff {bs : List UInt8} : bytes (lossy bs) = bs ↔ IsText bs := by
  refine ⟨fun h => ⟨_, h⟩, ?_⟩
  rintro ⟨text, rfl⟩
  rw [lossy_bytes]

example : lossy [0x61, 0xE2, 0x82, 0x27, 0xC3, 0xA9, 0x80] = "a\uFFFD'é\uFFFD" := rfl

end Text

namespace Lexeme

/-- The bytes collected behind an opening quote when the reading stops: at the closing quote, at a
zero byte or at the end. -/
def collected : List UInt8 → List UInt8
  | [] => []
  | [b] => if b = 0 ∨ b = '\''.toUInt8 then [] else [b]
  | b :: next :: rest =>
    if b = 0 ∨ b = '\''.toUInt8 then []
    else if b = '\\'.toUInt8 ∧ next ≠ 0 then unescape next :: collected rest
    else b :: collected (next :: rest)

variable {front rest body value bs : List UInt8} {b : UInt8}

theorem collected_stop (h : ∀ b ∈ front.head?, b = 0 ∨ b = '\''.toUInt8) : collected front = [] := by
  cases front with
  | nil => rfl
  | cons b front => cases front <;> rw [collected, if_pos (h b rfl)]

theorem collected_plain (h₀ : b ≠ 0) (hq : b ≠ '\''.toUInt8) (he : b ≠ '\\'.toUInt8) :
    collected (b :: rest) = b :: collected rest := by
  cases rest with
  | nil => simp [collected, h₀, hq]
  | cons c rest => rw [collected, if_neg (not_or.2 ⟨h₀, hq⟩), if_neg fun h => he h.1]

theorem collected_run (h : ∀ b ∈ bs, b ≠ 0 ∧ b ≠ '\''.toUInt8 ∧ b ≠ '\\'.toUInt8) :
    collected (bs ++ rest) = bs ++ collected rest := by
  induction bs with
  | nil => rfl
  | cons b bs ih =>
    obtain ⟨h₀, hq, he⟩ := h b List.mem_cons_self
    rw [List.cons_append, collected_plain h₀ hq he, ih fun d hd => h d (.tail _ hd),
      List.cons_append]

theorem collected_escaped (h₀ : b ≠ 0) :
    collected ('\\'.toUInt8 :: b :: rest) = unescape b :: collected rest := by
  rw [collected, if_neg (by decide), if_pos ⟨rfl, h₀⟩]

/-- A backslash with nothing to escape is collected as it is. -/
theorem collected_backslash (h : ∀ b ∈ rest.head?, b = 0) :
    collected ('\\'.toUInt8 :: rest) = ['\\'.toUInt8] := by
  have hstop := collected_stop fun b hb => .inl (h b hb)
  cases rest with
  | nil => rfl
  | cons b rest =>
    obtain rfl := h b rfl
    rw [collected, if_neg (by decide), if_neg fun h => h.2 rfl, hstop]

/-- What was collected in front of a closing quote is what the string means. -/
theorem collected_quoted (h : IsQuoted body value) :
    collected (body ++ '\''.toUInt8 :: rest) = value := by
  induction h with
  | nil => exact collected_stop (by rintro b ⟨⟩; exact .inr rfl)
  | plain h₀ hq he _ ih => rw [List.cons_append, collected_plain h₀ hq he, ih]
  | escaped h₀ _ ih => rw [List.cons_append, List.cons_append, collected_escaped h₀, ih]

theorem collected_of_quoted {length : Nat} (h : quoted front = .ok (value, length)) :
    collected front = value := by
  obtain ⟨body, rest, rfl, -, hbody⟩ := isQuoted_of_quoted h
  exact collected_quoted hbody

/-- An escape takes only the first byte of the character behind it, but changes none of a longer
character, and the reading stops at no byte of one. -/
theorem isText_collected (h : IsText front) : IsText (collected front) := by
  obtain ⟨text, rfl⟩ := h
  rw [bytes_eq_flatMap]
  generalize text.toList = cs
  -- The scan takes bytes as `meaning` takes characters: a backslash with what stands behind it.
  fun_induction meaning cs with
  | case1 c cs ih =>
    have hbackslash : ('\\' :: c :: cs).flatMap String.utf8EncodeChar =
        '\\'.toUInt8 :: (c :: cs).flatMap String.utf8EncodeChar := rfl
    rw [hbackslash]
    by_cases hc : c = '\x00'
    · subst hc
      rw [collected_backslash (by rintro b ⟨⟩; rfl)]
      exact .singleton (by decide)
    · obtain ⟨b, bs, hbytes, h₀, hplain, hmeant⟩ := bytes_meant hc
      rw [List.flatMap_cons, hbytes, List.cons_append, collected_escaped h₀, collected_run hplain,
        ← List.cons_append, ← hmeant]
      exact (IsText.character _).append ih
  | case2 c cs hpair ih =>
    by_cases hstop : c = '\x00' ∨ c = '\''
    · rw [collected_stop]
      · exact .nil
      · rcases hstop with rfl | rfl <;> rintro b ⟨⟩ <;> decide
    obtain ⟨hzero, hquote⟩ := not_or.1 hstop
    by_cases hbackslash : c = '\\'
    · subst hbackslash
      cases cs with
      | nil => exact .singleton (b := '\\'.toUInt8) (by decide)
      | cons d cs => exact absurd rfl (hpair d cs rfl)
    · rw [List.flatMap_cons, collected_run (plain_of_mem_utf8EncodeChar hzero hquote hbackslash)]
      exact (IsText.character c).append ih
  | case3 => exact .nil

end Lexeme

end ScriptSyntax
