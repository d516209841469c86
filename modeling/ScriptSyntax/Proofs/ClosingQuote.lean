import Mathlib.Algebra.Group.Nat.Even
import ScriptSyntax.Proofs.Interruption

/-!
Where a string ends. A quote is escaped by an odd number of backslashes in front of it, and the
first one that is not escaped closes the string, unless a zero byte stands in front of that: the
scan takes it for the end of the text.
-/

namespace ScriptSyntax

open Text Lexeme

variable {c : Char} {cs front body rest : List Char}

/-- The number of backslashes in a row that a text ends with. -/
def backslashes (front : List Char) : Nat := (front.reverse.takeWhile (· = '\\')).length

/-- What stands behind `front` is escaped. -/
def Escapes (front : List Char) : Prop := Odd (backslashes front)

/-- Every quote is escaped. -/
def Unclosed (cs : List Char) : Prop := ∀ front rest, cs = front ++ '\'' :: rest → Escapes front

/-- The first quote of `cs` that is not escaped stands behind `body`. -/
structure ClosedBehind (cs body : List Char) : Prop where
  quote : ∃ rest, cs = body ++ '\'' :: rest
  closes : ¬ Escapes body
  first : Unclosed body

/-- The character meant by a backslash and the character behind it. -/
def meant : Char → Char
  | 'n' => '\n'
  | 't' => '\t'
  | 'r' => '\r'
  | c => c

/-- What is meant by the text between two quotes. -/
def meaning : List Char → List Char
  | '\\' :: c :: cs => meant c :: meaning cs
  | c :: cs => c :: meaning cs
  | [] => []

example : meaning ['\\', 'n', '\\', 'é', '\\', '\\'] = ['\n', 'é', '\\'] := rfl

/-- The part of a text that stands in front of its first zero. -/
def untilZero (cs : List Char) : List Char := cs.takeWhile (· ≠ '\x00')

section Escapes

theorem backslashes_le (front : List Char) : backslashes front ≤ front.length := by
  have hlength := (List.takeWhile_prefix (· = '\\') (l := front.reverse)).length_le
  rwa [List.length_reverse] at hlength

/-- A character in front counts only if it is a backslash and nothing else stands behind it. -/
theorem backslashes_cons (c : Char) (front : List Char) : backslashes (c :: front) =
    if backslashes front = front.length ∧ c = '\\' then front.length + 1
    else backslashes front := by
  have hsplit :
      backslashes (c :: front) = ((front.reverse ++ [c]).takeWhile (· = '\\')).length := by
    rw [backslashes, List.reverse_cons]
  rw [hsplit, List.takeWhile_append]
  by_cases hall : backslashes front = front.length
  · rw [if_pos (by rw [List.length_reverse]; exact hall)]
    by_cases hc : c = '\\' <;> simp [hall, hc]
  · rw [if_neg (by rw [List.length_reverse]; exact hall), if_neg fun h => hall h.1]
    rfl

theorem not_escapes_nil : ¬ Escapes [] := by
  simp [Escapes, backslashes]

theorem escapes_backslash : Escapes ['\\'] := by
  simp [Escapes, backslashes]

theorem escapes_cons (hc : c ≠ '\\') : Escapes (c :: front) ↔ Escapes front := by
  rw [Escapes, backslashes_cons, if_neg fun h => hc h.2]
  rfl

/-- A backslash and the character behind it escape nothing together. -/
theorem escapes_pair : Escapes ('\\' :: c :: front) ↔ Escapes front := by
  have hle := backslashes_le front
  have hpair : backslashes ('\\' :: c :: front) % 2 = backslashes front % 2 := by
    rw [backslashes_cons, backslashes_cons, List.length_cons]
    by_cases hall : backslashes front = front.length ∧ c = '\\'
    · rw [if_pos hall, if_pos ⟨rfl, rfl⟩]
      omega
    · rw [if_neg hall, if_neg (by omega)]
  rw [Escapes, Escapes, Nat.odd_iff, Nat.odd_iff, hpair]

end Escapes

namespace Unclosed

theorem of_not_mem (h : '\'' ∉ cs) : Unclosed cs := by
  rintro front rest rfl
  exact absurd (List.mem_append_right front List.mem_cons_self) h

theorem tail (h : Unclosed (c :: cs)) (hc : c ≠ '\\') : c ≠ '\'' ∧ Unclosed cs := by
  refine ⟨?_, fun front rest hcs => ?_⟩
  · rintro rfl
    exact not_escapes_nil (h [] cs rfl)
  · exact (escapes_cons hc).1 (h (c :: front) rest (by rw [hcs]; rfl))

theorem pair (h : Unclosed ('\\' :: c :: cs)) : Unclosed cs := fun front rest hcs =>
  escapes_pair.1 (h ('\\' :: c :: front) rest (by rw [hcs]; rfl))

end Unclosed

/-- Where some quote is not escaped, there is a first one. -/
theorem exists_closedBehind (h : ¬ Unclosed cs) : ∃ body, ClosedBehind cs body := by
  obtain ⟨front, rest, hcs, hfront⟩ :
      ∃ front rest, cs = front ++ '\'' :: rest ∧ ¬ Escapes front := by
    simpa [Unclosed] using h
  -- The part in front of a quote that is not the first one holds another, with less in front.
  induction hn : front.length using Nat.strong_induction_on generalizing front rest with
  | _ n ih =>
    by_cases hfirst : Unclosed front
    · exact ⟨front, ⟨rest, hcs⟩, hfront, hfirst⟩
    · obtain ⟨shorter, behind, rfl, hshorter⟩ :
          ∃ shorter behind, front = shorter ++ '\'' :: behind ∧ ¬ Escapes shorter := by
        simpa [Unclosed] using hfirst
      refine ih shorter.length ?_ shorter (behind ++ '\'' :: rest) ?_ hshorter rfl
      · rw [← hn, List.length_append, List.length_cons]
        omega
      · rw [hcs, List.append_assoc, List.cons_append]

section Bytes

variable {value behind : List UInt8}

theorem utf8EncodeChar_meant_ascii (hc : c.toNat < 128) :
    String.utf8EncodeChar (meant c) = [unescape c.toUInt8] := by
  unfold meant
  split
  · decide
  · decide
  · decide
  · next hn ht hr =>
    have hother : ∀ d : Char, d.toNat < 128 → c ≠ d → c.toUInt8 ≠ d.toUInt8 :=
      fun d hd hne h => hne (toUInt8_inj hc hd h)
    rw [utf8EncodeChar_ascii hc, unescape, if_neg (hother 'n' (by decide) hn),
      if_neg (hother 't' (by decide) ht), if_neg (hother 'r' (by decide) hr)]

theorem meant_of_le (hc : 128 ≤ c.toNat) : meant c = c := by
  unfold meant
  split
  · exact absurd hc (by decide)
  · exact absurd hc (by decide)
  · exact absurd hc (by decide)
  · rfl

theorem unescape_of_le {b : UInt8} (hb : 128 ≤ b.toNat) : unescape b = b := by
  unfold unescape
  split
  · next h => exact absurd hb (by rw [h]; decide)
  split
  · next h => exact absurd hb (by rw [h]; decide)
  split
  · next h => exact absurd hb (by rw [h]; decide)
  · rfl

/-- Of an escaped character only the first byte is translated, and no other byte is special. -/
theorem bytes_meant (hc : c ≠ '\x00') : ∃ b bs, String.utf8EncodeChar c = b :: bs ∧ b ≠ 0 ∧
    (∀ d ∈ bs, d ≠ 0 ∧ d ≠ '\''.toUInt8 ∧ d ≠ '\\'.toUInt8) ∧
    String.utf8EncodeChar (meant c) = unescape b :: bs := by
  by_cases hlt : c.toNat < 128
  · exact ⟨c.toUInt8, [], utf8EncodeChar_ascii hlt, fun h => hc (toUInt8_inj hlt (by decide) h),
      nofun, utf8EncodeChar_meant_ascii hlt⟩
  · obtain ⟨b, bs, hbytes⟩ := List.exists_cons_of_ne_nil (String.utf8EncodeChar_ne_nil (c := c))
    have hge : ∀ d ∈ b :: bs, 128 ≤ d.toNat := by
      intro d hd
      rw [← hbytes] at hd
      rcases byte_of_mem_utf8EncodeChar hd with ⟨hlt', -⟩ | hge
      · exact absurd hlt' hlt
      · exact hge
    have hb := hge b List.mem_cons_self
    refine ⟨b, bs, hbytes, (plain_of_le hb).1, fun d hd => plain_of_le (hge d (.tail _ hd)), ?_⟩
    rw [meant_of_le (by omega), unescape_of_le hb, hbytes]

theorem IsQuoted.run {bs : List UInt8} (h : ∀ b ∈ bs, b ≠ 0 ∧ b ≠ '\''.toUInt8 ∧ b ≠ '\\'.toUInt8)
    {l : List UInt8} (hl : IsQuoted l value) : IsQuoted (bs ++ l) (bs ++ value) := by
  induction bs with
  | nil => exact hl
  | cons b bs ih =>
    obtain ⟨h₀, hq, he⟩ := h b List.mem_cons_self
    exact .plain h₀ hq he (ih fun d hd => h d (.tail _ hd))

/-- What is between the quotes is read as what is meant by it. -/
theorem isQuoted_meaning (hopen : Unclosed body) (hcloses : ¬ Escapes body)
    (hzero : '\x00' ∉ body) : IsQuoted (body.flatMap String.utf8EncodeChar)
      ((meaning body).flatMap String.utf8EncodeChar) := by
  -- The scan takes bytes as `meaning` takes characters: a backslash with what stands behind it.
  fun_induction meaning body with
  | case1 c cs ih =>
    obtain ⟨hc, hcs⟩ := List.ne_and_not_mem_of_not_mem_cons (List.not_mem_of_not_mem_cons hzero)
    have hcs := ih hopen.pair (fun h => hcloses (escapes_pair.2 h)) hcs
    obtain ⟨b, bs, hbytes, h₀, hplain, hmeant⟩ := bytes_meant hc.symm
    simp only [List.flatMap_cons, hbytes, hmeant]
    exact .escaped h₀ (hcs.run hplain)
  | case2 c cs hpair ih =>
    obtain ⟨hc, hcs⟩ := List.ne_and_not_mem_of_not_mem_cons hzero
    -- A backslash with nothing behind it would escape the closing quote.
    have hbackslash : c ≠ '\\' := by
      rintro rfl
      cases cs with
      | nil => exact hcloses escapes_backslash
      | cons d cs => exact hpair d cs rfl rfl
    obtain ⟨hquote, hopen⟩ := hopen.tail hbackslash
    have hcs := ih hopen (fun h => hcloses ((escapes_cons hbackslash).2 h)) hcs
    exact hcs.run (plain_of_mem_utf8EncodeChar hc.symm hquote hbackslash)
  | case3 => exact .nil

theorem quoted_plain_error {b : UInt8} {n : Nat} (h₀ : b ≠ 0) (hq : b ≠ '\''.toUInt8)
    (he : b ≠ '\\'.toUInt8) (h : quoted behind = .error n) :
    quoted (b :: behind) = .error (n + 1) := by
  cases behind with
  | nil =>
    cases h
    rw [quoted, if_neg hq, if_neg h₀]
  | cons d behind => rw [quoted, if_neg h₀, if_neg hq, if_neg fun h => he h.1, h]

theorem quoted_run_error {bs : List UInt8} {n : Nat}
    (h : ∀ b ∈ bs, b ≠ 0 ∧ b ≠ '\''.toUInt8 ∧ b ≠ '\\'.toUInt8) (hn : quoted behind = .error n) :
    quoted (bs ++ behind) = .error (n + bs.length) := by
  induction bs with
  | nil => exact hn
  | cons b bs ih =>
    obtain ⟨h₀, hq, he⟩ := h b List.mem_cons_self
    exact quoted_plain_error h₀ hq he (ih fun d hd => h d (.tail _ hd))

theorem quoted_escaped_error {b : UInt8} {n : Nat} (h₀ : b ≠ 0) (h : quoted behind = .error n) :
    quoted ('\\'.toUInt8 :: b :: behind) = .error (n + 2) := by
  rw [quoted, if_neg (by decide), if_neg (by decide), if_pos ⟨rfl, h₀⟩, h]

theorem quoted_end (h : ∀ b ∈ behind.head?, b = 0) : quoted behind = .error 0 := by
  cases behind with
  | nil => rfl
  | cons b behind =>
    obtain rfl := h b rfl
    cases behind <;> rfl

/-- A backslash with nothing to escape stands for itself. -/
theorem quoted_backslash (h : ∀ b ∈ behind.head?, b = 0) :
    quoted ('\\'.toUInt8 :: behind) = .error 1 := by
  have hend := quoted_end h
  cases behind with
  | nil => rfl
  | cons b behind =>
    obtain rfl := h b rfl
    rw [quoted, if_neg (by decide), if_neg (by decide), if_neg fun h => h.2 rfl, hend]

/-- Without a quote that closes it, a string is read to its end or to a zero byte behind it. -/
theorem quoted_unclosed (hopen : Unclosed cs) (hzero : '\x00' ∉ cs)
    (hbehind : ∀ b ∈ behind.head?, b = 0) :
    quoted (cs.flatMap String.utf8EncodeChar ++ behind) =
      .error (cs.flatMap String.utf8EncodeChar).length := by
  fun_induction meaning cs with
  | case1 c cs ih =>
    obtain ⟨hc, hcs⟩ := List.ne_and_not_mem_of_not_mem_cons (List.not_mem_of_not_mem_cons hzero)
    obtain ⟨b, bs, hbytes, h₀, hplain, -⟩ := bytes_meant hc.symm
    have hread := quoted_escaped_error h₀ (quoted_run_error hplain (ih hopen.pair hcs))
    have hencode : ('\\' :: c :: cs).flatMap String.utf8EncodeChar =
        '\\'.toUInt8 :: b :: (bs ++ cs.flatMap String.utf8EncodeChar) := by
      rw [List.flatMap_cons, List.flatMap_cons, hbytes]
      rfl
    rw [hencode, List.cons_append, List.cons_append, List.append_assoc, hread, List.length_cons,
      List.length_cons, List.length_append, Nat.add_comm bs.length]
  | case2 c cs hpair ih =>
    obtain ⟨hc, hcs⟩ := List.ne_and_not_mem_of_not_mem_cons hzero
    by_cases hbackslash : c = '\\'
    · subst hbackslash
      cases cs with
      | nil => exact quoted_backslash hbehind
      | cons d cs => exact absurd rfl (hpair d cs rfl)
    · obtain ⟨hquote, hopen⟩ := hopen.tail hbackslash
      have hplain := plain_of_mem_utf8EncodeChar hc.symm hquote hbackslash
      have hread := quoted_run_error hplain (ih hopen hcs)
      rwa [List.flatMap_cons, List.append_assoc, List.length_append, Nat.add_comm]
  | case3 => exact quoted_end hbehind

end Bytes

section Scan

/-- Behind the part in front of the first zero, a text ends or goes on with a zero byte. -/
theorem untilZero_append (cs : List Char) : ∃ behind, (∀ b ∈ behind.head?, b = 0) ∧
    cs.flatMap String.utf8EncodeChar = (untilZero cs).flatMap String.utf8EncodeChar ++ behind := by
  refine ⟨(cs.dropWhile (· ≠ '\x00')).flatMap String.utf8EncodeChar, ?_, ?_⟩
  · cases hbehind : cs.dropWhile (· ≠ '\x00') with
    | nil => nofun
    | cons c behind =>
      have hc := List.head?_dropWhile_not (· ≠ '\x00') cs
      rw [hbehind] at hc
      obtain rfl : c = '\x00' := by simpa using hc
      rintro b ⟨⟩
      rfl
  · rw [untilZero, ← List.flatMap_append, List.takeWhile_append_dropWhile]

theorem zero_not_mem_untilZero (cs : List Char) : '\x00' ∉ untilZero cs := fun h => by
  simpa using List.mem_takeWhile_imp h

theorem first_quoted (cs : List Char) : first (bytes (String.ofList ('\'' :: cs))) =
    match quoted (cs.flatMap String.utf8EncodeChar) with
    | .ok (value, length) => .ok ⟨.stringLiteral, ofBytes value, length + 1⟩
    | .error length => .error (.unexpectedEnd, length + 1) := by
  rw [bytes_ofList]
  rfl

theorem first_closed (h : ClosedBehind (untilZero cs) body) : ∃ length,
    first (bytes (String.ofList ('\'' :: cs))) =
      .ok ⟨.stringLiteral, String.ofList (meaning body), length⟩ := by
  obtain ⟨behind, -, hcs⟩ := untilZero_append cs
  obtain ⟨rest, hrest⟩ := h.quote
  have hzero : '\x00' ∉ body := fun hmem => zero_not_mem_untilZero cs <| by
    rw [hrest]
    exact List.mem_append_left _ hmem
  have hsplit : cs.flatMap String.utf8EncodeChar = body.flatMap String.utf8EncodeChar ++
      '\''.toUInt8 :: (rest.flatMap String.utf8EncodeChar ++ behind) := by
    rw [hcs, hrest, List.flatMap_append, List.append_assoc]
    rfl
  have htext : ofBytes ((meaning body).flatMap String.utf8EncodeChar) =
      String.ofList (meaning body) := by
    rw [← bytes_ofList, ofBytes_bytes]
  rw [first_quoted, hsplit, (isQuoted_meaning h.first h.closes hzero).quoted, ← htext]
  exact ⟨_, rfl⟩

theorem first_unclosed (h : Unclosed (untilZero cs)) :
    first (bytes (String.ofList ('\'' :: cs))) =
      .error (.unexpectedEnd, (bytes (String.ofList ('\'' :: untilZero cs))).length) := by
  obtain ⟨behind, hbehind, hcs⟩ := untilZero_append cs
  rw [first_quoted, hcs, quoted_unclosed h (zero_not_mem_untilZero cs) hbehind, bytes_ofList]
  rfl

theorem skipBlank_quote (cs : List Char) : (Cursor.start (String.ofList ('\'' :: cs))).skipBlank =
    .behind [] (bytes (String.ofList ('\'' :: cs))) := by
  have hplain : Plain (bytes (String.ofList ('\'' :: cs))) := by
    rw [bytes_ofList]
    exact ⟨by rintro b ⟨⟩; decide, fun ⟨r, hr⟩ => nomatch hr⟩
  exact Cursor.skipBlank_behind [] .nil hplain

theorem take_untilZero (cs : List Char) : (bytes (String.ofList ('\'' :: cs))).take
    (bytes (String.ofList ('\'' :: untilZero cs))).length =
      bytes (String.ofList ('\'' :: untilZero cs)) := by
  obtain ⟨behind, -, hcs⟩ := untilZero_append cs
  have hfront : bytes (String.ofList ('\'' :: cs)) =
      bytes (String.ofList ('\'' :: untilZero cs)) ++ behind := by
    simp only [bytes_ofList, List.flatMap_cons, hcs, List.append_assoc]
  rw [hfront, List.take_left]

/-- A text that begins with a quote begins with a string if some quote in it that is not escaped
stands in front of any zero byte, and the first such quote closes the string. Otherwise nothing is
read, and the end is reported where the text or its part in front of the first zero byte ends. -/
theorem string_runs_to_closing_quote (cs : List Char) (L : TokenList) :
    (¬ Unclosed (untilZero cs) → ∃ body, ClosedBehind (untilZero cs) body ∧
      ∃ ts, (TokenList.scanInto (String.ofList ('\'' :: cs)) L).1.toList =
        ⟨.stringLiteral, String.ofList (meaning body), .known 0 0⟩ :: ts) ∧
    (Unclosed (untilZero cs) → TokenList.scanInto (String.ofList ('\'' :: cs)) L =
      ({}, some ⟨.unexpectedEnd, place (bytes (String.ofList ('\'' :: untilZero cs)))⟩)) := by
  have hskip := skipBlank_quote cs
  refine ⟨fun h => ?_, fun h => ?_⟩
  · obtain ⟨body, hbody⟩ := exists_closedBehind h
    obtain ⟨length, hfirst⟩ := first_closed hbody
    rw [TokenList.scanInto, TokenList.scanFrom_token _ (by rw [hskip]; exact hfirst), hskip]
    obtain ⟨ts, hts⟩ := TokenList.tokens_scanFrom
      ((Cursor.behind [] (bytes (String.ofList ('\'' :: cs)))).skip length)
      (L.clear.push ⟨.stringLiteral, String.ofList (meaning body), .known 0 0⟩)
    exact ⟨body, hbody, ts.toList, (congrArg Array.toList hts).trans Array.toList_append⟩
  · have hfirst := first_unclosed h
    have hne : (Cursor.start (String.ofList ('\'' :: cs))).skipBlank.rest ≠ [] := by
      rw [hskip, Cursor.behind, bytes_ofList]
      exact List.cons_ne_nil _ _
    rw [TokenList.scanInto, TokenList.scanFrom_error _ hne (by rw [hskip]; exact hfirst), hskip,
      Cursor.skip_take (length_le_of_first hfirst), take_untilZero]
    rfl

/-- The quote that closes the first string, and the end of the second, stand behind the zero byte
that the reading ends at. -/
theorem string_cut_at_zero :
    ClosedBehind ['a', '\x00', 'b', '\''] ['a', '\x00', 'b'] ∧
      tokenize "'a\x00b'" = .error ⟨.unexpectedEnd, .known 0 2⟩ ∧
    Unclosed ['a', '\x00'] ∧ tokenize "'a\x00" = .error ⟨.unexpectedEnd, .known 0 2⟩ := by
  have hcloses : ¬ Escapes ['a', '\x00', 'b'] := by simp [Escapes, backslashes]
  exact ⟨⟨⟨[], rfl⟩, hcloses, .of_not_mem (by decide)⟩, by decide +kernel, .of_not_mem (by decide),
    by decide +kernel⟩

end Scan

end ScriptSyntax
