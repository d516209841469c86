import ScriptSyntax.Proofs.Arrangement
import ScriptSyntax.Proofs.Token.Boundary

/-!
A text that is read to its end may go on behind a newline. What follows has the tokens, or the
failure, that it has by itself, some lines further down.
-/

namespace ScriptSyntax

open Text

variable {before front rest t u : List UInt8} {ts : List Token} {finish : Location}

section Newline

theorem Trivia.append (h : Trivia (u ++ rest) t) (hu : Trivia rest u) : Trivia rest (t ++ u) := by
  induction h with
  | nil => exact hu
  | blank hb _ ih => exact .blank hb ih
  | @comment run t hrun hnext _ ih =>
    rw [List.cons_append, List.cons_append, List.append_assoc]
    exact .comment hrun (by rwa [List.append_assoc]) ih

/-- A newline ends whatever comment stands in front of it. -/
theorem Trivia.append_newline (h : Trivia [] t) (hu : Trivia rest u) :
    Trivia rest (t ++ '\n'.toUInt8 :: u) := by
  refine .append (h.congr fun b hb => .inr ?_) (.blank (by decide) hu)
  cases hb
  rfl

theorem TokenList.scanFrom_congr {c d : Cursor} (h : c.skipBlank = d.skipBlank) (l : TokenList) :
    scanFrom c l = scanFrom d l := by
  by_cases hend : c.skipBlank.rest = []
  · rw [scanFrom_done l hend, scanFrom_done l (h ▸ hend), h]
  cases hfirst : Lexeme.first c.skipBlank.rest with
  | ok lexeme => rw [scanFrom_token l hfirst, scanFrom_token l (h ▸ hfirst), h]
  | error e =>
    obtain ⟨cause, n⟩ := e
    rw [scanFrom_error l hend hfirst, scanFrom_error l (h ▸ hend) (h ▸ hfirst), h]

/-- The tokens in front of a newline are those of the text that ends there. -/
theorem Segments.continues (h : Segments before front ts finish) (b : List UInt8) (l : TokenList) :
    TokenList.scanFrom (.behind before (front ++ '\n'.toUInt8 :: b)) l =
      TokenList.scanFrom (.behind (before ++ front ++ ['\n'.toUInt8]) b)
        ⟨l.tokens ++ ts, l.finish⟩ := by
  induction h generalizing l with
  | @done before t ht =>
    obtain ⟨⟨u, rest, rfl, hu, hplain⟩, -⟩ := exists_trivia b
    have hskip := Cursor.skipBlank_behind before (ht.append_newline hu) hplain
    have hskip' := Cursor.skipBlank_behind (before ++ t ++ ['\n'.toUInt8]) hu hplain
    rw [TokenList.scanFrom_congr (d := .behind (before ++ t ++ ['\n'.toUInt8]) (u ++ rest))]
    · simp
    · rw [hskip']
      simpa using hskip
  | @token before t l' rest kind text ts finish ht hcomment hl _ ih =>
    have hl := hl.extend b
    have ht := ht.in_front hl.ne_nil (rest ++ '\n'.toUInt8 :: b)
    have hcomment : ¬ BeginsComment (l' ++ (rest ++ '\n'.toUInt8 :: b)) := fun hbegins => by
      rw [BeginsComment, ← List.append_assoc] at hbegins
      exact hcomment (prefix_of_not_mem hbegins (by decide))
    have hskip := Cursor.skipBlank_behind before ht ⟨not_blank_of_first hl.first, hcomment⟩
    have hfirst : Lexeme.first (Cursor.behind before (t ++ (l' ++ (rest ++ '\n'.toUInt8 ::
        b)))).skipBlank.rest = .ok ⟨kind, text, l'.length⟩ := by
      rw [hskip]
      exact hl.first
    have hfront : t ++ (l' ++ rest) ++ '\n'.toUInt8 :: b =
        t ++ (l' ++ (rest ++ '\n'.toUInt8 :: b)) := by simp
    rw [hfront, TokenList.scanFrom_token l hfirst, hskip, Cursor.skip_behind, ih]
    simp [TokenList.push, Cursor.location, Cursor.behind, place]

end Newline

section Below

/-- The same text some lines further down. -/
def Cursor.shifted (n : Nat) (c : Cursor) : Cursor := { c with line := n + c.line }

variable {n : Nat} {c : Cursor}

theorem Cursor.location_shifted : (c.shifted n).location = c.location.shifted n := rfl

theorem Cursor.step_shifted : (c.shifted n).step = c.step.shifted n := by
  have hpeek : (c.shifted n).peek 0 = c.peek 0 := rfl
  unfold step
  rw [hpeek]
  split <;> rfl

theorem Cursor.skip_shifted (m : Nat) : (c.shifted n).skip m = (c.skip m).shifted n := by
  induction m generalizing c with
  | zero => rfl
  | succ m ih => rw [skip, skip, step_shifted, ih]

theorem Cursor.skipBlank_shifted : (c.shifted n).skipBlank = c.skipBlank.shifted n :=
  skip_shifted _

/-- The tokens of a list some lines further down, behind those that are there. -/
def TokenList.below (ts : Array Token) (n : Nat) (l : TokenList) : TokenList :=
  ⟨ts ++ (l.moved (Location.shifted n)).tokens, l.finish.shifted n⟩

/-- The scan knows of lines only by counting them. -/
theorem TokenList.scanFrom_shifted (ts : Array Token) (n : Nat) (c : Cursor) (l : TokenList) :
    scanFrom (c.shifted n) (l.below ts n) = ((scanFrom c l).1.below ts n,
      (scanFrom c l).2.map (Failure.moved (Location.shifted n))) := by
  induction c, l using scanFrom.induct with
  | case1 c l c' hend =>
    have hnil : c.skipBlank.rest = [] := Cursor.atEnd_iff.1 hend
    rw [scanFrom_done l hnil, scanFrom_done _ (by rw [Cursor.skipBlank_shifted]; exact hnil),
      Cursor.skipBlank_shifted]
    rfl
  | case2 c l c' hend lexeme hfirst ih =>
    have hfirst' : Lexeme.first (c.shifted n).skipBlank.rest = .ok lexeme := by
      rw [Cursor.skipBlank_shifted]
      exact hfirst
    rw [scanFrom_token l hfirst, scanFrom_token _ hfirst', Cursor.skipBlank_shifted,
      Cursor.skip_shifted, ← ih]
    congr 1
    simp [below, push, TokenList.moved, Token.moved, Cursor.location_shifted, c']
  | case3 c l c' hend cause m hfirst =>
    have hne : c.skipBlank.rest ≠ [] := mt Cursor.atEnd_iff.2 hend
    rw [scanFrom_error l hne hfirst,
      scanFrom_error _ (by rw [Cursor.skipBlank_shifted]; exact hne)
        (by rw [Cursor.skipBlank_shifted]; exact hfirst),
      Cursor.skipBlank_shifted, Cursor.skip_shifted]
    rfl

end Below

section Lines

/-- A newline is a byte of no other character. -/
theorem Text.count_utf8EncodeChar (c : Char) :
    (String.utf8EncodeChar c).count '\n'.toUInt8 = if c = '\n' then 1 else 0 := by
  by_cases hc : c.toNat < 128
  · rw [utf8EncodeChar_ascii hc, List.count_singleton]
    by_cases hnewline : c = '\n'
    · rw [hnewline]
      rfl
    · have hne : c.toUInt8 ≠ '\n'.toUInt8 := fun h =>
        hnewline (Lexeme.toUInt8_inj hc (by decide) h)
      simp [hnewline, hne]
  · have hne : c ≠ '\n' := by
      rintro rfl
      exact hc (by decide)
    rw [if_neg hne]
    refine List.count_eq_zero.2 fun hmem => ?_
    rcases byte_of_mem_utf8EncodeChar hmem with ⟨hlt, -⟩ | hge
    · exact hc hlt
    · exact absurd hge (by decide)

theorem Text.count_newline (text : String) :
    (bytes text).count '\n'.toUInt8 = text.toList.count '\n' := by
  rw [bytes_eq_flatMap]
  induction text.toList with
  | nil => rfl
  | cons c cs ih =>
    rw [List.flatMap_cons, List.count_append, ih, count_utf8EncodeChar, List.count_cons,
      Nat.add_comm]
    simp

end Lines

theorem scanInto_newline {a : String} {A : TokenList} (h : tokenize a = .ok A) (b : String)
    (L : TokenList) :
    TokenList.scanInto (a ++ "\n" ++ b) L =
      ((TokenList.scan b).1.below A.tokens (1 + a.toList.count '\n'),
        (TokenList.scan b).2.map (Failure.moved (Location.shifted (1 + a.toList.count '\n')))) := by
  have hsegments : Segments [] (bytes a) A.toList A.finish :=
    segments_of_scanned (tokenize_ok.1 h) rfl
  have hbytes : bytes (a ++ "\n" ++ b) = bytes a ++ '\n'.toUInt8 :: bytes b := by
    rw [bytes_append, bytes_append, List.append_assoc]
    rfl
  have hstart :
      Cursor.start (a ++ "\n" ++ b) = .behind [] (bytes a ++ '\n'.toUInt8 :: bytes b) := by
    rw [Cursor.start, hbytes]
    rfl
  have hbelow : Cursor.behind ([] ++ bytes a ++ ['\n'.toUInt8]) (bytes b) =
      (Cursor.start b).shifted (1 + a.toList.count '\n') := by
    rw [← count_newline]
    simp [Cursor.behind, Cursor.shifted, Cursor.start, Nat.add_comm]
  rw [TokenList.scanInto, hstart, hsegments.continues, hbelow, TokenList.scan_eq_scanFrom,
    ← TokenList.scanFrom_shifted]
  congr 1
  simp [TokenList.below, TokenList.clear, TokenList.moved, TokenList.toList, Location.shifted,
    Location.unknown, Coordinate.shifted]

/-- A text that is read to its end, a newline and any other text: the whole is read to its end if
the other text is, its tokens are those of the first and then those of the other, and these, the end
and a failure stand as many lines further down as the first text has. -/
theorem scan_goes_on_below {a : String} {A : TokenList} (h : tokenize a = .ok A) (b : String)
    (L L' : TokenList) :
    let k := 1 + a.toList.count '\n'
    let whole := TokenList.scanInto (a ++ "\n" ++ b) L
    let other := TokenList.scanInto b L'
    (whole.2 = none ↔ other.2 = none) ∧
    whole.1.toList = A.toList ++ other.1.toList.map (Token.moved (Location.shifted k)) ∧
    whole.1.finish = other.1.finish.shifted k ∧
    whole.2 = other.2.map (Failure.moved (Location.shifted k)) := by
  intro k whole other
  have hwhole : whole = (other.1.below A.tokens k,
      other.2.map (Failure.moved (Location.shifted k))) := scanInto_newline h b L
  rw [hwhole]
  refine ⟨Option.map_eq_none_iff, ?_, rfl, rfl⟩
  simp [TokenList.below, TokenList.moved, TokenList.toList]

/-- A comment with a quote and a number with no digit behind its point end with their lines. -/
theorem scan_goes_on_below_comment :
    ∃ A, tokenize "f\n1.// '" = .ok A ∧
      A.toList = [⟨.identifier, "f", .known 0 0⟩, ⟨.doubleLiteral, "1.", .known 1 0⟩] ∧
      (TokenList.scanInto ("f\n1.// '" ++ "\n" ++ "a\n #") {}).2 =
        some ⟨.undefinedToken "#", .known 3 1⟩ ∧
      (TokenList.scanInto ("f\n1.// '" ++ "\n" ++ "a\n #") {}).1.toList =
        A.toList ++ [⟨.identifier, "a", .known 2 0⟩] ∧
      (TokenList.scanInto ("f\n1.// '" ++ "\n" ++ "e1") {}).2 = none ∧
      (TokenList.scanInto ("f\n1.// '" ++ "\n" ++ "e1") {}).1.finish = .known 2 2 := by
  have h : tokenize "f\n1.// '" = .ok ⟨#[⟨.identifier, "f", .known 0 0⟩,
      ⟨.doubleLiteral, "1.", .known 1 0⟩], .known 1 6⟩ := by decide +kernel
  obtain ⟨-, htokens, -, hfailure⟩ := scan_goes_on_below h "a\n #" {} {}
  obtain ⟨hread, -, hfinish, -⟩ := scan_goes_on_below h "e1" {} {}
  exact ⟨_, h, rfl, hfailure.trans (by decide +kernel), htokens.trans (by decide +kernel),
    hread.2 (by decide +kernel), hfinish.trans (by decide +kernel)⟩

end ScriptSyntax
