import ScriptSyntax.Proofs.Token.Collected

/-!
The loop of the scan, round by round. It takes whole characters only: at the head of every round, and
behind the blanks and comments that the round begins with, what is left is a text of its own.
-/

namespace ScriptSyntax

open Text Lexeme

/-- A scan at the head of a round: the number of bytes passed over, the cursor behind them and the
tokens so far. -/
structure Scan where
  passed : Nat
  cursor : Cursor
  list : TokenList
  deriving DecidableEq

namespace Scan

/-- What one round comes to: the end of the scan, or the head of the next round. -/
def round (s : Scan) : (TokenList × Option Failure) ⊕ Scan :=
  let c := s.cursor.skipBlank
  if c.atEnd then .inl (s.list.setFinish c.location, none)
  else
    match first c.rest with
    | .ok x => .inr ⟨s.passed + blankLength false s.cursor.rest + x.length, c.skip x.length,
        s.list.push ⟨x.kind, x.text, c.location⟩⟩
    | .error (cause, n) => .inl (s.list, some ⟨cause, (c.skip n).location⟩)

/-- The head that some rounds of reading a text into a list lead to, the last one if there are no
more. -/
def after (source : String) (L : TokenList) : Nat → Scan
  | 0 => ⟨0, .start source, L.clear⟩
  | n + 1 =>
    match (after source L n).round with
    | .inl _ => after source L n
    | .inr s => s

end Scan

/-- The cursor stands behind the first `p` bytes of a text, between two of its characters or at one
of its ends, and what it takes for the rest of the text is all of it. -/
structure Cursor.StandsAt (source : String) (p : Nat) (c : Cursor) : Prop where
  passed : c = (start source).skip p
  within : p ≤ (bytes source).length
  boundary : (String.Pos.Raw.mk p).IsValid source
  rest : c.rest = (bytes source).drop p
  remainder : bytes c.remainder = c.rest

section Boundaries

variable {l rest : List UInt8} {x : Lexeme}

theorem isValid_append (before rest : String) :
    (String.Pos.Raw.mk (bytes before).length).IsValid (before ++ rest) :=
  String.Pos.Raw.isValid_iff_exists_append.2 ⟨before, rest, rfl, rfl⟩

theorem isValid_of_isText {text : String} (htext : bytes text = l ++ rest) (hl : IsText l)
    (hrest : IsText rest) : (String.Pos.Raw.mk l.length).IsValid text := by
  obtain ⟨before, rfl⟩ := hl
  obtain ⟨behind, rfl⟩ := hrest
  rw [← bytes_append] at htext
  rw [bytes_injective htext]
  exact isValid_append before behind

theorem Cursor.standsAt_behind (before rest : String) :
    (behind (bytes before) (bytes rest)).StandsAt (before ++ rest) (bytes before).length where
  passed := by
    have hstart : start (before ++ rest) = behind [] (bytes before ++ bytes rest) := by
      rw [← bytes_append]
      rfl
    rw [hstart, skip_behind]
    rfl
  within := by
    rw [bytes_append, List.length_append]
    exact Nat.le_add_right _ _
  boundary := isValid_append before rest
  rest := by
    rw [bytes_append, List.drop_left]
    rfl
  remainder := congrArg bytes (ofBytes_bytes rest)

/-- Blanks and comments are whole characters. -/
theorem exists_gap (before rest : String) : ∃ gap left : String, rest = gap ++ left ∧
    blankLength false (bytes rest) = (bytes gap).length ∧
    (Cursor.behind (bytes before) (bytes rest)).skipBlank =
      .behind (bytes (before ++ gap)) (bytes left) := by
  obtain ⟨⟨t, r, hrest, ht, hplain⟩, -⟩ := exists_trivia (bytes rest)
  obtain ⟨⟨gap, rfl⟩, left, rfl⟩ := ht.isText (hrest ▸ ⟨rest, rfl⟩)
  refine ⟨gap, left, bytes_injective (by rw [hrest, bytes_append]), ?_, ?_⟩
  · rw [hrest, ht.blankLength_eq hplain]
  · rw [hrest, Cursor.skipBlank_behind _ ht hplain, bytes_append]

/-- A lexeme is made of whole characters. -/
theorem exists_characters {left : String} (h : first (bytes left) = .ok x) :
    ∃ taken behind : String, left = taken ++ behind ∧ x.length = (bytes taken).length := by
  obtain ⟨l, rest, hleft, hlength, hl⟩ := isLexeme_of_first h
  obtain ⟨⟨taken, rfl⟩, behind, rfl⟩ := hl.isText (hleft ▸ ⟨left, rfl⟩)
  exact ⟨taken, behind, bytes_injective (by rw [hleft, bytes_append]), hlength.symm⟩

theorem isText_behind_ascii (hl : ∀ b ∈ l, b.toNat < 128) (h : IsText (l ++ rest)) :
    IsText rest := by
  induction l with
  | nil => exact h
  | cons b l ih =>
    exact ih (fun d hd => hl d (.tail _ hd)) (IsText.split (l := []) h (hl b List.mem_cons_self)).2

theorem isValid_behind_ascii {text : String} (htext : bytes text = l ++ rest)
    (hl : ∀ b ∈ l, b.toNat < 128) : (String.Pos.Raw.mk l.length).IsValid text :=
  isValid_of_isText htext (.ascii hl) (isText_behind_ascii hl (htext ▸ ⟨text, rfl⟩))

/-- The text of a string is that of the bytes collected for it. -/
theorem text_of_first_quote {bs : List UInt8} (hbs : IsText bs)
    (h : first ('\''.toUInt8 :: bs) = .ok x) : x.text = lossy (collected bs) := by
  rw [first, if_neg (by decide), if_neg (by decide), if_pos rfl] at h
  split at h
  · next value length hquoted =>
    cases h
    obtain ⟨text, htext⟩ := isText_collected hbs
    dsimp only
    rw [← collected_of_quoted hquoted, ← htext, ofBytes_bytes, lossy_bytes]
  · contradiction

/-- A name or keyword is read wherever one begins. -/
theorem longest_word_of_first {front : List UInt8} {b : UInt8} (hfront : front.head? = some b)
    (hb : isWordStart b) :
    ∃ m x, Longest IsWordRun front m ∧ first front = .ok x ∧ x.length = m.length := by
  obtain ⟨bs, rfl⟩ := List.head?_eq_some_iff.1 hfront
  refine ⟨_, word (b :: bs), longest_word hb bs, ?_, rfl⟩
  rw [first, if_pos hb]

/-- The longest number `m` in front may be cut off the text, and so may the number that is taken,
which is without the point that `m` ends in if another stands behind it. -/
theorem number_cuts {text : String} {b : UInt8} (hfront : (bytes text).head? = some b)
    (hb : isDigit b) : ∃ m x, Longest IsNumeral (bytes text) m ∧ first (bytes text) = .ok x ∧
      (String.Pos.Raw.mk m.length).IsValid text ∧
      x.length = (if m.getLast? = some '.'.toUInt8 ∧
        ((bytes text).drop m.length).head? = some '.'.toUInt8 then m.length - 1 else m.length) ∧
      (String.Pos.Raw.mk x.length).IsValid text := by
  obtain ⟨bs, htext⟩ := List.head?_eq_some_iff.1 hfront
  have hfirst : first (bytes text) = .ok (number (bytes text)) := by
    rw [htext, first, if_neg (not_isWordStart_of_isDigit hb), if_pos hb]
  have hcases := number_longest hb bs
  rw [← htext] at hcases
  rcases hcases with ⟨l, rest, hl, hnumber, -, hlongest, hrange⟩ |
    ⟨l, rest, hl, hnumber, -, hlongest⟩
  · have hvalid : (String.Pos.Raw.mk l.length).IsValid text :=
      isValid_behind_ascii hl hlongest.holds.ascii
    rw [hfirst, hnumber]
    refine ⟨l, _, hl ▸ hlongest, rfl, hvalid, ?_, hvalid⟩
    rw [hl, List.drop_left, if_neg hrange]
  · -- The longest number takes in the first of two points, which is then given to the range.
    have hlonger : bytes text = (l ++ ['.'.toUInt8]) ++ '.'.toUInt8 :: rest := by simpa using hl
    have hrange : (l ++ ['.'.toUInt8]).getLast? = some '.'.toUInt8 ∧
        ((bytes text).drop (l ++ ['.'.toUInt8]).length).head? = some '.'.toUInt8 := by
      rw [hlonger, List.drop_left, List.getLast?_concat]
      exact ⟨rfl, rfl⟩
    rw [hfirst, hnumber]
    refine ⟨_, _, hl ▸ hlongest, rfl, isValid_behind_ascii hlonger hlongest.holds.ascii, ?_,
      isValid_behind_ascii hl hlongest.holds.of_point.ascii⟩
    rw [if_pos hrange, List.length_append, List.length_singleton, Nat.add_sub_cancel]

end Boundaries

namespace Scan

variable {source : String} {L : TokenList} {s s' : Scan}

/-- The scan is its rounds. -/
theorem scanFrom_eq_round (s : Scan) : TokenList.scanFrom s.cursor s.list =
    match s.round with
    | .inl result => result
    | .inr s' => TokenList.scanFrom s'.cursor s'.list := by
  by_cases hend : s.cursor.skipBlank.rest = []
  · rw [TokenList.scanFrom_done _ hend, round, if_pos (Cursor.atEnd_iff.2 hend)]
  have hgo : ¬ s.cursor.skipBlank.atEnd := mt Cursor.atEnd_iff.1 hend
  cases hfirst : first s.cursor.skipBlank.rest with
  | ok x =>
    rw [TokenList.scanFrom_token _ hfirst, round, if_neg hgo, hfirst]
  | error e =>
    obtain ⟨cause, n⟩ := e
    rw [TokenList.scanFrom_error _ hend hfirst, round, if_neg hgo, hfirst]

theorem exists_first (h : s.round = .inr s') : ∃ x, first s.cursor.skipBlank.rest = .ok x ∧
    s' = ⟨s.passed + blankLength false s.cursor.rest + x.length, s.cursor.skipBlank.skip x.length,
      s.list.push ⟨x.kind, x.text, s.cursor.skipBlank.location⟩⟩ := by
  unfold round at h
  dsimp only at h
  split at h
  · contradiction
  split at h
  · next x hx =>
    cases h
    exact ⟨x, hx, rfl⟩
  · contradiction

/-- The lexeme is never empty, whatever was passed over in front of it. -/
theorem passed_lt (h : s.round = .inr s') :
    s.passed + blankLength false s.cursor.rest < s'.passed := by
  obtain ⟨x, hx, rfl⟩ := exists_first h
  exact Nat.lt_add_of_pos_right (length_pos_of_first hx)

/-- What is passed over and what is left are texts, and the cursor stands between them. -/
def Whole (source : String) (s : Scan) : Prop :=
  ∃ before rest : String, source = before ++ rest ∧ s.passed = (bytes before).length ∧
    s.cursor = .behind (bytes before) (bytes rest)

theorem Whole.round (h : s.Whole source) (hs : s.round = .inr s') : s'.Whole source := by
  obtain ⟨before, rest, rfl, hpassed, hcursor⟩ := h
  obtain ⟨x, hx, rfl⟩ := exists_first hs
  obtain ⟨gap, left, rfl, hgap, hskip⟩ := exists_gap before rest
  rw [hcursor, hskip] at hx
  obtain ⟨taken, behind, rfl, hlength⟩ := exists_characters hx
  refine ⟨before ++ gap ++ taken, behind, by simp only [String.append_assoc], ?_, ?_⟩
  · have hrest : s.cursor.rest = bytes (gap ++ (taken ++ behind)) := congrArg Cursor.rest hcursor
    rw [hrest, hgap, hpassed, hlength, bytes_append, bytes_append, List.length_append,
      List.length_append]
  · dsimp only
    rw [hcursor, hskip, hlength, bytes_append taken behind, Cursor.skip_behind, ← bytes_append]

theorem whole_after (n : Nat) : (after source L n).Whole source := by
  induction n with
  | zero => exact ⟨"", source, (String.empty_append).symm, rfl, rfl⟩
  | succ n ih =>
    rw [after]
    split
    · exact ih
    · next hs => exact ih.round hs

theorem Whole.passed_le (h : s.Whole source) : s.passed ≤ (bytes source).length := by
  obtain ⟨before, rest, rfl, hpassed, -⟩ := h
  rw [hpassed, bytes_append, List.length_append]
  exact Nat.le_add_right _ _

theorem scanInto_eq_after (n : Nat) : TokenList.scanInto source L =
    TokenList.scanFrom (after source L n).cursor (after source L n).list := by
  induction n with
  | zero => rfl
  | succ n ih =>
    rw [after]
    split
    · exact ih
    · next hs => rw [ih, scanFrom_eq_round, hs]

theorem le_passed_after {n : Nat} (h : ∀ m < n, ∀ result, (after source L m).round ≠ .inl result) :
    n ≤ (after source L n).passed := by
  induction n with
  | zero => exact Nat.zero_le _
  | succ n ih =>
    have hle := ih fun m hm => h m (Nat.lt_succ_of_lt hm)
    rw [after]
    split
    · next hs => exact absurd hs (h n (Nat.lt_succ_self n) _)
    · next hs =>
      have hlt := passed_lt hs
      omega

/-- There are no more rounds than bytes, but for the one that ends the scan. -/
theorem exists_last_round (source : String) (L : TokenList) : ∃ n ≤ (bytes source).length,
    (after source L n).round = .inl (TokenList.scanInto source L) := by
  by_contra hnone
  have hgo : ∀ m < (bytes source).length + 1, ∀ result,
      (after source L m).round ≠ .inl result := fun m hm result hs => by
    refine hnone ⟨m, Nat.lt_succ_iff.1 hm, ?_⟩
    rw [scanInto_eq_after m, scanFrom_eq_round, hs]
  -- One round more than there are bytes would have to pass over more than there are.
  have hle := (le_passed_after hgo).trans (whole_after _).passed_le
  omega

end Scan

/-- The scan ends within as many rounds as the text has bytes. At the head of every round, and behind
the blanks and comments in front of its lexeme, the cursor stands within the text and between
characters, with all that is left of it ahead, and a round that leads to another takes some of it.
Names and numbers are found wherever they are looked for, and a number can be cut off what is left,
with and without the point that goes to a range. The bytes collected for a string encode a text, in
which none of them is replaced. -/
theorem scan_takes_whole_characters (source : String) (L : TokenList) :
    (∃ n ≤ (bytes source).length,
      (Scan.after source L n).round = .inl (TokenList.scanInto source L)) ∧
    ∀ n,
      let s := Scan.after source L n
      let c := s.cursor.skipBlank
      let p := s.passed + blankLength false s.cursor.rest
      s.cursor.StandsAt source s.passed ∧ c.StandsAt source p ∧
      (∀ s', s.round = .inr s' → p < s'.passed) ∧
      (∀ b, c.rest.head? = some b → isWordStart b →
        ∃ m x, Longest IsWordRun (bytes c.remainder) m ∧ first c.rest = .ok x ∧
          x.length = m.length) ∧
      (∀ b, c.rest.head? = some b → isDigit b →
        ∃ m x, Longest IsNumeral (bytes c.remainder) m ∧ first c.rest = .ok x ∧
          (String.Pos.Raw.mk m.length).IsValid c.remainder ∧
          x.length = (if m.getLast? = some '.'.toUInt8 ∧
            ((bytes c.remainder).drop m.length).head? = some '.'.toUInt8 then m.length - 1
            else m.length) ∧
          (String.Pos.Raw.mk x.length).IsValid c.remainder) ∧
      (∀ bs, c.rest = '\''.toUInt8 :: bs →
        IsText (collected bs) ∧ bytes (lossy (collected bs)) = collected bs ∧
        ∀ x, first c.rest = .ok x → x.text = lossy (collected bs)) := by
  refine ⟨Scan.exists_last_round source L, fun n => ?_⟩
  intro s c p
  obtain ⟨before, rest, hsource, hpassed, hcursor⟩ : s.Whole source := Scan.whole_after n
  obtain ⟨gap, left, rfl, hgap, hskip⟩ := exists_gap before rest
  have hstands : s.cursor.StandsAt source s.passed := by
    rw [hsource, hpassed, hcursor]
    exact Cursor.standsAt_behind before (gap ++ left)
  have hbehind : c.StandsAt source p := by
    have hrest : s.cursor.rest = bytes (gap ++ left) := congrArg Cursor.rest hcursor
    have hplace : p = (bytes (before ++ gap)).length := by
      rw [bytes_append, List.length_append, ← hgap, ← hpassed, ← hrest]
    have hc : c = .behind (bytes (before ++ gap)) (bytes left) := by rw [← hskip, ← hcursor]
    rw [hplace, hc, hsource, ← String.append_assoc]
    exact Cursor.standsAt_behind (before ++ gap) left
  have hleft := hbehind.remainder
  refine ⟨hstands, hbehind, fun s' hs => Scan.passed_lt hs, fun b hrest hb => ?_,
    fun b hrest hb => ?_, fun bs hrest => ?_⟩
  · rw [hleft]
    exact longest_word_of_first hrest hb
  · rw [← hleft] at hrest ⊢
    exact number_cuts hrest hb
  · obtain ⟨-, hbs⟩ := IsText.split (l := []) ⟨_, hleft.trans hrest⟩ (by decide)
    have hcollected := isText_collected hbs
    refine ⟨hcollected, bytes_lossy_iff.2 hcollected, fun x hx => ?_⟩
    rw [hrest] at hx
    exact text_of_first_quote hbs hx

/-- The point of the first number goes to the range, the escape stands in front of a longer
character, and behind the string a comment and a newline are passed over on the way to a character
that begins no token. -/
theorem scan_takes_whole_characters_escaped :
    (∃ n ≤ 16, (Scan.after "1..'\\é' // ü\n#" {} n).round =
      .inl (TokenList.scanInto "1..'\\é' // ü\n#" {})) ∧
    (∃ m, Longest IsNumeral (bytes "1..'\\é' // ü\n#") m ∧
      (String.Pos.Raw.mk m.length).IsValid "1..'\\é' // ü\n#") ∧
    (Scan.after "1..'\\é' // ü\n#" {} 2).cursor.StandsAt "1..'\\é' // ü\n#" 3 ∧
    IsText (collected (bytes "\\é' // ü\n#")) ∧
    "é" = lossy (collected (bytes "\\é' // ü\n#")) ∧
    (Scan.after "1..'\\é' // ü\n#" {} 3).cursor.skipBlank.StandsAt "1..'\\é' // ü\n#" 15 := by
  obtain ⟨hends, hheads⟩ := scan_takes_whole_characters "1..'\\é' // ü\n#" {}
  obtain ⟨-, -, -, -, hnumber, -⟩ := hheads 0
  obtain ⟨hstands, -, -, -, -, hstring⟩ := hheads 2
  obtain ⟨-, hbehind, -⟩ := hheads 3
  obtain ⟨m, -, hm, -, hvalid, -⟩ := hnumber '1'.toUInt8 (by decide) (by decide)
  obtain ⟨htext, -, hsame⟩ := hstring (bytes "\\é' // ü\n#") (by decide)
  have hall : (Scan.after "1..'\\é' // ü\n#" {} 0).cursor.skipBlank.remainder =
      "1..'\\é' // ü\n#" := by decide
  have htwo : (Scan.after "1..'\\é' // ü\n#" {} 2).passed = 3 := by decide
  have hthree : (Scan.after "1..'\\é' // ü\n#" {} 3).passed +
      blankLength false (Scan.after "1..'\\é' // ü\n#" {} 3).cursor.rest = 15 := by decide
  rw [hall] at hm hvalid
  rw [htwo] at hstands
  rw [hthree] at hbehind
  exact ⟨hends, ⟨m, hm, hvalid⟩, hstands, htext, hsame ⟨.stringLiteral, "é", 5⟩ (by decide),
    hbehind⟩

end ScriptSyntax
