import ScriptSyntax.Proofs.Token.Context

/-!
Tokens written one after another, with single spaces between them, are read back as they were. The
tokens for which this holds are those that the scan of some text makes.
-/

namespace ScriptSyntax

open Text

namespace Token

def content (t : Token) : TokenKind × String := (t.kind, t.text)

/-- Symbols and keywords have their own texts, names are words but no keywords, numbers are whole
numbers of their kind, and strings are without the character that ends a text. -/
def WellFormed (t : Token) : Prop :=
  match t.kind with
  | .undefined | .endOfInput => False
  | .identifier => IsWordRun (bytes t.text) ∧ ∀ k : Keyword, k.text ≠ t.text
  | .intLiteral | .doubleLiteral => IsNumeral (bytes t.text) ∧ numeralKind (bytes t.text) = t.kind
  | .stringLiteral => '\x00' ∉ t.text.toList
  | .symbol s => t.text = s.text
  | .keyword k => t.text = k.text

/-- A token as it is written in a text: strings between quotes, all others as they are. -/
def written (t : Token) : String :=
  match t.kind with
  | .stringLiteral => Piece.quote t.text
  | _ => t.text

def transcript (ts : List Token) : String := " ".intercalate (ts.map written)

end Token

theorem zero_mem_bytes {text : String} : 0 ∈ bytes text ↔ '\x00' ∈ text.toList := by
  rw [bytes_eq_flatMap, List.mem_flatMap]
  constructor
  · rintro ⟨c, hc, hzero⟩
    -- Only a character of one byte has a byte below 128.
    rcases byte_of_mem_utf8EncodeChar hzero with ⟨hlt, heq⟩ | hge
    · rwa [← Lexeme.toUInt8_inj (c := c) (d := '\x00') hlt (by decide) heq.symm]
    · exact absurd hge (by decide)
  · exact fun h => ⟨_, h, List.mem_cons_self⟩

section WellFormed

theorem numeralKind_cases (l : List UInt8) :
    numeralKind l = .intLiteral ∨ numeralKind l = .doubleLiteral := by
  unfold numeralKind
  split
  · exact .inr rfl
  · exact .inl rfl

theorem wellFormed_numeral {text : String} (h : IsNumeral (bytes text)) (location : Location) :
    Token.WellFormed ⟨numeralKind (bytes text), text, location⟩ := by
  rcases numeralKind_cases (bytes text) with hkind | hkind
  · rw [hkind]
    exact ⟨h, hkind⟩
  · rw [hkind]
    exact ⟨h, hkind⟩

theorem wellFormed_of_first {front : List UInt8} {x : Lexeme} (h : Lexeme.first front = .ok x)
    (location : Location) : Token.WellFormed ⟨x.kind, x.text, location⟩ := by
  have hlexical := lexical_first h location
  obtain ⟨kind, text, length⟩ := x
  obtain ⟨l, rest, -, -, hl⟩ := isLexeme_of_first h
  cases hl with
  | identifier hlongest ht hk =>
    rw [← ht] at hlongest
    exact ⟨hlongest.holds, hk⟩
  | keyword k => rfl
  | number hlongest ht =>
    rw [← ht] at hlongest ⊢
    exact wellFormed_numeral hlongest.holds location
  | numberOfRange hlongest ht =>
    rw [← ht] at hlongest ⊢
    exact wellFormed_numeral hlongest.holds.of_point location
  | string => exact mt zero_mem_bytes.2 hlexical
  | symbol s => rfl

theorem Scanned.wellFormed {c : Cursor} {ts : List Token} {finish : Location}
    (h : Scanned c ts finish) : ∀ t ∈ ts, t.WellFormed := by
  induction h with
  | done => exact nofun
  | token hfirst _ ih =>
    intro t ht
    rcases List.mem_cons.1 ht with rfl | ht
    · exact wellFormed_of_first hfirst _
    · exact ih t ht

end WellFormed

section Written

variable {rest l : List UInt8}

/-- A space ends whatever has none inside. -/
theorem longest_of_space {P : List UInt8 → Prop} (hl : P l) (hP : ∀ m, P m → ' '.toUInt8 ∉ m)
    (hr : ∀ b ∈ rest.head?, b = ' '.toUInt8) : Longest P (l ++ rest) l := by
  have hself : Longest P l l := ⟨List.prefix_rfl, hl, fun hm _ => hm.length_le⟩
  cases rest with
  | nil => rwa [List.append_nil]
  | cons b rest =>
    obtain rfl := hr b rfl
    exact hself.extend hP rest

/-- A well-formed token is the lexeme in front of its text, if a space or nothing is behind it. -/
theorem isLexeme_written {t : Token} (h : t.WellFormed) (hr : ∀ b ∈ rest.head?, b = ' '.toUInt8) :
    IsLexeme (bytes t.written) rest t.kind t.text := by
  have hfirst : ∀ {p : Piece} {kind text}, Lexeme.first (bytes p.text ++ rest) =
      .ok ⟨kind, text, (bytes p.text).length⟩ → IsLexeme (bytes p.text) rest kind text := by
    intro p kind text h
    obtain ⟨l, r, heq, hlength, hl⟩ := isLexeme_of_first h
    obtain ⟨rfl, rfl⟩ := List.append_inj heq hlength.symm
    exact hl
  have hspace : isBlank ' '.toUInt8 := by decide
  have hnumeral : ∀ {text : String}, IsNumeral (bytes text) →
      IsLexeme (bytes text) rest (numeralKind (bytes text)) text := by
    intro text h
    refine .number (longest_of_space h (fun _ hm => hm.not_mem_of_isBlank hspace) hr) rfl ?_
    rintro ⟨-, hpoint⟩
    exact absurd (hr _ hpoint) (by decide)
  obtain ⟨kind, text, location⟩ := t
  cases kind with
  | undefined | endOfInput => exact h.elim
  | identifier =>
    exact .identifier (longest_of_space h.1 (fun _ hm => hm.not_mem_of_isBlank hspace) hr) rfl h.2
  | doubleLiteral | intLiteral =>
    obtain ⟨h, hkind⟩ := h
    have hl := hnumeral h
    rwa [hkind] at hl
  | stringLiteral =>
    exact hfirst (Piece.first (p := .string text) (mt zero_mem_bytes.1 h) rfl trivial)
  | symbol s =>
    obtain rfl : text = s.text := h
    refine hfirst (Piece.first (p := .symbol s) trivial rfl fun b hb => ?_)
    rw [hr b hb]
    decide
  | keyword k =>
    obtain rfl : text = k.text := h
    refine hfirst (Piece.first (p := .keyword k) trivial rfl fun b hb => ?_)
    rw [hr b hb]
    decide

theorem first_slash (rest : List UInt8) :
    Lexeme.first ('/'.toUInt8 :: rest) = .ok ⟨Symbol.divide, "/", 1⟩ := rfl

theorem IsLexeme.not_beginsComment {kind : TokenKind} {text : String}
    (h : IsLexeme l rest kind text) (hr : rest.head? ≠ some '/'.toUInt8) :
    ¬ BeginsComment (l ++ rest) := by
  rintro ⟨r, heq⟩
  have hfirst := h.first
  rw [← heq, List.cons_append, first_slash] at hfirst
  -- The lexeme would be the first slash by itself.
  have hlength : ['/'.toUInt8].length = l.length := by
    injection hfirst with hfirst
    injection hfirst
  have happend : ['/'.toUInt8] ++ '/'.toUInt8 :: r = l ++ rest := heq
  obtain ⟨rfl, rfl⟩ := List.append_inj happend hlength
  exact hr rfl

end Written

section Transcript

variable {ts : List Token}

theorem bytes_transcript_cons (t : Token) (ts : List Token) :
    ∃ gap, bytes (Token.transcript (t :: ts)) =
        bytes t.written ++ (gap ++ bytes (Token.transcript ts)) ∧
      (gap = [] ∧ ts = [] ∨ gap = [' '.toUInt8]) := by
  cases ts with
  | nil => exact ⟨[], by simp [Token.transcript, bytes], .inl ⟨rfl, rfl⟩⟩
  | cons u ts =>
    refine ⟨[' '.toUInt8], ?_, .inr rfl⟩
    have hspace : bytes " " = [' '.toUInt8] := rfl
    rw [Token.transcript, List.map_cons, List.map_cons, String.intercalate_cons_cons, bytes_append,
      bytes_append, hspace, List.append_assoc]
    rfl

theorem segments_transcript (h : ∀ t ∈ ts, t.WellFormed) {gap : List UInt8}
    (hgap : Trivia (bytes (Token.transcript ts)) gap) (before : List UInt8) :
    ∃ us finish, Segments before (gap ++ bytes (Token.transcript ts)) us finish ∧
      us.map Token.content = ts.map Token.content := by
  induction ts generalizing gap before with
  | nil => exact ⟨[], _, by simpa [Token.transcript, bytes] using .done hgap, rfl⟩
  | cons t ts ih =>
    obtain ⟨gap', hbytes, hgap'⟩ := bytes_transcript_cons t ts
    rw [hbytes] at hgap ⊢
    have htrivia : Trivia (bytes (Token.transcript ts)) gap' := by
      rcases hgap' with ⟨rfl, -⟩ | rfl
      · exact .nil
      · exact .blank (by decide) .nil
    have hspace : ∀ b ∈ (gap' ++ bytes (Token.transcript ts)).head?, b = ' '.toUInt8 := by
      rcases hgap' with ⟨rfl, rfl⟩ | rfl
      · intro b hb
        exact absurd hb (Option.not_mem_none b)
      · intro b hb
        exact (Option.mem_some_iff.1 hb).symm
    have hl := isLexeme_written (h t List.mem_cons_self) hspace
    have hcomment := hl.not_beginsComment fun hslash => absurd (hspace _ hslash) (by decide)
    obtain ⟨us, finish, hus, hmap⟩ := ih (fun u hu => h u (.tail _ hu)) htrivia
      (before ++ gap ++ bytes t.written)
    exact ⟨_, finish, .token hgap hcomment hl hus, by rw [List.map_cons, List.map_cons, hmap]; rfl⟩

theorem tokenize_transcript (h : ∀ t ∈ ts, t.WellFormed) :
    ∃ T, tokenize (Token.transcript ts) = .ok T ∧
      T.toList.map Token.content = ts.map Token.content := by
  obtain ⟨us, finish, hus, hmap⟩ := segments_transcript h .nil []
  exact ⟨⟨⟨us⟩, finish⟩, tokenize_ok.2 hus.scanned, hmap⟩

end Transcript

/-- Well-formed tokens are read back from the text in which they are written one after another with
single spaces between them, and every token of every text is well formed. -/
theorem tokens_read_back :
    (∀ ts : List Token, (∀ t ∈ ts, t.WellFormed) →
      ∃ T, tokenize (" ".intercalate (ts.map Token.written)) = .ok T ∧
        T.toList.map (fun t => (t.kind, t.text)) = ts.map fun t => (t.kind, t.text)) ∧
    ∀ source T, tokenize source = .ok T → ∀ t ∈ T.toList, t.WellFormed :=
  ⟨fun _ h => tokenize_transcript h, fun _ _ h => (tokenize_ok.1 h).wellFormed⟩

/-- Numbers that end in a mark, and a string with an escaped quote, a newline and a character of two
bytes, are read back as they were. -/
theorem tokens_read_back_marks :
    ∃ T U, tokenize "in1=1./1e+;'\\n\\'\\é'" = .ok T ∧ (∀ t ∈ T.toList, t.WellFormed) ∧
      " ".intercalate (T.toList.map Token.written) = "in1 = 1. / 1e+ ; '\\n\\'é'" ∧
      tokenize "in1 = 1. / 1e+ ; '\\n\\'é'" = .ok U ∧
      U.toList.map (fun t => (t.kind, t.text)) =
        [(.identifier, "in1"), (.symbol .assign, "="), (.doubleLiteral, "1."),
          (.symbol .divide, "/"), (.doubleLiteral, "1e+"), (.symbol .semicolon, ";"),
          (.stringLiteral, "\n'é")] := by
  obtain ⟨T, hT, hwritten, hcontent⟩ : ∃ T, tokenize "in1=1./1e+;'\\n\\'\\é'" = .ok T ∧
      " ".intercalate (T.toList.map Token.written) = "in1 = 1. / 1e+ ; '\\n\\'é'" ∧
      T.toList.map (fun t => (t.kind, t.text)) =
        [(.identifier, "in1"), (.symbol .assign, "="), (.doubleLiteral, "1."),
          (.symbol .divide, "/"), (.doubleLiteral, "1e+"), (.symbol .semicolon, ";"),
          (.stringLiteral, "\n'é")] :=
    ⟨⟨#[⟨.identifier, "in1", .known 0 0⟩, .ofKind Symbol.assign (.known 0 3),
      ⟨.doubleLiteral, "1.", .known 0 4⟩, .ofKind Symbol.divide (.known 0 6),
      ⟨.doubleLiteral, "1e+", .known 0 7⟩, .ofKind Symbol.semicolon (.known 0 10),
      ⟨.stringLiteral, "\n'é", .known 0 11⟩], .known 0 20⟩, by decide +kernel, by decide +kernel,
      rfl⟩
  obtain ⟨U, hU, hU'⟩ := tokens_read_back.1 T.toList (tokens_read_back.2 _ T hT)
  exact ⟨T, U, hT, tokens_read_back.2 _ T hT, hwritten, hwritten ▸ hU, hU'.trans hcontent⟩

end ScriptSyntax
