import Mathlib.Data.List.Chain
import ScriptSyntax.Proofs.Token.Lexemes
import ScriptSyntax.Proofs.Token.Scanned

/-!
The scan of a printed text: pieces that are kept apart are read back one token each, and the blanks
between them are passed over.
-/

namespace ScriptSyntax

open Text Lexeme

namespace Piece

/-- The kind and text of the token that a piece is read back as. -/
def token? : Piece → Option (TokenKind × String)
  | symbol s => some (s, s.text)
  | keyword k => some (k, k.text)
  | type t => some (.ofText t.name, t.name)
  | name n => some (.identifier, n)
  | int value => some (.intLiteral, toString value)
  | double value => some (.doubleLiteral, value.text)
  | string value => some (.stringLiteral, value)
  | space | newline | indent _ => none

/-- Pieces that can come from a token. -/
def Valid : Piece → Prop
  | type t => t ≠ .invalid
  | name n => IsWord n ∧ Keyword.ofText? n = none
  | int value => 0 ≤ value ∧ value < 2 ^ 63
  | double value => value.isNegative = false ∧ value.isFinite = true
  | string value => 0 ∉ bytes value
  | _ => True

/-- Pieces that end whatever stands in front of them. -/
def isBreak : Piece → Bool
  | space | newline => true
  | symbol .leftParen | symbol .rightParen | symbol .comma | symbol .semicolon => true
  | _ => false

/-- Pieces that may stand right behind a symbol. -/
def opens : Piece → Bool
  | symbol .leftParen | symbol .not | symbol .minus => true
  | type _ | name _ | int _ | double _ | string _ => true
  | _ => false

def isSymbol : Piece → Bool
  | symbol _ => true
  | _ => false

/-- Pieces that may be written one right behind the other. -/
def Apart (p q : Piece) : Prop := p.isBlank ∨ q.isBreak ∨ p.isSymbol ∧ q.opens

/-- Bytes that a piece in front of them does not go on into. -/
def Ends : Piece → List UInt8 → Prop
  | symbol _, rest => SymbolEnds rest
  | keyword _, rest | type _, rest | name _, rest => ∀ b ∈ rest.head?, isWordByte b = false
  | int _, rest | double _, rest => NumberEnds rest
  | _, _ => True

end Piece

open Piece

theorem isWord_keyword (k : Keyword) : IsWord k.text := by
  cases k <;> exact ⟨by decide +kernel, by decide +kernel, by decide +kernel⟩

theorem isWord_type {t : ValueType} (h : t ≠ .invalid) : IsWord t.name := by
  cases t
  · contradiction
  all_goals exact ⟨by decide +kernel, by decide +kernel, by decide +kernel⟩

theorem wordKind_type {t : ValueType} (h : t ≠ .invalid) : wordKind t.name = .ofText t.name := by
  cases t
  · contradiction
  all_goals rfl

theorem int_parts (n : Nat) : NumberParts (digitsOf n) [] [] 0 :=
  ⟨digitsOf_ne_nil n, fun _ hb => isDigit_of_mem_digitsOf hb, .none, .none⟩

/-- A piece is read back whole. -/
theorem Piece.first {p : Piece} (hp : p.Valid) {t} (ht : p.token? = some t) {rest}
    (hr : p.Ends rest) :
    Lexeme.first (bytes p.text ++ rest) = .ok ⟨t.1, t.2, (bytes p.text).length⟩ := by
  match p with
  | symbol s => cases ht; exact first_symbol s hr
  | keyword k =>
    cases ht
    have hk : wordKind k.text = k := by rw [wordKind, Keyword.ofText?_text]
    rw [← hk]
    exact first_word (isWord_keyword k) hr
  | type t =>
    cases ht
    rw [← wordKind_type hp]
    exact first_word (isWord_type hp) hr
  | name n =>
    cases ht
    have hn : wordKind n = .identifier := by rw [wordKind, hp.2]
    rw [← hn]
    exact first_word hp.1 hr
  | int value =>
    cases ht
    obtain ⟨n, rfl⟩ := Int.eq_ofNat_of_zero_le hp.1
    have hb : bytes (toString (n : Int)) = digitsOf n ++ ([] ++ []) :=
      (bytes_toString n).trans (List.append_nil _).symm
    have := first_number (int_parts n) hb hr
    rwa [List.append_nil, if_pos rfl] at this
  | double value =>
    cases ht
    obtain ⟨cs, hcs, whole, fraction, exponent, v, hparts, hne, hb, -⟩ :=
      Double.writes_text hp.1 hp.2
    rw [← hcs] at hb
    have := first_number hparts hb hr
    rwa [if_neg hne] at this
  | string value => cases ht; exact first_quote hp
  | space | newline | indent _ => exact nomatch ht

/-- Bytes that a name, a number or a quoted string begins with. -/
def Opening (b : UInt8) : Prop := isWordStart b ∨ isDigit b ∨ b = '\''.toUInt8

theorem Opening.ne {b : UInt8} (h : Opening b) : Text.isBlank b = false ∧
    b ≠ '='.toUInt8 ∧ b ≠ '|'.toUInt8 ∧ b ≠ '&'.toUInt8 ∧ b ≠ '.'.toUInt8 ∧ b ≠ '/'.toUInt8 := by
  have hne (x : UInt8) (hx : ¬ (isWordStart x ∨ isDigit x ∨ x = '\''.toUInt8)) : b ≠ x := by
    rintro rfl
    exact hx h
  have hspace := hne ' '.toUInt8 (by decide)
  have htab := hne '\t'.toUInt8 (by decide)
  have hreturn := hne '\r'.toUInt8 (by decide)
  have hline := hne '\n'.toUInt8 (by decide)
  exact ⟨by simp [Text.isBlank, hspace, htab, hreturn, hline], hne _ (by decide),
    hne _ (by decide), hne _ (by decide), hne _ (by decide), hne _ (by decide)⟩

/-- What the text of a valid piece begins with. -/
theorem Piece.front {p : Piece} (hp : p.Valid) (hs : p.isSymbol = false) (hb : p.isBlank = false) :
    ∃ b bs, bytes p.text = b :: bs ∧ Opening b := by
  have hword {n : String} (hn : IsWord n) : ∃ b bs, bytes n = b :: bs ∧ Opening b := by
    obtain ⟨b, bs, h⟩ := List.exists_cons_of_ne_nil hn.nonempty
    exact ⟨b, bs, h, .inl (hn.front b (by rw [h]; rfl))⟩
  have hnumber {text : String} {whole fraction exponent : List UInt8} {value : Int}
      (h : NumberParts whole fraction exponent value)
      (ht : bytes text = whole ++ (fraction ++ exponent)) :
      ∃ b bs, bytes text = b :: bs ∧ Opening b := by
    obtain ⟨b, bs, hw⟩ := List.exists_cons_of_ne_nil h.nonempty
    refine ⟨b, _, by rw [ht, hw]; rfl, .inr (.inl (h.digits b ?_))⟩
    rw [hw]
    exact List.mem_cons_self
  match p with
  | keyword k => exact hword (isWord_keyword k)
  | type t => exact hword (isWord_type hp)
  | name n => exact hword hp.1
  | int value =>
    obtain ⟨n, rfl⟩ := Int.eq_ofNat_of_zero_le hp.1
    exact hnumber (int_parts n) ((bytes_toString n).trans (List.append_nil _).symm)
  | double value =>
    obtain ⟨cs, hcs, whole, fraction, exponent, v, hparts, -, hb, -⟩ :=
      Double.writes_text hp.1 hp.2
    rw [← hcs] at hb
    exact hnumber hparts hb
  | string value => exact ⟨_, _, bytes_quote value, .inr (.inr rfl)⟩

theorem Piece.ends_nil (p : Piece) : p.Ends [] := by
  cases p <;> first | exact True.intro | rintro b ⟨⟩

/-- Pieces that are apart do not go on into each other. -/
theorem Piece.Apart.ends {p q : Piece} (h : Apart p q) (hp : p.isBlank = false) (hq : q.Valid)
    (rest : List UInt8) : p.Ends (bytes q.text ++ rest) := by
  rcases h with h | h | ⟨hs, ho⟩
  · rw [hp] at h
    contradiction
  · have hbreak : ∃ b bs, bytes q.text ++ rest = b :: bs ∧
        isWordByte b = false ∧ (isDigit b = false ∧ b ≠ '.'.toUInt8 ∧ b ≠ 'e'.toUInt8) ∧
          b ≠ '='.toUInt8 ∧ b ≠ '|'.toUInt8 ∧ b ≠ '&'.toUInt8 ∧ b ≠ '.'.toUInt8 ∧
            b ≠ '/'.toUInt8 := by
      unfold isBreak at h
      split at h <;> first | exact ⟨_, _, rfl, by decide⟩ | contradiction
    obtain ⟨b, bs, hb, hword, hnumber, hsymbol⟩ := hbreak
    rw [hb]
    cases p <;> first | exact True.intro | (rintro c ⟨⟩; assumption)
  · obtain ⟨s, rfl⟩ : ∃ s, p = symbol s := by
      cases p <;> first | exact ⟨_, rfl⟩ | contradiction
    have hsymbol : ∃ b bs, bytes q.text ++ rest = b :: bs ∧ b ≠ '='.toUInt8 ∧ b ≠ '|'.toUInt8 ∧
        b ≠ '&'.toUInt8 ∧ b ≠ '.'.toUInt8 ∧ b ≠ '/'.toUInt8 := by
      cases hqs : q.isSymbol
      · have hqb : q.isBlank = false := by
          unfold opens at ho
          split at ho <;> first | rfl | contradiction
        obtain ⟨b, bs, hb, hopening⟩ := Piece.front hq hqs hqb
        exact ⟨b, _, by rw [hb]; rfl, hopening.ne.2⟩
      · unfold opens at ho
        split at ho <;> first | exact ⟨_, _, rfl, by decide⟩ | contradiction
    obtain ⟨b, bs, hb, hne⟩ := hsymbol
    rw [hb]
    rintro c ⟨⟩
    exact hne

theorem blankLength_eq_zero {b : UInt8} {rest : List UInt8} (hb : Text.isBlank b = false)
    (hs : b = '/'.toUInt8 → rest.head? ≠ some '/'.toUInt8) : blankLength false (b :: rest) = 0 := by
  have hcomment : ¬ (b = '/'.toUInt8 ∧ rest.head? = some '/'.toUInt8) := fun h => hs h.1 h.2
  simp [blankLength, hb, hcomment]

theorem blankLength_run {run rest : List UInt8} (h : ∀ b ∈ run, Text.isBlank b) :
    blankLength false (run ++ rest) = run.length + blankLength false rest := by
  induction run with
  | nil => simp
  | cons b run ih =>
    have hb := h b List.mem_cons_self
    simp only [List.cons_append, blankLength, hb, if_true, Bool.false_eq_true, if_false,
      ih fun c hc => h c (.tail _ hc), List.length_cons]
    omega

theorem Piece.not_blank {p : Piece} (hp : p.Valid) (hb : p.isBlank = false) {rest}
    (hr : p.Ends rest) : blankLength false (bytes p.text ++ rest) = 0 := by
  cases hs : p.isSymbol
  · obtain ⟨b, bs, hfront, hopening⟩ := Piece.front hp hs hb
    obtain ⟨hblank, -, -, -, -, hslash⟩ := hopening.ne
    rw [hfront]
    exact blankLength_eq_zero hblank fun h => absurd h hslash
  · obtain ⟨s, rfl⟩ : ∃ s, p = symbol s := by
      cases p <;> first | exact ⟨_, rfl⟩ | contradiction
    obtain ⟨⟨b, bs, hfront, -, -, -, hblank, hslash⟩, -⟩ := symbol_bytes s
    rw [Piece.text, hfront, List.cons_append]
    refine blankLength_eq_zero hblank fun h => ?_
    rw [hslash h, List.nil_append]
    exact fun hhead => (hr _ hhead).2.2.2.2 rfl

theorem Piece.blank {p : Piece} (hb : p.isBlank) : ∀ b ∈ bytes p.text, Text.isBlank b := by
  match p with
  | space => decide +kernel
  | newline => decide +kernel
  | indent depth =>
    have hascii : ∀ c ∈ List.replicate (4 * depth) ' ', c.toNat < 128 := fun c hc => by
      rw [List.eq_of_mem_replicate hc]
      decide
    intro b hb
    rw [Piece.text, bytes_ofList_ascii hascii, List.map_replicate] at hb
    rw [List.eq_of_mem_replicate hb]
    decide

theorem Cursor.skip_add (m n : Nat) (c : Cursor) : c.skip (m + n) = (c.skip m).skip n := by
  induction m generalizing c with
  | zero => rw [Nat.zero_add]; rfl
  | succ m ih => rw [Nat.succ_add]; exact ih c.step

theorem Cursor.skipBlank_skip {c : Cursor} {run rest : List UInt8} (hc : c.rest = run ++ rest)
    (h : ∀ b ∈ run, Text.isBlank b) : (c.skip run.length).skipBlank = c.skipBlank := by
  rw [Cursor.skipBlank, Cursor.skipBlank, hc, blankLength_run h, Cursor.skip_add,
    Cursor.rest_skip, hc, List.drop_left]

theorem Scanned.congr {c c' ts finish} (h : Scanned c ts finish) (hc : c.skipBlank = c'.skipBlank) :
    Scanned c' ts finish := by
  cases h with
  | done h =>
    rw [hc] at h ⊢
    exact .done h
  | token hf ht =>
    rw [hc] at hf ht ⊢
    exact .token hf ht

theorem textOf_cons (p : Piece) (ps : List Piece) :
    bytes (textOf (p :: ps)) = bytes p.text ++ bytes (textOf ps) := by
  rw [textOf, List.map_cons, String.join_cons, bytes_append]
  rfl

theorem Piece.token?_of_isBlank {p : Piece} (h : p.isBlank) : p.token? = none := by
  cases p <;> first | rfl | contradiction

theorem Piece.exists_token? {p : Piece} (h : p.isBlank = false) : ∃ t, p.token? = some t := by
  cases p <;> first | exact ⟨_, rfl⟩ | contradiction

/-- The text of pieces that are kept apart is read back as the tokens of the pieces. -/
theorem scanned_textOf {ps : List Piece} (hv : ∀ p ∈ ps, p.Valid) (ha : ps.IsChain Apart)
    {c : Cursor} (hc : c.rest = bytes (textOf ps)) :
    ∃ ts finish, Scanned c ts finish ∧
      ts.map (fun t => (t.kind, t.text)) = ps.filterMap token? := by
  induction ps generalizing c with
  | nil =>
    have hnil : c.rest = [] := hc
    have hend : c.skipBlank.rest = [] := by rw [Cursor.skipBlank, Cursor.rest_skip, hnil]; rfl
    exact ⟨[], _, .done hend, rfl⟩
  | cons p ps ih =>
    obtain ⟨hhead, hchain⟩ := List.isChain_cons.1 ha
    rw [textOf_cons] at hc
    have hrest : (c.skip (bytes p.text).length).rest = bytes (textOf ps) := by
      rw [Cursor.rest_skip, hc, List.drop_left]
    obtain ⟨ts, finish, hts, hmap⟩ := ih (fun q hq => hv q (.tail _ hq)) hchain hrest
    have hp := hv p List.mem_cons_self
    cases hb : p.isBlank
    · -- The piece is the next token: nothing is skipped in front of it, and it ends with its text.
      obtain ⟨t, ht⟩ := Piece.exists_token? hb
      have hends : p.Ends (bytes (textOf ps)) := by
        cases ps with
        | nil => exact p.ends_nil
        | cons q qs =>
          rw [textOf_cons]
          exact (hhead q rfl).ends hb (hv q (.tail _ List.mem_cons_self)) _
      have hskip : c.skipBlank = c := by
        rw [Cursor.skipBlank, hc, Piece.not_blank hp hb hends]
        rfl
      have hfirst := Piece.first hp ht hends
      rw [← hc, ← hskip] at hfirst
      rw [← hskip] at hts
      refine ⟨_, finish, .token hfirst hts, ?_⟩
      rw [List.map_cons, hmap, List.filterMap_cons_some ht]
    · -- Blanks are skipped together with those in front of the next token.
      have ht := Piece.token?_of_isBlank hb
      refine ⟨ts, finish, hts.congr (Cursor.skipBlank_skip hc (Piece.blank hb)), ?_⟩
      rw [hmap, List.filterMap_cons_none ht]

theorem tokenize_textOf {ps : List Piece} (hv : ∀ p ∈ ps, p.Valid) (ha : ps.IsChain Apart) :
    ∃ T, tokenize (textOf ps) = .ok T ∧
      T.toList.map (fun t => (t.kind, t.text)) = ps.filterMap token? := by
  obtain ⟨ts, finish, hts, hmap⟩ := scanned_textOf (c := .start (textOf ps)) hv ha rfl
  exact ⟨⟨⟨ts⟩, finish⟩, tokenize_ok.2 hts, hmap⟩

end ScriptSyntax
