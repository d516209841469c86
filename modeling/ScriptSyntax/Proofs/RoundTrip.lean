import Mathlib.Data.List.Forall2
import ScriptSyntax.Proofs.Grammar.Completeness
import ScriptSyntax.Proofs.Grammar.Printing
import ScriptSyntax.Proofs.Grammar.Rereading
import ScriptSyntax.Proofs.Grammar.Spacing
import ScriptSyntax.Proofs.Program.Finite

/-!
A printed program is read back as the same program, and says the same as the text it was read from:
nothing is lost, added or moved but parentheses, commas and semicolons.
-/

namespace ScriptSyntax

open Piece

variable {T T' : TokenList} {cs : List Clause} {p : Program}

theorem ofKind?_ofText {t : ValueType} (h : t ≠ .invalid) :
    ValueType.ofKind? (.ofText t.name) = some t := by
  cases t
  · contradiction
  all_goals rfl

/-- The token that a valid piece is scanned as is read as the piece. -/
theorem Piece.Valid.tells {q : Piece} (hq : q.Valid) {t : Token}
    (ht : q.token? = some (t.kind, t.text)) : t.Tells q := by
  have hkind {k : TokenKind} {text : String} (h : some (k, text) = some (t.kind, t.text)) :
      t.kind = k ∧ t.text = text := by
    obtain ⟨hk, ht⟩ := Prod.mk.inj (Option.some.inj h)
    exact ⟨hk.symm, ht.symm⟩
  match q with
  | symbol s => exact (hkind ht).1
  | keyword k => exact (hkind ht).1
  | type v =>
    rw [Token.Tells, (hkind ht).1]
    exact ofKind?_ofText hq
  | name n => exact hkind ht
  | int value =>
    obtain ⟨hk, htext⟩ := hkind ht
    obtain ⟨n, rfl⟩ := Int.eq_ofNat_of_zero_le hq.1
    exact ⟨hk, htext ▸ intLiteral?_toString (Int.ofNat_lt.1 hq.2)⟩
  | double value =>
    obtain ⟨hk, htext⟩ := hkind ht
    exact ⟨hk, htext ▸ Double.doubleLiteral?_text hq.1 hq.2⟩
  | string value => exact hkind ht
  | space | newline | indent _ => cases ht

theorem spells_of_tokens {ps : List Piece} (hv : ∀ q ∈ ps, q.Valid) {i : Nat} (hi : i ≤ T.size)
    (h : (T.toList.drop i).map (fun t => (t.kind, t.text)) = ps.filterMap token?) :
    Spells T i ps T.size := by
  induction ps generalizing i with
  | nil =>
    have hnil := List.drop_eq_nil_iff.1 (List.map_eq_nil_iff.1 h)
    exact Nat.le_antisymm hi hnil
  | cons q ps ih =>
    have hps := fun r hr => hv r (.tail _ hr)
    rw [Spells]
    split
    · next hb =>
      rw [List.filterMap_cons_none (Piece.token?_of_isBlank hb)] at h
      exact ih hps hi h
    · next hb =>
      obtain ⟨t, ht⟩ := Piece.exists_token? (Bool.eq_false_of_not_eq_true hb)
      rw [List.filterMap_cons_some ht] at h
      have hlt : i < T.size := by
        refine Nat.lt_of_le_of_ne hi fun heq => ?_
        have hnil : T.toList.drop i = [] := List.drop_of_length_le (Nat.le_of_eq heq.symm)
        rw [hnil] at h
        contradiction
      rw [TokenList.drop_eq hlt, List.map_cons] at h
      obtain ⟨hhead, htail⟩ := List.cons.inj h
      exact ⟨(hv q List.mem_cons_self).tells (by rw [ht, ← hhead]), ih hps hlt htail⟩

theorem ProgramAt.conveys (h : ProgramAt T cs p) (hT : T.Lexical) :
    Conveys T 0 (Clause.piecesOf 0 cs) T.size := by
  cases h with
  | @mk _ j _ h hend =>
    have hj : j = T.size := by
      rcases Nat.lt_trichotomy j T.size with hlt | heq | hgt
      · have := hT j hlt
        rw [Token.Lexical, hend] at this
        contradiction
      · exact heq
      · rw [TokenList.get_of_size_lt hgt] at hend
        contradiction
    rw [← hj]
    exact h.conveys 0

/-- The two token lists of a program: those it was read from and those of its printed text. -/
structure Printed (source : String) (p : Program) (T T' : TokenList) (cs : List Clause) : Prop where
  source : tokenize source = .ok T
  program : ProgramAt T cs p
  pieces : p.pieces = Clause.piecesOf 0 cs
  conveys : Conveys T 0 p.pieces T.size
  text : tokenize p.text = .ok T'
  spells : Spells T' 0 p.pieces T'.size

theorem printed_of_parse {limit : Nat} {source : String} (h : parse limit source = .ok p)
    (hfinite : p.isFinite) : ∃ T T' cs, Printed source p T T' cs := by
  obtain ⟨T, cs, hT, hp⟩ := Parser.programAt_of_parse h
  have hlexical := TokenList.lexical_of_tokenize hT
  have hpieces := hp.pieces (TokenList.ordered_of_tokenize hT)
  have hsays := hp.conveys hlexical
  rw [← hpieces] at hsays
  have hvalid : ∀ q ∈ p.pieces, q.Valid := fun q hq =>
    hsays.valid hlexical q hq (Program.finite_pieces hfinite q hq)
  have hchain : p.pieces.IsChain Apart := by
    have hnil : ([] : List Piece).IsChain Apart := .nil
    have hall := Clause.chainOf cs 0 hnil
    rwa [List.append_nil, ← hpieces] at hall
  obtain ⟨T', hT', htokens⟩ := tokenize_textOf hvalid hchain
  exact ⟨T, T', cs, {
    source := hT
    program := hp
    pieces := hpieces
    conveys := hsays
    text := hT'
    spells := spells_of_tokens hvalid (Nat.zero_le _) htokens }⟩

/-- The printed text says what the program was read from says, but for its places. -/
theorem Printed.reread {source : String} (hp : Printed source p T T' cs) :
    ∃ q, ProgramAt T' cs q ∧ q.unplaced = p.unplaced ∧ q.text = p.text := by
  obtain ⟨q, hq, hu⟩ := hp.program.reread (hp.pieces ▸ hp.spells)
  have hpieces : q.pieces = p.pieces := by
    rw [hq.pieces (TokenList.ordered_of_tokenize hp.text), hp.pieces]
  exact ⟨q, hq, hu, by rw [Program.text, hpieces, Program.text]⟩

/-- A printed program is read back, under any limit larger than the number of its tokens, as the
program it was printed from but for its places, and is printed alike. -/
theorem print_round_trip {limit : Nat} {source : String} (h : parse limit source = .ok p)
    (hfinite : p.isFinite) :
    ∃ T, tokenize p.text = .ok T ∧ ∀ levels, T.size < levels →
      ∃ q, parse levels p.text = .ok q ∧ q.unplaced = p.unplaced ∧ q.text = p.text := by
  obtain ⟨T, T', cs, hp⟩ := printed_of_parse h hfinite
  obtain ⟨q, hq, hu, htext⟩ := hp.reread
  exact ⟨T', hp.text, fun levels hl => ⟨q, hq.run hp.text hl, hu, htext⟩⟩

/-- A function between two statements, and a product of a sum that a negation comes behind. -/
theorem print_round_trip_nested :
    ∃ p, parse 8 "double d = 0.5; function int f(int n) \x7b return n * (n + 1) * -2; \x7d f(3);" =
        .ok p ∧
      p.isFinite ∧ ∃ T, tokenize p.text = .ok T ∧ ∀ levels, T.size < levels →
        ∃ q, parse levels p.text = .ok q ∧ q.unplaced = p.unplaced ∧ q.text = p.text := by
  have h : (match parse 8
        "double d = 0.5; function int f(int n) \x7b return n * (n + 1) * -2; \x7d f(3);" with
      | .ok p => p.isFinite
      | .error _ => false) = true := by decide +kernel
  split at h
  · next p hp => exact ⟨p, hp, h, print_round_trip hp h⟩
  · contradiction

/-- Tokens that say the same: of one kind, and with the same number or the same text. -/
def Token.Same (t u : Token) : Prop :=
  t.kind = u.kind ∧
    match t.kind with
    | .intLiteral => ∃ value, intLiteral? t.text = some value ∧ intLiteral? u.text = some value
    | .doubleLiteral => ∃ value, doubleLiteral? t.text = some value ∧
        doubleLiteral? u.text = some value
    | _ => t.text = u.text

/-- The tokens other than parentheses, commas and semicolons. -/
def TokenList.content (T : TokenList) : List Token := T.toList.filter fun t => !t.kind.isSeparator

def Piece.isContent (q : Piece) : Bool := !q.isBlank && !q.isSeparator

theorem kind_of_ofKind? {k : TokenKind} {t : ValueType} (h : ValueType.ofKind? k = some t) :
    k = .ofText t.name := by
  unfold ValueType.ofKind? at h
  split at h <;> cases h <;> rfl

theorem Token.Tells.isContent {t : Token} {q : Piece} (h : t.Tells q) :
    q.isContent = !t.kind.isSeparator := by
  match q with
  | symbol s => rw [show t.kind = s from h]; rfl
  | keyword k => rw [show t.kind = k from h]; rfl
  | type v =>
    rw [kind_of_ofKind? h]
    cases v <;> rfl
  | name n => rw [h.1]; rfl
  | int value => rw [h.1]; rfl
  | double value => rw [h.1]; rfl
  | string value => rw [h.1]; rfl

theorem Token.Same.of_text {t u : Token} {k : TokenKind} (ht : t.kind = k) (hu : u.kind = k)
    (h : t.text = u.text) (hi : k ≠ .intLiteral) (hd : k ≠ .doubleLiteral) : t.Same u := by
  refine ⟨ht.trans hu.symm, ?_⟩
  split
  · next hk => exact absurd (ht.symm.trans hk) hi
  · next hk => exact absurd (ht.symm.trans hk) hd
  · exact h

theorem Token.Lexical.symbol {t : Token} (h : t.Lexical) {s : Symbol} (hk : t.kind = s) :
    t.text = s.text := by
  rwa [Token.Lexical, hk] at h

theorem Token.Lexical.keyword {t : Token} (h : t.Lexical) {k : Keyword} (hk : t.kind = k) :
    t.text = k.text := by
  rwa [Token.Lexical, hk] at h

/-- Tokens that are read as the same piece say the same. -/
theorem Token.Tells.same {t u : Token} {q : Piece} (h : t.Tells q) (h' : u.Tells q)
    (ht : t.Lexical) (hu : u.Lexical) : t.Same u := by
  match q with
  | symbol s => exact .of_text h h' ((ht.symbol h).trans (hu.symbol h').symm) nofun nofun
  | keyword k => exact .of_text h h' ((ht.keyword h).trans (hu.keyword h').symm) nofun nofun
  | type v =>
    obtain ⟨k, hk⟩ : ∃ k : Keyword, TokenKind.ofText v.name = k := by
      cases v
      · exact absurd h (ofKind?_ne_invalid _)
      all_goals exact ⟨_, rfl⟩
    have h := (kind_of_ofKind? h).trans hk
    have h' := (kind_of_ofKind? h').trans hk
    exact .of_text h h' ((ht.keyword h).trans (hu.keyword h').symm) nofun nofun
  | name n => exact .of_text h.1 h'.1 (h.2.trans h'.2.symm) nofun nofun
  | string value => exact .of_text h.1 h'.1 (h.2.trans h'.2.symm) nofun nofun
  | int value =>
    refine ⟨h.1.trans h'.1.symm, ?_⟩
    rw [h.1]
    exact ⟨value, h.2, h'.2⟩
  | double value =>
    refine ⟨h.1.trans h'.1.symm, ?_⟩
    rw [h.1]
    exact ⟨value, h.2, h'.2⟩

theorem Spells.conveys {i j : Nat} {ps : List Piece} (h : Spells T i ps j) : Conveys T i ps j := by
  induction ps generalizing i with
  | nil => cases h; exact .done
  | cons q ps ih =>
    rw [Spells] at h
    split at h
    · next hb => exact .add (.inl hb) (ih h)
    · exact .token h.1 (ih h.2)

/-- What tokens say is their content. -/
theorem Conveys.content {i j : Nat} {ps : List Piece} (h : Conveys T i ps j) (hT : T.Lexical)
    (hj : j = T.size) :
    List.Forall₂ (fun t q => t.Tells q ∧ t.Lexical)
      ((T.toList.drop i).filter fun t => !t.kind.isSeparator) (ps.filter Piece.isContent) := by
  induction h with
  | done =>
    have hnil : T.toList.drop _ = [] := List.drop_of_length_le (Nat.le_of_eq hj.symm)
    rw [hnil]
    exact .nil
  | @drop i _ _ s hk hs _ ih =>
    have hsep : (!(T.get i).kind.isSeparator) = false := by rw [hk]; exact congrArg _ hs
    rw [TokenList.drop_eq (TokenList.lt_size_of_symbol hk),
      List.filter_cons_of_neg (by simp [hsep])]
    exact ih hj
  | @add _ q _ _ hq _ ih =>
    have hcontent : q.isContent = false := by
      rcases hq with hq | hq <;> simp [Piece.isContent, hq]
    rw [List.filter_cons_of_neg (by simp [hcontent])]
    exact ih hj
  | @token _ q _ _ ht _ ih =>
    have hcontent := ht.isContent
    rw [TokenList.drop_eq ht.lt_size]
    cases hq : q.isContent
    · rw [hq] at hcontent
      rw [List.filter_cons_of_neg (by simp [← hcontent]), List.filter_cons_of_neg (by simp [hq])]
      exact ih hj
    · rw [hq] at hcontent
      rw [List.filter_cons_of_pos (by simp [← hcontent]), List.filter_cons_of_pos (by simp [hq])]
      exact .cons ⟨ht, hT _ ht.lt_size⟩ (ih hj)

theorem forall₂_same {ts us : List Token} {qs : List Piece}
    (h : List.Forall₂ (fun t q => t.Tells q ∧ t.Lexical) ts qs)
    (h' : List.Forall₂ (fun t q => t.Tells q ∧ t.Lexical) us qs) :
    List.Forall₂ Token.Same ts us := by
  induction h generalizing us with
  | nil => cases h'; exact .nil
  | cons ht _ ih =>
    cases h' with
    | cons hu h' => exact .cons (ht.1.same hu.1 ht.2 hu.2) (ih h')

/-- A text and the printed form of its program have the same tokens but for separators. -/
theorem print_keeps_tokens {limit : Nat} {source : String} (h : parse limit source = .ok p)
    (hfinite : p.isFinite) :
    ∃ T T', tokenize source = .ok T ∧ tokenize p.text = .ok T' ∧
      List.Forall₂ Token.Same T.content T'.content := by
  obtain ⟨T, T', cs, hp⟩ := printed_of_parse h hfinite
  have hT := hp.conveys.content (TokenList.lexical_of_tokenize hp.source) rfl
  have hT' := hp.spells.conveys.content (TokenList.lexical_of_tokenize hp.text) rfl
  exact ⟨T, T', hp.source, hp.text, forall₂_same hT hT'⟩

/-- The printed text drops the commas at the ends of the lists and the parentheses around `n`. -/
theorem print_keeps_tokens_lists :
    ∃ p, parse 8 "function int f(int n,) \x7b return (n); \x7d; print(1.50, f(007),);" = .ok p ∧
      p.isFinite ∧ ∃ T T',
        tokenize "function int f(int n,) \x7b return (n); \x7d; print(1.50, f(007),);" = .ok T ∧
          tokenize p.text = .ok T' ∧ List.Forall₂ Token.Same T.content T'.content := by
  have h : (match parse 8 "function int f(int n,) \x7b return (n); \x7d; print(1.50, f(007),);" with
      | .ok p => p.isFinite
      | .error _ => false) = true := by decide +kernel
  split at h
  · next p hp => exact ⟨p, hp, h, print_keeps_tokens hp h⟩
  · contradiction

end ScriptSyntax
