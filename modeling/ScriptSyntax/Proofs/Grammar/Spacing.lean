import ScriptSyntax.Proofs.Grammar.Clause
import ScriptSyntax.Proofs.Token.Rescan

/-!
The printed form of clauses keeps its pieces apart: nothing in it goes on into what stands behind.
-/

namespace ScriptSyntax

open Piece

/-- Pieces apart from each other and from whatever they stand behind. -/
def Broken (ps : List Piece) : Prop := ps.IsChain Apart ∧ ∃ p, ps.head? = some p ∧ p.isBreak

/-- Pieces apart from each other and from a symbol in front. -/
def Opened (ps : List Piece) : Prop := ps.IsChain Apart ∧ ∃ p, ps.head? = some p ∧ p.opens

section Pieces

variable {p : Piece} {ps rest : List Piece}

theorem chain_blank (hp : p.isBlank) (h : ps.IsChain Apart) : (p :: ps).IsChain Apart :=
  List.isChain_cons.2 ⟨fun _ _ => .inl hp, h⟩

theorem Broken.chain (h : Broken ps) (p : Piece) : (p :: ps).IsChain Apart := by
  obtain ⟨hc, q, hq, hb⟩ := h
  refine List.isChain_cons.2 ⟨fun r hr => ?_, hc⟩
  cases hq.symm.trans hr
  exact .inr (.inl hb)

theorem Opened.chain (h : Opened ps) (s : Symbol) : (symbol s :: ps).IsChain Apart := by
  obtain ⟨hc, q, hq, ho⟩ := h
  refine List.isChain_cons.2 ⟨fun r hr => ?_, hc⟩
  cases hq.symm.trans hr
  exact .inr (.inr ⟨rfl, ho⟩)

theorem broken_of_chain (h : (p :: ps).IsChain Apart) (hp : p.isBreak) : Broken (p :: ps) :=
  ⟨h, p, rfl, hp⟩

theorem broken_space (h : ps.IsChain Apart) : Broken (space :: ps) :=
  broken_of_chain (chain_blank rfl h) rfl

theorem broken_newline (h : ps.IsChain Apart) : Broken (newline :: ps) :=
  broken_of_chain (chain_blank rfl h) rfl

theorem opened_of_chain (h : (p :: ps).IsChain Apart) (hp : p.opens) : Opened (p :: ps) :=
  ⟨h, p, rfl, hp⟩

/-- The semicolon and the newline behind a statement. -/
theorem broken_semicolon (h : rest.IsChain Apart) :
    Broken (symbol .semicolon :: newline :: rest) :=
  broken_of_chain ((broken_newline h).chain _) rfl

theorem opened_commaSeparated {items : List (List Piece)} (hne : items ≠ [])
    (h : ∀ item ∈ items, ∀ rest, Broken rest → Opened (item ++ rest)) (hr : Broken rest) :
    Opened (commaSeparated items ++ rest) := by
  induction items with
  | nil => contradiction
  | cons item items ih =>
    cases items with
    | nil => exact h item List.mem_cons_self rest hr
    | cons next items =>
      have hnext := ih nofun fun i hi => h i (.tail _ hi)
      rw [commaSeparated, List.append_assoc, List.cons_append, List.cons_append]
      · exact h item List.mem_cons_self _
          (broken_of_chain ((broken_space hnext.1).chain _) rfl)
      · nofun

/-- A list in parentheses. -/
theorem broken_list {items : List (List Piece)}
    (h : ∀ item ∈ items, ∀ rest, Broken rest → Opened (item ++ rest))
    (hr : (symbol .rightParen :: rest).IsChain Apart) :
    Broken (symbol .leftParen :: (commaSeparated items ++ symbol .rightParen :: rest)) := by
  have hclose : Broken (symbol .rightParen :: rest) := broken_of_chain hr rfl
  refine broken_of_chain ?_ rfl
  cases items with
  | nil => exact hclose.chain _
  | cons item items => exact (opened_commaSeparated (List.cons_ne_nil item items) h hclose).chain _

end Pieces

mutual

theorem Phrase.opened (e : Phrase) {rest : List Piece} (hr : Broken rest) :
    Opened (e.pieces ++ rest) := by
  match e with
  | .int _ | .double _ | .string _ | .name _ => exact opened_of_chain (hr.chain _) rfl
  | .unary operator e =>
    have he := e.opened hr
    cases operator <;> exact opened_of_chain (he.chain _) rfl
  | .binary operator l r =>
    have hclose : Broken (symbol .rightParen :: rest) := broken_of_chain (hr.chain _) rfl
    have hr := (broken_space (r.opened hclose).1).chain (symbol operator.symbol)
    have hl := l.opened (broken_space hr)
    simp only [Phrase.pieces, List.cons_append, List.append_assoc, List.nil_append]
    exact opened_of_chain (hl.chain _) rfl
  | .call callee es =>
    have hl := broken_list (Phrase.openedOf es) (hr.chain _)
    simp only [Phrase.pieces, List.cons_append, List.append_assoc, List.nil_append]
    exact opened_of_chain (hl.chain _) rfl

theorem Phrase.openedOf (es : List Phrase) :
    ∀ item ∈ Phrase.piecesOf es, ∀ rest, Broken rest → Opened (item ++ rest) := by
  match es with
  | [] => exact nofun
  | e :: es =>
    rintro item (_ | ⟨_, hi⟩) rest hr
    · exact e.opened hr
    · exact Phrase.openedOf es item hi rest hr

end

theorem Signature.chain (s : Signature) {rest : List Piece} (h : rest.IsChain Apart) :
    (s.pieces ++ rest).IsChain Apart := by
  have hparameters : ∀ item ∈ s.parameters.map Parameter.pieces, ∀ rest, Broken rest →
      Opened (item ++ rest) := by
    intro item hi rest hr
    obtain ⟨p, _, rfl⟩ := List.mem_map.1 hi
    exact opened_of_chain ((broken_space (hr.chain _)).chain _) rfl
  have hl := broken_list hparameters ((broken_space h).chain _)
  simp only [Signature.pieces, List.cons_append, List.append_assoc, List.nil_append]
  exact (broken_space ((broken_space (hl.chain _)).chain _)).chain _

/-- Braces around lines that are apart. -/
theorem chain_braced {lines rest : List Piece} (depth : Nat)
    (h : ∀ {rest : List Piece}, rest.IsChain Apart → (lines ++ rest).IsChain Apart)
    (hr : Broken rest) : (Clause.braced depth lines ++ rest).IsChain Apart := by
  have hclose := chain_blank (p := indent depth) rfl (hr.chain (symbol .rightBrace))
  simp only [Clause.braced, List.cons_append, List.append_assoc, List.nil_append]
  exact (broken_newline (h hclose)).chain _

/-- What stands between the parenthesis in front of a condition and the block behind it. -/
theorem chain_condition (e : Phrase) {rest : List Piece} (h : rest.IsChain Apart) :
    Broken (symbol .leftParen :: (e.pieces ++ symbol .rightParen :: space :: rest)) := by
  have hclose : Broken (symbol .rightParen :: space :: rest) :=
    broken_of_chain ((broken_space h).chain _) rfl
  exact broken_of_chain ((e.opened hclose).chain _) rfl

-- From behind: what stands apart behind a clause does so still as its pieces are put in front, one
-- by one.
mutual

theorem Clause.chain (c : Clause) (depth : Nat) {rest : List Piece} (h : rest.IsChain Apart) :
    (c.pieces depth ++ rest).IsChain Apart := by
  match c with
  | .expression e =>
    simp only [Clause.pieces, List.cons_append, List.append_assoc, List.nil_append]
    exact chain_blank rfl (e.opened (broken_semicolon h)).1
  | .declare t x e =>
    have he := (broken_space (e.opened (broken_semicolon h)).1).chain (symbol .assign)
    simp only [Clause.pieces, List.cons_append, List.append_assoc, List.nil_append]
    exact chain_blank rfl ((broken_space ((broken_space he).chain _)).chain _)
  | .assign x operator e =>
    have he := (broken_space (e.opened (broken_semicolon h)).1).chain (symbol operator.symbol)
    simp only [Clause.pieces, List.cons_append, List.append_assoc, List.nil_append]
    exact chain_blank rfl ((broken_space he).chain _)
  | .print es =>
    have hl := broken_list (Phrase.openedOf es) ((broken_semicolon h).chain _)
    simp only [Clause.pieces, List.cons_append, List.append_assoc, List.nil_append]
    exact chain_blank rfl (hl.chain _)
  | .giveBack none => exact chain_blank rfl ((broken_semicolon h).chain _)
  | .giveBack (some e) =>
    simp only [Clause.pieces, List.cons_append, List.append_assoc, List.nil_append]
    exact chain_blank rfl ((broken_space (e.opened (broken_semicolon h)).1).chain _)
  | .block body =>
    have hb := chain_braced depth (Clause.chainOf body (depth + 1)) (broken_newline h)
    simp only [Clause.pieces, List.cons_append, List.append_assoc, List.nil_append]
    exact chain_blank rfl hb
  | .branch e body none =>
    have hl := chain_condition e
      (chain_braced depth (Clause.chainOf body (depth + 1)) (broken_newline h))
    simp only [Clause.pieces, List.cons_append, List.append_assoc, List.nil_append]
    exact chain_blank rfl ((broken_space hl.1).chain _)
  | .branch e body (some elseBody) =>
    have helse := (broken_space (chain_braced depth (Clause.chainOf elseBody (depth + 1))
      (broken_newline h))).chain (keyword .elseKw)
    have hl := chain_condition e
      (chain_braced depth (Clause.chainOf body (depth + 1)) (broken_space helse))
    simp only [Clause.pieces, List.cons_append, List.append_assoc, List.nil_append]
    exact chain_blank rfl ((broken_space hl.1).chain _)
  | .whileLoop e body =>
    have hl := chain_condition e
      (chain_braced depth (Clause.chainOf body (depth + 1)) (broken_newline h))
    simp only [Clause.pieces, List.cons_append, List.append_assoc, List.nil_append]
    exact chain_blank rfl ((broken_space hl.1).chain _)
  | .forLoop x e body =>
    have hclose := (broken_space (chain_braced depth (Clause.chainOf body (depth + 1))
      (broken_newline h))).chain (symbol .rightParen)
    have he := (broken_space (e.opened (broken_of_chain hclose rfl)).1).chain (keyword .inKw)
    have hx := opened_of_chain ((broken_space he).chain (name x)) rfl
    simp only [Clause.pieces, List.cons_append, List.append_assoc, List.nil_append]
    exact chain_blank rfl ((broken_space (hx.chain _)).chain _)
  | .function s body =>
    have hb := chain_braced depth (Clause.chainOf body (depth + 1)) (broken_newline h)
    simp only [Clause.pieces, List.cons_append, List.append_assoc, List.nil_append]
    exact chain_blank rfl (s.chain hb)
  | .native s target =>
    have htarget := (broken_space ((broken_semicolon h).chain (string target))).chain
      (keyword .nativeKw)
    simp only [Clause.pieces, List.cons_append, List.append_assoc, List.nil_append]
    exact chain_blank rfl (s.chain htarget)

theorem Clause.chainOf (cs : List Clause) (depth : Nat) {rest : List Piece}
    (h : rest.IsChain Apart) : (Clause.piecesOf depth cs ++ rest).IsChain Apart := by
  match cs with
  | [] => exact h
  | c :: cs =>
    rw [Clause.piecesOf, List.append_assoc]
    exact c.chain depth (Clause.chainOf cs depth h)

end

end ScriptSyntax
