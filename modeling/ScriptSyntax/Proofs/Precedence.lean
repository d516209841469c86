import ScriptSyntax.Proofs.Grammar.Completeness
import ScriptSyntax.Proofs.Grammar.Soundness
import ScriptSyntax.Proofs.NestingLimit

/-!
A row of operands with operators between them is read as the one tree in which an operator has
nothing below it that binds less tightly, and nothing on its right that binds equally.
-/

namespace ScriptSyntax

/-- How the operands of a row are grouped. Operations inside an operand do not show. -/
inductive Grouping where
  | operand (node : Node)
  | operation (operator : BinaryOperator) (left right : Grouping)

namespace Grouping

/-- The tree, with each operation from its first operand to its last. -/
def node : Grouping → Node
  | operand n => n
  | operation o l r => .binary o l.node r.node ⟨l.node.span.start, r.node.span.finish⟩

/-- The leftmost operand. -/
def first : Grouping → Node
  | operand n => n
  | operation _ l _ => l.first

/-- The other operands from left to right, each with the operator in front of it. -/
def rest : Grouping → List (BinaryOperator × Node)
  | operand _ => []
  | operation o l r => l.rest ++ (o, r.first) :: r.rest

def root? : Grouping → Option BinaryOperator
  | operand _ => none
  | operation o _ _ => some o

/-- An operation on the left of another binds at least as tightly, one on the right more tightly. -/
def Balanced : Grouping → Prop
  | operand _ => True
  | operation o l r =>
    (∀ p ∈ l.root?, o.precedence ≤ p.precedence) ∧ (∀ p ∈ r.root?, o.precedence < p.precedence) ∧
      l.Balanced ∧ r.Balanced

def decidableBalanced : (g : Grouping) → Decidable g.Balanced
  | operand _ => isTrue trivial
  | operation o l r =>
    have := l.decidableBalanced
    have := r.decidableBalanced
    inferInstanceAs (Decidable
      ((∀ p ∈ l.root?, o.precedence ≤ p.precedence) ∧
        (∀ p ∈ r.root?, o.precedence < p.precedence) ∧ l.Balanced ∧ r.Balanced))

instance (g : Grouping) : Decidable g.Balanced := g.decidableBalanced

variable {g g' : Grouping} {o : BinaryOperator} {n : Node} {k : Nat}

/-- Below the root, every operator binds at least as tightly as the root does. -/
theorem Balanced.le_precedence (h : g.Balanced) (hroot : ∀ p ∈ g.root?, k ≤ p.precedence)
    (ho : (o, n) ∈ g.rest) : k ≤ o.precedence := by
  induction g with
  | operand _ => cases ho
  | operation p l r ihl ihr =>
    obtain ⟨hl, hr, hl', hr'⟩ := h
    have hp : k ≤ p.precedence := hroot p rfl
    simp only [rest, List.mem_append, List.mem_cons, Prod.mk.injEq] at ho
    rcases ho with ho | ⟨rfl, -⟩ | ho
    · exact ihl hl' (fun q hq => hp.trans (hl q hq)) ho
    · exact hp
    · exact ihr hr' (fun q hq => hp.trans (hr q hq).le) ho

/-- No operator of a row is the root of one balanced grouping while a later one is the root of
another: the earlier one would bind less tightly, being above the later one on its left, and at
least as tightly, being below it on its left. -/
theorem Balanced.root_not_before {l r l' r' : Grouping} {o o' : BinaryOperator}
    {x : BinaryOperator × Node} {between : List (BinaryOperator × Node)}
    (h : (operation o l r).Balanced) (h' : (operation o' l' r').Balanced)
    (hl : l'.rest = l.rest ++ x :: between) :
    (o, r.first) :: r.rest ≠ x :: between ++ (o', r'.first) :: r'.rest := by
  intro hr
  rw [List.cons_append, List.cons.injEq] at hr
  obtain ⟨rfl, hr⟩ := hr
  obtain ⟨-, hright, -, hbalanced⟩ := h
  obtain ⟨hleft, -, hbalanced', -⟩ := h'
  -- Each of the two operators stands below the other: on its right in one grouping, on its left in
  -- the other.
  have hlt : o.precedence < o'.precedence :=
    hbalanced.le_precedence hright (n := r'.first) (by simp [hr])
  have hle : o'.precedence ≤ o.precedence :=
    hbalanced'.le_precedence hleft (n := r.first) (by simp [hl])
  exact absurd hlt (Nat.not_lt.2 hle)

/-- So the roots are one operator of the row, and split it alike. -/
theorem Balanced.split {l r l' r' : Grouping} {o o' : BinaryOperator}
    (h : (operation o l r).Balanced) (h' : (operation o' l' r').Balanced)
    (hrest : (operation o l r).rest = (operation o' l' r').rest) :
    l.rest = l'.rest ∧ o = o' ∧ r.first = r'.first ∧ r.rest = r'.rest := by
  have hlen : l.rest.length = l'.rest.length := by
    rcases List.append_eq_append_iff.1 hrest with ⟨between, hl, hr⟩ | ⟨between, hl, hr⟩
    all_goals
      cases between with
      | nil => simp [hl]
      | cons x between => ?_
    · exact absurd hr (h.root_not_before h' hl)
    · exact absurd hr (h'.root_not_before h hl)
  obtain ⟨hl, hr⟩ := List.append_inj hrest hlen
  simp only [List.cons.injEq, Prod.mk.injEq, and_assoc] at hr
  exact ⟨hl, hr⟩

/-- By induction on the first grouping. -/
theorem Balanced.unique (h : g.Balanced) (h' : g'.Balanced) (hfirst : g.first = g'.first)
    (hrest : g.rest = g'.rest) : g = g' := by
  induction g generalizing g' with
  | operand n =>
    cases g' with
    | operand _ => exact congrArg operand hfirst
    | operation => simp [rest] at hrest
  | operation o l r ihl ihr =>
    cases g' with
    | operand _ => simp [rest] at hrest
    | operation o' l' r' =>
      obtain ⟨hl, rfl, hr, hr'⟩ := h.split h' hrest
      rw [ihl h.2.2.1 h'.2.2.1 hfirst hl, ihr h.2.2.2 h'.2.2.2 hr hr']

end Grouping

open ScriptSyntax.Parser

/-- From `t` to `u`, an operand and others with an operator in front of each: every operand is what
is read there as one, with as many levels as it takes. -/
inductive RowRun (c : Context) : Progress → Node → List (BinaryOperator × Node) → Progress → Prop
  | last {t n u levels} : unary levels c t = .ok n u → RowRun c t n [] u
  | more {t n u o m rest v levels} : unary levels c t = .ok n u →
    (c.tokens.get u.position).kind = BinaryOperator.symbol o →
    RowRun c { u with position := u.position + 1 } m rest v → RowRun c t n ((o, m) :: rest) v

section Climbing

variable {T : TokenList} {a : Arena} {s : ScopeId}

/-- Operands with an operator in front of each, by the slots they stand in. -/
inductive RestAt (T : TokenList) (a : Arena) (s : ScopeId) :
    Nat → List (BinaryOperator × Node) → Nat → Prop
  | done {i} : RestAt T a s i [] i
  | more {i e n j rest k} {o : BinaryOperator} : (T.get i).kind = o.symbol →
    OperandAt T a s (i + 1) e n j → RestAt T a s j rest k → RestAt T a s i ((o, n) :: rest) k

theorem RowRun.operandAt {c : Context} {t u : Progress} {n : Node}
    {rest : List (BinaryOperator × Node)} (h : RowRun c t n rest u) :
    ∃ e i, OperandAt c.tokens t.arena c.scope t.position e n i ∧
      RestAt c.tokens t.arena c.scope i rest u.position ∧ u.arena = t.arena := by
  induction h with
  | last h =>
    obtain ⟨e, he, ha⟩ := (reads_expression _).2 h
    exact ⟨e, _, he, .done, ha⟩
  | more h ho _ ih =>
    obtain ⟨e, he, ha⟩ := (reads_expression _).2 h
    obtain ⟨e', j, he', hrest, hu⟩ := ih
    dsimp only at he' hrest hu
    rw [ha] at he' hrest hu
    exact ⟨e, _, he, .more ho he' hrest, hu⟩

/-- What a climb from slot `i` makes of a grouping `g₀` and the operands behind it: a balanced
grouping `g` of them up to the first operator that binds less tightly than `least`. -/
structure Climbed (T : TokenList) (a : Arena) (s : ScopeId) (k least i : Nat) (e₀ : Phrase)
    (g₀ : Grouping) (rest : List (BinaryOperator × Node)) (e : Phrase) (g : Grouping) (j : Nat)
    (left : List (BinaryOperator × Node)) : Prop where
  climbs : ClimbAt T a s least i e₀ g₀.node e g.node j
  leaves : RestAt T a s j left k
  first : g.first = g₀.first
  rest : g.rest ++ left = g₀.rest ++ rest
  balanced : g.Balanced
  root : ∀ p ∈ g.root?, least ≤ p.precedence
  next : ∀ x ∈ left.head?, x.1.precedence < least

/-- An operator that binds tightly enough: what binds more tightly than it goes into its right
operand, and the climb goes on from the operation. -/
theorem Climbed.more {k least i j j₁ j₂ : Nat} {o : BinaryOperator} {n : Node}
    {e₀ e₁ e₂ e : Phrase} {g₀ g₁ g : Grouping} {rest left₁ left : List (BinaryOperator × Node)}
    (ho : (T.get i).kind = o.symbol) (hleast : least ≤ o.precedence)
    (hn : OperandAt T a s (i + 1) e₁ n j)
    (h₁ : Climbed T a s k (o.precedence + 1) j e₁ (.operand n) rest e₂ g₁ j₁ left₁)
    (h : Climbed T a s k least j₁ (.binary o e₀ e₂) (.operation o g₀ g₁) left₁ e g j₂ left) :
    Climbed T a s k least i e₀ g₀ ((o, n) :: rest) e g j₂ left where
  climbs := .more ho hleast (.mk hn h₁.climbs) h.climbs
  leaves := h.leaves
  first := h.first
  rest :=
    calc g.rest ++ left = (g₀.rest ++ (o, g₁.first) :: g₁.rest) ++ left₁ := h.rest
      _ = g₀.rest ++ (o, n) :: (g₁.rest ++ left₁) := by
        rw [h₁.first, List.append_assoc, List.cons_append, Grouping.first]
      _ = g₀.rest ++ (o, n) :: rest := by rw [h₁.rest, Grouping.rest, List.nil_append]
  balanced := h.balanced
  root := h.root
  next := h.next

/-- In front of a token that is no operator every climb ends, if what follows does not bind more
tightly than the root it starts from. By induction on the operands behind; an operator climbs
twice, for its right operand and from the operation it makes. -/
theorem RestAt.climb {rest : List (BinaryOperator × Node)} {i k : Nat} (least : Nat) (e₀ : Phrase)
    (g₀ : Grouping) (h : RestAt T a s i rest k) (hk : (T.get k).kind.isBinary = false)
    (h₀ : g₀.Balanced) (hleast : ∀ p ∈ g₀.root?, least ≤ p.precedence)
    (hnext : ∀ x ∈ rest.head?, ∀ p ∈ g₀.root?, x.1.precedence ≤ p.precedence) :
    ∃ e g j left, Climbed T a s k least i e₀ g₀ rest e g j left := by
  induction hm : rest.length using Nat.strong_induction_on generalizing rest i least e₀ g₀ with
  | _ m ih =>
    subst hm
    cases h with
    | done =>
      have hstop : ¬ ((T.get k).kind.isBinary ∧ least ≤ (T.get k).kind.precedence) :=
        fun hb => absurd hb.1 (by rw [hk]; exact nofun)
      exact ⟨e₀, g₀, k, [], .done hstop, .done, rfl, rfl, h₀, hleast, nofun⟩
    | @more _ e₁ n j rest _ o ho hn hrest =>
      by_cases hpower : least ≤ o.precedence
      · -- The right operand takes what binds more tightly than the operator.
        obtain ⟨e₂, g₁, j₁, left₁, h₁⟩ := ih rest.length (Nat.lt_succ_self _) (o.precedence + 1)
          e₁ (.operand n) hrest trivial nofun nofun rfl
        have hlen : left₁.length ≤ rest.length := by
          have := congrArg List.length h₁.rest
          simp only [Grouping.rest, List.length_append, List.length_nil] at this
          omega
        -- What is left binds no more tightly, so that the operation may be its left operand.
        have hbalanced : (Grouping.operation o g₀ g₁).Balanced :=
          ⟨hnext _ rfl, h₁.root, h₀, h₁.balanced⟩
        have hroot : ∀ p ∈ (Grouping.operation o g₀ g₁).root?, least ≤ p.precedence := by
          rintro _ ⟨⟩
          exact hpower
        have hnext₁ : ∀ x ∈ left₁.head?, ∀ p ∈ (Grouping.operation o g₀ g₁).root?,
            x.1.precedence ≤ p.precedence := by
          rintro x hx _ ⟨⟩
          exact Nat.le_of_lt_succ (h₁.next x hx)
        obtain ⟨e, g, j₂, left, h⟩ := ih left₁.length (Nat.lt_succ_of_le hlen) least
          (.binary o e₀ e₂) (.operation o g₀ g₁) h₁.leaves hbalanced hroot hnext₁ rfl
        exact ⟨e, g, j₂, left, h₁.more ho hpower hn h⟩
      · have hstop : ¬ ((T.get i).kind.isBinary ∧ least ≤ (T.get i).kind.precedence) := by
          rw [ho]
          exact fun hb => hpower hb.2
        refine ⟨e₀, g₀, i, _, .done hstop, .more ho hn hrest, rfl, rfl, h₀, hleast, ?_⟩
        rintro _ ⟨⟩
        exact Nat.lt_of_not_le hpower

end Climbing

/-- A row of operands is read, up to a token that is no operator, as its only balanced grouping, by
every parser that allows enough levels; one that allows fewer finds the row nested too deep. -/
theorem row_read_balanced {c : Context} {t u : Progress} {n : Node}
    {rest : List (BinaryOperator × Node)} (h : RowRun c t n rest u)
    (hu : (c.tokens.get u.position).kind.isBinary = false) :
    ∃ g : Grouping, g.first = n ∧ g.rest = rest ∧ g.Balanced ∧
      (∀ g' : Grouping, g'.first = n → g'.rest = rest → g'.Balanced → g' = g) ∧
      ∃ needed, ∀ levels, (needed ≤ levels → expression levels 1 c t = .ok g.node u) ∧
        (levels < needed →
          ∃ l r, expression levels 1 c t = .error ⟨.nestingTooDeep c.limit, l⟩ r) := by
  obtain ⟨e₀, i, hn, hrest, ha⟩ := h.operandAt
  obtain ⟨e, g, j, left, hg⟩ := hrest.climb 1 e₀ (.operand n) hu trivial nofun nofun
  -- No operator binds less tightly than the climb asks for, so it takes them all.
  have hleft : left = [] := by
    rcases left with _ | ⟨x, _⟩
    · rfl
    · have hlt := hg.next x rfl
      have : 0 < x.1.precedence := by cases x.1 <;> decide
      omega
  subst hleft
  have hrest' : g.rest = rest := by simpa [Grouping.rest] using hg.rest
  have hend : (⟨j, t.arena⟩ : Progress) = u := by
    cases hg.leaves
    rw [← ha]
  have hrun := (ChainAt.mk hn hg.climbs).run (c.tokens.size + 1) c.limit (by omega)
  rw [hend] at hrun
  refine ⟨g, hg.first, hrest', hg.balanced, fun g' hfirst hrest hbalanced => ?_,
    Relaxes.least_levels (fun hle => ?_) hrun⟩
  · exact hbalanced.unique hg.balanced (hfirst.trans hg.first.symm) (hrest.trans hrest'.symm)
  · exact congruence_relaxes.expression (.inr ⟨hle, fun _ => relaxes_tooDeep⟩) 1

/-- `a - b - c * d == (e | f);`, of texts: the first difference is the left operand of the second,
and the operation in parentheses is one operand. -/
theorem row_read_balanced_mixed :
    let text (name : String) (i : Nat) : Token := ⟨.stringLiteral, name, .known 0 i⟩
    let mark (x : Symbol) (i : Nat) : Token := .ofKind x (.known 0 i)
    let leaf (name : String) (i : Nat) : Node := .string name (.single (.known 0 i))
    let c : Context := ⟨⟨#[text "a" 0, mark .minus 1, text "b" 2, mark .minus 3, text "c" 4,
      mark .times 5, text "d" 6, mark .equal 7, mark .leftParen 8, text "e" 9, mark .bitOr 10,
      text "f" 11, mark .rightParen 12, mark .semicolon 13], .known 0 14⟩, 128, Arena.root⟩
    let span (i j : Nat) : Span := ⟨.known 0 i, .known 0 j⟩
    let inner := Node.binary .bitOr (leaf "e" 9) (leaf "f" 11) (span 9 11)
    RowRun c ⟨0, .fresh⟩ (leaf "a" 0) [(.subtract, leaf "b" 2), (.subtract, leaf "c" 4),
      (.multiply, leaf "d" 6), (.equal, inner)] ⟨13, .fresh⟩ ∧
    ∃ needed, ∀ levels, needed ≤ levels → expression levels 1 c ⟨0, .fresh⟩ =
      .ok (.binary .equal
        (.binary .subtract (.binary .subtract (leaf "a" 0) (leaf "b" 2) (span 0 2))
          (.binary .multiply (leaf "c" 4) (leaf "d" 6) (span 4 6)) (span 0 6))
        inner (span 0 11)) ⟨13, .fresh⟩ := by
  intro text mark leaf c span inner
  have hrow : RowRun c ⟨0, .fresh⟩ (leaf "a" 0) [(.subtract, leaf "b" 2), (.subtract, leaf "c" 4),
      (.multiply, leaf "d" 6), (.equal, inner)] ⟨13, .fresh⟩ :=
    have read {n t u} (h : unary 2 c t = .ok n u) := h
    .more (read rfl) rfl <| .more (read rfl) rfl <| .more (read rfl) rfl <|
      .more (read rfl) rfl <| .last (read rfl)
  obtain ⟨g, -, -, -, hunique, needed, hneeded⟩ := row_read_balanced hrow rfl
  obtain rfl := hunique
    (.operation .equal
      (.operation .subtract (.operation .subtract (.operand (leaf "a" 0)) (.operand (leaf "b" 2)))
        (.operation .multiply (.operand (leaf "c" 4)) (.operand (leaf "d" 6))))
      (.operand inner)) rfl rfl (by decide)
  exact ⟨hrow, needed, fun levels => (hneeded levels).1⟩

end ScriptSyntax
