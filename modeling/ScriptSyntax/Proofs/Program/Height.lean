import ScriptSyntax.Proofs.Program.Occurrence

/-!
The height of trees, and the height that is left if a run of operations that lean to the left counts
as one.
-/

namespace ScriptSyntax

mutual

/-- The height of a tree, where the step from an operation to its left operand counts `step`. With
`1` it is the height, with `0` such steps do not count. -/
def Node.height (step : Nat) : Node → Nat
  | .int .. | .double .. | .string .. | .load .. | .nativeCall .. | .giveBack none _ => 1
  | .declare _ value _ | .assign _ _ value _ | .unary _ value _ | .giveBack (some value) _ =>
    value.height step + 1
  | .binary _ left right _ => max (left.height step + step) (right.height step + 1)
  | .call _ _ arguments _ | .print arguments _ => heightOf step arguments + 1
  | .block body => body.height step
  | .branch condition thenBody none _ => max (condition.height step) (thenBody.height step) + 1
  | .branch condition thenBody (some elseBody) _ =>
    max (max (condition.height step) (thenBody.height step)) (elseBody.height step) + 1
  | .whileLoop condition body _ | .forLoop _ condition body _ =>
    max (condition.height step) (body.height step) + 1

def Block.height (step : Nat) : Block → Nat
  | ⟨_, body, _⟩ => heightOf step body + 1

/-- The greatest height among trees. -/
def heightOf (step : Nat) : List Node → Nat
  | [] => 0
  | n :: ns => max (n.height step) (heightOf step ns)

end

/-- The number of operations in a row, each the left operand of the one before it. -/
def Node.leftRun : Node → Nat
  | .binary _ left _ _ => left.leftRun + 1
  | _ => 0

theorem heightOf_singleton (step : Nat) (n : Node) : heightOf step [n] = n.height step := by
  rw [heightOf, heightOf, Nat.max_zero]

theorem Node.mem_occurrences (s : ScopeId) (n : Node) : (s, n) ∈ n.occurrences s := by
  cases n with
  | giveBack value => cases value <;> exact List.mem_cons_self
  | branch _ _ elseBody => cases elseBody <;> exact List.mem_cons_self
  | _ => exact List.mem_cons_self

section Runs

variable {N a b c d : Nat}

/-- No run of operations to the left is longer than `N`. -/
def RunsAtMost (N : Nat) (L : List (ScopeId × Node)) : Prop := ∀ o ∈ L, o.2.leftRun ≤ N

theorem RunsAtMost.append {L M : List (ScopeId × Node)} (h : RunsAtMost N (L ++ M)) :
    RunsAtMost N L ∧ RunsAtMost N M :=
  List.forall_mem_append.1 h

theorem RunsAtMost.tail {o : ScopeId × Node} {L : List (ScopeId × Node)}
    (h : RunsAtMost N (o :: L)) : RunsAtMost N L :=
  fun _ ho => h _ (.tail _ ho)

theorem max_le_mul (h : a ≤ b * (N + 1)) (h' : c ≤ d * (N + 1)) :
    max a c ≤ max b d * (N + 1) :=
  Nat.max_le.2 ⟨Nat.le_trans h (Nat.mul_le_mul_right _ (Nat.le_max_left b d)),
    Nat.le_trans h' (Nat.mul_le_mul_right _ (Nat.le_max_right b d))⟩

theorem succ_le_mul (h : a ≤ b * (N + 1)) : a + 1 + N ≤ (b + 1) * (N + 1) := by
  rw [Nat.succ_mul]
  omega

/-- A run may still go on in front of `n` for what is left of `N`. -/
theorem le_mul_of_run {n : Node} {s : ScopeId} (hN : RunsAtMost N (n.occurrences s))
    (h : n.height 1 + N ≤ n.height 0 * (N + 1) + n.leftRun) :
    n.height 1 ≤ n.height 0 * (N + 1) := by
  have hrun : n.leftRun ≤ N := hN _ (n.mem_occurrences s)
  omega

mutual

theorem Node.height_add_le (s : ScopeId) : (n : Node) → RunsAtMost N (n.occurrences s) →
    n.height 1 + N ≤ n.height 0 * (N + 1) + n.leftRun
  | .int .., _ | .double .., _ | .string .., _ | .load .., _ | .nativeCall .., _
  | .giveBack none _, _ => by simp only [Node.height, Node.leftRun]; omega
  | .declare _ value _, h | .assign _ _ value _, h | .unary _ value _, h
  | .giveBack (some value) _, h => by
    have hvalue := le_mul_of_run (RunsAtMost.tail h) (value.height_add_le s (RunsAtMost.tail h))
    exact succ_le_mul hvalue
  | .binary _ left right _, h => by
    obtain ⟨hleft, hright⟩ := RunsAtMost.append h
    have hl := left.height_add_le s hleft.tail
    have hr := succ_le_mul (le_mul_of_run hright (right.height_add_le s hright))
    -- The step to the left counts for the height and for the run.
    have hmax : ∀ x, x ≤ max (left.height 0 + 0) (right.height 0 + 1) →
        x * (N + 1) ≤ max (left.height 0 + 0) (right.height 0 + 1) * (N + 1) :=
      fun _ hx => Nat.mul_le_mul_right _ hx
    have hl' := hmax (left.height 0) (Nat.le_max_left ..)
    have hr' := hmax (right.height 0 + 1) (Nat.le_max_right ..)
    simp only [Node.height, Node.leftRun]
    omega
  | .call _ _ arguments _, h | .print arguments _, h =>
    succ_le_mul (heightOf_le s arguments (RunsAtMost.tail h))
  | .block body, h => body.height_add_le (RunsAtMost.tail h)
  | .branch condition thenBody none _, h => by
    obtain ⟨hc, ht⟩ := RunsAtMost.append h
    have hcondition := le_mul_of_run hc.tail (condition.height_add_le s hc.tail)
    have hthen := thenBody.height_add_le ht
    exact succ_le_mul (max_le_mul hcondition (by omega))
  | .branch condition thenBody (some elseBody) _, h => by
    obtain ⟨h, he⟩ := RunsAtMost.append h
    obtain ⟨hc, ht⟩ := RunsAtMost.append h
    have hcondition := le_mul_of_run hc.tail (condition.height_add_le s hc.tail)
    have hthen := thenBody.height_add_le ht
    have helse := elseBody.height_add_le he
    exact succ_le_mul (max_le_mul (max_le_mul hcondition (by omega)) (by omega))
  | .whileLoop condition body _, h | .forLoop _ condition body _, h => by
    obtain ⟨hc, hb⟩ := RunsAtMost.append h
    have hcondition := le_mul_of_run hc.tail (condition.height_add_le s hc.tail)
    have hbody := body.height_add_le hb
    exact succ_le_mul (max_le_mul hcondition (by omega))

theorem Block.height_add_le : (b : Block) → RunsAtMost N b.occurrences →
    b.height 1 + N ≤ b.height 0 * (N + 1)
  | ⟨scope, body, _⟩, h => succ_le_mul (heightOf_le scope body h)

theorem heightOf_le (s : ScopeId) : (ns : List Node) → RunsAtMost N (occurrencesOf s ns) →
    heightOf 1 ns ≤ heightOf 0 ns * (N + 1)
  | [], _ => Nat.zero_le _
  | n :: ns, h => by
    obtain ⟨hn, hns⟩ := RunsAtMost.append h
    exact max_le_mul (le_mul_of_run hn (n.height_add_le s hn)) (heightOf_le s ns hns)

end

end Runs

end ScriptSyntax
