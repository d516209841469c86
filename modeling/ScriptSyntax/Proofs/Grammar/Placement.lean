import ScriptSyntax.Proofs.Grammar.Extent
import ScriptSyntax.Proofs.Program.Occurrence

/-!
Where the trees of an expression begin and end, and that their names are looked up in the arena the
expression is read in.
-/

namespace ScriptSyntax

/-- What a tree refers to is what its names mean in scope `s` of the arena `a`. -/
def Node.ResolvedIn (a : Arena) (s : ScopeId) : Node → Prop
  | .call name function _ _ => function = a.lookupFunction? s name
  | .load x _ | .assign x _ _ _ | .forLoop x _ _ _ => ∃ name, a.lookupVariable? s name = some x
  | _ => True

/-- A tree of an expression in scope `s` that begins at one of the slots `i` to `m`. -/
structure Within (T : TokenList) (a : Arena) (s : ScopeId) (i m : Nat) (o : ScopeId × Node) :
    Prop where
  scope : o.1 = s
  start : ∃ k, i ≤ k ∧ k ≤ m ∧ o.2.span.start = (T.get k).location
  resolved : o.2.ResolvedIn a s
  expression : o.2.isExpression

/-- An expression between the slots `i` and `j`. None of its trees begins behind its end. -/
def Placed (T : TokenList) (a : Arena) (s : ScopeId) (i : Nat) (n : Node) (j : Nat) : Prop :=
  ∃ k m, i ≤ k ∧ k ≤ m ∧ m < j ∧ n.span.start = (T.get k).location ∧
    n.span.finish = (T.get m).location ∧ ∀ o ∈ n.occurrences s, Within T a s i m o

variable {T : TokenList}

theorem Within.declared {a s i m o} (h : Within T a s i m o) : o.2.declared? = none := by
  have he := h.expression
  cases hn : o.2 with
  | declare => rw [hn] at he; contradiction
  | _ => rfl

theorem Within.mono {a s i m i' m' o} (h : Within T a s i m o) (hi : i' ≤ i) (hm : m ≤ m') :
    Within T a s i' m' o where
  scope := h.scope
  start := by
    obtain ⟨k, hk, hk', hs⟩ := h.start
    exact ⟨k, by omega, by omega, hs⟩
  resolved := h.resolved
  expression := h.expression

theorem Placed.mono {a s i n j i' j'} (h : Placed T a s i n j) (hi : i' ≤ i) (hj : j ≤ j') :
    Placed T a s i' n j' := by
  obtain ⟨k, m, hk, hkm, hm, hs, hf, ho⟩ := h
  exact ⟨k, m, by omega, hkm, by omega, hs, hf, fun o h => (ho o h).mono hi (Nat.le_refl _)⟩

/-- A tree without parts, of the one token at slot `i`. -/
theorem placed_leaf {a s i n} (hs : n.span = .single (T.get i).location)
    (hn : n.occurrences s = [(s, n)]) (hr : n.ResolvedIn a s) (he : n.isExpression) :
    Placed T a s i n (i + 1) := by
  refine ⟨i, i, Nat.le_refl _, Nat.le_refl _, Nat.lt_succ_self _, by rw [hs]; rfl, by rw [hs]; rfl,
    fun o ho => ?_⟩
  rw [hn] at ho
  obtain rfl := List.mem_singleton.1 ho
  exact ⟨rfl, ⟨i, Nat.le_refl _, Nat.le_refl _, by rw [hs]; rfl⟩, hr, he⟩

mutual

theorem OperandAt.placed {a s i e n j} (h : OperandAt T a s i e n j) : Placed T a s i n j := by
  match h with
  | .int _ _ | .double _ _ | .string _ => exact placed_leaf rfl rfl trivial rfl
  | .load _ _ hx => exact placed_leaf rfl rfl ⟨_, hx⟩ rfl
  | .call _ _ h =>
    obtain ⟨m, hm, hmj, hl, ho⟩ := h.placed
    refine ⟨i, m, Nat.le_refl _, by omega, hmj, rfl, hl, fun o hmem => ?_⟩
    rcases List.mem_cons.1 hmem with rfl | hmem
    · exact ⟨rfl, ⟨i, Nat.le_refl _, by omega, rfl⟩, rfl, rfl⟩
    · exact (ho o hmem).mono (by omega) (Nat.le_refl _)
  | .unary _ h =>
    obtain ⟨k, m, hk, hkm, hm, _, hf, ho⟩ := h.placed
    refine ⟨i, m, Nat.le_refl _, by omega, hm, rfl, hf, fun o hmem => ?_⟩
    rcases List.mem_cons.1 hmem with rfl | hmem
    · exact ⟨rfl, ⟨i, Nat.le_refl _, by omega, rfl⟩, trivial, rfl⟩
    · exact (ho o hmem).mono (by omega) (Nat.le_refl _)
  | .parenthesised _ h _ => exact h.placed.mono (by omega) (by omega)

theorem ChainAt.placed {a s least i e n j} (h : ChainAt T a s least i e n j) :
    Placed T a s i n j := by
  match h with
  | .mk h₀ h₁ => exact h₁.placed h₀.placed

theorem ClimbAt.placed {a s least h i e₀ n₀ e n j} (hc : ClimbAt T a s least i e₀ n₀ e n j)
    (hp : Placed T a s h n₀ i) : Placed T a s h n j := by
  match hc with
  | .done _ => exact hp
  | .more _ _ h₁ h₂ =>
    -- The operand that has grown ends where its right part ends, which is behind the left part.
    refine h₂.placed ?_
    obtain ⟨k₀, m₀, hk₀, hkm₀, hm₀, hs₀, _, ho₀⟩ := hp
    obtain ⟨k₁, m₁, hk₁, hkm₁, hm₁, _, hf₁, ho₁⟩ := h₁.placed
    refine ⟨k₀, m₁, hk₀, by omega, hm₁, hs₀, hf₁, fun o hmem => ?_⟩
    rcases List.mem_append.1 hmem with hmem | hmem
    · rcases List.mem_cons.1 hmem with rfl | hmem
      · exact ⟨rfl, ⟨k₀, hk₀, by omega, hs₀⟩, trivial, rfl⟩
      · exact (ho₀ o hmem).mono (Nat.le_refl _) (by omega)
    · exact (ho₁ o hmem).mono (by omega) (Nat.le_refl _)

/-- The closing parenthesis is behind all members. -/
theorem ArgumentsAt.placed {a s i es ns l j} (h : ArgumentsAt T a s i es ns l j) :
    ∃ m, i ≤ m ∧ m < j ∧ l = (T.get m).location ∧
      ∀ o ∈ occurrencesOf s ns, Within T a s i m o := by
  match h with
  | .done _ => exact ⟨i, Nat.le_refl _, Nat.lt_succ_self _, rfl, nofun⟩
  | .more h hs ht =>
    have := hs.le
    have := h.lt
    obtain ⟨_, m₀, _, _, hm₀, _, _, ho₀⟩ := h.placed
    obtain ⟨m, hm, hmj, hl, ho⟩ := ht.placed
    refine ⟨m, by omega, hmj, hl, fun o hmem => ?_⟩
    rcases List.mem_append.1 hmem with hmem | hmem
    · exact (ho₀ o hmem).mono (Nat.le_refl _) (by omega)
    · exact (ho o hmem).mono (by omega) (Nat.le_refl _)

end

end ScriptSyntax
