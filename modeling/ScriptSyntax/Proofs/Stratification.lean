import ScriptSyntax.Proofs.Declarations
import ScriptSyntax.Proofs.Token.Lexical

/-!
The layers of a tree that is read: values are made of values only, and statements stand directly in
blocks. To call out is all that a body does which does not hold statements. Names are words and no
keywords.
-/

namespace ScriptSyntax

open Arena

/-- A word that is no keyword. -/
def IsName (name : String) : Prop := Lexeme.IsWord name ∧ ∀ k : Keyword, k.text ≠ name

/-- The symbols that a tree may hold between two operands. -/
def binarySymbols : List Symbol :=
  [.logicalOr, .logicalAnd, .equal, .notEqual, .atLeast, .atMost, .bitOr, .bitAnd, .bitXor,
    .greater, .less, .plus, .minus, .times, .divide, .modulo]

/-- A tree that has a value and is made of such trees only. Its operators stand in the text. -/
inductive IsValue (T : TokenList) : Node → Prop
  | int {v s} : 0 ≤ v → IsValue T (.int v s)
  | double {v s} : IsValue T (.double v s)
  | string {v s} : IsValue T (.string v s)
  | load {x s} : IsValue T (.load x s)
  | unary {o n s k} : o.symbol = .not ∨ o.symbol = .minus → s.start = (T.get k).location →
    (T.get k).kind = o.symbol → IsValue T n → IsValue T (.unary o n s)
  | binary {o l r s i k j} : o.symbol ∈ binarySymbols → i < k → k < j →
    l.span.finish = (T.get i).location → (T.get k).kind = o.symbol →
    r.span.start = (T.get j).location → IsValue T l → IsValue T r → IsValue T (.binary o l r s)
  | call {name f ns s} : IsName name → (∀ n ∈ ns, IsValue T n) → IsValue T (.call name f ns s)

mutual

/-- A tree that may stand directly in a block. What declares a variable stands in the text as a
type, a name and the mark of an assignment. -/
inductive IsStatement (T : TokenList) : Node → Prop
  | value {n} : IsValue T n → IsStatement T n
  | declare {x v s k} : s.start = (T.get k).location → (T.get k).kind.isTypeName →
    (T.get (k + 1)).kind = .identifier → (T.get (k + 2)).kind = Symbol.assign → IsValue T v →
    IsStatement T (.declare x v s)
  | assign {x o v s} : IsValue T v → IsStatement T (.assign x o v s)
  | print {ns s} : (∀ n ∈ ns, IsValue T n) → IsStatement T (.print ns s)
  | giveBackNothing {s} : IsStatement T (.giveBack none s)
  | giveBack {v s} : IsValue T v → IsStatement T (.giveBack (some v) s)
  | block {b} : IsLayered T b → IsStatement T (.block b)
  | branch {v b s} : IsValue T v → IsLayered T b → IsStatement T (.branch v b none s)
  | branchElse {v b b' s} : IsValue T v → IsLayered T b → IsLayered T b' →
    IsStatement T (.branch v b (some b') s)
  | whileLoop {v b s} : IsValue T v → IsLayered T b → IsStatement T (.whileLoop v b s)
  | forLoop {x v b s} : IsValue T v → IsLayered T b → IsStatement T (.forLoop x v b s)

/-- A block of statements. -/
inductive IsLayered (T : TokenList) : Block → Prop
  | mk {q ns s} : (∀ n ∈ ns, IsStatement T n) → IsLayered T ⟨q, ns, s⟩

end

/-- A body that only calls out, under the signature of its function. -/
def Function.CallsOut (f : Function) : Prop :=
  ∃ target span, f.body.body = [.nativeCall f.signature target span]

/-- The names in a signature. -/
def Signature.Named (g : Signature) : Prop := IsName g.name ∧ ∀ q ∈ g.parameters, IsName q.name

/-- Every variable has a name. -/
def Arena.Named (a : Arena) : Prop := ∀ x ∈ a.declaredVariables, IsName x.name

variable {T : TokenList}

theorem UnaryOperator.symbol_cases (o : UnaryOperator) : o.symbol = .not ∨ o.symbol = .minus := by
  cases o with
  | not => exact .inl rfl
  | negate => exact .inr rfl

theorem BinaryOperator.symbol_mem (o : BinaryOperator) : o.symbol ∈ binarySymbols := by
  cases o <;> decide

/-- The text of an identifier is a name. -/
theorem TokenList.Lexical.isName (hT : T.Lexical) {i : Nat}
    (hk : (T.get i).kind = .identifier) : IsName (T.get i).text := by
  have hlexical := hT i (TokenList.lt_size_of_kind hk (by decide))
  rw [Token.Lexical, hk] at hlexical
  obtain ⟨hword, hno⟩ := hlexical
  refine ⟨hword, fun k hk => ?_⟩
  rw [← hk, Keyword.ofText?_text] at hno
  contradiction

section Values

mutual

theorem OperandAt.isValue {a s i e n j} (h : OperandAt T a s i e n j) (hT : T.Lexical) :
    IsValue T n := by
  match h with
  | .int _ hv => exact .int (intLiteral?_bounds hv).1
  | .double _ _ => exact .double
  | .string _ => exact .string
  | .load _ _ _ => exact .load
  | .call hk _ h => exact .call (hT.isName hk) (h.areValues hT)
  | .unary (o := o) hk h => exact .unary o.symbol_cases rfl hk (h.isValue hT)
  | .parenthesised _ h _ => exact h.isValue hT

theorem ChainAt.isValue {a s least i e n j} (h : ChainAt T a s least i e n j) (hT : T.Lexical) :
    IsValue T n := by
  match h with
  | .mk h₀ h =>
    obtain ⟨_, m, _, _, hm, _, hf, _⟩ := h₀.placed
    exact h.isValue hT hm hf (h₀.isValue hT)

/-- The operand that grows ends in front of the next operator. -/
theorem ClimbAt.isValue {a s least i e₀ n₀ e n j m} (h : ClimbAt T a s least i e₀ n₀ e n j)
    (hT : T.Lexical) (hm : m < i) (hf : n₀.span.finish = (T.get m).location)
    (hv : IsValue T n₀) : IsValue T n := by
  match h with
  | .done _ => exact hv
  | .more (o := o) hk _ h₁ h₂ =>
    obtain ⟨k₁, m₁, hk₁, _, hm₁, hs₁, hf₁, _⟩ := h₁.placed
    have hright := h₁.isValue hT
    exact h₂.isValue hT hm₁ hf₁ (.binary o.symbol_mem hm hk₁ hf hk hs₁ hv hright)

theorem ArgumentsAt.areValues {a s i es ns l j} (h : ArgumentsAt T a s i es ns l j)
    (hT : T.Lexical) : ∀ n ∈ ns, IsValue T n := by
  match h with
  | .done _ => exact fun _ h => absurd h List.not_mem_nil
  | .more h _ ht => exact List.forall_mem_cons.2 ⟨h.isValue hT, ht.areValues hT⟩

end

end Values

section Names

variable {a b : Arena} {s q : ScopeId}

theorem ParametersAt.named {i ps j} (h : ParametersAt T i ps j) (hT : T.Lexical) :
    ∀ p ∈ ps, IsName p.2.text := by
  induction h with
  | done _ => exact fun _ h => absurd h List.not_mem_nil
  | more _ _ hk _ _ ih => exact List.forall_mem_cons.2 ⟨hT.isName hk, ih⟩

theorem Arena.Named.defineVariable {x : Variable} {v : VariableId} {replace : Bool}
    (h : a.Named) (hx : IsName x.name) (hd : a.defineVariable s x replace = .ok (v, b)) :
    b.Named := by
  obtain ⟨-, -, rfl⟩ := defineVariable_ok.1 hd
  intro y hy
  rcases Array.mem_push.1 hy with hy | rfl
  · exact h y hy
  · exact hx

theorem Arena.Named.pushScope {o : Option ScopeId} (h : a.Named)
    (hp : a.pushScope o = (q, b)) : b.Named := by
  cases o <;> cases hp <;> exact h

theorem DefinesAll.named {ps} (h : DefinesAll q a ps b) (hps : ∀ p ∈ ps, IsName p.2.text)
    (ha : a.Named) : b.Named := by
  induction h with
  | nil => exact ha
  | cons hd _ ih =>
    obtain ⟨hp, hps⟩ := List.forall_mem_cons.1 hps
    exact ih hps (ha.defineVariable hp hd)

/-- A signature is written in names, and so are the parameters declared. -/
theorem HeadAt.named {i g f j} (h : HeadAt T s i a g f q j b) (hT : T.Lexical) :
    g.Named ∧ (a.Named → b.Named) := by
  cases h with
  | mk _ _ hk _ hps hp hdefines hd =>
    have hnamed := hps.named hT
    refine ⟨⟨hT.isName hk, fun q hq => ?_⟩, fun ha => ?_⟩
    · obtain ⟨p, hmem, rfl⟩ := List.mem_map.1 hq
      exact hnamed p hmem
    · obtain ⟨-, -, rfl⟩ := defineFunction_ok.1 hd
      exact hdefines.named hnamed (ha.pushScope hp)

mutual

theorem StatementAt.named {s i a cl o j b} (h : StatementAt T s i a cl o j b) (hT : T.Lexical)
    (ha : a.Named) : b.Named := by
  match h with
  | .expression _ _ _ _ | .assign _ _ _ _ _ | .print _ _ _ _ | .giveBackNothing _ _
  | .giveBack _ _ _ => exact ha
  | .declare _ _ hk _ _ hd _ => exact ha.defineVariable (hT.isName hk) hd
  | .block hb | .branch _ _ _ _ hb _ | .whileLoop _ _ _ _ hb | .forLoop _ _ _ _ _ _ _ hb =>
    exact hb.named hT ha
  | .branchElse _ _ _ _ hb _ hb' => exact hb'.named hT (hb.named hT ha)
  | .function hh hb => exact hb.named hT ((hh.named hT).2 ha)
  | .native hh _ _ _ hp =>
    have hpushed := ((hh.named hT).2 ha).pushScope hp
    exact hpushed

theorem ItemsAt.named {s i a cs ns j b} (h : ItemsAt T s i a cs ns j b) (hT : T.Lexical)
    (ha : a.Named) : b.Named := by
  match h with
  | .nil => exact ha
  | .semicolon _ h => exact h.named hT ha
  | .cons h ht => exact ht.named hT (h.named hT ha)

theorem BlockAt.named {s i a cs block j b} (h : BlockAt T s i a cs block j b) (hT : T.Lexical)
    (ha : a.Named) : b.Named := by
  match h with
  | .mk _ hp h _ => exact h.named hT (ha.pushScope hp)

end

end Names

section Statements

mutual

theorem StatementAt.isStatement {s i a cl o j b} (h : StatementAt T s i a cl o j b)
    (hT : T.Lexical) : ∀ n ∈ o.toList, IsStatement T n := by
  match h with
  | .expression _ _ h _ => exact List.forall_mem_singleton.2 (.value (h.isValue hT))
  | .declare ht _ hk hm h _ _ =>
    have htype : (T.get i).kind.isTypeName := by rw [← ValueType.isSome_ofKind?, ht]; rfl
    exact List.forall_mem_singleton.2 (.declare rfl htype hk hm (h.isValue hT))
  | .assign _ _ _ h _ => exact List.forall_mem_singleton.2 (.assign (h.isValue hT))
  | .print _ _ h _ => exact List.forall_mem_singleton.2 (.print (h.areValues hT))
  | .giveBackNothing _ _ => exact List.forall_mem_singleton.2 .giveBackNothing
  | .giveBack _ h _ => exact List.forall_mem_singleton.2 (.giveBack (h.isValue hT))
  | .block hb => exact List.forall_mem_singleton.2 (.block (hb.isLayered hT))
  | .branch _ _ h _ hb _ =>
    exact List.forall_mem_singleton.2 (.branch (h.isValue hT) (hb.isLayered hT))
  | .branchElse _ _ h _ hb _ hb' =>
    exact List.forall_mem_singleton.2
      (.branchElse (h.isValue hT) (hb.isLayered hT) (hb'.isLayered hT))
  | .whileLoop _ _ h _ hb =>
    exact List.forall_mem_singleton.2 (.whileLoop (h.isValue hT) (hb.isLayered hT))
  | .forLoop _ _ _ _ _ h _ hb =>
    exact List.forall_mem_singleton.2 (.forLoop (h.isValue hT) (hb.isLayered hT))
  | .function _ _ | .native _ _ _ _ _ => exact fun _ h => absurd h List.not_mem_nil

theorem ItemsAt.areStatements {s i a cs ns j b} (h : ItemsAt T s i a cs ns j b)
    (hT : T.Lexical) : ∀ n ∈ ns, IsStatement T n := by
  match h with
  | .nil => exact fun _ h => absurd h List.not_mem_nil
  | .semicolon _ h => exact h.areStatements hT
  | .cons h ht => exact List.forall_mem_append.2 ⟨h.isStatement hT, ht.areStatements hT⟩

theorem BlockAt.isLayered {s i a cs block j b} (h : BlockAt T s i a cs block j b)
    (hT : T.Lexical) : IsLayered T block := by
  match h with
  | .mk _ _ h _ => exact .mk (h.areStatements hT)

end

theorem BodyAt.layered {g q i a block j b} (h : BodyAt T g q i a block j b) (hT : T.Lexical) :
    IsLayered T block ∨ ∃ target span, block.body = [.nativeCall g target span] := by
  cases h with
  | block hb => exact .inl (hb.isLayered hT)
  | native => exact .inr ⟨_, _, rfl⟩

end Statements

theorem isName_topName : IsName Program.topName := by
  refine ⟨⟨by decide, by decide +kernel, by decide +kernel⟩, fun k => ?_⟩
  cases k <;> decide

/-- In a program conditions, ranges, operands, arguments and all values stored, printed or given
back are values, made of values only, and statements stand directly in the blocks of the top level
and of the functions. A body that is no block of statements calls out and does nothing else. All
that is declared or called has a name, and operators and declarations stand in the text. -/
theorem trees_stratified {limit : Nat} {source : String} {p : Program}
    (h : parse limit source = .ok p) : ∃ T, tokenize source = .ok T ∧
      IsLayered T p.topLevel.body ∧
      (∀ f ∈ p.functions, IsLayered T f.body ∨ f.CallsOut) ∧
      (∀ x ∈ p.arena.declaredVariables, IsName x.name) ∧
      ∀ f ∈ p.arena.declaredFunctions, f.signature.Named := by
  obtain ⟨T, cs, hscan, hp⟩ := Parser.programAt_of_parse h
  have hT : T.Lexical := TokenList.lexical_of_tokenize hscan
  obtain ⟨ns, j, b, rfl, hitems⟩ : ∃ ns j b, p = programOf T ns j b ∧
      ItemsAt T root 0 .fresh cs ns j b := by
    cases hp with
    | mk hitems _ => exact ⟨_, _, _, rfl, hitems⟩
  obtain ⟨L, hpassage, hsites⟩ := hitems.passage .fresh (by decide)
  have hstands : ∀ f ∈ (programOf T ns j b).functions, f.StandsIn T := by
    intro f hf
    have hsite : Site.function f ∈ (programOf T ns j b).sites :=
      List.mem_append_right _ (List.mem_map_of_mem hf)
    exact (hpassage.functions .fresh (by decide) f (hsites.program.mem_iff.1 hsite)).standsIn
  refine ⟨T, hscan, ?_, fun f hf => ?_, fun x hx => ?_, fun f hf => ?_⟩
  · rw [topLevel_programOf]
    exact .mk (hitems.areStatements hT)
  · obtain ⟨i, a, x, l, d, k, c, -, hbody, -⟩ := hstands f hf
    exact hbody.layered hT
  · exact hitems.named hT (fun x hx => absurd hx (Array.not_mem_empty x)) x hx
  · rw [declaredFunctions_programOf] at hf
    rcases Array.mem_push.1 hf with hf | rfl
    · rw [← Array.mem_toList_iff, ← functions_programOf] at hf
      obtain ⟨i, a, x, l, d, k, c, hhead, -, -⟩ := hstands f hf
      exact (hhead.named hT).1
    · exact ⟨isName_topName, fun _ h => absurd h List.not_mem_nil⟩

/-- A function with a block, one that calls out, and a variable with a value of every depth. -/
theorem trees_stratified_native :
    ∃ T p, tokenize
        "function int f(int x) \x7b return !x; \x7d function void g() native 'h'; int a = -1 + f(2);" =
          .ok T ∧ parse 8
        "function int f(int x) \x7b return !x; \x7d function void g() native 'h'; int a = -1 + f(2);" =
          .ok p ∧ p.topLevel.body.body.length = 1 ∧ IsLayered T p.topLevel.body ∧
      p.functions.map (·.signature.name) = ["f", "g"] ∧
      (∀ f ∈ p.functions, IsLayered T f.body ∨ f.CallsOut) ∧
      p.arena.declaredVariables.size = 2 ∧ (∀ x ∈ p.arena.declaredVariables, IsName x.name) := by
  have h : (match parse 8
        "function int f(int x) \x7b return !x; \x7d function void g() native 'h'; int a = -1 + f(2);"
      with
      | .ok p => decide (p.topLevel.body.body.length = 1 ∧
          p.functions.map (·.signature.name) = ["f", "g"] ∧ p.arena.declaredVariables.size = 2)
      | .error _ => false) = true := by decide +kernel
  split at h
  · next p hp =>
    obtain ⟨hbody, hfunctions, hvariables⟩ := of_decide_eq_true h
    obtain ⟨T, hscan, htop, hall, hnamed, -⟩ := trees_stratified hp
    exact ⟨T, p, hscan, hp, hbody, htop, hfunctions, hall, hvariables, hnamed⟩
  · contradiction

end ScriptSyntax
