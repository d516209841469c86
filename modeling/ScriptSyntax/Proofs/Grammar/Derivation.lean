import ScriptSyntax.Grammar.Statement
import ScriptSyntax.Proofs.Grammar.Clause

/-!
How a list of tokens is read, as rules: what stands at slots `i` up to `j` of the list, which tree
it makes, and what it declares. The rules leave out the limit on nesting and all that goes wrong.
-/

namespace ScriptSyntax

/-- Members of a list are kept apart by commas, which may stand in front of the end as well. -/
inductive SeparatorAt (T : TokenList) : Nat → Nat → Prop
  | comma {i} : (T.get i).kind = Symbol.comma → SeparatorAt T i (i + 1)
  | last {i} : (T.get i).kind = Symbol.rightParen → SeparatorAt T i i

mutual

/-- An operand in scope `s` of the arena `a`. -/
inductive OperandAt (T : TokenList) (a : Arena) (s : ScopeId) : Nat → Phrase → Node → Nat → Prop
  | int {i v} : (T.get i).kind = .intLiteral → intLiteral? (T.get i).text = some v →
    OperandAt T a s i (.int v) (.int v (.single (T.get i).location)) (i + 1)
  | double {i v} : (T.get i).kind = .doubleLiteral → doubleLiteral? (T.get i).text = some v →
    OperandAt T a s i (.double v) (.double v (.single (T.get i).location)) (i + 1)
  | string {i} : (T.get i).kind = .stringLiteral →
    OperandAt T a s i (.string (T.get i).text)
      (.string (T.get i).text (.single (T.get i).location)) (i + 1)
  | load {i x} : (T.get i).kind = .identifier → (T.get (i + 1)).kind ≠ Symbol.leftParen →
    a.lookupVariable? s (T.get i).text = some x →
    OperandAt T a s i (.name (T.get i).text) (.load x (.single (T.get i).location)) (i + 1)
  | call {i es ns l j} : (T.get i).kind = .identifier → (T.get (i + 1)).kind = Symbol.leftParen →
    ArgumentsAt T a s (i + 2) es ns l j →
    OperandAt T a s i (.call (T.get i).text es)
      (.call (T.get i).text (a.lookupFunction? s (T.get i).text) ns ⟨(T.get i).location, l⟩) j
  | unary {i o e n j} : (T.get i).kind = o.symbol → OperandAt T a s (i + 1) e n j →
    OperandAt T a s i (.unary o e) (.unary o n ⟨(T.get i).location, n.span.finish⟩) j
  | parenthesised {i e n j} : (T.get i).kind = Symbol.leftParen → ChainAt T a s 1 (i + 1) e n j →
    (T.get j).kind = Symbol.rightParen → OperandAt T a s i e n (j + 1)

/-- Operands and operators that bind with at least the given power. -/
inductive ChainAt (T : TokenList) (a : Arena) (s : ScopeId) :
    Nat → Nat → Phrase → Node → Nat → Prop
  | mk {least i e₀ n₀ j e n k} : OperandAt T a s i e₀ n₀ j → ClimbAt T a s least j e₀ n₀ e n k →
    ChainAt T a s least i e n k

/-- How a left operand grows as long as such operators follow. -/
inductive ClimbAt (T : TokenList) (a : Arena) (s : ScopeId) :
    Nat → Nat → Phrase → Node → Phrase → Node → Nat → Prop
  | done {least i e n} : ¬ ((T.get i).kind.isBinary ∧ least ≤ (T.get i).kind.precedence) →
    ClimbAt T a s least i e n e n i
  | more {least i e₀ n₀ e₁ n₁ j e n k} {o : BinaryOperator} : (T.get i).kind = o.symbol →
    least ≤ o.precedence → ChainAt T a s (o.precedence + 1) (i + 1) e₁ n₁ j →
    ClimbAt T a s least j (.binary o e₀ e₁) (.binary o n₀ n₁ ⟨n₀.span.start, n₁.span.finish⟩)
      e n k →
    ClimbAt T a s least i e₀ n₀ e n k

/-- The members of a list up to the closing parenthesis, which stands at `l`. -/
inductive ArgumentsAt (T : TokenList) (a : Arena) (s : ScopeId) :
    Nat → List Phrase → List Node → Location → Nat → Prop
  | done {i} : (T.get i).kind = Symbol.rightParen →
    ArgumentsAt T a s i [] [] (T.get i).location (i + 1)
  | more {i e n j k es ns l m} : ChainAt T a s 1 i e n j → SeparatorAt T j k →
    ArgumentsAt T a s k es ns l m → ArgumentsAt T a s i (e :: es) (n :: ns) l m

end

/-- The types and names of parameters, up to the closing parenthesis. -/
inductive ParametersAt (T : TokenList) : Nat → List (ValueType × Token) → Nat → Prop
  | done {i} : (T.get i).kind = Symbol.rightParen → ParametersAt T i [] (i + 1)
  | more {i t j ps k} : ValueType.ofKind? (T.get i).kind = some t → t ≠ .void →
    (T.get (i + 1)).kind = .identifier → SeparatorAt T (i + 2) j → ParametersAt T j ps k →
    ParametersAt T i ((t, T.get (i + 1)) :: ps) k

/-- Declares variables in scope `q`, in order. -/
inductive DefinesAll (q : ScopeId) : Arena → List (ValueType × Token) → Arena → Prop
  | nil {a} : DefinesAll q a [] a
  | cons {a t name x b ps c} :
    a.defineVariable q ⟨t, name.text, q, name.location⟩ false = .ok (x, b) →
    DefinesAll q b ps c → DefinesAll q a ((t, name) :: ps) c

def signatureOf (returns : ValueType) (name : String) (ps : List (ValueType × Token)) : Signature :=
  ⟨returns, name, ps.map fun (type, name) => ⟨type, name.text⟩⟩

/-- A function of scope `s` without its body; its parameters belong to scope `q`. -/
def headOf (signature : Signature) (s q : ScopeId) (start : Location) : Function :=
  ⟨signature, s, q, ⟨q, [], .single start⟩, .single start⟩

/-- The declaration of a function up to its body, in scope `s`. -/
inductive HeadAt (T : TokenList) (s : ScopeId) (i : Nat) (a : Arena) :
    Signature → FunctionId → ScopeId → Nat → Arena → Prop
  | mk {t ps j q b c f d} : (T.get i).kind = Keyword.functionKw →
    ValueType.ofKind? (T.get (i + 1)).kind = some t → (T.get (i + 2)).kind = .identifier →
    (T.get (i + 3)).kind = Symbol.leftParen → ParametersAt T (i + 4) ps j →
    a.pushScope (some s) = (q, b) → DefinesAll q b ps c →
    c.defineFunction s
      (headOf (signatureOf t (T.get (i + 2)).text ps) s q (T.get i).location) false = .ok (f, d) →
    HeadAt T s i a (signatureOf t (T.get (i + 2)).text ps) f q j d

/-- The one block of a function that calls out. -/
def nativeBlock (signature : Signature) (target : String) (r : ScopeId) (span : Span) : Block :=
  ⟨r, [.nativeCall signature target span], span⟩

mutual

/-- A statement in scope `s`, or a function declared there, which makes no tree. -/
inductive StatementAt (T : TokenList) :
    ScopeId → Nat → Arena → Clause → Option Node → Nat → Arena → Prop
  | expression {s i a e n j} : ¬ (T.get i).kind.isKeyword →
    ¬ ((T.get i).kind = .identifier ∧ (T.get (i + 1)).kind.isAssignment) →
    ChainAt T a s 1 i e n j → (T.get j).kind = Symbol.semicolon →
    StatementAt T s i a (.expression e) (some n) (j + 1) a
  | declare {s i a t e n j x b} : ValueType.ofKind? (T.get i).kind = some t → t ≠ .void →
    (T.get (i + 1)).kind = .identifier → (T.get (i + 2)).kind = Symbol.assign →
    ChainAt T a s 1 (i + 3) e n j →
    a.defineVariable s ⟨t, (T.get (i + 1)).text, s, (T.get (i + 1)).location⟩ false = .ok (x, b) →
    (T.get j).kind = Symbol.semicolon →
    StatementAt T s i a (.declare t (T.get (i + 1)).text e)
      (some (.declare x n ⟨(T.get i).location, n.span.finish⟩)) (j + 1) b
  | assign {s i a x o e n j} : (T.get i).kind = .identifier →
    a.lookupVariable? s (T.get i).text = some x →
    (T.get (i + 1)).kind = AssignOperator.symbol o → ChainAt T a s 1 (i + 2) e n j →
    (T.get j).kind = Symbol.semicolon →
    StatementAt T s i a (.assign (T.get i).text o e)
      (some (.assign x o n ⟨(T.get i).location, n.span.finish⟩)) (j + 1) a
  | print {s i a es ns l j} : (T.get i).kind = Keyword.printKw →
    (T.get (i + 1)).kind = Symbol.leftParen → ArgumentsAt T a s (i + 2) es ns l j →
    (T.get j).kind = Symbol.semicolon →
    StatementAt T s i a (.print es) (some (.print ns ⟨(T.get i).location, l⟩)) (j + 1) a
  | giveBackNothing {s i a} : (T.get i).kind = Keyword.returnKw →
    (T.get (i + 1)).kind = Symbol.semicolon →
    StatementAt T s i a (.giveBack none) (some (.giveBack none (.single (T.get i).location)))
      (i + 2) a
  | giveBack {s i a e n j} : (T.get i).kind = Keyword.returnKw →
    ChainAt T a s 1 (i + 1) e n j → (T.get j).kind = Symbol.semicolon →
    StatementAt T s i a (.giveBack (some e))
      (some (.giveBack (some n) ⟨(T.get i).location, n.span.finish⟩)) (j + 1) a
  | block {s i a cs block j b} : BlockAt T s i a cs block j b →
    StatementAt T s i a (.block cs) (some (.block block)) j b
  | branch {s i a e n j cs block k b} : (T.get i).kind = Keyword.ifKw →
    (T.get (i + 1)).kind = Symbol.leftParen → ChainAt T a s 1 (i + 2) e n j →
    (T.get j).kind = Symbol.rightParen → BlockAt T s (j + 1) a cs block k b →
    (T.get k).kind ≠ Keyword.elseKw →
    StatementAt T s i a (.branch e cs none)
      (some (.branch n block none ⟨(T.get i).location, block.span.finish⟩)) k b
  | branchElse {s i a e n j cs block k b cs' block' m c} : (T.get i).kind = Keyword.ifKw →
    (T.get (i + 1)).kind = Symbol.leftParen → ChainAt T a s 1 (i + 2) e n j →
    (T.get j).kind = Symbol.rightParen → BlockAt T s (j + 1) a cs block k b →
    (T.get k).kind = Keyword.elseKw → BlockAt T s (k + 1) b cs' block' m c →
    StatementAt T s i a (.branch e cs (some cs'))
      (some (.branch n block (some block') ⟨(T.get i).location, block'.span.finish⟩)) m c
  | whileLoop {s i a e n j cs block k b} : (T.get i).kind = Keyword.whileKw →
    (T.get (i + 1)).kind = Symbol.leftParen → ChainAt T a s 1 (i + 2) e n j →
    (T.get j).kind = Symbol.rightParen → BlockAt T s (j + 1) a cs block k b →
    StatementAt T s i a (.whileLoop e cs)
      (some (.whileLoop n block ⟨(T.get i).location, block.span.finish⟩)) k b
  | forLoop {s i a x e n j cs block k b} : (T.get i).kind = Keyword.forKw →
    (T.get (i + 1)).kind = Symbol.leftParen → (T.get (i + 2)).kind = .identifier →
    a.lookupVariable? s (T.get (i + 2)).text = some x → (T.get (i + 3)).kind = Keyword.inKw →
    ChainAt T a s 1 (i + 4) e n j → (T.get j).kind = Symbol.rightParen →
    BlockAt T s (j + 1) a cs block k b →
    StatementAt T s i a (.forLoop (T.get (i + 2)).text e cs)
      (some (.forLoop x n block ⟨(T.get i).location, block.span.finish⟩)) k b
  | function {s i a signature f q j b cs block k c} : HeadAt T s i a signature f q j b →
    BlockAt T q j b cs block k c →
    StatementAt T s i a (.function signature cs) none k
      (c.setBody f block ⟨(T.get i).location, block.span.finish⟩)
  | native {s i a g f q j b r c} : HeadAt T s i a g f q j b →
    (T.get j).kind = Keyword.nativeKw → (T.get (j + 1)).kind = .stringLiteral →
    (T.get (j + 2)).kind = Symbol.semicolon → b.pushScope (some q) = (r, c) →
    StatementAt T s i a (.native g (T.get (j + 1)).text) none (j + 3)
      (c.setBody f (nativeBlock g (T.get (j + 1)).text r
          ⟨(T.get j).location, (T.get (j + 2)).location⟩)
        ⟨(T.get i).location, (T.get (j + 2)).location⟩)

/-- Statements one after another; semicolons may stand between them. -/
inductive ItemsAt (T : TokenList) :
    ScopeId → Nat → Arena → List Clause → List Node → Nat → Arena → Prop
  | nil {s i a} : ItemsAt T s i a [] [] i a
  | semicolon {s i a cs ns j b} : (T.get i).kind = Symbol.semicolon →
    ItemsAt T s (i + 1) a cs ns j b → ItemsAt T s i a cs ns j b
  | cons {s i a c n j b cs ns k d} : StatementAt T s i a c n j b → ItemsAt T s j b cs ns k d →
    ItemsAt T s i a (c :: cs) (n.toList ++ ns) k d

/-- Statements in braces, in a new scope inside `s`. -/
inductive BlockAt (T : TokenList) :
    ScopeId → Nat → Arena → List Clause → Block → Nat → Arena → Prop
  | mk {s i a q b cs ns j c} : (T.get i).kind = Symbol.leftBrace →
    a.pushScope (some s) = (q, b) → ItemsAt T q (i + 1) b cs ns j c →
    (T.get j).kind = Symbol.rightBrace →
    BlockAt T s i a cs ⟨q, ns, ⟨(T.get i).location, (T.get j).location⟩⟩ (j + 1) c

end

/-- The program of statements that end in slot `j` and leave the arena `b`. -/
def programOf (T : TokenList) (ns : List Node) (j : Nat) (b : Arena) : Program :=
  let span : Span := ⟨(T.get 0).location, (T.get j).location⟩
  let top : Function :=
    ⟨⟨.void, Program.topName, []⟩, Arena.root, Arena.root, ⟨Arena.root, ns, span⟩, span⟩
  ⟨(b.addFunction top).2, (b.addFunction top).1, Arena.root⟩

/-- A whole text. -/
inductive ProgramAt (T : TokenList) : List Clause → Program → Prop
  | mk {cs ns j b} : ItemsAt T Arena.root 0 .fresh cs ns j b → (T.get j).kind = .endOfInput →
    ProgramAt T cs (programOf T ns j b)

end ScriptSyntax
