/-!
The vocabulary: punctuation, keywords and the kinds of token, with their texts, their names in a
token listing and the binding power of operators.
-/

namespace ScriptSyntax

inductive Symbol where
  | logicalOr | logicalAnd | equal | notEqual | atLeast | atMost | range | increase | decrease
  | leftParen | rightParen | leftBrace | rightBrace
  | assign | bitOr | bitAnd | bitXor | not | greater | less
  | plus | minus | times | divide | modulo | comma | semicolon
  deriving DecidableEq

namespace Symbol

/-- Every symbol, longer texts first, so that the first match is a longest one. -/
def all : List Symbol :=
  [logicalOr, logicalAnd, equal, notEqual, atLeast, atMost, range, increase, decrease,
    leftParen, rightParen, leftBrace, rightBrace,
    assign, bitOr, bitAnd, bitXor, not, greater, less,
    plus, minus, times, divide, modulo, comma, semicolon]

def text : Symbol → String
  | logicalOr => "||"
  | logicalAnd => "&&"
  | equal => "=="
  | notEqual => "!="
  | atLeast => ">="
  | atMost => "<="
  | range => ".."
  | increase => "+="
  | decrease => "-="
  | leftParen => "("
  | rightParen => ")"
  | leftBrace => "\x7b"
  | rightBrace => "\x7d"
  | assign => "="
  | bitOr => "|"
  | bitAnd => "&"
  | bitXor => "^"
  | not => "!"
  | greater => ">"
  | less => "<"
  | plus => "+"
  | minus => "-"
  | times => "*"
  | divide => "/"
  | modulo => "%"
  | comma => ","
  | semicolon => ";"

def name : Symbol → String
  | logicalOr => "lor"
  | logicalAnd => "land"
  | equal => "eq"
  | notEqual => "neq"
  | atLeast => "ge"
  | atMost => "le"
  | range => "range"
  | increase => "incrset"
  | decrease => "decrset"
  | leftParen => "lparen"
  | rightParen => "rparen"
  | leftBrace => "lbrace"
  | rightBrace => "rbrace"
  | assign => "assign"
  | bitOr => "aor"
  | bitAnd => "aand"
  | bitXor => "axor"
  | not => "lnot"
  | greater => "gt"
  | less => "lt"
  | plus => "add"
  | minus => "sub"
  | times => "mul"
  | divide => "div"
  | modulo => "mod"
  | comma => "comma"
  | semicolon => "semi"

/-- How tightly an operator binds; zero for what is no operator between operands. -/
def precedence : Symbol → Nat
  | assign => 2
  | logicalOr | bitOr => 4
  | logicalAnd | bitAnd | bitXor => 5
  | equal | notEqual | range => 9
  | atLeast | atMost | greater | less => 10
  | plus | minus => 12
  | times | divide | modulo => 13
  | increase | decrease => 14
  | leftParen | rightParen | leftBrace | rightBrace | not | comma | semicolon => 0

theorem mem_all (s : Symbol) : s ∈ all := by cases s <;> decide

theorem text_ne_empty (s : Symbol) : s.text ≠ "" := by cases s <;> decide

end Symbol

inductive Keyword where
  | doubleKw | intKw | stringKw | voidKw
  | forKw | whileKw | ifKw | elseKw | inKw | printKw | functionKw | nativeKw | returnKw
  deriving DecidableEq

namespace Keyword

def all : List Keyword :=
  [doubleKw, intKw, stringKw, voidKw,
    forKw, whileKw, ifKw, elseKw, inKw, printKw, functionKw, nativeKw, returnKw]

def text : Keyword → String
  | doubleKw => "double"
  | intKw => "int"
  | stringKw => "string"
  | voidKw => "void"
  | forKw => "for"
  | whileKw => "while"
  | ifKw => "if"
  | elseKw => "else"
  | inKw => "in"
  | printKw => "print"
  | functionKw => "function"
  | nativeKw => "native"
  | returnKw => "return"

def name : Keyword → String
  | doubleKw => "double_t"
  | intKw => "int_t"
  | stringKw => "string_t"
  | voidKw => "void_t"
  | forKw => "for_kw"
  | whileKw => "while_kw"
  | ifKw => "if_kw"
  | elseKw => "else_kw"
  | inKw => "in_kw"
  | printKw => "print_kw"
  | functionKw => "function_kw"
  | nativeKw => "native_kw"
  | returnKw => "return_kw"

def isTypeName : Keyword → Bool
  | doubleKw | intKw | stringKw | voidKw => true
  | _ => false

def ofText? (text : String) : Option Keyword := all.find? (·.text = text)

theorem mem_all (k : Keyword) : k ∈ all := by cases k <;> decide

theorem ofText?_text (k : Keyword) : ofText? k.text = some k := by cases k <;> decide

end Keyword

inductive TokenKind where
  | undefined
  | endOfInput
  | identifier
  | doubleLiteral
  | intLiteral
  | stringLiteral
  | symbol (s : Symbol)
  | keyword (k : Keyword)
  deriving DecidableEq, Inhabited

namespace TokenKind

instance : Coe Symbol TokenKind := ⟨symbol⟩

instance : Coe Keyword TokenKind := ⟨keyword⟩

def all : List TokenKind :=
  [undefined, endOfInput, identifier, doubleLiteral, intLiteral, stringLiteral]
    ++ Symbol.all.map symbol ++ Keyword.all.map keyword

/-- The one text of a symbol or keyword; other kinds have their text on the token. -/
def text : TokenKind → String
  | symbol s => s.text
  | keyword k => k.text
  | _ => ""

def name : TokenKind → String
  | undefined => "undef"
  | endOfInput => "eof"
  | identifier => "ident"
  | doubleLiteral => "double_l"
  | intLiteral => "int_l"
  | stringLiteral => "string_l"
  | symbol s => s.name
  | keyword k => k.name

def precedence : TokenKind → Nat
  | symbol s => s.precedence
  | _ => 0

def isKeyword : TokenKind → Bool
  | keyword _ => true
  | _ => false

def isTypeName : TokenKind → Bool
  | keyword k => k.isTypeName
  | _ => false

def isAssignment : TokenKind → Bool
  | symbol .assign | symbol .increase | symbol .decrease => true
  | _ => false

/-- Operators that may stand between two operands. -/
def isBinary (k : TokenKind) : Bool := 0 < k.precedence && !k.isAssignment

def isUnary : TokenKind → Bool
  | symbol .not | symbol .minus => true
  | _ => false

/-- The symbol or keyword written as `text`; any other text is undefined. -/
def ofText (text : String) : TokenKind :=
  match Symbol.all.find? (·.text = text), Keyword.ofText? text with
  | some s, _ => symbol s
  | none, some k => keyword k
  | none, none => undefined

def ofName? (name : String) : Option TokenKind := all.find? (·.name = name)

theorem ofText_symbol (s : Symbol) : ofText s.text = s := by cases s <;> decide

theorem ofText_keyword (k : Keyword) : ofText k.text = k := by cases k <;> decide

end TokenKind

end ScriptSyntax
