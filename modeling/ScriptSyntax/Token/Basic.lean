import ScriptSyntax.Position
import ScriptSyntax.Token.Kind

/-!
Tokens, and lists of them that can be read at any index: the slot behind the last token holds the
end of the input, and every slot behind that is undefined.
-/

namespace ScriptSyntax

structure Token where
  kind : TokenKind
  text : String
  location : Location
  deriving DecidableEq

namespace Token

/-- The token of a kind that has only one text. -/
def ofKind (kind : TokenKind) (location : Location) : Token := ⟨kind, kind.text, location⟩

instance : Inhabited Token := ⟨ofKind .undefined .unknown⟩

/-- How a token is named in a message: by its text, or by its kind if it has none. -/
def display (t : Token) : String := if t.text = "" then t.kind.name else t.text

end Token

/-- The tokens of a text, and the place where the text ends. -/
structure TokenList where
  tokens : Array Token := #[]
  finish : Location := .unknown
  deriving DecidableEq, Inhabited

namespace TokenList

def size (l : TokenList) : Nat := l.tokens.size

def toList (l : TokenList) : List Token := l.tokens.toList

def isEmpty (l : TokenList) : Bool := l.tokens.isEmpty

def push (l : TokenList) (t : Token) : TokenList := { l with tokens := l.tokens.push t }

def setFinish (l : TokenList) (finish : Location) : TokenList := { l with finish }

/-- Without tokens, and with no known end. -/
def clear (l : TokenList) : TokenList := { l with tokens := #[], finish := .unknown }

/-- The token in slot `i`. -/
def get (l : TokenList) (i : Nat) : Token :=
  match l.tokens[i]? with
  | some t => t
  | none => .ofKind (if i = l.size then .endOfInput else .undefined)
      (if i = l.size then l.finish else .unknown)

/-- The names of the kinds, one a line. -/
def listing (l : TokenList) : String :=
  l.toList.foldl (fun text t => text ++ t.kind.name ++ "\n") ""

theorem getElem?_eq_get {l : TokenList} {i : Nat} (h : i < l.size) :
    l.tokens[i]? = some (l.get i) := by
  simp [get, Array.getElem?_eq_getElem h]

theorem get_size (l : TokenList) : l.get l.size = .ofKind .endOfInput l.finish := by
  simp [get, size]

theorem get_of_size_lt {l : TokenList} {i : Nat} (h : l.size < i) :
    l.get i = .ofKind .undefined .unknown := by
  have hne : i ≠ l.size := by omega
  have hnone : l.tokens[i]? = none := Array.getElem?_eq_none (by simp only [size] at h; omega)
  simp [get, hnone, hne]

end TokenList

end ScriptSyntax
