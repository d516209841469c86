/-!
A text as the list of the bytes that encode it, and back, and the classes of bytes that tokens are
made of. A byte of a longer character is in none of the classes.
-/

namespace ScriptSyntax.Text

def bytes (text : String) : List UInt8 := text.toByteArray.data.toList

/-- The text that some bytes encode; empty if they encode none. -/
def ofBytes (bytes : List UInt8) : String := (String.fromUTF8? ⟨bytes.toArray⟩).getD ""

def isBlank (b : UInt8) : Bool :=
  b = ' '.toUInt8 || b = '\t'.toUInt8 || b = '\r'.toUInt8 || b = '\n'.toUInt8

def isDigit (b : UInt8) : Bool := '0'.toUInt8 ≤ b && b ≤ '9'.toUInt8

def isWordStart (b : UInt8) : Bool :=
  'a'.toUInt8 ≤ b && b ≤ 'z'.toUInt8 || 'A'.toUInt8 ≤ b && b ≤ 'Z'.toUInt8 || b = '_'.toUInt8

def isWordByte (b : UInt8) : Bool := isWordStart b || isDigit b

theorem ofBytes_bytes (text : String) : ofBytes (bytes text) = text := by
  simp only [ofBytes, bytes, String.fromUTF8?, Array.toArray_toList, text.isValidUTF8,
    ↓reduceDIte, Option.getD_some]
  rfl

theorem bytes_append (a b : String) : bytes (a ++ b) = bytes a ++ bytes b := by
  simp [bytes, String.toByteArray_append]

theorem bytes_injective {a b : String} (h : bytes a = bytes b) : a = b := by
  rw [← ofBytes_bytes a, h, ofBytes_bytes]

end ScriptSyntax.Text
