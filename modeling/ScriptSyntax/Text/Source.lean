/-!
The text of a source file. A file may be missing, or its bytes may encode no text.
-/

namespace ScriptSyntax

inductive SourceFault where
  | missing | malformed
  deriving DecidableEq

namespace SourceFault

/-- The name by which a fault is reported. -/
def name : SourceFault → String
  | missing => "NotFound"
  | malformed => "InvalidData"

end SourceFault

/-- The text of a file with the given content. -/
def sourceText (content : Option ByteArray) : Except SourceFault String :=
  match content with
  | none => .error .missing
  | some bytes =>
    match String.fromUTF8? bytes with
    | some text => .ok text
    | none => .error .malformed

end ScriptSyntax
