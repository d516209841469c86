import ScriptSyntax.Program.Layout
import ScriptSyntax.Session
import ScriptSyntax.Text.Line
import ScriptSyntax.Text.Source

/-!
The command line. Each file named is listed as kinds of tokens, or with `--ast` printed as a
program; the first file that cannot be read or has an error is the last one looked at.
-/

namespace ScriptSyntax.CommandLine

def treeFlag : String := "--ast"

/-- The setting that holds the nesting limit. -/
def limitSetting : String := "MATHSCRIPT_MAX_DEPTH"

/-- What is written for one file, and whether to go on to the next. -/
structure Answer where
  output : String
  proceed : Bool

def statusLine (s : Status) : String := s.report ++ "\n"

/-- A text set flush right in a column. Any width is taken here, on the assumption that formatting
allows it: where it limits a width to 16 bits, a place further right in its line cannot be shown. -/
def flushRight (width : Nat) (text : String) : String :=
  String.ofList (List.replicate (width - text.length) ' ') ++ text

/-- The line a status points into, and a caret under its place. -/
def excerpt (status : Status) (source : String) : String :=
  match status.location.coordinates? with
  | none => ""
  | some (line, offset) =>
    match (Text.lines source)[line]? with
    | none => ""
    | some text =>
      let number := toString (line + 1)
      let width := number.length + 2
      flushRight width (number ++ " |") ++ " " ++ text ++ "\n" ++
        flushRight width "|" ++ " " ++ flushRight (offset + 1) "^" ++ "\n"

def listTokens (source : String) : Answer :=
  match TokenList.scan source with
  | (tokens, none) => ⟨tokens.listing, true⟩
  | (tokens, some failure) => ⟨statusLine (.ofFailure failure) ++ tokens.listing, false⟩

def showProgram (limit : Nat) (source : String) : Answer :=
  match ((Session.new limit).parseStatus source).1 with
  | (some program, _) => ⟨program.text, true⟩
  | (none, status) => ⟨statusLine status ++ excerpt status source, false⟩

/-- What is written for a file with the given content. -/
def answer (trees : Bool) (limit : Nat) (path : String) (content : Option ByteArray) : Answer :=
  match sourceText content with
  | .ok source => if trees then showProgram limit source else listTokens source
  | .error _ => ⟨"ERROR: cannot read file " ++ path ++ "\n", false⟩

def outputFor (trees : Bool) (limit : Nat) (content : String → Option ByteArray) :
    List String → String
  | [] => ""
  | path :: rest =>
    let first := answer trees limit path (content path)
    if first.proceed then first.output ++ outputFor trees limit content rest else first.output

def paths (arguments : List String) : List String := arguments.filter (· ≠ treeFlag)

/-- All that the program writes, given the content of each file and the setting of the limit. -/
def output (arguments : List String) (content : String → Option ByteArray)
    (setting : Option String) : String :=
  outputFor (arguments.contains treeFlag) (limitOf setting) content (paths arguments)

/-- Errors in the files are part of the output, and the program ends well all the same. -/
def exitCode : UInt32 := 0

end ScriptSyntax.CommandLine
