import Hypertext.Command.Arguments
import Hypertext.Command.Log
import Hypertext.Style.Css

/-! What the program does about an action once the style file has been looked at: a reply, or one
file to write and a reply for either outcome. -/

namespace Hypertext

inductive Reading where
  | missing
  /-- There, but not as UTF-8 text. -/
  | unreadable
  | text (t : Text)
  deriving DecidableEq, Repr

/-- What the program prints itself, and how it ends. Lines of the log are not part of it, and neither
is what a device passes on that a file name stands for. -/
structure Reply where
  /-- There is none where the program is broken off. -/
  code : Option Nat
  stdout : Text
  /-- On the error stream. -/
  notice : Text
  deriving DecidableEq, Repr

namespace Reply

def success (stdout : Text) : Reply := ⟨some 0, stdout, []⟩

def report (line : Text) : Reply := ⟨some 0, [], line ++ ['\n']⟩

def failure (line : Text) : Reply := ⟨some 1, [], line ++ ['\n']⟩

/-- What the system says then is its own. -/
def brokenOff : Reply := ⟨none, [], []⟩

end Reply

inductive Plan where
  | reply (reply : Reply)
  | write (file content : Text) (written failed : Reply)
  deriving DecidableEq, Repr

namespace Action

/-- The sheet of a style file, or the line that says why there is none. -/
def compile (path : Text) : Reading → Except Text Sheet
  | .missing => .error ("Error: file not found: ".toList ++ path)
  | .unreadable => .error ("Error reading ".toList ++ path ++ ": not a UTF-8 text file".toList)
  | .text source =>
      match Style.ofJsonText? source with
      | none => .error ("Parse error in ".toList ++ path ++ ": not a JSON style".toList)
      | some style =>
          (Sheet.ofStyle style).mapError fun error =>
            "Validation error in ".toList ++ path ++ ": ".toList ++ error.message

def countLine (happened name : Text) (sheet : Sheet) : Text :=
  happened ++ ": ".toList ++ name ++ " (".toList ++ Text.ofNat sheet.size ++ " rules)".toList

/-- What is done with the sheet, where there is memory for as many spaces in a row as `holds` says.
A build makes the whole text before it prints or writes any of it. -/
def perform (holds : Nat → Bool) (a : Action) (sheet : Sheet) : Plan :=
  match a with
  | .build _ indent output? =>
      if sheet.hasRoom holds indent then
        match output? with
        | none => .reply (.success (sheet.toCss indent))
        | some output =>
            .write output (sheet.toCss indent) (.report (countLine "Built".toList output sheet))
              (.failure ("Error writing ".toList ++ output ++ ": not a writable file".toList))
      else .reply .brokenOff
  | .rules _ => .reply (.success (sheet.toJson.pretty 0 ++ ['\n']))
  | .check path => .reply (.report (countLine "OK".toList path sheet))

def plan (holds : Nat → Bool) (a : Action) (reading : Reading) : Plan :=
  match compile a.path reading with
  | .ok sheet => a.perform holds sheet
  | .error line => .reply (.failure line)

def events (a : Action) : Reading → List Event
  | .text source =>
      .read a.path (Text.utf8Size source) ::
        match Style.ofJsonText? source with
        | none => []
        | some style => Sheet.events style
  | _ => []

end Action

namespace Program

def name : Text := "rapidhtml".toList

def version : Text := "0.7.0".toList

end Program

namespace Invocation

def usage : Text :=
  "Usage: ".toList ++ Program.name ++ " [-v]... <build|rules|check> [OPTIONS] <PATH>\n".toList

def reply? : Invocation → Option Reply
  | .run _ _ => none
  | .version => some (.success (Program.name ++ ' ' :: Program.version ++ ['\n']))
  | .help => some (.success usage)
  | .misuse => some ⟨some 2, [], usage⟩

end Invocation

end Hypertext
