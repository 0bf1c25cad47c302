import Hypertext.Command.FileSystem

/-! The command line program. -/

namespace Hypertext

def readStyleFile (path : Text) : IO Reading := do
  try
    let bytes ← IO.FS.readBinFile (String.ofList path)
    match String.fromUTF8? bytes with
    | some source => return .text source.toList
    | none => return .unreadable
  catch
    | .noFileOrDirectory .. => return .missing
    -- a step on the way there is not a folder
    | .inappropriateType (some _) .. => return .missing
    -- the path is too long
    | .invalidArgument (some _) .. => return .missing
    | _ => return .unreadable

def writeFile (path content : Text) : IO Bool := do
  try
    IO.FS.writeFile (String.ofList path) (String.ofList content)
    return true
  catch _ => return false

def carryOut : Plan → IO Reply
  | .reply reply => return reply
  | .write file content written failed => do
      if ← writeFile file content then return written else return failed

def answer (invocation : Invocation) : IO Reply :=
  match invocation with
  | .run action verbosity => do
      let reading ← readStyleFile action.path
      for event in action.events reading do
        if event.verbosity ≤ verbosity then IO.eprintln (reprStr event)
      carryOut (action.plan (fun width => width ≤ Text.capacity) reading)
  | other => return other.reply?.getD (.success [])

end Hypertext

def main (arguments : List String) : IO UInt32 := do
  let reply ← Hypertext.answer (.ofArguments (arguments.map String.toList))
  IO.print (String.ofList reply.stdout)
  IO.eprint (String.ofList reply.notice)
  return (reply.code.getD 101).toUInt32
