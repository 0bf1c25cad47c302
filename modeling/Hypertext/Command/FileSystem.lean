import Hypertext.Command.Plan

/-! The program among the files of a system. Where a path leads, what may be read or written there
and what a device does is the system's affair, and so it is part of the state. -/

namespace Hypertext

inductive Content where
  | text (t : Text)
  /-- Bytes that are not UTF-8. -/
  | bytes (raw : List UInt8)
  deriving DecidableEq, Repr

structure Mode where
  readable : Bool
  writable : Bool
  deriving DecidableEq, Repr

inductive Object where
  /-- Nothing. If a file can be made there it gets the mode. -/
  | vacant (mode? : Option Mode)
  | folder
  | file (content : Content) (mode : Mode)
  /-- What a device is read as, if it can be read, does not depend on what has been written to it.
  What it takes it passes on. -/
  | device (source? : Option Content) (takes : Bool) (passed : List Text)
  deriving DecidableEq, Repr

/-- One name for what may have several. -/
abbrev Place := List Text

structure FileSystem where
  /-- Where a path leads, be it to something or to where something could be made. A path through
  what is missing, closed or no folder leads nowhere, and it still does when a file is made there. -/
  locate : Text → Option Place
  object : Place → Object

/-- What a run finds around it, beside the files. -/
structure Host where
  /-- Whether there is memory for so many spaces in a row. -/
  holds : Nat → Bool
  /-- Whether there is room for a text at a place. -/
  stores : Place → Text → Bool
  /-- The events to be logged, where the settings of the system say which. -/
  wanted? : Option (Event → Bool)

structure Run where
  reply : Reply
  log : List Event
  files : FileSystem

def Content.reading : Content → Reading
  | .text t => .text t
  | .bytes _ => .unreadable

namespace Object

def reading : Object → Reading
  | .vacant _ => .missing
  | .folder => .unreadable
  | .file content mode => if mode.readable then content.reading else .unreadable
  | .device source? _ _ =>
      match source? with
      | some content => content.reading
      | none => .unreadable

def written? (t : Text) : Object → Option Object
  | .vacant mode? => mode?.map (.file (.text t))
  | .folder => none
  | .file _ mode => if mode.writable then some (.file (.text t) mode) else none
  | .device source? takes passed =>
      if takes then some (.device source? takes (passed ++ [t])) else none

end Object

/-- The settings of the system go before the verbosity. -/
def Host.logs (host : Host) (verbosity : Nat) : Event → Bool :=
  host.wanted?.getD fun event => event.verbosity ≤ verbosity

namespace FileSystem

def read (files : FileSystem) (path : Text) : Reading :=
  match files.locate path with
  | some place => (files.object place).reading
  | none => .missing

def put (files : FileSystem) (place : Place) (object : Object) : FileSystem where
  locate := files.locate
  object other := if other = place then object else files.object other

def write? (files : FileSystem) (host : Host) (path content : Text) : Option FileSystem :=
  match files.locate path with
  | some place =>
      if host.stores place content then
        ((files.object place).written? content).map (files.put place)
      else none
  | none => none

def carryOut (files : FileSystem) (host : Host) : Plan → Reply × FileSystem
  | .reply reply => (reply, files)
  | .write path content written failed =>
      match files.write? host path content with
      | some after => (written, after)
      | none => (failed, files)

def run (files : FileSystem) (host : Host) (arguments : List Text) : Run :=
  match Invocation.ofArguments arguments with
  | .run action verbosity =>
      let reading := files.read action.path
      let (reply, after) := files.carryOut host (action.plan host.holds reading)
      ⟨reply, (action.events reading).filter (host.logs verbosity), after⟩
  | other => ⟨other.reply?.getD (.success []), [], files⟩

end FileSystem

end Hypertext
