import Hypertext.Text.Split
import Hypertext.Number.Read

/-! Command lines. Words are read from the left; a word that no rule accepts makes the whole line a
misuse, except that a request for the version or for help is granted as soon as it is met. -/

namespace Hypertext

inductive Action where
  | build (path : Text) (indent : Nat) (output? : Option Text)
  | rules (path : Text)
  | check (path : Text)
  deriving DecidableEq, Repr

def Action.path : Action → Text
  | .build path _ _ => path
  | .rules path => path
  | .check path => path

inductive Invocation where
  /-- The verbosity says how much of what happens is logged. -/
  | run (action : Action) (verbosity : Nat)
  | version
  | help
  | misuse
  deriving DecidableEq, Repr

namespace Invocation

inductive Verb where
  | build
  | rules
  | check
  deriving DecidableEq, Repr

def Verb.ofName? (name : Text) : Option Verb :=
  if name = "build".toList then some .build
  else if name = "rules".toList then some .rules
  else if name = "check".toList then some .check
  else none

inductive Setting where
  | indent
  | output
  deriving DecidableEq, Repr

/-- What the words after the verb have said so far. -/
structure Given where
  path? : Option Text := none
  indent? : Option Nat := none
  output? : Option Text := none
  verbosity : Nat := 0

/-- An indent is a number of 64 bits with an optional plus sign. -/
def indentOf? (t : Text) : Option Nat :=
  let digits := match t with
    | '+' :: rest => rest
    | _ => t
  if digits.isEmpty then none
  else (Text.toNat? digits).bind fun n => if n < Nat.pow 2 64 then some n else none

namespace Given

def withPath? (g : Given) (path : Text) : Option Given :=
  if g.path?.isSome then none else some { g with path? := some path }

/-- An option is given once at most. -/
def with? (g : Given) (setting : Setting) (value : Text) : Option Given :=
  match setting with
  | .indent =>
      if g.indent?.isSome then none
      else (indentOf? value).map fun n => { g with indent? := some n }
  | .output => if g.output?.isSome then none else some { g with output? := some value }

def action? (g : Given) (verb : Verb) : Option Action :=
  g.path?.map fun path =>
    match verb with
    | .build => .build path (g.indent?.getD 4) g.output?
    | .rules => .rules path
    | .check => .check path

def paths? (g : Given) (words : List Text) : Option Given := words.foldlM withPath? g

def moreVerbose (g : Given) (more : Nat) : Given := { g with verbosity := g.verbosity + more }

end Given

/-- What one word after the verb says, beside how often it asks for more to be logged. -/
inductive Meaning where
  | nothing
  | path (path : Text)
  | setting (setting : Setting) (value : Text)
  /-- The value is the next word. -/
  | expects (setting : Setting)
  | help
  | misuse
  deriving DecidableEq, Repr

/-- A word of two hyphens and a name, which may bring its value after an equals sign. -/
def ofLong (verb : Verb) (name : Text) (value? : Option Text) : Nat × Meaning :=
  let setting (s : Setting) : Meaning :=
    if verb ≠ .build then .misuse
    else match value? with
      | some value => .setting s value
      | none => .expects s
  let flag (m : Meaning) : Meaning := if value?.isSome then .misuse else m
  if name = "verbose".toList then (1, flag .nothing)
  else if name = "help".toList then (0, flag .help)
  else if name = "indent".toList then (0, setting .indent)
  else if name = "output".toList then (0, setting .output)
  else (0, .misuse)

/-- A word of a hyphen and letters. The letter of an option takes the rest of the word as its
value, less an equals sign in front. -/
def ofLetters (verb : Verb) : Text → Nat × Meaning
  | [] => (0, .nothing)
  | c :: rest =>
      if c = 'v' then (ofLetters verb rest).map (· + 1) id
      else if c = 'h' then (0, .help)
      else if c = 'o' && verb = .build then
        match rest with
        | [] => (0, .expects .output)
        | '=' :: value => (0, .setting .output value)
        | value => (0, .setting .output value)
      else (0, .misuse)

def meaning (verb : Verb) (word : Text) : Nat × Meaning :=
  match word with
  | '-' :: '-' :: long =>
      match Text.splitFirst? '=' long with
      | some (name, value) => ofLong verb name (some value)
      | none => ofLong verb long none
  | '-' :: c :: letters => ofLetters verb (c :: letters)
  | path => (0, .path path)

/-- Whether a word can be the value of an option; a lone hyphen can. -/
def isValue : Text → Bool
  | '-' :: _ :: _ => false
  | _ => true

/-- What is asked for before the verb counts only if the words after it ask for no log. -/
def runIfComplete (verb : Verb) (before : Nat) (given? : Option Given) : Invocation :=
  match given? with
  | none => .misuse
  | some given =>
      match given.action? verb with
      | none => .misuse
      | some action => .run action (if given.verbosity = 0 then before else given.verbosity)

/-- The words after the verb. After two hyphens all words are paths. `expected?` is the option that
waits for its value. -/
def ofWords (verb : Verb) (before : Nat) (given : Given) (expected? : Option Setting) :
    List Text → Invocation
  | [] => if expected?.isSome then .misuse else runIfComplete verb before (some given)
  | word :: rest =>
      match expected? with
      | some setting =>
          if isValue word then
            match given.with? setting word with
            | some given => ofWords verb before given none rest
            | none => .misuse
          else .misuse
      | none =>
          if word = ['-', '-'] then runIfComplete verb before (given.paths? rest)
          else
            let (more, meaning) := meaning verb word
            let given := given.moreVerbose more
            match meaning with
            | .nothing => ofWords verb before given none rest
            | .path path =>
                match given.withPath? path with
                | some given => ofWords verb before given none rest
                | none => .misuse
            | .setting setting value =>
                match given.with? setting value with
                | some given => ofWords verb before given none rest
                | none => .misuse
            | .expects setting => ofWords verb before given (some setting) rest
            | .help => .help
            | .misuse => .misuse

/-- The letters of a word before the verb. All of them ask for more to be logged, and then they are
counted, or one of them decides about the line. -/
def ofFirstLetters : Text → Except Invocation Nat
  | [] => .ok 0
  | c :: rest =>
      if c = 'v' then (ofFirstLetters rest).map (· + 1)
      else if c = 'V' then .error .version
      else if c = 'h' then .error .help
      else .error .misuse

/-- The words after the word for help, of which none is an option. They may name a verb or help
itself, and one name is all, since a verb has no parts to explain. -/
def ofTopic : List Text → Invocation
  | [] => .help
  | [name] => if (Verb.ofName? name).isSome || name = "help".toList then .help else .misuse
  | _ => .misuse

/-- The verb and what stands before it, where so many requests for a log have been met. -/
def ofArgumentsFrom (before : Nat) : List Text → Invocation
  | [] => .misuse
  | word :: rest =>
      match Verb.ofName? word with
      | some verb => ofWords verb before {} none rest
      | none =>
          if word = "help".toList then ofTopic rest
          else if word = "--verbose".toList then ofArgumentsFrom (before + 1) rest
          else if word = "--version".toList then .version
          else if word = "--help".toList then .help
          else
            match word with
            | '-' :: '-' :: _ => .misuse
            | '-' :: c :: letters =>
                match ofFirstLetters (c :: letters) with
                | .error invocation => invocation
                | .ok more => ofArgumentsFrom (before + more) rest
            | _ => .misuse

def ofArguments (words : List Text) : Invocation := ofArgumentsFrom 0 words

end Invocation

end Hypertext
