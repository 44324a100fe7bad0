/-!
# Options and words

The arguments of a command are options, with or without a value, and words. A value
follows its option as an argument of its own, or stands in the same argument; short
options without values can share an argument. Two hyphens end the options.
-/

namespace SymbolRename.CommandLine

/-- An option that a command knows. -/
structure OptionSpec where
  /-- The name after two hyphens; empty if there is none. -/
  long : String
  /-- The letter after one hyphen. -/
  short : Option Char := none
  takesValue : Bool := false
  /-- It may be given more than once. -/
  repeats : Bool := false
deriving DecidableEq, Repr

namespace OptionSpec

/-- What an option is called: its long name, or else its letter. -/
def key (o : OptionSpec) : String :=
  if o.long = "" then o.short.elim "" fun c => String.ofList [c] else o.long

end OptionSpec

/-- One argument, understood. -/
inductive Argument
  | flag (key : String)
  | value (key text : String)
  | word (text : String)
deriving DecidableEq, Repr

namespace Argument

/-- The key of an option. -/
def key? : Argument → Option String
  | flag key => some key
  | value key _ => some key
  | word _ => none

end Argument

/-- Arguments that are understood, and the option whose value is still to come. -/
abbrev Cluster := List Argument × Option String

/-- The short options in one argument. The rest of the argument is the value of the
first one that takes a value. -/
def shortOptions? (specs : List OptionSpec) : List Char → Option Cluster
  | [] => some ([], none)
  | c :: rest => do
    let spec ← specs.find? (·.short == some c)
    if spec.takesValue then
      match rest with
      | [] => some ([], some spec.key)
      | '=' :: text => some ([.value spec.key (String.ofList text)], none)
      | text => some ([.value spec.key (String.ofList text)], none)
    else
      let (more, pending) ← shortOptions? specs rest
      some (.flag spec.key :: more, pending)

/-- The long option in an argument; a value may follow an equals sign. -/
def longOption? (specs : List OptionSpec) (cs : List Char) : Option Cluster := do
  let name := String.ofList (cs.takeWhile (· != '='))
  let spec ← specs.find? fun o => o.long != "" && o.long == name
  match cs.dropWhile (· != '='), spec.takesValue with
  | '=' :: text, true => some ([.value spec.key (String.ofList text)], none)
  | [], true => some ([], some spec.key)
  | [], false => some ([.flag spec.key], none)
  | _, _ => none

/-- The options in an argument, unless it is a word. A lone hyphen is a word. -/
def options? (specs : List OptionSpec) (argument : String) : Option (Option Cluster) :=
  match argument.toList with
  | '-' :: '-' :: cs => some (longOption? specs cs)
  | '-' :: c :: cs => some (shortOptions? specs (c :: cs))
  | _ => none

/-- Reads arguments up to the first word if `toWord`, else all of them; answers with
what is left. `pending` is the option whose value is still to come. -/
def readArguments? (specs : List OptionSpec) (toWord : Bool) (pending : Option String) :
    List String → Option (List Argument × List String)
  | [] => if pending.isSome then none else some ([], [])
  | argument :: rest =>
    match pending, options? specs argument with
    | none, none =>
      if toWord then some ([], argument :: rest)
      else do
        let (read, left) ← readArguments? specs toWord none rest
        some (.word argument :: read, left)
    | some key, none => do
      let (read, left) ← readArguments? specs toWord none rest
      some (.value key argument :: read, left)
    | some _, some _ => none
    | none, some cluster =>
      if argument = "--" then
        if toWord then some ([], argument :: rest) else some (rest.map .word, [])
      else do
        let (found, pending) ← cluster
        let (read, left) ← readArguments? specs toWord pending rest
        some (found ++ read, left)

/-- No option is given twice unless it may be. -/
def givenOnce (specs : List OptionSpec) (arguments : List Argument) : Bool :=
  specs.all fun o =>
    o.repeats || (arguments.filter (·.key? == some o.key)).length ≤ 1

namespace Argument

/-- The values of an option, in order. -/
def values (key : String) (arguments : List Argument) : List String :=
  arguments.filterMap fun
    | value k text => if k = key then some text else none
    | _ => none

/-- The value of an option. -/
def value? (key : String) (arguments : List Argument) : Option String :=
  (values key arguments).head?

/-- How often an option without a value is given. -/
def count (key : String) (arguments : List Argument) : Nat :=
  (arguments.filter (· == flag key)).length

/-- The option is given. -/
def has (key : String) (arguments : List Argument) : Bool := arguments.contains (flag key)

/-- The words, in order. -/
def words (arguments : List Argument) : List String :=
  arguments.filterMap fun
    | word text => some text
    | _ => none

end Argument

end SymbolRename.CommandLine
