import SymbolRename.Glob
import SymbolRename.Text.Blank
import SymbolRename.Tool

/-!
# A small shell

The scripts that query commands carry: commands one after the other, with quoted
words, output sent to the complaints, `exit`, and a choice by pattern.
-/

namespace SymbolRename.Shell

/-- A word of a script, or a mark between commands. -/
inductive Lexeme
  | word (text : List Char)
  /-- A semicolon or the end of a line. -/
  | next
  /-- Two semicolons, which end a choice. -/
  | choiceEnd
  /-- A closing parenthesis, which ends a pattern. -/
  | patternEnd
  /-- `>&2` -/
  | toComplaints
deriving DecidableEq, Repr

/-- In which quotes the reader is. -/
inductive Quotes
  | none
  | single
  | double
deriving DecidableEq, Repr

/-- A finished word, unless there is none. -/
def flush (word : Option (List Char)) : List Lexeme :=
  match word with
  | some cs => [.word cs.reverse]
  | none => []

/-- The lexemes of a script; `word` is the current word reversed, and `skip`
characters were read already. -/
def lexemes (word : Option (List Char)) (quotes : Quotes) (skip : Nat) :
    List Char → List Lexeme
  | [] => flush word
  | c :: rest =>
    if 0 < skip then lexemes word quotes (skip - 1) rest
    else
      let put := fun c : Char => some (c :: word.getD [])
      match quotes with
      | .single =>
        if c = '\'' then lexemes word .none 0 rest else lexemes (put c) .single 0 rest
      | .double =>
        if c = '"' then lexemes word .none 0 rest
        else match c, rest with
          | '\\', d :: _ =>
            if d = '"' || d = '\\' || d = '$' then lexemes (put d) .double 1 rest
            else lexemes (put c) .double 0 rest
          | _, _ => lexemes (put c) .double 0 rest
      | .none =>
        match c, rest with
        | '\'', _ => lexemes (some (word.getD [])) .single 0 rest
        | '"', _ => lexemes (some (word.getD [])) .double 0 rest
        | '\\', d :: _ => lexemes (put d) .none 1 rest
        | ';', ';' :: _ => flush word ++ .choiceEnd :: lexemes none .none 1 rest
        | ';', _ => flush word ++ .next :: lexemes none .none 0 rest
        | '\n', _ => flush word ++ .next :: lexemes none .none 0 rest
        | ')', _ => flush word ++ .patternEnd :: lexemes none .none 0 rest
        | '>', '&' :: '2' :: _ => flush word ++ .toComplaints :: lexemes none .none 2 rest
        | _, _ =>
          if Text.isBlank c then flush word ++ lexemes none .none 0 rest
          else lexemes (put c) .none 0 rest

/-- A command with its arguments, or a choice by pattern. -/
inductive Command
  | simple (words : List String) (toComplaints : Bool)
  /-- The first pattern that the subject matches selects its commands. -/
  | choice (subject : String) (branches : List (String × List (List String × Bool)))
deriving Repr

/-- Splits a list of lexemes at a mark. -/
def splitAt (mark : Lexeme) (ls : List Lexeme) : List (List Lexeme) :=
  ls.foldr (fun l parts =>
    if l = mark then [] :: parts
    else match parts with
      | [] => [[l]]
      | part :: more => (l :: part) :: more) [[]]

/-- The words of a command. -/
def wordsOf (ls : List Lexeme) : List String :=
  ls.filterMap fun l => match l with
    | .word cs => some (String.ofList cs)
    | _ => none

/-- Commands between marks; parts without words are passed over. -/
def simpleCommands (ls : List Lexeme) : List (List String × Bool) :=
  ((splitAt .next ls).map fun part => (wordsOf part, part.contains .toComplaints)).filter
    (!·.1.isEmpty)

/-- A branch of a choice: its pattern and its commands. -/
def branch? (ls : List Lexeme) : Option (String × List (List String × Bool)) :=
  match splitAt .patternEnd ls with
  | pattern :: body :: _ => (wordsOf pattern).head?.map fun p => (p, simpleCommands body)
  | _ => none

/-- The commands of a script; a choice has to be the whole script. -/
def commands (script : String) : List Command :=
  let ls := lexemes none .none 0 script.toList
  match ls with
  | .word ['c', 'a', 's', 'e'] :: .word subject :: .word ['i', 'n'] :: rest =>
    let body := rest.takeWhile (· != .word ['e', 's', 'a', 'c'])
    [.choice (String.ofList subject) ((splitAt .choiceEnd body).filterMap branch?)]
  | _ => (simpleCommands ls).map fun (words, errors) => .simple words errors

/-- Runs commands in order until one leaves the script. -/
def runSimple (d : Disk) (r : ToolResult) : List (List String × Bool) → ToolResult
  | [] => r
  | (words, toComplaints) :: rest =>
    match words with
    | [] => runSimple d r rest
    | ["exit"] => r
    | ["exit", status] =>
      { r with status := ((Count.read? status.toList).getD 2) % 256 }
    | name :: arguments =>
      let found := (Tool.utility? d name arguments).getD
        { complaints := bytes s!"sh: 1: {name}: not found\n", status := 127 }
      let result := if toComplaints then
          { found with output := [], complaints := found.output ++ found.complaints }
        else found
      runSimple d (r.followedBy result) rest

/-- The subject matches the pattern. -/
def selects (pattern subject : String) : Bool :=
  match Glob.parse {} pattern with
  | .ok g => g.accepts subject
  | .error _ => pattern == subject

/-- Runs one command after the others. -/
def runCommand (d : Disk) (r : ToolResult) : Command → ToolResult
  | .simple words toComplaints => runSimple d r [(words, toComplaints)]
  | .choice subject branches =>
    match branches.find? fun (pattern, _) => selects pattern subject with
    | some (_, body) => runSimple d r body
    | none => { r with status := 0 }

/-- Runs a script. -/
def run (d : Disk) (script : String) : ToolResult :=
  let simple := (commands script).filterMap fun c => match c with
    | .simple words errors => some (words, errors)
    | .choice _ _ => none
  match commands script with
  | [.choice subject branches] => runCommand d {} (.choice subject branches)
  | _ => runSimple d {} simple

/-- The utilities and the shell itself. -/
def programs : Programs := fun d name arguments =>
  match name, arguments with
  | "sh", "-c" :: script :: _ => some (run d script)
  | "sh", _ => some {}
  | _, _ => Tool.utility? d name arguments

end SymbolRename.Shell
