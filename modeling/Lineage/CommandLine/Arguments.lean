import Lineage.Text
/-! # Arguments

The command line as it is written: options for all commands, the command, and its own options.
-/
namespace Lineage.CommandLine

inductive Command where
  | analyze (mode commit : Option String)
  | timeline (commit : String)
  | history (commit : String) (depth : Nat)
  | version
  deriving DecidableEq, Repr

structure Invocation where
  command : Command
  verbose : Bool := false
  root : Option String := none
  config : Option String := none
  deriving DecidableEq, Repr

inductive Request where
  | run (i : Invocation)
  | help
  deriving DecidableEq, Repr

inductive Misuse where
  | unknownCommand (name : String)
  | noCommand
  | unexpected (argument : String)
  | noValue (option : String)
  | badValue (option value : String)
  | repeated (option : String)
  deriving DecidableEq, Repr

def Misuse.message : Misuse → String
  | unknownCommand name => s!"unrecognized command {Text.quoted name}"
  | noCommand => "a command is needed: analyze, timeline, history, version"
  | unexpected argument => s!"unexpected argument {Text.quoted argument}"
  | noValue option => s!"--{option} needs a value"
  | badValue option value => s!"invalid value {Text.quoted value} for --{option}"
  | repeated option => s!"--{option} is given more than once"

structure OptionKind where
  name : String
  letter : Option Char := none
  hasValue : Bool := true
  deriving DecidableEq, Repr

structure Found where
  options : List (String × String) := []
  bare : List String := []
  /-- What follows the first bare argument, where reading stops there. -/
  rest : List String := []
  help : Bool := false
  deriving DecidableEq, Repr

namespace Found

def value? (f : Found) (name : String) : Option String := f.options.lookup name

def has (f : Found) (name : String) : Bool := (f.value? name).isSome

def add (f : Found) (o : OptionKind) (value : String) : Except Misuse Found :=
  if f.has o.name then .error (.repeated o.name)
  else .ok { f with options := f.options ++ [(o.name, value)] }

end Found

def helpOption : OptionKind := { name := "help", letter := some 'h', hasValue := false }

/-- Whether an argument cannot be a value: it begins like an option. -/
def isOptionLike (s : String) : Bool := Text.startsWith "-" s && s ≠ "-"

def takeValue (o : OptionKind) : List String → Except Misuse (String × List String)
  | v :: rest => if isOptionLike v then .error (.noValue o.name) else .ok (v, rest)
  | [] => .error (.noValue o.name)

def readLong (kinds : List OptionKind) (f : Found) (argument : String) (after : List String) :
    Except Misuse (Found × List String) := do
  let (name, value) := (Text.splitOnce "=" argument).elim (argument, none) fun (a, b) => (a, some b)
  match kinds.find? (·.name = name), value with
  | none, _ => throw (.unexpected ("--" ++ argument))
  | some o, some v => if o.hasValue then return (← f.add o v, after) else throw (.unexpected v)
  | some o, none =>
    if o.hasValue then
      let (v, rest) ← takeValue o after
      return (← f.add o v, rest)
    else return (← f.add o "", after)

def readLetters (kinds : List OptionKind) (f : Found) (after : List String) :
    List Char → Except Misuse (Found × List String)
  | [] => return (f, after)
  | c :: cs => do
    match kinds.find? (·.letter = some c) with
    | none => throw (.unexpected ("-" ++ String.ofList (c :: cs)))
    | some o =>
      if o.hasValue then
        match cs with
        | [] =>
          let (v, rest) ← takeValue o after
          return (← f.add o v, rest)
        | '=' :: v => return (← f.add o (String.ofList v), after)
        | v => return (← f.add o (String.ofList v), after)
      else if o.name = helpOption.name then return ({ f with help := true }, after)
      else readLetters kinds (← f.add o "") after cs

/-- Reads up to a number of arguments. With `stops`, the first bare argument ends the part. -/
def readWithin (kinds : List OptionKind) (stops : Bool) :
    Nat → Found → List String → Except Misuse Found
  | 0, f, _ | _, f, [] => .ok f
  | n + 1, f, argument :: after =>
    if f.help then .ok f
    else if argument = "--" then
      if stops then
        match after with
        | a :: _ => .error (.unexpected a)
        | [] => .ok f
      else .ok { f with bare := f.bare ++ after }
    else if argument = "--help" then .ok { f with help := true }
    else if Text.startsWith "--" argument then do
      let (f, rest) ← readLong kinds f (String.ofList (argument.toList.drop 2)) after
      readWithin kinds stops n f rest
    else if isOptionLike argument then do
      let (f, rest) ← readLetters kinds f after (argument.toList.drop 1)
      readWithin kinds stops n f rest
    else if stops then .ok { f with bare := [argument], rest := after }
    else readWithin kinds stops n { f with bare := f.bare ++ [argument] } after

def read (kinds : List OptionKind) (stops : Bool) (arguments : List String) : Except Misuse Found :=
  readWithin (helpOption :: kinds) stops arguments.length {} arguments

def rootOptions : List OptionKind :=
  [{ name := "verbose", letter := some 'v', hasValue := false },
   { name := "root", letter := some 'r' }, { name := "config", letter := some 'c' }]

def commandOptions? : String → Option (List OptionKind × Nat)
  | "analyze" => some ([{ name := "mode", letter := some 'm' }, { name := "commit" }], 0)
  | "timeline" => some ([], 1)
  | "history" => some ([{ name := "depth", letter := some 'n' }], 1)
  | "version" => some ([], 0)
  | _ => none

def count (option value : String) : Except Misuse Nat :=
  let digits := ((Text.after? "+" value).getD value).toList
  let n := Text.digitsValue digits
  if !digits.isEmpty && digits.all Text.isDigit && n < UInt64.size then .ok n
  else .error (.badValue option value)

def commandOf (name : String) (f : Found) : Except Misuse Command :=
  let commit := f.bare.head?.getD "HEAD"
  match name with
  | "analyze" => .ok (.analyze (f.value? "mode") (f.value? "commit"))
  | "timeline" => .ok (.timeline commit)
  | "history" => (count "depth" ((f.value? "depth").getD "10")).map (.history commit)
  | "version" => .ok .version
  | _ => .error (.unknownCommand name)

def path? (f : Found) (option : String) : Except Misuse (Option String) :=
  match f.value? option with
  | some "" => .error (.noValue option)
  | v => .ok v

def helpOn : List String → Except Misuse Request
  | [] => .ok .help
  | name :: rest =>
    if name = "help" || (commandOptions? name).isSome then
      match rest with
      | [] => .ok .help
      | extra :: _ => .error (.unknownCommand extra)
    else .error (.unknownCommand name)

/-- Reads what follows a command's name. What stands before a request for help has to be right. -/
def readCommand (name : String) (arguments : List String) : Except Misuse (Option Command) := do
  let some (kinds, most) := commandOptions? name | throw (.unknownCommand name)
  let f ← read kinds false arguments
  if let some extra := f.bare[most]? then throw (.unexpected extra)
  let command ← commandOf name f
  return if f.help then none else some command

def Request.ofArguments (arguments : List String) : Except Misuse Request := do
  let f ← read rootOptions true arguments
  let root ← path? f "root"
  let config ← path? f "config"
  if f.help then return .help
  let some name := f.bare.head? | throw .noCommand
  if name = "help" then helpOn f.rest
  else
    match ← readCommand name f.rest with
    | some command => return .run ⟨command, f.has "verbose", root, config⟩
    | none => return .help

end Lineage.CommandLine
