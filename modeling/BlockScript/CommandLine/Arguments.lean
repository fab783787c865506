/-!
# Arguments

The command line: a command, its files and its options. Options may stand anywhere after the
command, and those that all commands share also before it.
-/

namespace BlockScript

/-- What to do. -/
inductive Command where
  /-- Compile files and write their graphs. -/
  | build
  /-- Compile files and report problems. -/
  | check
  /-- Show the schema of configuration files. -/
  | schema
  /-- List the catalog. -/
  | catalog
  deriving DecidableEq

/-- A command with its files and options. -/
structure Invocation where
  /-- The command, once it is known. -/
  command : Option Command := none
  /-- The source files. -/
  files : List String := []
  /-- The macros that are defined before the first line. -/
  defines : List String := []
  /-- The directory for outputs. -/
  out : Option String := none
  /-- The configuration file. -/
  config : Option String := none
  /-- Whether to answer in JSON. -/
  json : Bool := false
  deriving DecidableEq

/-- The command with a name. -/
def Command.named? : String → Option Command
  | "build" => some .build
  | "check" => some .check
  | "schema" => some .schema
  | "catalog" => some .catalog
  | _ => none

/-- Whether a command takes files and macros. -/
def Command.takesFiles : Command → Bool
  | .build | .check => true
  | _ => false

namespace Invocation

/-- The value in an argument such as `--out=dir`, after the name of its option. -/
def attached? (name argument : String) : Option String :=
  let mark := (name ++ "=").toList
  if mark.isPrefixOf argument.toList then some (String.ofList (argument.toList.drop mark.length))
  else none

/-- The value in an argument such as `-DX` or `-D=X`. -/
def shortDefine? (argument : String) : Option String :=
  match argument.toList with
  | '-' :: 'D' :: '=' :: value => some (String.ofList value)
  | '-' :: 'D' :: c :: value => some (String.ofList (c :: value))
  | _ => none

/-- Whether an argument looks like an option. -/
def isOption (argument : String) : Bool :=
  argument.toList.head? == some '-' && argument ≠ "-"

/-- Sets the option with a name to a value, if the option takes one. -/
def setOption (i : Invocation) (name value : String) : Option Invocation :=
  let takesFiles := i.command.any Command.takesFiles
  match name with
  | "--config" => if i.config.isNone then some { i with config := some value } else none
  | "--out" =>
    if i.command = some .build && i.out.isNone then some { i with out := some value } else none
  | "--define" | "-D" =>
    if takesFiles then some { i with defines := i.defines ++ [value] } else none
  | _ => none

/-- Takes an argument that is no option: the command, or a file. -/
def setWord (i : Invocation) (word : String) : Option Invocation :=
  match i.command with
  | none => (Command.named? word).map fun command => { i with command := some command }
  | some command =>
    if command.takesFiles then some { i with files := i.files ++ [word] } else none

/-- Takes an option that holds its value. -/
def setAttached (i : Invocation) (argument : String) : Option Invocation :=
  match attached? "--config" argument, attached? "--out" argument, attached? "--define" argument,
      shortDefine? argument with
  | some value, _, _, _ => i.setOption "--config" value
  | _, some value, _, _ => i.setOption "--out" value
  | _, _, some value, _ => i.setOption "--define" value
  | _, _, _, some value => i.setOption "-D" value
  | _, _, _, _ => none

/-- Takes the arguments one after the other. -/
def take (i : Invocation) : List String → Option Invocation
  | [] => some i
  | "--json" :: rest => if i.json then none else { i with json := true }.take rest
  | "--" :: rest => rest.foldlM setWord i
  | [argument] => if isOption argument then i.setAttached argument else i.setWord argument
  | argument :: value :: rest =>
    if ["--config", "--out", "--define", "-D"].contains argument then
      if isOption value then none
      else match i.setOption argument value with
        | some i => i.take rest
        | none => none
    else match if isOption argument then i.setAttached argument else i.setWord argument with
      | some i => i.take (value :: rest)
      | none => none

/-- The invocation that arguments ask for, if they are well formed. -/
def ofArguments (arguments : List String) : Option Invocation := do
  let i ← take {} arguments
  let command ← i.command
  if command.takesFiles && i.files.isEmpty then none else some i

end Invocation

end BlockScript
