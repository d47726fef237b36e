import SourceTables.Command

/-!
# `SourceTables.Arguments`: the command line

A command line names a command, its directory and what else the command needs, with options anywhere
between. An option's value is the next argument or follows an equals sign.
-/

set_option autoImplicit false

namespace SourceTables

/-- What a command line asks for. -/
structure Invocation where
  command : Command
  dir : Path
  options : CommandOptions
  /-- The name of a log level. -/
  log : Option String

namespace Invocation

/-- What has been read of a command line. -/
structure Draft where
  /-- The arguments that are no options, the last one first. -/
  positional : List String := []
  options : CommandOptions := {}
  log : Option String := none
  maxDepth : Option Nat := none
  form : ResultForm := .aligned

/-- How the command is used. -/
def usage : String :=
  "usage: source-tables COMMAND DIR [OPTIONS]\n"
    ++ "commands: convert DIR, partitions DIR [--max-depth N], tables DIR,\n"
    ++ "  query DIR TEXT [--format table|csv], prune DIR\n"
    ++ "options: --cache-bytes N, --engine parquet|arrow, --artifact-dir DIR, --hash-contents,\n"
    ++ "  --log LEVEL"

/-- An argument that holds an option and its value, as two arguments. -/
def separate (argument : String) : List String :=
  let cs := argument.toList
  let name := cs.takeWhile (· != '=')
  if ['-', '-'].isPrefixOf cs && name.length < cs.length then
    [String.ofList name, String.ofList (cs.drop (name.length + 1))]
  else [argument]

/-- A natural number as the value of an option. -/
def natural (name value : String) : Except String Nat :=
  match value.toNat? with
  | some n => .ok n
  | none => .error ("invalid value '" ++ value ++ "' for " ++ name)

/-- The form of a result that a word names. -/
def formOfWord (word : String) : Except String ResultForm :=
  if word = "table" then .ok .aligned
  else if word = "csv" then .ok .delimited
  else .error ("invalid value '" ++ word ++ "' for --format")

/-- The draft with an option that has a value; none if there is no such option. -/
def setOption (d : Draft) (name value : String) : Option (Except String Draft) :=
  match name with
  | "--cache-bytes" => some do
    let n ← natural name value
    return { d with options := { d.options with cacheBytes := some n } }
  | "--engine" => some do
    let engine ← Engine.ofWord value
    return { d with options := { d.options with engine := some engine } }
  | "--artifact-dir" =>
    some (.ok { d with options := { d.options with artifactDir := some ⟨value⟩ } })
  | "--log" => some (.ok { d with log := some value })
  | "--max-depth" => some do return { d with maxDepth := some (← natural name value) }
  | "--format" => some do return { d with form := ← formOfWord value }
  | _ => none

/-- Reads arguments. -/
def readArguments (d : Draft) : List String → Except String Draft
  | [] => .ok d
  | "--hash-contents" :: rest =>
    readArguments { d with options := { d.options with hashContents := true } } rest
  | [last] =>
    if last.startsWith "--" then .error ("unexpected argument '" ++ last ++ "'")
    else .ok { d with positional := last :: d.positional }
  | name :: value :: rest =>
    if name.startsWith "--" then
      match setOption d name value with
      | some (.ok d) => readArguments d rest
      | some (.error e) => .error e
      | none => .error ("unexpected argument '" ++ name ++ "'")
    else readArguments { d with positional := name :: d.positional } (value :: rest)

/-- The command that the positional arguments name, and its directory. -/
def commandOf (d : Draft) : Option (Command × Path) :=
  match d.positional.reverse with
  | ["convert", dir] => some (.convert, ⟨dir⟩)
  | ["partitions", dir] => some (.partitions d.maxDepth, ⟨dir⟩)
  | ["tables", dir] => some (.tables, ⟨dir⟩)
  | ["prune", dir] => some (.prune, ⟨dir⟩)
  | ["query", dir, text] => some (.query text d.form, ⟨dir⟩)
  | _ => none

/-- What a command line asks for, or why it asks for nothing. -/
def parse (arguments : List String) : Except String Invocation := do
  let d ← readArguments {} (arguments.flatMap separate)
  match commandOf d with
  | some (command, dir) => return { command, dir, options := d.options, log := d.log }
  | none => .error usage

end Invocation

end SourceTables
