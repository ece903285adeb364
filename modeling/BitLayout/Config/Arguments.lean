import BitLayout.Config.Basic
import BitLayout.Request.Directive

/-!
# BitLayout.Config.Arguments

The arguments that settings are made from. Reading stops at the first error. When all arguments can
be read, they are checked together, and every fault is reported, in this order:

1. overrides of stream functions that do not exist, those for reading first;
2. data objects listed twice;
3. listings of what is no data object;
4. what is missing: the size of a sector, the reading and the saving procedure.
-/

namespace BitLayout

/-- One argument. -/
inductive Argument where
  | sectorCount (n : Nat)
  | sectorSize (n : Nat)
  | read (name : String)
  | save (name : String)
  | stream (type : TypeExpr)
  | data (groups : List (List DataObject))
  | boolType (name : String)
  | preset (name : String) (request : Request)
  | readFunction (kind : String) (path : Fragment)
  | writeFunction (kind : String) (path : Fragment)
  | structFunctions (on : Bool)
  | inlineThreshold (n : Nat)
  | listed (name : String)
deriving DecidableEq, Repr

/-- Why arguments make no settings. -/
inductive ConfigError where
  /-- An argument or an option of a preset cannot be read. -/
  | unreadable (error : RequestError)
  | unknownOption (word : String)
  | notPositive (word : String)
  | blankPreset
  | presetTwice (name : String)
  | unknownFunction (kind : String)
  | objectTwice (name : String)
  | listedUnknown (name : String)
  | missing (what : String)
deriving DecidableEq, Repr

/-- The wording of an error. -/
def ConfigError.message : ConfigError → String
  | unreadable e => e.message
  | unknownOption word =>
    "unknown bitpack option `" ++ word ++ "`; expected `sector_count`, `sector_size`, `read`, "
      ++ "`save`, `state`, `data(...)`, `bool_type`, `heritable(...)`, `func_read_*`, "
      ++ "`func_write_*`, `whole_struct_functions`, `inline_threshold` or `debug_dump`"
  | notPositive word => "`" ++ word ++ "` must be positive"
  | blankPreset => "a heritable preset cannot have a blank name"
  | presetTwice name => "heritable preset " ++ Text.Quoted.shown name ++ " is defined twice"
  | unknownFunction kind =>
    "unknown bitstream function kind `" ++ kind ++ "`; expected bool, u8, u16, u32, u64, string, "
      ++ "string_terminated or buffer"
  | objectTwice name => "data object `" ++ name ++ "` is listed twice"
  | listedUnknown name => "`debug_dump` names `" ++ name ++ "`, which is not a data object"
  | missing what => "bitpack: missing `" ++ what ++ "`"

/-! ## Reading -/

/-- A reader whose errors are those of settings. -/
abbrev ConfigReading := ReadingWith ConfigError

instance : MonadLift RequestReading ConfigReading where
  monadLift reader := fun remaining => (reader remaining).mapError .unreadable

namespace ConfigReading

/-- Read data objects: commas between those of a group, semicolons between groups. The group that is
being read comes first and holds its last object first. -/
def dataGroups (current : List DataObject) : (fuel : Nat) → Reading (List (List DataObject))
  | 0 => return [current.reverse]
  | fuel + 1 => do
    if ← Reading.ended then return [current.reverse]
    let name ← Reading.name
    discard (Reading.sign ":")
    let current := ⟨name, ← Reading.type⟩ :: current
    if ← Reading.peek (.sign ";") then
      discard (Reading.sign ";")
      return current.reverse :: (← dataGroups [] fuel)
    if !(← Reading.ended) then discard (Reading.sign ",")
    dataGroups current fuel

/-- Read a positive number. -/
def positive (word : String) : ConfigReading Nat := do
  let n ← RequestReading.assigned (Reading.unsigned 64)
  if n = 0 then throw (.notPositive word) else return n

/-- Read the name of a preset, and the options behind it. -/
def presetParts : Reading (String × Tokens) :=
  Reading.group .paren do
    let name ← Reading.string
    if ← Reading.peek (.sign ",") then
      discard (Reading.sign ",")
      return (name, ← Reading.everything)
    else return (name, [])

/-- Read a preset. -/
def preset : ConfigReading Argument := do
  let (name, options) ← (presetParts : RequestReading (String × Tokens))
  if name.isEmpty then throw .blankPreset
  match Request.empty.applyOptions options with
  | (request, none) => return .preset name request
  | (_, some e) => throw (.unreadable e)

/-- Read the argument behind its word. -/
def argument (word : String) : ConfigReading Argument := do
  let assigned := fun {α : Type} (reader : Reading α) =>
    (RequestReading.assigned reader : RequestReading α)
  match word with
  | "sector_count" => return .sectorCount (← positive word)
  | "sector_size" => return .sectorSize (← positive word)
  | "read" => return .read (← assigned Reading.name)
  | "save" => return .save (← assigned Reading.name)
  | "state" => return .stream (← assigned Reading.type)
  | "data" =>
    let groups ← (Reading.group .paren do dataGroups [] ((← Reading.ahead).length + 1) :
      RequestReading (List (List DataObject)))
    return .data (groups.filter (!·.isEmpty))
  | "bool_type" => return .boolType (← assigned Reading.name)
  | "heritable" => preset
  | "whole_struct_functions" => return .structFunctions (← assigned Reading.boolean)
  | "inline_threshold" => return .inlineThreshold (← assigned (Reading.unsigned 64))
  | "debug_dump" => return .listed (← assigned Reading.name)
  | word =>
    match behind? "func_read_" word, behind? "func_write_" word with
    | some kind, _ => return .readFunction kind (← assigned Reading.path)
    | none, some kind => return .writeFunction kind (← assigned Reading.path)
    | none, none => throw (.unknownOption word)
where
  /-- What follows a beginning of a word. -/
  behind? (start word : String) : Option String :=
    if word.startsWith start then some (String.ofList (word.toList.drop start.length)) else none

end ConfigReading

/-! ## Collecting -/

/-- The arguments read so far. The last of its kind counts, except where each one adds something. -/
structure Arguments where
  sectorCount : Option Nat
  sectorSize : Option Nat
  read : Option String
  save : Option String
  stream : Option TypeExpr
  groups : List (List DataObject)
  boolTypes : List String
  readFunctions : List (String × Tokens)
  writeFunctions : List (String × Tokens)
  presets : List (String × Request)
  structFunctions : Option Bool
  inlineThreshold : Option Nat
  listed : List String

namespace Arguments

/-- No arguments. -/
def empty : Arguments := ⟨none, none, none, none, none, [], [], [], [], [], none, none, []⟩

/-- Insert a preset behind all presets of smaller names. -/
def insertPreset (name : String) (request : Request) :
    List (String × Request) → List (String × Request)
  | [] => [(name, request)]
  | (other, r) :: rest =>
    if other < name then (other, r) :: insertPreset name request rest
    else (name, request) :: (other, r) :: rest

/-- Add an argument. Only a preset can be refused, when its name is taken. -/
def add (args : Arguments) : Argument → Except ConfigError Arguments
  | .sectorCount n => .ok { args with sectorCount := some n }
  | .sectorSize n => .ok { args with sectorSize := some n }
  | .read name => .ok { args with read := some name }
  | .save name => .ok { args with save := some name }
  | .stream type => .ok { args with stream := some type }
  | .data groups => .ok { args with groups := groups }
  | .boolType name => .ok { args with boolTypes := args.boolTypes ++ [name] }
  | .preset name request =>
    if args.presets.any (·.1 = name) then .error (.presetTwice name)
    else .ok { args with presets := insertPreset name request args.presets }
  | .readFunction kind path =>
    .ok { args with readFunctions := args.readFunctions ++ [(kind, path.tokens)] }
  | .writeFunction kind path =>
    .ok { args with writeFunctions := args.writeFunctions ++ [(kind, path.tokens)] }
  | .structFunctions on => .ok { args with structFunctions := some on }
  | .inlineThreshold n => .ok { args with inlineThreshold := some n }
  | .listed name => .ok { args with listed := args.listed ++ [name] }

/-- Read one argument and add it. -/
def step (args : Arguments) (word : Option String) : ConfigReading Arguments := do
  match word with
  | none => throw (.unreadable .notAnOption)
  | some word => args.add (← ConfigReading.argument word)

/-! ## Checking -/

/-- The stream functions after all overrides, and the kinds that do not exist. -/
def overridden (fns : StreamFunctions) (overrides : List (String × Tokens)) :
    StreamFunctions × List ConfigError :=
  overrides.foldl
    (fun (fns, errors) (kind, path) =>
      match fns.set? kind path with
      | some fns => (fns, errors)
      | none => (fns, errors ++ [.unknownFunction kind]))
    (fns, [])

/-- An error for every object whose name an earlier one has. -/
def repeated (seen : List String) : List DataObject → List ConfigError
  | [] => []
  | object :: rest =>
    (if seen.contains object.name then [.objectTwice object.name] else []) ++
      repeated (object.name :: seen) rest

/-- The settings that the arguments make, or everything that is wrong with them. -/
def finish (args : Arguments) : Except (List ConfigError) Config :=
  let (readFns, readErrors) := overridden (.named "read") args.readFunctions
  let (writeFns, writeErrors) := overridden (.named "write") args.writeFunctions
  let objects := args.groups.flatten
  let unlisted := args.listed.filter fun name => !objects.any (·.name = name)
  let errors := readErrors ++ writeErrors ++ repeated [] objects ++ unlisted.map .listedUnknown
  match errors, args.sectorSize, args.read, args.save with
  | [], some sectorSize, some readName, some saveName =>
    .ok {
      sectorCount := args.sectorCount.getD 1
      sectorSize
      readName
      saveName
      stream := args.stream.getD (.name "BitstreamState")
      groups := args.groups
      boolTypes := args.boolTypes
      readFns
      writeFns
      presets := args.presets
      structFunctions := args.structFunctions.getD true
      inlineThreshold := args.inlineThreshold.getD 4
      listed := args.listed }
  | errors, sectorSize, readName, saveName =>
    .error (errors ++ (if sectorSize.isNone then [.missing "sector_size = N"] else []) ++
      (if readName.isNone then [.missing "read = function_name"] else []) ++
      if saveName.isNone then [.missing "save = function_name"] else [])

end Arguments

/-- The settings that a list of arguments makes, or why it makes none. -/
def Config.ofArguments (tokens : Tokens) : Except (List ConfigError) Config :=
  match runOptions (fun e => .unreadable (.unreadable e)) Arguments.step .empty tokens with
  | (args, none) => args.finish
  | (_, some e) => .error [e]

end BitLayout
