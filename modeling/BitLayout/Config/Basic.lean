import BitLayout.Request.Basic

/-!
# BitLayout.Config.Basic

What holds for a whole layout: the size of a sector and how many there may be, the data objects, the
names of the two procedures to generate, and the stream functions that they call.
-/

namespace BitLayout

/-- A value that is handed to the generated procedures. -/
structure DataObject where
  name : String
  type : TypeExpr
deriving DecidableEq, Repr

/-- The stream functions of one direction, as paths. -/
structure StreamFunctions where
  bool : Tokens
  u8 : Tokens
  u16 : Tokens
  u32 : Tokens
  u64 : Tokens
  string : Tokens
  terminatedString : Tokens
  buffer : Tokens
deriving DecidableEq, Repr

namespace StreamFunctions

/-- The functions named after a direction. -/
def named (direction : String) : StreamFunctions :=
  let path := fun (kind : String) => [Token.ident (direction ++ "_" ++ kind)]
  ⟨path "bool", path "u8", path "u16", path "u32", path "u64", path "string",
    path "string_terminated", path "buffer"⟩

/-- Replace the function of a kind; `none` for an unknown kind. -/
def set? (fns : StreamFunctions) (kind : String) (path : Tokens) : Option StreamFunctions :=
  match kind with
  | "bool" => some { fns with bool := path }
  | "u8" => some { fns with u8 := path }
  | "u16" => some { fns with u16 := path }
  | "u32" => some { fns with u32 := path }
  | "u64" => some { fns with u64 := path }
  | "string" => some { fns with string := path }
  | "string_terminated" => some { fns with terminatedString := path }
  | "buffer" => some { fns with buffer := path }
  | _ => none

/-- All functions, in the order of their kinds. -/
def toList (fns : StreamFunctions) : List Tokens :=
  [fns.bool, fns.u8, fns.u16, fns.u32, fns.u64, fns.string, fns.terminatedString, fns.buffer]

end StreamFunctions

/-- The unsigned words that a stream moves, by width. -/
inductive Carrier where
  | u8
  | u16
  | u32
  | u64
deriving DecidableEq, Repr

namespace Carrier

/-- The smallest word that holds so many bits. -/
def ofBits (bits : Nat) : Carrier :=
  if bits ≤ 8 then u8 else if bits ≤ 16 then u16 else if bits ≤ 32 then u32 else u64

/-- The width of a word. -/
def bits : Carrier → Nat
  | u8 => 8
  | u16 => 16
  | u32 => 32
  | u64 => 64

/-- The name of the type of a word. -/
def typeName : Carrier → String
  | u8 => "u8"
  | u16 => "u16"
  | u32 => "u32"
  | u64 => "u64"

/-- The function that moves a word. -/
def function (fns : StreamFunctions) : Carrier → Tokens
  | u8 => fns.u8
  | u16 => fns.u16
  | u32 => fns.u32
  | u64 => fns.u64

theorem le_bits_ofBits {n : Nat} (h : n ≤ 64) : n ≤ (ofBits n).bits := by
  unfold ofBits
  (repeat' split) <;> simp only [bits] <;> omega

end Carrier

/-- The settings of a layout. -/
structure Config where
  /-- How many sectors there may be. -/
  sectorCount : Nat
  /-- The bytes of a sector. -/
  sectorSize : Nat
  readName : String
  saveName : String
  /-- The type of the stream. -/
  stream : TypeExpr
  /-- The data objects; each group begins in a sector of its own. -/
  groups : List (List DataObject)
  /-- Aliases of integers that hold truth values. -/
  boolTypes : List String
  readFns : StreamFunctions
  writeFns : StreamFunctions
  /-- Named requests, sorted by name. -/
  presets : List (String × Request)
  /-- Whether a struct that is moved whole gets functions of its own. -/
  structFunctions : Bool
  /-- Up to how many elements an array of structs stays whole in a listing. -/
  inlineThreshold : Nat
  /-- The data objects that get a listing constant. -/
  listed : List String
deriving DecidableEq, Repr

namespace Config

/-- The bits of a sector. That they can be counted in 64 bits is asked where a program is
generated. -/
def capacity (c : Config) : Nat := c.sectorSize * 8

/-- The data objects in order. -/
def objects (c : Config) : List DataObject := c.groups.flatten

/-- The preset of a name. -/
def preset? (c : Config) (name : String) : Option Request := c.presets.lookup name

end Config

end BitLayout
