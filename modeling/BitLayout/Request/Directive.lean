import BitLayout.Request.Basic
import BitLayout.Request.OptionList

/-!
# BitLayout.Request.Directive

A directive is one option of a request, such as `bitcount = 3`. Reading a directive and letting it
act on a request are separate: reading fails on its spelling, acting only when its form contradicts
the one that the request has already.
-/

namespace BitLayout

/-- One option of a request. -/
inductive Directive where
  | omitted
  | default (value : Fragment)
  | id (n : Int)
  | preset (name : String)
  | bitcount (bits : Nat)
  | range (min max : Int)
  | string (unterminated : Bool)
  | opaqueBuffer
  | transform (t : Transform)
  | tag (field : String)
  | internalTag (field : String)
deriving DecidableEq, Repr

/-- Why the options of an attribute are refused. -/
inductive RequestError where
  | unreadable (error : ReadError)
  /-- A path of several words stands for an option. -/
  | notAnOption
  | unknownOption (word : String)
  | blankPreset
  /-- A variant id needs more than 64 bits. -/
  | idOutOfRange
  | notUnterminated
  | notTransformPart
  | transformIncomplete
  /-- Both kinds of tags are asked for. -/
  | bothTags
  /-- Options of two forms are mixed. -/
  | mixedForms (new old : String)
  /-- The attribute has no arguments. -/
  | noArguments
  /-- The attribute has a value in place of arguments. -/
  | valueForArguments
deriving DecidableEq, Repr

/-- The wording of an error. -/
def RequestError.message : RequestError → String
  | unreadable e => e.message
  | notAnOption => "expected a bitpack option name"
  | unknownOption word =>
    "unknown bitpack option `" ++ word ++ "`; expected `omit`, `default`, `bitcount`, `range`, "
      ++ "`string`, `opaque_buffer`, `transform`, `tag`, `internal_tag`, `id` or `inherit`"
  | blankPreset => "a heritable preset name cannot be blank"
  | idOutOfRange => "union member id does not fit in an i64"
  | notUnterminated => "expected `unterminated`"
  | notTransformPart => "expected `wire`, `pre_pack` or `post_unpack`"
  | transformIncomplete =>
    "`transform` needs `wire = Type`, `pre_pack = path` and `post_unpack = path`"
  | bothTags => "a union cannot have both an external `tag` and an `internal_tag`"
  | mixedForms new old => new ++ " options cannot be combined with " ++ old ++ " options"
  | noArguments => "expected attribute arguments in parentheses: #[bitpack(...)]"
  | valueForArguments => "expected parentheses: #[bitpack(...)]"

/-! ## Acting on a request -/

namespace Request

/-- Give the request a form other than the integer one. A form of the same kind is replaced. -/
def withForm (r : Request) (new : Form) : Except RequestError Request :=
  match r.form, new with
  | none, _ => .ok { r with form := some new }
  | some (.tagged _ old), .tagged _ internal =>
    if old = internal then .ok { r with form := some new } else .error .bothTags
  | some old, _ =>
    if old.title = new.title then .ok { r with form := some new }
    else .error (.mixedForms new.title old.title)

/-- Change the keys of the integer form. -/
def withInteger (r : Request) (update : Option Nat → Option (Int × Int) → Form) :
    Except RequestError Request :=
  match r.form with
  | none => .ok { r with form := some (update none none) }
  | some (.integer bits range) => .ok { r with form := some (update bits range) }
  | some old => .error (.mixedForms "integer" old.title)

/-- Let a directive act on a request. -/
def apply (r : Request) : Directive → Except RequestError Request
  | .omitted => .ok { r with omitted := true }
  | .default value => .ok { r with default := some value }
  | .id n => .ok { r with variantId := some n }
  | .preset name => .ok { r with preset := some name }
  | .bitcount n => r.withInteger fun _ range => .integer (some n) range
  | .range min max => r.withInteger fun bits _ => .integer bits (some (min, max))
  | .string unterminated => r.withForm (.text unterminated)
  | .opaqueBuffer => r.withForm .buffer
  | .transform t => r.withForm (.transform t)
  | .tag field => r.withForm (.tagged field false)
  | .internalTag field => r.withForm (.tagged field true)

end Request

/-! ## Reading -/

/-- A reader whose errors are those of requests. -/
abbrev RequestReading := ReadingWith RequestError

instance : MonadLift Reading RequestReading where
  monadLift := Reading.lifted .unreadable

namespace RequestReading

/-- Read what stands behind an equality sign. -/
def assigned {α : Type} (reader : Reading α) : RequestReading α := do
  discard (Reading.sign "=")
  reader

/-- The arguments of the option `string`, which may be absent. -/
def stringArguments : RequestReading Bool := do
  if ← Reading.peek (.group .paren) then
    nestedOptions .unreadable (fun _ word => do
      if word = some "unterminated" then return true else throw .notUnterminated) false
  else return false

/-- The parts of a transform, none of them known at first. -/
structure TransformParts where
  wire : Option TypeExpr
  prePack : Option Fragment
  postUnpack : Option Fragment

/-- Read one of the parts of a transform. -/
def transformPart (parts : TransformParts) (word : Option String) :
    RequestReading TransformParts := do
  if word = some "wire" then return { parts with wire := ← assigned Reading.type }
  else if word = some "pre_pack" then return { parts with prePack := ← assigned Reading.path }
  else if word = some "post_unpack" then return { parts with postUnpack := ← assigned Reading.path }
  else throw .notTransformPart

/-- The arguments of the option `transform`. -/
def transformArguments : RequestReading Transform := do
  match ← nestedOptions .unreadable transformPart ⟨none, none, none⟩ with
  | ⟨some wire, some prePack, some postUnpack⟩ => return ⟨wire, prePack, postUnpack⟩
  | _ => throw .transformIncomplete

/-- The bounds of a range. -/
def rangeArguments : Reading (Int × Int) :=
  Reading.group .paren do
    let min ← Reading.signed
    discard (Reading.sign ",")
    let max ← Reading.signed
    discard (Reading.sign? ",")
    return (min, max)

/-- Read the directive behind its word. -/
def directive (word : String) : RequestReading Directive := do
  match word with
  | "omit" => return .omitted
  | "default" => return .default (← assigned Reading.value)
  | "id" =>
    let n ← assigned Reading.signed
    if -patterns 63 ≤ n && n < patterns 63 then return .id n else throw .idOutOfRange
  | "inherit" =>
    let preset ← assigned Reading.string
    if preset.isEmpty then throw .blankPreset else return .preset preset
  | "bitcount" => return .bitcount (← assigned (Reading.unsigned 32))
  | "range" =>
    let (min, max) ← rangeArguments
    return .range min max
  | "string" => return .string (← stringArguments)
  | "opaque_buffer" => return .opaqueBuffer
  | "transform" => return .transform (← transformArguments)
  | "tag" => return .tag (← assigned Reading.name)
  | "internal_tag" => return .internalTag (← assigned Reading.name)
  | word => throw (.unknownOption word)

end RequestReading

namespace Request

/-- Read one option and let it act on a request. -/
def step (r : Request) (word : Option String) : RequestReading Request := do
  match word with
  | none => throw .notAnOption
  | some word => r.apply (← RequestReading.directive word)

/-- Let a list of options act on a request: the request it becomes, and the first error. -/
def applyOptions (r : Request) (tokens : Tokens) : Request × Option RequestError :=
  runOptions .unreadable step r tokens

end Request

end BitLayout
