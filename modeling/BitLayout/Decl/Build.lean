import BitLayout.Decl.Check

/-!
# BitLayout.Decl.Build

Taking the data objects apart into declarations. Each record is taken apart once, and each union is
checked once for a tag; a record that is met again inside itself is refused. What is at fault is
reported and left out of the data, so that all faults come to light together.

The types on the wire of transformed declarations are followed as far as they lead. A chain of them
that is longer than the requests there are comes back to a type it has passed, and would go on
forever: then there are no declarations at all (`none`).
-/

namespace BitLayout

/-- What a union is checked for: its name, the tag, and whether the tag is internal. -/
structure Selection where
  union : String
  tag : String
  internal : Bool
deriving DecidableEq, Repr

/-- What has been found so far. -/
structure Findings where
  /-- How many declarations there are. -/
  size : Nat
  /-- The records that are taken apart, with their members. -/
  records : List (String × List Decl)
  /-- The unions that are checked, with their shared fields, if they passed. -/
  unions : List (Selection × Option Nat)
  errors : List DeclError

/-- A step that adds to what has been found, unless it would never end. -/
abbrev Building := StateT Findings Option

namespace Building

/-- Report an error. -/
def report (e : DeclError) : Building Unit :=
  modify fun found => { found with errors := found.errors ++ [e] }

/-- Make a declaration, with the next number. -/
def declare (info : Nat → DeclInfo) (members : List Decl) (wire : Option Decl) : Building Decl :=
  modifyGet fun found =>
    (.mk (info found.size) members wire, { found with size := found.size + 1 })

/-- Leave a declaration out if something is wrong with it. -/
def unlessFault (d : Decl) : Option DeclError → Building Decl
  | none => return d
  | some e => do
    report e
    return d.dropped

/-- The shared fields of a union under a tag, `none` if it is refused. A fault is reported when it
is found for the first time. -/
def checkedVariants (g : Registry) (s : Selection) (variants : List Decl) :
    Building (Option Nat) := do
  match (← get).unions.lookup s with
  | some outcome => return outcome
  | none =>
    let outcome ← match Decl.checkVariants g s.union s.tag s.internal variants with
      | .ok n => pure (some n)
      | .error e => do
        report e
        pure none
    modify fun found => { found with unions := (s, outcome) :: found.unions }
    return outcome

/-- Check a new declaration. -/
def checked (g : Registry) (d : Decl) : Building Decl := do
  match d.kind, d.wire, d.record? with
  | .transformed _, some wire, _ => unlessFault d (Decl.wireFault? wire)
  | .union tag internal, _, some union =>
    match ← checkedVariants g ⟨union, tag, internal⟩ d.members with
    | some n => return .mk { d.info with sharedFields := n } d.members d.wire
    | none => return d.dropped
  | _, _, _ => return d

/-- Check the tags of the members of a record. -/
def checkedTags (kind : RecordKind) (members : List Decl) : Building (List Decl) :=
  members.zipIdx.mapM fun (m, position) => unlessFault m (Decl.tagFault? kind members position m)

/-- Make a declaration and those below it, where `membersOf` takes a record apart. One unit of
`budget` is spent for it and for each value on the wire in a chain. -/
def build (c : Config) (g : Registry) (membersOf : String → Building (List Decl)) :
    (budget : Nat) → (name : String) → TypeExpr → Option Request → Building Decl
  | 0, _, _, _ => failure
  | budget + 1, name, type, own => do
    let ⟨encoding, extents, elem⟩ ← match c.resolve g own type with
      | .ok r => pure r
      | .error e => do
        report (.unresolved e)
        pure ⟨.dropped, [], none⟩
    let shape := elem.map Element.shape
    let members ← match encoding.kind, shape with
      | .struct, some (.record record _) => membersOf record
      | .union _ _, some (.record record _) => membersOf record
      | _, _ => pure []
    let wire ← match encoding.kind with
      | .transformed t => some <$> build c g membersOf budget name t.wire none
      | _ => pure none
    let d ← declare
      (⟨·, name, (elem.map Element.type).getD type, shape, extents, encoding, 0⟩) members wire
    checked g d

/-- How long a chain of values on the wire can be that passes no type twice. -/
def wireBudget (c : Config) (g : Registry) : Nat :=
  g.aliases.length + g.records.length + c.presets.length + 2

/-- Take a record apart, where `around` holds the records that it stands in, and at most `depth`
more can be entered. -/
def membersOf (c : Config) (g : Registry) :
    (depth : Nat) → (around : List String) → (record : String) → Building (List Decl)
  | depth, around, record => do
    match (← get).records.lookup record with
    | some members => return members
    | none =>
      if around.contains record then
        report (.recursive record)
        return []
      match g.record? record, depth with
      | none, _ => return []
      | some _, 0 => failure
      | some found, depth + 1 =>
        let members ← found.fields.mapM fun f =>
          build c g (membersOf c g depth (record :: around)) (wireBudget c g) f.name f.type
            (some f.request)
        let members ← checkedTags found.kind members
        modify fun found => { found with records := (record, members) :: found.records }
        return members

/-- Take a data object apart. -/
def object (c : Config) (g : Registry) (o : DataObject) : Building Decl := do
  let d ← build c g (membersOf c g g.records.length []) (wireBudget c g) o.name o.type none
  match d.kind with
  | .union _ false => unlessFault d (some .outsideStruct)
  | _ => return d

end Building

/-- The data objects of a layout, taken apart. -/
structure Model where
  /-- The data objects, by groups. -/
  groups : List (List Decl)
  /-- The members of every record that occurs in them. -/
  records : List (String × List Decl)
  errors : List DeclError

namespace Model

/-- Take all data objects apart; `none` if that would never end. -/
def build (c : Config) (g : Registry) : Option Model :=
  let objects : Building (List (List Decl)) := c.groups.mapM (List.mapM (Building.object c g))
  (objects.run ⟨0, [], [], []⟩).map fun (groups, found) => ⟨groups, found.records, found.errors⟩

/-- The data objects in order. -/
def roots (m : Model) : List Decl := m.groups.flatten

/-- All declarations, by number. -/
def decls (m : Model) : List Decl := Decl.collectAll [] m.roots

/-- The members of a record. -/
def membersOf (m : Model) (record : String) : List Decl := (m.records.lookup record).getD []

end Model

end BitLayout
