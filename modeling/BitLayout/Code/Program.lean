import BitLayout.Code.Items
import BitLayout.Listing
import BitLayout.Sector.Packing
import BitLayout.Text.Quoted
import BitLayout.Text.Uppercase
import BitLayout.Token.Printer

/-!
# BitLayout.Code.Program

The program that is generated for a layout:

1. the procedures that read and save a sector, by its number;
2. if there are several sectors, a pair of functions for each of them;
3. a pair of functions for each record that is moved whole, also by another such function;
4. checks that the functions of every transform lead from its type to the type on the wire and back;
5. listings of data objects, where they are asked for.
-/

namespace BitLayout

/-- What a function does. -/
inductive FunctionBody where
  | statements (body : List Statement)
  /-- Nothing but for the first sector. -/
  | firstSector (body : List Statement)
  /-- Leave the work to the functions of so many sectors. -/
  | dispatch (sectors : Nat)

/-- A function in generated code. -/
structure Function where
  doc : List String
  direction : Direction
  /-- Whether it is one of the two procedures: visible, and told the number of a sector. -/
  isProcedure : Bool
  name : String
  /-- What it moves. -/
  objects : List DataObject
  body : FunctionBody

/-- A generated program. -/
structure Program where
  procedures : List Function
  sectorFunctions : List Function
  recordFunctions : List Function
  checks : List Tokens
  /-- Names of constants, with the lines of their listings. -/
  listings : List (String × List String)

namespace Program

/-! ## Functions -/

/-- The name of the function that moves one of several sectors. -/
def sectorFunction (d : Direction) (sector : Nat) : String :=
  match d with
  | .read => "__bitpack_read_sector_" ++ toString sector
  | .save => "__bitpack_save_sector_" ++ toString sector

/-- The name of a procedure. -/
def procedureName (c : Config) : Direction → String
  | .read => c.readName
  | .save => c.saveName

/-- What the statements of a direction are made for. -/
def purpose (c : Config) (d : Direction) : Purpose := ⟨d, c.structFunctions⟩

/-- The description of a procedure for a reader. -/
def procedureDoc (c : Config) (sectors : List Sector) : Direction → List String
  | .read =>
    ["Reads sector `sector_id` (0.." ++ toString sectors.length ++
      ") of the packed data from `state`."]
  | .save =>
    ["Writes sector `sector_id` (0.." ++ toString sectors.length ++
      ") of the packed data to `state`.", "", "_Sector layout_"] ++
    sectorTable c.capacity sectors

/-- The statements of a sector. -/
def sectorStatements (c : Config) (d : Direction) (s : Sector) : List Statement :=
  Items.statements (purpose c d) 0 s.items

/-- A procedure. -/
def procedure (c : Config) (sectors : List Sector) (d : Direction) : Function where
  doc := procedureDoc c sectors d
  direction := d
  isProcedure := true
  name := procedureName c d
  objects := c.objects
  body :=
    match sectors with
    | [] => .firstSector []
    | [s] => .firstSector (sectorStatements c d s)
    | _ => .dispatch sectors.length

/-- Both directions of a function. -/
def bothWays (f : Direction → Function) : List Function := [f .read, f .save]

/-- The functions of the sectors, if there are several. -/
def sectorFunctionsOf (c : Config) (sectors : List Sector) : List Function :=
  if sectors.length ≤ 1 then []
  else sectors.zipIdx.flatMap fun (s, number) => bothWays fun d =>
    { doc := []
      direction := d
      isProcedure := false
      name := sectorFunction d number
      objects := c.objects
      body := .statements (sectorStatements c d s) }

/-! ## Functions of records -/

/-- The place of the struct that a record's function is given. -/
def recordPlace : Place := .object "value"

/-- The statements of a record's function. -/
def recordStatements (c : Config) (m : Model) (d : Direction) (record : String) : List Statement :=
  Transfer.fields (purpose c d) 0 (m.membersOf record) recordPlace 0

/-- A record's function. -/
def recordFunctionOf (c : Config) (m : Model) (record : String) (d : Direction) : Function where
  doc := []
  direction := d
  isProcedure := false
  name := recordFunction d record
  objects := [⟨"value", .name record⟩]
  body := .statements (recordStatements c m d record)

mutual

/-- The records that a statement moves whole. -/
def recordsMoved : Statement → List String
  | .move (.record _ name) => [name]
  | .move _ => []
  | .wire _ _ _ body => recordsMovedAll body
  | .loop _ body => recordsMovedAll body
  | .choice arms => recordsMovedByArms arms

/-- The records that statements move whole. -/
def recordsMovedAll : List Statement → List String
  | [] => []
  | s :: rest => recordsMoved s ++ recordsMovedAll rest

/-- The records that the arms of a choice move whole. -/
def recordsMovedByArms : List Arm → List String
  | [] => []
  | .mk _ _ body :: rest => recordsMovedAll body ++ recordsMovedByArms rest

end

/-- The first of some names in alphabetical order. -/
def leastName? : List String → Option String
  | [] => none
  | name :: rest =>
    match leastName? rest with
    | none => some name
    | some other => some (if other < name then other else name)

/-- Go on to the first record that is called for and not done yet, and to those that its functions
call for, at most `budget` times. -/
def recordsNeededWithin (c : Config) (m : Model) :
    (budget : Nat) → (called done : List String) → List String
  | 0, _, done => done
  | budget + 1, called, done =>
    match leastName? (called.filter (!done.contains ·)) with
    | none => done
    | some record =>
      recordsNeededWithin c m budget
        (called ++ recordsMovedAll (recordStatements c m .read record))
        (done ++ [record])

/-- The records that need functions, in the order in which they are written. -/
def recordsNeeded (c : Config) (m : Model) (sectors : List Sector) : List String :=
  recordsNeededWithin c m m.records.length
    (sectors.flatMap fun s => recordsMovedAll (sectorStatements c .read s)) []

/-! ## Checks and listings -/

/-- The check of a transform. -/
def transformCheck (type : TypeExpr) (t : Transform) : Tokens :=
  let one := fun (source target : TypeExpr) (function : Tokens) =>
    .ident "const" :: .ident "_" :: .sign ':' :: .ident "fn" ::
      Phrase.parens (Phrase.shared source.tokens) ++ [.punct '-' true, .sign '>'] ++
      target.tokens ++ .sign '=' :: function ++ [.sign ';']
  one type t.wire t.prePack.tokens ++ one t.wire type t.postUnpack.tokens

/-- Add a check to checks in alphabetical order, unless it is there. -/
def insertCheck (check : Tokens) : List Tokens → List Tokens
  | [] => [check]
  | other :: rest =>
    if check.spaced < other.spaced then check :: other :: rest
    else if check.spaced = other.spaced then other :: rest
    else other :: insertCheck check rest

/-- The checks of all transforms. -/
def transformChecks (m : Model) : List Tokens :=
  m.decls.foldl
    (fun checks d =>
      match d.kind with
      | .transformed t => insertCheck (transformCheck d.type t) checks
      | _ => checks)
    []

/-- The listings that are asked for. -/
def listingsOf (c : Config) (m : Model) : List (String × List String) :=
  c.listed.filterMap fun name =>
    (m.roots.find? (·.name = name)).map fun d =>
      (Text.uppercase name ++ "_LAYOUT", objectListing c.inlineThreshold d)

/-- The names that are made for a program: those of the functions of records, of the types that
these move, and of the listings. -/
def madeNames (c : Config) (m : Model) (sectors : List Sector) : List String :=
  (recordsNeeded c m sectors).flatMap (fun r => [recordFunction .read r, recordFunction .save r, r])
    ++ (listingsOf c m).map Prod.fst

/-- The program for a packed layout. -/
def generate (c : Config) (m : Model) (sectors : List Sector) : Program where
  procedures := bothWays (procedure c sectors)
  sectorFunctions := sectorFunctionsOf c sectors
  recordFunctions := (recordsNeeded c m sectors).flatMap fun r => bothWays (recordFunctionOf c m r)
  checks := transformChecks m
  listings := listingsOf c m

/-! ## Text -/

/-- A text as a literal. -/
def literal (text : String) : Tokens := [.literal (Text.Quoted.literal text)]

/-- A line of documentation. -/
def docLine (line : Tokens) : Tokens := Phrase.attr (.ident "doc" :: .sign '=' :: line)

/-- What the checker of the language is not to complain about. -/
def allowances : Tokens :=
  Phrase.attr (Phrase.call (Phrase.word "allow")
    (["non_snake_case", "unused_variables", "unused_unsafe", "unused_mut", "unused_parens",
      "unused_braces"].map Phrase.word))

/-- The name for the number of a sector. -/
def sectorWord : Tokens := Phrase.word "sector_id"

/-- A reference type that a function of a direction takes. -/
def reference (d : Direction) (type : TypeExpr) : Tokens :=
  match d with
  | .read => Phrase.exclusive type.tokens
  | .save => Phrase.shared type.tokens

/-- The text of what a function does. -/
def bodyTokens (c : Config) (f : Function) : Tokens :=
  let text := statementTokens (c.streamFunctions f.direction) f.direction
  match f.body with
  | .statements body => text body
  | .firstSector body =>
    .ident "if" :: sectorWord ++ [.punct '!' true, .sign '='] ++ Phrase.number 0 ++
      Phrase.braces (Phrase.statement (Phrase.word "return")) ++ text body
  | .dispatch sectors =>
    let handedOn := streamWord ++ .sign ',' :: Phrase.commas (f.objects.map (Phrase.word ·.name))
    .ident "match" :: sectorWord ++ Phrase.braces (
      (List.range sectors).flatMap (fun number =>
        Phrase.number number ++ [.punct '=' true, .sign '>'] ++
          Phrase.word (sectorFunction f.direction number) ++ Phrase.parens handedOn ++
          [.sign ',']) ++
      Phrase.word "_" ++ [.punct '=' true, .sign '>'] ++ Phrase.braces [])

end Program

/-- The text of a function. -/
def Function.tokens (c : Config) (f : Function) : Tokens :=
  f.doc.flatMap (fun line => Program.docLine (Program.literal line)) ++ Program.allowances ++
    (if f.isProcedure then Phrase.word "pub" else []) ++ .ident "fn" :: .ident f.name ::
    Phrase.parens (
      Phrase.typed "state" (Phrase.exclusive c.stream.tokens) ++ [.sign ','] ++
      (if f.isProcedure then Phrase.typed "sector_id" (Phrase.word "u32") ++ [.sign ','] else []) ++
      Phrase.commas (f.objects.map fun o =>
        Phrase.typed o.name (Program.reference f.direction o.type))) ++
    Phrase.braces (Program.bodyTokens c f)

namespace Program

/-- The text of a listing. -/
def listingTokens (name : String) (lines : List String) : Tokens :=
  docLine [.literal "r\" Flattened serialization items of this data object.\""] ++
    .ident "pub" :: .ident "const" :: Phrase.typed name (Phrase.shared (Phrase.word "str")) ++
    .sign '=' :: literal (String.join (lines.map (· ++ "\n"))) ++ [.sign ';']

/-- All functions. -/
def functions (p : Program) : List Function :=
  p.procedures ++ p.sectorFunctions ++ p.recordFunctions

/-- The text of a program. -/
def tokens (c : Config) (p : Program) : Tokens :=
  p.functions.flatMap (Function.tokens c) ++ p.checks.flatten ++
    p.listings.flatMap fun (name, lines) => listingTokens name lines

end Program

end BitLayout
