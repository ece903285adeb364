import BitLayout.Item.Flatten
import BitLayout.Sector.Offsets

/-!
# BitLayout.Listing

Listings of what travels, for a reader: the items of every sector with their offsets and sizes, and
the items of one data object with their sizes. A listing is a list of lines.
-/

namespace BitLayout

/-- A text with spaces in front of it, to a width. -/
def alignRight (width : Nat) (s : String) : String := "".pushn ' ' (width - s.length) ++ s

/-- A text with spaces behind it, to a width. -/
def alignLeft (width : Nat) (s : String) : String := s.pushn ' ' (width - s.length)

/-- A run of indices as text. -/
def Access.text (a : Access) : String :=
  if a.isSlice then "[" ++ toString a.start ++ ".." ++ toString a.stop ++ "]"
  else "[" ++ toString a.start ++ "]"

/-- A step as text. -/
def Step.text (s : Step) : String := s.decl.name ++ String.join (s.accesses.map Access.text)

/-- A path as text. -/
def Path.text (p : Path) : String := ".".intercalate (p.steps.map Step.text)

/-- A condition as text. -/
def Condition.text (c : Condition) : String := c.tag.text ++ " == " ++ toString c.value

/-- What travels, as text. -/
def Content.text : Content → String
  | value p => p.text ++ if p.last.decl.isOmitted then " (omitted, defaulted)" else ""
  | padding _ true => "(unused)"
  | padding _ false => "(padding)"

/-- An item as text. -/
def Item.text (i : Item) : String :=
  (if i.conditions.isEmpty then ""
    else "if " ++ " && ".intercalate (i.conditions.map Condition.text) ++ ": ") ++
  i.content.text

/-- The lines of a sector. -/
def Sector.lines (capacity number : Nat) (s : Sector) : List String :=
  ("sector " ++ toString number ++ ": " ++ toString s.bitLength ++ " of " ++ toString capacity
    ++ " bits") ::
  (s.items.zip s.layout).map fun (i, offset, size) =>
    "  @" ++ alignLeft 5 (toString offset) ++ " " ++ alignRight 5 (toString size) ++ "  " ++ i.text

/-- The items of all sectors, fenced as plain text. -/
def sectorTable (capacity : Nat) (sectors : List Sector) : List String :=
  "```text" :: sectors.zipIdx.flatMap (fun (s, number) => s.lines capacity number) ++ ["```"]

/-- The items of a data object, where arrays of up to `threshold` elements stay whole. -/
def objectListing (threshold : Nat) (d : Decl) : List String :=
  (d.name ++ ": " ++ toString d.bits ++ " bits") ::
  ((Item.root d).flatten threshold).map fun i =>
    "  " ++ alignRight 5 (toString i.bits) ++ "  " ++ i.text

end BitLayout
