import BitLayout.Decl.Basic
import BitLayout.Proofs.Encoding.Elements
import BitLayout.Proofs.Request.Directives

/-!
# BitLayout.Proofs.Memory.Layout

Where the fields of a struct stand in memory, if it is laid out as in C: in their order, each at the
next multiple of its alignment.

```
offset(0)      =  0
offset(k + 1)  =  offset(k) + size(k), rounded up to align(k + 1)
```

A struct that is `packed` caps the alignment of its fields. One that asks for more `align` grows
behind its last field, so its fields stand where they would without.

How much memory a type takes is up to the compiler, and a parameter here. `Memory.Lawful` is what
is relied on: an array is its elements in a row, and neither parentheses nor aliases make a
difference.

* `Footprint.offsetFrom?_take`: where a field stands depends on those in front of it;
* `Memory.Lawful.of_unfold`: a type takes what its element takes, once for each.
-/

namespace BitLayout

/-! ## structs -/

/-- The bytes of a value in memory, and what its address is a multiple of. -/
structure Footprint where
  size : Nat
  align : Nat
deriving DecidableEq, Repr

namespace Footprint

/-- The first multiple of an alignment from a position on. -/
def roundUp (position align : Nat) : Nat := position + (align - position % align) % align

/-- The alignment of a field, which the struct may cap. -/
def alignIn (cap : Option Nat) (f : Footprint) : Nat := cap.elim f.align (min f.align)

/-- Where the first field of a name begins, among fields that are laid out from a position on. -/
def offsetFrom? (cap : Option Nat) (name : String) (position : Nat) :
    List (String × Footprint) → Option Nat
  | [] => none
  | (field, f) :: rest =>
    let start := roundUp position (f.alignIn cap)
    if field = name then some start else offsetFrom? cap name (start + f.size) rest

/-- Values in a row. -/
def row (n : Nat) (f : Footprint) : Footprint := ⟨n * f.size, f.align⟩

theorem row_one (f : Footprint) : f.row 1 = f := by rw [row, Nat.one_mul]

theorem row_row (n k : Nat) (f : Footprint) : (f.row k).row n = f.row (n * k) := by
  rw [row, row, row, Nat.mul_assoc]

section Offsets

variable {cap : Option Nat} {name : String} {fields : List (String × Footprint)}

/-- A field stands somewhere. -/
theorem isSome_offsetFrom? (h : name ∈ fields.map Prod.fst) (position : Nat) :
    (offsetFrom? cap name position fields).isSome = true := by
  induction fields generalizing position with
  | nil => cases h
  | cons f rest ih =>
    rw [offsetFrom?]
    split
    · rfl
    · next hne => exact ih ((List.mem_cons.1 h).resolve_left (Ne.symm hne)) _

/-- Where a field begins depends on nothing behind it. -/
theorem offsetFrom?_take {n : Nat} (h : name ∈ (fields.take n).map Prod.fst) (position : Nat) :
    offsetFrom? cap name position fields = offsetFrom? cap name position (fields.take n) := by
  induction fields generalizing n position with
  | nil => rw [List.take_nil]
  | cons f rest ih =>
    cases n with
    | zero => cases h
    | succ n =>
      rw [List.take_succ_cons] at h ⊢
      rw [offsetFrom?, offsetFrom?]
      split
      · rfl
      · next hne => exact ih ((List.mem_cons.1 h).resolve_left (Ne.symm hne)) _

/-- Caps that make no difference to the alignment of fields make none to where they begin. -/
theorem offsetFrom?_congr {cap' : Option Nat}
    (h : ∀ f ∈ fields, f.2.alignIn cap = f.2.alignIn cap') (position : Nat) :
    offsetFrom? cap name position fields = offsetFrom? cap' name position fields := by
  induction fields generalizing position with
  | nil => rfl
  | cons f rest ih =>
    obtain ⟨hfirst, hrest⟩ := List.forall_mem_cons.1 h
    rw [offsetFrom?, offsetFrom?, hfirst, ih hrest]

end Offsets

end Footprint

/-! ## definitions -/

/-- The cap among the hints of a representation: `packed(n)`, or `packed` for one byte. -/
def packedHint? : Tokens → Option Nat
  | .ident "packed" :: .opening .paren :: .literal bytes :: _ => integerMagnitude? bytes
  | .ident "packed" :: _ => some 1
  | _ :: rest => packedHint? rest
  | [] => none

namespace RecordDefinition

/-- The cap on the alignment of the fields of a record. -/
def cap (d : RecordDefinition) : Option Nat :=
  (d.attrs.filter (·.isNamed "repr")).findSome? fun a =>
    match a.content with
    | .group _ tokens => packedHint? tokens
    | _ => none

/-- The fields of a record, with what they take. -/
def fields (memory : Tokens → Footprint) (d : RecordDefinition) : List (String × Footprint) :=
  d.body.namedFields.map fun f => (f.name, memory f.type.tokens)

/-- Where a field of a struct begins that is laid out as in C. -/
def offset? (memory : Tokens → Footprint) (d : RecordDefinition) (name : String) : Option Nat :=
  Footprint.offsetFrom? d.cap name 0 (d.fields memory)

end RecordDefinition

/-! ## types -/

/-- A type that is written in the declarations of a module, as a whole or as a part of another. -/
inductive Registry.Writes (g : Registry) : TypeExpr → Prop where
  | field {r : Record} {f : Field} (hr : r ∈ g.records) (hf : f ∈ r.fields) : Writes g f.type
  | target {a : TypeAlias} (ha : a ∈ g.aliases) : Writes g a.target
  | inner {type : TypeExpr} (h : Writes g (.paren type)) : Writes g type
  | grouped {type : TypeExpr} (h : Writes g (.group type)) : Writes g type
  | elem {type : TypeExpr} {length : ArrayLength} (h : Writes g (.array type length)) :
    Writes g type

/-- What types take in memory is lawful for a module: parentheses and aliases make no difference,
and an array is its elements in a row. Types with the same tokens are the same. -/
structure Memory.Lawful (g : Registry) (memory : Tokens → Footprint) : Prop where
  paren : ∀ type, g.Writes (.paren type) → memory (TypeExpr.paren type).tokens = memory type.tokens
  array : ∀ elem length n, g.Writes (.array elem length) → arrayExtent length = .ok n →
    memory (TypeExpr.array elem length).tokens = (memory elem.tokens).row n
  aliased : ∀ name found, g.plainShape? name = none → g.alias? name = some found →
    memory (TypeExpr.name name).tokens = memory found.target.tokens

namespace Memory.Lawful

variable {g : Registry} {memory : Tokens → Footprint} {type : TypeExpr}

/-- A type without the parentheses and invisible groups around it is written, too, and takes the
same. -/
theorem unwrapped (h : Lawful g memory) (hw : g.Writes type) :
    g.Writes type.unwrapped ∧ memory type.tokens = memory type.unwrapped.tokens := by
  induction type with
  | paren inner ih =>
    obtain ⟨hinner, hmemory⟩ := ih (.inner hw)
    exact ⟨hinner, (h.paren inner hw).trans hmemory⟩
  | group inner ih => exact ih (.grouped hw)
  | _ => exact ⟨hw, rfl⟩

/-- A type takes what its element takes, once for each of them. -/
theorem of_unfold (h : Lawful g memory) {budget : Nat} {t : TypeRef}
    (hunfold : g.unfold budget type = .ok t) (hw : g.Writes type) :
    memory type.tokens = (memory t.elem.type.tokens).row (Decl.elementCount t.extents) := by
  induction budget generalizing type t with
  | zero => simp [Registry.unfold] at hunfold
  | succ budget ih =>
    obtain ⟨hwrites, hmemory⟩ := h.unwrapped hw
    rw [hmemory]
    rcases Registry.unfold_inv hunfold with
      ⟨elem, length, extent, inner, htype, hextent, hinner, rfl⟩ |
      ⟨name, shape, htype, hplain, rfl⟩ | ⟨name, found, inner, htype, hplain, halias, hinner, rfl⟩
    · rw [htype] at hwrites ⊢
      rw [h.array elem length extent hwrites hextent, ih hinner (.elem hwrites), Footprint.row_row]
      rfl
    · rw [htype]
      exact (Footprint.row_one _).symm
    · rw [htype]
      obtain ⟨ranks, elem⟩ := inner
      cases ranks with
      | nil => exact (Footprint.row_one _).symm
      | cons rank ranks =>
        have hfound : found ∈ g.aliases := List.mem_of_find?_eq_some halias
        rw [h.aliased name found hplain halias, ih hinner (.target hfound)]
        rfl

/-- Where all fields have types that are names of their own, nothing is asked of their memory. -/
theorem of_names (haliases : g.aliases = [])
    (hfields : ∀ r ∈ g.records, ∀ f ∈ r.fields, ∃ name, f.type = .name name)
    (memory : Tokens → Footprint) : Lawful g memory := by
  have hname : ∀ type, g.Writes type → ∃ name, type = .name name := by
    intro type hwrites
    induction hwrites with
    | field hr hf => exact hfields _ hr _ hf
    | target ha => simp [haliases] at ha
    | inner _ ih => simp at ih
    | grouped _ ih => simp at ih
    | elem _ ih => simp at ih
  constructor
  · intro type hwrites
    simpa using hname _ hwrites
  · intro elem length n hwrites
    simpa using hname _ hwrites
  · intro name found _ hfound
    simp [Registry.alias?, haliases] at hfound

end Memory.Lawful

end BitLayout
