import BitLayout.Proofs.Code.Halves
import BitLayout.Proofs.Code.Names
import BitLayout.Proofs.Decl.Variants

/-!
# BitLayout.Proofs.Code.Variables

The variables of generated code, and what the names in it stand for. Loops bind an index each, and
the value on the wire of a transform has a local of its own:

```
for __i0 in 0..3 {                       __i0: an index of (*obj).rows
    let __w1 = pack(&(*obj).rows[__i0]);    __w1: a value on the wire
    for __i2 in 0..2 {                   __i2: an index of __w1
        write_u8(state, __w1[__i2], 8);
    }
}
```

A name stands for the variable that is bound last around it, and for a data object if none is. All
variables are numbered from the outside in, by one counter that is handed down, so none of them
hides another one, and every place leads where it was made to lead.

* `Place.LeadsTo`: where a place leads, among variables;
* `Statement.Scoped`: all places in a statement lead to declarations, and nothing in it is hidden;
* `ScopedAll.nodup`: the variables along every way into statements have different names;
* `ScopedAll.follows`: code for a declaration is scoped where its place leads to the declaration.
-/

namespace BitLayout

/-! ## variables -/

/-- A variable that generated code binds. -/
inductive Variable where
  /-- An index of an array, in a loop over some of its indices. -/
  | index (l : Loop) (array : Place)
  /-- The local of a value on the wire. -/
  | wire (number : Nat) (value : Decl)
  /-- The local for the bytes of a number. -/
  | bytes

namespace Variable

/-- The name of a variable. -/
def name : Variable → String
  | index l _ => loopName l.number
  | wire number _ => wireName number
  | bytes => "__bytes"

/-- The variable that a name stands for, if any, among those around it, innermost first. -/
def named? (around : List Variable) (name : String) : Option Variable :=
  around.find? (·.name = name)

/-- A variable hides nothing around it, neither a variable nor a data object. -/
structure Fresh (objects : List Decl) (around : List Variable) (v : Variable) : Prop where
  around : ∀ u ∈ around, u.name ≠ v.name
  objects : ∀ d ∈ objects, identifierName d.name ≠ v.name

end Variable

/-! ## places -/

/-- Where a place leads, among data objects and the variables around it: to a declaration, as far as
the ranks that are not indexed yet. An index stands behind the array that its loop is for, and is
one of the indices of the array. -/
inductive Place.LeadsTo (objects : List Decl) (around : List Variable) :
    Place → Decl → List Nat → Prop where
  | object {d : Decl} (hd : d ∈ objects)
    (hfree : Variable.named? around (identifierName d.name) = none) :
    LeadsTo objects around (.object d.name) d d.extents
  | wire {number : Nat} {w : Decl}
    (hw : Variable.named? around (wireName number) = some (.wire number w)) :
    LeadsTo objects around (.wire number) w w.extents
  | field {owner : Place} {d m : Decl} {ofUnion : Bool} (h : LeadsTo objects around owner d [])
    (hm : m ∈ d.members) : LeadsTo objects around (.field owner m.name ofUnion) m m.extents
  | constant {array : Place} {d : Decl} {extent k : Nat} {rest : List Nat}
    (h : LeadsTo objects around array d (extent :: rest)) (hk : k < extent) :
    LeadsTo objects around (.element array (.constant k)) d rest
  | loop {array : Place} {d : Decl} {extent number : Nat} {rest : List Nat} {l : Loop}
    (h : LeadsTo objects around array d (extent :: rest))
    (hl : Variable.named? around (loopName number) = some (.index l array))
    (hstop : l.stop ≤ extent) : LeadsTo objects around (.element array (.loop number)) d rest

/-- A place leads to one element of a declaration. -/
def Place.IsElement (objects : List Decl) (around : List Variable) (p : Place) : Prop :=
  ∃ d, p.LeadsTo objects around d []

/-! ## statements -/

/-- The place of a move leads to an element, also inside the block that the move opens. -/
def Move.Scoped (objects : List Decl) (around : List Variable) : Move → Prop
  | .bool p _ | .integer p _ _ | .text p _ _ | .row p _ | .record p _ | .default p _ =>
    p.IsElement objects around
  | .bytes p _ _ => p.IsElement objects around ∧ Variable.bytes.Fresh objects around ∧
    p.IsElement objects (.bytes :: around)
  | .padding _ => True

mutual

/-- All places in a statement lead to declarations, among the variables around them, and no variable
that is bound in it hides one around it. The place of a transformed value is used in front of the
local for its wire value and behind it, and a loop stays within the array that it is for. -/
def Statement.Scoped (objects : List Decl) : Statement → List Variable → Prop
  | .move m, around => m.Scoped objects around
  | .wire number t place body, around => ∃ d w, d.kind = .transformed t ∧ d.wire = some w ∧
    place.LeadsTo objects around d [] ∧ Variable.Fresh objects around (.wire number w) ∧
    place.LeadsTo objects (.wire number w :: around) d [] ∧
    ScopedAll objects body (.wire number w :: around)
  | .loop l body, around => ∃ array d extent rest,
    array.LeadsTo objects around d (extent :: rest) ∧ l.stop ≤ extent ∧
    Variable.Fresh objects around (.index l array) ∧
    ScopedAll objects body (.index l array :: around)
  | .choice arms, around => ScopedArms objects arms around

/-- All statements in a row are scoped. -/
def ScopedAll (objects : List Decl) : List Statement → List Variable → Prop
  | [], _ => True
  | s :: rest, around => s.Scoped objects around ∧ ScopedAll objects rest around

/-- The tags of arms lead to elements, and what is done in them is scoped. -/
def ScopedArms (objects : List Decl) : List Arm → List Variable → Prop
  | [], _ => True
  | .mk tag _ body :: rest, around => tag.IsElement objects around ∧
    ScopedAll objects body around ∧ ScopedArms objects rest around

end

/-- A way into statements, through loops and blocks, binds variables of some names. -/
inductive Opens : List Statement → List String → Prop where
  | here (body : List Statement) : Opens body []
  | bytes {body : List Statement} {p : Place} {count : Nat} {type : TypeExpr}
    (hs : .move (.bytes p count type) ∈ body) : Opens body ["__bytes"]
  | wire {body inner : List Statement} {number : Nat} {t : Transform} {p : Place}
    {names : List String} (hs : .wire number t p inner ∈ body) (h : Opens inner names) :
    Opens body (wireName number :: names)
  | loop {body inner : List Statement} {l : Loop} {names : List String}
    (hs : .loop l inner ∈ body) (h : Opens inner names) : Opens body (loopName l.number :: names)
  | arm {body : List Statement} {arms : List Arm} {arm : Arm} {names : List String}
    (hs : .choice arms ∈ body) (ha : arm ∈ arms) (h : Opens arm.body names) : Opens body names

/-- **No capture**: the variables along every way into statements have different names, and every
place in them leads to a declaration by the variables that it is made for. -/
structure CaptureFree (objects : List Decl) (body : List Statement) : Prop where
  distinct : ∀ names, Opens body names → names.Nodup
  places : ScopedAll objects body []

/-! ## names -/

theorem loopName_inj {n k : Nat} (h : loopName n = loopName k) : n = k :=
  toString_inj ((String.append_right_inj "__i").1 h)

theorem wireName_inj {n k : Nat} (h : wireName n = wireName k) : n = k :=
  toString_inj ((String.append_right_inj "__w").1 h)

theorem loopName_ne_wireName (n k : Nat) : loopName n ≠ wireName k := by
  intro h
  have hchars : ("__i" ++ toString n).toList = ("__w" ++ toString k).toList :=
    congrArg String.toList h
  rw [String.toList_append, String.toList_append] at hchars
  exact absurd (congrArg (·[2]?) hchars) (by simp)

namespace Variable

variable {objects : List Decl} {around : List Variable} {n : Nat} {u v : Variable} {name : String}

/-- All variables around are numbered below a number. -/
def Below (n : Nat) (around : List Variable) : Prop :=
  ∀ u ∈ around, ∃ k < n, u.name = loopName k ∨ u.name = wireName k

/-- No data object has a name that begins with underscores, as the variables do. -/
def Apart (objects : List Decl) : Prop :=
  ∀ d ∈ objects, ∀ rest, identifierName d.name ≠ "__" ++ rest

theorem Below.mono {k : Nat} (h : Below n around) (hle : n ≤ k) : Below k around := fun u hu =>
  let ⟨j, hj, hname⟩ := h u hu
  ⟨j, Nat.lt_of_lt_of_le hj hle, hname⟩

/-- With a variable of the next number, all are numbered below the one after it. -/
theorem Below.cons (h : Below n around) (hv : v.name = loopName n ∨ v.name = wireName n) :
    Below (n + 1) (v :: around) :=
  List.forall_mem_cons.2 ⟨⟨n, Nat.lt_succ_self n, hv⟩, h.mono (Nat.le_succ n)⟩

/-- The names of variables begin with underscores. -/
theorem underscores (v : Variable) : ∃ rest, v.name = "__" ++ rest := by
  cases v with
  | index l array =>
    have hbeginning : "__i" = "__" ++ "i" := by decide
    exact ⟨_, (congrArg (· ++ toString l.number) hbeginning).trans (String.append_assoc ..)⟩
  | wire number w =>
    have hbeginning : "__w" = "__" ++ "w" := by decide
    exact ⟨_, (congrArg (· ++ toString number) hbeginning).trans (String.append_assoc ..)⟩
  | bytes => exact ⟨"bytes", by decide⟩

theorem name_ne_bytes (hu : u.name = loopName n ∨ u.name = wireName n) :
    u.name ≠ Variable.bytes.name := by
  have hthird : Variable.bytes.name.toList[2]? = some 'b' := by decide
  intro heq
  rw [← heq] at hthird
  rcases hu with hu | hu <;> rw [hu] at hthird
  · rw [loopName, String.toList_append] at hthird
    exact absurd hthird (by simp)
  · rw [wireName, String.toList_append] at hthird
    exact absurd hthird (by simp)

/-- A variable of the next number hides nothing. -/
theorem Below.fresh (h : Below n around) (ho : Apart objects)
    (hv : v.name = loopName n ∨ v.name = wireName n) : v.Fresh objects around where
  around u hu := by
    obtain ⟨k, hk, hname⟩ := h u hu
    intro heq
    rw [heq] at hname
    rcases hv with hv | hv <;> rcases hname with hname | hname <;> rw [hv] at hname
    · exact Nat.ne_of_gt hk (loopName_inj hname)
    · exact loopName_ne_wireName _ _ hname
    · exact loopName_ne_wireName _ _ hname.symm
    · exact Nat.ne_of_gt hk (wireName_inj hname)
  objects d hd := by
    obtain ⟨rest, heq⟩ := v.underscores
    rw [heq]
    exact ho d hd rest

/-- Nor does the local for the bytes of a number. -/
theorem Below.fresh_bytes (h : Below n around) (ho : Apart objects) :
    Variable.bytes.Fresh objects around where
  around u hu := by
    obtain ⟨k, -, hname⟩ := h u hu
    exact name_ne_bytes hname
  objects d hd := by
    obtain ⟨rest, heq⟩ := Variable.bytes.underscores
    rw [heq]
    exact ho d hd rest

/-- A name stands for the variable that is bound last. -/
theorem named?_self (h : v.name = name) : named? (v :: around) name = some v :=
  List.find?_cons_of_pos (by simpa using h)

/-- A name that stands for something else goes on to do so. -/
theorem named?_cons (h : v.name ≠ name) : named? (v :: around) name = named? around name :=
  List.find?_cons_of_neg (by simpa using h)

theorem Fresh.named? (hv : v.Fresh objects around) (h : named? around name = some u) :
    Variable.named? (v :: around) name = some u := by
  have hname : u.name = name := by simpa using List.find?_some h
  rw [named?_cons (hname ▸ (hv.around u (List.mem_of_find?_eq_some h)).symm), h]

end Variable

section

variable {objects : List Decl} {around : List Variable} {v : Variable} {place : Place} {d : Decl}
  {ranks : List Nat}

/-- Where a place leads, it leads behind one more variable that hides nothing. -/
theorem Place.LeadsTo.extend (h : place.LeadsTo objects around d ranks)
    (hv : v.Fresh objects around) : place.LeadsTo objects (v :: around) d ranks := by
  induction h with
  | object hd hfree =>
    exact .object hd ((Variable.named?_cons (hv.objects _ hd).symm).trans hfree)
  | wire hw => exact .wire (hv.named? hw)
  | field _ hm ih => exact .field ih hm
  | constant _ hk ih => exact .constant ih hk
  | loop _ hl hstop ih => exact .loop ih (hv.named? hl) hstop

theorem Place.IsElement.extend (h : place.IsElement objects around) (hv : v.Fresh objects around) :
    place.IsElement objects (v :: around) :=
  let ⟨d, hd⟩ := h
  ⟨d, hd.extend hv⟩

end

/-! ## putting statements together -/

section

variable {objects : List Decl} {around : List Variable} {xs ys body : List Statement}
  {arms : List Arm} {names : List String}

theorem ScopedAll.nil : ScopedAll objects [] around := trivial

theorem ScopedAll.single {s : Statement} (h : s.Scoped objects around) :
    ScopedAll objects [s] around := ⟨h, trivial⟩

theorem ScopedAll.append (h : ScopedAll objects xs around) (h' : ScopedAll objects ys around) :
    ScopedAll objects (xs ++ ys) around := by
  induction xs with
  | nil => exact h'
  | cons s xs ih => exact ⟨h.1, ih h.2⟩

theorem scopedAll_iff : ScopedAll objects body around ↔ ∀ s ∈ body, s.Scoped objects around := by
  induction body with
  | nil => simp [ScopedAll]
  | cons s body ih => simp [ScopedAll, ih]

theorem scopedArms_iff : ScopedArms objects arms around ↔ ∀ arm ∈ arms,
    arm.tag.IsElement objects around ∧ ScopedAll objects arm.body around := by
  induction arms with
  | nil => simp [ScopedArms]
  | cons arm arms ih =>
    obtain ⟨tag, value, body⟩ := arm
    simp [ScopedArms, ih, Arm.tag, Arm.body, and_assoc]

/-- A loop over indices of an array is scoped if what is in it is. -/
theorem ScopedAll.looped {l : Loop} {array : Place} {d : Decl} {extent : Nat} {rest : List Nat}
    (harray : array.LeadsTo objects around d (extent :: rest)) (hstop : l.stop ≤ extent)
    (hfresh : Variable.Fresh objects around (.index l array))
    (h : ScopedAll objects body (.index l array :: around)) :
    ScopedAll objects (Statement.looped l body) around := by
  unfold Statement.looped
  split
  · exact .nil
  · exact .single ⟨array, d, extent, rest, harray, hstop, hfresh, h⟩

theorem Variable.Fresh.nodup {v : Variable} (hv : v.Fresh objects around)
    (hnodup : (around.map name).Nodup) : ((v :: around).map name).Nodup := by
  rw [List.map_cons, List.nodup_cons]
  refine ⟨fun hmem => ?_, hnodup⟩
  obtain ⟨u, hu, heq⟩ := List.mem_map.1 hmem
  exact hv.around u hu heq

/-- The variables along a way into scoped statements have different names, and other names than
those around. -/
theorem ScopedAll.nodup (ho : Opens body names) (h : ScopedAll objects body around)
    (hnodup : (around.map Variable.name).Nodup) : (names ++ around.map Variable.name).Nodup := by
  induction ho generalizing around with
  | here body => exact hnodup
  | bytes hs =>
    obtain ⟨-, hfresh, -⟩ := scopedAll_iff.1 h _ hs
    exact hfresh.nodup hnodup
  | wire hs _ ih =>
    obtain ⟨d, w, -, -, -, hfresh, -, hbody⟩ := scopedAll_iff.1 h _ hs
    exact List.perm_middle.nodup_iff.1 (ih hbody (hfresh.nodup hnodup))
  | loop hs _ ih =>
    obtain ⟨array, d, extent, rest, -, -, hfresh, hbody⟩ := scopedAll_iff.1 h _ hs
    exact List.perm_middle.nodup_iff.1 (ih hbody (hfresh.nodup hnodup))
  | arm hs ha _ ih => exact ih (scopedArms_iff.1 (scopedAll_iff.1 h _ hs) _ ha).2 hnodup

/-- Where all places lead to declarations, nothing is captured. -/
theorem ScopedAll.captureFree (h : ScopedAll objects body []) : CaptureFree objects body where
  distinct names ho := by simpa using h.nodup ho List.nodup_nil
  places := h

end

/-! ## sites -/

/-- Where an element of a declaration, or some ranks of it, are moved: the variables around are
numbered below the next number and named like no data object, the place leads there, and if the
declaration is a union with a tag outside, the tag is a field of the owner. -/
structure Site (objects : List Decl) (around : List Variable) (n : Nat) (d : Decl)
    (ranks : List Nat) (place : Place) (owner : Option Place) : Prop where
  apart : Variable.Apart objects
  below : Variable.Below n around
  leads : place.LeadsTo objects around d ranks
  tag : ∀ o tag, owner = some o → d.kind = .union tag false →
    (Place.field o tag false).IsElement objects around

section

variable {objects : List Decl} {around : List Variable} {n : Nat} {d m w : Decl} {ranks : List Nat}
  {place : Place} {owner : Option Place}

/-- A data object stands at a site, which is without any variables. -/
theorem Site.object (hapart : Variable.Apart objects) (hd : d ∈ objects) :
    Site objects [] 0 d d.extents (.object d.name) none where
  apart := hapart
  below := List.forall_mem_nil _
  leads := .object hd rfl
  tag _ _ howner := nomatch howner

/-- A site within one more loop. -/
theorem Site.index {extent : Nat} {l : Loop}
    (h : Site objects around n d (extent :: ranks) place owner) (hl : l.number = n)
    (hstop : l.stop ≤ extent) :
    Variable.Fresh objects around (.index l place) ∧
      Site objects (.index l place :: around) (n + 1) d ranks (.element place (.loop n)) owner := by
  have hname : (Variable.index l place).name = loopName n := congrArg loopName hl
  have hfresh := h.below.fresh h.apart (.inl hname)
  exact ⟨hfresh, h.apart, h.below.cons (.inl hname),
    .loop (h.leads.extend hfresh) (Variable.named?_self hname) hstop,
    fun o tag hsome hk => (h.tag o tag hsome hk).extend hfresh⟩

end

/-! ## sites of fields -/

section

variable {g : Registry} {records : List (String × List Decl)} {objects : List Decl}
  {around : List Variable} {n : Nat} {d m v lead : Decl} {place : Place} {owner : Option Place}
  {tag : String} {internal : Bool}

/-- A scalar field of an element is one element. -/
theorem Place.LeadsTo.scalar (h : place.LeadsTo objects around d []) (hm : m ∈ d.members)
    (hscalar : m.isScalar = true) : (Place.field place m.name false).IsElement objects around := by
  have hfield : (Place.field place m.name false).LeadsTo objects around m m.extents := .field h hm
  rw [(Decl.isScalar_iff.1 hscalar).2] at hfield
  exact ⟨m, hfield⟩

/-- The fields of a record stand at sites if nothing is wrong with their tags. -/
theorem Site.ofFields {parent : RecordKind} (h : Site objects around n d [] place owner)
    (htags : ∀ (k : Nat) (e : Decl), d.members[k]? = some e →
      Decl.tagFault? parent d.members k e = none) (hm : m ∈ d.members) :
    Site objects around n m m.extents (.field place m.name false) (some place) where
  apart := h.apart
  below := h.below
  leads := .field h.leads hm
  tag := by
    rintro o tag ⟨⟩ hk
    obtain ⟨k, hget⟩ := List.mem_iff_getElem?.1 hm
    obtain ⟨-, selector, -, -, hfind, hscalar⟩ :=
      Decl.selector_of_tagFault? (htags k m hget) hget hk
    have hname : selector.name = tag := by simpa using List.find?_some hfind
    exact hname ▸ h.leads.scalar (List.mem_of_find?_eq_some hfind) hscalar

/-- The variants of a union stand at sites, since none of them needs a tag. -/
theorem Site.ofUnion (h : Site objects around n d [] place owner)
    (hd : d.UnionSound g records tag internal) (hv : v ∈ d.members) :
    Site objects around n v v.extents (.field place v.name true) (some place) where
  apart := h.apart
  below := h.below
  leads := .field h.leads hv
  tag _ tag _ hk := by
    have hnone := hd.tags v hv
    rw [Decl.isExternal, hk] at hnone
    cases hnone

/-- The members of a sound declaration stand at sites, whichever record it is. -/
theorem Site.member (h : Site objects around n d [] place owner) (hd : d.Sound g records)
    (hm : m ∈ d.members) :
    Site objects around n m m.extents (.field place m.name d.isUnionInMemory) (some place) := by
  cases hk : d.kind with
  | struct =>
    rw [(hd.struct hk).isUnionInMemory]
    exact h.ofFields (hd.struct hk).tags hm
  | union tag internal =>
    rw [(hd.union tag internal hk).isUnionInMemory]
    exact h.ofUnion (hd.union tag internal hk) hm
  | _ =>
    rw [hd.leaf (by rw [hk]; rfl)] at hm
    cases hm

/-- A variant that is moved, of a union with an internal tag, is one struct. -/
theorem Site.ofVariant (h : Site objects around n d [] place owner)
    (hd : d.UnionSound g records tag true) (hshared : d.Shared lead) (hv : v ∈ d.members)
    (homit : v.isOmitted = false) :
    Site objects around n v [] (.field place v.name true) (some place) := by
  have hsite := h.ofUnion hd hv
  rwa [(hshared.variant v hv homit).2] at hsite

/-- The tag of a variant is an element: its own field, or that of the lead variant. -/
theorem Site.tagPlace (h : Site objects around n d [] place owner)
    (hd : d.UnionSound g records tag true) (hshared : d.Shared lead) (hv : v ∈ d.members)
    (homit : v.isOmitted = false) :
    (tagPlace (.field place v.name true) d.sharedFields v.members).IsElement objects around := by
  obtain ⟨s, hs, hscalar⟩ := hshared.scalar hv homit
  rw [BitLayout.tagPlace, hs]
  exact (h.ofVariant hd hshared hv homit).leads.scalar (List.mem_of_getElem? hs) hscalar

end

/-! ## declarations -/

namespace ScopedAll

/-- Scopes as a relation, among the variables around. -/
def relation (objects : List Decl) : CodeRelation (List Variable) :=
  .property (fun around body => ScopedAll objects body around)
    (fun around tag => tag.IsElement objects around) (fun _ => nil) append
    (fun _ _ => single trivial) fun harms => single (scopedArms_iff.2 harms)

/-- **Scopes of a declaration**: code for a sound declaration is scoped, wherever its place leads to
the declaration among numbered variables. -/
theorem follows (g : Registry) (records : List (String × List Decl)) (objects : List Decl)
    (aim : Purpose) :
    (relation objects).Follows aim aim .refl fun around d ranks p =>
      d.Everywhere (Decl.Sound g records) ∧
        Site objects around p.number d ranks p.place p.owner where
  loop {_ _ extent _ p} h := by
    obtain ⟨hd, hsite⟩ := h
    obtain ⟨hfresh, hinner⟩ := hsite.index (l := p.loop extent) rfl (Nat.le_refl _)
    exact ⟨_, ⟨hd, hinner⟩, fun _ _ hbody => looped hsite.leads (Nat.le_refl _) hfresh hbody⟩
  wire {around d w t p} h hk hw := by
    obtain ⟨hd, hsite⟩ := h
    have hfresh : Variable.Fresh objects around (.wire p.number w) :=
      hsite.below.fresh hsite.apart (.inr rfl)
    have hinner : Site objects (.wire p.number w :: around) (p.number + 1) w w.extents
        (.wire p.number) none :=
      ⟨hsite.apart, hsite.below.cons (.inr rfl), .wire (Variable.named?_self rfl),
        fun _ _ hnone => nomatch hnone⟩
    exact ⟨_, ⟨hd.wire hw, hinner⟩, fun _ _ hbody =>
      single ⟨d, w, hk, hw, hsite.leads, hfresh, hsite.leads.extend hfresh, hbody⟩⟩
  omitted h homit := by
    rw [Transfer.elementAt, Transfer.element_omitted homit]
    split
    · exact single ⟨_, h.2.leads⟩
    · exact (relation objects).nil _
  single {_ d p _} h hm := by
    obtain ⟨-, hsite⟩ := h
    have helement : p.place.IsElement objects _ := ⟨d, hsite.leads⟩
    cases hm with
    | bytes count type =>
      have hfresh := hsite.below.fresh_bytes hsite.apart
      exact single ⟨helement, hfresh, helement.extend hfresh⟩
    | _ => exact single helement
  struct {_ d p} h hk hfields := by
    rw [Transfer.elementAt, Transfer.element_struct hk]
    split
    · exact single ⟨d, h.2.leads⟩
    · exact hfields
  field h hk hm := ⟨h.1.member hm, h.2.ofFields (h.1.self.struct hk).tags hm⟩
  variant h hk hv := ⟨h.1.member hv, h.2.ofUnion (h.1.self.union _ _ hk) hv⟩
  fieldOfVariant h hk hv hm := by
    obtain ⟨hd, hsite⟩ := h
    obtain ⟨lead, hshared⟩ := (hd.self.union _ _ hk).shared_of_internal
    obtain ⟨homit, hstruct⟩ := hshared.variant_struct hd hv (List.ne_nil_of_mem hm)
    exact ⟨(hd.member hv).member hm,
      (hsite.ofVariant (hd.self.union _ _ hk) hshared hv homit).ofFields hstruct.tags hm⟩
  ownerTag h hk ho := h.2.tag _ _ ho hk
  variantTag {_ d v found _ _} h hk hfound hv := by
    obtain ⟨hd, hsite⟩ := h
    have hunion := hd.self.union _ _ hk
    obtain ⟨lead, hshared⟩ := hunion.shared_of_internal
    obtain rfl : found = lead := Option.some.inj (hfound.symm.trans hshared.found)
    change (Transfer.tagOf _ _ _ _).IsElement objects _
    rw [Transfer.tagOf]
    cases homit : v.isOmitted with
    | true => exact hsite.tagPlace hunion hshared hshared.lead_mem hshared.lead_kept
    | false => exact hsite.tagPlace hunion hshared hv homit

/-- The code for the fields of a record is scoped where each of them stands at a site. -/
theorem fields {g : Registry} {records : List (String × List Decl)} {objects ds : List Decl}
    {around : List Variable} {aim : Purpose} {n : Nat} {place : Place}
    (hds : ∀ d ∈ ds, d.Everywhere (Decl.Sound g records))
    (hsites : ∀ m ∈ ds, Site objects around n m m.extents (.field place m.name false) (some place))
    (skipped : Nat) : ScopedAll objects (Transfer.fields aim skipped ds place n) around :=
  (follows g records objects aim).fields (p := ⟨place, none, n⟩)
    (fun m hm => ⟨hds m hm, hsites m hm⟩) skipped

end ScopedAll

end BitLayout
