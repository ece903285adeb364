import BitLayout.Proofs.Code.Arms
import BitLayout.Proofs.Code.Splitting
import BitLayout.Proofs.Item.Sizes

/-!
# BitLayout.Proofs.Code.Widths

How many bits code moves, told from its text alone:

```
bits(loop)    =  trips * bits(content)
bits(choice)  =  bits(arm 1)  =  bits(arm 2)  =  ..
bits(call)    =  bits of the statements of the function
```

The count fails for a choice between arms that take different numbers of bits. It never does for a
declaration of an accepted data object:

* `Decl.bits?_external`, `Decl.bits?_internal`: every arm of a union is padded to the largest one;
* `Decl.sized_of_sound`: moving an element of a sound declaration takes the bits of an element.
-/

namespace BitLayout

/-! ## counting -/

/-- The bits that a move takes, if the functions of records take what is given. -/
def Move.bits? (call : String → Option Nat) : Move → Option Nat
  | bool _ _ => some 1
  | integer _ range _ => some range.bits
  | text _ count _ => some (count * 8)
  | row _ count => some (count * 8)
  | bytes _ count _ => some (count * 8)
  | record _ name => call name
  | padding bits => some bits
  | default _ _ => some 0

/-- The bits that every arm of a choice takes, if they take the same. -/
def commonBits? : List (Option Nat) → Option Nat
  | [] => some 0
  | n :: rest => if rest.all (· = n) then n else none

mutual

/-- The bits that a statement takes. -/
def Statement.bits? (call : String → Option Nat) : Statement → Option Nat
  | .move m => m.bits? call
  | .wire _ _ _ body => statementBits? call body
  | .loop l body => (statementBits? call body).map ((l.stop - l.start) * ·)
  | .choice arms => commonBits? (armBits? call arms)

/-- The bits that statements in a row take. -/
def statementBits? (call : String → Option Nat) : List Statement → Option Nat
  | [] => some 0
  | s :: rest => (s.bits? call).bind fun n => (statementBits? call rest).map (n + ·)

/-- The bits that each arm of a choice takes. -/
def armBits? (call : String → Option Nat) : List Arm → List (Option Nat)
  | [] => []
  | .mk _ _ body :: rest => statementBits? call body :: armBits? call rest

end

/-- The bits that a function of a record takes, where calls are followed through at most `levels`
levels. -/
def recordBits? (bodies : String → List Statement) : (levels : Nat) → String → Option Nat
  | 0, _ => none
  | levels + 1, record => statementBits? (recordBits? bodies levels) (bodies record)

/-- The bits that statements in a program take. -/
def Program.bits? (c : Config) (m : Model) (d : Direction) (body : List Statement) : Option Nat :=
  statementBits? (recordBits? (recordStatements c m d) m.callLevels) body

section

variable {call : String → Option Nat} {xs ys : List Statement} {a b n : Nat}

theorem statementBits?_append (hx : statementBits? call xs = some a)
    (hy : statementBits? call ys = some b) : statementBits? call (xs ++ ys) = some (a + b) := by
  induction xs generalizing a with
  | nil =>
    obtain rfl : 0 = a := by simpa [statementBits?] using hx
    simpa using hy
  | cons x xs ih =>
    simp only [statementBits?, Option.bind_eq_some_iff, Option.map_eq_some_iff] at hx
    obtain ⟨k, hk, l, hl, rfl⟩ := hx
    simp [statementBits?, hk, ih hl, Nat.add_assoc]

theorem statementBits?_singleton (s : Statement) : statementBits? call [s] = s.bits? call := by
  cases h : s.bits? call <;> simp [statementBits?, h]

/-- A loop takes the bits of its content on every trip. -/
theorem bits?_looped (h : statementBits? call xs = some n) (l : Loop) :
    statementBits? call (Statement.looped l xs) = some ((l.stop - l.start) * n) := by
  unfold Statement.looped
  split
  · next hnil =>
    obtain rfl := List.isEmpty_iff.1 hnil
    obtain rfl : 0 = n := by simpa [statementBits?] using h
    simp [statementBits?]
  · simp [statementBits?_singleton, Statement.bits?, h]

/-- Loops over array ranks take the bits of their content for every element. -/
theorem bits?_overRanks {body : Place → Nat → List Statement}
    (h : ∀ place k, statementBits? call (body place k) = some n) (extents : List Nat) (k : Nat)
    (place : Place) :
    statementBits? call (Statement.overRanks extents k place body) =
      some (n * Decl.elementCount extents) := by
  induction extents generalizing k place with
  | nil => simp [Statement.overRanks, Decl.elementCount, h]
  | cons extent rest ih =>
    rw [Statement.overRanks, bits?_looped (ih ..), Decl.elementCount, Nat.sub_zero,
      Nat.mul_left_comm]

/-- The bits of an arm. -/
def Arm.bits? (call : String → Option Nat) : Arm → Option Nat
  | mk _ _ body => statementBits? call body

theorem armBits?_eq (arms : List Arm) : armBits? call arms = arms.map (Arm.bits? call) := by
  induction arms with
  | nil => rfl
  | cons arm arms ih =>
    obtain ⟨tag, value, body⟩ := arm
    rw [armBits?, ih]
    rfl

/-- A choice takes the bits that all its arms take. -/
theorem bits?_chosen {arms : List Arm} (h : ∀ arm ∈ arms, arm.bits? call = some n)
    (hnil : arms = [] → n = 0) : statementBits? call (Statement.chosen arms) = some n := by
  unfold Statement.chosen
  cases arms with
  | nil => simp [statementBits?, hnil rfl]
  | cons arm arms =>
    obtain ⟨harm, harms⟩ := List.forall_mem_cons.1 h
    have hall : (arms.map (Arm.bits? call)).all (· = some n) = true := by simpa using harms
    rw [if_neg (by simp), statementBits?_singleton, Statement.bits?, armBits?_eq, List.map_cons,
      commonBits?, harm, hall, if_pos rfl]

/-- Padding takes the bits that it is for. -/
theorem bits?_padding (bits : Nat) :
    statementBits? call (Statement.padding bits) = some bits := by
  have hsum (ns : List Nat) :
      statementBits? call (ns.map fun n => .move (.padding n)) = some ns.sum := by
    induction ns with
    | nil => rfl
    | cons n ns ih => simp [statementBits?, Statement.bits?, Move.bits?, ih]
  have hbits := Nat.div_add_mod bits 32
  rw [Statement.padding, hsum, List.sum_append, List.sum_replicate_nat]
  congr 1
  split <;> simp <;> omega

end

/-! ## elements -/

section

variable {c : Config} {m : Model} {dir : Direction} {k bound : Nat} {sf : Bool}
  {call : String → Option Nat} {place : Place} {owner : Option Place} {d : Decl} {ds : List Decl}

/-- Calls of functions of records are counted through more levels than the numbers of some
declarations, if structs are left to them at all. -/
def Counts (c : Config) (m : Model) (dir : Direction) (bound : Nat) (sf : Bool)
    (call : String → Option Nat) : Prop :=
  sf = true → sf = c.structFunctions ∧
    ∃ levels, bound < levels ∧ call = recordBits? (Program.recordStatements c m dir) levels

theorem Counts.mono (h : Counts c m dir bound sf call) (hle : k ≤ bound) :
    Counts c m dir k sf call := by
  intro hsf
  obtain ⟨hc, levels, hlt, hcall⟩ := h hsf
  exact ⟨hc, levels, by omega, hcall⟩

/-- Moving an element of a declaration takes the bits of an element, if there is an owner where the
tag stands outside. -/
def Decl.Sized (c : Config) (m : Model) (dir : Direction) (d : Decl) : Prop :=
  ∀ (sf : Bool) (call : String → Option Nat) (place : Place) (owner : Option Place) (k : Nat),
    Counts c m dir d.number sf call → (d.isExternal = true → owner.isSome = true) →
    statementBits? call (Transfer.element ⟨dir, sf⟩ d place owner k) = some d.elementBits

namespace Decl

/-- A field takes the bits of its declaration. -/
theorem Sized.field (h : d.Sized c m dir) (hcounts : Counts c m dir d.number sf call)
    (o field : Place) (k : Nat) :
    statementBits? call (Statement.overRanks d.extents k field fun field k =>
      Transfer.element ⟨dir, sf⟩ d field (some o) k) = some d.bits :=
  bits?_overRanks (fun field k => h sf call field (some o) k hcounts fun _ => rfl) d.extents k field

/-- Declarations in a row take the bits of all of them. -/
theorem bits?_row {code : Decl → List Statement}
    (h : ∀ d ∈ ds, statementBits? call (code d) = some d.bits) :
    statementBits? call (ds.flatMap code) = some (sumBits ds) := by
  induction ds with
  | nil => rfl
  | cons d ds ih =>
    obtain ⟨hd, hds⟩ := List.forall_mem_cons.1 h
    exact statementBits?_append hd (ih hds)

theorem bits?_fields (h : ∀ d ∈ ds, d.Sized c m dir)
    (hcounts : ∀ d ∈ ds, Counts c m dir d.number sf call) (skipped : Nat) :
    statementBits? call (Transfer.fields ⟨dir, sf⟩ skipped ds place k) =
      some (sumBits (ds.drop skipped)) := by
  rw [Transfer.fields_flatMap]
  refine bits?_row fun d hd => ?_
  have hmem := List.mem_of_mem_drop hd
  exact (h d hmem).field (hcounts d hmem) ..

theorem bits?_leadingFields (h : ∀ d ∈ ds, d.Sized c m dir)
    (hcounts : ∀ d ∈ ds, Counts c m dir d.number sf call) (count : Nat) :
    statementBits? call (Transfer.leadingFields ⟨dir, sf⟩ count ds place k) =
      some (sumBits (ds.take count)) := by
  rw [Transfer.leadingFields_flatMap]
  refine bits?_row fun d hd => ?_
  have hmem := List.mem_of_mem_take hd
  exact (h d hmem).field (hcounts d hmem) ..

/-- The fields that all variants share take the bits of those of the first variant that is not left
out. -/
theorem bits?_sharedFields (h : ∀ v ∈ ds, ∀ d ∈ v.members, d.Sized c m dir)
    (hcounts : ∀ v ∈ ds, ∀ d ∈ v.members, Counts c m dir d.number sf call) (count : Nat)
    {lead : Decl} (hlead : ds.find? (!·.isOmitted) = some lead) :
    statementBits? call (Transfer.sharedFields ⟨dir, sf⟩ count ds place k) =
      some (sumBits (lead.members.take count)) := by
  have hmem := List.mem_of_find?_eq_some hlead
  rw [Transfer.sharedFields_lead, hlead]
  exact bits?_leadingFields (h lead hmem) (hcounts lead hmem) count

/-! ## unions -/

/-- Every arm that moves a variant whole takes the bits of the union. -/
theorem bits?_variants (h : ∀ v ∈ ds, v.Sized c m dir)
    (hcounts : ∀ v ∈ ds, Counts c m dir v.number sf call) {bits : Nat} (tag : Place)
    (hle : ∀ v ∈ ds, v.bits ≤ bits) :
    ∀ arm ∈ Transfer.variants ⟨dir, sf⟩ bits tag ds place k, arm.bits? call = some bits := by
  rw [Transfer.variants_sorted]
  intro arm harm
  obtain ⟨v, hv, harm⟩ := List.mem_filterMap.1 (mem_sortBy harm)
  obtain ⟨id, -, rfl⟩ := Option.map_eq_some_iff.1 harm
  have hbody := statementBits?_append
    ((h v hv).field (hcounts v hv) place (.field place v.name true) k)
    (bits?_padding (bits - v.bits))
  rwa [Nat.add_sub_cancel' (hle v hv)] at hbody

/-- Every arm that moves the rest of a variant takes what the union takes behind the shared
fields. -/
theorem bits?_remainders (h : ∀ v ∈ ds, ∀ d ∈ v.members, d.Sized c m dir)
    (hcounts : ∀ v ∈ ds, ∀ d ∈ v.members, Counts c m dir d.number sf call) {count bits : Nat}
    (lead : Decl)
    (hle : ∀ v ∈ ds, sumBits (lead.members.take count) + sumBits (v.members.drop count) ≤ bits) :
    ∀ arm ∈ Transfer.remainders ⟨dir, sf⟩ count bits (some lead) ds place k,
      arm.bits? call = some (bits - sumBits (lead.members.take count)) := by
  rw [Transfer.remainders_sorted]
  intro arm harm
  obtain ⟨v, hv, harm⟩ := List.mem_filterMap.1 (mem_sortBy harm)
  obtain ⟨id, -, rfl⟩ := Option.map_eq_some_iff.1 harm
  have hbits := hle v hv
  have hfields : statementBits? call
      (Transfer.fields ⟨dir, sf⟩ count v.members (.field place v.name true) k) =
        some (sumBits (v.members.drop count)) :=
    bits?_fields (h v hv) (hcounts v hv) count
  have hbody := statementBits?_append hfields (bits?_padding (bits -
    (sumBits (lead.members.take count) + sumBits (v.members.drop count))))
  rw [Arm.bits?, hbody]
  congr 1
  omega

/-- Without arms, no variant has an id. -/
theorem variantId_of_variants {aim : Purpose} {bits : Nat} {tag : Place}
    (h : Transfer.variants aim bits tag ds place k = []) :
    ∀ v ∈ ds, v.encoding.variantId = none := by
  rw [Transfer.variants_sorted] at h
  intro v hv
  exact Option.map_eq_none_iff.1 (List.filterMap_eq_nil_iff.1 (eq_nil_of_sortBy h) v hv)

theorem variantId_of_remainders {aim : Purpose} {count bits : Nat} {lead : Decl}
    (h : Transfer.remainders aim count bits (some lead) ds place k = []) :
    ∀ v ∈ ds, v.encoding.variantId = none := by
  rw [Transfer.remainders_sorted] at h
  intro v hv
  exact Option.map_eq_none_iff.1 (List.filterMap_eq_nil_iff.1 (eq_nil_of_sortBy h) v hv)

/-! ## all declarations -/

/-- Moves of single values take the bits of their kinds. -/
theorem sized_of_leaf (hleaf : d.kind.isLeaf = true) (htransformed : ∀ t, d.kind ≠ .transformed t) :
    d.Sized c m dir := by
  intro sf call place owner k hcounts howner
  obtain ⟨info, members, wire⟩ := d
  change info.encoding.kind.isLeaf = true at hleaf
  change ∀ t, info.encoding.kind ≠ .transformed t at htransformed
  cases hk : info.encoding.kind with
  | omitted =>
    cases dir <;> cases hdefault : info.encoding.default <;>
      simp [Transfer.element, elementBits, hk, hdefault, statementBits?, Statement.bits?,
        Move.bits?]
  | buffer bytes row =>
    cases row <;>
      simp [Transfer.element, elementBits, hk, statementBits?, Statement.bits?, Move.bits?]
  | transformed t => exact absurd hk (htransformed t)
  | union tag internal => simp [hk, Kind.isLeaf] at hleaf
  | struct => simp [hk, Kind.isLeaf] at hleaf
  | _ => simp [Transfer.element, elementBits, hk, statementBits?, Statement.bits?, Move.bits?]

variable {g : Registry}

/-- A transformed value takes the bits of what it is on the wire. -/
theorem bits?_transformed {t : Transform} (hd : d.Sound g m.records) (hk : d.kind = .transformed t)
    (h : ∀ w, d.wire = some w → w.Sized c m dir) (hcounts : Counts c m dir d.number sf call) :
    statementBits? call (Transfer.element ⟨dir, sf⟩ d place owner k) = some d.elementBits := by
  obtain ⟨w, hw, hfault⟩ := hd.wired t hk
  have hexternal := isExternal_of_wireFault? hfault
  have hbits : d.elementBits = w.bits := by
    obtain ⟨info, members, wire⟩ := d
    obtain rfl : wire = some w := hw
    simp only [elementBits, show info.encoding.kind = .transformed t from hk]
    rfl
  have hbody : statementBits? call (Statement.overRanks w.extents (k + 1) (.wire k)
      fun place k => Transfer.element ⟨dir, sf⟩ w place none k) = some w.bits := by
    refine bits?_overRanks (fun place k => ?_) _ _ _
    have hcounts' := hcounts.mono (Nat.le_of_lt (hd.wire_lt w hw))
    exact h w hw sf call place none k hcounts' (by simp [hexternal])
  rw [Transfer.element_transformed hk, hw, Transfer.onWire, statementBits?_singleton,
    Statement.bits?, hbody, hbits]

/-- A struct takes the bits of its fields, also if it is left to the function of its record. -/
theorem bits?_struct (hd : d.Sound g m.records) (hk : d.kind = .struct)
    (h : ∀ x ∈ d.members, x.Sized c m dir) (hcounts : Counts c m dir d.number sf call) :
    statementBits? call (Transfer.element ⟨dir, sf⟩ d place owner k) = some d.elementBits := by
  rw [Transfer.element_struct hk, elementBits_of_struct hk]
  dsimp only
  split
  · next record hrecord =>
    obtain ⟨hc, levels, hlevels, rfl⟩ := hcounts rfl
    obtain ⟨⟨record', hshape, hlookup⟩, -⟩ := hd.struct hk
    obtain rfl : record = record' := by simpa [record?, hshape] using hrecord.symm
    have hmembers : m.membersOf record = d.members := by simp [Model.membersOf, hlookup]
    cases levels with
    | zero => cases hlevels
    | succ levels =>
      have hinner : ∀ x ∈ d.members, Counts c m dir x.number c.structFunctions
          (recordBits? (Program.recordStatements c m dir) levels) := by
        intro x hx _
        have hlt := hd.member_lt x hx
        exact ⟨rfl, levels, by omega, rfl⟩
      rw [statementBits?_singleton, Statement.bits?, Move.bits?, recordBits?,
        Program.recordStatements, hmembers]
      exact bits?_fields h hinner 0
  · exact bits?_fields h (fun x hx => hcounts.mono (Nat.le_of_lt (hd.member_lt x hx))) 0

/-- A union with an external tag takes the bits of its largest variant, in every arm. -/
theorem bits?_external {tag : String} (hd : d.Everywhere (Sound g m.records))
    (hk : d.kind = .union tag false) (h : ∀ v ∈ d.members, v.Sized c m dir)
    (hcounts : Counts c m dir d.number sf call) (howner : owner.isSome = true) :
    statementBits? call (Transfer.element ⟨dir, sf⟩ d place owner k) = some d.elementBits := by
  obtain ⟨o, rfl⟩ := Option.isSome_iff_exists.1 howner
  rw [Transfer.element_external hk, elementBits_of_union hk]
  refine bits?_chosen (bits?_variants h (fun v hv => ?_) _ fun v hv => bits_le_maxBits hv)
    fun hnil => ?_
  · exact hcounts.mono (Nat.le_of_lt (hd.self.member_lt v hv))
  · have hids := variantId_of_variants hnil
    obtain hzero | ⟨v, hv, hmax⟩ := exists_bits_eq_maxBits d.members
    · exact hzero
    · cases homit : v.isOmitted with
      | true => rw [← hmax, bits_of_omitted homit]
      | false =>
        have hsome := (hd.self.union _ _ hk).variantId_isSome hv homit
        simp [hids v hv] at hsome

/-- A union with an internal tag takes the bits of its largest variant: those of the shared fields,
and the rest in every arm. -/
theorem bits?_internal {tag : String} (hd : d.Everywhere (Sound g m.records))
    (hk : d.kind = .union tag true) (h : ∀ v ∈ d.members, ∀ x ∈ v.members, x.Sized c m dir)
    (hcounts : Counts c m dir d.number sf call) :
    statementBits? call (Transfer.element ⟨dir, sf⟩ d place owner k) = some d.elementBits := by
  obtain ⟨lead, hshared⟩ := (hd.self.union _ _ hk).shared_of_internal
  have hgrand : ∀ v ∈ d.members, ∀ x ∈ v.members, Counts c m dir x.number sf call := by
    intro v hv x hx
    have hlt := hd.self.member_lt v hv
    have hlt' := (hd.member hv).self.member_lt x hx
    exact hcounts.mono (by omega)
  have hle : ∀ v ∈ d.members, sumBits (lead.members.take d.sharedFields) +
      sumBits (v.members.drop d.sharedFields) ≤ maxBits d.members := fun v hv =>
    hshared.bits_le hd hv
  have hlead : sumBits (lead.members.take d.sharedFields) ≤ maxBits d.members :=
    Nat.le_trans (Nat.le_add_right ..) (hle lead hshared.lead_mem)
  have hchosen : statementBits? call (Statement.chosen (Transfer.remainders ⟨dir, sf⟩
      d.sharedFields (maxBits d.members) (some lead) d.members place k)) =
        some (maxBits d.members - sumBits (lead.members.take d.sharedFields)) := by
    refine bits?_chosen (bits?_remainders h hgrand lead hle) fun hnil => ?_
    -- The lead variant always has an arm.
    have hsome := (hd.self.union _ _ hk).variantId_isSome hshared.lead_mem hshared.lead_kept
    simp [variantId_of_remainders hnil lead hshared.lead_mem] at hsome
  have hfields : statementBits? call (Transfer.sharedFields ⟨dir, sf⟩ d.sharedFields d.members place
      k) = some (sumBits (lead.members.take d.sharedFields)) :=
    bits?_sharedFields h hgrand d.sharedFields hshared.found
  rw [Transfer.element_internal hk, elementBits_of_union hk, hshared.found,
    statementBits?_append hfields hchosen, Nat.add_sub_cancel' hlead]

/-- **Sizes of elements**: moving an element of a sound declaration takes the bits of an element. -/
theorem sized_of_sound (c : Config) (dir : Direction) {d : Decl}
    (hd : d.Everywhere (Sound g m.records)) : d.Sized c m dir := by
  refine hd.induct fun d hd hmembers hgrand hwire => ?_
  by_cases hleaf : d.kind.isLeaf = true ∧ ∀ t, d.kind ≠ .transformed t
  · exact sized_of_leaf hleaf.1 hleaf.2
  intro sf call place owner k hcounts howner
  cases hk : d.kind with
  | transformed t => exact bits?_transformed hd.self hk hwire hcounts
  | struct => exact bits?_struct hd.self hk hmembers hcounts
  | union tag internal =>
    cases internal with
    | false => exact bits?_external hd hk hmembers hcounts (howner (by simp [isExternal, hk]))
    | true => exact bits?_internal hd hk hgrand hcounts
  | _ => exact absurd ⟨by simp [hk, Kind.isLeaf], by simp [hk]⟩ hleaf

end Decl

end

end BitLayout
