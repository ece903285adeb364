import BitLayout.Proofs.Code.Elements
import BitLayout.Proofs.Decl.Variants

/-!
# BitLayout.Proofs.Code.Trace

What the statements that move a declaration do. This does not depend on the loops and locals around
them, nor on whether structs are left to the functions of their records: there is one *trace* of a
declaration at a place.

```
trace(struct)  =  traceAll(field 1) ++ traceAll(field 2) ++ ..
trace(union)   =  traceAll(shared fields) ++ the arms, each under its test
```

* `traced_of_sound`: all statements for a sound declaration do what its trace says;
* `Decl.trace_struct`, `Decl.trace_external`, `Decl.trace_internal`: the equations above.
-/

namespace BitLayout

/-! ## traces -/

/-- What is known at run time of a value at a place, and of the record that it is a field of. -/
def Scope.ofValue (s : Spot) (owner : Option Spot) : Scope :=
  { Scope.start with objects := fun name => if name = "owner" then owner.getD s else s }

namespace Decl

/-- What moving one element at a place does, its owner being the element of a record that the place
is a field of. -/
def trace (dir : Direction) (d : Decl) (s : Spot) (owner : Option Spot) : List Event :=
  statementEvents dir (fun _ _ => []) (.ofValue s owner)
    (Transfer.element ⟨dir, false⟩ d (.object "value") (owner.map fun _ => .object "owner") 0)

/-- What moving a declaration at a place does, all its elements. -/
def traceAll (dir : Direction) (d : Decl) (s : Spot) (owner : Option Spot) : List Event :=
  (Spot.elements d.extents s).flatMap fun s => d.trace dir s owner

/-- What moving some fields of a struct at a place does. -/
def traceFields (dir : Direction) (ds : List Decl) (s : Spot) : List Event :=
  ds.flatMap fun d => d.traceAll dir (.field s d.name false) (some s)

end Decl

/-! ## functions of records -/

section

variable {c : Config} {m : Model} {dir : Direction} {n bound : Nat} {sf : Bool}
  {call : Spot → String → List Event}

/-- Functions of records are run in place, through more levels than the numbers of some
declarations, if structs are left to them at all. -/
def Runs (c : Config) (m : Model) (dir : Direction) (bound : Nat) (sf : Bool)
    (call : Spot → String → List Event) : Prop :=
  sf = true → sf = c.structFunctions ∧
    ∃ levels, bound < levels ∧ call = inlined (Program.recordStatements c m dir) dir levels

theorem Runs.mono (h : Runs c m dir bound sf call) (hle : n ≤ bound) : Runs c m dir n sf call := by
  intro hsf
  obtain ⟨hc, levels, hlt, hcall⟩ := h hsf
  exact ⟨hc, levels, by omega, hcall⟩

theorem runs_false (call : Spot → String → List Event) : Runs c m dir bound false call :=
  fun h => nomatch h

/-- Statements for a declaration do what its trace says, wherever they stand. -/
def Traced (c : Config) (m : Model) (dir : Direction) (d : Decl) : Prop :=
  ∀ (sf : Bool) (call : Spot → String → List Event) (e : Scope) (place : Place)
    (owner : Option Place) (n : Nat), Runs c m dir d.number sf call → place.Below n →
    (∀ o, owner = some o → o.Below n) →
    statementEvents dir call e (Transfer.element ⟨dir, sf⟩ d place owner n) =
      d.trace dir (place.spot e) (owner.map (Place.spot e))

/-! ## arrays and fields -/

variable {e : Scope} {place : Place} {owner : Option Place} {d : Decl} {ds : List Decl}

/-- Loops over array ranks do what is done for all elements. -/
theorem Traced.ranks (h : Traced c m dir d) (hruns : Runs c m dir d.number sf call)
    (hplace : place.Below n) (howner : ∀ o, owner = some o → o.Below n) (extents : List Nat) :
    statementEvents dir call e (Statement.overRanks extents n place fun place n =>
        Transfer.element ⟨dir, sf⟩ d place owner n) =
      (Spot.elements extents (place.spot e)).flatMap fun s =>
        d.trace dir s (owner.map (Place.spot e)) := by
  refine events_overRanks hplace fun e' place' n' hle hagrees hplace' => ?_
  have howner' : owner.map (Place.spot e) = owner.map (Place.spot e') := by
    cases owner with
    | none => rfl
    | some o => exact congrArg some ((howner o rfl).spot_eq hagrees)
  rw [h sf call e' place' owner n' hruns hplace' fun o ho => (howner o ho).mono hle, howner']

/-- A field of a struct is moved where it is. -/
theorem Traced.field (h : Traced c m dir d) (hruns : Runs c m dir d.number sf call)
    (hplace : place.Below n) (ofUnion : Bool) :
    statementEvents dir call e (Statement.overRanks d.extents n (.field place d.name ofUnion)
        fun field n => Transfer.element ⟨dir, sf⟩ d field (some place) n) =
      d.traceAll dir (.field (place.spot e) d.name ofUnion) (some (place.spot e)) :=
  h.ranks hruns (show (Place.field place d.name ofUnion).Below n from hplace)
    (fun _ ho => Option.some.inj ho ▸ hplace) d.extents

theorem events_fields (h : ∀ d ∈ ds, Traced c m dir d)
    (hruns : ∀ d ∈ ds, Runs c m dir d.number sf call) (hplace : place.Below n) (skipped : Nat) :
    statementEvents dir call e (Transfer.fields ⟨dir, sf⟩ skipped ds place n) =
      Decl.traceFields dir (ds.drop skipped) (place.spot e) := by
  rw [Transfer.fields_flatMap, statementEvents_flatMap]
  refine List.flatMap_congr fun d hd => ?_
  have hmem := List.mem_of_mem_drop hd
  exact (h d hmem).field (hruns d hmem) hplace false

theorem events_leadingFields (h : ∀ d ∈ ds, Traced c m dir d)
    (hruns : ∀ d ∈ ds, Runs c m dir d.number sf call) (hplace : place.Below n) (count : Nat) :
    statementEvents dir call e (Transfer.leadingFields ⟨dir, sf⟩ count ds place n) =
      Decl.traceFields dir (ds.take count) (place.spot e) := by
  rw [Transfer.leadingFields_flatMap, statementEvents_flatMap]
  refine List.flatMap_congr fun d hd => ?_
  have hmem := List.mem_of_mem_take hd
  exact (h d hmem).field (hruns d hmem) hplace false

/-! ## unions -/

/-- The fields that all variants share are those of the first variant that is not left out. -/
theorem events_sharedFields (h : ∀ v ∈ ds, ∀ d ∈ v.members, Traced c m dir d)
    (hruns : ∀ v ∈ ds, ∀ d ∈ v.members, Runs c m dir d.number sf call) (hplace : place.Below n)
    (count : Nat) :
    statementEvents dir call e (Transfer.sharedFields ⟨dir, sf⟩ count ds place n) =
      (ds.find? (!·.isOmitted)).elim [] fun lead =>
        Decl.traceFields dir (lead.members.take count) (.field (place.spot e) lead.name true) := by
  rw [Transfer.sharedFields_lead]
  cases hlead : ds.find? (!·.isOmitted) with
  | none => rfl
  | some lead =>
    have hmem := List.mem_of_find?_eq_some hlead
    have hfield : (Place.field place lead.name true).Below n := hplace
    exact events_leadingFields (h lead hmem) (hruns lead hmem) hfield count

/-- The arm that moves a variant whole. -/
def Decl.externalAlternative (dir : Direction) (bits : Nat) (tag s : Spot) (v : Decl) :
    Option Alternative :=
  v.encoding.variantId.map fun id =>
    ⟨tag, id, v.traceAll dir (.field s v.name true) (some s) ++ paddingEvents (bits - v.bits)⟩

/-- The arm that moves the fields of a variant behind the shared ones. -/
def Decl.internalAlternative (dir : Direction) (count bits : Nat) (lead : Decl) (s : Spot)
    (v : Decl) : Option Alternative :=
  v.encoding.variantId.map fun id =>
    let owner := if v.isOmitted then lead else v
    let used := sumBits (lead.members.take count) + sumBits (v.members.drop count)
    ⟨.field (.field s owner.name true) (owner.members[count - 1]?.elim "" Decl.name) false, id,
      traceFields dir (v.members.drop count) (.field s v.name true) ++ paddingEvents (bits - used)⟩

theorem value_alternative (arm : Arm) : (arm.alternative dir call e).value = arm.value := by
  cases arm
  rfl

/-- The arms for whole variants, in ascending order. -/
theorem alternatives_variants (h : ∀ v ∈ ds, Traced c m dir v)
    (hruns : ∀ v ∈ ds, Runs c m dir v.number sf call) (hplace : place.Below n) (bits : Nat)
    (tag : Place) :
    (Transfer.variants ⟨dir, sf⟩ bits tag ds place n).map (Arm.alternative dir call e) =
      sortBy Alternative.value
        (ds.filterMap (Decl.externalAlternative dir bits (tag.spot e) (place.spot e))) := by
  rw [Transfer.variants_sorted, map_sortBy value_alternative, List.map_filterMap]
  refine congrArg (sortBy Alternative.value) (List.filterMap_congr fun v hv => ?_)
  have hfield : statementEvents dir call e (Transfer.value ⟨dir, sf⟩ v
        (.field place v.name true) (some place) n) =
      v.traceAll dir (.field (place.spot e) v.name true) (some (place.spot e)) :=
    (h v hv).field (hruns v hv) hplace true
  rw [Transfer.wholeArm?, Decl.externalAlternative, Option.map_map]
  refine congrArg (Option.map · v.encoding.variantId) (funext fun id => ?_)
  rw [Function.comp_apply, Arm.alternative, statementEvents_append, hfield, events_padding]

/-- The arms for the rest of variants, in ascending order. -/
theorem alternatives_remainders (h : ∀ v ∈ ds, ∀ d ∈ v.members, Traced c m dir d)
    (hruns : ∀ v ∈ ds, ∀ d ∈ v.members, Runs c m dir d.number sf call) (hplace : place.Below n)
    (count bits : Nat) (lead : Decl) :
    (Transfer.remainders ⟨dir, sf⟩ count bits (some lead) ds place n).map
        (Arm.alternative dir call e) =
      sortBy Alternative.value
        (ds.filterMap (Decl.internalAlternative dir count bits lead (place.spot e))) := by
  rw [Transfer.remainders_sorted, map_sortBy value_alternative, List.map_filterMap]
  refine congrArg (sortBy Alternative.value) (List.filterMap_congr fun v hv => ?_)
  have hvariant : (Place.field place v.name true).Below n := hplace
  rw [Transfer.restArm?, Decl.internalAlternative, Option.map_map]
  refine congrArg (Option.map · v.encoding.variantId) (funext fun id => ?_)
  rw [Function.comp_apply, Arm.alternative, statementEvents_append,
    events_fields (h v hv) (hruns v hv) hvariant, events_padding]
  rfl

end

section

variable {c : Config} {m : Model} {dir : Direction} {n : Nat} {sf : Bool}
  {call : Spot → String → List Event} {e : Scope} {place : Place} {ds : List Decl}

/-- What a choice between whole variants does. -/
theorem events_external (h : ∀ v ∈ ds, Traced c m dir v)
    (hruns : ∀ v ∈ ds, Runs c m dir v.number sf call) (hplace : place.Below n) (bits : Nat)
    (owner : Place) (tag : String) :
    statementEvents dir call e (Statement.chosen
        (Transfer.variants ⟨dir, sf⟩ bits (.field owner tag false) ds place n)) =
      choiceEvents (sortBy Alternative.value (ds.filterMap (Decl.externalAlternative dir bits
        (.field (owner.spot e) tag false) (place.spot e)))) := by
  rw [events_chosen, armAlternatives_eq, alternatives_variants h hruns hplace]
  rfl

/-- What moving a union with an internal tag does. -/
theorem events_internal (h : ∀ v ∈ ds, ∀ d ∈ v.members, Traced c m dir d)
    (hruns : ∀ v ∈ ds, ∀ d ∈ v.members, Runs c m dir d.number sf call) (hplace : place.Below n)
    (count bits : Nat) {lead : Decl} (hlead : ds.find? (!·.isOmitted) = some lead) :
    statementEvents dir call e (Transfer.sharedFields ⟨dir, sf⟩ count ds place n ++
        Statement.chosen (Transfer.remainders ⟨dir, sf⟩ count bits (some lead) ds place n)) =
      Decl.traceFields dir (lead.members.take count) (.field (place.spot e) lead.name true) ++
        choiceEvents (sortBy Alternative.value (ds.filterMap
          (Decl.internalAlternative dir count bits lead (place.spot e)))) := by
  rw [statementEvents_append, events_sharedFields h hruns hplace, hlead, Option.elim_some,
    events_chosen, armAlternatives_eq, alternatives_remainders h hruns hplace]

/-- What moving a value on the wire does. -/
theorem events_onWire {wire : Option Decl} (h : ∀ w, wire = some w → Traced c m dir w)
    (hruns : ∀ w, wire = some w → Runs c m dir w.number sf call) (t : Transform) (place : Place)
    (n : Nat) :
    statementEvents dir call e (Transfer.onWire ⟨dir, sf⟩ t wire place n) =
      wire.elim [] fun w =>
        transformEvents dir t (place.spot e) (w.traceAll dir (.onWire (place.spot e)) none) := by
  cases wire with
  | none => rfl
  | some w =>
    have hlocal : (Place.wire n).spot (e.wire n (place.spot e)) = .onWire (place.spot e) := by
      simp [Place.spot, Scope.wire]
    have hvalue : statementEvents dir call (e.wire n (place.spot e))
          (Statement.overRanks w.extents (n + 1) (.wire n) fun place n =>
            Transfer.element ⟨dir, sf⟩ w place none n) =
        w.traceAll dir (.onWire (place.spot e)) none := by
      have hbelow : (Place.wire n).Below (n + 1) := Nat.lt_succ_self n
      have hnone : ∀ o, (none : Option Place) = some o → o.Below (n + 1) :=
        fun o ho => absurd ho.symm (Option.some_ne_none o)
      rw [(h w rfl).ranks (hruns w rfl) hbelow hnone, hlocal]
      rfl
    rw [Transfer.onWire, statementEvents_singleton, Statement.events, hvalue]
    rfl

/-- What the function of a record does. -/
theorem events_record {g : Registry} {d : Decl} (hd : d.Sound g m.records)
    (hk : d.kind = .struct) (h : ∀ x ∈ d.members, Traced c m dir x) {record : String}
    (hrecord : d.record? = some record) {levels : Nat} (hlevels : d.number < levels) (s : Spot) :
    inlined (Program.recordStatements c m dir) dir levels s record =
      Decl.traceFields dir d.members s := by
  obtain ⟨⟨record', hshape, hlookup⟩, -⟩ := hd.struct hk
  obtain rfl : record = record' := by
    simpa [Decl.record?, hshape] using hrecord.symm
  cases levels with
  | zero => cases hlevels
  | succ levels =>
    have hmembers : m.membersOf record = d.members := by
      rw [Model.membersOf, hlookup]
      rfl
    rw [inlined, Program.recordStatements, hmembers]
    refine events_fields h (fun x hx _ => ?_) (Place.below_object 0 "value") 0
    have hlt := hd.member_lt x hx
    exact ⟨rfl, levels, by omega, rfl⟩

end

/-! ## all declarations -/

section

variable {c : Config} {m : Model} {dir : Direction} {g : Registry}

theorem spot_value (s : Spot) (owner : Option Spot) :
    (Place.object "value").spot (.ofValue s owner) = s := by
  simp [Place.spot, Scope.ofValue]

theorem spot_owner (s o : Spot) :
    (Place.object "owner").spot (.ofValue s (some o)) = o := by
  simp [Place.spot, Scope.ofValue]

namespace Decl

variable {d : Decl}

/-- The trace of a struct is that of its fields. -/
theorem trace_struct (h : ∀ x ∈ d.members, Traced c m dir x) (hk : d.kind = .struct) (s : Spot)
    (owner : Option Spot) : d.trace dir s owner = traceFields dir d.members s := by
  rw [trace, Transfer.element_struct hk]
  dsimp only
  rw [events_fields h (fun _ _ => runs_false _) (Place.below_object ..), spot_value, List.drop_zero]

/-- The trace of a union with an external tag is that of its variants, each under its test. -/
theorem trace_external {tag : String} (h : ∀ x ∈ d.members, Traced c m dir x)
    (hk : d.kind = .union tag false) (s o : Spot) :
    d.trace dir s (some o) =
      choiceEvents (sortBy Alternative.value (d.members.filterMap
        (externalAlternative dir (maxBits d.members) (.field o tag false) s))) := by
  rw [trace, Option.map_some, Transfer.element_external hk,
    events_external h (fun _ _ => runs_false _) (Place.below_object ..), spot_value, spot_owner]

/-- The trace of a union with an internal tag is that of the shared fields, and that of the rest of
its variants, each under its test. -/
theorem trace_internal {tag : String} {lead : Decl}
    (h : ∀ v ∈ d.members, ∀ x ∈ v.members, Traced c m dir x) (hk : d.kind = .union tag true)
    (hlead : d.leadVariant? = some lead) (s : Spot) (owner : Option Spot) :
    d.trace dir s owner =
      traceFields dir (lead.members.take d.sharedFields) (.field s lead.name true) ++
        choiceEvents (sortBy Alternative.value (d.members.filterMap
          (internalAlternative dir d.sharedFields (maxBits d.members) lead s))) := by
  rw [trace, Transfer.element_internal hk, hlead,
    events_internal h (fun _ _ _ _ => runs_false _) (Place.below_object ..) _ _ hlead, spot_value]

end Decl

/-- Moves of single values are made at the place that they are given. -/
theorem traced_of_leaf {d : Decl} (hleaf : d.kind.isLeaf = true)
    (hkept : ∀ t, d.kind ≠ .transformed t) : Traced c m dir d := by
  intro sf call e place owner n hruns hplace howner
  have hvalue := spot_value (place.spot e) (owner.map (Place.spot e))
  rw [Decl.trace]
  obtain homit | ⟨move, hmove, hcode⟩ := Transfer.element_leaf hleaf hkept
  · rw [Transfer.element_omitted homit, Transfer.element_omitted homit]
    cases dir <;> cases d.encoding.default <;>
      simp only [statementEvents, Statement.events, Move.events, Move.action, hvalue]
  · rw [hcode, hcode]
    cases hmove <;>
      simp only [statementEvents, Statement.events, Move.events, Move.action, hvalue]

/-- **One trace**: all statements for a sound declaration do what its trace says. -/
theorem traced_of_sound (c : Config) (dir : Direction) {d : Decl}
    (hd : d.Everywhere (Decl.Sound g m.records)) : Traced c m dir d := by
  refine hd.induct fun d hd hmembers hgrand hwire => ?_
  have hlt : ∀ x ∈ d.members, x.number ≤ d.number := fun x hx =>
    Nat.le_of_lt (hd.self.member_lt x hx)
  have hltgrand : ∀ v ∈ d.members, ∀ x ∈ v.members, x.number ≤ d.number := fun v hv x hx =>
    Nat.le_trans (Nat.le_of_lt ((hd.member hv).self.member_lt x hx)) (hlt v hv)
  by_cases hleaf : d.kind.isLeaf = true ∧ ∀ t, d.kind ≠ .transformed t
  · exact traced_of_leaf hleaf.1 hleaf.2
  intro sf call e place owner n hruns hplace howner
  cases hk : d.kind with
  | transformed t =>
    rw [Decl.trace, Transfer.element_transformed hk, Transfer.element_transformed hk,
      events_onWire hwire fun w hw => hruns.mono (Nat.le_of_lt (hd.self.wire_lt w hw)),
      events_onWire hwire fun _ _ => runs_false _, spot_value]
  | union tag internal =>
    cases internal with
    | false =>
      cases owner with
      | none =>
        rw [Decl.trace, Option.map_none, Option.map_none, Transfer.element_external_none hk,
          Transfer.element_external_none hk]
        rfl
      | some o =>
        rw [Transfer.element_external hk,
          events_external hmembers (fun x hx => hruns.mono (hlt x hx)) hplace]
        exact (Decl.trace_external hmembers hk ..).symm
    | true =>
      obtain ⟨lead, hshared⟩ := (hd.self.union tag true hk).shared_of_internal
      rw [Transfer.element_internal hk, hshared.found,
        events_internal hgrand (fun v hv x hx => hruns.mono (hltgrand v hv x hx)) hplace _ _
          hshared.found, Decl.trace_internal hgrand hk hshared.found]
  | struct =>
    rw [Transfer.element_struct hk, Decl.trace_struct hmembers hk]
    dsimp only
    split
    · next record hsf hrecord =>
      obtain ⟨-, levels, hlevels, rfl⟩ := hruns rfl
      rw [statementEvents_singleton]
      exact events_record hd.self hk hmembers hrecord hlevels _
    · rw [events_fields hmembers (fun x hx => hruns.mono (hlt x hx)) hplace, List.drop_zero]
  | _ => exact absurd ⟨by simp [hk, Kind.isLeaf], by simp [hk]⟩ hleaf

end

end BitLayout
