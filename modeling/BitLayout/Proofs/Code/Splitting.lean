import BitLayout.Proofs.Code.Branches
import BitLayout.Proofs.Code.Loci
import BitLayout.Proofs.Decl.Building
import BitLayout.Proofs.Item.Sizes

/-!
# BitLayout.Proofs.Code.Splitting

Taking an item apart does not change what its code does. The code for a whole value and the code for
its parts both do what the traces of the parts say:

* `Path.Parts.events`: a slice, an array or a struct does what its parts do, one after the other;
* `Path.Switch.trace`: a union does what its shared parts do, and what one of its arms does;
* `events_of_expand`: so the code for an item and the code for what it is taken apart into do the
  same.
-/

namespace BitLayout

/-! ## traces of members -/

namespace Path

variable {p : Path} {dir : Direction}

theorem trace_members (p : Path) (h : p.last.decl.isUnionInMemory = false) (ds : List Decl) :
    (ds.map p.member).flatMap (trace dir) = Decl.traceFields dir ds p.spot := by
  rw [List.flatMap_map, Decl.traceFields]
  refine List.flatMap_congr fun d _ => ?_
  rw [trace_member, h]

end Path

/-- Nothing is done for what is left out without a default. -/
theorem Decl.traceAll_of_omitted {dir : Direction} {d : Decl} (homit : d.isOmitted = true)
    (hdefault : d.encoding.default = none) (s : Spot) (owner : Option Spot) :
    d.traceAll dir s owner = [] := by
  refine List.flatMap_eq_nil_iff.2 fun s _ => ?_
  obtain ⟨info, members, wire⟩ := d
  have hk : info.encoding.kind = .omitted := of_decide_eq_true homit
  rw [trace]
  simp only [Transfer.element, hk, show info.encoding.default = none from hdefault]
  rfl

/-! ## arms -/

/-- What an arm does by the traces of its parts. -/
def Variant.alternative (dir : Direction) (a : Variant) : Alternative :=
  ⟨a.tag.spot, a.value, a.parts.flatMap (Path.trace dir) ++ paddingEvents a.slack⟩

namespace Path

variable {p tag : Path} {dir : Direction} {lead : Decl} {name : String} {g : Registry}
  {records : List (String × List Decl)}

/-- The arms of a union with an external tag do what the variants do. -/
theorem alternatives_external (hs : p.last.slice? = none) (hr : p.last.remaining = [])
    (hk : p.last.decl.kind = .union name false)
    (hunion : p.last.decl.isUnionInMemory = true) (tag : Path) :
    (p.last.decl.members.filterMap (p.externalVariant tag)).map (Variant.alternative dir) =
      p.last.decl.members.filterMap (Decl.externalAlternative dir
        (Decl.maxBits p.last.decl.members) tag.spot p.spot) := by
  rw [List.map_filterMap]
  refine List.filterMap_congr fun v _ => ?_
  have hparts : (if v.isOmitted && !v.encoding.default.isSome then [] else [p.member v]).flatMap
      (trace dir) = v.traceAll dir (.field p.spot v.name true) (some p.spot) := by
    split
    · next hdropped =>
      simp only [Bool.and_eq_true, Bool.not_eq_true', Option.isSome_eq_false_iff,
        Option.isNone_iff_eq_none] at hdropped
      exact (Decl.traceAll_of_omitted hdropped.1 hdropped.2 _ _).symm
    · rw [List.flatMap_singleton, trace_member, hunion]
  rw [externalVariant, Decl.externalAlternative, Option.map_map]
  refine Option.map_congr fun id _ => ?_
  rw [Function.comp, Variant.alternative, hparts, bits_of_union hs hr hk, bits_member]

/-- The arms of a union with an internal tag do what the rests of the variants do. -/
theorem alternatives_internal (hd : p.last.decl.Everywhere (Decl.Sound g records))
    (hs : p.last.slice? = none) (hr : p.last.remaining = [])
    (hk : p.last.decl.kind = .union name true) (hshared : p.last.decl.Shared lead) :
    (p.last.decl.members.filterMap (p.internalVariant lead)).map (Variant.alternative dir) =
      p.last.decl.members.filterMap (Decl.internalAlternative dir p.last.decl.sharedFields
        (Decl.maxBits p.last.decl.members) lead p.spot) := by
  have hunion := (hd.self.union _ _ hk).isUnionInMemory
  rw [List.map_filterMap]
  refine List.filterMap_congr fun v hv => ?_
  obtain ⟨selector, hsel⟩ := hshared.selector hv
  have hparts : ((v.members.drop p.last.decl.sharedFields).map (p.member v).member).flatMap
      (trace dir) = Decl.traceFields dir (v.members.drop p.last.decl.sharedFields)
        (.field p.spot v.name true) := by
    by_cases hne : v.members = []
    · rw [hne, List.drop_nil]
      rfl
    · have hstruct := (hshared.variant_struct hd hv hne).2.isUnionInMemory
      rw [trace_members (p.member v) hstruct, spot_member, hunion]
  have howner : (if v.isOmitted then lead else v).isUnionInMemory = false := by
    refine (hshared.variant_struct hd ?_ ?_).2.isUnionInMemory
    · split
      · exact List.mem_of_find?_eq_some hshared.found
      · exact hv
    · exact List.ne_nil_of_mem (List.mem_of_getElem? hsel)
  have htag : ((p.member (if v.isOmitted then lead else v)).member selector).spot =
      .field (.field p.spot (if v.isOmitted then lead else v).name true) selector.name false := by
    rw [spot_member, spot_member, hunion]
    exact congrArg _ howner
  unfold internalVariant Decl.internalAlternative
  dsimp only
  rw [hsel]
  cases v.encoding.variantId with
  | none => rfl
  | some id =>
    rw [Option.map_some, Option.map_some, Variant.alternative, htag, hparts,
      bits_of_union hs hr hk, sharedParts, sumBits_members, sumBits_members]
    rfl

/-! ## switches -/

variable {m : Model} {cs : List Condition} {shared : List Path} {arms : List Variant}

/-- An external tag is a field of the struct that the union is a field of. -/
theorem Walks.selector_spot (hm : m.Sound g) (h : p.Walks m.roots)
    (hk : p.last.decl.kind = .union name false) {owner : Step} {selector : Decl}
    (howner : p.owners.getLast? = some owner) (hsel : owner.decl.member? name = some selector) :
    ∃ o, p.ownerSpot = some o ∧ (p.sibling selector).spot = .field o name false := by
  have hsteps : p.owners = (Path.mk p.owners.dropLast owner).steps :=
    (List.dropLast_append_getLast? owner howner).symm
  obtain ⟨hmem, hsound⟩ := h.owner hm howner
  have hstruct : owner.decl.isUnionInMemory = false := by
    refine (hsound.struct (hsound.struct_of_external hmem ?_)).isUnionInMemory
    rw [Decl.isExternal, hk]
  have hname : selector.name = name := by simpa using List.find?_some hsel
  refine ⟨(Path.mk p.owners.dropLast owner).spot, ?_, ?_⟩
  · rw [ownerSpot, locus_of_steps hsteps, Locus.field, Locus.owner_foldl_access]
    rfl
  · have hsibling : (p.sibling selector).owners = (Path.mk p.owners.dropLast owner).steps := hsteps
    rw [spot, locus_of_steps hsibling, hstruct, ← hname]
    rfl

/-- **A switch**: a union does what its shared parts do, and what one of its arms does. -/
theorem Switch.trace (c : Config) (hm : m.Sound g) (hs : p.Switch shared arms)
    (h : p.Reached m.roots cs) :
    p.trace dir = shared.flatMap (Path.trace dir) ++
      choiceEvents (sortBy Alternative.value (arms.map (Variant.alternative dir))) := by
  have hd := h.sound hm
  cases hs with
  | @external name selector owner hs hr hk howner hsel =>
    obtain ⟨o, hospot, htag⟩ := h.walks.selector_spot hm hk howner hsel
    have hmembers : ∀ v ∈ p.last.decl.members, Traced c m dir v := fun v hv =>
      traced_of_sound c dir (hd.member hv)
    rw [trace_of_element hr, hospot, Decl.trace_external hmembers hk,
      alternatives_external hs hr hk (hd.self.union _ _ hk).isUnionInMemory, htag]
    rfl
  | @internal name lead hs hr hk hlead =>
    have hshared := hd.self.shared_of_lead hk hlead
    have hgrand : ∀ v ∈ p.last.decl.members, ∀ d ∈ v.members, Traced c m dir d := fun v hv d hdv =>
      traced_of_sound c dir ((hd.member hv).member hdv)
    have hlead' : (p.member lead).last.decl.isUnionInMemory = false := by
      obtain ⟨selector, hsel, -⟩ := hshared.tag
      refine (hshared.variant_struct hd (List.mem_of_find?_eq_some hlead) ?_).2.isUnionInMemory
      exact List.ne_nil_of_mem (List.mem_of_getElem? hsel)
    rw [trace_of_element hr, Decl.trace_internal hgrand hk hlead,
      alternatives_internal hd hs hr hk hshared, sharedParts, trace_members _ hlead', spot_member,
      (hd.self.union _ _ hk).isUnionInMemory]

/-- **Parts**: a slice, an array or a struct does what its parts do. -/
theorem Parts.events {ps : List Path} {sf : Bool} {call : Spot → String → List Event} {c : Config}
    (hm : m.Sound g) (hp : p.Parts ps) (h : p.Reached m.roots cs)
    (hruns : Runs c m dir p.last.decl.number sf call) :
    statementEvents dir call .start (Item.statements ⟨dir, sf⟩ ⟨cs, .value p⟩) =
      ps.flatMap (Path.trace dir) := by
  have hd := h.sound hm
  have htraced := traced_of_sound c dir hd
  cases hp with
  | @slice a hs =>
    have heq := eq_access_of_slice hs
    obtain ⟨hreached, -, hnone, extent, rest, hr, -⟩ := h.of_access heq
    have hslice : statementEvents dir call .start (Item.statements ⟨dir, sf⟩
        ⟨cs, .value ((p.withAccesses p.last.accesses.dropLast).access a)⟩) = _ :=
      events_slice (p := p.withAccesses p.last.accesses.dropLast) htraced hruns
        (hreached.stemmed.closed hnone) hr (Option.filter_eq_some_iff.1 hs).2
    rw [← heq] at hslice
    rw [hslice, List.flatMap_map]
    rfl
  | rank hs hr =>
    rw [events_value htraced hruns (h.stemmed.closed hs), trace_rank hr, List.flatMap_map]
  | struct hs hr hk =>
    have hmembers : ∀ v ∈ p.last.decl.members, Traced c m dir v := fun v hv =>
      traced_of_sound c dir (hd.member hv)
    rw [events_value htraced hruns (h.stemmed.closed hs), trace_of_element hr,
      Decl.trace_struct hmembers hk, trace_members p (hd.self.struct hk).isUnionInMemory]

end Path

/-! ## items -/

section

variable {c : Config} {g : Registry} {m : Model} {dir : Direction} {sf : Bool}
  {call : Spot → String → List Event} {cs : List Condition} {p : Path} {ps : List Path}
  {a : Variant}

open Items

/-- Values in a row do what their traces say. -/
theorem Row.moved (hm : m.Sound g) (h : Row m.roots cs ps)
    (hruns : ∀ p ∈ ps, Runs c m dir p.last.decl.number sf call) :
    movedEvents ⟨dir, sf⟩ dir call .start (Item.row cs ps) = ps.flatMap (Path.trace dir) := by
  rw [movedEvents, Item.row, List.flatMap_map]
  refine List.flatMap_congr fun p hp => ?_
  have hreached := h.reached p hp
  exact events_value (traced_of_sound c dir (hreached.sound hm)) (hruns p hp)
    (hreached.stemmed.closed (h.unsliced p hp))

/-- The items of an arm do what the traces of its parts say, and then move what is left. -/
theorem Row.moved_arm (hm : m.Sound g) (h : Row m.roots (a.conditions cs p) a.parts)
    (hruns : ∀ q ∈ a.parts, Runs c m dir q.last.decl.number sf call) :
    alternativeOf ⟨dir, sf⟩ dir call .start cs p a = a.alternative dir := by
  have hslack : movedEvents ⟨dir, sf⟩ dir call .start
      (if a.slack = 0 then [] else [Item.padding (a.conditions cs p) a.slack false]) =
        paddingEvents a.slack := by
    split
    · next hzero =>
      rw [hzero]
      rfl
    · exact (List.flatMap_singleton ..).trans (events_padding a.slack)
  have hmoved : movedEvents ⟨dir, sf⟩ dir call .start (a.items cs p) =
      a.parts.flatMap (Path.trace dir) ++ paddingEvents a.slack := by
    rw [← h.moved hm hruns, ← hslack, movedEvents, movedEvents, movedEvents, ← List.flatMap_append]
    rfl
  rw [alternativeOf, hmoved]
  rfl

end

/-! ## programs -/

namespace Model

/-- More levels than functions of records can call each other through. -/
def callLevels (m : Model) : Nat := m.roots.foldr (fun d n => max (d.number + 1) n) 0

theorem lt_callLevels {ds : List Decl} {d : Decl} (hd : d ∈ ds) :
    d.number < ds.foldr (fun d n => max (d.number + 1) n) 0 := by
  induction ds with
  | nil => cases hd
  | cons e ds ih =>
    rw [List.foldr_cons]
    rcases List.mem_cons.1 hd with rfl | hd
    · omega
    · have hlt := ih hd
      omega

end Model

/-- Everything in a sound declaration has a number that is at most its own. -/
theorem Decl.everywhere_le {g : Registry} {records : List (String × List Decl)} {d : Decl}
    (h : d.Everywhere (Decl.Sound g records)) : d.Everywhere fun e => e.number ≤ d.number := by
  intro e he
  induction he with
  | refl => exact Nat.le_refl _
  | member hm he ih => exact Nat.le_trans (ih (h.member hm)) (Nat.le_of_lt (h.self.member_lt _ hm))
  | wire hw he ih => exact Nat.le_trans (ih (h.wire hw)) (Nat.le_of_lt (h.self.wire_lt _ hw))

/-- What statements in a program do, with the functions of records run in place. -/
def Program.unrolled (c : Config) (m : Model) (d : Direction) (body : List Statement) :
    List Event :=
  statementEvents d (inlined (recordStatements c m d) d m.callLevels) .start body

section

variable {c : Config} {g : Registry} {m : Model} {dir : Direction} {sf : Bool}
  {call : Spot → String → List Event} {cs : List Condition} {p : Path} {ps shared : List Path}
  {arms : List Variant}

/-- Declarations below the data objects have numbers below the levels of calls. -/
theorem Path.Walks.number_lt (hm : m.Sound g) (h : p.Walks m.roots) :
    p.last.decl.number < m.callLevels := by
  have hroots : ∀ d ∈ m.roots, d.Everywhere fun e => e.number < m.callLevels := fun d hd e he =>
    Nat.lt_of_le_of_lt (Decl.everywhere_le (hm.roots d hd) e he) (Model.lt_callLevels hd)
  exact (h.everywhere hroots).self

/-- Functions of records can be run in place for everything that is reached. -/
theorem Path.Reached.runs (hm : m.Sound g) (h : p.Reached m.roots cs) :
    Runs c m dir p.last.decl.number c.structFunctions
      (inlined (Program.recordStatements c m dir) dir m.callLevels) :=
  fun _ => ⟨rfl, m.callLevels, h.walks.number_lt hm, rfl⟩

/-- A trace has no calls of functions of records. -/
theorem Path.not_isCall_trace : ∀ ev ∈ p.trace dir, ev.isCall = false := by
  intro ev hev
  obtain ⟨s, -, hev⟩ := List.mem_flatMap.1 hev
  exact not_isCall_statementEvents (fun _ _ _ hmem => absurd hmem List.not_mem_nil) _ _ ev hev

/-- What an item does that is taken apart into parts. -/
theorem Row.events_parts (hm : m.Sound g) (h : Row m.roots cs ps)
    (hruns : ∀ q ∈ ps, Runs c m dir q.last.decl.number sf call) :
    statementEvents dir call .start (Items.statements ⟨dir, sf⟩ cs.length (Item.row cs ps)) =
      ps.flatMap (Path.trace dir) := by
  have hnone : ∀ i ∈ Item.row cs ps, i.conditions[cs.length]? = none := by
    intro i hi
    obtain ⟨q, -, rfl⟩ := List.mem_map.1 hi
    exact List.getElem?_eq_none (Nat.le_refl _)
  exact (Items.events_row hnone).trans (h.moved hm hruns)

/-- What a union does that is taken apart. -/
theorem Path.Switch.events_parts (hm : m.Sound g) (hs : p.Switch shared arms)
    (h : p.Reached m.roots cs) (homit : p.last.decl.isOmitted = false)
    (hruns : ∀ {cs : List Condition} {q : Path}, q.Reached m.roots cs →
      Runs c m dir q.last.decl.number sf call) :
    statementEvents dir call .start (Items.statements ⟨dir, sf⟩ cs.length
        (Split.union (Item.row cs shared) (arms.map (Variant.branch cs p))).items) =
      p.trace dir := by
  have hrow := Row.ofShared hm h homit hs
  have harms : arms.map (Items.alternativeOf ⟨dir, sf⟩ dir call .start cs p) =
      arms.map (Variant.alternative dir) := by
    refine List.map_congr_left fun a ha => ?_
    have harm := Row.ofArm hm h homit hs ha
    exact harm.moved_arm hm fun q hq => hruns (harm.reached q hq)
  rw [Items.events_switch (hs.nodup_values (h.sound hm).self), harms, hs.trace c hm h,
    hrow.moved hm fun q hq => hruns (hrow.reached q hq)]

/-- **Splitting**: the code for an item and the code for what it is taken apart into do the same:
the same moves and transforms at the same places, in the same order and in the same arms of the same
choices. Nothing is left to a function of a record. -/
theorem events_of_expand {i : Item} (h : Model.build c g = some m) (herr : m.errors = [])
    (hi : i.Reached m.roots) (hsplit : i.canSplit = true) :
    Program.unrolled c m dir (i.statements (Program.purpose c dir)) =
        Program.unrolled c m dir
          (Items.statements (Program.purpose c dir) i.conditions.length i.expand) ∧
      ∀ ev ∈ Program.unrolled c m dir (i.statements (Program.purpose c dir)),
        ev.isCall = false := by
  have hm := Model.sound_of_build h herr
  obtain ⟨s, hsome⟩ := Option.isSome_iff_exists.1 hsplit
  obtain ⟨cs, p, rfl, homit, hcases⟩ := Item.split_cases hsome
  have hreached := hi.path homit
  have hruns {cs : List Condition} {q : Path} (hq : q.Reached m.roots cs) :
      Runs c m dir q.last.decl.number c.structFunctions
        (inlined (Program.recordStatements c m dir) dir m.callLevels) := hq.runs hm
  rw [Item.expand, hsome, Option.elim_some, Program.unrolled, Program.unrolled, Program.purpose]
  obtain ⟨ps, hp, rfl⟩ | ⟨shared, arms, hs, rfl⟩ := hcases
  · have hrow := Row.ofParts hm hreached homit hp
    have hwhole := hp.events hm hreached (hruns hreached)
    have hparts := hrow.events_parts hm fun q hq => hruns (hrow.reached q hq)
    constructor
    · exact hwhole.trans hparts.symm
    · rw [hwhole]
      intro ev hev
      obtain ⟨q, -, hev⟩ := List.mem_flatMap.1 hev
      exact Path.not_isCall_trace ev hev
  · have hwhole : statementEvents dir _ .start (Item.statements ⟨dir, c.structFunctions⟩
        ⟨cs, .value p⟩) = p.trace dir :=
      events_value (traced_of_sound c dir (hreached.sound hm)) (hruns hreached)
        (hreached.stemmed.closed hs.unsliced)
    have hparts := hs.events_parts hm hreached homit hruns
    constructor
    · exact hwhole.trans hparts.symm
    · rw [hwhole]
      exact Path.not_isCall_trace

end

/-! ## the small layout -/

namespace Sample

/-- The small layout, with functions for its records. -/
def calling : Config := { config with structFunctions := true }

/-- Only the union among the parts of the small layout can be taken apart further. -/
theorem parts : (Model.build calling registry).map (fun m => (m.errors,
      m.roots.flatMap fun d => (Item.root d).expand.map fun i =>
        (i.canSplit, (Program.unrolled calling m .save
          (i.statements (Program.purpose calling .save))).length))) =
    some ([], [(false, 1), (true, 4), (false, 1)]) := by
  decide +kernel

/-- Both variants of the union in the small layout are saved as they are when it is taken apart. -/
theorem split_union : ∃ (m : Model) (i : Item), Model.build calling registry = some m ∧
    m.errors = [] ∧ i.Reached m.roots ∧ i.canSplit = true ∧
    (Program.unrolled calling m .save (i.statements (Program.purpose calling .save))).length = 4 ∧
    Program.unrolled calling m .save (i.statements (Program.purpose calling .save)) =
        Program.unrolled calling m .save
          (Items.statements (Program.purpose calling .save) i.conditions.length i.expand) ∧
      ∀ ev ∈ Program.unrolled calling m .save (i.statements (Program.purpose calling .save)),
        ev.isCall = false := by
  obtain ⟨m, hm, hparts⟩ := Option.map_eq_some_iff.1 parts
  obtain ⟨herrors, hparts⟩ := Prod.mk.inj hparts
  have hmem : (true, 4) ∈ [(false, 1), (true, 4), (false, 1)] := by decide
  rw [← hparts] at hmem
  obtain ⟨d, hd, hmem⟩ := List.mem_flatMap.1 hmem
  obtain ⟨i, hi, heq⟩ := List.mem_map.1 hmem
  obtain ⟨hsplit, hlength⟩ := Prod.mk.inj heq
  have hreached : i.Reached m.roots := .expand (.root hd) hi
  exact ⟨m, i, hm, herrors, hreached, hsplit, hlength, events_of_expand hm herrors hreached hsplit⟩

end Sample

end BitLayout
