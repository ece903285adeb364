import BitLayout.Code.Program
import BitLayout.Proofs.Strict.Items

/-!
# BitLayout.Proofs.Strict.Moves

Moving declarations, strictly. Unions with external tags are only moved as fields of something,
those with internal tags have a variant through which the shared fields are moved, and a transformed
value is something on the wire.

Main statement: `Strict.element_eq`, that an element of a sound declaration is moved strictly as it
is moved.
-/

namespace BitLayout

namespace Strict

/-! ## moving elements -/

/-- Repeat the statements for one element over all ranks of an array. -/
def overRanks : List Nat → (number : Nat) → Place →
    (Place → Nat → Except Halt (List Statement)) → Except Halt (List Statement)
  | [], number, place, body => body place number
  | extent :: rest, number, place, body =>
    return Statement.looped ⟨number, 0, extent⟩
      (← overRanks rest (number + 1) (.element place (.loop number)) body)

/-- The field that holds the tag of a variant with some members. -/
def tagPlace (variant : Place) (sharedFields : Nat) (members : List Decl) : Except Halt Place := do
  let selector ← entry members (← minus sharedFields 1)
  return .field variant selector.name false

mutual

/-- Move one element at a place. -/
def element (records : List (String × List Decl)) (aim : Purpose) :
    Decl → Place → (owner : Option Place) → (number : Nat) → Except Halt (List Statement)
  | .mk info members wire, place, owner, number =>
    match info.encoding.kind with
    | .text length terminated =>
      return [.move (.text place (← textBytes length terminated) terminated)]
    | .transformed t => onWire records aim t wire place number
    | .struct =>
      match aim.structFunctions, info.record? with
      | true, some record => do
        let _ ← need .noRecord (records.lookup record)
        return [.move (.record place record)]
      | _, _ => fields records aim 0 members place number
    | .union tag false => do
      let owner ← need .noOwner owner
      let bits ← maxBits members
      let arms ← variants records aim bits (.field owner tag false) members place number
      return Statement.chosen arms
    | .union _ true => do
      let shared ← sharedFields records aim info.sharedFields members place number
      let lead ← need .noLead (members.find? (!·.isOmitted))
      let bits ← maxBits members
      let arms ← remainders records aim info.sharedFields bits lead members place number
      return shared ++ Statement.chosen arms
    | _ => .ok (Transfer.element aim (.mk info members wire) place owner number)

/-- Move what a value becomes on the wire. -/
def onWire (records : List (String × List Decl)) (aim : Purpose) (t : Transform) :
    Option Decl → Place → (number : Nat) → Except Halt (List Statement)
  | none, _, _ => .error .noWire
  | some d, place, number => do
    let body ← overRanks d.extents (number + 1) (.wire number)
      fun place number => element records aim d place none number
    return [.wire number t place body]

/-- Move the fields of a struct behind the first `skipped` ones. -/
def fields (records : List (String × List Decl)) (aim : Purpose) :
    (skipped : Nat) → List Decl → Place → (number : Nat) → Except Halt (List Statement)
  | 0, [], _, _ => .ok []
  | _ + 1, [], _, _ => .error .slice
  | 0, d :: rest, place, number => do
    let one ← overRanks d.extents number (.field place d.name false)
      fun field number => element records aim d field (some place) number
    return one ++ (← fields records aim 0 rest place number)
  | skipped + 1, _ :: rest, place, number => fields records aim skipped rest place number

/-- Move the first `count` fields of a struct. -/
def leadingFields (records : List (String × List Decl)) (aim : Purpose) :
    (count : Nat) → List Decl → Place → (number : Nat) → Except Halt (List Statement)
  | 0, _, _, _ => .ok []
  | _ + 1, [], _, _ => .error .slice
  | count + 1, d :: rest, place, number => do
    let one ← overRanks d.extents number (.field place d.name false)
      fun field number => element records aim d field (some place) number
    return one ++ (← leadingFields records aim count rest place number)

/-- Move the fields that all variants share, as those of the first variant that is not left out. -/
def sharedFields (records : List (String × List Decl)) (aim : Purpose) (count : Nat) :
    List Decl → Place → (number : Nat) → Except Halt (List Statement)
  | [], _, _ => .error .noLead
  | .mk info members _ :: rest, place, number =>
    if info.encoding.isOmitted then sharedFields records aim count rest place number
    else leadingFields records aim count members (.field place info.name true) number

/-- The arms that move variants whole. -/
def variants (records : List (String × List Decl)) (aim : Purpose) (bits : Nat) (tag : Place) :
    List Decl → Place → (number : Nat) → Except Halt (List Arm)
  | [], _, _ => .ok []
  | v :: rest, place, number => do
    let others ← variants records aim bits tag rest place number
    match v.encoding.variantId with
    | none => return others
    | some id =>
      let body ← overRanks v.extents number (.field place v.name true)
        fun field number => element records aim v field (some place) number
      let slack ← minus bits ((← elementBits v) * Decl.elementCount v.extents)
      return Arm.insert (.mk tag id (body ++ Statement.padding slack)) others

/-- The arms that move the fields of variants behind the shared ones. Only a variant that is left
out may have fewer than these. -/
def remainders (records : List (String × List Decl)) (aim : Purpose) (count bits : Nat)
    (lead : Decl) : List Decl → Place → (number : Nat) → Except Halt (List Arm)
  | [], _, _ => .ok []
  | .mk info members wire :: rest, place, number => do
    let others ← remainders records aim count bits lead rest place number
    match info.encoding.variantId with
    | none => return others
    | some id =>
      let variant := Place.field place info.name true
      let tag ← (if info.encoding.isOmitted
        then tagPlace (.field place lead.name true) count lead.members
        else tagPlace variant count members)
      let skipped := if info.encoding.isOmitted then min count members.length else count
      let body ← fields records aim skipped members variant number
      let used := (← sumBits (← first count lead.members)) +
        (← sumBits (← fieldsBehind count (.mk info members wire)))
      let slack ← minus bits used
      return Arm.insert (.mk tag id (body ++ Statement.padding slack)) others

end

/-! ## moving is strict -/

section

variable {g : Registry} {records : List (String × List Decl)} {aim : Purpose} {d lead : Decl}
  {ds : List Decl} {place : Place} {number : Nat}

/-- Moving an element of a declaration stops nowhere, if there is an owner where the tag stands
outside. -/
def Moved (records : List (String × List Decl)) (aim : Purpose) (d : Decl) : Prop :=
  ∀ (place : Place) (owner : Option Place) (number : Nat),
    (d.isExternal = true → owner.isSome = true) →
    element records aim d place owner number = .ok (Transfer.element aim d place owner number)

theorem overRanks_eq {body : Place → Nat → Except Halt (List Statement)}
    {value : Place → Nat → List Statement}
    (h : ∀ place number, body place number = .ok (value place number)) (extents : List Nat)
    (number : Nat) (place : Place) :
    overRanks extents number place body = .ok (Statement.overRanks extents number place value) := by
  induction extents generalizing number place with
  | nil => exact h place number
  | cons extent extents ih =>
    rw [overRanks, ih]
    rfl

/-- A field is moved. -/
theorem Moved.field (h : Moved records aim d) (o place : Place) (number : Nat) :
    overRanks d.extents number place
        (fun field number => element records aim d field (some o) number) =
      .ok (Statement.overRanks d.extents number place fun field number =>
        Transfer.element aim d field (some o) number) :=
  overRanks_eq (fun field number => h field (some o) number fun _ => rfl) d.extents number place

theorem fields_eq (h : ∀ d ∈ ds, Moved records aim d) {skipped : Nat} (hle : skipped ≤ ds.length) :
    fields records aim skipped ds place number =
      .ok (Transfer.fields aim skipped ds place number) := by
  induction ds generalizing skipped with
  | nil =>
    obtain rfl : skipped = 0 := Nat.le_zero.1 hle
    rfl
  | cons d ds ih =>
    obtain ⟨hd, hds⟩ := List.forall_mem_cons.1 h
    cases skipped with
    | zero =>
      rw [fields, hd.field, ok_bind, ih hds (Nat.zero_le _)]
      rfl
    | succ skipped => exact ih hds (Nat.le_of_succ_le_succ hle)

/-- More fields than there are cannot be skipped. -/
theorem fields_min (count : Nat) :
    Transfer.fields aim (min count ds.length) ds place number =
      Transfer.fields aim count ds place number := by
  induction ds generalizing count with
  | nil => simp [Transfer.fields]
  | cons d ds ih =>
    cases count with
    | zero => rw [Nat.zero_min]
    | succ count =>
      rw [List.length_cons, Nat.succ_min_succ]
      exact ih count

theorem leadingFields_eq (h : ∀ d ∈ ds, Moved records aim d) {count : Nat}
    (hle : count ≤ ds.length) :
    leadingFields records aim count ds place number =
      .ok (Transfer.leadingFields aim count ds place number) := by
  induction ds generalizing count with
  | nil =>
    obtain rfl : count = 0 := Nat.le_zero.1 hle
    rfl
  | cons d ds ih =>
    obtain ⟨hd, hds⟩ := List.forall_mem_cons.1 h
    cases count with
    | zero => rfl
    | succ count =>
      rw [leadingFields, hd.field, ok_bind, ih hds (Nat.le_of_succ_le_succ hle)]
      rfl

theorem sharedFields_eq (h : ∀ v ∈ ds, ∀ d ∈ v.members, Moved records aim d)
    (hlead : ds.find? (!·.isOmitted) = some lead) {count : Nat}
    (hle : count ≤ lead.members.length) :
    sharedFields records aim count ds place number =
      .ok (Transfer.sharedFields aim count ds place number) := by
  induction ds with
  | nil => cases hlead
  | cons v ds ih =>
    obtain ⟨hv, hds⟩ := List.forall_mem_cons.1 h
    obtain ⟨info, members, wire⟩ := v
    rw [List.find?_cons, Decl.isOmitted, Decl.encoding, Decl.info] at hlead
    rw [sharedFields, Transfer.sharedFields]
    cases homit : info.encoding.isOmitted with
    | true =>
      rw [homit] at hlead
      exact ih hds hlead
    | false =>
      rw [homit] at hlead
      obtain rfl := Option.some.inj hlead
      exact leadingFields_eq hv hle

/-- No variant is larger than the union. -/
theorem variants_eq (hd : d.Everywhere (Decl.Sound g records))
    (h : ∀ v ∈ d.members, Moved records aim v) (tag : Place) (hsub : ds ⊆ d.members) :
    variants records aim (Decl.maxBits d.members) tag ds place number =
      .ok (Transfer.variants aim (Decl.maxBits d.members) tag ds place number) := by
  induction ds with
  | nil => rfl
  | cons v ds ih =>
    obtain ⟨hv, hds⟩ := List.cons_subset.1 hsub
    have hle : v.elementBits * Decl.elementCount v.extents ≤ Decl.maxBits d.members :=
      Decl.bits_le_maxBits hv
    rw [variants, Transfer.variants, ih hds, ok_bind]
    cases v.encoding.variantId with
    | none => rfl
    | some id =>
      dsimp only
      rw [(h v hv).field, ok_bind, elementBits_eq (hd.member hv), ok_bind, minus_eq hle]
      rfl

theorem tagPlace_eq {selector : Decl} {count : Nat} (hpos : 0 < count)
    (hsel : ds[count - 1]? = some selector) (variant : Place) :
    tagPlace variant count ds = .ok (BitLayout.tagPlace variant count ds) := by
  rw [tagPlace, minus_eq hpos, ok_bind, entry, BitLayout.tagPlace, hsel]
  rfl

/-- The variants of a union have the fields that they share, the tag last, and none is larger than
the union. -/
theorem remainders_eq (hd : d.Everywhere (Decl.Sound g records)) (hshared : d.Shared lead)
    (h : ∀ v ∈ d.members, ∀ x ∈ v.members, Moved records aim x) (hsub : ds ⊆ d.members) :
    remainders records aim d.sharedFields (Decl.maxBits d.members) lead ds place number =
      .ok (Transfer.remainders aim d.sharedFields (Decl.maxBits d.members) (some lead) ds place
        number) := by
  induction ds with
  | nil => rfl
  | cons v ds ih =>
    obtain ⟨hv, hds⟩ := List.cons_subset.1 hsub
    obtain ⟨selector, hsel⟩ := hshared.selector hv
    have hbits : ∀ w ∈ d.members, ∀ xs, xs ⊆ w.members → sumBits xs = .ok (Decl.sumBits xs) :=
      fun w hw xs hxs => sumBits_eq fun x hx => elementBits_eq ((hd.member hw).member (hxs hx))
    have hfirst := first_eq (hshared.le_length hshared.lead_mem hshared.lead_kept)
    have hrest := fieldsBehind_eq hshared hv
    have hfront := hbits lead hshared.lead_mem _ (List.take_subset d.sharedFields lead.members)
    have hback := hbits v hv _ (List.drop_subset d.sharedFields v.members)
    have hle := hshared.bits_le hd hv
    have hcount : v.isOmitted = false → d.sharedFields ≤ v.members.length := hshared.le_length hv
    have hmoved := h v hv
    obtain ⟨info, members, wire⟩ := v
    change (if info.encoding.isOmitted then lead else .mk info members wire).members[
      d.sharedFields - 1]? = some selector at hsel
    change info.encoding.isOmitted = false → d.sharedFields ≤ members.length at hcount
    change ∀ x ∈ members, Moved records aim x at hmoved
    rw [remainders, ih hds, ok_bind]
    cases hid : info.encoding.variantId with
    | none =>
      simp only [Transfer.remainders, hid]
      rfl
    | some id =>
      simp only [Transfer.remainders, hid]
      simp only [hfirst, hfront, hrest, hback, minus_eq hle, ok_bind]
      cases homit : info.encoding.isOmitted with
      | true =>
        rw [homit, if_pos rfl] at hsel
        rw [if_pos rfl, tagPlace_eq hshared.pos hsel, ok_bind, if_pos rfl,
          fields_eq hmoved (Nat.min_le_right ..), fields_min]
        rfl
      | false =>
        rw [homit, if_neg Bool.false_ne_true] at hsel
        change members[d.sharedFields - 1]? = some selector at hsel
        rw [if_neg Bool.false_ne_true, tagPlace_eq hshared.pos hsel, ok_bind,
          if_neg Bool.false_ne_true, fields_eq hmoved (hcount homit)]
        rfl

/-- A union with a tag outside is moved strictly if its variants are. -/
theorem external_eq {tag : String} (hd : d.Everywhere (Decl.Sound g records))
    (hk : d.kind = .union tag false) (hmembers : ∀ v ∈ d.members, Moved records aim v)
    (owner : Place) : element records aim d place (some owner) number =
      .ok (Transfer.element aim d place (some owner) number) := by
  have hbits : maxBits d.members = .ok (Decl.maxBits d.members) :=
    maxBits_eq fun v hv => elementBits_eq (hd.member hv)
  obtain ⟨info, members, wire⟩ := d
  change info.encoding.kind = .union tag false at hk
  change maxBits members = .ok (Decl.maxBits members) at hbits
  have harms : variants records aim (Decl.maxBits members) (.field owner tag false) members place
      number = .ok _ := variants_eq hd hmembers _ (List.Subset.refl _)
  unfold element Transfer.element
  rw [hk]
  dsimp only
  rw [need_some, ok_bind, hbits, ok_bind, harms]
  rfl

/-- A union with a tag inside is moved strictly if the fields of its variants are. -/
theorem internal_eq {tag : String} (hd : d.Everywhere (Decl.Sound g records))
    (hk : d.kind = .union tag true)
    (hgrand : ∀ v ∈ d.members, ∀ x ∈ v.members, Moved records aim x) (owner : Option Place) :
    element records aim d place owner number =
      .ok (Transfer.element aim d place owner number) := by
  have hbits : maxBits d.members = .ok (Decl.maxBits d.members) :=
    maxBits_eq fun v hv => elementBits_eq (hd.member hv)
  obtain ⟨lead, hshared⟩ := (hd.self.union tag true hk).shared_of_internal
  obtain ⟨info, members, wire⟩ := d
  change info.encoding.kind = .union tag true at hk
  change maxBits members = .ok (Decl.maxBits members) at hbits
  have hfound : members.find? (!·.isOmitted) = some lead := hshared.found
  have hfields : sharedFields records aim info.sharedFields members place number = .ok _ :=
    sharedFields_eq hgrand hfound (hshared.le_length hshared.lead_mem hshared.lead_kept)
  have harms : remainders records aim info.sharedFields (Decl.maxBits members) lead members
      place number = .ok _ := remainders_eq hd hshared hgrand (List.Subset.refl _)
  unfold element Transfer.element
  rw [hk]
  dsimp only
  rw [hfields, ok_bind, hfound, need_some, ok_bind, hbits, ok_bind, harms]
  rfl

/-- **Strict moves**: an element of a sound declaration is moved strictly as it is moved. -/
theorem element_eq (aim : Purpose) {d : Decl} (hd : d.Everywhere (Decl.Sound g records)) :
    Moved records aim d := by
  refine hd.induct fun d hd hmembers hgrand hwire => ?_
  have hsound := hd.self
  intro place owner number howner
  obtain ⟨info, members, wire⟩ := d
  cases hk : info.encoding.kind with
  | text length terminated =>
    simp only [element, Transfer.element, hk]
    rw [textBytes_eq fun ht => hsound.room length (ht ▸ hk)]
    rfl
  | transformed t =>
    obtain ⟨w, hw, hfault⟩ := hsound.wired t hk
    obtain rfl : wire = some w := hw
    have hbody := overRanks_eq (fun place number => hwire w rfl place none number fun hext => by
      simp [Decl.isExternal_of_wireFault? hfault] at hext) w.extents (number + 1) (.wire number)
    simp only [element, Transfer.element, hk]
    rw [onWire, hbody]
    rfl
  | struct =>
    obtain ⟨⟨record, hshape, hlookup⟩, -⟩ := hsound.struct hk
    have hrecord : info.record? = some record := by
      rw [DeclInfo.record?, show info.shape = _ from hshape]
    simp only [element, Transfer.element, hk, hrecord]
    cases aim.structFunctions with
    | true =>
      simp only [hlookup]
      rfl
    | false => exact fields_eq hmembers (Nat.zero_le _)
  | union tag internal =>
    cases internal with
    | false =>
      have hext : (Decl.mk info members wire).isExternal = true := by
        rw [Decl.isExternal, show (Decl.mk info members wire).kind = _ from hk]
      obtain ⟨o, rfl⟩ := Option.isSome_iff_exists.1 (howner hext)
      exact external_eq hd hk hmembers o
    | true => exact internal_eq hd hk hgrand owner
  | _ => simp only [element, Transfer.element, hk]

end

end Strict

end BitLayout
