import BitLayout.Proofs.Decl.Origin
import BitLayout.Proofs.Decl.Variants
import BitLayout.Proofs.Encoding.Elements
import BitLayout.Proofs.Item.Sizes

/-!
# BitLayout.Proofs.Decl.Agreement

The variants of a union with an internal tag agree through the tag. What is checked of two leading
fields is that they look the same: their names, the tokens of their types, their extents and their
encodings. Their sizes are not compared, but follow, since all that a size depends on is found again
from what is compared:

* an element that is a struct or a union is the record that its type names, and a record is taken
  apart once, so it has the same members;
* a transformed field becomes the type on the wire that its encoding names, and that is settled in
  only one way.

Main statement: `tagShared_of_build`.
-/

namespace BitLayout

namespace Decl

variable {c : Config} {g : Registry} {records : List (String × List Decl)} {d e : Decl}
  {tag : String}

/-! ## sizes of fields that look the same -/

/-- Declarations of records that answer types with the same tokens are of the same record. -/
theorem shape_eq_of_tokens {name name' : String} {type type' : TypeExpr}
    {own own' : Option Request} {kind : RecordKind} (hd : d.Answers c g name type own)
    (he : e.Answers c g name' type' own') (htokens : d.type.tokens = e.type.tokens)
    (hkind : d.kind = e.kind) (htravels : Config.travelsAs d.kind = some kind) :
    d.shape = e.shape := by
  have helem : ∀ {x : Decl} {name : String} {type : TypeExpr} {own : Option Request},
      x.Answers c g name type own → Config.travelsAs x.kind = some kind →
        ∃ t, g.resolveType type = .ok t ∧ x.type = t.elem.type ∧ x.shape = some t.elem.shape := by
    intro x name type own hx htravels
    obtain ⟨r, hr, hsettled⟩ := hx
    have hencoding : Config.travelsAs r.encoding.kind = some kind := by
      rw [← hsettled.encoding]
      exact htravels
    rcases Config.resolve_cases hr with ⟨request, -, rfl⟩ | ⟨t, ht, hknown⟩ | ⟨request, t, -, rfl⟩
    · simp [Config.travelsAs] at hencoding
    · obtain ⟨helem, -⟩ := Config.shape_of_resolveKnown hknown hencoding
      refine ⟨t, ht, ?_, ?_⟩
      · rw [hsettled.type, helem]
        rfl
      · rw [hsettled.shape, helem]
        rfl
    · simp [Config.travelsAs] at hencoding
  obtain ⟨t, ht, htype, hshape⟩ := helem hd htravels
  obtain ⟨t', ht', htype', hshape'⟩ := helem he (hkind ▸ htravels)
  rw [htype, htype'] at htokens
  rw [hshape, hshape', Registry.elem_eq_of_tokens ht ht' htokens]

/-- Everything about a declaration and what stands below it is sound and asked for. -/
def Honest (c : Config) (g : Registry) (records : List (String × List Decl)) (d : Decl) : Prop :=
  d.Everywhere fun e => e.Sound g records ∧ e.Faithful c g

/-- The bits of an element depend on its kind, if it is neither a record nor transformed. -/
theorem elementBits_of_leaf (hkind : d.kind = e.kind) (hleaf : d.kind.isLeaf = true)
    (hplain : ∀ t, d.kind ≠ .transformed t) : d.elementBits = e.elementBits := by
  obtain ⟨info, members, wire⟩ := d
  obtain ⟨info', members', wire'⟩ := e
  have hk : info.encoding.kind = info'.encoding.kind := hkind
  have hleaf : info.encoding.kind.isLeaf = true := hleaf
  have hplain : ∀ t, info.encoding.kind ≠ .transformed t := hplain
  simp only [elementBits, ← hk]
  cases hinfo : info.encoding.kind with
  | transformed t => exact absurd hinfo (hplain t)
  | struct => simp [hinfo, Kind.isLeaf] at hleaf
  | union tag internal => simp [hinfo, Kind.isLeaf] at hleaf
  | _ => rfl

/-- Declarations of one kind take the same bits for an element, if they are of the same record in
case they are records. -/
theorem elementBits_eq (hd : d.Honest c g records) (he : e.Honest c g records)
    (hkind : d.kind = e.kind)
    (hshape : ∀ kind, Config.travelsAs d.kind = some kind → d.shape = e.shape) :
    d.elementBits = e.elementBits := by
  -- The values on the wire have smaller numbers.
  induction hn : d.number using Nat.strongRecOn generalizing d e with
  | ind n ih =>
  obtain ⟨hdsound, hdfaithful⟩ := hd.self
  obtain ⟨hesound, hefaithful⟩ := he.self
  cases hk : d.kind with
  | struct =>
    obtain ⟨record, hdshape, hdlookup⟩ := (hdsound.struct hk).shape
    obtain ⟨record', heshape, helookup⟩ := (hesound.struct (hkind ▸ hk)).shape
    rw [hshape .struct (by rw [hk]; rfl), heshape, Option.some.injEq,
      ElementShape.record.injEq] at hdshape
    rw [← hdshape.1, helookup, Option.some.injEq] at hdlookup
    rw [elementBits_of_struct hk, elementBits_of_struct (hkind ▸ hk), hdlookup]
  | union tag internal =>
    obtain ⟨record, hdshape, hdlookup, -⟩ := (hdsound.union tag internal hk).checked
    obtain ⟨record', heshape, helookup, -⟩ := (hesound.union tag internal (hkind ▸ hk)).checked
    rw [hshape .union (by rw [hk]; rfl), heshape, Option.some.injEq,
      ElementShape.record.injEq] at hdshape
    rw [← hdshape.1, helookup, Option.some.injEq] at hdlookup
    rw [elementBits_of_union hk, elementBits_of_union (hkind ▸ hk), hdlookup]
  | transformed t =>
    have hek : e.kind = .transformed t := hkind ▸ hk
    obtain ⟨w, hw, -⟩ := hdsound.wired t hk
    obtain ⟨w', hw', -⟩ := hesound.wired t hek
    obtain ⟨r, hr, hsettled⟩ := hdfaithful.wire t w hk hw
    obtain ⟨r', hr', hsettled'⟩ := hefaithful.wire t w' hek hw'
    rw [hr, Except.ok.injEq] at hr'
    subst hr'
    have hencoding : w.encoding = w'.encoding := hsettled.encoding.trans hsettled'.encoding.symm
    have hwires : w.elementBits = w'.elementBits :=
      ih w.number (hn ▸ hdsound.wire_lt w hw) (hd.wire hw) (he.wire hw')
        (congrArg Encoding.kind hencoding)
        (fun _ _ => hsettled.shape.trans hsettled'.shape.symm) rfl
    have hextents : w.extents = w'.extents := hsettled.extents.trans hsettled'.extents.symm
    rw [elementBits_of_transformed hk hw, elementBits_of_transformed hek hw', bits, bits, hwires,
      hextents]
  | _ =>
    exact elementBits_of_leaf hkind (by rw [hk]; rfl) (by simp [hk])

/-- **Sizes of fields**: fields that look the same take the same bits. -/
theorem bits_eq_of_agrees (hd : d.Honest c g records) (he : e.Honest c g records)
    (h : d.agrees e = true) : d.bits = e.bits := by
  simp only [agrees, Bool.and_eq_true, decide_eq_true_eq] at h
  obtain ⟨⟨⟨-, htokens⟩, hextents⟩, hencoding⟩ := h
  have hkind : d.kind = e.kind := congrArg Encoding.kind hencoding
  obtain ⟨type, own, -, hdanswers⟩ := hd.self.2.asked
  obtain ⟨type', own', -, heanswers⟩ := he.self.2.asked
  have helement := elementBits_eq hd he hkind fun kind htravels =>
    shape_eq_of_tokens hdanswers heanswers htokens hkind htravels
  rw [bits, bits, helement, hextents]

/-! ## shared tags -/

/-- Two fields that are the same in memory and on the wire, and as large. -/
structure SameField (d e : Decl) : Prop where
  name : d.name = e.name
  type : d.type.tokens = e.type.tokens
  extents : d.extents = e.extents
  encoding : d.encoding = e.encoding
  bits : d.bits = e.bits

/-- A union whose variants agree through the tag. -/
structure TagShared (tag : String) (u : Decl) : Prop where
  /-- The tag itself is shared. -/
  pos : 1 ≤ u.sharedFields
  moved : ∃ v ∈ u.members, v.isOmitted = false
  /-- Any two variants have the shared fields, which are the same in both. -/
  agree : ∀ v ∈ u.members, v.isOmitted = false → ∀ w ∈ u.members, w.isOmitted = false →
    ∀ k < u.sharedFields, ∃ a b, v.members[k]? = some a ∧ w.members[k]? = some b ∧ a.SameField b
  /-- The last shared field of every variant is the tag. -/
  tag : ∀ v ∈ u.members, v.isOmitted = false → ∃ selector,
    v.members[u.sharedFields - 1]? = some selector ∧ selector.name = tag ∧
      (selector.kind = .boolean ∨ ∃ range, selector.kind = .integer range) ∧ selector.extents = []
  /-- Variants have different ids. -/
  ids : u.variantIds.Nodup
  /-- A variant has an id, unless it is left out. -/
  selected : ∀ v ∈ u.members, v.isOmitted = false → v.encoding.variantId.isSome = true

/-- A scalar is one integer or one truth value. -/
theorem scalar_cases (h : d.isScalar = true) :
    (d.kind = .boolean ∨ ∃ range, d.kind = .integer range) ∧ d.extents = [] := by
  obtain ⟨hkind, hextents⟩ := isScalar_iff.1 h
  refine ⟨?_, hextents⟩
  cases hk : d.kind with
  | boolean => exact .inl rfl
  | integer range => exact .inr ⟨range, rfl⟩
  | _ => simp [hk, Kind.isScalar] at hkind

theorem agrees_symm (h : d.agrees e = true) : e.agrees d = true := by
  simp only [agrees, Bool.and_eq_true, decide_eq_true_eq] at h ⊢
  grind

theorem agrees_trans {f : Decl} (h : d.agrees e = true) (h' : e.agrees f = true) :
    d.agrees f = true := by
  simp only [agrees, Bool.and_eq_true, decide_eq_true_eq] at h h' ⊢
  grind

/-- The last shared field of the variant that a union is moved through has the name of the tag. -/
theorem UnionSound.tag_name (h : d.UnionSound g records tag true) {lead : Decl}
    (hlead : d.leadVariant? = some lead) : ∃ selector,
      lead.members[d.sharedFields - 1]? = some selector ∧ selector.name = tag ∧
        selector.isScalar = true := by
  obtain ⟨union, -, -, hok⟩ := h.checked
  obtain ⟨lead', others, hfilter, -, htag⟩ := checkVariants_internal hok
  have hsame : lead' = lead := by
    rw [leadVariant?, ← List.head?_filter, hfilter] at hlead
    exact Option.some.inj hlead
  subst hsame
  exact (internalTag_spec htag).2.1

/-- The variants of a union with an internal tag agree through it. -/
theorem tagShared (hd : d.Honest c g records) (hk : d.kind = .union tag true) :
    d.TagShared tag := by
  have hunion := hd.self.1.union tag true hk
  obtain ⟨lead, hshared⟩ := hunion.shared_of_internal
  have hfield : ∀ v ∈ d.members, ∀ (a : Decl) (k : Nat), v.members[k]? = some a →
      a.Honest c g records :=
    fun v hv a k ha => (hd.member hv).member (List.mem_of_getElem? ha)
  have hagree : ∀ v ∈ d.members, v.isOmitted = false → ∀ w ∈ d.members, w.isOmitted = false →
      ∀ k < d.sharedFields, ∃ a b, v.members[k]? = some a ∧ w.members[k]? = some b ∧
        a.agrees b = true := by
    intro v hv homit w hw homit' k hlt
    obtain ⟨l, a, hl, ha, hla⟩ := hshared.agrees v hv homit k hlt
    obtain ⟨l', b, hl', hb, hlb⟩ := hshared.agrees w hw homit' k hlt
    rw [hl, Option.some.injEq] at hl'
    subst hl'
    exact ⟨a, b, ha, hb, agrees_trans (agrees_symm hla) hlb⟩
  refine ⟨hshared.pos, ⟨lead, hshared.lead_mem, hshared.lead_kept⟩, ?_, ?_,
    hunion.variantIds_nodup, fun v hv homit => hunion.variantId_isSome hv homit⟩
  · intro v hv homit w hw homit' k hlt
    obtain ⟨a, b, ha, hb, hab⟩ := hagree v hv homit w hw homit' k hlt
    have hbits := bits_eq_of_agrees (hfield v hv a k ha) (hfield w hw b k hb) hab
    simp only [agrees, Bool.and_eq_true, decide_eq_true_eq] at hab
    obtain ⟨⟨⟨hname, htokens⟩, hextents⟩, hencoding⟩ := hab
    exact ⟨a, b, ha, hb, hname, htokens, hextents, hencoding, hbits⟩
  · intro v hv homit
    obtain ⟨selector, hsel, hname, hscalar⟩ := hunion.tag_name hshared.found
    obtain ⟨l, a, hl, ha, hla⟩ := hshared.agrees v hv homit _ (Nat.sub_lt hshared.pos Nat.one_pos)
    rw [hsel, Option.some.injEq] at hl
    subst hl
    obtain ⟨hkind, hextents⟩ := scalar_cases (isScalar_of_agrees hla ▸ hscalar)
    simp only [agrees, Bool.and_eq_true, decide_eq_true_eq] at hla
    exact ⟨a, ha, hla.1.1.1 ▸ hname, hkind, hextents⟩

end Decl

/-- All declarations of a model without errors are sound and asked for. -/
theorem Model.Declares.honest {c : Config} {g : Registry} {m : Model}
    (h : Model.build c g = some m) (he : m.errors = []) {d : Decl} (hd : m.Declares d) :
    d.Honest c g m.records :=
  fun e hbelow => ⟨hd.sound h he e hbelow, (hd.below hbelow).faithful h he⟩

/-- **Agreement of internal tags**: in a model without errors, every union with an internal tag has a
variant that is not left out, its variants agree in everything through the tag, and their ids are
different, whether the union was checked for this declaration or for another one. -/
theorem tagShared_of_build {c : Config} {g : Registry} {m : Model} (h : Model.build c g = some m)
    (he : m.errors = []) {u : Decl} (hu : m.Declares u) {tag : String}
    (hk : u.kind = .union tag true) : u.TagShared tag :=
  Decl.tagShared (hu.honest h he) hk

namespace Sample

/-- A union with an internal tag behind a struct that its variants share. -/
def messages : Registry where
  records := [
    ⟨"Message", .union, [⟨"short", .name "Short", { Request.empty with variantId := some 0 }⟩,
      ⟨"long", .name "Long", { Request.empty with variantId := some 1 }⟩],
      { Request.empty with form := some (.tagged "kind" true) }, true⟩,
    ⟨"Short", .struct, [⟨"head", .name "Head", Request.empty⟩, ⟨"kind", .name "u8", bits 1⟩],
      Request.empty, true⟩,
    ⟨"Long", .struct, [⟨"head", .name "Head", Request.empty⟩, ⟨"kind", .name "u8", bits 1⟩,
      ⟨"data", .name "u16", Request.empty⟩], Request.empty, true⟩,
    ⟨"Head", .struct, [⟨"version", .name "u8", bits 3⟩, ⟨"length", .name "u8", Request.empty⟩],
      Request.empty, true⟩]
  aliases := []

/-- Two data objects that are messages. -/
def twoMessages : Config :=
  { config with groups := [[⟨"first", .name "Message"⟩, ⟨"second", .name "Message"⟩]] }

theorem messages_built : (Model.build twoMessages messages).map (fun m => (m.errors,
      m.roots.map fun d => (d.name, d.kind, d.sharedFields))) =
    some ([], [("first", .union "kind" true, 2), ("second", .union "kind" true, 2)]) := by
  decide +kernel

/-- The second message is a union that has been checked for the first one. -/
theorem second_message_shared : ∃ m u, Model.build twoMessages messages = some m ∧ m.errors = [] ∧
    m.Declares u ∧ u.name = "second" ∧ u.kind = .union "kind" true ∧ u.sharedFields = 2 ∧
    u.TagShared "kind" := by
  obtain ⟨m, hm, hbuilt⟩ := Option.map_eq_some_iff.1 messages_built
  obtain ⟨herrors, hroots⟩ := Prod.mk.inj hbuilt
  have hmem : ("second", Kind.union "kind" true, 2) ∈
      m.roots.map fun d => (d.name, d.kind, d.sharedFields) := by
    rw [hroots]
    decide
  obtain ⟨u, hu, heq⟩ := List.mem_map.1 hmem
  simp only [Prod.mk.injEq] at heq
  obtain ⟨hname, hkind, hshared⟩ := heq
  have hdeclares : m.Declares u := .inl ⟨u, hu, .refl u⟩
  exact ⟨m, u, hm, herrors, hdeclares, hname, hkind, hshared,
    tagShared_of_build hm herrors hdeclares hkind⟩

end Sample

end BitLayout
