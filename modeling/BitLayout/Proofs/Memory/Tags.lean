import BitLayout.Proofs.Decl.Agreement
import BitLayout.Proofs.Memory.Layout
import BitLayout.Proofs.Registry.Collected

/-!
# BitLayout.Proofs.Memory.Tags

Where the tag of an internally tagged union stands in memory. A variant is selected by its own copy
of the tag, while another variant may be the one through which the tag was read, so the copies must
be the same bytes. Building compares how the fields of the variants look, not where they stand:

* fields that look the same take the same in memory, although what is walked of them are elements,
  and an innermost rank may have become a text or a row of bytes;
* so the fields in front of the tag take the same in all variants that are moved, and the tag begins
  at the same offset, as long as the variants are packed alike.

How they are packed is not compared, so the tag of an accepted union can stand at two offsets.

Main statement: `Model.tag_offset_of_build`; `Sample.packed_choice_misplaced` is a union whose
variants are not packed alike.
-/

namespace BitLayout

open Decl

/-! ## values in a row -/

theorem Decl.elementCount_append (a b : List Nat) :
    elementCount (a ++ b) = elementCount a * elementCount b := by
  induction a with
  | nil => simp [elementCount]
  | cons n a ih => simp [elementCount, ih, Nat.mul_assoc]

theorem Decl.elementCount_dropLast {extents : List Nat} {n : Nat}
    (h : extents.getLast? = some n) : elementCount extents = elementCount extents.dropLast * n := by
  conv_lhs => rw [← List.dropLast_append_getLast? n h]
  rw [elementCount_append]
  simp [elementCount]

/-- How many elements in a row a value of a kind is made of. -/
def Kind.rowLength : Kind → Nat
  | text length _ => length
  | buffer bytes true => bytes
  | _ => 1

theorem Config.rowLength_of_defaultKind {c : Config} {elem : Element} {kind : Kind}
    (h : c.defaultKind elem = .ok kind) : kind.rowLength = 1 := by
  unfold defaultKind at h
  split at h
  · cases h
    rfl
  · split at h <;> cases h <;> rfl
  · cases h
    rfl
  · cases h
    rfl
  · cases h

/-- Settling a kind loses no elements: those that are not walked are in the row. -/
theorem Config.elementCount_of_settle {c : Config} {form : Option Form} {elem : Element}
    {extents left : List Nat} {kind : Kind} (h : c.settle form elem extents = .ok (kind, left)) :
    elementCount extents = elementCount left * kind.rowLength := by
  unfold settle at h
  split at h
  · cases hkind : c.defaultKind elem with
    | error e => simp [hkind, Except.map] at h
    | ok found =>
      rw [hkind] at h
      cases h
      rw [rowLength_of_defaultKind hkind, Nat.mul_one]
  · split at h
    · split at h <;> cases h
      exact (Nat.mul_one _).symm
    · cases h
  · split at h
    · next hlast =>
      split at h
      · cases h
      · cases h
        exact elementCount_dropLast hlast
    · cases h
  · split at h
    · next hlast =>
      cases h
      exact elementCount_dropLast hlast
    · cases h
      exact (Nat.mul_one _).symm
    · cases h
      exact (Nat.mul_one _).symm
    · cases h
  · cases h
    exact (Nat.mul_one _).symm
  · split at h <;> cases h
    exact (Nat.mul_one _).symm

/-! ## fields that look the same -/

namespace Registry

variable {g : Registry} {budget : Nat} {type type' : TypeExpr} {t : TypeRef}

/-- A type that is written like an element states no extents. -/
theorem extentsOf_of_elem (h : g.unfold budget type' = .ok t)
    (htokens : type.tokens = t.elem.type.tokens) : g.extentsOf type = [] := by
  obtain ⟨name, left, hname, hunfold⟩ := unfold_elem h
  rw [hname] at htokens
  induction type with
  | name other =>
    obtain rfl : other = name := by
      simpa [TypeExpr.tokens, TypeExpr.fragment, Fragment.ofWord, Fragment.ofTokens] using htokens
    unfold extentsOf
    cases hresolve : g.resolveType (.name other) with
    | error e => rfl
    | ok u =>
      have hleft := unfold_mono hunfold (Nat.le_max_left left (maxDepth + 1))
      have hright := unfold_mono hresolve (Nat.le_max_right left (maxDepth + 1))
      rw [hleft, Except.ok.injEq] at hright
      exact hright ▸ rfl
  | paren inner =>
    simp [TypeExpr.tokens, TypeExpr.fragment, Fragment.ofWord, Fragment.ofTokens,
      Fragment.enclosed, Tokens.enclosed] at htokens
  | group inner ih =>
    have hinner : g.extentsOf inner = [] := ih htokens
    have hresolve : g.resolveType (.group inner) = g.resolveType inner := rfl
    unfold extentsOf at hinner ⊢
    rw [hresolve]
    cases hcase : g.resolveType inner with
    | error e => rfl
    | ok u =>
      rw [hcase] at hinner
      exact hinner
  | array elem length =>
    simp [TypeExpr.tokens, TypeExpr.fragment, Fragment.ofWord, Fragment.ofTokens,
      Fragment.enclosed, Tokens.enclosed] at htokens
  | other fragment => rfl

end Registry

namespace Decl

variable {c : Config} {g : Registry} {memory : Tokens → Footprint} {d e : Decl} {f f' : Field}

/-- A field keeps its written type, or it is known by its elements. -/
theorem AnswersField.type_cases (h : d.AnswersField c g f) :
    (d.type = f.type ∧ (d.extents = g.extentsOf f.type ∨ d.extents = []) ∧
        d.kind.rowLength = 1) ∨
      ∃ t, g.resolveType f.type = .ok t ∧ d.type = t.elem.type ∧
        elementCount t.extents = elementCount d.extents * d.kind.rowLength := by
  obtain ⟨r, hr, hsettled⟩ := h
  have hkind : d.kind = r.encoding.kind := congrArg Encoding.kind hsettled.encoding
  rw [hkind, hsettled.extents, hsettled.type]
  rcases Config.resolve_cases hr with ⟨request, -, rfl⟩ | ⟨t, ht, hknown⟩ | ⟨request, tr, -, rfl⟩
  · exact .inl ⟨rfl, .inl rfl, rfl⟩
  · refine .inr ⟨t, ht, ?_⟩
    obtain ⟨request, -, ⟨-, rfl⟩ | ⟨kind, left, hsettle, rfl⟩⟩ := Config.resolveKnown_cases hknown
    · exact ⟨rfl, (Nat.mul_one _).symm⟩
    · exact ⟨rfl, Config.elementCount_of_settle hsettle⟩
  · exact .inl ⟨rfl, .inr rfl, rfl⟩

/-- A field takes what its elements take, once for each. -/
theorem footprint_of_elem (hlawful : Memory.Lawful g memory) (hwritten : g.Writes f.type)
    {t : TypeRef} (ht : g.resolveType f.type = .ok t) (htype : d.type = t.elem.type)
    (hcount : elementCount t.extents = elementCount d.extents * d.kind.rowLength) :
    memory f.type.tokens =
      (memory d.type.tokens).row (elementCount d.extents * d.kind.rowLength) := by
  rw [htype, ← hcount]
  exact hlawful.of_unfold ht hwritten

/-- A field with its written type looks like an element only if it is one. -/
theorem elementCount_of_written {t : TypeRef} {type : TypeExpr}
    (ht : g.resolveType type = .ok t) (htokens : f.type.tokens = t.elem.type.tokens)
    (hextents : d.extents = g.extentsOf f.type ∨ d.extents = []) : elementCount d.extents = 1 := by
  have hnil : d.extents = [] := hextents.elim (·.trans (Registry.extentsOf_of_elem ht htokens)) id
  rw [hnil, elementCount]

/-- **Fields in memory**: fields that look the same take the same. -/
theorem footprint_eq_of_agrees (hlawful : Memory.Lawful g memory) (hd : d.AnswersField c g f)
    (he : e.AnswersField c g f') (hwritten : g.Writes f.type) (hwritten' : g.Writes f'.type)
    (hsame : d.SameField e) : memory f.type.tokens = memory f'.type.tokens := by
  have hkind : d.kind = e.kind := congrArg Encoding.kind hsame.encoding
  have htokens := hsame.type
  rcases hd.type_cases with ⟨htype, hextents, hrow⟩ | ⟨t, ht, htype, hcount⟩ <;>
    rcases he.type_cases with ⟨htype', hextents', hrow'⟩ | ⟨t', ht', htype', hcount'⟩
  · rw [← htype, ← htype', htokens]
  · have hwhole := elementCount_of_written ht' (htype ▸ htype' ▸ htokens) hextents
    rw [footprint_of_elem hlawful hwritten' ht' htype' hcount', ← hsame.extents, ← hkind, hwhole,
      hrow, Footprint.row_one, ← htype, htokens]
  · have hwhole := elementCount_of_written ht (htype ▸ htype' ▸ htokens.symm) hextents'
    rw [footprint_of_elem hlawful hwritten ht htype hcount, hsame.extents, hkind, hwhole, hrow',
      Footprint.row_one, ← htype', htokens]
  · rw [footprint_of_elem hlawful hwritten ht htype hcount,
      footprint_of_elem hlawful hwritten' ht' htype' hcount', htokens, hsame.extents, hkind]

end Decl

/-! ## definitions of variants -/

/-- What a record keeps of its definition. -/
theorem Record.of_definition {d : RecordDefinition} {r : Record}
    (h : (Record.ofDefinition d).1 = some r) : r.kind = d.kind ∧ r.reprC = hasReprC d.attrs ∧
      r.fields.map (fun f => (f.name, f.type)) =
        d.body.namedFields.map fun f => (f.name, f.type) := by
  unfold Record.ofDefinition at h
  split at h
  · cases h
  · cases hbody : d.body with
    | named fields comma =>
      simp only [hbody, Option.some.injEq] at h
      subst h
      simp [RecordBody.namedFields, Field.ofDefinition]
    | unit =>
      simp only [hbody, Option.some.injEq] at h
      subst h
      simp [RecordBody.namedFields]
    | positional fields comma => simp [hbody] at h

/-- The fields of a record, with what they take. -/
def Record.footprints (memory : Tokens → Footprint) (r : Record) : List (String × Footprint) :=
  r.fields.map fun f => (f.name, memory f.type.tokens)

theorem RecordDefinition.fields_eq_footprints {d : RecordDefinition} {r : Record}
    (h : (Record.ofDefinition d).1 = some r) (memory : Tokens → Footprint) :
    d.fields memory = r.footprints memory := by
  have hfields := congrArg (List.map fun p => (p.1, memory p.2.tokens)) (Record.of_definition h).2.2
  rw [List.map_map, List.map_map] at hfields
  exact hfields.symm

namespace Decl

variable {c : Config} {g : Registry} {items : List Definition} {memory : Tokens → Footprint}
  {records : List (String × List Decl)} {u v w : Decl} {tag : String}

/-- A declaration is of the record that an item defines. -/
def DefinedBy (g : Registry) (items : List Definition) (v : Decl) (d : RecordDefinition) : Prop :=
  .record d ∈ items ∧ ∃ r, v.record?.bind g.record? = some r ∧ (Record.ofDefinition d).1 = some r

/-- A variant that is moved is of a struct as in C, and has its fields. -/
structure VariantRecord (c : Config) (g : Registry) (v : Decl) (r : Record) : Prop where
  found : v.record?.bind g.record? = some r
  struct : r.kind = .struct
  inC : r.reprC = true
  fields : List.Forall₂ (AnswersField c g) r.fields v.members

theorem VariantRecord.mem_records {r : Record} (h : VariantRecord c g v r) : r ∈ g.records := by
  obtain ⟨name, -, hfind⟩ := Option.bind_eq_some_iff.1 h.found
  exact List.mem_of_find?_eq_some hfind

/-- Every variant with an internal tag that is moved is of such a struct. -/
theorem exists_variant (hu : u.Honest c g records) (hk : u.kind = .union tag true)
    (hv : v ∈ u.members) (homit : v.isOmitted = false) : ∃ r, VariantRecord c g v r := by
  obtain ⟨union, -, -, hok⟩ := (hu.self.1.union tag true hk).checked
  obtain ⟨lead, others, hfilter, hstructs, -⟩ := checkVariants_internal hok
  have hmem : v ∈ u.members.filter (!·.isOmitted) := List.mem_filter.2 ⟨hv, by rw [homit]; rfl⟩
  have hin := hstructs v (hfilter ▸ hmem)
  simp only [isStructInC, Bool.and_eq_true, decide_eq_true_eq] at hin
  obtain ⟨⟨hkind, -⟩, hreprC⟩ := hin
  have hfaithful := (hu.member hv).self.2
  have htravels : Config.travelsAs v.kind = some .struct := by rw [hkind]; rfl
  obtain ⟨record, r, hshape, hfound, hfields⟩ := hfaithful.members .struct htravels
  have hrecord : v.record?.bind g.record? = some r := by
    rw [Decl.record?, hshape]
    exact hfound
  refine ⟨r, hrecord, ?_, by simpa [hrecord] using hreprC, hfields⟩
  obtain ⟨type, own, -, resolution, hresolve, hsettled⟩ := hfaithful.asked
  rw [show v.kind = resolution.encoding.kind from congrArg Encoding.kind hsettled.encoding]
    at htravels
  obtain ⟨record', found, hshape', hfound', hstruct⟩ := Config.record_of_resolve hresolve htravels
  rw [← hsettled.shape, hshape, Option.some.injEq, ElementShape.record.injEq] at hshape'
  rw [← hshape'.1, hfound, Option.some.injEq] at hfound'
  exact hfound' ▸ hstruct

/-- What stands opposite to a member is a field that it answers. -/
theorem VariantRecord.field_of_member {r : Record} (h : VariantRecord c g v r) {k : Nat} {a : Decl}
    (ha : v.members[k]? = some a) :
    ∃ f ∈ r.fields, r.fields[k]? = some f ∧ a.AnswersField c g f := by
  obtain ⟨hlt, rfl⟩ := List.getElem?_eq_some_iff.1 ha
  have hlt' : k < r.fields.length := by rwa [h.fields.length_eq]
  exact ⟨_, List.getElem_mem hlt', List.getElem?_eq_getElem hlt',
    h.fields.get hlt' hlt⟩

/-- Variants that agree in their first fields take the same there. -/
theorem VariantRecord.footprints_take_eq {r r' : Record} (hlawful : Memory.Lawful g memory)
    (h : VariantRecord c g v r) (h' : VariantRecord c g w r') {n : Nat}
    (hagree : ∀ k < n, ∃ a b, v.members[k]? = some a ∧ w.members[k]? = some b ∧ a.SameField b) :
    (r.footprints memory).take n = (r'.footprints memory).take n := by
  refine List.ext_getElem? fun k => ?_
  rw [List.getElem?_take, List.getElem?_take]
  split
  · next hk =>
    obtain ⟨a, b, ha, hb, hsame⟩ := hagree k hk
    obtain ⟨f, hf, hfield, hanswers⟩ := h.field_of_member ha
    obtain ⟨f', hf', hfield', hanswers'⟩ := h'.field_of_member hb
    have hname : f.name = f'.name := by
      obtain ⟨_, -, hsettled⟩ := hanswers
      obtain ⟨_, -, hsettled'⟩ := hanswers'
      rw [← hsettled.name, ← hsettled'.name, hsame.name]
    have hmemory := footprint_eq_of_agrees hlawful hanswers hanswers' (.field h.mem_records hf)
      (.field h'.mem_records hf') hsame
    rw [Record.footprints, Record.footprints, List.getElem?_map, List.getElem?_map, hfield,
      hfield', Option.map_some, Option.map_some, hname, hmemory]
  · rfl

/-! ## tags in memory -/

/-- The tag of a union with an internal tag in memory: `shared` is what the first fields of all
variants that are moved take, through the tag. -/
structure TagInMemory (g : Registry) (items : List Definition) (memory : Tokens → Footprint)
    (tag : String) (shared : List (String × Footprint)) (u : Decl) : Prop where
  length : shared.length = u.sharedFields
  last : ∃ f, shared[shared.length - 1]? = some (tag, f)
  /-- Every variant that is moved is defined by an item. -/
  defined : ∀ v ∈ u.members, v.isOmitted = false → ∃ d, v.DefinedBy g items d
  /-- Such an item is a struct as in C that begins with the shared fields. -/
  begins : ∀ v ∈ u.members, v.isOmitted = false → ∀ d, v.DefinedBy g items d →
    d.kind = .struct ∧ hasReprC d.attrs = true ∧ (d.fields memory).take shared.length = shared
  /-- Where the tag begins depends on these fields and on how the struct is packed. -/
  offset : ∀ v ∈ u.members, v.isOmitted = false → ∀ d, v.DefinedBy g items d → ∃ offset,
    d.offset? memory tag = some offset ∧ Footprint.offsetFrom? d.cap tag 0 shared = some offset
  /-- So it begins at the same offset in two variants, unless they pack these fields differently. -/
  same : ∀ v ∈ u.members, v.isOmitted = false → ∀ w ∈ u.members, w.isOmitted = false →
    ∀ d d', v.DefinedBy g items d → w.DefinedBy g items d' →
      (∀ f ∈ shared, f.2.alignIn d.cap = f.2.alignIn d'.cap) →
      d.offset? memory tag = d'.offset? memory tag

/-- The first fields of a struct hold the tag, so it begins where they say. -/
theorem offset_of_begins {d : RecordDefinition} {shared : List (String × Footprint)}
    (hbegins : (d.fields memory).take shared.length = shared)
    (htag : tag ∈ shared.map Prod.fst) : ∃ offset, d.offset? memory tag = some offset ∧
      Footprint.offsetFrom? d.cap tag 0 shared = some offset := by
  have hsame : d.offset? memory tag = Footprint.offsetFrom? d.cap tag 0 shared := by
    rw [RecordDefinition.offset?, Footprint.offsetFrom?_take (n := shared.length)
      (hbegins.symm ▸ htag), hbegins]
  obtain ⟨offset, hoffset⟩ := Option.isSome_iff_exists.1
    (@Footprint.isSome_offsetFrom? d.cap tag shared htag 0)
  exact ⟨offset, hsame.trans hoffset, hoffset⟩

/-- The definition of a variant is a struct as in C, with the fields of its record. -/
theorem VariantRecord.of_definedBy {r : Record} {d : RecordDefinition} (h : VariantRecord c g v r)
    (hd : v.DefinedBy g items d) (memory : Tokens → Footprint) : d.kind = .struct ∧
      hasReprC d.attrs = true ∧ d.fields memory = r.footprints memory := by
  obtain ⟨-, r', hfound, hof⟩ := hd
  rw [h.found, Option.some.injEq] at hfound
  subst hfound
  obtain ⟨hkind, hreprC, -⟩ := Record.of_definition hof
  exact ⟨hkind ▸ h.struct, hreprC ▸ h.inC, RecordDefinition.fields_eq_footprints hof memory⟩

/-- The records of all variants that are moved begin with the same fields, through the tag. -/
theorem exists_shared (hu : u.Honest c g records) (hk : u.kind = .union tag true)
    (hlawful : Memory.Lawful g memory) : ∃ shared : List (String × Footprint),
      shared.length = u.sharedFields ∧ (∃ f, shared[shared.length - 1]? = some (tag, f)) ∧
        ∀ v ∈ u.members, v.isOmitted = false → ∀ r, VariantRecord c g v r →
          (r.footprints memory).take shared.length = shared := by
  have hshared := tagShared hu hk
  obtain ⟨lead, hlead, hkept⟩ := hshared.moved
  obtain ⟨r, hr⟩ := exists_variant hu hk hlead hkept
  obtain ⟨selector, hselector, hname, -⟩ := hshared.tag lead hlead hkept
  obtain ⟨f, -, hfield, _, -, hsettled⟩ := hr.field_of_member hselector
  have hpos := hshared.pos
  have hlength : ((r.footprints memory).take u.sharedFields).length = u.sharedFields := by
    have hlt := (List.getElem?_eq_some_iff.1 hfield).1
    rw [List.length_take, Record.footprints, List.length_map]
    omega
  refine ⟨(r.footprints memory).take u.sharedFields, hlength, ?_, ?_⟩
  · rw [hlength, List.getElem?_take_of_lt (by omega), Record.footprints, List.getElem?_map, hfield,
      Option.map_some, ← hsettled.name, hname]
    exact ⟨_, rfl⟩
  · intro v hv homit r' hr'
    rw [hlength]
    exact hr'.footprints_take_eq hlawful hr (hshared.agree v hv homit lead hlead hkept)

end Decl

/-- **Tags in memory**: in a model without errors, the variants of a union with an internal tag
begin with the same fields in memory, through the tag. So the tag begins at the same offset in two
variants that are packed alike, whatever is asked of their alignment, and the bytes that are read
through one variant are those tested in another. -/
theorem Model.tag_offset_of_build {items : List Definition} {c : Config} {m : Model}
    {memory : Tokens → Footprint} (h : Model.build c (Registry.collect items).1 = some m)
    (he : m.errors = []) (hlawful : Memory.Lawful (Registry.collect items).1 memory) {u : Decl}
    (hu : m.Declares u) {tag : String} (hk : u.kind = .union tag true) :
    ∃ shared, u.TagInMemory (Registry.collect items).1 items memory tag shared := by
  have hhonest := hu.honest h he
  obtain ⟨shared, hlength, ⟨f, hlast⟩, htakes⟩ := Decl.exists_shared hhonest hk hlawful
  have htag : tag ∈ shared.map Prod.fst :=
    List.mem_map.2 ⟨(tag, f), List.mem_of_getElem? hlast, rfl⟩
  have hbegins : ∀ v ∈ u.members, v.isOmitted = false → ∀ d,
      v.DefinedBy (Registry.collect items).1 items d →
        d.kind = .struct ∧ hasReprC d.attrs = true ∧
          (d.fields memory).take shared.length = shared := by
    intro v hv homit d hd
    obtain ⟨r, hr⟩ := Decl.exists_variant hhonest hk hv homit
    obtain ⟨hstruct, hreprC, hfields⟩ := hr.of_definedBy hd memory
    exact ⟨hstruct, hreprC, hfields ▸ htakes v hv homit r hr⟩
  have hoffset : ∀ v ∈ u.members, v.isOmitted = false → ∀ d,
      v.DefinedBy (Registry.collect items).1 items d → ∃ offset,
        d.offset? memory tag = some offset ∧
          Footprint.offsetFrom? d.cap tag 0 shared = some offset :=
    fun v hv homit d hd => Decl.offset_of_begins (hbegins v hv homit d hd).2.2 htag
  refine ⟨shared, hlength, ⟨f, hlast⟩, fun v hv homit => ?_, hbegins, hoffset, ?_⟩
  · obtain ⟨r, hr⟩ := Decl.exists_variant hhonest hk hv homit
    obtain ⟨d, hd, hof⟩ := Registry.definition_of_collect hr.mem_records
    exact ⟨d, hd, r, hr.found, hof⟩
  · intro v hv homit w hw homit' d d' hd hd' hcaps
    obtain ⟨offset, hleft, hleft'⟩ := hoffset v hv homit d hd
    obtain ⟨offset', hright, hright'⟩ := hoffset w hw homit' d' hd'
    rw [hleft, hright, ← hleft', ← hright']
    exact Footprint.offsetFrom?_congr hcaps 0

namespace Sample

/-- An attribute of a word and what stands in its parentheses. -/
def hint (word : String) (tokens : Tokens) : Attribute :=
  ⟨false, .ofWord word, .group .paren tokens⟩

/-- A struct of a byte and a tag that is aligned to two. -/
def tagged (name : String) (hints : Tokens) : RecordDefinition :=
  ⟨[hint "derive" [.ident "Clone", .sign ',', .ident "Copy"],
    hint "repr" (.ident "C" :: hints)], ∅, .struct, name, ∅, ∅,
    .named [⟨[], ∅, "x", .name "u8"⟩, ⟨[], ∅, "kind", .name "u16"⟩] false⟩

/-- A variant with an id. -/
def variant (name type id : String) : FieldDefinition :=
  ⟨[hint "bitpack" [.ident "id", .sign '=', .literal id]], ∅, name, .name type⟩

/-- A union of two such structs, where more hints are given for the second one. -/
def choices (hints : Tokens) : List Definition :=
  [.record ⟨[hint "repr" [.ident "C"],
      hint "bitpack" [.ident "internal_tag", .sign '=', .ident "kind"]], ∅, .union, "U", ∅, ∅,
      .named [variant "a" "A" "0", variant "b" "B" "1"] false⟩,
    .record (tagged "A" []), .record (tagged "B" hints)]

/-- One data object, which is the union. -/
def choosing : Config := { config with groups := [[⟨"obj", .name "U"⟩]] }

/-- What the types of the union take, where the second struct depends on its hints. -/
def layout (second : Footprint) : Tokens → Footprint
  | [.ident "u16"] => ⟨2, 2⟩
  | [.ident "A"] => ⟨4, 2⟩
  | [.ident "B"] => second
  | _ => ⟨1, 1⟩

/-- Whether a declaration is the union, with both variants. -/
def isChoice (u : Decl) : Bool :=
  u.kind = .union "kind" true &&
    u.members.map (fun v => (v.isOmitted, v.record?)) = [(false, some "A"), (false, some "B")]

/-- Nothing is wrong with the union, nor with the data object that it is. -/
def accepted (hints : Tokens) : Bool :=
  (Registry.collect (choices hints)).2.isEmpty &&
    (Model.build choosing (Registry.collect (choices hints)).1).any fun m =>
      m.errors.isEmpty && m.roots.any isChoice

/-- A variant of the union is of the struct that is defined under its name. -/
theorem definedBy_of_record? {g : Registry} {items : List Definition} {v : Decl} {name : String}
    {d : RecordDefinition} (hv : v.record? = some name) (hd : .record d ∈ items)
    (hfound : g.record? name = (Record.ofDefinition d).1)
    (hsome : (Record.ofDefinition d).1.isSome = true) : v.DefinedBy g items d := by
  obtain ⟨r, hr⟩ := Option.isSome_iff_exists.1 hsome
  refine ⟨hd, r, ?_, hr⟩
  rw [hv, Option.bind_some, hfound, hr]

/-- The two variants of the union are the two structs. -/
theorem variants_of_accepted {hints : Tokens} (h : accepted hints = true)
    (hfirst : (Registry.collect (choices hints)).1.record? "A" =
      (Record.ofDefinition (tagged "A" [])).1)
    (hsecond : (Registry.collect (choices hints)).1.record? "B" =
      (Record.ofDefinition (tagged "B" hints)).1)
    (hsome : (Record.ofDefinition (tagged "B" hints)).1.isSome = true) :
    ∃ m u v w, Model.build choosing (Registry.collect (choices hints)).1 = some m ∧
      m.errors = [] ∧ m.Declares u ∧ u.kind = .union "kind" true ∧ u.members = [v, w] ∧
      v.isOmitted = false ∧ w.isOmitted = false ∧
      v.DefinedBy (Registry.collect (choices hints)).1 (choices hints) (tagged "A" []) ∧
      w.DefinedBy (Registry.collect (choices hints)).1 (choices hints) (tagged "B" hints) := by
  obtain ⟨-, hbuilt⟩ := Bool.and_eq_true_iff.1 h
  obtain ⟨m, hm, hmodel⟩ := (Option.any_eq_true _ _).1 hbuilt
  obtain ⟨herrors, hroots⟩ := Bool.and_eq_true_iff.1 hmodel
  obtain ⟨u, hu, hchoice⟩ := List.any_eq_true.1 hroots
  simp only [isChoice, Bool.and_eq_true, decide_eq_true_eq] at hchoice
  obtain ⟨hkind, hmembers⟩ := hchoice
  obtain ⟨v, rest, hv, hfront, hrest⟩ := List.map_eq_cons_iff.1 hmembers
  obtain ⟨w, rfl, hback⟩ := List.map_eq_singleton_iff.1 hrest
  obtain ⟨hkept, hrecord⟩ := Prod.mk.inj hfront
  obtain ⟨hkept', hrecord'⟩ := Prod.mk.inj hback
  exact ⟨m, u, v, w, hm, List.isEmpty_iff.1 herrors, .inl ⟨u, hu, .refl u⟩, hkind, hv, hkept,
    hkept', definedBy_of_record? hrecord (by simp [choices]) hfirst rfl,
    definedBy_of_record? hrecord' (by simp [choices]) hsecond hsome⟩

/-- All types of the union are names. -/
theorem lawful_of_collect {hints : Tokens}
    (haliases : (Registry.collect (choices hints)).1.aliases = [])
    (hfields : ∀ r ∈ (Registry.collect (choices hints)).1.records, ∀ f ∈ r.fields,
      f.type ∈ ["A", "B", "u8", "u16"].map TypeExpr.name) (second : Footprint) :
    Memory.Lawful (Registry.collect (choices hints)).1 (layout second) :=
  .of_names haliases (fun r hr f hf => (List.mem_map.1 (hfields r hr f hf)).imp fun _ h =>
    h.2.symm) (layout second)

/-- The hint `align(8)`. -/
def alignment : Tokens :=
  [.sign ',', .ident "align", .opening .paren, .literal "8", .closing .paren]

/-- The hint `packed`. -/
def packing : Tokens := [.sign ',', .ident "packed"]

/-- More alignment of the second variant leaves the tag where it is. -/
theorem aligned_choice_shared :
    Memory.Lawful (Registry.collect (choices alignment)).1 (layout ⟨8, 8⟩) ∧ ∃ m u shared,
      Model.build choosing (Registry.collect (choices alignment)).1 = some m ∧ m.errors = [] ∧
      m.Declares u ∧ u.kind = .union "kind" true ∧
      u.TagInMemory (Registry.collect (choices alignment)).1 (choices alignment) (layout ⟨8, 8⟩)
        "kind" shared ∧
      (tagged "A" []).offset? (layout ⟨8, 8⟩) "kind" =
        (tagged "B" alignment).offset? (layout ⟨8, 8⟩) "kind" := by
  obtain ⟨m, u, v, w, hm, herrors, hdeclares, hkind, hmembers, hkept, hkept', hv, hw⟩ :=
    @variants_of_accepted alignment (by decide +kernel) (by decide +kernel) (by decide +kernel)
      (by decide +kernel)
  have hlawful := @lawful_of_collect alignment (by decide +kernel) (by decide +kernel) ⟨8, 8⟩
  obtain ⟨shared, htag⟩ := Model.tag_offset_of_build hm herrors hlawful hdeclares hkind
  have hcap : (tagged "A" []).cap = (tagged "B" alignment).cap := by decide +kernel
  exact ⟨hlawful, m, u, shared, hm, herrors, hdeclares, hkind, htag,
    htag.same v (by simp [hmembers]) hkept w (by simp [hmembers]) hkept' _ _ hv hw
      fun f _ => by rw [hcap]⟩

/-- The tag of a packed variant begins right behind the byte in front of it, that of the other one a
byte later. -/
theorem packed_choice_misplaced : accepted packing = true ∧
    Memory.Lawful (Registry.collect (choices packing)).1 (layout ⟨3, 1⟩) ∧ ∃ m u v w,
      Model.build choosing (Registry.collect (choices packing)).1 = some m ∧ m.errors = [] ∧
      m.Declares u ∧ u.kind = .union "kind" true ∧ u.members = [v, w] ∧
      v.isOmitted = false ∧ w.isOmitted = false ∧
      v.DefinedBy (Registry.collect (choices packing)).1 (choices packing) (tagged "A" []) ∧
      w.DefinedBy (Registry.collect (choices packing)).1 (choices packing) (tagged "B" packing) ∧
      (tagged "A" []).offset? (layout ⟨3, 1⟩) "kind" = some 2 ∧
      (tagged "B" packing).offset? (layout ⟨3, 1⟩) "kind" = some 1 := by
  have haccepted : accepted packing = true := by decide +kernel
  obtain ⟨m, u, v, w, hm, herrors, hdeclares, hkind, hmembers, hkept, hkept', hv, hw⟩ :=
    variants_of_accepted haccepted (by decide +kernel) (by decide +kernel) (by decide +kernel)
  exact ⟨haccepted, lawful_of_collect (by decide +kernel) (by decide +kernel) _, m, u, v, w, hm,
    herrors, hdeclares, hkind, hmembers, hkept, hkept', hv, hw, by decide +kernel,
    by decide +kernel⟩

end Sample

end BitLayout
