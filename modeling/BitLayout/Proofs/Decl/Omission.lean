import BitLayout.Proofs.Decl.Origin
import BitLayout.Proofs.Request.Directives

/-!
# BitLayout.Proofs.Decl.Omission

Nothing is left out silently. While a module is read and its data objects are taken apart, whatever
is at fault is left out, and reported: attributes that cannot be read, types that cannot be settled,
values on the wire and tags that fail their checks, records inside themselves. So without errors,

* a declaration is left out only if its own attributes ask for it, or those of a record or an alias
  that its type passes through, or the preset that it builds on;
* structs and unions have a member for every field of the record, in the order of the fields;
* transformed declarations have a value on the wire, which is not left out.

Main statement: `accounted_of_build`, about the items of a module, the settings and the data
objects.
-/

namespace BitLayout

/-! ## settled encodings -/

theorem Request.omitted_of_overlay {lower upper : Request} :
    (lower.overlay upper).omitted = true ↔ lower.omitted = true ∨ upper.omitted = true := by
  simp [Request.overlay]

/-- Layers leave their declaration out if and only if one of them does. -/
theorem Request.omitted_of_overlayAll {layers : List Request} :
    (Request.overlayAll layers).omitted = true ↔ ∃ r ∈ layers, r.omitted = true := by
  suffices hfold : ∀ start : Request, (layers.foldl overlay start).omitted = true ↔
      start.omitted = true ∨ ∃ r ∈ layers, r.omitted = true by
    simpa [overlayAll, empty] using hfold empty
  induction layers with
  | nil => simp
  | cons r layers ih =>
    intro start
    rw [List.foldl_cons, ih, omitted_of_overlay, or_assoc]
    simp

namespace Config

variable {c : Config} {g : Registry} {own : Option Request} {type : TypeExpr} {r : Resolution}

/-- The requests that can leave a declaration out: its own, a layer of its type, and the preset
that all of them name. -/
inductive Omits (c : Config) (g : Registry) (own : Option Request) (type : TypeExpr) : Prop where
  | own {request : Request} (h : own = some request) (homit : request.omitted = true)
  | layer {t : TypeRef} {request : Request} (ht : g.resolveType type = .ok t)
    (h : request ∈ g.layers t) (homit : request.omitted = true)
  | preset {t : TypeRef} {name : String} {request : Request} (ht : g.resolveType type = .ok t)
    (hname : (Request.overlayAll (g.layers t ++ own.toList)).preset = some name)
    (h : c.preset? name = some request) (homit : request.omitted = true)

/-- What leaves a declaration out in the end is one of the requests. -/
theorem omits_of_effective {t : TypeRef} {request : Request} (ht : g.resolveType type = .ok t)
    (h : c.effective g own t = .ok request) (homit : request.omitted = true) :
    c.Omits g own type := by
  have hlayers (hall : (Request.overlayAll (g.layers t ++ own.toList)).omitted = true) :
      c.Omits g own type := by
    obtain ⟨layer, hlayer, homit⟩ := Request.omitted_of_overlayAll.1 hall
    rcases List.mem_append.1 hlayer with hlayer | hown
    · exact .layer ht hlayer homit
    · exact .own (Option.mem_toList.1 hown) homit
  unfold effective overPreset at h
  split at h
  · cases h
    exact hlayers homit
  · next name hname =>
    split at h
    · next preset hpreset =>
      cases h
      rcases Request.omitted_of_overlay.1 homit with homit | homit
      · exact .preset ht hname hpreset homit
      · exact hlayers homit
    · cases h

/-- A declaration that is settled to be left out is asked to be. -/
theorem omits_of_resolve (h : c.resolve g own type = .ok r) (hk : r.encoding.kind = .omitted) :
    c.Omits g own type := by
  unfold resolve at h
  split at h
  · next request hown =>
    obtain ⟨hown, homit⟩ := Option.filter_eq_some_iff.1 hown
    exact .own hown homit
  · split at h
    · next t ht _ =>
      obtain ⟨request, heffective, ⟨homit, -⟩ | ⟨kind, left, hsettle, rfl⟩⟩ := resolveKnown_cases h
      · exact omits_of_effective ht heffective homit
      · exact absurd hk (settle_ne_omitted hsettle)
    · cases h
    · split at h
      · cases h
        cases hk
      · cases h

end Config

/-! ## the items of a module -/

/-- The attributes of an item that can declare something. -/
def Definition.attrs : Definition → List Attribute
  | record d => d.attrs
  | typeAlias d => d.attrs
  | other _ => []

namespace Registry

variable {items : List Definition} {g : Registry}

/-- A layer of a type is the request of a record or an alias among the items. -/
theorem DeclaredBy.layer (h : g.DeclaredBy items) {t : TypeRef} {r : Request}
    (hr : r ∈ g.layers t) : ∃ item ∈ items, Request.ofAttributes item.attrs = (r, []) := by
  rcases mem_layers hr with hr | hr
  · obtain ⟨record, hrecord, rfl⟩ := List.mem_map.1 hr
    obtain ⟨d, hd, hdecl⟩ := h.records record hrecord
    exact ⟨.record d, hd, hdecl.request⟩
  · obtain ⟨a, ha, rfl⟩ := List.mem_map.1 hr
    obtain ⟨d, hd, hdecl⟩ := h.aliases a ha
    exact ⟨.typeAlias d, hd, hdecl.request⟩

/-- A record of a name is declared by an item of that name. -/
theorem DeclaredBy.record (h : g.DeclaredBy items) {name : String} {found : Record}
    (hfound : g.record? name = some found) :
    ∃ d, .record d ∈ items ∧ d.name = name ∧ found.DeclaredBy d := by
  obtain ⟨d, hd, hdecl⟩ := h.records found (List.mem_of_find?_eq_some hfound)
  have hname : found.name = name := by simpa using List.find?_some hfound
  exact ⟨d, hd, by rw [← hname, hdecl.name], hdecl⟩

end Registry

/-- What is asked for with a request of its own is a field of a record. -/
theorem Config.Asks.field_of_own {c : Config} {g : Registry} {name : String} {type : TypeExpr}
    {request : Request} (h : c.Asks g name (some request) type) :
    ∃ record found f, g.record? record = some found ∧ f ∈ found.fields ∧ f.name = name ∧
      f.type = type ∧ f.request = request := by
  cases h with
  | field _ hfound hf => exact ⟨_, _, _, hfound, hf, rfl, rfl, rfl⟩

/-- Why a declaration of a name and a type is left out. -/
inductive LeftOut (items : List Definition) (c : Config) (g : Registry) (name : String)
    (own : Option Request) (type : TypeExpr) : Prop where
  /-- It is a field whose own attributes ask for it. -/
  | own {d : RecordDefinition} {f : FieldDefinition} (hd : .record d ∈ items)
    (hf : f ∈ d.body.namedFields) (hname : f.name = name) (htype : f.type = type)
    (homit : AsksToOmit f.attrs)
  /-- The attributes of an item that makes a layer of its type ask for it. -/
  | layer {t : TypeRef} {r : Request} {item : Definition} (ht : g.resolveType type = .ok t)
    (hr : r ∈ g.layers t) (hitem : item ∈ items)
    (hrequest : Request.ofAttributes item.attrs = (r, [])) (homit : AsksToOmit item.attrs)
  /-- The preset that it builds on in the end asks for it. -/
  | preset {t : TypeRef} {preset : String} {r : Request} (ht : g.resolveType type = .ok t)
    (hname : (Request.overlayAll (g.layers t ++ own.toList)).preset = some preset)
    (hr : c.preset? preset = some r) (homit : r.omitted = true)

/-- A request that leaves out what is asked for comes from attributes, or is a preset. -/
theorem Config.Omits.leftOut {items : List Definition} {c : Config} {g : Registry} {name : String}
    {own : Option Request} {type : TypeExpr} (h : c.Omits g own type)
    (hitems : g.DeclaredBy items) (hasks : c.Asks g name own type) :
    LeftOut items c g name own type := by
  cases h with
  | own hown homit =>
    subst hown
    obtain ⟨record, found, f, hfound, hf, rfl, rfl, rfl⟩ := hasks.field_of_own
    obtain ⟨d, hd, -, hdecl⟩ := hitems.record hfound
    obtain ⟨fd, hfd, hfield⟩ := Building.exists_of_forall₂ hdecl.fields f hf
    exact .own hd hfd hfield.name.symm hfield.type.symm
      ((Request.asksToOmit_iff hfield.request).1 homit)
  | layer ht hr homit =>
    obtain ⟨item, hitem, hrequest⟩ := hitems.layer hr
    exact .layer ht hr hitem hrequest ((Request.asksToOmit_iff hrequest).1 homit)
  | preset ht hname hr homit => exact .preset ht hname hr homit

/-! ## declarations -/

namespace Decl

/-- A declaration is a member for a field of a record: it has the name of the field, and is settled
by its type and the request of its attributes. -/
def IsMemberFor (c : Config) (g : Registry) (f : FieldDefinition) (d : Decl) : Prop :=
  d.name = f.name ∧ ∃ request, Request.ofAttributes f.attrs = (request, []) ∧
    d.Answers c g f.name f.type (some request)

/-- Everything that is missing from a declaration is asked to be left out. -/
structure Accounted (items : List Definition) (c : Config) (g : Registry) (d : Decl) : Prop where
  omitted : d.isOmitted = true → ∃ own type, c.Asks g d.name own type ∧
    d.Answers c g d.name type own ∧ LeftOut items c g d.name own type
  members : ∀ kind, Config.travelsAs d.kind = some kind → ∃ record : RecordDefinition,
    .record record ∈ items ∧ record.kind = kind ∧ d.shape = some (.record record.name kind) ∧
      List.Forall₂ (IsMemberFor c g) record.body.namedFields d.members
  wire : ∀ t, d.kind = .transformed t → ∃ w, d.wire = some w ∧ w.isOmitted = false

variable {items : List Definition} {c : Config} {g : Registry}
  {records : List (String × List Decl)} {d : Decl}

/-- A declaration that answers a field is a member for its definition. -/
theorem AnswersField.isMemberFor {f : Field} {fd : FieldDefinition} (h : d.AnswersField c g f)
    (hf : f.DeclaredBy fd) : d.IsMemberFor c g fd := by
  obtain ⟨name, type, request⟩ := f
  obtain ⟨rfl, rfl, hrequest⟩ := hf
  have h : d.Answers c g fd.name fd.type (some request) := h
  obtain ⟨r, hr, hsettled⟩ := h
  exact ⟨hsettled.name, request, hrequest, r, hr, hsettled⟩

/-- The members of a struct or a union are those for the fields of its record, in their order. -/
theorem Faithful.memberFor (h : d.Faithful c g) (hitems : g.DeclaredBy items) {kind : RecordKind}
    (hk : Config.travelsAs d.kind = some kind) : ∃ record : RecordDefinition,
      .record record ∈ items ∧ record.kind = kind ∧ d.shape = some (.record record.name kind) ∧
        List.Forall₂ (IsMemberFor c g) record.body.namedFields d.members := by
  obtain ⟨type, own, -, r, hr, hsettled⟩ := h.asked
  obtain ⟨name, found, hshape, hfound, hmembers⟩ := h.members kind hk
  have hkind : Config.travelsAs r.encoding.kind = some kind := hsettled.encoding ▸ hk
  obtain ⟨name', found', hshape', hfound', hfk⟩ := Config.record_of_resolve hr hkind
  rw [← hsettled.shape, hshape, Option.some.injEq, ElementShape.record.injEq] at hshape'
  rw [← hshape'.1, hfound, Option.some.injEq] at hfound'
  subst hfound'
  obtain ⟨record, hmem, rfl, hdecl⟩ := hitems.record hfound
  refine ⟨record, hmem, hdecl.kind ▸ hfk, hshape, ?_⟩
  exact Building.forall₂_comp hdecl.fields hmembers fun _ _ _ hf ha => ha.isMemberFor hf

/-- What is sound and faithful is accounted for. -/
theorem accounted (hsound : d.Sound g records) (hfaithful : d.Faithful c g)
    (hitems : g.DeclaredBy items) : d.Accounted items c g where
  omitted homit := by
    obtain ⟨type, own, hasks, r, hr, hsettled⟩ := hfaithful.asked
    have hkind : r.encoding.kind = .omitted := hsettled.encoding ▸ isOmitted_iff.1 homit
    exact ⟨own, type, hasks, ⟨r, hr, hsettled⟩,
      (Config.omits_of_resolve hr hkind).leftOut hitems hasks⟩
  members kind hk := hfaithful.memberFor hitems hk
  wire t hk := by
    obtain ⟨w, hw, hfault⟩ := hsound.wired t hk
    refine ⟨w, hw, ?_⟩
    cases homit : w.isOmitted with
    | false => rfl
    | true =>
      rw [wireFault?, isOmitted_iff.1 homit] at hfault
      cases hfault

end Decl

/-- **Nothing is left out silently**: if there are no errors in the items of a module and in the
data objects, then every declaration is accounted for. -/
theorem accounted_of_build {items : List Definition} {c : Config} {g : Registry} {m : Model}
    (hitems : Registry.collect items = (g, [])) (h : Model.build c g = some m) (he : m.errors = [])
    {d : Decl} (hd : m.Declares d) : d.Accounted items c g :=
  Decl.accounted (hd.sound h he).self (hd.faithful h he)
    (Registry.declaredBy_of_collect hitems)

namespace Sample

/-- The attribute `#[bitpack(..)]` with some options. -/
def options (tokens : Tokens) : Attribute := ⟨false, .ofWord "bitpack", .group .paren tokens⟩

/-- A byte that is left out by its own options, one that is left out by an alias, one by a preset,
and one that stays. -/
def withOmissions : List Definition := [
  .typeAlias ⟨[options [.ident "omit"]], ∅, "Hidden", ∅, ∅, .name "u8"⟩,
  .record ⟨[], ∅, .struct, "S", ∅, ∅, .named [
    ⟨[options [.ident "omit"]], ∅, "a", .name "u8"⟩,
    ⟨[], ∅, "b", .name "Hidden"⟩,
    ⟨[options [.ident "inherit", .sign '=', .literal "\"none\""]], ∅, "c", .name "u8"⟩,
    ⟨[], ∅, "d", .name "u8"⟩] true⟩]

/-- A data object of that record, and a preset that leaves out. -/
def withPreset : Config :=
  { config with
    groups := [[⟨"obj", .name "S"⟩]], presets := [("none", { Request.empty with omitted := true })] }

theorem withOmissions_built :
    (Registry.collect withOmissions).2 = [] ∧
      (Model.build withPreset (Registry.collect withOmissions).1).map (fun m => (m.errors,
        m.roots.map fun d => d.members.map fun e => (e.name, e.isOmitted))) =
      some ([], [[("a", true), ("b", true), ("c", true), ("d", false)]]) := by
  decide +kernel

/-- The three bytes that are left out, and all that is declared with them, are accounted for. -/
theorem omissions_accounted : ∃ g m d, Registry.collect withOmissions = (g, []) ∧
    Model.build withPreset g = some m ∧ m.errors = [] ∧ m.Declares d ∧
    (d.members.map fun e => (e.name, e.isOmitted)) =
      [("a", true), ("b", true), ("c", true), ("d", false)] ∧
    ∀ e : Decl, e.Below d → e.Accounted withOmissions withPreset g := by
  obtain ⟨hcollect, hbuilt⟩ := withOmissions_built
  obtain ⟨m, hm, hbuilt⟩ := Option.map_eq_some_iff.1 hbuilt
  obtain ⟨herrors, hroots⟩ := Prod.mk.inj hbuilt
  obtain ⟨d, hd, hmembers⟩ := List.map_eq_singleton_iff.1 hroots
  have hdeclares : m.Declares d := .inl ⟨d, by simp [hd], .refl d⟩
  exact ⟨_, m, d, Prod.ext rfl hcollect, hm, herrors, hdeclares, hmembers, fun e he =>
    accounted_of_build (Prod.ext rfl hcollect) hm herrors (hdeclares.below he)⟩

end Sample

end BitLayout
