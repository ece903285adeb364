import BitLayout.Proofs.Decl.Omission
import BitLayout.Proofs.Encoding.Elements
import BitLayout.Proofs.Encoding.Precedence

/-!
# BitLayout.Proofs.Encoding.Shortcuts

Two declarations are settled by a shortcut, without all that is asked about them: one that its own
request leaves out, and one of an unknown type that its own request transforms.

```
own request              type       settled with
leaves it out            any        the own request alone
transforms it            unknown    the own request alone
anything else            known      preset < record < aliases < own request
```

A shortcut does not look at the preset, nor at any other layer. So it comes to the same as the long
way exactly if these have nothing to add.

* `Request.included`: a request apart from whether it leaves something out. What a declaration that
  is left out comes to depends on nothing more (`Config.leftOut_included`);
* `Config.resolve_of_leftOut`, `Config.resolve_of_ownOmission`: the long way, and the shortcut.

Main statements: `Config.omission_moves`, `Config.foreign_transforms`.
-/

namespace BitLayout

/-- How a declaration travels and which extents are to be walked, wherever the element comes
from. -/
def Resolution.outcome (r : Resolution) : Encoding × List Nat := (r.encoding, r.extents)

/-! ## apart from omission -/

/-- A request that leaves nothing out, and is the same otherwise. -/
def Request.included (r : Request) : Request := { r with omitted := false }

/-- A record whose request leaves nothing out. -/
def Record.included (r : Record) : Record := { r with request := r.request.included }

/-- An alias whose request leaves nothing out. -/
def TypeAlias.included (a : TypeAlias) : TypeAlias := { a with request := a.request.included }

/-- The declarations of a module, whose requests leave nothing out. -/
def Registry.included (g : Registry) : Registry :=
  ⟨g.records.map Record.included, g.aliases.map TypeAlias.included⟩

/-- Settings whose presets leave nothing out. -/
def Config.included (c : Config) : Config :=
  { c with presets := c.presets.map fun (name, preset) => (name, preset.included) }

/-- Two ways to ask about declarations, which differ at most in the requests that leave something
out. -/
structure SameButOmission (c c' : Config) (g g' : Registry) (own own' : Option Request) : Prop where
  presets : c.included = c'.included
  layers : g.included = g'.included
  own : own.map Request.included = own'.map Request.included

namespace Request

theorem included_overlay (lower upper : Request) :
    (lower.overlay upper).included = lower.included.overlay upper.included := rfl

theorem included_overlayAll (layers : List Request) :
    overlayAll (layers.map included) = (overlayAll layers).included := by
  induction layers using List.reverseRecOn with
  | nil => rfl
  | append_singleton layers r ih =>
    rw [List.map_append, List.map_singleton, overlayAll_append_singleton, ih,
      overlayAll_append_singleton, included_overlay]

end Request

namespace Registry

variable (g : Registry)

theorem record?_included (name : String) :
    g.included.record? name = (g.record? name).map Record.included :=
  List.find?_map ..

theorem alias?_included (name : String) :
    g.included.alias? name = (g.alias? name).map TypeAlias.included :=
  List.find?_map ..

/-- What a type stands for does not depend on requests. -/
theorem unfold_included (budget : Nat) (type : TypeExpr) :
    g.included.unfold budget type = g.unfold budget type := by
  induction budget generalizing type with
  | zero => rfl
  | succ budget ih =>
    rw [unfold, unfold]
    simp only [record?_included, alias?_included, ih]
    split
    · rfl
    · split
      · rfl
      · cases g.record? _ with
        | some record => rfl
        | none =>
          cases g.alias? _ with
          | some found => simp only [Option.map_none, Option.map_some, TypeAlias.included]
          | none => rfl
    · rfl

theorem resolveType_included (type : TypeExpr) :
    g.included.resolveType type = g.resolveType type := g.unfold_included _ type

theorem aliasLayers_included (aliases : List String) :
    g.included.aliasLayers aliases = (g.aliasLayers aliases).map Request.included := by
  have halias : g.included.alias? = fun name => (g.alias? name).map TypeAlias.included :=
    funext g.alias?_included
  rw [aliasLayers, aliasLayers, halias, ← List.map_filterMap, List.map_map, List.map_map]
  rfl

theorem layers_included (t : TypeRef) :
    g.included.layers t = (g.layers t).map Request.included := by
  rw [layers, layers, List.map_append, List.map_append, List.map_flatMap, aliasLayers_included]
  congr 1
  · congr 1
    cases t.elem.shape with
    | record name kind =>
      simp only [record?_included, Option.map_map]
      cases g.record? name <;> rfl
    | _ => rfl
  · simp only [aliasLayers_included]

theorem stated_included (own : Option Request) (t : TypeRef) :
    g.included.stated (own.map Request.included) t = (g.stated own t).map Request.included := by
  rw [stated, stated, layers_included, List.map_append]
  cases own <;> rfl

end Registry

namespace Config

variable {c c' : Config} {g g' : Registry} {own own' : Option Request} {type : TypeExpr}
  {t : TypeRef}

theorem preset?_included (name : String) :
    c.included.preset? name = (c.preset? name).map Request.included := by
  unfold preset? included
  induction c.presets with
  | nil => rfl
  | cons entry presets ih =>
    obtain ⟨key, preset⟩ := entry
    rw [List.map_cons, List.lookup_cons, List.lookup_cons, ih]
    split <;> rfl

theorem presetOf_included : c.included.presetOf g.included (own.map Request.included) t =
    (c.presetOf g own t).map Request.included := by
  rw [presetOf, presetOf, Registry.stated_included, Request.included_overlayAll,
    show c.included.preset? = fun name => (c.preset? name).map Request.included from
      funext preset?_included, Option.map_bind]
  rfl

theorem ranked_included : c.included.ranked g.included (own.map Request.included) t =
    (c.ranked g own t).map Request.included := by
  rw [ranked, ranked, presetOf_included, Registry.stated_included, List.map_append]
  cases c.presetOf g own t <;> rfl

/-! ## left out -/

/-- The preset that is named for a declaration, if there is none of that name. -/
def unknownPreset? (c : Config) (g : Registry) (own : Option Request) (t : TypeRef) :
    Option String :=
  (Request.overlayAll (g.stated own t)).preset.filter fun name => (c.preset? name).isNone

/-- What a declaration comes to that is left out, by all that is asked about it. -/
def leftOut (c : Config) (g : Registry) (own : Option Request) (t : TypeRef) :
    Except ResolveError Resolution :=
  match c.unknownPreset? g own t with
  | some name => .error (.unknownPreset name)
  | none => .ok ⟨⟨.omitted, (c.ranked g own t).reverse.findSome? Request.default,
      (c.ranked g own t).reverse.findSome? Request.variantId⟩, t.extents, some t.elem⟩

theorem unknownPreset?_included :
    c.included.unknownPreset? g.included (own.map Request.included) t =
      c.unknownPreset? g own t := by
  rw [unknownPreset?, unknownPreset?, Registry.stated_included, Request.included_overlayAll]
  simp only [preset?_included, Option.isNone_map]
  rfl

/-- What a declaration that is left out comes to does not depend on which request leaves it out. -/
theorem leftOut_included :
    c.included.leftOut g.included (own.map Request.included) t = c.leftOut g own t := by
  rw [leftOut, leftOut, unknownPreset?_included, ranked_included, ← List.map_reverse,
    List.findSome?_map, List.findSome?_map]
  rfl

theorem leftOut_of_same (h : SameButOmission c c' g g' own own') :
    c.leftOut g own t = c'.leftOut g' own' t := by
  rw [← leftOut_included, h.presets, h.layers, h.own, leftOut_included]

/-- A preset is unknown if it is named and there is none of that name. -/
theorem unknownPreset?_eq_some {name : String} : c.unknownPreset? g own t = some name ↔
    (Request.overlayAll (g.stated own t)).preset = some name ∧ c.preset? name = none := by
  rw [unknownPreset?, Option.filter_eq_some_iff, Option.isNone_iff_eq_none]

theorem effective_of_unknownPreset {name : String} (h : c.unknownPreset? g own t = some name) :
    c.effective g own t = .error (.unknownPreset name) := by
  obtain ⟨hname, hunknown⟩ := unknownPreset?_eq_some.1 h
  unfold effective overPreset
  rw [show g.layers t ++ own.toList = g.stated own t from rfl, hname]
  simp only [hunknown]

/-- Apart from its form, what is asked about a declaration follows the rank. -/
theorem exists_effective (h : c.unknownPreset? g own t = none) : ∃ request,
    c.effective g own t = .ok request ∧
      request.formless = (Request.overlayAll (c.ranked g own t)).formless := by
  refine ⟨_, effective_of_defined fun name hname => ?_, ?_⟩
  · rw [← Option.ne_none_iff_isSome]
    intro hunknown
    rw [unknownPreset?_eq_some.2 ⟨hname, hunknown⟩] at h
    cases h
  · rw [ranked]
    cases c.presetOf g own t with
    | none => rfl
    | some preset => exact (Request.formless_overlayAll preset _).symm

/-- The long way: a declaration that is left out, but not by its own request, comes to what is
asked about it. -/
theorem resolve_of_leftOut (ht : g.resolveType type = .ok t)
    (hkept : ∀ r, own = some r → r.omitted = false)
    (homits : ∃ r ∈ c.ranked g own t, r.omitted = true) :
    c.resolve g own type = c.leftOut g own t := by
  rw [resolve_of_kept ht hkept, leftOut]
  cases hunknown : c.unknownPreset? g own t with
  | some name =>
    rw [effective_of_unknownPreset hunknown]
    rfl
  | none =>
    obtain ⟨request, hrequest, hformless⟩ := exists_effective hunknown
    obtain ⟨homitted, hdefault, hid, -⟩ := Request.mk.inj hformless
    rw [Request.omitted_of_overlayAll.2 homits] at homitted
    rw [Request.stated_overlayAll Request.default (fun _ _ => rfl) rfl] at hdefault
    rw [Request.stated_overlayAll Request.variantId (fun _ _ => rfl) rfl] at hid
    rw [hrequest, ← hdefault, ← hid]
    simp only [bake, homitted, bind, Except.bind, pure, Except.pure, if_true]

/-- The shortcut: a declaration that its own request leaves out comes to what this states. -/
theorem resolve_of_ownOmission {r : Request} (ht : g.resolveType type = .ok t)
    (homitted : r.omitted = true) : c.resolve g (some r) type =
      .ok ⟨⟨.omitted, r.default, r.variantId⟩, t.extents, none⟩ := by
  have hown : (some r).filter Request.omitted = some r := Option.filter_some_pos homitted
  have hextents : g.extentsOf type = t.extents := by rw [Registry.extentsOf, ht]
  unfold resolve
  rw [hown, hextents]

/-- What is left of a declaration when its own request leaves it out is all there is: no unknown
preset is named, and nothing below its own request states a default or an id that this leaves
open. -/
structure SaysAll (c : Config) (g : Registry) (own : Option Request) (t : TypeRef) : Prop where
  preset : c.unknownPreset? g own t = none
  default : own.bind Request.default = none → ∀ r ∈ c.ranked g own t, r.default = none
  variantId : own.bind Request.variantId = none → ∀ r ∈ c.ranked g own t, r.variantId = none

/-- The own request has the highest rank, so it decides a key unless it leaves it open. -/
theorem ranked_eq_own_iff {α : Type} (key : Request → Option α) :
    (c.ranked g own t).reverse.findSome? key = own.bind key ↔
      (own.bind key = none → ∀ r ∈ c.ranked g own t, key r = none) := by
  have hnone (rs : List Request) : rs.reverse.findSome? key = none ↔ ∀ r ∈ rs, key r = none := by
    simp only [List.findSome?_eq_none_iff, List.mem_reverse]
  cases hkey : own.bind key with
  | none => simp [hnone]
  | some a =>
    obtain ⟨r, rfl, hr⟩ := Option.bind_eq_some_iff.1 hkey
    rw [ranked, Registry.stated, ← List.append_assoc, List.reverse_append, Option.toList_some,
      List.reverse_singleton, List.singleton_append, List.findSome?_cons, hr]
    simp

/-- The long way comes to what the shortcut does if and only if the own request says all. -/
theorem leftOut_eq_own_iff : (c.leftOut g own t).map Resolution.outcome =
      .ok (⟨.omitted, own.bind Request.default, own.bind Request.variantId⟩, t.extents) ↔
    c.SaysAll g own t := by
  have hall : c.SaysAll g own t ↔ c.unknownPreset? g own t = none ∧
      (c.ranked g own t).reverse.findSome? Request.default = own.bind Request.default ∧
      (c.ranked g own t).reverse.findSome? Request.variantId = own.bind Request.variantId := by
    rw [ranked_eq_own_iff, ranked_eq_own_iff]
    exact ⟨fun h => ⟨h.preset, h.default, h.variantId⟩, fun h => ⟨h.1, h.2.1, h.2.2⟩⟩
  rw [hall, leftOut]
  cases c.unknownPreset? g own t with
  | some name => simp [Except.map]
  | none => simp [Except.map, Resolution.outcome]

/-- What an own request states apart from omission stays the same. -/
theorem bind_of_same {α : Type} (key : Request → Option α) (hkey : ∀ r, key r.included = key r)
    (h : own.map Request.included = own'.map Request.included) : own.bind key = own'.bind key := by
  have hbind (own : Option Request) : own.bind key = (own.map Request.included).bind key := by
    cases own with
    | none => rfl
    | some r => exact (hkey r).symm
  rw [hbind, h, ← hbind]

/-- What both ways come to, apart from the element. -/
theorem outcome_of_omission (ht : g.resolveType type = .ok t)
    (homits : ∃ r ∈ c.ranked g own t, r.omitted = true) :
    (c.resolve g own type).map Resolution.outcome =
      if own.any Request.omitted then
        .ok (⟨.omitted, own.bind Request.default, own.bind Request.variantId⟩, t.extents)
      else (c.leftOut g own t).map Resolution.outcome := by
  cases own with
  | none =>
    rw [resolve_of_leftOut ht (by simp) homits]
    rfl
  | some r =>
    rw [Option.any_some]
    cases homitted : r.omitted with
    | true =>
      rw [resolve_of_ownOmission ht homitted]
      rfl
    | false =>
      rw [resolve_of_leftOut ht (fun _ hr => Option.some.inj hr ▸ homitted) homits]
      rfl

/-- **Where a declaration is left out** makes no difference among the layers below its own request:
it comes to the error for an unknown preset, or is omitted with the extents of its type and the
default and the id of the highest request that states one. If its own request leaves it out, all
other requests are passed over; this makes no difference if and only if that one says all. -/
theorem omission_moves (hsame : SameButOmission c c' g g' own own')
    (ht : g.resolveType type = .ok t) (homits : ∃ r ∈ c.ranked g own t, r.omitted = true)
    (homits' : ∃ r ∈ c'.ranked g' own' t, r.omitted = true) :
    (own.any Request.omitted = false → c.resolve g own type = c.leftOut g own t) ∧
      (∀ r, own = some r → r.omitted = true → c.resolve g own type =
        .ok ⟨⟨.omitted, r.default, r.variantId⟩, t.extents, none⟩) ∧
      c.leftOut g own t = c'.leftOut g' own' t ∧
      ((c.resolve g own type).map Resolution.outcome =
          (c'.resolve g' own' type).map Resolution.outcome ↔
        own.any Request.omitted = own'.any Request.omitted ∨ c.SaysAll g own t) := by
  have hleft := leftOut_of_same (t := t) hsame
  have hdefault := bind_of_same Request.default (fun _ => rfl) hsame.own
  have hid := bind_of_same Request.variantId (fun _ => rfl) hsame.own
  have ht' : g'.resolveType type = .ok t := by
    rw [← Registry.resolveType_included, ← hsame.layers, Registry.resolveType_included, ht]
  refine ⟨fun hkept => resolve_of_leftOut ht (fun r hr => ?_) homits,
    fun r hr homitted => hr ▸ resolve_of_ownOmission ht homitted, hleft, ?_⟩
  · rw [hr, Option.any_some] at hkept
    exact hkept
  · rw [outcome_of_omission ht homits, outcome_of_omission ht' homits', ← hleft, ← hdefault, ← hid,
      ← leftOut_eq_own_iff]
    -- The two ways are different only if one of the own requests leaves the declaration out.
    cases own.any Request.omitted <;> cases own'.any Request.omitted <;> simp [eq_comm]

/-! ## foreign types -/

/-- What a request for a transform comes to over its preset, for a declaration of one value. -/
def transformed (c : Config) (own : Request) (transform : Transform) :
    Except ResolveError (Encoding × List Nat) :=
  match own.preset with
  | none => .ok (⟨.transformed transform, own.default, own.variantId⟩, [])
  | some name =>
    match c.preset? name with
    | none => .error (.unknownPreset name)
    | some preset => .ok (⟨if preset.omitted then .omitted else .transformed transform,
        own.default.or preset.default, own.variantId.or preset.variantId⟩, [])

/-- A transform over a form of any kind discards it. -/
theorem form_of_transform {lower own : Request} {transform : Transform}
    (h : own.form = some (.transform transform)) :
    (lower.overlay own).form = some (.transform transform) := by
  rw [Request.form_overlay, h]
  cases lower.form with
  | none => rfl
  | some form => exact congrArg some (Form.overlay_discards (.inr rfl))

/-- The long way: a transform of a known type about which nothing else is asked comes to what it is
over its preset. -/
theorem resolve_of_transform {own : Request} {transform : Transform}
    (ht : g.resolveType type = .ok t)
    (hlayers : Request.overlayAll (g.layers t) = Request.empty) (hranks : t.ranks = [])
    (hkept : own.omitted = false) (hform : own.form = some (.transform transform)) :
    (c.resolve g (some own) type).map Resolution.outcome = c.transformed own transform := by
  have hasked : c.effective g (some own) t = c.overPreset own := by
    rw [effective, Option.toList_some, Request.overlayAll_append_singleton, hlayers,
      Request.empty_overlay]
  have hextents : t.extents = [] := by rw [TypeRef.extents, hranks, List.map_nil]
  have hbake {request : Request} (h : request.form = some (.transform transform)) :
      (c.bake t request).map Resolution.outcome =
        .ok (⟨if request.omitted then .omitted else .transformed transform, request.default,
          request.variantId⟩, []) := by
    rw [bake, h, hextents]
    cases request.omitted <;> rfl
  rw [resolve_of_kept ht fun _ hr => Option.some.inj hr ▸ hkept, hasked, overPreset, transformed]
  cases own.preset with
  | none =>
    refine (hbake hform).trans ?_
    rw [hkept]
    rfl
  | some name =>
    dsimp only
    cases c.preset? name with
    | none => rfl
    | some preset =>
      refine (hbake (form_of_transform hform)).trans ?_
      simp only [Request.overlay, hkept, Bool.or_false]

/-- The shortcut: a transform of an unknown type comes to what its own request states. -/
theorem resolve_of_foreign {own : Request} {transform : Transform} {e : TypeError}
    (ht : g.resolveType type = .error e) (hkept : own.omitted = false)
    (hform : own.form = some (.transform transform)) : c.resolve g (some own) type =
      .ok ⟨⟨.transformed transform, own.default, own.variantId⟩, [], none⟩ := by
  have hown : (some own).filter Request.omitted = none := Option.filter_some_neg (by simp [hkept])
  unfold resolve
  rw [hown, ht]
  simp only [hform]

end Config

/-- A name stands for nothing in a module, unless it is that of a primitive. -/
def Registry.Undeclared (g : Registry) (name : String) : Prop :=
  g.record? name = none ∧ g.alias? name = none

/-- A name is an alias of a primitive without options. -/
structure Registry.BareAlias (g : Registry) (name : String) : Prop where
  plain : g.plainShape? name = none
  found : ∃ found prim, g.alias? name = some found ∧ found.request = Request.empty ∧
    found.target = .name prim ∧ (ElementShape.primitive? prim).isSome = true

/-- A preset has nothing to add to a request for a transform: it leaves nothing out, and states no
default or id that the request leaves open. -/
structure Request.AddsNothing (preset own : Request) : Prop where
  kept : preset.omitted = false
  default : own.default = none → preset.default = none
  variantId : own.variantId = none → preset.variantId = none

namespace Registry

variable {g : Registry} {name : String}

theorem resolveType_of_primitive {shape : ElementShape}
    (h : ElementShape.primitive? name = some shape) :
    g.resolveType (.name name) = .ok ⟨[], .name name, [], shape⟩ :=
  unfold_plain rfl (by rw [plainShape?, h])

theorem resolveType_of_undeclared (h : g.Undeclared name)
    (hprim : ElementShape.primitive? name = none) :
    g.resolveType (.name name) = .error (.unknownName name) := by
  rw [resolveType, unfold]
  simp only [TypeExpr.unwrapped, hprim, h.1, h.2]

/-- Nothing is asked about a primitive. -/
theorem layers_of_primitive {type : TypeExpr} {aliases : List String} {shape : ElementShape}
    (h : ElementShape.primitive? name = some shape) :
    g.layers ⟨[], type, aliases, shape⟩ = g.aliasLayers aliases := by
  cases shape with
  | record record kind => exact absurd h ElementShape.primitive?_ne_record
  | _ => exact List.append_nil _

/-- Nor about an alias of it without options. -/
theorem BareAlias.resolveType (h : g.BareAlias name) : ∃ t, g.resolveType (.name name) = .ok t ∧
    t.ranks = [] ∧ Request.overlayAll (g.layers t) = Request.empty := by
  obtain ⟨found, prim, halias, hrequest, htarget, hprim⟩ := h.found
  obtain ⟨shape, hshape⟩ := Option.isSome_iff_exists.1 hprim
  have hunfold : g.unfold maxDepth found.target = .ok ⟨[], .name prim, [], shape⟩ := by
    rw [htarget]
    exact unfold_plain rfl (by rw [plainShape?, hshape])
  refine ⟨_, unfold_alias rfl h.plain halias hunfold, rfl, ?_⟩
  rw [TypeRef.throughAlias, layers_of_primitive hshape, aliasLayers, List.reverse_singleton,
    List.filterMap_cons, halias]
  simp only [List.filterMap_nil, List.map_cons, List.map_nil, hrequest]
  rfl

end Registry

/-- A transform comes to what its own request states if and only if its preset is known and has
nothing to add. -/
theorem Config.transformed_eq_own_iff {c : Config} {own : Request} {transform : Transform} :
    .ok (⟨.transformed transform, own.default, own.variantId⟩, []) = c.transformed own transform ↔
      ∀ name, own.preset = some name →
        ∃ preset, c.preset? name = some preset ∧ preset.AddsNothing own := by
  have hor {α : Type} (a b : Option α) : a = a.or b ↔ (a = none → b = none) := by
    cases a <;> simp [eq_comm]
  have hkind (omitted : Bool) : Kind.transformed transform =
      (if omitted then .omitted else .transformed transform) ↔ omitted = false := by
    cases omitted <;> simp
  have hadds (preset : Request) : preset.AddsNothing own ↔ preset.omitted = false ∧
      (own.default = none → preset.default = none) ∧
      (own.variantId = none → preset.variantId = none) :=
    ⟨fun h => ⟨h.kept, h.default, h.variantId⟩, fun h => ⟨h.1, h.2.1, h.2.2⟩⟩
  rw [transformed]
  cases own.preset with
  | none => simp
  | some name =>
    cases hpreset : c.preset? name with
    | none => simp [hpreset]
    | some preset =>
      simp only [Except.ok.injEq, Prod.mk.injEq, Encoding.mk.injEq, and_true, hkind, hor,
        Option.some.injEq, forall_eq', hpreset, exists_eq_left', hadds]

/-- **Transforms of foreign types**: a request for a transform comes to the same on a name that is
not declared as on an alias of a primitive without options, if and only if the name is a primitive
itself, or the preset of the request is known and has nothing to add. On the alias, the preset must
be known, and can leave the declaration out or add a default or an id; on a foreign type, it is
passed over. -/
theorem Config.foreign_transforms {c : Config} {g g' : Registry} {own : Request}
    {transform : Transform} {name plain : String} (hkept : own.omitted = false)
    (hform : own.form = some (.transform transform)) (hforeign : g.Undeclared name)
    (hplain : g'.BareAlias plain) :
    (c.resolve g' (some own) (.name plain)).map Resolution.outcome = c.transformed own transform ∧
      (ElementShape.primitive? name = none → c.resolve g (some own) (.name name) =
        .ok ⟨⟨.transformed transform, own.default, own.variantId⟩, [], none⟩) ∧
      ((c.resolve g (some own) (.name name)).map Resolution.outcome =
          (c.resolve g' (some own) (.name plain)).map Resolution.outcome ↔
        (ElementShape.primitive? name).isSome = true ∨ ∀ known, own.preset = some known →
          ∃ preset, c.preset? known = some preset ∧ preset.AddsNothing own) := by
  obtain ⟨t, ht, hranks, hlayers⟩ := hplain.resolveType
  have halias := resolve_of_transform (c := c) ht hlayers hranks hkept hform
  have hshortcut (hprim : ElementShape.primitive? name = none) :=
    resolve_of_foreign (c := c) (Registry.resolveType_of_undeclared hforeign hprim) hkept hform
  refine ⟨halias, hshortcut, ?_⟩
  rw [halias]
  cases hprim : ElementShape.primitive? name with
  | some shape =>
    have hlong := resolve_of_transform (c := c) (Registry.resolveType_of_primitive (g := g) hprim)
      (by rw [Registry.layers_of_primitive hprim]; rfl) rfl hkept hform
    simp [hlong]
  | none =>
    rw [hshortcut hprim, Option.isSome_none, ← @transformed_eq_own_iff c own transform]
    simp [Except.map, Resolution.outcome]

namespace Sample

/-- A request for nothing but a default, or also to leave something out. -/
def defaulting (value : String) (omitted : Bool) : Request :=
  { Request.empty with omitted := omitted, default := some (.ofTokens [.literal value]) }

/-- A byte by another name, with a default. -/
def lending (omitted : Bool) : Registry where
  records := []
  aliases := [⟨"A", .name "u8", defaulting "3" omitted⟩]

/-- The byte as it is reached by that name. -/
def lent : TypeRef := ⟨[], ⟨.name "A", ["A"], .int false 8⟩⟩

/-- A field with a default of its own may leave itself out, or its type may do so. -/
theorem default_stated : SameButOmission config config (lending false) (lending true)
      (some (defaulting "5" true)) (some (defaulting "5" false)) ∧
    (config.resolve (lending false) (some (defaulting "5" true)) (.name "A")).map
        Resolution.outcome =
      (config.resolve (lending true) (some (defaulting "5" false)) (.name "A")).map
        Resolution.outcome := by
  have hsame : SameButOmission config config (lending false) (lending true)
      (some (defaulting "5" true)) (some (defaulting "5" false)) := ⟨rfl, rfl, rfl⟩
  have hlent : (lending false).resolveType (.name "A") = .ok lent := rfl
  have hall : config.SaysAll (lending false) (some (defaulting "5" true)) lent :=
    ⟨rfl, fun h => (nomatch h), fun _ => by decide⟩
  obtain ⟨-, -, -, hiff⟩ := Config.omission_moves hsame hlent
    ⟨defaulting "5" true, by decide, rfl⟩ ⟨defaulting "3" true, by decide, rfl⟩
  exact ⟨hsame, hiff.2 (.inr hall)⟩

/-- A field without one loses the default of its type when it leaves itself out, and keeps it when
its type does so. -/
theorem default_lost : SameButOmission config config (lending false) (lending true)
      (some { Request.empty with omitted := true }) (some Request.empty) ∧
    (lending false).resolveType (.name "A") = .ok lent ∧
    defaulting "3" true ∈ config.ranked (lending true) (some Request.empty) lent ∧
    (config.resolve (lending false) (some { Request.empty with omitted := true })
        (.name "A")).map Resolution.outcome = .ok (⟨.omitted, none, none⟩, []) ∧
    (config.resolve (lending true) (some Request.empty) (.name "A")).map Resolution.outcome =
      .ok (⟨.omitted, some (.ofTokens [.literal "3"]), none⟩, []) :=
  ⟨⟨rfl, rfl, rfl⟩, rfl, by decide, rfl, rfl⟩

/-- A transform to a byte, over a preset. -/
def converting (preset : String) : Request :=
  { Request.empty with
    preset := some preset
    form := some (.transform ⟨.name "u8", .ofWord "f", .ofWord "g"⟩) }

/-- Another name for a byte, without options. -/
def nickname : Registry := ⟨[], [⟨"A", .name "u8", Request.empty⟩]⟩

theorem nickname_bare : nickname.BareAlias "A" := ⟨rfl, _, "u8", rfl, rfl, rfl, rfl⟩

/-- A preset of some bits has nothing to add to a transform. -/
theorem bits_not_added : (inheriting.resolve nickname (some (converting "$p")) (.name "D")).map
      Resolution.outcome =
    (inheriting.resolve nickname (some (converting "$p")) (.name "A")).map Resolution.outcome := by
  have hkept : (converting "$p").omitted = false := rfl
  have hforeign : nickname.Undeclared "D" := ⟨rfl, rfl⟩
  obtain ⟨-, -, hiff⟩ :=
    Config.foreign_transforms (c := inheriting) hkept rfl hforeign nickname_bare
  refine hiff.2 (.inr fun known hknown => ?_)
  obtain rfl := Option.some.inj hknown
  exact ⟨bits 4, rfl, rfl, fun _ => rfl, fun _ => rfl⟩

/-- A preset that does not exist is an error on a known type, and no error on a foreign one. -/
theorem preset_passed_over : nickname.Undeclared "D" ∧ nickname.BareAlias "A" ∧
    (config.resolve nickname (some (converting "$p")) (.name "D")).map Resolution.outcome =
      .ok (⟨.transformed ⟨.name "u8", .ofWord "f", .ofWord "g"⟩, none, none⟩, []) ∧
    (config.resolve nickname (some (converting "$p")) (.name "A")).map Resolution.outcome =
      .error (.unknownPreset "$p") :=
  ⟨⟨rfl, rfl⟩, nickname_bare, rfl, rfl⟩

end Sample

end BitLayout
