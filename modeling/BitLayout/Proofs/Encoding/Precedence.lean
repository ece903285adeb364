import BitLayout.Proofs.Decl.Building
import Mathlib.Data.List.Induction

/-!
# BitLayout.Proofs.Encoding.Precedence

Which of the requests about a declaration wins. They have a rank, from the lowest: the preset, then
what is stated above it,

```
preset < record < aliases of the element, nearest last < aliases of the ranks, outermost last < own
```

Laid over each other in this order, the highest one wins in every key, and a form of one kind
discards all forms of other kinds below it. But the preset is named by the others, so these are laid
over each other before it is known, and over the preset together. For all keys but those of an
integer this makes no difference. Between integers it does, if a form of another kind stands in
between:

```
preset: 4 bits     layer: buffer     own: range 0..3
ranked order:  (4 bits < buffer) < range 0..3   =  range 0..3
as it is done:  4 bits < (buffer < range 0..3)  =  range 0..3 in 4 bits
```

* `Request.stated_overlayAll`: the highest request that states a key wins;
* `Form.merge_assoc`, `Form.foldl_of_integers`, `Form.foldl_of_other`: when the order makes no
  difference.

Main statement: `Config.resolve_ranked`.
-/

namespace BitLayout

/-! ## forms -/

namespace Form

/-- The form whose keys merge one by one. -/
def isInteger : Form → Bool
  | integer _ _ => true
  | _ => false

/-- A form discards one of another kind, and replaces one of its own kind unless both are
integers. -/
theorem overlay_discards {lower upper : Form}
    (h : lower.isInteger = false ∨ upper.isInteger = false) :
    lower.overlay upper = upper := by
  unfold overlay
  split
  · rcases h with h | h <;> cases h
  · rfl

variable {a b c : Option Form} {forms : List (Option Form)}

/-- The order makes no difference around an integer, or around nothing. -/
theorem merge_assoc (a c : Option Form) (h : ∀ f, b = some f → f.isInteger = true) :
    Option.merge overlay (Option.merge overlay a b) c =
      Option.merge overlay a (Option.merge overlay b c) := by
  cases b with
  | none => cases a <;> cases c <;> rfl
  | some b =>
    cases b with
    | integer bits range =>
      cases a with
      | none => cases c <;> rfl
      | some a =>
        cases c with
        | none => rfl
        | some c => cases a <;> cases c <;> simp [Option.merge, overlay, Option.or_assoc]
    | _ => cases h _ rfl

/-- Integers may be laid over the lowest form together. -/
theorem foldl_of_integers (h : ∀ f, some f ∈ forms → f.isInteger = true) (lowest : Option Form) :
    forms.foldl (Option.merge overlay) lowest =
      Option.merge overlay lowest (forms.foldl (Option.merge overlay) none) := by
  induction forms generalizing lowest with
  | nil => cases lowest <;> rfl
  | cons form forms ih =>
    have hrest : ∀ f, some f ∈ forms → f.isInteger = true :=
      fun f hf => h f (List.mem_cons_of_mem _ hf)
    have hform : ∀ f, form = some f → f.isInteger = true :=
      fun f hf => h f (hf ▸ List.mem_cons_self)
    have hnone : Option.merge overlay none form = form := by cases form <;> rfl
    rw [List.foldl_cons, List.foldl_cons, ih hrest (Option.merge overlay lowest form), hnone,
      ih hrest form, merge_assoc _ _ hform]

/-- Above a form of another kind, the lowest form makes no difference. -/
theorem foldl_of_other {f : Form} (hf : some f ∈ forms) (hother : f.isInteger = false)
    (lowest lowest' : Option Form) :
    forms.foldl (Option.merge overlay) lowest = forms.foldl (Option.merge overlay) lowest' := by
  induction forms generalizing lowest lowest' with
  | nil => cases hf
  | cons form forms ih =>
    rw [List.foldl_cons, List.foldl_cons]
    rcases List.mem_cons.1 hf with rfl | hf
    · have hdiscards (lowest : Option Form) : Option.merge overlay lowest (some f) = some f := by
        cases lowest with
        | none => rfl
        | some l => exact congrArg some (overlay_discards (.inr hother))
      rw [hdiscards, hdiscards]
    · exact ih hf _ _

/-- Once there is a form, there is one on top of it. -/
theorem exists_foldl {f : Form} (hf : some f ∈ forms) (lowest : Option Form) :
    ∃ top, forms.foldl (Option.merge overlay) lowest = some top := by
  induction forms using List.reverseRecOn with
  | nil => cases hf
  | append_singleton forms form ih =>
    rw [List.foldl_append, List.foldl_cons, List.foldl_nil]
    rcases List.mem_append.1 hf with hf | hf
    · obtain ⟨top, htop⟩ := ih hf
      rw [htop]
      cases form <;> exact ⟨_, rfl⟩
    · rw [← List.mem_singleton.1 hf]
      cases forms.foldl (Option.merge overlay) lowest <;> exact ⟨_, rfl⟩

end Form

/-! ## requests -/

namespace Request

variable {lower upper : Request} {layers : List Request}

theorem form_overlay (lower upper : Request) :
    (lower.overlay upper).form = Option.merge Form.overlay lower.form upper.form := by
  rw [overlay]
  cases lower.form <;> cases upper.form <;> rfl

theorem form_foldl (lowest : Request) (layers : List Request) :
    (layers.foldl overlay lowest).form =
      (layers.map Request.form).foldl (Option.merge Form.overlay) lowest.form := by
  induction layers generalizing lowest with
  | nil => rfl
  | cons r layers ih => rw [List.foldl_cons, ih, form_overlay, List.map_cons, List.foldl_cons]

theorem form_overlayAll (layers : List Request) : (overlayAll layers).form =
    (layers.map Request.form).foldl (Option.merge Form.overlay) none := form_foldl empty layers

/-- The highest request is laid over all others together. -/
theorem overlayAll_append_singleton (layers : List Request) (r : Request) :
    overlayAll (layers ++ [r]) = (overlayAll layers).overlay r := by
  rw [overlayAll, List.foldl_append]
  rfl

/-- A key that requests state is the one of the highest request that states it. -/
theorem stated_overlayAll {α : Type} (key : Request → Option α)
    (hkey : ∀ lower upper, key (lower.overlay upper) = (key upper).or (key lower))
    (hempty : key empty = none) (layers : List Request) :
    key (overlayAll layers) = layers.reverse.findSome? key := by
  induction layers using List.reverseRecOn with
  | nil => exact hempty
  | append_singleton layers r ih =>
    rw [overlayAll_append_singleton, hkey, ih, List.reverse_append, List.reverse_singleton,
      List.singleton_append, List.findSome?_cons]
    cases key r <;> rfl

/-- A request apart from its form. -/
def formless (r : Request) : Request := { r with form := none }

theorem eq_iff {a b : Request} : a = b ↔ a.form = b.form ∧ a.formless = b.formless := by
  obtain ⟨omitted, default, id, preset, form⟩ := a
  obtain ⟨omitted', default', id', preset', form'⟩ := b
  simp only [formless, Request.mk.injEq, and_true]
  tauto

theorem formless_overlay_assoc (a b c : Request) :
    ((a.overlay b).overlay c).formless = (a.overlay (b.overlay c)).formless := by
  simp only [formless, overlay, Bool.or_assoc, Option.or_assoc]

theorem formless_overlay {a b : Request} (h : a.formless = b.formless) (upper : Request) :
    (a.overlay upper).formless = (b.overlay upper).formless := by
  have hlower (r : Request) : (r.overlay upper).formless = (r.formless.overlay upper).formless :=
    rfl
  rw [hlower, h, ← hlower]

/-- Apart from the form, requests may be laid over the lowest one together. -/
theorem formless_overlayAll (lowest : Request) (layers : List Request) :
    (overlayAll (lowest :: layers)).formless = (lowest.overlay (overlayAll layers)).formless := by
  induction layers using List.reverseRecOn with
  | nil =>
    rw [overlayAll, List.foldl_cons, List.foldl_nil, empty_overlay, overlayAll, List.foldl_nil,
      overlay_empty]
  | append_singleton layers r ih =>
    rw [← List.cons_append, overlayAll_append_singleton, overlayAll_append_singleton,
      formless_overlay ih, formless_overlay_assoc]

/-- The form of a preset comes back under requests that discard it: their own form is an integer
that leaves out a key of it, above one of another kind. -/
structure Revived (preset : Request) (layers : List Request) : Prop where
  between : ∃ r ∈ layers, ∃ form, r.form = some form ∧ form.isInteger = false
  keys : ∃ bits range bits' range', preset.form = some (.integer bits range) ∧
    (overlayAll layers).form = some (.integer bits' range') ∧
    ((bits' = none ∧ bits ≠ none) ∨ (range' = none ∧ range ≠ none))

/-- A form changes what lies over it only between integers, by a key that the upper one leaves
out. -/
theorem merge_ne_upper {lower : Option Form} {upper : Form} :
    Option.merge Form.overlay lower (some upper) ≠ some upper ↔
      ∃ bits range bits' range', lower = some (.integer bits range) ∧
        some upper = some (.integer bits' range') ∧
        ((bits' = none ∧ bits ≠ none) ∨ (range' = none ∧ range ≠ none)) := by
  cases lower with
  | none => simp [Option.merge]
  | some l =>
    cases l with
    | integer bits range =>
      cases upper with
      | integer bits' range' =>
        cases bits <;> cases bits' <;> cases range <;> cases range' <;>
          simp [Option.merge, Form.overlay]
      | _ => simp [Option.merge, Form.overlay]
    | _ => simp [Option.merge, Form.overlay]

/-- Over a preset together or one by one: the form is the same unless that of the preset comes
back. -/
theorem form_overlay_overlayAll (preset : Request) (layers : List Request) :
    (preset.overlay (overlayAll layers)).form = (overlayAll (preset :: layers)).form ↔
      ¬ Revived preset layers := by
  have hall : (overlayAll (preset :: layers)).form =
      (layers.map Request.form).foldl (Option.merge Form.overlay) preset.form := by
    rw [overlayAll, List.foldl_cons, empty_overlay, form_foldl]
  rw [form_overlay, hall]
  by_cases hother : ∃ r ∈ layers, ∃ form, r.form = some form ∧ form.isInteger = false
  · obtain ⟨r, hr, form, hform, hkind⟩ := hother
    have hmem : some form ∈ layers.map Request.form := hform ▸ List.mem_map_of_mem hr
    obtain ⟨top, htop⟩ := Form.exists_foldl hmem none
    rw [← form_overlayAll] at htop
    rw [Form.foldl_of_other hmem hkind preset.form none, ← form_overlayAll, htop, ← not_ne_iff,
      merge_ne_upper, not_iff_not, ← htop]
    exact ⟨fun hkeys => ⟨⟨r, hr, form, hform, hkind⟩, hkeys⟩, Revived.keys⟩
  · have hintegers : ∀ f, some f ∈ layers.map Request.form → f.isInteger = true := by
      intro f hf
      obtain ⟨r, hr, hform⟩ := List.mem_map.1 hf
      by_contra hkind
      exact hother ⟨r, hr, f, hform, Bool.eq_false_iff.2 hkind⟩
    rw [Form.foldl_of_integers hintegers, ← form_overlayAll]
    exact iff_of_true rfl fun hrevived => hother hrevived.between

end Request

/-! ## declarations -/

/-- What is stated about a declaration of a type above its preset, the lowest first. -/
def Registry.stated (g : Registry) (own : Option Request) (t : TypeRef) : List Request :=
  g.layers t ++ own.toList

namespace Config

variable {c : Config} {g : Registry} {own : Option Request} {type : TypeExpr} {t : TypeRef}

/-- The preset that a declaration builds on. -/
def presetOf (c : Config) (g : Registry) (own : Option Request) (t : TypeRef) : Option Request :=
  (Request.overlayAll (g.stated own t)).preset.bind c.preset?

/-- Everything that is asked about a declaration, the lowest first. -/
def ranked (c : Config) (g : Registry) (own : Option Request) (t : TypeRef) : List Request :=
  (c.presetOf g own t).toList ++ g.stated own t

/-- How a declaration of a known type travels under a request. -/
def bake (c : Config) (t : TypeRef) (request : Request) : Except ResolveError Resolution := do
  let (kind, extents) ←
    if request.omitted then .ok (.omitted, t.extents)
    else c.settle request.form t.elem t.extents
  return ⟨⟨kind, request.default, request.variantId⟩, extents, some t.elem⟩

/-- The preset of a declaration lies below all that is stated together. -/
theorem effective_of_defined (hdefined : ∀ name,
    (Request.overlayAll (g.stated own t)).preset = some name → (c.preset? name).isSome = true) :
    c.effective g own t = .ok ((c.presetOf g own t).elim (Request.overlayAll (g.stated own t))
      (·.overlay (Request.overlayAll (g.stated own t)))) := by
  unfold effective overPreset presetOf
  rw [show g.layers t ++ own.toList = g.stated own t from rfl]
  cases hname : (Request.overlayAll (g.stated own t)).preset with
  | none => rfl
  | some name =>
    obtain ⟨preset, hpreset⟩ := Option.isSome_iff_exists.1 (hdefined name hname)
    simp only [hpreset, Option.bind_some, Option.elim_some]

/-- A declaration of a known type that is not left out by its own request is settled with all that
is asked about it. -/
theorem resolve_of_kept (ht : g.resolveType type = .ok t)
    (hkept : ∀ r, own = some r → r.omitted = false) :
    c.resolve g own type = c.effective g own t >>= c.bake t := by
  have hnone : own.filter Request.omitted = none := by
    cases own with
    | none => rfl
    | some r => exact Option.filter_some_neg (by simp [hkept r rfl])
  unfold resolve
  rw [hnone, ht]
  rfl

/-- **Precedence**: a declaration travels as under all requests about it, laid over each other by
their rank, with one exception: the form of its preset comes back under integers that discard it.
All other keys follow the rank even then, and are those of the highest request that states them. -/
theorem resolve_ranked (ht : g.resolveType type = .ok t)
    (hkept : ∀ r, own = some r → r.omitted = false)
    (hdefined : ∀ name, (Request.overlayAll (g.stated own t)).preset = some name →
      (c.preset? name).isSome = true) :
    ∃ request, c.resolve g own type = c.bake t request ∧
      (request = Request.overlayAll (c.ranked g own t) ↔
        ∀ preset, c.presetOf g own t = some preset → ¬ Request.Revived preset (g.stated own t)) ∧
      request.formless = (Request.overlayAll (c.ranked g own t)).formless ∧
      request.default = (c.ranked g own t).reverse.findSome? Request.default ∧
      request.variantId = (c.ranked g own t).reverse.findSome? Request.variantId := by
  have hkeys {request : Request}
      (h : request.formless = (Request.overlayAll (c.ranked g own t)).formless) :
      request.default = (c.ranked g own t).reverse.findSome? Request.default ∧
        request.variantId = (c.ranked g own t).reverse.findSome? Request.variantId := by
    rw [← Request.stated_overlayAll Request.default (fun _ _ => rfl) rfl,
      ← Request.stated_overlayAll Request.variantId (fun _ _ => rfl) rfl]
    obtain ⟨-, hdefault, hid, -⟩ := Request.mk.inj h
    exact ⟨hdefault, hid⟩
  have hresolve := resolve_of_kept (c := c) ht hkept
  rw [effective_of_defined hdefined] at hresolve
  cases hpreset : c.presetOf g own t with
  | none =>
    rw [hpreset] at hresolve
    have hranked : c.ranked g own t = g.stated own t := by rw [ranked, hpreset]; rfl
    refine ⟨_, hresolve, ?_, hranked ▸ rfl, hkeys (hranked ▸ rfl)⟩
    rw [hranked]
    simp
  | some preset =>
    rw [hpreset] at hresolve
    have hranked : c.ranked g own t = preset :: g.stated own t := by rw [ranked, hpreset]; rfl
    have hformless := Request.formless_overlayAll preset (g.stated own t)
    refine ⟨_, hresolve, ?_, hranked ▸ hformless.symm, hkeys (hranked ▸ hformless.symm)⟩
    rw [hranked, Option.elim_some, Request.eq_iff, ← hformless, Request.form_overlay_overlayAll]
    simp

end Config

namespace Sample

/-- An alias whose values travel as they are. -/
def buffered : Registry where
  records := []
  aliases := [⟨"A", .name "u8", { Request.empty with form := some .buffer }⟩]

/-- A preset of four bits. -/
def inheriting : Config := { config with presets := [("$p", bits 4)] }

/-- A request for a range, on top of the preset. -/
def ranged : Request :=
  { Request.empty with preset := some "$p", form := some (.integer none (some (0, 3))) }

/-- A byte. -/
def byte : TypeRef := ⟨[], ⟨.name "u8", [], .int false 8⟩⟩

/-- Nothing lies between the range and the preset: the range is stated on top, the bits below. -/
theorem range_over_preset : inheriting.resolve buffered (some ranged) (.name "u8") =
      inheriting.bake byte (Request.overlayAll (inheriting.ranked buffered (some ranged) byte)) ∧
    (Request.overlayAll (inheriting.ranked buffered (some ranged) byte)).form =
      some (.integer (some 4) (some (0, 3))) := by
  have hname : (Request.overlayAll (buffered.stated (some ranged) byte)).preset = some "$p" := rfl
  obtain ⟨request, hresolve, hranked, -⟩ :=
    @Config.resolve_ranked inheriting buffered (some ranged) (.name "u8") byte rfl
      (fun r hr => Option.some.inj hr ▸ rfl) fun name hdefined => by
        obtain rfl := Option.some.inj (hname.symm.trans hdefined)
        rfl
  refine ⟨?_, rfl⟩
  rw [hresolve, hranked.2]
  rintro preset - ⟨⟨r, hr, form, hform, hkind⟩, -⟩
  obtain rfl : r = ranged := List.mem_singleton.1 hr
  obtain rfl := Option.some.inj hform
  cases hkind

/-- An alias with a buffer in between: the buffer discards the bits of the preset, and the range
discards the buffer. Still the range is given the bits of the preset. -/
theorem preset_revived : ∃ t, buffered.resolveType (.name "A") = .ok t ∧
    (∀ r ∈ inheriting.ranked buffered (some ranged) t, r.omitted = false) ∧
    inheriting.presetOf buffered (some ranged) t = some (bits 4) ∧
    (inheriting.resolve buffered (some ranged) (.name "A")).toOption.map (·.encoding.kind) =
      some (.integer ⟨4, 0, 3⟩) ∧
    (inheriting.bake t (Request.overlayAll
      (inheriting.ranked buffered (some ranged) t))).toOption.map (·.encoding.kind) =
      some (.integer ⟨2, 0, 3⟩) :=
  ⟨⟨[], ⟨.name "A", ["A"], .int false 8⟩⟩, rfl, by decide, by decide, by decide +kernel,
    by decide +kernel⟩

end Sample

end BitLayout
