import BitLayout.Registry.Basic
import Mathlib.Data.List.Forall2
import Mathlib.Data.List.Induction

/-!
# BitLayout.Proofs.Request.Directives

What the attributes of a declaration ask for. Every option of an attribute is one directive, and a
request is what the directives make of the request that asks for nothing:

```
#[bitpack(omit, id = 3)] #[bitpack(default = 7)]   ~>   [omitted, id 3, default 7]
```

An attribute that is refused makes its declaration be left out, although no option says so. Its
error is reported, so without errors only a directive `omitted` leaves a declaration out.

* `Request.foldlM_of_ofAttributes`: a request without errors comes from the directives, in turn;
* `Request.asksToOmit_iff`: it leaves its declaration out if and only if a directive does;
* `Registry.declaredBy_of_collect`: the records, fields and aliases of a registry without errors are
  those of the items, with the requests of their attributes.
-/

namespace BitLayout

/-! ## lists of options -/

section Lists

variable {σ τ ε : Type} {lift : ReadError → ε} {R : σ → τ → Prop}
  {f : σ → Option String → ReadingWith ε σ} {g : τ → Option String → ReadingWith ε τ}

/-- Whenever an option can be read in one way, it can be read in another way up to the same token,
and the states stay related. -/
def Follows (R : σ → τ → Prop) (f : σ → Option String → ReadingWith ε σ)
    (g : τ → Option String → ReadingWith ε τ) : Prop :=
  ∀ a b word rest a' rest', R a b → f a word rest = .ok (a', rest') →
    ∃ b', g b word rest = .ok (b', rest') ∧ R a' b'

/-- Related states stay related over the options of a list. -/
theorem runOptionsFrom_follows (hstep : Follows R f g) {fuel : Nat} {a a' : σ} {b : τ}
    {rest rest' : Remaining} (hr : R a b)
    (h : runOptionsFrom lift f fuel a rest = (a', .ok rest')) :
    ∃ b', runOptionsFrom lift g fuel b rest = (b', .ok rest') ∧ R a' b' := by
  induction fuel generalizing a b rest with
  | zero =>
    simp only [runOptionsFrom, Prod.mk.injEq] at h ⊢
    obtain ⟨rfl, hrest⟩ := h
    exact ⟨b, ⟨rfl, hrest⟩, hr⟩
  | succ fuel ih =>
    rw [runOptionsFrom] at h ⊢
    cases hpath : Reading.optionPath rest with
    | error e => simp [hpath] at h
    | ok path =>
      obtain ⟨word, behind⟩ := path
      cases hoption : f a word behind with
      | error e => simp [hpath, hoption] at h
      | ok read =>
        obtain ⟨a₁, left⟩ := read
        obtain ⟨b₁, hb, hr₁⟩ := hstep a b word behind a₁ left hr hoption
        simp only [hpath, hoption, hb] at h ⊢
        split at h
        · simp only [Prod.mk.injEq] at h ⊢
          obtain ⟨rfl, hrest⟩ := h
          exact ⟨b₁, ⟨rfl, hrest⟩, hr₁⟩
        · next token others _ =>
          split at h
          · simp at h
          · split at h
            · simp only [Prod.mk.injEq] at h
              obtain ⟨rfl, hrest⟩ := h
              exact ⟨b₁, by simp_all, hr₁⟩
            · obtain ⟨b', hb', hr'⟩ := ih hr₁ h
              exact ⟨b', by simp_all, hr'⟩

/-- Related states stay related over an outermost list of options that can be read. -/
theorem runOptions_follows (hstep : Follows R f g) {a a' : σ} {b : τ} {tokens : Tokens}
    (hr : R a b) (h : runOptions lift f a tokens = (a', none)) :
    R a' (runOptions lift g b tokens).1 := by
  unfold runOptions at h ⊢
  split at h
  · simp_all
  · next hne =>
    cases hrun : runOptionsFrom lift f (tokens.length + 1) a (.start tokens) with
    | mk state outcome =>
      cases outcome with
      | error e => simp [hrun] at h
      | ok rest =>
        obtain ⟨b', hb, hr'⟩ := runOptionsFrom_follows hstep hr hrun
        simp_all

end Lists

/-! ## directives -/

/-- Read one option, and add it to the directives in front of it. -/
def Directive.gather (found : List Directive) (word : Option String) :
    RequestReading (List Directive) := do
  match word with
  | none => throw .notAnOption
  | some word => return found ++ [← RequestReading.directive word]

/-- The directives of a list of options. -/
def Directive.all (tokens : Tokens) : List Directive :=
  (runOptions .unreadable gather [] tokens).1

/-- The directives of an attribute, none if it does not belong to the layout. -/
def Attribute.directives (a : Attribute) : List Directive :=
  if a.isLayout then
    match a.content with
    | .group _ tokens => Directive.all tokens
    | _ => []
  else []

/-- Attributes ask to leave their declaration out. -/
def AsksToOmit (attrs : List Attribute) : Prop :=
  Directive.omitted ∈ attrs.flatMap Attribute.directives

instance (attrs : List Attribute) : Decidable (AsksToOmit attrs) :=
  inferInstanceAs (Decidable (_ ∈ _))

namespace Reading

variable {ε α β : Type} {reader : ReadingWith ε α} {f : α → ReadingWith ε β}
  {rest rest' behind : Remaining} {a : α} {b : β}

/-- Readers in a row are run one after the other. -/
theorem bind_of_ok (h : reader rest = .ok (a, behind)) : (reader >>= f) rest = f a behind := by
  simp [bind, StateT.bind, h, Except.bind]

theorem bind_inv (h : (reader >>= f) rest = .ok (b, rest')) :
    ∃ a behind, reader rest = .ok (a, behind) ∧ f a behind = .ok (b, rest') := by
  cases hread : reader rest with
  | error e => simp [bind, StateT.bind, hread, Except.bind] at h
  | ok read =>
    obtain ⟨a, behind⟩ := read
    rw [bind_of_ok hread] at h
    exact ⟨a, behind, rfl, h⟩

/-- A result without reading takes nothing. -/
theorem lift_inv {result : Except ε α} (h : (liftM result : ReadingWith ε α) rest =
    .ok (a, rest')) : result = .ok a ∧ rest = rest' := by
  cases result with
  | error e => cases h
  | ok found =>
    cases h
    exact ⟨rfl, rfl⟩

end Reading

namespace Request

variable {r s : Request} {d : Directive}

/-- Acting on a request reads one directive and applies it. -/
theorem step_inv {word : Option String} {rest rest' : Remaining}
    (h : r.step word rest = .ok (s, rest')) : ∃ w d, word = some w ∧
      RequestReading.directive w rest = .ok (d, rest') ∧ r.apply d = .ok s := by
  cases word with
  | none => cases h
  | some w =>
    obtain ⟨d, behind, hread, h⟩ := Reading.bind_inv h
    obtain ⟨happly, rfl⟩ := Reading.lift_inv h
    exact ⟨w, d, rfl, hread, happly⟩

/-- A request is kept up with by its directives. -/
theorem step_follows (start : Request) :
    Follows (fun r ds => ds.foldlM apply start = .ok r) step Directive.gather := by
  intro r ds word rest s rest' hr h
  obtain ⟨w, d, rfl, hread, happly⟩ := step_inv h
  refine ⟨ds ++ [d], Reading.bind_of_ok hread, ?_⟩
  show (ds ++ [d]).foldlM apply start = .ok s
  rw [List.foldlM_append, hr]
  simp [happly, bind, Except.bind, pure, Except.pure]

/-- Options that are accepted act as their directives do. -/
theorem foldlM_of_applyOptions {tokens : Tokens} (h : r.applyOptions tokens = (s, none)) :
    (Directive.all tokens).foldlM apply r = .ok s :=
  runOptions_follows (step_follows r) rfl h

/-! ## leaving out -/

theorem omitted_of_withForm {form : Form} (h : r.withForm form = .ok s) :
    s.omitted = r.omitted := by
  unfold withForm at h
  split at h
  · cases h
    rfl
  · split at h <;> cases h
    rfl
  · split at h <;> cases h
    rfl

theorem omitted_of_withInteger {update : Option Nat → Option (Int × Int) → Form}
    (h : r.withInteger update = .ok s) : s.omitted = r.omitted := by
  unfold withInteger at h
  split at h <;> cases h <;> rfl

/-- Only the directive `omitted` leaves a declaration out. -/
theorem omitted_of_apply (h : r.apply d = .ok s) :
    s.omitted = true ↔ r.omitted = true ∨ d = .omitted := by
  cases d with
  | omitted =>
    cases h
    simp
  | default value =>
    cases h
    simp
  | id n =>
    cases h
    simp
  | preset name =>
    cases h
    simp
  | bitcount bits =>
    unfold apply at h
    simp [omitted_of_withInteger h]
  | range min max =>
    unfold apply at h
    simp [omitted_of_withInteger h]
  | _ => simp [omitted_of_withForm h]

/-- A request leaves its declaration out as soon as one of its directives does. -/
theorem omitted_of_foldlM {ds : List Directive} (h : ds.foldlM apply r = .ok s) :
    s.omitted = true ↔ r.omitted = true ∨ .omitted ∈ ds := by
  induction ds generalizing r with
  | nil =>
    cases h
    simp
  | cons d ds ih =>
    rw [List.foldlM_cons] at h
    cases happly : r.apply d with
    | error e => simp [happly, bind, Except.bind] at h
    | ok t =>
      rw [happly] at h
      rw [ih h, omitted_of_apply happly, List.mem_cons, or_assoc, eq_comm (a := d)]

end Request

/-! ## errors that are gathered -/

/-- What holds at first, and is kept by every step without errors, holds after a row of steps
without errors, of all that has been gone through. -/
theorem foldl_without_errors {σ α ε : Type} {step : σ × List ε → α → σ × List ε}
    {P : List α → σ → Prop} (hkeeps : ∀ a p, (step p a).2 = [] → p.2 = [])
    (hstep : ∀ done a s t, P done s → step (s, []) a = (t, []) → P (done ++ [a]) t)
    {s t : σ} {xs : List α} (hs : P [] s) (h : xs.foldl step (s, []) = (t, [])) : P xs t := by
  induction xs using List.reverseRecOn generalizing t with
  | nil =>
    cases h
    exact hs
  | append_singleton xs a ih =>
    rw [List.foldl_append, List.foldl_cons, List.foldl_nil] at h
    cases hu : xs.foldl step (s, []) with
    | mk u errors =>
      rw [hu] at h
      have herrors : errors = [] := hkeeps a (u, errors) (by rw [h])
      subst herrors
      exact hstep xs a u t (ih hu) h

namespace Request

variable {r s : Request} {attrs : List Attribute}

/-- An attribute that is accepted acts as its directives do. -/
theorem foldlM_of_applyAttribute {a : Attribute} (hlayout : a.isLayout = true)
    (h : r.applyAttribute a = (s, none)) : a.directives.foldlM apply r = .ok s := by
  unfold applyAttribute at h
  unfold Attribute.directives
  split at h
  · simp at h
  · simp at h
  · next tokens hcontent => simpa [hlayout, hcontent] using foldlM_of_applyOptions h

/-- Only attributes of the layout have directives. -/
theorem flatMap_directives_filter (attrs : List Attribute) :
    (attrs.filter Attribute.isLayout).flatMap Attribute.directives =
      attrs.flatMap Attribute.directives := by
  induction attrs with
  | nil => rfl
  | cons a attrs ih =>
    by_cases hlayout : a.isLayout = true
    · simp [hlayout, ih]
    · simp [hlayout, ih, Attribute.directives]

/-- **Requests of attributes**: attributes without errors make the request that their directives
make, in turn. -/
theorem foldlM_of_ofAttributes (h : ofAttributes attrs = (r, [])) :
    (attrs.flatMap Attribute.directives).foldlM apply empty = .ok r := by
  rw [← flatMap_directives_filter]
  unfold ofAttributes at h
  have hall : ∀ a ∈ attrs.filter Attribute.isLayout, a.isLayout = true :=
    fun a ha => (List.mem_filter.1 ha).2
  generalize attrs.filter Attribute.isLayout = layout at h hall
  refine foldl_without_errors (P := fun done r => (∀ a ∈ done, a.isLayout = true) →
    (done.flatMap Attribute.directives).foldlM apply empty = .ok r) ?_ ?_ ?_ h hall
  · intro a p hnil
    dsimp only at hnil
    split at hnil <;> simp_all
  · intro done a s t hs ht hlayout
    simp only [List.mem_append, List.mem_singleton] at hlayout
    have happly : s.applyAttribute a = (t, none) := by
      dsimp only at ht
      split at ht <;> simp_all
    rw [List.flatMap_append, List.foldlM_append, hs fun b hb => hlayout b (.inl hb)]
    rw [List.flatMap_singleton]
    exact foldlM_of_applyAttribute (hlayout a (.inr rfl)) happly
  · intro _
    rfl

/-- The directives of `#[bitpack(omit, id = 3)]`. -/
example : Attribute.directives ⟨false, .ofWord "bitpack", .group .paren
      [.ident "omit", .sign ',', .ident "id", .sign '=', .literal "3"]⟩ = [.omitted, .id 3] := by
  decide +kernel

/-- Attributes without errors leave their declaration out if and only if they ask to. -/
theorem asksToOmit_iff (h : ofAttributes attrs = (r, [])) :
    r.omitted = true ↔ AsksToOmit attrs := by
  simpa [AsksToOmit, empty] using omitted_of_foldlM (foldlM_of_ofAttributes h)

end Request

/-! ## registries -/

/-- The fields of a record that have names. -/
def RecordBody.namedFields : RecordBody → List FieldDefinition
  | named fields _ => fields
  | _ => []

/-- A field is declared by a definition whose attributes are accepted. -/
structure Field.DeclaredBy (d : FieldDefinition) (f : Field) : Prop where
  name : f.name = d.name
  type : f.type = d.type
  request : Request.ofAttributes d.attrs = (f.request, [])

/-- A record is declared by a definition whose attributes are accepted, and so are its fields, one
by one. -/
structure Record.DeclaredBy (d : RecordDefinition) (r : Record) : Prop where
  name : r.name = d.name
  kind : r.kind = d.kind
  request : Request.ofAttributes d.attrs = (r.request, [])
  fields : List.Forall₂ Field.DeclaredBy d.body.namedFields r.fields

/-- An alias is declared by a definition whose attributes are accepted. -/
structure TypeAlias.DeclaredBy (d : AliasDefinition) (a : TypeAlias) : Prop where
  name : a.name = d.name
  target : a.target = d.type
  request : Request.ofAttributes d.attrs = (a.request, [])

/-- All records and aliases of a registry are declared by items. -/
structure Registry.DeclaredBy (items : List Definition) (g : Registry) : Prop where
  records : ∀ r ∈ g.records, ∃ d, .record d ∈ items ∧ r.DeclaredBy d
  aliases : ∀ a ∈ g.aliases, ∃ d, .typeAlias d ∈ items ∧ a.DeclaredBy d

theorem ofAttributes_of_requestOf {attrs : List Attribute} {r : Request}
    (h : requestOf attrs = (r, [])) : Request.ofAttributes attrs = (r, []) := by
  unfold requestOf at h
  simp only [Prod.mk.injEq, List.map_eq_nil_iff] at h
  exact Prod.ext h.1 h.2

theorem Field.declaredBy_of_ofDefinition {d : FieldDefinition}
    (h : (Field.ofDefinition d).2 = []) : (Field.ofDefinition d).1.DeclaredBy d :=
  ⟨rfl, rfl, ofAttributes_of_requestOf (Prod.ext rfl h)⟩

/-- Fields without errors are declared one by one. -/
theorem Field.declaredBy_of_map {defs : List FieldDefinition}
    (h : (defs.map Field.ofDefinition).flatMap (·.2) = []) :
    List.Forall₂ Field.DeclaredBy defs ((defs.map Field.ofDefinition).map (·.1)) := by
  induction defs with
  | nil => exact .nil
  | cons d defs ih =>
    rw [List.map_cons, List.flatMap_cons, List.append_eq_nil_iff] at h
    exact .cons (declaredBy_of_ofDefinition h.1) (ih h.2)

theorem Record.declaredBy_of_ofDefinition {d : RecordDefinition} {r : Record}
    (h : Record.ofDefinition d = (some r, [])) : r.DeclaredBy d := by
  unfold Record.ofDefinition at h
  split at h
  · simp at h
  · cases hbody : d.body with
    | named fields comma =>
      simp only [hbody, Prod.mk.injEq, Option.some.injEq, List.append_eq_nil_iff] at h
      obtain ⟨rfl, hfields, herrors⟩ := h
      refine ⟨rfl, rfl, ofAttributes_of_requestOf (Prod.ext rfl herrors), ?_⟩
      rw [hbody]
      exact Field.declaredBy_of_map hfields
    | unit =>
      simp only [hbody, Prod.mk.injEq, Option.some.injEq, List.append_eq_nil_iff] at h
      obtain ⟨rfl, -, herrors⟩ := h
      refine ⟨rfl, rfl, ofAttributes_of_requestOf (Prod.ext rfl herrors), ?_⟩
      rw [hbody]
      exact .nil
    | positional fields comma => simp [hbody] at h

theorem TypeAlias.declaredBy_of_ofDefinition {d : AliasDefinition} {a : TypeAlias}
    (h : TypeAlias.ofDefinition d = (some a, [])) : a.DeclaredBy d := by
  unfold TypeAlias.ofDefinition at h
  split at h
  · simp at h
  · simp only [Prod.mk.injEq, Option.some.injEq] at h
    obtain ⟨rfl, herrors⟩ := h
    exact ⟨rfl, rfl, ofAttributes_of_requestOf (Prod.ext rfl herrors)⟩

namespace Registry

/-- More items declare all that fewer do. -/
theorem DeclaredBy.append {items : List Definition} {g : Registry} (h : g.DeclaredBy items)
    (more : List Definition) : g.DeclaredBy (items ++ more) where
  records r hr :=
    let ⟨d, hd, hdecl⟩ := h.records r hr
    ⟨d, List.mem_append_left _ hd, hdecl⟩
  aliases a ha :=
    let ⟨d, hd, hdecl⟩ := h.aliases a ha
    ⟨d, List.mem_append_left _ hd, hdecl⟩

/-- Adding an item without errors keeps everything declared. -/
theorem DeclaredBy.add {items : List Definition} {g g' : Registry} {item : Definition}
    (h : g.DeclaredBy items) (hadd : g.add item = (g', [])) : g'.DeclaredBy (items ++ [item]) := by
  have hmore := h.append [item]
  have hmem : item ∈ items ++ [item] := by simp
  unfold Registry.add at hadd
  split at hadd
  · next d =>
    split at hadd
    · next record errors hof =>
      simp only [Prod.mk.injEq] at hadd
      obtain ⟨rfl, rfl⟩ := hadd
      refine ⟨List.forall_mem_cons.2 ⟨?_, hmore.records⟩, hmore.aliases⟩
      exact ⟨d, hmem, Record.declaredBy_of_ofDefinition hof⟩
    · simp only [Prod.mk.injEq] at hadd
      exact hadd.1 ▸ hmore
  · next d =>
    split at hadd
    · next found errors hof =>
      simp only [Prod.mk.injEq] at hadd
      obtain ⟨rfl, rfl⟩ := hadd
      refine ⟨hmore.records, List.forall_mem_cons.2 ⟨?_, hmore.aliases⟩⟩
      exact ⟨d, hmem, TypeAlias.declaredBy_of_ofDefinition hof⟩
    · simp only [Prod.mk.injEq] at hadd
      exact hadd.1 ▸ hmore
  · simp only [Prod.mk.injEq, and_true] at hadd
    exact hadd ▸ hmore

/-- **Origins of registries**: all that is collected without errors is declared by the items. -/
theorem declaredBy_of_collect {items : List Definition} {g : Registry}
    (h : collect items = (g, [])) : g.DeclaredBy items := by
  unfold collect at h
  refine foldl_without_errors (P := DeclaredBy) ?_ ?_ ?_ h
  · intro item p hnil
    exact (List.append_eq_nil_iff.1 hnil).1
  · intro done item s t hs ht
    simp only [List.nil_append, Prod.mk.injEq] at ht
    exact hs.add (Prod.ext ht.1 ht.2)
  · exact ⟨fun _ hr => (nomatch hr), fun _ ha => (nomatch ha)⟩

end Registry

end BitLayout
