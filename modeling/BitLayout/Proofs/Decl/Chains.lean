import BitLayout.Proofs.Decl.Building
import Mathlib.Data.List.Chain
import Mathlib.Data.List.Perm.Subperm
import Mathlib.Logic.Relation

/-!
# BitLayout.Proofs.Decl.Chains

Whether building comes to an end. Fields of records cannot be followed forever, since a record is
not entered inside itself. But a type on the wire may be transformed again, without its own request:
such types form chains, of which each *leads* to the next.

```
type  ~>  wire 1  ~>  wire 2  ~>  ..
```

Behind the first, all types of a chain are named by transforms in the requests of aliases, records
and presets. So a chain that is longer than there are such requests passes some type twice.

* `Config.Declared`: what is declared, starting from the data objects;
* `Config.endsWithin_wireBudget`: without cycles, chains end within the budget;
* `Model.isSome_build`: and then building returns.
-/

namespace BitLayout

/-! ## what is declared -/

/-- The record whose fields stand below a declaration that is settled so. -/
def Resolution.record? (r : Resolution) : Option String :=
  match r.encoding.kind, r.elem.map Element.shape with
  | .struct, some (.record record _) => some record
  | .union _ _, some (.record record _) => some record
  | _, _ => none

/-- The type on the wire of a declaration that is settled so. -/
def Resolution.wire? (r : Resolution) : Option TypeExpr :=
  match r.encoding.kind with
  | .transformed t => some t.wire
  | _ => none

theorem Resolution.transformed_of_wire? {r : Resolution} {w : TypeExpr} (h : r.wire? = some w) :
    ∃ t, r.encoding.kind = .transformed t ∧ t.wire = w := by
  unfold wire? at h
  split at h
  · next t hk => exact ⟨t, hk, Option.some.inj h⟩
  · cases h

namespace Config

/-- A declaration of a type travels as another type. -/
def Becomes (c : Config) (g : Registry) (own : Option Request) (type wire : TypeExpr) : Prop :=
  ∃ r, c.resolve g own type = .ok r ∧ r.wire? = some wire

/-- A type on the wire travels as another type itself. -/
def Leads (c : Config) (g : Registry) (type wire : TypeExpr) : Prop := c.Becomes g none type wire

/-- What is declared, with its own request: data objects, what they become on the wire, and the
fields of the records that are met. -/
inductive Declared (c : Config) (g : Registry) : Option Request → TypeExpr → Prop where
  | object {o : DataObject} (h : o ∈ c.objects) : Declared c g none o.type
  | wire {own : Option Request} {type w : TypeExpr} (h : Declared c g own type)
    (hw : c.Becomes g own type w) : Declared c g none w
  | field {own : Option Request} {type : TypeExpr} {r : Resolution} {record : String}
    {found : Record} {f : Field} (h : Declared c g own type) (hr : c.resolve g own type = .ok r)
    (hrecord : r.record? = some record) (hfound : g.record? record = some found)
    (hf : f ∈ found.fields) : Declared c g (some f.request) f.type

/-- A record is met: something that is declared has its fields. -/
def Meets (c : Config) (g : Registry) (record : String) : Prop :=
  ∃ own type r, c.Declared g own type ∧ c.resolve g own type = .ok r ∧ r.record? = some record

end Config

/-! ## types on the wire -/

/-- The type on the wire that a request names. -/
def Request.wire? (r : Request) : Option TypeExpr :=
  match r.form with
  | some (.transform t) => some t.wire
  | _ => none

theorem Request.wire?_of_form {r : Request} {t : Transform} (h : r.form = some (.transform t)) :
    r.wire? = some t.wire := by
  rw [wire?, h]

/-- A transform over another request comes from one of the two. -/
theorem Request.transform_of_overlay {lower upper : Request} {t : Transform}
    (h : (lower.overlay upper).form = some (.transform t)) :
    lower.form = some (.transform t) ∨ upper.form = some (.transform t) := by
  simp only [overlay] at h
  cases hl : lower.form with
  | none =>
    rw [hl] at h
    cases hu : upper.form <;> simp_all
  | some l =>
    rw [hl] at h
    cases hu : upper.form with
    | none => simp_all
    | some u =>
      simp only [hu, Option.some.injEq] at h
      unfold Form.overlay at h
      split at h
      · cases h
      · exact .inr (by rw [h])

/-- A transform over some layers comes from one of them. -/
theorem Request.transform_of_overlayAll {layers : List Request} {t : Transform}
    (h : (Request.overlayAll layers).form = some (.transform t)) :
    ∃ r ∈ layers, r.form = some (.transform t) := by
  suffices hfold : ∀ start : Request, (layers.foldl overlay start).form = some (.transform t) →
      start.form = some (.transform t) ∨ ∃ r ∈ layers, r.form = some (.transform t) from
    (hfold empty h).resolve_left fun hempty => nomatch hempty
  clear h
  induction layers with
  | nil => exact fun start h => .inl h
  | cons r layers ih =>
    intro start h
    rcases ih (start.overlay r) h with hstart | ⟨r', hr', hform⟩
    · exact (transform_of_overlay hstart).imp_right fun hr => ⟨r, List.mem_cons_self, hr⟩
    · exact .inr ⟨r', List.mem_cons_of_mem _ hr', hform⟩

/-- The requests that come with a type are those of records and aliases. -/
theorem Registry.mem_layers {g : Registry} {t : TypeRef} {r : Request} (h : r ∈ g.layers t) :
    r ∈ g.records.map Record.request ∨ r ∈ g.aliases.map TypeAlias.request := by
  have halias : ∀ names, r ∈ g.aliasLayers names → r ∈ g.aliases.map TypeAlias.request := by
    intro names h
    obtain ⟨a, ha, rfl⟩ := List.mem_map.1 h
    obtain ⟨name, -, ha⟩ := List.mem_filterMap.1 ha
    exact List.mem_map_of_mem (List.mem_of_find?_eq_some ha)
  rcases List.mem_append.1 h with h | h
  · rcases List.mem_append.1 h with h | h
    · split at h
      · next name _ _ =>
        obtain ⟨found, hfound, rfl⟩ := Option.map_eq_some_iff.1 (Option.mem_toList.1 h)
        exact .inl (List.mem_map_of_mem (List.mem_of_find?_eq_some hfound))
      · cases h
    · exact .inr (halias _ h)
  · obtain ⟨rank, -, h⟩ := List.mem_flatMap.1 h
    exact .inr (halias _ h)

namespace Config

variable {c : Config} {g : Registry} {own : Option Request} {type w : TypeExpr} {n : Nat}

/-- The types on the wire that are named in the requests of records, aliases and presets. -/
def wires (c : Config) (g : Registry) : List TypeExpr :=
  (g.records.map Record.request ++ g.aliases.map TypeAlias.request ++
    c.presets.map Prod.snd).filterMap Request.wire?

theorem length_wires_le (c : Config) (g : Registry) :
    (c.wires g).length + 2 ≤ Building.wireBudget c g := by
  have hle := List.length_filterMap_le Request.wire?
    (g.records.map Record.request ++ g.aliases.map TypeAlias.request ++ c.presets.map Prod.snd)
  simp only [List.length_append, List.length_map] at hle
  rw [wires, Building.wireBudget]
  omega

/-- A request over a preset has its form from one of the two. -/
theorem transform_of_overPreset {request whole : Request} {t : Transform}
    (h : c.overPreset request = .ok whole) (hform : whole.form = some (.transform t)) :
    request.form = some (.transform t) ∨
      ∃ preset ∈ c.presets.map Prod.snd, preset.form = some (.transform t) := by
  unfold overPreset at h
  split at h
  · cases h
    exact .inl hform
  · next name _ =>
    split at h
    · next preset hpreset =>
      cases h
      rcases Request.transform_of_overlay hform with hlower | hupper
      · obtain ⟨front, back, hp, -⟩ := List.lookup_eq_some_iff.1 hpreset
        refine .inr ⟨preset, List.mem_map.2 ⟨(name, preset), ?_, rfl⟩, hlower⟩
        rw [hp]
        exact List.mem_append_right _ List.mem_cons_self
      · exact .inl hupper
    · cases h

/-- A type on the wire leads on only to types that are named in the requests there are. -/
theorem Leads.mem_wires (h : c.Leads g type w) : w ∈ c.wires g := by
  obtain ⟨r, hr, hw⟩ := h
  obtain ⟨t, hkind, rfl⟩ := Resolution.transformed_of_wire? hw
  rcases resolve_cases hr with ⟨_, hown, -⟩ | ⟨ref, -, hknown⟩ | ⟨_, _, hown, -⟩
  · cases hown
  · obtain ⟨request, hrequest, ⟨-, rfl⟩ | ⟨kind, left, hsettle, rfl⟩⟩ := resolveKnown_cases hknown
    · cases hkind
    · obtain rfl : kind = .transformed t := hkind
      rw [effective, Option.toList_none, List.append_nil] at hrequest
      rw [wires, List.mem_filterMap]
      rcases transform_of_overPreset hrequest (suits_of_settle hsettle) with hform |
        ⟨preset, hpreset, hform⟩
      · obtain ⟨layer, hlayer, hform⟩ := Request.transform_of_overlayAll hform
        exact ⟨layer, List.mem_append_left _ (List.mem_append.2 (Registry.mem_layers hlayer)),
          Request.wire?_of_form hform⟩
      · exact ⟨preset, List.mem_append_right _ hpreset, Request.wire?_of_form hform⟩
  · cases hown

/-! ## chains -/

/-- The chain of types on the wire behind a declaration comes to an end, and has fewer types than
this. -/
def EndsWithin (c : Config) (g : Registry) : Nat → Option Request → TypeExpr → Prop
  | 0, _, _ => False
  | n + 1, own, type => ∀ w, c.Becomes g own type w → EndsWithin c g n none w

theorem EndsWithin.mono (h : c.EndsWithin g n own type) {k : Nat} (hle : n ≤ k) :
    c.EndsWithin g k own type := by
  induction n generalizing own type k with
  | zero => exact h.elim
  | succ n ih =>
    obtain ⟨k, rfl⟩ := Nat.exists_eq_add_of_le' (Nat.lt_of_lt_of_le (Nat.succ_pos n) hle)
    exact fun w hw => ih (h w hw) (Nat.le_of_succ_le_succ hle)

/-- A type whose chain ends does not come back to itself. -/
theorem EndsWithin.acyclic (h : c.EndsWithin g n none w) :
    ¬ Relation.TransGen (c.Leads g) w w := by
  induction n generalizing w with
  | zero => exact h.elim
  | succ n ih =>
    intro hcycle
    obtain ⟨v, hwv, hvw⟩ := Relation.TransGen.head'_iff.1 hcycle
    exact ih (h v hwv) (Relation.TransGen.tail' hvw hwv)

/-- A chain that does not end soon is long. -/
theorem exists_chain (h : ¬ c.EndsWithin g n none w) :
    ∃ ws : List TypeExpr, ws.length = n ∧ List.IsChain (c.Leads g) (w :: ws) := by
  induction n generalizing w with
  | zero => exact ⟨[], rfl, .singleton w⟩
  | succ n ih =>
    obtain ⟨v, hwv, hv⟩ : ∃ v, c.Leads g w v ∧ ¬ c.EndsWithin g n none v := by
      simpa [EndsWithin, Leads] using h
    obtain ⟨ws, hlength, hchain⟩ := ih hv
    exact ⟨v :: ws, by rw [List.length_cons, hlength], .cons_cons hwv hchain⟩

/-- What a declared type on the wire leads to is declared, and named in a request. -/
theorem mem_wires_of_chain {ws : List TypeExpr} (h : c.Declared g none w)
    (hchain : List.IsChain (c.Leads g) (w :: ws)) :
    ∀ v ∈ ws, c.Declared g none v ∧ v ∈ c.wires g := by
  induction ws generalizing w with
  | nil => exact fun _ hv => (nomatch hv)
  | cons v ws ih =>
    obtain ⟨hwv, hchain⟩ := List.isChain_cons_cons.1 hchain
    have hv : c.Declared g none v := .wire h hwv
    exact List.forall_mem_cons.2 ⟨⟨hv, hwv.mem_wires⟩, ih hv hchain⟩

/-- In a chain that passes no type twice, all types are different. -/
theorem nodup_of_chain {ws : List TypeExpr} (hchain : List.IsChain (c.Leads g) ws)
    (hacyclic : ∀ w ∈ ws, ¬ Relation.TransGen (c.Leads g) w w) : ws.Nodup := by
  have htrans : List.IsChain (Relation.TransGen (c.Leads g)) ws := hchain.imp fun _ _ => .single
  refine (List.isChain_iff_pairwise.1 htrans).imp_of_mem fun hv _ hvw heq => ?_
  subst heq
  exact hacyclic _ hv hvw

/-- **Chains end**: if no type on the wire comes back to itself, every chain ends within the
budget. -/
theorem endsWithin_wireBudget (hacyclic : ∀ w, c.Declared g none w →
      ¬ Relation.TransGen (c.Leads g) w w) (h : c.Declared g own type) :
    c.EndsWithin g (Building.wireBudget c g) own type := by
  refine EndsWithin.mono (n := (c.wires g).length + 2) (fun w hw => ?_) (length_wires_le c g)
  by_contra hlong
  obtain ⟨ws, hlength, hchain⟩ := exists_chain hlong
  have hwires := mem_wires_of_chain (.wire h hw) hchain
  have hws : List.IsChain (c.Leads g) ws := hchain.tail
  have hnodup : ws.Nodup := nodup_of_chain hws fun v hv => hacyclic v (hwires v hv).1
  have hle := (hnodup.subperm fun v hv => (hwires v hv).2).length_le
  omega

end Config

/-! ## steps that return -/

/-- The name of a declared record is that of one of the records. -/
theorem Registry.mem_of_record? {g : Registry} {record : String} {found : Record}
    (h : g.record? record = some found) : record ∈ g.records.map Record.name := by
  have hname : found.name = record := by
    simpa using List.find?_some h
  exact List.mem_map.2 ⟨found, List.mem_of_find?_eq_some h, hname⟩

namespace Building

variable {α β : Type} {c : Config} {g : Registry}

/-- A step that always returns. -/
def Returns (x : Building α) : Prop := ∀ s, ∃ r, x s = some r

namespace Returns

theorem pure (a : α) : Returns (pure a : Building α) := fun s => ⟨(a, s), rfl⟩

theorem get : Returns (get : Building Findings) := fun s => ⟨(s, s), rfl⟩

theorem modify (f : Findings → Findings) : Returns (modify f : Building PUnit) := fun s =>
  ⟨((), f s), rfl⟩

theorem bind {x : Building α} {f : α → Building β} (hx : Returns x) (hf : ∀ a, Returns (f a)) :
    Returns (x >>= f) := by
  intro s
  obtain ⟨⟨a, t⟩, ha⟩ := hx s
  obtain ⟨r, hr⟩ := hf a t
  refine ⟨r, ?_⟩
  rw [show (x >>= f) s = (x s).bind fun p => f p.1 p.2 from rfl, ha]
  exact hr

theorem map {x : Building α} (f : α → β) (hx : Returns x) : Returns (f <$> x) := by
  intro s
  obtain ⟨⟨a, t⟩, ha⟩ := hx s
  refine ⟨(f a, t), ?_⟩
  rw [show (f <$> x) s = (x s).bind fun p => some (f p.1, p.2) from rfl, ha]
  rfl

theorem mapM {f : α → Building β} {xs : List α} (h : ∀ x ∈ xs, Returns (f x)) :
    Returns (xs.mapM f) := by
  induction xs with
  | nil => exact .pure []
  | cons x xs ih =>
    obtain ⟨hx, hxs⟩ := List.forall_mem_cons.1 h
    rw [List.mapM_cons]
    exact hx.bind fun _ => (ih hxs).bind fun _ => .pure _

end Returns

theorem returns_report (e : DeclError) : Returns (report e) := .modify _

theorem returns_declare (info : Nat → DeclInfo) (members : List Decl) (wire : Option Decl) :
    Returns (declare info members wire) := fun _ => ⟨_, rfl⟩

theorem returns_unlessFault (d : Decl) (fault : Option DeclError) :
    Returns (unlessFault d fault) := by
  cases fault with
  | none => exact .pure d
  | some e => exact .bind (returns_report e) fun _ => .pure _

theorem returns_checkedVariants (u : Selection) (variants : List Decl) :
    Returns (checkedVariants g u variants) := by
  unfold checkedVariants
  refine .bind .get fun found => ?_
  split
  · exact .pure _
  · have hstore : ∀ outcome, Returns (do
        modify fun found => { found with unions := (u, outcome) :: found.unions }
        return outcome) := fun outcome => .bind (.modify _) fun _ => .pure outcome
    dsimp only
    split
    · exact .bind (.pure _) hstore
    · exact .bind (returns_report _) fun _ => .bind (.pure _) hstore

theorem returns_checked (d : Decl) : Returns (checked g d) := by
  unfold checked
  split
  · exact returns_unlessFault _ _
  · refine .bind (returns_checkedVariants _ _) fun outcome => ?_
    cases outcome <;> exact .pure _
  · exact .pure _

theorem returns_checkedTags (kind : RecordKind) (members : List Decl) :
    Returns (checkedTags kind members) :=
  .mapM fun _ _ => returns_unlessFault _ _

/-! ## building returns -/

/-- The members of a declaration are those of its record, if it has one. -/
theorem membersFor_record (membersOf : String → Building (List Decl)) (r : Resolution) :
    membersFor membersOf r.encoding.kind (r.elem.map Element.shape) =
      r.record?.elim (pure []) membersOf := by
  obtain ⟨⟨kind, dflt, id⟩, extents, elem⟩ := r
  cases elem with
  | none => cases kind <;> rfl
  | some e =>
    obtain ⟨type, aliases, shape⟩ := e
    cases shape <;> cases kind <;> rfl

/-- The value on the wire is that of its type, if it has one. -/
theorem wireFor_wire (build : TypeExpr → Building Decl) (r : Resolution) :
    wireFor build r.encoding.kind =
      r.wire?.elim (pure none) fun w => some <$> build w := by
  obtain ⟨⟨kind, dflt, id⟩, extents, elem⟩ := r
  cases kind <;> rfl

/-- Making a declaration returns, if its chain ends within the budget and the records that are met
can be taken apart. -/
theorem returns_build {membersOf : String → Building (List Decl)}
    (hmembers : ∀ record, c.Meets g record → Returns (membersOf record)) {budget : Nat}
    (name : String) {type : TypeExpr} {own : Option Request} (hd : c.Declared g own type)
    (h : c.EndsWithin g budget own type) : Returns (build c g membersOf budget name type own) := by
  induction budget generalizing type own with
  | zero => exact h.elim
  | succ budget ih =>
    have hrest (r : Resolution) (hrecord : ∀ record, r.record? = some record → c.Meets g record)
        (hwire : ∀ w, r.wire? = some w → c.Becomes g own type w) : Returns (do
          let members ← membersFor membersOf r.encoding.kind (r.elem.map Element.shape)
          let wire ← wireFor (fun t => build c g membersOf budget name t none) r.encoding.kind
          let d ← declare (infoOf name type r) members wire
          checked g d) := by
      rw [membersFor_record, wireFor_wire]
      refine .bind ?_ fun _ => .bind ?_ fun _ => .bind (returns_declare _ _ _) fun _ =>
        returns_checked _
      · cases hr : r.record? with
        | none => exact .pure _
        | some record => exact hmembers record (hrecord record hr)
      · cases hw : r.wire? with
        | none => exact .pure _
        | some w => exact .map _ (ih (.wire hd (hwire w hw)) (h w (hwire w hw)))
    rw [build_succ, resolution]
    cases hr : c.resolve g own type with
    | ok r =>
      rw [pure_bind]
      exact hrest r (fun record hrecord => ⟨own, type, r, hd, hr, hrecord⟩)
        fun w hw => ⟨r, hr, hw⟩
    | error e =>
      rw [bind_assoc]
      refine .bind (returns_report _) fun _ => ?_
      rw [pure_bind]
      refine hrest ⟨.dropped, [], none⟩ (fun _ hrecord => ?_) fun _ hw => ?_
      · cases hrecord
      · cases hw

/-- Taking a record apart returns if making its fields does, where another record can be entered. -/
theorem returns_membersOf_of_fields {depth : Nat} {around : List String} {record : String}
    (h : ∀ found, g.record? record = some found → record ∉ around → ∃ rest, depth = rest + 1 ∧
      ∀ f ∈ found.fields, Returns (field c g rest (record :: around) f)) :
    Returns (membersOf c g depth around record) := by
  unfold membersOf
  refine .bind .get fun now => ?_
  split
  · exact .pure _
  · split
    · exact .bind (returns_report _) fun _ => .pure _
    · next haround =>
      cases hfound : g.record? record with
      | none => exact .pure _
      | some found =>
        obtain ⟨rest, rfl, hfields⟩ := h found hfound (by simpa using haround)
        exact .bind (.mapM hfields) fun _ => .bind (returns_checkedTags _ _) fun _ =>
          .bind (.modify _) fun _ => .pure _

/-- Taking a record apart returns: no record is entered inside itself, so no more records stand
around it than there are. -/
theorem returns_membersOf
    (hends : ∀ own type, c.Declared g own type → c.EndsWithin g (wireBudget c g) own type)
    {depth : Nat} {around : List String} {record : String}
    (hdepth : g.records.length ≤ depth + around.length) (hnodup : around.Nodup)
    (hsub : around ⊆ g.records.map Record.name) (hrecord : c.Meets g record) :
    Returns (membersOf c g depth around record) := by
  induction depth using Nat.strongRecOn generalizing around record with
  | ind depth ih =>
  refine returns_membersOf_of_fields fun found hfound haround => ?_
  have hnew : (record :: around).Nodup := List.nodup_cons.2 ⟨haround, hnodup⟩
  have hnames : record :: around ⊆ g.records.map Record.name :=
    List.cons_subset.2 ⟨Registry.mem_of_record? hfound, hsub⟩
  have hle := (hnew.subperm hnames).length_le
  rw [List.length_cons, List.length_map] at hle
  obtain ⟨rest, rfl⟩ : ∃ rest, depth = rest + 1 := ⟨depth - 1, by omega⟩
  refine ⟨rest, rfl, fun f hf => ?_⟩
  obtain ⟨own, type, r, hd, hr, hrecord⟩ := hrecord
  have hfield : c.Declared g (some f.request) f.type := .field hd hr hrecord hfound hf
  refine returns_build (fun inner hinner => ?_) f.name hfield (hends _ _ hfield)
  refine ih rest (Nat.lt_succ_self _) ?_ hnew hnames hinner
  rw [List.length_cons]
  omega

theorem returns_object
    (hends : ∀ own type, c.Declared g own type → c.EndsWithin g (wireBudget c g) own type)
    {o : DataObject} (ho : o ∈ c.objects) : Returns (object c g o) := by
  have hd : c.Declared g none o.type := .object ho
  rw [object_eq]
  refine .bind (returns_build (fun record hrecord => ?_) o.name hd (hends _ _ hd)) fun d =>
    returns_unlessFault _ _
  exact returns_membersOf hends (Nat.le_refl _) List.nodup_nil (List.nil_subset _) hrecord

end Building

/-- **Building returns** if no type on the wire comes back to itself. -/
theorem Model.isSome_build {c : Config} {g : Registry}
    (hacyclic : ∀ w, c.Declared g none w → ¬ Relation.TransGen (c.Leads g) w w) :
    (Model.build c g).isSome = true := by
  have hends : ∀ own type, c.Declared g own type →
      c.EndsWithin g (Building.wireBudget c g) own type := fun _ _ =>
    Config.endsWithin_wireBudget hacyclic
  have hrun : Building.Returns (c.groups.mapM (List.mapM (Building.object c g))) :=
    .mapM fun os hos => .mapM fun o ho =>
      Building.returns_object hends (List.mem_flatten.2 ⟨os, hos, ho⟩)
  obtain ⟨r, hr⟩ := hrun ⟨0, [], [], []⟩
  rw [Model.build, Option.isSome_map]
  exact Option.isSome_iff_exists.2 ⟨r, hr⟩

end BitLayout
