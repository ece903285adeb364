import BitLayout.Proofs.Decl.Chains

/-!
# BitLayout.Proofs.Decl.Cycles

Which cycles building cuts off. A cycle among aliases makes a type that cannot be laid out, which is
reported. A cycle among records is left where it would enter a record inside itself, which is
reported too. But a type on the wire that comes back to itself is followed forever.

What has been found while the records of `around` are taken apart is *followed*: the fields of every
record that is known are settled to the end of their chains, and every record they contain is known
or reported. Records become known from the inside out, so what a record contains was known before it
or is reported:

```
records  =  outer :: ... inner ... :: ...
```

* `Building.build_follows`, `Building.membersOf_follows`: steps keep what is found followed;
* `Model.visited_of_declared`: in the end, all that is declared is settled, and all records are
  known;
* `Model.cuts_of_build`: so all cycles are reported.

Main statement: `Model.builds_unless_wires_cycle`.
-/

namespace BitLayout

namespace Config

/-- The record at the end of the chain behind a declaration. -/
inductive Enters (c : Config) (g : Registry) : Option Request → TypeExpr → String → Prop where
  | record {own : Option Request} {type : TypeExpr} {r : Resolution} {record : String}
    (hr : c.resolve g own type = .ok r) (h : r.record? = some record) : Enters c g own type record
  | wire {own : Option Request} {type w : TypeExpr} {record : String} (hw : c.Becomes g own type w)
    (h : Enters c g none w record) : Enters c g own type record

/-- A record contains another one: a field of it leads there. -/
def Contains (c : Config) (g : Registry) (outer inner : String) : Prop :=
  ∃ found, g.record? outer = some found ∧
    ∃ f ∈ found.fields, c.Enters g (some f.request) f.type inner

/-- A declaration is settled to the end of its chain, where it may be left out for an error that is
reported. -/
inductive Settled (c : Config) (g : Registry) (errors : List DeclError) :
    Option Request → TypeExpr → Prop where
  | error {own : Option Request} {type : TypeExpr} {e : ResolveError}
    (he : c.resolve g own type = .error e) (h : .unresolved e ∈ errors) :
    Settled c g errors own type
  | ok {own : Option Request} {type : TypeExpr} {r : Resolution}
    (hr : c.resolve g own type = .ok r) (h : ∀ w, r.wire? = some w → Settled c g errors none w) :
    Settled c g errors own type

section

variable {c : Config} {g : Registry} {own : Option Request} {type w : TypeExpr}
  {errors more : List DeclError}

theorem Settled.mono (h : c.Settled g errors own type) (hsub : errors ⊆ more) :
    c.Settled g more own type := by
  induction h with
  | error he h => exact .error he (hsub h)
  | ok hr _ ih => exact .ok hr ih

theorem Settled.wire (h : c.Settled g errors own type) (hw : c.Becomes g own type w) :
    c.Settled g errors none w := by
  obtain ⟨r, hr, hw⟩ := hw
  cases h with
  | error he => cases hr.symm.trans he
  | ok hr' h =>
    obtain rfl := Except.ok.inj (hr.symm.trans hr')
    exact h w hw

theorem Settled.reported (h : c.Settled g errors own type) {e : ResolveError}
    (he : c.resolve g own type = .error e) : .unresolved e ∈ errors := by
  cases h with
  | error he' h =>
    obtain rfl := Except.error.inj (he.symm.trans he')
    exact h
  | ok hr => cases hr.symm.trans he

/-- A chain that is settled to its end has one. -/
theorem Settled.endsWithin (h : c.Settled g errors own type) : ∃ n, c.EndsWithin g n own type := by
  induction h with
  | error he =>
    refine ⟨1, fun w hw => ?_⟩
    obtain ⟨r, hr, -⟩ := hw
    cases hr.symm.trans he
  | @ok own type r hr h ih =>
    cases hwire : r.wire? with
    | none =>
      refine ⟨1, fun w hw => ?_⟩
      obtain ⟨r', hr', hw⟩ := hw
      obtain rfl := Except.ok.inj (hr.symm.trans hr')
      rw [hwire] at hw
      cases hw
    | some v =>
      obtain ⟨n, hn⟩ := ih v hwire
      refine ⟨n + 1, fun w hw => ?_⟩
      obtain ⟨r', hr', hw⟩ := hw
      obtain rfl := Except.ok.inj (hr.symm.trans hr')
      rw [hwire, Option.some.injEq] at hw
      exact hw ▸ hn

/-- The record of a declaration is declared. -/
theorem exists_record {r : Resolution} {record : String} (hr : c.resolve g own type = .ok r)
    (h : r.record? = some record) : ∃ found, g.record? record = some found := by
  have hkind : ∃ kind, travelsAs r.encoding.kind = some kind ∧
      ∃ kind', r.elem.map Element.shape = some (.record record kind') := by
    unfold Resolution.record? at h
    split at h
    · next hk hshape =>
      cases h
      exact ⟨.struct, by rw [hk]; rfl, _, hshape⟩
    · next hk hshape =>
      cases h
      exact ⟨.union, by rw [hk]; rfl, _, hshape⟩
    · cases h
  obtain ⟨kind, hkind, kind', hshape⟩ := hkind
  obtain ⟨record', found, hshape', hfound, -⟩ := record_of_resolve hr hkind
  obtain ⟨rfl, -⟩ := ElementShape.record.inj (Option.some.inj (hshape.symm.trans hshape'))
  exact ⟨found, hfound⟩

end

end Config

/-! ## what has been followed -/

namespace Findings

variable {c : Config} {g : Registry} {around : List String} {s t u : Findings}

/-- A record is known, or reported as one that contains itself. -/
def Covers (s : Findings) (record : String) : Prop :=
  (s.records.lookup record).isSome = true ∨ .recursive record ∈ s.errors

/-- What a declaration leads to has been followed. -/
structure Visited (c : Config) (g : Registry) (own : Option Request) (type : TypeExpr)
    (s : Findings) : Prop where
  settled : c.Settled g s.errors own type
  covers : ∀ record, c.Enters g own type record → s.Covers record

/-- What has been found is followed while the records of `around` are taken apart. -/
structure Followed (c : Config) (g : Registry) (around : List String) (s : Findings) : Prop where
  fields : ∀ record members found, s.records.lookup record = some members →
    g.record? record = some found → ∀ f ∈ found.fields,
      c.Settled g s.errors (some f.request) f.type
  order : ∀ front record members back, s.records = front ++ (record, members) :: back →
    back.lookup record = none ∧ ∀ inner, c.Contains g record inner →
      (back.lookup inner).isSome = true ∨ .recursive inner ∈ s.errors
  cut : ∀ record, .recursive record ∈ s.errors →
    record ∈ around ∨ (s.records.lookup record).isSome = true

theorem Covers.mono {record : String} (h : s.Covers record) (hg : s.Grows around t) :
    t.Covers record := by
  refine h.imp (fun h => ?_) fun h => hg.errors.subset h
  obtain ⟨members, hmembers⟩ := Option.isSome_iff_exists.1 h
  rw [hg.kept record members hmembers]
  rfl

theorem Visited.mono {own : Option Request} {type : TypeExpr} (h : s.Visited c g own type)
    (hg : s.Grows around t) : t.Visited c g own type :=
  ⟨h.settled.mono hg.errors.subset, fun record hr => (h.covers record hr).mono hg⟩

/-- A step that stays aside: no records become known, and none is reported to contain itself. -/
structure Aside (s t : Findings) : Prop where
  size : s.size ≤ t.size
  records : t.records = s.records
  errors : s.errors <+: t.errors
  cut : ∀ record, .recursive record ∈ t.errors → .recursive record ∈ s.errors

namespace Aside

theorem refl (s : Findings) : s.Aside s := ⟨Nat.le_refl _, rfl, List.prefix_refl _, fun _ h => h⟩

theorem trans (h : s.Aside t) (h' : t.Aside u) : s.Aside u where
  size := Nat.le_trans h.size h'.size
  records := h'.records.trans h.records
  errors := h.errors.trans h'.errors
  cut record hr := h.cut record (h'.cut record hr)

theorem grows (h : s.Aside t) : s.Grows around t where
  size := h.size
  errors := h.errors
  kept := by
    rw [h.records]
    exact fun _ _ hn => hn
  around := by
    rw [h.records]
    exact fun _ _ => rfl

/-- What is followed stays so. -/
theorem followed (h : s.Aside t) (hs : s.Followed c g around) : t.Followed c g around where
  fields record members found hn hfound f hf := by
    rw [h.records] at hn
    exact (hs.fields record members found hn hfound f hf).mono h.errors.subset
  order front record members back hrecords := by
    obtain ⟨hnew, hinner⟩ := hs.order front record members back (h.records.symm.trans hrecords)
    exact ⟨hnew, fun inner hi => (hinner inner hi).imp_right fun he => h.errors.subset he⟩
  cut record hr := by
    rw [h.records]
    exact hs.cut record (h.cut record hr)

end Aside

end Findings

/-! ## faults -/

/-- An error other than that a record contains itself. -/
def DeclError.IsFault (e : DeclError) : Prop := ∀ record, e ≠ .recursive record

namespace Decl

theorem isFault_of_wireFault? {d : Decl} {e : DeclError} (h : wireFault? d = some e) :
    e.IsFault := by
  rintro record rfl
  unfold wireFault? at h
  (repeat' split at h) <;> cases h

theorem isFault_of_tagFault? {kind : RecordKind} {ds : List Decl} {k : Nat} {d : Decl}
    {e : DeclError} (h : tagFault? kind ds k d = some e) : e.IsFault := by
  rintro record rfl
  unfold tagFault? at h
  (repeat' split at h) <;> cases h

theorem isFault_of_external (d : Decl) {e : DeclError}
    (h : (if d.isExternal then some DeclError.outsideStruct else none) = some e) : e.IsFault := by
  rintro record rfl
  split at h <;> cases h

theorem isFault_of_idFault? {union : String} {seen : List (Int × String)} {ds : List Decl}
    {e : DeclError} (h : idFault? union seen ds = some e) : e.IsFault := by
  rintro record rfl
  induction ds generalizing seen with
  | nil => cases h
  | cons d ds ih =>
    unfold idFault? at h
    split at h
    · split at h
      · cases h
      · exact ih h
    · split at h
      · exact ih h
      · cases h

theorem isFault_of_checkVariants {union tag : String} {internal : Bool} {ds : List Decl}
    {g : Registry} {e : DeclError} (h : checkVariants g union tag internal ds = .error e) :
    e.IsFault := by
  unfold checkVariants at h
  split at h
  · next hid =>
    cases h
    exact isFault_of_idFault? hid
  · rintro record rfl
    simp only [internalTag] at h
    (repeat' split at h) <;> cases h

end Decl

namespace Building

open Findings

variable {α β : Type} {c : Config} {g : Registry} {around : List String} {s t : Findings}

theorem report_aside {e : DeclError} (he : e.IsFault) {u : Unit} (h : report e s = some (u, t)) :
    s.Aside t := by
  cases h
  refine ⟨Nat.le_refl _, rfl, List.prefix_append .., fun record hr => ?_⟩
  rcases List.mem_append.1 hr with hr | hr
  · exact hr
  · exact absurd (List.mem_singleton.1 hr).symm (he record)

theorem unlessFault_aside {d d' : Decl} {fault : Option DeclError}
    (hfault : ∀ e, fault = some e → e.IsFault) (h : unlessFault d fault s = some (d', t)) :
    s.Aside t := by
  cases fault with
  | none =>
    obtain ⟨-, rfl⟩ := pure_inv h
    exact .refl _
  | some e =>
    obtain ⟨u, m, hr, hp⟩ := bind_inv h
    obtain ⟨-, rfl⟩ := pure_inv hp
    exact report_aside (hfault e rfl) hr

theorem checkedVariants_aside {u : Selection} {variants : List Decl} {outcome : Option Nat}
    (h : checkedVariants g u variants s = some (outcome, t)) : s.Aside t := by
  unfold checkedVariants at h
  obtain ⟨now, m, hget, h⟩ := bind_inv h
  cases hget
  cases hfound : s.unions.lookup u with
  | some found =>
    simp only [hfound] at h
    obtain ⟨-, rfl⟩ := pure_inv h
    exact .refl _
  | none =>
    simp only [hfound] at h
    cases hok : Decl.checkVariants g u.union u.tag u.internal variants with
    | ok n =>
      simp only [hok] at h
      cases h
      exact ⟨Nat.le_refl _, rfl, List.prefix_refl _, fun _ hr => hr⟩
    | error e =>
      simp only [hok] at h
      obtain ⟨r, m, hr, h⟩ := bind_inv h
      have haside := report_aside (Decl.isFault_of_checkVariants hok) hr
      cases h
      exact haside.trans ⟨Nat.le_refl _, rfl, List.prefix_refl _, fun _ hr => hr⟩

theorem checked_aside {d d' : Decl} (h : checked g d s = some (d', t)) : s.Aside t := by
  have hpure {d d' : Decl} (h : (pure d : Building Decl) s = some (d', t)) : s.Aside t := by
    obtain ⟨-, rfl⟩ := pure_inv h
    exact .refl _
  obtain ⟨⟨number, name, type, shape, extents, ⟨kind, dflt, id⟩, shared⟩, members, wire⟩ := d
  cases kind with
  | transformed tr =>
    cases wire with
    | none => exact hpure h
    | some w => exact unlessFault_aside (fun e he => Decl.isFault_of_wireFault? he) h
  | union tag internal =>
    cases shape with
    | none => exact hpure h
    | some shape =>
      cases shape with
      | record record kind =>
        obtain ⟨outcome, u, hv, hp⟩ := bind_inv h
        have haside := checkedVariants_aside hv
        cases outcome <;> obtain ⟨-, rfl⟩ := pure_inv hp <;> exact haside
      | _ => exact hpure h
  | _ => exact hpure h

theorem mapM_aside {f : α → Building β} (hf : ∀ a s b t, f a s = some (b, t) → s.Aside t)
    {xs : List α} {bs : List β} {s : Findings} (h : xs.mapM f s = some (bs, t)) : s.Aside t := by
  induction xs generalizing bs s with
  | nil =>
    obtain ⟨-, rfl⟩ := pure_inv h
    exact .refl _
  | cons x xs ih =>
    rw [List.mapM_cons] at h
    obtain ⟨b, u, hx, h⟩ := bind_inv h
    obtain ⟨rest, v, hxs, h⟩ := bind_inv h
    obtain ⟨-, rfl⟩ := pure_inv h
    exact (hf x s b u hx).trans (ih hxs)

theorem checkedTags_aside {kind : RecordKind} {members checked : List Decl}
    (h : checkedTags kind members s = some (checked, t)) : s.Aside t :=
  mapM_aside (fun _ _ _ _ h => unlessFault_aside (fun _ he => Decl.isFault_of_tagFault? he) h) h

theorem declare_aside {info : Nat → DeclInfo} {members : List Decl} {wire : Option Decl} {d : Decl}
    (h : declare info members wire s = some (d, t)) : s.Aside t := by
  obtain ⟨-, rfl⟩ := declare_run h
  exact ⟨Nat.le_succ _, rfl, List.prefix_refl _, fun _ hr => hr⟩

/-! ## steps -/

/-- A step keeps what is found followed, and leads to `P`. -/
def Follows (c : Config) (g : Registry) (around : List String) (x : Building α)
    (P : Findings → Prop) : Prop :=
  ∀ s a t, x s = some (a, t) → s.Grows around t ∧
    (s.Followed c g around → t.Followed c g around ∧ P t)

namespace Follows

variable {P Q : Findings → Prop}

theorem of_aside {x : Building α} (h : ∀ s a t, x s = some (a, t) → s.Aside t) :
    Follows c g around x fun _ => True := fun s a t hx =>
  ⟨(h s a t hx).grows, fun hs => ⟨(h s a t hx).followed hs, trivial⟩⟩

theorem pure (a : α) : Follows c g around (pure a) fun _ => True :=
  .of_aside fun s b t h => by
    obtain ⟨-, rfl⟩ := pure_inv h
    exact .refl _

theorem imp {x : Building α} (h : Follows c g around x P) (hPQ : ∀ s, P s → Q s) :
    Follows c g around x Q := fun s a t hx =>
  ⟨(h s a t hx).1, fun hs => ((h s a t hx).2 hs).imp_right (hPQ t)⟩

/-- Of two steps, what the first leads to must not get lost. -/
theorem bind {x : Building α} {f : α → Building β}
    (hP : ∀ s t, s.Grows around t → P s → P t) (hx : Follows c g around x P)
    (hf : ∀ a, Follows c g around (f a) Q) :
    Follows c g around (x >>= f) fun t => P t ∧ Q t := by
  intro s b t h
  obtain ⟨a, u, hxu, hfu⟩ := bind_inv h
  obtain ⟨hg, hx⟩ := hx s a u hxu
  obtain ⟨hg', hf⟩ := hf a u b t hfu
  refine ⟨hg.trans hg', fun hs => ?_⟩
  obtain ⟨hu, hPu⟩ := hx hs
  obtain ⟨ht, hQt⟩ := hf hu
  exact ⟨ht, hP u t hg' hPu, hQt⟩

/-- A step whose result is changed. -/
theorem map {x : Building α} (f : α → β) (hx : Follows c g around x P) :
    Follows c g around (f <$> x) P := by
  intro s b t h
  obtain ⟨a, ha, -⟩ := map_inv h
  exact hx s a t ha

/-- Steps for all entries of a list. -/
theorem mapM {f : α → Building β} {P : α → Findings → Prop}
    (hP : ∀ x s t, s.Grows around t → P x s → P x t) {xs : List α}
    (hf : ∀ x ∈ xs, Follows c g around (f x) (P x)) :
    Follows c g around (xs.mapM f) fun t => ∀ x ∈ xs, P x t := by
  induction xs with
  | nil => exact (Follows.pure []).imp fun _ _ _ hx => nomatch hx
  | cons x xs ih =>
    obtain ⟨hx, hxs⟩ := List.forall_mem_cons.1 hf
    rw [List.mapM_cons]
    refine imp (.bind (hP x) hx fun b => .bind (fun s t hg h x hx => hP x s t hg (h x hx)) (ih hxs)
      fun rest => .pure _) fun s h => ?_
    exact List.forall_mem_cons.2 ⟨h.1, h.2.1⟩

end Follows

theorem report_follows {e : DeclError} (he : e.IsFault) :
    Follows c g around (report e) fun t => e ∈ t.errors := by
  intro s u t h
  have haside := report_aside he h
  refine ⟨haside.grows, fun hs => ⟨haside.followed hs, ?_⟩⟩
  cases h
  exact List.mem_append_right _ (List.mem_singleton_self e)

/-- Taking records apart covers them. -/
def Enterable (c : Config) (g : Registry) (around : List String)
    (membersOf : String → Building (List Decl)) : Prop :=
  ∀ record found, g.record? record = some found →
    Follows c g around (membersOf record) (Covers · record)

/-- Behind the resolution of a declaration, what it leads to is visited. -/
theorem rest_follows {membersOf : String → Building (List Decl)}
    (hmembers : Enterable c g around membersOf) {make : TypeExpr → Building Decl}
    (hmake : ∀ w, Follows c g around (make w) (Visited c g none w)) {r : Resolution}
    (hr : ∀ record, r.record? = some record → ∃ found, g.record? record = some found)
    (info : Nat → DeclInfo) :
    Follows c g around (do
      let members ← membersFor membersOf r.encoding.kind (r.elem.map Element.shape)
      let wire ← wireFor make r.encoding.kind
      let d ← declare info members wire
      checked g d) fun t =>
        (∀ record, r.record? = some record → t.Covers record) ∧
          ∀ w, r.wire? = some w → t.Visited c g none w := by
  rw [membersFor_record, wireFor_wire]
  have hchecked (members : List Decl) (wire : Option Decl) :
      Follows c g around (declare info members wire >>= fun d => checked g d) fun _ => True :=
    (Follows.bind (fun _ _ _ h => h) (.of_aside fun _ _ _ h => declare_aside h)
      fun d => .of_aside fun _ _ _ h => checked_aside h).imp fun _ _ => trivial
  refine .imp (.bind (fun s t hg h record hr => (h record hr).mono hg) ?_ fun members =>
    .bind (fun s t hg h w hw => (h w hw).mono hg) ?_ fun wire => hchecked members wire)
      fun t h => ⟨h.1, h.2.1⟩
  · cases hrecord : r.record? with
    | none => exact (Follows.pure _).imp fun _ _ _ h => nomatch h
    | some record =>
      obtain ⟨found, hfound⟩ := hr record hrecord
      refine (hmembers record found hfound).imp fun t h record' heq => ?_
      rwa [← Option.some.inj heq]
  · cases hwire : r.wire? with
    | none => exact (Follows.pure _).imp fun _ _ _ h => nomatch h
    | some w =>
      refine (Follows.map _ (hmake w)).imp fun t h w' heq => ?_
      rwa [← Option.some.inj heq]

/-- Making a declaration visits what it leads to. -/
theorem build_follows {membersOf : String → Building (List Decl)}
    (hmembers : Enterable c g around membersOf) (budget : Nat) (name : String) (type : TypeExpr)
    (own : Option Request) :
    Follows c g around (build c g membersOf budget name type own) (Visited c g own type) := by
  induction budget generalizing type own with
  | zero =>
    intro s d t h
    cases h
  | succ budget ih =>
    rw [build_succ, resolution]
    cases hr : c.resolve g own type with
    | ok r =>
      rw [pure_bind]
      refine (rest_follows hmembers (fun w => ih w none) (fun record h => ?_) _).imp fun t h => ?_
      · exact Config.exists_record hr h
      · refine ⟨.ok hr fun w hw => (h.2 w hw).settled, fun record hrecord => ?_⟩
        cases hrecord with
        | record hr' hrecord =>
          obtain rfl := Except.ok.inj (hr.symm.trans hr')
          exact h.1 record hrecord
        | wire hw hrecord =>
          obtain ⟨r', hr', hw⟩ := hw
          obtain rfl := Except.ok.inj (hr.symm.trans hr')
          exact (h.2 _ hw).covers record hrecord
    | error e =>
      rw [bind_assoc]
      have hfault : (DeclError.unresolved e).IsFault := by
        intro record h
        cases h
      have hnone : ∀ record, (⟨.dropped, [], none⟩ : Resolution).record? = some record →
          ∃ found, g.record? record = some found := by
        intro record h
        cases h
      refine (Follows.bind (fun s t hg h => hg.errors.subset h) (report_follows hfault)
        fun _ => ?_).imp (fun t h => ?_) (P := fun t => .unresolved e ∈ t.errors ∧ True)
      · rw [pure_bind]
        exact (rest_follows hmembers (fun w => ih w none)
          hnone _).imp fun _ _ => trivial
      · refine ⟨.error hr h.1, fun record hrecord => ?_⟩
        cases hrecord with
        | record hr' => cases hr.symm.trans hr'
        | wire hw =>
          obtain ⟨r, hr', -⟩ := hw
          cases hr.symm.trans hr'

/-- A report that a record contains itself keeps everything followed, if the record stands
around. -/
theorem followed_of_cut {record : String} (hs : s.Followed c g around) (h : record ∈ around) :
    Findings.Followed c g around { s with errors := s.errors ++ [.recursive record] } where
  fields name members found hn hfound f hf :=
    (hs.fields name members found hn hfound f hf).mono (List.subset_append_left _ _)
  order front name members back hrecords := by
    obtain ⟨hnew, hinner⟩ := hs.order front name members back hrecords
    exact ⟨hnew, fun inner hi => (hinner inner hi).imp_right (List.mem_append_left _)⟩
  cut name hn := by
    rcases List.mem_append.1 hn with hn | hn
    · exact hs.cut name hn
    · cases List.mem_singleton.1 hn
      exact .inl h

/-- A record becomes known when all its fields have been visited. -/
theorem followed_of_record {record : String} {found : Record} (members : List Decl)
    (hs : s.Followed c g (record :: around)) (hnone : s.records.lookup record = none)
    (hfound : g.record? record = some found)
    (hfields : ∀ f ∈ found.fields, s.Visited c g (some f.request) f.type) :
    Findings.Followed c g around { s with records := (record, members) :: s.records } where
  fields name ms found' hn hfound' f hf := by
    rw [List.lookup_cons] at hn
    split at hn
    · next heq =>
      rw [beq_iff_eq] at heq
      subst heq
      obtain rfl := Option.some.inj (hfound.symm.trans hfound')
      exact (hfields f hf).settled
    · exact hs.fields name ms found' hn hfound' f hf
  order front name ms back hrecords := by
    cases front with
    | nil =>
      cases hrecords
      refine ⟨hnone, fun inner hinner => ?_⟩
      obtain ⟨found', hfound', f, hf, henters⟩ := hinner
      obtain rfl := Option.some.inj (hfound.symm.trans hfound')
      exact (hfields f hf).covers inner henters
    | cons x front => exact hs.order front name ms back (List.cons.inj hrecords).2
  cut name hn := by
    rw [List.lookup_cons]
    split
    · exact .inr rfl
    · next hne =>
      rw [beq_eq_false_iff_ne] at hne
      exact (hs.cut name hn).imp_left fun h => (List.mem_cons.1 h).resolve_left hne

/-- Taking a record apart covers it, and visits its fields. -/
theorem membersOf_follows (c : Config) (g : Registry) (depth : Nat) (around : List String) :
    Enterable c g around (membersOf c g depth around) := by
  induction depth using Nat.strongRecOn generalizing around with
  | ind depth ih =>
  intro record found hfound s members t h
  refine ⟨(membersOf_run c g depth around record s members t h).1, fun hs => ?_⟩
  rcases membersOf_cases h with ⟨hlookup, rfl⟩ | ⟨haround, -, u, hr⟩ | ⟨hnone, -⟩ |
    ⟨found', rest, ds, u, v, rfl, hlookup, haround, hfound', hds, hms, rfl⟩
  · exact ⟨hs, .inl (by rw [hlookup]; rfl)⟩
  · cases hr
    exact ⟨followed_of_cut hs haround, .inr (List.mem_append_right _ (List.mem_singleton_self _))⟩
  · rw [hfound] at hnone
    cases hnone
  · obtain rfl := Option.some.inj (hfound.symm.trans hfound')
    have hs' : s.Followed c g (record :: around) :=
      ⟨hs.fields, hs.order, fun name hn => (hs.cut name hn).imp_left (List.mem_cons_of_mem _)⟩
    have hinner := ih rest (Nat.lt_succ_self _) (record :: around)
    have hfollows : Follows c g (record :: around)
        (found.fields.mapM (field c g rest (record :: around))) fun t =>
          ∀ f ∈ found.fields, t.Visited c g (some f.request) f.type :=
      .mapM (fun f s t hg h => h.mono hg) fun f _ => build_follows hinner _ _ _ _
    obtain ⟨hg, hfields⟩ := hfollows s ds u hds
    obtain ⟨hu, hvisited⟩ := hfields hs'
    have haside := checkedTags_aside hms
    have hnone : v.records.lookup record = none := by
      rw [haside.records, hg.around record List.mem_cons_self, hlookup]
    refine ⟨followed_of_record members (haside.followed hu) hnone hfound fun f hf => ?_, .inl ?_⟩
    · exact (hvisited f hf).mono (haside.grows : u.Grows around v)
    · simp

theorem object_follows (c : Config) (g : Registry) (o : DataObject) :
    Follows c g [] (object c g o) (Visited c g none o.type) := by
  rw [object_eq]
  refine (Follows.bind (fun s t hg h => h.mono hg)
    (build_follows (membersOf_follows c g g.records.length []) (wireBudget c g) o.name o.type none)
    fun d => .of_aside fun _ _ _ h =>
      unlessFault_aside (fun _ he => d.isFault_of_external he) h).imp fun t h => h.1

end Building

/-! ## models -/

namespace Model

variable {c : Config} {g : Registry} {m : Model} {own : Option Request} {type : TypeExpr}

/-- What has been found in the end: all data objects are visited, and no record is left. -/
theorem followed_of_build (h : Model.build c g = some m) : ∃ s : Findings,
    s.records = m.records ∧ s.errors = m.errors ∧ s.Followed c g [] ∧
      ∀ o ∈ c.objects, s.Visited c g none o.type := by
  obtain ⟨⟨groups, s⟩, hrun, rfl⟩ := Option.map_eq_some_iff.1 h
  have hgroup (os : List DataObject) : Building.Follows c g [] (os.mapM (Building.object c g))
      fun t => ∀ o ∈ os, t.Visited c g none o.type :=
    .mapM (fun o s t hg h => h.mono hg) fun o _ => Building.object_follows c g o
  have hgroups : Building.Follows c g [] (c.groups.mapM (List.mapM (Building.object c g)))
      fun t => ∀ os ∈ c.groups, ∀ o ∈ os, t.Visited c g none o.type :=
    .mapM (fun os s t hg h o ho => (h o ho).mono hg) fun os _ => hgroup os
  have hempty : Findings.Followed c g [] ⟨0, [], [], []⟩ := by
    refine ⟨fun _ _ _ hn => (nomatch hn), fun front _ _ _ h => ?_, fun _ h => (nomatch h)⟩
    cases front <;> cases h
  obtain ⟨hs, hvisited⟩ := (hgroups _ _ _ hrun).2 hempty
  refine ⟨s, rfl, rfl, hs, fun o ho => ?_⟩
  obtain ⟨os, hos, ho⟩ := List.mem_flatten.1 ho
  exact hvisited os hos o ho

theorem isSome_lookup_append {α : Type} {front back : List (String × α)} {name : String}
    (h : (back.lookup name).isSome = true) : ((front ++ back).lookup name).isSome = true := by
  rw [List.lookup_append, Option.isSome_or, h, Bool.or_true]

/-- When no record stands around any more, every record that is covered is known. -/
theorem known_of_covers {s : Findings} {record : String} (hs : s.Followed c g [])
    (h : s.Covers record) : ∃ members, s.records.lookup record = some members := by
  have hknown : (s.records.lookup record).isSome = true :=
    h.elim id fun hcut => (hs.cut record hcut).resolve_left List.not_mem_nil
  exact Option.isSome_iff_exists.1 hknown

/-- In the end, all that is declared is visited. -/
theorem visited_of_declared {s : Findings} (hs : s.Followed c g [])
    (hobjects : ∀ o ∈ c.objects, s.Visited c g none o.type) (h : c.Declared g own type) :
    s.Visited c g own type := by
  induction h with
  | object ho => exact hobjects _ ho
  | wire h hw ih => exact ⟨ih.settled.wire hw, fun record hr => ih.covers record (.wire hw hr)⟩
  | @field own type r record found f h hr hrecord hfound hf ih =>
    obtain ⟨members, hmembers⟩ := known_of_covers hs (ih.covers record (.record hr hrecord))
    refine ⟨hs.fields record members found hmembers hfound f hf, fun inner hinner => ?_⟩
    obtain ⟨front, back, hsplit, -⟩ := List.lookup_eq_some_iff.1 hmembers
    have hcontains : c.Contains g record inner := ⟨found, hfound, f, hf, hinner⟩
    refine ((hs.order front record members back hsplit).2 inner hcontains).imp_left fun hback => ?_
    rw [hsplit, List.append_cons]
    exact isSome_lookup_append hback

/-- Along a cycle of records of which none is reported, records become known from the inside out. -/
theorem known_behind {s : Findings} (hs : s.Followed c g [])
    {front back : List (String × List Decl)} {outer inner : String} {members : List Decl}
    (hsplit : s.records = front ++ (outer, members) :: back)
    (hunreported : ∀ r, Relation.TransGen (c.Contains g) outer r →
      Relation.TransGen (c.Contains g) r outer → .recursive r ∉ s.errors)
    (h : Relation.TransGen (c.Contains g) outer inner)
    (hreturn : Relation.TransGen (c.Contains g) inner outer) :
    (back.lookup inner).isSome = true := by
  induction h with
  | single hcontains =>
    refine ((hs.order front outer members back hsplit).2 _ hcontains).resolve_right ?_
    exact hunreported _ (.single hcontains) hreturn
  | @tail between inner hfront hcontains ih =>
    obtain ⟨ms, hms⟩ := Option.isSome_iff_exists.1 (ih (.head hcontains hreturn))
    obtain ⟨front', back', hback, -⟩ := List.lookup_eq_some_iff.1 hms
    have hsplit' : s.records =
        (front ++ (outer, members) :: front') ++ (between, ms) :: back' := by
      rw [hsplit, hback, List.append_assoc]
      rfl
    have hinner := ((hs.order _ between ms back' hsplit').2 inner hcontains).resolve_right
      (hunreported _ (hfront.tail hcontains) hreturn)
    rw [hback, List.append_cons]
    exact isSome_lookup_append hinner

/-- A record that contains itself is reported, or another one on the way is. -/
theorem recursive_of_cycle {s : Findings} (hs : s.Followed c g []) {record : String}
    (hknown : (s.records.lookup record).isSome = true)
    (hcycle : Relation.TransGen (c.Contains g) record record) :
    ∃ r, Relation.TransGen (c.Contains g) record r ∧ Relation.TransGen (c.Contains g) r record ∧
      .recursive r ∈ s.errors := by
  by_contra hnone
  simp only [not_exists, not_and] at hnone
  obtain ⟨members, hmembers⟩ := Option.isSome_iff_exists.1 hknown
  obtain ⟨front, back, hsplit, -⟩ := List.lookup_eq_some_iff.1 hmembers
  have hback := known_behind hs hsplit hnone hcycle hcycle
  rw [(hs.order front record members back hsplit).1] at hback
  cases hback

end Model

/-! ## aliases -/

namespace Registry

variable {g : Registry} {type target : TypeExpr}

/-- Unfolding a type goes on with another one: the element of an array, or the target of an
alias. -/
def UnfoldsTo (g : Registry) (type target : TypeExpr) : Prop :=
  match type.unwrapped with
  | .array elem _ => target = elem
  | .name name => ElementShape.primitive? name = none ∧ g.record? name = none ∧
      ∃ found, g.alias? name = some found ∧ target = found.target
  | _ => False

/-- Unfolding a type leads into a cycle. -/
def Circular (g : Registry) (type : TypeExpr) : Prop :=
  ∃ target, Relation.ReflTransGen g.UnfoldsTo type target ∧
    Relation.TransGen g.UnfoldsTo target target

/-- If a type can be unfolded, so can what unfolding goes on with, in one step less. -/
theorem unfold_of_unfoldsTo {budget : Nat} {t : TypeRef} (h : g.unfold (budget + 1) type = .ok t)
    (hto : g.UnfoldsTo type target) : ∃ t', g.unfold budget target = .ok t' := by
  unfold UnfoldsTo at hto
  rw [unfold] at h
  split at hto
  · next elem length heq =>
    subst hto
    simp only [heq] at h
    cases hextent : arrayExtent length with
    | error e => simp [hextent, bind, Except.bind] at h
    | ok extent =>
      cases hinner : g.unfold budget target with
      | error e => simp [hextent, hinner, bind, Except.bind] at h
      | ok inner => exact ⟨inner, rfl⟩
  · next name heq =>
    obtain ⟨hprimitive, hrecord, found, halias, rfl⟩ := hto
    simp only [heq, hprimitive, hrecord, halias] at h
    cases hinner : g.unfold budget found.target with
    | error e => simp [hinner, Except.map] at h
    | ok inner => exact ⟨inner, rfl⟩
  · exact hto.elim

/-- A type that unfolding comes back to cannot be unfolded. -/
theorem unfold_of_cycle (h : Relation.TransGen g.UnfoldsTo type type) (budget : Nat) (t : TypeRef) :
    g.unfold budget type ≠ .ok t := by
  induction budget generalizing type t with
  | zero => exact fun hok => nomatch hok
  | succ budget ih =>
    intro hok
    obtain ⟨next, hnext, hback⟩ := Relation.TransGen.head'_iff.1 h
    obtain ⟨t', hok'⟩ := unfold_of_unfoldsTo hok hnext
    exact ih (Relation.TransGen.tail' hback hnext) t' hok'

/-- **Cycles of aliases** cannot be laid out. -/
theorem resolveType_of_circular (h : g.Circular type) : ∃ e, g.resolveType type = .error e := by
  obtain ⟨target, hreach, hcycle⟩ := h
  have hfails (budget : Nat) (t : TypeRef) : g.unfold budget type ≠ .ok t := by
    induction hreach using Relation.ReflTransGen.head_induction_on generalizing budget t with
    | refl => exact unfold_of_cycle hcycle budget t
    | head hto _ ih =>
      intro hok
      cases budget with
      | zero => cases hok
      | succ budget =>
        obtain ⟨t', hok'⟩ := unfold_of_unfoldsTo hok hto
        exact ih budget t' hok'
  cases hresolve : g.resolveType type with
  | error e => exact ⟨e, rfl⟩
  | ok t => exact (hfails _ t hresolve).elim

end Registry

/-- A declaration needs the type that it is written with, unless its own request leaves it out or
transforms it. -/
def Request.NeedsType (own : Option Request) : Prop :=
  ∀ r, own = some r → r.omitted = false ∧ ∀ t, r.form ≠ some (.transform t)

/-- A declaration of a type that cannot be laid out is refused for it, if it needs the type. -/
theorem Config.resolve_of_typeError {c : Config} {g : Registry} {own : Option Request}
    {type : TypeExpr} {e : TypeError} (h : g.resolveType type = .error e)
    (hneeds : Request.NeedsType own) : c.resolve g own type = .error (.type e) := by
  unfold resolve
  cases own with
  | none => simp only [Option.filter_none, h]
  | some r =>
    obtain ⟨hkept, hform⟩ := hneeds r rfl
    rw [Option.filter_some_neg (by simp [hkept])]
    simp only [h]

/-! ## all cycles -/

/-- The cycles that building cuts off with an error: types that cannot be laid out, among them all
cycles of aliases, and records that contain themselves. -/
structure Model.Cuts (c : Config) (g : Registry) (m : Model) : Prop where
  unresolved : ∀ own type e, c.Declared g own type → c.resolve g own type = .error e →
    .unresolved e ∈ m.errors
  aliases : ∀ own type, c.Declared g own type → Request.NeedsType own → g.Circular type →
    ∃ e, .unresolved (.type e) ∈ m.errors
  records : ∀ record, c.Meets g record → Relation.TransGen (c.Contains g) record record →
    ∃ r, Relation.TransGen (c.Contains g) record r ∧ Relation.TransGen (c.Contains g) r record ∧
      .recursive r ∈ m.errors

/-- A model that is built has cut off all cycles, and no type on the wire comes back to itself. -/
theorem Model.cuts_of_build {c : Config} {g : Registry} {m : Model} (h : Model.build c g = some m) :
    m.Cuts c g ∧ ∀ w, c.Declared g none w → ¬ Relation.TransGen (c.Leads g) w w := by
  obtain ⟨s, -, herrors, hs, hobjects⟩ := followed_of_build h
  have hvisited {own : Option Request} {type : TypeExpr} (hd : c.Declared g own type) :=
    visited_of_declared hs hobjects hd
  have hunresolved (own : Option Request) (type : TypeExpr) (e : ResolveError)
      (hd : c.Declared g own type) (he : c.resolve g own type = .error e) :
      .unresolved e ∈ m.errors := herrors ▸ (hvisited hd).settled.reported he
  refine ⟨⟨hunresolved, fun own type hd hneeds hcircular => ?_, fun record hmeets hcycle => ?_⟩,
    fun w hw => ?_⟩
  · obtain ⟨e, he⟩ := Registry.resolveType_of_circular hcircular
    exact ⟨e, hunresolved own type _ hd (Config.resolve_of_typeError he hneeds)⟩
  · obtain ⟨own, type, r, hd, hr, hrecord⟩ := hmeets
    have hknown := known_of_covers hs ((hvisited hd).covers record (.record hr hrecord))
    rw [← herrors]
    exact recursive_of_cycle hs (Option.isSome_iff_exists.2 hknown) hcycle
  · obtain ⟨n, hn⟩ := (hvisited hw).settled.endsWithin
    exact hn.acyclic

/-- Building does not return where a type on the wire comes back to itself. -/
theorem Model.build_eq_none_iff {c : Config} {g : Registry} : Model.build c g = none ↔
    ∃ w, c.Declared g none w ∧ Relation.TransGen (c.Leads g) w w := by
  constructor
  · intro hnone
    by_contra hno
    push Not at hno
    have hsome := Model.isSome_build hno
    rw [hnone] at hsome
    cases hsome
  · rintro ⟨w, hw, hcycle⟩
    by_contra hsome
    obtain ⟨m, hm⟩ := Option.ne_none_iff_exists'.1 hsome
    exact (Model.cuts_of_build hm).2 w hw hcycle

/-- **Building ends unless types on the wire form a cycle.** Building returns if, and only if, no
type on the wire comes back to itself. When it does, every cycle of aliases and every cycle of
records that is met has been cut off with an error. -/
theorem Model.builds_unless_wires_cycle (c : Config) (g : Registry) :
    ((Model.build c g).isSome = true ↔
      ∀ w, c.Declared g none w → ¬ Relation.TransGen (c.Leads g) w w) ∧
    ∀ m, Model.build c g = some m → m.Cuts c g := by
  refine ⟨⟨fun h => ?_, Model.isSome_build⟩, fun m h => (Model.cuts_of_build h).1⟩
  obtain ⟨m, hm⟩ := Option.isSome_iff_exists.1 h
  exact (Model.cuts_of_build hm).2

namespace Sample

/-- An alias whose values travel as values of the same alias, and a struct with such a field. -/
def endless : Registry where
  records := [⟨"S", .struct, [⟨"a", .name "W", Request.empty⟩], Request.empty, false⟩]
  aliases := [⟨"W", .name "u8",
    { Request.empty with form := some (.transform ⟨.name "W", .ofWord "f", .ofWord "g"⟩) }⟩]

/-- One data object, a struct. -/
def oneStruct : Config := { config with groups := [[⟨"obj", .name "S"⟩]] }

/-- The alias comes back to itself as a type on the wire, and that is not cut off: building does not
return. -/
theorem build_endless : (∃ w, oneStruct.Declared endless none w ∧ oneStruct.Leads endless w w) ∧
    Model.build oneStruct endless = none := by
  refine ⟨⟨.name "W", ?_, ?_⟩, by decide +kernel⟩
  · have hobject : oneStruct.Declared endless none (.name "S") :=
      .object (o := ⟨"obj", .name "S"⟩) (List.mem_singleton_self _)
    have hfield : oneStruct.Declared endless (some Request.empty) (.name "W") :=
      .field (f := ⟨"a", .name "W", Request.empty⟩) hobject rfl rfl rfl (List.mem_singleton_self _)
    exact .wire hfield ⟨_, rfl, rfl⟩
  · exact ⟨_, rfl, rfl⟩

/-- An alias that stands for itself, and a struct with a field of it and one of its own type. -/
def looping : Registry where
  records := [⟨"S", .struct, [⟨"a", .name "A", Request.empty⟩, ⟨"s", .name "S", Request.empty⟩],
    Request.empty, false⟩]
  aliases := [⟨"A", .name "A", Request.empty⟩]

theorem build_looping : (Model.build oneStruct looping).map (·.errors) =
    some [.unresolved (.type .tooDeep), .recursive "S"] := by decide +kernel

/-- Without a transform, both cycles are cut off, each with an error. -/
theorem cycles_cut_off : ∃ m, Model.build oneStruct looping = some m ∧ m.Cuts oneStruct looping ∧
    m.errors = [.unresolved (.type .tooDeep), .recursive "S"] := by
  obtain ⟨m, hm, herrors⟩ := Option.map_eq_some_iff.1 build_looping
  exact ⟨m, hm, (Model.builds_unless_wires_cycle oneStruct looping).2 m hm, herrors⟩

end Sample

end BitLayout
