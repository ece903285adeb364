import BitLayout.Proofs.Decl.Forgetful
import BitLayout.Proofs.Decl.Recursion
import BitLayout.Proofs.Decl.Unnumbered

/-!
# BitLayout.Proofs.Decl.Sharing

What building remembers makes no difference. The members of a record are found once and shared by
all its uses, and the variants of a union are checked once for a tag; a builder without memory does
both again for every use. The two make the same declarations, up to numbers, and come to report the
same errors, as long as no record contains itself:

```
       remembered                          made without memory
record, members          members.unnumbered, errors that are reported
selection, outcome       outcome           , errors that are reported
```

The invariant `Findings.Recalled` carries this along a run.

* `Building.membersOf_recalls`, `Building.object_recalls`: the steps of building do what those
  without memory do;
* `Model.forgetful_of_build`: so does a run.

Main statement: `Model.objects_apart`.
-/

namespace BitLayout

/-! ## what is remembered -/

namespace Findings

/-- Everything that is remembered is what is made without memory, and the errors on the way are
reported. -/
structure Recalled (c : Config) (g : Registry) (s : Findings) : Prop where
  records : ∀ record members, s.records.lookup record = some members → ∃ es,
    Forgetful.Settles (fun budget => Forgetful.membersOf g (Forgetful.field c g budget) record)
      (members.map Decl.unnumbered, es) ∧ es ⊆ s.errors
  unions : ∀ u outcome, s.unions.lookup u = some outcome → ∃ variants es es',
    Forgetful.Settles (fun budget => Forgetful.membersOf g (Forgetful.field c g budget) u.union)
      (variants, es) ∧
    (Forgetful.checkedVariants g u variants).run = some (outcome, es') ∧ es' ⊆ s.errors

/-- A step has come to report some errors. -/
def Reports (s t : Findings) (es : List DeclError) : Prop :=
  ∀ e, e ∈ t.errors ↔ e ∈ s.errors ∨ e ∈ es

section

variable {c : Config} {g : Registry} {s t u : Findings} {es es' : List DeclError}

theorem Reports.trans (h : s.Reports t es) (h' : t.Reports u es') : s.Reports u (es ++ es') := by
  intro e
  rw [h' e, h e, List.mem_append, or_assoc]

/-- Errors that have been reported need not be reported again. -/
theorem Reports.of_subset (h : es ⊆ s.errors) : s.Reports s es :=
  fun _ => ⟨.inl, fun he => he.elim id (h ·)⟩

theorem Reports.subset (h : s.Reports t es) : es ⊆ t.errors := fun e he => (h e).2 (.inr he)

/-- What is remembered does not change while only errors are added. -/
theorem Recalled.of_same (h : s.Recalled c g) (hrecords : t.records = s.records)
    (hunions : t.unions = s.unions) (herrors : s.errors ⊆ t.errors) : t.Recalled c g where
  records record members hlookup := by
    obtain ⟨es, hmembers, hes⟩ := h.records record members (hrecords ▸ hlookup)
    exact ⟨es, hmembers, fun _ he => herrors (hes he)⟩
  unions u outcome hlookup := by
    obtain ⟨variants, es, es', hvariants, hrun, hes⟩ := h.unions u outcome (hunions ▸ hlookup)
    exact ⟨variants, es, es', hvariants, hrun, fun _ he => herrors (hes he)⟩

end

end Findings

namespace Building

open Findings

variable {α β γ δ : Type} {c : Config} {g : Registry} {known : Prop}

/-- A step does what a step without memory does, for a view of its result: if something is known
beforehand, and unless a record contains itself. -/
def Recalls (c : Config) (g : Registry) (known : Prop) (x : Building α) (view : α → β)
    (forgetful : Nat → Forgetful β) : Prop :=
  ∀ s a t, x s = some (a, t) → s.errors ⊆ t.errors ∧
    (known → (∀ record, .recursive record ∉ t.errors) → s.Recalled c g → t.Recalled c g ∧
      ∃ es, Forgetful.Settles forgetful (view a, es) ∧ s.Reports t es)

/-- Two runs, one after the other, are a run. -/
theorem bind_of_run {x : Building α} {f : α → Building β} {a : α} {r : β × Findings}
    {s u : Findings} (hx : x s = some (a, u)) (hf : f a u = some r) : (x >>= f) s = some r := by
  rw [show (x >>= f) s = (x s).bind fun p => f p.1 p.2 from rfl, hx, Option.bind_some, hf]

namespace Recalls

variable {view : α → β} {view' : γ → δ} {x : Building α} {y : Nat → Forgetful β}

theorem pure (view : α → β) (a : α) :
    Recalls c g known (pure a : Building α) view fun _ => Pure.pure (view a) := by
  intro s b t h
  obtain ⟨rfl, rfl⟩ := pure_inv h
  exact ⟨List.Subset.refl _, fun _ _ hs =>
    ⟨hs, [], .of_run rfl, .of_subset (List.nil_subset _)⟩⟩

theorem report (e : DeclError) :
    Recalls c g known (Building.report e) id fun _ => tell [e] := by
  intro s u t h
  cases h
  have hsub : s.errors ⊆ s.errors ++ [e] := List.subset_append_left _ _
  exact ⟨hsub, fun _ _ hs =>
    ⟨hs.of_same rfl rfl hsub, [e], .of_run rfl, fun _ => List.mem_append⟩⟩

/-- The second of two steps may rely on what the first has made. -/
theorem bind {f : α → Building γ} {f' : Nat → β → Forgetful δ} (hx : Recalls c g known x view y)
    (hf : ∀ a, Recalls c g (known ∧ ∃ es, Forgetful.Settles y (view a, es)) (f a) view'
      fun budget => f' budget (view a)) :
    Recalls c g known (x >>= f) view' fun budget => y budget >>= f' budget := by
  intro s b t h
  obtain ⟨a, u, hxu, hfu⟩ := bind_inv h
  obtain ⟨hsub, hfirst⟩ := hx s a u hxu
  obtain ⟨hsub', hsecond⟩ := hf a u b t hfu
  refine ⟨List.Subset.trans hsub hsub', fun hknown hrecursive hs => ?_⟩
  obtain ⟨hu, es, hsettles, hreports⟩ :=
    hfirst hknown (fun record hr => hrecursive record (hsub' hr)) hs
  obtain ⟨ht, es', hsettles', hreports'⟩ := hsecond ⟨hknown, es, hsettles⟩ hrecursive hu
  exact ⟨ht, es ++ es', hsettles.bind hsettles', hreports.trans hreports'⟩

theorem map (f : α → γ) {f' : β → δ} (hview : ∀ a, view' (f a) = f' (view a))
    (hx : Recalls c g known x view y) :
    Recalls c g known (f <$> x) view' fun budget => f' <$> y budget := by
  intro s b t h
  obtain ⟨a, ha, rfl⟩ := map_inv h
  obtain ⟨hsub, hrun⟩ := hx s a t ha
  refine ⟨hsub, fun hknown hrecursive hs => ?_⟩
  obtain ⟨ht, es, hsettles, hreports⟩ := hrun hknown hrecursive hs
  exact ⟨ht, es, hview a ▸ hsettles.map f', hreports⟩

theorem succ (h : Recalls c g known x view fun budget => y (budget + 1)) :
    Recalls c g known x view y := by
  intro s a t hx
  obtain ⟨hsub, hrun⟩ := h s a t hx
  refine ⟨hsub, fun hknown hrecursive hs => ?_⟩
  obtain ⟨ht, es, hsettles, hreports⟩ := hrun hknown hrecursive hs
  exact ⟨ht, es, hsettles.succ, hreports⟩

/-- Steps in a row each do what a step without memory does, and report what those report. -/
theorem mapM_run {f : γ → Building α} {f' : Nat → δ → Forgetful β} {w : γ → δ}
    (hf : ∀ z, Recalls c g True (f z) view fun budget => f' budget (w z)) {zs : List γ}
    {as : List α} {s t : Findings} (h : zs.mapM f s = some (as, t)) :
    s.errors ⊆ t.errors ∧ ((∀ record, .recursive record ∉ t.errors) → s.Recalled c g →
      t.Recalled c g ∧ ∃ outs,
        List.Forall₂ (fun z out => Forgetful.Settles (f' · z) out) (zs.map w) outs ∧
        as.map view = outs.map Prod.fst ∧ s.Reports t (outs.flatMap Prod.snd)) := by
  induction zs generalizing as s with
  | nil =>
    obtain ⟨rfl, rfl⟩ := pure_inv h
    exact ⟨List.Subset.refl _, fun _ hs =>
      ⟨hs, [], .nil, rfl, .of_subset (List.nil_subset _)⟩⟩
  | cons z zs ih =>
    rw [List.mapM_cons] at h
    obtain ⟨a, u, hz, h⟩ := bind_inv h
    obtain ⟨rest, v, hzs, h⟩ := bind_inv h
    obtain ⟨rfl, rfl⟩ := pure_inv h
    obtain ⟨hsub, hfirst⟩ := hf z s a u hz
    obtain ⟨hsub', hrest⟩ := ih hzs
    refine ⟨List.Subset.trans hsub hsub', fun hrecursive hs => ?_⟩
    obtain ⟨hu, es, hsettles, hreports⟩ :=
      hfirst trivial (fun record hr => hrecursive record (hsub' hr)) hs
    obtain ⟨hv, outs, hall, hmap, hreports'⟩ := hrest hrecursive hu
    refine ⟨hv, (view a, es) :: outs, .cons hsettles hall, ?_, ?_⟩
    · rw [List.map_cons, List.map_cons, hmap]
    · rw [List.flatMap_cons]
      exact hreports.trans hreports'

theorem mapM {f : γ → Building α} {f' : Nat → δ → Forgetful β} {w : γ → δ}
    (hf : ∀ z, Recalls c g True (f z) view fun budget => f' budget (w z)) (zs : List γ) :
    Recalls c g known (zs.mapM f) (List.map view) fun budget => (zs.map w).mapM' (f' budget) := by
  intro s as t h
  obtain ⟨hsub, hrun⟩ := mapM_run hf h
  refine ⟨hsub, fun _ hrecursive hs => ?_⟩
  obtain ⟨ht, outs, hall, hmap, hreports⟩ := hrun hrecursive hs
  exact ⟨ht, _, hmap ▸ Forgetful.Settles.mapM hall, hreports⟩

end Recalls

/-! ## steps -/

theorem unlessFault_recalls (d : Decl) (fault : Option DeclError) :
    Recalls c g known (unlessFault d fault) Decl.unnumbered
      fun _ => Forgetful.unlessFault d.unnumbered fault := by
  cases fault with
  | none => exact .pure _ d
  | some e =>
    refine .bind (.report e) fun _ => ?_
    rw [← Decl.dropped_unnumbered]
    exact .pure _ d.dropped

theorem resolution_recalls (type : TypeExpr) (own : Option Request) :
    Recalls c g known (resolution c g type own) id
      fun _ => Forgetful.resolution c g type own := by
  unfold resolution Forgetful.resolution
  cases c.resolve g own type with
  | ok r => exact .pure id r
  | error e => exact .bind (.report _) fun _ => .pure id _

/-- Numbers are the only difference that making a declaration makes. -/
theorem Recalls.declare {view : α → β} {y : Nat → Forgetful β} {f : Decl → Building α}
    {info : Nat → DeclInfo} {members : List Decl} {wire : Option Decl}
    (hf : ∀ n, Recalls c g known (f (.mk (info n) members wire)) view y) :
    Recalls c g known (declare info members wire >>= f) view y := by
  intro s a t h
  obtain ⟨d, u, hd, hfu⟩ := bind_inv h
  obtain ⟨rfl, rfl⟩ := declare_run hd
  obtain ⟨hsub, hrun⟩ := hf s.size _ a t hfu
  exact ⟨hsub, fun hknown hrecursive hs =>
    hrun hknown hrecursive (hs.of_same rfl rfl (List.Subset.refl _))⟩

/-- Checking variants that are the members of their union does what it does without memory, whether
they have been checked before or not. -/
theorem checkedVariants_recalls (u : Selection) (variants : List Decl)
    (hvariants : known → ∃ es, Forgetful.Settles
      (fun budget => Forgetful.membersOf g (Forgetful.field c g budget) u.union)
      (variants.map Decl.unnumbered, es)) :
    Recalls c g known (checkedVariants g u variants) id
      fun _ => Forgetful.checkedVariants g u (variants.map Decl.unnumbered) := by
  intro s outcome t h
  unfold checkedVariants at h
  obtain ⟨now, m, hget, h⟩ := bind_inv h
  cases hget
  cases hfound : s.unions.lookup u with
  | some found =>
    simp only [hfound] at h
    obtain ⟨rfl, rfl⟩ := pure_inv h
    refine ⟨List.Subset.refl _, fun hknown _ hs => ⟨hs, ?_⟩⟩
    obtain ⟨members, es, es', hmembers, hrun, hes⟩ := hs.unions u _ hfound
    obtain ⟨es'', hsettles⟩ := hvariants hknown
    obtain ⟨rfl, -⟩ := Prod.mk.inj (hmembers.unique hsettles)
    exact ⟨es', .of_run hrun, .of_subset hes⟩
  | none =>
    simp only [hfound] at h
    have hremember (s' : Findings) (outcome : Option Nat) (es' : List DeclError)
        (hrun : (Forgetful.checkedVariants g u (variants.map Decl.unnumbered)).run =
          some (outcome, es')) (hes : es' ⊆ s'.errors) (hknown : known) (hs : s'.Recalled c g) :
        Recalled c g { s' with unions := (u, outcome) :: s'.unions } := by
      refine ⟨hs.records, fun u' outcome' hlookup => ?_⟩
      rw [List.lookup_cons] at hlookup
      split at hlookup
      · next heq =>
        cases hlookup
        rw [beq_iff_eq] at heq
        subst heq
        obtain ⟨es, hsettles⟩ := hvariants hknown
        exact ⟨_, es, es', hsettles, hrun, hes⟩
      · exact hs.unions u' outcome' hlookup
    cases hok : Decl.checkVariants g u.union u.tag u.internal variants with
    | ok n =>
      simp only [hok] at h
      cases h
      have hrun : (Forgetful.checkedVariants g u (variants.map Decl.unnumbered)).run =
          some (some n, []) := by
        rw [Forgetful.checkedVariants, Decl.checkVariants_unnumbered, hok]
        rfl
      exact ⟨List.Subset.refl _, fun hknown _ hs =>
        ⟨hremember s _ [] hrun (List.nil_subset _) hknown hs, [], .of_run hrun,
          .of_subset (List.nil_subset _)⟩⟩
    | error e =>
      simp only [hok] at h
      cases h
      have hrun : (Forgetful.checkedVariants g u (variants.map Decl.unnumbered)).run =
          some (none, [e]) := by
        rw [Forgetful.checkedVariants, Decl.checkVariants_unnumbered, hok]
        rfl
      have hsub : s.errors ⊆ s.errors ++ [e] := List.subset_append_left _ _
      refine ⟨hsub, fun hknown _ hs => ⟨?_, [e], .of_run hrun, fun _ => List.mem_append⟩⟩
      exact hremember { s with errors := s.errors ++ [e] } none [e] hrun
        (List.subset_append_right _ _) hknown (hs.of_same rfl rfl hsub)

/-- A new declaration is checked as without memory, if its members are those of its record. -/
theorem checked_recalls (d : Decl)
    (hmembers : known → ∀ tag internal union, d.kind = .union tag internal →
      d.record? = some union → ∃ es, Forgetful.Settles
        (fun budget => Forgetful.membersOf g (Forgetful.field c g budget) union)
        (d.members.map Decl.unnumbered, es)) :
    Recalls c g known (checked g d) Decl.unnumbered
      fun _ => Forgetful.checked g d.unnumbered := by
  unfold checked Forgetful.checked
  simp only [Decl.kind_unnumbered, Decl.wire_unnumbered, Decl.record?_unnumbered,
    Decl.members_unnumbered]
  cases hkind : d.kind with
  | transformed tr =>
    cases d.wire with
    | none => exact .pure _ d
    | some w =>
      simp only [Option.map_some, Decl.wireFault?_unnumbered]
      exact unlessFault_recalls d _
  | union tag internal =>
    cases hrecord : d.record? with
    | none => exact .pure _ d
    | some union =>
      refine .bind (checkedVariants_recalls ⟨union, tag, internal⟩ d.members fun hknown =>
        hmembers hknown tag internal union hkind hrecord) fun outcome => ?_
      cases outcome with
      | none =>
        simp only [id_eq, ← Decl.dropped_unnumbered]
        exact .pure _ d.dropped
      | some n =>
        have hshared : (Decl.mk { d.info with sharedFields := n } d.members d.wire).unnumbered =
            .mk { d.unnumbered.info with sharedFields := n } (d.members.map Decl.unnumbered)
              (d.wire.map Decl.unnumbered) := by
          rw [Decl.unnumbered_mk, Decl.info_unnumbered]
        simp only [id_eq, ← hshared]
        exact .pure _ _
  | _ => exact .pure _ d

/-- The record of a new declaration is the one whose fields stand below it. -/
theorem record?_of_union {name : String} {type : TypeExpr} {r : Resolution} {n : Nat}
    {members : List Decl} {wire : Option Decl} {tag union : String} {internal : Bool}
    (hkind : (Decl.mk (infoOf name type r n) members wire).kind = .union tag internal)
    (hrecord : (Decl.mk (infoOf name type r n) members wire).record? = some union) :
    r.record? = some union := by
  obtain ⟨⟨kind, dflt, id⟩, extents, elem⟩ := r
  obtain rfl : kind = .union tag internal := hkind
  cases elem with
  | none => cases hrecord
  | some e =>
    obtain ⟨type', aliases, shape⟩ := e
    cases shape <;> exact hrecord

/-- Making a declaration does what it does without memory, if taking records apart does. -/
theorem build_recalls {membersOf : String → Building (List Decl)}
    (hmembersOf : ∀ record known, Recalls c g known (membersOf record) (List.map Decl.unnumbered)
      fun budget => Forgetful.membersOf g (Forgetful.field c g budget) record)
    (budget : Nat) (name : String) (type : TypeExpr) (own : Option Request) :
    Recalls c g known (build c g membersOf budget name type own) Decl.unnumbered
      fun budget => Forgetful.build c g budget name type own := by
  induction budget generalizing type own known with
  | zero =>
    intro s d t h
    cases h
  | succ budget ih =>
    have hmembers (r : Resolution) (known : Prop) : Recalls c g known
        (r.record?.elim (pure []) membersOf) (List.map Decl.unnumbered) fun budget =>
          r.record?.elim (pure []) (Forgetful.membersOf g (Forgetful.field c g budget)) := by
      cases r.record? with
      | none => exact .pure _ []
      | some record => exact hmembersOf record known
    have hwire (r : Resolution) (known : Prop) : Recalls c g known
        (r.wire?.elim (pure none) fun w => some <$> build c g membersOf budget name w none)
        (Option.map Decl.unnumbered) fun budget =>
          r.wire?.elim (pure none) fun w => some <$> Forgetful.build c g budget name w none := by
      cases r.wire? with
      | none => exact .pure _ none
      | some w => exact (ih w none).map some fun _ => rfl
    rw [build_succ]
    refine .succ (.bind (resolution_recalls type own) fun r => ?_)
    rw [membersFor_record, wireFor_wire]
    refine .bind (hmembers r _) fun members => .bind (hwire r _) fun wire => .declare fun n => ?_
    have hunnumbered : (Decl.mk (infoOf name type r n) members wire).unnumbered =
        .mk (infoOf name type r 0) (members.map Decl.unnumbered) (wire.map Decl.unnumbered) :=
      Decl.unnumbered_mk _ members wire
    rw [id_eq, ← hunnumbered]
    refine checked_recalls _ fun hknown tag internal union hkind hrecord => ?_
    obtain ⟨⟨-, es, hsettles⟩, -⟩ := hknown
    simp only [record?_of_union hkind hrecord] at hsettles
    exact ⟨es, hsettles⟩

theorem checkedTags_recalls (kind : RecordKind) (members : List Decl) :
    Recalls c g known (checkedTags kind members) (List.map Decl.unnumbered)
      fun _ => Forgetful.checkedTags kind (members.map Decl.unnumbered) := by
  unfold checkedTags Forgetful.checkedTags
  rw [List.zipIdx_map]
  refine .mapM (w := Prod.map Decl.unnumbered id) (fun p => ?_) members.zipIdx
  simp only [Prod.map, id_eq, Decl.tagFault?_unnumbered]
  exact unlessFault_recalls p.1 _

/-- Taking a record apart does what it does without memory, whether its members are remembered or
not. -/
theorem membersOf_recalls (depth : Nat) (around : List String) (record : String) :
    Recalls c g known (membersOf c g depth around record) (List.map Decl.unnumbered)
      fun budget => Forgetful.membersOf g (Forgetful.field c g budget) record := by
  induction depth using Nat.strongRecOn generalizing around record known with
  | ind depth ih =>
  intro s members t h
  rcases membersOf_cases h with ⟨hlookup, rfl⟩ | ⟨-, -, u, hr⟩ | ⟨hnone, rfl, rfl⟩ |
    ⟨found, rest, ds, u, v, rfl, -, -, hfound, hds, hms, rfl⟩
  · refine ⟨List.Subset.refl _, fun _ _ hs => ⟨hs, ?_⟩⟩
    obtain ⟨es, hsettles, hes⟩ := hs.records record members hlookup
    exact ⟨es, hsettles, .of_subset hes⟩
  · cases hr
    exact ⟨List.subset_append_left _ _, fun _ hrecursive =>
      absurd (List.mem_append_right _ (List.mem_singleton_self _)) (hrecursive record)⟩
  · have hsettles : Forgetful.Settles
        (fun budget => Forgetful.membersOf g (Forgetful.field c g budget) record) ([], []) := by
      simp only [Forgetful.membersOf, hnone]
      exact .of_run rfl
    exact ⟨List.Subset.refl _, fun _ _ hs =>
      ⟨hs, [], hsettles, .of_subset (List.nil_subset _)⟩⟩
  · have hfield (f : Field) : Recalls c g True (field c g rest (record :: around) f)
        Decl.unnumbered fun budget => Forgetful.field c g budget f :=
      build_recalls (fun inner _ => ih rest (Nat.lt_succ_self _) (record :: around) inner) _ _ _ _
    have hfields : Recalls c g True (do
        let ds ← found.fields.mapM (field c g rest (record :: around))
        checkedTags found.kind ds) (List.map Decl.unnumbered)
        fun budget => Forgetful.membersOf g (Forgetful.field c g budget) record := by
      have hmapM : Recalls c g True (found.fields.mapM (field c g rest (record :: around)))
          (List.map Decl.unnumbered)
          fun budget => (found.fields.map id).mapM' (Forgetful.field c g budget) :=
        .mapM hfield found.fields
      rw [List.map_id] at hmapM
      simp only [Forgetful.membersOf, hfound]
      exact hmapM.bind fun ds => checkedTags_recalls found.kind ds
    obtain ⟨hsub, hrun⟩ := hfields s members v (bind_of_run hds hms)
    refine ⟨hsub, fun _ hrecursive hs => ?_⟩
    obtain ⟨hv, es, hsettles, hreports⟩ := hrun trivial hrecursive hs
    refine ⟨⟨fun record' members' hlookup => ?_, hv.unions⟩, es, hsettles, hreports⟩
    rw [List.lookup_cons] at hlookup
    split at hlookup
    · next heq =>
      cases hlookup
      rw [beq_iff_eq] at heq
      subst heq
      exact ⟨es, hsettles, hreports.subset⟩
    · exact hv.records record' members' hlookup

theorem object_recalls (o : DataObject) :
    Recalls c g known (object c g o) Decl.unnumbered
      fun budget => Forgetful.object c g budget o := by
  rw [object_eq]
  refine .bind (build_recalls (fun record _ => membersOf_recalls g.records.length [] record)
    _ _ _ _) fun d => ?_
  simp only [Decl.isExternal_unnumbered]
  exact unlessFault_recalls d _

/-- Steps in groups are steps in a row. -/
theorem mapM_flatten {f : α → Building β} {groups : List (List α)} {results : List (List β)}
    {s t : Findings} (h : groups.mapM (List.mapM f) s = some (results, t)) :
    groups.flatten.mapM f s = some (results.flatten, t) := by
  induction groups generalizing results s with
  | nil =>
    obtain ⟨rfl, rfl⟩ := pure_inv h
    rfl
  | cons group groups ih =>
    rw [List.mapM_cons] at h
    obtain ⟨first, u, hfirst, h⟩ := bind_inv h
    obtain ⟨rest, v, hrest, h⟩ := bind_inv h
    obtain ⟨rfl, rfl⟩ := pure_inv h
    rw [List.flatten_cons, List.mapM_append]
    exact bind_of_run hfirst (bind_of_run (ih hrest) rfl)

end Building

/-! ## models -/

namespace Config

/-- The same layout with one data object. -/
def only (c : Config) (o : DataObject) : Config := { c with groups := [[o]] }

variable {c : Config} {g : Registry} {o : DataObject}

theorem resolve_only (c : Config) (o : DataObject) : (c.only o).resolve = c.resolve := rfl

theorem objects_only (c : Config) (o : DataObject) : (c.only o).objects = [o] := rfl

theorem Declared.of_only (ho : o ∈ c.objects) {own : Option Request} {type : TypeExpr}
    (h : (c.only o).Declared g own type) : c.Declared g own type := by
  induction h with
  | object h =>
    obtain rfl := List.mem_singleton.1 h
    exact .object ho
  | wire _ hw ih => exact .wire ih hw
  | field _ hr hrecord hfound hf ih => exact .field ih hr hrecord hfound hf

theorem Enters.of_only {own : Option Request} {type : TypeExpr} {record : String}
    (h : (c.only o).Enters g own type record) : c.Enters g own type record := by
  induction h with
  | record hr h => exact .record hr h
  | wire hw _ ih => exact .wire hw ih

theorem Contains.of_only {outer inner : String} (h : (c.only o).Contains g outer inner) :
    c.Contains g outer inner := by
  obtain ⟨found, hfound, f, hf, henters⟩ := h
  exact ⟨found, hfound, f, hf, henters.of_only⟩

end Config

namespace Forgetful

/-- Without memory, the other data objects make no difference. -/
theorem build_only (c : Config) (o : DataObject) (g : Registry) :
    build (c.only o) g = build c g := by
  funext budget
  induction budget with
  | zero => rfl
  | succ budget ih =>
    funext name type own
    simp only [build, resolution, Config.resolve_only, ih]

theorem object_only (c : Config) (o : DataObject) (g : Registry) :
    object (c.only o) g = object c g := by
  funext budget o'
  rw [object, object, build_only]

end Forgetful

namespace Model

variable {c : Config} {g : Registry} {m : Model}

/-- A run makes and reports what the data objects make and report without memory. -/
theorem forgetful_of_build (h : Model.build c g = some m)
    (hrecursive : ∀ record, .recursive record ∉ m.errors) :
    List.Forall₂ (fun o d => ∃ es,
        Forgetful.Settles (Forgetful.object c g · o) (d.unnumbered, es)) c.objects m.roots ∧
      ∀ e, e ∈ m.errors ↔ ∃ o ∈ c.objects, ∃ d es,
        Forgetful.Settles (Forgetful.object c g · o) (d, es) ∧ e ∈ es := by
  obtain ⟨⟨groups, s⟩, hrun, rfl⟩ := Option.map_eq_some_iff.1 h
  have hflat := Building.mapM_flatten hrun
  have hempty : Findings.Recalled c g ⟨0, [], [], []⟩ :=
    ⟨fun _ _ hn => (nomatch hn), fun _ _ hu => (nomatch hu)⟩
  have hobject (o : DataObject) : Building.Recalls c g True (Building.object c g o)
      Decl.unnumbered fun budget => Forgetful.object c g budget (id o) :=
    Building.object_recalls o
  obtain ⟨-, hobjects⟩ := Building.Recalls.mapM_run hobject hflat
  obtain ⟨-, outs, hall, hmap, hreports⟩ := hobjects hrecursive hempty
  rw [List.map_id] at hall
  constructor
  · have hmade : List.Forall₂ (fun o d => ∃ es,
        Forgetful.Settles (Forgetful.object c g · o) (d, es)) c.objects (outs.map Prod.fst) :=
      List.forall₂_map_right_iff.2 (hall.imp fun o out hsettles => ⟨out.2, hsettles⟩)
    exact List.forall₂_map_right_iff.1 (hmap.symm ▸ hmade)
  · intro e
    rw [hreports e, Forgetful.Settles.mem_flatMap hall]
    exact or_iff_right List.not_mem_nil

/-- If data objects can be taken apart together, so can one of them alone, and it has no record that
contains itself unless that is reported for all of them. -/
theorem build_only (h : Model.build c g = some m)
    (hrecursive : ∀ record, .recursive record ∉ m.errors) {o : DataObject} (ho : o ∈ c.objects) :
    ∃ m', Model.build (c.only o) g = some m' ∧ ∀ record, .recursive record ∉ m'.errors := by
  obtain ⟨hcuts, hwires⟩ := Model.cuts_of_build h
  have hsome : (Model.build (c.only o) g).isSome = true :=
    Model.isSome_build fun w hw hcycle => hwires w (hw.of_only ho) hcycle
  obtain ⟨m', hm'⟩ := Option.isSome_iff_exists.1 hsome
  refine ⟨m', hm', fun record hr => ?_⟩
  obtain ⟨⟨own, type, r, hd, hresolve, hrecord⟩, hcycle⟩ := Model.cycle_of_recursive hm' hr
  obtain ⟨r', -, -, hr'⟩ := hcuts.records record ⟨own, type, r, hd.of_only ho, hresolve, hrecord⟩
    (hcycle.lift id fun _ _ hcontains => hcontains.of_only)
  exact hrecursive r' hr'

/-- A data object that stands alone makes and reports what it does without memory. -/
theorem forgetful_of_only (h : Model.build c g = some m)
    (hrecursive : ∀ record, .recursive record ∉ m.errors) {o : DataObject} (ho : o ∈ c.objects) :
    ∃ m' d es, Model.build (c.only o) g = some m' ∧ m'.roots = [d] ∧
      Forgetful.Settles (Forgetful.object c g · o) (d.unnumbered, es) ∧
      ∀ e, e ∈ m'.errors ↔ e ∈ es := by
  obtain ⟨m', hm', hrecursive'⟩ := build_only h hrecursive ho
  obtain ⟨hroots, herrors⟩ := forgetful_of_build hm' hrecursive'
  simp only [Config.objects_only, Forgetful.object_only] at hroots herrors
  obtain ⟨d, rest, ⟨es, hsettles⟩, hrest, hroots⟩ := List.forall₂_cons_left_iff.1 hroots
  rw [List.forall₂_nil_left_iff.1 hrest] at hroots
  refine ⟨m', d, es, hm', hroots, hsettles, fun e => ?_⟩
  rw [herrors e]
  refine ⟨?_, fun he => ⟨o, List.mem_singleton_self o, _, es, hsettles, he⟩⟩
  rintro ⟨o', ho', d', es', hsettles', he⟩
  obtain rfl := List.mem_singleton.1 ho'
  rwa [(Prod.mk.inj (hsettles.unique hsettles')).2]

/-- **What building remembers is invisible**: unless a record contains itself, each data object is
what it is when it stands alone, up to numbers, and what is reported of all of them is what is
reported of each alone. -/
theorem objects_apart (h : Model.build c g = some m)
    (hrecursive : ∀ record, .recursive record ∉ m.errors) :
    List.Forall₂ (fun o d => ∃ m' d', Model.build (c.only o) g = some m' ∧ m'.roots = [d'] ∧
        d.unnumbered = d'.unnumbered) c.objects m.roots ∧
      (∀ e, e ∈ m.errors ↔
        ∃ o ∈ c.objects, ∃ m', Model.build (c.only o) g = some m' ∧ e ∈ m'.errors) ∧
      ∀ text, text ∈ m.errors.map DeclError.message ↔ ∃ o ∈ c.objects, ∃ m',
        Model.build (c.only o) g = some m' ∧ text ∈ m'.errors.map DeclError.message := by
  obtain ⟨hroots, herrors⟩ := forgetful_of_build h hrecursive
  have herror (e : DeclError) : e ∈ m.errors ↔
      ∃ o ∈ c.objects, ∃ m', Model.build (c.only o) g = some m' ∧ e ∈ m'.errors := by
    rw [herrors e]
    refine exists_congr fun o => and_congr_right fun ho => ?_
    obtain ⟨m', d, es, hm', -, hsettles, hes⟩ := forgetful_of_only h hrecursive ho
    constructor
    · rintro ⟨d', es', hsettles', he⟩
      rw [(Prod.mk.inj (hsettles'.unique hsettles)).2] at he
      exact ⟨m', hm', (hes e).2 he⟩
    · rintro ⟨m'', hm'', he⟩
      obtain rfl := Option.some.inj (hm'.symm.trans hm'')
      exact ⟨_, es, hsettles, (hes e).1 he⟩
  refine ⟨?_, herror, fun text => ?_⟩
  · have hmem := (List.forall₂_and_left _ _).2 ⟨fun o (ho : o ∈ c.objects) => ho, hroots⟩
    refine hmem.imp fun o d ⟨ho, es, hsettles⟩ => ?_
    obtain ⟨m', d', es', hm', hroots', hsettles', -⟩ := forgetful_of_only h hrecursive ho
    exact ⟨m', d', hm', hroots', (Prod.mk.inj (hsettles.unique hsettles')).1⟩
  · simp only [List.mem_map, herror]
    exact ⟨fun ⟨e, ⟨o, ho, m', hm', he⟩, htext⟩ => ⟨o, ho, m', hm', e, he, htext⟩,
      fun ⟨o, ho, m', hm', e, he, htext⟩ => ⟨e, ⟨o, ho, m', hm', he⟩, htext⟩⟩

end Model

namespace Sample

/-- A union whose variants share an id, and two structs with such a union. -/
def clashing : Registry where
  records := [
    ⟨"Body", .union, [⟨"a", .name "u8", { Request.empty with variantId := some 0 }⟩,
      ⟨"b", .name "u8", { Request.empty with variantId := some 0 }⟩], Request.empty, false⟩,
    ⟨"S", .struct, [⟨"kind", .name "u8", bits 2⟩,
      ⟨"body", .name "Body", { Request.empty with form := some (.tagged "kind" false) }⟩],
      Request.empty, false⟩,
    ⟨"T", .struct, [⟨"kind", .name "u8", bits 2⟩, ⟨"s", .name "S", Request.empty⟩,
      ⟨"body", .name "Body", { Request.empty with form := some (.tagged "kind" false) }⟩],
      Request.empty, false⟩]
  aliases := []

/-- Two data objects that share a record and a union. -/
def sharing : Config := { config with groups := [[⟨"s", .name "S"⟩, ⟨"t", .name "T"⟩]] }

/-- The fault of the union is reported once, where it is met first. -/
theorem build_sharing : (Model.build sharing clashing).map (·.errors) =
    some [.sharedId "Body" "a" "b" 0] := by decide +kernel

/-- Still it leaves the union out of both, as if each stood alone. -/
theorem sharing_apart : ∃ m, Model.build sharing clashing = some m ∧
    m.errors = [.sharedId "Body" "a" "b" 0] ∧
    List.Forall₂ (fun o d => ∃ m' d', Model.build (sharing.only o) clashing = some m' ∧
      m'.roots = [d'] ∧ d.unnumbered = d'.unnumbered) sharing.objects m.roots := by
  obtain ⟨m, hm, herrors⟩ := Option.map_eq_some_iff.1 build_sharing
  refine ⟨m, hm, herrors, (Model.objects_apart hm fun record hr => ?_).1⟩
  rw [herrors] at hr
  cases List.mem_singleton.1 hr

end Sample

end BitLayout
