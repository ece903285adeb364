import BitLayout.Proofs.Decl.Cycles

/-!
# BitLayout.Proofs.Decl.Numbers

Numbers in every model, with errors or without. A declaration takes the next number when it is made,
and one that is left out after an error keeps its number and what stands below it. So the members of
a record have different numbers whatever is reported, and paths are told apart by them.

* `Findings.Numbered`: the members of every record found so far have taken different numbers;
* `Building.Takes`: a run of a step takes new numbers, and leaves what is found numbered.

Main statement: `Model.numbered_of_build`.
-/

namespace BitLayout

namespace Findings

variable {s t : Findings} {ds : List Decl}

/-- Declarations side by side have taken different numbers, all the way down. -/
structure Lists (s : Findings) (ds : List Decl) : Prop where
  nodup : (ds.map Decl.number).Nodup
  lt : ∀ d ∈ ds, d.number < s.size
  below : ∀ d ∈ ds, d.Everywhere Decl.Distinct

theorem Lists.nil (s : Findings) : s.Lists [] :=
  ⟨List.nodup_nil, fun _ hd => (nomatch hd), fun _ hd => (nomatch hd)⟩

theorem Lists.mono (h : s.Lists ds) (hsize : s.size ≤ t.size) : t.Lists ds :=
  ⟨h.nodup, fun d hd => Nat.lt_of_lt_of_le (h.lt d hd) hsize, h.below⟩

/-- The members of every record have taken different numbers. -/
def Numbered (s : Findings) : Prop :=
  ∀ name members, s.records.lookup name = some members → s.Lists members

theorem Numbered.of_aside (h : s.Numbered) (ha : s.Aside t) : t.Numbered := by
  intro name members hn
  rw [ha.records] at hn
  exact (h name members hn).mono ha.size

end Findings

namespace Decl

/-- Two declarations with the same number and the same declarations below them. -/
structure SameBelow (d e : Decl) : Prop where
  number : d.number = e.number
  members : d.members = e.members
  wire : d.wire = e.wire

theorem SameBelow.refl (d : Decl) : d.SameBelow d := ⟨rfl, rfl, rfl⟩

/-- Leaving a declaration out keeps its number and what stands below it. -/
theorem sameBelow_dropped (d : Decl) : d.dropped.SameBelow d := by
  cases d
  exact ⟨rfl, rfl, rfl⟩

theorem SameBelow.everywhere {d e : Decl} (h : d.SameBelow e) (he : e.Everywhere Distinct) :
    d.Everywhere Distinct := by
  refine .intro ?_ (fun m hm => he.member (h.members ▸ hm)) fun w hw => he.wire (h.wire ▸ hw)
  rw [Distinct, h.members]
  exact he.self

end Decl

namespace Building

open Findings

variable {α β : Type} {c : Config} {g : Registry} {around : List String} {s t : Findings}

/-! ## checks -/

theorem unlessFault_same {d d' : Decl} {fault : Option DeclError}
    (h : unlessFault d fault s = some (d', t)) : d'.SameBelow d := by
  cases fault with
  | none =>
    obtain ⟨rfl, -⟩ := pure_inv h
    exact .refl _
  | some e =>
    obtain ⟨u, m, -, hp⟩ := bind_inv h
    obtain ⟨rfl, -⟩ := pure_inv hp
    exact d.sameBelow_dropped

/-- A check leaves a declaration out or changes its shared fields, and nothing else. -/
theorem checked_same {d d' : Decl} (h : checked g d s = some (d', t)) : d'.SameBelow d := by
  have hpure {d d' : Decl} (h : (pure d : Building Decl) s = some (d', t)) : d'.SameBelow d := by
    obtain ⟨rfl, -⟩ := pure_inv h
    exact .refl _
  obtain ⟨⟨number, name, type, shape, extents, ⟨kind, dflt, id⟩, shared⟩, members, wire⟩ := d
  cases kind with
  | transformed tr =>
    cases wire with
    | none => exact hpure h
    | some w => exact unlessFault_same h
  | union tag internal =>
    cases shape with
    | none => exact hpure h
    | some shape =>
      cases shape with
      | record record kind =>
        obtain ⟨outcome, u, -, hp⟩ := bind_inv h
        cases outcome <;> obtain ⟨rfl, -⟩ := pure_inv hp <;> exact ⟨rfl, rfl, rfl⟩
      | _ => exact hpure h
  | _ => exact hpure h

/-- Checking the tags of members keeps their numbers and what stands below them. -/
theorem mapM_same {f : Decl × Nat → Building Decl}
    (hf : ∀ p s d t, f p s = some (d, t) → d.SameBelow p.1) {ps : List (Decl × Nat)}
    {ds : List Decl} (h : ps.mapM f s = some (ds, t)) :
    ds.map Decl.number = ps.map (·.1.number) ∧ ∀ d ∈ ds, ∃ p ∈ ps, d.SameBelow p.1 := by
  induction ps generalizing ds s with
  | nil =>
    obtain ⟨rfl, -⟩ := pure_inv h
    exact ⟨rfl, fun _ hd => (nomatch hd)⟩
  | cons p ps ih =>
    rw [List.mapM_cons] at h
    obtain ⟨d, u, hd, h⟩ := bind_inv h
    obtain ⟨rest, v, hrest, h⟩ := bind_inv h
    obtain ⟨rfl, rfl⟩ := pure_inv h
    have hsame := hf p s d u hd
    obtain ⟨hnumbers, hrest⟩ := ih hrest
    refine ⟨by rw [List.map_cons, List.map_cons, hsame.number, hnumbers], ?_⟩
    refine List.forall_mem_cons.2 ⟨⟨p, List.mem_cons_self, hsame⟩, fun e he => ?_⟩
    obtain ⟨q, hq, hsame⟩ := hrest e he
    exact ⟨q, List.mem_cons_of_mem _ hq, hsame⟩

theorem checkedTags_lists {kind : RecordKind} {members checked : List Decl}
    (h : checkedTags kind members s = some (checked, t)) (hs : s.Lists members) :
    t.Lists checked := by
  obtain ⟨hnumbers, hall⟩ := mapM_same (fun _ _ _ _ h => unlessFault_same h) h
  have hsize := (checkedTags_aside h).size
  have hmap : members.zipIdx.map (·.1.number) = members.map Decl.number := by
    rw [show (fun p : Decl × Nat => p.1.number) = Decl.number ∘ Prod.fst from rfl, ← List.map_map,
      List.zipIdx_map_fst]
  have hsame : ∀ d ∈ checked, ∃ e ∈ members, d.SameBelow e := by
    intro d hd
    obtain ⟨p, hp, hsame⟩ := hall d hd
    exact ⟨p.1, List.fst_mem_of_mem_zipIdx hp, hsame⟩
  refine ⟨by rw [hnumbers, hmap]; exact hs.nodup, fun d hd => ?_, fun d hd => ?_⟩
  · obtain ⟨e, he, hsame⟩ := hsame d hd
    rw [hsame.number]
    exact Nat.lt_of_lt_of_le (hs.lt e he) hsize
  · obtain ⟨e, he, hsame⟩ := hsame d hd
    exact hsame.everywhere (hs.below e he)

/-! ## declarations -/

/-- A run that leaves what is found numbered, and returns declarations with numbers. -/
structure Keeps (s t : Findings) (ds : List Decl) : Prop where
  size : s.size ≤ t.size
  numbered : t.Numbered
  lists : t.Lists ds

/-- A run that keeps what is found numbered, and takes new numbers for what it makes. -/
structure Takes (s t : Findings) (ds : List Decl) : Prop extends Keeps s t ds where
  new : ∀ d ∈ ds, s.size ≤ d.number

/-- Taking a record apart keeps what is found numbered. -/
def KeepsNumbers (membersOf : String → Building (List Decl)) : Prop :=
  ∀ record s members t, membersOf record s = some (members, t) → s.Numbered → Keeps s t members

theorem resolution_aside {type : TypeExpr} {own : Option Request} {r : Resolution}
    (h : resolution c g type own s = some (r, t)) : s.Aside t := by
  unfold resolution at h
  cases hr : c.resolve g own type with
  | ok r' =>
    simp only [hr] at h
    obtain ⟨-, rfl⟩ := pure_inv h
    exact .refl _
  | error e =>
    simp only [hr] at h
    obtain ⟨u, m, hr, hp⟩ := bind_inv h
    obtain ⟨-, rfl⟩ := pure_inv hp
    refine report_aside ?_ hr
    rintro record ⟨⟩

theorem membersFor_keeps {membersOf : String → Building (List Decl)} {kind : Kind}
    {shape : Option ElementShape} {members : List Decl} (hm : KeepsNumbers membersOf)
    (h : membersFor membersOf kind shape s = some (members, t)) (hs : s.Numbered) :
    Keeps s t members := by
  rcases membersFor_eq membersOf kind shape with ⟨record, heq⟩ | heq
  · rw [heq] at h
    exact hm record s members t h hs
  · rw [heq] at h
    obtain ⟨rfl, rfl⟩ := pure_inv h
    exact ⟨Nat.le_refl _, hs, .nil _⟩

theorem wireFor_keeps {make : TypeExpr → Building Decl} {kind : Kind} {wire : Option Decl}
    (hmake : ∀ {type s d t}, make type s = some (d, t) → s.Numbered → Takes s t [d])
    (h : wireFor make kind s = some (wire, t)) (hs : s.Numbered) :
    s.size ≤ t.size ∧ t.Numbered ∧ ∀ w, wire = some w → w.Everywhere Decl.Distinct := by
  cases kind with
  | transformed tr =>
    obtain ⟨w, hw, rfl⟩ := map_inv h
    have htakes := hmake hw hs
    refine ⟨htakes.size, htakes.numbered, fun w' hw' => ?_⟩
    cases hw'
    exact htakes.lists.below w (List.mem_singleton_self w)
  | _ =>
    obtain ⟨rfl, rfl⟩ := pure_inv h
    exact ⟨Nat.le_refl _, hs, fun _ hw => (nomatch hw)⟩

/-- Making a declaration takes a new number, behind those of everything below it. -/
theorem build_takes {membersOf : String → Building (List Decl)} (hm : KeepsNumbers membersOf)
    {budget : Nat} {name : String} {type : TypeExpr} {own : Option Request} {d : Decl}
    (h : build c g membersOf budget name type own s = some (d, t)) (hs : s.Numbered) :
    Takes s t [d] := by
  induction budget generalizing name type own s t d with
  | zero => cases h
  | succ budget ih =>
    rw [build_succ] at h
    obtain ⟨r, s₁, hr, h⟩ := bind_inv h
    obtain ⟨members, s₂, hmem, h⟩ := bind_inv h
    obtain ⟨wire, s₃, hwire, h⟩ := bind_inv h
    obtain ⟨d₀, s₄, hd, h⟩ := bind_inv h
    have haside := checked_aside h
    have hsame := checked_same h
    obtain ⟨rfl, rfl⟩ := declare_run hd
    have hr := resolution_aside hr
    have hmembers := membersFor_keeps hm hmem (hs.of_aside hr)
    obtain ⟨hsize, hnumbered, hwired⟩ := wireFor_keeps (fun hw hs => ih hw hs) hwire
      hmembers.numbered
    have hnumber : d.number = s₃.size := hsame.number
    have hbelow : d.Everywhere Decl.Distinct :=
      hsame.everywhere (.intro hmembers.lists.nodup hmembers.lists.below hwired)
    have hlast := haside.size
    have hfirst := hr.size
    have hsecond := hmembers.size
    have hlists : t.Lists [d] := by
      refine ⟨List.pairwise_singleton .., ?_, List.forall_mem_singleton.2 hbelow⟩
      refine List.forall_mem_singleton.2 ?_
      rw [hnumber]
      exact hlast
    refine ⟨⟨?_, ?_, hlists⟩, List.forall_mem_singleton.2 ?_⟩
    · dsimp only at hlast
      omega
    · have hdeclared : Findings.Aside s₃ { s₃ with size := s₃.size + 1 } :=
        ⟨Nat.le_succ _, rfl, List.prefix_refl _, fun _ hr => hr⟩
      exact (hnumbered.of_aside hdeclared).of_aside haside
    · rw [hnumber]
      omega

/-- The declarations of every entry of a list take new numbers. -/
theorem mapM_takes {f : α → Building β} (view : β → List Decl)
    (hf : ∀ a s b t, f a s = some (b, t) → s.Numbered → Takes s t (view b)) {xs : List α}
    {bs : List β} (h : xs.mapM f s = some (bs, t)) (hs : s.Numbered) :
    Takes s t (bs.flatMap view) := by
  induction xs generalizing bs s with
  | nil =>
    obtain ⟨rfl, rfl⟩ := pure_inv h
    exact ⟨⟨Nat.le_refl _, hs, .nil _⟩, fun _ hd => (nomatch hd)⟩
  | cons x xs ih =>
    rw [List.mapM_cons] at h
    obtain ⟨b, u, hx, h⟩ := bind_inv h
    obtain ⟨rest, v, hxs, h⟩ := bind_inv h
    obtain ⟨rfl, rfl⟩ := pure_inv h
    have hfirst := hf x s b u hx hs
    have hrest := ih hxs hfirst.numbered
    have hlists := hfirst.lists.mono hrest.size
    refine ⟨⟨Nat.le_trans hfirst.size hrest.size, hrest.numbered, ?_, ?_, ?_⟩, ?_⟩
    · rw [List.flatMap_cons, List.map_append]
      refine List.nodup_append.2 ⟨hlists.nodup, hrest.lists.nodup, fun i hi j hj hij => ?_⟩
      obtain ⟨d, hd, rfl⟩ := List.mem_map.1 hi
      obtain ⟨e, he, rfl⟩ := List.mem_map.1 hj
      have hlt := hfirst.lists.lt d hd
      have hle := hrest.new e he
      omega
    · exact List.forall_mem_append.2 ⟨hlists.lt, hrest.lists.lt⟩
    · exact List.forall_mem_append.2 ⟨hlists.below, hrest.lists.below⟩
    · refine List.forall_mem_append.2 ⟨hfirst.new, fun d hd => ?_⟩
      exact Nat.le_trans hfirst.size (hrest.new d hd)

/-- Taking a record apart takes new numbers for its members, unless they are known. -/
theorem membersOf_keeps (c : Config) (g : Registry) (depth : Nat) (around : List String) :
    KeepsNumbers (membersOf c g depth around) := by
  induction depth using Nat.strongRecOn generalizing around with
  | ind depth ih =>
  intro record s members t h hs
  rcases membersOf_cases h with ⟨hlookup, rfl⟩ | ⟨-, rfl, u, hr⟩ | ⟨-, rfl, rfl⟩ |
    ⟨found, rest, ds, u, v, rfl, -, -, -, hds, hms, rfl⟩
  · exact ⟨Nat.le_refl _, hs, hs record members hlookup⟩
  · cases hr
    exact ⟨Nat.le_refl _, fun name ms hn => (hs name ms hn).mono (Nat.le_refl _), .nil _⟩
  · exact ⟨Nat.le_refl _, hs, .nil _⟩
  · have htakes := mapM_takes ([·])
      (fun f s d t hf => build_takes (ih rest (Nat.lt_succ_self _) (record :: around)) hf) hds hs
    rw [List.flatMap_singleton'] at htakes
    have haside := checkedTags_aside hms
    have hlists := checkedTags_lists hms htakes.lists
    refine ⟨Nat.le_trans htakes.size haside.size, fun name ms hn => ?_, hlists.mono (Nat.le_refl _)⟩
    rw [List.lookup_cons] at hn
    split at hn
    · cases hn
      exact hlists.mono (Nat.le_refl _)
    · exact ((htakes.numbered.of_aside haside) name ms hn).mono (Nat.le_refl _)

theorem object_takes {o : DataObject} {d : Decl} (h : object c g o s = some (d, t))
    (hs : s.Numbered) : Takes s t [d] := by
  rw [object_eq] at h
  obtain ⟨d', u, hd, h⟩ := bind_inv h
  have htakes := build_takes (membersOf_keeps c g g.records.length []) hd hs
  have haside := unlessFault_aside (fun _ he => d'.isFault_of_external he) h
  have hsame := unlessFault_same h
  have hnumber := List.forall_mem_singleton.1 htakes.new
  have hlt := List.forall_mem_singleton.1 htakes.lists.lt
  have hbelow := hsame.everywhere (List.forall_mem_singleton.1 htakes.lists.below)
  rw [← hsame.number] at hnumber hlt
  refine ⟨⟨Nat.le_trans htakes.size haside.size, htakes.numbered.of_aside haside, ?_⟩,
    List.forall_mem_singleton.2 hnumber⟩
  exact ⟨List.pairwise_singleton ..,
    List.forall_mem_singleton.2 (Nat.lt_of_lt_of_le hlt haside.size),
    List.forall_mem_singleton.2 hbelow⟩

end Building

/-- **Numbers of declarations.** In every model, with errors or without, declarations side by side
have different numbers. -/
theorem Model.numbered_of_build {c : Config} {g : Registry} {m : Model}
    (h : Model.build c g = some m) : m.Numbered := by
  unfold Model.build at h
  obtain ⟨⟨groups, found⟩, hrun, rfl⟩ := Option.map_eq_some_iff.1 h
  have hgroup : ∀ (os : List DataObject) s ds t, os.mapM (Building.object c g) s = some (ds, t) →
      s.Numbered → Building.Takes s t ds := by
    intro os s ds t hos hs
    have htakes := Building.mapM_takes ([·]) (fun _ _ _ _ ho => Building.object_takes ho) hos hs
    rwa [List.flatMap_singleton'] at htakes
  have htakes := Building.mapM_takes id hgroup hrun fun _ _ hn => (nomatch hn)
  rw [List.flatMap_id] at htakes
  exact ⟨htakes.lists.nodup, htakes.lists.below⟩

end BitLayout
