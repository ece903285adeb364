import BitLayout.Proofs.Decl.Cycles

/-!
# BitLayout.Proofs.Decl.Recursion

Recursion is reported exactly if it exists. That all cycles of records are cut off is known; it is
left that only records that contain themselves are reported to do so. While a record is taken apart,
the records that it stands in lead to it:

```
around  =  [c, b, a]        a  contains  b  contains  c  contains  the record
```

So a record that is met again inside itself is on a cycle. A step *accuses* only such records, and
this is kept when steps follow each other; the invariant that carries it from a record to those in
its fields is that everything around leads to it.

* `Model.cycle_of_recursive`: no false alarms;
* `Config.meets_iff_reaches`: the records that are met are those on the ways from the data objects.

Main statement: `Model.recursive_iff_cycle`.
-/

namespace BitLayout

namespace Building

open Findings

variable {α β : Type} {c : Config} {g : Registry} {around : List String} {s t : Findings}

/-- A step that reports only those records that are met and contain themselves. -/
def Accuses (c : Config) (g : Registry) (x : Building α) : Prop :=
  ∀ s a t, x s = some (a, t) → ∀ record, .recursive record ∈ t.errors →
    .recursive record ∈ s.errors ∨
      c.Meets g record ∧ Relation.TransGen (c.Contains g) record record

namespace Accuses

theorem of_aside {x : Building α} (h : ∀ s a t, x s = some (a, t) → s.Aside t) :
    Accuses c g x := fun s a t hx record hr => .inl ((h s a t hx).cut record hr)

theorem pure (a : α) : Accuses c g (pure a : Building α) :=
  .of_aside fun s b t h => by
    obtain ⟨-, rfl⟩ := pure_inv h
    exact .refl _

theorem bind {x : Building α} {f : α → Building β} (hx : Accuses c g x)
    (hf : ∀ a, Accuses c g (f a)) : Accuses c g (x >>= f) := by
  intro s b t h record hr
  obtain ⟨a, u, hxu, hfu⟩ := bind_inv h
  rcases hf a u b t hfu record hr with hr | hcycle
  · exact hx s a u hxu record hr
  · exact .inr hcycle

theorem map {x : Building α} (f : α → β) (hx : Accuses c g x) : Accuses c g (f <$> x) := by
  intro s b t h
  obtain ⟨a, ha, -⟩ := map_inv h
  exact hx s a t ha

theorem mapM {f : α → Building β} {xs : List α} (h : ∀ x ∈ xs, Accuses c g (f x)) :
    Accuses c g (xs.mapM f) := by
  induction xs with
  | nil => exact .pure []
  | cons x xs ih =>
    obtain ⟨hx, hxs⟩ := List.forall_mem_cons.1 h
    rw [List.mapM_cons]
    exact .bind hx fun _ => .bind (ih hxs) fun _ => .pure _

end Accuses

/-- Making a declaration accuses only records on cycles, if taking apart the records that it leads
to does. -/
theorem build_accuses {membersOf : String → Building (List Decl)} (budget : Nat) (name : String)
    {type : TypeExpr} {own : Option Request} (hd : c.Declared g own type)
    (hmembers : ∀ record, c.Meets g record → c.Enters g own type record →
      Accuses c g (membersOf record)) :
    Accuses c g (build c g membersOf budget name type own) := by
  induction budget generalizing type own with
  | zero =>
    intro s d t h
    cases h
  | succ budget ih =>
    have hrest (r : Resolution)
        (hrecord : ∀ record, r.record? = some record → Accuses c g (membersOf record))
        (hwire : ∀ w, r.wire? = some w → Accuses c g (build c g membersOf budget name w none)) :
        Accuses c g (do
          let members ← membersFor membersOf r.encoding.kind (r.elem.map Element.shape)
          let wire ← wireFor (fun t => build c g membersOf budget name t none) r.encoding.kind
          let d ← declare (infoOf name type r) members wire
          checked g d) := by
      rw [membersFor_record, wireFor_wire]
      refine .bind ?_ fun _ => .bind ?_ fun _ => .bind (.of_aside fun _ _ _ h => declare_aside h)
        fun _ => .of_aside fun _ _ _ h => checked_aside h
      · cases hr : r.record? with
        | none => exact .pure _
        | some record => exact hrecord record hr
      · cases hw : r.wire? with
        | none => exact .pure _
        | some w => exact .map _ (hwire w hw)
    rw [build_succ, resolution]
    cases hr : c.resolve g own type with
    | ok r =>
      rw [pure_bind]
      refine hrest r (fun record hrecord => ?_) fun w hw => ?_
      · exact hmembers record ⟨own, type, r, hd, hr, hrecord⟩ (.record hr hrecord)
      · have hbecomes : c.Becomes g own type w := ⟨r, hr, hw⟩
        exact ih (.wire hd hbecomes) fun record hmeets henters =>
          hmembers record hmeets (.wire hbecomes henters)
    | error e =>
      have hfault : (DeclError.unresolved e).IsFault := by
        intro record h
        cases h
      rw [bind_assoc]
      refine .bind (.of_aside fun _ _ _ h => report_aside hfault h) fun _ => ?_
      rw [pure_bind]
      refine hrest ⟨.dropped, [], none⟩ (fun _ hrecord => ?_) fun _ hw => ?_
      · cases hrecord
      · cases hw

/-- A record that is met leads to what its fields lead to, and these are declared. -/
theorem declared_of_field {record : String} {found : Record} {f : Field} (h : c.Meets g record)
    (hfound : g.record? record = some found) (hf : f ∈ found.fields) :
    c.Declared g (some f.request) f.type := by
  obtain ⟨own, type, r, hd, hr, hrecord⟩ := h
  exact .field hd hr hrecord hfound hf

/-- Taking a record apart accuses only records on cycles, if everything around leads to it. -/
theorem membersOf_accuses {depth : Nat} {around : List String} {record : String}
    (hmeets : c.Meets g record)
    (haround : ∀ outer ∈ around, Relation.TransGen (c.Contains g) outer record) :
    Accuses c g (membersOf c g depth around record) := by
  induction depth using Nat.strongRecOn generalizing around record with
  | ind depth ih =>
  intro s members t h accused haccused
  rcases membersOf_cases h with ⟨-, rfl⟩ | ⟨hmem, -, u, hr⟩ | ⟨-, -, rfl⟩ |
    ⟨found, rest, ds, u, v, rfl, -, -, hfound, hds, hms, rfl⟩
  · exact .inl haccused
  · cases hr
    rcases List.mem_append.1 haccused with hold | hnew
    · exact .inl hold
    · obtain rfl := DeclError.recursive.inj (List.mem_singleton.1 hnew)
      exact .inr ⟨hmeets, haround accused hmem⟩
  · exact .inl haccused
  · have hfields : Accuses c g (found.fields.mapM (field c g rest (record :: around))) := by
      refine .mapM fun f hf => build_accuses _ _ (declared_of_field hmeets hfound hf)
        fun inner hinner henters => ih rest (Nat.lt_succ_self _) hinner ?_
      have hcontains : c.Contains g record inner := ⟨found, hfound, f, hf, henters⟩
      exact List.forall_mem_cons.2 ⟨.single hcontains, fun outer houter =>
        (haround outer houter).tail hcontains⟩
    exact hfields s ds u hds accused ((checkedTags_aside hms).cut accused haccused)

theorem object_accuses {o : DataObject} (ho : o ∈ c.objects) : Accuses c g (object c g o) := by
  have hfault (d : Decl) : ∀ e, (if d.isExternal then some DeclError.outsideStruct else none) =
      some e → e.IsFault := by
    rintro e he record rfl
    split at he <;> cases he
  rw [object_eq]
  exact .bind (build_accuses _ _ (.object ho) fun record hmeets _ => membersOf_accuses hmeets
    fun _ houter => (nomatch houter)) fun d =>
      .of_aside fun _ _ _ h => unlessFault_aside (hfault d) h

end Building

/-- **No false alarms**: a record that is reported to contain itself is met, and does. -/
theorem Model.cycle_of_recursive {c : Config} {g : Registry} {m : Model}
    (h : Model.build c g = some m) {record : String} (hr : .recursive record ∈ m.errors) :
    c.Meets g record ∧ Relation.TransGen (c.Contains g) record record := by
  obtain ⟨⟨groups, s⟩, hrun, rfl⟩ := Option.map_eq_some_iff.1 h
  have haccuses : Building.Accuses c g (c.groups.mapM (List.mapM (Building.object c g))) :=
    .mapM fun os hos => .mapM fun o ho =>
      Building.object_accuses (List.mem_flatten.2 ⟨os, hos, ho⟩)
  exact (haccuses _ _ _ hrun record hr).resolve_left (nomatch ·)

/-! ## records on the way -/

namespace Config

variable {c : Config} {g : Registry} {own : Option Request} {type : TypeExpr} {record : String}

/-- A record is reached from the data objects: it is one that a data object leads to, or contained
in one of these, over any number of records in between. -/
def Reaches (c : Config) (g : Registry) (record : String) : Prop :=
  ∃ o ∈ c.objects, ∃ root, c.Enters g none o.type root ∧
    Relation.ReflTransGen (c.Contains g) root record

/-- What a declaration leads to is met. -/
theorem Enters.meets (h : c.Enters g own type record) (hd : c.Declared g own type) :
    c.Meets g record := by
  induction h with
  | record hr hrecord => exact ⟨_, _, _, hd, hr, hrecord⟩
  | wire hw _ ih => exact ih (.wire hd hw)

/-- What a declaration leads to is reached. -/
theorem Declared.reaches (h : c.Declared g own type) (henters : c.Enters g own type record) :
    c.Reaches g record := by
  induction h generalizing record with
  | object ho => exact ⟨_, ho, record, henters, .refl⟩
  | wire _ hw ih => exact ih (.wire hw henters)
  | field _ hr hrecord hfound hf ih =>
    obtain ⟨o, ho, root, hroot, hway⟩ := ih (.record hr hrecord)
    exact ⟨o, ho, root, hroot, hway.tail ⟨_, hfound, _, hf, henters⟩⟩

/-- Building meets the records that are reached from the data objects, and no others. -/
theorem meets_iff_reaches : c.Meets g record ↔ c.Reaches g record := by
  constructor
  · rintro ⟨own, type, r, hd, hr, hrecord⟩
    exact hd.reaches (.record hr hrecord)
  · rintro ⟨o, ho, root, hroot, hway⟩
    induction hway with
    | refl => exact hroot.meets (.object ho)
    | tail _ hcontains ih =>
      obtain ⟨found, hfound, f, hf, henters⟩ := hcontains
      exact henters.meets (Building.declared_of_field ih hfound hf)

end Config

/-- **Recursion**: unless types on the wire come back to themselves, building returns, and it
reports a record to contain itself if and only if one that is reached from the data objects does.
Every report is about such a record, and of every cycle some record is reported. -/
theorem Model.recursive_iff_cycle {c : Config} {g : Registry}
    (hacyclic : ∀ w, c.Declared g none w → ¬ Relation.TransGen (c.Leads g) w w) :
    ∃ m, Model.build c g = some m ∧
      ((∃ record, .recursive record ∈ m.errors) ↔
        ∃ record, c.Reaches g record ∧ Relation.TransGen (c.Contains g) record record) ∧
      (∀ record, .recursive record ∈ m.errors →
        c.Reaches g record ∧ Relation.TransGen (c.Contains g) record record) ∧
      ∀ record, c.Reaches g record → Relation.TransGen (c.Contains g) record record →
        ∃ r, Relation.TransGen (c.Contains g) record r ∧ Relation.TransGen (c.Contains g) r record ∧
          .recursive r ∈ m.errors := by
  obtain ⟨m, hm⟩ := Option.isSome_iff_exists.1 (Model.isSome_build hacyclic)
  have hsound : ∀ record, .recursive record ∈ m.errors →
      c.Reaches g record ∧ Relation.TransGen (c.Contains g) record record := fun record hr =>
    (Model.cycle_of_recursive hm hr).imp_left Config.meets_iff_reaches.1
  have hcomplete := (Model.cuts_of_build hm).1.records
  refine ⟨m, hm, ⟨fun ⟨record, hr⟩ => ⟨record, hsound record hr⟩, ?_⟩, hsound,
    fun record hreaches hcycle => hcomplete record (Config.meets_iff_reaches.2 hreaches) hcycle⟩
  rintro ⟨record, hreaches, hcycle⟩
  obtain ⟨r, -, -, hr⟩ := hcomplete record (Config.meets_iff_reaches.2 hreaches) hcycle
  exact ⟨r, hr⟩

namespace Sample

/-- A struct that travels as a struct with a field of its own type, and uses a third one twice. -/
def winding : Registry where
  records := [
    ⟨"S", .struct, [⟨"w", .name "W", Request.empty⟩, ⟨"p", .name "P", Request.empty⟩,
      ⟨"q", .name "P", Request.empty⟩], Request.empty, false⟩,
    ⟨"T", .struct, [⟨"s", .name "S", Request.empty⟩], Request.empty, false⟩,
    ⟨"P", .struct, [⟨"n", .name "u8", Request.empty⟩], Request.empty, false⟩]
  aliases := [⟨"W", .name "u8",
    { Request.empty with form := some (.transform ⟨.name "T", .ofWord "f", .ofWord "g"⟩) }⟩]

/-- The only type on the wire is a struct, which leads to no other type on the wire. -/
theorem winding_acyclic : ∀ w, oneStruct.Declared winding none w →
    ¬ Relation.TransGen (oneStruct.Leads winding) w w := by
  intro w _ hcycle
  obtain ⟨v, -, hlast⟩ := Relation.TransGen.tail'_iff.1 hcycle
  have hmem : w ∈ [TypeExpr.name "T"] := hlast.mem_wires
  obtain rfl := List.mem_singleton.1 hmem
  obtain ⟨v, ⟨r, hr, hwire⟩, -⟩ := Relation.TransGen.head'_iff.1 hcycle
  cases hr
  cases hwire

theorem build_winding : (Model.build oneStruct winding).map (·.errors) =
    some [.recursive "S"] := by decide +kernel

/-- The cycle over the type on the wire is reported, and nothing else. -/
theorem winding_reported : (∀ w, oneStruct.Declared winding none w →
      ¬ Relation.TransGen (oneStruct.Leads winding) w w) ∧
    ∃ m, Model.build oneStruct winding = some m ∧ m.errors = [.recursive "S"] ∧
      oneStruct.Reaches winding "S" ∧
      Relation.TransGen (oneStruct.Contains winding) "S" "S" := by
  obtain ⟨found, hfound, herrors⟩ := Option.map_eq_some_iff.1 build_winding
  obtain ⟨m, hm, -, hsound, -⟩ := Model.recursive_iff_cycle winding_acyclic
  obtain rfl := Option.some.inj (hfound.symm.trans hm)
  exact ⟨winding_acyclic, found, hm, herrors, hsound "S" (herrors ▸ List.mem_singleton_self _)⟩

end Sample

end BitLayout
