import BitLayout.Proofs.Item.Sizes
import BitLayout.Proofs.Sector.Aligned
import BitLayout.Proofs.Sector.Places
import Mathlib.Tactic.Choose

/-!
# BitLayout.Proofs.Sector.Filled

What placing leaves in each sector. A cursor stands behind all sectors in front of its own, which
are full, so what is placed between two cursors takes, in every sector, the bits by which it is
fuller at the second one:

```
filled(c', s)  =  filled(c, s) + bits placed in s between c and c'
```

Padding makes this true of every branch of a union, in every sector that the union reaches, and
therefore of the union.

* `Places.fills`: values in a row fill every sector with aligned items;
* `PlacesGroups.fills`: so do groups of data objects, from the first sector on.
-/

namespace BitLayout

/-! ## sectors -/

/-- What is placed in a sector, in order. -/
def inSector (s : Nat) (placed : List Placed) : List Item :=
  (placed.filter (·.sector = s)).map Placed.item

section

variable {s : Nat}

@[simp] theorem inSector_nil : inSector s [] = [] := rfl

theorem inSector_cons (x : Placed) (placed : List Placed) :
    inSector s (x :: placed) = (if x.sector = s then [x.item] else []) ++ inSector s placed := by
  rw [inSector, List.filter_cons]
  by_cases hs : x.sector = s
  · rw [if_pos (decide_eq_true hs), if_pos hs]
    rfl
  · rw [if_neg (by simpa using hs), if_neg hs]
    rfl

@[simp] theorem inSector_append (xs ys : List Placed) :
    inSector s (xs ++ ys) = inSector s xs ++ inSector s ys := by
  rw [inSector, List.filter_append, List.map_append]
  rfl

theorem inSector_flatMap {α : Type} (xs : List α) (f : α → List Placed) :
    inSector s (xs.flatMap f) = xs.flatMap fun x => inSector s (f x) := by
  induction xs with
  | nil => rfl
  | cons x xs ih => rw [List.flatMap_cons, inSector_append, ih, List.flatMap_cons]

end

/-! ## cursors -/

namespace Cursor

/-- A cursor is at or in front of another one. -/
def Upto (c d : Cursor) : Prop := c.sector < d.sector ∨ c.sector = d.sector ∧ c.used ≤ d.used

/-- How many bits of a sector are in front of a cursor. -/
def filled (capacity : Nat) (c : Cursor) (s : Nat) : Nat :=
  if s < c.sector then capacity else if s = c.sector then c.used else 0

variable {c d e : Cursor} {capacity : Nat}

theorem Upto.refl (c : Cursor) : c.Upto c := .inr ⟨rfl, Nat.le_refl _⟩

theorem Upto.trans (h : c.Upto d) (h' : d.Upto e) : c.Upto e := by
  unfold Upto at *
  omega

theorem Upto.sector_le (h : c.Upto d) : c.sector ≤ d.sector := by
  unfold Upto at h
  omega

theorem before_iff : c.before d = true ↔ ¬ d.Upto c := by
  simp only [before, Upto, Bool.or_eq_true, Bool.and_eq_true, decide_eq_true_eq]
  omega

theorem upto_later_left (c d : Cursor) : c.Upto (c.later d) := by
  unfold later
  split
  · next h =>
    have h := before_iff.1 h
    unfold Upto at *
    omega
  · exact .refl c

theorem upto_later_right (c d : Cursor) : d.Upto (c.later d) := by
  unfold later
  split
  · exact .refl d
  · next h => exact Classical.not_not.1 (mt before_iff.2 h)

theorem later_used_le (hc : c.used ≤ capacity) (hd : d.used ≤ capacity) :
    (c.later d).used ≤ capacity := by
  unfold later
  split
  · exact hd
  · exact hc

/-- A sector is at least as full at a later cursor. -/
theorem filled_mono (h : c.Upto d) (hd : c.used ≤ capacity) (s : Nat) :
    c.filled capacity s ≤ d.filled capacity s := by
  unfold filled Upto at *
  split <;> split <;> (repeat' split) <;> omega

/-- At the beginning nothing is filled. -/
theorem filled_zero (s : Nat) : filled capacity ⟨0, 0⟩ s = 0 := by
  simp [filled]

end Cursor

/-! ## padding -/

section

open Packing

variable {capacity : Nat} {cs : List Condition} {c d e : Cursor} {xs ys : List Placed}

/-- Padding from one cursor to another: it fills every sector. -/
def Pads (capacity : Nat) (cs : List Condition) (c c' : Cursor) (out : List Placed) : Prop :=
  ∀ s, ∃ n, c'.filled capacity s = c.filled capacity s + n ∧ Aligned cs [] (inSector s out) n

theorem Pads.refl (capacity : Nat) (cs : List Condition) (c : Cursor) : Pads capacity cs c c [] :=
  fun _ => ⟨0, rfl, .nil cs⟩

theorem Pads.trans (h : Pads capacity cs c d xs) (h' : Pads capacity cs d e ys) :
    Pads capacity cs c e (xs ++ ys) := by
  intro s
  obtain ⟨n, hn, halign⟩ := h s
  obtain ⟨k, hk, halign'⟩ := h' s
  refine ⟨n + k, by omega, ?_⟩
  rw [inSector_append]
  exact halign.append halign' fun _ hu => (nomatch hu)

/-- One piece of padding fills its sector. -/
theorem Pads.single {t bits : Nat} {trailing : Bool}
    (h : ∀ s, d.filled capacity s = c.filled capacity s + if t = s then bits else 0) :
    Pads capacity cs c d [⟨t, .padding cs bits trailing⟩] := by
  intro s
  refine ⟨_, h s, ?_⟩
  rw [inSector_cons]
  split
  · exact .item (.padding bits trailing) (.nil cs)
  · exact .nil cs

/-- Padding up to the end of a sector. -/
theorem pads_fill (hc : c.used ≤ capacity) : Pads capacity cs c c.next (fill capacity cs c) := by
  unfold fill
  split
  · next hlt =>
    refine .single fun s => ?_
    rw [show c.next = ⟨c.sector + 1, 0⟩ from rfl]
    simp only [Cursor.filled]
    (repeat' split) <;> omega
  · next hge =>
    have heq : ∀ s, c.next.filled capacity s = c.filled capacity s := by
      intro s
      rw [show c.next = ⟨c.sector + 1, 0⟩ from rfl]
      simp only [Cursor.filled]
      (repeat' split) <;> omega
    exact fun s => ⟨0, heq s, .nil cs⟩

/-- Sectors of nothing but padding. -/
theorem pads_sectors (capacity : Nat) (cs : List Condition) (first count : Nat) :
    Pads capacity cs ⟨first, 0⟩ ⟨first + count, 0⟩
      ((List.range' first count).map fun sector => ⟨sector, .padding cs capacity true⟩) := by
  induction count generalizing first with
  | zero => exact .refl _ _ _
  | succ count ih =>
    have hfirst : Pads capacity cs ⟨first, 0⟩ ⟨first + 1, 0⟩
        [⟨first, .padding cs capacity true⟩] := by
      refine .single fun s => ?_
      simp only [Cursor.filled]
      (repeat' split) <;> omega
    have hrest := hfirst.trans (ih (first + 1))
    rw [Nat.add_assoc, Nat.add_comm 1 count] at hrest
    exact hrest

/-- Padding from the beginning of a sector. -/
theorem pads_front (cs : List Condition) (t used : Nat) :
    Pads capacity cs ⟨t, 0⟩ ⟨t, used⟩
      (if used = 0 then [] else [⟨t, .padding cs used false⟩]) := by
  split
  · next hzero =>
    rw [hzero]
    exact .refl _ _ _
  · refine .single fun s => ?_
    simp only [Cursor.filled]
    (repeat' split) <;> omega

/-- Padding from the end of a branch to the end of its union. -/
theorem pads_fillBranch (cs : List Condition) (hc : c.used ≤ capacity) (h : c.Upto d) :
    Pads capacity cs c d (fillBranch capacity cs c d) := by
  unfold Cursor.Upto at h
  unfold fillBranch
  split
  · next hsector =>
    split
    · refine .single fun s => ?_
      unfold Cursor.filled
      (repeat' split) <;> omega
    · have heq : d = c := by
        obtain ⟨t, used⟩ := c
        obtain ⟨t', used'⟩ := d
        simp only [Cursor.mk.injEq] at *
        omega
      rw [heq]
      exact .refl _ _ _
  · next hsector =>
    have hlt : c.sector + 1 + (d.sector - c.sector - 1) = d.sector := by omega
    have hmiddle := pads_sectors capacity cs (c.sector + 1)
      (d.sector - c.sector - 1)
    rw [hlt] at hmiddle
    rw [List.append_assoc]
    exact (pads_fill hc).trans (hmiddle.trans (pads_front cs d.sector d.used))

end

/-! ## values -/

/-- What is placed from one cursor to another: it fills every sector with aligned items, which test
unions within the values `ps`. -/
structure Fills (capacity : Nat) (cs : List Condition) (ps : List Path) (c c' : Cursor)
    (out : List Placed) : Prop where
  upto : c.Upto c'
  used : c'.used ≤ capacity
  aligned : ∀ s, ∃ us n, c'.filled capacity s = c.filled capacity s + n ∧
    Aligned cs us (inSector s out) n ∧ ∀ u ∈ us, ∃ p ∈ ps, u.Within p

namespace Fills

variable {capacity : Nat} {cs : List Condition} {p : Path} {ps qs : List Path} {c d e : Cursor}
  {xs ys : List Placed}

theorem refl (hc : c.used ≤ capacity) : Fills capacity cs [] c c [] :=
  ⟨.refl c, hc, fun _ => ⟨[], 0, rfl, .nil cs, fun _ hu => (nomatch hu)⟩⟩

/-- Padding fills sectors with items that test nothing. -/
theorem of_pads (h : Pads capacity cs c d xs) (hupto : c.Upto d) (hd : d.used ≤ capacity) :
    Fills capacity cs ps c d xs := by
  refine ⟨hupto, hd, fun s => ?_⟩
  obtain ⟨n, hn, halign⟩ := h s
  exact ⟨[], n, hn, halign, fun _ hu => (nomatch hu)⟩

/-- The values may be replaced by others that they lie within. -/
theorem mono (h : Fills capacity cs ps c d xs) (hwithin : ∀ p ∈ ps, ∃ q ∈ qs, p.Within q) :
    Fills capacity cs qs c d xs := by
  refine ⟨h.upto, h.used, fun s => ?_⟩
  obtain ⟨us, n, hn, halign, hus⟩ := h.aligned s
  refine ⟨us, n, hn, halign, fun u hu => ?_⟩
  obtain ⟨p, hp, hup⟩ := hus u hu
  obtain ⟨q, hq, hpq⟩ := hwithin p hp
  exact ⟨q, hq, hup.trans hpq⟩

/-- Values that are apart test different unions. -/
theorem append (h : Fills capacity cs ps c d xs) (h' : Fills capacity cs qs d e ys)
    (hapart : ∀ p ∈ ps, ∀ q ∈ qs, p.Apart q) : Fills capacity cs (ps ++ qs) c e (xs ++ ys) := by
  refine ⟨h.upto.trans h'.upto, h'.used, fun s => ?_⟩
  obtain ⟨us, n, hn, halign, hus⟩ := h.aligned s
  obtain ⟨vs, k, hk, halign', hvs⟩ := h'.aligned s
  refine ⟨us ++ vs, n + k, by omega, ?_, fun u hu => ?_⟩
  · rw [inSector_append]
    refine halign.append halign' fun u hu v hv heq => ?_
    obtain ⟨p, hp, hup⟩ := hus u hu
    obtain ⟨q, hq, hvq⟩ := hvs v hv
    refine (hapart p hp q hq).not_both hup ?_
    rw [Path.Within, heq]
    exact hvq
  · rcases List.mem_append.1 hu with hu | hu
    · obtain ⟨p, hp, hup⟩ := hus u hu
      exact ⟨p, List.mem_append_left _ hp, hup⟩
    · obtain ⟨q, hq, huq⟩ := hvs u hu
      exact ⟨q, List.mem_append_right _ hq, huq⟩

/-- A value that is placed whole. -/
theorem single {t : Cursor} (hupto : c.Upto d) (hd : d.used ≤ capacity)
    (h : ∀ s, d.filled capacity s = c.filled capacity s + if t.sector = s then p.last.bits else 0) :
    Fills capacity cs [p] c d [.value t cs p] := by
  refine ⟨hupto, hd, fun s => ⟨[], _, h s, ?_, fun _ hu => (nomatch hu)⟩⟩
  rw [inSector_cons, show (Placed.value t cs p).sector = t.sector from rfl]
  split
  · exact .item (.value p) (.nil cs)
  · exact .nil cs

end Fills

namespace Packing

variable {capacity : Nat} {cs : List Condition} {p : Path}

/-- A union ends behind its beginning and all its branches. -/
theorem upto_joinBranches (capacity : Nat) (start : Cursor)
    (branches : List (List Condition × Placement)) :
    start.Upto (joinBranches capacity start branches).1 ∧
      (∀ b ∈ branches, b.2.1.Upto (joinBranches capacity start branches).1) ∧
      (start.used ≤ capacity → (∀ b ∈ branches, b.2.1.used ≤ capacity) →
        (joinBranches capacity start branches).1.used ≤ capacity) := by
  induction branches generalizing start with
  | nil => exact ⟨.refl _, fun _ hb => (nomatch hb), fun h _ => h⟩
  | cons b branches ih =>
    obtain ⟨hstart, hrest, hused⟩ := ih (start.later b.2.1)
    refine ⟨(Cursor.upto_later_left ..).trans hstart, ?_, fun hs hb => ?_⟩
    · exact List.forall_mem_cons.2 ⟨(Cursor.upto_later_right ..).trans hstart, hrest⟩
    · obtain ⟨hb, hbs⟩ := List.forall_mem_cons.1 hb
      exact hused (Cursor.later_used_le hs hb) hbs

/-- What a union places behind its shared parts is placed by one of its branches, or pads that
branch to the end of the union. -/
theorem mem_joinBranches {start : Cursor} {ends : List (Variant × Placement)} {x : Placed}
    (hx : x ∈ (joinBranches capacity start (branchesOf cs p ends)).2) :
    ∃ e ∈ ends, x ∈ e.2.2 ∨ (e.2.1.sector ≤ x.sector ∧
      x.sector ≤ (joinBranches capacity start (branchesOf cs p ends)).1.sector ∧
      ∃ bits trailing, x.item = .padding (e.1.conditions cs p) bits trailing) := by
  obtain ⟨b, hb, hx⟩ := List.mem_flatMap.1 hx
  have hstop := ((upto_joinBranches capacity start (branchesOf cs p ends)).2.1 b hb).sector_le
  obtain ⟨e, he, rfl⟩ := List.mem_map.1 hb
  cases List.mem_append.1 hx with
  | inl hx => exact ⟨e, he, .inl hx⟩
  | inr hx => exact ⟨e, he, .inr (mem_fillBranch hstop hx)⟩

/-- The branches of a union in one sector. -/
def lanesOf (capacity : Nat) (cs : List Condition) (p : Path) (finish : Cursor) (s : Nat)
    (ends : List (Variant × Placement)) : List (Variant × List Item) :=
  ends.map fun e => (e.1, inSector s
    (e.2.2 ++ fillBranch capacity (e.1.conditions cs p) e.2.1 finish))

theorem inSector_joinBranches (start : Cursor) (s : Nat) (ends : List (Variant × Placement)) :
    inSector s (joinBranches capacity start (branchesOf cs p ends)).2 =
      (lanesOf capacity cs p (joinBranches capacity start (branchesOf cs p ends)).1 s ends).flatMap
        Prod.snd := by
  rw [lanesOf, List.flatMap_map, ← inSector_flatMap]
  conv_lhs => rw [joinBranches]
  dsimp only
  rw [branchesOf, List.flatMap_map]
  rfl

/-- Behind what its variants share, a union fills every sector with aligned items that test the
union alone, if its arms fill what they are placed in. -/
theorem aligned_joinBranches {shared : List Path} {arms : List Variant} {g : Registry}
    {records : List (String × List Decl)} {start : Cursor} {ends : List (Variant × Placement)}
    (hs : p.Switch shared arms) (hsound : p.last.decl.Sound g records)
    (hstart : start.used ≤ capacity) (harms : ends.map Prod.fst = arms)
    (hfills : ∀ e ∈ ends, Fills capacity (e.1.conditions cs p) e.1.parts start e.2.1 e.2.2) :
    start.Upto (joinBranches capacity start (branchesOf cs p ends)).1 ∧
      (joinBranches capacity start (branchesOf cs p ends)).1.used ≤ capacity ∧
      ∀ s, ∃ n, (joinBranches capacity start (branchesOf cs p ends)).1.filled capacity s =
          start.filled capacity s + n ∧
        Aligned cs [p] (inSector s (joinBranches capacity start (branchesOf cs p ends)).2) n := by
  generalize hfinish : (joinBranches capacity start (branchesOf cs p ends)).1 = finish
  obtain ⟨hupto, hends, hused⟩ := upto_joinBranches capacity start (branchesOf cs p ends)
  have hused := hused hstart fun b hb => by
    obtain ⟨e, he, rfl⟩ := List.mem_map.1 hb
    exact (hfills e he).used
  rw [hfinish] at hupto hends hused
  refine ⟨hupto, hused, fun s => ?_⟩
  have hmono := Cursor.filled_mono hupto hstart s
  obtain ⟨b, hb⟩ := Nat.exists_eq_add_of_le hmono
  -- Every branch is padded up to the end of the union.
  have hlanes : ∀ l ∈ lanesOf capacity cs p finish s ends,
      ∃ us, Aligned (l.1.conditions cs p) us l.2 b := by
    intro l hl
    obtain ⟨e, he, rfl⟩ := List.mem_map.1 hl
    have hstop := hends _ (List.mem_map_of_mem he)
    obtain ⟨us, n, hn, halign, -⟩ := (hfills e he).aligned s
    obtain ⟨k, hk, hpads⟩ := pads_fillBranch (e.1.conditions cs p) (hfills e he).used hstop s
    obtain rfl : b = n + k := by omega
    refine ⟨us ++ [], ?_⟩
    rw [inSector_append]
    exact halign.append hpads fun _ _ _ hv => (nomatch hv)
  choose! tests htests using hlanes
  have hvalues : (lanesOf capacity cs p finish s ends).map (·.1.value) =
      arms.map Variant.value := by
    rw [lanesOf, List.map_map, ← harms, List.map_map]
    rfl
  have halign : Aligned cs [p] (inSector s (joinBranches capacity start (branchesOf cs p ends)).2)
      (b + 0) := by
    rw [inSector_joinBranches, hfinish, ← List.append_nil (List.flatMap _ _)]
    refine .union tests (hvalues.trans (hs.values hsound)) ?_ (fun hnil => ?_) htests
      (fun _ hv => (nomatch hv)) (.nil cs)
    · rw [hvalues]
      exact hs.nodup_values hsound
    · rw [lanesOf, List.map_eq_nil_iff] at hnil
      subst hnil
      have hsame : finish = start := hfinish.symm
      rw [hsame] at hb
      omega
  exact ⟨b + 0, hb, halign⟩

end Packing

/-- A union that is switched fills what its shared parts and its branches fill. -/
theorem Fills.switch {capacity : Nat} {cs : List Condition} {p : Path} {shared : List Path}
    {arms : List Variant} {c d e : Cursor} {xs ys : List Placed} (hs : p.Switch shared arms)
    (h : Fills capacity cs shared c d xs) (hupto : d.Upto e) (hused : e.used ≤ capacity)
    (h' : ∀ s, ∃ n, e.filled capacity s = d.filled capacity s + n ∧
      Aligned cs [p] (inSector s ys) n) : Fills capacity cs [p] c e (xs ++ ys) := by
  refine ⟨h.upto.trans hupto, hused, fun s => ?_⟩
  obtain ⟨us, n, hn, halign, hus⟩ := h.aligned s
  obtain ⟨k, hk, halign'⟩ := h' s
  refine ⟨us ++ [p], n + k, by omega, ?_, fun u hu => ⟨p, List.mem_singleton_self p, ?_⟩⟩
  · rw [inSector_append]
    refine halign.append halign' fun u hu v hv => ?_
    rw [List.mem_singleton.1 hv]
    obtain ⟨q, hq, huq⟩ := hus u hu
    obtain ⟨w, hw⟩ := hs.within hq
    exact (huq.trans hw).ne
  · rcases List.mem_append.1 hu with hu | hu
    · obtain ⟨q, hq, huq⟩ := hus u hu
      obtain ⟨w, hw⟩ := hs.within hq
      exact (huq.trans hw).trans (Path.within_member p w)
    · rw [List.mem_singleton.1 hu]
      exact .refl p

open Packing

/-- The first value of a row tests other unions than the values behind it. -/
theorem Row.cons_fills {capacity : Nat} {roots : List Decl} {cs : List Condition} {p : Path}
    {ps : List Path} {c d e : Cursor} {xs ys : List Placed} (hrow : Row roots cs (p :: ps))
    (h : Fills capacity cs [p] c d xs) (h' : Fills capacity cs ps d e ys) :
    Fills capacity cs (p :: ps) c e (xs ++ ys) := by
  refine h.append h' fun q hq r hr => ?_
  rw [List.mem_singleton.1 hq]
  exact (List.pairwise_cons.1 hrow.apart).1 r hr

/-- **Filling**: values in a row that are placed fill every sector with aligned items. -/
theorem Places.fills {capacity : Nat} {g : Registry} {m : Model} {cs : List Condition}
    {ps : List Path} {c c' : Cursor} {out : List Placed} (hm : m.Sound g)
    (h : Places capacity cs ps c c' out) (hrow : Row m.roots cs ps) (hc : c.used ≤ capacity) :
    Fills capacity cs ps c c' out := by
  induction h with
  | nil => exact .refl hc
  | @omitted cs p ps c c' out homit h ih =>
    refine (hrow.cons_fills ?_ (ih hrow.tail hc))
    have hzero := Step.bits_of_omitted homit
    split
    · exact .single (.refl c) hc fun s => by rw [hzero, ite_self, Nat.add_zero]
    · exact (Fills.refl hc).mono fun _ hp => (nomatch hp)
  | @fits cs p ps c c' out homit hfit h ih =>
    have hvalue : Fills capacity cs [p] c ⟨c.sector, c.used + p.last.bits⟩ [.value c cs p] := by
      refine .single (.inr ⟨rfl, Nat.le_add_right ..⟩) hfit fun s => ?_
      simp only [Cursor.filled]
      (repeat' split) <;> omega
    exact hrow.cons_fills hvalue (ih hrow.tail hfit)
  | @row cs p ps qs c d c' inner out homit hfit hp hinner h ihinner ih =>
    have hreached := hrow.reached p List.mem_cons_self
    have hfills := ihinner (.ofParts hm hreached homit hp) hc
    refine hrow.cons_fills (hfills.mono fun q hq => ?_) (ih hrow.tail hfills.used)
    exact ⟨p, List.mem_singleton_self p, hp.within (hrow.unsliced p List.mem_cons_self) hq⟩
  | @union cs p ps shared arms c d c' first out ends homit hfit hs hfirst harms hends h ihfirst
      ihends ih =>
    have hreached := hrow.reached p List.mem_cons_self
    have hfills := ihfirst (.ofShared hm hreached homit hs) hc
    obtain ⟨hupto, hused, hjoin⟩ := aligned_joinBranches hs (hreached.sound hm).self hfills.used
      harms fun e he => ihends e he
        (.ofArm hm hreached homit hs (harms ▸ List.mem_map_of_mem he)) hfills.used
    exact hrow.cons_fills (hfills.switch hs hupto hused hjoin) (ih hrow.tail hused)
  | @next cs p ps c c' out homit hfit hwhole hbits h ih =>
    have hfill : Fills capacity cs [] c c.next (fill capacity cs c) :=
      .of_pads (pads_fill hc) (.inl (Nat.lt_succ_self _)) (Nat.zero_le _)
    have hvalue : Fills capacity cs [p] c.next ⟨c.sector + 1, p.last.bits⟩
        [.value c.next cs p] := by
      refine .single (.inr ⟨rfl, Nat.zero_le _⟩) hbits fun s => ?_
      rw [show c.next = ⟨c.sector + 1, 0⟩ from rfl]
      simp only [Cursor.filled]
      (repeat' split) <;> omega
    rw [List.append_cons]
    exact hrow.cons_fills (hfill.append hvalue fun _ hp => (nomatch hp)) (ih hrow.tail hbits)

/-! ## groups -/

/-- Groups of data objects of a model, none of which occurs twice. -/
structure Model.Grouping (m : Model) (groups : List (List Decl)) : Prop where
  sub : ∀ d ∈ groups.flatten, d ∈ m.roots
  nodup : (groups.flatten.map Decl.number).Nodup

/-- The groups of a sound model are such groups. -/
theorem Model.Sound.grouping {g : Registry} {m : Model} (hm : m.Sound g) : m.Grouping m.groups :=
  ⟨fun _ hd => hd, hm.nodup⟩

/-- The next group begins behind everything that is placed. -/
theorem Fills.opened {capacity : Nat} {ps : List Path} {before : Placement}
    (h : Fills capacity [] ps ⟨0, 0⟩ before.1 before.2) :
    Fills capacity [] ps ⟨0, 0⟩ (opened capacity before).1 (opened capacity before).2 := by
  unfold Packing.opened
  split
  · have hfill : Fills capacity [] [] before.1 before.1.next (fill capacity [] before.1) :=
      .of_pads (pads_fill h.used) (.inl (Nat.lt_succ_self _)) (Nat.zero_le _)
    have happend := h.append hfill fun _ _ _ hq => (nomatch hq)
    rw [List.append_nil] at happend
    exact happend
  · exact h

/-- Groups of data objects that are placed fill every sector with aligned items. -/
theorem PlacesGroups.fills {capacity : Nat} {g : Registry} {m : Model} {groups : List (List Decl)}
    {before after : Placement} {ps : List Path} (hm : m.Sound g)
    (h : PlacesGroups capacity groups before after)
    (hbefore : Fills capacity [] ps ⟨0, 0⟩ before.1 before.2)
    (hrow : Row m.roots [] (ps ++ groups.flatten.map Path.root)) :
    Fills capacity [] (ps ++ groups.flatten.map Path.root) ⟨0, 0⟩ after.1 after.2 := by
  induction h generalizing ps with
  | nil =>
    rw [List.flatten_nil, List.map_nil, List.append_nil]
    exact hbefore
  | @cons objects groups before after c more h hrest ih =>
    rw [List.flatten_cons, List.map_append, ← List.append_assoc] at hrow ⊢
    obtain ⟨hfront, -, -⟩ := List.pairwise_append.1 hrow.apart
    obtain ⟨-, hobjects, hapart⟩ := List.pairwise_append.1 hfront
    have hgroup : Row m.roots [] (objects.map Path.root) := by
      refine ⟨fun p hp => hrow.reached p ?_, fun p hp => hrow.unsliced p ?_, hobjects⟩ <;>
        exact List.mem_append_left _ (List.mem_append_right _ hp)
    have hopened := hbefore.opened
    exact ih (hopened.append (h.fills hm hgroup hopened.used) hapart) hrow

/-- All sectors that groups are placed in hold aligned items, of no more bits than a sector. -/
theorem PlacesGroups.aligned {capacity : Nat} {g : Registry} {m : Model}
    {groups : List (List Decl)} {after : Placement} (hm : m.Sound g) (hgroups : m.Grouping groups)
    (h : PlacesGroups capacity groups (⟨0, 0⟩, []) after) (s : Nat) :
    ∃ us n, Aligned [] us (inSector s after.2) n ∧ n ≤ capacity := by
  have hrow : Row m.roots [] ([] ++ groups.flatten.map Path.root) :=
    .ofRoots hgroups.sub hgroups.nodup
  have hfills := h.fills hm (.refl (Nat.zero_le _)) hrow
  obtain ⟨us, n, hn, halign, -⟩ := hfills.aligned s
  refine ⟨us, n, halign, ?_⟩
  have hle : after.1.filled capacity s ≤ capacity := by
    have hused := hfills.used
    unfold Cursor.filled
    (repeat' split) <;> omega
  rw [Cursor.filled_zero] at hn
  omega

end BitLayout
