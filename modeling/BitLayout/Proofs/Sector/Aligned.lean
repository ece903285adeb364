import BitLayout.Proofs.Item.Parts
import BitLayout.Sector.Offsets

/-!
# BitLayout.Proofs.Sector.Aligned

When the branches of the unions in a sector fit together. An assignment picks a variant for every
union, and the items that travel under it are *active*. Items are *aligned* if, union by union, the
branches of all variants stand next to each other and take the same bits, so that what is active
takes the same bits under every assignment:

```
bits(aligned items)  =  bits of the active ones, whatever the assignment
```

The walk that computes offsets keeps a stack of open branches and knows nothing of assignments. On
aligned items both agree:

* `Aligned.activeBits_eq`: the active items take the same bits under every assignment;
* `Aligned.follows`: each active item begins where those in front of it end;
* `Aligned.bitLength_eq`: the walk ends where the active items end.
-/

namespace BitLayout

/-! ## assignments -/

/-- A choice among the variant ids of every union. -/
structure Assignment where
  pick : Path → Int
  picks : ∀ p, p.last.decl.variantIds ≠ [] → pick p ∈ p.last.decl.variantIds

/-- Whether a condition holds under an assignment. -/
def Condition.holds (a : Assignment) (c : Condition) : Bool := a.pick c.union = c.value

/-- Whether all conditions of an item hold. -/
def Item.isActive (a : Assignment) (i : Item) : Bool := i.conditions.all (·.holds a)

/-- The bits of the active ones among some items. -/
def activeBits (a : Assignment) (items : List Item) : Nat :=
  Item.sumBits (items.filter (·.isActive a))

variable {a : Assignment} {cs : List Condition} {us vs : List Path} {items : List Item} {n : Nat}

theorem Item.sumBits_append (is js : List Item) :
    Item.sumBits (is ++ js) = Item.sumBits is + Item.sumBits js := by
  induction is with
  | nil => rw [List.nil_append, sumBits, Nat.zero_add]
  | cons i is ih => rw [List.cons_append, sumBits, sumBits, ih, Nat.add_assoc]

theorem activeBits_append (a : Assignment) (is js : List Item) :
    activeBits a (is ++ js) = activeBits a is + activeBits a js := by
  rw [activeBits, List.filter_append, Item.sumBits_append]
  rfl

theorem activeBits_cons (a : Assignment) (i : Item) (is : List Item) :
    activeBits a (i :: is) = (if i.isActive a then i.bits else 0) + activeBits a is := by
  rw [activeBits, List.filter_cons]
  split
  · rfl
  · rw [Nat.zero_add, activeBits]

/-- Nothing is taken by items of which none is active. -/
theorem activeBits_eq_zero (h : ∀ i ∈ items, i.isActive a = false) : activeBits a items = 0 := by
  rw [activeBits, List.filter_eq_nil_iff.2 fun i hi => by simp [h i hi]]
  rfl

/-! ## alignment -/

/-- Items that stand under `cs` at least, test the unions `us` directly below, one after the other,
and take `n` bits under every assignment. -/
inductive Aligned : List Condition → List Path → List Item → Nat → Prop where
  | nil (cs : List Condition) : Aligned cs [] [] 0
  | item {cs : List Condition} {us : List Path} {items : List Item} {n : Nat} (content : Content)
    (h : Aligned cs us items n) :
    Aligned cs us (⟨cs, content⟩ :: items) ((Item.mk cs content).bits + n)
  /-- The branches of a union, each with the items that it has in the sector. -/
  | union {cs : List Condition} {u : Path} {us : List Path} {lanes : List (Variant × List Item)}
    {items : List Item} {b n : Nat} (tests : Variant × List Item → List Path)
    (hvalues : lanes.map (·.1.value) = u.last.decl.variantIds)
    (hnodup : (lanes.map (·.1.value)).Nodup) (hnone : lanes = [] → b = 0)
    (hlanes : ∀ l ∈ lanes, Aligned (l.1.conditions cs u) (tests l) l.2 b)
    (hfresh : ∀ v ∈ us, u.trail ≠ v.trail) (h : Aligned cs us items n) :
    Aligned cs (u :: us) (lanes.flatMap Prod.snd ++ items) (b + n)

namespace Aligned

/-- All items stand under the conditions. -/
theorem conditions (h : Aligned cs us items n) : ∀ i ∈ items, ∃ ds, i.conditions = cs ++ ds := by
  induction h with
  | nil => exact fun _ hi => (nomatch hi)
  | item content h ih =>
    intro i hi
    rcases List.mem_cons.1 hi with rfl | hi
    · exact ⟨[], (List.append_nil _).symm⟩
    · exact ih i hi
  | union tests hvalues hnodup hnone hlanes hfresh h ihlanes ih =>
    intro i hi
    cases List.mem_append.1 hi with
    | inl hi =>
      obtain ⟨l, hl, hi⟩ := List.mem_flatMap.1 hi
      obtain ⟨ds, hds⟩ := ihlanes l hl i hi
      exact ⟨_, hds.trans (List.append_assoc ..)⟩
    | inr hi => exact ih i hi

/-- Aligned items that test different unions are aligned together. -/
theorem append {is js : List Item} {k : Nat} (h : Aligned cs us is n) (h' : Aligned cs vs js k)
    (hfresh : ∀ u ∈ us, ∀ v ∈ vs, u.trail ≠ v.trail) :
    Aligned cs (us ++ vs) (is ++ js) (n + k) := by
  induction h with
  | nil =>
    rw [Nat.zero_add]
    exact h'
  | item content h ih =>
    rw [Nat.add_assoc]
    exact .item content (ih h' hfresh)
  | union tests hvalues hnodup hnone hlanes hfresh' h _ ih =>
    rw [List.append_assoc, Nat.add_assoc]
    refine .union tests hvalues hnodup hnone hlanes (fun v hv => ?_)
      (ih h' fun u hu => hfresh u (List.mem_cons_of_mem _ hu))
    cases List.mem_append.1 hv with
    | inl hv => exact hfresh' v hv
    | inr hv => exact hfresh _ List.mem_cons_self v hv

/-- No items take no bits. -/
theorem eq_zero_of_nil (h : Aligned cs us [] n) : n = 0 := by
  generalize hitems : ([] : List Item) = items at h
  induction h with
  | nil => rfl
  | item => cases hitems
  | @union _ _ _ lanes _ _ _ tests _ _ hnone hlanes _ h ihlanes ih =>
    obtain ⟨hlane, hrest⟩ := List.append_eq_nil_iff.1 hitems.symm
    rw [ih hrest.symm, Nat.add_zero]
    cases lanes with
    | nil => exact hnone rfl
    | cons l lanes =>
      exact ihlanes l List.mem_cons_self (List.flatMap_eq_nil_iff.1 hlane l List.mem_cons_self).symm

/-- Nothing is active under a condition that does not hold. -/
theorem inactive {c : Condition} (h : Aligned cs us items n) (hc : c ∈ cs)
    (hfalse : c.holds a = false) : ∀ i ∈ items, i.isActive a = false := by
  intro i hi
  obtain ⟨ds, hds⟩ := h.conditions i hi
  cases hactive : i.isActive a with
  | false => rfl
  | true =>
    rw [Item.isActive, List.all_eq_true] at hactive
    rw [hactive c (hds ▸ List.mem_append_left _ hc)] at hfalse
    cases hfalse

end Aligned

/-- The last condition of an arm. -/
theorem Variant.mem_conditions (cs : List Condition) (u : Path) (m : Variant) :
    ⟨u, m.tag, m.value⟩ ∈ m.conditions cs u := List.mem_append_right _ (List.mem_singleton_self _)

/-- Under the conditions of an arm, everything holds if it holds in front and the arm is picked. -/
theorem Variant.holds_conditions {u : Path} {m : Variant} (hcs : ∀ c ∈ cs, c.holds a = true)
    (hpick : a.pick u = m.value) : ∀ c ∈ m.conditions cs u, c.holds a = true := by
  intro c hc
  cases List.mem_append.1 hc with
  | inl hc => exact hcs c hc
  | inr hc => rw [List.mem_singleton.1 hc, Condition.holds, hpick, decide_eq_true_eq]

theorem Variant.holds_false {u : Path} {m : Variant} (hpick : a.pick u ≠ m.value) :
    (⟨u, m.tag, m.value⟩ : Condition).holds a = false := by
  rw [Condition.holds, decide_eq_false_iff_not]
  exact hpick

namespace Aligned

/-- Only the picked branch of a union takes bits. -/
theorem activeBits_lanes {u : Path} {lanes : List (Variant × List Item)} {b : Nat}
    {tests : Variant × List Item → List Path} (hnodup : (lanes.map (·.1.value)).Nodup)
    (hlanes : ∀ l ∈ lanes, Aligned (l.1.conditions cs u) (tests l) l.2 b)
    (hactive : ∀ l ∈ lanes, a.pick u = l.1.value → activeBits a l.2 = b) :
    activeBits a (lanes.flatMap Prod.snd) =
      if a.pick u ∈ lanes.map (·.1.value) then b else 0 := by
  induction lanes with
  | nil => rfl
  | cons l lanes ih =>
    obtain ⟨hl, hlanes⟩ := List.forall_mem_cons.1 hlanes
    obtain ⟨hb, hactive⟩ := List.forall_mem_cons.1 hactive
    rw [List.map_cons, List.nodup_cons] at hnodup
    rw [List.flatMap_cons, activeBits_append, ih hnodup.2 hlanes hactive, List.map_cons]
    by_cases hpick : a.pick u = l.1.value
    · rw [hb hpick, if_pos (List.mem_cons.2 (.inl hpick)), if_neg (by rw [hpick]; exact hnodup.1),
        Nat.add_zero]
    · rw [activeBits_eq_zero (hl.inactive (Variant.mem_conditions ..) (Variant.holds_false hpick)),
        Nat.zero_add]
      simp only [List.mem_cons, hpick, false_or]

/-- The branches of a union take the same bits under every assignment. -/
theorem activeBits_union {u : Path} {lanes : List (Variant × List Item)} {b : Nat}
    {tests : Variant × List Item → List Path}
    (hvalues : lanes.map (·.1.value) = u.last.decl.variantIds)
    (hnodup : (lanes.map (·.1.value)).Nodup) (hnone : lanes = [] → b = 0)
    (hlanes : ∀ l ∈ lanes, Aligned (l.1.conditions cs u) (tests l) l.2 b)
    (hactive : ∀ l ∈ lanes, a.pick u = l.1.value → activeBits a l.2 = b) :
    activeBits a (lanes.flatMap Prod.snd) = b := by
  rw [activeBits_lanes hnodup hlanes hactive]
  by_cases hids : lanes = []
  · rw [hnone hids, ite_self]
  · rw [if_pos]
    rw [hvalues]
    refine a.picks u fun hnil => hids ?_
    rw [← hvalues, List.map_eq_nil_iff] at hnil
    exact hnil

/-- The active ones among aligned items take the same bits under every assignment. -/
theorem activeBits_eq (h : Aligned cs us items n) (hcs : ∀ c ∈ cs, c.holds a = true) :
    activeBits a items = n := by
  induction h with
  | nil => rfl
  | item content h ih =>
    rw [activeBits_cons, ih hcs, if_pos]
    exact List.all_eq_true.2 hcs
  | union tests hvalues hnodup hnone hlanes hfresh h ihlanes ih =>
    rw [activeBits_append, ih hcs, activeBits_union hvalues hnodup hnone hlanes
      fun l hl hpick => ihlanes l hl (Variant.holds_conditions hcs hpick)]

end Aligned

/-! ## the stack of open branches -/

namespace Sector

variable {outer inner branches : List OpenBranch} {p position : Nat} {seen : List Path}

/-- Where the walk stands: the open branches, and the position. -/
abbrev Standing := List OpenBranch × Nat

/-- Go on behind an item. -/
def advance (s : Standing) (i : Item) : Standing :=
  ((enter s.1 i.conditions s.2).1, (enter s.1 i.conditions s.2).2 + i.bits)

theorem offsetsFrom_cons (s : Standing) (i : Item) (items : List Item) :
    offsetsFrom s.1 s.2 (i :: items) =
      (((enter s.1 i.conditions s.2).2, i.bits) ::
        (offsetsFrom (advance s i).1 (advance s i).2 items).1,
      (offsetsFrom (advance s i).1 (advance s i).2 items).2) := rfl

theorem offsetsFrom_append (s : Standing) (is js : List Item) :
    offsetsFrom s.1 s.2 (is ++ js) =
      ((offsetsFrom s.1 s.2 is).1 ++
        (offsetsFrom (is.foldl advance s).1 (is.foldl advance s).2 js).1,
      (offsetsFrom (is.foldl advance s).1 (is.foldl advance s).2 js).2) := by
  induction is generalizing s with
  | nil => rfl
  | cons i is ih => rw [List.cons_append, offsetsFrom_cons, ih, offsetsFrom_cons]; rfl

theorem length_offsetsFrom (s : Standing) (items : List Item) :
    (offsetsFrom s.1 s.2 items).1.length = items.length := by
  have h := congrArg List.length (map_snd_offsetsFrom s.1 s.2 items)
  simpa using h

/-- Branches with the conditions that come next stay open. -/
theorem enter_append (outer inner : List OpenBranch) (ds : List Condition) (position : Nat) :
    enter (outer ++ inner) (outer.map OpenBranch.condition ++ ds) position =
      (outer ++ (enter inner ds position).1, (enter inner ds position).2) := by
  induction outer with
  | nil => rfl
  | cons b outer ih =>
    rw [List.cons_append, List.map_cons, List.cons_append, enter, if_pos BEq.rfl, ih]
    rfl

/-- The walk stands at `p` behind everything in the branches `outer`. Of those that are open below
them, the first belongs to one of the unions `seen`. -/
def Stands (outer : List OpenBranch) (p : Nat) (seen : List Path) (s : Standing) : Prop :=
  ∃ inner, s.1 = outer ++ inner ∧ closeAll inner s.2 = p ∧
    ∀ b ∈ inner.head?, b.condition.union ∈ seen

theorem stands_open (outer : List OpenBranch) (p : Nat) : Stands outer p [] (outer, p) :=
  ⟨[], (List.append_nil _).symm, rfl, fun _ hb => (nomatch hb)⟩

theorem Stands.mono {more : List Path} {s : Standing} (h : Stands outer p seen s)
    (hmore : ∀ u ∈ seen, u ∈ more) : Stands outer p more s := by
  obtain ⟨inner, hs, hclose, hseen⟩ := h
  exact ⟨inner, hs, hclose, fun b hb => hmore _ (hseen b hb)⟩

/-- An item directly in the branches `outer` closes all others. -/
theorem Stands.enter_outer {s : Standing} (h : Stands outer p seen s) :
    enter s.1 (outer.map OpenBranch.condition) s.2 = (outer, p) := by
  obtain ⟨inner, hs, hclose, -⟩ := h
  have hnil : enter inner [] s.2 = ([], closeAll inner s.2) := by
    cases inner <;> rfl
  have henter := enter_append outer inner [] s.2
  rw [List.append_nil] at henter
  rw [hs, henter, hnil, hclose, List.append_nil]

/-- An item of a union that has not been seen closes all others, and opens its branches. -/
theorem Stands.enter_fresh {s : Standing} {c : Condition} (h : Stands outer p seen s)
    (hfresh : ∀ v ∈ seen, c.union.trail ≠ v.trail) (ds : List Condition) :
    enter s.1 (outer.map OpenBranch.condition ++ c :: ds) s.2 =
      (outer ++ ⟨c, p, p⟩ :: openAll p ds, p) := by
  obtain ⟨inner, hs, hclose, hseen⟩ := h
  rw [hs, enter_append]
  cases inner with
  | nil =>
    obtain rfl : s.2 = p := hclose
    rfl
  | cons b inner =>
    have hne := hfresh _ (hseen b rfl)
    have hcond : (b.condition == c) = false := by
      cases hb : b.condition == c with
      | false => rfl
      | true => exact absurd (Path.trail_eq_of_beq (Condition.beq_iff.1 hb).1).symm hne
    have hswitch : c.sameSwitch b.condition = false := Path.beq_false_of_trail hne
    simp only [enter, hcond, hswitch, Bool.false_eq_true, if_false, hclose]
    rfl

/-- The next branch of a union begins where the union does. -/
theorem enter_next {c c' : Condition} {r : Nat} (hunion : c.union = c'.union)
    (hvalue : c'.value ≠ c.value) (ds : List Condition) :
    enter (outer ++ ⟨c', p, r⟩ :: inner) (outer.map OpenBranch.condition ++ c :: ds) position =
      (outer ++ ⟨c, p, max r (closeAll inner position)⟩ :: openAll p ds, p) := by
  have hcond : (c' == c) = false := by
    cases hb : c' == c with
    | false => rfl
    | true => exact absurd (Condition.beq_iff.1 hb).2.2 hvalue
  have hswitch : c.sameSwitch c' = true := by
    rw [Condition.sameSwitch, hunion, BEq.rfl]
  rw [enter_append, enter, hcond, if_neg Bool.false_ne_true]
  dsimp only
  rw [if_pos hswitch]
  rfl

/-- An item of an open branch stays in it. -/
theorem enter_open {c : Condition} {r : Nat} (ds : List Condition) :
    enter (outer ++ [⟨c, p, r⟩]) (outer.map OpenBranch.condition ++ c :: ds) p =
      (outer ++ ⟨c, p, r⟩ :: openAll p ds, p) := by
  have h := enter_append (outer ++ [⟨c, p, r⟩]) [] ds p
  rw [List.append_nil, List.map_append, List.append_assoc, List.append_assoc] at h
  exact h

/-- Items whose first one is entered alike are laid out alike. -/
theorem offsetsFrom_congr {s t : Standing} {i : Item}
    (h : enter s.1 i.conditions s.2 = enter t.1 i.conditions t.2) (items : List Item) :
    offsetsFrom s.1 s.2 (i :: items) = offsetsFrom t.1 t.2 (i :: items) ∧
      (i :: items).foldl advance s = (i :: items).foldl advance t := by
  have hadvance : advance s i = advance t i := by rw [advance, advance, h]
  rw [offsetsFrom_cons, offsetsFrom_cons, List.foldl_cons, List.foldl_cons, hadvance, h]
  exact ⟨rfl, rfl⟩

/-! ## offsets under an assignment -/

/-- In a layout of some items, each active one begins at `p` and behind the active ones in front of
it. -/
def Follows (a : Assignment) : (p : Nat) → List Item → List (Nat × Nat) → Prop
  | _, [], [] => True
  | p, i :: items, o :: layout =>
    (i.isActive a → o = (p, i.bits)) ∧
      Follows a (p + if i.isActive a then i.bits else 0) items layout
  | _, _, _ => False

theorem Follows.append {is js : List Item} {xs ys : List (Nat × Nat)} {p : Nat}
    (h : Follows a p is xs) (h' : Follows a (p + activeBits a is) js ys) :
    Follows a p (is ++ js) (xs ++ ys) := by
  induction is generalizing p xs with
  | nil =>
    cases xs with
    | nil => exact h'
    | cons x xs => exact h.elim
  | cons i is ih =>
    cases xs with
    | nil => exact h.elim
    | cons x xs =>
      refine ⟨h.1, ih h.2 ?_⟩
      rwa [activeBits_cons, ← Nat.add_assoc] at h'

/-- Any layout will do if nothing is active. -/
theorem follows_of_inactive {is : List Item} {xs : List (Nat × Nat)} {p : Nat}
    (h : ∀ i ∈ is, i.isActive a = false) (hlen : xs.length = is.length) : Follows a p is xs := by
  induction is generalizing xs with
  | nil =>
    cases xs with
    | nil => trivial
    | cons x xs => cases hlen
  | cons i is ih =>
    cases xs with
    | nil => cases hlen
    | cons x xs =>
      obtain ⟨hi, his⟩ := List.forall_mem_cons.1 h
      refine ⟨fun hactive => ?_, ?_⟩
      · rw [hi] at hactive
        cases hactive
      · rw [if_neg (by simp [hi])]
        exact ih his (Nat.succ.inj hlen)

/-- The active item at a position begins behind the active ones in front of it. -/
theorem Follows.getElem? {is : List Item} {xs : List (Nat × Nat)} {p k : Nat} {i : Item}
    (h : Follows a p is xs) (hi : is[k]? = some i) (hactive : i.isActive a = true) :
    xs[k]? = some (p + activeBits a (is.take k), i.bits) := by
  induction is generalizing p xs k with
  | nil => cases hi
  | cons j is ih =>
    cases xs with
    | nil => exact h.elim
    | cons x xs =>
      cases k with
      | zero =>
        cases hi
        rw [List.getElem?_cons_zero, h.1 hactive]
        rfl
      | succ k =>
        rw [List.getElem?_cons_succ, ih h.2 hi, List.take_succ_cons, activeBits_cons,
          Nat.add_assoc]

/-! ## the walk over aligned items -/

/-- The walk over aligned items in the branches `outer`: it comes as far as they take bits, and lays
the active ones out one behind the other. -/
def Walked (cs : List Condition) (us : List Path) (items : List Item) (n : Nat) : Prop :=
  ∀ (outer : List OpenBranch) (p : Nat) (seen : List Path) (s : Standing),
    outer.map OpenBranch.condition = cs → Stands outer p seen s →
    (∀ u ∈ us, ∀ v ∈ seen, u.trail ≠ v.trail) →
    Stands outer (p + n) (us ++ seen) (items.foldl advance s) ∧
      ∀ a : Assignment, (∀ c ∈ cs, c.holds a = true) →
        Follows a p items (offsetsFrom s.1 s.2 items).1

/-- Between the branches of a union that begins at `p`, of which those with the values `done` have
been passed: none of them has been entered, or the last one that was is still open. -/
inductive Between (outer : List OpenBranch) (p b : Nat) (u : Path) (seen : List Path)
    (done : List Int) (s : Standing) : Prop where
  | front (h : Stands outer p seen s) (hdone : done ≠ [] → b = 0)
  | inside {c : Condition} {r : Nat} {inner : List OpenBranch}
    (hs : s.1 = outer ++ ⟨c, p, r⟩ :: inner) (hclose : closeAll inner s.2 = p + b)
    (hr : r ≤ p + b) (hunion : c.union = u) (hvalue : c.value ∈ done)

/-- The next branch is entered at the beginning of the union. -/
theorem Between.enter {b : Nat} {u : Path} {done : List Int} {s : Standing} {m : Variant}
    (h : Between outer p b u seen done s) (hfresh : ∀ v ∈ seen, u.trail ≠ v.trail)
    (hm : m.value ∉ done) : ∃ r, r ≤ p + b ∧ ∀ ds,
      Sector.enter s.1 (outer.map OpenBranch.condition ++ ⟨u, m.tag, m.value⟩ :: ds) s.2 =
        Sector.enter (outer ++ [OpenBranch.mk ⟨u, m.tag, m.value⟩ p r])
          (outer.map OpenBranch.condition ++ ⟨u, m.tag, m.value⟩ :: ds) p := by
  cases h with
  | front h =>
    refine ⟨p, Nat.le_add_right .., fun ds => ?_⟩
    rw [h.enter_fresh hfresh ds, enter_open]
  | @inside c r inner hs hclose hr hunion hvalue =>
    have hne : c.value ≠ m.value := fun heq => hm (heq ▸ hvalue)
    refine ⟨p + b, Nat.le_refl _, fun ds => ?_⟩
    rw [hs, enter_next (c := ⟨u, m.tag, m.value⟩) hunion.symm hne, hclose, Nat.max_eq_right hr,
      enter_open]

/-- The walk over one branch comes to its end, and lays it out from the beginning of the union. -/
theorem Between.lane {b : Nat} {u : Path} {done : List Int} {s : Standing} {m : Variant}
    (h : Between outer p b u seen done s) (hfresh : ∀ v ∈ seen, u.trail ≠ v.trail)
    (hm : m.value ∉ done) (hcs : outer.map OpenBranch.condition = cs)
    (haligned : Aligned (m.conditions cs u) vs items b)
    (hwalked : Walked (m.conditions cs u) vs items b) :
    Between outer p b u seen (m.value :: done) (items.foldl advance s) ∧
      ∀ a : Assignment, (∀ c ∈ cs, c.holds a = true) → a.pick u = m.value →
        Follows a p items (offsetsFrom s.1 s.2 items).1 := by
  cases items with
  | nil =>
    refine ⟨?_, fun _ _ _ => trivial⟩
    cases h with
    | front h => exact .front h fun _ => haligned.eq_zero_of_nil
    | inside hs hclose hr hunion hvalue =>
      exact .inside hs hclose hr hunion (List.mem_cons_of_mem _ hvalue)
  | cons i items =>
    obtain ⟨r, hr, henter⟩ := h.enter hfresh hm
    obtain ⟨ds, hds⟩ := haligned.conditions i List.mem_cons_self
    have hi : i.conditions = outer.map OpenBranch.condition ++ ⟨u, m.tag, m.value⟩ :: ds := by
      rw [hds, hcs]
      exact List.append_assoc ..
    obtain ⟨hoffsets, hfold⟩ := offsetsFrom_congr
      (t := (outer ++ [OpenBranch.mk ⟨u, m.tag, m.value⟩ p r], p)) (hi ▸ henter ds) items
    have houter : (outer ++ [OpenBranch.mk ⟨u, m.tag, m.value⟩ p r]).map OpenBranch.condition =
        m.conditions cs u := by
      rw [List.map_append, hcs]
      rfl
    obtain ⟨hstands, hfollows⟩ := hwalked _ p [] _ houter (stands_open _ p)
      fun _ _ _ hv => (nomatch hv)
    obtain ⟨inner, hs, hclose, -⟩ := hstands
    rw [hoffsets, hfold]
    refine ⟨?_, fun a hholds hpick => hfollows a (Variant.holds_conditions hholds hpick)⟩
    exact .inside (hs.trans (List.append_assoc ..)) hclose hr rfl List.mem_cons_self

/-- The walk over the branches of a union, which are all laid out from its beginning. -/
theorem Between.lanes {b : Nat} {u : Path} {lanes : List (Variant × List Item)}
    {tests : Variant × List Item → List Path} {done : List Int} {s : Standing}
    (h : Between outer p b u seen done s) (hfresh : ∀ v ∈ seen, u.trail ≠ v.trail)
    (hcs : outer.map OpenBranch.condition = cs) (hnodup : (lanes.map (·.1.value)).Nodup)
    (hdone : ∀ l ∈ lanes, l.1.value ∉ done)
    (haligned : ∀ l ∈ lanes, Aligned (l.1.conditions cs u) (tests l) l.2 b)
    (hwalked : ∀ l ∈ lanes, Walked (l.1.conditions cs u) (tests l) l.2 b) :
    (∃ done', (lanes ≠ [] → done' ≠ []) ∧ (done ≠ [] → done' ≠ []) ∧
        Between outer p b u seen done' ((lanes.flatMap Prod.snd).foldl advance s)) ∧
      ∀ a : Assignment, (∀ c ∈ cs, c.holds a = true) →
        ∀ q, (a.pick u ∈ lanes.map (·.1.value) → q = p) →
          Follows a q (lanes.flatMap Prod.snd)
            (offsetsFrom s.1 s.2 (lanes.flatMap Prod.snd)).1 := by
  induction lanes generalizing done s with
  | nil => exact ⟨⟨done, fun h => absurd rfl h, id, h⟩, fun _ _ _ _ => trivial⟩
  | cons l lanes ih =>
    obtain ⟨hl, hrest⟩ := List.forall_mem_cons.1 haligned
    rw [List.map_cons, List.nodup_cons] at hnodup
    obtain ⟨hbetween, hfollows⟩ := h.lane hfresh (hdone l List.mem_cons_self) hcs hl
      (hwalked l List.mem_cons_self)
    have hdone' : ∀ l' ∈ lanes, l'.1.value ∉ l.1.value :: done := by
      intro l' hl' hmem
      cases List.mem_cons.1 hmem with
      | inl heq => exact hnodup.1 (heq ▸ List.mem_map_of_mem hl')
      | inr hmem => exact hdone l' (List.mem_cons_of_mem _ hl') hmem
    obtain ⟨⟨done', -, hne, hend⟩, hrest'⟩ := ih hbetween hnodup.2 hdone' hrest
      fun l' hl' => hwalked l' (List.mem_cons_of_mem _ hl')
    have hne' := hne (List.cons_ne_nil _ _)
    rw [List.flatMap_cons, List.foldl_append, offsetsFrom_append]
    refine ⟨⟨done', fun _ => hne', fun _ => hne', hend⟩, fun a hholds q hq => ?_⟩
    by_cases hpick : a.pick u = l.1.value
    · -- The picked branch: no other one is active.
      obtain rfl := hq (List.mem_cons.2 (.inl hpick))
      refine (hfollows a hholds hpick).append (hrest' a hholds _ fun hmem => ?_)
      exact absurd (hpick ▸ hmem) hnodup.1
    · have hinactive := hl.inactive (Variant.mem_conditions cs u l.1) (Variant.holds_false hpick)
      refine (follows_of_inactive hinactive (length_offsetsFrom ..)).append ?_
      rw [activeBits_eq_zero hinactive, Nat.add_zero]
      exact hrest' a hholds q fun hmem => hq (List.mem_cons_of_mem _ hmem)

/-- Behind its branches, the walk stands at the end of the union. -/
theorem Between.stands {b : Nat} {u : Path} {done : List Int} {s : Standing}
    (h : Between outer p b u seen done s) (hnone : done = [] → b = 0) :
    Stands outer (p + b) (u :: seen) s := by
  cases h with
  | front h hdone =>
    have hb : b = 0 := by
      by_cases hnil : done = []
      · exact hnone hnil
      · exact hdone hnil
    rw [hb, Nat.add_zero]
    exact h.mono fun v hv => List.mem_cons_of_mem _ hv
  | @inside c r inner hs hclose hr hunion hvalue =>
    refine ⟨_, hs, ?_, fun b' hb' => ?_⟩
    · change max r (closeAll inner s.2) = p + b
      rw [hclose, Nat.max_eq_right hr]
    · cases hb'
      rw [hunion]
      exact List.mem_cons_self

/-- The walk over aligned items. -/
theorem walked_of_aligned (h : Aligned cs us items n) : Walked cs us items n := by
  induction h with
  | nil => exact fun outer p seen s hcs hs _ => ⟨hs, fun _ _ => trivial⟩
  | @item cs us items n content h ih =>
    intro outer p seen s hcs hs _
    have henter := hs.enter_outer
    rw [hcs] at henter
    have hadvance : advance s ⟨cs, content⟩ = (outer, p + (Item.mk cs content).bits) := by
      rw [advance, henter]
    obtain ⟨hstands, hfollows⟩ := ih outer _ [] _ hcs (stands_open outer _)
      fun _ _ _ hv => (nomatch hv)
    rw [List.foldl_cons, offsetsFrom_cons, hadvance, henter, ← Nat.add_assoc]
    refine ⟨hstands.mono fun u hu => ?_, fun a hholds => ⟨fun _ => rfl, ?_⟩⟩
    · rw [List.append_nil] at hu
      exact List.mem_append_left _ hu
    · rw [if_pos (show Item.isActive a ⟨cs, content⟩ = true from List.all_eq_true.2 hholds)]
      exact hfollows a hholds
  | @union cs u us lanes items b n tests hvalues hnodup hnone hlanes hfresh h ihlanes ih =>
    intro outer p seen s hcs hs hseen
    obtain ⟨⟨done, hdone, -, hend⟩, hlanesFollow⟩ := Between.lanes
      (.front hs fun h => absurd rfl h) (hseen u List.mem_cons_self) hcs hnodup
      (fun _ _ hmem => (nomatch hmem)) hlanes ihlanes
    have hstands := hend.stands fun hnil => hnone <| Decidable.by_contra fun hne => hdone hne hnil
    obtain ⟨hstands', hfollows⟩ := ih outer (p + b) (u :: seen) _ hcs hstands fun v hv w hw => by
      rcases List.mem_cons.1 hw with rfl | hw
      · exact (hfresh v hv).symm
      · exact hseen v (List.mem_cons_of_mem _ hv) w hw
    rw [List.foldl_append, offsetsFrom_append, ← Nat.add_assoc]
    refine ⟨hstands'.mono fun v hv => ?_, fun a hholds => ?_⟩
    · simp only [List.mem_append, List.mem_cons] at hv ⊢
      tauto
    · refine (hlanesFollow a hholds p fun _ => rfl).append ?_
      rw [Aligned.activeBits_union hvalues hnodup hnone hlanes fun l hl hpick =>
        (hlanes l hl).activeBits_eq (Variant.holds_conditions hholds hpick)]
      exact hfollows a hholds

/-- The layout of aligned items: each active one begins where those in front of it end. -/
theorem follows_layout (h : Aligned [] us items n) (a : Assignment) :
    Follows a 0 items (layout ⟨items⟩) :=
  (walked_of_aligned h [] 0 [] ([], 0) rfl (stands_open [] 0) fun _ _ _ hv => (nomatch hv)).2 a
    fun _ hc => (nomatch hc)

/-- Aligned items take up as many bits as the active ones. -/
theorem bitLength_eq (h : Aligned [] us items n) : bitLength ⟨items⟩ = n := by
  obtain ⟨⟨inner, hs, hclose, -⟩, -⟩ := walked_of_aligned h [] 0 [] ([], 0) rfl (stands_open [] 0)
    fun _ _ _ hv => (nomatch hv)
  have happend := congrArg Prod.snd (offsetsFrom_append ([], 0) items [])
  rw [List.append_nil] at happend
  rw [bitLength, happend, hs, List.nil_append]
  exact hclose.trans (Nat.zero_add n)

end Sector

end BitLayout
