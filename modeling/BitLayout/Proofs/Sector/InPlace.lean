import BitLayout.Item.Edit
import BitLayout.Proofs.Decl.Building
import BitLayout.Proofs.Item.Leaves
import BitLayout.Proofs.Item.Sizes
import BitLayout.Proofs.Sector.Aligned
import Mathlib.Algebra.GroupWithZero.Nat
import Mathlib.Tactic.Choose

/-!
# BitLayout.Proofs.Sector.InPlace

Taking items apart in place moves nothing. Starting from the data objects in a row, any item may be
replaced by its parts, then any item of the new list, and so on:

```
[a, b]  -->  [a, b.x, b.y]  -->  [a, b.x, b.y[0], b.y[1]]
```

`Spreads cs ps items` says that `items` is what the values `ps`, in a row under the conditions `cs`,
may come to in this way. It has one rule for each way in which the first value may go: it is still
whole, is taken apart into parts, or is switched between variants.

* `Spreads.expand`: taking one more item apart keeps the relation;
* `Spreads.aligned`: the items are aligned, and take the bits of the values;
* `Spreads.exists_active`: every item travels under some assignment, so that its offset is what the
  active items in front of it take.

Main statement: `layout_of_expansions`.
-/

namespace BitLayout

/-! ## replacing one item -/

/-- One item of a list is replaced by its parts. -/
inductive Item.Expands : List Item → List Item → Prop where
  | head (i : Item) (items : List Item) : Expands (i :: items) (i.expand ++ items)
  | tail (i : Item) {items out : List Item} (h : Expands items out) : Expands (i :: items) (i :: out)

namespace Item.Expands

variable {xs ys items out : List Item}

/-- The replaced item may stand anywhere. -/
theorem middle (xs : List Item) (i : Item) (ys : List Item) :
    Expands (xs ++ i :: ys) (xs ++ i.expand ++ ys) := by
  induction xs with
  | nil => exact .head i ys
  | cons x xs ih => exact .tail x ih

/-- The replaced item stands in the first or in the second of two lists. -/
theorem append_inv (h : Expands (xs ++ ys) out) :
    (∃ zs, Expands xs zs ∧ out = zs ++ ys) ∨ ∃ zs, Expands ys zs ∧ out = xs ++ zs := by
  induction xs generalizing out with
  | nil => exact .inr ⟨out, h, rfl⟩
  | cons x xs ih =>
    cases h with
    | head => exact .inl ⟨x.expand ++ xs, .head x xs, (List.append_assoc ..).symm⟩
    | tail _ h =>
      rcases ih h with ⟨zs, hzs, rfl⟩ | ⟨zs, hzs, rfl⟩
      · exact .inl ⟨x :: zs, .tail x hzs, rfl⟩
      · exact .inr ⟨zs, hzs, rfl⟩

/-- The replaced item stands in one of several lists. -/
theorem flatMap_inv {α : Type} {as : List α} {f : α → List Item} (h : Expands (as.flatMap f) out) :
    ∃ front a back zs, as = front ++ a :: back ∧ Expands (f a) zs ∧
      out = front.flatMap f ++ zs ++ back.flatMap f := by
  induction as generalizing out with
  | nil => cases h
  | cons a as ih =>
    rw [List.flatMap_cons] at h
    rcases h.append_inv with ⟨zs, hzs, rfl⟩ | ⟨zs, hzs, rfl⟩
    · exact ⟨[], a, as, zs, rfl, hzs, by simp⟩
    · obtain ⟨front, b, back, ws, rfl, hws, rfl⟩ := ih hzs
      exact ⟨a :: front, b, back, ws, rfl, hws, by simp⟩

/-- An item that has no parts is replaced by itself. -/
theorem eq_of_whole (hwhole : ∀ i ∈ items, i.canSplit = false) (h : Expands items out) :
    out = items := by
  induction h with
  | head i items =>
    have hi := hwhole i List.mem_cons_self
    have hsplit : i.split? = none := by simpa [canSplit] using hi
    simp [expand, hsplit]
  | tail i h ih => rw [ih fun j hj => hwhole j (List.mem_cons_of_mem _ hj)]

end Item.Expands

/-! ## items in place of values -/

/-- The padding behind the parts of an arm. -/
def Variant.rest (cs : List Condition) (p : Path) (a : Variant) : List Item :=
  if a.slack = 0 then [] else [.padding (a.conditions cs p) a.slack false]

/-- Padding has no parts. -/
theorem Variant.canSplit_rest {cs : List Condition} {p : Path} {a : Variant} :
    ∀ i ∈ a.rest cs p, i.canSplit = false := by
  intro i hi
  unfold rest at hi
  split at hi
  · cases hi
  · rw [List.mem_singleton.1 hi]
    rfl

/-- The items that stand in place of values in a row under some conditions. -/
inductive Spreads : List Condition → List Path → List Item → Prop where
  | nil (cs : List Condition) : Spreads cs [] []
  | whole {cs : List Condition} {p : Path} {ps : List Path} {items : List Item}
    (h : Spreads cs ps items) : Spreads cs (p :: ps) (⟨cs, .value p⟩ :: items)
  | row {cs : List Condition} {p : Path} {ps qs : List Path} {inner items : List Item}
    (homit : p.last.decl.isOmitted = false) (hp : p.Parts qs) (hinner : Spreads cs qs inner)
    (h : Spreads cs ps items) : Spreads cs (p :: ps) (inner ++ items)
  | union {cs : List Condition} {p : Path} {ps shared : List Path} {arms : List Variant}
    {first items : List Item} {lanes : List (Variant × List Item)}
    (homit : p.last.decl.isOmitted = false) (hs : p.Switch shared arms)
    (hfirst : Spreads cs shared first) (harms : lanes.map Prod.fst = arms)
    (hlanes : ∀ l ∈ lanes, Spreads (l.1.conditions cs p) l.1.parts l.2)
    (h : Spreads cs ps items) :
    Spreads cs (p :: ps)
      (first ++ (lanes.flatMap fun l => l.2 ++ l.1.rest cs p) ++ items)

namespace Spreads

variable {cs : List Condition} {p : Path} {ps : List Path} {items out : List Item}

/-- Values that are all whole. -/
theorem ofRow (cs : List Condition) (ps : List Path) : Spreads cs ps (Item.row cs ps) := by
  induction ps with
  | nil => exact .nil cs
  | cons p ps ih => exact .whole ih

/-- The first value may be taken apart. -/
theorem expand_head (h : Spreads cs ps items) :
    Spreads cs (p :: ps) ((Item.mk cs (.value p)).expand ++ items) := by
  cases hsplit : (Item.mk cs (.value p)).split? with
  | none =>
    have hwhole : (Item.mk cs (.value p)).expand = [⟨cs, .value p⟩] := by
      simp [Item.expand, hsplit]
    rw [hwhole]
    exact .whole h
  | some s =>
    rw [Item.expand_of_split hsplit]
    obtain ⟨cs', q, hi, homit, ⟨qs, hqs, rfl⟩ | ⟨shared, arms, hs, rfl⟩⟩ :=
      Item.split_cases hsplit
    · cases hi
      exact .row homit hqs (ofRow cs qs) h
    · cases hi
      have hbranches : (arms.map (Variant.branch cs p)).flatMap Branch.items =
          (arms.map fun a => (a, Item.row (a.conditions cs p) a.parts)).flatMap fun l =>
            l.2 ++ l.1.rest cs p := by
        rw [List.flatMap_map, List.flatMap_map]
        rfl
      rw [Split.items, hbranches]
      have harms : (arms.map fun a => (a, Item.row (a.conditions cs p) a.parts)).map Prod.fst =
          arms := by
        simp [Function.comp_def]
      refine .union homit hs (ofRow cs shared) harms (fun l hl => ?_) h
      obtain ⟨a, -, rfl⟩ := List.mem_map.1 hl
      exact ofRow _ _

/-- **Taking apart in place**: one more item may be replaced by its parts. -/
theorem expand (h : Spreads cs ps items) (hexp : Item.Expands items out) : Spreads cs ps out := by
  induction h generalizing out with
  | nil => cases hexp
  | whole h ih =>
    cases hexp with
    | head => exact expand_head h
    | tail _ hexp => exact .whole (ih hexp)
  | row homit hp hinner h ihinner ih =>
    rcases hexp.append_inv with ⟨zs, hzs, rfl⟩ | ⟨zs, hzs, rfl⟩
    · exact .row homit hp (ihinner hzs) h
    · exact .row homit hp hinner (ih hzs)
  | @union cs p ps shared arms first items lanes homit hs hfirst harms hlanes h ihfirst ihlanes
      ih =>
    rcases hexp.append_inv with ⟨zs, hzs, rfl⟩ | ⟨zs, hzs, rfl⟩
    · rcases hzs.append_inv with ⟨ws, hws, rfl⟩ | ⟨ws, hws, rfl⟩
      · exact .union homit hs (ihfirst hws) harms hlanes h
      · -- The item stands in one of the arms: in what its parts have come to, or in its padding.
        obtain ⟨front, l, back, vs, rfl, hvs, rfl⟩ := hws.flatMap_inv
        have hl : l ∈ front ++ l :: back := List.mem_append_right _ List.mem_cons_self
        have hlane : ∃ inner, Spreads (l.1.conditions cs p) l.1.parts inner ∧
            vs = inner ++ l.1.rest cs p := by
          rcases hvs.append_inv with ⟨us, hus, rfl⟩ | ⟨us, hus, rfl⟩
          · exact ⟨us, ihlanes l hl hus, rfl⟩
          · have hsame := hus.eq_of_whole Variant.canSplit_rest
            exact ⟨l.2, hlanes l hl, by rw [hsame]⟩
        obtain ⟨inner, hinner, rfl⟩ := hlane
        have harms' : (front ++ (l.1, inner) :: back).map Prod.fst = arms := by
          rw [← harms]
          simp
        have hunion := Spreads.union homit hs hfirst harms' (fun k hk => ?_) h
        · simpa using hunion
        · rcases List.mem_append.1 hk with hk | hk
          · exact hlanes k (List.mem_append_left _ hk)
          · rcases List.mem_cons.1 hk with rfl | hk
            · exact hinner
            · exact hlanes k (List.mem_append_right _ (List.mem_cons_of_mem _ hk))
    · exact .union homit hs hfirst harms hlanes (ih hzs)

end Spreads

/-! ## bits -/

/-- The padding of an arm takes its slack. -/
theorem Variant.aligned_rest (cs : List Condition) (p : Path) (a : Variant) :
    Aligned (a.conditions cs p) [] (a.rest cs p) a.slack := by
  unfold rest
  split
  · next hzero =>
    rw [hzero]
    exact .nil _
  · exact .item (.padding a.slack false) (.nil _)

/-- Aligned items for the first value of a row stay aligned in front of those for the others. -/
theorem Row.cons_aligned {roots : List Decl} {cs : List Condition} {p : Path} {ps us vs : List Path}
    {xs ys : List Item} {n k : Nat} (hrow : Row roots cs (p :: ps)) (h : Aligned cs us xs n)
    (hus : ∀ u ∈ us, u.Within p) (h' : Aligned cs vs ys k)
    (hvs : ∀ v ∈ vs, ∃ q ∈ ps, v.Within q) :
    Aligned cs (us ++ vs) (xs ++ ys) (n + k) ∧ ∀ w ∈ us ++ vs, ∃ q ∈ p :: ps, w.Within q := by
  constructor
  · refine h.append h' fun u hu v hv heq => ?_
    obtain ⟨q, hq, hvq⟩ := hvs v hv
    have hapart := (List.pairwise_cons.1 hrow.apart).1 q hq
    have huq : u.Within q := by
      rw [Path.Within, heq]
      exact hvq
    exact hapart.not_both (hus u hu) huq
  · intro w hw
    rcases List.mem_append.1 hw with hw | hw
    · exact ⟨p, List.mem_cons_self, hus w hw⟩
    · obtain ⟨q, hq, hwq⟩ := hvs w hw
      exact ⟨q, List.mem_cons_of_mem _ hq, hwq⟩

/-- A union takes the bits of a whole one, if its shared parts and the parts of its arms take
theirs. -/
theorem Path.Switch.aligned {g : Registry} {records : List (String × List Decl)}
    {cs : List Condition} {p : Path} {shared us : List Path} {arms : List Variant}
    {first : List Item} {lanes : List (Variant × List Item)}
    (hs : p.Switch shared arms) (hd : p.last.decl.Everywhere (Decl.Sound g records))
    (harms : lanes.map Prod.fst = arms) (hfirst : Aligned cs us first (sumBits shared))
    (hus : ∀ u ∈ us, ∃ q ∈ shared, u.Within q)
    (hlanes : ∀ l ∈ lanes, ∃ vs, Aligned (l.1.conditions cs p) vs l.2 (sumBits l.1.parts)) :
    Aligned cs (us ++ [p]) (first ++ lanes.flatMap fun l => l.2 ++ l.1.rest cs p) p.last.bits ∧
      ∀ u ∈ us ++ [p], u.Within p := by
  have hle := hs.bits_shared_le hd
  -- Behind the shared parts, every arm takes what is left of the union.
  generalize hfilled : (lanes.map fun l => (l.1, l.2 ++ l.1.rest cs p)) = filled
  have htests : ∀ l ∈ filled, ∃ vs, Aligned (l.1.conditions cs p) vs l.2
      (p.last.bits - sumBits shared) := by
    intro l' hl'
    rw [← hfilled] at hl'
    obtain ⟨l, hl, rfl⟩ := List.mem_map.1 hl'
    obtain ⟨vs, hvs⟩ := hlanes l hl
    have hbits := hs.bits_arm hd (a := l.1) (harms ▸ List.mem_map_of_mem hl)
    have hsum : p.last.bits - sumBits shared = sumBits l.1.parts + l.1.slack := by omega
    rw [hsum]
    exact ⟨vs ++ [], hvs.append (l.1.aligned_rest cs p) fun _ _ _ hv => (nomatch hv)⟩
  choose! tests htests using htests
  have hvalues : filled.map (·.1.value) = arms.map Variant.value := by
    rw [← hfilled, ← harms, List.map_map, List.map_map]
    rfl
  have hnodup : (filled.map (·.1.value)).Nodup := by
    rw [hvalues]
    exact hs.nodup_values hd.self
  have hnone : filled = [] → p.last.bits - sumBits shared = 0 := by
    intro hnil
    rw [hnil, List.map_nil] at hvalues
    rcases hs.full hd with hfull | ⟨a, ha, -⟩
    · omega
    · rw [List.map_eq_nil_iff.1 hvalues.symm] at ha
      cases ha
  have hwithin : ∀ u ∈ us, u.Within p ∧ u.trail ≠ p.trail := by
    intro u hu
    obtain ⟨q, hq, huq⟩ := hus u hu
    obtain ⟨v, hv⟩ := hs.within hq
    exact ⟨(huq.trans hv).trans (within_member p v), (huq.trans hv).ne⟩
  constructor
  · have hbranches : Aligned cs [p] (filled.flatMap Prod.snd ++ [])
        (p.last.bits - sumBits shared + 0) :=
      .union tests (hvalues.trans (hs.values hd.self)) hnodup hnone htests
        (fun _ hv => (nomatch hv)) (.nil cs)
    have hall := hfirst.append hbranches fun u hu v hv => by
      rw [List.mem_singleton.1 hv]
      exact (hwithin u hu).2
    have hsum : sumBits shared + (p.last.bits - sumBits shared + 0) = p.last.bits := by omega
    rw [hsum, List.append_nil, ← hfilled, List.flatMap_map] at hall
    exact hall
  · intro u hu
    rcases List.mem_append.1 hu with hu | hu
    · exact (hwithin u hu).1
    · rw [List.mem_singleton.1 hu]
      exact .refl p

/-- **Sizes in place**: the items that stand in place of values in a row are aligned, and take the
bits of the values. -/
theorem Spreads.aligned {g : Registry} {m : Model} {cs : List Condition} {ps : List Path}
    {items : List Item} (hm : m.Sound g) (h : Spreads cs ps items) (hrow : Row m.roots cs ps) :
    ∃ us, Aligned cs us items (Path.sumBits ps) ∧ ∀ u ∈ us, ∃ p ∈ ps, u.Within p := by
  induction h with
  | nil cs => exact ⟨[], .nil cs, fun _ hu => (nomatch hu)⟩
  | @whole cs p ps items h ih =>
    obtain ⟨us, hus, hwithin⟩ := ih hrow.tail
    refine ⟨us, .item (.value p) hus, fun u hu => ?_⟩
    obtain ⟨q, hq, huq⟩ := hwithin u hu
    exact ⟨q, List.mem_cons_of_mem _ hq, huq⟩
  | @row cs p ps qs inner items homit hp hinner h ihinner ih =>
    have hreached := hrow.reached p List.mem_cons_self
    obtain ⟨us, hus, hwithin⟩ := ihinner (.ofParts hm hreached homit hp)
    obtain ⟨vs, hvs, hrest⟩ := ih hrow.tail
    rw [hp.bits_eq hreached] at hus
    have hinside : ∀ u ∈ us, u.Within p := by
      intro u hu
      obtain ⟨q, hq, huq⟩ := hwithin u hu
      exact huq.trans (hp.within (hrow.unsliced p List.mem_cons_self) hq)
    exact ⟨us ++ vs, hrow.cons_aligned hus hinside hvs hrest⟩
  | @union cs p ps shared arms first items lanes homit hs hfirst harms hlanes h ihfirst ihlanes
      ih =>
    have hreached := hrow.reached p List.mem_cons_self
    obtain ⟨us, hus, hwithin⟩ := ihfirst (.ofShared hm hreached homit hs)
    obtain ⟨vs, hvs, hrest⟩ := ih hrow.tail
    have hfilled : ∀ l ∈ lanes, ∃ ws, Aligned (l.1.conditions cs p) ws l.2
        (Path.sumBits l.1.parts) := by
      intro l hl
      have harm : l.1 ∈ arms := harms ▸ List.mem_map_of_mem hl
      obtain ⟨ws, hws, -⟩ := ihlanes l hl (.ofArm hm hreached homit hs harm)
      exact ⟨ws, hws⟩
    obtain ⟨hunion, hinside⟩ := hs.aligned (hreached.sound hm) harms hus hwithin hfilled
    exact ⟨us ++ [p] ++ vs, hrow.cons_aligned hunion hinside hvs hrest⟩

/-! ## items that travel -/

namespace Assignment

/-- There is always something to pick. -/
theorem exists_assignment : Nonempty Assignment := by
  have hpick : ∀ p : Path, ∃ value : Int,
      p.last.decl.variantIds ≠ [] → value ∈ p.last.decl.variantIds := by
    intro p
    cases hids : p.last.decl.variantIds with
    | nil => exact ⟨0, fun hne => absurd rfl hne⟩
    | cons value ids => exact ⟨value, fun _ => List.mem_cons_self⟩
  choose pick picks using hpick
  exact ⟨⟨pick, picks⟩⟩

open Classical in
/-- The assignment that picks a variant for one union, and for all others what another one does. -/
noncomputable def choose (a : Assignment) (p : Path) (value : Int)
    (h : value ∈ p.last.decl.variantIds) : Assignment where
  pick := Function.update a.pick p value
  picks q hq := by
    by_cases heq : q = p
    · subst heq
      simpa using h
    · simpa [heq] using a.picks q hq

variable {a : Assignment} {p q : Path} {value : Int} {h : value ∈ p.last.decl.variantIds}

@[simp] theorem pick_choose_self : (a.choose p value h).pick p = value := by
  simp [choose]

theorem pick_choose_of_ne (hne : q ≠ p) : (a.choose p value h).pick q = a.pick q := by
  simp [choose, hne]

end Assignment

namespace Path

variable {g : Registry} {m : Model} {roots : List Decl} {cs : List Condition} {p : Path}
  {shared : List Path} {arms : List Variant} {v : Variant}

/-- A part lies at least as deep as its value. -/
theorem Parts.trail_le {q : Path} {ps : List Path} (hp : p.Parts ps) (hq : q ∈ ps) :
    p.trail.length ≤ q.trail.length := by
  cases hp with
  | @slice a hs =>
    -- The index takes the place of the slice.
    obtain ⟨b, -, rfl⟩ := List.mem_map.1 hq
    have hq : p.withAccesses (p.last.accesses.dropLast ++ [b]) =
        (p.withAccesses p.last.accesses.dropLast).access b := rfl
    have hlength := congrArg (·.trail.length) (eq_access_of_slice hs)
    simp only [trail_access, List.length_append, List.length_singleton] at hlength
    rw [hq, trail_access, List.length_append, List.length_singleton]
    omega
  | rank =>
    obtain ⟨b, -, rfl⟩ := List.mem_map.1 hq
    exact (within_access ..).length_le
  | struct =>
    obtain ⟨d, -, rfl⟩ := List.mem_map.1 hq
    exact (within_member ..).length_le

/-- A part of an arm lies within a variant. -/
theorem Switch.within_arm {q : Path} (hs : p.Switch shared arms) (hv : v ∈ arms)
    (hq : q ∈ v.parts) : ∃ d, q.Within (p.member d) := by
  obtain ⟨d, -, -, ⟨hsub, -⟩ | hparts⟩ := hs.variant hv
  · exact ⟨d, List.mem_singleton.1 (hsub hq) ▸ .refl _⟩
  · rw [hparts] at hq
    obtain ⟨e, -, rfl⟩ := List.mem_map.1 hq
    exact ⟨d, within_member ..⟩

/-- A value lies deeper than all unions that its conditions test. -/
theorem Reached.trail_lt (h : p.Reached roots cs) :
    ∀ c ∈ cs, c.union.trail.length < p.trail.length := by
  induction h with
  | root => exact fun _ hc => (nomatch hc)
  | @part cs p q ps h homit hp hq ih =>
    intro c hc
    have hlt := ih c hc
    have hle := hp.trail_le hq
    omega
  | @shared cs p q shared arms h homit hs hq ih =>
    intro c hc
    have hlt := ih c hc
    obtain ⟨v, hv⟩ := hs.within hq
    have hle := (hv.trans (within_member p v)).length_le
    omega
  | @arm cs p q shared arms a h homit hs ha hq ih =>
    intro c hc
    obtain ⟨v, hv⟩ := hs.within_arm ha hq
    have hle := hv.length_le
    rw [trail_member, List.length_append, List.length_singleton] at hle
    rcases List.mem_append.1 hc with hc | hc
    · have hlt := ih c hc
      omega
    · rw [List.mem_singleton.1 hc]
      exact hle
  | @slice cs p extent rest a h homit hs hr ha ih =>
    intro c hc
    have hlt := ih c hc
    have hle := (within_access p a).length_le
    omega

/-- Under the conditions of an arm of a value that is reached, everything can hold if it can hold in
front. -/
theorem Reached.exists_arm (hm : m.Sound g) (h : p.Reached m.roots cs) (hs : p.Switch shared arms)
    (hv : v ∈ arms) (hcs : ∃ a : Assignment, ∀ c ∈ cs, c.holds a = true) :
    ∃ a : Assignment, ∀ c ∈ v.conditions cs p, c.holds a = true := by
  obtain ⟨a, ha⟩ := hcs
  have hvalue : v.value ∈ p.last.decl.variantIds := by
    rw [← hs.values (h.sound hm).self]
    exact List.mem_map_of_mem hv
  refine ⟨a.choose p v.value hvalue, fun c hc => ?_⟩
  rcases List.mem_append.1 hc with hc | hc
  · -- The conditions in front test other unions.
    have hne : c.union ≠ p := by
      intro heq
      have hlt := h.trail_lt c hc
      rw [heq] at hlt
      omega
    have hholds := ha c hc
    simp only [Condition.holds, Assignment.pick_choose_of_ne hne] at hholds ⊢
    exact hholds
  · rw [List.mem_singleton.1 hc]
    simp [Condition.holds]

end Path

/-- **Every item travels**: items that stand in place of values travel under some assignment, if the
values do. -/
theorem Spreads.exists_active {g : Registry} {m : Model} {cs : List Condition} {ps : List Path}
    {items : List Item} (hm : m.Sound g) (h : Spreads cs ps items)
    (hreached : ∀ p ∈ ps, p.Reached m.roots cs)
    (hcs : ∃ a : Assignment, ∀ c ∈ cs, c.holds a = true) :
    ∀ i ∈ items, ∃ a : Assignment, i.isActive a = true := by
  induction h with
  | nil => exact fun _ hi => (nomatch hi)
  | @whole cs p ps items h ih =>
    obtain ⟨-, hps⟩ := List.forall_mem_cons.1 hreached
    obtain ⟨a, ha⟩ := hcs
    refine List.forall_mem_cons.2 ⟨⟨a, ?_⟩, ih hps ⟨a, ha⟩⟩
    exact List.all_eq_true.2 ha
  | @row cs p ps qs inner items homit hp hinner h ihinner ih =>
    obtain ⟨hreached, hps⟩ := List.forall_mem_cons.1 hreached
    intro i hi
    rcases List.mem_append.1 hi with hi | hi
    · exact ihinner (fun q hq => .part hreached homit hp hq) hcs i hi
    · exact ih hps hcs i hi
  | @union cs p ps shared arms first items lanes homit hs hfirst harms hlanes h ihfirst ihlanes
      ih =>
    obtain ⟨hreached, hps⟩ := List.forall_mem_cons.1 hreached
    intro i hi
    rcases List.mem_append.1 hi with hi | hi
    · rcases List.mem_append.1 hi with hi | hi
      · exact ihfirst (fun q hq => .shared hreached homit hs hq) hcs i hi
      · obtain ⟨l, hl, hi⟩ := List.mem_flatMap.1 hi
        have harm : l.1 ∈ arms := harms ▸ List.mem_map_of_mem hl
        have hchosen := hreached.exists_arm hm hs harm hcs
        rcases List.mem_append.1 hi with hi | hi
        · exact ihlanes l hl (fun q hq => .arm hreached homit hs harm hq) hchosen i hi
        · obtain ⟨a, ha⟩ := hchosen
          have hcond : i.conditions = l.1.conditions cs p := by
            unfold Variant.rest at hi
            split at hi
            · cases hi
            · rw [List.mem_singleton.1 hi]
              rfl
          exact ⟨a, by rw [Item.isActive, hcond]; exact List.all_eq_true.2 ha⟩
    · exact ih hps hcs i hi

/-! ## offsets -/

namespace Sector

/-- The layout of the first items does not depend on those behind them. -/
theorem take_layout (xs ys : List Item) :
    (layout ⟨xs ++ ys⟩).take xs.length = layout ⟨xs⟩ := by
  have happend := congrArg Prod.fst (offsetsFrom_append ([], 0) xs ys)
  have hlength : xs.length = (offsetsFrom [] 0 xs).1.length := (length_layout ⟨xs⟩).symm
  rw [layout, happend, hlength]
  exact List.take_left

/-- The last ones of two lists of aligned items begin at the same offsets if both lists take the same
bits, and each of them travels under some assignment. -/
theorem drop_layout_eq {us vs : List Path} {xs ys items : List Item} {n : Nat}
    (h : Aligned [] us (xs ++ items) n) (h' : Aligned [] vs (ys ++ items) n)
    (hactive : ∀ i ∈ items, ∃ a : Assignment, i.isActive a = true) :
    (layout ⟨xs ++ items⟩).drop xs.length = (layout ⟨ys ++ items⟩).drop ys.length := by
  refine List.ext_getElem? fun k => ?_
  rw [List.getElem?_drop, List.getElem?_drop]
  cases hk : items[k]? with
  | none =>
    have hle := List.getElem?_eq_none_iff.1 hk
    have hbehind (zs : List Item) : (layout ⟨zs ++ items⟩)[zs.length + k]? = none := by
      rw [List.getElem?_eq_none_iff, length_layout, List.length_append]
      omega
    rw [hbehind xs, hbehind ys]
  | some i =>
    obtain ⟨a, ha⟩ := hactive i (List.mem_of_getElem? hk)
    have hbits : activeBits a xs = activeBits a ys := by
      have hxs := h.activeBits_eq (a := a) fun _ hc => (nomatch hc)
      have hys := h'.activeBits_eq (a := a) fun _ hc => (nomatch hc)
      rw [activeBits_append] at hxs hys
      omega
    -- Under that assignment, the item begins behind what is active in front of it.
    have hoffset {us : List Path} {zs : List Item} (hz : Aligned [] us (zs ++ items) n) :
        (layout ⟨zs ++ items⟩)[zs.length + k]? =
          some (activeBits a zs + activeBits a (items.take k), i.bits) := by
      have hget : (zs ++ items)[zs.length + k]? = some i := by
        rw [List.getElem?_append_right (Nat.le_add_right ..), Nat.add_sub_cancel_left, hk]
      rw [(follows_layout hz a).getElem? hget ha, List.take_length_add_append, activeBits_append,
        Nat.zero_add]
    rw [hoffset h, hoffset h', hbits]

end Sector

/-! ## data objects -/

/-- The data objects, with the items at some positions taken apart in place, one after the other. -/
def Model.expanded (m : Model) (positions : List Nat) : List Item :=
  (positions.map Edit.expand).foldl Edit.apply (m.roots.map Item.root)

/-- Taking apart the item at a position replaces it by its parts, if there is one. -/
theorem Edit.expands_or_same (position : Nat) (items : List Item) :
    Item.Expands items (Edit.apply items (.expand position)) ∨
      Edit.apply items (.expand position) = items := by
  have happly : Edit.apply items (.expand position) =
      items.take position ++ items[position]?.elim [] Item.expand ++ items.drop (position + 1) :=
    rfl
  rw [happly]
  cases hi : items[position]? with
  | none =>
    have hle := List.getElem?_eq_none_iff.1 hi
    right
    simp [List.take_of_length_le hle, List.drop_eq_nil_of_le (Nat.le_succ_of_le hle)]
  | some i =>
    have hitems : items.take position ++ i :: items.drop (position + 1) = items := by
      obtain ⟨hlt, rfl⟩ := List.getElem?_eq_some_iff.1 hi
      rw [List.getElem_cons_drop, List.take_append_drop]
    have hmiddle := Item.Expands.middle (items.take position) i (items.drop (position + 1))
    left
    rwa [hitems] at hmiddle

/-- What data objects come to by taking items apart in place stands in place of them. -/
theorem Model.spreads_expanded (m : Model) (positions : List Nat) :
    Spreads [] (m.roots.map Path.root) (m.expanded positions) := by
  have hrow : Spreads [] (m.roots.map Path.root) (m.roots.map Item.root) := by
    have h := Spreads.ofRow [] (m.roots.map Path.root)
    rwa [Item.row, List.map_map] at h
  unfold expanded
  generalize m.roots.map Item.root = items at hrow
  induction positions generalizing items with
  | nil => exact hrow
  | cons position positions ih =>
    refine ih _ ?_
    rcases Edit.expands_or_same position items with hexp | hsame
    · exact hrow.expand hexp
    · rw [hsame]
      exact hrow

theorem Path.sumBits_roots (roots : List Decl) :
    sumBits (roots.map Path.root) = (roots.map Decl.bits).sum := by
  induction roots with
  | nil => rfl
  | cons d roots ih =>
    have hroot : (Path.root d).last.bits = d.bits := by
      simp [root, Step.whole, Step.bits, Step.elements, Step.slice?, Step.remaining, Decl.bits]
    rw [List.map_cons, List.map_cons, sumBits, ih, List.sum_cons, hroot]

/-- **Taking apart moves nothing.** In a model without errors, let items be taken apart in place, in
any order and to any depth, starting from the data objects. Then what comes out takes the bits of
the data objects together, and taking apart one more item moves none of the others: those in front
of it and those behind it keep their offsets and sizes. -/
theorem layout_of_expansions {c : Config} {g : Registry} {m : Model}
    (h : Model.build c g = some m) (he : m.errors = []) (positions : List Nat) :
    Sector.bitLength ⟨m.expanded positions⟩ = (m.roots.map Decl.bits).sum ∧
      ∀ xs i ys, m.expanded positions = xs ++ i :: ys →
        (Sector.layout ⟨xs ++ i.expand ++ ys⟩).take xs.length =
            (Sector.layout ⟨m.expanded positions⟩).take xs.length ∧
          (Sector.layout ⟨xs ++ i.expand ++ ys⟩).drop (xs.length + i.expand.length) =
            (Sector.layout ⟨m.expanded positions⟩).drop (xs.length + 1) := by
  have hm := Model.sound_of_build h he
  have hrow : Row m.roots [] (m.roots.map Path.root) := .ofRoots (fun _ hd => hd) hm.nodup
  have hspreads := m.spreads_expanded positions
  obtain ⟨us, hus, -⟩ := hspreads.aligned hm hrow
  constructor
  · rw [Sector.bitLength_eq hus, Path.sumBits_roots]
  · intro xs i ys hitems
    rw [hitems] at hspreads hus ⊢
    obtain ⟨vs, hvs, -⟩ := (hspreads.expand (.middle xs i ys)).aligned hm hrow
    constructor
    · rw [Sector.take_layout xs (i :: ys), List.append_assoc, Sector.take_layout]
    · obtain ⟨a⟩ := Assignment.exists_assignment
      have hactive := hspreads.exists_active hm hrow.reached ⟨a, fun _ hc => (nomatch hc)⟩
      rw [List.append_cons] at hus
      have hbehind := Sector.drop_layout_eq hvs hus fun j hj =>
        hactive j (List.mem_append_right _ (List.mem_cons_of_mem _ hj))
      rw [← List.append_cons, List.length_append, List.length_append] at hbehind
      exact hbehind

namespace Sample

/-- The struct of the small layout is taken apart, and then the union in it, whose second branch is
shorter than the first. -/
theorem expanded_layout : (Model.build config registry).map (fun m =>
      ((m.roots.map Decl.bits).sum, Sector.layout ⟨m.expanded [0, 1]⟩)) =
    some (34, [(0, 2), (2, 24), (2, 8), (10, 16), (26, 8)]) := by
  decide +kernel

/-- Nothing moves when the first branch is taken apart, too. -/
theorem moves_nothing : ∃ m xs i ys, Model.build config registry = some m ∧ m.errors = [] ∧
    m.expanded [0, 1] = xs ++ i :: ys ∧ xs.length = 1 ∧
    Sector.bitLength ⟨m.expanded [0, 1]⟩ = 34 ∧
    (Sector.layout ⟨xs ++ i.expand ++ ys⟩).take 1 = [(0, 2)] ∧
    (Sector.layout ⟨xs ++ i.expand ++ ys⟩).drop (1 + i.expand.length) =
      [(2, 8), (10, 16), (26, 8)] := by
  obtain ⟨m, hm, herrors⟩ := Option.map_eq_some_iff.1 built
  have hlayout := expanded_layout
  rw [hm, Option.map_some, Option.some.injEq, Prod.mk.injEq] at hlayout
  obtain ⟨hsum, hlayout⟩ := hlayout
  obtain ⟨hbits, hmoves⟩ := layout_of_expansions hm herrors [0, 1]
  have hlength := congrArg List.length hlayout
  rw [Sector.length_layout] at hlength
  match hitems : m.expanded [0, 1] with
  | [] => simp [hitems] at hlength
  | [_] => simp [hitems] at hlength
  | x :: i :: ys =>
    obtain ⟨hfront, hbehind⟩ := hmoves [x] i ys hitems
    rw [hlayout] at hfront hbehind
    exact ⟨m, [x], i, ys, hm, herrors, hitems, rfl, hitems ▸ hbits.trans hsum, hfront, hbehind⟩

end Sample

end BitLayout
