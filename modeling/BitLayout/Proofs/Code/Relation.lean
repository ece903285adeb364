import BitLayout.Proofs.Code.Branches
import BitLayout.Proofs.Code.Elements
import BitLayout.Proofs.Decl.Sound
import Mathlib.Data.List.Forall2

/-!
# BitLayout.Proofs.Code.Relation

What holds of all generated code, by one induction. The code for a declaration is put together of
moves, rows, loops, blocks for values on the wire, and choices. A relation between two pieces of
code that is kept when they are put together relates the code that is made for the same declaration
at a position and at another one that it is relocated to:

```
code(d)                in f(p)
for __i0 in .. {       for __i3 in .. {
  m((*value).a[__i0])    m'((*obj).s.a[__i3])
}                      }
```

A relation may depend on a context, such as the loops around the code, and a property of code is a
relation that ignores the second piece.

* `CodeRelation`: a relation that is kept by rows, padding and choices;
* `CodeRelation.Follows`: how contexts and positions lead down to members, in related code;
* `CodeRelation.Follows.code`: the code for a declaration is related;
* `CodeRelation.items`: so is the code for items, if that for each of them is.
-/

namespace BitLayout

/-! ## positions -/

/-- Where code for an element stands: what is moved, the element of a record that it is a field of,
and the number of loops and locals around. -/
structure Position where
  place : Place
  owner : Option Place
  number : Nat

namespace Position

/-- The position of a member. -/
def member (p : Position) (m : Decl) (ofUnion : Bool) : Position :=
  ⟨.field p.place m.name ofUnion, some p.place, p.number⟩

/-- The loop over the next rank of an array. -/
def loop (p : Position) (extent : Nat) : Loop := ⟨p.number, 0, extent⟩

/-- The position inside this loop. -/
def inLoop (p : Position) : Position :=
  ⟨.element p.place (.loop p.number), p.owner, p.number + 1⟩

/-- The position of the value on the wire. -/
def onWire (p : Position) : Position := ⟨.wire p.number, none, p.number + 1⟩

end Position

/-- Where places and numbers go if code stands somewhere else: fields stay fields, and indices and
locals go with their numbers. -/
structure Relocation where
  place : Place → Place
  number : Nat → Nat
  field (owner : Place) (name : String) (ofUnion : Bool) :
    place (.field owner name ofUnion) = .field (place owner) name ofUnion
  loop (array : Place) (n : Nat) :
    place (.element array (.loop n)) = .element (place array) (.loop (number n))
  wire (n : Nat) : place (.wire n) = .wire (number n)
  succ (n : Nat) : number (n + 1) = number n + 1

/-- Code stays where it is. -/
def Relocation.refl : Relocation where
  place := id
  number := id
  field _ _ _ := rfl
  loop _ _ := rfl
  wire _ := rfl
  succ _ := rfl

namespace Position

/-- The position elsewhere. -/
def relocated (p : Position) (f : Relocation) : Position :=
  ⟨f.place p.place, p.owner.map f.place, f.number p.number⟩

variable (p : Position) (f : Relocation)

theorem relocated_refl : p.relocated .refl = p := by
  simp [relocated, Relocation.refl]

theorem relocated_member (m : Decl) (ofUnion : Bool) :
    (p.member m ofUnion).relocated f = (p.relocated f).member m ofUnion := by
  simp [relocated, member, f.field]

theorem relocated_inLoop : p.inLoop.relocated f = (p.relocated f).inLoop := by
  simp [relocated, inLoop, f.loop, f.succ]

theorem relocated_onWire : p.onWire.relocated f = (p.relocated f).onWire := by
  simp [relocated, onWire, f.wire, f.succ]

end Position

namespace Transfer

/-- The code for one element of a declaration. -/
def elementAt (aim : Purpose) (d : Decl) (p : Position) : List Statement :=
  element aim d p.place p.owner p.number

/-- The code for a declaration, over some of its ranks. -/
def code (aim : Purpose) (d : Decl) (ranks : List Nat) (p : Position) : List Statement :=
  Statement.overRanks ranks p.number p.place fun place n => element aim d place p.owner n

theorem relocated_tagOf (f : Relocation) (place : Place) (count : Nat) (lead v : Decl) :
    f.place (tagOf place count lead v) = tagOf (f.place place) count lead v := by
  rw [tagOf, tagOf, tagPlace, tagPlace, f.field, f.field]

end Transfer

/-! ## relations -/

/-- Two arms for the same value do something related under related tags. -/
structure Arm.Related (tags : Place → Place → Prop)
    (code : List Statement → List Statement → Prop) (arm arm' : Arm) : Prop where
  value : arm.value = arm'.value
  tag : tags arm.tag arm'.tag
  body : code arm.body arm'.body

/-- A relation between pieces of code, in contexts of some type, that is kept by rows, padding and
choices. -/
structure CodeRelation (σ : Type) where
  Rel : σ → List Statement → List Statement → Prop
  /-- The tags that related choices may be made by. -/
  Tags : σ → Place → Place → Prop
  nil (s : σ) : Rel s [] []
  append {s : σ} {xs xs' ys ys' : List Statement} (h : Rel s xs xs') (h' : Rel s ys ys') :
    Rel s (xs ++ ys) (xs' ++ ys')
  padding (s : σ) (bits : Nat) : Rel s [.move (.padding bits)] [.move (.padding bits)]
  choice {s : σ} {arms arms' : List Arm} (hasc : Ascending Arm.value arms)
    (h : List.Forall₂ (Arm.Related (Tags s) (Rel s)) arms arms') :
    Rel s [.choice arms] [.choice arms']

namespace Arm

variable {tags : Place → Place → Prop} {code : List Statement → List Statement → Prop}
  {arms arms' : List Arm}

/-- What follows for the first of two related arms holds of all first arms. -/
theorem forall_of_related {P : Arm → Prop} (h : List.Forall₂ (Related tags code) arms arms')
    (hP : ∀ arm arm', Related tags code arm arm' → P arm) : ∀ arm ∈ arms, P arm :=
  ((List.forall₂_and_left _ _).1 (h.imp fun arm arm' harm => ⟨hP arm arm' harm, harm⟩)).1

/-- If related arms are what a function makes of each other, so are rows of them. -/
theorem map_of_related {f : Arm → Arm} (h : List.Forall₂ (Related tags code) arms arms')
    (hf : ∀ tag tag' value body body', tags tag tag' → code body body' →
      f (.mk tag value body) = .mk tag' value body') : arms.map f = arms' := by
  induction h with
  | nil => rfl
  | @cons arm arm' arms arms' harm _ ih =>
    obtain ⟨tag, value, body⟩ := arm
    obtain ⟨tag', value', body'⟩ := arm'
    obtain ⟨hvalue, htag, hbody⟩ := harm
    obtain rfl : value = value' := hvalue
    rw [List.map_cons, ih, hf tag tag' value body body' htag hbody]

end Arm

namespace CodeRelation

variable {σ : Type} {R : CodeRelation σ} {s : σ} {arms arms' : List Arm}

/-- A property of code is a relation. -/
def property (P : σ → List Statement → Prop) (Tag : σ → Place → Prop) (nil : ∀ s, P s [])
    (append : ∀ {s xs ys}, P s xs → P s ys → P s (xs ++ ys))
    (padding : ∀ s bits, P s [.move (.padding bits)])
    (choice : ∀ {s arms}, (∀ arm ∈ arms, Tag s arm.tag ∧ P s arm.body) → P s [.choice arms]) :
    CodeRelation σ where
  Rel s xs _ := P s xs
  Tags s tag _ := Tag s tag
  nil := nil
  append := append
  padding := padding
  choice _ h := choice (Arm.forall_of_related h fun _ _ harm => ⟨harm.tag, harm.body⟩)

theorem flatMap {α : Type} {as : List α} {f f' : α → List Statement}
    (h : ∀ a ∈ as, R.Rel s (f a) (f' a)) : R.Rel s (as.flatMap f) (as.flatMap f') := by
  induction as with
  | nil => exact R.nil s
  | cons a as ih =>
    obtain ⟨ha, has⟩ := List.forall_mem_cons.1 h
    exact R.append ha (ih has)

theorem paddings (R : CodeRelation σ) (s : σ) (bits : Nat) :
    R.Rel s (Statement.padding bits) (Statement.padding bits) := by
  rw [Statement.padding, List.map_eq_flatMap]
  exact flatMap fun n _ => R.padding s n

theorem chosen (hasc : Ascending Arm.value arms)
    (h : List.Forall₂ (Arm.Related (R.Tags s) (R.Rel s)) arms arms') :
    R.Rel s (Statement.chosen arms) (Statement.chosen arms') := by
  unfold Statement.chosen
  cases h with
  | nil => exact R.nil s
  | cons harm harms => exact R.choice hasc (.cons harm harms)

/-- Choices between the arms of the same variants are related if the arms are. -/
theorem sorted {α : Type} {as : List α} {f f' : α → Option Arm}
    (h : ∀ a ∈ as, Option.Rel (Arm.Related (R.Tags s) (R.Rel s)) (f a) (f' a)) :
    R.Rel s (Statement.chosen (sortBy Arm.value (as.filterMap f)))
      (Statement.chosen (sortBy Arm.value (as.filterMap f'))) := by
  refine chosen (ascending_sortBy _ _) (forall₂_sortBy (fun _ _ harm => harm.value) ?_)
  have hsame : List.Forall₂ (fun a a' => a = a' ∧ a ∈ as) as as :=
    List.forall₂_same.2 fun a ha => ⟨rfl, ha⟩
  exact List.rel_filterMap (fun a a' haa' => haa'.1 ▸ h a haa'.2) hsame

/-! ## declarations -/

variable {aim aim' : Purpose} {ds : List Decl} {p : Position}

/-- Fields in a row are related if each of them is. -/
theorem fields (p p' : Position)
    (h : ∀ m ∈ ds, R.Rel s (Transfer.code aim m m.extents (p.member m false))
      (Transfer.code aim' m m.extents (p'.member m false))) (skipped : Nat) :
    R.Rel s (Transfer.fields aim skipped ds p.place p.number)
      (Transfer.fields aim' skipped ds p'.place p'.number) := by
  rw [Transfer.fields_flatMap, Transfer.fields_flatMap]
  exact flatMap fun m hm => h m (List.mem_of_mem_drop hm)

theorem leadingFields (p p' : Position)
    (h : ∀ m ∈ ds, R.Rel s (Transfer.code aim m m.extents (p.member m false))
      (Transfer.code aim' m m.extents (p'.member m false))) (count : Nat) :
    R.Rel s (Transfer.leadingFields aim count ds p.place p.number)
      (Transfer.leadingFields aim' count ds p'.place p'.number) := by
  rw [Transfer.leadingFields_flatMap, Transfer.leadingFields_flatMap]
  exact flatMap fun m hm => h m (List.mem_of_mem_take hm)

/-- How contexts and positions lead down from a declaration, where code for two purposes is related,
the second piece of it elsewhere:

* loops and blocks are related in one context if what they hold is in another one;
* the moves of single values are related, and those of a struct are if those of its fields are;
* the tags of unions are related. -/
structure Follows (R : CodeRelation σ) (aim aim' : Purpose) (f : Relocation)
    (At : σ → Decl → List Nat → Position → Prop) : Prop where
  loop {s : σ} {d : Decl} {extent : Nat} {ranks : List Nat} {p : Position}
    (h : At s d (extent :: ranks) p) : ∃ t, At t d ranks p.inLoop ∧ ∀ xs xs', R.Rel t xs xs' →
      R.Rel s (Statement.looped (p.loop extent) xs)
        (Statement.looped ((p.relocated f).loop extent) xs')
  wire {s : σ} {d w : Decl} {t : Transform} {p : Position} (h : At s d [] p)
    (hk : d.kind = .transformed t) (hw : d.wire = some w) :
    ∃ t', At t' w w.extents p.onWire ∧ ∀ xs xs', R.Rel t' xs xs' →
      R.Rel s [.wire p.number t p.place xs] [.wire (f.number p.number) t (f.place p.place) xs']
  omitted {s : σ} {d : Decl} {p : Position} (h : At s d [] p) (homit : d.isOmitted = true) :
    R.Rel s (Transfer.elementAt aim d p) (Transfer.elementAt aim' d (p.relocated f))
  single {s : σ} {d : Decl} {p : Position} {m : Place → Move} (h : At s d [] p)
    (hm : Move.Single m) : R.Rel s [.move (m p.place)] [.move (m (f.place p.place))]
  struct {s : σ} {d : Decl} {p : Position} (h : At s d [] p) (hk : d.kind = .struct)
    (hfields : R.Rel s (Transfer.fields aim 0 d.members p.place p.number)
      (Transfer.fields aim' 0 d.members (f.place p.place) (f.number p.number))) :
    R.Rel s (Transfer.elementAt aim d p) (Transfer.elementAt aim' d (p.relocated f))
  field {s : σ} {d m : Decl} {p : Position} (h : At s d [] p) (hk : d.kind = .struct)
    (hm : m ∈ d.members) : At s m m.extents (p.member m false)
  variant {s : σ} {d v : Decl} {tag : String} {p : Position} (h : At s d [] p)
    (hk : d.kind = .union tag false) (hv : v ∈ d.members) : At s v v.extents (p.member v true)
  fieldOfVariant {s : σ} {d v m : Decl} {tag : String} {p : Position} (h : At s d [] p)
    (hk : d.kind = .union tag true) (hv : v ∈ d.members) (hm : m ∈ v.members) :
    At s m m.extents ((p.member v true).member m false)
  ownerTag {s : σ} {d : Decl} {tag : String} {p : Position} {o : Place} (h : At s d [] p)
    (hk : d.kind = .union tag false) (ho : p.owner = some o) :
    R.Tags s (.field o tag false) (f.place (.field o tag false))
  variantTag {s : σ} {d v lead : Decl} {tag : String} {p : Position} (h : At s d [] p)
    (hk : d.kind = .union tag true) (hlead : d.leadVariant? = some lead) (hv : v ∈ d.members) :
    R.Tags s (Transfer.tagOf p.place d.sharedFields lead v)
      (f.place (Transfer.tagOf p.place d.sharedFields lead v))

namespace Follows

variable {f : Relocation} {At : σ → Decl → List Nat → Position → Prop} {d : Decl} {tag : String}

/-- The code for a union with an external tag is related if that for its variants is. -/
theorem external (h : R.Follows aim aim' f At) (hat : At s d [] p) (hk : d.kind = .union tag false)
    (hvariants : ∀ v ∈ d.members, R.Rel s (Transfer.code aim v v.extents (p.member v true))
      (Transfer.code aim' v v.extents ((p.relocated f).member v true))) :
    R.Rel s (Transfer.elementAt aim d p) (Transfer.elementAt aim' d (p.relocated f)) := by
  rw [Transfer.elementAt, Transfer.elementAt]
  cases ho : p.owner with
  | none =>
    have ho' : (p.relocated f).owner = none := congrArg (Option.map f.place) ho
    rw [ho', Transfer.element_external_none hk, Transfer.element_external_none hk]
    exact R.nil s
  | some o =>
    have ho' : (p.relocated f).owner = some (f.place o) := congrArg (Option.map f.place) ho
    have htag := h.ownerTag hat hk ho
    rw [f.field] at htag
    rw [ho', Transfer.element_external hk, Transfer.element_external hk, Transfer.variants_sorted,
      Transfer.variants_sorted]
    refine sorted fun v hv => ?_
    rw [Transfer.wholeArm?, Transfer.wholeArm?]
    cases v.encoding.variantId with
    | none => exact .none
    | some id => exact .some ⟨rfl, htag, R.append (hvariants v hv) (R.paddings s _)⟩

/-- The code for a union with an internal tag is related if that for the fields of its variants
is. -/
theorem internal (h : R.Follows aim aim' f At) (hat : At s d [] p) (hk : d.kind = .union tag true)
    (hfields : ∀ v ∈ d.members, ∀ m ∈ v.members,
      R.Rel s (Transfer.code aim m m.extents ((p.member v true).member m false))
        (Transfer.code aim' m m.extents (((p.relocated f).member v true).member m false))) :
    R.Rel s (Transfer.elementAt aim d p) (Transfer.elementAt aim' d (p.relocated f)) := by
  rw [Transfer.elementAt, Transfer.elementAt, Transfer.element_internal hk,
    Transfer.element_internal hk, Transfer.sharedFields_lead, Transfer.sharedFields_lead]
  change R.Rel s (d.leadVariant?.elim [] _ ++ _) (d.leadVariant?.elim [] _ ++ _)
  cases hlead : d.leadVariant? with
  | none =>
    rw [Transfer.remainders_none, Transfer.remainders_none]
    exact R.nil s
  | some lead =>
    have hmem := List.mem_of_find?_eq_some hlead
    have hshared := leadingFields _ _ (hfields lead hmem) d.sharedFields
    rw [Transfer.remainders_sorted, Transfer.remainders_sorted]
    refine R.append hshared (sorted fun v hv => ?_)
    have hrest := CodeRelation.fields _ _ (hfields v hv) d.sharedFields
    have htag := h.variantTag hat hk hlead hv
    rw [Transfer.relocated_tagOf] at htag
    rw [Transfer.restArm?, Transfer.restArm?]
    cases v.encoding.variantId with
    | none => exact .none
    | some id => exact .some ⟨rfl, htag, R.append hrest (R.paddings s _)⟩

/-- **Related code**: the code for a declaration, over some ranks, here and elsewhere. -/
theorem code (h : R.Follows aim aim' f At) (d : Decl) {s : σ} {ranks : List Nat} {p : Position}
    (hat : At s d ranks p) :
    R.Rel s (Transfer.code aim d ranks p) (Transfer.code aim' d ranks (p.relocated f)) := by
  induction d using Decl.induct generalizing s ranks p with
  | step d hmembers hgrand hwire =>
  induction ranks generalizing s p with
  | cons extent ranks ih =>
    obtain ⟨t, hinner, hloop⟩ := h.loop hat
    have hbody := ih hinner
    rw [Position.relocated_inLoop] at hbody
    exact hloop _ _ hbody
  | nil =>
    change R.Rel s (Transfer.elementAt aim d p) (Transfer.elementAt aim' d (p.relocated f))
    cases hk : d.kind with
    | transformed t =>
      rw [Transfer.elementAt, Transfer.elementAt, Transfer.element_transformed hk,
        Transfer.element_transformed hk]
      cases hw : d.wire with
      | none => exact R.nil s
      | some w =>
        obtain ⟨t', hinner, hblock⟩ := h.wire hat hk hw
        have hbody := hwire w hw hinner
        rw [Position.relocated_onWire] at hbody
        exact hblock _ _ hbody
    | struct =>
      refine h.struct hat hk (CodeRelation.fields p (p.relocated f) (fun m hm => ?_) 0)
      rw [← Position.relocated_member]
      exact hmembers m hm (h.field hat hk hm)
    | union tag internal =>
      cases internal with
      | false =>
        refine h.external hat hk fun v hv => ?_
        rw [← Position.relocated_member]
        exact hmembers v hv (h.variant hat hk hv)
      | true =>
        refine h.internal hat hk fun v hv m hm => ?_
        rw [← Position.relocated_member, ← Position.relocated_member]
        exact hgrand v hv m hm (h.fieldOfVariant hat hk hv hm)
    | _ =>
      have hleaf := Transfer.element_leaf (d := d) (by rw [hk]; rfl) (by simp [hk])
      obtain homit | ⟨m, hm, hmove⟩ := hleaf
      · exact h.omitted hat homit
      · rw [Transfer.elementAt, Transfer.elementAt, hmove, hmove]
        exact h.single hat hm

/-- The code for a declaration is related where it stands. -/
theorem here (h : R.Follows aim aim' .refl At) (d : Decl) {ranks : List Nat} {p : Position}
    (hat : At s d ranks p) :
    R.Rel s (Transfer.code aim d ranks p) (Transfer.code aim' d ranks p) := by
  have hcode := h.code d hat
  rwa [Position.relocated_refl] at hcode

/-- Fields in a row, here and elsewhere. -/
theorem fields (h : R.Follows aim aim' f At) (hat : ∀ m ∈ ds, At s m m.extents (p.member m false))
    (skipped : Nat) : R.Rel s (Transfer.fields aim skipped ds p.place p.number)
      (Transfer.fields aim' skipped ds (f.place p.place) (f.number p.number)) := by
  refine CodeRelation.fields p (p.relocated f) (fun m hm => ?_) skipped
  rw [← Position.relocated_member]
  exact h.code m (hat m hm)

/-- The code for one element is related where it stands. -/
theorem element (h : R.Follows aim aim' .refl At) (d : Decl) {place : Place} {owner : Option Place}
    {n : Nat} (hat : At s d [] ⟨place, owner, n⟩) :
    R.Rel s (Transfer.element aim d place owner n) (Transfer.element aim' d place owner n) :=
  h.here d hat

end Follows

/-! ## items -/

/-- Loops around related code, where the context is a count of them. -/
theorem loopedAll {c : Nat → σ} (hloop : ∀ n l xs xs', R.Rel (c (n + 1)) xs xs' →
      R.Rel (c n) (Statement.looped l xs) (Statement.looped l xs'))
    {loops : List Loop} {xs xs' : List Statement} (n : Nat)
    (h : R.Rel (c (n + loops.length)) xs xs') :
    R.Rel (c n) (Statement.loopedAll loops xs) (Statement.loopedAll loops xs') := by
  induction loops generalizing n with
  | nil => exact h
  | cons l loops ih =>
    rw [List.length_cons, ← Nat.add_assoc, Nat.add_right_comm] at h
    exact hloop n l _ _ (ih (n + 1) h)

/-- The code for an item is related if that for its declaration is, in the loops around it. -/
theorem Follows.item {At : σ → Decl → List Nat → Position → Prop}
    (h : R.Follows aim aim' .refl At) {c : Nat → σ}
    (hloop : ∀ n l xs xs', R.Rel (c (n + 1)) xs xs' →
      R.Rel (c n) (Statement.looped l xs) (Statement.looped l xs'))
    {i : Item} (hat : ∀ p, i.content = .value p → ∀ place owner n,
      At (c n) p.last.decl [] ⟨place, owner, n⟩) :
    R.Rel (c 0) (i.statements aim) (i.statements aim') := by
  obtain ⟨cs, content⟩ := i
  cases content with
  | value p =>
    refine loopedAll hloop 0 ?_
    rw [Nat.zero_add]
    exact h.element p.last.decl (hat p rfl _ _ _)
  | padding bits trailing =>
    cases trailing with
    | true => exact R.nil _
    | false => exact R.paddings _ bits

/-- **Code for items is related** if that for each of them is, and the tags that they stand under
are. -/
theorem items (aim aim' : Purpose) {row : List Item}
    (hitems : ∀ i ∈ row, R.Rel s (i.statements aim) (i.statements aim'))
    (htags : ∀ i ∈ row, ∀ c ∈ i.conditions, R.Tags s c.tag.locus.place c.tag.locus.place)
    (levels level : Nat) :
    R.Rel s (Items.statementsWithin aim levels level row)
      (Items.statementsWithin aim' levels level row) := by
  induction levels generalizing level row with
  | zero => exact flatMap hitems
  | succ levels ih =>
    rw [Items.statementsWithin_succ, Items.statementsWithin_succ]
    refine flatMap fun run hrun => ?_
    have hrow : ∀ i ∈ run, i ∈ row := fun i hi => Items.mem_of_run hrun hi
    unfold Items.runStatements
    split
    · exact flatMap fun i hi => hitems i (hrow i hi)
    · have htag : ∀ group ∈ Items.groups level run,
          R.Tags s group.condition.tag.locus.place group.condition.tag.locus.place :=
        Items.groups_induct (fun i hi c hc => htags i (hrow i hi) c (List.mem_of_getElem? hc))
          fun _ _ _ _ _ _ hgroup => hgroup
      have hmem : ∀ group ∈ Items.groups level run, ∀ i ∈ group.items, i ∈ row :=
        Items.forall_groups hrow
      refine chosen (List.pairwise_map.2 (Items.ascending_groups level run)) ?_
      rw [List.forall₂_map_left_iff, List.forall₂_map_right_iff, List.forall₂_same]
      intro group hgroup
      exact ⟨rfl, htag group hgroup, ih (fun i hi => hitems i (hmem group hgroup i hi))
        (fun i hi => htags i (hmem group hgroup i hi)) (level + 1)⟩

end CodeRelation

end BitLayout
