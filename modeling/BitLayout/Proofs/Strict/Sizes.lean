import BitLayout.Proofs.Item.Sizes
import BitLayout.Sector.Packing

/-!
# BitLayout.Proofs.Strict.Sizes

Strict computations. Planning and writing code take differences, slices and entries of lists, look
for tags and for values on the wire, and go down data to a bound. The definitions that run have some
answer in every case: a difference is never negative, a slice ends with its list, and a union whose
tag is missing stays whole. A *strict* computation is the same one, except that it stops in all
these cases, and says why.

Where a strict computation has a result, none of these cases has come up. So for each of them there
is one theorem: on what comes up for an accepted model it has the result of the definition that
runs. This module is about sizes:

* `Strict.elementBits_eq`: the strict size of an element of a sound declaration is its size.
-/

namespace BitLayout

/-- Why a strict computation stops. -/
inductive Halt where
  /-- A difference is negative. -/
  | difference
  /-- A slice reaches beyond its list. -/
  | slice
  /-- There is no entry at an index. -/
  | entry
  /-- A union with an external tag stands in nothing. -/
  | noOwner
  /-- The struct around a union has no field for the tag. -/
  | noTag
  /-- All variants of a union with an internal tag are left out. -/
  | noLead
  /-- A transformed value is nothing on the wire. -/
  | noWire
  /-- A record is not known. -/
  | noRecord
  /-- There is more to go down than the bound allows. -/
  | tooDeep
  /-- Nothing is amiss, but the data cannot be packed. -/
  | refused (error : PackError)
deriving DecidableEq, Repr

namespace Strict

variable {α β : Type}

/-! ## partial operations -/

/-- What is there. -/
def need (h : Halt) : Option α → Except Halt α
  | some a => .ok a
  | none => .error h

/-- The difference of two numbers. -/
def minus (a b : Nat) : Except Halt Nat := if b ≤ a then .ok (a - b) else .error .difference

/-- The first entries of a list, as many as asked for. -/
def first (count : Nat) (xs : List α) : Except Halt (List α) :=
  if count ≤ xs.length then .ok (xs.take count) else .error .slice

/-- The entries of a list behind the first ones. -/
def behind (count : Nat) (xs : List α) : Except Halt (List α) :=
  if count ≤ xs.length then .ok (xs.drop count) else .error .slice

/-- The entry of a list at an index. -/
def entry (xs : List α) (index : Nat) : Except Halt α := need .entry xs[index]?

@[simp] theorem need_some (h : Halt) (a : α) : need h (some a) = .ok a := rfl

theorem minus_eq {a b : Nat} (h : b ≤ a) : minus a b = .ok (a - b) := if_pos h

theorem first_eq {count : Nat} {xs : List α} (h : count ≤ xs.length) :
    first count xs = .ok (xs.take count) := if_pos h

theorem behind_eq {count : Nat} {xs : List α} (h : count ≤ xs.length) :
    behind count xs = .ok (xs.drop count) := if_pos h

@[simp] theorem ok_bind (a : α) (f : α → Except Halt β) : (Except.ok a >>= f) = f a := rfl

/-- A list of strict computations has all results if each has one. -/
theorem mapM_eq {f : α → Except Halt β} {value : α → β} {xs : List α}
    (h : ∀ x ∈ xs, f x = .ok (value x)) : xs.mapM f = .ok (xs.map value) := by
  induction xs with
  | nil => rfl
  | cons x xs ih =>
    obtain ⟨hx, hxs⟩ := List.forall_mem_cons.1 h
    rw [List.mapM_cons, hx, ih hxs]
    rfl

/-- Of the entries that are picked from a list, a strict computation has the results that are
found for the whole list, if each entry is picked just where there is one. -/
theorem mapM_filterMap {γ : Type} {f : β → Except Halt γ} {pick : α → Option β}
    {value : α → Option γ} {xs : List α}
    (h : ∀ x ∈ xs, (pick x).elim (value x = none) fun b => ∃ c, f b = .ok c ∧ value x = some c) :
    (xs.filterMap pick).mapM f = .ok (xs.filterMap value) := by
  induction xs with
  | nil => rfl
  | cons x xs ih =>
    obtain ⟨hx, hxs⟩ := List.forall_mem_cons.1 h
    cases hpick : pick x with
    | none =>
      rw [hpick, Option.elim_none] at hx
      rw [List.filterMap_cons_none hpick, List.filterMap_cons_none hx, ih hxs]
    | some b =>
      rw [hpick, Option.elim_some] at hx
      obtain ⟨c, hc, hvalue⟩ := hx
      rw [List.filterMap_cons_some hpick, List.filterMap_cons_some hvalue, List.mapM_cons, hc,
        ih hxs]
      rfl

/-! ## sizes of declarations -/

/-- The bytes of a text on the wire. -/
def textBytes (length : Nat) (terminated : Bool) : Except Halt Nat :=
  if terminated then minus length 1 else .ok length

mutual

/-- The bits of one element. -/
def elementBits : Decl → Except Halt Nat
  | .mk info members wire =>
    match info.encoding.kind with
    | .omitted => .ok 0
    | .boolean => .ok 1
    | .integer range => .ok range.bits
    | .text length terminated => return (← textBytes length terminated) * 8
    | .buffer bytes _ => .ok (bytes * 8)
    | .transformed _ => wireBits wire
    | .union _ _ => maxBits members
    | .struct => sumBits members

/-- The bits of a value on the wire. -/
def wireBits : Option Decl → Except Halt Nat
  | none => .error .noWire
  | some d => return (← elementBits d) * Decl.elementCount d.extents

/-- The bits of declarations in a row. -/
def sumBits : List Decl → Except Halt Nat
  | [] => .ok 0
  | d :: rest => return (← elementBits d) * Decl.elementCount d.extents + (← sumBits rest)

/-- The bits of the largest of some declarations. -/
def maxBits : List Decl → Except Halt Nat
  | [] => .ok 0
  | d :: rest => return max ((← elementBits d) * Decl.elementCount d.extents) (← maxBits rest)

end

theorem textBytes_eq {length : Nat} {terminated : Bool} (h : terminated = true → 0 < length) :
    textBytes length terminated = .ok (Kind.textBytes length terminated) := by
  cases terminated with
  | false => rfl
  | true => exact minus_eq (h rfl)

example : textBytes 0 true = .error .difference := rfl

section

variable {d : Decl} {ds : List Decl} {g : Registry} {records : List (String × List Decl)}

theorem sumBits_eq (h : ∀ d ∈ ds, elementBits d = .ok d.elementBits) :
    sumBits ds = .ok (Decl.sumBits ds) := by
  induction ds with
  | nil => rfl
  | cons d ds ih =>
    obtain ⟨hd, hds⟩ := List.forall_mem_cons.1 h
    rw [sumBits, hd, ih hds]
    rfl

theorem maxBits_eq (h : ∀ d ∈ ds, elementBits d = .ok d.elementBits) :
    maxBits ds = .ok (Decl.maxBits ds) := by
  induction ds with
  | nil => rfl
  | cons d ds ih =>
    obtain ⟨hd, hds⟩ := List.forall_mem_cons.1 h
    rw [maxBits, hd, ih hds]
    rfl

/-- **Strict sizes**: a text has room for its terminator, and a transformed value is something on
the wire. -/
theorem elementBits_eq {d : Decl} (hd : d.Everywhere (Decl.Sound g records)) :
    elementBits d = .ok d.elementBits := by
  refine hd.induct (P := fun d => elementBits d = .ok d.elementBits) fun d hd hmembers _ hwire => ?_
  have hsound := hd.self
  obtain ⟨info, members, wire⟩ := d
  rw [elementBits, Decl.elementBits]
  cases hk : info.encoding.kind with
  | text length terminated =>
    dsimp only
    rw [textBytes_eq fun ht => hsound.room length (ht ▸ hk)]
    rfl
  | transformed t =>
    obtain ⟨w, hw, -⟩ := hsound.wired t hk
    obtain rfl : wire = some w := hw
    dsimp only
    rw [wireBits, hwire w rfl]
    rfl
  | union tag internal => exact maxBits_eq hmembers
  | struct => exact sumBits_eq hmembers
  | _ => rfl

end

end Strict

end BitLayout
