import BitLayout.Proofs.Encoding.Elements

/-!
# BitLayout.Proofs.Registry.Unfolding

Which types can be laid out, and what is kept of how they are written. Unfolding a type passes
through aliases and into arrays, until it ends in the name of a primitive or a record:

```
type Row = [i16; 3];   type Grid = [Row; 2];

Grid  ⟶  [Row; 2]  ⟶  Row  ⟶  [i16; 3]  ⟶  i16        passing  Grid, 2, Row, 3
```

Aliases and arrays count alike, and at most 32 of them are passed. What is kept of them is all: each
level of the type has its extent, and the aliases that were passed on the way to it.

* `Registry.unfold_of_unfolds`: an unfolding is followed if the budget is larger than its length;
* `Registry.unfolds_of_unfold`: what is followed is an unfolding;
* `Registry.resolves_iff_unfolds`: the types that can be laid out, and what they stand for.
-/

namespace BitLayout

/-! ## unfoldings -/

/-- A step of unfolding a type: through an alias to its target, or into the elements of an array. -/
inductive Passage where
  | through (name : String)
  | rank (extent : Nat)
deriving DecidableEq, Repr

/-- The extent of an array that is entered. -/
def Passage.extent? : Passage → Option Nat
  | through _ => none
  | rank extent => some extent

/-- Unfolding a type passes through aliases and arrays in turn, and ends in a name with a shape of
its own. A name is that of a primitive, or else of a record, or else of an alias. The length of an
array is one integer literal of 64 bits. -/
inductive Registry.Unfolds (g : Registry) : TypeExpr → List Passage → String → ElementShape → Prop
  where
  | paren {type : TypeExpr} {passages : List Passage} {last : String} {shape : ElementShape}
      (h : Unfolds g type passages last shape) : Unfolds g (.paren type) passages last shape
  | group {type : TypeExpr} {passages : List Passage} {last : String} {shape : ElementShape}
      (h : Unfolds g type passages last shape) : Unfolds g (.group type) passages last shape
  | array {elem : TypeExpr} {length : ArrayLength} {n : Nat} {passages : List Passage}
      {last : String} {shape : ElementShape}
      (hlength : length.literal?.bind integerMagnitude? = some n)
      (hfits : n < patterns 64) (h : Unfolds g elem passages last shape) :
      Unfolds g (.array elem length) (.rank n :: passages) last shape
  | primitive {name : String} {shape : ElementShape}
      (hprim : ElementShape.primitive? name = some shape) : Unfolds g (.name name) [] name shape
  | record {name : String} {r : Record} (hprim : ElementShape.primitive? name = none)
      (hrecord : g.record? name = some r) : Unfolds g (.name name) [] name (.record name r.kind)
  | throughAlias {name : String} {found : TypeAlias} {passages : List Passage} {last : String}
      {shape : ElementShape} (hprim : ElementShape.primitive? name = none)
      (hrecord : g.record? name = none) (halias : g.alias? name = some found)
      (h : Unfolds g found.target passages last shape) :
      Unfolds g (.name name) (.through name :: passages) last shape

/-- What was passed on the way to a level of a type: its aliases, nearest first, and its extent. -/
def Rank.passed (r : Rank) : List Passage := r.aliases.map .through ++ [.rank r.extent]

namespace TypeRef

variable {t : TypeRef} {passages : List Passage} {last : String} {shape : ElementShape}

/-- What was passed on the way to the element of a type, level by level. -/
def passed (t : TypeRef) : List Passage :=
  t.ranks.flatMap Rank.passed ++ t.elem.aliases.map .through

/-- What a type stands for has all of its unfolding: the arrays, outermost first, the end, and at
each level the aliases passed on the way to it. An element that was reached through aliases is
written as the first of them. -/
structure Keeps (t : TypeRef) (passages : List Passage) (last : String) (shape : ElementShape) :
    Prop where
  extents : t.extents = passages.filterMap Passage.extent?
  shape : t.elem.shape = shape
  type : t.elem.type = .name (t.elem.aliases.headD last)
  passed : t.passed = passages

theorem Keeps.array (h : t.Keeps passages last shape) (type : TypeExpr) (n : Nat) :
    (t.array type n).Keeps (.rank n :: passages) last shape where
  extents := congrArg (n :: ·) h.extents
  shape := h.shape
  type := h.type
  passed := congrArg (List.cons (Passage.rank n)) h.passed

theorem Keeps.throughAlias (h : t.Keeps passages last shape) (name : String) :
    (t.throughAlias name).Keeps (.through name :: passages) last shape := by
  have hpassed := congrArg (List.cons (Passage.through name)) h.passed
  obtain ⟨ranks, elem⟩ := t
  cases ranks with
  | nil => exact ⟨h.extents, h.shape, rfl, hpassed⟩
  | cons rank ranks => exact ⟨h.extents, h.shape, h.type, hpassed⟩

end TypeRef

/-! ## following them -/

namespace Registry

variable {g : Registry} {budget : Nat} {type : TypeExpr} {t : TypeRef} {passages : List Passage}
  {last name : String} {shape : ElementShape}

theorem arrayExtent_eq_ok_iff {length : ArrayLength} {n : Nat} : arrayExtent length = .ok n ↔
    length.literal?.bind integerMagnitude? = some n ∧ n < patterns 64 := by
  unfold arrayExtent
  cases length.literal?.bind integerMagnitude? with
  | none => simp
  | some found =>
    dsimp only
    by_cases hfits : found < patterns 64
    · rw [if_pos hfits, Except.ok.injEq, Option.some.injEq]
      exact ⟨fun h => ⟨h, h ▸ hfits⟩, And.left⟩
    · rw [if_neg hfits, Option.some.injEq]
      exact ⟨fun h => (nomatch h), fun h => (hfits (h.1 ▸ h.2)).elim⟩

/-- A name with a shape of its own is that of a primitive or of a record. -/
theorem Unfolds.plain (h : g.plainShape? name = some shape) :
    g.Unfolds (.name name) [] name shape := by
  unfold plainShape? at h
  cases hprim : ElementShape.primitive? name with
  | some found =>
    rw [hprim, Option.some.injEq] at h
    exact .primitive (h ▸ hprim)
  | none =>
    rw [hprim] at h
    obtain ⟨r, hrecord, rfl⟩ := Option.map_eq_some_iff.1 h
    exact .record hprim hrecord

theorem plainShape?_eq_none_iff : g.plainShape? name = none ↔
    ElementShape.primitive? name = none ∧ g.record? name = none := by
  unfold plainShape?
  cases ElementShape.primitive? name <;> simp

/-- Parentheses and invisible groups are looked through. -/
theorem Unfolds.of_unwrapped (h : g.Unfolds type.unwrapped passages last shape) :
    g.Unfolds type passages last shape := by
  induction type with
  | paren inner ih => exact .paren (ih h)
  | group inner ih => exact .group (ih h)
  | _ => exact h

/-- An unfolding is followed if the budget is larger than its length, and is kept. -/
theorem unfold_of_unfolds (h : g.Unfolds type passages last shape) (hb : passages.length < budget) :
    ∃ t, g.unfold budget type = .ok t ∧ t.Keeps passages last shape := by
  obtain ⟨budget, rfl⟩ := Nat.exists_eq_add_of_le' (Nat.succ_le_of_lt (Nat.zero_lt_of_lt hb))
  induction h generalizing budget with
  | paren _ ih => exact ih budget hb
  | group _ ih => exact ih budget hb
  | @array elem length n passages last shape hlength hfits _ ih =>
    obtain ⟨budget, rfl⟩ := Nat.exists_eq_add_of_le' (Nat.zero_lt_of_lt (Nat.lt_of_succ_lt_succ hb))
    obtain ⟨t, ht, hkeeps⟩ := ih budget (Nat.lt_of_succ_lt_succ hb)
    exact ⟨_, unfold_array rfl (arrayExtent_eq_ok_iff.2 ⟨hlength, hfits⟩) ht, hkeeps.array _ n⟩
  | @primitive name shape hprim =>
    exact ⟨_, unfold_plain rfl (by rw [plainShape?, hprim]), rfl, rfl, rfl, rfl⟩
  | @record name r hprim hrecord =>
    exact ⟨_, unfold_plain rfl (by rw [plainShape?, hprim, hrecord, Option.map_some]),
      rfl, rfl, rfl, rfl⟩
  | @throughAlias name found passages last shape hprim hrecord halias _ ih =>
    obtain ⟨budget, rfl⟩ := Nat.exists_eq_add_of_le' (Nat.zero_lt_of_lt (Nat.lt_of_succ_lt_succ hb))
    obtain ⟨t, ht, hkeeps⟩ := ih budget (Nat.lt_of_succ_lt_succ hb)
    have hplain := plainShape?_eq_none_iff.2 ⟨hprim, hrecord⟩
    exact ⟨_, unfold_alias rfl hplain halias ht, hkeeps.throughAlias name⟩

/-- What is followed within a budget is an unfolding that is shorter. -/
theorem unfolds_of_unfold (h : g.unfold budget type = .ok t) :
    ∃ passages last shape, g.Unfolds type passages last shape ∧ passages.length < budget := by
  induction budget generalizing type t with
  | zero => simp [unfold] at h
  | succ budget ih =>
    rcases unfold_inv h with ⟨elem, length, extent, inner, htype, hextent, hinner, -⟩ |
      ⟨name, shape, htype, hplain, -⟩ | ⟨name, found, inner, htype, hplain, halias, hinner, -⟩
    · obtain ⟨passages, last, shape, hunfolds, hlt⟩ := ih hinner
      obtain ⟨hlength, hfits⟩ := arrayExtent_eq_ok_iff.1 hextent
      refine ⟨.rank extent :: passages, last, shape, .of_unwrapped ?_, Nat.succ_lt_succ hlt⟩
      exact htype ▸ .array hlength hfits hunfolds
    · exact ⟨[], name, shape, .of_unwrapped (htype ▸ .plain hplain), Nat.succ_pos budget⟩
    · obtain ⟨passages, last, shape, hunfolds, hlt⟩ := ih hinner
      obtain ⟨hprim, hrecord⟩ := plainShape?_eq_none_iff.1 hplain
      refine ⟨.through name :: passages, last, shape, .of_unwrapped ?_, Nat.succ_lt_succ hlt⟩
      exact htype ▸ .throughAlias hprim hrecord halias hunfolds

/-- **Resolving** a type succeeds if, and only if, it has an unfolding of at most 32 aliases and
arrays, and the type then stands for what the unfolding says: for the end of it, along its arrays,
and with the aliases it passed at each level. -/
theorem resolves_iff_unfolds (g : Registry) (type : TypeExpr) :
    ((∃ t, g.resolveType type = .ok t) ↔
      ∃ passages last shape, g.Unfolds type passages last shape ∧ passages.length ≤ 32) ∧
    ∀ t, g.resolveType type = .ok t → ∀ passages last shape, g.Unfolds type passages last shape →
      t.Keeps passages last shape := by
  refine ⟨⟨?_, ?_⟩, ?_⟩
  · rintro ⟨t, ht⟩
    obtain ⟨passages, last, shape, hunfolds, hlt⟩ := unfolds_of_unfold ht
    exact ⟨passages, last, shape, hunfolds, Nat.le_of_lt_succ hlt⟩
  · rintro ⟨passages, last, shape, hunfolds, hle⟩
    obtain ⟨t, ht, -⟩ := unfold_of_unfolds hunfolds (Nat.lt_succ_of_le hle)
    exact ⟨t, ht⟩
  · intro t ht passages last shape hunfolds
    let budget := max (maxDepth + 1) (passages.length + 1)
    have hlong : passages.length < budget :=
      Nat.lt_of_lt_of_le (Nat.lt_succ_self _) (Nat.le_max_right _ _)
    obtain ⟨t', ht', hkeeps⟩ := unfold_of_unfolds hunfolds hlong
    have hsame : g.unfold budget type = .ok t := unfold_mono ht (Nat.le_max_left _ _)
    obtain rfl : t = t' := Except.ok.inj (hsame.symm.trans ht')
    exact hkeeps

end Registry

namespace Sample

/-- A row, a grid of rows, and an alias of itself. -/
def rows : Registry where
  records := []
  aliases := [
    ⟨"Row", .array (.name "i16") ⟨.ofTokens [.literal "3"], some "3"⟩, Request.empty⟩,
    ⟨"Grid", .array (.paren (.name "Row")) ⟨.ofTokens [.literal "2"], some "2"⟩, Request.empty⟩,
    ⟨"Loop", .name "Loop", Request.empty⟩]

/-- Each level of the grid has the alias it was reached through, and the loop is refused. -/
example : (rows.resolveType (.name "Grid")).toOption.map TypeRef.passed =
      some [.through "Grid", .rank 2, .through "Row", .rank 3] ∧
    (rows.resolveType (.name "Loop")).toOption = none := by decide +kernel

end Sample

end BitLayout
