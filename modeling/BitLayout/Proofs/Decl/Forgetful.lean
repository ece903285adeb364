import BitLayout.Proofs.Decl.Chains
import Mathlib.Control.Monad.Writer
import Mathlib.Data.List.Forall2

/-!
# BitLayout.Proofs.Decl.Forgetful

Building without memory. The members of a record are made anew for each of its uses, and so is the
check of the variants of a union; declarations have no numbers, and every step lists its own errors:

```
Building:   records, unions, errors  ->  declaration, more of them
Forgetful:                               declaration, its own errors
```

A forgetful builder cannot tell a record that contains itself, so it is given a budget. What it
makes is what it settles on (`Forgetful.Settles`): the result with any budget that is large enough.
-/

namespace BitLayout

/-- A step that makes something and lists its errors, unless its budget is too small. -/
abbrev Forgetful := WriterT (List DeclError) Option

namespace Forgetful

/-- Leave a declaration out if something is wrong with it. -/
def unlessFault (d : Decl) : Option DeclError → Forgetful Decl
  | none => return d
  | some e => do
    tell [e]
    return d.dropped

/-- The shared fields of a union under a tag, `none` if it is refused. -/
def checkedVariants (g : Registry) (s : Selection) (variants : List Decl) :
    Forgetful (Option Nat) :=
  match Decl.checkVariants g s.union s.tag s.internal variants with
  | .ok n => return some n
  | .error e => do
    tell [e]
    return none

/-- Check a new declaration. -/
def checked (g : Registry) (d : Decl) : Forgetful Decl :=
  match d.kind, d.wire, d.record? with
  | .transformed _, some wire, _ => unlessFault d (Decl.wireFault? wire)
  | .union tag internal, _, some union => do
    match ← checkedVariants g ⟨union, tag, internal⟩ d.members with
    | some n => return .mk { d.info with sharedFields := n } d.members d.wire
    | none => return d.dropped
  | _, _, _ => return d

/-- Check the tags of the members of a record. -/
def checkedTags (kind : RecordKind) (members : List Decl) : Forgetful (List Decl) :=
  members.zipIdx.mapM' fun (m, position) =>
    unlessFault m (Decl.tagFault? kind members position m)

/-- The resolution of a declaration, or what is left of it after an error. -/
def resolution (c : Config) (g : Registry) (type : TypeExpr) (own : Option Request) :
    Forgetful Resolution :=
  match c.resolve g own type with
  | .ok r => return r
  | .error e => do
    tell [.unresolved e]
    return ⟨.dropped, [], none⟩

/-- Take a record apart. -/
def membersOf (g : Registry) (field : Field → Forgetful Decl) (record : String) :
    Forgetful (List Decl) :=
  match g.record? record with
  | none => return []
  | some found => do
    let members ← found.fields.mapM' field
    checkedTags found.kind members

/-- Make a declaration and those below it, without numbers. One unit of `budget` is spent for
each. -/
def build (c : Config) (g : Registry) :
    (budget : Nat) → (name : String) → TypeExpr → Option Request → Forgetful Decl
  | 0, _, _, _ => WriterT.mk none
  | budget + 1, name, type, own => do
    let r ← resolution c g type own
    let members ← r.record?.elim (pure [])
      (membersOf g fun f => build c g budget f.name f.type (some f.request))
    let wire ← r.wire?.elim (pure none) fun w => some <$> build c g budget name w none
    checked g (.mk (Building.infoOf name type r 0) members wire)

/-- Make the declaration of a field of a record. -/
def field (c : Config) (g : Registry) (budget : Nat) (f : Field) : Forgetful Decl :=
  build c g budget f.name f.type (some f.request)

/-- Take a data object apart. -/
def object (c : Config) (g : Registry) (budget : Nat) (o : DataObject) : Forgetful Decl := do
  let d ← build c g budget o.name o.type none
  unlessFault d (if d.isExternal then some .outsideStruct else none)

/-! ## results -/

/-- What a step makes, and what it reports, with any budget that is large enough. -/
def Settles {α : Type} (x : Nat → Forgetful α) (made : α × List DeclError) : Prop :=
  ∃ least, ∀ budget, least ≤ budget → (x budget).run = some made

namespace Settles

variable {α β : Type} {x : Nat → Forgetful α} {made made' : α × List DeclError}

/-- What a step makes does not depend on the budget. -/
theorem unique (h : Settles x made) (h' : Settles x made') : made = made' := by
  obtain ⟨n, hn⟩ := h
  obtain ⟨k, hk⟩ := h'
  exact Option.some.inj
    ((hn _ (Nat.le_max_left n k)).symm.trans (hk _ (Nat.le_max_right n k)))

theorem of_run {y : Forgetful α} (h : y.run = some made) : Settles (fun _ => y) made :=
  ⟨0, fun _ _ => h⟩

theorem succ (h : Settles (fun budget => x (budget + 1)) made) : Settles x made := by
  obtain ⟨n, hn⟩ := h
  refine ⟨n + 1, fun budget hle => ?_⟩
  obtain ⟨rest, rfl⟩ := Nat.exists_eq_add_of_le' hle
  exact hn (rest + n) (Nat.le_add_left n rest)

theorem bind {f : Nat → α → Forgetful β} {a : α} {b : β} {es es' : List DeclError}
    (h : Settles x (a, es)) (h' : Settles (fun budget => f budget a) (b, es')) :
    Settles (fun budget => x budget >>= f budget) (b, es ++ es') := by
  obtain ⟨n, hn⟩ := h
  obtain ⟨k, hk⟩ := h'
  refine ⟨max n k, fun budget hle => ?_⟩
  have hx := hn budget (Nat.le_trans (Nat.le_max_left n k) hle)
  have hf := hk budget (Nat.le_trans (Nat.le_max_right n k) hle)
  rw [show (x budget >>= f budget).run = (x budget).run.bind fun p =>
    (f budget p.1).run.map fun q => (q.1, p.2 ++ q.2) from rfl, hx, Option.bind_some, hf]
  rfl

theorem map (f : α → β) {a : α} {es : List DeclError} (h : Settles x (a, es)) :
    Settles (fun budget => f <$> x budget) (f a, es) := by
  obtain ⟨n, hn⟩ := h
  refine ⟨n, fun budget hle => ?_⟩
  rw [show (f <$> x budget).run = (x budget).run.map fun p => (f p.1, p.2) from rfl, hn budget hle]
  rfl

/-- Steps in a row make what each of them makes. -/
theorem mapM {f : Nat → α → Forgetful β} {xs : List α} {outs : List (β × List DeclError)}
    (h : List.Forall₂ (fun a out => Settles (fun budget => f budget a) out) xs outs) :
    Settles (fun budget => xs.mapM' (f budget)) (outs.map Prod.fst, outs.flatMap Prod.snd) := by
  induction h with
  | nil => exact .of_run rfl
  | @cons a out xs outs ha _ ih =>
    have hrest : Settles (fun budget => do
        let bs ← xs.mapM' (f budget)
        return out.1 :: bs) (out.1 :: outs.map Prod.fst, outs.flatMap Prod.snd ++ []) :=
      .bind ih (.of_run rfl)
    rw [List.append_nil] at hrest
    exact .bind ha hrest

/-- Steps in a row report what each of them reports. -/
theorem mem_flatMap {f : Nat → α → Forgetful β} {xs : List α} {outs : List (β × List DeclError)}
    (h : List.Forall₂ (fun a out => Settles (f · a) out) xs outs) {e : DeclError} :
    e ∈ outs.flatMap Prod.snd ↔ ∃ a ∈ xs, ∃ b es, Settles (f · a) (b, es) ∧ e ∈ es := by
  induction h with
  | nil => simp
  | @cons a out xs outs ha _ ih =>
    rw [List.flatMap_cons, List.mem_append, ih, List.exists_mem_cons_iff]
    refine or_congr_left ⟨fun he => ⟨out.1, out.2, ha, he⟩, ?_⟩
    rintro ⟨b, es, hsettles, he⟩
    rwa [ha.unique hsettles]

end Settles

end Forgetful

end BitLayout
