import BitLayout.Proofs.Decl.Sound
import BitLayout.Item.Split
import Mathlib.Data.List.Nodup

/-!
# BitLayout.Proofs.Item.Trail

Where paths lead. The trail of a path lists the numbers of its declarations and the indices between
them, so that the path to a part has a longer trail than the path to the whole:

```
trail(p.member d)  =  trail(p) ++ [d]
trail(p.access a)  =  trail(p) ++ [a]
```

* `Path.trail_eq_of_beq`: paths that compare as equal have one trail;
* `Path.Apart.not_both`: nothing lies behind two paths that are apart;
* `Path.Walks.eq_of_beq`: paths that walk down data objects are equal if they compare so.
-/

namespace BitLayout

/-! ## comparing -/

/-- Lists are equal if they compare so and their entries are. -/
theorem list_eq_of_beq {α : Type} [BEq α] {xs ys : List α}
    (hentry : ∀ x ∈ xs, ∀ y ∈ ys, (x == y) = true → x = y) (h : (xs == ys) = true) : xs = ys := by
  induction xs generalizing ys with
  | nil =>
    cases ys with
    | nil => rfl
    | cons y ys => cases h
  | cons x xs ih =>
    cases ys with
    | nil => cases h
    | cons y ys =>
      rw [List.cons_beq_cons, Bool.and_eq_true] at h
      rw [hentry x List.mem_cons_self y List.mem_cons_self h.1, ih (fun x hx y hy =>
        hentry x (List.mem_cons_of_mem _ hx) y (List.mem_cons_of_mem _ hy)) h.2]

namespace Step

theorem beq_iff {s t : Step} :
    (s == t) = true ↔ s.decl.number = t.decl.number ∧ s.accesses = t.accesses := by
  rw [show (s == t) = (s.decl.number == t.decl.number && s.accesses == t.accesses) from rfl,
    Bool.and_eq_true, beq_iff_eq, beq_iff_eq]

instance : ReflBEq Step := ⟨beq_iff.2 ⟨rfl, rfl⟩⟩

end Step

namespace Path

instance : ReflBEq Path := ⟨fun {p} => by
  rw [show (p == p) = (p.owners == p.owners && p.last == p.last) from rfl, BEq.rfl, BEq.rfl]
  rfl⟩

theorem beq_iff {p q : Path} : (p == q) = true ↔ (p.owners == q.owners) = true ∧
    (p.last == q.last) = true := by
  rw [show (p == q) = (p.owners == q.owners && p.last == q.last) from rfl, Bool.and_eq_true]

end Path

namespace Condition

instance : ReflBEq Condition := ⟨fun {c} => by
  rw [show (c == c) = (c.union == c.union && c.tag == c.tag && c.value == c.value) from rfl,
    BEq.rfl, BEq.rfl, BEq.rfl]
  rfl⟩

theorem beq_iff {c d : Condition} : (c == d) = true ↔
    (c.union == d.union) = true ∧ (c.tag == d.tag) = true ∧ c.value = d.value := by
  rw [show (c == d) = (c.union == d.union && c.tag == d.tag && c.value == d.value) from rfl,
    Bool.and_eq_true, Bool.and_eq_true, and_assoc, beq_iff_eq (a := c.value)]

end Condition

/-! ## trails -/

/-- What a path passes: a declaration, or a run of indices. -/
inductive Mark where
  | decl (number : Nat)
  | index (access : Access)
deriving DecidableEq

/-- A declaration and the indices applied to it. -/
def Step.marks (s : Step) : List Mark := .decl s.decl.number :: s.accesses.map .index

namespace Path

variable {p q u : Path}

/-- The path to a whole data object. -/
def root (d : Decl) : Path := ⟨[], .whole d⟩

/-- Everything that a path passes, outermost first. -/
def trail (p : Path) : List Mark := p.steps.flatMap Step.marks

theorem trail_member (p : Path) (d : Decl) :
    (p.member d).trail = p.trail ++ [.decl d.number] := by
  simp [trail, member, steps, Step.marks, Step.whole]

theorem trail_access (p : Path) (a : Access) : (p.access a).trail = p.trail ++ [.index a] := by
  simp [trail, access, withAccesses, steps, Step.marks]

/-- Steps that compare as equal have the same marks. -/
theorem marks_eq_of_beq {ss ts : List Step} (h : (ss == ts) = true) :
    ss.flatMap Step.marks = ts.flatMap Step.marks := by
  induction ss generalizing ts with
  | nil =>
    cases ts with
    | nil => rfl
    | cons t ts => cases h
  | cons s ss ih =>
    cases ts with
    | nil => cases h
    | cons t ts =>
      rw [List.cons_beq_cons, Bool.and_eq_true] at h
      obtain ⟨hnumber, haccesses⟩ := Step.beq_iff.1 h.1
      rw [List.flatMap_cons, List.flatMap_cons, ih h.2, Step.marks, Step.marks, hnumber, haccesses]

/-- Paths that compare as equal have one trail. -/
theorem trail_eq_of_beq (h : (p == q) = true) : p.trail = q.trail := by
  obtain ⟨howners, hlast⟩ := beq_iff.1 h
  obtain ⟨hnumber, haccesses⟩ := Step.beq_iff.1 hlast
  rw [trail, trail, steps, steps, List.flatMap_append, List.flatMap_append,
    marks_eq_of_beq howners]
  simp [Step.marks, hnumber, haccesses]

/-- Paths with different trails compare as different. -/
theorem beq_false_of_trail (h : p.trail ≠ q.trail) : (p == q) = false := by
  cases hb : p == q with
  | false => rfl
  | true => exact absurd (trail_eq_of_beq hb) h

/-! ## apart -/

/-- A path leads to or into what another one leads to. -/
def Within (q p : Path) : Prop := p.trail <+: q.trail

/-- Neither of two paths leads into what the other one leads to. -/
def Apart (p q : Path) : Prop := ¬ q.Within p ∧ ¬ p.Within q

theorem Within.refl (p : Path) : p.Within p := List.prefix_refl _

theorem Within.trans (h : u.Within q) (h' : q.Within p) : u.Within p := List.IsPrefix.trans h' h

theorem within_member (p : Path) (d : Decl) : (p.member d).Within p := by
  rw [Within, trail_member]
  exact List.prefix_append ..

theorem within_access (p : Path) (a : Access) : (p.access a).Within p := by
  rw [Within, trail_access]
  exact List.prefix_append ..

/-- Nothing lies behind two paths that are apart. -/
theorem Apart.not_both (h : p.Apart q) (hp : u.Within p) : ¬ u.Within q := fun hq =>
  (List.prefix_or_prefix_of_prefix hp hq).elim h.1 h.2

theorem Within.ne {d : Decl} (h : u.Within (p.member d)) : u.trail ≠ p.trail := by
  intro heq
  have hle := List.IsPrefix.length_le h
  rw [heq, trail_member, List.length_append, List.length_singleton] at hle
  omega

/-- Different members of one owner are apart. -/
theorem apart_member {d e : Decl} (h : d.number ≠ e.number) :
    (p.member d).Apart (p.member e) := by
  refine ⟨fun hw => ?_, fun hw => ?_⟩ <;>
  · rw [Within, trail_member, trail_member, List.prefix_append_right_inj] at hw
    simp_all [List.cons_prefix_cons]

/-- Different indices of one rank are apart. -/
theorem apart_access {a b : Access} (h : a ≠ b) : (p.access a).Apart (p.access b) := by
  refine ⟨fun hw => ?_, fun hw => ?_⟩ <;>
  · rw [Within, trail_access, trail_access, List.prefix_append_right_inj] at hw
    simp_all [List.cons_prefix_cons]

end Path

/-! ## walking down -/

/-- Steps that go down from one of some declarations, member by member. -/
def Step.Walk : List Decl → List Step → Prop
  | _, [] => True
  | ds, s :: rest => s.decl ∈ ds ∧ Walk s.decl.members rest

theorem Step.walk_concat {ds : List Decl} {ss : List Step} {s : Step} :
    Walk ds (ss ++ [s]) ↔ Walk ds ss ∧ s.decl ∈ ss.getLast?.elim ds (·.decl.members) := by
  induction ss generalizing ds with
  | nil => simp [Walk]
  | cons t ss ih =>
    rw [List.cons_append, Walk, Walk, ih, and_assoc, List.getLast?_cons]
    cases ss.getLast? <;> rfl

theorem Step.beq_concat {ss ts : List Step} {s t : Step} (h : (ss == ts) = true)
    (hst : (s == t) = true) : (ss ++ [s] == ts ++ [t]) = true := by
  induction ss generalizing ts with
  | nil =>
    cases ts with
    | nil => rw [List.nil_append, List.nil_append, List.cons_beq_cons, hst]; rfl
    | cons t ts => cases h
  | cons s ss ih =>
    cases ts with
    | nil => cases h
    | cons t ts =>
      rw [List.cons_beq_cons, Bool.and_eq_true] at h
      rw [List.cons_append, List.cons_append, List.cons_beq_cons, h.1, ih h.2]
      rfl

/-- Steps down declarations with different numbers are equal if they compare so. -/
theorem Step.Walk.eq_of_beq {ds : List Decl} {ss ts : List Step}
    (hnodup : (ds.map Decl.number).Nodup) (hds : ∀ d ∈ ds, d.Everywhere Decl.Distinct)
    (hs : Walk ds ss) (ht : Walk ds ts) (h : (ss == ts) = true) : ss = ts := by
  induction ss generalizing ds ts with
  | nil =>
    cases ts with
    | nil => rfl
    | cons t ts => cases h
  | cons s ss ih =>
    cases ts with
    | nil => cases h
    | cons t ts =>
      rw [List.cons_beq_cons, Bool.and_eq_true] at h
      obtain ⟨hnumber, haccesses⟩ := Step.beq_iff.1 h.1
      have hdecl : s.decl = t.decl := List.inj_on_of_nodup_map hnodup hs.1 ht.1 hnumber
      have hst : s = t := by
        obtain ⟨d, as⟩ := s
        obtain ⟨e, bs⟩ := t
        simp_all
      subst hst
      have hmember := hds s.decl hs.1
      rw [ih hmember.self (fun m hm => hmember.member hm) hs.2 ht.2 h.2]

namespace Path

variable {g : Registry} {m : Model} {p q : Path}

/-- A path that leads down from some declarations. -/
def Walks (ds : List Decl) (p : Path) : Prop := Step.Walk ds p.steps

theorem Walks.root {ds : List Decl} {d : Decl} (hd : d ∈ ds) :
    Walks ds (.root d) := ⟨hd, trivial⟩

theorem Walks.withAccesses {ds : List Decl} {p : Path} (h : p.Walks ds) (as : List Access) :
    (p.withAccesses as).Walks ds := by
  rw [Walks, steps, Step.walk_concat] at h ⊢
  exact h

theorem Walks.member {ds : List Decl} {d : Decl} (h : p.Walks ds) (hd : d ∈ p.last.decl.members) :
    (p.member d).Walks ds := by
  rw [Walks, steps, Step.walk_concat]
  refine ⟨h, ?_⟩
  rw [Path.member, steps, List.getLast?_concat]
  exact hd

theorem Walks.sibling {ds : List Decl} {owner : Step} {d : Decl} (h : p.Walks ds)
    (howner : p.owners.getLast? = some owner) (hd : d ∈ owner.decl.members) :
    (p.sibling d).Walks ds := by
  rw [Walks, steps, Step.walk_concat] at h ⊢
  refine ⟨h.1, ?_⟩
  rw [Path.sibling, howner]
  exact hd

/-- What holds everywhere in some declarations holds at the end of a path down from them. -/
theorem Walks.everywhere {P : Decl → Prop} {ds : List Decl} (hds : ∀ d ∈ ds, d.Everywhere P)
    (h : p.Walks ds) : p.last.decl.Everywhere P := by
  obtain ⟨owners, last⟩ := p
  rw [Walks, steps] at h
  induction owners generalizing ds with
  | nil => exact hds _ h.1
  | cons s owners ih => exact ih (fun e he => (hds _ h.1).member he) h.2

/-- The declaration at the end of a path is a member of the one before it, which is sound. -/
theorem Walks.owner (hm : m.Sound g) (h : p.Walks m.roots) {owner : Step}
    (howner : p.owners.getLast? = some owner) :
    p.last.decl ∈ owner.decl.members ∧ owner.decl.Sound g m.records := by
  have hsteps : p.owners = (Path.mk p.owners.dropLast owner).steps :=
    (List.dropLast_append_getLast? owner howner).symm
  obtain ⟨hwalk, hmem⟩ := Step.walk_concat.1 h
  have hq : (Path.mk p.owners.dropLast owner).Walks m.roots := by rwa [Walks, ← hsteps]
  exact ⟨by simpa [howner] using hmem, (hq.everywhere hm.roots).self⟩

/-- Paths down data objects are equal if they compare so. -/
theorem Walks.eq_of_beq (hm : m.Numbered) (hp : p.Walks m.roots) (hq : q.Walks m.roots)
    (h : (p == q) = true) : p = q := by
  obtain ⟨howners, hlast⟩ := beq_iff.1 h
  have hsteps : p.steps = q.steps :=
    Step.Walk.eq_of_beq hm.nodup hm.roots hp hq (Step.beq_concat howners hlast)
  obtain ⟨howners, hlast⟩ := List.append_inj' hsteps rfl
  obtain ⟨owners, last⟩ := p
  obtain ⟨owners', last'⟩ := q
  cases howners
  cases hlast
  rfl

end Path

end BitLayout
