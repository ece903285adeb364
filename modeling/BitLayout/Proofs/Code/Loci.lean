import BitLayout.Proofs.Code.Trace
import BitLayout.Proofs.Item.Reached

/-!
# BitLayout.Proofs.Code.Loci

Where the paths of items lead. A value that is reached, and is not a slice, is at one place without
loops around it; a slice is reached in one loop from such a place. So what moving an item does is
told by traces: at the place of its path, at every element behind its last index.

* `Path.Reached.stemmed`: a reached value is found from a place without loops;
* `events_value`, `events_slice`: what moving a value does;
* `Path.trace_rank`, `Path.trace_member`: the trace of an array is that of its elements, and that of
  a member stands at its field.
-/

namespace BitLayout

namespace Locus

/-- A locus without loops, at a place that mentions none. -/
structure Closed (l : Locus) : Prop where
  loops : l.loops = []
  place : l.place.Below 0
  owner : ∀ o, l.owner = some o → o.Below 0

variable {l : Locus}

theorem Closed.access (h : l.Closed) {a : Access} (ha : a.isSlice = false) :
    (l.access a).Closed := by
  rw [Locus.access, if_neg (by simp [ha])]
  exact ⟨h.loops, h.place, h.owner⟩

theorem Closed.field (h : l.Closed) (ofUnion : Bool) (d : Decl) :
    (l.field ofUnion (.whole d)).Closed :=
  ⟨h.loops, h.place, fun _ ho => Option.some.inj ho ▸ h.place⟩

/-- Indices do not change the owner. -/
theorem owner_foldl_access (l : Locus) (as : List Access) :
    (as.foldl Locus.access l).owner = l.owner := by
  induction as generalizing l with
  | nil => rfl
  | cons a as ih =>
    rw [List.foldl_cons, ih, Locus.access]
    split <;> rfl

/-- The last step of a walk is a field of what the steps before it lead to. -/
theorem along_concat (l : Locus) (behind : Step) (ss : List Step) (s : Step) :
    l.along behind (ss ++ [s]) =
      (l.along behind ss).field ((behind :: ss).getLast (List.cons_ne_nil _ _)).decl.isUnionInMemory
        s := by
  induction ss generalizing l behind with
  | nil => rfl
  | cons t ss ih =>
    rw [List.cons_append, along, ih, along, List.getLast_cons (List.cons_ne_nil t ss)]

end Locus

namespace Path

variable {p q : Path}

/-- A path leads to a field of what the path to its owner leads to. -/
theorem locus_of_steps (h : p.owners = q.steps) :
    p.locus = q.locus.field q.last.decl.isUnionInMemory p.last := by
  obtain ⟨owners, last⟩ := p
  obtain ⟨owners', last'⟩ := q
  dsimp only at h
  subst h
  cases owners' with
  | nil => rfl
  | cons first rest =>
    change (Locus.along _ first ((rest ++ [last']) ++ [last])) = _
    rw [Locus.along_concat]
    congr 2
    rw [List.getLast_cons (by simp), List.getLast_append_singleton]

theorem locus_member (p : Path) (d : Decl) :
    (p.member d).locus = p.locus.field p.last.decl.isUnionInMemory (.whole d) :=
  locus_of_steps rfl

/-- One more index leads on by one access. -/
theorem locus_access (p : Path) (a : Access) : (p.access a).locus = p.locus.access a := by
  obtain ⟨owners, last⟩ := p
  cases owners with
  | nil => simp [access, withAccesses, locus, List.foldl_append]
  | cons first rest =>
    let owner := (first :: rest).getLast (List.cons_ne_nil _ _)
    have hconcat (as : List Access) : (Path.mk (first :: rest) ⟨last.decl, as⟩).locus =
        (Path.locus ⟨(first :: rest).dropLast, owner⟩).field owner.decl.isUnionInMemory
          ⟨last.decl, as⟩ :=
      locus_of_steps (List.dropLast_append_getLast _).symm
    change (Path.mk (first :: rest) ⟨last.decl, last.accesses ++ [a]⟩).locus =
      (Path.mk (first :: rest) ⟨last.decl, last.accesses⟩).locus.access a
    rw [hconcat, hconcat, Locus.field, Locus.field, List.foldl_append]
    rfl

theorem closed_root (d : Decl) : (Path.root d).locus.Closed :=
  ⟨rfl, trivial, fun _ ho => nomatch ho⟩

theorem closed_member (h : p.locus.Closed) (d : Decl) : (p.member d).locus.Closed := by
  rw [locus_member]
  exact h.field _ d

theorem closed_access (h : p.locus.Closed) {a : Access} (ha : a.isSlice = false) :
    (p.access a).locus.Closed := by
  rw [locus_access]
  exact h.access ha

/-- A path leads to a place without loops, or to a slice of what is at such a place. -/
def Stemmed (p : Path) : Prop :=
  p.last.slice? = none ∧ p.locus.Closed ∨
    ∃ (q : Path) (a : Access), a.isSlice = true ∧ p = q.access a ∧ q.locus.Closed

/-- What is not sliced is at a place without loops. -/
theorem Stemmed.closed (h : p.Stemmed) (hs : p.last.slice? = none) : p.locus.Closed := by
  obtain ⟨-, h⟩ | ⟨q, a, ha, rfl, -⟩ := h
  · exact h
  · rw [slice?_access, if_pos ha] at hs
    cases hs

theorem Reached.stemmed {roots : List Decl} {cs : List Condition} (h : p.Reached roots cs) :
    p.Stemmed := by
  induction h with
  | root hd => exact .inl ⟨rfl, closed_root _⟩
  | part h homit hp hq ih =>
    refine .inl ⟨hp.slice?_eq_none hq, ?_⟩
    cases hp with
    | @slice a hs =>
      obtain ⟨b, hb, rfl⟩ := List.mem_map.1 hq
      obtain ⟨hnone, -⟩ | ⟨q, a', -, rfl, hq'⟩ := ih
      · rw [hs] at hnone
        cases hnone
      · have hstem : (q.access a').withAccesses ((q.access a').last.accesses.dropLast ++ [b]) =
            q.access b := by
          simp [access, withAccesses]
        rw [hstem]
        exact closed_access hq' (Access.isSlice_of_mem_singles hb)
    | rank hs hr =>
      obtain ⟨b, hb, rfl⟩ := List.mem_map.1 hq
      exact closed_access (ih.closed hs) (Access.isSlice_of_mem_singles hb)
    | struct hs =>
      obtain ⟨d, -, rfl⟩ := List.mem_map.1 hq
      exact closed_member (ih.closed hs) d
  | shared h homit hs hq ih =>
    refine .inl ⟨hs.slice?_eq_none hq, ?_⟩
    cases hs with
    | external => cases hq
    | internal hs =>
      obtain ⟨d, -, rfl⟩ := List.mem_map.1 hq
      exact closed_member (closed_member (ih.closed hs) _) d
  | @arm cs p q shared arms a h homit hs ha hq ih =>
    refine .inl ⟨hs.slice?_eq_none_of_arm ha hq, ?_⟩
    have hnone := hs.unsliced
    obtain ⟨v, -, -, ⟨hsub, -⟩ | hparts⟩ := hs.variant ha
    · rw [List.mem_singleton.1 (hsub hq)]
      exact closed_member (ih.closed hnone) v
    · rw [hparts] at hq
      obtain ⟨d, -, rfl⟩ := List.mem_map.1 hq
      exact closed_member (closed_member (ih.closed hnone) v) d
  | @slice cs p extent rest a h homit hs hr ha ih =>
    cases hslice : a.isSlice with
    | false =>
      exact .inl ⟨slice?_access_of_single hslice, closed_access (ih.closed hs) hslice⟩
    | true => exact .inr ⟨p, a, hslice, rfl, ih.closed hs⟩

/-! ## traces of paths -/

/-- Where a path without slices leads. -/
def spot (p : Path) : Spot := p.locus.place.spot .start

/-- Where the element of a record is that a path leads to a field of. -/
def ownerSpot (p : Path) : Option Spot := p.locus.owner.map (Place.spot .start)

/-- What moving what a path without slices leads to does. -/
def trace (dir : Direction) (p : Path) : List Event :=
  (Spot.elements p.last.remaining p.spot).flatMap fun s => p.last.decl.trace dir s p.ownerSpot

variable {dir : Direction}

/-- The trace of one element is that of its declaration. -/
theorem trace_of_element (hr : p.last.remaining = []) :
    p.trace dir = p.last.decl.trace dir p.spot p.ownerSpot := by
  rw [trace, hr, Spot.elements, List.flatMap_singleton]

theorem spot_access (p : Path) (k : Nat) : (p.access (.single k)).spot = .element p.spot k := by
  rw [spot, locus_access]
  rfl

theorem ownerSpot_access (p : Path) (a : Access) : (p.access a).ownerSpot = p.ownerSpot := by
  rw [ownerSpot, locus_access, Locus.access]
  split <;> rfl

/-- What an index is applied to has the trace of the rest of the array. -/
theorem trace_access_single {extent : Nat} {rest : List Nat}
    (hr : p.last.remaining = extent :: rest) (k : Nat) :
    (p.access (.single k)).trace dir = (Spot.elements rest (.element p.spot k)).flatMap fun s =>
      p.last.decl.trace dir s p.ownerSpot := by
  rw [trace, remaining_access hr, spot_access, ownerSpot_access]
  rfl

/-- The trace of an array is that of its elements. -/
theorem trace_rank {extent : Nat} {rest : List Nat} (hr : p.last.remaining = extent :: rest) :
    p.trace dir = (Access.mk 0 extent).singles.flatMap fun a => (p.access a).trace dir := by
  rw [trace, hr, Spot.elements, List.flatMap_assoc, Access.singles, List.flatMap_map,
    List.range_eq_range']
  exact List.flatMap_congr fun k _ => (trace_access_single hr k).symm

/-- A member stands at its field. -/
theorem trace_member (p : Path) (d : Decl) :
    (p.member d).trace dir =
      d.traceAll dir (.field p.spot d.name p.last.decl.isUnionInMemory) (some p.spot) := by
  rw [trace, spot, ownerSpot, locus_member]
  rfl

theorem spot_member (p : Path) (d : Decl) :
    (p.member d).spot = .field p.spot d.name p.last.decl.isUnionInMemory := by
  rw [spot, locus_member]
  rfl

end Path

/-! ## what items do -/

section

/-- Loops over the ranks behind a locus are loops around it. -/
theorem loopedAll_slices (extents : List Nat) (l : Locus)
    (body : Place → Option Place → Nat → List Statement) :
    Statement.loopedAll (extents.foldl (fun l extent => l.slice 0 extent) l).loops
        (body (extents.foldl (fun l extent => l.slice 0 extent) l).place
          (extents.foldl (fun l extent => l.slice 0 extent) l).owner
          (extents.foldl (fun l extent => l.slice 0 extent) l).loops.length) =
      Statement.loopedAll l.loops (Statement.overRanks extents l.loops.length l.place
        fun place n => body place l.owner n) := by
  induction extents generalizing l with
  | nil => rfl
  | cons extent rest ih =>
    rw [List.foldl_cons, ih, Statement.overRanks]
    simp only [Locus.slice, Statement.loopedAll, List.foldr_append, List.foldr_cons, List.foldr_nil,
      List.length_append, List.length_singleton]

variable {c : Config} {m : Model} {dir : Direction} {sf : Bool}
  {call : Spot → String → List Event} {cs : List Condition} {p q : Path}

theorem statements_value (aim : Purpose) (cs : List Condition) (p : Path) :
    Item.statements aim ⟨cs, .value p⟩ = Statement.loopedAll p.locus.loops
      (Statement.overRanks p.last.remaining p.locus.loops.length p.locus.place fun place n =>
        Transfer.element aim p.last.decl place p.locus.owner n) :=
  loopedAll_slices p.last.remaining p.locus fun place owner n =>
    Transfer.element aim p.last.decl place owner n

/-- Moving a value that is not sliced does what its trace says. -/
theorem events_value (h : Traced c m dir p.last.decl)
    (hruns : Runs c m dir p.last.decl.number sf call) (hclosed : p.locus.Closed) :
    statementEvents dir call .start (Item.statements ⟨dir, sf⟩ ⟨cs, .value p⟩) = p.trace dir := by
  rw [statements_value, hclosed.loops]
  exact h.ranks hruns hclosed.place hclosed.owner p.last.remaining

/-- Moving a slice does what the traces of its elements say. -/
theorem events_slice (h : Traced c m dir p.last.decl)
    (hruns : Runs c m dir p.last.decl.number sf call) (hclosed : p.locus.Closed) {extent : Nat}
    {rest : List Nat} (hr : p.last.remaining = extent :: rest) {a : Access}
    (ha : a.isSlice = true) :
    statementEvents dir call .start (Item.statements ⟨dir, sf⟩ ⟨cs, .value (p.access a)⟩) =
      a.singles.flatMap fun b => (p.access b).trace dir := by
  have hlocus : (p.access a).locus = p.locus.slice a.start a.stop := by
    rw [Path.locus_access, Locus.access, if_pos ha]
  have hbelow : (Place.element p.locus.place (.loop 0)).Below 1 :=
    ⟨hclosed.place.mono (Nat.zero_le 1), Nat.zero_lt_one⟩
  rw [statements_value, hlocus, Path.remaining_access hr, Locus.slice, hclosed.loops]
  change statementEvents dir call .start (Statement.looped ⟨0, a.start, a.stop⟩ _) = _
  rw [events_looped, Access.singles, List.flatMap_map, Access.stop, Nat.add_sub_cancel_left]
  refine List.flatMap_congr fun k _ => ?_
  have hagrees := Scope.start.agrees_loop 0 k
  have hspot : (Place.element p.locus.place (.loop 0)).spot (Scope.start.loop 0 k) =
      .element p.spot k := by
    rw [Place.spot, ← hclosed.place.spot_eq hagrees]
    rfl
  have howner : p.locus.owner.map (Place.spot (Scope.start.loop 0 k)) = p.ownerSpot := by
    rw [Path.ownerSpot]
    cases ho : p.locus.owner with
    | none => rfl
    | some o => exact congrArg some ((hclosed.owner o ho).spot_eq hagrees).symm
  rw [Path.trace_access_single hr, ← hspot, ← howner]
  exact h.ranks hruns hbelow (fun o ho => (hclosed.owner o ho).mono (Nat.zero_le 1)) rest

end

end BitLayout
