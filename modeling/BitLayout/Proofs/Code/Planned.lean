import BitLayout.Proofs.Code.Splitting
import BitLayout.Proofs.Code.Widths
import BitLayout.Proofs.Sector.Alignment

/-!
# BitLayout.Proofs.Code.Planned

The code for items moves exactly the bits that are planned for them: those that packing reckons
with. An item may come from a data object by taking apart, slicing and merging in any order, or be
padding; only trailing padding has no code.

* `bits?_of_reached`: moving a value that is reached takes its bits;
* `Item.Arises.grounded`: values that come up are reached from data objects, or are left out;
* `planned_of_arises`: moving any item that comes up takes the bits of the item;
* `planned_of_pack`: so does moving any item of a packed sector.
-/

namespace BitLayout

/-! ## items -/

namespace Path

variable {g : Registry} {m : Model} {p : Path}

/-- A value with a tag outside is a field of something. -/
theorem Walks.owner_isSome (hm : m.Sound g) (h : p.Walks m.roots)
    (hext : p.last.decl.isExternal = true) : p.locus.owner.isSome = true := by
  obtain ⟨hwalk, hmem⟩ := Step.walk_concat.1 h
  cases howner : p.owners.getLast? with
  | none =>
    rw [howner, Option.elim_none] at hmem
    simp [hm.tags _ hmem] at hext
  | some owner =>
    have hsteps : p.owners = (Path.mk p.owners.dropLast owner).steps :=
      (List.dropLast_append_getLast? owner howner).symm
    rw [locus_of_steps hsteps, Locus.field, Locus.owner_foldl_access]
    rfl

end Path

section

variable {c : Config} {g : Registry} {m : Model} {dir : Direction} {p : Path}
  {cs : List Condition} {i : Item}

/-- Moving all elements behind the indices of a path takes the bits of an element for each. -/
theorem bits?_elements (c : Config) (dir : Direction) (hm : m.Sound g) (h : p.Walks m.roots)
    (k : Nat) (place : Place) :
    Program.bits? c m dir (Statement.overRanks p.last.remaining k place fun place k =>
        Transfer.element (Program.purpose c dir) p.last.decl place p.locus.owner k) =
      some (p.last.decl.elementBits * Decl.elementCount p.last.remaining) := by
  have hcounts : Counts c m dir p.last.decl.number c.structFunctions
      (recordBits? (Program.recordStatements c m dir) m.callLevels) :=
    fun _ => ⟨rfl, m.callLevels, h.number_lt hm, rfl⟩
  have hsized := Decl.sized_of_sound c dir (h.everywhere hm.roots)
  exact bits?_overRanks (fun place k => hsized _ _ place _ k hcounts (h.owner_isSome hm)) _ k place

/-- Loops around nothing take no bits. -/
theorem bits?_loopedAll_zero {call : String → Option Nat} {body : List Statement}
    (h : statementBits? call body = some 0) (loops : List Loop) :
    statementBits? call (Statement.loopedAll loops body) = some 0 := by
  induction loops with
  | nil => exact h
  | cons l loops ih => exact bits?_looped ih l

/-- Moving what is left out takes no bits. -/
theorem bits?_of_omitted (hm : m.Sound g) (h : p.Walks m.roots)
    (homit : p.last.decl.isOmitted = true) :
    Program.bits? c m dir (Item.statements (Program.purpose c dir) ⟨cs, .value p⟩) =
      some p.last.bits := by
  have hbody := bits?_elements c dir hm h p.locus.loops.length p.locus.place
  rw [Decl.elementBits_of_omitted homit, Nat.zero_mul] at hbody
  rw [statements_value, Step.bits_of_omitted homit]
  exact bits?_loopedAll_zero hbody _

/-- **Sizes of values**: moving a value that is reached takes its bits. -/
theorem bits?_of_reached (hm : m.Sound g) (h : p.Reached m.roots cs) :
    Program.bits? c m dir (Item.statements (Program.purpose c dir) ⟨cs, .value p⟩) =
      some p.last.bits := by
  have hbody := bits?_elements c dir hm h.walks p.locus.loops.length p.locus.place
  rw [statements_value]
  cases hslice : p.last.slice? with
  | none =>
    have hbits : p.last.bits =
        p.last.decl.elementBits * Decl.elementCount p.last.remaining := by
      simp [Step.bits, Step.elements, hslice]
    rw [hbits]
    simpa [(h.stemmed.closed hslice).loops, Statement.loopedAll] using hbody
  | some a =>
    -- A slice is one loop around what its indices are applied to.
    have heq := Path.eq_access_of_slice hslice
    have hisSlice := (Option.filter_eq_some_iff.1 hslice).2
    obtain ⟨hreached, -, hnone, extent, rest, hr, -⟩ := h.of_access heq
    have hclosed := hreached.stemmed.closed hnone
    have hloops : p.locus.loops = [⟨0, a.start, a.stop⟩] := by
      rw [heq, Path.locus_access, Locus.access, if_pos hisSlice, Locus.slice, hclosed.loops]
      rfl
    have hbits : p.last.bits =
        a.count * (p.last.decl.elementBits * Decl.elementCount p.last.remaining) := by
      have haccess := Path.bits_access hr a
      have hremaining := Path.remaining_access hr a
      rw [← heq] at haccess hremaining
      rw [haccess, hremaining, Nat.mul_left_comm]
      rfl
    rw [hloops] at hbody ⊢
    have hlooped := bits?_looped hbody ⟨0, a.start, a.stop⟩
    rw [Access.stop, Nat.add_sub_cancel_left] at hlooped
    rw [hbits]
    exact hlooped

/-- Moving an item that lies among the data objects takes its bits, unless it is trailing
padding. -/
theorem Item.Lies.bits? (hm : m.Sound g) (h : i.Lies m.roots)
    (htrailing : ∀ bits, i.content ≠ .padding bits true) :
    Program.bits? c m dir (i.statements (Program.purpose c dir)) = some i.bits := by
  obtain ⟨cs, content⟩ := i
  cases content with
  | value p => exact bits?_of_reached hm (h p rfl)
  | padding bits trailing =>
    cases trailing with
    | false => exact bits?_padding bits
    | true => exact absurd rfl (htrailing bits)

/-! ## items that come up -/

/-- An item that comes up between data objects and sectors: taken apart, sliced, merged, or
padding. -/
inductive Item.Arises (roots : List Decl) : Item → Prop where
  | root {d : Decl} (hd : d ∈ roots) : Arises roots (.root d)
  | padding (cs : List Condition) (bits : Nat) (trailing : Bool) :
    Arises roots (.padding cs bits trailing)
  | expand {i j : Item} (h : Arises roots i) (hj : j ∈ i.expand) : Arises roots j
  | slice {cs : List Condition} {p : Path} {extent : Nat} {rest : List Nat} {a : Access}
    (h : Arises roots ⟨cs, .value p⟩) (hs : p.last.slice? = none)
    (hr : p.last.remaining = extent :: rest) (ha : a.stop ≤ extent) :
    Arises roots ⟨cs, .value (p.access a)⟩
  | uncovered {i : Item} (h : Arises roots i) : Arises roots i.uncovered
  | join {i j joined : Item} (h : Arises roots i) (h' : Arises roots j)
    (hjoin : i.join? j = some joined) : Arises roots joined

/-- A value walks down data objects, and is reached from them unless it is left out. -/
structure Item.Grounded (roots : List Decl) (i : Item) : Prop where
  walks : ∀ p, i.content = .value p → p.Walks roots
  lies : i.isOmitted = false → i.Lies roots

theorem Item.Lies.grounded {roots : List Decl} (h : i.Lies roots) : i.Grounded roots :=
  ⟨fun p hp => (h p hp).walks, fun _ => h⟩

/-- What an item is taken apart into is grounded like the item. -/
theorem Item.Grounded.expand {roots : List Decl} {j : Item} (h : i.Grounded roots)
    (hj : j ∈ i.expand) : j.Grounded roots := by
  cases hsplit : i.split? with
  | none =>
    rw [Item.expand, hsplit, Option.elim_none] at hj
    rwa [List.mem_singleton.1 hj]
  | some s =>
    obtain ⟨cs, p, rfl, homit, -⟩ := Item.split_cases hsplit
    exact ((h.lies homit).expand hj).grounded

/-- Dropping an index changes nothing else of a path. -/
theorem Path.uncovered_last (p : Path) :
    { p with last := p.last.uncovered } = p.withAccesses p.last.uncovered.accesses := by
  have hlast : p.last.uncovered = { p.last with accesses := p.last.uncovered.accesses } := by
    unfold Step.uncovered
    split <;> rfl
  rw [hlast]
  rfl

/-- A value that is left out is grounded if it walks down data objects. -/
theorem Path.Walks.grounded {roots : List Decl} (h : p.Walks roots)
    (homit : p.last.decl.isOmitted = true) : (⟨cs, .value p⟩ : Item).Grounded roots where
  walks := by
    rintro q ⟨⟩
    exact h
  lies hkept := by
    have hcontra : p.last.decl.isOmitted = false := hkept
    simp [homit] at hcontra

/-- A value without an index that covers its rank is grounded like the value. -/
theorem Item.Grounded.uncovered {roots : List Decl} (h : i.Grounded roots) :
    i.uncovered.Grounded roots := by
  cases homit : i.isOmitted with
  | false =>
    have hlies := h.lies homit
    refine Item.Lies.grounded ((merges_uncovered hlies).lies fun j hj => ?_)
    rwa [List.mem_singleton.1 hj]
  | true =>
    obtain ⟨cs, content⟩ := i
    cases content with
    | padding => exact h
    | value p =>
      have hwalks := (h.walks p rfl).withAccesses p.last.uncovered.accesses
      have hgrounded : (⟨cs, .value (p.withAccesses p.last.uncovered.accesses)⟩ : Item).Grounded
          roots := hwalks.grounded homit
      rwa [← Path.uncovered_last] at hgrounded

/-- Two values that are joined, both grounded, make one that is. -/
theorem Item.Grounded.join {j joined : Item} (hm : m.Sound g) (h : i.Grounded m.roots)
    (h' : j.Grounded m.roots) (hjoin : i.join? j = some joined) : joined.Grounded m.roots := by
  obtain ⟨p, x, y, -, hp, hq, -, rfl⟩ := Item.join_walks hm.numbered h.walks h'.walks hjoin
  obtain ⟨cs, content⟩ := i
  obtain ⟨cs', content'⟩ := j
  obtain rfl : content = .value (p.access x) := hp
  obtain rfl : content' = .value (p.access y) := hq
  -- Both values lead to one declaration, so both are left out or none is.
  cases homit : p.last.decl.isOmitted with
  | true => exact ((h.walks _ rfl).withAccesses _).grounded homit
  | false =>
    have hlies := h.lies homit
    have hlies' := h'.lies homit
    refine Item.Lies.grounded
      ((merges_join hm.numbered hlies hlies' hjoin (.one _) (.one _)).lies ?_)
    intro k hk
    rcases List.mem_cons.1 hk with rfl | hk
    · exact hlies
    · rwa [List.mem_singleton.1 hk]

/-- Every item that comes up is grounded. -/
theorem Item.Arises.grounded (hm : m.Sound g) (h : i.Arises m.roots) : i.Grounded m.roots := by
  induction h with
  | root hd => exact (Path.Reached.root hd).lies.grounded
  | padding cs bits trailing => exact (Item.lies_padding ⟨cs, bits, trailing, rfl⟩).grounded
  | expand h hj ih => exact ih.expand hj
  | @slice cs p extent rest a h hs hr ha ih =>
    cases homit : p.last.decl.isOmitted with
    | true => exact ((ih.walks p rfl).withAccesses _).grounded homit
    | false => exact (Path.Reached.slice (ih.lies homit p rfl) homit hs hr ha).lies.grounded
  | uncovered h ih => exact ih.uncovered
  | join h h' hjoin ih ih' => exact ih.join hm ih' hjoin

/-! ## programs -/

/-- **Planned sizes**: moving any item that comes up takes the bits of the item, in both directions,
unless it is trailing padding. So all arms of every choice on the way take the same. -/
theorem planned_of_arises (hbuild : Model.build c g = some m) (herrors : m.errors = [])
    (hi : i.Arises m.roots) (htrailing : ∀ bits, i.content ≠ .padding bits true)
    (dir : Direction) :
    Program.bits? c m dir (i.statements (Program.purpose c dir)) = some i.bits := by
  have hm := Model.sound_of_build hbuild herrors
  have hgrounded := hi.grounded hm
  cases homit : i.isOmitted with
  | false => exact (hgrounded.lies homit).bits? hm htrailing
  | true =>
    obtain ⟨cs, content⟩ := i
    cases content with
    | padding => simp [Item.isOmitted, Item.last?, Item.path?] at homit
    | value p => exact bits?_of_omitted hm (hgrounded.walks p rfl) homit

end

namespace Sample

/-- The first object of the small layout is left to the function of its record. -/
theorem sizes : (Model.build calling registry).map (fun m => (m.errors, m.roots.map fun d =>
      ((Item.root d).bits,
        Program.recordsMovedAll ((Item.root d).statements (Program.purpose calling .save))))) =
    some ([], [(26, ["S"]), (8, [])]) := by
  decide +kernel

/-- The function of a record takes two bits for the tag and 24 for the union, in both directions. -/
theorem record_takes_bits : ∃ (m : Model) (i : Item), Model.build calling registry = some m ∧
    m.errors = [] ∧ i.Arises m.roots ∧ (∀ bits, i.content ≠ .padding bits true) ∧ i.bits = 26 ∧
    Program.recordsMovedAll (i.statements (Program.purpose calling .save)) = ["S"] ∧
    Program.bits? calling m .read (i.statements (Program.purpose calling .read)) = some i.bits ∧
    Program.bits? calling m .save (i.statements (Program.purpose calling .save)) = some i.bits := by
  obtain ⟨m, hm, hsizes⟩ := Option.map_eq_some_iff.1 sizes
  obtain ⟨herrors, hsizes⟩ := Prod.mk.inj hsizes
  have hmem : (26, ["S"]) ∈ [(26, ["S"]), (8, [])] := by decide
  rw [← hsizes] at hmem
  obtain ⟨d, hd, heq⟩ := List.mem_map.1 hmem
  obtain ⟨hbits, hmoved⟩ := Prod.mk.inj heq
  have harises : (Item.root d).Arises m.roots := .root hd
  have htrailing : ∀ bits, (Item.root d).content ≠ .padding bits true := by simp [Item.root]
  exact ⟨m, .root d, hm, herrors, harises, htrailing, hbits, hmoved,
    planned_of_arises hm herrors harises htrailing .read,
    planned_of_arises hm herrors harises htrailing .save⟩

end Sample

/-- Moving any item of a packed sector takes the bits of the item, in both directions. -/
theorem planned_of_pack {c : Config} {g : Registry} {m : Model} {capacity available : Nat}
    {groups : List (List Decl)} {sectors : List Sector} (hbuild : Model.build c g = some m)
    (herrors : m.errors = []) (hgroups : m.Grouping groups)
    (hpack : pack capacity available groups = .ok sectors) (dir : Direction) :
    ∀ s ∈ sectors, ∀ i ∈ s.items, (∀ bits, i.content ≠ .padding bits true) →
      Program.bits? c m dir (i.statements (Program.purpose c dir)) = some i.bits := by
  have hm := Model.sound_of_build hbuild herrors
  obtain ⟨cursor, placed, hplaces, -, rfl⟩ := placesGroups_of_pack hpack
  intro s hs i hi htrailing
  obtain ⟨n, -, rfl⟩ := List.mem_map.1 hs
  have hlies := hplaces.lies hgroups.sub fun _ hx => (nomatch hx)
  refine ((hplaces.regroups hm hgroups n).lies (fun j hj => ?_) i hi).bits? hm htrailing
  obtain ⟨x, hx, rfl⟩ := List.mem_map.1 hj
  exact hlies x (List.mem_filter.1 hx).1

end BitLayout
