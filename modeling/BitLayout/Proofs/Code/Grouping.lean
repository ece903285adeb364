import BitLayout.Proofs.Code.Outline
import BitLayout.Proofs.Decl.Numbers
import BitLayout.Proofs.Sector.Alignment

/-!
# BitLayout.Proofs.Code.Grouping

Which branches the code of a sector leaves to which items. Neighbours are put under one choice if
they compare as under one union, and its arms are sorted by their values; so the order of the items
is lost in the code, but not in any one branch. An assignment selects the items that travel under
it, in their order.

What makes it so is that each run of items stands *under* the arms that it was found in: the first
conditions of its items are those of the arms, one of each level.

* `Items.Under.group`: the items of a group stand under one more arm, on the union of their run;
* `Items.Under.chains`: every choice is made on one union, and its arms are in ascending order;
* `Items.Under.entries`: every item stands in the arms of its own conditions, and in no others;
* `Items.Under.selected`: an assignment selects the code of the items that travel under it.

Main statement: `grouping_of_pack`.
-/

namespace BitLayout

/-! ## arms -/

/-- Two conditions are on the same variant id of the same union. -/
def Condition.SameArm (c d : Condition) : Prop := c.union = d.union ∧ c.value = d.value

theorem Condition.SameArm.holds {c d : Condition} (h : c.SameArm d) (a : Assignment) :
    d.holds a = c.holds a := by
  rw [Condition.holds, Condition.holds, h.1, h.2]

/-- An item in the arms of its conditions travels when these are chosen. -/
theorem Item.isActive_of_arms {i : Item} {path : List Condition} {a : Assignment}
    (h : List.Forall₂ Condition.SameArm path i.conditions) (hpath : ∀ c ∈ path, c.holds a = true) :
    i.isActive a = true := by
  rw [isActive, List.all_eq_true]
  generalize i.conditions = cs at h
  induction h with
  | nil => simp
  | cons harm _ ih =>
    obtain ⟨hc, hpath⟩ := List.forall_mem_cons.1 hpath
    exact List.forall_mem_cons.2 ⟨(harm.holds a).trans hc, ih hpath⟩

namespace Items

section

variable {aim : Purpose} {m : Model} {path : List Condition} {items run : List Item} {i : Item}
  {level : Nat}

/-- Items whose first conditions are those of some arms, one of each level, and whose conditions
lead down from the data objects. -/
structure Under (m : Model) (path : List Condition) (items : List Item) : Prop where
  walks : ∀ i ∈ items, ∀ c ∈ i.conditions, c.Walks m.roots
  path : ∀ i ∈ items, List.Forall₂ Condition.SameArm path (i.conditions.take path.length)

/-- The conditions of a run at a level are on the union of the first one. -/
theorem union_of_run (hm : m.Numbered)
    (hwalks : ∀ i ∈ run, ∀ c ∈ i.conditions, c.Walks m.roots)
    (hchain : run.IsChain fun i j => sameChoice level i j = true) {c d : Condition}
    (hc : run.head?.bind (·.conditions[level]?) = some c) (hi : i ∈ run)
    (hd : i.conditions[level]? = some d) : d.union = c.union := by
  induction run generalizing c with
  | nil => cases hi
  | cons j run ih =>
    have hj : j.conditions[level]? = some c := hc
    rcases List.mem_cons.1 hi with rfl | hi
    · rw [hj, Option.some.injEq] at hd
      rw [hd]
    · obtain ⟨k, rest, rfl⟩ := List.exists_cons_of_ne_nil (List.ne_nil_of_mem hi)
      obtain ⟨hsame, hchain⟩ := List.isChain_cons_cons.1 hchain
      obtain ⟨hwj, hwalks⟩ := List.forall_mem_cons.1 hwalks
      rw [sameChoice, hj] at hsame
      split at hsame
      · next c' e hc' he =>
        cases hc'
        rw [Bool.and_eq_true] at hsame
        have hunion : c.union = e.union :=
          (hwj c (List.mem_of_getElem? hj)).1.eq_of_beq hm
            (hwalks k List.mem_cons_self e (List.mem_of_getElem? he)).1 hsame.2
        rw [hunion]
        exact ih hwalks hchain he hi
      · cases hsame

namespace Under

variable {a : Assignment} {c : Condition}

/-- An item without another condition has those of its arms alone. -/
theorem arms (h : Under m path items) (hi : i ∈ items)
    (hnone : i.conditions[path.length]? = none) :
    List.Forall₂ Condition.SameArm path i.conditions := by
  have hpath := h.path i hi
  rwa [List.take_of_length_le (List.getElem?_eq_none_iff.1 hnone)] at hpath

/-- The items of a group stand under one more arm, which is on the union of their run. -/
theorem group (hm : m.Numbered) (h : Under m path items)
    (hrun : run ∈ items.splitBy (sameChoice path.length))
    (hc : run.head?.bind (·.conditions[path.length]?) = some c) :
    ∀ g ∈ groups path.length run, g.condition.union = c.union ∧ g.items ⊆ items ∧
      Under m (path ++ [g.condition]) g.items := by
  have hsub : run ⊆ items := fun i hi => mem_of_run hrun hi
  have hunion {i : Item} (hi : i ∈ run) {d : Condition}
      (hd : i.conditions[path.length]? = some d) : d.union = c.union :=
    union_of_run hm (fun j hj => h.walks j (hsub hj)) (List.isChain_of_mem_splitBy hrun) hc hi hd
  have hgroups : ∀ g ∈ groups path.length run, g.condition.union = c.union ∧
      ∀ i ∈ g.items, i ∈ run ∧
        ∃ d, i.conditions[path.length]? = some d ∧ g.condition.SameArm d := by
    refine groups_induct (fun i hi d hd => ⟨hunion hi hd, ?_⟩)
      fun i hi d hd g hvalue ⟨hg, hitems⟩ => ⟨hg, ?_⟩
    · exact List.forall_mem_singleton.2 ⟨hi, d, hd, rfl, rfl⟩
    · refine List.forall_mem_append.2 ⟨hitems, List.forall_mem_singleton.2 ⟨hi, d, hd, ?_, ?_⟩⟩
      · rw [hg, hunion hi hd]
      · exact hvalue.symm
  intro g hg
  obtain ⟨hunion, hitems⟩ := hgroups g hg
  refine ⟨hunion, fun i hi => hsub (hitems i hi).1,
    fun i hi => h.walks i (hsub (hitems i hi).1), ?_⟩
  intro i hi
  obtain ⟨hmem, d, hd, harm⟩ := hitems i hi
  rw [List.length_append, List.length_singleton, List.take_add_one, hd]
  exact List.rel_append (h.path i (hsub hmem)) (.cons harm .nil)

/-- **Chains**: every choice is made on one union, between arms in ascending order. -/
theorem chains (hm : m.Numbered) (h : Under m path items) (levels : Nat) :
    ∀ x ∈ chainsAll (outlineWithin levels path.length items),
      x.2 ≠ [] ∧ (∀ c ∈ x.2, c.union = x.1) ∧ Ascending Condition.value x.2 := by
  induction levels generalizing path items with
  | zero =>
    rw [outlineWithin, chainsAll_row]
    exact fun _ hx => nomatch hx
  | succ levels ih =>
    intro x hx
    rw [outlineWithin_succ, chainsAll_eq, List.flatMap_assoc] at hx
    obtain ⟨run, hrun, hx⟩ := List.mem_flatMap.1 hx
    rw [← chainsAll_eq] at hx
    rcases runOutline_cases levels hrun with ⟨-, houtline⟩ | ⟨hsome, c, hc, houtline⟩
    · rw [houtline, chainsAll_row] at hx
      cases hx
    · have hgroup := h.group hm hrun hc
      rw [houtline, chainsAll_choice, List.mem_cons] at hx
      rcases hx with rfl | hx
      · have hne := groups_ne_nil (List.ne_nil_of_mem_splitBy hrun) hsome
        exact ⟨by simpa using hne, List.forall_mem_map.2 fun g hg => (hgroup g hg).1,
          List.pairwise_map.2 (ascending_groups path.length run)⟩
      · obtain ⟨g, hg, hx⟩ := List.mem_flatMap.1 hx
        refine ih (hgroup g hg).2.2 x ?_
        rwa [List.length_append]

/-- The items of a group have one condition less to go. -/
theorem bound_group {levels : Nat} {g : Group}
    (hbound : ∀ i ∈ items, i.conditions.length ≤ path.length + (levels + 1))
    (hsub : g.items ⊆ items) :
    ∀ i ∈ g.items, i.conditions.length ≤ (path ++ [g.condition]).length + levels := by
  intro i hi
  have hle := hbound i (hsub hi)
  rw [List.length_append, List.length_singleton]
  omega

/-- **Entries**: every item stands in the arms of its own conditions, and in no others. -/
theorem entries (hm : m.Numbered) (h : Under m path items) {levels : Nat}
    (hbound : ∀ i ∈ items, i.conditions.length ≤ path.length + levels) :
    ∀ x ∈ entriesAll (outlineWithin levels path.length items) path,
      List.Forall₂ Condition.SameArm x.1 x.2.conditions := by
  induction levels generalizing path items with
  | zero =>
    rw [outlineWithin, entriesAll_row]
    exact List.forall_mem_map.2 fun i hi => h.arms hi (List.getElem?_eq_none (hbound i hi))
  | succ levels ih =>
    intro x hx
    rw [outlineWithin_succ, entriesAll_eq, List.flatMap_assoc] at hx
    obtain ⟨run, hrun, hx⟩ := List.mem_flatMap.1 hx
    rw [← entriesAll_eq] at hx
    rcases runOutline_cases levels hrun with ⟨hnone, houtline⟩ | ⟨-, c, hc, houtline⟩
    · rw [houtline, entriesAll_row] at hx
      obtain ⟨i, hi, rfl⟩ := List.mem_map.1 hx
      exact h.arms (mem_of_run hrun hi) (hnone i hi)
    · rw [houtline, entriesAll_choice] at hx
      obtain ⟨g, hg, hx⟩ := List.mem_flatMap.1 hx
      obtain ⟨-, hsub, hunder⟩ := h.group hm hrun hc g hg
      refine ih hunder (bound_group hbound hsub) x ?_
      rwa [List.length_append]

/-- The arm for a value selects what the group for the value does. -/
theorem armSelected_groups {value : Int} {gs : List Group} {body : Group → List Outline}
    (hasc : Ascending Group.value gs)
    (h : ∀ g ∈ gs, g.value = value →
      selectedAll aim a (body g) = (g.items.filter (·.isActive a)).flatMap (Item.statements aim)) :
    armSelected aim a value (gs.map fun g => .mk g.condition (body g)) =
      ((itemsFor value gs).filter (·.isActive a)).flatMap (Item.statements aim) := by
  induction gs with
  | nil => rfl
  | cons g gs ih =>
    obtain ⟨hg, hgs⟩ := List.pairwise_cons.1 hasc
    obtain ⟨hbody, h⟩ := List.forall_mem_cons.1 h
    rw [List.map_cons, armSelected, itemsFor_cons, show g.condition.value = g.value from rfl]
    by_cases hvalue : g.value = value
    · have hnil : itemsFor value gs = [] := itemsFor_of_lt fun g' hg' => hvalue ▸ hg g' hg'
      rw [if_pos hvalue, if_pos hvalue, hbody hvalue, hnil, List.append_nil]
    · rw [if_neg hvalue, if_neg hvalue, ih hgs h, List.nil_append]

/-- What travels of a run is in the group for the variant that is picked. -/
theorem active_itemsFor (hm : m.Numbered) (h : Under m path items)
    (hrun : run ∈ items.splitBy (sameChoice path.length))
    (hsome : ∀ i ∈ run, i.conditions[path.length]?.isSome)
    (hc : run.head?.bind (·.conditions[path.length]?) = some c) :
    (itemsFor (a.pick c.union) (groups path.length run)).filter (·.isActive a) =
      run.filter (·.isActive a) := by
  rw [itemsFor_groups, List.filter_filter]
  refine List.filter_congr fun i hi => ?_
  obtain ⟨d, hd⟩ := Option.isSome_iff_exists.1 (hsome i hi)
  have hunion : d.union = c.union := union_of_run hm (fun j hj => h.walks j (mem_of_run hrun hj))
    (List.isChain_of_mem_splitBy hrun) hc hi hd
  rw [hd, Option.any_some]
  cases hactive : i.isActive a with
  | false => rfl
  | true =>
    have hholds := List.all_eq_true.1 hactive d (List.mem_of_getElem? hd)
    rw [Condition.holds, decide_eq_true_eq, hunion] at hholds
    simp [hholds]

/-- All items without another condition travel when their arms are chosen. -/
theorem filter_active (h : Under m path items) (hpath : ∀ c ∈ path, c.holds a = true)
    (hsub : run ⊆ items) (hnone : ∀ i ∈ run, i.conditions[path.length]? = none) :
    run.filter (·.isActive a) = run :=
  List.filter_eq_self.2 fun i hi =>
    Item.isActive_of_arms (h.arms (hsub hi) (hnone i hi)) hpath

/-- **Selection**: an assignment under which the arms are chosen selects the code of the items that
travel under it, in their order. -/
theorem selected (hm : m.Numbered) (h : Under m path items) {levels : Nat}
    (hbound : ∀ i ∈ items, i.conditions.length ≤ path.length + levels)
    (hpath : ∀ c ∈ path, c.holds a = true) :
    selectedAll aim a (outlineWithin levels path.length items) =
      (items.filter (·.isActive a)).flatMap (Item.statements aim) := by
  induction levels generalizing path items with
  | zero =>
    rw [outlineWithin, selectedAll_row, h.filter_active hpath (List.Subset.refl _) fun i hi =>
      List.getElem?_eq_none (hbound i hi)]
  | succ levels ih =>
    have hrun : ∀ run ∈ items.splitBy (sameChoice path.length),
        selectedAll aim a (runOutline levels path.length run) =
          (run.filter (·.isActive a)).flatMap (Item.statements aim) := by
      intro run hrun
      rcases runOutline_cases levels hrun with ⟨hnone, houtline⟩ | ⟨hsome, c, hc, houtline⟩
      · rw [houtline, selectedAll_row,
          h.filter_active hpath (fun i hi => mem_of_run hrun hi) hnone]
      · have hbody : ∀ g ∈ groups path.length run, g.value = a.pick c.union →
            selectedAll aim a (outlineWithin levels (path.length + 1) g.items) =
              (g.items.filter (·.isActive a)).flatMap (Item.statements aim) := by
          intro g hg hvalue
          obtain ⟨hunion, hsub, hunder⟩ := h.group hm hrun hc g hg
          have hholds : g.condition.holds a = true := by
            rw [Condition.holds, hunion, decide_eq_true_eq]
            exact hvalue.symm
          have hselected := ih hunder (bound_group hbound hsub)
            (List.forall_mem_append.2 ⟨hpath, List.forall_mem_singleton.2 hholds⟩)
          rwa [List.length_append] at hselected
        rw [houtline, selectedAll_choice,
          armSelected_groups (ascending_groups path.length run) hbody,
          h.active_itemsFor hm hrun hsome hc]
    have hitems : (items.splitBy (sameChoice path.length)).flatMap
        (List.filter (·.isActive a)) = items.filter (·.isActive a) := by
      rw [List.flatMap_def, ← List.filter_flatten, List.flatten_splitBy]
    rw [outlineWithin_succ, selectedAll_eq, List.flatMap_assoc]
    simp only [← selectedAll_eq]
    rw [List.flatMap_congr hrun, ← hitems, List.flatMap_assoc]

end Under

end

end Items

/-! ## items of sectors -/

/-- An item that lies among the data objects, under conditions that lead down from them. -/
structure Item.Rooted (roots : List Decl) (i : Item) : Prop where
  lies : i.Lies roots
  walks : ∀ c ∈ i.conditions, c.Walks roots

section

variable {roots : List Decl} {cs : List Condition} {p : Path} {shared : List Path}
  {arms : List Variant} {a : Variant}

theorem Path.Reached.rooted (h : p.Reached roots cs) : (⟨cs, .value p⟩ : Item).Rooted roots :=
  ⟨h.lies, h.conditions_walk⟩

/-- The condition of an arm leads down to the union and to its tag. -/
theorem Path.Reached.arm_walks (h : p.Reached roots cs) (hs : p.Switch shared arms)
    (ha : a ∈ arms) : ∀ c ∈ a.conditions cs p, c.Walks roots :=
  List.forall_mem_append.2 ⟨h.conditions_walk,
    List.forall_mem_singleton.2 ⟨h.walks, hs.tag_walks h.walks ha⟩⟩

theorem Item.Rooted.expand {i j : Item} (h : i.Rooted roots) (hj : j ∈ i.expand) :
    j.Rooted roots := by
  refine ⟨h.lies.expand hj, ?_⟩
  rcases conditions_cases_of_mem_expand hj with heq | ⟨cs, p, shared, arms, a, rfl, hs, ha, heq⟩
  · rw [heq]
    exact h.walks
  · rw [heq]
    exact (h.lies p rfl).arm_walks hs ha

theorem Item.inherited_rooted (roots : List Decl) : Item.Inherited (Item.Rooted roots) where
  expand h hj := h.expand hj
  beside bits trailing h := ⟨lies_padding ⟨_, bits, trailing, rfl⟩, h.walks⟩
  branch bits trailing h _ hs ha :=
    ⟨lies_padding ⟨_, bits, trailing, rfl⟩, (h.lies _ rfl).arm_walks hs ha⟩
  between bits trailing := ⟨lies_padding ⟨_, bits, trailing, rfl⟩, fun _ hc => nomatch hc⟩

/-- An item is rooted if those that merge into it are. -/
theorem Merges.rooted {run : List Item} {j : Item} (h : Merges run j)
    (hrun : ∀ i ∈ run, i.Rooted roots) : j.Rooted roots := by
  obtain ⟨i, hi⟩ := List.exists_mem_of_ne_nil run h.ne_nil
  refine ⟨h.lies fun i hi => (hrun i hi).lies, ?_⟩
  rw [← h.conditions i hi]
  exact (hrun i hi).walks

/-- The items of packed sectors are rooted. -/
theorem rooted_of_pack {m : Model} {capacity available : Nat} {groups : List (List Decl)}
    {sectors : List Sector} (hm : m.Numbered) (hgroups : ∀ d ∈ groups.flatten, d ∈ m.roots)
    (hpack : pack capacity available groups = .ok sectors) :
    ∀ s ∈ sectors, ∀ i ∈ s.items, i.Rooted m.roots := by
  refine inherits_of_pack (Item.inherited_rooted m.roots) (fun {i} h => ?_)
    (fun {i j joined} h h' hjoin => ?_) (fun d hd => (Path.Reached.root (hgroups d hd)).rooted)
    hpack
  · exact (merges_uncovered h.lies).rooted (List.forall_mem_singleton.2 h)
  · exact (merges_join hm h.lies h'.lies hjoin (.one i) (.one j)).rooted
      (List.forall_mem_cons.2 ⟨h, List.forall_mem_singleton.2 h'⟩)

end

/-- **Grouping keeps the order of every branch.** The code of every packed sector is that of its
outline, where

* each choice is made on one union, between arms of which there is at least one, in ascending order
  of their values;
* every item stands once, in one arm for each of its conditions and in no other;
* under every assignment of variants to unions, what is selected by following the arm of the
  assigned variant in each choice is the code of the items that travel, in their order. -/
theorem grouping_of_pack {c : Config} {g : Registry} {m : Model} {capacity available : Nat}
    {groups : List (List Decl)} {sectors : List Sector} (hbuild : Model.build c g = some m)
    (hgroups : ∀ d ∈ groups.flatten, d ∈ m.roots)
    (hpack : pack capacity available groups = .ok sectors) :
    ∀ s ∈ sectors,
      (∀ aim, codeAll aim (Items.outline 0 s.items) = Items.statements aim 0 s.items) ∧
      (∀ x ∈ chainsAll (Items.outline 0 s.items),
        x.2 ≠ [] ∧ (∀ c ∈ x.2, c.union = x.1) ∧ Ascending Condition.value x.2) ∧
      ((entriesAll (Items.outline 0 s.items) []).map Prod.snd).Perm s.items ∧
      (∀ x ∈ entriesAll (Items.outline 0 s.items) [],
        List.Forall₂ Condition.SameArm x.1 x.2.conditions) ∧
      ∀ (aim : Purpose) (a : Assignment), selectedAll aim a (Items.outline 0 s.items) =
        (s.items.filter (·.isActive a)).flatMap (Item.statements aim) := by
  have hm := Model.numbered_of_build hbuild
  intro s hs
  have hunder : Items.Under m [] s.items :=
    ⟨fun i hi => (rooted_of_pack hm hgroups hpack s hs i hi).walks, fun i _ => .nil⟩
  have hbound : ∀ i ∈ s.items, i.conditions.length ≤
      ([] : List Condition).length + s.items.foldl (fun n i => max n i.conditions.length) 0 := by
    intro i hi
    rw [List.length_nil, Nat.zero_add]
    exact (Items.le_foldl_max s.items 0).2 i hi
  exact ⟨fun aim => Items.codeAll_outlineWithin .., hunder.chains hm _, Items.perm_entries ..,
    hunder.entries hm hbound, fun aim a => hunder.selected hm hbound fun _ hc => nomatch hc⟩

namespace Sample

/-- The values of all arms in the code of the small layout: the union reaches over two sectors, and
there is nothing to choose in the third one. -/
theorem chained : (Model.build config registry).map (fun m =>
    (pack 16 8 m.groups).toOption.map fun sectors => sectors.map fun s =>
      (chainsAll (Items.outline 0 s.items)).map fun x => x.2.map Condition.value) =
    some (some [[[0, 1]], [[0, 1]], []]) := by
  decide +kernel

/-- In both sectors of the union, following its arms leaves the code of one variant. -/
theorem chained_in_two_sectors : ∃ m sectors, Model.build config registry = some m ∧
    pack 16 8 m.groups = .ok sectors ∧
    (sectors.map fun s => (chainsAll (Items.outline 0 s.items)).map fun x =>
      x.2.map Condition.value) = [[[0, 1]], [[0, 1]], []] ∧
    ∀ s ∈ sectors,
      ((entriesAll (Items.outline 0 s.items) []).map Prod.snd).Perm s.items ∧
      ∀ (aim : Purpose) (a : Assignment),
        codeAll aim (Items.outline 0 s.items) = Items.statements aim 0 s.items ∧
        selectedAll aim a (Items.outline 0 s.items) =
          (s.items.filter (·.isActive a)).flatMap (Item.statements aim) := by
  obtain ⟨m, sectors, hm, herrors, hpack, -⟩ := packs
  have hvalues := chained
  simp only [hm, Option.map_some, hpack, Except.toOption, Option.some.injEq] at hvalues
  refine ⟨m, sectors, hm, hpack, hvalues, fun s hs => ?_⟩
  obtain ⟨hcode, -, hperm, -, hselected⟩ :=
    grouping_of_pack hm (Model.sound_of_build hm herrors).grouping.sub hpack s hs
  exact ⟨hperm, fun aim a => ⟨hcode aim, hselected aim a⟩⟩

end Sample

end BitLayout
