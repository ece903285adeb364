import BitLayout.Proofs.Code.Variables
import BitLayout.Proofs.Sector.Flattening
import BitLayout.Proofs.Sector.Indexed

/-!
# BitLayout.Proofs.Code.Capture

No variable of generated code is captured. In the code for items, for sectors and for records, the
variables along every way through loops and blocks have different names, and every place leads to a
declaration by the variables that it is made for: each index of a loop stands behind the array that
the loop is for, and within its extent.

Nothing is said of data objects that are named like variables. Their names stand for the variables
inside the loops and blocks that bind these.

* `Path.Indexed.site`: a path that is not sliced leads to a site without loops;
* `Item.Indexed.scoped`: the code of an indexed item is scoped.

Main statement: `captureFree_of_build`.
-/

namespace BitLayout

section

variable {g : Registry} {m : Model} {p : Path} {i : Item}

/-! ## paths -/

/-- What is not sliced is at a site without loops around it. -/
theorem Path.Indexed.site (hm : m.Sound g) (hapart : Variable.Apart m.roots)
    (h : p.Indexed m.roots) (hs : p.last.slice? = none) : p.locus.loops = [] ∧
      Site m.roots [] 0 p.last.decl p.last.remaining p.locus.place p.locus.owner := by
  induction h with
  | root hd => exact ⟨rfl, .object hapart hd⟩
  | @member p d h hunsliced hr hd ih =>
    obtain ⟨hloops, hsite⟩ := ih hunsliced
    rw [hr] at hsite
    rw [locus_member]
    exact ⟨hloops, hsite.member (h.walks.everywhere hm.roots).self hd⟩
  | @access p a extent rest h hunsliced hr ha ih =>
    obtain ⟨hloops, hsite⟩ := ih hunsliced
    have hsingle := isSlice_of_unsliced hs
    have hstart : a.start < extent := by
      rw [Access.stop, Access.count_of_single hsingle] at ha
      exact ha
    rw [hr] at hsite
    rw [locus_access, Locus.access, if_neg (by simp [hsingle]), remaining_access hr]
    exact ⟨hloops, hsite.apart, hsite.below, .constant hsite.leads hstart, hsite.tag⟩

/-! ## items -/

/-- **Scopes of an item**: the code of an indexed item is scoped. -/
theorem Item.Indexed.scoped (hm : m.Sound g) (hapart : Variable.Apart m.roots)
    (h : i.Indexed m.roots) (aim : Purpose) : ScopedAll m.roots (i.statements aim) [] := by
  obtain ⟨cs, content⟩ := i
  cases content with
  | padding bits trailing =>
    cases trailing with
    | true => exact .nil
    | false => exact (ScopedAll.relation m.roots).paddings [] bits
  | value p =>
    have hp := h p rfl
    have hsound := hp.walks.everywhere hm.roots
    rw [statements_value]
    cases hslice : p.last.slice? with
    | none =>
      obtain ⟨hloops, hsite⟩ := hp.site hm hapart hslice
      rw [hloops]
      exact (ScopedAll.follows g m.records m.roots aim).here p.last.decl
        (p := ⟨p.locus.place, p.locus.owner, 0⟩) ⟨hsound, hsite⟩
    | some a =>
      -- A slice is one loop around what its indices are applied to.
      have heq := Path.eq_access_of_slice hslice
      have hisSlice := (Option.filter_eq_some_iff.1 hslice).2
      generalize p.withAccesses p.last.accesses.dropLast = q at heq
      subst heq
      obtain ⟨hq, hnone, extent, rest, hr, hstop⟩ := hp.of_access rfl
      obtain ⟨hloops, hsite⟩ := hq.site hm hapart hnone
      rw [hr] at hsite
      have hlocus : (q.access a).locus = q.locus.slice a.start a.stop := by
        rw [Path.locus_access, Locus.access, if_pos hisSlice]
      obtain ⟨hfresh, hinner⟩ := hsite.index (l := ⟨0, a.start, a.stop⟩) rfl hstop
      rw [hlocus, Locus.slice, hloops, Path.remaining_access hr]
      refine .looped hsite.leads hstop hfresh ?_
      exact (ScopedAll.follows g m.records m.roots aim).here q.last.decl
        (p := ⟨.element q.locus.place (.loop 0), q.locus.owner, 1⟩) ⟨hsound, hinner⟩

/-- The place of a single element leads there. -/
theorem Path.Single.isElement (hm : m.Sound g) (hapart : Variable.Apart m.roots)
    (h : p.Single m.roots) : p.locus.place.IsElement m.roots [] := by
  obtain ⟨-, hsite⟩ := h.indexed.site hm hapart h.unsliced
  exact ⟨p.last.decl, h.remaining ▸ hsite.leads⟩

end

/-! ## records -/

/-- What the functions of a record are given: one element of the record. -/
def Model.receiver (m : Model) (record : String) : Decl :=
  .mk ⟨0, "value", .name record, some (.record record .struct), [], ⟨.struct, none, none⟩, 0⟩
    (m.membersOf record) none

/-- **Scopes of a record**: the code of the functions of a record is scoped. -/
theorem scoped_of_record {c : Config} {g : Registry} {m : Model}
    (hbuild : Model.build c g = some m) (herrors : m.errors = []) (dir : Direction)
    (record : String) :
    ScopedAll [m.receiver record] (Program.recordStatements c m dir record) [] := by
  rw [Program.recordStatements, Model.membersOf]
  cases hlookup : m.records.lookup record with
  | none => exact .nil
  | some members =>
    obtain ⟨parent, htags⟩ := Model.tags_of_record hbuild herrors hlookup
    have hmembers : (m.receiver record).members = members := by
      change m.membersOf record = members
      rw [Model.membersOf, hlookup]
      rfl
    have hname : ∀ rest, identifierName "value" ≠ "__" ++ rest := ne_underscores (by decide)
    have hreceiver : Site [m.receiver record] [] 0 (m.receiver record) [] Program.recordPlace
        none :=
      .object (List.forall_mem_singleton.2 hname) (List.mem_singleton_self _)
    refine .fields (Model.sound_of_record hbuild herrors hlookup) (fun e he => ?_) 0
    exact hreceiver.ofFields (hmembers ▸ htags) (hmembers ▸ he)

/-! ## programs -/

/-- **No variable is captured** in the code for a model without errors, where no name of a data
object begins with two underscores. This is so for the code

* of every item that comes up between the data objects and the sectors, for any purpose;
* of every sector that is packed of data objects;
* of the functions of every record, which are given one element of it. -/
theorem captureFree_of_build {c : Config} {g : Registry} {m : Model}
    (hbuild : Model.build c g = some m) (herrors : m.errors = [])
    (hapart : Variable.Apart m.roots) :
    (∀ i : Item, i.Arises m.roots → ∀ aim, CaptureFree m.roots (i.statements aim)) ∧
      (∀ capacity available groups sectors, (∀ d ∈ groups.flatten, d ∈ m.roots) →
        pack capacity available groups = .ok sectors → ∀ s ∈ sectors, ∀ dir,
          CaptureFree m.roots (Program.sectorStatements c dir s)) ∧
      ∀ dir record, CaptureFree [m.receiver record] (Program.recordStatements c m dir record) := by
  have hm := Model.sound_of_build hbuild herrors
  refine ⟨fun i hi aim => ((hi.indexed hm).scoped hm hapart aim).captureFree,
    fun capacity available groups sectors hgroups hpack s hs dir => ?_,
    fun dir record => (scoped_of_record hbuild herrors dir record).captureFree⟩
  have htagged := tagged_of_pack hm hgroups hpack s hs
  have hitems := (ScopedAll.relation m.roots).items (s := []) (Program.purpose c dir)
    (Program.purpose c dir) (fun i hi => (htagged i hi).indexed.scoped hm hapart _)
    (fun i hi c hc => ((htagged i hi).tags c hc).isElement hm hapart)
  exact ScopedAll.captureFree (hitems _ _)

namespace Sample

/-- A grid of blocks, each of which is a pair of flags on the wire. -/
def blocks : Registry where
  records := [
    ⟨"Pair", .struct, [⟨"flags", arrayOf (.name "bool") "2", Request.empty⟩], Request.empty,
      false⟩,
    ⟨"S", .struct, [⟨"grid", arrayOf (arrayOf (.name "f32") "2") "3",
      { Request.empty with
        form := some (.transform ⟨.name "Pair", .ofWord "split", .ofWord "unite"⟩) }⟩],
      Request.empty, false⟩]
  aliases := []

/-- The code that reads the whole grid, in loops and blocks of four variables, and the number of
sectors. -/
theorem blocks_built : (Model.build onGrid blocks).map (fun m => (m.errors,
      m.roots.map (fun d => (d.name, (statementTokens onGrid.readFns .read
        ((Item.root d).statements ⟨.read, false⟩)).spaced)),
      (pack 16 8 m.groups).toOption.map List.length)) =
    some ([], [("obj", "for __i0 in 0usize .. 3usize \x7b " ++
      "for __i1 in 0usize .. 2usize \x7b \x7b " ++
      "let mut __w2 : Pair = :: core :: default :: Default :: default () ; " ++
      "for __i3 in 0usize .. 2usize \x7b __w2 . flags [__i3] = read_bool (state) ; \x7d " ++
      "(* obj) . grid [__i0] [__i1] = unite (& __w2) ; \x7d \x7d \x7d")], some 1) := by
  decide +kernel

/-- In this code, nothing is captured, nor is it in that of the sectors and of the record on the
wire. -/
theorem blocks_capture_free : ∃ m d sectors, Model.build onGrid blocks = some m ∧ m.errors = [] ∧
    Variable.Apart m.roots ∧ d ∈ m.roots ∧ pack 16 8 m.groups = .ok sectors ∧
    sectors.length = 1 ∧ CaptureFree m.roots ((Item.root d).statements ⟨.read, false⟩) ∧
    (∀ s ∈ sectors, ∀ dir, CaptureFree m.roots (Program.sectorStatements onGrid dir s)) ∧
    ∀ dir, CaptureFree [m.receiver "Pair"] (Program.recordStatements onGrid m dir "Pair") := by
  obtain ⟨m, hm, hbuilt⟩ := Option.map_eq_some_iff.1 blocks_built
  simp only [Prod.mk.injEq] at hbuilt
  obtain ⟨herrors, hobjects, hsectors⟩ := hbuilt
  obtain ⟨d, hd, hobject⟩ := List.map_eq_singleton_iff.1 hobjects
  have hname : d.name = "obj" := congrArg Prod.fst hobject
  have hapart : Variable.Apart m.roots := by
    rw [hd]
    refine List.forall_mem_singleton.2 (ne_underscores ?_)
    rw [hname]
    decide
  obtain ⟨sectors, hpack, hlength⟩ := Option.map_eq_some_iff.1 hsectors
  have hmem : d ∈ m.roots := hd ▸ List.mem_singleton_self d
  have hok : pack 16 8 m.groups = .ok sectors := by
    cases hp : pack 16 8 m.groups with
    | error e => simp [hp, Except.toOption] at hpack
    | ok found => simpa [hp, Except.toOption] using hpack
  obtain ⟨hitems, hsectors, hrecords⟩ := captureFree_of_build hm herrors hapart
  exact ⟨m, d, sectors, hm, herrors, hapart, hmem, hok, hlength, hitems _ (.root hmem) _,
    hsectors 16 8 m.groups sectors (fun _ hd => hd) hok, fun dir => hrecords dir "Pair"⟩

end Sample

end BitLayout
