import BitLayout.Proofs.Code.Grouping
import BitLayout.Proofs.Code.Loci
import BitLayout.Proofs.Code.Relation
import BitLayout.Proofs.Decl.Origin
import BitLayout.Proofs.Sector.Flattening

/-!
# BitLayout.Proofs.Code.Restored

What listings say about values that are left out, and what generated code does about them. A value
that is left out is marked in a listing, as one that gets its default. It does get one if it has
one, by an assignment that takes the place of everything that would be read:

```
                          listing                       code that reads
kept                      obj.a                       obj.a = <from the stream>
left out, with default    obj.b (omitted, defaulted)  obj.b = <default>
left out, without         obj.c (omitted, defaulted)
```

The mark does not tell the last two apart.

* `plain_text`: names without commas make texts without the mark;
* `Deeper.follows`: code for what is kept assigns defaults to nothing but fields of it;
* `Item.restored_iff`: which items are restored.

Main statement: `listing_of_build`.
-/

namespace BitLayout

/-! ## texts -/

/-- A line says that something is left out and gets its default. -/
def SaysRestored (line : String) : Prop := "omitted, defaulted".toList <:+: line.toList

/-- A text has no comma. -/
def Plain (s : String) : Prop := ',' ∉ s.toList

instance (s : String) : Decidable (Plain s) := inferInstanceAs (Decidable (',' ∉ s.toList))

namespace Plain

variable {s t : String}

theorem append (hs : Plain s) (ht : Plain t) : Plain (s ++ t) := by
  simpa [Plain, String.toList_append] using ⟨hs, ht⟩

theorem nat (n : Nat) : Plain (toString n) := by
  intro hmem
  change ',' ∈ (String.ofList (Nat.toDigits 10 n)).toList at hmem
  rw [String.toList_ofList] at hmem
  exact absurd (Nat.isDigit_of_mem_toDigits (by decide) (by decide) hmem) (by decide)

theorem int : (n : Int) → Plain (toString n)
  | .ofNat n => nat n
  | .negSucc n => append (by decide : Plain "-") (nat (n + 1))

theorem join {texts : List String} (h : ∀ s ∈ texts, Plain s) : Plain (String.join texts) := by
  intro hmem
  rw [String.toList_join, List.mem_flatMap] at hmem
  obtain ⟨s, hs, hmem⟩ := hmem
  exact h s hs hmem

theorem intercalate {sep : String} {texts : List String} (hsep : Plain sep)
    (h : ∀ s ∈ texts, Plain s) : Plain (sep.intercalate texts) := by
  induction texts with
  | nil => exact (by decide : Plain "")
  | cons s texts ih =>
    obtain ⟨hs, htexts⟩ := List.forall_mem_cons.1 h
    have hrest := ih htexts
    unfold Plain at hrest ⊢
    rw [String.toList_intercalate] at hrest ⊢
    cases texts with
    | nil => simpa [List.intercalate, Plain] using hs
    | cons t texts =>
      simp only [List.map_cons, List.intercalate_cons_cons, List.mem_append, not_or] at hrest ⊢
      exact ⟨⟨hs, hsep⟩, hrest⟩

theorem alignRight (h : Plain s) (width : Nat) : Plain (BitLayout.alignRight width s) := by
  refine append ?_ h
  induction width - s.length with
  | zero => exact (by decide : Plain "")
  | succ n ih =>
    rw [Plain, String.pushn, Nat.repeat, String.toList_push, List.mem_append, not_or]
    exact ⟨ih, by decide⟩

end Plain

/-- A line without commas does not say that anything gets its default. -/
theorem Plain.not_saysRestored {line : String} (h : Plain line) : ¬ SaysRestored line :=
  fun hmarked => h (hmarked.subset (by decide))

/-! ## names -/

section

variable {c : Config} {g : Registry} {m : Model} {roots : List Decl} {i : Item} {threshold : Nat}

/-- The names of data objects and fields have no commas, as no identifier has. -/
structure Config.PlainNames (c : Config) (g : Registry) : Prop where
  objects : ∀ o ∈ c.objects, Plain o.name
  fields : ∀ r ∈ g.records, ∀ f ∈ r.fields, Plain f.name

theorem Config.Asks.plain {name : String} {own : Option Request} {type : TypeExpr}
    (hnames : c.PlainNames g) (h : c.Asks g name own type) : Plain name := by
  induction h with
  | object ho => exact hnames.objects _ ho
  | field _ hfound hf => exact hnames.fields _ (List.mem_of_find?_eq_some hfound) _ hf
  | wire _ _ ih => exact ih

/-- What is declared takes its name from a data object or a field. -/
theorem Model.plain_of_build (h : Model.build c g = some m) (he : m.errors = [])
    (hnames : c.PlainNames g) : ∀ d ∈ m.roots, d.Everywhere fun e => Plain e.name := by
  intro d hd e hbelow
  obtain ⟨_, _, hasks, -⟩ := (Model.Declares.faithful h he (.inl ⟨d, hd, hbelow⟩)).asked
  exact hasks.plain hnames

theorem Access.plain_text (a : Access) : Plain a.text := by
  unfold Access.text
  split
  · exact ((((by decide : Plain "[").append (.nat _)).append (by decide)).append (.nat _)).append
      (by decide)
  · exact ((by decide : Plain "[").append (.nat _)).append (by decide)

theorem Step.Walk.plain {ss : List Step} (hroots : ∀ d ∈ roots, d.Everywhere fun e => Plain e.name)
    (h : Walk roots ss) : ∀ s ∈ ss, Plain s.text := by
  induction ss generalizing roots with
  | nil => exact fun s hs => nomatch hs
  | cons s ss ih =>
    have hd := hroots s.decl h.1
    refine List.forall_mem_cons.2 ⟨?_, ih (fun e he => hd.member he) h.2⟩
    refine Plain.append hd.self (.join (List.forall_mem_map.2 fun a _ => a.plain_text))

theorem Path.Walks.plain {p : Path} (hroots : ∀ d ∈ roots, d.Everywhere fun e => Plain e.name)
    (h : p.Walks roots) : Plain p.text :=
  .intercalate (by decide) (List.forall_mem_map.2 (Step.Walk.plain hroots h))

/-- Names without commas make texts without the mark, unless the item is left out. -/
theorem Item.plain_text (hroots : ∀ d ∈ roots, d.Everywhere fun e => Plain e.name)
    (h : i.Rooted roots) (hkept : i.isOmitted = false) : Plain i.text := by
  obtain ⟨conditions, content⟩ := i
  refine Plain.append ?_ ?_
  · split
    · decide
    · refine ((by decide : Plain "if ").append (.intercalate (by decide) ?_)).append (by decide)
      refine List.forall_mem_map.2 fun c hc => ?_
      exact (((h.walks c hc).2.plain hroots).append (by decide)).append (.int _)
  · cases content with
    | value p =>
      have hmark : p.last.decl.isOmitted = false := by simpa [isOmitted, last?, path?] using hkept
      refine ((h.lies p rfl).walks.plain hroots).append ?_
      rw [hmark]
      decide
    | padding bits trailing => cases trailing <;> simp only [Content.text] <;> decide

/-- What a data object comes to leads down from it. -/
theorem Item.Rooted.flatten (h : i.Rooted roots) : ∀ j ∈ i.flatten threshold, j.Rooted roots :=
  forall_flatten Rooted.expand h

end

/-! ## assignments of defaults -/

/-- How many fields and indices a place goes through. -/
def Place.depth : Place → Nat
  | object _ => 0
  | wire _ => 0
  | field owner _ _ => owner.depth + 1
  | element array _ => array.depth + 1

/-- Statements assign defaults to places of at least some depth alone, apart from what they do
within loops, blocks and choices. -/
def Deeper (depth : Nat) (body : List Statement) : Prop :=
  ∀ place value, .move (.default place value) ∈ body → depth ≤ place.depth

namespace Deeper

variable {depth : Nat} {xs ys : List Statement}

theorem nil : Deeper depth [] := fun _ _ h => nomatch h

theorem append (h : Deeper depth xs) (h' : Deeper depth ys) : Deeper depth (xs ++ ys) :=
  fun place value hmem => (List.mem_append.1 hmem).elim (h place value) (h' place value)

/-- Where no default is assigned at all, any depth will do. -/
theorem single {s : Statement} (h : ∀ place value, s ≠ .move (.default place value)) :
    Deeper depth [s] :=
  fun place value hmem => (h place value (List.mem_singleton.1 hmem).symm).elim

theorem looped (l : Loop) (body : List Statement) : Deeper depth (Statement.looped l body) := by
  unfold Statement.looped
  split
  · exact nil
  · exact single (by simp)

/-- Depths as a relation. A loop, a block or a choice may hold any defaults. -/
def relation : CodeRelation Nat :=
  .property Deeper (fun _ _ => True) (fun _ => nil) append (fun _ _ => single (by simp))
    fun _ => single (by simp)

/-- **Defaults of a declaration**: what is left out assigns its default to its own place, and
anything else assigns defaults to fields below it alone. -/
theorem follows (aim : Purpose) : relation.Follows aim aim .refl
    fun depth d _ p => depth ≤ p.place.depth + (!d.isOmitted).toNat where
  loop h := ⟨_, Nat.le_trans h (Nat.add_le_add_right (Nat.le_succ _) _),
    fun _ _ _ => looped _ _⟩
  wire _ _ _ := ⟨0, Nat.zero_le _, fun _ _ _ => single (by simp)⟩
  omitted {_ d p} h homit := by
    rw [Transfer.elementAt, Transfer.element_omitted homit]
    rw [homit] at h
    split
    · intro place value hmem
      cases List.mem_singleton.1 hmem
      exact h
    · exact nil
  single _ hm := by cases hm <;> exact single (by simp)
  struct _ hk hfields := by
    rw [Transfer.elementAt, Transfer.element_struct hk]
    split
    · exact single (by simp)
    · exact hfields
  field h _ _ := Nat.le_trans h (Nat.le_trans (Nat.add_le_add_left (Bool.toNat_le _) _)
    (Nat.le_add_right _ _))
  variant h _ _ := Nat.le_trans h (Nat.le_trans (Nat.add_le_add_left (Bool.toNat_le _) _)
    (Nat.le_add_right _ _))
  fieldOfVariant h _ _ _ := Nat.le_trans h (Nat.le_trans
    (Nat.add_le_add_left (Bool.toNat_le _) _) (Nat.le_trans (Nat.le_succ _) (Nat.le_add_right _ _)))
  ownerTag _ _ _ := trivial
  variantTag _ _ _ _ := trivial

end Deeper

/-! ## loops -/

namespace Statement

variable {xs ys : List Statement} {f f' : Place → Nat → List Statement}

theorem looped_ne_nil (l : Loop) (h : xs ≠ []) : looped l xs ≠ [] := by
  rw [looped, if_neg (by simpa using h)]
  exact List.cons_ne_nil _ _

theorem looped_inj {l : Loop} (h : looped l xs = looped l ys) (hne : ys ≠ []) : xs = ys := by
  cases xs with
  | nil => exact absurd h.symm (looped_ne_nil l hne)
  | cons x xs =>
    rw [looped, looped, if_neg (by simp), if_neg (by simpa using hne)] at h
    simpa using h

theorem loopedAll_ne_nil (loops : List Loop) (h : xs ≠ []) : loopedAll loops xs ≠ [] := by
  induction loops with
  | nil => exact h
  | cons l loops ih => exact looped_ne_nil l ih

theorem loopedAll_inj {loops : List Loop} (h : loopedAll loops xs = loopedAll loops ys)
    (hne : ys ≠ []) : xs = ys := by
  induction loops with
  | nil => exact h
  | cons l loops ih => exact ih (looped_inj h (loopedAll_ne_nil loops hne))

theorem overRanks_ne_nil (h : ∀ place n, f place n ≠ []) (extents : List Nat) (n : Nat)
    (place : Place) : overRanks extents n place f ≠ [] := by
  induction extents generalizing n place with
  | nil => exact h place n
  | cons extent rest ih => exact looped_ne_nil _ (ih _ _)

/-- Where loops over ranks are the same, so is what they repeat, at the place that they reach. -/
theorem overRanks_inj {extents : List Nat} {n : Nat} {place : Place}
    (h : overRanks extents n place f = overRanks extents n place f')
    (hne : ∀ place n, f' place n ≠ []) : ∃ place n, f place n = f' place n := by
  induction extents generalizing n place with
  | nil => exact ⟨place, n, h⟩
  | cons extent rest ih => exact ih (looped_inj h (overRanks_ne_nil hne _ _ _))

theorem loopedAll_nil (loops : List Loop) : loopedAll loops [] = [] := by
  induction loops with
  | nil => rfl
  | cons l loops ih => exact congrArg (looped l) ih

theorem overRanks_nil (extents : List Nat) (n : Nat) (place : Place) :
    overRanks extents n place (fun _ _ => []) = [] := by
  induction extents generalizing n place with
  | nil => rfl
  | cons extent rest ih => exact congrArg (looped _) (ih _ _)

end Statement

/-! ## items -/

namespace Item

variable {i : Item} {sf : Bool}

/-- The code that reads an item is a default assignment: in loops over what the item stands for, its
own place gets a value, and nothing is read. -/
def Restored (sf : Bool) (i : Item) : Prop :=
  ∃ p value, i.content = .value p ∧ i.statements ⟨.read, sf⟩ =
    Statement.loopedAll p.locus.loops (Statement.overRanks p.last.remaining p.locus.loops.length
      p.locus.place fun place _ => [.move (.default place value)])

theorem Restored.ne_nil (h : i.Restored sf) : i.statements ⟨.read, sf⟩ ≠ [] := by
  obtain ⟨p, value, -, heq⟩ := h
  rw [heq]
  exact Statement.loopedAll_ne_nil _ (Statement.overRanks_ne_nil (fun _ _ => by simp) _ _ _)

/-- The items that are restored are those that are left out and have a default. -/
theorem restored_iff : i.Restored sf ↔ i.isOmitted = true ∧ i.isDefaulted = true := by
  obtain ⟨cs, content⟩ := i
  cases content with
  | padding bits trailing => simp [Restored, isOmitted, last?, path?]
  | value p =>
    change _ ↔ p.last.decl.isOmitted = true ∧ p.last.decl.encoding.default.isSome = true
    constructor
    · rintro ⟨p, value, hp, heq⟩
      cases hp
      rw [statements_value] at heq
      obtain ⟨place, n, heq⟩ := Statement.overRanks_inj
        (Statement.loopedAll_inj heq (Statement.overRanks_ne_nil (fun _ _ => by simp) _ _ _))
        (fun _ _ => by simp)
      have hdeeper := (Deeper.follows ⟨.read, sf⟩).element p.last.decl (Nat.le_refl _) place value
        (heq ▸ List.mem_singleton_self _)
      have homit : p.last.decl.isOmitted = true := by
        cases hcase : p.last.decl.isOmitted with
        | true => rfl
        | false =>
          rw [hcase] at hdeeper
          exact absurd hdeeper (Nat.not_succ_le_self _)
      refine ⟨homit, ?_⟩
      rw [Transfer.element_omitted homit] at heq
      cases hdefault : p.last.decl.encoding.default with
      | some value => rfl
      | none =>
        rw [hdefault] at heq
        cases heq
    · rintro ⟨homit, hdefault⟩
      obtain ⟨value, hvalue⟩ := Option.isSome_iff_exists.1 hdefault
      refine ⟨p, value.tokens, rfl, ?_⟩
      simp only [statements_value, Transfer.element_omitted homit, hvalue]

/-- What is left out without a default needs no code. -/
theorem statements_of_dropped (aim : Purpose) (homit : i.isOmitted = true)
    (hbare : i.isDefaulted = false) : i.statements aim = [] := by
  obtain ⟨cs, content⟩ := i
  cases content with
  | padding bits trailing => cases homit
  | value p =>
    change p.last.decl.isOmitted = true at homit
    have hnone : p.last.decl.encoding.default = none := by
      simpa [isDefaulted, last?, path?] using hbare
    simp only [statements_value, Transfer.element_omitted homit, hnone]
    cases aim.direction <;> simp only [Statement.overRanks_nil, Statement.loopedAll_nil]

/-- What is left out is marked. -/
theorem saysRestored_of_omitted (front : String) (homit : i.isOmitted = true) :
    SaysRestored (front ++ i.text) := by
  obtain ⟨cs, content⟩ := i
  cases content with
  | padding bits trailing => cases homit
  | value p =>
    change p.last.decl.isOmitted = true at homit
    have hmark : "omitted, defaulted".toList <:+: " (omitted, defaulted)".toList :=
      ⟨" (".toList, ")".toList, by decide +kernel⟩
    simp only [SaysRestored, text, Content.text, homit, if_true, String.toList_append]
    refine hmark.trans (List.IsSuffix.isInfix ?_)
    exact (List.suffix_append ..).trans ((List.suffix_append ..).trans (List.suffix_append ..))

end Item

/-- **Marks in listings.** In the listing of a data object of a model without errors, each line
behind the first is about one item. It says that the item gets its default if, and only if, the item
is left out. The item does get one, by a default assignment in place of the code that reads it, if
and only if it also has one; otherwise what is left out has no code at all. So a line tells the
truth unless its item is left out without a default. -/
theorem listing_of_build {c : Config} {g : Registry} {m : Model} (h : Model.build c g = some m)
    (he : m.errors = []) (hnames : c.PlainNames g) {d : Decl} (hd : d ∈ m.roots) (threshold k : Nat)
    {i : Item} (hi : ((Item.root d).flatten threshold)[k]? = some i) :
    ∃ line, (objectListing threshold d)[k + 1]? = some line ∧
      (SaysRestored line ↔ i.isOmitted = true) ∧
      (i.isOmitted = true ∧ i.isDefaulted = false → ∀ aim, i.statements aim = []) ∧
      ∀ sf, (i.Restored sf ↔ i.isOmitted = true ∧ i.isDefaulted = true) ∧
        ((SaysRestored line ↔ i.Restored sf) ↔ ¬ (i.isOmitted = true ∧ i.isDefaulted = false)) := by
  let front := "  " ++ alignRight 5 (toString i.bits) ++ "  "
  have hline : (objectListing threshold d)[k + 1]? = some (front ++ i.text) := by
    rw [objectListing, List.getElem?_cons_succ, List.getElem?_map, hi]
    rfl
  have hmarked : SaysRestored (front ++ i.text) ↔ i.isOmitted = true := by
    refine ⟨fun hmarked => ?_, Item.saysRestored_of_omitted front⟩
    by_contra hkept
    have hrooted := (Path.Reached.root hd).rooted.flatten i (List.mem_of_getElem? hi)
    have htext := Item.plain_text (Model.plain_of_build h he hnames) hrooted
      (Bool.not_eq_true _ ▸ hkept)
    have hfront : Plain front :=
      ((by decide : Plain "  ").append ((Plain.nat _).alignRight 5)).append (by decide)
    exact (hfront.append htext).not_saysRestored hmarked
  refine ⟨_, hline, hmarked, fun hbare aim => Item.statements_of_dropped aim hbare.1 hbare.2,
    fun sf => ⟨Item.restored_iff, ?_⟩⟩
  rw [hmarked, Item.restored_iff]
  cases i.isOmitted <;> cases i.isDefaulted <;> simp

namespace Sample

/-- A struct of a byte that is left out, one that is left out with a default, and one that stays. -/
def partlyRestored : Registry where
  records := [⟨"S", .struct, [⟨"a", .name "u8", { Request.empty with omitted := true }⟩,
    ⟨"b", .name "u8",
      { Request.empty with omitted := true, default := some (.ofTokens [.literal "7"]) }⟩,
    ⟨"c", .name "u8", Request.empty⟩], Request.empty, false⟩]
  aliases := []

theorem partlyRestored_built : (Model.build onGrid partlyRestored).map (fun m =>
      (m.errors, m.roots.map (objectListing 4), m.roots.map fun d =>
        ((Item.root d).flatten 4).map fun i => (i.isOmitted, i.isDefaulted))) =
    some ([], [["obj: 8 bits", "      0  obj.a (omitted, defaulted)",
      "      0  obj.b (omitted, defaulted)", "      8  obj.c"]],
      [[(true, false), (true, true), (false, false)]]) := by
  decide +kernel

/-- The byte that is left out without a default is marked all the same. -/
theorem marked_unrestored : ∃ m d i line, Model.build onGrid partlyRestored = some m ∧
    m.errors = [] ∧ d ∈ m.roots ∧ ((Item.root d).flatten 4)[0]? = some i ∧
    (objectListing 4 d)[1]? = some line ∧ line = "      0  obj.a (omitted, defaulted)" ∧
    SaysRestored line ∧ ∀ sf, i.statements ⟨.read, sf⟩ = [] ∧ ¬ i.Restored sf := by
  obtain ⟨m, hm, hbuilt⟩ := Option.map_eq_some_iff.1 partlyRestored_built
  simp only [Prod.mk.injEq] at hbuilt
  obtain ⟨herrors, hlines, hitems⟩ := hbuilt
  obtain ⟨d, hd, hflags⟩ := List.map_eq_singleton_iff.1 hitems
  rw [hd, List.map_singleton, List.singleton_inj] at hlines
  obtain ⟨i, rest, hflat, hi, -⟩ := List.map_eq_cons_iff.1 hflags
  obtain ⟨homit, hbare⟩ := Prod.mk.inj hi
  have hnone (sf : Bool) : i.statements ⟨.read, sf⟩ = [] :=
    Item.statements_of_dropped ⟨.read, sf⟩ homit hbare
  refine ⟨m, d, i, _, hm, herrors, by simp [hd], by simp [hflat], by rw [hlines]; rfl, rfl, ?_,
    fun sf => ⟨hnone sf, fun h => h.ne_nil (hnone sf)⟩⟩
  exact ⟨"      0  obj.a (".toList, ")".toList, by decide +kernel⟩

/-- The line of the byte with a default tells the truth. -/
theorem marked_restored : ∃ m d i line, Model.build onGrid partlyRestored = some m ∧
    m.errors = [] ∧ d ∈ m.roots ∧ ((Item.root d).flatten 4)[1]? = some i ∧
    (objectListing 4 d)[2]? = some line ∧ SaysRestored line ∧ ∀ sf, i.Restored sf := by
  obtain ⟨m, hm, hbuilt⟩ := Option.map_eq_some_iff.1 partlyRestored_built
  simp only [Prod.mk.injEq] at hbuilt
  obtain ⟨herrors, -, hitems⟩ := hbuilt
  obtain ⟨d, hd, hflags⟩ := List.map_eq_singleton_iff.1 hitems
  obtain ⟨first, rest, hflat, -, hrest⟩ := List.map_eq_cons_iff.1 hflags
  obtain ⟨i, rest, rfl, hi, -⟩ := List.map_eq_cons_iff.1 hrest
  obtain ⟨homit, hdefault⟩ := Prod.mk.inj hi
  have hmem : d ∈ m.roots := by simp [hd]
  have hsecond : ((Item.root d).flatten 4)[1]? = some i := by simp [hflat]
  have hnames : onGrid.PlainNames partlyRestored := ⟨by decide, by decide⟩
  obtain ⟨line, hline, hmarked, -, hrestored⟩ :=
    listing_of_build hm herrors hnames hmem 4 1 hsecond
  exact ⟨m, d, i, line, hm, herrors, hmem, hsecond, hline, hmarked.2 homit,
    fun sf => (hrestored sf).1.2 ⟨homit, hdefault⟩⟩

end Sample

end BitLayout
