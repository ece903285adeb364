import BitLayout.Proofs.Decl.Sound
import BitLayout.Proofs.Encoding.Shapes

/-!
# BitLayout.Proofs.Decl.Building

What a step of building adds to what has been found, and what it makes if nothing goes wrong. Errors
are only ever added, so a run that ends without errors had none at any time; this is why every
statement about what a step makes speaks of its last state.

* `Findings.Grows`: numbers and errors only grow, and the members of a record, once known, stay;
  those of the records that are still being taken apart are not touched.
* `Findings.Sound`: everything found so far is sound, and every union that has passed was checked
  with the members that are known of it.
* `build_run`, `membersOf_run`, `object_run`: what the three steps do to both.

Main statements: `Model.sound_of_build`, and `Model.sound_of_record` for the members of records;
`Model.Declares.sound` is both.
-/

namespace BitLayout

namespace Findings

/-! ## growth -/

/-- How a step may change what has been found while the records of `around` are taken apart. -/
structure Grows (around : List String) (s t : Findings) : Prop where
  size : s.size ≤ t.size
  errors : s.errors <+: t.errors
  kept : ∀ name members, s.records.lookup name = some members →
    t.records.lookup name = some members
  around : ∀ name ∈ around, t.records.lookup name = s.records.lookup name

namespace Grows

variable {around : List String} {s t u : Findings}

theorem refl (around : List String) (s : Findings) : s.Grows around s :=
  ⟨Nat.le_refl _, List.prefix_refl _, fun _ _ h => h, fun _ _ => rfl⟩

theorem trans (h : s.Grows around t) (h' : t.Grows around u) : s.Grows around u where
  size := Nat.le_trans h.size h'.size
  errors := h.errors.trans h'.errors
  kept name members hn := h'.kept name members (h.kept name members hn)
  around name hn := (h'.around name hn).trans (h.around name hn)

/-- Fewer records around leave more freedom. -/
theorem weaken {record : String} (h : s.Grows (record :: around) t) : s.Grows around t where
  size := h.size
  errors := h.errors
  kept := h.kept
  around name hn := h.around name (List.mem_cons_of_mem _ hn)

/-- A step that ends without errors began without errors. -/
theorem errors_eq_nil (h : s.Grows around t) (ht : t.errors = []) : s.errors = [] :=
  List.prefix_nil.1 (ht ▸ h.errors)

end Grows

/-! ## what is known -/

/-- Declarations that have been made: their numbers are taken, and everything in them is sound. -/
structure Known (g : Registry) (s : Findings) (ds : List Decl) : Prop where
  nodup : (ds.map Decl.number).Nodup
  lt : ∀ d ∈ ds, d.number < s.size
  sound : ∀ d ∈ ds, d.Everywhere (Decl.Sound g s.records)

/-- Declarations stay known. -/
theorem Known.mono {g : Registry} {s t : Findings} {around : List String} {ds : List Decl}
    (h : s.Known g ds) (hg : s.Grows around t) : t.Known g ds where
  nodup := h.nodup
  lt d hd := Nat.lt_of_lt_of_le (h.lt d hd) hg.size
  sound d hd := (h.sound d hd).imp fun _ he => he.mono hg.kept

/-- The members of a record that has been taken apart. -/
structure RecordSound (g : Registry) (s : Findings) (name : String) (members : List Decl) :
    Prop where
  known : s.Known g members
  tags : ∃ r, g.record? name = some r ∧
    ∀ (k : Nat) (m : Decl), members[k]? = some m → Decl.tagFault? r.kind members k m = none

/-- Everything found so far is sound. -/
structure Sound (g : Registry) (s : Findings) : Prop where
  records : ∀ name members, s.records.lookup name = some members → s.RecordSound g name members
  unions : ∀ u outcome, s.unions.lookup u = some outcome → ∃ n members, outcome = some n ∧
    s.records.lookup u.union = some members ∧
    Decl.checkVariants g u.union u.tag u.internal members = .ok n

/-- A step that adds neither records nor unions leaves everything sound. -/
theorem Sound.of_same {g : Registry} {s t : Findings} {around : List String} (h : s.Sound g)
    (hg : s.Grows around t) (hr : t.records = s.records) (hu : t.unions = s.unions) :
    t.Sound g where
  records name members hn := by
    obtain ⟨hknown, htags⟩ := h.records name members (hr ▸ hn)
    exact ⟨hknown.mono hg, htags⟩
  unions u outcome hn := by
    rw [hr]
    exact h.unions u outcome (hu ▸ hn)

end Findings

namespace Building

variable {α β : Type} {c : Config} {g : Registry} {s t : Findings} {around : List String}

/-! ## running steps -/

/-- A run of two steps is a run of the first and then one of the second. -/
theorem bind_inv {x : Building α} {f : α → Building β} {r : β × Findings}
    (h : (x >>= f) s = some r) : ∃ a u, x s = some (a, u) ∧ f a u = some r := by
  rw [show (x >>= f) s = (x s).bind fun p => f p.1 p.2 from rfl] at h
  obtain ⟨⟨a, u⟩, hx, hf⟩ := Option.bind_eq_some_iff.1 h
  exact ⟨a, u, hx, hf⟩

/-- A step that only returns changes nothing. -/
theorem pure_inv {a b : α} (h : (pure a : Building α) s = some (b, t)) : b = a ∧ t = s := by
  cases h
  exact ⟨rfl, rfl⟩

/-- A run whose result is changed is a run. -/
theorem map_inv {x : Building α} {f : α → β} {b : β} (h : (f <$> x) s = some (b, t)) :
    ∃ a, x s = some (a, t) ∧ b = f a := by
  rw [show (f <$> x) s = (x s).bind fun p => some (f p.1, p.2) from rfl] at h
  obtain ⟨⟨a, u⟩, hx, hf⟩ := Option.bind_eq_some_iff.1 h
  cases hf
  exact ⟨a, hx, rfl⟩

/-- Reporting leaves an error behind. -/
theorem report_run (around : List String) {e : DeclError} {u : Unit}
    (h : report e s = some (u, t)) :
    s.Grows around t ∧ t.errors ≠ [] := by
  cases h
  refine ⟨⟨Nat.le_refl _, List.prefix_append .., fun _ _ h => h, fun _ _ => rfl⟩, ?_⟩
  exact List.append_ne_nil_of_right_ne_nil _ (List.cons_ne_nil _ _)

/-- A new declaration has the next number. -/
theorem declare_run {info : Nat → DeclInfo} {members : List Decl} {wire : Option Decl} {d : Decl}
    (h : declare info members wire s = some (d, t)) :
    d = .mk (info s.size) members wire ∧ t = { s with size := s.size + 1 } := by
  cases h
  exact ⟨rfl, rfl⟩

/-- Taking a number is growth. -/
theorem grows_size : s.Grows around { s with size := s.size + 1 } :=
  ⟨Nat.le_succ _, List.prefix_refl _, fun _ _ h => h, fun _ _ => rfl⟩

/-- A declaration that is not left out has no fault. -/
theorem unlessFault_run (around : List String) {d d' : Decl} {fault : Option DeclError}
    (h : unlessFault d fault s = some (d', t)) :
    s.Grows around t ∧ t.records = s.records ∧
      (t.errors = [] → t = s ∧ d' = d ∧ fault = none) := by
  cases fault with
  | none =>
    obtain ⟨rfl, rfl⟩ := pure_inv h
    exact ⟨.refl _ _, rfl, fun _ => ⟨rfl, rfl, rfl⟩⟩
  | some e =>
    obtain ⟨u, m, hr, hp⟩ := bind_inv h
    obtain ⟨-, rfl⟩ := pure_inv hp
    obtain ⟨hg, hne⟩ := report_run around hr
    cases hr
    exact ⟨hg, rfl, fun h => absurd h hne⟩

/-! ## checks -/

/-- A union that passes was checked with the members that are known of it, whether now or before. -/
theorem checkedVariants_run (around : List String) {u : Selection} {variants : List Decl}
    {outcome : Option Nat} (h : checkedVariants g u variants s = some (outcome, t)) :
    s.Grows around t ∧ t.records = s.records ∧
      (t.errors = [] → s.Sound g → s.records.lookup u.union = some variants →
        t.Sound g ∧ ∃ n, outcome = some n ∧
          Decl.checkVariants g u.union u.tag u.internal variants = .ok n) := by
  unfold checkedVariants at h
  obtain ⟨now, m, hget, h⟩ := bind_inv h
  cases hget
  cases hfound : s.unions.lookup u with
  | some found =>
    simp only [hfound] at h
    obtain ⟨rfl, rfl⟩ := pure_inv h
    refine ⟨.refl _ _, rfl, fun _ hs hv => ⟨hs, ?_⟩⟩
    obtain ⟨n, members, hn, hmem, hok⟩ := hs.unions u _ hfound
    rw [hv, Option.some.injEq] at hmem
    exact ⟨n, hn, hmem ▸ hok⟩
  | none =>
    simp only [hfound] at h
    cases hok : Decl.checkVariants g u.union u.tag u.internal variants with
    | ok n =>
      simp only [hok] at h
      cases h
      have hg : s.Grows around { s with unions := (u, some n) :: s.unions } :=
        ⟨Nat.le_refl _, List.prefix_refl _, fun _ _ h => h, fun _ _ => rfl⟩
      refine ⟨hg, rfl, fun _ hs hv => ⟨⟨?_, ?_⟩, n, rfl, rfl⟩⟩
      · intro name members hn
        obtain ⟨hknown, htags⟩ := hs.records name members hn
        exact ⟨hknown.mono hg, htags⟩
      · intro u' outcome hu
        rw [List.lookup_cons] at hu
        split at hu
        · next heq =>
          cases hu
          rw [beq_iff_eq] at heq
          subst heq
          exact ⟨n, variants, rfl, hv, hok⟩
        · exact hs.unions u' outcome hu
    | error e =>
      simp only [hok] at h
      obtain ⟨r, m, hr, h⟩ := bind_inv h
      obtain ⟨hg, hne⟩ := report_run around hr
      cases hr
      cases h
      exact ⟨⟨hg.size, hg.errors, hg.kept, hg.around⟩, rfl, fun he => absurd he hne⟩

/-- The members of a new declaration are those of its record, if it travels as one. -/
def HasMembers (g : Registry) (s : Findings) (info : DeclInfo) (members : List Decl) : Prop :=
  ∀ kind, Config.travelsAs info.encoding.kind = some kind → ∃ record found,
    info.shape = some (.record record kind) ∧ g.record? record = some found ∧
      found.kind = kind ∧ s.records.lookup record = some members

/-- What has been checked of a new declaration. -/
structure Passed (g : Registry) (info : DeclInfo) (members : List Decl) (wire : Option Decl)
    (shared : Nat) : Prop where
  wire : ∀ t w, info.encoding.kind = .transformed t → wire = some w → Decl.wireFault? w = none
  variants : ∀ tag internal, info.encoding.kind = .union tag internal → ∃ record,
    info.shape = some (.record record .union) ∧
      Decl.checkVariants g record tag internal members = .ok shared

/-- A run that has checked a new declaration: without errors it has passed, and only its number of
shared fields is new. -/
structure Accepts (g : Registry) (around : List String) (s t : Findings) (info : DeclInfo)
    (members : List Decl) (wire : Option Decl) (d : Decl) : Prop where
  grows : s.Grows around t
  records : t.records = s.records
  passed : t.errors = [] → s.Sound g → HasMembers g s info members → t.Sound g ∧
    ∃ n, d = .mk { info with sharedFields := n } members wire ∧ Passed g info members wire n

/-- A declaration that is returned as it is has passed if there is nothing to check. -/
theorem accepts_of_pure {info : DeclInfo} {members : List Decl} {wire : Option Decl} {d : Decl}
    (h : (pure (.mk info members wire) : Building Decl) s = some (d, t))
    (hwire : ∀ t w, info.encoding.kind = .transformed t → wire ≠ some w)
    (hunion : ∀ tag internal record, info.encoding.kind = .union tag internal →
      info.shape ≠ some (.record record .union)) : Accepts g around s t info members wire d := by
  obtain ⟨rfl, rfl⟩ := pure_inv h
  refine ⟨.refl _ _, rfl, fun _ hs hm => ⟨hs, info.sharedFields, rfl, ?_, ?_⟩⟩
  · exact fun t w hk hw => (hwire t w hk hw).elim
  · intro tag internal hk
    obtain ⟨record, found, hshape, -⟩ := hm .union (by rw [hk]; rfl)
    exact (hunion tag internal record hk hshape).elim

/-- A union that is not left out has passed the check of its variants. -/
theorem accepts_of_union {number shared : Nat} {name record tag : String} {type : TypeExpr}
    {kind : RecordKind} {extents : List Nat} {internal : Bool} {dflt : Option Fragment}
    {id : Option Int} {members : List Decl} {wire : Option Decl} {d : Decl}
    (h : checked g (.mk ⟨number, name, type, some (.record record kind), extents,
      ⟨.union tag internal, dflt, id⟩, shared⟩ members wire) s = some (d, t)) :
    Accepts g around s t ⟨number, name, type, some (.record record kind), extents,
      ⟨.union tag internal, dflt, id⟩, shared⟩ members wire d := by
  obtain ⟨outcome, u, hv, hp⟩ := bind_inv h
  obtain ⟨hg, hr, hok⟩ := checkedVariants_run around hv
  have hu : u = t := by
    cases outcome <;> exact (pure_inv hp).2.symm
  subst hu
  refine ⟨hg, hr, fun he hs hm => ?_⟩
  obtain ⟨record', found, hshape, hfound, hkind, hlookup⟩ := hm .union rfl
  simp only [Option.some.injEq, ElementShape.record.injEq] at hshape
  obtain ⟨rfl, rfl⟩ := hshape
  obtain ⟨ht, n, rfl, hn⟩ := hok he hs hlookup
  obtain ⟨rfl, -⟩ := pure_inv hp
  refine ⟨ht, n, rfl, fun t w hk => (nomatch hk), fun tag' internal' hk => ?_⟩
  cases hk
  exact ⟨record, rfl, hn⟩

/-- A new declaration that is not left out has passed its check. -/
theorem checked_run (around : List String) {info : DeclInfo} {members : List Decl}
    {wire : Option Decl} {d : Decl} (h : checked g (.mk info members wire) s = some (d, t)) :
    Accepts g around s t info members wire d := by
  obtain ⟨number, name, type, shape, extents, ⟨kind, dflt, id⟩, shared⟩ := info
  cases kind with
  | transformed tr =>
    cases wire with
    | none => exact accepts_of_pure h (by simp) (by simp)
    | some w =>
      obtain ⟨hg, hr, hok⟩ := unlessFault_run around h
      refine ⟨hg, hr, fun he hs hm => ?_⟩
      obtain ⟨rfl, rfl, hnone⟩ := hok he
      refine ⟨hs, shared, rfl, fun t' w' _ hw => ?_, fun tag internal hk => nomatch hk⟩
      cases hw
      exact hnone
  | union tag internal =>
    cases shape with
    | none => exact accepts_of_pure h (by simp) (by simp)
    | some shape =>
      cases shape with
      | record record kind => exact accepts_of_union h
      | _ => exact accepts_of_pure h (by simp) (by simp)
  | _ => exact accepts_of_pure h (by simp) (by simp)

/-! ## declarations -/

/-- The resolution of a declaration, or what is left of it after an error. -/
def resolution (c : Config) (g : Registry) (type : TypeExpr) (own : Option Request) :
    Building Resolution :=
  match c.resolve g own type with
  | .ok r => pure r
  | .error e => do
    report (.unresolved e)
    return ⟨.dropped, [], none⟩

/-- The members of a declaration of a kind and a shape. -/
def membersFor (membersOf : String → Building (List Decl)) (kind : Kind)
    (shape : Option ElementShape) : Building (List Decl) :=
  match kind, shape with
  | .struct, some (.record record _) => membersOf record
  | .union _ _, some (.record record _) => membersOf record
  | _, _ => pure []

/-- The value on the wire of a declaration of a kind. -/
def wireFor (build : TypeExpr → Building Decl) (kind : Kind) : Building (Option Decl) :=
  match kind with
  | .transformed t => some <$> build t.wire
  | _ => pure none

/-- A new declaration without what stands below it. -/
def infoOf (name : String) (type : TypeExpr) (r : Resolution) (number : Nat) : DeclInfo :=
  ⟨number, name, (r.elem.map Element.type).getD type, r.elem.map Element.shape, r.extents,
    r.encoding, 0⟩

/-- Building takes four steps and a check. -/
theorem build_succ (c : Config) (g : Registry) (membersOf : String → Building (List Decl))
    (budget : Nat) (name : String) (type : TypeExpr) (own : Option Request) :
    build c g membersOf (budget + 1) name type own = (do
      let r ← resolution c g type own
      let members ← membersFor membersOf r.encoding.kind (r.elem.map Element.shape)
      let wire ← wireFor (fun t => build c g membersOf budget name t none) r.encoding.kind
      let d ← declare (infoOf name type r) members wire
      checked g d) := by
  rw [build, resolution]
  cases c.resolve g own type with
  | ok r =>
    obtain ⟨⟨kind, dflt, id⟩, extents, elem⟩ := r
    cases elem with
    | none => cases kind <;> rfl
    | some e =>
      obtain ⟨type', aliases, shape⟩ := e
      cases shape <;> cases kind <;> rfl
  | error e => rfl

/-- A declaration that is not left out is settled as it was asked for. -/
theorem resolution_run (around : List String) {type : TypeExpr} {own : Option Request}
    {r : Resolution} (h : resolution c g type own s = some (r, t)) :
    s.Grows around t ∧ (t.errors = [] → t = s ∧ c.resolve g own type = .ok r) := by
  unfold resolution at h
  cases hr : c.resolve g own type with
  | ok r' =>
    simp only [hr] at h
    obtain ⟨rfl, rfl⟩ := pure_inv h
    exact ⟨.refl _ _, fun _ => ⟨rfl, rfl⟩⟩
  | error e =>
    simp only [hr] at h
    obtain ⟨u, m, hrep, hp⟩ := bind_inv h
    obtain ⟨-, rfl⟩ := pure_inv hp
    obtain ⟨hg, hne⟩ := report_run around hrep
    exact ⟨hg, fun he => absurd he hne⟩

/-- What taking a record apart leads to: its members are those known of it afterwards. -/
def TakesApart (g : Registry) (around : List String) (membersOf : String → Building (List Decl)) :
    Prop :=
  ∀ record s members t, membersOf record s = some (members, t) → s.Grows around t ∧
    (t.errors = [] → s.Sound g → t.Sound g ∧
      ∀ found, g.record? record = some found → t.records.lookup record = some members)

/-- The members of a declaration are those of a record, or there are none. -/
theorem membersFor_eq (membersOf : String → Building (List Decl)) (kind : Kind)
    (shape : Option ElementShape) :
    (∃ record, membersFor membersOf kind shape = membersOf record) ∨
      membersFor membersOf kind shape = pure [] := by
  unfold membersFor
  split
  · exact .inl ⟨_, rfl⟩
  · exact .inl ⟨_, rfl⟩
  · exact .inr rfl

/-- Looking for members is growth. -/
theorem membersFor_grows {membersOf : String → Building (List Decl)} {kind : Kind}
    {shape : Option ElementShape} {members : List Decl} (hm : TakesApart g around membersOf)
    (h : membersFor membersOf kind shape s = some (members, t)) : s.Grows around t := by
  rcases membersFor_eq membersOf kind shape with ⟨record, heq⟩ | heq
  · rw [heq] at h
    exact (hm record s members t h).1
  · rw [heq] at h
    obtain ⟨-, rfl⟩ := pure_inv h
    exact .refl _ _

/-- The members of a declaration are those of its record, if it travels as one. -/
theorem membersFor_run {membersOf : String → Building (List Decl)} {type : TypeExpr}
    {own : Option Request} {r : Resolution} {members : List Decl}
    (hm : TakesApart g around membersOf) (hr : c.resolve g own type = .ok r)
    (h : membersFor membersOf r.encoding.kind (r.elem.map Element.shape) s = some (members, t))
    (he : t.errors = []) (hs : s.Sound g) :
    t.Sound g ∧ (r.encoding.kind.isLeaf = true → members = []) ∧
      ∀ name number, HasMembers g t (infoOf name type r number) members := by
  cases hk : Config.travelsAs r.encoding.kind with
  | none =>
    have hrun : membersFor membersOf r.encoding.kind (r.elem.map Element.shape) = pure [] := by
      unfold Config.travelsAs at hk
      unfold membersFor
      split at hk <;> simp_all
    rw [hrun] at h
    obtain ⟨rfl, rfl⟩ := pure_inv h
    refine ⟨hs, fun _ => rfl, fun name number kind hkind => ?_⟩
    rw [show (infoOf name type r number).encoding = r.encoding from rfl, hk] at hkind
    cases hkind
  | some kind =>
    obtain ⟨record, found, hshape, hfound, hkind⟩ := Config.record_of_resolve hr hk
    have hrun : membersFor membersOf r.encoding.kind (r.elem.map Element.shape) =
        membersOf record := by
      unfold Config.travelsAs at hk
      unfold membersFor
      rw [hshape]
      split at hk <;> simp_all
    rw [hrun] at h
    obtain ⟨ht, hlookup⟩ := (hm record s members t h).2 he hs
    refine ⟨ht, fun hleaf => ?_, fun name number kind' hkind' => ?_⟩
    · unfold Config.travelsAs at hk
      split at hk <;> simp_all [Kind.isLeaf]
    · rw [show (infoOf name type r number).encoding = r.encoding from rfl, hk] at hkind'
      cases hkind'
      exact ⟨record, found, hshape, hfound, hkind, hlookup found hfound⟩

/-- A run that makes declarations: without errors they have new numbers, and everything in them is
sound. -/
structure Makes (g : Registry) (around : List String) (s t : Findings) (ds : List Decl) : Prop where
  grows : s.Grows around t
  made : t.errors = [] → s.Sound g → t.Sound g ∧ t.Known g ds ∧ ∀ d ∈ ds, s.size ≤ d.number

/-- The value on the wire is made if, and only if, the declaration is transformed. -/
theorem wireFor_run {make : TypeExpr → Building Decl} {kind : Kind} {wire : Option Decl}
    (hmake : ∀ type s d t, make type s = some (d, t) → Makes g around s t [d])
    (h : wireFor make kind s = some (wire, t)) :
    (∃ tr w, kind = .transformed tr ∧ wire = some w ∧ Makes g around s t [w]) ∨
      ((∀ tr, kind ≠ .transformed tr) ∧ wire = none ∧ t = s) := by
  cases kind with
  | transformed tr =>
    obtain ⟨w, hw, rfl⟩ := map_inv h
    exact .inl ⟨tr, w, rfl, rfl, hmake tr.wire s w t hw⟩
  | _ =>
    obtain ⟨rfl, rfl⟩ := pure_inv h
    exact .inr ⟨fun tr hk => (nomatch hk), rfl, rfl⟩

/-- The members of a new declaration are known. -/
theorem HasMembers.known {info : DeclInfo} {members : List Decl} (hm : HasMembers g s info members)
    (hs : s.Sound g) (hleaf : info.encoding.kind.isLeaf = true → members = []) :
    s.Known g members := by
  cases hk : Config.travelsAs info.encoding.kind with
  | none =>
    rw [hleaf (by unfold Config.travelsAs at hk; split at hk <;> simp_all [Kind.isLeaf])]
    have hnil : ∀ d, d ∉ ([] : List Decl) := fun _ => List.not_mem_nil
    exact ⟨List.nodup_nil, fun d hd => absurd hd (hnil d), fun d hd => absurd hd (hnil d)⟩
  | some kind =>
    obtain ⟨record, found, -, -, -, hlookup⟩ := hm kind hk
    exact (hs.records record members hlookup).known

/-- A declaration that has passed is sound if what stands below it is known. -/
theorem sound_of_passed {info : DeclInfo} {members : List Decl} {wire : Option Decl} {n : Nat}
    (hs : s.Sound g) (hm : HasMembers g s info members)
    (hleaf : info.encoding.kind.isLeaf = true → members = [])
    (hwired : ∀ tr, info.encoding.kind = .transformed tr → wire.isSome)
    (hunwired : (∀ tr, info.encoding.kind ≠ .transformed tr) → wire = none)
    (hroom : ∀ length, info.encoding.kind = .text length true → 0 < length)
    (hlt : ∀ w, wire = some w → w.number < info.number) (hsize : s.size ≤ info.number)
    (hp : Passed g info members wire n) :
    Decl.Sound g s.records (.mk { info with sharedFields := n } members wire) := by
  have known := hm.known hs hleaf
  refine ⟨known.nodup, fun m hmem => ?_, hlt, hleaf, fun tr hk => ?_, hunwired, hroom,
    fun hk => ?_, fun tag internal hk => ?_⟩
  · exact Nat.lt_of_lt_of_le (known.lt m hmem) hsize
  · obtain ⟨w, hw⟩ := Option.isSome_iff_exists.1 (hwired tr hk)
    exact ⟨w, hw, hp.wire tr w hk hw⟩
  · obtain ⟨record, found, hshape, hfound, hkind, hlookup⟩ :=
      hm .struct (by rw [show info.encoding.kind = .struct from hk]; rfl)
    obtain ⟨r, hr, htags⟩ := (hs.records record members hlookup).tags
    rw [hfound, Option.some.injEq] at hr
    subst hr
    rw [hkind] at htags
    exact ⟨⟨record, hshape, hlookup⟩, htags⟩
  · obtain ⟨record, found, hshape, hfound, hkind, hlookup⟩ :=
      hm .union (by rw [show info.encoding.kind = .union tag internal from hk]; rfl)
    obtain ⟨r, hr, htags⟩ := (hs.records record members hlookup).tags
    rw [hfound, Option.some.injEq] at hr
    subst hr
    rw [hkind] at htags
    obtain ⟨record', hshape', hok⟩ := hp.variants tag internal hk
    rw [hshape, Option.some.injEq, ElementShape.record.injEq] at hshape'
    obtain ⟨rfl, -⟩ := hshape'
    constructor
    · exact ⟨record, hshape, hlookup, hok⟩
    · intro m hmem
      obtain ⟨k, hk'⟩ := List.mem_iff_getElem?.1 hmem
      have hfault := htags k m hk'
      -- Any union with an external tag among variants would have been a fault.
      unfold Decl.isExternal
      split
      · next tag' hext => simp [Decl.tagFault?, hext] at hfault
      · rfl

/-- Making a declaration makes everything below it first. -/
theorem build_run {membersOf : String → Building (List Decl)}
    (hm : TakesApart g around membersOf) {budget : Nat} {name : String} {type : TypeExpr}
    {own : Option Request} {s t : Findings} {d : Decl}
    (h : build c g membersOf budget name type own s = some (d, t)) : Makes g around s t [d] := by
  induction budget generalizing name type own s t d with
  | zero => cases h
  | succ budget ih =>
    rw [build_succ] at h
    obtain ⟨r, s₁, hr, h⟩ := bind_inv h
    obtain ⟨members, s₂, hmem, h⟩ := bind_inv h
    obtain ⟨wire, s₃, hwire, h⟩ := bind_inv h
    obtain ⟨d₀, s₄, hd, h⟩ := bind_inv h
    obtain ⟨rfl, rfl⟩ := declare_run hd
    obtain ⟨hg₁, hok₁⟩ := resolution_run around hr
    have hg₂ := membersFor_grows hm hmem
    obtain ⟨hg₄, hrec, hpass⟩ := checked_run around h
    change t.records = s₃.records at hrec
    have hw := wireFor_run (fun type s d t h => ih h) hwire
    have hg₃ : s₂.Grows around s₃ := by
      rcases hw with ⟨tr, w, -, -, hmakes⟩ | ⟨-, -, rfl⟩
      · exact hmakes.grows
      · exact .refl _ _
    have hgd : s₃.Grows around { s₃ with size := s₃.size + 1 } := grows_size
    constructor
    · exact hg₁.trans (hg₂.trans (hg₃.trans (hgd.trans hg₄)))
    · intro he hs
      have he₃ : s₃.errors = [] := (hgd.trans hg₄).errors_eq_nil he
      have he₂ := hg₃.errors_eq_nil he₃
      obtain ⟨rfl, hres⟩ := hok₁ (hg₂.errors_eq_nil he₂)
      obtain ⟨hs₂, hleaf, hmembers⟩ := membersFor_run hm hres hmem he₂ hs
      have hs₃ : s₃.Sound g := by
        rcases hw with ⟨tr, w, -, -, hmakes⟩ | ⟨-, -, rfl⟩
        · exact (hmakes.made he₃ hs₂).1
        · exact hs₂
      have hs₄ : Findings.Sound g { s₃ with size := s₃.size + 1 } := hs₃.of_same hgd rfl rfl
      have hm₃ : HasMembers g s₃ (infoOf name type r s₃.size) members := by
        intro kind hkind
        obtain ⟨record, found, hshape, hfound, hk, hlookup⟩ := hmembers name s₃.size kind hkind
        exact ⟨record, found, hshape, hfound, hk, hg₃.kept _ _ hlookup⟩
      obtain ⟨ht, n, rfl, hpassed⟩ := hpass he hs₄ hm₃
      refine ⟨ht, ⟨by simp, fun d hd => ?_, fun d hd => ?_⟩, fun d hd => ?_⟩ <;>
        obtain rfl := List.mem_singleton.1 hd
      · exact hg₄.size
      · refine .intro ?_ (fun m hmem' => ?_) (fun w hw' => ?_)
        · rw [hrec]
          refine sound_of_passed hs₃ hm₃ hleaf (fun tr hk => ?_) (fun hk => ?_)
            (fun _ hk => Config.room_of_resolve hres hk) (fun w hw' => ?_) (Nat.le_refl _) hpassed
          · rcases hw with ⟨tr, w, -, rfl, -⟩ | ⟨hne, -, -⟩
            · rfl
            · exact (hne tr hk).elim
          · rcases hw with ⟨tr, w, hk', -, -⟩ | ⟨-, rfl, -⟩
            · exact (hk tr hk').elim
            · rfl
          · rcases hw with ⟨tr, w', -, rfl, hmakes⟩ | ⟨-, rfl, -⟩
            · cases hw'
              exact (hmakes.made he₃ hs₂).2.1.lt w (List.mem_singleton_self w)
            · cases hw'
        · rw [hrec]
          exact (hm₃.known hs₃ hleaf).sound m hmem'
        · rw [hrec]
          rcases hw with ⟨tr, w', -, rfl, hmakes⟩ | ⟨-, rfl, -⟩
          · cases hw'
            exact (hmakes.made he₃ hs₂).2.1.sound w (List.mem_singleton_self w)
          · cases hw'
      · exact (hg₂.trans hg₃).size

/-! ## runs over lists -/

/-- Making nothing. -/
theorem Makes.nil (g : Registry) (around : List String) (s : Findings) : Makes g around s s [] :=
  ⟨.refl _ _, fun _ hs => ⟨hs, ⟨List.nodup_nil, fun _ hd => (nomatch hd), fun _ hd => (nomatch hd)⟩,
    fun _ hd => (nomatch hd)⟩⟩

/-- Making some declarations and then others. -/
theorem Makes.append {u : Findings} {ds es : List Decl} (h : Makes g around s t ds)
    (h' : Makes g around t u es) : Makes g around s u (ds ++ es) := by
  constructor
  · exact h.grows.trans h'.grows
  · intro he hs
    obtain ⟨ht, hds, hds'⟩ := h.made (h'.grows.errors_eq_nil he) hs
    obtain ⟨hu, hes, hes'⟩ := h'.made he ht
    have hds := hds.mono h'.grows
    refine ⟨hu, ⟨?_, fun d hd => ?_, fun d hd => ?_⟩, fun d hd => ?_⟩
    · rw [List.map_append]
      refine List.nodup_append.2 ⟨hds.nodup, hes.nodup, fun a ha b hb hab => ?_⟩
      obtain ⟨d, hd, rfl⟩ := List.mem_map.1 ha
      obtain ⟨e, he, rfl⟩ := List.mem_map.1 hb
      have hlt := (h.made (h'.grows.errors_eq_nil ‹_›) hs).2.1.lt d hd
      have hle := hes' e he
      omega
    · exact (List.mem_append.1 hd).elim (hds.lt d) (hes.lt d)
    · exact (List.mem_append.1 hd).elim (hds.sound d) (hes.sound d)
    · refine (List.mem_append.1 hd).elim (hds' d) fun hd => ?_
      exact Nat.le_trans h.grows.size (hes' d hd)

/-- Making the declarations of every entry of a list. -/
theorem mapM_run {f : α → Building β} (view : β → List Decl)
    (hf : ∀ a s b t, f a s = some (b, t) → Makes g around s t (view b)) {xs : List α}
    {bs : List β} {s t : Findings} (h : xs.mapM f s = some (bs, t)) :
    Makes g around s t (bs.flatMap view) := by
  induction xs generalizing bs s with
  | nil =>
    obtain ⟨rfl, rfl⟩ := pure_inv h
    exact .nil _ _ _
  | cons x xs ih =>
    rw [List.mapM_cons] at h
    obtain ⟨b, u, hx, h⟩ := bind_inv h
    obtain ⟨rest, v, hxs, h⟩ := bind_inv h
    obtain ⟨rfl, rfl⟩ := pure_inv h
    exact (hf x s b u hx).append (ih hxs)

/-- Declarations of which none is left out have no fault. -/
theorem mapM_unlessFault_run (around : List String) {f : Decl × Nat → Building Decl}
    (fault : Decl × Nat → Option DeclError)
    (hf : ∀ p, f p = unlessFault p.1 (fault p)) {ps : List (Decl × Nat)} {ds : List Decl}
    {s t : Findings} (h : ps.mapM f s = some (ds, t)) :
    s.Grows around t ∧ t.records = s.records ∧
      (t.errors = [] → t = s ∧ ds = ps.map Prod.fst ∧ ∀ p ∈ ps, fault p = none) := by
  induction ps generalizing ds s with
  | nil =>
    obtain ⟨rfl, rfl⟩ := pure_inv h
    exact ⟨.refl _ _, rfl, fun _ => ⟨rfl, rfl, fun _ hp => (nomatch hp)⟩⟩
  | cons p ps ih =>
    rw [List.mapM_cons] at h
    obtain ⟨d, u, hp, h⟩ := bind_inv h
    obtain ⟨rest, v, hps, h⟩ := bind_inv h
    obtain ⟨rfl, rfl⟩ := pure_inv h
    rw [hf] at hp
    obtain ⟨hg, hr, hok⟩ := unlessFault_run around hp
    obtain ⟨hg', hr', hok'⟩ := ih hps
    refine ⟨hg.trans hg', hr'.trans hr, fun he => ?_⟩
    obtain ⟨rfl, rfl, hall⟩ := hok' he
    obtain ⟨rfl, rfl, hnone⟩ := hok he
    exact ⟨rfl, rfl, List.forall_mem_cons.2 ⟨hnone, hall⟩⟩

/-- Without errors, all tags of the members of a record are found. -/
theorem checkedTags_run (around : List String) {kind : RecordKind} {members checked : List Decl}
    (h : checkedTags kind members s = some (checked, t)) :
    s.Grows around t ∧ t.records = s.records ∧
      (t.errors = [] → t = s ∧ checked = members ∧
        ∀ (k : Nat) (m : Decl), members[k]? = some m → Decl.tagFault? kind members k m = none) := by
  obtain ⟨hg, hr, hok⟩ := mapM_unlessFault_run around
    (fun p => Decl.tagFault? kind members p.2 p.1) (fun _ => rfl) h
  refine ⟨hg, hr, fun he => ?_⟩
  obtain ⟨ht, hmap, hall⟩ := hok he
  refine ⟨ht, by rw [hmap, List.zipIdx_map_fst], fun k m hk => hall (m, k) ?_⟩
  exact List.mk_mem_zipIdx_iff_getElem?.2 hk

/-! ## records and data objects -/

/-- Knowing the members of one more record is growth, unless they were known or it stands around. -/
theorem grows_record {record : String} (members : List Decl)
    (hnone : s.records.lookup record = none) (haround : record ∉ around) :
    s.Grows around { s with records := (record, members) :: s.records } := by
  have other : ∀ name, name ≠ record →
      ((record, members) :: s.records).lookup name = s.records.lookup name := by
    intro name hne
    rw [List.lookup_cons, beq_false_of_ne hne]
  refine ⟨Nat.le_refl _, List.prefix_refl _, fun name ms hn => ?_, fun name hn => ?_⟩
  · refine (other name fun heq => ?_).trans hn
    rw [heq, hnone] at hn
    cases hn
  · exact other name fun heq => haround (heq ▸ hn)

/-- Known members of a declared record whose tags are found may be remembered. -/
theorem sound_record {record : String} {found : Record} {members : List Decl} (hs : s.Sound g)
    (hg : s.Grows around { s with records := (record, members) :: s.records })
    (hfound : g.record? record = some found) (hm : s.Known g members)
    (htags : ∀ (k : Nat) (m : Decl), members[k]? = some m →
      Decl.tagFault? found.kind members k m = none) :
    Findings.Sound g { s with records := (record, members) :: s.records } := by
  refine ⟨fun name ms hn => ?_, fun u outcome hu => ?_⟩
  · rw [List.lookup_cons] at hn
    split at hn
    · next heq =>
      cases hn
      rw [beq_iff_eq] at heq
      subst heq
      exact ⟨hm.mono hg, found, hfound, htags⟩
    · obtain ⟨hknown, htags'⟩ := hs.records name ms hn
      exact ⟨hknown.mono hg, htags'⟩
  · obtain ⟨n, ms, ho, hlookup, hok⟩ := hs.unions u outcome hu
    exact ⟨n, ms, ho, hg.kept _ _ hlookup, hok⟩

/-- Making the declaration of a field of a record. -/
def field (c : Config) (g : Registry) (depth : Nat) (around : List String) (f : Field) :
    Building Decl :=
  build c g (membersOf c g depth around) (wireBudget c g) f.name f.type (some f.request)

/-- A record is known, or stands around, or is not declared, or its fields are made. -/
theorem membersOf_cases {depth : Nat} {record : String} {members : List Decl}
    (h : membersOf c g depth around record s = some (members, t)) :
    (s.records.lookup record = some members ∧ t = s) ∨
      (record ∈ around ∧ members = [] ∧ ∃ u, report (.recursive record) s = some (u, t)) ∨
      (g.record? record = none ∧ members = [] ∧ t = s) ∨
      ∃ found rest ds u v, depth = rest + 1 ∧ s.records.lookup record = none ∧ record ∉ around ∧
        g.record? record = some found ∧
        found.fields.mapM (field c g rest (record :: around)) s = some (ds, u) ∧
        checkedTags found.kind ds u = some (members, v) ∧
        t = { v with records := (record, members) :: v.records } := by
  unfold membersOf at h
  obtain ⟨now, m, hget, h⟩ := bind_inv h
  cases hget
  cases hlookup : s.records.lookup record with
  | some known =>
    simp only [hlookup] at h
    obtain ⟨rfl, rfl⟩ := pure_inv h
    exact .inl ⟨rfl, rfl⟩
  | none =>
    simp only [hlookup] at h
    by_cases haround : around.contains record = true
    · rw [if_pos haround] at h
      obtain ⟨u, m, hr, hp⟩ := bind_inv h
      obtain ⟨rfl, rfl⟩ := pure_inv hp
      exact .inr (.inl ⟨by simpa using haround, rfl, u, hr⟩)
    · rw [if_neg haround] at h
      cases hfound : g.record? record with
      | none =>
        simp only [hfound] at h
        obtain ⟨rfl, rfl⟩ := pure_inv h
        exact .inr (.inr (.inl ⟨rfl, rfl, rfl⟩))
      | some found =>
        simp only [hfound] at h
        cases depth with
        | zero => cases h
        | succ rest =>
          obtain ⟨ds, u, hds, h⟩ := bind_inv h
          obtain ⟨ms, v, hms, h⟩ := bind_inv h
          cases h
          exact .inr (.inr (.inr ⟨found, rest, ds, u, v, rfl, rfl, by simpa using haround, rfl,
            hds, hms, rfl⟩))

/-- Taking a record apart makes its members, unless they are known. -/
theorem membersOf_run (c : Config) (g : Registry) (depth : Nat) (around : List String) :
    TakesApart g around (membersOf c g depth around) := by
  induction depth using Nat.strongRecOn generalizing around with
  | ind depth ih =>
  intro record s members t h
  rcases membersOf_cases h with ⟨hlookup, rfl⟩ | ⟨-, -, u, hr⟩ | ⟨hnone, -, rfl⟩ |
    ⟨found, rest, ds, u, v, rfl, hlookup, haround, hfound, hds, hms, rfl⟩
  · exact ⟨.refl _ _, fun _ hs => ⟨hs, fun _ _ => hlookup⟩⟩
  · obtain ⟨hg, hne⟩ := report_run around hr
    exact ⟨hg, fun he => absurd he hne⟩
  · refine ⟨.refl _ _, fun _ hs => ⟨hs, fun found hfound => ?_⟩⟩
    rw [hnone] at hfound
    cases hfound
  · obtain ⟨hg, hmade⟩ := mapM_run (g := g) ([·])
      (fun f s d t hf => build_run (ih rest (Nat.lt_succ_self _) (record :: around)) hf) hds
    obtain ⟨hg', hr, hok⟩ := checkedTags_run (record :: around) hms
    -- The record itself stands around while its fields are made, so it is still not known.
    have hnone : v.records.lookup record = none := by
      rw [hr, hg.around record List.mem_cons_self, hlookup]
    have hrec := grows_record members hnone haround
    constructor
    · exact (hg.weaken.trans hg'.weaken).trans hrec
    · intro he hs
      obtain ⟨rfl, rfl, htags⟩ := hok (hrec.errors_eq_nil he)
      obtain ⟨hv, hknown, -⟩ := hmade (hrec.errors_eq_nil he) hs
      rw [List.flatMap_singleton'] at hknown
      constructor
      · exact sound_record hv hrec hfound hknown htags
      · intro _ _
        simp

/-- A data object is left out if it needs a tag from outside. -/
theorem object_eq (c : Config) (g : Registry) (o : DataObject) :
    object c g o = (do
      let d ← build c g (membersOf c g g.records.length []) (wireBudget c g) o.name o.type none
      unlessFault d (if d.isExternal then some .outsideStruct else none)) := by
  unfold object
  refine bind_congr fun d => ?_
  unfold Decl.isExternal
  cases d.kind with
  | union tag internal => cases internal <;> rfl
  | _ => rfl

/-- Making a data object; without errors it needs no tag from outside. -/
theorem object_run {o : DataObject} {d : Decl} (h : object c g o s = some (d, t)) :
    Makes g [] s t [d] ∧ (t.errors = [] → d.isExternal = false) := by
  rw [object_eq] at h
  obtain ⟨d', u, hd, h⟩ := bind_inv h
  have hmakes := build_run (membersOf_run c g g.records.length []) hd
  obtain ⟨hg, -, hok⟩ := unlessFault_run [] h
  refine ⟨⟨hmakes.grows.trans hg, fun he => ?_⟩, fun he => ?_⟩
  · obtain ⟨rfl, rfl, -⟩ := hok he
    exact hmakes.made he
  · obtain ⟨-, rfl, hnone⟩ := hok he
    cases hext : d.isExternal with
    | false => rfl
    | true =>
      rw [hext] at hnone
      cases hnone

/-- A property of results that holds of each result of a run without errors holds of all results of
a list of runs. -/
theorem mapM_forall {f : α → Building β} (view : β → List Decl) {P : Decl → Prop}
    (hf : ∀ a s b t, f a s = some (b, t) →
      Makes g [] s t (view b) ∧ (t.errors = [] → ∀ d ∈ view b, P d))
    {xs : List α} {bs : List β} {s t : Findings} (h : xs.mapM f s = some (bs, t))
    (he : t.errors = []) : ∀ d ∈ bs.flatMap view, P d := by
  induction xs generalizing bs s with
  | nil =>
    obtain ⟨rfl, rfl⟩ := pure_inv h
    exact fun _ hd => (nomatch hd)
  | cons x xs ih =>
    rw [List.mapM_cons] at h
    obtain ⟨b, u, hx, h⟩ := bind_inv h
    obtain ⟨rest, v, hxs, h⟩ := bind_inv h
    obtain ⟨rfl, rfl⟩ := pure_inv h
    have hu := (mapM_run view (fun a s b t h => (hf a s b t h).1) hxs).grows.errors_eq_nil he
    intro d hd
    cases List.mem_append.1 hd with
    | inl hd => exact (hf x s b u hx).2 hu d hd
    | inr hd => exact ih hxs d hd

end Building

/-- What has been found in the end: without errors it is sound, and so are the data objects. -/
theorem Model.found_of_build {c : Config} {g : Registry} {m : Model} (h : Model.build c g = some m)
    (he : m.errors = []) : ∃ found : Findings, found.records = m.records ∧ found.Sound g ∧
      found.Known g m.roots ∧ ∀ d ∈ m.roots, d.isExternal = false := by
  unfold Model.build at h
  obtain ⟨⟨groups, found⟩, hrun, rfl⟩ := Option.map_eq_some_iff.1 h
  have hgroup : ∀ (os : List DataObject) s ds t, os.mapM (Building.object c g) s = some (ds, t) →
      Building.Makes g [] s t ds ∧ (t.errors = [] → ∀ d ∈ ds, d.isExternal = false) := by
    intro os s ds t hos
    have hone : ∀ o s d t, Building.object c g o s = some (d, t) →
        Building.Makes g [] s t [d] ∧ (t.errors = [] → ∀ e ∈ [d], e.isExternal = false) :=
      fun o s d t ho => ⟨(Building.object_run ho).1,
        fun he e hmem => List.mem_singleton.1 hmem ▸ (Building.object_run ho).2 he⟩
    have hmakes := Building.mapM_run ([·]) (fun o s d t ho => (hone o s d t ho).1) hos
    have htags := Building.mapM_forall ([·]) hone hos
    rw [List.flatMap_singleton'] at hmakes htags
    exact ⟨hmakes, htags⟩
  have hmakes := Building.mapM_run id (fun os s ds t hos => (hgroup os s ds t hos).1) hrun
  have htags := Building.mapM_forall id hgroup hrun he
  rw [List.flatMap_id] at hmakes htags
  have hempty : Findings.Sound g ⟨0, [], [], []⟩ :=
    ⟨fun _ _ hn => (nomatch hn), fun _ _ hu => (nomatch hu)⟩
  obtain ⟨hsound, hknown, -⟩ := hmakes.made he hempty
  exact ⟨found, rfl, hsound, hknown, htags⟩

/-- **Soundness of building**: in a model without errors, everything is sound. -/
theorem Model.sound_of_build {c : Config} {g : Registry} {m : Model} (h : Model.build c g = some m)
    (he : m.errors = []) : m.Sound g := by
  obtain ⟨found, hrecords, -, hknown, htags⟩ := Model.found_of_build h he
  exact ⟨hknown.nodup, hrecords ▸ hknown.sound, htags⟩

/-- In a model without errors, all members of all records are sound. -/
theorem Model.sound_of_record {c : Config} {g : Registry} {m : Model}
    (h : Model.build c g = some m) (he : m.errors = []) {record : String} {members : List Decl}
    (hlookup : m.records.lookup record = some members) :
    ∀ d ∈ members, d.Everywhere (Decl.Sound g m.records) := by
  obtain ⟨found, hrecords, hsound, -⟩ := Model.found_of_build h he
  rw [← hrecords] at hlookup ⊢
  exact (hsound.records record members hlookup).known.sound

/-- In a model without errors, nothing is wrong with the tags of the members of records. -/
theorem Model.tags_of_record {c : Config} {g : Registry} {m : Model}
    (h : Model.build c g = some m) (he : m.errors = []) {record : String} {members : List Decl}
    (hlookup : m.records.lookup record = some members) : ∃ parent, ∀ (k : Nat) (e : Decl),
      members[k]? = some e → Decl.tagFault? parent members k e = none := by
  obtain ⟨found, hrecords, hsound, -⟩ := Model.found_of_build h he
  rw [← hrecords] at hlookup
  obtain ⟨r, -, htags⟩ := (hsound.records record members hlookup).tags
  exact ⟨r.kind, htags⟩

/-- A declaration of a model: it is a data object, a member of a known record, or stands below
one. -/
def Model.Declares (m : Model) (e : Decl) : Prop :=
  (∃ d ∈ m.roots, e.Below d) ∨
    ∃ record members, m.records.lookup record = some members ∧ ∃ d ∈ members, e.Below d

/-- What stands below a declaration of a model is one, too. -/
theorem Model.Declares.below {m : Model} {d e : Decl} (h : m.Declares d) (he : e.Below d) :
    m.Declares e := by
  rcases h with ⟨r, hr, hd⟩ | ⟨record, members, hlookup, r, hr, hd⟩
  · exact .inl ⟨r, hr, he.trans hd⟩
  · exact .inr ⟨record, members, hlookup, r, hr, he.trans hd⟩

/-- All declarations of a model without errors are sound. -/
theorem Model.Declares.sound {c : Config} {g : Registry} {m : Model}
    (hbuild : Model.build c g = some m) (herrors : m.errors = []) {e : Decl} (h : m.Declares e) :
    e.Everywhere (Decl.Sound g m.records) := by
  obtain ⟨d, hd, hbelow⟩ | ⟨record, members, hlookup, d, hd, hbelow⟩ := h
  · exact ((Model.sound_of_build hbuild herrors).roots d hd).below hbelow
  · exact (Model.sound_of_record hbuild herrors hlookup d hd).below hbelow

/-! ## a small layout -/

namespace Sample

/-- A request for some bits, and nothing else. -/
def bits (count : Nat) : Request := { Request.empty with form := some (.integer (some count) none) }

/-- A union of a struct and a byte, and a struct that selects between them. -/
def registry : Registry where
  records := [
    ⟨"Body", .union, [⟨"a", .name "A", { Request.empty with variantId := some 0 }⟩,
      ⟨"b", .name "u8", { Request.empty with variantId := some 1 }⟩], Request.empty, false⟩,
    ⟨"A", .struct, [⟨"x", .name "u8", Request.empty⟩, ⟨"y", .name "u16", Request.empty⟩],
      Request.empty, false⟩,
    ⟨"S", .struct, [⟨"kind", .name "u8", bits 2⟩,
      ⟨"body", .name "Body", { Request.empty with form := some (.tagged "kind" false) }⟩],
      Request.empty, false⟩]
  aliases := []

/-- Two data objects, each in a group of its own. -/
def config : Config where
  sectorCount := 8
  sectorSize := 2
  readName := "r"
  saveName := "s"
  stream := .name "u8"
  groups := [[⟨"obj", .name "S"⟩], [⟨"count", .name "u8"⟩]]
  boolTypes := []
  readFns := .named "read"
  writeFns := .named "write"
  presets := []
  structFunctions := false
  inlineThreshold := 1
  listed := []

/-- The layout is built without errors. -/
theorem built : (Model.build config registry).map (·.errors) = some [] := by decide +kernel

end Sample

end BitLayout
