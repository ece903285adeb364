import BitLayout.Proofs.Decl.Chains
import Mathlib.Data.List.Forall2

/-!
# BitLayout.Proofs.Decl.Origin

Where declarations come from. Each is made for something that is declared in the module: a data
object, a field of a record, or a type on the wire. It *answers* what is asked there, if it has the
name that is given to it, and its type, extents and encoding are those that the type and the request
settle. A declaration is *faithful* if everything about it is asked for:

* it answers something that is asked for under its name;
* its members answer the fields of its record, one by one and in their order;
* its value on the wire answers the type on the wire.

Main statement: `Model.Declares.faithful`, that without errors all declarations are faithful.
-/

namespace BitLayout

/-! ## answers -/

namespace Config

/-- What is asked for, with its name: a data object, a field of a record that is met, and what
either becomes on the wire, which has no name of its own. -/
inductive Asks (c : Config) (g : Registry) : String → Option Request → TypeExpr → Prop where
  | object {o : DataObject} (h : o ∈ c.objects) : Asks c g o.name none o.type
  | field {record : String} {found : Record} {f : Field} (h : c.Meets g record)
    (hfound : g.record? record = some found) (hf : f ∈ found.fields) :
    Asks c g f.name (some f.request) f.type
  | wire {name : String} {own : Option Request} {type w : TypeExpr} (h : Asks c g name own type)
    (hw : c.Becomes g own type w) : Asks c g name none w

/-- What is asked for is declared. -/
theorem Asks.declared {c : Config} {g : Registry} {name : String} {own : Option Request}
    {type : TypeExpr} (h : c.Asks g name own type) : c.Declared g own type := by
  induction h with
  | object h => exact .object h
  | field h hfound hf =>
    obtain ⟨_, _, _, hdecl, hr, hrecord⟩ := h
    exact .field hdecl hr hrecord hfound hf
  | wire _ hw ih => exact .wire ih hw

end Config

namespace Decl

/-- A declaration of a name and a type is as they are settled. -/
structure SettledAs (name : String) (type : TypeExpr) (r : Resolution) (d : Decl) : Prop where
  name : d.name = name
  type : d.type = (r.elem.map Element.type).getD type
  shape : d.shape = r.elem.map Element.shape
  extents : d.extents = r.extents
  encoding : d.encoding = r.encoding

/-- A declaration answers what is asked under a name: it is settled by a type and a request. -/
def Answers (c : Config) (g : Registry) (name : String) (type : TypeExpr) (own : Option Request)
    (d : Decl) : Prop :=
  ∃ r, c.resolve g own type = .ok r ∧ d.SettledAs name type r

/-- A declaration answers a field of a record. -/
def AnswersField (c : Config) (g : Registry) (f : Field) (d : Decl) : Prop :=
  d.Answers c g f.name f.type (some f.request)

/-- Everything about a declaration is asked for. -/
structure Faithful (c : Config) (g : Registry) (d : Decl) : Prop where
  asked : ∃ type own, c.Asks g d.name own type ∧ d.Answers c g d.name type own
  members : ∀ kind, Config.travelsAs d.kind = some kind → ∃ record found,
    d.shape = some (.record record kind) ∧ g.record? record = some found ∧
      List.Forall₂ (AnswersField c g) found.fields d.members
  wire : ∀ t w, d.kind = .transformed t → d.wire = some w → w.Answers c g d.name t.wire none

end Decl

namespace Findings

/-- The members of a record answer its fields, and are faithful. -/
structure RecordFaithful (c : Config) (g : Registry) (name : String) (members : List Decl) :
    Prop where
  fields : ∃ found, g.record? name = some found ∧
    List.Forall₂ (Decl.AnswersField c g) found.fields members
  everywhere : ∀ d ∈ members, d.Everywhere (Decl.Faithful c g)

/-- The members of all records that are known are faithful. -/
def Faithful (c : Config) (g : Registry) (s : Findings) : Prop :=
  ∀ name members, s.records.lookup name = some members → RecordFaithful c g name members

/-- Everything found so far is sound and faithful. -/
structure Honest (c : Config) (g : Registry) (s : Findings) : Prop where
  sound : s.Sound g
  faithful : s.Faithful c g

theorem Faithful.of_records {c : Config} {g : Registry} {s t : Findings} (h : s.Faithful c g)
    (hr : t.records = s.records) : t.Faithful c g :=
  fun name members hn => h name members (hr ▸ hn)

end Findings

namespace Building

variable {α β : Type} {c : Config} {g : Registry} {s t : Findings} {around : List String}

/-! ## one declaration -/

/-- Making a declaration without errors: how it is settled, the states behind its members and behind
its value on the wire, and what is made. -/
structure Built (c : Config) (g : Registry) (membersOf : String → Building (List Decl))
    (budget : Nat) (name : String) (type : TypeExpr) (own : Option Request)
    (s s₂ s₃ t : Findings) (r : Resolution) (members : List Decl) (wire : Option Decl) (d : Decl) :
    Prop where
  resolved : c.resolve g own type = .ok r
  taken : membersFor membersOf r.encoding.kind (r.elem.map Element.shape) s = some (members, s₂)
  wired : wireFor (fun t => build c g membersOf budget name t none) r.encoding.kind s₂ =
    some (wire, s₃)
  sound : s₂.Sound g
  errors : s₂.errors = [] ∧ s₃.errors = []
  records : t.records = s₃.records
  has : HasMembers g s₃ (infoOf name type r s₃.size) members
  made : ∃ n, d = .mk { infoOf name type r s₃.size with sharedFields := n } members wire

/-- A run without errors makes a declaration from one that is settled. -/
theorem build_inv {membersOf : String → Building (List Decl)} (hm : TakesApart g around membersOf)
    {budget : Nat} {name : String} {type : TypeExpr} {own : Option Request} {d : Decl}
    (h : build c g membersOf (budget + 1) name type own s = some (d, t)) (he : t.errors = [])
    (hs : s.Sound g) :
    ∃ s₂ s₃ r members wire,
      Built c g membersOf budget name type own s s₂ s₃ t r members wire d := by
  rw [build_succ] at h
  obtain ⟨r, s₁, hr, h⟩ := bind_inv h
  obtain ⟨members, s₂, hmem, h⟩ := bind_inv h
  obtain ⟨wire, s₃, hwire, h⟩ := bind_inv h
  obtain ⟨d₀, s₄, hd, h⟩ := bind_inv h
  obtain ⟨rfl, rfl⟩ := declare_run hd
  obtain ⟨-, hok⟩ := resolution_run around hr
  obtain ⟨hg₄, hrec, hpass⟩ := checked_run around h
  have hg₂ := membersFor_grows hm hmem
  have hw := wireFor_run (fun _ _ _ _ h => build_run hm h) hwire
  have hg₃ : s₂.Grows around s₃ := by
    rcases hw with ⟨_, _, -, -, hmakes⟩ | ⟨-, -, rfl⟩
    · exact hmakes.grows
    · exact .refl _ _
  have hgd : s₃.Grows around { s₃ with size := s₃.size + 1 } := grows_size
  have he₃ := (hgd.trans hg₄).errors_eq_nil he
  have he₂ := hg₃.errors_eq_nil he₃
  obtain ⟨rfl, hres⟩ := hok (hg₂.errors_eq_nil he₂)
  obtain ⟨hs₂, -, hmembers⟩ := membersFor_run hm hres hmem he₂ hs
  have hs₃ : s₃.Sound g := by
    rcases hw with ⟨_, _, -, -, hmakes⟩ | ⟨-, -, rfl⟩
    · exact (hmakes.made he₃ hs₂).1
    · exact hs₂
  have has : HasMembers g s₃ (infoOf name type r s₃.size) members := by
    intro kind hkind
    obtain ⟨record, found, hshape, hfound, hk, hlookup⟩ := hmembers name s₃.size kind hkind
    exact ⟨record, found, hshape, hfound, hk, hg₃.kept _ _ hlookup⟩
  obtain ⟨-, n, hmade, -⟩ := hpass he (hs₃.of_same hgd rfl rfl) has
  exact ⟨s₂, s₃, r, members, wire, hres, hmem, hwire, hs₂, ⟨he₂, he₃⟩, hrec, has, n, hmade⟩

/-- Taking a record apart leaves everything faithful, if the record is met. -/
def KeepsFaithful (c : Config) (g : Registry) (membersOf : String → Building (List Decl)) : Prop :=
  ∀ record s members t, c.Meets g record → membersOf record s = some (members, t) →
    t.errors = [] → s.Honest c g → t.Faithful c g

/-- Looking for the members of something that is declared leaves everything faithful. -/
theorem membersFor_faithful {membersOf : String → Building (List Decl)} {own : Option Request}
    {type : TypeExpr} {r : Resolution} {members : List Decl}
    (hf : KeepsFaithful c g membersOf) (hdecl : c.Declared g own type)
    (hr : c.resolve g own type = .ok r)
    (h : membersFor membersOf r.encoding.kind (r.elem.map Element.shape) s = some (members, t))
    (he : t.errors = []) (hs : s.Honest c g) : t.Faithful c g := by
  rw [membersFor_record] at h
  cases hrecord : r.record? with
  | some record =>
    rw [hrecord, Option.elim_some] at h
    exact hf record s members t ⟨own, type, r, hdecl, hr, hrecord⟩ h he hs
  | none =>
    rw [hrecord, Option.elim_none] at h
    obtain ⟨-, rfl⟩ := pure_inv h
    exact hs.faithful

/-- What is built for something that is asked for is faithful, and answers it. -/
theorem build_faithful {membersOf : String → Building (List Decl)}
    (hm : TakesApart g around membersOf) (hf : KeepsFaithful c g membersOf) {budget : Nat}
    {name : String} {type : TypeExpr} {own : Option Request} {s t : Findings} {d : Decl}
    (h : build c g membersOf budget name type own s = some (d, t)) (hasks : c.Asks g name own type)
    (he : t.errors = []) (hs : s.Honest c g) :
    t.Faithful c g ∧ d.Everywhere (Decl.Faithful c g) ∧ d.Answers c g name type own := by
  induction budget generalizing name type own s t d with
  | zero => cases h
  | succ budget ih =>
    obtain ⟨s₂, s₃, r, members, wire, hbuilt⟩ := build_inv hm h he hs.sound
    obtain ⟨n, rfl⟩ := hbuilt.made
    have hf₂ :=
      membersFor_faithful hf hasks.declared hbuilt.resolved hbuilt.taken hbuilt.errors.1 hs
    -- The value on the wire is built from the type on the wire, which is asked for as well.
    have hwire : s₃.Faithful c g ∧ ∀ w, wire = some w → w.Everywhere (Decl.Faithful c g) ∧
        ∀ tr, r.encoding.kind = .transformed tr → w.Answers c g name tr.wire none := by
      have hrun := hbuilt.wired
      rw [wireFor_wire] at hrun
      cases hw : r.wire? with
      | none =>
        rw [hw, Option.elim_none] at hrun
        obtain ⟨rfl, rfl⟩ := pure_inv hrun
        exact ⟨hf₂, fun w hw => (nomatch hw)⟩
      | some target =>
        rw [hw, Option.elim_some] at hrun
        obtain ⟨w, hbuild, rfl⟩ := map_inv hrun
        obtain ⟨hf₃, hall, hanswers⟩ := ih hbuild (.wire hasks ⟨r, hbuilt.resolved, hw⟩)
          hbuilt.errors.2 ⟨hbuilt.sound, hf₂⟩
        refine ⟨hf₃, ?_⟩
        rintro w' ⟨⟩
        refine ⟨hall, fun tr hk => ?_⟩
        obtain ⟨tr', hk', rfl⟩ := Resolution.transformed_of_wire? hw
        rw [hk, Kind.transformed.injEq] at hk'
        exact hk' ▸ hanswers
    obtain ⟨hf₃, hwires⟩ := hwire
    have hanswers : Decl.Answers c g name type own
        (.mk { infoOf name type r s₃.size with sharedFields := n } members wire) :=
      ⟨r, hbuilt.resolved, rfl, rfl, rfl, rfl, rfl⟩
    refine ⟨hf₃.of_records hbuilt.records, .intro ⟨⟨type, own, hasks, hanswers⟩, ?_, ?_⟩ ?_ ?_,
      hanswers⟩
    · intro kind hkind
      obtain ⟨record, found, hshape, hfound, -, hlookup⟩ := hbuilt.has kind hkind
      obtain ⟨found', hfound', hfields⟩ := (hf₃ record members hlookup).fields
      rw [hfound, Option.some.injEq] at hfound'
      subst hfound'
      exact ⟨record, found, hshape, hfound, hfields⟩
    · intro tr w hk hw
      exact (hwires w hw).2 tr hk
    · intro m hmem
      have hsome : (Config.travelsAs r.encoding.kind).isSome = true := by
        have hrun := hbuilt.taken
        rw [membersFor_record] at hrun
        cases hrecord : r.record? with
        | none =>
          rw [hrecord, Option.elim_none] at hrun
          obtain ⟨rfl, -⟩ := pure_inv hrun
          cases hmem
        | some record =>
          unfold Resolution.record? at hrecord
          split at hrecord
          · next hk _ => simp [Config.travelsAs, hk]
          · next hk _ => simp [Config.travelsAs, hk]
          · cases hrecord
      obtain ⟨kind, hkind⟩ := Option.isSome_iff_exists.1 hsome
      obtain ⟨record, found, -, -, -, hlookup⟩ := hbuilt.has kind hkind
      exact (hf₃ record members hlookup).everywhere m hmem
    · exact fun w hw => (hwires w hw).1

/-! ## lists of steps -/

/-- Steps that keep an invariant as long as there are no errors keep it in a row, and what they
return is as each of them makes it. -/
theorem mapM_forall₂ (around : List String) {f : α → Building β} {P : α → β → Prop}
    {I : Findings → Prop} {xs : List α} {bs : List β} {s t : Findings}
    (hgrows : ∀ a s b t, f a s = some (b, t) → s.Grows around t)
    (hstep : ∀ a ∈ xs, ∀ s b t, f a s = some (b, t) → t.errors = [] → I s → I t ∧ P a b)
    (h : xs.mapM f s = some (bs, t)) :
    s.Grows around t ∧ (t.errors = [] → I s → I t ∧ List.Forall₂ P xs bs) := by
  induction xs generalizing bs s with
  | nil =>
    obtain ⟨rfl, rfl⟩ := pure_inv h
    exact ⟨.refl _ _, fun _ hs => ⟨hs, .nil⟩⟩
  | cons x xs ih =>
    rw [List.mapM_cons] at h
    obtain ⟨b, u, hx, h⟩ := bind_inv h
    obtain ⟨rest, v, hxs, h⟩ := bind_inv h
    obtain ⟨rfl, rfl⟩ := pure_inv h
    obtain ⟨hfirst, hstep⟩ := List.forall_mem_cons.1 hstep
    obtain ⟨hg, hrest⟩ := ih hstep hxs
    refine ⟨(hgrows x s b u hx).trans hg, fun he hs => ?_⟩
    obtain ⟨hu, hb⟩ := hfirst s b u hx (hg.errors_eq_nil he) hs
    obtain ⟨ht, hbs⟩ := hrest he hu
    exact ⟨ht, .cons hb hbs⟩

/-- Everything on the right of a relation of lists stands opposite to something. -/
theorem exists_of_forall₂ {P : α → β → Prop} {xs : List α} {bs : List β}
    (h : List.Forall₂ P xs bs) : ∀ b ∈ bs, ∃ a ∈ xs, P a b := by
  induction h with
  | nil => exact fun _ hb => (nomatch hb)
  | cons hab _ ih =>
    refine List.forall_mem_cons.2 ⟨⟨_, List.mem_cons_self, hab⟩, fun b hb => ?_⟩
    obtain ⟨a, ha, hab⟩ := ih b hb
    exact ⟨a, List.mem_cons_of_mem _ ha, hab⟩

/-- What holds of everything on the right of a relation of lists. -/
theorem forall_of_forall₂ {P : α → β → Prop} {Q : β → Prop} {xs : List α} {bs : List β}
    (h : List.Forall₂ P xs bs) (hQ : ∀ a b, P a b → Q b) : ∀ b ∈ bs, Q b := by
  intro b hb
  obtain ⟨a, -, hab⟩ := exists_of_forall₂ h b hb
  exact hQ a b hab

/-- Lists that are related in two steps are related. -/
theorem forall₂_comp {γ : Type} {P : α → β → Prop} {Q : β → γ → Prop} {S : α → γ → Prop}
    {xs : List α} {bs : List β} {cs : List γ} (h : List.Forall₂ P xs bs)
    (h' : List.Forall₂ Q bs cs) (hS : ∀ a b c, P a b → Q b c → S a c) :
    List.Forall₂ S xs cs := by
  induction h generalizing cs with
  | nil =>
    cases h'
    exact .nil
  | cons hab _ ih =>
    cases h' with
    | cons hbc h' => exact .cons (hS _ _ _ hab hbc) (ih h')

/-! ## records and data objects -/

/-- Taking apart a record that is met makes faithful members. -/
theorem membersOf_faithful (c : Config) (g : Registry) (depth : Nat) (around : List String) :
    KeepsFaithful c g (membersOf c g depth around) := by
  induction depth using Nat.strongRecOn generalizing around with
  | ind depth ih =>
  intro record s members t hmeets h he hs
  rcases membersOf_cases h with ⟨-, rfl⟩ | ⟨-, -, u, hr⟩ | ⟨-, -, rfl⟩ |
    ⟨found, rest, ds, u, v, rfl, -, -, hfound, hds, hms, rfl⟩
  · exact hs.faithful
  · exact absurd he (report_run around hr).2
  · exact hs.faithful
  · have hm := membersOf_run c g rest (record :: around)
    have hf := ih rest (Nat.lt_succ_self _) (record :: around)
    obtain ⟨-, -, hok⟩ := checkedTags_run (record :: around) hms
    obtain ⟨rfl, rfl, -⟩ := hok he
    obtain ⟨-, hmade⟩ := mapM_forall₂ (record :: around) (I := Findings.Honest c g)
      (P := fun f d => Decl.AnswersField c g f d ∧ d.Everywhere (Decl.Faithful c g))
      (fun f s d t hd => (build_run hm hd).grows) (fun f hmem s d t hd he hs => by
        have hfield : c.Asks g f.name (some f.request) f.type := .field hmeets hfound hmem
        obtain ⟨ht, hall, hanswers⟩ := build_faithful hm hf hd hfield he hs
        exact ⟨⟨((build_run hm hd).made he hs.sound).1, ht⟩, hanswers, hall⟩) hds
    obtain ⟨hv, hmembers⟩ := hmade he hs
    intro name ms hn
    rw [List.lookup_cons] at hn
    split at hn
    · next heq =>
      cases hn
      rw [beq_iff_eq] at heq
      subst heq
      exact ⟨⟨found, hfound, hmembers.imp fun _ _ h => h.1⟩,
        forall_of_forall₂ hmembers fun _ _ h => h.2⟩
    · exact hv.faithful name ms hn

/-- A data object that is taken apart is faithful, and answers what is asked for it. -/
theorem object_faithful {o : DataObject} {d : Decl} (ho : o ∈ c.objects)
    (h : object c g o s = some (d, t)) (he : t.errors = []) (hs : s.Honest c g) :
    t.Honest c g ∧ d.Everywhere (Decl.Faithful c g) ∧ d.Answers c g o.name o.type none := by
  have hsound := ((object_run h).1.made he hs.sound).1
  rw [object_eq] at h
  obtain ⟨d', u, hd, h⟩ := bind_inv h
  obtain ⟨-, -, hok⟩ := unlessFault_run [] h
  obtain ⟨rfl, rfl, -⟩ := hok he
  obtain ⟨ht, hall, hanswers⟩ := build_faithful (membersOf_run c g g.records.length [])
    (membersOf_faithful c g g.records.length []) hd (.object ho) he hs
  exact ⟨⟨hsound, ht⟩, hall, hanswers⟩

end Building

/-! ## models -/

variable {c : Config} {g : Registry} {m : Model}

/-- What has been found in the end: without errors, everything in it is faithful, and the data
objects answer what is asked for them, in their groups. -/
theorem Model.faithful_of_build (h : Model.build c g = some m) (he : m.errors = []) :
    ∃ found : Findings, found.records = m.records ∧ found.Faithful c g ∧
      List.Forall₂ (List.Forall₂ fun o d => d.Everywhere (Decl.Faithful c g) ∧
        d.Answers c g o.name o.type none) c.groups m.groups := by
  unfold Model.build at h
  obtain ⟨⟨groups, found⟩, hrun, rfl⟩ := Option.map_eq_some_iff.1 h
  have hempty : Findings.Honest c g ⟨0, [], [], []⟩ :=
    ⟨⟨fun _ _ hn => (nomatch hn), fun _ _ hu => (nomatch hu)⟩, fun _ _ hn => (nomatch hn)⟩
  obtain ⟨-, hmade⟩ := Building.mapM_forall₂ [] (I := Findings.Honest c g)
    (fun os s ds t hos =>
      (Building.mapM_run ([·]) (fun o s d t ho => (Building.object_run ho).1) hos).grows)
    (fun os hos s ds t hds => (Building.mapM_forall₂ [] (I := Findings.Honest c g)
      (fun o s d t ho => (Building.object_run ho).1.grows)
      (fun o ho s d t hd he hs =>
        Building.object_faithful (List.mem_flatten.2 ⟨os, hos, ho⟩) hd he hs) hds).2) hrun
  obtain ⟨hhonest, hgroups⟩ := hmade he hempty
  exact ⟨found, rfl, hhonest.faithful, hgroups⟩

/-- **Origins**: in a model without errors, everything about a declaration is asked for. -/
theorem Model.Declares.faithful (h : Model.build c g = some m) (he : m.errors = []) {e : Decl}
    (hd : m.Declares e) : e.Faithful c g := by
  obtain ⟨found, hrecords, hfaithful, hgroups⟩ := Model.faithful_of_build h he
  rcases hd with ⟨d, hd, hbelow⟩ | ⟨record, members, hlookup, d, hd, hbelow⟩
  · have hroots : ∀ ds ∈ m.groups, ∀ d ∈ ds, d.Everywhere (Decl.Faithful c g) :=
      Building.forall_of_forall₂ hgroups fun _ _ hds =>
        Building.forall_of_forall₂ hds fun _ _ hd => hd.1
    obtain ⟨ds, hds, hd⟩ := List.mem_flatten.1 hd
    exact hroots ds hds d hd e hbelow
  · rw [← hrecords] at hlookup
    exact (hfaithful record members hlookup).everywhere d hd e hbelow

end BitLayout
