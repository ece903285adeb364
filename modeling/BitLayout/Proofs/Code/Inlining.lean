import BitLayout.Proofs.Code.Calls
import BitLayout.Proofs.Code.Renaming

/-!
# BitLayout.Proofs.Code.Inlining

Code that leaves structs to the functions of their records, and code that does not. Where every call
is replaced by the statements of the function, as they are for the struct and below as many loops
and locals as are around the call, the first becomes the second:

```
for __i0 in 0..2 { read_S(state, &mut obj.s[__i0]); }
~>  for __i0 in 0..2 { obj.s[__i0].x = ..; for __i1 in 0..3 { obj.s[__i0].a[__i1] = .. } }
```

There is one difference. A loop without content is not written down, but a call is content, also
that of a function without statements. So a loop may be left without content once its calls are
replaced, and such loops have to be dropped.

* `Statement.writtenOut`, `Statement.tidied`: calls replaced, and loops without content dropped;
* `Inlines.follows`, `Items.inlines`: what both make of the code with calls is the code without
  calls, for a declaration and for the items of a sector;
* `Transfer.inlines_functions`: so it is if a call stands for the statements of the function, level
  by level.
-/

namespace BitLayout

/-! ## calls and loops -/

/-- What stands for the move of a whole struct, below so many loops and locals. -/
abbrev CallCode := (number : Nat) → Place → (record : String) → List Statement

mutual

/-- A statement below `number` loops and locals, with the moves of whole structs replaced. -/
def Statement.writtenOut (call : CallCode) (number : Nat) : Statement → List Statement
  | .move (.record place name) => call number place name
  | .move m => [.move m]
  | .wire n t place body => [.wire n t place (writtenOutAll call (number + 1) body)]
  | .loop l body => [.loop l (writtenOutAll call (number + 1) body)]
  | .choice arms => [.choice (writtenOutArms call number arms)]

/-- Statements in a row with the moves of whole structs replaced. -/
def writtenOutAll (call : CallCode) (number : Nat) : List Statement → List Statement
  | [] => []
  | s :: rest => s.writtenOut call number ++ writtenOutAll call number rest

/-- The arms of a choice with the moves of whole structs replaced. -/
def writtenOutArms (call : CallCode) (number : Nat) : List Arm → List Arm
  | [] => []
  | .mk tag value body :: rest =>
    .mk tag value (writtenOutAll call number body) :: writtenOutArms call number rest

end

mutual

/-- A statement without loops that have no content. -/
def Statement.tidied : Statement → List Statement
  | .move m => [.move m]
  | .wire n t place body => [.wire n t place (tidiedAll body)]
  | .loop l body => Statement.looped l (tidiedAll body)
  | .choice arms => [.choice (tidiedArms arms)]

/-- Statements in a row without loops that have no content. -/
def tidiedAll : List Statement → List Statement
  | [] => []
  | s :: rest => s.tidied ++ tidiedAll rest

/-- The arms of a choice without loops that have no content. -/
def tidiedArms : List Arm → List Arm
  | [] => []
  | .mk tag value body :: rest => .mk tag value (tidiedAll body) :: tidiedArms rest

end

/-- An arm with the moves of whole structs replaced. -/
def Arm.writtenOut (call : CallCode) (number : Nat) : Arm → Arm
  | mk tag value body => mk tag value (writtenOutAll call number body)

/-- An arm without loops that have no content. -/
def Arm.tidied : Arm → Arm
  | mk tag value body => mk tag value (tidiedAll body)

/-- The function of a record as it stands for its calls: its statements, in which calls are replaced
alike, through `levels` functions. A function that is not known is still called. -/
def functionCode (body? : String → Option (List Statement)) : (levels : Nat) → CallCode
  | 0, _, place, record => [.move (.record place record)]
  | levels + 1, number, place, record =>
    match body? record with
    | some body =>
      writtenOutAll (functionCode body? levels) number (renamedAll place number body)
    | none => [.move (.record place record)]

section

variable {call : CallCode} {number : Nat}

theorem writtenOutAll_append (xs ys : List Statement) :
    writtenOutAll call number (xs ++ ys) =
      writtenOutAll call number xs ++ writtenOutAll call number ys := by
  induction xs with
  | nil => rfl
  | cons x xs ih => rw [List.cons_append, writtenOutAll, writtenOutAll, ih, List.append_assoc]

theorem tidiedAll_append (xs ys : List Statement) :
    tidiedAll (xs ++ ys) = tidiedAll xs ++ tidiedAll ys := by
  induction xs with
  | nil => rfl
  | cons x xs ih => rw [List.cons_append, tidiedAll, tidiedAll, ih, List.append_assoc]

theorem writtenOutArms_eq (arms : List Arm) :
    writtenOutArms call number arms = arms.map (Arm.writtenOut call number) := by
  induction arms with
  | nil => rfl
  | cons arm arms ih =>
    obtain ⟨tag, value, body⟩ := arm
    rw [writtenOutArms, ih]
    rfl

theorem tidiedArms_eq (arms : List Arm) : tidiedArms arms = arms.map Arm.tidied := by
  induction arms with
  | nil => rfl
  | cons arm arms ih =>
    obtain ⟨tag, value, body⟩ := arm
    rw [tidiedArms, ih]
    rfl

/-- A move other than that of a whole struct stays. -/
theorem Statement.writtenOut_move {m : Move} (h : ∀ place name, m ≠ .record place name) :
    Statement.writtenOut call number (.move m) = [.move m] := by
  cases m with
  | record place name => exact absurd rfl (h place name)
  | _ => rfl

end

/-! ## code with and without calls -/

/-- The first statements become the second ones if their calls are replaced and empty loops are
dropped, and then no calls are left. -/
structure Inlines (call : CallCode) (number : Nat) (xs ys : List Statement) : Prop where
  written : tidiedAll (writtenOutAll call number xs) = ys
  plain : Program.recordsMovedAll ys = []

theorem Program.recordsMovedByArms_of_plain {arms : List Arm}
    (h : ∀ arm ∈ arms, recordsMovedAll arm.body = []) : recordsMovedByArms arms = [] := by
  induction arms with
  | nil => rfl
  | cons arm arms ih =>
    obtain ⟨harm, harms⟩ := List.forall_mem_cons.1 h
    obtain ⟨tag, value, body⟩ := arm
    exact List.append_eq_nil_iff.2 ⟨harm, ih harms⟩

section

variable {call : CallCode} {number : Nat} {xs xs' ys ys' : List Statement}

namespace Inlines

theorem nil : Inlines call number [] [] := ⟨rfl, rfl⟩

theorem append (h : Inlines call number xs ys) (h' : Inlines call number xs' ys') :
    Inlines call number (xs ++ xs') (ys ++ ys') where
  written := by rw [writtenOutAll_append, tidiedAll_append, h.written, h'.written]
  plain := by rw [Program.recordsMovedAll_append, h.plain, h'.plain, List.append_nil]

/-- A move other than that of a whole struct is the same in both. -/
theorem move {m : Move} (h : ∀ place name, m ≠ .record place name) :
    Inlines call number [.move m] [.move m] where
  written := by simp [writtenOutAll, Statement.writtenOut_move h, tidiedAll, Statement.tidied]
  plain := by
    cases m with
    | record place name => exact absurd rfl (h place name)
    | _ => rfl

theorem wire (h : Inlines call (number + 1) xs ys) (n : Nat) (t : Transform) (place : Place) :
    Inlines call number [.wire n t place xs] [.wire n t place ys] where
  written := by
    simp [writtenOutAll, Statement.writtenOut, tidiedAll, Statement.tidied, h.written]
  plain := (List.append_nil _).trans h.plain

theorem looped (h : Inlines call (number + 1) xs ys) (l : Loop) :
    Inlines call number (Statement.looped l xs) (Statement.looped l ys) where
  written := by
    cases xs with
    | nil =>
      obtain rfl : ys = [] := h.written.symm
      rfl
    | cons x xs =>
      rw [← h.written]
      exact List.append_nil _
  plain := by
    unfold Statement.looped
    split
    · rfl
    · exact (List.append_nil _).trans h.plain

/-- Code with and without calls as a relation, below so many loops and locals. -/
def relation (call : CallCode) : CodeRelation Nat where
  Rel := Inlines call
  Tags _ := Eq
  nil _ := nil
  append := append
  padding _ _ := move (by simp)
  choice {number arms arms'} _ h := by
    have hwritten : (arms.map (Arm.writtenOut call number)).map Arm.tidied = arms' := by
      rw [List.map_map]
      refine Arm.map_of_related h fun _ _ _ _ _ htag hbody => ?_
      rw [Function.comp_apply, Arm.writtenOut, Arm.tidied, htag, hbody.written]
    have hplain : ∀ arm ∈ arms', Program.recordsMovedAll arm.body = [] := by
      rw [← hwritten, List.map_map, List.forall_mem_map]
      refine Arm.forall_of_related h fun arm arm' harm => ?_
      obtain ⟨tag, value, body⟩ := arm
      change Program.recordsMovedAll (tidiedAll (writtenOutAll call number body)) = []
      exact (congrArg Program.recordsMovedAll harm.body.written).trans harm.body.plain
    refine ⟨?_, (List.append_nil _).trans (Program.recordsMovedByArms_of_plain hplain)⟩
    change [Statement.choice (tidiedArms (writtenOutArms call number arms))] = _
    rw [writtenOutArms_eq, tidiedArms_eq, hwritten]

end Inlines

end

/-! ## declarations -/

/-- Calls become the code for the fields of the struct, if the struct has a number below `bound`:
its members have smaller numbers. -/
def CallCode.Inlines (call : CallCode) (dir : Direction) (g : Registry)
    (records : List (String × List Decl)) (bound : Nat) : Prop :=
  ∀ (record : String) (members : List Decl) (top : Nat), records.lookup record = some members →
    (∀ d ∈ members, d.Everywhere (Decl.Sound g records)) → (∀ d ∈ members, d.number < top) →
    top < bound → ∀ (place : Place) (n : Nat), tidiedAll (call n place record) =
        Transfer.fields ⟨dir, false⟩ 0 members place n ∧
      Program.recordsMovedAll (Transfer.fields ⟨dir, false⟩ 0 members place n) = []

section

variable {g : Registry} {records : List (String × List Decl)} {call : CallCode} {bound : Nat}
  {dir : Direction}

/-- **Calls in a declaration**: with calls replaced, the code for a sound declaration is the code
without calls. -/
theorem Inlines.follows (hcall : call.Inlines dir g records bound) :
    (relation call).Follows ⟨dir, true⟩ ⟨dir, false⟩ .refl fun number d _ p =>
      p.number = number ∧ d.Everywhere (Decl.Sound g records) ∧ d.number < bound where
  loop h := ⟨_, ⟨congrArg (· + 1) h.1, h.2⟩, fun _ _ hbody => hbody.looped _⟩
  wire {_ d w _ _} h _ hw := by
    obtain ⟨hn, hd, hlt⟩ := h
    exact ⟨_, ⟨congrArg (· + 1) hn, hd.wire hw, Nat.lt_trans (hd.self.wire_lt w hw) hlt⟩,
      fun _ _ hbody => hbody.wire _ _ _⟩
  omitted {_ d _} _ homit := by
    rw [Position.relocated_refl, Transfer.elementAt, Transfer.elementAt,
      Transfer.element_omitted homit, Transfer.element_omitted homit]
    cases dir with
    | save => exact nil
    | read =>
      cases d.encoding.default with
      | none => exact nil
      | some value => exact move (by simp)
  single _ hm := by cases hm <;> exact move (by simp)
  struct {_ d p} h hk _ := by
    obtain ⟨rfl, hd, hlt⟩ := h
    obtain ⟨⟨record, hshape, hlookup⟩, -⟩ := hd.self.struct hk
    have hrecord : d.record? = some record := by rw [Decl.record?, hshape]
    obtain ⟨hwritten, hplain⟩ := hcall record d.members d.number hlookup (fun m hm => hd.member hm)
      hd.self.member_lt hlt p.place p.number
    rw [Position.relocated_refl, Transfer.elementAt, Transfer.elementAt,
      Transfer.element_struct hk, Transfer.element_struct hk, hrecord]
    refine ⟨?_, hplain⟩
    dsimp only
    rw [writtenOutAll, writtenOutAll, List.append_nil]
    exact hwritten
  field {_ d m p} h _ hm :=
    ⟨h.1, h.2.1.member hm, Nat.lt_trans (h.2.1.self.member_lt m hm) h.2.2⟩
  variant {_ d v _ p} h _ hv :=
    ⟨h.1, h.2.1.member hv, Nat.lt_trans (h.2.1.self.member_lt v hv) h.2.2⟩
  fieldOfVariant {_ d v m _ p} h _ hv hm :=
    ⟨h.1, (h.2.1.member hv).member hm,
      Nat.lt_trans ((h.2.1.member hv).self.member_lt m hm)
        (Nat.lt_trans (h.2.1.self.member_lt v hv) h.2.2)⟩
  ownerTag _ _ _ := rfl
  variantTag _ _ _ _ := rfl

namespace Transfer

/-- **Calls through functions**: if the function of every record moves the members of the record,
calls become the code for the fields when they are replaced through as many functions as the number
of the struct allows. -/
theorem inlines_functions {body? : String → Option (List Statement)}
    (hbody : ∀ record members, records.lookup record = some members →
      body? record = some (fields ⟨dir, true⟩ 0 members Program.recordPlace 0)) (levels : Nat) :
    (functionCode body? levels).Inlines dir g records levels := by
  induction levels with
  | zero =>
    intro record members top _ _ _ hlt
    exact absurd hlt (Nat.not_lt_zero top)
  | succ levels ih =>
    intro record members top hlookup hsound htop hlt place n
    have hfields : Inlines _ n (fields ⟨dir, true⟩ 0 members place n)
        (fields ⟨dir, false⟩ 0 members place n) :=
      (Inlines.follows ih).fields (s := n) (p := ⟨place, none, n⟩) (fun d hd =>
        ⟨rfl, hsound d hd, Nat.lt_of_lt_of_le (htop d hd) (Nat.le_of_lt_succ hlt)⟩) 0
    have hcode : functionCode body? (levels + 1) n place record =
        writtenOutAll (functionCode body? levels) n (fields ⟨dir, true⟩ 0 members place n) := by
      rw [functionCode, hbody record members hlookup]
      dsimp only
      rw [renamed_fields, Place.renamed_recordPlace, Nat.add_zero]
    rw [hcode]
    exact ⟨hfields.written, hfields.plain⟩

end Transfer

end

/-! ## items -/

section

variable {g : Registry} {records : List (String × List Decl)} {call : CallCode} {bound : Nat}
  {dir : Direction} {i : Item} {row : List Item}

/-- With calls replaced, the code for an item is the code without calls. -/
theorem Item.inlines (hcall : call.Inlines dir g records bound)
    (h : ∀ p, i.content = .value p →
      p.last.decl.Everywhere (Decl.Sound g records) ∧ p.last.decl.number < bound) :
    Inlines call 0 (i.statements ⟨dir, true⟩) (i.statements ⟨dir, false⟩) :=
  (Inlines.follows hcall).item (c := id) (fun _ l _ _ hbody => hbody.looped l)
    fun p hp _ _ _ => ⟨rfl, h p hp⟩

/-- **Calls in a sector**: if the code for each item is that without calls, so is the code for all
of them. -/
theorem Items.inlines
    (h : ∀ i ∈ row, Inlines call 0 (i.statements ⟨dir, true⟩) (i.statements ⟨dir, false⟩))
    (levels level : Nat) :
    Inlines call 0 (statementsWithin ⟨dir, true⟩ levels level row)
      (statementsWithin ⟨dir, false⟩ levels level row) :=
  (Inlines.relation call).items (s := 0) _ _ h (fun _ _ _ _ => rfl) levels level

end

/-! ## which functions are known -/

section

variable {call call' : CallCode}

mutual

/-- Only what stands for the calls in a statement matters. -/
theorem Statement.writtenOut_congr : (s : Statement) → (number : Nat) →
    (∀ record ∈ Program.recordsMoved s, ∀ n place, call n place record = call' n place record) →
    s.writtenOut call number = s.writtenOut call' number
  | .move m, number, h => by
    cases m with
    | record place name => exact h name (List.mem_singleton_self name) number place
    | _ => rfl
  | .wire n t place body, number, h =>
    congrArg (fun body => [Statement.wire n t place body]) (writtenOutAll_congr body (number + 1) h)
  | .loop l body, number, h =>
    congrArg (fun body => [Statement.loop l body]) (writtenOutAll_congr body (number + 1) h)
  | .choice arms, number, h =>
    congrArg (fun arms => [Statement.choice arms]) (writtenOutArms_congr arms number h)

/-- **Calls that matter**: only what stands for the calls in statements matters. -/
theorem writtenOutAll_congr : (xs : List Statement) → (number : Nat) →
    (∀ record ∈ Program.recordsMovedAll xs, ∀ n place,
      call n place record = call' n place record) →
    writtenOutAll call number xs = writtenOutAll call' number xs
  | [], _, _ => rfl
  | x :: xs, number, h => by
    obtain ⟨hx, hxs⟩ := List.forall_mem_append.1 h
    exact congrArg₂ (· ++ ·) (Statement.writtenOut_congr x number hx)
      (writtenOutAll_congr xs number hxs)

/-- Only what stands for the calls in arms matters. -/
theorem writtenOutArms_congr : (arms : List Arm) → (number : Nat) →
    (∀ record ∈ Program.recordsMovedByArms arms, ∀ n place,
      call n place record = call' n place record) →
    writtenOutArms call number arms = writtenOutArms call' number arms
  | [], _, _ => rfl
  | .mk tag value body :: arms, number, h => by
    obtain ⟨hbody, harms⟩ := List.forall_mem_append.1 h
    exact congrArg₂ (fun body arms => Arm.mk tag value body :: arms)
      (writtenOutAll_congr body number hbody) (writtenOutArms_congr arms number harms)

end

/-- Functions of some records that only call for functions of these stand for their calls whatever
other functions there are. -/
theorem functionCode_congr {body? body?' : String → Option (List Statement)} {names : List String}
    (hsame : ∀ record ∈ names, body? record = body?' record)
    (hclosed : ∀ record ∈ names, ∀ body, body?' record = some body →
      ∀ called ∈ Program.recordsMovedAll body, called ∈ names) (levels : Nat) :
    ∀ record ∈ names, ∀ n place,
      functionCode body? levels n place record = functionCode body?' levels n place record := by
  induction levels with
  | zero => exact fun _ _ _ _ => rfl
  | succ levels ih =>
    intro record hrecord n place
    rw [functionCode, functionCode, hsame record hrecord]
    cases hbody : body?' record with
    | none => rfl
    | some body =>
      refine writtenOutAll_congr _ n fun called hcalled => ?_
      rw [recordsMovedAll_renamed] at hcalled
      exact ih called (hclosed record hrecord body hbody called hcalled)

end

end BitLayout
