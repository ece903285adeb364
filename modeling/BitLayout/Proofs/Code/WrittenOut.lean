import BitLayout.Proofs.Expansion
import BitLayout.Proofs.Code.Needed
import BitLayout.Proofs.Code.Splitting
import BitLayout.Proofs.Sector.Arising

/-!
# BitLayout.Proofs.Code.WrittenOut

Programs with functions for records, and the same programs without them. The functions of a program
are closed: there is one pair for each record that is moved whole anywhere, and no other. If every
call is replaced by the statements of its function, down through the functions that these call, the
program is the one that is generated without such functions, but for loops without content.

* `Program.writtenOut`: a program with its calls replaced;
* `Program.functionBody?_generate`: the functions of a generated program are those of the records
  that need them;
* `Program.writtenOut_generate`: with calls replaced and empty loops dropped, the program for packed
  sectors is the one without functions;
* `generateProgram_writtenOut`: functions are closed and stand for the code without them, for every
  layout that is packed without errors.
-/

namespace BitLayout

/-! ## the settings do not matter before -/

/-- The same settings, without functions for records. -/
def Config.inline (c : Config) : Config := { c with structFunctions := false }

namespace Building

theorem build_inline (c : Config) (g : Registry) : build c.inline g = build c g := by
  funext membersOf budget
  induction budget with
  | zero => rfl
  | succ budget ih =>
    have hresolve : c.inline.resolve = c.resolve := rfl
    funext name type own
    simp only [build, hresolve, ih]

theorem membersOf_inline (c : Config) (g : Registry) : membersOf c.inline g = membersOf c g := by
  have hbudget : wireBudget c.inline g = wireBudget c g := rfl
  funext depth
  induction depth with
  | zero =>
    funext around record
    unfold membersOf
    cases g.record? record <;> rfl
  | succ depth ih =>
    funext around record
    unfold membersOf
    cases g.record? record <;> simp only [build_inline, hbudget, ih]

theorem object_inline (c : Config) (g : Registry) : object c.inline g = object c g := by
  have hbudget : wireBudget c.inline g = wireBudget c g := rfl
  funext o
  simp only [object, build_inline, membersOf_inline, hbudget]

end Building

/-- Data objects are taken apart the same, whether structs have functions or not. -/
theorem Model.build_inline (c : Config) (g : Registry) :
    Model.build c.inline g = Model.build c g := by
  rw [Model.build, Building.object_inline]
  rfl

/-! ## programs -/

/-- The statements of a function. -/
def FunctionBody.code : FunctionBody → List Statement
  | statements body => body
  | firstSector body => body
  | dispatch _ => []

/-- A function with other statements. -/
def FunctionBody.mapCode (f : List Statement → List Statement) : FunctionBody → FunctionBody
  | statements body => statements (f body)
  | firstSector body => firstSector (f body)
  | dispatch sectors => dispatch sectors

/-- A function with other statements in its direction. -/
def Function.mapCode (f : Direction → List Statement → List Statement) (function : Function) :
    Function :=
  { function with body := function.body.mapCode (f function.direction) }

namespace Program

/-- The records that the functions of a direction move whole. -/
def calls (p : Program) (d : Direction) : List String :=
  (p.functions.filter (·.direction = d)).flatMap fun f => recordsMovedAll f.body.code

/-- The statements of the function of a record, by its name. -/
def functionBody? (p : Program) (d : Direction) (record : String) : Option (List Statement) :=
  (p.recordFunctions.find? fun f => f.direction = d ∧ f.name = recordFunction d record).map
    (·.body.code)

/-- A program whose functions have other statements. -/
def mapCode (f : Direction → List Statement → List Statement) (p : Program) : Program :=
  { p with
    procedures := p.procedures.map (Function.mapCode f)
    sectorFunctions := p.sectorFunctions.map (Function.mapCode f)
    recordFunctions := p.recordFunctions.map (Function.mapCode f) }

/-- A program in which calls are replaced by the statements of their functions, through `levels`
functions. The functions themselves are not needed any more. -/
def writtenOut (levels : Nat) (p : Program) : Program :=
  { p.mapCode fun d => writtenOutAll (functionCode (p.functionBody? d) levels) 0 with
    recordFunctions := [] }

/-- A program without loops that have no content. -/
def tidied (p : Program) : Program := p.mapCode fun _ => tidiedAll

theorem tidied_writtenOut (p : Program) (levels : Nat) :
    (p.writtenOut levels).tidied = { p.mapCode fun dir body =>
      tidiedAll (writtenOutAll (functionCode (p.functionBody? dir) levels) 0 body) with
      recordFunctions := [] } := by
  have hfunction : ∀ (call : Direction → CallCode) (f : Function),
      (f.mapCode fun d => writtenOutAll (call d) 0).mapCode (fun _ => tidiedAll) =
        f.mapCode fun d body => tidiedAll (writtenOutAll (call d) 0 body) := by
    intro call f
    obtain ⟨doc, direction, isProcedure, name, objects, body⟩ := f
    cases body <;> rfl
  simp only [tidied, writtenOut, mapCode, List.map_map, List.map_nil, Function.comp_def, hfunction]

/-- Functions of different records have different names. -/
theorem recordFunction_inj {d : Direction} {r r' : String} :
    recordFunction d r = recordFunction d r' ↔ r = r' := by
  cases d <;> exact String.append_right_inj _

section

variable {c : Config} {m : Model} {g : Registry} {sectors : List Sector}

theorem find?_bothWays {f : Direction → Function} {record : String} (dir : Direction) {r : String}
    (hdir : ∀ d, (f d).direction = d) (hname : ∀ d, (f d).name = recordFunction d r) :
    ((bothWays f).find? fun f => f.direction = dir ∧ f.name = recordFunction dir record) =
      if r = record then some (f dir) else none := by
  by_cases heq : r = record
  · subst heq
    cases dir <;> simp [bothWays, hdir, hname]
  · cases dir <;> simp [bothWays, hdir, hname, recordFunction_inj, heq]

/-- The function of a record that needs one is found by its name. -/
theorem functionBody?_generate (dir : Direction) {record : String}
    (h : record ∈ recordsNeeded c m sectors) :
    (generate c m sectors).functionBody? dir record = some (recordStatements c m dir record) := by
  have hfind : ∀ records : List String, record ∈ records →
      ((records.flatMap fun r => bothWays (recordFunctionOf c m r)).find? fun f =>
        f.direction = dir ∧ f.name = recordFunction dir record) =
        some (recordFunctionOf c m record dir) := by
    intro records hrecord
    induction records with
    | nil => cases hrecord
    | cons r records ih =>
      rw [List.flatMap_cons, List.find?_append,
        find?_bothWays (r := r) dir (fun _ => rfl) fun _ => rfl]
      split
      · next heq =>
        rw [heq]
        rfl
      · next hne => exact ih ((List.mem_cons.1 hrecord).resolve_left fun h => hne h.symm)
  rw [functionBody?, generate, hfind _ h]
  rfl

/-- Of functions in both directions, those of one direction. -/
theorem filter_bothWays {α : Type} (xs : List α) {f : α → Direction → Function}
    (hdir : ∀ x d, (f x d).direction = d) (dir : Direction) :
    (xs.flatMap fun x => bothWays (f x)).filter (·.direction = dir) = xs.map (f · dir) := by
  induction xs with
  | nil => rfl
  | cons x xs ih =>
    rw [List.flatMap_cons, List.filter_append, ih, List.map_cons]
    cases dir <;> simp [bothWays, hdir]

/-- The calls of the procedures and of the functions of sectors are those of the sectors. -/
theorem calls_sectors (dir : Direction) :
    ((bothWays (procedure c sectors) ++ sectorFunctionsOf c sectors).filter
        (·.direction = dir)).flatMap (fun f => recordsMovedAll f.body.code) =
      sectors.flatMap fun s => recordsMovedAll (sectorStatements c dir s) := by
  have hprocedures : (bothWays (procedure c sectors)).filter (·.direction = dir) =
      [procedure c sectors dir] := by
    simpa using filter_bothWays [()] (f := fun _ => procedure c sectors) (fun _ _ => rfl) dir
  rw [List.filter_append, hprocedures, List.flatMap_append, List.flatMap_singleton]
  match sectors with
  | [] => rfl
  | [s] => rfl
  | s :: s' :: rest =>
    rw [sectorFunctionsOf, if_neg (by simp), filter_bothWays _ fun _ _ => rfl, List.flatMap_map]
    conv_rhs => rw [← List.zipIdx_map_fst 0 (s :: s' :: rest), List.flatMap_map]
    rfl

/-- What a program calls for are the calls of its sectors and of the functions of its records. -/
theorem mem_calls_generate (dir : Direction) (record : String) :
    record ∈ (generate c m sectors).calls dir ↔
      record ∈ (sectors.flatMap fun s => recordsMovedAll (sectorStatements c dir s)) ∨
      ∃ r ∈ recordsNeeded c m sectors, record ∈ recordsMovedAll (recordStatements c m dir r) := by
  rw [calls, functions, generate, List.filter_append, List.flatMap_append, calls_sectors,
    filter_bothWays _ fun _ _ => rfl, List.flatMap_map, List.mem_append,
    List.mem_flatMap (b := record) (l := recordsNeeded c m sectors)]
  rfl

/-! ## calls replaced -/

/-- **Closed functions**: what is called for in a direction are the records that have functions. -/
theorem mem_calls_iff (hbuild : Model.build c g = some m) (herrors : m.errors = [])
    (h : ∀ s ∈ sectors, ∀ i ∈ s.items, i.Grounded m.roots) (dir : Direction) (record : String) :
    record ∈ (generate c m sectors).calls dir ↔ record ∈ recordsNeeded c m sectors := by
  rw [mem_calls_generate, mem_recordsNeeded hbuild herrors h record]
  simp only [recordsMovedAll_sectorStatements c dir, recordsMovedAll_recordStatements c m dir]

/-- **Calls in a sector**: if calls stand for the functions of the program, the code for a sector
becomes the code without functions. -/
theorem inlines_sectorStatements (hf : c.structFunctions = true)
    (hbuild : Model.build c g = some m) (herrors : m.errors = [])
    (h : ∀ s ∈ sectors, ∀ i ∈ s.items, i.Grounded m.roots) {levels : Nat}
    (hlevels : m.callLevels ≤ levels) (dir : Direction) {s : Sector} (hs : s ∈ sectors) :
    Inlines (functionCode ((generate c m sectors).functionBody? dir) levels) 0
      (sectorStatements c dir s) (sectorStatements c.inline dir s) := by
  have hm := Model.sound_of_build hbuild herrors
  have hpurpose : purpose c dir = ⟨dir, true⟩ := by rw [purpose, hf]
  -- As if every known record had functions.
  let total : CallCode := functionCode (fun record => some (recordStatements c m dir record)) levels
  have hall : total.Inlines dir g m.records levels := by
    refine Transfer.inlines_functions (fun record members hlookup => ?_) levels
    rw [recordStatements, Model.membersOf, hlookup, hpurpose]
    rfl
  have hitems : Inlines total 0 (sectorStatements c dir s) (sectorStatements c.inline dir s) := by
    rw [sectorStatements, hpurpose]
    refine Items.inlines (fun i hi => Item.inlines hall fun p hp => ?_) _ 0
    have hwalks := (h s hs i hi).walks p hp
    exact ⟨hwalks.everywhere hm.roots, Nat.lt_of_lt_of_le (hwalks.number_lt hm) hlevels⟩
  -- Only functions that there are are called.
  have hclosed := mem_calls_iff hbuild herrors h dir
  have hsame := functionCode_congr
    (fun record (hrecord : record ∈ recordsNeeded c m sectors) =>
      functionBody?_generate dir hrecord)
    (fun record hrecord body hbody called hcalled => by
      obtain rfl := Option.some.inj hbody
      refine (hclosed called).1 ((mem_calls_generate dir called).2 (.inr ?_))
      exact ⟨record, hrecord, hcalled⟩)
    levels
  refine ⟨?_, hitems.plain⟩
  rw [← hitems.written]
  refine congrArg tidiedAll (writtenOutAll_congr _ 0 fun record hrecord => hsame record ?_)
  exact (hclosed record).1 ((mem_calls_generate dir record).2
    (.inl (List.mem_flatMap.2 ⟨s, hs, hrecord⟩)))

/-- A procedure with its calls replaced. -/
theorem mapCode_procedure {f : Direction → List Statement → List Statement}
    (hnil : ∀ dir, f dir [] = [])
    (h : ∀ dir, ∀ s ∈ sectors, f dir (sectorStatements c dir s) = sectorStatements c.inline dir s)
    (dir : Direction) :
    (procedure c sectors dir).mapCode f = procedure c.inline sectors dir := by
  match sectors with
  | [] =>
    simp only [procedure, Function.mapCode, FunctionBody.mapCode, hnil]
    rfl
  | [s] =>
    have hs := h dir s (List.mem_singleton_self s)
    simp only [procedure, Function.mapCode, FunctionBody.mapCode, hs]
    rfl
  | _ :: _ :: _ => rfl

/-- The functions of sectors with their calls replaced. -/
theorem mapCode_sectorFunctions {f : Direction → List Statement → List Statement}
    (h : ∀ dir, ∀ s ∈ sectors, f dir (sectorStatements c dir s) = sectorStatements c.inline dir s) :
    (sectorFunctionsOf c sectors).map (Function.mapCode f) =
      sectorFunctionsOf c.inline sectors := by
  rw [sectorFunctionsOf, sectorFunctionsOf]
  split
  · rfl
  · rw [List.map_flatMap]
    refine List.flatMap_congr fun (s, number) hs => ?_
    have hcode := fun dir => h dir s (List.fst_mem_of_mem_zipIdx hs)
    simp only [bothWays, List.map_cons, List.map_nil, Function.mapCode, FunctionBody.mapCode, hcode]
    rfl

/-- A program whose calls are replaced is the one without functions, if its sectors are. -/
theorem mapCode_generate {f : Direction → List Statement → List Statement}
    (hnil : ∀ dir, f dir [] = [])
    (h : ∀ dir, ∀ s ∈ sectors, f dir (sectorStatements c dir s) = sectorStatements c.inline dir s)
    (hneeded : recordsNeeded c.inline m sectors = []) :
    { (generate c m sectors).mapCode f with recordFunctions := [] } =
      generate c.inline m sectors := by
  have hprocedures : (bothWays (procedure c sectors)).map (Function.mapCode f) =
      bothWays (procedure c.inline sectors) := by
    simp only [bothWays, List.map_cons, List.map_nil, mapCode_procedure hnil h]
  rw [generate, generate, hneeded, ← hprocedures, ← mapCode_sectorFunctions h]
  rfl

/-- Without functions of records, no record needs functions. -/
theorem recordsNeeded_inline (hf : c.structFunctions = true) (hbuild : Model.build c g = some m)
    (herrors : m.errors = []) (h : ∀ s ∈ sectors, ∀ i ∈ s.items, i.Grounded m.roots) :
    recordsNeeded c.inline m sectors = [] :=
  recordsNeeded_of_plain c.inline m fun _ hs =>
    (inlines_sectorStatements hf hbuild herrors h (Nat.le_refl _) .read hs).plain

/-- **Written out**: with calls replaced and empty loops dropped, the program for packed sectors is
the program without functions of records. -/
theorem writtenOut_generate (hf : c.structFunctions = true) (hbuild : Model.build c g = some m)
    (herrors : m.errors = []) (h : ∀ s ∈ sectors, ∀ i ∈ s.items, i.Grounded m.roots) {levels : Nat}
    (hlevels : m.callLevels ≤ levels) :
    ((generate c m sectors).writtenOut levels).tidied = generate c.inline m sectors := by
  have hsector := fun dir s (hs : s ∈ sectors) =>
    inlines_sectorStatements hf hbuild herrors h hlevels dir hs
  rw [tidied_writtenOut]
  exact mapCode_generate (fun _ => rfl) (fun dir s hs => (hsector dir s hs).written)
    (recordsNeeded_inline hf hbuild herrors h)

end

end Program

/-- What a program is made of leads down from the data objects. -/
theorem grounded_of_pack {c : Config} {g : Registry} {m : Model} {sectors : List Sector}
    (hbuild : Model.build c g = some m) (herrors : m.errors = [])
    (hpack : pack c.capacity c.sectorCount m.groups = .ok sectors) :
    ∀ s ∈ sectors, ∀ i ∈ s.items, i.Grounded m.roots := by
  intro s hs i hi
  refine (arises_of_pack (fun objects hobjects d hd => ?_) hpack s hs i hi).grounded
    (Model.sound_of_build hbuild herrors)
  exact List.mem_flatten.2 ⟨objects, hobjects, hd⟩

/-- **Functions of records** are closed, and stand for the code without them. Of every layout that
is packed without errors, the records that are moved whole anywhere are those that have functions:
one pair for each, in the order of `records`. If all calls are replaced by the statements of their
functions, and loops dropped that are left without content, the program is the one that is generated
without functions of records. -/
theorem generateProgram_writtenOut {c : Config} {g : Registry} {p : Program}
    (hf : c.structFunctions = true) (h : generateProgram c g = some (.ok p)) :
    (∃ records : List String, records.Nodup ∧
      (∀ dir record, record ∈ p.calls dir ↔ record ∈ records) ∧
      p.recordFunctions.map (fun f => (f.direction, f.name)) = records.flatMap fun record =>
        [(.read, recordFunction .read record), (.save, recordFunction .save record)]) ∧
    ∃ (p' : Program) (enough : Nat), generateProgram c.inline g = some (.ok p') ∧
      ∀ levels, enough ≤ levels → (p.writtenOut levels).tidied = p' := by
  obtain ⟨m, sectors, hbuild, herrors, hpack, hcapacity, hnames, rfl⟩ := exists_of_generateProgram h
  have hgrounded := grounded_of_pack hbuild herrors hpack
  refine ⟨⟨Program.recordsNeeded c m sectors, Program.nodup_recordsNeeded c m sectors,
    Program.mem_calls_iff hbuild herrors hgrounded, ?_⟩,
    Program.generate c.inline m sectors, m.callLevels, ?_, fun levels hlevels =>
    Program.writtenOut_generate hf hbuild herrors hgrounded hlevels⟩
  · rw [Program.generate, List.map_flatMap]
    rfl
  · -- Without functions of records, there are fewer names to make.
    have hinline : ¬ Program.Unnameable c.inline m sectors := by
      rintro (⟨record, hrecord, -⟩ | hlisting)
      · rw [Program.recordsNeeded_inline hf hbuild herrors hgrounded] at hrecord
        cases hrecord
      · exact hnames (.inr hlisting)
    exact generateProgram_eq_ok ((Model.build_inline c g).trans hbuild) herrors hpack hcapacity
      hinline

/-! ## the small layout, and a struct without statements -/

namespace Sample

/-- Sectors with room for whole structs, which are left to the functions of their records. -/
def spacious : Config := { calling with sectorSize := 8 }

/-- What a layout becomes, if nothing is wrong with it. -/
def program? (c : Config) (g : Registry) : Option Program :=
  (generateProgram c g).bind Except.toOption

theorem eq_ok_of_program? {c : Config} {g : Registry} {p : Program} (h : program? c g = some p) :
    generateProgram c g = some (.ok p) := by
  obtain ⟨result, hresult, hp⟩ := Option.bind_eq_some_iff.1 h
  cases result with
  | error faults => cases hp
  | ok program => rw [hresult, Option.some.inj hp]

/-- The records that are moved whole in the small layout. -/
theorem small_calls : (program? spacious registry).map (·.calls .read) = some ["S", "A"] := by
  decide +kernel

/-- In the small layout, the functions of a struct and of one in a union of it stand for the code
without them. -/
theorem small_writtenOut : ∃ p, spacious.structFunctions = true ∧
    generateProgram spacious registry = some (.ok p) ∧ p.calls .read = ["S", "A"] ∧
    (∃ records : List String, records.Nodup ∧
      (∀ dir record, record ∈ p.calls dir ↔ record ∈ records) ∧
      p.recordFunctions.map (fun f => (f.direction, f.name)) = records.flatMap fun record =>
        [(.read, recordFunction .read record), (.save, recordFunction .save record)]) ∧
    ∃ (p' : Program) (enough : Nat), generateProgram spacious.inline registry = some (.ok p') ∧
      ∀ levels, enough ≤ levels → (p.writtenOut levels).tidied = p' := by
  obtain ⟨p, hp, hcalls⟩ := Option.map_eq_some_iff.1 small_calls
  have hgenerated := eq_ok_of_program? hp
  exact ⟨p, rfl, hgenerated, hcalls, generateProgram_writtenOut rfl hgenerated⟩

/-- An array of structs of which nothing travels, and a byte. -/
def hollow : Registry where
  records := [
    ⟨"S", .struct, [
      ⟨"a", .array (.name "P") ⟨.ofTokens [.literal "2"], some "2"⟩, Request.empty⟩,
      ⟨"b", .name "u8", Request.empty⟩], Request.empty, false⟩,
    ⟨"P", .struct, [⟨"x", .name "u8", { Request.empty with omitted := true }⟩], Request.empty,
      false⟩]
  aliases := []

/-- Whether there is a loop in the text of a program. -/
def loops (c : Config) (p : Program) : Bool := (p.tokens c).contains (.ident "for")

theorem hollow_texts :
    (program? spacious hollow).map (fun p => (p.calls .read, (p.writtenOut 2).calls .read,
      (p.writtenOut 2).calls .save, loops spacious (p.writtenOut 2))) =
      some (["S", "P"], [], [], true) ∧
    (program? spacious.inline hollow).map (loops spacious.inline) = some false := by
  decide +kernel

/-- With all calls replaced, the loop over the array is left without content. The code without
functions has no loop. -/
theorem hollow_loop : ∃ p p', generateProgram spacious hollow = some (.ok p) ∧
    generateProgram spacious.inline hollow = some (.ok p') ∧
    (p.writtenOut 2).calls .read = [] ∧ (p.writtenOut 2).calls .save = [] ∧
    loops spacious (p.writtenOut 2) = true ∧ loops spacious.inline p' = false := by
  obtain ⟨hcalling, hinline⟩ := hollow_texts
  obtain ⟨p, hp, htext⟩ := Option.map_eq_some_iff.1 hcalling
  obtain ⟨p', hp', hno⟩ := Option.map_eq_some_iff.1 hinline
  obtain ⟨-, hread, hsave, hloops⟩ : _ ∧ _ ∧ _ ∧ _ := by simpa only [Prod.mk.injEq] using htext
  exact ⟨p, p', eq_ok_of_program? hp, eq_ok_of_program? hp', hread, hsave, hloops, hno⟩

end Sample

end BitLayout
