import BitLayout.Code.Program
import BitLayout.Proofs.Code.Halves

/-!
# BitLayout.Proofs.Code.Mirror

The texts of a generated program, the half that reads beside the half that saves. Two texts *mirror*
each other if they are put together alike, around calls that move the same:

```
read    p = f(read_u8(state, 3));     for i in 0..4 { .. }     { let mut w = ..; .. p = post(&w); }
save    write_u8(state, g(p), 3);     for i in 0..4 { .. }     { let w = pre(&p); .. }
```

Only the half that reads may hold defaults, and loops around these alone.

* `statements_mirrored`: the texts of statements, and of the same ones without defaults;
* `mirrors_of_generate`: the functions of a program come in pairs that mirror each other.
-/

namespace BitLayout

open Phrase

/-! ## calls -/

/-- What a call moves, and how much of it. -/
inductive Primitive where
  | bool
  /-- So many bits of a word. -/
  | word (carrier : Carrier) (bits : Nat)
  | text (bytes : Nat) (terminated : Bool)
  | buffer (bytes : Nat)
  /-- A whole struct, by the function of its record. -/
  | record (name : String)

/-- The text of a call that reads, and puts what it reads into a place. What is read without a place
is dropped. -/
inductive Reads (fns : StreamFunctions) : Primitive → Option Place → Tokens → Prop where
  | bool (p : Place) (type : Option TypeExpr) :
    Reads fns .bool (some p)
      (p.assign (call fns.bool [streamWord] ++ type.elim [] fun t => .ident "as" :: t.tokens))
  | word (p : Place) (carrier : Carrier) (bits : Nat) (f : Formula) :
    Reads fns (.word carrier bits) (some p)
      (p.assign (f.tokens (call (carrier.function fns) [streamWord, number bits])))
  | padding (carrier : Carrier) (bits : Nat) :
    Reads fns (.word carrier bits) none
      (statement (Phrase.word "let" ++ Phrase.word "_" ++ .sign '=' ::
        call (carrier.function fns) [streamWord, number bits]))
  | text (p : Place) (bytes : Nat) (terminated : Bool) :
    Reads fns (.text bytes terminated) (some p)
      (statement (call (if terminated then fns.terminatedString else fns.string)
        [streamWord, p.exclusiveRow, number bytes]))
  | row (p : Place) (bytes : Nat) :
    Reads fns (.buffer bytes) (some p)
      (statement (call fns.buffer [streamWord, p.exclusiveRow, number bytes]))
  | bytes (p : Place) (bytes : Nat) (type : TypeExpr) :
    Reads fns (.buffer bytes) (some p)
      (braces (
        statement (Phrase.word "let" ++ Phrase.word "mut" ++ bytesWord ++ .sign '=' ::
          brackets (Token.literal "0u8" :: .sign ';' :: number bytes)) ++
        statement (call fns.buffer [streamWord, exclusive bytesWord, number bytes]) ++
        p.assign (.sign '<' :: type.tokens ++ .sign '>' :: pathSep ++
          call (Phrase.word "from_le_bytes") [bytesWord])))
  | record (p : Place) (name : String) :
    Reads fns (.record name) (some p)
      (statement (call (Phrase.word (recordFunction .read name)) [streamWord, p.exclusive]))

/-- The text of a call that saves what is in a place. Without a place, zeros are saved. -/
inductive Saves (fns : StreamFunctions) : Primitive → Option Place → Tokens → Prop where
  | bool (p : Place) : Saves fns .bool (some p) (statement (call fns.bool [streamWord, p.value]))
  | boolOf (p : Place) :
    Saves fns .bool (some p)
      (statement (call fns.bool
        [streamWord, parens p.value ++ [.punct '!' true, .sign '='] ++ number 0]))
  | word (p : Place) (carrier : Carrier) (bits : Nat) (f : Formula) :
    Saves fns (.word carrier bits) (some p)
      (statement (call (carrier.function fns) [streamWord, f.tokens p.value, number bits]))
  | padding (carrier : Carrier) (bits : Nat) :
    Saves fns (.word carrier bits) none
      (statement (call (carrier.function fns) [streamWord, number 0, number bits]))
  | text (p : Place) (bytes : Nat) (terminated : Bool) :
    Saves fns (.text bytes terminated) (some p)
      (statement (call (if terminated then fns.terminatedString else fns.string)
        [streamWord, p.sharedRow, number bytes]))
  | row (p : Place) (bytes : Nat) :
    Saves fns (.buffer bytes) (some p)
      (statement (call fns.buffer [streamWord, p.sharedRow, number bytes]))
  | bytes (p : Place) (bytes : Nat) :
    Saves fns (.buffer bytes) (some p)
      (braces (
        statement (Phrase.word "let" ++ bytesWord ++ .sign '=' :: parens p.value ++ .sign '.' ::
          call (Phrase.word "to_le_bytes") []) ++
        statement (call fns.buffer [streamWord, shared bytesWord, number bytes])))
  | record (p : Place) (name : String) :
    Saves fns (.record name) (some p)
      (statement (call (Phrase.word (recordFunction .save name)) [streamWord, p.shared]))

/-! ## texts side by side -/

/-- An arm of a choice, with the text of each half. -/
structure ArmTexts where
  tag : Place
  value : Int
  read : Tokens
  save : Tokens

/-- The text of a choice between arms. -/
def chainTokens (text : ArmTexts → Tokens) : List ArmTexts → Tokens
  | [] => []
  | a :: rest =>
    .ident "if" :: armTest a.tag a.value ++ braces (text a) ++
      (if rest.isEmpty then [] else [.ident "else"]) ++ chainTokens text rest

/-- A text that reads and a text that saves do the same, piece by piece. -/
inductive Mirrored (readFns saveFns : StreamFunctions) : Tokens → Tokens → Prop where
  | nil : Mirrored readFns saveFns [] []
  | append {r r' w w' : Tokens} (h : Mirrored readFns saveFns r w)
    (h' : Mirrored readFns saveFns r' w') : Mirrored readFns saveFns (r ++ r') (w ++ w')
  | call {k : Primitive} {place : Option Place} {r w : Tokens} (hr : Reads readFns k place r)
    (hw : Saves saveFns k place w) : Mirrored readFns saveFns r w
  | default (place : Place) (value : Tokens) : Mirrored readFns saveFns (place.assign value) []
  | wire {r w : Tokens} (number : Nat) (t : Transform) (place : Place)
    (h : Mirrored readFns saveFns r w) :
    Mirrored readFns saveFns (wireTokens .read number t place r) (wireTokens .save number t place w)
  | loop {r w : Tokens} (l : Loop) (h : Mirrored readFns saveFns r w) :
    Mirrored readFns saveFns (l.tokens ++ braces r) (l.tokens ++ braces w)
  /-- A loop around defaults. -/
  | idle {r : Tokens} (l : Loop) (h : Mirrored readFns saveFns r []) :
    Mirrored readFns saveFns (l.tokens ++ braces r) []
  | choice {arms : List ArmTexts} (hasc : Ascending ArmTexts.value arms)
    (h : ∀ a ∈ arms, Mirrored readFns saveFns a.read a.save) :
    Mirrored readFns saveFns (chainTokens ArmTexts.read arms) (chainTokens ArmTexts.save arms)

section

variable {rf wf : StreamFunctions}

/-- A move other than a default is one call in each half. -/
theorem Move.mirrored {m : Move} (h : ∀ place value, m ≠ .default place value) :
    Mirrored rf wf (m.tokens rf .read) (m.tokens wf .save) := by
  cases m with
  | bool place type =>
    cases type with
    | none =>
      have hr : Reads rf .bool (some place)
          (place.assign (Phrase.call rf.bool [streamWord] ++ [])) := .bool place none
      rw [List.append_nil] at hr
      exact .call hr (.bool place)
    | some type => exact .call (.bool place (some type)) (.boolOf place)
  | integer place range type => exact .call (.word ..) (.word ..)
  | text place bytes terminated => exact .call (.text ..) (.text ..)
  | row place bytes => exact .call (.row ..) (.row ..)
  | bytes place count type => exact .call (.bytes ..) (.bytes ..)
  | record place name => exact .call (.record ..) (.record ..)
  | padding bits => exact .call (.padding ..) (.padding ..)
  | default place value => exact absurd rfl (h place value)

/-- The texts of an arm, and of the same one without defaults. -/
def Arm.texts (rf wf : StreamFunctions) : Arm → ArmTexts
  | mk tag value body =>
    ⟨tag, value, statementTokens rf .read body, statementTokens wf .save (bareAll body)⟩

theorem Arm.value_texts (arm : Arm) : (arm.texts rf wf).value = arm.value := by
  cases arm
  rfl

theorem chainTokens_read (arms : List Arm) :
    chainTokens ArmTexts.read (arms.map (Arm.texts rf wf)) = armTokens rf .read arms := by
  induction arms with
  | nil => rfl
  | cons arm arms ih =>
    obtain ⟨tag, value, body⟩ := arm
    simp [chainTokens, armTokens, ih, Arm.texts]

theorem chainTokens_save (arms : List Arm) :
    chainTokens ArmTexts.save (arms.map (Arm.texts rf wf)) =
      armTokens wf .save (bareArms arms) := by
  induction arms with
  | nil => rfl
  | cons arm arms ih =>
    obtain ⟨tag, value, body⟩ := arm
    simp [chainTokens, armTokens, bareArms, bareArms_eq, ih, Arm.texts]

theorem statementTokens_append (fns : StreamFunctions) (d : Direction) (xs ys : List Statement) :
    statementTokens fns d (xs ++ ys) = statementTokens fns d xs ++ statementTokens fns d ys := by
  induction xs with
  | nil => rfl
  | cons x xs ih => simp [statementTokens, ih]

theorem statementTokens_singleton (fns : StreamFunctions) (d : Direction) (s : Statement) :
    statementTokens fns d [s] = s.tokens fns d := List.append_nil _

mutual

theorem statement_mirrored : (s : Statement) → s.Ordered →
    Mirrored rf wf (s.tokens rf .read) (statementTokens wf .save s.bare)
  | .move m, _ => by
    by_cases hdefault : ∃ place value, m = .default place value
    · obtain ⟨place, value, rfl⟩ := hdefault
      exact .default place value
    · have hmove : ∀ place value, m ≠ .default place value := fun place value heq =>
        hdefault ⟨place, value, heq⟩
      rw [Statement.bare_move hmove, statementTokens_singleton]
      exact Move.mirrored hmove
  | .wire number t place body, h => by
    rw [Statement.bare, statementTokens_singleton]
    exact .wire number t place (statements_mirrored body h)
  | .loop l body, h => by
    have hbody := statements_mirrored body h
    rw [Statement.tokens, Statement.bare]
    unfold Statement.looped
    split
    · next hnil =>
      rw [List.isEmpty_iff.1 hnil] at hbody
      exact .idle l hbody
    · rw [statementTokens_singleton]
      exact .loop l hbody
  | .choice arms, h => by
    have hasc : Ascending ArmTexts.value (arms.map (Arm.texts rf wf)) := by
      simpa [Ascending, List.pairwise_map, Arm.value_texts] using h.1
    have hchain := Mirrored.choice hasc (arms_mirrored arms h.2)
    rw [chainTokens_read, chainTokens_save] at hchain
    rw [Statement.bare, statementTokens_singleton]
    exact hchain

/-- **Statements**: the text of statements that read mirrors the text of the same statements without
defaults, that save. -/
theorem statements_mirrored : (xs : List Statement) → OrderedAll xs →
    Mirrored rf wf (statementTokens rf .read xs) (statementTokens wf .save (bareAll xs))
  | [], _ => .nil
  | x :: xs, h => by
    rw [statementTokens, bareAll, statementTokens_append]
    exact .append (statement_mirrored x h.1) (statements_mirrored xs h.2)

theorem arms_mirrored : (arms : List Arm) → OrderedArms arms →
    ∀ a ∈ arms.map (Arm.texts rf wf), Mirrored rf wf a.read a.save
  | [], _ => by simp
  | .mk tag value body :: rest, h =>
    List.forall_mem_cons.2 ⟨statements_mirrored body h.1, arms_mirrored rest h.2⟩

end

end

/-! ## functions -/

/-- What two functions do is the same, apart from defaults. -/
inductive FunctionBody.Halves : FunctionBody → FunctionBody → Prop where
  | statements {r w : List Statement} (h : BitLayout.Halves r w) :
    FunctionBody.Halves (.statements r) (.statements w)
  | firstSector {r w : List Statement} (h : BitLayout.Halves r w) :
    FunctionBody.Halves (.firstSector r) (.firstSector w)
  | dispatch (sectors : Nat) : FunctionBody.Halves (.dispatch sectors) (.dispatch sectors)

namespace Program

/-- The text that ends a procedure for all but the first sector. -/
def firstOnly : Tokens :=
  .ident "if" :: sectorWord ++ [.punct '!' true, .sign '='] ++ number 0 ++
    braces (statement (word "return"))

/-- The text that leaves the work to the functions of so many sectors. -/
def dispatchTokens (d : Direction) (sectors : Nat) (objects : List DataObject) : Tokens :=
  .ident "match" :: sectorWord ++ braces (
    (List.range sectors).flatMap (fun n =>
      number n ++ [.punct '=' true, .sign '>'] ++ word (sectorFunction d n) ++
        parens (streamWord ++ .sign ',' :: commas (objects.map (word ·.name))) ++ [.sign ',']) ++
    word "_" ++ [.punct '=' true, .sign '>'] ++ braces [])

/-- The texts of what two functions do mirror each other. -/
inductive Texts (c : Config) : Tokens → Tokens → Prop where
  | statements {r w : Tokens} (h : Mirrored c.readFns c.writeFns r w) : Texts c r w
  | firstSector {r w : Tokens} (h : Mirrored c.readFns c.writeFns r w) :
    Texts c (firstOnly ++ r) (firstOnly ++ w)
  | dispatch (sectors : Nat) (objects : List DataObject) :
    Texts c (dispatchTokens .read sectors objects) (dispatchTokens .save sectors objects)

/-- The names of two functions that belong together. -/
inductive Names (c : Config) : String → String → Prop where
  | procedure : Names c c.readName c.saveName
  | sector (n : Nat) : Names c (sectorFunction .read n) (sectorFunction .save n)
  | record (name : String) : Names c (recordFunction .read name) (recordFunction .save name)

end Program

/-- A function that reads and one that saves belong together, and do the same apart from
defaults. -/
structure Function.Mirrors (c : Config) (r w : Function) : Prop where
  read : r.direction = .read
  save : w.direction = .save
  isProcedure : r.isProcedure = w.isProcedure
  objects : r.objects = w.objects
  names : Program.Names c r.name w.name
  halves : r.body.Halves w.body
  texts : Program.Texts c (Program.bodyTokens c r) (Program.bodyTokens c w)

namespace Program

variable {c : Config} {m : Model} {r w : Function}

/-- The texts mirror each other where the statements are the same. -/
theorem texts_of_halves (hr : r.direction = .read) (hw : w.direction = .save)
    (hobjects : r.objects = w.objects) (h : r.body.Halves w.body) :
    Texts c (bodyTokens c r) (bodyTokens c w) := by
  obtain ⟨_, _, _, _, objects, body⟩ := r
  obtain ⟨_, _, _, _, objects', body'⟩ := w
  obtain rfl := hr
  obtain rfl := hw
  obtain rfl : objects = objects' := hobjects
  cases h with
  | statements h =>
    obtain rfl := h.bare
    exact .statements (statements_mirrored _ h.ordered)
  | firstSector h =>
    obtain rfl := h.bare
    exact .firstSector (statements_mirrored _ h.ordered)
  | dispatch sectors => exact .dispatch sectors objects

theorem mirrors_procedure (c : Config) (sectors : List Sector) :
    (procedure c sectors .read).Mirrors c (procedure c sectors .save) := by
  have hbody : (procedure c sectors .read).body.Halves (procedure c sectors .save).body := by
    match sectors with
    | [] => exact .firstSector .nil
    | [s] => exact .firstSector (Items.halves ..)
    | _ :: _ :: _ => exact .dispatch _
  exact ⟨rfl, rfl, rfl, rfl, .procedure, hbody, texts_of_halves rfl rfl rfl hbody⟩

theorem mirrors_record (c : Config) (m : Model) (record : String) :
    (recordFunctionOf c m record .read).Mirrors c (recordFunctionOf c m record .save) := by
  have hbody : (recordFunctionOf c m record .read).body.Halves
      (recordFunctionOf c m record .save).body := .statements (Transfer.halves_fields ..)
  exact ⟨rfl, rfl, rfl, rfl, .record record, hbody, texts_of_halves rfl rfl rfl hbody⟩

/-- Functions that come in pairs, each of which mirrors. -/
def Paired (c : Config) (functions : List Function) : Prop :=
  ∃ pairs : List (Function × Function), functions = pairs.flatMap (fun x => [x.1, x.2]) ∧
    ∀ x ∈ pairs, x.1.Mirrors c x.2

theorem Paired.append {fs gs : List Function} (h : Paired c fs) (h' : Paired c gs) :
    Paired c (fs ++ gs) := by
  obtain ⟨xs, rfl, hxs⟩ := h
  obtain ⟨ys, rfl, hys⟩ := h'
  exact ⟨xs ++ ys, by rw [List.flatMap_append], List.forall_mem_append.2 ⟨hxs, hys⟩⟩

theorem paired_bothWays {α : Type} {xs : List α} {f : α → Direction → Function}
    (h : ∀ x ∈ xs, (f x .read).Mirrors c (f x .save)) :
    Paired c (xs.flatMap fun x => bothWays (f x)) :=
  ⟨xs.map fun x => (f x .read, f x .save), by rw [List.flatMap_map]; rfl,
    List.forall_mem_map.2 h⟩

theorem paired_sectorFunctions (c : Config) (sectors : List Sector) :
    Paired c (sectorFunctionsOf c sectors) := by
  unfold sectorFunctionsOf
  split
  · exact ⟨[], rfl, by simp⟩
  · refine paired_bothWays fun x _ => ?_
    have hhalves : Halves (sectorStatements c .read x.1) (sectorStatements c .save x.1) :=
      Items.halves ..
    exact ⟨rfl, rfl, rfl, rfl, .sector x.2, .statements hhalves,
      texts_of_halves rfl rfl rfl (.statements hhalves)⟩

/-- **Mirrored halves**: the functions of a program come in pairs, one that reads and one that
saves, that do the same apart from defaults: in statements, and in their texts. -/
theorem mirrors_of_generate (c : Config) (m : Model) (sectors : List Sector) :
    Paired c (generate c m sectors).functions := by
  have hprocedures : Paired c (bothWays (procedure c sectors)) :=
    ⟨[(procedure c sectors .read, procedure c sectors .save)], rfl, by
      simpa using mirrors_procedure c sectors⟩
  have hrecords : Paired c ((recordsNeeded c m sectors).flatMap fun r =>
      bothWays (recordFunctionOf c m r)) := paired_bothWays fun r _ => mirrors_record c m r
  exact (hprocedures.append (paired_sectorFunctions c sectors)).append hrecords

end Program

end BitLayout
