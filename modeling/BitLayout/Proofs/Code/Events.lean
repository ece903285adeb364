import BitLayout.Code.Program
import Mathlib.Data.List.Basic

/-!
# BitLayout.Proofs.Code.Events

What statements do when they run: the moves, in order, each at its place and in the arms of choices
that stand around it. Loops run over all their indices, and the function of a record does what its
statements do with the struct that it is given.

A place is told by the object it belongs to, not by the names in the code around it, so a value on
the wire is at the same place in whichever local the code holds it. An event tells the arms around
it, and the tests of the whole choices that these belong to. So two pieces of code with the same
events do the same, whichever arm of every choice is taken.

* `Statement.events`, `inlined`: the events of statements, with functions of records run in place;
* `events_overRanks`: the events of nested loops over array ranks;
* `not_isCall_statementEvents`: no call is left unless one is left in the functions of records.
-/

namespace BitLayout

/-! ## places at run time -/

/-- A place, with all indices known. -/
inductive Spot where
  | object (name : String)
  /-- What the value at a place is on the wire. -/
  | onWire (value : Spot)
  | field (owner : Spot) (name : String) (ofUnion : Bool)
  | element (array : Spot) (index : Nat)
deriving DecidableEq, Repr

/-- What names in code stand for. -/
structure Scope where
  objects : String → Spot
  loops : Nat → Nat
  wires : Nat → Spot

namespace Scope

/-- The names in a procedure. -/
def start : Scope := ⟨.object, fun _ => 0, .object ∘ wireName⟩

/-- The names in the function of a record, which is given one struct. -/
def ofRecord (s : Spot) : Scope := { start with objects := fun _ => s }

/-- Inside a loop, at one index. -/
def loop (e : Scope) (number index : Nat) : Scope :=
  { e with loops := fun k => if k = number then index else e.loops k }

/-- Inside a block with a local for a value on the wire. -/
def wire (e : Scope) (number : Nat) (value : Spot) : Scope :=
  { e with wires := fun k => if k = number then .onWire value else e.wires k }

end Scope

/-- Where a place is. -/
def Place.spot (e : Scope) : Place → Spot
  | object name => e.objects name
  | wire number => e.wires number
  | field owner name ofUnion => .field (owner.spot e) name ofUnion
  | element array (.constant n) => .element (array.spot e) n
  | element array (.loop number) => .element (array.spot e) (e.loops number)

/-! ## events -/

/-- A tag has a value. -/
structure Test where
  tag : Spot
  value : Int
deriving DecidableEq, Repr

/-- What is done at a place: a move, or the transform between a value and what it is on the wire. -/
inductive Action where
  | bool (spot : Spot) (type : Option TypeExpr)
  | integer (spot : Spot) (range : IntegerRange) (type : IntegerType)
  | text (spot : Spot) (bytes : Nat) (terminated : Bool)
  | row (spot : Spot) (bytes : Nat)
  | bytes (spot : Spot) (count : Nat) (type : TypeExpr)
  | padding (bits : Nat)
  | default (spot : Spot) (value : Tokens)
  | transform (t : Transform) (spot : Spot)
  /-- The function of a record, left as it is. -/
  | call (spot : Spot) (record : String)
deriving DecidableEq, Repr

/-- An arm of a choice is taken, with the tests of all arms of the choice that do anything. -/
structure Taken where
  test : Test
  among : List Test
deriving DecidableEq, Repr

/-- An action, and the arms around it, outermost first. -/
structure Event where
  arms : List Taken
  action : Action
deriving DecidableEq, Repr

/-- The event in one more arm. -/
def Event.under (t : Taken) (ev : Event) : Event := { ev with arms := t :: ev.arms }

/-- What an arm does, if a tag has a value. -/
structure Alternative where
  tag : Spot
  value : Int
  events : List Event

/-- The test of an arm. -/
def Alternative.test (a : Alternative) : Test := ⟨a.tag, a.value⟩

/-- Whether an arm does anything. -/
def Alternative.acts (a : Alternative) : Bool := !a.events.isEmpty

/-- What a choice does: the events of its arms. Arms that do nothing are passed over. -/
def choiceEvents (as : List Alternative) : List Event :=
  (as.filter Alternative.acts).flatMap fun a =>
    a.events.map (.under ⟨a.test, (as.filter Alternative.acts).map Alternative.test⟩)

/-- What a move does. -/
def Move.action (e : Scope) : Move → Action
  | bool place type => .bool (place.spot e) type
  | integer place range type => .integer (place.spot e) range type
  | text place count terminated => .text (place.spot e) count terminated
  | row place count => .row (place.spot e) count
  | bytes place count type => .bytes (place.spot e) count type
  | record place name => .call (place.spot e) name
  | padding bits => .padding bits
  | default place value => .default (place.spot e) value

/-- What a move does, if the functions of records do what is given. -/
def Move.events (call : Spot → String → List Event) (e : Scope) (m : Move) : List Event :=
  match m with
  | record place name => call (place.spot e) name
  | m => [⟨[], m.action e⟩]

/-- A transform, in front of what is moved when it saves, and behind it when it reads. -/
def transformEvents (d : Direction) (t : Transform) (s : Spot) (moved : List Event) : List Event :=
  match d with
  | .read => moved ++ [⟨[], .transform t s⟩]
  | .save => ⟨[], .transform t s⟩ :: moved

mutual

/-- What a statement does, if the functions of records do what is given. -/
def Statement.events (d : Direction) (call : Spot → String → List Event) (e : Scope) :
    Statement → List Event
  | .move m => m.events call e
  | .wire number t place body =>
    transformEvents d t (place.spot e) (statementEvents d call (e.wire number (place.spot e)) body)
  | .loop l body =>
    (List.range' l.start (l.stop - l.start)).flatMap fun i =>
      statementEvents d call (e.loop l.number i) body
  | .choice arms => choiceEvents (armAlternatives d call e arms)

/-- What statements in a row do. -/
def statementEvents (d : Direction) (call : Spot → String → List Event) (e : Scope) :
    List Statement → List Event
  | [] => []
  | s :: rest => s.events d call e ++ statementEvents d call e rest

/-- What the arms of a choice do. -/
def armAlternatives (d : Direction) (call : Spot → String → List Event) (e : Scope) :
    List Arm → List Alternative
  | [] => []
  | .mk tag value body :: rest =>
    ⟨tag.spot e, value, statementEvents d call e body⟩ :: armAlternatives d call e rest

end

/-- What the functions of records do, run in place through at most `levels` levels. -/
def inlined (bodies : String → List Statement) (d : Direction) :
    (levels : Nat) → Spot → String → List Event
  | 0, s, record => [⟨[], .call s record⟩]
  | levels + 1, s, record =>
    statementEvents d (inlined bodies d levels) (.ofRecord s) (bodies record)

section

variable {d : Direction} {call : Spot → String → List Event} {e : Scope}

theorem statementEvents_append (xs ys : List Statement) :
    statementEvents d call e (xs ++ ys) =
      statementEvents d call e xs ++ statementEvents d call e ys := by
  induction xs with
  | nil => rfl
  | cons x xs ih => rw [List.cons_append, statementEvents, statementEvents, ih, List.append_assoc]

theorem statementEvents_flatMap {α : Type} (xs : List α) (f : α → List Statement) :
    statementEvents d call e (xs.flatMap f) =
      xs.flatMap fun x => statementEvents d call e (f x) := by
  induction xs with
  | nil => rfl
  | cons x xs ih => rw [List.flatMap_cons, List.flatMap_cons, statementEvents_append, ih]

theorem statementEvents_singleton (s : Statement) :
    statementEvents d call e [s] = s.events d call e := List.append_nil _

/-- A choice without arms does nothing. -/
theorem events_chosen (arms : List Arm) :
    statementEvents d call e (Statement.chosen arms) =
      choiceEvents (armAlternatives d call e arms) := by
  unfold Statement.chosen
  cases arms with
  | nil => rfl
  | cons arm arms => exact statementEvents_singleton _

/-- A loop without content does nothing. -/
theorem events_looped (l : Loop) (body : List Statement) :
    statementEvents d call e (Statement.looped l body) =
      (List.range' l.start (l.stop - l.start)).flatMap fun i =>
        statementEvents d call (e.loop l.number i) body := by
  unfold Statement.looped
  cases body with
  | nil => exact (List.flatMap_eq_nil_iff.2 fun _ _ => rfl).symm
  | cons s body => exact statementEvents_singleton _

/-- What is done for so many bits without meaning. -/
def paddingEvents (bits : Nat) : List Event :=
  (List.replicate (bits / 32) 32 ++ if bits % 32 = 0 then [] else [bits % 32]).map fun n =>
    ⟨[], .padding n⟩

theorem events_padding (bits : Nat) :
    statementEvents d call e (Statement.padding bits) = paddingEvents bits := by
  rw [Statement.padding, paddingEvents]
  generalize (List.replicate (bits / 32) 32 ++ if bits % 32 = 0 then [] else [bits % 32]) = ns
  induction ns with
  | nil => rfl
  | cons n ns ih => rw [List.map_cons, List.map_cons, statementEvents, ih]; rfl

/-! ## calls -/

/-- Whether an event is a call that is left as it is. -/
def Event.isCall (ev : Event) : Bool :=
  match ev.action with
  | .call _ _ => true
  | _ => false

/-- A move is no call, unless a function of a record leaves one. -/
theorem not_isCall_moveEvents (hcall : ∀ s name, ∀ ev ∈ call s name, ev.isCall = false) (m : Move) :
    ∀ ev ∈ m.events call e, ev.isCall = false := by
  cases m with
  | record place name => exact hcall _ _
  | _ =>
    intro ev hev
    rw [List.mem_singleton.1 hev]
    rfl

mutual

theorem not_isCall_events (hcall : ∀ s name, ∀ ev ∈ call s name, ev.isCall = false) (e : Scope) :
    (s : Statement) → ∀ ev ∈ s.events d call e, ev.isCall = false
  | .move m => not_isCall_moveEvents hcall m
  | .wire number t place body => by
    intro ev hev
    have hbody := not_isCall_statementEvents hcall (e.wire number (place.spot e)) body
    rw [Statement.events] at hev
    unfold transformEvents at hev
    split at hev
    · rcases List.mem_append.1 hev with hev | hev
      · exact hbody ev hev
      · rw [List.mem_singleton.1 hev]
        rfl
    · rcases List.mem_cons.1 hev with rfl | hev
      · rfl
      · exact hbody ev hev
  | .loop l body => by
    intro ev hev
    rw [Statement.events] at hev
    obtain ⟨i, -, hev⟩ := List.mem_flatMap.1 hev
    exact not_isCall_statementEvents hcall (e.loop l.number i) body ev hev
  | .choice arms => by
    intro ev hev
    rw [Statement.events] at hev
    obtain ⟨a, ha, hev⟩ := List.mem_flatMap.1 hev
    obtain ⟨inner, hinner, rfl⟩ := List.mem_map.1 hev
    exact not_isCall_armAlternatives hcall e arms a (List.mem_of_mem_filter ha) inner hinner

/-- Statements call no functions of records, apart from what these do. -/
theorem not_isCall_statementEvents (hcall : ∀ s name, ∀ ev ∈ call s name, ev.isCall = false)
    (e : Scope) : (body : List Statement) → ∀ ev ∈ statementEvents d call e body, ev.isCall = false
  | [] => fun _ hev => (nomatch hev)
  | s :: rest => by
    intro ev hev
    rw [statementEvents] at hev
    cases List.mem_append.1 hev with
    | inl hev => exact not_isCall_events hcall e s ev hev
    | inr hev => exact not_isCall_statementEvents hcall e rest ev hev

theorem not_isCall_armAlternatives (hcall : ∀ s name, ∀ ev ∈ call s name, ev.isCall = false)
    (e : Scope) :
    (arms : List Arm) → ∀ a ∈ armAlternatives d call e arms, ∀ ev ∈ a.events, ev.isCall = false
  | [] => fun _ ha => (nomatch ha)
  | .mk tag value body :: rest => by
    intro a ha
    rw [armAlternatives] at ha
    rcases List.mem_cons.1 ha with rfl | ha
    · exact not_isCall_statementEvents hcall e body
    · exact not_isCall_armAlternatives hcall e rest a ha

end

end

/-! ## loops -/

/-- The loops and locals that a place mentions have numbers below a bound. -/
def Place.Below (n : Nat) : Place → Prop
  | object _ => True
  | wire number => number < n
  | field owner _ _ => owner.Below n
  | element array (.constant _) => array.Below n
  | element array (.loop number) => array.Below n ∧ number < n

/-- Two scopes have the same objects, and the same loops and locals below a bound. -/
structure Scope.Agrees (n : Nat) (e f : Scope) : Prop where
  objects : e.objects = f.objects
  loops : ∀ k < n, e.loops k = f.loops k
  wires : ∀ k < n, e.wires k = f.wires k

section

variable {e f : Scope} {p : Place} {n k : Nat}

theorem Place.below_object (n : Nat) (name : String) : (object name).Below n := trivial

theorem Place.Below.mono (h : p.Below n) (hle : n ≤ k) : p.Below k := by
  induction p with
  | object => trivial
  | wire => exact Nat.lt_of_lt_of_le h hle
  | field _ _ _ ih => exact ih h
  | element _ index ih =>
    cases index with
    | constant => exact ih h
    | loop => exact ⟨ih h.1, Nat.lt_of_lt_of_le h.2 hle⟩

/-- A place is where it is in any scope that agrees on what it mentions. -/
theorem Place.Below.spot_eq (h : p.Below n) (hef : Scope.Agrees n e f) : p.spot e = p.spot f := by
  induction p with
  | object name => simp only [spot, hef.objects]
  | wire number => exact hef.wires number h
  | field _ _ _ ih => simp only [spot, ih h]
  | element _ index ih =>
    cases index with
    | constant => simp only [spot, ih h]
    | loop number => simp only [spot, ih h.1, hef.loops number h.2]

theorem Scope.Agrees.refl (n : Nat) (e : Scope) : Agrees n e e :=
  ⟨rfl, fun _ _ => rfl, fun _ _ => rfl⟩

theorem Scope.Agrees.trans {n k : Nat} {e f g : Scope} (h : Agrees n e f) (h' : Agrees k f g)
    (hle : n ≤ k) : Agrees n e g where
  objects := h.objects.trans h'.objects
  loops j hj := (h.loops j hj).trans (h'.loops j (Nat.lt_of_lt_of_le hj hle))
  wires j hj := (h.wires j hj).trans (h'.wires j (Nat.lt_of_lt_of_le hj hle))

theorem Scope.agrees_loop (e : Scope) (n i : Nat) : Agrees n e (e.loop n i) where
  objects := rfl
  loops _ hk := (if_neg (Nat.ne_of_lt hk)).symm
  wires _ _ := rfl

end

/-- The elements of an array with some extents. -/
def Spot.elements : List Nat → Spot → List Spot
  | [], s => [s]
  | extent :: rest, s => (List.range extent).flatMap fun i => elements rest (.element s i)

/-- Nested loops over array ranks do at every element what their content does there. -/
theorem events_overRanks {d : Direction} {call : Spot → String → List Event} {e : Scope}
    {extents : List Nat} {n : Nat} {place : Place} {body : Place → Nat → List Statement}
    {f : Spot → List Event} (hplace : place.Below n)
    (hbody : ∀ (e' : Scope) (place' : Place) (n' : Nat), n ≤ n' → Scope.Agrees n e e' →
      place'.Below n' → statementEvents d call e' (body place' n') = f (place'.spot e')) :
    statementEvents d call e (Statement.overRanks extents n place body) =
      (Spot.elements extents (place.spot e)).flatMap f := by
  induction extents generalizing e n place with
  | nil =>
    rw [Statement.overRanks, hbody e place n (Nat.le_refl n) (.refl n e) hplace, Spot.elements,
      List.flatMap_singleton]
  | cons extent rest ih =>
    rw [Statement.overRanks, events_looped, Spot.elements, List.flatMap_assoc,
      ← List.range_eq_range']
    refine List.flatMap_congr fun i _ => ?_
    have hagrees := e.agrees_loop n i
    have hinner : (Place.element place (.loop n)).Below (n + 1) :=
      ⟨hplace.mono (Nat.le_succ n), Nat.lt_succ_self n⟩
    have hspot : (Place.element place (.loop n)).spot (e.loop n i) =
        .element (place.spot e) i := by
      rw [Place.spot, ← hplace.spot_eq hagrees]
      exact congrArg _ (if_pos rfl)
    rw [ih hinner fun e' place' n' hle he' hplace' => hbody e' place' n' (by omega)
      (hagrees.trans he' (Nat.le_succ n)) hplace', hspot]

end BitLayout
