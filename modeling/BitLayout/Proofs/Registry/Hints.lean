import BitLayout.Proofs.Registry.Collected
import BitLayout.Proofs.Request.Spelling

/-!
# BitLayout.Proofs.Registry.Hints

Hints on how a record is laid out in memory, with arguments or without, as in `repr(C, packed(2))`.
They are run like options, but nothing reads their arguments, so an attribute is looked through up
to the first hint that has any.

* `Hint.lookedAt`: the hints that are looked at;
* `hasReprC_eq`: the layout of C is found if one of them is `C`;
* `Registry.inC_of_collect`: what the registry says about a record with hints.
  `Sample.hint_passed_over` is a record whose `C` stands behind arguments.
-/

namespace BitLayout

/-- A hint on how a record is laid out in memory. -/
structure Hint where
  word : String
  arguments : Option Tokens
deriving DecidableEq, Repr

namespace Hint

/-- A hint as it is written. -/
def tokens (h : Hint) : Tokens := .ident h.word :: h.arguments.elim [] (Tokens.enclosed .paren)

/-- Whether a hint asks for the layout of C. -/
def isC (h : Hint) : Bool := h.word = "C"

/-- The hints that are looked at: those up to and with the first that has arguments. -/
def lookedAt : List Hint → List Hint
  | [] => []
  | h :: hints => if h.arguments.isSome then [h] else h :: lookedAt hints

theorem lookedAt_subset (hints : List Hint) : lookedAt hints ⊆ hints := by
  induction hints with
  | nil => exact List.Subset.refl _
  | cons h hints ih =>
    rw [lookedAt]
    split
    · simp
    · exact List.cons_subset_cons h ih

/-- All hints are looked at if only the last has arguments. -/
theorem lookedAt_eq_self {hints : List Hint} (h : ∀ f ∈ hints.dropLast, f.arguments = none) :
    lookedAt hints = hints := by
  induction hints with
  | nil => rfl
  | cons f hints ih =>
    rw [lookedAt]
    cases hints with
    | nil => exact ite_self [f]
    | cons g hints =>
      rw [List.dropLast_cons_cons, List.forall_mem_cons] at h
      rw [h.1, ih h.2]
      rfl

/-- What is found when a hint has been looked at; an error if it is the last. -/
def act (found : Bool) (h : Hint) : Bool × Option ReadError :=
  (found || h.isC, if h.arguments.isSome then some (.missingSign ",") else none)

/-- **Hints** are looked at one after the other. -/
theorem actAll_fst (found : Bool) (hints : List Hint) :
    (actAll act found hints).1 = (found || (lookedAt hints).any isC) := by
  induction hints generalizing found with
  | nil => simp [actAll, lookedAt]
  | cons h hints ih =>
    rw [actAll, act, lookedAt]
    cases h.arguments with
    | none => exact (ih _).trans (Bool.or_assoc _ _ _)
    | some inner => simp

/-- What is done with the word of a hint. -/
def scan (found : Bool) (word : Option String) : Reading Bool := return found || word = some "C"

theorem scan_word (found : Bool) (h : Hint) (remaining : Remaining) :
    scan found (some h.word) remaining = .ok (found || h.isC, remaining) := by
  have hword : decide (some h.word = some "C") = h.isC := decide_eq_decide.2 Option.some_inj
  rw [← hword]
  rfl

/-- Scanning a hint looks at it, and stops at the bracket in front of its arguments. -/
theorem runsParts_scan : RunsParts id scan act fun h tokens => tokens = h.tokens := by
  rintro h tokens rfl
  refine ⟨List.cons_ne_nil _ _, fun rest hrest fuel found => ?_⟩
  have hahead : (Expectation.sign "::").holds
      (h.arguments.elim [] (Tokens.enclosed .paren) ++ rest) = false := by
    cases h.arguments with
    | none => exact Reading.not_separator_of_endsOption hrest
    | some inner => rfl
  have hpath : Reading.optionPath (.start (h.tokens ++ rest)) =
      .ok (some h.word, .start (h.arguments.elim [] (Tokens.enclosed .paren) ++ rest)) :=
    Reading.optionPath_word hahead
  rw [runOptionsFrom, hpath]
  dsimp only
  rw [scan_word, act]
  cases h.arguments with
  | none =>
    rcases hrest with rfl | ⟨joint, more, rfl⟩
    · rfl
    · cases more <;> rfl
  | some inner => rfl

end Hint

/-! ## attributes -/

/-- The hints of a record are spread over its attributes, one list for each. -/
def Attribute.HintAll (attrs : List Attribute) (lists : List (List Hint)) : Prop :=
  List.Forall₂ (Attribute.Lists fun (h : Hint) tokens => tokens = h.tokens)
    (attrs.filter (·.isNamed "repr")) lists

/-- **Attributes** ask for the layout of C if one of the hints that are looked at does. -/
theorem hasReprC_eq {attrs : List Attribute} {lists : List (List Hint)}
    (h : Attribute.HintAll attrs lists) :
    hasReprC attrs = lists.any fun hints => (Hint.lookedAt hints).any Hint.isC := by
  rw [hasReprC]
  unfold Attribute.HintAll at h
  generalize attrs.filter (·.isNamed "repr") = reprs at h
  induction h with
  | nil => rfl
  | @cons a hints as lists ha _ ih =>
    obtain ⟨delimiter, tokens, hcontent, hlists⟩ := ha
    have hrun : (runOptions id Hint.scan false tokens).1 = (Hint.lookedAt hints).any Hint.isC := by
      rw [runOptions_lists Hint.runsParts_scan hlists, Hint.actAll_fst, Bool.false_or]
    rw [List.any_cons, List.any_cons, ih, hcontent]
    exact congrArg (· || _) hrun

namespace Registry

/-- **The layout of C.** The last record of a name that can be laid out is laid out as in C if one
of the hints that are looked at is `C`, and only then. So it never is without this hint; and with it
it is, if hints with arguments stand at the end of their attributes. -/
theorem inC_of_collect {before later : List Definition} {d : RecordDefinition}
    {lists : List (List Hint)} (hd : d.LaidOut)
    (hlast : ∀ e, .record e ∈ later → e.LaidOut → e.name ≠ d.name)
    (hhints : Attribute.HintAll d.attrs lists) :
    ∃ r, (collect (before ++ .record d :: later)).1.record? d.name = some r ∧
      (r.reprC = true ↔ ∃ hints ∈ lists, ∃ h ∈ Hint.lookedAt hints, h.word = "C") ∧
      (r.reprC = true → ∃ hints ∈ lists, ∃ h ∈ hints, h.word = "C") ∧
      ((∀ hints ∈ lists, ∀ h ∈ hints.dropLast, h.arguments = none) →
        (r.reprC = true ↔ ∃ hints ∈ lists, ∃ h ∈ hints, h.word = "C")) := by
  obtain ⟨r, hfound, hreprC⟩ := record?_collect hd hlast
  have hseen : r.reprC = true ↔ ∃ hints ∈ lists, ∃ h ∈ Hint.lookedAt hints, h.word = "C" := by
    simp [hreprC, hasReprC_eq hhints, Hint.isC]
  refine ⟨r, hfound, hseen, fun hr => ?_, fun hend => ?_⟩
  · obtain ⟨hints, hmem, h, hh, hword⟩ := hseen.1 hr
    exact ⟨hints, hmem, h, Hint.lookedAt_subset hints hh, hword⟩
  · rw [hseen]
    refine exists_congr fun hints => and_congr_right fun hmem => ?_
    rw [Hint.lookedAt_eq_self (hend hints hmem)]

end Registry

/-! ## a hint behind arguments -/

namespace Sample

/-- The hint `C`. -/
def asInC : Hint := ⟨"C", none⟩

/-- The hint `align(4)`. -/
def alignedToFour : Hint := ⟨"align", some [.literal "4"]⟩

/-- An attribute with hints. -/
def hintAttribute (tokens : Tokens) : Attribute := ⟨false, .ofWord "repr", .group .paren tokens⟩

/-- A struct without fields. -/
def hinted (attrs : List Attribute) : RecordDefinition :=
  ⟨attrs, ∅, .struct, "S", ∅, ∅, .unit⟩

theorem hinted_laidOut (attrs : List Attribute) : (hinted attrs).LaidOut := ⟨rfl, nofun⟩

/-- The two hints in attributes of their own. -/
def hintsApart : List Attribute :=
  [hintAttribute alignedToFour.tokens, hintAttribute asInC.tokens]

/-- The two hints in one attribute. -/
def hintsTogether : List Attribute :=
  [hintAttribute (alignedToFour.tokens ++ .sign ',' :: asInC.tokens)]

/-- In an attribute of its own, `C` is found. -/
theorem hint_found :
    Attribute.HintAll hintsApart [[alignedToFour], [asInC]] ∧
    ∃ r, (Registry.collect [.record (hinted hintsApart)]).1.record? "S" = some r ∧
      r.reprC = true := by
  have hfilter : hintsApart.filter (·.isNamed "repr") = hintsApart := by decide
  have hhints : Attribute.HintAll hintsApart [[alignedToFour], [asInC]] := by
    rw [Attribute.HintAll, hfilter]
    exact .cons ⟨_, _, rfl, .last rfl⟩ (.cons ⟨_, _, rfl, .last rfl⟩ .nil)
  obtain ⟨r, hfound, hseen, -⟩ :=
    @Registry.inC_of_collect [] [] _ _ (hinted_laidOut hintsApart) nofun hhints
  exact ⟨hhints, r, hfound, hseen.2 ⟨[asInC], by simp, asInC, by simp [Hint.lookedAt], rfl⟩⟩

/-- Behind `align(4)`, `C` is not found. -/
theorem hint_passed_over :
    Attribute.HintAll hintsTogether [[alignedToFour, asInC]] ∧ asInC.word = "C" ∧
    ((Registry.collect [.record (hinted hintsTogether)]).1.record? "S").map Record.reprC =
      some false := by
  have hfilter : hintsTogether.filter (·.isNamed "repr") = hintsTogether := by decide
  refine ⟨?_, rfl, by decide +kernel⟩
  rw [Attribute.HintAll, hfilter]
  exact .cons ⟨_, _, rfl, .cons false rfl (.last rfl)⟩ .nil

end Sample

end BitLayout
