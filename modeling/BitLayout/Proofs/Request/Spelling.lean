import BitLayout.Proofs.Request.Directives

/-!
# BitLayout.Proofs.Request.Spelling

Options as they are written. A list of options is its parts with commas between them, and running it
is running the parts one after the other, up to the first that stops it. A part of the arguments of
an attribute spells a directive, if it is read as this directive up to the comma or the end behind
it.

```
bitcount = 10 , range ( - 5 , 500 ) ,   ~>   [bitcount 10, range (-5) 500]
```

* `Tokens.Lists`, `runOptions_lists`: parts with commas between them, and what they do;
* `Directive.SpelledBy`, `Attribute.SpellAll`: a written option, and options that are spread over
  the attributes of a declaration;
* `Request.applyAttribute_spells`: what an attribute does is what its directives do.
-/

namespace BitLayout

/-! ## lists of options -/

/-- What may follow an option: a comma, or nothing. -/
def Tokens.EndsOption (rest : Tokens) : Prop :=
  rest = [] ∨ ∃ joint more, rest = .punct ',' joint :: more

/-- Parts with commas between them; there may be a comma behind the last. -/
inductive Tokens.Lists {α : Type} (part : α → Tokens → Prop) : Tokens → List α → Prop where
  | nil : Lists part [] []
  | last {a : α} {tokens : Tokens} (h : part a tokens) : Lists part tokens [a]
  | cons {a : α} {as : List α} {tokens rest : Tokens} (joint : Bool) (h : part a tokens)
    (hrest : Lists part rest as) : Lists part (tokens ++ .punct ',' joint :: rest) (a :: as)

/-- The arguments of an attribute are a list of such parts. -/
def Attribute.Lists {α : Type} (part : α → Tokens → Prop) (a : Attribute) (as : List α) : Prop :=
  ∃ delimiter tokens, a.content = .group delimiter tokens ∧ Tokens.Lists part tokens as

section

variable {σ ε α : Type} {lift : ReadError → ε} {option : σ → Option String → ReadingWith ε σ}
  {act : σ → α → σ × Option ε} {part : α → Tokens → Prop} {as : List α} {tokens : Tokens}

/-- Let some things act on a state one after the other, up to the first error. -/
def actAll (act : σ → α → σ × Option ε) (state : σ) : List α → σ × Option ε
  | [] => (state, none)
  | a :: as =>
    match act state a with
    | (state, none) => actAll act state as
    | (state, some e) => (state, some e)

/-- Running a part does what it stands for, and goes on behind its comma unless that stops it. -/
def RunsParts (lift : ReadError → ε) (option : σ → Option String → ReadingWith ε σ)
    (act : σ → α → σ × Option ε) (part : α → Tokens → Prop) : Prop :=
  ∀ a tokens, part a tokens → tokens ≠ [] ∧
    ∀ rest : Tokens, rest.EndsOption → ∀ (fuel : Nat) (state : σ),
      runOptionsFrom lift option (fuel + 1) state (.start (tokens ++ rest)) =
        match act state a with
        | (state, some e) => (state, .error e)
        | (state, none) =>
          if rest.tail.isEmpty then (state, .ok (.start []))
          else runOptionsFrom lift option fuel state (.start rest.tail)

/-- Nothing is a list without parts. -/
theorem Tokens.Lists.eq_nil (hpart : ∀ a tokens, part a tokens → tokens ≠ [])
    (h : Tokens.Lists part [] as) : as = [] := by
  generalize htokens : ([] : Tokens) = tokens at h
  cases h with
  | nil => rfl
  | last h => exact absurd htokens.symm (hpart _ _ h)
  | cons joint h hrest => simp at htokens

/-- Running a list that is not empty does what its parts stand for. -/
theorem runOptionsFrom_lists (hparts : RunsParts lift option act part)
    (h : Tokens.Lists part tokens as) (hne : tokens ≠ []) {fuel : Nat}
    (hfuel : tokens.length < fuel) (state : σ) :
    runOptionsFrom lift option fuel state (.start tokens) =
      match actAll act state as with
      | (state, some e) => (state, .error e)
      | (state, none) => (state, .ok (.start [])) := by
  induction h generalizing fuel state with
  | nil => exact absurd rfl hne
  | @last a tokens h =>
    obtain ⟨fuel, rfl⟩ := Nat.exists_eq_add_one_of_ne_zero (Nat.ne_zero_of_lt hfuel)
    have hrun := (hparts a tokens h).2 [] (.inl rfl) fuel state
    rw [List.append_nil] at hrun
    rw [hrun, actAll]
    rcases act state a with ⟨state, _ | e⟩ <;> rfl
  | @cons a as tokens rest joint h hrest ih =>
    obtain ⟨fuel, rfl⟩ := Nat.exists_eq_add_one_of_ne_zero (Nat.ne_zero_of_lt hfuel)
    rw [(hparts a tokens h).2 _ (.inr ⟨joint, rest, rfl⟩) fuel state, actAll]
    rcases act state a with ⟨state, _ | e⟩
    · dsimp only
      by_cases hnil : rest = []
      · subst hnil
        rw [hrest.eq_nil fun a tokens h => (hparts a tokens h).1]
        rfl
      · rw [if_neg (by simpa using hnil)]
        refine ih hnil ?_ state
        rw [List.length_append, List.length_cons] at hfuel
        omega
    · rfl

/-- **Lists of options**: running a list does what its parts stand for, up to the first that stops
it. -/
theorem runOptions_lists (hparts : RunsParts lift option act part)
    (h : Tokens.Lists part tokens as) (state : σ) :
    runOptions lift option state tokens = actAll act state as := by
  rw [runOptions]
  split
  · next hempty =>
    obtain rfl := List.isEmpty_iff.1 hempty
    rw [h.eq_nil fun a tokens h => (hparts a tokens h).1]
    rfl
  · next hne =>
    rw [runOptionsFrom_lists hparts h (by simpa using hne) (Nat.lt_succ_self _)]
    rcases actAll act state as with ⟨state, _ | e⟩ <;> rfl

end

/-! ## directives -/

/-- Tokens are read as a directive, whatever options follow. -/
def Directive.SpelledBy (d : Directive) (tokens : Tokens) : Prop :=
  ∀ rest : Tokens, rest.EndsOption → ∃ word behind,
    Reading.optionPath (.start (tokens ++ rest)) = .ok (some word, behind) ∧
    RequestReading.directive word behind = .ok (d, .start rest)

/-- The arguments of an attribute are read as directives. -/
def Attribute.Spells (a : Attribute) (ds : List Directive) : Prop :=
  a.Lists Directive.SpelledBy ds

/-- The attributes of the layout among some attributes are read as groups of directives, one group
for each. -/
def Attribute.SpellAll (attrs : List Attribute) (groups : List (List Directive)) : Prop :=
  List.Forall₂ Attribute.Spells (attrs.filter Attribute.isLayout) groups

namespace Request

/-- Let a directive act on a request. One that is refused leaves the request as it is. -/
def act (r : Request) (d : Directive) : Request × Option RequestError :=
  match r.apply d with
  | .ok s => (s, none)
  | .error e => (r, some e)

theorem runsParts_step : RunsParts .unreadable step act Directive.SpelledBy := by
  intro d tokens h
  refine ⟨?_, fun rest hrest fuel r => ?_⟩
  · rintro rfl
    obtain ⟨word, behind, hpath, -⟩ := h [] (.inl rfl)
    cases hpath
  · obtain ⟨word, behind, hpath, hread⟩ := h rest hrest
    have hstep : r.step (some word) behind = (r.apply d).map (·, Remaining.start rest) := by
      refine (Reading.bind_of_ok hread).trans ?_
      cases r.apply d <;> rfl
    rw [runOptionsFrom, hpath, act]
    dsimp only
    rw [hstep]
    cases r.apply d with
    | error e => rfl
    | ok s =>
      rcases hrest with rfl | ⟨joint, more, rfl⟩
      · rfl
      · cases more <;> rfl

/-- **Options of an attribute**: an attribute whose arguments can be read does what its directives
do, up to the first that is refused. -/
theorem applyAttribute_spells {a : Attribute} {ds : List Directive} (h : a.Spells ds)
    (r : Request) : r.applyAttribute a = actAll act r ds := by
  obtain ⟨delimiter, tokens, hcontent, hlists⟩ := h
  rw [applyAttribute, hcontent]
  exact runOptions_lists runsParts_step hlists r

end Request

/-! ## words -/

namespace Reading

/-- Without a path separator ahead, there are no further words. -/
theorem furtherWords_of_none {rest : Remaining}
    (h : (Expectation.sign "::").holds rest.tokens = false) (fuel : Nat) :
    furtherWords false fuel rest = .ok (false, rest) := by
  cases fuel with
  | zero => rfl
  | succ fuel =>
    have hpeek : (peek (.sign "::") : Reading Bool) rest = .ok (false, rest) :=
      congrArg (fun found => Except.ok (found, rest)) h
    rw [furtherWords, bind_of_ok hpeek]
    rfl

/-- A word is the path of an option unless a path separator follows it. -/
theorem optionPath_word {word : String} {rest : Tokens}
    (h : (Expectation.sign "::").holds rest = false) :
    optionPath (.start (.ident word :: rest)) = .ok (some word, .start rest) := by
  have hlonger : furtherWords false rest.length (.start rest) = .ok (false, .start rest) :=
    furtherWords_of_none h _
  change (furtherWords false rest.length >>= fun longer =>
    return if longer then none else some word) (.start rest) = .ok (some word, .start rest)
  rw [bind_of_ok hlonger]
  rfl

/-- What may follow an option is no path separator. -/
theorem not_separator_of_endsOption {rest : Tokens} (h : rest.EndsOption) :
    (Expectation.sign "::").holds rest = false := by
  rcases h with rfl | ⟨_ | _, more, rfl⟩ <;> rfl

end Reading

end BitLayout
