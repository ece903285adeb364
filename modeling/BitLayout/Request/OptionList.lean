import BitLayout.Source.Grammar

/-!
# BitLayout.Request.OptionList

Lists of options, as they stand in the arguments of the generator, in attributes, and nested inside
options: a path, whatever the option reads behind it, and a comma before the next.

The options before the first error have taken effect, so running a list yields the state that they
led to as well as the error, if any. Tokens that an option leaves in a group of its own are an error
too, but one that is reported only when the outermost list has no other.
-/

namespace BitLayout

namespace Reading

/-- The words behind further path separators, and whether there are any. -/
def furtherWords (found : Bool) : (fuel : Nat) → Reading Bool
  | 0 => return found
  | fuel + 1 => do
    if ← peek (.sign "::") then
      discard (sign "::")
      discard anyWord
      furtherWords true fuel
    else return found

/-- The path that an option begins with: its word if it is a single one. -/
def optionPath : Reading (Option String) := do
  let root ← sign? "::"
  let first ← if ← peek .anyWord then anyWord
    else if ← ended then expected "nested attribute"
    else if ← peek .literal then throw .literalForName
    else throw .tokenForName
  let longer ← furtherWords false (← ahead).length
  return if !root.isEmpty || longer then none else some first

end Reading

/-- The same reader with another type of errors. -/
def Reading.lifted {ε α : Type} (lift : ReadError → ε) (reader : Reading α) : ReadingWith ε α :=
  fun remaining => (reader remaining).mapError lift

/-- Run the options of a list that is not empty, one after the other, up to the end of the group:
the state that they led to, and what is left to read. -/
def runOptionsFrom {σ ε : Type} (lift : ReadError → ε)
    (option : σ → Option String → ReadingWith ε σ) :
    (fuel : Nat) → σ → Remaining → σ × Except ε Remaining
  | 0, state, remaining => (state, .ok remaining)
  | fuel + 1, state, remaining =>
    match Reading.optionPath remaining with
    | .error e => (state, .error (lift e))
    | .ok (word, remaining) =>
      match option state word remaining with
      | .error e => (state, .error e)
      | .ok (state, remaining) =>
        match remaining.tokens with
        | [] => (state, .ok remaining)
        | token :: rest =>
          if !token.isPunct ',' then (state, .error (lift (.missingSign ",")))
          else if rest.isEmpty then (state, .ok { remaining with tokens := rest })
          else runOptionsFrom lift option fuel state { remaining with tokens := rest }

/-- Run the options of an outermost list, which may be empty. -/
def runOptions {σ ε : Type} (lift : ReadError → ε) (option : σ → Option String → ReadingWith ε σ)
    (state : σ) (tokens : Tokens) : σ × Option ε :=
  if tokens.isEmpty then (state, none)
  else
    match runOptionsFrom lift option (tokens.length + 1) state (.start tokens) with
    | (state, .error e) => (state, some e)
    | (state, .ok remaining) => (state, remaining.leftover.map fun d => lift (.leftover d))

/-- Run the options of a list in parentheses, which is not empty, inside another list. -/
def nestedOptions {σ ε : Type} (lift : ReadError → ε) (option : σ → Option String → ReadingWith ε σ)
    (state : σ) : ReadingWith ε σ := do
  let (content, rest) ← Reading.lifted lift (Reading.groupAhead .paren)
  Reading.within .paren content rest fun remaining =>
    match runOptionsFrom lift option (content.length + 1) state remaining with
    | (_, .error e) => .error e
    | (state, .ok remaining) => .ok (state, remaining)

end BitLayout
