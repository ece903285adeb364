import BitLayout.Source.Grammar.Item
import BitLayout.Source.Grammar.Statement

/-!
# BitLayout.Source.Grammar

The grammar, closed: every symbol is read by its reader, which reads the symbols inside with the
same grammar one level deeper. The depth is bounded, by more than the tokens can hold: to go on, a
reader takes a token or passes to a smaller symbol.

What stands alone is read to its end: a type, attributes, the items of a file, a module.
-/

namespace BitLayout

namespace Grammar

/-- The readers of all symbols, up to a depth of symbols inside symbols. -/
def readers : (depth : Nat) → Readers
  | 0, _ => throw (.unexpected false)
  | depth + 1, .type plus => type (readers depth) plus
  | depth + 1, .bound captured const => bound (readers depth) captured const
  | depth + 1, .value structs => value (readers depth) structs
  | depth + 1, .operand structs => operand (readers depth) structs
  | depth + 1, .action => action (readers depth)
  | depth + 1, .pattern => pattern (readers depth)
  | depth + 1, .statements => statements (readers depth)
  | depth + 1, .item => item (readers depth)
  | depth + 1, .importTree roots => importTree (readers depth) roots

/-- Read with readers that reach as deep as the tokens ahead. -/
def reading {α : Type} (reader : Readers → Reading α) : Reading α := do
  reader (readers (4 * ((← Reading.ahead).length + 2)))

end Grammar

namespace Reading

/-- Read a type. -/
def type : Reading TypeExpr := Grammar.reading fun r => return (← r (.type true)).type

/-- Read a path. -/
def path : Reading Fragment := Grammar.reading fun r => return (← Grammar.path r false).fragment

/-- Read a value. -/
def value : Reading Fragment := Grammar.reading fun r => r.valueFragment

end Reading

/-- The type that the tokens are. -/
def TypeExpr.ofTokens? (tokens : Tokens) : Except ReadError TypeExpr := Reading.type.whole tokens

/-- The attributes that the tokens are. -/
def Attribute.ofTokens? (tokens : Tokens) : Except ReadError (List Attribute) :=
  (Grammar.reading Grammar.outerAttributes).whole tokens

/-- The items that the tokens are. Attributes of the whole file may stand before them, and are
dropped. -/
def Definition.ofTokens? (tokens : Tokens) : Except ReadError (List Definition) :=
  Reading.whole (Grammar.reading fun r => do
    discard (Grammar.innerAttributes r)
    Reading.untilEnd (r .item)) tokens

/-- The module that the tokens are. -/
def Module.ofTokens? (tokens : Tokens) : Except ReadError Module :=
  Reading.whole (Grammar.reading fun r => do
    let attrs ← Grammar.outerAttributes r
    let visibility ← Grammar.visibility
    Grammar.moduleItem r attrs visibility) tokens

end BitLayout
