import BitLayout.Code.Program
import BitLayout.Config.Arguments
import BitLayout.Text.Identifier

/-!
# BitLayout.Expansion

The whole way from a module and its arguments to the module with the generated program in it.

The module is given back without its options. The program stands behind its items if nothing is
wrong at all; otherwise an error for everything that is wrong stands behind the module: first what
is wrong with the arguments, then with the declarations, with the data objects, and with their
packing. Data objects are looked at only if the arguments make sense.
-/

namespace BitLayout

/-- Everything that can be wrong. -/
inductive Fault where
  | config (error : ConfigError)
  | declaration (error : DeclarationError)
  | data (error : DeclError)
  | packing (error : PackError)
  | notInline
deriving Repr

/-- The wording of a fault. -/
def Fault.message : Fault → String
  | config e => e.message
  | declaration e => e.message
  | data e => e.message
  | packing e => e.message
  | notInline => "#[bitpack] must be applied to an inline module `mod name \x7b ... \x7d`"

/-- The text of a fault in generated code. -/
def Fault.tokens (f : Fault) : Tokens :=
  Phrase.absolute ["core", "compile_error"] ++ .sign '!' ::
    Phrase.braces (Program.literal f.message)

/-- The program for the declarations of a module, or what is wrong with its data objects. There is
no answer

* for a value that becomes itself on the wire;
* if the bits of a sector cannot be counted in 64 bits;
* if a name that is made for the program is no identifier. A raw name is the name of a record or of
  a data object like any other, but no other name can be made of it. -/
def generateProgram (c : Config) (g : Registry) : Option (Except (List Fault) Program) :=
  (Model.build c g).bind fun m =>
    if patterns 64 ≤ c.capacity then none
    else
      match m.errors.map Fault.data, pack c.capacity c.sectorCount m.groups with
      | [], .ok sectors =>
        if (Program.madeNames c m sectors).all Text.isIdentifier then
          some (.ok (.generate c m sectors))
        else none
      | faults, .ok _ => some (.error faults)
      | faults, .error e => some (.error (faults ++ [.packing e]))

/-- A module with faults behind it. -/
def Module.withFaults (m : Module) (faults : List Fault) : Tokens :=
  m.tokens ++ faults.flatMap Fault.tokens

/-- What a module becomes under some arguments. -/
def Module.expand (arguments : Tokens) (m : Module) : Option Tokens :=
  let config := Config.ofArguments arguments
  match m.content with
  | none =>
    let faults := match config with
      | .ok _ => []
      | .error errors => errors.map Fault.config
    some ((faults ++ [.notInline]).flatMap Fault.tokens)
  | some (attrs, items) =>
    let (registry, errors) := Registry.collect items
    let declared := errors.map Fault.declaration
    let plain := items.map Definition.withoutOptions
    let bare : Module := { m with content := some (attrs, plain) }
    match config with
    | .error errors => some (bare.withFaults (errors.map Fault.config ++ declared))
    | .ok c =>
      (generateProgram c registry).map fun
        | .error faults => bare.withFaults (declared ++ faults)
        | .ok program =>
          if declared.isEmpty then
            let added := Definition.other (.ofTokens (program.tokens c))
            { m with content := some (attrs, plain ++ [added]) : Module }.tokens
          else bare.withFaults declared

end BitLayout
