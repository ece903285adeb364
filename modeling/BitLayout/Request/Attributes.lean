import BitLayout.Request.Directive
import BitLayout.Source.Attribute

/-!
# BitLayout.Request.Attributes

The request that the attributes of a declaration make. All `#[bitpack(...)]` attributes of a
declaration act on one request in turn. One that is refused is reported, and then the declaration is
left out of the data; what the options before the error asked for stays.
-/

namespace BitLayout

/-- Whether an attribute belongs to the layout. -/
def Attribute.isLayout (a : Attribute) : Bool := a.isNamed "bitpack"

namespace Request

/-- Let one attribute act on a request. -/
def applyAttribute (r : Request) (a : Attribute) : Request × Option RequestError :=
  match a.content with
  | .empty => (r, some .noArguments)
  | .value _ => (r, some .valueForArguments)
  | .group _ tokens => r.applyOptions tokens

/-- The request of a declaration, and the errors in its attributes. -/
def ofAttributes (attrs : List Attribute) : Request × List RequestError :=
  (attrs.filter Attribute.isLayout).foldl
    (fun (r, errors) a =>
      match r.applyAttribute a with
      | (r, none) => (r, errors)
      | (r, some e) => ({ r with omitted := true }, errors ++ [e]))
    (empty, [])

end Request

/-- Whether one of the attributes asks for the memory layout of C. The hints of an attribute are
looked through up to the first that has arguments. -/
def hasReprC (attrs : List Attribute) : Bool :=
  (attrs.filter (·.isNamed "repr")).any fun a =>
    match a.content with
    | .group _ tokens =>
      (runOptions id (fun found word => return found || word = some "C") false tokens).1
    | _ => false

end BitLayout
