import BitLayout.Source.Grammar.Member
import BitLayout.Source.Grammar.Record

/-!
# BitLayout.Source.Grammar.Item

Items of a module or a block.
-/

namespace BitLayout.Grammar

open Reading

/-! ## Imports -/

/-- Read the name that something is imported under. -/
def importedName : Reading Fragment := do
  if ← peekAny [.name, .word "_"] then anyWordFragment else expected "identifier or underscore"

/-- The parts of an import in braces, or nothing if one of them begins at the root. -/
def importParts (r : Readers) (roots : Bool) : (fuel : Nat) → Reading (Option Fragment)
  | 0 => return some ∅
  | fuel + 1 => do
    if ← ended then return some ∅
    let root ← if roots then sign? "::" else pure ∅
    let tree ← r (.importTree (roots && root.isEmpty))
    let part := if root.isEmpty then tree else none
    if ← ended then return part
    let comma ← sign ","
    let others ← importParts r roots fuel
    return part.bind fun part => others.map fun others => part ++ comma ++ others

/-- Read what is imported, which has no canonical form if it has a path from the root inside
braces. -/
def importTree (r : Readers) (roots : Bool) : Reading (Option Fragment) := do
  let names := .name :: pathWords ++ [.word "try"]
  if ← peekAny names then
    let name ← anyWordFragment
    if ← peek (.sign "::") then
      let separator ← sign "::"
      return (← r (.importTree false)).map (name ++ separator ++ ·)
    if ← peek (.word "as") then
      let rename ← word "as"
      return some (name ++ rename ++ (← importedName))
    return some name
  if ← peek (.sign "*") then return some (← sign "*")
  if ← peek (.group .brace) then
    let parts ← group .brace do importParts r roots ((← ahead).length + 1)
    return parts.map (Fragment.enclosed .brace)
  expectedOneOf (names ++ [.sign "*", .group .brace])

/-- Read an import. -/
def importItem (r : Readers) : Reading (Option Fragment) := do
  let head ← word "use"
  let root ← sign? "::"
  let tree ← r (.importTree root.isEmpty)
  let semicolon ← sign ";"
  return tree.map (head ++ root ++ · ++ semicolon)

/-- Read the import of a library behind its first word. -/
def libraryItem : Reading Fragment := do
  let head ← word "crate"
  let name ← if ← peek (.word "self") then anyWordFragment else nameFragment
  let rename ← if ← peek (.word "as") then
      let rename ← word "as"
      pure (rename ++ (← if ← peek (.word "_") then anyWordFragment else nameFragment))
    else pure ∅
  return head ++ name ++ rename ++ (← sign ";")

/-! ## Functions and values -/

/-- Read a function, which has no canonical form without a body. -/
def functionItem (r : Readers) : Reading (Option Fragment) := do
  let (head, _) ← signature r false
  if ← peek (.sign ";") then
    discard (sign ";")
    return none
  return some (head ++ (← attributedBlock r))

/-- Read a static value, which has no canonical form without a type or a value. -/
def staticItem (r : Readers) : Reading (Option Fragment) := do
  let head := (← word "static") ++ (← word? "mut") ++ (← nameFragment)
  if ← peek (.sign "=") then
    discard (sign "=")
    discard (r.valueFragment)
    discard (sign ";")
    return none
  let colon ← sign ":"
  let type ← r.typeFragment true
  if ← peek (.sign ";") then
    discard (sign ";")
    return none
  let equals ← sign "="
  let value ← r.valueFragment
  return some (head ++ colon ++ type ++ equals ++ value ++ (← sign ";"))

/-! ## Groups of items -/

/-- Members in braces, behind the attributes of what has them. -/
def members (r : Readers) (member : Reading Fragment) : Reading Fragment :=
  groupFragment .brace do
    let attrs ← innerFragment r
    return attrs ++ .flatten (← untilEnd member)

/-- Read a module behind its attributes; without content, its items stand in another file. -/
def moduleItem (r : Readers) (attrs : List Attribute) (visibility : Fragment) : Reading Module := do
  let first := (← word? "unsafe") ++ (← word "mod")
  let name ← if ← peek (.word "try") then anyWordFragment else nameFragment
  let head := visibility ++ first ++ name
  if ← peek (.sign ";") then
    discard (sign ";")
    return ⟨attrs, head, none⟩
  else if ← peek (.group .brace) then
    let content ← group .brace do
      let inner ← innerAttributes r
      return (inner, ← untilEnd (r .item))
    return ⟨attrs, head, some content⟩
  else expectedOneOf [.sign ";", .group .brace]

/-- Read a block of foreign items behind the words that begin it. -/
def foreignBlock (r : Readers) : Reading Fragment := members r (foreignMember r)

/-! ## Traits -/

/-- The rest of a trait behind its parameters. -/
def traitBody (r : Readers) : Reading Fragment := do
  let colon ← sign? ":"
  let bounds ← if colon.isEmpty then pure ∅ else
    itemBounds r true [.word "where", .group .brace]
  let clause ← whereClause r
  return colonFragment colon bounds ++ clause ++ (← members r (traitMember r))

/-- Read a trait. -/
def traitItem (r : Readers) : Reading Fragment := do
  let head := (← word? "unsafe") ++ (← word? "auto") ++ (← word "trait") ++ (← nameFragment)
  let generics ← parameters r
  return head ++ generics ++ (← traitBody r)

/-- Read a trait or another name for bounds. -/
def traitOrBounds (r : Readers) : Reading Fragment := do
  let head := (← word "trait") ++ (← nameFragment) ++ (← parameters r)
  if ← peekAny [.group .brace, .sign ":", .word "where"] then return head ++ (← traitBody r)
  else if ← peek (.sign "=") then
    let equals ← sign "="
    let bounds ← itemBounds r false [.word "where", .sign ";"]
    let clause ← whereClause r
    return head ++ equals ++ bounds ++ clause ++ (← sign ";")
  else expectedOneOf [.group .brace, .sign ":", .word "where", .sign "="]

/-! ## Implementations -/

/-- The trait and the type of an implementation. -/
structure ImplHead where
  fragment : Fragment
  /-- What stands before `for` is a trait, if the word stands there. -/
  isCanonical : Bool

/-- Read the trait and the type of an implementation. Only one of a trait can be negative. -/
def implHead (r : Readers) : Reading ImplHead := do
  let negation ← if (← peek (.sign "!")) && !(← peekBehind 1 (.group .brace)) then sign "!"
    else pure ∅
  let first ← r (.type true)
  if ← peek (.word "for") then
    let separator ← word "for"
    let type ← r.typeFragment true
    return ⟨negation ++ first.fragment ++ separator ++ type,
      first.form = .segment || first.form = .path⟩
  if !negation.isEmpty then refuse .negativeInherent
  return ⟨first.fragment, true⟩

/-- Read an implementation, which has no canonical form with a visibility, as a constant one, or
when what it implements is no path. -/
def implItem (r : Readers) (visible : Bool) : Reading (Option Fragment) := do
  let head := (← word? "default") ++ (← word? "unsafe") ++ (← word "impl")
  let generics ← if ← parametersBehind 0 then parameters r else pure ∅
  let optional := (← peek (.sign "?")) && (← peekBehind 1 (.word "const"))
  let const := optional || (← peek (.word "const"))
  if optional then discard (sign "?")
  if const then discard (word "const")
  let subject ← implHead r
  let clause ← whereClause r
  let content ← members r (implMember r)
  let canonical := !visible && !const && subject.isCanonical
  let found := head ++ generics ++ subject.fragment ++ clause ++ content
  return if canonical then some found else none

/-! ## Invocations and definitions of tools -/

/-- Read an invocation; a name may stand before its group. -/
def toolInvocation : Reading Fragment := do
  let path ← plainPath
  let mark ← sign "!"
  let name ← if ← peekAny [.name, .word "try"] then anyWordFragment else pure ∅
  let (d, tokens) ← anyGroup
  let semicolon ← if d = .brace then pure ∅ else sign ";"
  return path ++ mark ++ name ++ .ofTokens (Tokens.enclosed d tokens) ++ semicolon

/-- Read the definition of a tool that is invoked with an exclamation mark. -/
def toolDefinition : Reading Unit := do
  discard (word "macro")
  discard name
  let called ← peek (.group .paren)
  if called then discard anyGroup
  if ← peek (.group .brace) then discard anyGroup
  else expectedOneOf ((if called then [] else [.group .paren]) ++ [.group .brace])

/-! ## Items -/

/-- Read an item that begins with a word for another language or library. -/
def externItem (r : Readers) (visibility : Fragment) : Reading Fragment := do
  let head ← word "extern"
  if ← peek (.word "crate") then return visibility ++ head ++ (← libraryItem)
  let language ← if ← peek .textLiteral then literal else pure ∅
  if ← peek (.group .brace) then
    if !visibility.isEmpty then throw (.expected "`extern`" false)
    return head ++ language ++ (← foreignBlock r)
  expectedOneOf (if language.isEmpty then [.word "crate", .group .brace, .textLiteral]
    else [.group .brace])

/-- Read an item that begins with the word for what is not checked. -/
def unsafeItem (r : Readers) (attrs : List Attribute) (visibility : Fragment) :
    Reading (Option Fragment) := do
  let autoBehind := (← peekBehind 1 (.word "auto")) && (← peekBehind 2 (.word "trait"))
  if autoBehind || (← peekBehind 1 (.word "trait")) then
    return some (attributeFragment attrs ++ visibility ++ (← traitItem r))
  else if ← peekBehind 1 (.word "impl") then
    return (← implItem r (!visibility.isEmpty)).map (attributeFragment attrs ++ ·)
  else if ← peekBehind 1 (.word "extern") then
    if !visibility.isEmpty then throw (.expected "`extern`" false)
    let head := (← word "unsafe") ++ (← convention)
    return some (attributeFragment attrs ++ head ++ (← foreignBlock r))
  else if ← peekBehind 1 (.word "mod") then return some (← moduleItem r attrs visibility).fragment
  else
    discard (word "unsafe")
    expectedOneOf (["trait", "auto", "impl", "extern", "mod"].map .word)

/-- Read an item that is kept as tokens, behind its attributes and its visibility. It is kept as it
is written if it has no canonical form. -/
def otherItem (r : Readers) (attrs : List Attribute) (visibility : Fragment) :
    Reading (Option Fragment) := do
  let behind := (attributeFragment attrs ++ visibility ++ ·)
  let traitBehind ← peekBehind 1 (.word "trait")
  if (← peek (.word "fn")) || (← signatureAhead false) then return (← functionItem r).map behind
  else if ← peek (.word "extern") then
    return some (attributeFragment attrs ++ (← externItem r visibility))
  else if ← peek (.word "use") then return (← importItem r).map behind
  else if ← peek (.word "static") then return (← staticItem r).map behind
  else if ← peek (.word "const") then
    let found ← constantItem r
    return if found.hasValue && found.isPlain then some (behind found.fragment) else none
  else if ← peek (.word "unsafe") then unsafeItem r attrs visibility
  else if ← peek (.word "mod") then return some (← moduleItem r attrs visibility).fragment
  else if ← peek (.word "enum") then return some (behind (← enumeration r))
  else if ← peek (.word "trait") then return some (behind (← traitOrBounds r))
  else if (← peek (.word "auto")) && traitBehind then return some (behind (← traitItem r))
  else if (← peek (.word "impl")) ||
      ((← peek (.word "default")) && !(← peekBehind 1 (.sign "!"))) then
    return (← implItem r (!visibility.isEmpty)).map (attributeFragment attrs ++ ·)
  else if ← peek (.word "macro") then
    toolDefinition
    return none
  else if visibility.isEmpty && (← peekAny plainStarts) then return some (behind (← toolInvocation))
  else expectedOneOf (["fn", "extern", "use", "static", "const", "unsafe", "mod", "type", "struct",
    "enum", "union", "trait", "auto", "impl", "default", "macro"].map .word ++
      if visibility.isEmpty then plainStarts else [])

/-- Read an item behind its attributes, unless it has to be kept as it is written. -/
def itemBody (r : Readers) (attrs : List Attribute) : Reading (Option Definition) := do
  let visibility ← visibility
  if ← peek (.word "type") then
    let found ← typeItem r .beforeType
    match found.hasColon, found.type with
    | false, some type =>
      return some (.typeAlias
        ⟨attrs, visibility, found.name, found.generics, found.clause, type⟩)
    | _, _ => return none
  else if ← peek (.word "struct") then return some (.record (← record r attrs visibility .struct))
  else if (← peek (.word "union")) && (← peekBehind 1 .name) then
    return some (.record (← record r attrs visibility .union))
  else return (← otherItem r attrs visibility).map .other

/-- Read an item. -/
def item (r : Readers) : Reading Definition := do
  let (found, written) ← captured do
    let attrs ← outerAttributes r
    itemBody r attrs
  return found.getD (.other (.ofTokens written))

end BitLayout.Grammar
