import BitLayout.Code.Formula
import BitLayout.Code.Place

/-!
# BitLayout.Code.Statement

Statements that move data between places and a stream. The same kinds of statements serve both
directions; only the text of a statement depends on the direction.

A move carries everything that its text needs. What is built around moves are loops over array
ranks, blocks with a local for the value on the wire, and choices between the variants of a union.
-/

namespace BitLayout

/-- Whether data is read from the stream or saved to it. -/
inductive Direction where
  | read
  | save
deriving DecidableEq, Repr

/-- One move between a place and the stream. -/
inductive Move where
  /-- A truth value; with a type, one that an integer of this type holds. -/
  | bool (place : Place) (type : Option TypeExpr)
  | integer (place : Place) (range : IntegerRange) (type : IntegerType)
  | text (place : Place) (bytes : Nat) (terminated : Bool)
  /-- A row of bytes. -/
  | row (place : Place) (bytes : Nat)
  /-- A number, byte by byte. -/
  | bytes (place : Place) (count : Nat) (type : TypeExpr)
  /-- A whole struct, by the function of its record. -/
  | record (place : Place) (name : String)
  | padding (bits : Nat)
  /-- Nothing on the stream: the place gets its default. -/
  | default (place : Place) (value : Tokens)
deriving DecidableEq, Repr

mutual

/-- A statement. -/
inductive Statement where
  | move (m : Move)
  /-- The moves of a value on the wire, in a local, and the transform between it and a place. -/
  | wire (number : Nat) (t : Transform) (place : Place) (body : List Statement)
  | loop (l : Loop) (body : List Statement)
  /-- The variants of a union; at most one of them is chosen. -/
  | choice (arms : List Arm)

/-- What is done when a tag has a value. -/
inductive Arm where
  | mk (tag : Place) (value : Int) (body : List Statement)

end

/-! ## Names of functions -/

/-- The functions of the stream. -/
def Config.streamFunctions (c : Config) : Direction → StreamFunctions
  | .read => c.readFns
  | .save => c.writeFns

/-- The name of the function that moves a whole struct. -/
def recordFunction (d : Direction) (record : String) : String :=
  match d with
  | .read => "__bitpack_read_" ++ record
  | .save => "__bitpack_save_" ++ record

/-! ## Text -/

/-- The name under which the stream is handed on. -/
def streamWord : Tokens := Phrase.word "state"

/-- The name of the local for the bytes of a number. -/
def bytesWord : Tokens := Phrase.word "__bytes"

/-- The text of a move, under the stream functions of its direction. -/
def Move.tokens (fns : StreamFunctions) (d : Direction) (m : Move) : Tokens :=
  open Phrase in
  match m, d with
  | .bool p none, .read => p.assign (call fns.bool [streamWord])
  | .bool p none, .save => statement (call fns.bool [streamWord, p.value])
  | .bool p (some type), .read =>
    p.assign (call fns.bool [streamWord] ++ .ident "as" :: type.tokens)
  | .bool p (some _), .save =>
    statement (call fns.bool
      [streamWord, parens p.value ++ [.punct '!' true, .sign '='] ++ number 0])
  | .integer p range type, .read =>
    p.assign ((Formula.fromWire range type).tokens
      (call ((Carrier.ofBits range.bits).function fns) [streamWord, number range.bits]))
  | .integer p range _, .save =>
    statement (call ((Carrier.ofBits range.bits).function fns)
      [streamWord, (Formula.toWire range).tokens p.value, number range.bits])
  | .text p count terminated, .read =>
    statement (call (if terminated then fns.terminatedString else fns.string)
      [streamWord, p.exclusiveRow, number count])
  | .text p count terminated, .save =>
    statement (call (if terminated then fns.terminatedString else fns.string)
      [streamWord, p.sharedRow, number count])
  | .row p count, .read => statement (call fns.buffer [streamWord, p.exclusiveRow, number count])
  | .row p count, .save => statement (call fns.buffer [streamWord, p.sharedRow, number count])
  | .bytes p count type, .read =>
    braces (
      statement (word "let" ++ word "mut" ++ bytesWord ++ .sign '=' ::
        brackets (Token.literal "0u8" :: .sign ';' :: number count)) ++
      statement (call fns.buffer [streamWord, exclusive bytesWord, number count]) ++
      p.assign (.sign '<' :: type.tokens ++ .sign '>' :: pathSep ++
        call (word "from_le_bytes") [bytesWord]))
  | .bytes p count _, .save =>
    braces (
      statement (word "let" ++ bytesWord ++ .sign '=' :: parens p.value ++ .sign '.' ::
        call (word "to_le_bytes") []) ++
      statement (call fns.buffer [streamWord, shared bytesWord, number count]))
  | .record p name, .read =>
    statement (call (word (recordFunction .read name)) [streamWord, p.exclusive])
  | .record p name, .save =>
    statement (call (word (recordFunction .save name)) [streamWord, p.shared])
  | .padding bits, .read =>
    statement (word "let" ++ word "_" ++ .sign '=' ::
      call ((Carrier.ofBits bits).function fns) [streamWord, number bits])
  | .padding bits, .save =>
    statement (call ((Carrier.ofBits bits).function fns) [streamWord, number 0, number bits])
  | .default p value, _ => p.assign value

namespace Loop

/-- The head of a loop. -/
def tokens (l : Loop) : Tokens :=
  .ident "for" :: .ident (loopName l.number) :: .ident "in" ::
    Phrase.typedNumber l.start "usize" ++ [.punct '.' true, .sign '.'] ++
    Phrase.typedNumber l.stop "usize"

end Loop

/-- The text of moves of a value on the wire with the transform around them. -/
def wireTokens (d : Direction) (number : Nat) (t : Transform) (place : Place) (body : Tokens) :
    Tokens :=
  open Phrase in
  match d with
  | .read =>
    braces (
      statement (word "let" ++ word "mut" ++ typed (wireName number) t.wire.tokens ++ .sign '=' ::
        call (absolute ["core", "default", "Default", "default"]) []) ++
      body ++ place.assign (call t.postUnpack.tokens [shared (word (wireName number))]))
  | .save =>
    braces (
      statement (word "let" ++ typed (wireName number) t.wire.tokens ++ .sign '=' ::
        call t.prePack.tokens [place.shared]) ++
      body)

/-- The test whether a tag has a value. -/
def armTest (tag : Place) (value : Int) : Tokens :=
  Phrase.parens (Phrase.parens tag.value ++ [.ident "as", .ident "i64"]) ++
    [.punct '=' true, .sign '='] ++ Phrase.typedNumber value "i64"

mutual

/-- The text of a statement. -/
def Statement.tokens (fns : StreamFunctions) (d : Direction) : Statement → Tokens
  | .move m => m.tokens fns d
  | .wire number t place body => wireTokens d number t place (statementTokens fns d body)
  | .loop l body => l.tokens ++ Phrase.braces (statementTokens fns d body)
  | .choice arms => armTokens fns d arms

/-- The text of statements in a row. -/
def statementTokens (fns : StreamFunctions) (d : Direction) : List Statement → Tokens
  | [] => []
  | s :: rest => s.tokens fns d ++ statementTokens fns d rest

/-- The text of a choice. -/
def armTokens (fns : StreamFunctions) (d : Direction) : List Arm → Tokens
  | [] => []
  | .mk tag value body :: rest =>
    .ident "if" :: armTest tag value ++ Phrase.braces (statementTokens fns d body) ++
      (if rest.isEmpty then [] else [.ident "else"]) ++ armTokens fns d rest

end

/-! ## Putting statements together -/

namespace Statement

/-- Repeat statements in a loop. A loop without content is left out. -/
def looped (l : Loop) (body : List Statement) : List Statement :=
  if body.isEmpty then [] else [.loop l body]

/-- Repeat statements in loops, the outermost first. -/
def loopedAll (loops : List Loop) (body : List Statement) : List Statement :=
  loops.foldr looped body

/-- Repeat the statements for one element over all ranks of an array, where `number` loops are
around it. -/
def overRanks : List Nat → (number : Nat) → Place → (Place → Nat → List Statement) → List Statement
  | [], number, place, body => body place number
  | extent :: rest, number, place, body =>
    looped ⟨number, 0, extent⟩
      (overRanks rest (number + 1) (.element place (.loop number)) body)

/-- Choose between arms. A choice without arms is left out. -/
def chosen (arms : List Arm) : List Statement := if arms.isEmpty then [] else [.choice arms]

/-- Moves of so many bits without meaning, 32 at a time. -/
def padding (bits : Nat) : List Statement :=
  (List.replicate (bits / 32) 32 ++ if bits % 32 = 0 then [] else [bits % 32]).map fun n =>
    .move (.padding n)

end Statement

/-- The value that an arm is for. -/
def Arm.value : Arm → Int
  | mk _ value _ => value

/-- Add an arm to arms in ascending order. It takes the place of one for the same value. -/
def Arm.insert (a : Arm) : List Arm → List Arm
  | [] => [a]
  | b :: rest =>
    if a.value < b.value then a :: b :: rest
    else if a.value = b.value then a :: rest
    else b :: a.insert rest

end BitLayout
