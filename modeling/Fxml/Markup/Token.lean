import Fxml.Xml.Document

/-! Offsets and places in a text. A line ends at a line feed, at a carriage return, or at a carriage
return and the line feed after it.
-/

open Fxml.Text

namespace Fxml.Text

def lineStartsFrom (offset : Nat) : List Char → List Nat
  | [] => []
  | '\r' :: '\n' :: rest => (offset + 2) :: lineStartsFrom (offset + 2) rest
  | c :: rest =>
    if c = '\r' || c = '\n' then (offset + 1) :: lineStartsFrom (offset + 1) rest
    else lineStartsFrom (offset + 1) rest

structure LineMap where
  starts : List Nat
  size : Nat

namespace LineMap

def ofText (cs : List Char) : LineMap := ⟨lineStartsFrom 0 cs, cs.length⟩

def position (map : LineMap) (offset : Nat) : Position :=
  let before := map.starts.filter (· ≤ offset)
  ⟨before.length + 1, offset - before.getLastD 0 + 1⟩

/-- The offset of a place; beyond the text it is the end of the text. -/
def offset (map : LineMap) (p : Position) : Nat :=
  match (0 :: map.starts)[p.line - 1]? with
  | some start => min (start + (p.col - 1)) map.size
  | none => map.size

end LineMap

end Fxml.Text

/-! Markup tokens: the events of a document with places in place of offsets. -/

namespace Fxml.Markup

/-- An attribute as it stands in a tag, with the places of its name and of its value. -/
structure RawAttribute where
  name : String
  value : String
  pos : Position
  valuePos : Position
deriving DecidableEq

structure Tag where
  pos : Position
  name : String
  attributes : List RawAttribute
deriving DecidableEq

/-- A run of character data: decoded, as written, and whether it is a literal section. -/
structure TextRun where
  pos : Position
  value : String
  raw : String
  cdata : Bool
deriving DecidableEq

structure Instruction where
  pos : Position
  target : String
  data : String
deriving DecidableEq

inductive Token where
  | start (tag : Tag)
  | stop (pos : Position) (name : String)
  | text (run : TextRun)
  | instruction (i : Instruction)
deriving DecidableEq

/-- An attribute found in the text of a tag: its name, how many characters are left from the name and
from the value on, and the text after it.
-/
structure FoundAttribute where
  name : String
  nameLeft : Nat
  valueLeft : Nat
  rest : List Char

def endsName (c : Char) : Bool := isBlank c || c == '=' || c == '/' || c == '>'

/-- Finds the attribute that a text starts with, after blanks: a name, an equals sign and a value in
quotes.
-/
def findAttribute? (cs : List Char) : Option FoundAttribute :=
  let start := cs.dropWhile isBlank
  let name := start.takeWhile (!endsName ·)
  match (start.drop name.length).dropWhile isBlank with
  | '=' :: more =>
    match more.dropWhile isBlank with
    | quote :: body =>
      match body.dropWhile (· != quote) with
      | _ :: rest =>
        if !name.isEmpty && (quote == '"' || quote == '\'') then
          some ⟨String.ofList name, start.length, body.length, rest⟩
        else none
      | [] => none
    | [] => none
  | _ => none

/-- Finds the places of the attributes of a tag, of which names and values are known, in the text
after its name; `none` if an attribute is not where it should be.
-/
def locateAttributes (map : LineMap) : List Xml.Attribute → List Char → Option (List RawAttribute)
  | [], _ => some []
  | a :: later, cs => do
    let found ← findAttribute? cs
    if found.name = a.name then
      let others ← locateAttributes map later found.rest
      let place (left : Nat) := map.position (map.size - left)
      return ⟨a.name, a.value, place found.nameLeft, place found.valueLeft⟩ :: others
    else none

/-- The token of an event in a text, if it has one. All attributes of a start tag are found. -/
def Token.ofEvent? (map : LineMap) (cs : List Char) : Xml.Event → Option Token
  | .startTag offset name attributes =>
    let begin := map.offset (map.position offset)
    let located := locateAttributes map attributes (cs.drop (begin + 1 + name.length))
    some (.start ⟨map.position offset, name, located.getD []⟩)
  | .endTag offset name => some (.stop (map.position offset) name)
  | .text offset raw value => some (.text ⟨map.position offset, value, raw, false⟩)
  | .cdata offset raw value => some (.text ⟨map.position offset, value, raw, true⟩)
  | .instruction offset target data => some (.instruction ⟨map.position offset, target, data⟩)
  | .comment _ => none

/-- The tokens of a source text and the place of its end, or why and where it is not well formed.
-/
def Token.scan (src : String) : Except (Xml.Cause × Position) (List Token × Position) :=
  let cs := src.toList
  let map := LineMap.ofText cs
  match Xml.read cs with
  | .ok events => .ok (events.filterMap (Token.ofEvent? map cs), map.position cs.length)
  | .error flaw => .error (flaw.cause, map.position (cs.length - flaw.left))

/-- A token of a document, or the mark behind the last one. -/
inductive Mark where
  | token (t : Token)
  | finish (pos : Position)

/-- A token taken for a start tag. -/
def Mark.tag : Mark → Tag
  | .token (.start tag) => tag
  | .token (.stop pos name) => ⟨pos, name, []⟩
  | .token (.text run) => ⟨run.pos, run.value, []⟩
  | .token (.instruction i) => ⟨i.pos, i.target, []⟩
  | .finish pos => ⟨pos, "", []⟩

end Fxml.Markup
