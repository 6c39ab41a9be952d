import Fxml.Scalar
import Fxml.Table

/-! Structured data as text: scalars, arrays, and objects in the order of their keys. -/

open List

namespace Fxml

inductive Json where
  | scalar (value : Scalar)
  | array (items : List Json)
  | object (fields : List (String × Json))
deriving Inhabited

namespace Json

/-- Whether a value counts as true: anything but null, false, zero and what is empty. -/
def isTrue : Json → Bool
  | scalar .null => false
  | scalar (.bool b) => b
  | scalar (.int n) => n != 0
  | scalar (.float x) => x != 0.0
  | scalar (.text s) => s != ""
  | array items => !items.isEmpty
  | object fields => !fields.isEmpty

def field? : Json → String → Option Json
  | object fields, name => fields.lookup name
  | _, _ => none

def text? : Json → Option String
  | scalar (.text s) => some s
  | _ => none

abbrev Left (cs : List Char) : Type := { rest : List Char // rest.length ≤ cs.length }

/-- What is left of a text after a value that takes at least one character. -/
abbrev Shorter (cs : List Char) : Type := { rest : List Char // rest.length < cs.length }

def isSpace (c : Char) : Bool := c == ' ' || c == '\t' || c == '\r' || c == '\n'

def skipSpace (cs : List Char) : List Char := cs.dropWhile isSpace

@[grind →]
theorem skipSpace_length {cs more : List Char} {c : Char} (h : skipSpace cs = c :: more)
    : more.length < cs.length := by
  have := (dropWhile_suffix isSpace (l := cs)).length_le
  grind [skipSpace]

def escape? : Char → Option Char
  | '"' => some '"'
  | '\\' => some '\\'
  | '/' => some '/'
  | 'b' => some '\x08'
  | 'f' => some '\x0c'
  | 'n' => some '\n'
  | 'r' => some '\r'
  | 't' => some '\t'
  | _ => none

def readUnit? : List Char → Option (Nat × List Char)
  | a :: b :: c :: d :: rest =>
    if [a, b, c, d].all Text.isAsciiHex then some (Text.hexNumber [a, b, c, d], rest) else none
  | _ => none

theorem readUnit?_length {cs rest : List Char} {n : Nat} (h : readUnit? cs = some (n, rest))
    : rest.length < cs.length := by
  unfold readUnit? at h
  split at h
  · split at h
    · cases h
      simp only [length_cons]
      omega
    · cases h
  · cases h

/-- Reads the number of an escaped character after the letter of the escape. A character beyond the
first plane is written as two escapes.
-/
def readEscape (cs : List Char) : Option (Char × Left cs) :=
  match h : readUnit? cs with
  | none => none
  | some (n, rest) =>
    have hr := readUnit?_length h
    match rest, hr with
    | '\\' :: 'u' :: more, hr =>
      match h' : readUnit? more with
      | some (m, rest') =>
        have hm := readUnit?_length h'
        if 0xD800 ≤ n && n < 0xDC00 && 0xDC00 ≤ m && m < 0xE000 then
          some (Char.ofNat (0x10000 + (n - 0xD800) * 0x400 + (m - 0xDC00)), ⟨rest', by grind⟩)
        else
          some (Char.ofNat n, ⟨'\\' :: 'u' :: more, by grind⟩)
      | none =>
        some (Char.ofNat n, ⟨'\\' :: 'u' :: more, by grind⟩)
    | rest, hr => some (Char.ofNat n, ⟨rest, by omega⟩)

/-- Reads the characters of a string after its quote, up to the closing one. -/
def readString (cs : List Char) : Option (List Char × Shorter cs) :=
  match cs with
  | [] => none
  | '"' :: more => some ([], ⟨more, by simp⟩)
  | '\\' :: 'u' :: more => do
    let (c, ⟨rest, h⟩) ← readEscape more
    let (value, ⟨rest', h'⟩) ← readString rest
    some (c :: value, ⟨rest', by grind⟩)
  | '\\' :: c :: more => do
    let d ← escape? c
    let (value, ⟨rest, h⟩) ← readString more
    some (d :: value, ⟨rest, by grind⟩)
  | c :: more =>
    if c.toNat < 0x20 then none
    else do
      let (value, ⟨rest, h⟩) ← readString more
      some (c :: value, ⟨rest, by grind⟩)
termination_by cs.length
decreasing_by
  all_goals simp only [List.length_cons]; omega

/-- Whether a character may stand in a number or in the name of a constant. -/
def isWordPart (c : Char) : Bool := Text.isAsciiAlnum c || c == '-' || c == '+' || c == '.'

/-- The number that a text spells, whole unless it has a fraction or an exponent. -/
def number? (cs : List Char) : Option Scalar :=
  let negative := cs.head? = some '-'
  let cs := if negative then cs.drop 1 else cs
  let whole := cs.takeWhile Text.isAsciiDigit
  let rest := cs.dropWhile Text.isAsciiDigit
  let places := if rest.head? = some '.' then (rest.drop 1).takeWhile Text.isAsciiDigit else []
  let rest := if rest.head? = some '.' then (rest.drop 1).dropWhile Text.isAsciiDigit else rest
  if whole.isEmpty then none
  else if rest.isEmpty && places.isEmpty then
    let n : Int := Text.digitsNumber whole
    some (.int (if negative then -n else n))
  else
    let tail := rest.drop 1
    let sign := tail.head? = some '-'
    let digits := if sign || tail.head? = some '+' then tail.drop 1 else tail
    if digits.all Text.isAsciiDigit then
      let n : Int := Text.digitsNumber digits
      let exponent : Int := (if sign then -n else n) - places.length
      some (.float (Number.ofDecimal negative (Text.digitsNumber (whole ++ places)) exponent))
    else none

def word? (cs : List Char) : Option Scalar :=
  match String.ofList cs with
  | "null" => some .null
  | "true" => some (.bool true)
  | "false" => some (.bool false)
  | "NaN" => some (.float Number.notANumber)
  | "Infinity" => some (.float Number.infinity)
  | "-Infinity" => some (.float (-Number.infinity))
  | _ => number? cs

mutual

def readValue (cs : List Char) : Option (Json × Shorter cs) :=
  match hs : skipSpace cs with
  | [] => none
  | '"' :: more => do
    let (text, ⟨rest, h⟩) ← readString more
    some (.scalar (.text (String.ofList text)), ⟨rest, by grind⟩)
  | '[' :: more => do
    let (items, ⟨rest, h⟩) ← readItems more
    some (.array items, ⟨rest, by grind⟩)
  | '\x7b' :: more => do
    let (fields, ⟨rest, h⟩) ← readFields more
    some (.object (Table.ofList fields), ⟨rest, by grind⟩)
  | c :: more => do
    if isWordPart c then
      let value ← word? (c :: more.takeWhile isWordPart)
      some (.scalar value, ⟨more.dropWhile isWordPart, by
        grind [(dropWhile_suffix isWordPart (l := more)).length_le]⟩)
    else none
termination_by 4 * cs.length
decreasing_by all_goals grind

def readItems (cs : List Char) : Option (List Json × Shorter cs) :=
  match hs : skipSpace cs with
  | ']' :: more => some ([], ⟨more, by grind⟩)
  | [] => none
  | c :: more => do
    let (item, ⟨rest, h⟩) ← readValue (c :: more)
    match hn : skipSpace rest with
    | ']' :: more => some ([item], ⟨more, by grind⟩)
    | ',' :: more => do
      let (items, ⟨rest', h'⟩) ← readItems more
      some (item :: items, ⟨rest', by grind⟩)
    | _ => none
termination_by 4 * cs.length + 1
decreasing_by all_goals grind

def readFields (cs : List Char) : Option (List (String × Json) × Shorter cs) :=
  match hs : skipSpace cs with
  | '\x7d' :: more => some ([], ⟨more, by grind⟩)
  | '"' :: more => do
    let (name, ⟨afterName, hm⟩) ← readString more
    match hc : skipSpace afterName with
    | ':' :: more' => do
      let (value, ⟨rest, h⟩) ← readValue more'
      match hn : skipSpace rest with
      | '\x7d' :: more'' =>
        some ([(String.ofList name, value)], ⟨more'', by grind⟩)
      | ',' :: more'' => do
        let (fields, ⟨rest', h'⟩) ← readFields more''
        some ((String.ofList name, value) :: fields, ⟨rest', by grind⟩)
      | _ => none
    | _ => none
  | _ => none
termination_by 4 * cs.length + 1
decreasing_by all_goals grind

end

def read? (text : String) : Option Json := do
  let (value, ⟨rest, _⟩) ← readValue text.toList
  if rest.all isSpace then some value else none

end Json

end Fxml
