/-! Templates with marks after percent signs. A mark says how the next value is put in, and two
percent signs stand for one.
-/

namespace Fxml.Text

inductive Measure where
  | absent
  | given (n : Nat)
  | asked
  | tooLarge
deriving DecidableEq

/-- A mark. Without a letter it is not complete. -/
structure Mark where
  key : Option (List Char)
  left : Bool
  sign : Bool
  blank : Bool
  alternate : Bool
  zero : Bool
  width : Measure
  precision : Measure
  letter : Option Char

inductive Piece where
  | text (cs : List Char)
  | mark (m : Mark)
  | openKey

/-- The characters up to the parenthesis that closes, and those after it. -/
def untilClosed (depth : Nat) (before : List Char) : List Char → Option (List Char × List Char)
  | [] => none
  | c :: rest =>
    if c = ')' then
      if depth = 0 then some (before.reverse, rest) else untilClosed (depth - 1) (c :: before) rest
    else untilClosed (if c = '(' then depth + 1 else depth) (c :: before) rest

def measureAt (limit : Nat) (cs : List Char) : Measure × List Char :=
  match cs with
  | '*' :: rest => (.asked, rest)
  | _ =>
    let digits := cs.takeWhile Char.isDigit
    let n := digits.foldl (fun n c => 10 * n + (c.toNat - '0'.toNat)) 0
    (if digits.isEmpty then .absent else if limit < n then .tooLarge else .given n,
      cs.dropWhile Char.isDigit)

/-- A precision after a point; a point alone stands for zero. -/
def precisionAt (cs : List Char) : Measure × List Char :=
  match cs with
  | '.' :: rest =>
    match measureAt (1 <<< 31 - 1) rest with
    | (.absent, rest) => (.given 0, rest)
    | found => found
  | _ => (.absent, cs)

def isSizeLetter (c : Char) : Bool := c = 'h' || c = 'l' || c = 'L'

def withoutSizeLetter (cs : List Char) : List Char :=
  match cs with
  | c :: rest => if isSizeLetter c then rest else cs
  | [] => []

def markAt (key : Option (List Char)) (cs : List Char) : Mark × List Char :=
  let isFlag (c : Char) : Bool := "-+ #0".toList.contains c
  let flags := cs.takeWhile isFlag
  let (width, rest) := measureAt (1 <<< 63 - 1) (cs.dropWhile isFlag)
  let (precision, rest) := precisionAt rest
  let rest := withoutSizeLetter rest
  let mark := {
    key := key, left := flags.contains '-', sign := flags.contains '+', blank := flags.contains ' '
    alternate := flags.contains '#', zero := flags.contains '0', width := width
    precision := precision, letter := rest.head? }
  (mark, rest.drop 1)

/-- Reads a template into its pieces; the length of the text bounds their number. -/
def templateWithin : Nat → List Char → List Piece
  | 0, _ => []
  | fuel + 1, cs =>
    match cs with
    | [] => []
    | '%' :: '%' :: rest => .text ['%'] :: templateWithin fuel rest
    | '%' :: '(' :: rest =>
      match untilClosed 0 [] rest with
      | some (key, rest) =>
        let (mark, rest) := markAt (some key) rest
        .mark mark :: templateWithin fuel rest
      | none => [.openKey]
    | '%' :: rest =>
      let (mark, rest) := markAt none rest
      .mark mark :: templateWithin fuel rest
    | _ => .text (cs.takeWhile (· != '%')) :: templateWithin fuel (cs.dropWhile (· != '%'))

def template (cs : List Char) : List Piece := templateWithin (cs.length + 1) cs

/-- A value that was put into text, before it is made as wide as asked. -/
structure Filling where
  isNumber : Bool
  announced : Nat
  text : List Char

/-- Text made as wide as a mark asks. Zeros stand after the sign and the announcement of a base,
spaces before them.
-/
def Mark.fill (m : Mark) (left : Bool) (width : Nat) (f : Filling) : List Char :=
  let isSigned := f.text.head? == some '-' || f.text.head? == some '+'
  let sign :=
    if !f.isNumber then []
    else if isSigned then f.text.take 1
    else if m.sign then ['+']
    else if m.blank then [' ']
    else []
  let rest := if f.isNumber && isSigned then f.text.drop 1 else f.text
  let announcement := rest.take f.announced
  let digits := rest.drop f.announced
  let missing := width - (sign.length + rest.length)
  if left then sign ++ rest ++ List.replicate missing ' '
  else if f.isNumber && m.zero then sign ++ announcement ++ List.replicate missing '0' ++ digits
  else List.replicate missing ' ' ++ sign ++ rest

end Fxml.Text
