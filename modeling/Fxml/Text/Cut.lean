import Fxml.Text.Blank

/-! Places of a text within another. -/

namespace Fxml.Text

/-- Where a text that is not empty begins within another, from the left and without overlap. `index`
is the place reached, and as many characters as `skip` says belong to the last occurrence.
-/
def occurrencesFrom (needle : List Char) (index skip : Nat) : List Char → List Nat
  | [] => []
  | c :: rest =>
    if 0 < skip then occurrencesFrom needle (index + 1) (skip - 1) rest
    else if needle.isPrefixOf (c :: rest) then
      index :: occurrencesFrom needle (index + 1) (needle.length - 1) rest
    else occurrencesFrom needle (index + 1) 0 rest

/-- Where a text begins within another, without overlap; an empty text begins everywhere. -/
def occurrences (needle cs : List Char) : List Nat :=
  if needle.isEmpty then List.range (cs.length + 1) else occurrencesFrom needle 0 0 cs

def find? (needle cs : List Char) : Option Nat := (occurrences needle cs).head?

def findLast? (needle cs : List Char) : Option Nat :=
  (find? needle.reverse cs.reverse).map fun i => cs.length - needle.length - i

def holds (needle cs : List Char) : Bool := (find? needle cs).isSome

def between (start stop : Nat) (cs : List Char) : List Char := (cs.take stop).drop start

end Fxml.Text

/-! Cutting text into pieces and putting pieces together. A limit says how many cuts are made at
most.
-/

namespace Fxml.Text

/-- The pieces of a text between separators, which are not empty. `piece` is the piece under way,
reversed, and as many characters as `skip` says belong to a separator.
-/
def piecesFrom (separator : List Char) (limit : Option Nat) (piece : List Char) (skip : Nat)
    : List Char → List (List Char)
  | [] => [piece.reverse]
  | c :: rest =>
    if 0 < skip then piecesFrom separator limit piece (skip - 1) rest
    else if limit != some 0 && separator.isPrefixOf (c :: rest) then
      piece.reverse :: piecesFrom separator (limit.map (· - 1)) [] (separator.length - 1) rest
    else piecesFrom separator limit (c :: piece) 0 rest

def pieces (separator : List Char) (limit : Option Nat) (cs : List Char) : List (List Char) :=
  piecesFrom separator limit [] 0 cs

/-- Does what is done from the left from the right. -/
def fromRight (f : List Char → List (List Char)) (cs : List Char) : List (List Char) :=
  ((f cs.reverse).map List.reverse).reverse

def piecesFromRight (separator : List Char) (limit : Option Nat) (cs : List Char)
    : List (List Char) :=
  fromRight (pieces separator.reverse limit) cs

/-- As many words of a text as the limit says, and then the rest without the blanks before it. -/
def wordsWithin : Nat → List Char → List (List Char)
  | 0, cs => match cs.dropWhile isBlank with
    | [] => []
    | rest => [rest]
  | limit + 1, cs => match cs.dropWhile isBlank with
    | [] => []
    | rest =>
      rest.takeWhile (!isBlank ·) :: wordsWithin limit (rest.dropWhile (!isBlank ·))

def wordPieces (limit : Option Nat) (cs : List Char) : List (List Char) :=
  wordsWithin (limit.getD cs.length) cs

def wordPiecesFromRight (limit : Option Nat) (cs : List Char) : List (List Char) :=
  fromRight (wordPieces limit) cs

/-- The lines of a text with their ends; `line` is the line under way, reversed. -/
def linesWithEnds (line : List Char) : List Char → List (List Char)
  | [] => if line.isEmpty then [] else [line.reverse]
  | '\r' :: '\n' :: rest => ('\n' :: '\r' :: line).reverse :: linesWithEnds [] rest
  | c :: rest =>
    if isLineEnd c then (c :: line).reverse :: linesWithEnds [] rest
    else linesWithEnds (c :: line) rest

def joined (separator : List Char) (parts : List (List Char)) : List Char :=
  (parts.intersperse separator).flatten

/-- Puts a text before every character and at the end, as often as the limit says. -/
def interleaved (new : List Char) : Option Nat → List Char → List Char
  | some 0, cs => cs
  | _, [] => new
  | limit, c :: rest => new ++ c :: interleaved new (limit.map (· - 1)) rest

def replaced (old new : List Char) (limit : Option Nat) (cs : List Char) : List Char :=
  if old.isEmpty then interleaved new limit cs else joined new (pieces old limit cs)

def partition? (separator cs : List Char) : Option (List Char × List Char) :=
  (find? separator cs).map fun i => (cs.take i, cs.drop (i + separator.length))

def partitionLast? (separator cs : List Char) : Option (List Char × List Char) :=
  (findLast? separator cs).map fun i => (cs.take i, cs.drop (i + separator.length))

end Fxml.Text
