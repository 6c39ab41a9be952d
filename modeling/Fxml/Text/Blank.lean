import Fxml.Text.CharClass

/-! Blank characters, and cutting text at them. -/

namespace Fxml.Text

/-- Blank characters: the ASCII controls that separate text, the space and the separators of
every script.
-/
def isBlank (c : Char) : Bool :=
  inRanges
    [(0x9, 0xD), (0x1C, 0x20), (0x85, 0x85), (0xA0, 0xA0), (0x1680, 0x1680), (0x2000, 0x200A),
     (0x2028, 0x2029), (0x202F, 0x202F), (0x205F, 0x205F), (0x3000, 0x3000)] c.toNat

def isLineEnd (c : Char) : Bool :=
  inRanges [(0xA, 0xD), (0x1C, 0x1E), (0x85, 0x85), (0x2028, 0x2029)] c.toNat

def trimBy (p : Char → Bool) (cs : List Char) : List Char :=
  ((cs.dropWhile p).reverse.dropWhile p).reverse

def strip (s : String) : String := String.ofList (trimBy isBlank s.toList)

def stripRight (s : String) : String :=
  String.ofList (s.toList.reverse.dropWhile isBlank).reverse

def isAllBlank (s : String) : Bool := s.toList.all isBlank

/-- The runs of characters outside a class, in order. `word` is the run under way, reversed. -/
def splitBy (p : Char → Bool) (word : List Char) : List Char → List (List Char)
  | [] => if word.isEmpty then [] else [word.reverse]
  | c :: rest =>
    if p c then
      if word.isEmpty then splitBy p [] rest else word.reverse :: splitBy p [] rest
    else splitBy p (c :: word) rest

/-- The words of a text: its runs of characters that are not blank. -/
def words (s : String) : List String := (splitBy isBlank [] s.toList).map String.ofList

/-- Text with every run of blanks made one space and none left at the ends. -/
def collapseBlanks (s : String) : String := " ".intercalate (words s)

/-- Cuts a text into its lines without their ends; `line` is the line under way, reversed. A
carriage return and the line feed after it end one line, and text after the last end is a line
unless it is empty.
-/
def splitLines (line : List Char) : List Char → List (List Char)
  | [] => if line.isEmpty then [] else [line.reverse]
  | '\r' :: '\n' :: rest => line.reverse :: splitLines [] rest
  | c :: rest =>
    if isLineEnd c then line.reverse :: splitLines [] rest else splitLines (c :: line) rest

def lines (s : String) : List String := (splitLines [] s.toList).map String.ofList

/-- Every carriage return, with a line feed after it or without, becomes one line feed. -/
def normalizeNewlines : List Char → List Char
  | [] => []
  | '\r' :: '\n' :: rest => '\n' :: normalizeNewlines rest
  | c :: rest => (if c = '\r' then '\n' else c) :: normalizeNewlines rest

end Fxml.Text
