/-! Character classes given by tables of code points. -/

namespace Fxml.Text

/-- The numbers that a line of a table packs. Its places in base sixteen are read from the lowest on;
one from eight on ends a number, and the higher places of the number come before it.
-/
def unpackLine (high : Nat) : Nat → Nat → List Nat
  | 0, _ => []
  | places + 1, line =>
    let digit := line % 16
    if line = 0 then []
    else if digit < 8 then unpackLine (8 * high + digit) places (line / 16)
    else (8 * high + digit - 8) :: unpackLine 0 places (line / 16)

/-- The numbers that a table packs, in lines of up to a hundred places. -/
def unpack (table : List Nat) : List Nat := table.flatMap (unpackLine 0 100)

/-- The closed ranges that begin behind a code point. Each is given by how far it begins behind the end
of the one before, and by how far it goes from there.
-/
def rangesBehind (last : Nat) : List Nat → List (Nat × Nat)
  | gap :: length :: rest =>
    (last + gap, last + gap + length) :: rangesBehind (last + gap + length) rest
  | _ => []

def rangesOf (table : List Nat) : List (Nat × Nat) := rangesBehind 0 (unpack table)

/-- Progressions `(first, last, step)`, by distances like ranges. -/
def progressionsBehind (last : Nat) : List Nat → List (Nat × Nat × Nat)
  | gap :: length :: step :: rest =>
    (last + gap, last + gap + length, step) :: progressionsBehind (last + gap + length) rest
  | _ => []

def progressionsOf (table : List Nat) : List (Nat × Nat × Nat) :=
  progressionsBehind 0 (unpack table)

/-- Progressions with a distance each. An odd number stands for a negative distance. -/
def mappingsBehind (last : Nat) : List Nat → List (Nat × Nat × Nat × Int)
  | gap :: length :: step :: n :: rest =>
    let distance : Int := if n % 2 = 0 then n / 2 else -((n + 1) / 2)
    (last + gap, last + gap + length, step, distance) :: mappingsBehind (last + gap + length) rest
  | _ => []

def mappingsOf (table : List Nat) : List (Nat × Nat × Nat × Int) := mappingsBehind 0 (unpack table)

def inRanges (ranges : List (Nat × Nat)) (n : Nat) : Bool :=
  ranges.any fun (first, last) => first ≤ n && n ≤ last

/-- Whether a code point is a member of one of the progressions `(first, last, step)`. -/
def inProgressions (progressions : List (Nat × Nat × Nat)) (n : Nat) : Bool :=
  progressions.any fun (first, last, step) =>
    first ≤ n && n ≤ last && (n - first) % step == 0

def isAsciiLower (c : Char) : Bool := 'a' ≤ c && c ≤ 'z'

def isAsciiUpper (c : Char) : Bool := 'A' ≤ c && c ≤ 'Z'

def isAsciiDigit (c : Char) : Bool := '0' ≤ c && c ≤ '9'

def isAsciiAlpha (c : Char) : Bool := isAsciiLower c || isAsciiUpper c || c == '_'

/-- Whether a character is an ASCII letter, digit or the underscore. -/
def isAsciiAlnum (c : Char) : Bool := isAsciiAlpha c || isAsciiDigit c

def isAsciiHex (c : Char) : Bool :=
  isAsciiDigit c || ('a' ≤ c && c ≤ 'f') || ('A' ≤ c && c ≤ 'F')

/-- The value of a hexadecimal digit; other characters count as zero. -/
def hexValue (c : Char) : Nat :=
  if isAsciiDigit c then c.toNat - '0'.toNat
  else if 'a' ≤ c && c ≤ 'f' then c.toNat - 'a'.toNat + 10
  else if 'A' ≤ c && c ≤ 'F' then c.toNat - 'A'.toNat + 10
  else 0

def hexNumber (digits : List Char) : Nat :=
  digits.foldl (fun value c => 16 * value + hexValue c) 0

/-- How many decimal digits a whole number may have where it is read from text or written. -/
def digitLimit : Nat := 4300

def digitsNumber (digits : List Char) : Nat :=
  digits.foldl (fun value c => 10 * value + (c.toNat - '0'.toNat)) 0

/-- The digits of a number in base sixteen, lower case, at least `width` of them. -/
def hexDigits (width n : Nat) : List Char :=
  let digits := Nat.toDigits 16 n
  List.replicate (width - digits.length) '0' ++ digits

/-- A code point: a character, or half of a surrogate pair, which is none. -/
inductive Point where
  | char (c : Char)
  /-- The half with this number, counted from the first one. -/
  | half (n : Fin 2048)
deriving DecidableEq

namespace Point

def ofNat (n : Nat) : Point :=
  if n.isValidChar then .char (Char.ofNat n) else .half (Fin.ofNat 2048 (n - 0xD800))

def code : Point → Nat
  | char c => c.toNat
  | half n => 0xD800 + n

def char? : Point → Option Char
  | char c => some c
  | half _ => none

/-- A point as it is shown; a half by its number. -/
def shown : Point → List Char
  | char c => [c]
  | half n => '\\' :: 'u' :: hexDigits 4 (0xD800 + n)

end Point

/-- Text with half of a surrogate pair in it, which no string holds. -/
structure Halves where
  points : List Point
  broken : points.any (·.char?.isNone) = true
deriving DecidableEq

def Halves.shown (h : Halves) : String := String.ofList (h.points.flatMap Point.shown)

/-- An identifier of the expression language: ASCII letters, digits and underscores that do not
start with a digit.
-/
def isName : List Char → Bool
  | [] => false
  | c :: rest => isAsciiAlpha c && rest.all isAsciiAlnum

end Fxml.Text
