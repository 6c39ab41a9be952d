import Fxml.Number.Notation
import Fxml.Text.Word

/-! Layouts of fields: how text and numbers are aligned, signed, grouped and rounded. -/

open List

namespace Fxml.Text

inductive Placement where
  | left
  | right
  | center
  | afterSign
deriving DecidableEq

def Placement.ofChar? : Char → Option Placement
  | '<' => some left
  | '>' => some right
  | '^' => some center
  | '=' => some afterSign
  | _ => none

structure Layout where
  fill : Char
  placement : Placement
  sign : Option Char
  plainZero : Bool
  alternate : Bool
  width : Nat
  separator : Option Char
  precision : Option Nat
  letter : Option Char

inductive LayoutError where
  | notAllowed
  | tooLarge
deriving DecidableEq

namespace Layout

def placementAt (cs : List Char) : Option Char × Option Placement × List Char :=
  match cs with
  | fill :: c :: rest =>
    match Placement.ofChar? c, Placement.ofChar? fill with
    | some p, _ => (some fill, some p, rest)
    | none, some p => (none, some p, c :: rest)
    | none, none => (none, none, cs)
  | [c] => match Placement.ofChar? c with
    | some p => (none, some p, [])
    | none => (none, none, cs)
  | [] => (none, none, [])

def takeOne (cs : List Char) (among : List Char) : Option Char × List Char :=
  match cs with
  | c :: rest => if among.contains c then (some c, rest) else (none, cs)
  | [] => (none, [])

/-- A number at the front of a text; one that is too large is none. -/
def numberAt? (cs : List Char) : Option (Option Nat × List Char) :=
  let digits := cs.takeWhile isDecimal
  let rest := cs.dropWhile isDecimal
  if digits.isEmpty then some (none, rest)
  else
    let n := decimalNumber digits
    if n < 1 <<< 63 then some (some n, rest) else none

def separatorAt? (cs : List Char) : Option (Option Char × List Char) :=
  match cs with
  | ',' :: '_' :: _ | '_' :: ',' :: _ => none
  | ',' :: rest => some (some ',', rest)
  | '_' :: rest => some (some '_', rest)
  | _ => some (none, cs)

/-- Whether numbers written with a letter can be grouped by a separator. -/
def allowsGroups (separator : Char) (letter : Option Char) : Bool :=
  match letter with
  | none => true
  | some c =>
    "defgEG%F".toList.contains c || separator == '_' && "boxX".toList.contains c

/-- Reads a layout. `placement` is where fields stand when the layout does not say, and `letter` the
one that it then has.
-/
def read? (placement : Placement) (letter : Option Char) (cs : List Char) : Option Layout := do
  let (fill, placed, rest) := placementAt cs
  let (sign, rest) := takeOne rest ['+', '-', ' ']
  let (plainZero, rest) := takeOne rest ['z']
  let (alternate, rest) := takeOne rest ['#']
  let (zero, rest) := if fill.isNone then takeOne rest ['0'] else (none, rest)
  let (width, rest) ← numberAt? rest
  let (separator, rest) ← separatorAt? rest
  let (precision, rest) ← match rest with
    | '.' :: rest => match numberAt? rest with
      | some (some n, rest) => some (some n, rest)
      | _ => none
    | _ => some (none, rest)
  if 1 < rest.length then none
  else
    let letter := rest.head?.or letter
    if separator.any (!allowsGroups · letter) then none
    else some {
      fill := fill.getD (if zero.isSome then '0' else ' ')
      placement := placed.getD
        (if zero.isSome && placement == .right then .afterSign else placement)
      sign := sign, plainZero := plainZero.isSome, alternate := alternate.isSome
      width := width.getD 0, separator := separator, precision := precision, letter := letter }

def text (l : Layout) (cs : List Char) : Except LayoutError (List Char) :=
  if l.letter != some 's' || l.sign.isSome || l.plainZero || l.alternate
      || l.placement == .afterSign then .error .notAllowed
  else
    let shown := match l.precision with
      | some n => cs.take n
      | none => cs
    let missing := l.width - shown.length
    let before := match l.placement with
      | .right => missing
      | .center => missing / 2
      | _ => 0
    .ok (replicate before l.fill ++ shown ++ replicate (missing - before) l.fill)

/-- Digits in groups from the right, with zeros before them until they are as wide as asked. `digits`
holds the digits from the right.
-/
def groupedFrom (size : Nat) (separator : Char) (width : Int) : Nat → List Char → List Char
  | 0, digits => digits
  | fuel + 1, digits =>
    let count := min (size : Int) (max (max (digits.length : Int) width) 1)
    let group := digits.take count.toNat
    let zeros := replicate (count.toNat - group.length) '0'
    let rest := digits.drop count.toNat
    let left := width - count
    if rest.isEmpty && left ≤ 0 then group ++ zeros
    else group ++ zeros ++ separator :: groupedFrom size separator (left - 1) fuel rest

/-- The whole part of a number in a field: grouped, and filled with zeros when it is to be as wide as
asked.
-/
def wholePart (l : Layout) (width : Int) (digits : List Char) : List Char :=
  match l.separator with
  | some separator =>
    let size := if (l.letter.map fun c => "boxX".toList.contains c).getD false then 4 else 3
    (groupedFrom size separator width (digits.length + width.toNat + 1) digits.reverse).reverse
  | none => replicate (width.toNat - digits.length) '0' ++ digits

/-- A number in its field, given whether it is negative, what announces its base, its whole digits and
the rest.
-/
def number (l : Layout) (negative : Bool) (announcement whole rest : List Char) : List Char :=
  let sign :=
    if negative then ['-']
    else if l.sign == some '+' then ['+']
    else if l.sign == some ' ' then [' ']
    else []
  let around := sign.length + announcement.length + rest.length
  let isZeroFilled := l.fill == '0' && l.placement == .afterSign
  let digits :=
    if whole.isEmpty then []
    else l.wholePart (if isZeroFilled then (l.width : Int) - around else 0) whole
  let missing := l.width - (around + digits.length)
  let fill (n : Nat) : List Char := replicate n l.fill
  match l.placement with
  | .left => sign ++ announcement ++ digits ++ rest ++ fill missing
  | .right => fill missing ++ sign ++ announcement ++ digits ++ rest
  | .center =>
    fill (missing / 2) ++ sign ++ announcement ++ digits ++ rest ++ fill (missing - missing / 2)
  | .afterSign => sign ++ announcement ++ fill missing ++ digits ++ rest

def real (l : Layout) (x : Float) : Except LayoutError (List Char) :=
  let precision := l.precision.getD 6
  let style? : Option Number.Style := match l.letter with
    | none => match l.precision with
      | none => some ⟨.shortest, 0, l.alternate, true, false⟩
      | some n => some ⟨.general, n, l.alternate, true, false⟩
    | some '%' => some ⟨.fixed, precision, l.alternate, false, false⟩
    | some 'n' => some ⟨.general, precision, l.alternate, false, false⟩
    | some c => Number.Style.ofLetter? c precision l.alternate
  match style? with
  | none => .error .notAllowed
  | some style =>
    if 1 <<< 31 ≤ precision then .error .notAllowed
    else
      let percent := l.letter == some '%'
      let (negative, cs) := style.write (if percent then x * 100.0 else x)
      let isZero := cs.all fun c => c == '0' || c == '.' || c == 'e' || c == '+'
      let whole := cs.takeWhile Char.isDigit
      let rest := cs.dropWhile Char.isDigit ++ (if percent then ['%'] else [])
      .ok (l.number (negative && !(l.plainZero && isZero)) [] whole rest)

/-- A whole number in its field. A letter for floating-point numbers rounds it first; `toReal` does
so.
-/
def whole (l : Layout) (n : Int) (toReal : Except LayoutError Float)
    : Except LayoutError (List Char) :=
  let digits (base : Nat) : List Char := Number.digitsIn base n.natAbs
  let announced (cs : List Char) : List Char := if l.alternate then cs else []
  match l.letter with
  | some 'c' =>
    if l.precision.isSome || l.plainZero || l.sign.isSome || l.alternate then .error .notAllowed
    else if n < 0 || 0x110000 ≤ n then .error .tooLarge
    else .ok (l.number false [] [] [Char.ofNat n.toNat])
  | some letter =>
    if "eEfFgG%".toList.contains letter then do l.real (← toReal)
    else if l.precision.isSome || l.plainZero then .error .notAllowed
    else
      let number := l.number (n < 0)
      match letter with
      | 'd' | 'n' => .ok (number [] (digits 10) [])
      | 'b' => .ok (number (announced ['0', 'b']) (digits 2) [])
      | 'o' => .ok (number (announced ['0', 'o']) (digits 8) [])
      | 'x' => .ok (number (announced ['0', 'x']) (digits 16) [])
      | 'X' => .ok (number (announced ['0', 'X']) ((digits 16).map Char.toUpper) [])
      | _ => .error .notAllowed
  | none => .error .notAllowed

end Layout

/-! Text made as wide as asked. -/

inductive Alignment where
  | left
  | right
  | center
deriving DecidableEq

/-- Text with as many characters before and after it as are missing. -/
def aligned (alignment : Alignment) (fill : Char) (width : Nat) (cs : List Char) : List Char :=
  let missing := width - cs.length
  let before := match alignment with
    | .left => 0
    | .right => missing
    | .center => missing / 2
  replicate before fill ++ cs ++ replicate (missing - before) fill

/-- Text in the middle of a field; of an odd number of missing characters the extra one comes first
when the width is odd too.
-/
def centered (fill : Char) (width : Nat) (cs : List Char) : List Char :=
  let missing := width - cs.length
  let before := missing / 2 + (if missing % 2 = 1 && width % 2 = 1 then 1 else 0)
  replicate before fill ++ cs ++ replicate (missing - before) fill

def zeroFilled (width : Nat) (cs : List Char) : List Char :=
  let zeros := replicate (width - cs.length) '0'
  match cs with
  | '+' :: rest => '+' :: zeros ++ rest
  | '-' :: rest => '-' :: zeros ++ rest
  | _ => zeros ++ cs

/-- Text with spaces in place of tabs, which go on to the next multiple of the tab width. -/
def expandedTabs (tabWidth column : Nat) : List Char → List Char
  | [] => []
  | c :: rest =>
    if c = '\t' then
      let spaces := if tabWidth = 0 then 0 else tabWidth - column % tabWidth
      replicate spaces ' ' ++ expandedTabs tabWidth (column + spaces) rest
    else if c = '\n' || c = '\r' then c :: expandedTabs tabWidth 0 rest
    else c :: expandedTabs tabWidth (column + 1) rest

end Fxml.Text
