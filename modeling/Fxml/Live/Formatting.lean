import Fxml.Live.Conversion
import Fxml.Live.Subscript
import Fxml.Text.Layout
import Fxml.Text.Template

/-! Values put into texts: into templates with marks after percent signs, and into fields with
layouts.
-/

namespace Fxml.Live

open Text (Layout LayoutError Mark Piece Filling Measure)

/-- The text that shows a value with nothing but plain characters. -/
def asciiShown (v : Value) : Action String := do
  let plain (c : Char) : List Char :=
    if c.toNat < 0x80 then [c]
    else if c.toNat < 0x100 then '\\' :: 'x' :: Text.hexDigits 2 c.toNat
    else if c.toNat < 0x10000 then '\\' :: 'u' :: Text.hexDigits 4 c.toNat
    else '\\' :: 'U' :: Text.hexDigits 8 c.toNat
  return String.ofList ((← shown v).toList.flatMap plain)

/-- The values that are put into a template: those that are left, and what keys are looked up in. -/
structure Supply where
  values : List Value
  source : Option Value

def Supply.next (s : Supply) : Action (Value × Supply) :=
  match s.values with
  | v :: rest => pure (v, { s with values := rest })
  | [] => throw .wrongType

def World.isKeyed (w : World) (v : Value) : Bool :=
  match v with
  | .type _ => (w.enumMembers? v).isSome
  | .scalar _ _ | .notImplemented | .builtin _ | .method _ _ _ => false
  | .object _ =>
    (w.text? v).isNone && (w.tupleItems? v).isNone && w.supports v "__getitem__"

/-- The supply of a template. A tuple supplies its elements, any other value itself. -/
def supplyOf (w : World) (v : Value) : Supply :=
  ⟨(w.tupleItems? v).getD [v], if w.isKeyed v then some v else none⟩

def measure (m : Measure) (s : Supply) (toIndex : Value → Action Int)
    : Action (Option Int × Supply) := do
  match m with
  | .absent => return (none, s)
  | .given n => return (some n, s)
  | .tooLarge => throw .wrongValue
  | .asked =>
    let (v, s) ← s.next
    match (← get).whole? v with
    | some _ => return (some (← toIndex v), s)
    | none => throw .wrongType

/-- The digits of a whole number, with zeros before them up to the precision. -/
def wholeFilling (m : Mark) (letter : Char) (precision : Option Int) (n : Int) : Filling :=
  let base := if letter == 'o' then 8 else if letter == 'x' || letter == 'X' then 16 else 10
  let digits := Number.digitsIn base n.natAbs
  let digits := List.replicate ((precision.getD 0).toNat - digits.length) '0' ++ digits
  let digits := if letter == 'X' then digits.map Char.toUpper else digits
  let announcement := if m.alternate && base != 10 then ['0', letter] else []
  ⟨true, announcement.length, (if n < 0 then ['-'] else []) ++ announcement ++ digits⟩

def templateWhole (letter : Char) (v : Value) : Action Int := do
  let w ← get
  if !w.isNumeric v then throw .wrongType
  match w.whole? v with
  | some n => pure n
  | none =>
    if letter == 'o' || letter == 'x' || letter == 'X' then indexOf v
    else match (← get).whole? (← toWhole v) with
      | some n => pure n
      | none => throw .wrongType

def templateChar (v : Value) : Action Char := do
  match (← get).text? v with
  | some s => match s.toList with
    | [c] => pure c
    | _ => throw .wrongType
  | none =>
    let n ← indexOf v
    if n < 0 || 0x110000 ≤ n then throw (.arithmetic .tooLarge) else pure (Char.ofNat n.toNat)

def cutTo (precision : Option Int) (s : String) : Filling :=
  ⟨false, 0, match precision with
    | some n => s.toList.take n.toNat
    | none => s.toList⟩

def fillingOf (m : Mark) (letter : Char) (precision : Option Int) (v : Value) : Action Filling := do
  match letter with
  | 's' => return cutTo precision (← display v)
  | 'r' => return cutTo precision (← shown v)
  | 'a' => return cutTo precision (← asciiShown v)
  | 'd' | 'i' | 'u' | 'o' | 'x' | 'X' =>
    return wholeFilling m letter precision (← templateWhole letter v)
  | 'c' => return ⟨false, 0, [← templateChar v]⟩
  | _ =>
    match Number.Style.ofLetter? letter (precision.getD 6).toNat m.alternate with
    | some style =>
      let (negative, cs) := style.write (← requireReal v)
      return ⟨true, 0, if negative then '-' :: cs else cs⟩
    | none => throw .wrongValue

/-- The supply of a mark; a key supplies its value. -/
def Supply.ofKey (s : Supply) (key : Option (List Char)) : Action Supply := do
  match key, s.source with
  | none, _ => return s
  | some key, some source =>
    let v ← itemAt source (← createChars key)
    return { s with values := [v] }
  | some _, none => throw .wrongType

def markText (m : Mark) (s : Supply) : Action (List Char × Supply) := do
  let s ← s.ofKey m.key
  let (width, s) ← measure m.width s wordIndexOf
  let (precision, s) ← measure m.precision s shortIndexOf
  match m.letter with
  | none => throw .wrongValue
  | some letter =>
    let (v, s) ← s.next
    let filling ← fillingOf m letter (precision.map (max 0)) v
    let width := width.getD 0
    requireRoom width.natAbs
    return (m.fill (m.left || width < 0) width.natAbs filling, s)

/-- Puts values into the pieces of a template. Values that are put in nowhere must be there to be asked
for keys.
-/
def fillPieces (s : Supply) : List Piece → Action (List Char)
  | [] => if s.values.isEmpty || s.source.isSome then return [] else throw .wrongType
  | .text cs :: rest => do return cs ++ (← fillPieces s rest)
  | .mark m :: rest => do
    let (cs, s) ← markText m s
    return cs ++ (← fillPieces s rest)
  | .openKey :: _ => throw (if s.source.isSome then .wrongValue else .wrongType)

def fillTemplate (template : String) (v : Value) : Action (List Char) := do
  fillPieces (supplyOf (← get) v) (Text.template template.toList)

def liftLayout (r : Except LayoutError (List Char)) : Action (List Char) :=
  match r with
  | .ok cs => pure cs
  | .error .notAllowed => throw .wrongValue
  | .error .tooLarge => throw (.arithmetic .tooLarge)

def requireLayout (l : Option Layout) : Action Layout := do
  match l with
  | some l => do requireRoom l.width; pure l
  | none => throw .wrongValue

def layOutScalar (s : Scalar) (layout : List Char) : Action (List Char) := do
  match amountOf? s, s with
  | some (.whole n), _ =>
    let l ← requireLayout (Layout.read? .right (some 'd') layout)
    let real := match (Number.Amount.whole n).toReal with
      | .ok x => .ok x
      | .error _ => .error LayoutError.tooLarge
    liftLayout (l.whole n real)
  | some (.real x), _ => do
    liftLayout ((← requireLayout (Layout.read? .right none layout)).real x)
  | none, .text t => do
    liftLayout ((← requireLayout (Layout.read? .left (some 's') layout)).text t.toList)
  | none, _ => throw .wrongType

/-- A value in a field, when its class does not say how: numbers and texts follow the layout, members
of enumerations are texts, and any other value takes an empty layout only.
-/
def layOutPlain (v : Value) (layout : List Char) : Action (List Char) := do
  let w ← get
  match w.scalar? v with
  | some (.null) => if layout.isEmpty then return "None".toList else throw .wrongType
  | some s =>
    if layout.isEmpty then return (← display v).toList else layOutScalar s layout
  | none =>
    if layout.isEmpty || w.isEnumeration (w.typeOf v) then
      let text ← display v
      if layout.isEmpty then return text.toList else layOutScalar (.text text) layout
    else throw .wrongType

def layOut (v : Value) (layout : List Char) : Action (List Char) := do
  match (← get).override? v "__format__" with
  | some member => return (← requireText (← callMember v member [← createChars layout])).toList
  | none => layOutPlain v layout

inductive Numbering where
  | undecided
  | automatic (next : Nat)
  | manual
deriving DecidableEq

structure FieldSource where
  values : Option (List Value)
  named : Option Value

/-- The number that digits spell; `none` when there is another character or none. -/
def fieldNumber? (cs : List Char) : Option Nat :=
  if cs.isEmpty || !cs.all Text.isDecimal then none else some (Text.decimalNumber cs)

def fieldItem (v : Value) (key : List Char) : Action Value := do
  match fieldNumber? key with
  | some n => do itemAt v (← createInt n)
  | none => do itemAt v (← createChars key)

/-- What a field asks for after its name: attributes after points, elements in brackets. -/
def followField : Nat → Value → List Char → Action Value
  | 0, v, _ => pure v
  | fuel + 1, v, cs =>
    let isStop (c : Char) : Bool := c == '.' || c == '['
    match cs with
    | [] => pure v
    | '.' :: rest => do
      let name := rest.takeWhile (!isStop ·)
      if name.isEmpty then throw .wrongValue
      followField fuel (← getAttribute v (String.ofList name)) (rest.dropWhile (!isStop ·))
    | '[' :: rest => do
      let key := rest.takeWhile (· != ']')
      match rest.dropWhile (· != ']') with
      | [] => throw .wrongValue
      | _ :: after =>
        if key.isEmpty then throw .wrongValue
        followField fuel (← fieldItem v key) after
    | _ => throw .wrongValue

def FieldSource.numbered (source : FieldSource) (n : Nat) : Action Value :=
  match source.values with
  | some values => match values[n]? with
    | some v => pure v
    | none => throw .noIndex
  | none => throw .wrongValue

def fieldValueOf (source : FieldSource) (numbering : Numbering) (field : List Char)
    : Action (Value × Numbering) := do
  let isStop (c : Char) : Bool := c == '.' || c == '['
  let first := field.takeWhile (!isStop ·)
  let rest := field.dropWhile (!isStop ·)
  let (v, numbering) ← match first.isEmpty, fieldNumber? first, numbering with
    | true, _, .undecided => do pure (← source.numbered 0, .automatic 1)
    | true, _, .automatic n => do pure (← source.numbered n, .automatic (n + 1))
    | true, _, .manual => throw .wrongValue
    | false, some _, .automatic _ => throw .wrongValue
    | false, some n, _ => do pure (← source.numbered n, .manual)
    | false, none, _ => match source.named with
      | some named => do pure (← itemAt named (← createChars first), numbering)
      | none => throw .noKey
  return (← followField (rest.length + 1) v rest, numbering)

/-- A field between braces: its name, its conversion, its layout and the rest of the text. -/
structure Field where
  name : List Char
  conversion : Option Char
  layout : List Char
  rest : List Char

/-- The name of a field, up to a brace, a colon or an exclamation mark outside brackets. -/
def fieldNameAt (before : List Char) (inBrackets : Bool) : List Char → Option (List Char × List Char)
  | [] => none
  | c :: rest =>
    if inBrackets then fieldNameAt (c :: before) (c != ']') rest
    else if c == '\x7b' then none
    else if c == '\x7d' || c == ':' || c == '!' then some (before.reverse, c :: rest)
    else fieldNameAt (c :: before) (c == '[') rest

/-- A layout up to the brace that closes its field. -/
def layoutAt (depth : Nat) (before : List Char) : List Char → Option (List Char × List Char)
  | [] => none
  | c :: rest =>
    if c == '\x7d' then
      if depth = 0 then some (before.reverse, rest) else layoutAt (depth - 1) (c :: before) rest
    else layoutAt (if c == '\x7b' then depth + 1 else depth) (c :: before) rest

def fieldAt? (cs : List Char) : Option Field := do
  let (name, rest) ← fieldNameAt [] false cs
  match rest with
  | ':' :: rest => do
    let (layout, rest) ← layoutAt 0 [] rest
    some ⟨name, none, layout, rest⟩
  | '!' :: conversion :: ':' :: rest => do
    let (layout, rest) ← layoutAt 0 [] rest
    some ⟨name, some conversion, layout, rest⟩
  | '!' :: conversion :: '\x7d' :: rest => some ⟨name, some conversion, [], rest⟩
  | '\x7d' :: rest => some ⟨name, none, [], rest⟩
  | _ => none

def convertField (conversion : Option Char) (v : Value) : Action Value :=
  match conversion with
  | none => pure v
  | some 'r' => do createText (← shown v)
  | some 's' => displayValue v
  | some 'a' => do createText (← asciiShown v)
  | some _ => throw .wrongValue

/-- Fills the fields of a text. Layouts may hold fields themselves, as deeply as `depth` says; the
length of the text bounds the number of its fields.
-/
def fillFields (source : FieldSource)
    : (depth fuel : Nat) → Numbering → List Char → Action (List Char × Numbering)
  | 0, _, _, _ => throw .wrongValue
  | _, 0, numbering, _ => return ([], numbering)
  | depth + 1, fuel + 1, numbering, cs => do
    let plain := cs.takeWhile fun c => c != '\x7b' && c != '\x7d'
    match cs.drop plain.length with
    | [] => return (plain, numbering)
    | '\x7b' :: '\x7b' :: rest =>
      let (after, numbering) ← fillFields source (depth + 1) fuel numbering rest
      return (plain ++ '\x7b' :: after, numbering)
    | '\x7d' :: '\x7d' :: rest =>
      let (after, numbering) ← fillFields source (depth + 1) fuel numbering rest
      return (plain ++ '\x7d' :: after, numbering)
    | '\x7b' :: rest =>
      match fieldAt? rest with
      | none => throw .wrongValue
      | some field =>
        let (v, numbering) ← fieldValueOf source numbering field.name
        let v ← convertField field.conversion v
        let (layout, numbering) ←
          if field.layout.contains '\x7b' then
            fillFields source depth (field.layout.length + 1) numbering field.layout
          else pure (field.layout, numbering)
        let text ← layOut v layout
        let (after, numbering) ← fillFields source (depth + 1) fuel numbering field.rest
        return (plain ++ text ++ after, numbering)
    | _ => throw .wrongValue
termination_by depth fuel => (depth, fuel)

def fillText (source : FieldSource) (cs : List Char) : Action (List Char) := do
  return (← fillFields source 2 (cs.length + 1) .undecided cs).1

end Fxml.Live
