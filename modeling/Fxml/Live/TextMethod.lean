import Fxml.Live.Arithmetic
import Fxml.Text.Casing
import Fxml.Text.Encoding

/-! The methods of texts. -/

open Fxml.Text

namespace Fxml.Live

/-- A text that a method made of another; one that is the same is the same value. -/
def textResult (self : Value) (cs new : List Char) : Action Value :=
  match self with
  | .scalar _ _ => if cs == new then pure self else createChars new
  | _ => createChars new

def textArgument (v : Value) : Action (List Char) := do return (← requireText v).toList

/-- The bounds of a part of a sequence; missing ones are its ends. -/
def partOf (size : Nat) (bounds : List Value) : Action (Nat × Nat) := do
  let bound (v : Value) (default : Nat) : Action Nat := do
    match ← sliceBoundOf v with
    | some n => return (Slice.bound size 0 size n).toNat
    | none => return default
  match bounds with
  | [] => return (0, size)
  | [start] => return (← bound start 0, size)
  | [start, stop] => do
    let first ← bound start 0
    return (first, ← bound stop size)
  | _ => throw .wrongType

/-- A bound of a part as it was written: beyond the end it stays beyond the end. -/
def startBeyond (size : Nat) (bounds : List Value) : Action Bool := do
  match bounds with
  | start :: _ => match ← sliceBoundOf start with
    | some n => return (size : Int) < n
    | none => return false
  | [] => return false

def searchIn (cs : List Char) (args : List Value)
    (search : (needle part : List Char) → Option Nat)
    : Action (Option Nat) := do
  match args with
  | needle :: bounds =>
    let needle ← textArgument needle
    let (start, stop) ← partOf cs.length bounds
    if stop < start || (← startBeyond cs.length bounds) then return none
    return (search needle (between start stop cs)).map (start + ·)
  | [] => throw .wrongType

def placeOrNone (found : Option Nat) : Action Value :=
  match found with
  | some n => createInt n
  | none => pure (.small (-1))

def requirePlace (found : Option Nat) : Action Value :=
  match found with
  | some n => createInt n
  | none => throw .wrongValue

def countIn (cs : List Char) (args : List Value) : Action Value := do
  match args with
  | needle :: bounds =>
    let needle ← textArgument needle
    let (start, stop) ← partOf cs.length bounds
    if stop < start || (← startBeyond cs.length bounds) then return .small 0
    createInt (occurrences needle (between start stop cs)).length
  | [] => throw .wrongType

/-- Whether a part of a text begins or ends with one of some texts. -/
def borders (cs : List Char) (args : List Value) (test : (edge part : List Char) → Bool)
    : Action Value := do
  match args with
  | edge :: bounds =>
    let (start, stop) ← partOf cs.length bounds
    let outside := stop < start || (← startBeyond cs.length bounds)
    let part := between start stop cs
    match (← get).tupleItems? edge with
    | some edges =>
      let texts ← edges.mapM textArgument
      return .bool (!outside && texts.any (test · part))
    | none =>
      let edge ← textArgument edge
      return .bool (!outside && test edge part)
  | [] => throw .wrongType

/-- How many cuts are made; a negative number sets no limit. -/
def cutLimit (v : Value) : Action (Option Nat) := do
  let n ← wordIndexOf v
  return if n < 0 then none else some n.toNat

def createPieces (self : Value) (cs : List Char) (pieces : List (List Char)) : Action Value := do
  createList (← pieces.mapM (textResult self cs))

def splitText (self : Value) (cs : List Char) (args : List Value)
    (atWords : Option Nat → List Char → List (List Char))
    (atSeparator : List Char → Option Nat → List Char → List (List Char))
    : Action Value := do
  let (separator, limit) ← match args with
    | [] => pure (Value.null, none)
    | [separator] => pure (separator, none)
    | [separator, limit] => do pure (separator, ← cutLimit limit)
    | _ => throw .wrongType
  if separator.isNull then createPieces self cs (atWords limit cs)
  else
    let separator ← textArgument separator
    if separator.isEmpty then throw .wrongValue
    createPieces self cs (atSeparator separator limit cs)

/-- Cuts a text in two at a separator, which stands between the parts. -/
def partitionText (self : Value) (cs : List Char) (args : List Value)
    (cut : List Char → List Char → Option (List Char × List Char)) (wholeFirst : Bool)
    : Action Value := do
  match args with
  | [separator] =>
    let mark ← textArgument separator
    if mark.isEmpty then throw .wrongValue
    match cut mark cs with
    | some (before, after) => do
      createTuple [← createChars before, separator, ← createChars after]
    | none =>
      let whole ← textResult self cs cs
      if wholeFirst then createTuple [whole, .emptyText, .emptyText]
      else createTuple [.emptyText, .emptyText, whole]
  | _ => throw .wrongType

def stripText (self : Value) (cs : List Char) (args : List Value)
    (strip : (Char → Bool) → List Char → List Char)
    : Action Value := do
  match args with
  | [] => textResult self cs (strip isBlank cs)
  | [chars] =>
    if chars.isNull then textResult self cs (strip isBlank cs)
    else
      let chars ← textArgument chars
      textResult self cs (strip chars.contains cs)
  | _ => throw .wrongType

def stripEnd (p : Char → Bool) (cs : List Char) : List Char := (cs.reverse.dropWhile p).reverse

def alignText (self : Value) (cs : List Char) (args : List Value)
    (align : Char → Nat → List Char → List Char)
    : Action Value := do
  let (width, fill) ← match args with
    | [width] => do pure (← wordIndexOf width, ' ')
    | [width, fill] => do
      let width ← wordIndexOf width
      match ← textArgument fill with
      | [c] => pure (width, c)
      | _ => throw .wrongType
    | _ => throw .wrongType
  requireRoom width.toNat
  textResult self cs (align fill width.toNat cs)

def joinText (separator : List Char) (v : Value) : Action Value := do
  let items ← wholeElements v
  let parts ← items.mapM textArgument
  match items with
  | [item] => match item with
    | .scalar _ _ => pure item
    | _ => createChars parts.flatten
  | _ => createChars (joined separator parts)

def replaceText (self : Value) (cs : List Char) (args : List Value) : Action Value := do
  let (old, new, limit) ← match args with
    | [old, new] => pure (old, new, none)
    | [old, new, limit] => do
      discard (requireText old)
      discard (requireText new)
      pure (old, new, ← cutLimit limit)
    | _ => throw .wrongType
  let old ← textArgument old
  textResult self cs (replaced old (← textArgument new) limit cs)

def encodeText (cs : List Char) (args : List Value) : Action Value := do
  let name ← match args with
    | [] => pure "utf-8"
    | [name] | [name, _] => requireText name
    | _ => throw .wrongType
  let errors ← match args with
    | [_, errors] => requireText errors
    | _ => pure "strict"
  match Encoding.ofName? name with
  | none => throw .unknownEncoding
  | some encoding =>
    let parts ← cs.mapM fun c => do
      match encoding.encodeChar? c with
      | some bytes => pure bytes
      | none =>
        if errors == "strict" then throw .notEncodable
        else match Substitution.ofName? errors with
          | some s => pure ((s.text c).filterMap encoding.encodeChar?).flatten
          | none => throw .unknownEncoding
    createBody .bytes (.bytes (encoding.mark ++ parts.flatten))

def replacementOf (table : Value) (c : Char) : Action (List Char) := do
  let found ← try some <$> itemAt table (← createInt c.toNat)
    catch e => if e.isOfLookup then pure none else throw e
  let w ← get
  match found with
  | none => return [c]
  | some v =>
    if v.isNull then return []
    else match w.text? v, w.whole? v with
      | some s, _ => return s.toList
      | none, some n =>
        if n < 0 || 0x110000 ≤ n then throw .wrongValue else return [Char.ofNat n.toNat]
      | none, none => throw .wrongType

/-- The key of a table of characters: a number, or the number of a character. -/
def tableKey (v : Value) : Action Value := do
  let w ← get
  match w.whole? v, (w.text? v).map String.toList with
  | some _, _ => pure v
  | none, some [c] => createInt c.toNat
  | none, some _ => throw .wrongValue
  | none, none => throw .wrongType

def makeTable (args : List Value) : Action Value := do
  match args with
  | [table] =>
    match (← get).entries? table with
    | some entries =>
      let mapped ← entries.foldlM (fun found e => do putEntry found (← tableKey e.key) e.value) []
      createDict mapped
    | none => throw .wrongType
  | old :: new :: rest =>
    let old ← textArgument old
    let new ← textArgument new
    let removed ← match rest with
      | [] => pure []
      | [removed] => textArgument removed
      | _ => throw .wrongType
    if old.length != new.length then throw .wrongValue
    let mapped ← (old.zip new).foldlM (fun found (a, b) => do
      putEntry found (← createInt a.toNat) (← createInt b.toNat)) []
    let all ← removed.foldlM (fun found c => do putEntry found (← createInt c.toNat) .null) mapped
    createDict all
  | [] => throw .wrongType

def plainTextMethod? (cs : List Char) (name : String) : Option (List Char) :=
  match name with
  | "upper" => some (cs.flatMap upperChar)
  | "lower" => some (lowerFrom [] cs)
  | "title" => some (titleFrom [] cs)
  | "capitalize" => some (capitalized cs)
  | "casefold" => some (cs.flatMap foldChar)
  | "swapcase" => some (swapFrom [] cs)
  | _ => none

def textQuestion? (cs : List Char) (name : String) : Option Bool :=
  let each (p : Char → Bool) : Bool := !cs.isEmpty && cs.all p
  match name with
  | "isascii" => some (cs.all (·.toNat < 128))
  | "islower" => some (isLowerText (String.ofList cs))
  | "isupper" => some (isUpperText (String.ofList cs))
  | "istitle" => some (isTitleText cs)
  | "isspace" => some (each isBlank)
  | "isdecimal" => some (each isDecimal)
  | "isdigit" => some (each isDigit)
  | "isnumeric" => some (each isNumeric)
  | "isalpha" => some (each isAlpha)
  | "isalnum" => some (each isAlnum)
  | "isidentifier" => some (isIdentifier (String.ofList cs))
  | "isprintable" => some (cs.all isPrintable)
  | _ => none

def callTextMethod (self : Value) (s name : String) (args : List Value) : Action Value := do
  let cs := s.toList
  match plainTextMethod? cs name, textQuestion? cs name, args with
  | some result, _, [] => createChars result
  | _, some answer, [] => return .bool answer
  | some _, _, _ | _, some _, _ => throw .wrongType
  | none, none, _ =>
    match name, args with
    | "find", args => do placeOrNone (← searchIn cs args find?)
    | "rfind", args => do placeOrNone (← searchIn cs args findLast?)
    | "index", args => do requirePlace (← searchIn cs args find?)
    | "rindex", args => do requirePlace (← searchIn cs args findLast?)
    | "count", args => countIn cs args
    | "startswith", args => borders cs args fun edge part => edge.isPrefixOf part
    | "endswith", args => borders cs args fun edge part => edge.isSuffixOf part
    | "split", args => splitText self cs args wordPieces pieces
    | "rsplit", args => splitText self cs args wordPiecesFromRight piecesFromRight
    | "splitlines", [] => createPieces self cs (splitLines [] cs)
    | "splitlines", [keepEnds] => do
      if (← shortIndexOf keepEnds) != 0 then createPieces self cs (linesWithEnds [] cs)
      else createPieces self cs (splitLines [] cs)
    | "partition", args => partitionText self cs args partition? true
    | "rpartition", args => partitionText self cs args partitionLast? false
    | "strip", args => stripText self cs args trimBy
    | "lstrip", args => stripText self cs args List.dropWhile
    | "rstrip", args => stripText self cs args stripEnd
    | "center", args => alignText self cs args centered
    | "ljust", args => alignText self cs args (aligned .left)
    | "rjust", args => alignText self cs args (aligned .right)
    | "zfill", [width] => alignText self cs [width] fun _ => zeroFilled
    | "expandtabs", [] => textResult self cs (expandedTabs 8 0 cs)
    | "expandtabs", [width] => do
      textResult self cs (expandedTabs (← shortIndexOf width).toNat 0 cs)
    | "join", [v] => joinText cs v
    | "replace", args => replaceText self cs args
    | "removeprefix", [edge] => do
      let edge ← textArgument edge
      textResult self cs (if edge.isPrefixOf cs then cs.drop edge.length else cs)
    | "removesuffix", [edge] => do
      let edge ← textArgument edge
      let isEnd := !edge.isEmpty && edge.isSuffixOf cs
      textResult self cs (if isEnd then cs.take (cs.length - edge.length) else cs)
    | "encode", args => encodeText cs args
    | "translate", [table] => do
      createChars (← cs.mapM (replacementOf table)).flatten
    | "format", values => do
      createChars (← fillText ⟨some values, none⟩ cs)
    | "format_map", [source] => do
      createChars (← fillText ⟨none, some source⟩ cs)
    | "__format__", [layout] => do
      createChars (← layOutPlain self (← textArgument layout))
    | "__getnewargs__", [] => do createTuple [← createChars cs]
    | "__sizeof__", [] => createInt (49 + cs.length)
    | _, _ => throw .wrongType

end Fxml.Live
