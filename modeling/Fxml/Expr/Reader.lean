import Fxml.Expr.Basic
import Fxml.Expr.Token

/-! Reading expressions from tokens. Binary operators form six levels, all of them left
associative; below them stand unary operators, then a primary followed by its suffixes. -/

open Fxml.Text

namespace Fxml.Expr

/-- The levels of binary operators, the loosest first. -/
def precedence : List (List BinaryOp) :=
  [[.or], [.and], [.eq, .ne], [.lt, .le, .gt, .ge], [.add, .sub], [.mul, .div, .mod]]

def binaryOp? : Symbol → Option BinaryOp
  | .or => some .or
  | .and => some .and
  | .eq => some .eq
  | .ne => some .ne
  | .lt => some .lt
  | .le => some .le
  | .gt => some .gt
  | .ge => some .ge
  | .plus => some .add
  | .minus => some .sub
  | .star => some .mul
  | .slash => some .div
  | .percent => some .mod
  | _ => none

def keyword? : String → Option Scalar
  | "true" => some (.bool true)
  | "false" => some (.bool false)
  | "null" => some .null
  | _ => none

/-- The number that a literal with a fraction or an exponent denotes. -/
def floatValue (text : String) : Float :=
  let cs := text.toList
  let whole := cs.takeWhile isAsciiDigit
  let (fraction, rest) := Token.scanFraction (cs.dropWhile isAsciiDigit)
  let places := fraction.drop 1
  let exponent : Int :=
    match rest.drop 1 with
    | '-' :: digits => -(digitsNumber digits : Int)
    | '+' :: digits => digitsNumber digits
    | digits => digitsNumber digits
  Number.ofDecimal false (digitsNumber (whole ++ places)) (exponent - places.length)

/-- A unary operator applied to its operand; a minus goes into a number. -/
def applyUnary (pos : Position) (op : UnaryOp) (operand : Expr) : Expr :=
  match op, operand with
  | .neg, .const _ value =>
    match value.negate? with
    | some value => .const pos value
    | none => .unary pos op operand
  | _, _ => .unary pos op operand

/-- A token of a text, or the mark behind the last one. -/
structure Mark where
  lexeme : Option Lexeme
  pos : Position
deriving DecidableEq

namespace Mark

def ofToken (t : Token) : Mark := ⟨some t.lexeme, t.pos⟩

def text (m : Mark) : String := (m.lexeme.map Lexeme.text).getD ""

def isSymbol (m : Mark) (s : Symbol) : Bool := m.lexeme == some (.symbol s)

def operator? (m : Mark) (ops : List BinaryOp) : Option BinaryOp :=
  match m.lexeme with
  | some (.symbol s) => (binaryOp? s).filter (· ∈ ops)
  | _ => none

/-- What is wrong with a mark after the end of an expression. -/
def leftOver (m : Mark) : ExprError :=
  match m.lexeme with
  | some (.symbol s) =>
    if s.isCloser then ⟨.strayCloser s.text, m.pos⟩ else ⟨.unexpectedToken s.text, m.pos⟩
  | _ => ⟨.unexpectedToken m.text, m.pos⟩

/-- What is wrong with a mark that starts no expression. -/
def noPrimary (m : Mark) : ExprError :=
  match m.lexeme with
  | none => ⟨.unexpectedEnd, m.pos⟩
  | some (.symbol .dot) => ⟨.emptySegment, m.pos⟩
  | some _ => m.leftOver

end Mark

/-- Where reading has got to: the number of the token that comes next, and the brackets that are
open, the innermost first.
-/
structure Cursor where
  marks : List Mark
  index : Nat := 0
  opened : List Mark := []

abbrev Parser : Type → Type := StateT Cursor (Except (Refusal ExprError))

namespace Parser

def halt {α : Type} (reason : Halt) : Parser α := throw (.halt reason)

def fault {α : Type} (error : ExprError) : Parser α := throw (.fault error)

def current : Parser Mark := do
  let c ← get
  match c.marks[c.index]? with
  | some m => return m
  | none => halt .pastEnd

/-- Goes on to the next token. The end mark is never passed. -/
def advance : Parser Mark := do
  let m ← current
  if m.lexeme.isSome then modify fun c => { c with index := c.index + 1 }
  return m

def sees (s : Symbol) : Parser Bool := return (← current).isSymbol s

def openBracket : Parser Mark := do
  let m ← advance
  modify fun c => { c with opened := m :: c.opened }
  return m

/-- Reads the symbol that closes the innermost bracket. At the end of the tokens the fault is the
bracket's, which has no partner.
-/
def closeBracket (closer : Symbol) : Parser Unit := do
  let m ← current
  if m.isSymbol closer then
    let _ ← advance
    match (← get).opened with
    | _ :: outer => modify fun c => { c with opened := outer }
    | [] => halt .noBracket
  else if m.lexeme.isNone then
    match (← get).opened with
    | opener :: _ => fault ⟨.neverClosed opener.text, opener.pos⟩
    | [] => halt .noBracket
  else fault ⟨.expectedCloser closer.text m.text, m.pos⟩

/-- Refuses tokens that are left over. -/
def finish : Parser Unit := do
  let m ← current
  if m.lexeme.isSome then fault m.leftOver

mutual

/-- Reads an expression whose loosest operators are those of the first level given. The first
argument of all readers bounds how deep they call one another.
-/
def binary : Nat → List (List BinaryOp) → Parser Expr
  | 0, _ => halt .endless
  | depth + 1, [] => unary depth
  | depth + 1, ops :: tighter => do
    let left ← binary depth tighter
    operands depth ops tighter left

/-- Reads the operators of one level and their right operands, joining each to what stands on its
left.
-/
def operands : Nat → List BinaryOp → List (List BinaryOp) → Expr → Parser Expr
  | 0, _, _, _ => halt .endless
  | depth + 1, ops, tighter, left => do
    let m ← current
    match m.operator? ops with
    | none => return left
    | some op =>
      let _ ← advance
      let right ← binary depth tighter
      operands depth ops tighter (.binary m.pos op left right)

def unary : Nat → Parser Expr
  | 0 => halt .endless
  | depth + 1 => do
    let m ← current
    if m.isSymbol .minus then
      let _ ← advance
      return applyUnary m.pos .neg (← unary depth)
    else if m.isSymbol .bang then
      let _ ← advance
      return applyUnary m.pos .not (← unary depth)
    else postfixed depth

def postfixed : Nat → Parser Expr
  | 0 => halt .endless
  | depth + 1 => do
    let e ← primary depth
    suffixes depth e

/-- Reads property names, calls and indexes after an expression. -/
def suffixes : Nat → Expr → Parser Expr
  | 0, _ => halt .endless
  | depth + 1, e => do
    if ← sees .dot then
      let _ ← advance
      let m ← current
      match m.lexeme with
      | some (.ident name) =>
        let _ ← advance
        if ← sees .leftParen then
          let args ← arguments depth
          suffixes depth (.call m.pos e name args)
        else suffixes depth (.path m.pos e name)
      | _ => fault ⟨.emptySegment, m.pos⟩
    else if ← sees .leftBracket then
      let opener ← openBracket
      let m ← current
      if m.isSymbol .rightBracket then fault ⟨.emptyIndex, m.pos⟩
      let key ← binary depth precedence
      closeBracket .rightBracket
      suffixes depth (.index opener.pos e key)
    else return e

/-- Reads the arguments of a call in their brackets: none or one. -/
def arguments : Nat → Parser (List Expr)
  | 0 => halt .endless
  | depth + 1 => do
    let _ ← openBracket
    if ← sees .rightParen then
      closeBracket .rightParen
      return []
    let arg ← binary depth precedence
    let m ← current
    if m.isSymbol .comma then fault ⟨.tooManyArguments, m.pos⟩
    closeBracket .rightParen
    return [arg]

/-- Reads a literal, a name, a bracketed expression, a list or a map. -/
def primary : Nat → Parser Expr
  | 0 => halt .endless
  | depth + 1 => do
    let m ← current
    match m.lexeme with
    | some (.int digits) =>
      let _ ← advance
      if digitLimit < digits.length then halt (.unreadNumber digits.length)
      return .const m.pos (.int (digitsNumber digits.toList))
    | some (.float text) =>
      let _ ← advance
      return .const m.pos (.float (floatValue text))
    | some (.string value) =>
      let _ ← advance
      return .const m.pos (.text value)
    | some (.halves value) =>
      let _ ← advance
      return .halves m.pos value
    | some (.ident name) =>
      let _ ← advance
      match keyword? name with
      | some value => return .const m.pos value
      | none => return .ref m.pos name
    | some (.symbol .leftParen) =>
      let _ ← openBracket
      let e ← binary depth precedence
      closeBracket .rightParen
      return e
    | some (.symbol .leftBracket) =>
      let _ ← openBracket
      let found ← items depth
      closeBracket .rightBracket
      return .list m.pos found
    | some (.symbol .leftBrace) =>
      let _ ← openBracket
      let found ← entries depth
      closeBracket .rightBrace
      return .map m.pos found
    | _ => fault m.noPrimary

/-- Reads the items of a list up to its closing bracket; a comma may stand after the last. -/
def items : Nat → Parser (List Expr)
  | 0 => halt .endless
  | depth + 1 => do
    let m ← current
    if m.lexeme.isNone || m.isSymbol .rightBracket then return []
    let item ← binary depth precedence
    if ← sees .comma then
      let _ ← advance
      return item :: (← items depth)
    return [item]

/-- Reads the entries of a map up to its closing brace; a comma may stand after the last. -/
def entries : Nat → Parser (List (Expr × Expr))
  | 0 => halt .endless
  | depth + 1 => do
    let m ← current
    if m.lexeme.isNone || m.isSymbol .rightBrace then return []
    let key ← key depth
    let colon ← current
    if !colon.isSymbol .colon then fault ⟨.missingColon, colon.pos⟩
    let _ ← advance
    let value ← binary depth precedence
    if ← sees .comma then
      let _ ← advance
      return (key, value) :: (← entries depth)
    return [(key, value)]

/-- Reads the key of an entry. A bare name is a key by itself. -/
def key : Nat → Parser Expr
  | 0 => halt .endless
  | depth + 1 => do
    let m ← current
    match m.lexeme with
    | some (.ident name) =>
      if (keyword? name).isNone then
        let _ ← advance
        return .const m.pos (.text name)
      else binary depth precedence
    | _ => binary depth precedence

end

end Parser

end Fxml.Expr
