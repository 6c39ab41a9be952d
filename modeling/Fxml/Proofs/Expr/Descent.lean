import Fxml.Expr.Value

/-! Reading expressions by recursion on their tokens. What is read is the same as with a cursor that
moves over them, but for numbers with too many digits.
-/

open Fxml.Text

namespace Fxml.Expr

abbrev Shorter (ts : List Token) : Type := { rest : List Token // rest.length < ts.length }

abbrev NotLonger (ts : List Token) : Type := { rest : List Token // rest.length ≤ ts.length }

theorem precedence_length : precedence.length = 6 := rfl

def operatorAt? (ops : List BinaryOp) : List Token → Option (BinaryOp × Position)
  | ⟨.symbol s, pos⟩ :: _ =>
    match binaryOp? s with
    | some op => if op ∈ ops then some (op, pos) else none
    | none => none
  | _ => none

/-- The place of the next token; `eof` is the place after the last one. -/
def place (eof : Position) : List Token → Position
  | [] => eof
  | t :: _ => t.pos

def atSymbol (s : Symbol) : List Token → Bool
  | ⟨.symbol s', _⟩ :: _ => s' == s
  | _ => false

/-- Reads the symbol that closes a bracket opened by `opener`. At the end of the tokens the fault
is the bracket's, which has no partner.
-/
def closeBracket (opener : Token) (closer : Symbol) (ts : List Token)
    : Except ExprError (Shorter ts) :=
  match ts with
  | [] => .error ⟨.neverClosed opener.lexeme.text, opener.pos⟩
  | t :: rest =>
    if t.lexeme == .symbol closer then .ok ⟨rest, Nat.lt_succ_self _⟩
    else .error ⟨.expectedCloser closer.text t.lexeme.text, t.pos⟩

def noPrimary (eof : Position) : List Token → ExprError
  | [] => ⟨.unexpectedEnd, eof⟩
  | t :: _ =>
    match t.lexeme with
    | .symbol .dot => ⟨.emptySegment, t.pos⟩
    | .symbol s =>
      if s.isCloser then ⟨.strayCloser s.text, t.pos⟩ else ⟨.unexpectedToken s.text, t.pos⟩
    | l => ⟨.unexpectedToken l.text, t.pos⟩

mutual

/-- Reads an expression whose loosest operators are those of the first level given. -/
def readBinary (eof : Position) (levels : List (List BinaryOp)) (ts : List Token)
    : Except ExprError (Expr × Shorter ts) :=
  match levels with
  | [] => readUnary eof ts
  | ops :: tighter => do
    let (left, ⟨rest, h⟩) ← readBinary eof tighter ts
    let (expr, ⟨rest', h'⟩) ← readOperands eof ops tighter left rest
    return (expr, ⟨rest', by omega⟩)
termination_by 16 * ts.length + levels.length + 3

/-- Reads the operators of one level and their right operands, joining each to what stands on its
left.
-/
def readOperands (eof : Position) (ops : List BinaryOp) (tighter : List (List BinaryOp))
    (left : Expr) (ts : List Token)
    : Except ExprError (Expr × NotLonger ts) :=
  match ts with
  | [] => return (left, ⟨[], by simp⟩)
  | t :: more =>
    match operatorAt? ops (t :: more) with
    | none => return (left, ⟨t :: more, by simp⟩)
    | some (op, pos) => do
      let (right, ⟨rest, h⟩) ← readBinary eof tighter more
      let (expr, ⟨rest', h'⟩) ← readOperands eof ops tighter (.binary pos op left right) rest
      return (expr, ⟨rest', by simp only [List.length_cons] at *; omega⟩)
termination_by 16 * ts.length + tighter.length

def readUnary (eof : Position) (ts : List Token) : Except ExprError (Expr × Shorter ts) :=
  match ts with
  | ⟨.symbol .minus, pos⟩ :: more => do
    let (operand, ⟨rest, h⟩) ← readUnary eof more
    return (applyUnary pos .neg operand, ⟨rest, by simp only [List.length_cons] at *; omega⟩)
  | ⟨.symbol .bang, pos⟩ :: more => do
    let (operand, ⟨rest, h⟩) ← readUnary eof more
    return (applyUnary pos .not operand, ⟨rest, by simp only [List.length_cons] at *; omega⟩)
  | ts => readPostfix eof ts
termination_by 16 * ts.length + 2

def readPostfix (eof : Position) (ts : List Token) : Except ExprError (Expr × Shorter ts) := do
  let (expr, ⟨rest, h⟩) ← readPrimary eof ts
  let (expr, ⟨rest', h'⟩) ← readSuffixes eof expr rest
  return (expr, ⟨rest', by omega⟩)
termination_by 16 * ts.length + 1

/-- Reads property names, calls and indexes after an expression. -/
def readSuffixes (eof : Position) (expr : Expr) (ts : List Token)
    : Except ExprError (Expr × NotLonger ts) :=
  match ts with
  | ⟨.symbol .dot, _⟩ :: ⟨.ident name, pos⟩ :: ⟨.symbol .leftParen, parenPos⟩ :: more => do
    let (args, ⟨rest, h⟩) ← readArguments eof ⟨.symbol .leftParen, parenPos⟩ more
    let (expr, ⟨rest', h'⟩) ← readSuffixes eof (.call pos expr name args) rest
    return (expr, ⟨rest', by simp only [List.length_cons] at *; omega⟩)
  | ⟨.symbol .dot, _⟩ :: ⟨.ident name, pos⟩ :: more => do
    let (expr, ⟨rest, h⟩) ← readSuffixes eof (.path pos expr name) more
    return (expr, ⟨rest, by simp only [List.length_cons] at *; omega⟩)
  | ⟨.symbol .dot, _⟩ :: more => .error ⟨.emptySegment, place eof more⟩
  | ⟨.symbol .leftBracket, pos⟩ :: more => do
    if atSymbol .rightBracket more then .error ⟨.emptyIndex, place eof more⟩
    else
      let (key, ⟨rest, h⟩) ← readBinary eof precedence more
      let ⟨rest', h'⟩ ← closeBracket ⟨.symbol .leftBracket, pos⟩ .rightBracket rest
      let (expr, ⟨rest'', h''⟩) ← readSuffixes eof (.index pos expr key) rest'
      return (expr, ⟨rest'', by simp only [List.length_cons] at *; omega⟩)
  | ts => return (expr, ⟨ts, Nat.le_refl _⟩)
termination_by 16 * ts.length
decreasing_by
  all_goals simp only [List.length_cons, precedence_length] at *; omega

/-- Reads the arguments of a call after its opening bracket: none or one. -/
def readArguments (eof : Position) (opener : Token) (ts : List Token)
    : Except ExprError (List Expr × Shorter ts) := do
  if atSymbol .rightParen ts then
    let rest ← closeBracket opener .rightParen ts
    return ([], rest)
  else
    let (arg, ⟨rest, h⟩) ← readBinary eof precedence ts
    if atSymbol .comma rest then .error ⟨.tooManyArguments, place eof rest⟩
    else
      let ⟨rest', h'⟩ ← closeBracket opener .rightParen rest
      return ([arg], ⟨rest', by omega⟩)
termination_by 16 * ts.length + 15
decreasing_by
  simp only [precedence_length]; omega

/-- Reads a literal, a name, a bracketed expression, a list or a map. -/
def readPrimary (eof : Position) (ts : List Token) : Except ExprError (Expr × Shorter ts) :=
  match ts with
  | ⟨.int digits, pos⟩ :: more =>
    return (.const pos (.int (digitsNumber digits.toList)), ⟨more, Nat.lt_succ_self _⟩)
  | ⟨.float text, pos⟩ :: more =>
    return (.const pos (.float (floatValue text)), ⟨more, Nat.lt_succ_self _⟩)
  | ⟨.string value, pos⟩ :: more => return (.const pos (.text value), ⟨more, Nat.lt_succ_self _⟩)
  | ⟨.halves value, pos⟩ :: more => return (.halves pos value, ⟨more, Nat.lt_succ_self _⟩)
  | ⟨.ident name, pos⟩ :: more =>
    match keyword? name with
    | some value => return (.const pos value, ⟨more, Nat.lt_succ_self _⟩)
    | none => return (.ref pos name, ⟨more, Nat.lt_succ_self _⟩)
  | ⟨.symbol .leftParen, pos⟩ :: more => do
    let (expr, ⟨rest, h⟩) ← readBinary eof precedence more
    let ⟨rest', h'⟩ ← closeBracket ⟨.symbol .leftParen, pos⟩ .rightParen rest
    return (expr, ⟨rest', Nat.lt_succ_of_lt (Nat.lt_trans h' h)⟩)
  | ⟨.symbol .leftBracket, pos⟩ :: more => do
    let (items, ⟨rest, h⟩) ← readItems eof more
    let ⟨rest', h'⟩ ← closeBracket ⟨.symbol .leftBracket, pos⟩ .rightBracket rest
    return (.list pos items, ⟨rest', Nat.lt_succ_of_lt (Nat.lt_of_lt_of_le h' h)⟩)
  | ⟨.symbol .leftBrace, pos⟩ :: more => do
    let (entries, ⟨rest, h⟩) ← readEntries eof more
    let ⟨rest', h'⟩ ← closeBracket ⟨.symbol .leftBrace, pos⟩ .rightBrace rest
    return (.map pos entries, ⟨rest', Nat.lt_succ_of_lt (Nat.lt_of_lt_of_le h' h)⟩)
  | ts => .error (noPrimary eof ts)
termination_by 16 * ts.length
decreasing_by
  all_goals simp only [List.length_cons, precedence_length] at *; omega

/-- Reads the items of a list up to its closing bracket; a comma may stand after the last. -/
def readItems (eof : Position) (ts : List Token) : Except ExprError (List Expr × NotLonger ts) := do
  if ts.isEmpty || atSymbol .rightBracket ts then return ([], ⟨ts, Nat.le_refl _⟩)
  else
    let (item, ⟨rest, h⟩) ← readBinary eof precedence ts
    match rest, h with
    | ⟨.symbol .comma, _⟩ :: more, h => do
      let (items, ⟨rest', h'⟩) ← readItems eof more
      return (item :: items, ⟨rest', by simp only [List.length_cons] at *; omega⟩)
    | rest, h => return ([item], ⟨rest, by omega⟩)
termination_by 16 * ts.length + 15
decreasing_by
  all_goals simp only [List.length_cons, precedence_length] at *; omega

/-- Reads the entries of a map up to its closing brace; a comma may stand after the last. A bare
name is a key by itself.
-/
def readEntries (eof : Position) (ts : List Token)
    : Except ExprError (List (Expr × Expr) × NotLonger ts) := do
  if ts.isEmpty || atSymbol .rightBrace ts then return ([], ⟨ts, Nat.le_refl _⟩)
  else
    let (key, ⟨afterKey, hk⟩) ← readKey eof ts
    match afterKey, hk with
    | ⟨.symbol .colon, _⟩ :: more, hk => do
      let (value, ⟨rest, h⟩) ← readBinary eof precedence more
      match rest, h with
      | ⟨.symbol .comma, _⟩ :: more', h => do
        let (entries, ⟨rest', h'⟩) ← readEntries eof more'
        return ((key, value) :: entries, ⟨rest', by simp only [List.length_cons] at *; omega⟩)
      | rest, h =>
        return ([(key, value)], ⟨rest, by simp only [List.length_cons] at *; omega⟩)
    | rest, _ => .error ⟨.missingColon, place eof rest⟩
termination_by 16 * ts.length + 15
decreasing_by
  · omega
  all_goals simp only [List.length_cons, precedence_length] at *; omega

def readKey (eof : Position) (ts : List Token) : Except ExprError (Expr × Shorter ts) :=
  match ts with
  | ⟨.ident name, pos⟩ :: more =>
    if (keyword? name).isNone then return (.const pos (.text name), ⟨more, Nat.lt_succ_self _⟩)
    else readBinary eof precedence (⟨.ident name, pos⟩ :: more)
  | ts => readBinary eof precedence ts
termination_by 16 * ts.length + 14
decreasing_by
  all_goals simp only [List.length_cons, precedence_length] at *; omega

end

def finish : List Token → Except ExprError Unit
  | [] => .ok ()
  | t :: _ =>
    match t.lexeme with
    | .symbol s =>
      if s.isCloser then .error ⟨.strayCloser s.text, t.pos⟩
      else .error ⟨.unexpectedToken s.text, t.pos⟩
    | l => .error ⟨.unexpectedToken l.text, t.pos⟩

/-- Reads a whole text as an expression. -/
def descend (src : List Char) (start : Position) : Except ExprError Expr := do
  let tokens ← Token.scan start src
  let (expr, rest) ← readBinary (start.right src.length) precedence tokens
  finish rest.val
  return expr

/-- Whether tokens may start an expression that is read once: an element id or a list. -/
def startsReference : List Token → Bool
  | ⟨.symbol .leftBracket, _⟩ :: _ => true
  | ⟨.ident name, _⟩ :: _ => (keyword? name).isNone
  | _ => false

/-- Reads a whole text as an expression that is read once. -/
def descendOnce (src : List Char) (start : Position) : Except ExprError Expr := do
  let tokens ← Token.scan start src
  let eof := start.right src.length
  if startsReference tokens then
    let (expr, rest) ← readPostfix eof tokens
    finish rest.val
    return expr
  else .error ⟨.expectedElementId, place eof tokens⟩

end Fxml.Expr
