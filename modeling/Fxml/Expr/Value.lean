import Fxml.Expr.Reader
import Fxml.Text.Blank

/-! Reading the value of an attribute, of element text and of an event handler. -/

namespace Fxml

namespace Expr

/-- The tokens of a text and the mark behind them. -/
def marks (start : Position) (src : List Char) : Except ExprError (List Mark) := do
  let tokens ← Token.scan start src
  return tokens.map .ofToken ++ [⟨none, start.right src.length⟩]

/-- Reads all of a text. No reader calls others more often than sixteen times for each token. -/
def readAll (src : List Char) (start : Position) (reader : Nat → Parser Expr)
    : Except (Refusal ExprError) Expr :=
  match marks start src with
  | .error e => .error (.fault e)
  | .ok marks =>
    let whole : Parser Expr := do
      let e ← reader (16 * marks.length)
      Parser.finish
      return e
    whole.run' { marks }

def read (src : List Char) (start : Position) : Except (Refusal ExprError) Expr :=
  readAll src start fun depth => Parser.binary depth precedence

/-- Whether a mark may start an expression that is read once: an element id or a list. -/
def Mark.startsReference (m : Mark) : Bool :=
  match m.lexeme with
  | some (.symbol .leftBracket) => true
  | some (.ident name) => (keyword? name).isNone
  | _ => false

/-- Reads a whole text as an expression that is read once: a chain from an element id or from a
list, without operators outside brackets.
-/
def readReference (src : List Char) (start : Position) : Except (Refusal ExprError) Expr :=
  readAll src start fun depth => do
    let m ← Parser.current
    if !m.startsReference then Parser.fault ⟨.expectedElementId, m.pos⟩
    Parser.postfixed depth

end Expr

namespace Value

def refuse {α : Type} (cause : ExprCause) (pos : Position) : Except (Refusal ExprError) α :=
  .error (.fault ⟨cause, pos⟩)

/-- Reads the inside of a binding: what stands between the opening and the closing brace. -/
def readBinding (raw : List Char) (pos : Position) : Except (Refusal ExprError) Value := do
  if raw.getLast? ≠ some '\x7d' || raw.length < 3 then refuse .unterminatedBinding pos
  else
    let inner := (raw.drop 2).dropLast
    if inner.all Text.isBlank then refuse .emptyBinding pos
    else return .binding pos (← Expr.read inner (pos.right 2))

/-- Reads a value. The first characters tell its form: a backslash escapes literal text, `@` is a
location, `%` a resource key, a dollar sign an expression, bound when a brace follows.
-/
def read (raw : List Char) (pos : Position) (allowBinding : Bool)
    : Except (Refusal ExprError) Value :=
  match raw with
  | '\\' :: rest => .ok (.text pos (String.ofList rest))
  | '@' :: rest =>
    if rest.isEmpty then refuse .emptyLocation pos
    else .ok (.location pos (String.ofList rest))
  | '%' :: rest =>
    if rest.isEmpty then refuse .emptyResourceKey pos
    else .ok (.resource pos (String.ofList rest))
  | '$' :: '\x7b' :: _ =>
    if allowBinding then readBinding raw pos else refuse .bindingNotPermitted pos
  | ['$'] => refuse .emptyReference pos
  | '$' :: c :: rest =>
    if Text.isAsciiAlpha c || c == '[' then
      (Expr.readReference (c :: rest) (pos.right 1)).map .once
    else refuse (.unknownSigil c) pos
  | raw => .ok (.text pos (String.ofList raw))

/-- Reads the value of an event handler; a blank one is no handler. -/
def readHandler (raw : List Char) (pos : Position)
    : Except (Refusal ExprError) (Option Value) :=
  if raw.all Text.isBlank then .ok none
  else
    match raw with
    | '#' :: name =>
      if Text.isName name then .ok (some (.method pos (String.ofList name)))
      else refuse (.invalidMethod (String.ofList raw)) pos
    | '$' :: _ => (read raw pos false).map some
    | _ => refuse .scriptHandler pos

end Value

end Fxml
