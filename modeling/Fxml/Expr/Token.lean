import Fxml.Expr.Error
import Fxml.Text.CharClass

/-! Tokens of the expression language, and reading them off a text. -/

open List Fxml.Text

namespace Fxml

inductive Symbol where
  | and | or | eq | ne | le | ge | lt | gt | plus | minus | star | slash | percent | bang
  | leftParen | rightParen | leftBracket | rightBracket | leftBrace | rightBrace
  | comma | dot | colon
deriving DecidableEq

namespace Symbol

def text : Symbol → String
  | and => "&&"
  | or => "||"
  | eq => "=="
  | ne => "!="
  | le => "<="
  | ge => ">="
  | lt => "<"
  | gt => ">"
  | plus => "+"
  | minus => "-"
  | star => "*"
  | slash => "/"
  | percent => "%"
  | bang => "!"
  | leftParen => "("
  | rightParen => ")"
  | leftBracket => "["
  | rightBracket => "]"
  | leftBrace => "\x7b"
  | rightBrace => "\x7d"
  | comma => ","
  | dot => "."
  | colon => ":"

def isCloser : Symbol → Bool
  | rightParen | rightBracket | rightBrace => true
  | _ => false

/-- The symbol at the front of a text, the longer one first, and the text after it. -/
def scan? : List Char → Option (Symbol × List Char)
  | '&' :: '&' :: rest => some (and, rest)
  | '|' :: '|' :: rest => some (or, rest)
  | '=' :: '=' :: rest => some (eq, rest)
  | '!' :: '=' :: rest => some (ne, rest)
  | '<' :: '=' :: rest => some (le, rest)
  | '>' :: '=' :: rest => some (ge, rest)
  | '<' :: rest => some (lt, rest)
  | '>' :: rest => some (gt, rest)
  | '+' :: rest => some (plus, rest)
  | '-' :: rest => some (minus, rest)
  | '*' :: rest => some (star, rest)
  | '/' :: rest => some (slash, rest)
  | '%' :: rest => some (percent, rest)
  | '!' :: rest => some (bang, rest)
  | '(' :: rest => some (leftParen, rest)
  | ')' :: rest => some (rightParen, rest)
  | '[' :: rest => some (leftBracket, rest)
  | ']' :: rest => some (rightBracket, rest)
  | '\x7b' :: rest => some (leftBrace, rest)
  | '\x7d' :: rest => some (rightBrace, rest)
  | ',' :: rest => some (comma, rest)
  | '.' :: rest => some (dot, rest)
  | ':' :: rest => some (colon, rest)
  | _ => none

end Symbol

inductive Lexeme where
  | int (digits : String)
  | float (text : String)
  /-- A string, with its escapes decoded. -/
  | string (value : String)
  | halves (value : Halves)
  | ident (name : String)
  | symbol (s : Symbol)
deriving DecidableEq

/-- The string of the given code points. -/
def Lexeme.ofPoints (points : List Point) : Lexeme :=
  if h : points.any (·.char?.isNone) = true then .halves ⟨points, h⟩
  else .string (String.ofList (points.filterMap Point.char?))

def Lexeme.text : Lexeme → String
  | .int s | .float s | .string s | .ident s => s
  | .halves h => h.shown
  | .symbol s => s.text

structure Token where
  lexeme : Lexeme
  pos : Position
deriving DecidableEq

namespace Token

structure Flaw where
  cause : ExprCause
  offset : Nat
deriving DecidableEq

def isSpace (c : Char) : Bool := c == ' ' || c == '\t' || c == '\r' || c == '\n'

/-- The fraction at the front of a text: a point and at least one digit. -/
def scanFraction : List Char → List Char × List Char
  | '.' :: d :: rest =>
    if isAsciiDigit d then
      ('.' :: d :: rest.takeWhile isAsciiDigit, rest.dropWhile isAsciiDigit)
    else ([], '.' :: d :: rest)
  | cs => ([], cs)

/-- The exponent at the front of a text: its letter, a sign if one is there, and at least one
digit.
-/
def scanExponent (cs : List Char) : List Char × List Char :=
  match cs with
  | e :: rest =>
    if e == 'e' || e == 'E' then
      let sign := rest.takeWhile fun c => c == '+' || c == '-'
      let digits := rest.drop sign.length
      if sign.length ≤ 1 && digits.head?.any isAsciiDigit then
        (e :: sign ++ digits.takeWhile isAsciiDigit, digits.dropWhile isAsciiDigit)
      else ([], cs)
    else ([], cs)
  | [] => ([], [])

/-- The number at the front of a text that starts with a digit. A letter right after it is a
fault.
-/
def scanNumber (cs : List Char) : Except Flaw (Lexeme × List Char) :=
  let whole := cs.takeWhile isAsciiDigit
  let (fraction, rest) := scanFraction (cs.dropWhile isAsciiDigit)
  let (exponent, rest) := scanExponent rest
  let text := whole ++ fraction ++ exponent
  match rest.head? with
  | some c =>
    if isAsciiAlpha c then .error ⟨.invalidNumber (String.ofList (text ++ [c])), 0⟩
    else .ok (number fraction exponent text, rest)
  | none => .ok (number fraction exponent text, rest)
where
  number (fraction exponent text : List Char) : Lexeme :=
    if fraction.isEmpty && exponent.isEmpty then .int (String.ofList text)
    else .float (String.ofList text)

def escape? : Char → Option Char
  | 'n' => some '\n'
  | 'r' => some '\r'
  | 't' => some '\t'
  | '\\' => some '\\'
  | '"' => some '"'
  | '\'' => some '\''
  | _ => none

def prepend (p : Point) (scanned : List Point × List Char) : List Point × List Char :=
  (p :: scanned.1, scanned.2)

/-- The code points of a string up to its closing quote, and the text after the quote. `offset` is
the distance from the opening quote.
-/
def scanString (quote : Char) (offset : Nat) : List Char → Except Flaw (List Point × List Char)
  | [] => .error ⟨.unterminatedString, 0⟩
  | '\\' :: [] => .error ⟨.unterminatedString, 0⟩
  | '\\' :: 'u' :: a :: b :: c :: d :: rest =>
    if [a, b, c, d].all isAsciiHex then
      (scanString quote (offset + 6) rest).map (prepend (.ofNat (hexNumber [a, b, c, d])))
    else .error ⟨.invalidUnicodeEscape, offset⟩
  | '\\' :: 'u' :: _ => .error ⟨.invalidUnicodeEscape, offset⟩
  | '\\' :: e :: rest =>
    match escape? e with
    | some c => (scanString quote (offset + 2) rest).map (prepend (.char c))
    | none => .error ⟨.invalidEscape e, offset⟩
  | c :: rest =>
    if c == quote then .ok ([], rest)
    else (scanString quote (offset + 1) rest).map (prepend (.char c))

/-- The lexeme at the front of a text that starts with no blank, and the text after it. -/
def scanLexeme : List Char → Except Flaw (Lexeme × List Char)
  | [] => .error ⟨.unexpectedEnd, 0⟩
  | c :: rest =>
    if isAsciiDigit c then scanNumber (c :: rest)
    else if isAsciiAlpha c then
      .ok (.ident (String.ofList (c :: rest.takeWhile isAsciiAlnum)), rest.dropWhile isAsciiAlnum)
    else if c == '"' || c == '\'' then
      (scanString c 1 rest).map fun (points, rest) => (.ofPoints points, rest)
    else
      match Symbol.scan? (c :: rest) with
      | some (s, rest) => .ok (.symbol s, rest)
      | none => .error ⟨.unexpectedCharacter c, 0⟩

theorem length_dropWhile_le (p : Char → Bool) (cs : List Char)
    : (cs.dropWhile p).length ≤ cs.length :=
  (dropWhile_suffix p).length_le

theorem scanFraction_length (cs : List Char) : (scanFraction cs).2.length ≤ cs.length := by
  fun_cases scanFraction cs with
  | case1 d rest h =>
      have := length_dropWhile_le isAsciiDigit rest
      simp only [length_cons]
      omega
  | case2 => simp
  | case3 => simp

theorem scanExponent_length (cs : List Char) : (scanExponent cs).2.length ≤ cs.length := by
  unfold scanExponent
  split
  · rename_i e rest
    split
    · dsimp only
      split
      · refine Nat.le_trans (length_dropWhile_le _ _) ?_
        simp only [length_drop, length_cons]
        omega
      · simp
    · simp
  · simp

theorem scanNumber_length {c : Char} {cs rest : List Char} {l : Lexeme}
    (hc : isAsciiDigit c = true) (h : scanNumber (c :: cs) = .ok (l, rest))
    : rest.length < (c :: cs).length := by
  have hd : ((c :: cs).dropWhile isAsciiDigit).length ≤ cs.length := by
    simpa [dropWhile_cons, hc] using length_dropWhile_le isAsciiDigit cs
  have hf := scanFraction_length ((c :: cs).dropWhile isAsciiDigit)
  have he := scanExponent_length (scanFraction ((c :: cs).dropWhile isAsciiDigit)).2
  have hr : rest = (scanExponent (scanFraction ((c :: cs).dropWhile isAsciiDigit)).2).2 := by
    unfold scanNumber at h
    dsimp only at h
    split at h
    · split at h
      · cases h
      · cases h; rfl
    · cases h; rfl
  subst hr
  simp only [length_cons]
  omega

theorem length_of_map_prepend {p : Point} {n : Nat}
    {scanned : Except Flaw (List Point × List Char)} {value : List Point} {rest : List Char}
    (hs : ∀ value rest, scanned = .ok (value, rest) → rest.length < n)
    (h : scanned.map (prepend p) = .ok (value, rest))
    : rest.length < n := by
  cases scanned with
  | error => simp [Except.map] at h
  | ok r =>
      simp only [Except.map, prepend, Except.ok.injEq, Prod.mk.injEq] at h
      exact h.2 ▸ hs r.1 r.2 rfl

theorem scanString_length {quote : Char} {offset : Nat} {cs rest : List Char} {value : List Point}
    (h : scanString quote offset cs = .ok (value, rest))
    : rest.length < cs.length := by
  fun_induction scanString quote offset cs generalizing value rest with
  | case1 | case2 | case4 | case5 | case7 => simp at h
  | case3 offset a b c d tail hx ih =>
      have := length_of_map_prepend (fun _ _ => ih) h
      simp only [length_cons]
      omega
  | case6 =>
      rename_i ih
      have := length_of_map_prepend (fun _ _ => ih) h
      simp only [length_cons]
      omega
  | case8 => simp_all
  | case9 =>
      rename_i ih
      have := length_of_map_prepend (fun _ _ => ih) h
      simp only [length_cons]
      omega

theorem Symbol.scan?_length {cs rest : List Char} {s : Symbol}
    (h : Symbol.scan? cs = some (s, rest))
    : rest.length < cs.length := by
  unfold Symbol.scan? at h
  split at h <;> cases h <;> simp only [length_cons] <;> omega

theorem scanLexeme_length {cs rest : List Char} {l : Lexeme}
    (h : scanLexeme cs = .ok (l, rest))
    : rest.length < cs.length := by
  unfold scanLexeme at h
  split at h
  · cases h
  · rename_i c tail
    split at h
    · exact scanNumber_length ‹_› h
    · split at h
      · cases h
        exact Nat.lt_succ_of_le (length_dropWhile_le _ _)
      · split at h
        · cases hs : scanString c 1 tail with
          | error => simp [hs, Except.map] at h
          | ok r =>
              simp only [hs, Except.map, Except.ok.injEq, Prod.mk.injEq] at h
              have := scanString_length hs
              simp only [length_cons, ← h.2]
              omega
        · split at h
          · cases h
            exact Symbol.scan?_length ‹_›
          · cases h

/-- Reads the tokens of a text that starts at `pos`. Blanks between tokens are passed over, and a
line break is a blank like any other, so all tokens stand on the line of `pos`.
-/
def scan (pos : Position) (cs : List Char) : Except ExprError (List Token) :=
  match cs with
  | [] => .ok []
  | c :: rest =>
    if isSpace c then scan (pos.right 1) rest
    else
      match h : scanLexeme (c :: rest) with
      | .error flaw => .error ⟨flaw.cause, pos.right flaw.offset⟩
      | .ok (lexeme, after) =>
        have := scanLexeme_length h
        (scan (pos.right ((c :: rest).length - after.length)) after).map
          fun tokens => ⟨lexeme, pos⟩ :: tokens
termination_by cs.length
decreasing_by
  · exact Nat.lt_succ_self _
  · assumption

end Token

end Fxml
