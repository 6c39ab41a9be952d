import Mathlib
import Fxml.Code.Basic
import Fxml.Expr.Token
import Fxml.Naming.Style

/-! How expressions of the generated language are read: its lexical rules, and a reading word by
word that keeps open brackets and pending operators in frames.
-/

open List Fxml.Text

namespace Fxml.Code

/-! ### Words -/

/-- Operators and delimiters. -/
inductive Mark where
  | plus | minus | star | slash | percent
  | eq | ne | lt | le | gt | ge
  | leftParen | rightParen | leftBracket | rightBracket | leftBrace | rightBrace
  | comma | colon | dot
deriving DecidableEq

/-- A token of the generated language. -/
inductive Word where
  | name (text : String)
  | keyword (text : String)
  | int (n : Nat)
  | real (x : Float)
  | string (s : String)
  | mark (m : Mark)

/-- Operators of two characters. -/
def pairMark? : Char → Char → Option Mark
  | '=', '=' => some .eq
  | '!', '=' => some .ne
  | '<', '=' => some .le
  | '>', '=' => some .ge
  | _, _ => none

/-- Operators and delimiters of one character. -/
def singleMark? : Char → Option Mark
  | '<' => some .lt
  | '>' => some .gt
  | '+' => some .plus
  | '-' => some .minus
  | '*' => some .star
  | '/' => some .slash
  | '%' => some .percent
  | '(' => some .leftParen
  | ')' => some .rightParen
  | '[' => some .leftBracket
  | ']' => some .rightBracket
  | '\x7b' => some .leftBrace
  | '\x7d' => some .rightBrace
  | ',' => some .comma
  | ':' => some .colon
  | '.' => some .dot
  | _ => none

/-- Two characters that start an operator which is not used here. -/
def startsOther (c d : Char) : Bool :=
  [('<', '<'), ('>', '>'), ('*', '*'), ('/', '/'), ('-', '>'), ('.', '.'), ('+', '='), ('-', '='),
    ('*', '='), ('/', '='), ('%', '='), (':', '=')].contains (c, d)

/-- The operator or delimiter at the front of a text. The longest one counts. -/
def mark? : List Char → Option (Mark × List Char)
  | [] => none
  | c :: rest =>
    match rest.head?.bind (pairMark? c) with
    | some m => some (m, rest.drop 1)
    | none =>
      if rest.head?.any (startsOther c) then none else (singleMark? c).map fun m => (m, rest)

def exponentNumber : List Char → Int
  | [] => 0
  | _ :: '-' :: digits => -(digitsNumber digits : Int)
  | _ :: '+' :: digits => digitsNumber digits
  | _ :: digits => digitsNumber digits

/-- The point at the front of a text and the digits after it, of which there may be none. -/
def point : List Char → Option (List Char) × List Char
  | '.' :: rest => (some (rest.takeWhile isAsciiDigit), rest.dropWhile isAsciiDigit)
  | rest => (none, rest)

/-- The number at the front of a text. A point or an exponent makes it a floating-point one. A letter
right after it is refused, and so is a zero before other digits of a whole number.
-/
def number? (cs : List Char) : Option (Word × List Char) :=
  let whole := cs.takeWhile isAsciiDigit
  let (places, rest) := point (cs.dropWhile isAsciiDigit)
  let (exponent, rest) := Token.scanExponent rest
  if rest.head?.any isAsciiAlnum then none
  else if places.isSome || !exponent.isEmpty then
    let places := places.getD []
    some (.real (Number.ofDecimal false (digitsNumber (whole ++ places))
      (exponentNumber exponent - places.length)), rest)
  else if whole.head? = some '0' && whole.length ≠ 1 then none
  else some (.int (digitsNumber whole), rest)

/-- The character that a one-letter escape stands for. -/
def escapeOf? : Char → Option Char
  | '\\' => some '\\'
  | '"' => some '"'
  | '\'' => some '\''
  | 'a' => some '\x07'
  | 'b' => some '\x08'
  | 'f' => some '\x0c'
  | 'n' => some '\n'
  | 'r' => some '\r'
  | 't' => some '\t'
  | 'v' => some '\x0b'
  | _ => none

/-- Puts a character before what was read. -/
def prepend (c : Char) (r : List Char × List Char) : List Char × List Char := (c :: r.1, r.2)

/-- The characters of a text constant up to its closing quote, which stands on the same line, and the
text after the quote.
-/
def quoted? : List Char → Option (List Char × List Char)
  | [] => none
  | '"' :: rest => some ([], rest)
  | '\n' :: _ | '\r' :: _ => none
  | '\\' :: 'x' :: a :: b :: rest =>
    if Text.isAsciiHex a && Text.isAsciiHex b then
      (quoted? rest).map (prepend (Char.ofNat (Text.hexNumber [a, b])))
    else none
  | '\\' :: e :: rest => (escapeOf? e).bind fun c => (quoted? rest).map (prepend c)
  | c :: rest => (quoted? rest).map (prepend c)

/-- A keyword or another name. -/
def Word.ofName (text : String) : Word :=
  if Naming.isKeyword text then .keyword text else .name text

/-- The word at the front of a text that starts with no blank, and the text after it. A constant in
three quotes is refused.
-/
def word? : List Char → Option (Word × List Char)
  | [] => none
  | c :: rest =>
    if Text.isAsciiDigit c || c = '.' && rest.head?.any Text.isAsciiDigit then number? (c :: rest)
    else if Text.isAsciiAlpha c then
      some (.ofName (String.ofList (c :: rest.takeWhile Text.isAsciiAlnum)),
        rest.dropWhile Text.isAsciiAlnum)
    else if c = '"' then
      if ['"', '"'].isPrefixOf rest then none
      else (quoted? rest).map fun (value, rest) => (.string (String.ofList value), rest)
    else (mark? (c :: rest)).map fun (m, rest) => (.mark m, rest)

/-- The words of a text. -/
def words? (cs : List Char) : Option (List Word) :=
  match cs with
  | [] => some []
  | c :: rest =>
    if c = ' ' then words? rest
    else
      match word? (c :: rest) with
      | none => none
      | some (w, after) =>
        if after.length < (c :: rest).length then (words? after).map (w :: ·) else none
termination_by cs.length
decreasing_by
  · exact Nat.lt_succ_self _
  · assumption

/-! ### Phrases -/

/-- An expression of the generated language. -/
inductive Phrase where
  | constant (value : Scalar)
  /-- Text with halves of characters in it. No text is read as such. -/
  | halves (value : Text.Halves)
  | name (text : String)
  | attr (target : Phrase) (name : String)
  | call (target : Phrase) (args : List Phrase)
  | index (target key : Phrase)
  | list (items : List Phrase)
  | map (entries : List (Phrase × Phrase))
  | unary (op : UnaryOp) (operand : Phrase)
  | binary (op : BinaryOp) (left right : Phrase)

/-- A phrase behind an operator. A minus goes into a number. -/
def Phrase.after (op : UnaryOp) (p : Phrase) : Phrase :=
  match op, p with
  | .neg, constant value =>
    match value.negate? with
    | some opposite => constant opposite
    | none => unary .neg p
  | _, _ => unary op p

/-- How tight a prefix operator binds: a minus tighter than all others, `not` looser than comparisons. -/
def prefixLevel : UnaryOp → Nat
  | .neg => 6
  | .not => 2

/-- How tight an operator between operands binds. All comparisons are alike. -/
def infixLevel : BinaryOp → Nat
  | .or => 0
  | .and => 1
  | .eq | .ne | .lt | .le | .gt | .ge => 3
  | .add | .sub => 4
  | .mul | .div | .mod => 5

/-- What was begun and waits for the phrase that is read. -/
inductive Frame where
  | unary (op : UnaryOp)
  | binary (op : BinaryOp) (left : Phrase)
  | paren
  | call (target : Phrase) (args : List Phrase)
  | index (target : Phrase)
  | list (items : List Phrase)
  /-- A map that waits for a key. -/
  | key (entries : List (Phrase × Phrase))
  /-- A map that waits for the value of a key. -/
  | value (entries : List (Phrase × Phrase)) (key : Phrase)

/-- What comes next. -/
inductive Focus where
  /-- An operand, or the end of a bracket if it may close here. -/
  | operand (mayClose : Bool)
  /-- The name of an attribute. -/
  | dotted (target : Phrase)
  /-- A suffix or an operator after an operand, or the end of the whole. -/
  | phrase (p : Phrase)

/-- A reading under way, the innermost frame first. -/
structure Reading where
  frames : List Frame
  focus : Focus

namespace Reading

/-- Ends the operators that bind at least as tight as a level. -/
def reduce (level : Nat) : Phrase → List Frame → Phrase × List Frame
  | p, .unary op :: frames =>
    if level ≤ prefixLevel op then reduce level (p.after op) frames else (p, .unary op :: frames)
  | p, .binary op left :: frames =>
    if level ≤ infixLevel op then reduce level (.binary op left p) frames
    else (p, .binary op left :: frames)
  | p, frames => (p, frames)

/-- Whether `not` may stand here: behind no operator that binds tighter. -/
def admitsNot : List Frame → Bool
  | .unary .neg :: _ => false
  | .binary op _ :: _ => infixLevel op < 3
  | _ => true

/-- Whether a comparison waits for its right operand. -/
def comparing : List Frame → Bool
  | .binary op _ :: _ => infixLevel op = 3
  | _ => false

/-- An operator after an operand. Operators of one level associate to the left; a comparison that goes
on with another is refused.
-/
def join (op : BinaryOp) (p : Phrase) (frames : List Frame) : Option Reading :=
  if infixLevel op = 3 then
    let (left, frames) := reduce 4 p frames
    if comparing frames then none else some ⟨.binary op left :: frames, .operand false⟩
  else
    let (left, frames) := reduce (infixLevel op) p frames
    some ⟨.binary op left :: frames, .operand false⟩

/-- The end of a bracket with nothing in it, or after a comma. -/
def closeEmpty : Mark → List Frame → Option Reading
  | .rightParen, .call target args :: frames => some ⟨frames, .phrase (.call target args)⟩
  | .rightBracket, .list items :: frames => some ⟨frames, .phrase (.list items)⟩
  | .rightBrace, .key entries :: frames => some ⟨frames, .phrase (.map entries)⟩
  | _, _ => none

/-- A delimiter after a phrase whose operators have ended. -/
def close : Mark → Phrase → List Frame → Option Reading
  | .rightParen, p, .paren :: frames => some ⟨frames, .phrase p⟩
  | .rightParen, p, .call target args :: frames =>
    some ⟨frames, .phrase (.call target (args ++ [p]))⟩
  | .rightBracket, p, .index target :: frames => some ⟨frames, .phrase (.index target p)⟩
  | .rightBracket, p, .list items :: frames => some ⟨frames, .phrase (.list (items ++ [p]))⟩
  | .rightBrace, p, .value entries key :: frames =>
    some ⟨frames, .phrase (.map (entries ++ [(key, p)]))⟩
  | .comma, p, .call target args :: frames =>
    some ⟨.call target (args ++ [p]) :: frames, .operand true⟩
  | .comma, p, .list items :: frames => some ⟨.list (items ++ [p]) :: frames, .operand true⟩
  | .comma, p, .value entries key :: frames =>
    some ⟨.key (entries ++ [(key, p)]) :: frames, .operand true⟩
  | .colon, p, .key entries :: frames => some ⟨.value entries p :: frames, .operand false⟩
  | _, _, _ => none

/-- The constant that a keyword stands for. -/
def constant? : String → Option Scalar
  | "None" => some .null
  | "True" => some (.bool true)
  | "False" => some (.bool false)
  | _ => none

/-- The operator between operands that a word stands for. -/
def operator? : Word → Option BinaryOp
  | .keyword "or" => some .or
  | .keyword "and" => some .and
  | .mark .eq => some .eq
  | .mark .ne => some .ne
  | .mark .lt => some .lt
  | .mark .le => some .le
  | .mark .gt => some .gt
  | .mark .ge => some .ge
  | .mark .plus => some .add
  | .mark .minus => some .sub
  | .mark .star => some .mul
  | .mark .slash => some .div
  | .mark .percent => some .mod
  | _ => none

/-- A word where an operand is due. -/
def begin (mayClose : Bool) (frames : List Frame) : Word → Option Reading
  | .name text => some ⟨frames, .phrase (.name text)⟩
  | .int n => some ⟨frames, .phrase (.constant (.int n))⟩
  | .real x => some ⟨frames, .phrase (.constant (.float x))⟩
  | .string s => some ⟨frames, .phrase (.constant (.text s))⟩
  | .keyword text =>
    if text = "not" then if admitsNot frames then some ⟨.unary .not :: frames, .operand false⟩ else none
    else (constant? text).map fun value => ⟨frames, .phrase (.constant value)⟩
  | .mark .minus => some ⟨.unary .neg :: frames, .operand false⟩
  | .mark .leftParen => some ⟨.paren :: frames, .operand false⟩
  | .mark .leftBracket => some ⟨.list [] :: frames, .operand true⟩
  | .mark .leftBrace => some ⟨.key [] :: frames, .operand true⟩
  | .mark m => if mayClose then closeEmpty m frames else none

/-- A word after an operand. -/
def proceed (p : Phrase) (frames : List Frame) : Word → Option Reading
  | .mark .dot => some ⟨frames, .dotted p⟩
  | .mark .leftParen => some ⟨.call p [] :: frames, .operand true⟩
  | .mark .leftBracket => some ⟨.index p :: frames, .operand false⟩
  | w =>
    match operator? w, w with
    | some op, _ => join op p frames
    | none, .mark m => close m (reduce 0 p frames).1 (reduce 0 p frames).2
    | none, _ => none

def step (r : Reading) (w : Word) : Option Reading :=
  match r.focus, w with
  | .operand mayClose, w => begin mayClose r.frames w
  | .dotted target, .name name => some ⟨r.frames, .phrase (.attr target name)⟩
  | .dotted _, _ => none
  | .phrase p, w => proceed p r.frames w

/-- The phrase that was read if nothing is left open. -/
def finish (r : Reading) : Option Phrase :=
  match r.focus with
  | .phrase p => if (reduce 0 p r.frames).2.isEmpty then some (reduce 0 p r.frames).1 else none
  | _ => none

end Reading

def phraseOf? (ws : List Word) : Option Phrase :=
  (ws.foldlM Reading.step ⟨[], .operand false⟩).bind Reading.finish

/-- The phrase that a text spells. -/
def phrase? (cs : List Char) : Option Phrase := (words? cs).bind phraseOf?

/-! ### Dots and names -/

/-- Counts the dots and names among words. -/
@[simp] def Word.weight : Word → Nat
  | .name _ | .mark .dot => 1
  | _ => 0

namespace Phrase

mutual

/-- Counts the dots and names of a phrase. -/
@[simp] def weight : Phrase → Nat
  | constant _ | halves _ => 0
  | name _ => 1
  | attr target _ => weight target + 2
  | call target args => weight target + weights args
  | index target key => weight target + weight key
  | list items => weights items
  | map entries => entryWeights entries
  | unary _ operand => weight operand
  | binary _ left right => weight left + weight right

@[simp] def weights : List Phrase → Nat
  | [] => 0
  | p :: rest => weight p + weights rest

@[simp] def entryWeights : List (Phrase × Phrase) → Nat
  | [] => 0
  | (key, value) :: rest => weight key + weight value + entryWeights rest

end

theorem weights_append (ps qs : List Phrase) : weights (ps ++ qs) = weights ps + weights qs := by
  induction ps with
  | nil => simp [weights]
  | cons p ps ih =>
    simp only [cons_append, weights, ih]
    omega

theorem entryWeights_append (es fs : List (Phrase × Phrase))
    : entryWeights (es ++ fs) = entryWeights es + entryWeights fs := by
  induction es with
  | nil => simp [entryWeights]
  | cons e es ih =>
    simp only [cons_append, entryWeights, ih]
    omega

theorem weight_after (op : UnaryOp) (p : Phrase) : (p.after op).weight = p.weight := by
  unfold after
  split
  · split <;> rfl
  · rfl

end Phrase

namespace Reading

open Phrase

variable {p : Phrase} {frames : List Frame} {r r' : Reading} {w : Word} {m : Mark}

@[simp] def frameWeight : Frame → Nat
  | .unary _ | .paren => 0
  | .binary _ left => left.weight
  | .call target args => target.weight + weights args
  | .index target => target.weight
  | .list items => weights items
  | .key entries => entryWeights entries
  | .value entries key => entryWeights entries + key.weight

@[simp] def focusWeight : Focus → Nat
  | .operand _ => 0
  | .dotted target => target.weight + 1
  | .phrase p => p.weight

/-- Counts the dots and names that were read. -/
def weight (r : Reading) : Nat := (r.frames.map frameWeight).sum + focusWeight r.focus

theorem weight_reduce (level : Nat) (p : Phrase) (frames : List Frame)
    : (reduce level p frames).1.weight + ((reduce level p frames).2.map frameWeight).sum
      = p.weight + (frames.map frameWeight).sum := by
  fun_induction reduce level p frames with
  | case1 p op frames tight ih =>
    rw [ih, weight_after]
    simp [frameWeight]
  | case2 => rfl
  | case3 p op left frames tight ih =>
    rw [ih]
    simp only [Phrase.weight, map_cons, sum_cons, frameWeight]
    omega
  | case4 => rfl
  | case5 => rfl

theorem weight_join {op : BinaryOp} (h : join op p frames = some r)
    : r.weight = p.weight + (frames.map frameWeight).sum := by
  have after (level : Nat)
      : weight ⟨.binary op (reduce level p frames).1 :: (reduce level p frames).2, .operand false⟩
        = p.weight + (frames.map frameWeight).sum := by
    rw [← weight_reduce level p frames]
    simp [weight, frameWeight, focusWeight]
  unfold join at h
  dsimp only at h
  split at h
  · split at h
    · cases h
    · cases h
      exact after 4
  · cases h
    exact after _

theorem weight_closeEmpty (h : closeEmpty m frames = some r)
    : r.weight = (frames.map frameWeight).sum := by
  unfold closeEmpty at h
  split at h <;> cases h
  all_goals
    simp only [weight, focusWeight, map_cons, sum_cons, frameWeight, Phrase.weight]
    omega

theorem weight_close (h : close m p frames = some r)
    : r.weight = p.weight + (frames.map frameWeight).sum := by
  unfold close at h
  split at h <;> cases h
  all_goals
    simp only [weight, focusWeight, map_cons, sum_cons, frameWeight, Phrase.weight,
      weights_append, entryWeights_append, weights, entryWeights]
    omega

theorem weight_begin {mayClose : Bool} (h : begin mayClose frames w = some r)
    : r.weight = (frames.map frameWeight).sum + w.weight := by
  unfold begin at h
  split at h
  case h_5 text =>
    split at h
    · split at h
      · cases h
        simp [weight, frameWeight, focusWeight, Word.weight]
      · cases h
    · obtain ⟨value, _, rfl⟩ := Option.map_eq_some_iff.mp h
      simp [weight, focusWeight, Phrase.weight, Word.weight]
  case h_10 m _ _ _ _ =>
    split at h
    · rw [weight_closeEmpty h]
      unfold closeEmpty at h
      split at h <;> first | rfl | cases h
    · cases h
  all_goals
    cases h
    simp [weight, frameWeight, focusWeight, Phrase.weight, Word.weight, weights, entryWeights]

theorem weight_proceed (h : proceed p frames w = some r)
    : r.weight = p.weight + (frames.map frameWeight).sum + w.weight := by
  unfold proceed at h
  split at h
  · cases h
    simp only [weight, focusWeight, Word.weight]
    omega
  · cases h
    simp [weight, frameWeight, focusWeight, Word.weight, weights]
  · cases h
    simp [weight, frameWeight, focusWeight, Word.weight]
  · split at h
    · rename_i op known
      rw [weight_join h]
      unfold operator? at known
      split at known <;> first | rfl | cases known
    · rw [weight_close h, weight_reduce]
      unfold close at h
      split at h <;> first | rfl | cases h
    · cases h

theorem weight_step (h : step r w = some r') : r'.weight = r.weight + w.weight := by
  unfold step at h
  split at h
  · rename_i mayClose focus
    rw [weight_begin h, weight, focus]
    rfl
  · rename_i target name focus
    cases h
    simp only [weight, focus, focusWeight, Phrase.weight, Word.weight]
    omega
  · cases h
  · rename_i p focus
    rw [weight_proceed h, weight, focus, focusWeight]
    omega

theorem weight_run {ws : List Word} (h : ws.foldlM step r = some r')
    : r'.weight = r.weight + (ws.map Word.weight).sum := by
  induction ws generalizing r with
  | nil =>
    cases h
    simp
  | cons w ws ih =>
    rw [foldlM_cons] at h
    obtain ⟨between, first, rest⟩ := Option.bind_eq_some_iff.mp h
    rw [ih rest, weight_step first, map_cons, sum_cons]
    omega

theorem weight_finish (h : r.finish = some p) : p.weight = r.weight := by
  unfold finish at h
  split at h
  · rename_i q focus
    split at h
    · rename_i closed
      cases h
      have whole := weight_reduce 0 q r.frames
      rw [isEmpty_iff.mp closed] at whole
      simp only [map_nil, sum_nil, Nat.add_zero] at whole
      rw [whole, weight, focus, focusWeight]
      omega
    · cases h
  · cases h

end Reading

theorem weight_phraseOf? {ws : List Word} {p : Phrase} (h : phraseOf? ws = some p)
    : p.weight = (ws.map Word.weight).sum := by
  obtain ⟨r, run, finished⟩ := Option.bind_eq_some_iff.mp h
  rw [Reading.weight_finish finished, Reading.weight_run run]
  simp [Reading.weight, Reading.focusWeight]

end Fxml.Code
