import Fxml.Code.Emit
import Fxml.Proofs.Code.Spelling

/-! The terms of expressions that are evaluated once, and the words that their text spells. -/

open List Fxml.Text

namespace Fxml

namespace Code

open Number

variable {text rest cs : List Char} {c : Char} {name : String} {x : Float} {value : Scalar}
  {w : Word}

/-! ### Words one after the other -/

/-- Words and more words, if both can be read. -/
def both (ws vs : Option (List Word)) : Option (List Word) := ws.bind fun ws => vs.map (ws ++ ·)

@[simp] theorem both_none (vs : Option (List Word)) : both none vs = none := rfl

@[simp] theorem both_some (ws vs : List Word) : both (some ws) (some vs) = some (ws ++ vs) := rfl

theorem both_assoc (us ws vs : Option (List Word)) : both (both us ws) vs = both us (both ws vs) := by
  rcases us with _ | us <;> rcases ws with _ | ws <;> rcases vs with _ | vs <;> simp [both]

/-- The words of a text before the rest. Without words the text cannot be read. -/
def Spells (text : List Char) (ws : Option (List Word)) (rest : List Char) : Prop :=
  words? (text ++ rest) = both ws (words? rest)

theorem Spells.append {more : List Char} {ws vs : Option (List Word)}
    (first : Spells text ws (more ++ rest)) (second : Spells more vs rest)
    : Spells (text ++ more) (both ws vs) rest := by
  unfold Spells at *
  rw [append_assoc, first, second, both_assoc]

theorem spells_nil (rest : List Char) : Spells [] (some []) rest := by
  unfold Spells
  rw [nil_append]
  cases words? rest <;> rfl

/-- A blank is passed over. -/
theorem Spells.afterBlank {ws : Option (List Word)} (h : Spells text ws rest)
    : Spells ([' '] ++ text) ws rest := by
  unfold Spells at *
  rw [singleton_append, cons_append, words?, if_pos rfl, h]

theorem spells_word (solid : c ≠ ' ') (h : word? (c :: cs ++ rest) = some (w, rest))
    : Spells (c :: cs) (some [w]) rest := by
  have shorter : rest.length < (c :: (cs ++ rest)).length := by
    simp only [length_cons, length_append]
    omega
  unfold Spells
  rw [cons_append] at h ⊢
  rw [words?, if_neg solid, h]
  simp only [shorter, if_true]
  cases words? rest <;> rfl

theorem spells_none (solid : c ≠ ' ') (h : word? (c :: cs ++ rest) = none)
    : Spells (c :: cs) none rest := by
  unfold Spells
  rw [cons_append] at h ⊢
  rw [words?, if_neg solid, h]
  rfl

theorem ofName_of_keyword (h : Naming.isKeyword name = true) : Word.ofName name = .keyword name :=
  if_pos h

theorem ofName_of_free (h : Naming.isKeyword name = false) : Word.ofName name = .name name :=
  if_neg (by simp [h])

theorem spells_name (named : isName name.toList = true) (h : Delimited rest)
    : Spells name.toList (some [.ofName name]) rest := by
  have read := word?_name named h
  rw [String.ofList_toList] at read
  cases chars : name.toList with
  | nil => simp [chars, isName] at named
  | cons c cs =>
    rw [chars] at read named
    rw [isName, Bool.and_eq_true] at named
    refine spells_word ?_ read
    rintro rfl
    exact absurd named.1 (by decide)

theorem head_toDigits (n : Nat) : ∃ c cs, Nat.toDigits 10 n = c :: cs ∧ isAsciiDigit c = true := by
  obtain ⟨c, cs, chars⟩ := exists_cons_of_ne_nil (@Nat.toDigits_ne_nil n 10)
  exact ⟨c, cs, chars, @isAsciiDigit_toDigits n c (chars ▸ mem_cons_self)⟩

/-- A text that starts with a digit is read as a number, or not at all. -/
theorem spells_number {w : Option Word} (chars : text = c :: cs) (digit : isAsciiDigit c = true)
    (h : number? (text ++ rest) = w.map (·, rest))
    : Spells text (w.map ([·])) rest := by
  subst chars
  have solid : c ≠ ' ' := by
    rintro rfl
    exact absurd digit (by decide)
  have read : word? (c :: cs ++ rest) = w.map (·, rest) := by
    rw [← h, cons_append, word?, if_pos (by simp [digit])]
  cases w with
  | none => exact spells_none solid read
  | some w => exact spells_word solid read

theorem spells_natural (n : Nat) (h : Delimited rest) (noPoint : rest.head? ≠ some '.')
    : Spells (Nat.toDigits 10 n) (some [.int n]) rest := by
  obtain ⟨c, cs, chars, digit⟩ := head_toDigits n
  exact spells_number (w := some (.int n)) chars digit (number?_natural n h noPoint)

theorem spells_literal (s : String) (h : Delimited rest)
    : Spells (literal s).toList (some [.string s]) rest := by
  have read := word?_literal s h
  rw [toList_literal] at read ⊢
  exact spells_word (by decide) read

/-- A minus is read alone unless it would make a longer operator. -/
theorem spells_minus (noEq : c ≠ '=') (noGt : c ≠ '>')
    : Spells ['-'] (some [.mark .minus]) (c :: rest) := by
  refine spells_word (by decide) ?_
  have mark : mark? ('-' :: c :: rest) = some (.minus, c :: rest) := by
    simp [mark?, pairMark?, startsOther, singleMark?, noEq, noGt]
  rw [cons_append, nil_append, word?, if_neg (by simp [isAsciiDigit]),
    if_neg (by decide), if_neg (by decide), mark]
  rfl

/-- A bracket or a comma is read alone. -/
theorem spells_delimiter {m : Mark} (known : singleMark? c = some m := by rfl)
    (delimiter : c ∈ ['(', ')', '[', ']', '\x7b', '\x7d', ','] := by decide)
    : Spells [c] (some [.mark m]) rest := by
  have read (rest : List Char) : word? (c :: rest) = some (.mark m, rest) := by
    simp only [mem_cons, not_mem_nil, or_false] at delimiter
    rcases delimiter with rfl | rfl | rfl | rfl | rfl | rfl | rfl
    all_goals
      cases known
      cases rest <;> rfl
  refine spells_word ?_ (read rest)
  rintro rfl
  simp at delimiter

theorem spells_dot {name more : List Char} (named : isName name = true) (rest : List Char)
    : Spells ['.'] (some [.mark .dot]) (name ++ more ++ rest) := by
  rw [append_assoc]
  generalize more ++ rest = rest
  cases name with
  | nil => simp [isName] at named
  | cons c cs =>
    rw [isName, Bool.and_eq_true] at named
    have noDot : c ≠ '.' := by
      rintro rfl
      exact absurd named.1 (by decide)
    have mark : mark? ('.' :: c :: (cs ++ rest)) = some (.dot, c :: (cs ++ rest)) := by
      simp [mark?, pairMark?, startsOther, singleMark?, noDot]
    refine spells_word (by decide) ?_
    rw [singleton_append, cons_append, word?,
      if_neg (by simp [isAsciiDigit_of_alpha named.1, show isAsciiDigit '.' = false from rfl]),
      if_neg (by decide), if_neg (by decide), mark]
    rfl

/-! ### Literals -/

/-- The words of a literal. -/
def scalarWords : Scalar → List Word
  | .null => [.keyword "None"]
  | .bool true => [.keyword "True"]
  | .bool false => [.keyword "False"]
  | .int n => if n < 0 then [.mark .minus, .int n.natAbs] else [.int n.natAbs]
  | .float x =>
    if x.isInf then
      [.name "float", .mark .leftParen, .string (if (parts x).negative then "-inf" else "inf"),
        .mark .rightParen]
    else if (parts x).negative then [.mark .minus, .real (-x)]
    else [.real x]
  | .text s => [.string s]

/-- A whole number, whose text takes a point that follows it. -/
def isWhole : Scalar → Bool
  | .int _ => true
  | _ => false

theorem toList_toString_int (n : Int)
    : (toString n).toList
      = if n < 0 then '-' :: Nat.toDigits 10 n.natAbs else Nat.toDigits 10 n.natAbs := by
  rw [Int.toString_eq_repr, Int.repr_eq_if]
  by_cases negative : n < 0
  · rw [if_neg (by omega), if_pos negative, show (-n).toNat = n.natAbs by omega]
    simp
  · rw [if_pos (by omega), if_neg negative, show n.toNat = n.natAbs by omega]
    simp

/-- A character behind which no longer operator ends. -/
def Opening (c : Char) : Prop := c ≠ '=' ∧ c ≠ '>'

theorem opening_of_alnum (alnum : isAsciiAlnum c = true) : Opening c := by
  constructor
  all_goals
    rintro rfl
    exact absurd alnum (by decide)

theorem opening_of_digit (digit : isAsciiDigit c = true) : Opening c :=
  opening_of_alnum (by simp [isAsciiAlnum, digit])

/-- A minus before a number. -/
theorem spells_negative (chars : text = c :: cs) (digit : isAsciiDigit c = true)
    (h : Spells text (some [w]) rest)
    : Spells ('-' :: text) (some [.mark .minus, w]) rest := by
  have minus := @spells_minus (cs ++ rest) c (opening_of_digit digit).1 (opening_of_digit digit).2
  subst chars
  exact minus.append h

/-- An infinite number is told by its sign. -/
theorem lt_zero_of_isInf (infinite : x.isInf = true) : (x < 0.0) ↔ (parts x).negative = true := by
  obtain ⟨biased, fraction⟩ := isInf_iff.mp infinite
  have whole := wordOf_fields (wordBits_lt x)
  cases sign : signOf (wordBits x) with
  | positive =>
    rw [sign, biased, fraction] at whole
    have same : x = infinity := eq_of_wordBits whole.symm
    subst same
    decide
  | negative =>
    rw [sign, biased, fraction] at whole
    have same : x = -infinity := eq_of_wordBits whole.symm
    subst same
    decide

theorem spells_floatText (number : x.isNaN = false) (finite : x.isInf = false)
    (positive : signOf (wordBits x) = .positive) (h : Delimited rest)
    : Spells (floatText x).toList (some [.real x]) rest
      ∧ ∃ c cs, (floatText x).toList = c :: cs ∧ isAsciiDigit c = true := by
  obtain ⟨n, text, value⟩ := exists_numeral_floatText number finite positive
  obtain ⟨c, cs, chars, digit⟩ := Lexeme.head_text n
  rw [text, String.toList_ofList]
  refine ⟨spells_number (w := some (.real x)) chars digit ?_, c, cs, chars, digit⟩
  rw [number?_numeral n h, value]
  rfl

theorem head_floatText (number : x.isNaN = false) (finite : x.isInf = false)
    : ∃ c cs, (floatText x).toList = c :: cs ∧ Opening c := by
  cases sign : (parts x).negative with
  | false =>
    obtain ⟨_, c, cs, chars, digit⟩ := spells_floatText number finite (parts_positive.mp sign) delimited_nil
    exact ⟨c, cs, chars, opening_of_digit digit⟩
  | true =>
    rw [floatText_negative number finite sign, String.toList_append]
    exact ⟨'-', _, rfl, by decide, by decide⟩

/-- The first character of a literal. -/
theorem head_source (sound : (Tree.const value).Sound)
    : ∃ c cs, value.spelling.toList = c :: cs ∧ Opening c := by
  cases value with
  | null => exact ⟨'N', _, rfl, by decide, by decide⟩
  | bool b =>
    cases b
    · exact ⟨'F', _, rfl, by decide, by decide⟩
    · exact ⟨'T', _, rfl, by decide, by decide⟩
  | text s => exact ⟨'"', _, by simp [Scalar.spelling, Text.literal]; rfl, by decide, by decide⟩
  | int n =>
    rw [Scalar.spelling, toList_toString_int]
    split
    · exact ⟨'-', _, rfl, by decide, by decide⟩
    · obtain ⟨c, cs, chars, digit⟩ := head_toDigits n.natAbs
      exact ⟨c, cs, chars, opening_of_digit digit⟩
  | float x =>
    have number : x.isNaN = false := sound
    rw [Scalar.spelling, Scalar.floatSource, if_neg (Bool.eq_false_iff.mp number)]
    split
    · split
      · exact ⟨'f', _, rfl, by decide, by decide⟩
      · exact ⟨'f', _, rfl, by decide, by decide⟩
    · rename_i finite
      exact head_floatText number (Bool.eq_false_iff.mpr finite)

theorem spells_infinite (s : String) (rest : List Char)
    : Spells ("float(" ++ Text.literal s ++ ")").toList
        (some [.name "float", .mark .leftParen, .string s, .mark .rightParen]) rest := by
  have chars : ("float(" ++ Text.literal s ++ ")").toList
      = "float".toList ++ (['('] ++ ((Text.literal s).toList ++ [')'])) := by
    simp
  rw [chars, ← @ofName_of_free "float" (by decide)]
  refine Spells.append (spells_name rfl ?_) (Spells.append spells_delimiter
    (Spells.append (spells_literal s ?_) spells_delimiter))
  · simp [Delimited]
  · simp [Delimited]

theorem spells_scalar (sound : (Tree.const value).Sound) (h : Delimited rest)
    (noPoint : isWhole value = true → rest.head? ≠ some '.')
    : Spells value.spelling.toList (some (scalarWords value)) rest := by
  cases value with
  | null =>
    have name := @spells_name rest "None" rfl h
    rwa [ofName_of_keyword (by decide)] at name
  | bool b =>
    cases b with
    | false =>
      have name := @spells_name rest "False" rfl h
      rwa [ofName_of_keyword (by decide)] at name
    | true =>
      have name := @spells_name rest "True" rfl h
      rwa [ofName_of_keyword (by decide)] at name
  | text s => exact spells_literal s h
  | int n =>
    -- A point after a whole number would be read as part of it.
    have natural := spells_natural n.natAbs h (noPoint rfl)
    rw [Scalar.spelling, toList_toString_int, scalarWords]
    split
    · obtain ⟨c, cs, chars, digit⟩ := head_toDigits n.natAbs
      exact spells_negative chars digit natural
    · exact natural
  | float x =>
    have number : x.isNaN = false := sound
    rw [Scalar.spelling, Scalar.floatSource, if_neg (Bool.eq_false_iff.mp number), scalarWords]
    split
    · rename_i infinite
      simp only [lt_zero_of_isInf infinite]
      split
      · exact spells_infinite "-inf" rest
      · exact spells_infinite "inf" rest
    · rename_i finite
      have finite := Bool.eq_false_iff.mpr finite
      split
      · rename_i negative
        obtain ⟨spelled, c, cs, chars, digit⟩ := spells_floatText (isNaN_neg number)
          ((isInf_neg number).trans finite) (positive_neg number negative) h
        rw [floatText_negative number finite negative, String.toList_append]
        exact spells_negative chars digit spelled
      · rename_i positive
        exact (spells_floatText number finite
          (parts_positive.mp (Bool.eq_false_iff.mpr positive)) h).1

/-! ### Terms -/

end Code

namespace Tree

open Code

section Terms

variable (vars : String → String)

mutual

/-- The term of an expression whose references are variables. -/
@[simp] def term : Tree → Term
  | const value => .literal value
  | halves value => .halves value
  | ref name => .var (vars name)
  | path target name => .attr (term target) name
  | call target name args => .call (.attr (term target) name) (terms args)
  | index target key => .index (term target) (term key)
  | list items => .list (terms items)
  | map entries => .map (entryTerms entries)
  | unary op operand => .unary op (term operand)
  | binary op left right =>
    if op = .add then .call (.support "add") [term left, term right]
    else .binary op (term left) (term right)

@[simp] def terms : List Tree → List Term
  | [] => []
  | t :: ts => term t :: terms ts

@[simp] def entryTerms : List (Tree × Tree) → List (Term × Term)
  | [] => []
  | (key, value) :: rest => (term key, term value) :: entryTerms rest

end

/-- The characters of the term of an expression. -/
def chars (t : Tree) : List Char := (t.term vars).text.toList

end Terms

/-! ### Words of terms -/

def prefixWord : UnaryOp → Word
  | .neg => .mark .minus
  | .not => .keyword "not"

/-- An operator between operands as a word. -/
def infixWord : BinaryOp → Word
  | .or => .keyword "or"
  | .and => .keyword "and"
  | .eq => .mark .eq
  | .ne => .mark .ne
  | .lt => .mark .lt
  | .le => .mark .le
  | .gt => .mark .gt
  | .ge => .mark .ge
  | .add => .mark .plus
  | .sub => .mark .minus
  | .mul => .mark .star
  | .div => .mark .slash
  | .mod => .mark .percent

/-- The words of a name behind a point, after those of its target. A whole number takes the point;
then the name is its exponent, or it cannot be read.
-/
def namedWords (target : Tree) (ws : Option (List Word)) (name : String) : Option (List Word) :=
  match target with
  | const (.int n) =>
    if isExponent name.toList then
      some ((if n < 0 then [.mark .minus] else [])
        ++ [.real (Number.ofDecimal false n.natAbs (exponentNumber name.toList))])
    else none
  | _ => both ws (some [.mark .dot, .ofName name])

section Words

variable (vars : String → String) {op : BinaryOp} {t : Tree}

mutual

/-- The words of the term of an expression, if they can be read. -/
def words : Tree → Option (List Word)
  | const value => some (scalarWords value)
  | halves value => some [.string value.shown]
  | ref name => some [.name (vars name)]
  | path target name => namedWords target (words target) name
  | call target name args =>
    both (namedWords target (words target) name)
      (both (some [.mark .leftParen]) (both (itemWords args) (some [.mark .rightParen])))
  | index target key =>
    both (words target)
      (both (some [.mark .leftBracket]) (both (words key) (some [.mark .rightBracket])))
  | list items =>
    both (some [.mark .leftBracket]) (both (itemWords items) (some [.mark .rightBracket]))
  | map entries =>
    both (some [.mark .leftBrace]) (both (entryWords entries) (some [.mark .rightBrace]))
  | unary op operand =>
    both (some [.mark .leftParen])
      (both (some [prefixWord op]) (both (words operand) (some [.mark .rightParen])))
  | binary op left right =>
    if op = .add then
      both (some [.name "runtime", .mark .dot, .name "add", .mark .leftParen])
        (both (words left) (both (some [.mark .comma]) (both (words right) (some [.mark .rightParen]))))
    else
      both (some [.mark .leftParen])
        (both (words left) (both (some [infixWord op]) (both (words right) (some [.mark .rightParen]))))

def itemWords : List Tree → Option (List Word)
  | [] => some []
  | [t] => words t
  | t :: ts => both (words t) (both (some [.mark .comma]) (itemWords ts))

def entryWords : List (Tree × Tree) → Option (List Word)
  | [] => some []
  | [(key, value)] => both (words key) (both (some [.mark .colon]) (words value))
  | (key, value) :: rest =>
    both (words key)
      (both (some [.mark .colon]) (both (words value) (both (some [.mark .comma]) (entryWords rest))))

end

mutual

/-- The ids that a tree refers to. -/
def names : Tree → List String
  | const _ | halves _ => []
  | ref name => [name]
  | path target _ => names target
  | call target _ args => names target ++ itemNames args
  | index target key => names target ++ names key
  | list items => itemNames items
  | map entries => entryNames entries
  | unary _ operand => names operand
  | binary _ left right => names left ++ names right

def itemNames : List Tree → List String
  | [] => []
  | t :: ts => names t ++ itemNames ts

def entryNames : List (Tree × Tree) → List String
  | [] => []
  | (key, value) :: rest => names key ++ names value ++ entryNames rest

end

/-- A name that a variable of generated code may have. -/
def Fits (name : String) : Prop := Text.isName name.toList = true ∧ Naming.isKeyword name = false

/-- The characters of items with commas between them. -/
def itemChars (ts : List Tree) : List Char := (", ".intercalate (Term.texts (terms vars ts))).toList

/-- The characters of entries with commas between them. -/
def entryChars (ts : List (Tree × Tree)) : List Char :=
  (", ".intercalate (Term.entryTexts (entryTerms vars ts))).toList

variable {vars}

section Texts

attribute [local simp] chars itemChars entryChars Term.text Term.texts Term.entryTexts

theorem chars_path (t : Tree) (name : String)
    : (path t name).chars vars = t.chars vars ++ ('.' :: name.toList) := by
  simp

theorem chars_call (t : Tree) (name : String) (args : List Tree)
    : (call t name args).chars vars
      = t.chars vars ++ ('.' :: name.toList) ++ (['('] ++ (itemChars vars args ++ [')'])) := by
  simp

theorem chars_index (t k : Tree)
    : (index t k).chars vars = t.chars vars ++ (['['] ++ (k.chars vars ++ [']'])) := by
  simp

theorem chars_list (ts : List Tree)
    : (list ts).chars vars = ['['] ++ (itemChars vars ts ++ [']']) := by
  simp

theorem chars_map (ts : List (Tree × Tree))
    : (map ts).chars vars = ['\x7b'] ++ (entryChars vars ts ++ ['\x7d']) := by
  simp

theorem chars_not (t : Tree)
    : (unary .not t).chars vars
      = ['('] ++ ("not".toList ++ ([' '] ++ (t.chars vars ++ [')']))) := by
  simp [unaryText]

theorem chars_neg (t : Tree)
    : (unary .neg t).chars vars = ['('] ++ (['-'] ++ (t.chars vars ++ [')'])) := by
  simp [unaryText]

theorem chars_add (l r : Tree)
    : (binary .add l r).chars vars
      = "runtime".toList ++ (['.'] ++ ("add".toList ++ (['(']
          ++ (l.chars vars ++ ([','] ++ ([' '] ++ (r.chars vars ++ [')']))))))) := by
  simp [Term.support]

theorem chars_binary (h : op ≠ .add) (l r : Tree)
    : (binary op l r).chars vars
      = ['('] ++ (l.chars vars ++ ([' '] ++ ((binaryText op).toList
          ++ ([' '] ++ (r.chars vars ++ [')']))))) := by
  simp [h]

theorem itemChars_cons (t t' : Tree) (ts : List Tree)
    : itemChars vars (t :: t' :: ts)
      = t.chars vars ++ ([','] ++ ([' '] ++ itemChars vars (t' :: ts))) := by
  simp

theorem entryChars_single (k v : Tree)
    : entryChars vars [(k, v)] = k.chars vars ++ ([':'] ++ ([' '] ++ v.chars vars)) := by
  simp

theorem entryChars_cons (k v : Tree) (e : Tree × Tree) (ts : List (Tree × Tree))
    : entryChars vars ((k, v) :: e :: ts)
      = k.chars vars ++ ([':'] ++ ([' '] ++ (v.chars vars ++ ([','] ++ ([' ']
          ++ entryChars vars (e :: ts)))))) := by
  simp

end Texts

variable {rest : List Char}

/-- A whole number, whose text takes a point that follows it. -/
def isWholeConst : Tree → Bool
  | const value => isWhole value
  | _ => false

/-- Generated text starts with no character that makes a minus before it a longer operator. -/
theorem head_chars : (t : Tree) → t.Sound → (∀ name ∈ t.names, Fits (vars name))
    → ∃ c cs, t.chars vars = c :: cs ∧ Opening c
  | const _, sound, _ => head_source sound
  | halves value, _, _ => ⟨'"', _, toList_literal value.shown, by decide, by decide⟩
  | ref name, _, fits => by
    have named := (fits name mem_cons_self).1
    change ∃ c cs, (vars name).toList = c :: cs ∧ Opening c
    cases chars : (vars name).toList with
    | nil => simp [chars, Text.isName] at named
    | cons c cs =>
      rw [chars, Text.isName, Bool.and_eq_true] at named
      exact ⟨c, cs, rfl, opening_of_alnum (by simp [Text.isAsciiAlnum, named.1])⟩
  | path t _, sound, fits => by
    obtain ⟨c, cs, chars, plain⟩ := head_chars t sound.1 fits
    exact ⟨c, _, by rw [chars_path, chars]; rfl, plain⟩
  | call t _ _, sound, fits => by
    obtain ⟨c, cs, chars, plain⟩ :=
      head_chars t sound.1 fun name member => fits name (mem_append_left _ member)
    exact ⟨c, _, by rw [chars_call, chars]; rfl, plain⟩
  | index t _, sound, fits => by
    obtain ⟨c, cs, chars, plain⟩ :=
      head_chars t sound.1 fun name member => fits name (mem_append_left _ member)
    exact ⟨c, _, by rw [chars_index, chars]; rfl, plain⟩
  | list _, _, _ => ⟨'[', _, chars_list _, by decide, by decide⟩
  | map _, _, _ => ⟨'\x7b', _, chars_map _, by decide, by decide⟩
  | unary .neg _, _, _ => ⟨'(', _, chars_neg _, by decide, by decide⟩
  | unary .not _, _, _ => ⟨'(', _, chars_not _, by decide, by decide⟩
  | binary op l r, _, _ => by
    by_cases add : op = .add
    · subst add
      exact ⟨'r', _, chars_add l r, by decide, by decide⟩
    · exact ⟨'(', _, chars_binary add l r, by decide, by decide⟩

theorem spells_pointed (n : Nat) {name : List Char} (named : Text.isName name = true)
    (h : Delimited rest)
    : Spells (Nat.toDigits 10 n ++ '.' :: name)
        (if isExponent name then some [.real (Number.ofDecimal false n (exponentNumber name))] else none)
        rest := by
  obtain ⟨c, cs, chars, digit⟩ := head_toDigits n
  have read := number?_pointed n named h
  split
  · rename_i exponent
    rw [if_pos exponent] at read
    refine spells_number (w := some _) (congrArg (· ++ _) chars) digit ?_
    rw [append_assoc, cons_append, read]
    rfl
  · rename_i other
    rw [if_neg other] at read
    refine spells_number (w := none) (congrArg (· ++ _) chars) digit ?_
    rw [append_assoc, cons_append, read]
    rfl

/-- A name behind a point is read after its target, unless the target takes the point. -/
theorem spells_named {name : String} (named : Text.isName name.toList = true) (h : Delimited rest)
    (target : t.isWholeConst = false
      → Spells (t.chars vars) (t.words vars) ('.' :: (name.toList ++ rest)))
    : Spells (t.chars vars ++ '.' :: name.toList) (namedWords t (t.words vars) name) rest := by
  have dot := @spells_dot name.toList [] named rest
  rw [append_nil] at dot
  have dotted := dot.append (spells_name named h)
  have usual (other : t.isWholeConst = false)
      (words : namedWords t (t.words vars) name
        = both (t.words vars) (some [.mark .dot, .ofName name]))
      : Spells (t.chars vars ++ '.' :: name.toList) (namedWords t (t.words vars) name) rest := by
    rw [words]
    exact (target other).append dotted
  cases t with
  | const value =>
    cases value with
    | int n =>
      have taken := spells_pointed n.natAbs named h
      rw [show (const (.int n)).chars vars = (toString n).toList from rfl, toList_toString_int,
        namedWords]
      split
      · -- the minus stands before the number
        obtain ⟨c, cs, chars, digit⟩ := head_toDigits n.natAbs
        have opening := opening_of_digit digit
        rw [chars] at taken ⊢
        have whole := (spells_minus opening.1 opening.2).append taken
        by_cases exponent : isExponent name.toList = true
        · simp only [exponent, if_true] at whole ⊢
          exact whole
        · simp only [exponent, if_false, Bool.false_eq_true] at whole ⊢
          exact whole
      · exact taken
    | _ => exact usual rfl rfl
  | _ => exact usual rfl rfl

theorem spells_operator (rest : List Char)
    : Spells (binaryText op).toList (some [infixWord op]) (' ' :: rest) := by
  have word {name : String} (named : Text.isName name.toList = true)
      (known : Naming.isKeyword name = true)
      : Spells name.toList (some [.keyword name]) (' ' :: rest) := by
    rw [← ofName_of_keyword known]
    exact spells_name named (by simp [Delimited])
  cases op with
  | or => exact word rfl (by decide)
  | and => exact word rfl (by decide)
  | _ => exact spells_word (by decide) rfl

theorem spells_colon (rest : List Char) : Spells [':'] (some [.mark .colon]) (' ' :: rest) :=
  spells_word (by decide) rfl

theorem delimited_cons {c : Char}
    (h : c ∈ [' ', ',', ':', '.', '(', ')', '[', ']', '\x7d'] := by decide)
    : Delimited (c :: rest) := by
  rintro _ ⟨⟩
  exact h

/-- What may stand behind the text of a tree: the last word of the tree ends before it. -/
def Follows (t : Tree) (rest : List Char) : Prop :=
  Delimited rest ∧ (t.isWholeConst = true → rest.head? ≠ some '.')

theorem follows_cons {c : Char} (h : c ∈ [' ', ',', ':', '(', ')', '[', ']', '\x7d'] := by decide)
    : t.Follows (c :: rest) := by
  refine ⟨delimited_cons ?_, ?_⟩
  · simp only [mem_cons] at h ⊢
    tauto
  · rintro _ ⟨⟩
    simp at h

mutual

theorem spells_chars : (t : Tree) → t.Sound → (∀ name ∈ t.names, Fits (vars name))
    → ∀ rest, t.Follows rest → Spells (t.chars vars) (t.words vars) rest
  | const _, sound, _, _, h => spells_scalar sound h.1 h.2
  | halves value, _, _, _, h => spells_literal value.shown h.1
  | ref name, _, fits, rest, h => by
    obtain ⟨named, free⟩ := fits name mem_cons_self
    rw [words, ← ofName_of_free free]
    exact spells_name named h.1
  | path t name, sound, fits, rest, h => by
    rw [chars_path, words]
    exact spells_named sound.2 h.1 fun other =>
      spells_chars t sound.1 fits _ ⟨delimited_cons, by simp [other]⟩
  | call t name args, sound, fits, rest, h => by
    rw [names, forall_mem_append] at fits
    rw [chars_call, words]
    refine (spells_named sound.2.1 delimited_cons fun other => ?_).append
      ((spells_delimiter).append (Spells.append ?_ spells_delimiter))
    · exact spells_chars t sound.1 fits.1 _ ⟨delimited_cons, by simp [other]⟩
    · exact spells_items args sound.2.2.2 fits.2 (by decide) _
  | index t k, sound, fits, rest, h => by
    rw [names, forall_mem_append] at fits
    rw [chars_index, words]
    refine Spells.append ?_ ((spells_delimiter).append (Spells.append ?_ spells_delimiter))
    · exact spells_chars t sound.1 fits.1 _ follows_cons
    · exact spells_chars k sound.2 fits.2 _ follows_cons
  | list ts, sound, fits, rest, h => by
    rw [chars_list, words]
    exact (spells_delimiter).append
      (Spells.append (spells_items ts sound fits (by decide) _) spells_delimiter)
  | map ts, sound, fits, rest, h => by
    rw [chars_map, words]
    exact (spells_delimiter).append
      (Spells.append (spells_entries ts sound fits _) spells_delimiter)
  | unary .neg t, sound, fits, rest, h => by
    -- A minus joins an equals sign or a closing angle after it, and no operand opens with either.
    obtain ⟨c, cs, chars, opening⟩ := head_chars t sound.1 fits
    have inner := (spells_chars t sound.1 fits _ follows_cons).append
      (@spells_delimiter rest ')' _ rfl (by decide))
    have minus : Spells ['-'] (some [.mark .minus]) (t.chars vars ++ [')'] ++ rest) := by
      rw [chars]
      exact spells_minus opening.1 opening.2
    rw [chars_neg, words]
    exact (spells_delimiter).append (minus.append inner)
  | unary .not t, sound, fits, rest, h => by
    have inner := (spells_chars t sound.1 fits _ follows_cons).append
      (@spells_delimiter rest ')' _ rfl (by decide))
    have word : prefixWord .not = .ofName "not" := (ofName_of_keyword (by decide)).symm
    rw [chars_not, words, word]
    exact (spells_delimiter).append ((spells_name rfl delimited_cons).append inner.afterBlank)
  | binary op l r, sound, fits, rest, h => by
    rw [names, forall_mem_append] at fits
    have right := (spells_chars r sound.2 fits.2 _ follows_cons).append
      (@spells_delimiter rest ')' _ rfl (by decide))
    rw [words]
    split
    · rename_i add
      subst add
      have opener : (some [.name "runtime", .mark .dot, .name "add", .mark .leftParen] : Option (List Word))
          = both (some [.ofName "runtime"]) (both (some [.mark .dot])
            (both (some [.ofName "add"]) (some [.mark .leftParen]))) := by
        rw [@ofName_of_free "runtime" (by decide), @ofName_of_free "add" (by decide)]
        rfl
      rw [chars_add, opener, both_assoc, both_assoc, both_assoc]
      refine (spells_name rfl delimited_cons).append
        ((@spells_dot "add".toList _ rfl _).append
          ((spells_name rfl delimited_cons).append
            ((spells_delimiter).append
              (Spells.append ?_ ((spells_delimiter).append right.afterBlank)))))
      exact spells_chars l sound.1 fits.1 _ follows_cons
    · rename_i other
      rw [chars_binary other]
      refine (spells_delimiter).append (Spells.append ?_
        (((spells_operator _).append right.afterBlank).afterBlank))
      exact spells_chars l sound.1 fits.1 _ follows_cons

theorem spells_items : (ts : List Tree) → SoundItems ts → (∀ name ∈ itemNames ts, Fits (vars name))
    → ∀ {c : Char}, c ∈ [')', ']'] → ∀ rest, Spells (itemChars vars ts) (itemWords vars ts) (c :: rest)
  | [], _, _, _, _, _ => spells_nil _
  | [t], sound, fits, c, closes, rest => by
    have one : itemChars vars [t] = t.chars vars := by simp [itemChars, chars, terms, Term.texts]
    rw [itemNames, itemNames, append_nil] at fits
    rw [one, itemWords]
    exact spells_chars t sound.1 fits _ (follows_cons (by simp only [mem_cons] at closes ⊢; tauto))
  | t :: t' :: ts, sound, fits, c, closes, rest => by
    rw [itemNames, forall_mem_append] at fits
    rw [itemChars_cons, itemWords]
    · refine Spells.append ?_ ((spells_delimiter).append
        (spells_items (t' :: ts) sound.2 fits.2 closes rest).afterBlank)
      exact spells_chars t sound.1 fits.1 _ follows_cons
    · nofun

theorem spells_entries : (ts : List (Tree × Tree)) → SoundEntries ts
    → (∀ name ∈ entryNames ts, Fits (vars name))
    → ∀ rest, Spells (entryChars vars ts) (entryWords vars ts) ('\x7d' :: rest)
  | [], _, _, _ => spells_nil _
  | [(k, v)], sound, fits, rest => by
    rw [entryNames, entryNames, append_nil, forall_mem_append] at fits
    rw [entryChars_single, entryWords]
    refine Spells.append ?_ ((spells_colon _).append (Spells.afterBlank ?_))
    · exact spells_chars k sound.1 fits.1 _ follows_cons
    · exact spells_chars v sound.2.1 fits.2 _ follows_cons
  | (k, v) :: e :: ts, sound, fits, rest => by
    rw [entryNames, forall_mem_append, forall_mem_append] at fits
    rw [entryChars_cons, entryWords]
    · refine Spells.append ?_ ((spells_colon _).append (Spells.afterBlank (Spells.append ?_
        ((spells_delimiter).append (spells_entries (e :: ts) sound.2.2 fits.2 rest).afterBlank))))
      · exact spells_chars k sound.1 fits.1.1 _ follows_cons
      · exact spells_chars v sound.2.1 fits.1.2 _ follows_cons
    · nofun

end

end Words

end Tree

end Fxml
