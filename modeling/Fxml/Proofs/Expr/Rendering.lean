import Fxml.Proofs.Expr.Cursor
import Fxml.Proofs.Expr.Slices

/-! Trees written out with parentheses around every part that has an operator or a suffix. Reading
the written form of a tree that is read from a text gives the tree back.
-/

open List Fxml.Text Fxml.Token

namespace Fxml

open Number

variable {ls rs : List Lexeme} {name : String} {value : Scalar} {l : Lexeme} {x : Float} {c : Char}

/-! ### Spelling lexemes -/

theorem isAsciiDigit_of_alpha (alpha : isAsciiAlpha c = true)
    : isAsciiDigit c = false := by
  simp only [isAsciiAlpha, isAsciiLower, isAsciiUpper, isAsciiDigit,
    Bool.or_eq_true, Bool.and_eq_true, decide_eq_true_eq, beq_iff_eq, Char.le_def,
    UInt32.le_iff_toNat_le, Bool.and_eq_false_iff, decide_eq_false_iff_not] at *
  rcases alpha with (⟨low, _⟩ | ⟨low, _⟩) | rfl
  · have : 97 ≤ c.val.toNat := low
    exact .inr fun high : c.val.toNat ≤ 57 => by omega
  · have : 65 ≤ c.val.toNat := low
    exact .inr fun high : c.val.toNat ≤ 57 => by omega
  · exact .inr (by decide)

/-- The blanks of the expression language are neither letters nor digits. -/
theorem isSpace_of_alnum (alnum : isAsciiAlnum c = true) : isSpace c = false := by
  rw [Bool.eq_false_iff]
  intro blank
  simp only [isSpace, Bool.or_eq_true, beq_iff_eq] at blank
  rcases blank with ((rfl | rfl) | rfl) | rfl
  all_goals exact absurd alnum (by decide)

namespace Lexeme

/-- A code point inside double quotes. -/
def escaped : Point → List Char
  | .char c => if c = '"' ∨ c = '\\' then ['\\', c] else [c]
  | half => half.shown

/-- The text of a lexeme. -/
def spelling : Lexeme → List Char
  | .int digits => digits.toList
  | .float text => text.toList
  | .string value => '"' :: ((value.toList.map .char).flatMap escaped ++ ['"'])
  | .halves value => '"' :: (value.points.flatMap escaped ++ ['"'])
  | .ident name => name.toList
  | .symbol s => s.text.toList

/-- Lexemes that can be scanned and read. -/
inductive Spellable : Lexeme → Prop where
  | int {digits : String} (nonempty : digits.toList ≠ [])
    (digital : ∀ c ∈ digits.toList, Text.isAsciiDigit c = true) (short : digits.length ≤ digitLimit)
    : Spellable (.int digits)
  | float (n : Numeral) : Spellable (.float (String.ofList n.text))
  | string (value : String) : Spellable (.string value)
  | halves (value : Halves) : Spellable (.halves value)
  | ident {name : String} (named : Text.isName name.toList = true) : Spellable (.ident name)
  | symbol (s : Symbol) : Spellable (.symbol s)

theorem spells_escaped (p : Point) : Spells '"' (escaped p) p := by
  cases p with
  | half n => exact spells_half n
  | char c =>
    change Spells '"' (if _ then _ else _) _
    split
    · rename_i special
      rcases special with rfl | rfl <;> exact .short (by decide)
    · rename_i plain
      obtain ⟨noQuote, noSlash⟩ := not_or.mp plain
      exact .plain noQuote noSlash

theorem scanLexeme_points (value : List Point) (rest : List Char)
    : scanLexeme ('"' :: (value.flatMap escaped ++ '"' :: rest)) = .ok (ofPoints value, rest) := by
  have spelled : List.Forall₂ (Spells '"') (value.map escaped) value :=
    forall₂_map_left_iff.mpr (forall₂_same.mpr fun p _ => spells_escaped p)
  have scanned := scanString_pieces (.inl rfl) spelled 1 rest
  rw [scanLexeme, if_neg (by decide), if_neg (by decide), if_pos (by decide), flatMap_def, scanned]
  rfl

theorem endsNumber_blank (rest : List Char) : EndsNumber (' ' :: rest) := by
  rintro c ⟨⟩
  exact ⟨rfl, by decide⟩

theorem scanNumber_digits {digits rest : List Char} (digital : ∀ c ∈ digits, isAsciiDigit c = true)
    (ends : EndsNumber rest)
    : scanNumber (digits ++ rest) = .ok (.int (String.ofList digits), rest) := by
  obtain ⟨taken, left⟩ := takeWhile_digits digital ends.digit
  unfold scanNumber
  rw [taken, left]
  cases rest with
  | nil => simp [scanFraction, scanExponent, scanNumber.number]
  | cons c more =>
    obtain ⟨plain, noPoint⟩ := ends c rfl
    have noLetter : isAsciiAlpha c = false := (Bool.or_eq_false_iff.mp plain).1
    have noExponent : c ≠ 'e' ∧ c ≠ 'E' := by
      refine ⟨?_, ?_⟩ <;> rintro rfl <;> cases noLetter
    simp [scanFraction, scanExponent, scanNumber.number, noPoint, noLetter, noExponent]

/-- Digits alone are one number. -/
theorem scan_digits {digits : List Char} (found : digits ≠ [])
    (digital : ∀ c ∈ digits, isAsciiDigit c = true) (pos : Position)
    : scan pos digits = .ok [⟨.int (String.ofList digits), pos⟩] := by
  obtain ⟨d, ds, rfl⟩ := exists_cons_of_ne_nil found
  have first := digital d mem_cons_self
  have scanned := @scanNumber_digits _ [] digital nofun
  rw [append_nil] at scanned
  have lexeme : scanLexeme (d :: ds) = .ok (.int (String.ofList (d :: ds)), []) := by
    rw [scanLexeme, if_pos first]
    exact scanned
  rw [scan_of_lexeme pos (isSpace_of_alnum (by simp [isAsciiAlnum, first])) lexeme, scan]
  rfl

theorem head_text (n : Numeral) : ∃ c cs, n.text = c :: cs ∧ isAsciiDigit c = true := by
  obtain ⟨c, cs, chars⟩ := exists_cons_of_ne_nil n.whole_ne_nil
  refine ⟨c, cs ++ n.fractionText ++ n.exponentText, ?_, n.whole_digits c (chars ▸ mem_cons_self)⟩
  simp [Numeral.text, chars]

theorem scanLexeme_spelling (spellable : l.Spellable) (rest : List Char)
    : ∃ c cs, l.spelling = c :: cs ∧ isSpace c = false
        ∧ scanLexeme (l.spelling ++ ' ' :: rest) = .ok (l, ' ' :: rest) := by
  cases spellable with
  | @int digits nonempty digital short =>
    obtain ⟨d, ds, spelled⟩ := exists_cons_of_ne_nil nonempty
    have first : isAsciiDigit d = true := digital d (spelled ▸ mem_cons_self)
    refine ⟨d, ds, spelled, isSpace_of_alnum (by simp [isAsciiAlnum, first]), ?_⟩
    have scanned := scanNumber_digits digital (endsNumber_blank rest)
    rw [String.ofList_toList] at scanned
    simp only [spelling, spelled, cons_append] at scanned ⊢
    rw [scanLexeme, if_pos first, scanned]
  | float n =>
    obtain ⟨d, ds, text, first⟩ := head_text n
    have scanned := n.scanNumber_text (endsNumber_blank rest)
    rw [spelling, String.toList_ofList]
    refine ⟨d, ds, text, isSpace_of_alnum (by simp [isAsciiAlnum, first]), ?_⟩
    rw [text] at scanned ⊢
    rw [cons_append, scanLexeme, if_pos first]
    exact scanned
  | string value =>
    refine ⟨'"', _, rfl, rfl, ?_⟩
    have scanned := scanLexeme_points (value.toList.map .char) (' ' :: rest)
    rw [@ofPoints_of_points? _ (.string value) rfl] at scanned
    simpa [spelling] using scanned
  | halves value =>
    refine ⟨'"', _, rfl, rfl, ?_⟩
    have scanned := scanLexeme_points value.points (' ' :: rest)
    rw [@ofPoints_of_points? _ (.halves value) rfl] at scanned
    simpa [spelling] using scanned
  | @ident name named =>
    cases spelled : name.toList with
    | nil => simp [spelled, isName] at named
    | cons c cs =>
      rw [spelled, isName, Bool.and_eq_true, all_eq_true] at named
      obtain ⟨alpha, alnum⟩ := named
      refine ⟨c, cs, spelled, isSpace_of_alnum (by simp [isAsciiAlnum, alpha]), ?_⟩
      have taken : (cs ++ ' ' :: rest).takeWhile isAsciiAlnum = cs := by
        rw [takeWhile_append_of_pos alnum]
        simp [show isAsciiAlnum ' ' = false from rfl]
      have left : (cs ++ ' ' :: rest).dropWhile isAsciiAlnum = ' ' :: rest := by
        rw [dropWhile_append_of_pos alnum]
        simp [show isAsciiAlnum ' ' = false from rfl]
      simp only [spelling, spelled, cons_append]
      rw [scanLexeme, if_neg (by simp [isAsciiDigit_of_alpha alpha]), if_pos alpha, taken,
        left, ← spelled, String.ofList_toList]
  | symbol s =>
    cases s
    all_goals exact ⟨_, _, rfl, rfl, rfl⟩

theorem Spellable.isShort (spellable : l.Spellable) : l.isShort := by
  cases spellable with
  | int _ _ short => exact decide_eq_true short
  | _ => rfl

/-- Lexemes one after the other, with a blank after each. -/
def spellings (ls : List Lexeme) : List Char := ls.flatMap fun l => l.spelling ++ [' ']

theorem scan_spellings (spellable : ∀ l ∈ ls, l.Spellable) (pos : Position)
    : ∃ tokens, scan pos (spellings ls) = .ok tokens ∧ tokens.map lexeme = ls := by
  induction ls generalizing pos with
  | nil => exact ⟨[], by simp [spellings, scan], rfl⟩
  | cons l ls ih =>
    rw [forall_mem_cons] at spellable
    obtain ⟨c, cs, spelled, solid, scanned⟩ := scanLexeme_spelling spellable.1 (spellings ls)
    have text : spellings (l :: ls) = c :: (cs ++ ' ' :: spellings ls) := by
      simp [spellings, spelled]
    rw [spelled, cons_append] at scanned
    rw [text, scan_of_lexeme pos solid scanned, scan, if_pos (by decide)]
    obtain ⟨tokens, others, same⟩ := ih spellable.2
      ((pos.right ((c :: (cs ++ ' ' :: spellings ls)).length - (' ' :: spellings ls).length)).right 1)
    exact ⟨⟨l, pos⟩ :: tokens, by rw [others]; rfl, by simp [same]⟩

end Lexeme

/-! ### Written trees -/

/-- Lexemes in parentheses. -/
def enclosed (ls : List Lexeme) : List Lexeme :=
  .symbol .leftParen :: (ls ++ [.symbol .rightParen])

/-- The digits of a whole number. -/
def naturalLexeme (n : Nat) : Lexeme := .int (String.ofList (Nat.toDigits 10 n))

/-- The numeral of a number that is not negative; an infinite one is beyond all finite ones. -/
def realLexeme (x : Float) : Lexeme :=
  .float (if x.isInf then String.ofList hugeNumeral.text else floatText x)

/-- A literal, with its minus in parentheses. -/
def Scalar.lexemes : Scalar → List Lexeme
  | null => [.ident "null"]
  | bool true => [.ident "true"]
  | bool false => [.ident "false"]
  | int n =>
    if n < 0 then enclosed [.symbol .minus, naturalLexeme n.natAbs] else [naturalLexeme n.natAbs]
  | float x =>
    if (parts x).negative then enclosed [.symbol .minus, realLexeme (-x)] else [realLexeme x]
  | text s => [.string s]

def UnaryOp.sign : UnaryOp → Symbol
  | neg => .minus
  | not => .bang

namespace Tree

mutual

/-- The lexemes of a tree with parentheses around every operator and suffix. -/
def lexemes : Tree → List Lexeme
  | const value => value.lexemes
  | halves value => [.halves value]
  | ref name => [.ident name]
  | path target name => enclosed (lexemes target ++ [.symbol .dot, .ident name])
  | call target name args =>
    enclosed (lexemes target
      ++ .symbol .dot :: .ident name :: .symbol .leftParen :: (itemLexemes args ++ [.symbol .rightParen]))
  | index target key =>
    enclosed (lexemes target ++ .symbol .leftBracket :: (lexemes key ++ [.symbol .rightBracket]))
  | list items => .symbol .leftBracket :: (itemLexemes items ++ [.symbol .rightBracket])
  | map entries => .symbol .leftBrace :: (entryLexemes entries ++ [.symbol .rightBrace])
  | unary op operand => enclosed (.symbol op.sign :: lexemes operand)
  | binary op left right => enclosed (lexemes left ++ .symbol op.sign :: lexemes right)

/-- Items with commas between them. -/
def itemLexemes : List Tree → List Lexeme
  | [] => []
  | [t] => lexemes t
  | t :: ts => lexemes t ++ .symbol .comma :: itemLexemes ts

/-- Entries with commas between them. A key in parentheses is never a bare name. -/
def entryLexemes : List (Tree × Tree) → List Lexeme
  | [] => []
  | [(key, value)] => enclosed (lexemes key) ++ .symbol .colon :: lexemes value
  | (key, value) :: rest =>
    enclosed (lexemes key)
      ++ .symbol .colon :: (lexemes value ++ .symbol .comma :: entryLexemes rest)

end

/-- The text of a tree, fully parenthesised. -/
def render (t : Tree) : List Char := Lexeme.spellings t.lexemes

/-! ### Trees of expressions -/

mutual

/-- Trees that expressions have: names are names, a reference is no keyword, a call has at most one
argument, no number is undefined or too long, and no minus stands before a number.
-/
def Sound : Tree → Prop
  | const (.float x) => x.isNaN = false
  | const value => value.isLong = false
  | halves _ => True
  | ref name => isName name.toList = true ∧ Expr.keyword? name = none
  | path target name => Sound target ∧ isName name.toList = true
  | call target name args =>
    Sound target ∧ isName name.toList = true ∧ args.length ≤ 1 ∧ SoundItems args
  | index target key => Sound target ∧ Sound key
  | list items => SoundItems items
  | map entries => SoundEntries entries
  | unary op operand => Sound operand ∧ (op = .neg → operand.negated = unary .neg operand)
  | binary _ left right => Sound left ∧ Sound right

def SoundItems : List Tree → Prop
  | [] => True
  | t :: ts => Sound t ∧ SoundItems ts

def SoundEntries : List (Tree × Tree) → Prop
  | [] => True
  | (key, value) :: rest => Sound key ∧ Sound value ∧ SoundEntries rest

end

theorem Sound.negated {t : Tree} (sound : t.Sound) : t.negated.Sound := by
  cases t with
  | const value =>
    cases value with
    | int n =>
      change (Scalar.int (-n)).isLong = false
      rw [Scalar.isLong, Int.natAbs_neg]
      exact sound
    | float x => exact isNaN_neg sound
    | _ => exact ⟨rfl, fun _ => rfl⟩
  | _ => exact ⟨sound, fun _ => rfl⟩

end Tree

/-- A name is a name of the expression language, and a number has digits, not too many. -/
def Lexeme.Legible : Lexeme → Prop
  | .ident name => isName name.toList = true
  | .int digits => (∀ c ∈ digits.toList, isAsciiDigit c = true) ∧ digits.length ≤ digitLimit
  | _ => True

/-- All lexemes are legible. -/
def Legible (ls : List Lexeme) : Prop := ∀ l ∈ ls, l.Legible

theorem Legible.left (legible : Legible (ls ++ rs)) : Legible ls :=
  (forall_mem_append.mp legible).1

theorem Legible.right (legible : Legible (ls ++ rs)) : Legible rs :=
  (forall_mem_append.mp legible).2

theorem Legible.tail (legible : Legible (l :: ls)) : Legible ls :=
  (forall_mem_cons.mp legible).2

theorem Legible.head (legible : Legible (.ident name :: ls)) : isName name.toList = true :=
  (forall_mem_cons.mp legible).1

theorem digitsNumber_lt {digits : List Char} (digital : ∀ c ∈ digits, isAsciiDigit c = true)
    : digitsNumber digits < 10 ^ digits.length := by
  induction digits using reverseRecOn with
  | nil => decide
  | append_singleton before last ih =>
    obtain ⟨first, digit⟩ := forall_mem_append.mp digital
    have small : digitsNumber [last] < 10 := by
      have digit := digit last mem_cons_self
      rw [isAsciiDigit, Bool.and_eq_true, decide_eq_true_eq, decide_eq_true_eq] at digit
      have high : last.toNat ≤ 57 := digit.2
      simp only [digitsNumber, foldl_cons, foldl_nil, Char.reduceToNat]
      omega
    have early := ih first
    rw [digitsNumber_append, length_append, length_singleton, Nat.pow_one, Nat.pow_succ]
    omega

/-- A number has no more digits than the text it is read from. -/
theorem not_isLong_digitsNumber {digits : String} (legible : (Lexeme.int digits).Legible)
    : (Scalar.int (digitsNumber digits.toList)).isLong = false := by
  obtain ⟨digital, short⟩ := legible
  have small := digitsNumber_lt digital
  have grows : 10 ^ digits.toList.length ≤ 10 ^ digitLimit := Nat.pow_le_pow_right (by decide) short
  rw [Scalar.isLong, decide_eq_false_iff_not, Nat.not_lt, Int.natAbs_natCast,
    Nat.length_toDigits_le_iff (by decide) (by decide)]
  exact Nat.lt_of_lt_of_le small grows

theorem sound_of_keyword? (known : Expr.keyword? name = some value) : (Tree.const value).Sound := by
  unfold Expr.keyword? at known
  split at known <;> cases known <;> rfl

namespace Derives

mutual

theorem Binary.sound {n : Nat} {ls : List Lexeme} {t : Tree} : Binary n ls t → Legible ls → t.Sound
  | .unary operand, legible => operand.sound legible
  | .tighter _ operand, legible => operand.sound legible
  | .join left right, legible => ⟨left.sound legible.left, right.sound legible.right.tail⟩

theorem Unary.sound {ls : List Lexeme} {t : Tree} : Unary ls t → Legible ls → t.Sound
  | .neg operand, legible => (operand.sound legible.tail).negated
  | .not operand, legible => ⟨operand.sound legible.tail, nofun⟩
  | .postfixed operand, legible => operand.sound legible

theorem Postfixed.sound {ls : List Lexeme} {t : Tree} : Postfixed ls t → Legible ls → t.Sound
  | .primary start, legible => start.sound legible
  | .path target, legible => ⟨target.sound legible.left, legible.right.tail.head⟩
  | .callEmpty target, legible =>
    ⟨target.sound legible.left, legible.right.tail.head, Nat.zero_le 1, trivial⟩
  | .call target arg, legible =>
    ⟨target.sound legible.left, legible.right.tail.head, Nat.le_refl 1,
      arg.sound legible.right.tail.tail.tail.left, trivial⟩
  | .index target key, legible => ⟨target.sound legible.left, key.sound legible.right.tail.left⟩

theorem Primary.sound {ls : List Lexeme} {t : Tree} : Primary ls t → Legible ls → t.Sound
  | .int _, legible => not_isLong_digitsNumber (legible _ mem_cons_self)
  | .float _, _ => (isNaN_ofDecimal _ _).1
  | .string _, _ => rfl
  | .halves _, _ => trivial
  | .keyword known, _ => sound_of_keyword? known
  | .ref free, legible => ⟨legible.head, free⟩
  | .paren inner, legible => inner.sound legible.tail.left
  | .list items, legible => items.sound legible.tail.left
  | .map entries, legible => entries.sound legible.tail.left

theorem Items.sound {ls : List Lexeme} {ts : List Tree}
    : Items ls ts → Legible ls → Tree.SoundItems ts
  | .nil, _ => trivial
  | .last item, legible => ⟨item.sound legible, trivial⟩
  | .cons item more, legible => ⟨item.sound legible.left, more.sound legible.right.tail⟩

theorem Entries.sound {ls : List Lexeme} {ts : List (Tree × Tree)}
    : Entries ls ts → Legible ls → Tree.SoundEntries ts
  | .nil, _ => trivial
  | .last key value, legible => ⟨key.sound legible.left, value.sound legible.right.tail, trivial⟩
  | .cons key value more, legible =>
    ⟨key.sound legible.left, value.sound legible.right.tail.left,
      more.sound legible.right.tail.right.tail⟩

theorem Key.sound {ls : List Lexeme} {t : Tree} : Key ls t → Legible ls → t.Sound
  | .name _, _ => rfl
  | .expression inner _, legible => inner.sound legible

end

end Derives

/-! ### Scanned lexemes -/

theorem legible_of_scan {pos : Position} {src : List Char} {tokens : List Token}
    (h : scan pos src = .ok tokens) (short : ∀ t ∈ tokens, t.lexeme.isShort)
    : Legible (tokens.map lexeme) := by
  refine forall_mem_map.mpr fun t listed => ?_
  obtain ⟨_, slice, _, _, _, decodes⟩ := (Lexeme.laid_of_scan h).exists_slice listed
  have short := short t listed
  revert short decodes
  cases t.lexeme with
  | int digits =>
    intro decodes short
    refine ⟨?_, of_decide_eq_true short⟩
    cases decodes with
    | int digital => simpa using digital.2
    | string _ _ value => cases value
  | ident name =>
    intro decodes _
    cases decodes with
    | ident named => simpa [Lexeme.Legible] using named
    | string _ _ value => cases value
  | _ => exact fun _ _ => trivial

/-! ### Written trees are derived -/

namespace Derives

variable {n : Nat} {ls : List Lexeme} {t : Tree}

/-- An expression without loose operators may stand where they may. -/
theorem Binary.loosen {m : Nat} (h : n ≤ m) (top : m ≤ 6) (derived : Binary m ls t)
    : Binary n ls t := by
  induction m with
  | zero =>
    cases Nat.le_zero.mp h
    exact derived
  | succ m ih =>
    rcases Nat.eq_or_lt_of_le h with rfl | less
    · exact derived
    · exact ih (by omega) (by omega) (.tighter (by omega) derived)

theorem Unary.binary (derived : Unary ls t) (h : n ≤ 6 := by omega) : Binary n ls t :=
  (Binary.unary derived).loosen h (Nat.le_refl 6)

theorem Postfixed.binary (derived : Postfixed ls t) (h : n ≤ 6 := by omega) : Binary n ls t :=
  (Unary.postfixed derived).binary

theorem Primary.binary (derived : Primary ls t) (h : n ≤ 6 := by omega) : Binary n ls t :=
  (Postfixed.primary derived).binary

end Derives

open Derives

theorem primary_naturalLexeme (n : Nat) : Primary [naturalLexeme n] (.const (.int n)) := by
  have := Primary.int (String.ofList (Nat.toDigits 10 n))
  rwa [String.toList_ofList, digitsNumber_toDigits] at this

theorem spellable_naturalLexeme {n : Int} (short : (Scalar.int n).isLong = false)
    : (naturalLexeme n.natAbs).Spellable := by
  refine .int (by simp [Nat.toDigits_ne_nil]) (by simpa using isAsciiDigit_toDigits) ?_
  rw [Scalar.isLong, decide_eq_false_iff_not, Nat.not_lt] at short
  rwa [String.length_ofList]

theorem exists_numeral_realLexeme (number : x.isNaN = false)
    (positive : signOf (wordBits x) = .positive)
    : ∃ n : Numeral, realLexeme x = .float (String.ofList n.text)
        ∧ Expr.floatValue (String.ofList n.text) = x := by
  unfold realLexeme
  split
  · rename_i infinite
    exact ⟨hugeNumeral, rfl,
      hugeNumeral.floatValue_text.trans
        (ofDecimal_hugeNumeral.trans (eq_infinity infinite positive).symm)⟩
  · rename_i finite
    obtain ⟨n, text, value⟩ :=
      exists_numeral_floatText number (Bool.eq_false_iff.mpr finite) positive
    exact ⟨n, by rw [text], n.floatValue_text.trans value⟩

theorem primary_realLexeme (number : x.isNaN = false) (positive : signOf (wordBits x) = .positive)
    : Primary [realLexeme x] (.const (.float x)) ∧ (realLexeme x).Spellable := by
  obtain ⟨n, lexeme, value⟩ := exists_numeral_realLexeme number positive
  rw [lexeme]
  refine ⟨?_, .float n⟩
  have := Primary.float (String.ofList n.text)
  rwa [value] at this

/-- A minus before a positive number in parentheses. -/
theorem primary_enclosed_minus (derived : Primary [l] (.const value))
    : Primary (enclosed [.symbol .minus, l]) (Tree.const value).negated :=
  .paren ((Unary.neg (.postfixed (.primary derived))).binary)

attribute [local simp] or_imp forall_and Lexeme.Spellable.symbol

@[simp]
theorem spellable_enclosed : (∀ l ∈ enclosed ls, l.Spellable) ↔ ∀ l ∈ ls, l.Spellable := by
  simp [enclosed]

/-- A literal is derived from its lexemes. -/
theorem primary_scalar (sound : (Tree.const value).Sound)
    : Primary value.lexemes (.const value) ∧ ∀ l ∈ value.lexemes, l.Spellable := by
  have word {name : String} {value : Scalar} (known : Expr.keyword? name = some value)
      (named : isName name.toList = true)
      : Primary [.ident name] (.const value) ∧ ∀ l ∈ [Lexeme.ident name], l.Spellable :=
    ⟨.keyword known, by simpa using .ident named⟩
  cases value with
  | null => exact word rfl rfl
  | bool b => cases b <;> exact word rfl rfl
  | text s => exact ⟨.string s, by simp [Scalar.lexemes, Lexeme.Spellable.string]⟩
  | int n =>
    have plain := primary_naturalLexeme n.natAbs
    have spellable := spellable_naturalLexeme sound
    rw [Scalar.lexemes]
    split
    · have minus := primary_enclosed_minus plain
      simp only [Tree.negated, Scalar.negate?] at minus
      rw [show -(n.natAbs : Int) = n by omega] at minus
      exact ⟨minus, by simp [spellable]⟩
    · rw [show (n.natAbs : Int) = n by omega] at plain
      exact ⟨plain, by simpa using spellable⟩
  | float x =>
    have number : x.isNaN = false := sound
    rw [Scalar.lexemes]
    split
    · rename_i negative
      obtain ⟨plain, spellable⟩ :=
        primary_realLexeme (isNaN_neg number) (positive_neg number negative)
      have minus := primary_enclosed_minus plain
      simp only [Tree.negated, Scalar.negate?, neg_neg_of_number number] at minus
      exact ⟨minus, by simp [spellable]⟩
    · rename_i other
      obtain ⟨plain, spellable⟩ :=
        primary_realLexeme number (parts_positive.mp (Bool.eq_false_iff.mpr other))
      exact ⟨plain, by simpa using spellable⟩

/-- A key in parentheses is an expression. -/
theorem key_enclosed {t : Tree} (derived : Primary ls t) : Key (enclosed ls) t :=
  .expression ((Primary.paren (derived.binary)).binary) (by rintro ⟨_, _, ⟨⟩, _⟩)

namespace Tree

mutual

theorem Sound.primary : (t : Tree) → t.Sound → Primary t.lexemes t
  | .const _, sound => (primary_scalar sound).1
  | .halves value, _ => .halves value
  | .ref _, sound => .ref sound.2
  | .path target _, sound =>
    .paren ((Postfixed.path (.primary (Sound.primary target sound.1))).binary)
  | .call target _ [], sound =>
    .paren ((Postfixed.callEmpty (.primary (Sound.primary target sound.1))).binary)
  | .call target _ [arg], sound =>
    .paren ((Postfixed.call (.primary (Sound.primary target sound.1))
      ((Sound.primary arg sound.2.2.2.1).binary)).binary)
  | .call _ _ (_ :: _ :: _), sound => absurd sound.2.2.1 (by simp)
  | .index target key, sound =>
    .paren ((Postfixed.index (.primary (Sound.primary target sound.1))
      ((Sound.primary key sound.2).binary)).binary)
  | .list ts, sound => .list (SoundItems.items ts sound)
  | .map ts, sound => .map (SoundEntries.entries ts sound)
  | .unary .neg operand, sound => by
    have minus := Unary.neg (.postfixed (.primary (Sound.primary operand sound.1)))
    rw [sound.2 rfl] at minus
    exact .paren (minus.binary)
  | .unary .not operand, sound =>
    .paren ((Unary.not (.postfixed (.primary (Sound.primary operand sound.1)))).binary)
  | .binary op left right, sound => by
    have tight : op.level + 1 ≤ 6 := by cases op <;> decide
    exact .paren ((Binary.join (Sound.primary left sound.1).binary
      (Sound.primary right sound.2).binary).loosen (Nat.zero_le _) (by omega))

theorem SoundItems.items : (ts : List Tree) → SoundItems ts → Items (itemLexemes ts) ts
  | [], _ => .nil
  | [t], sound => .last ((Sound.primary t sound.1).binary)
  | t :: t' :: ts, sound =>
    .cons ((Sound.primary t sound.1).binary) (SoundItems.items (t' :: ts) sound.2)

theorem SoundEntries.entries
    : (ts : List (Tree × Tree)) → SoundEntries ts → Entries (entryLexemes ts) ts
  | [], _ => .nil
  | [(key, value)], sound =>
    .last (key_enclosed (Sound.primary key sound.1)) ((Sound.primary value sound.2.1).binary)
  | (key, value) :: entry :: rest, sound =>
    .cons (key_enclosed (Sound.primary key sound.1))
      ((Sound.primary value sound.2.1).binary)
      (SoundEntries.entries (entry :: rest) sound.2.2)

end

attribute [local simp] lexemes itemLexemes entryLexemes

mutual

/-- The lexemes of a tree of expressions can be scanned. -/
theorem Sound.spellable : (t : Tree) → t.Sound → ∀ l ∈ t.lexemes, l.Spellable
  | .const _, sound => (primary_scalar sound).2
  | .halves value, _ => by simpa using .halves value
  | .ref _, sound => by simpa using .ident sound.1
  | .path target _, sound => by
    simpa [Lexeme.Spellable.ident sound.2] using Sound.spellable target sound.1
  | .call target _ args, sound => by
    simpa [Lexeme.Spellable.ident sound.2.1]
      using ⟨Sound.spellable target sound.1, SoundItems.spellable args sound.2.2.2⟩
  | .index target key, sound => by
    simpa using ⟨Sound.spellable target sound.1, Sound.spellable key sound.2⟩
  | .list ts, sound => by simpa using SoundItems.spellable ts sound
  | .map ts, sound => by simpa using SoundEntries.spellable ts sound
  | .unary _ operand, sound => by simpa using Sound.spellable operand sound.1
  | .binary _ left right, sound => by
    simpa using ⟨Sound.spellable left sound.1, Sound.spellable right sound.2⟩

theorem SoundItems.spellable : (ts : List Tree) → SoundItems ts → ∀ l ∈ itemLexemes ts, l.Spellable
  | [], _ => nofun
  | [t], sound => Sound.spellable t sound.1
  | t :: t' :: ts, sound => by
    simpa using ⟨Sound.spellable t sound.1, SoundItems.spellable (t' :: ts) sound.2⟩

theorem SoundEntries.spellable
    : (ts : List (Tree × Tree)) → SoundEntries ts → ∀ l ∈ entryLexemes ts, l.Spellable
  | [], _ => nofun
  | [(key, value)], sound => by
    simpa using ⟨Sound.spellable key sound.1, Sound.spellable value sound.2.1⟩
  | (key, value) :: entry :: rest, sound => by
    simpa using ⟨Sound.spellable key sound.1, Sound.spellable value sound.2.1,
      SoundEntries.spellable (entry :: rest) sound.2.2⟩

end

theorem Sound.read_render {t : Tree} (sound : t.Sound) (start : Position)
    : ∃ e, Expr.read t.render start = .ok e ∧ e.tree = t := by
  have spellable := sound.spellable t
  obtain ⟨tokens, scanned, same⟩ := Lexeme.scan_spellings spellable start
  refine Expr.read_ok_iff.mpr ⟨tokens, scanned, ?_, fun token member => ?_⟩
  · rw [same]
    exact (Sound.primary t sound).binary
  · exact (spellable _ (same ▸ mem_map_of_mem member)).isShort

end Tree

namespace Expr

/-- Too long a number among tokens that derive a tree halts the reading. -/
theorem exists_halt {src : List Char} {start : Position} {tokens : List Token} {t : Tree}
    (scanned : Token.scan start src = .ok tokens) (derived : Binary 0 (tokens.map Token.lexeme) t)
    (long : ∃ token ∈ tokens, ¬token.lexeme.isShort)
    : ∃ digits place, read src start = .error (.halt (.unreadNumber digits.length))
        ∧ ⟨.int digits, place⟩ ∈ tokens := by
  have settles := settles_read src start
  obtain ⟨token, member, long⟩ := long
  obtain ⟨e, descends, _⟩ := descend_ok_iff.mpr ⟨tokens, scanned, derived⟩
  match result : read src start with
  | .ok e => exact (long ((settles.ok_iff.mp result).2 tokens scanned token member)).elim
  | .error (.fault err) =>
    rw [result] at settles
    cases descends.symm.trans settles
  | .error (.halt reason) =>
    rw [result] at settles
    obtain ⟨tokens', digits, place, scanned', member, _, rfl⟩ := settles
    cases scanned.symm.trans scanned'
    exact ⟨digits, place, rfl, member⟩

/-- More digits than a number may have are not read. -/
theorem read_digits {digits : List Char} (digital : ∀ c ∈ digits, isAsciiDigit c = true)
    (long : digitLimit < digits.length) (start : Position)
    : read digits start = .error (.halt (.unreadNumber digits.length)) := by
  have scanned := Lexeme.scan_digits (ne_nil_of_length_pos (Nat.zero_lt_of_lt long)) digital start
  obtain ⟨found, place, halts, member⟩ := exists_halt scanned (Primary.int _).binary
    ⟨_, mem_cons_self, by simpa [Lexeme.isShort] using long⟩
  cases mem_singleton.mp member
  simpa using halts

/-- A text is read as a tree exactly when its tokens derive the tree in the grammar and no number among
them has too many digits. Without such a number every other text is a malformed expression, and with
one among tokens that derive a tree the reading halts at it; nothing else halts it. A tree that is
read is read back from its fully parenthesised form.
-/
theorem read_follows_grammar (src : List Char) (start : Position)
    : (∀ t, (∃ e, read src start = .ok e ∧ e.tree = t)
        ↔ ∃ tokens, Token.scan start src = .ok tokens ∧ Binary 0 (tokens.map Token.lexeme) t
          ∧ ∀ token ∈ tokens, token.lexeme.isShort)
      ∧ ((∀ tokens, Token.scan start src = .ok tokens → ∀ token ∈ tokens, token.lexeme.isShort)
        → ((∃ err, read src start = .error (.fault err) ∧ err.toFault.kind = .malformedExpression)
          ↔ ¬∃ t tokens, Token.scan start src = .ok tokens ∧ Binary 0 (tokens.map Token.lexeme) t))
      ∧ (∀ t tokens, Token.scan start src = .ok tokens → Binary 0 (tokens.map Token.lexeme) t
        → (∃ token ∈ tokens, ¬token.lexeme.isShort) → ∃ reason, read src start = .error (.halt reason))
      ∧ (∀ reason, read src start = .error (.halt reason)
        → ∃ tokens digits place, Token.scan start src = .ok tokens ∧ ⟨.int digits, place⟩ ∈ tokens
          ∧ digitLimit < digits.length ∧ reason = .unreadNumber digits.length)
      ∧ ∀ t, (∃ e, read src start = .ok e ∧ e.tree = t)
        → ∀ place, ∃ e, read t.render place = .ok e ∧ e.tree = t := by
  have settles := settles_read src start
  refine ⟨fun t => read_ok_iff, fun short => ⟨?_, fun underived => ?_⟩, ?_, ?_, fun t found => ?_⟩
  · rintro ⟨err, failed, _⟩ ⟨t, tokens, scanned, derived⟩
    obtain ⟨e, result, _⟩ := read_ok_iff.mpr ⟨tokens, scanned, derived, short tokens scanned⟩
    cases failed.symm.trans result
  · match result : read src start with
    | .ok e =>
      obtain ⟨tokens, scanned, derived, _⟩ := read_ok_iff.mp ⟨e, result, rfl⟩
      exact (underived ⟨e.tree, tokens, scanned, derived⟩).elim
    | .error (.fault err) => exact ⟨err, rfl, rfl⟩
    | .error (.halt reason) =>
      rw [result] at settles
      obtain ⟨tokens, digits, pos, scanned, member, long, -⟩ := settles
      have within := short tokens scanned _ member
      simp only [Lexeme.isShort, decide_eq_true_eq] at within
      omega
  · intro t tokens scanned derived long
    obtain ⟨digits, _, halts, _⟩ := exists_halt scanned derived long
    exact ⟨_, halts⟩
  · intro reason result
    rw [result] at settles
    exact settles
  · obtain ⟨tokens, scanned, derived, short⟩ := read_ok_iff.mp found
    exact (derived.sound (legible_of_scan scanned short)).read_render

/-- A text of one digit more than can be read derives a number, but it is not read. -/
theorem read_overlong
    : let digits := replicate (digitLimit + 1) '1'
      (∃ t tokens, Token.scan .start digits = .ok tokens ∧ Binary 0 (tokens.map Token.lexeme) t)
      ∧ ∃ reason, read digits .start = .error (.halt reason) := by
  intro digits
  have digital : ∀ c ∈ digits, isAsciiDigit c = true := fun c member => eq_of_mem_replicate member ▸ rfl
  have scanned := Lexeme.scan_digits (by simp [digits]) digital .start
  have derived := (Primary.int (String.ofList digits)).binary (n := 0)
  obtain ⟨_, _, halts, _⟩ := read_follows_grammar digits .start
  exact ⟨⟨_, _, scanned, derived⟩,
    halts _ _ scanned derived ⟨_, mem_cons_self, by simp [Lexeme.isShort, digits]⟩⟩

end Expr

end Fxml
