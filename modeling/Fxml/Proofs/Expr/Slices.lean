import Fxml.Proofs.Number.Numeral
import Fxml.Proofs.Outcome

/-! What a lexeme takes of a text. A number is the longest one that stands there, a string is a
quoted text in which every code point is spelled, and everything else is taken as it is written.
-/

open List Fxml.Text Fxml.Token

namespace Fxml.Lexeme

variable {c quote e : Char} {cs exponent rest src fraction : List Char} {value : List Point}
  {l : Lexeme} {tokens : List Token} {pos : Position}

/-! ### Numbers -/

/-- At least one digit. -/
def IsDigits (cs : List Char) : Prop := cs ≠ [] ∧ ∀ c ∈ cs, isAsciiDigit c = true

/-- A point and digits, or nothing. -/
def IsFraction (cs : List Char) : Prop := cs = [] ∨ ∃ digits, IsDigits digits ∧ cs = '.' :: digits

/-- The letter of an exponent, a sign or none, and digits; or nothing. -/
def IsExponent (cs : List Char) : Prop :=
  cs = [] ∨ ∃ letter ∈ ['e', 'E'], ∃ sign ∈ [[], ['+'], ['-']], ∃ digits, IsDigits digits
    ∧ cs = letter :: (sign ++ digits)

/-- A number of the expression language. -/
def IsNumber (cs : List Char) : Prop :=
  ∃ whole fraction exponent, IsDigits whole ∧ IsFraction fraction ∧ IsExponent exponent
    ∧ cs = whole ++ fraction ++ exponent

theorem isDigits_cons (first : isAsciiDigit c = true)
    : IsDigits (c :: cs.takeWhile isAsciiDigit) := by
  refine ⟨cons_ne_nil _ _, forall_mem_cons.mpr ⟨first, fun d member => ?_⟩⟩
  exact mem_takeWhile_imp member

theorem length_le_takeWhile {p : Char → Bool} {ds : List Char} (h : ∀ c ∈ ds, p c = true)
    (rest : List Char)
    : ds.length ≤ ((ds ++ rest).takeWhile p).length := by
  rw [takeWhile_append_of_pos h, length_append]
  exact Nat.le_add_right _ _

theorem scanExponent_isExponent (cs : List Char)
    : IsExponent (scanExponent cs).1 ∧ (scanExponent cs).1 ++ (scanExponent cs).2 = cs := by
  unfold scanExponent
  split
  · rename_i e rest
    split
    · rename_i letter
      dsimp only
      split
      · rename_i found
        rw [Bool.and_eq_true, decide_eq_true_eq] at found
        obtain ⟨short, digit⟩ := found
        have signs := takeWhile_append_dropWhile (p := fun c => c == '+' || c == '-') (l := rest)
        have after : rest.drop (rest.takeWhile fun c => c == '+' || c == '-').length
            = rest.dropWhile fun c => c == '+' || c == '-' :=
          (congrArg (drop _) signs).symm.trans drop_left
        rw [after] at digit ⊢
        constructor
        · refine .inr ⟨e, by simpa using letter, _, ?_, _, ?_, rfl⟩
          · have members (c) (member : c ∈ rest.takeWhile fun c => c == '+' || c == '-')
                : c = '+' ∨ c = '-' := by
              simpa using mem_takeWhile_imp member
            match sign : rest.takeWhile fun c => c == '+' || c == '-' with
            | [] => simp
            | [c] =>
              rcases members c (by simp [sign]) with rfl | rfl <;> simp
            | _ :: _ :: _ => simp [sign] at short
          · cases digits : rest.dropWhile fun c => c == '+' || c == '-' with
            | nil => simp [digits] at digit
            | cons d ds =>
              have first : isAsciiDigit d = true := by simpa [digits] using digit
              rw [takeWhile_cons, if_pos first]
              exact isDigits_cons first
        · simp only [cons_append, append_assoc, takeWhile_append_dropWhile, signs]
      · exact ⟨.inl rfl, rfl⟩
    · exact ⟨.inl rfl, rfl⟩
  · exact ⟨.inl rfl, rfl⟩

theorem scanFraction_isFraction (cs : List Char)
    : IsFraction (scanFraction cs).1 ∧ (scanFraction cs).1 ++ (scanFraction cs).2 = cs := by
  fun_cases scanFraction cs with
  | case1 d rest first =>
    refine ⟨.inr ⟨_, isDigits_cons first, rfl⟩, ?_⟩
    simp only [cons_append, takeWhile_append_dropWhile]
  | case2 => exact ⟨.inl rfl, rfl⟩
  | case3 => exact ⟨.inl rfl, rfl⟩

/-- No longer exponent stands at the front of a text. -/
theorem length_le_scanExponent (h : IsExponent exponent) (rest : List Char)
    : exponent.length ≤ (scanExponent (exponent ++ rest)).1.length := by
  obtain rfl | ⟨letter, isLetter, sign, isSign, digits, ⟨nonempty, digital⟩, rfl⟩ := h
  · exact Nat.zero_le _
  · obtain ⟨d, ds, rfl⟩ := exists_cons_of_ne_nil nonempty
    have scanned := @Number.scanExponent_digits letter d sign (ds ++ rest) (by simpa using isLetter)
      isSign (digital d mem_cons_self)
    have := length_le_takeWhile digital rest
    simp only [cons_append, append_assoc, scanned, length_cons, length_append] at this ⊢
    omega

/-- What follows a fraction starts neither with a digit nor with a point. -/
theorem head_exponent (h : IsExponent exponent) (nonempty : exponent ≠ []) (rest : List Char)
    : ∀ c ∈ (exponent ++ rest).head?, isAsciiDigit c = false ∧ c ≠ '.' := by
  obtain rfl | ⟨letter, isLetter, sign, -, digits, -, rfl⟩ := h
  · exact (nonempty rfl).elim
  · rintro c ⟨⟩
    simp only [mem_cons, not_mem_nil, or_false] at isLetter
    rcases isLetter with rfl | rfl <;> decide

/-- No longer fraction with an exponent stands at the front of a text. -/
theorem length_le_scanFraction (isFraction : IsFraction fraction) (isExponent : IsExponent exponent)
    (rest : List Char)
    : fraction.length + exponent.length
      ≤ (scanFraction (fraction ++ (exponent ++ rest))).1.length
        + (scanExponent (scanFraction (fraction ++ (exponent ++ rest))).2).1.length := by
  obtain rfl | ⟨digits, ⟨nonempty, digital⟩, rfl⟩ := isFraction
  · by_cases none : exponent = []
    · simp [none]
    · have none : scanFraction (exponent ++ rest) = ([], exponent ++ rest) := by
        unfold scanFraction
        split
        · rename_i same
          exact ((head_exponent isExponent none rest '.' (by rw [same]; rfl)).2 rfl).elim
        · rfl
      rw [nil_append, none]
      simpa using length_le_scanExponent isExponent rest
  · obtain ⟨d, ds, rfl⟩ := exists_cons_of_ne_nil nonempty
    rw [forall_mem_cons] at digital
    by_cases none : exponent = []
    · subst none
      have := length_le_takeWhile digital.2 rest
      simp only [cons_append, nil_append, scanFraction, digital.1, if_true, length_cons, length_nil]
      omega
    · obtain ⟨taken, left⟩ := Number.takeWhile_digits digital.2
        fun c member => (head_exponent isExponent none rest c member).1
      simp only [cons_append, scanFraction, digital.1, if_true, taken, left]
      exact Nat.add_le_add_left (length_le_scanExponent isExponent rest) _

theorem length_le_scanNumber {longer : List Char} (h : IsNumber longer) (rest : List Char)
    : longer.length
      ≤ ((longer ++ rest).takeWhile isAsciiDigit).length
        + (scanFraction ((longer ++ rest).dropWhile isAsciiDigit)).1.length
        + (scanExponent (scanFraction ((longer ++ rest).dropWhile isAsciiDigit)).2).1.length := by
  obtain ⟨whole, fraction, exponent, ⟨-, digital⟩, isFraction, isExponent, rfl⟩ := h
  by_cases none : fraction = [] ∧ exponent = []
  · obtain ⟨rfl, rfl⟩ := none
    have := length_le_takeWhile digital rest
    simp only [append_nil]
    omega
  · -- What follows the digits is a point or a letter, so the digits end there.
    have stop : ∀ c ∈ (fraction ++ (exponent ++ rest)).head?, isAsciiDigit c = false := by
      obtain rfl | ⟨digits, -, rfl⟩ := isFraction
      · exact fun c member =>
          (head_exponent isExponent (fun empty => none ⟨rfl, empty⟩) rest c member).1
      · rintro c ⟨⟩
        rfl
    obtain ⟨taken, left⟩ := Number.takeWhile_digits digital stop
    have := length_le_scanFraction isFraction isExponent rest
    simp only [append_assoc, taken, left, length_append]
    omega

/-! ### Strings -/

/-- The letters that stand for another character after a backslash, and those that stand for
themselves.
-/
def shortEscapes : List (Char × Char) :=
  [('n', '\n'), ('r', '\r'), ('t', '\t'), ('\\', '\\'), ('"', '"'), ('\'', '\'')]

/-- How a code point can be written between quotes. -/
inductive Spells (quote : Char) : List Char → Point → Prop where
  | plain {c : Char} (other : c ≠ quote) (solid : c ≠ '\\') : Spells quote [c] (.char c)
  | short {e c : Char} (known : (e, c) ∈ shortEscapes) : Spells quote ['\\', e] (.char c)
  | code {digits : List Char} {p : Point} (four : digits.length = 4)
    (hex : ∀ d ∈ digits, isAsciiHex d = true) (number : hexNumber digits = p.code)
    : Spells quote ('\\' :: 'u' :: digits) p

theorem mem_shortEscapes : (e, c) ∈ shortEscapes ↔ escape? e = some c := by
  unfold escape?
  split <;> simp_all [shortEscapes, eq_comm]

theorem hexValue_lt (c : Char) : hexValue c < 16 := by
  have digit (low high : Char) (h : (decide (low ≤ c) && decide (c ≤ high)) = true)
      : low.toNat ≤ c.toNat ∧ c.toNat ≤ high.toNat := by
    rw [Bool.and_eq_true, decide_eq_true_eq, decide_eq_true_eq] at h
    exact h
  unfold hexValue
  split
  · rename_i found
    have := digit '0' '9' found
    simp only [Char.reduceToNat] at this ⊢
    omega
  split
  · rename_i found
    have := digit 'a' 'f' found
    simp only [Char.reduceToNat] at this ⊢
    omega
  split
  · rename_i found
    have := digit 'A' 'F' found
    simp only [Char.reduceToNat] at this ⊢
    omega
  · decide

theorem isValidChar_iff (n : Nat)
    : n.isValidChar ↔ n < 0x110000 ∧ ¬(0xD800 ≤ n ∧ n < 0xE000) := by
  unfold Nat.isValidChar
  omega

/-- The number of a code point determines it. -/
theorem code_ofNat {n : Nat} (small : n < 0x110000) : (Point.ofNat n).code = n := by
  unfold Point.ofNat
  split
  · rename_i valid
    rw [Point.code, Char.ofNat, dif_pos valid]
    rfl
  · rename_i half
    rw [isValidChar_iff] at half
    change 0xD800 + (n - 0xD800) % 2048 = n
    omega

theorem ofNat_code (p : Point) : Point.ofNat p.code = p := by
  unfold Point.ofNat
  cases p with
  | char c =>
    have valid : c.toNat.isValidChar := c.valid
    rw [Point.code, if_pos valid, Char.ofNat_toNat]
  | half n =>
    have bound := n.isLt
    rw [Point.code, if_neg (by rw [isValidChar_iff]; omega), Nat.add_sub_cancel_left]
    exact congrArg Point.half (Fin.ext (Nat.mod_eq_of_lt bound))

theorem spells_code {a b d : Char} (hex : [a, b, c, d].all isAsciiHex = true)
    : Spells quote ['\\', 'u', a, b, c, d] (.ofNat (hexNumber [a, b, c, d])) := by
  rw [all_eq_true] at hex
  have small : hexNumber [a, b, c, d] < 65536 := by
    have := hexValue_lt a
    have := hexValue_lt b
    have := hexValue_lt c
    have := hexValue_lt d
    simp only [hexNumber, foldl_cons, foldl_nil]
    omega
  exact .code rfl hex (code_ofNat (by omega)).symm

theorem exists_of_map_prepend {p : Point} {scanned : Except Flaw (List Point × List Char)}
    (h : scanned.map (prepend p) = .ok (value, rest))
    : ∃ tail, scanned = .ok (tail, rest) ∧ value = p :: tail := by
  obtain ⟨⟨tail, rest'⟩, found, same⟩ := exists_of_map_ok h
  cases same
  exact ⟨tail, found, rfl⟩

theorem scanString_escape {quote c : Char} (known : escape? e = some c) (offset : Nat)
    (rest : List Char)
    : scanString quote offset ('\\' :: e :: rest)
      = (scanString quote (offset + 2) rest).map (prepend (.char c)) := by
  rw [scanString.eq_def]
  split
  · simp_all
  · simp_all
  · simp_all [escape?]
  · simp_all [escape?]
  · rename_i same
    obtain ⟨_, same⟩ := cons.inj same
    obtain ⟨rfl, rfl⟩ := cons.inj same
    rw [known]
  · rename_i other same
    obtain ⟨first, next⟩ := cons.inj same
    exact (other e rest first.symm next.symm).elim

/-- A scanned string is spelled up to its closing quote. -/
theorem exists_pieces_of_scanString {offset : Nat}
    (h : scanString quote offset cs = .ok (value, rest))
    : ∃ pieces, cs = pieces.flatten ++ quote :: rest ∧ Forall₂ (Spells quote) pieces value := by
  have next {piece tail : List Char} {value' : List Point} {p : Point} (spells : Spells quote piece p)
      (found : ∃ pieces, tail = pieces.flatten ++ quote :: rest
        ∧ Forall₂ (Spells quote) pieces value')
      : ∃ pieces, piece ++ tail = pieces.flatten ++ quote :: rest
        ∧ Forall₂ (Spells quote) pieces (p :: value') := by
    obtain ⟨pieces, rfl, spelled⟩ := found
    exact ⟨piece :: pieces, by simp, .cons spells spelled⟩
  fun_induction scanString quote offset cs generalizing value with
  | case1 | case2 | case4 | case5 | case7 => cases h
  | case3 offset a b c d tail hex ih =>
    obtain ⟨value', scanned, rfl⟩ := exists_of_map_prepend h
    exact next (spells_code hex) (ih scanned)
  | case6 offset e tail _ _ c known ih =>
    obtain ⟨value', scanned, rfl⟩ := exists_of_map_prepend h
    exact next (.short (mem_shortEscapes.mpr known)) (ih scanned)
  | case8 offset c tail _ _ _ _ same =>
    cases h
    exact ⟨[], by simp [beq_iff_eq.mp same], .nil⟩
  | case9 offset c tail noEnd _ _ noEscape other ih =>
    obtain ⟨value', scanned, rfl⟩ := exists_of_map_prepend h
    have solid : c ≠ '\\' := by
      rintro rfl
      cases tail with
      | nil => exact noEnd rfl rfl
      | cons e more => exact noEscape e more rfl rfl
    exact next (.plain (by simpa using other) solid) (ih scanned)

/-- However a text is spelled between quotes, it is scanned up to the closing quote. -/
theorem scanString_pieces (quotes : quote = '"' ∨ quote = '\'') {pieces : List (List Char)}
    (spelled : List.Forall₂ (Spells quote) pieces value) (offset : Nat) (rest : List Char)
    : Token.scanString quote offset (pieces.flatten ++ quote :: rest) = .ok (value, rest) := by
  induction spelled generalizing offset with
  | nil =>
    rw [flatten_nil, nil_append, Token.scanString.eq_def]
    split <;> simp_all
  | @cons piece p pieces value first _ ih =>
    rw [flatten_cons, append_assoc]
    cases first with
    | plain other solid =>
      rw [singleton_append, Token.scanString.eq_def]
      split <;> simp_all [Except.map, Token.prepend]
    | short known =>
      rw [cons_append, singleton_append, scanString_escape (mem_shortEscapes.mp known), ih]
      rfl
    | @code digits p four hex number =>
      obtain ⟨a, b, c, d, rfl⟩ := length_eq_four.mp four
      have all : [a, b, c, d].all Text.isAsciiHex = true := List.all_eq_true.mpr hex
      simp only [cons_append, nil_append]
      rw [Token.scanString, if_pos all, ih, number, ofNat_code]
      rfl

theorem hexDigits_four {n : Nat} (low : 0x1000 ≤ n) (high : n < 0x10000)
    : hexDigits 4 n = [n / 16 / 16 / 16, n / 16 / 16 % 16, n / 16 % 16, n % 16].map Nat.digitChar := by
  have digits : Nat.toDigits 16 n
      = [n / 16 / 16 / 16, n / 16 / 16 % 16, n / 16 % 16, n % 16].map Nat.digitChar := by
    rw [Nat.toDigits_of_base_le (by decide) (by omega), Nat.toDigits_of_base_le (by decide) (by omega),
      Nat.toDigits_of_base_le (by decide) (by omega), Nat.toDigits_of_lt_base (by omega)]
    rfl
  unfold hexDigits
  rw [digits]
  rfl

/-- Half of a surrogate pair as it is shown. -/
theorem spells_half (n : Fin 2048) : Spells quote (Point.half n).shown (.half n) := by
  have bound := n.isLt
  have digit : ∀ k : Fin 16, isAsciiHex k.1.digitChar = true ∧ hexValue k.1.digitChar = k := by
    decide
  have hex {k : Nat} (small : k < 16) := digit ⟨k, small⟩
  rw [Point.shown, hexDigits_four (by omega) (by omega)]
  refine .code rfl ?_ ?_
  · simp only [map_cons, map_nil, forall_mem_cons]
    exact ⟨(hex (by omega)).1, (hex (by omega)).1, (hex (by omega)).1, (hex (by omega)).1, forall_mem_nil _⟩
  · simp only [map_cons, map_nil, hexNumber, foldl_cons, foldl_nil, Point.code]
    rw [(hex (by omega)).2, (hex (by omega)).2, (hex (by omega)).2, (hex (by omega)).2]
    dsimp only
    omega

/-- Every code point can be written between quotes. -/
theorem exists_spelling (quote : Char) (quotes : quote = '"' ∨ quote = '\'') (p : Point)
    : ∃ piece, Spells quote piece p := by
  cases p with
  | half n => exact ⟨_, spells_half n⟩
  | char c =>
    by_cases slash : c = '\\'
    · subst slash
      exact ⟨['\\', '\\'], .short (by simp [shortEscapes])⟩
    · by_cases same : c = quote
      · refine ⟨['\\', c], .short ?_⟩
        rcases quotes with rfl | rfl <;> simp [same, shortEscapes]
      · exact ⟨[c], .plain same slash⟩

/-! ### Lexemes -/

/-- The code points of a string. -/
def points? : Lexeme → Option (List Point)
  | .string value => some (value.toList.map .char)
  | .halves value => some value.points
  | _ => none

theorem points?_ofPoints (points : List Point) : (ofPoints points).points? = some points := by
  unfold ofPoints
  split
  · rfl
  · rename_i whole
    rw [points?, String.toList_ofList]
    congr 1
    induction points with
    | nil => rfl
    | cons p points ih =>
      cases p with
      | half n => simp [Point.char?] at whole
      | char c =>
        simp only [any_cons, Point.char?, Option.isNone_some, Bool.false_or] at whole
        simp [Point.char?, ih whole]

/-- A string is known by its code points. -/
theorem ofPoints_of_points? (h : l.points? = some value) : ofPoints value = l := by
  unfold ofPoints
  cases l with
  | string s =>
    cases h
    have whole : ¬(s.toList.map Point.char).any (·.char?.isNone) = true := by simp [Point.char?]
    rw [dif_neg whole, filterMap_map]
    simp [Function.comp_def, Point.char?]
  | halves v =>
    cases h
    exact dif_pos v.broken
  | _ => cases h

/-- What a slice of a text stands for: numbers, names and symbols are taken as they are written. -/
inductive Decodes : List Char → Lexeme → Prop where
  | int {slice : List Char} (digits : IsDigits slice) : Decodes slice (.int (String.ofList slice))
  | float {slice : List Char} (number : IsNumber slice) (marked : ¬IsDigits slice)
    : Decodes slice (.float (String.ofList slice))
  | ident {slice : List Char} (named : isName slice = true)
    : Decodes slice (.ident (String.ofList slice))
  | symbol (s : Symbol) : Decodes s.text.toList (.symbol s)
  | string {quote : Char} {pieces : List (List Char)} {points : List Point} {l : Lexeme}
    (quotes : quote = '"' ∨ quote = '\'') (spelled : Forall₂ (Spells quote) pieces points)
    (value : l.points? = some points)
    : Decodes (quote :: (pieces.flatten ++ [quote])) l

/-- Whether a lexeme is a number. -/
def isNumeric : Lexeme → Bool
  | .int _ | .float _ => true
  | _ => false

/-- No number at the front of a text has more characters than the slice. -/
def Longest (slice text : List Char) : Prop :=
  ∀ longer, IsNumber longer → longer <+: text → longer.length ≤ slice.length

theorem not_isDigits_of_marked {whole : List Char} (isFraction : IsFraction fraction)
    (isExponent : IsExponent exponent) (marked : (fraction.isEmpty && exponent.isEmpty) = false)
    : ¬IsDigits (whole ++ fraction ++ exponent) := by
  rintro ⟨-, digital⟩
  simp only [forall_mem_append] at digital
  obtain rfl | ⟨digits, -, rfl⟩ := isFraction
  · obtain rfl | ⟨letter, isLetter, sign, -, digits, -, rfl⟩ := isExponent
    · cases marked
    · have digit := digital.2 letter mem_cons_self
      simp only [mem_cons, not_mem_nil, or_false] at isLetter
      rcases isLetter with rfl | rfl <;> exact absurd digit (by decide)
  · exact absurd (digital.1.2 '.' mem_cons_self) (by decide)

theorem exists_slice_of_scanNumber (first : isAsciiDigit c = true)
    (h : scanNumber (c :: cs) = .ok (l, rest))
    : ∃ slice, c :: cs = slice ++ rest ∧ Decodes slice l ∧ Longest slice (c :: cs) := by
  have digits : IsDigits ((c :: cs).takeWhile isAsciiDigit) := by
    rw [takeWhile_cons, if_pos first]
    exact isDigits_cons first
  have whole := takeWhile_append_dropWhile (p := isAsciiDigit) (l := c :: cs)
  have longest (longer) (number : IsNumber longer) (found : longer <+: c :: cs)
      : longer.length
        ≤ ((c :: cs).takeWhile isAsciiDigit).length
          + (scanFraction ((c :: cs).dropWhile isAsciiDigit)).1.length
          + (scanExponent (scanFraction ((c :: cs).dropWhile isAsciiDigit)).2).1.length := by
    obtain ⟨after, same⟩ := found
    rw [← same]
    exact length_le_scanNumber number after
  unfold scanNumber at h
  dsimp only at h
  obtain ⟨isFraction, fractionRest⟩ :=
    scanFraction_isFraction ((c :: cs).dropWhile isAsciiDigit)
  obtain ⟨isExponent, exponentRest⟩ :=
    scanExponent_isExponent (scanFraction ((c :: cs).dropWhile isAsciiDigit)).2
  -- How the three parts were found no longer matters, only what they are.
  generalize (c :: cs).takeWhile isAsciiDigit = digitText at *
  generalize (c :: cs).dropWhile isAsciiDigit = afterDigits at *
  generalize scanFraction afterDigits = fraction at *
  generalize scanExponent fraction.2 = exponent at *
  have scanned : l = scanNumber.number fraction.1 exponent.1 (digitText ++ fraction.1 ++ exponent.1)
      ∧ rest = exponent.2 := by
    split at h
    · split at h
      · cases h
      · cases h
        exact ⟨rfl, rfl⟩
    · cases h
      exact ⟨rfl, rfl⟩
  obtain ⟨rfl, rfl⟩ := scanned
  refine ⟨digitText ++ fraction.1 ++ exponent.1, ?_, ?_, fun longer number found => ?_⟩
  · rw [append_assoc, append_assoc, exponentRest, fractionRest, whole]
  · unfold scanNumber.number
    split
    · rename_i empty
      rw [Bool.and_eq_true, List.isEmpty_iff, List.isEmpty_iff] at empty
      rw [empty.1, empty.2, append_nil, append_nil]
      exact .int digits
    · rename_i marked
      exact .float ⟨digitText, fraction.1, exponent.1, digits, isFraction, isExponent, rfl⟩
        (not_isDigits_of_marked isFraction isExponent (Bool.eq_false_iff.mpr marked))
  · have := longest longer number found
    simp only [length_append]
    omega

theorem text_of_scan? {s : Symbol} (h : Symbol.scan? cs = some (s, rest))
    : cs = s.text.toList ++ rest := by
  unfold Symbol.scan? at h
  split at h <;> cases h <;> rfl

/-- A scanned lexeme stands for a slice at the front of the text. A number is the longest one there. -/
theorem exists_slice_of_scanLexeme (h : scanLexeme cs = .ok (l, rest))
    : ∃ slice, cs = slice ++ rest ∧ Decodes slice l ∧ (l.isNumeric = true → Longest slice cs) := by
  unfold scanLexeme at h
  split at h
  · cases h
  · rename_i c tail
    split at h
    · rename_i digit
      obtain ⟨slice, same, decodes, longest⟩ := exists_slice_of_scanNumber digit h
      exact ⟨slice, same, decodes, fun _ => longest⟩
    · split at h
      · rename_i alpha
        cases h
        refine ⟨c :: tail.takeWhile isAsciiAlnum, ?_, .ident ?_, by simp [isNumeric]⟩
        · rw [cons_append, takeWhile_append_dropWhile]
        · rw [isName, alpha, Bool.true_and, all_eq_true]
          exact fun c member => mem_takeWhile_imp member
      · split at h
        · rename_i quotes
          obtain ⟨⟨value, rest'⟩, scanned, same⟩ := exists_of_map_ok h
          cases same
          obtain ⟨pieces, rfl, spelled⟩ := exists_pieces_of_scanString scanned
          have points := points?_ofPoints value
          refine ⟨c :: (pieces.flatten ++ [c]), by simp,
            .string (by simpa using quotes) spelled points, fun numeric => ?_⟩
          revert points numeric
          cases ofPoints value <;> simp [isNumeric, points?]
        · split at h
          · rename_i s rest' found
            cases h
            exact ⟨s.text.toList, text_of_scan? found, .symbol s, by simp [isNumeric]⟩
          · cases h

theorem Decodes.ne_nil {slice : List Char} (decodes : Decodes slice l) : slice ≠ [] := by
  cases decodes with
  | int digits => exact digits.1
  | float number =>
    obtain ⟨whole, _, _, ⟨nonempty, _⟩, _, _, rfl⟩ := number
    simp [nonempty]
  | ident named =>
    rintro rfl
    cases named
  | symbol s => cases s <;> decide
  | string => exact cons_ne_nil _ _

/-! ### Whole texts -/

/-- Tokens and the blanks between them make up a text that starts at a place. Each token stands for a
slice of the text and has the place where the slice starts.
-/
inductive Laid : Position → List Char → List Token → Prop where
  | done (pos : Position) : Laid pos [] []
  | blank {pos : Position} {c : Char} {rest : List Char} {tokens : List Token}
    (space : isSpace c = true) (after : Laid (pos.right 1) rest tokens)
    : Laid pos (c :: rest) tokens
  | token {pos : Position} {slice rest : List Char} {l : Lexeme} {tokens : List Token}
    (decodes : Decodes slice l) (longest : l.isNumeric = true → Longest slice (slice ++ rest))
    (after : Laid (pos.right slice.length) rest tokens)
    : Laid pos (slice ++ rest) (⟨l, pos⟩ :: tokens)

theorem scan_of_lexeme {rest after : List Char} (pos : Position) (solid : isSpace c = false)
    (h : scanLexeme (c :: rest) = .ok (l, after))
    : scan pos (c :: rest)
      = (scan (pos.right ((c :: rest).length - after.length)) after).map
          fun tokens => ⟨l, pos⟩ :: tokens := by
  rw [scan, if_neg (by simp [solid])]
  split
  · rename_i failed
    cases h.symm.trans failed
  · rename_i scanned
    cases h.symm.trans scanned
    rfl

theorem laid_of_scan (h : scan pos src = .ok tokens)
    : Laid pos src tokens := by
  fun_induction scan pos src generalizing tokens with
  | case1 pos =>
    cases h
    exact .done pos
  | case2 _ _ _ space ih => exact .blank space (ih h)
  | case3 => cases h
  | case4 pos c rest _ l after scanned _ ih =>
    obtain ⟨others, found, rfl⟩ := exists_of_map_ok h
    obtain ⟨slice, same, decodes, longest⟩ := exists_slice_of_scanLexeme scanned
    have laid := ih found
    rw [same] at laid longest ⊢
    rw [length_append, Nat.add_sub_cancel] at laid
    exact .token decodes longest laid

theorem Laid.exists_slice (laid : Laid pos src tokens) {t : Token} (member : t ∈ tokens)
    : ∃ before slice after, src = before ++ (slice ++ after) ∧ t.pos = pos.right before.length
        ∧ Decodes slice t.lexeme := by
  induction laid with
  | done => cases member
  | @blank pos c rest tokens _ _ ih =>
    obtain ⟨before, slice, after, rfl, place, decodes⟩ := ih member
    refine ⟨c :: before, slice, after, rfl, ?_, decodes⟩
    rw [place, length_cons]
    simp only [Position.right, Position.mk.injEq, true_and]
    omega
  | @token pos front rest l tokens decodes _ _ ih =>
    rcases mem_cons.mp member with rfl | member
    · exact ⟨[], front, rest, rfl, rfl, decodes⟩
    · obtain ⟨before, slice, after, rfl, place, decodes⟩ := ih member
      refine ⟨front ++ before, slice, after, by simp, ?_, decodes⟩
      rw [place, length_append]
      simp only [Position.right, Position.mk.injEq, true_and]
      omega

end Fxml.Lexeme
