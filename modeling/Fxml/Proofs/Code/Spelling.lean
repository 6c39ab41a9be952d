import Fxml.Proofs.Code.Phrase
import Fxml.Proofs.Expr.Rendering

/-! The words that generated text spells: names, numbers and text constants, each up to the delimiter
that follows it.
-/

open List Fxml.Text

namespace Fxml.Code

open Number

variable {rest name : List Char}

/-! ### One word -/

/-- A text that may follow an expression in generated code. -/
def Delimited (rest : List Char) : Prop :=
  ∀ c ∈ rest.head?, c ∈ [' ', ',', ':', '.', '(', ')', '[', ']', '\x7d']

theorem delimited_nil : Delimited [] := nofun

/-- No delimiter is a part of a name, a sign or a quote. -/
theorem Delimited.plain (h : Delimited rest)
    : ∀ c ∈ rest.head?, isAsciiAlnum c = false ∧ (c == '+' || c == '-') = false ∧ c ≠ '"' := by
  intro c member
  have delimiter := h c member
  simp only [mem_cons, not_mem_nil, or_false] at delimiter
  rcases delimiter with rfl | rfl | rfl | rfl | rfl | rfl | rfl | rfl | rfl <;> decide

theorem Delimited.alnum (h : Delimited rest) : ∀ c ∈ rest.head?, Text.isAsciiAlnum c = false :=
  fun c member => (h.plain c member).1

theorem Delimited.digit (h : Delimited rest) : ∀ c ∈ rest.head?, Text.isAsciiDigit c = false :=
  fun c member => (Bool.or_eq_false_iff.mp (h.alnum c member)).2

theorem Delimited.any_alnum (h : Delimited rest) : rest.head?.any Text.isAsciiAlnum = false := by
  cases rest with
  | nil => rfl
  | cons c rest => exact h.alnum c rfl

/-- A name is read up to its delimiter. -/
theorem word?_name (named : Text.isName name = true) (h : Delimited rest)
    : word? (name ++ rest) = some (.ofName (String.ofList name), rest) := by
  cases name with
  | nil => simp [Text.isName] at named
  | cons c cs =>
    rw [Text.isName, Bool.and_eq_true, all_eq_true] at named
    obtain ⟨alpha, alnum⟩ := named
    have taken : (cs ++ rest).takeWhile Text.isAsciiAlnum = cs
        ∧ (cs ++ rest).dropWhile Text.isAsciiAlnum = rest := by
      rw [takeWhile_append_of_pos alnum, dropWhile_append_of_pos alnum]
      cases rest with
      | nil => simp
      | cons d rest => simp [h.alnum d rfl]
    have noDot : c ≠ '.' := by
      rintro rfl
      exact absurd alpha (by decide)
    rw [cons_append, word?,
      if_neg (by simp [isAsciiDigit_of_alpha alpha, noDot]), if_pos alpha, taken.1, taken.2]

theorem eq_zero_of_head_toDigits {n : Nat} (h : (Nat.toDigits 10 n).head? = some '0') : n = 0 := by
  induction n using Nat.strongRecOn with
  | ind n ih =>
    rcases Nat.lt_or_ge n 10 with small | large
    · have first : ∀ m < 10, Nat.digitChar m = '0' → m = 0 := by decide
      rw [Nat.toDigits_of_lt_base small, head?_cons, Option.some.injEq] at h
      exact first n small h
    · rw [Nat.toDigits_of_base_le (by decide) large,
        head?_append_of_ne_nil _ Nat.toDigits_ne_nil] at h
      have := ih (n / 10) (by omega) h
      omega

/-- A whole number is read up to its delimiter, which must be no point. -/
theorem number?_natural (n : Nat) (h : Delimited rest) (noPoint : rest.head? ≠ some '.')
    : number? (Nat.toDigits 10 n ++ rest) = some (.int n, rest) := by
  obtain ⟨taken, left⟩ := takeWhile_digits (@isAsciiDigit_toDigits n) h.digit
  have noPoint : point rest = (none, rest) := by
    unfold point
    split
    · exact (noPoint rfl).elim
    · rfl
  have leading : ((Nat.toDigits 10 n).head? = some '0' && (Nat.toDigits 10 n).length ≠ 1) = false := by
    rw [Bool.and_eq_false_iff, decide_eq_false_iff_not, decide_eq_false_iff_not, not_not]
    by_cases zero : n = 0
    · subst zero
      exact .inr rfl
    · exact .inl fun head => zero (eq_zero_of_head_toDigits head)
  unfold number?
  rw [taken, left, noPoint]
  dsimp only
  rw [scanExponent_none h.alnum]
  dsimp only
  rw [if_neg (by rw [h.any_alnum]; simp), if_neg (by decide), if_neg (by rw [leading]; simp),
    digitsNumber_toDigits]

/-- A numeral is read up to its delimiter, which may be a point. -/
theorem number?_numeral (n : Numeral) (h : Delimited rest)
    : number? (n.text ++ rest) = some (.real (ofDecimal false n.digits n.scale), rest) := by
  obtain ⟨taken, left⟩ := takeWhile_digits n.whole_digits (n.head_fractionText h.digit)
  have exponent := n.scanExponent_text h.alnum
  have value : exponentNumber n.exponentText - n.places.length = n.scale := by
    unfold Numeral.exponentText Numeral.scale
    rcases n.exponent with none | ⟨negative, digits⟩
    · rfl
    · cases negative <;> rfl
  have stop : ∀ c ∈ (n.exponentText ++ rest).head?, Text.isAsciiDigit c = false := by
    unfold Numeral.exponentText
    split
    · exact h.digit
    · rintro c ⟨⟩
      rfl
  unfold number?
  rw [Numeral.text, append_assoc, append_assoc, taken, left]
  by_cases places : n.places = []
  · obtain ⟨given, written⟩ := Option.isSome_iff_exists.mp (n.marked places)
    have noPoint : point (n.fractionText ++ (n.exponentText ++ rest))
        = (none, n.exponentText ++ rest) := by
      simp [Numeral.fractionText, places, Numeral.exponentText, written, point]
    have marked : n.exponentText.isEmpty = false := by
      simp [Numeral.exponentText, written]
    rw [noPoint]
    dsimp only
    rw [exponent]
    rw [if_neg (by rw [h.any_alnum]; simp), if_pos (by simp [marked]), Option.getD_none,
      Numeral.digits, ← value, places]
  · have point : point (n.fractionText ++ (n.exponentText ++ rest))
        = (some n.places, n.exponentText ++ rest) := by
      obtain ⟨taken, left⟩ := takeWhile_digits n.places_digits stop
      simp only [Numeral.fractionText, places, if_false, cons_append, point, taken, left]
    rw [point]
    dsimp only
    rw [exponent]
    rw [if_neg (by rw [h.any_alnum]; simp), if_pos (by simp), Option.getD_some, value,
      Numeral.digits]

/-- A name that is an exponent: it goes into a number before it. -/
def isExponent (name : List Char) : Bool :=
  match name with
  | e :: d :: ds => (e == 'e' || e == 'E') && (d :: ds).all Text.isAsciiDigit
  | _ => false

/-- Nothing is scanned of a letter without a sign or a digit after it. -/
theorem scanExponent_letter (letter : Char)
    (stop : ∀ c ∈ rest.head?, (c == '+' || c == '-') = false ∧ Text.isAsciiDigit c = false)
    : Token.scanExponent (letter :: rest) = ([], letter :: rest) := by
  cases rest with
  | nil => simp [Token.scanExponent]
  | cons c rest =>
    obtain ⟨noSign, noDigit⟩ := stop c rfl
    simp [Token.scanExponent, noSign, noDigit]

/-- After a name the exponent that is scanned is the name, or a letter or digit is left of it. -/
theorem scanExponent_name (named : Text.isName name = true) (h : Delimited rest)
    : if isExponent name then Token.scanExponent (name ++ rest) = (name, rest)
      else (Token.scanExponent (name ++ rest)).2.head?.any Text.isAsciiAlnum = true := by
  cases name with
  | nil => simp [Text.isName] at named
  | cons c cs =>
    rw [Text.isName, Bool.and_eq_true, all_eq_true] at named
    obtain ⟨alpha, alnum⟩ := named
    have untouched (none : Token.scanExponent (c :: (cs ++ rest)) = ([], c :: (cs ++ rest)))
        : (Token.scanExponent (c :: cs ++ rest)).2.head?.any Text.isAsciiAlnum = true := by
      simp [none, Text.isAsciiAlnum, alpha]
    by_cases letter : (c == 'e' || c == 'E') = true
    · cases cs with
      | nil =>
        exact untouched (scanExponent_letter c fun d member => ⟨(h.plain d member).2.1, h.digit d member⟩)
      | cons d ds =>
        have exponent : isExponent (c :: d :: ds) = (d :: ds).all Text.isAsciiDigit := by
          simp [isExponent, letter]
        rw [exponent]
        by_cases digit : Text.isAsciiDigit d = true
        · have scanned := @scanExponent_digits c d [] (ds ++ rest) letter (by simp) digit
          rw [nil_append, nil_append, ← cons_append] at scanned
          split
          · rename_i digital
            obtain ⟨taken, left⟩ := takeWhile_digits (List.all_eq_true.mp digital) h.digit
            rw [cons_append, scanned, taken, left]
          · -- Some character of the name is no digit and ends the run.
            rename_i mixed
            rw [cons_append, scanned, dropWhile_append]
            cases dropped : (d :: ds).dropWhile Text.isAsciiDigit with
            | nil => exact (mixed (List.all_eq_true.mpr (List.dropWhile_eq_nil_iff.mp dropped))).elim
            | cons other more =>
              have member : other ∈ d :: ds :=
                (dropWhile_sublist _).mem (dropped ▸ mem_cons_self)
              simp [alnum other member]
        · rw [all_cons, Bool.eq_false_iff.mpr digit]
          refine untouched (scanExponent_letter c ?_)
          rintro _ ⟨⟩
          exact ⟨not_sign_of_alnum (alnum d mem_cons_self), Bool.eq_false_iff.mpr digit⟩
    · have noExponent : isExponent (c :: cs) = false := by
        cases cs with
        | nil => rfl
        | cons d ds => simp [isExponent, Bool.eq_false_iff.mpr letter]
      rw [noExponent]
      exact untouched (if_neg letter)

/-- A whole number takes the point after it. A name after the point goes into the number as its
exponent, or nothing can be read.
-/
theorem number?_pointed (n : Nat) (named : Text.isName name = true) (h : Delimited rest)
    : number? (Nat.toDigits 10 n ++ '.' :: (name ++ rest))
      = if isExponent name then some (.real (ofDecimal false n (exponentNumber name)), rest)
        else none := by
  have stop : ∀ c ∈ ('.' :: (name ++ rest)).head?, Text.isAsciiDigit c = false := by
    rintro c ⟨⟩
    rfl
  obtain ⟨taken, left⟩ := takeWhile_digits (@isAsciiDigit_toDigits n) stop
  have places : point ('.' :: (name ++ rest)) = (some [], name ++ rest) := by
    cases name with
    | nil => simp [Text.isName] at named
    | cons c cs =>
      rw [Text.isName, Bool.and_eq_true] at named
      simp [point, isAsciiDigit_of_alpha named.1]
  have scanned := scanExponent_name named h
  unfold number?
  rw [taken, left, places]
  dsimp only
  split at scanned
  · rename_i exponent
    rw [scanned, if_pos exponent]
    rw [if_neg (by rw [h.any_alnum]; simp), if_pos (by simp)]
    simp [digitsNumber_toDigits]
  · rename_i noExponent
    rw [if_neg noExponent, if_pos scanned]

theorem quoted?_escape {e c : Char} (known : escapeOf? e = some c) (rest : List Char)
    : quoted? ('\\' :: e :: rest) = (quoted? rest).map (prepend c) := by
  rw [quoted?.eq_def]
  split
  · simp_all
  · simp_all
  · simp_all
  · simp_all
  · simp_all [escapeOf?]
  · rename_i same
    obtain ⟨_, same⟩ := List.cons.inj same
    obtain ⟨rfl, rfl⟩ := List.cons.inj same
    rw [known, Option.bind_some]
  · rename_i other same
    obtain ⟨first, next⟩ := List.cons.inj same
    exact (other e rest first.symm next.symm).elim

theorem quoted?_plain {c : Char} (noQuote : c ≠ '"') (noSlash : c ≠ '\\') (noLine : c ≠ '\n')
    (noReturn : c ≠ '\r') (rest : List Char)
    : quoted? (c :: rest) = (quoted? rest).map (prepend c) := by
  rw [quoted?.eq_def]
  split
  · simp_all
  · simp_all
  · simp_all
  · simp_all
  · simp_all
  · simp_all
  · rename_i same
    obtain ⟨rfl, rfl⟩ := cons.inj same
    rfl

/-! ### Escapes -/

/-- What stands for a character once all replacements are made. -/
def escapedChar (c : Char) : List Char := (escapes.lookup c).getD [c]

/-- Replacements one after the other are a single one if none of them brings in a character that a later
one replaces.
-/
theorem foldl_replaceAll {es : List (Char × List Char)}
    (apart : es.Pairwise fun earlier later => later.1 ∉ earlier.2) (cs : List Char)
    : es.foldl replaceAll cs = cs.flatMap fun c => (es.lookup c).getD [c] := by
  induction es generalizing cs with
  | nil => simp
  | cons e es ih =>
    obtain ⟨kept, apart⟩ := pairwise_cons.mp apart
    rw [foldl_cons, ih apart, replaceAll, flatMap_assoc]
    refine congrArg (cs.flatMap ·) (funext fun c => ?_)
    rw [lookup_cons]
    split
    · rename_i same
      rw [beq_iff_eq.mpr same]
      have stays : ∀ d ∈ e.2, (es.lookup d).getD [d] = [d] := by
        intro d brought
        have absent : es.lookup d = none := by
          refine lookup_eq_none_iff.mpr fun later listed => bne_iff_ne.mpr ?_
          rintro rfl
          exact kept later listed brought
        rw [absent, Option.getD_none]
      rw [flatMap_congr stays]
      simp
    · rename_i other
      rw [beq_eq_false_iff_ne.mpr other]
      simp

/-- The backslash is replaced before all others bring backslashes in. -/
theorem toList_escaped (s : String) : (escaped s).toList = s.toList.flatMap escapedChar := by
  have apart : escapes.Pairwise fun earlier later => later.1 ∉ earlier.2 := by decide
  rw [escaped, String.toList_ofList, foldl_replaceAll apart]
  rfl

/-- A character is replaced by its short escape or, if it is the null, by its code; any other one stays. -/
theorem escapedChar_cases (c : Char)
    : (∃ e, escapedChar c = ['\\', e] ∧ escapeOf? e = some c)
      ∨ c = '\x00' ∧ escapedChar c = ['\\', 'x', '0', '0']
      ∨ escapedChar c = [c] ∧ c ≠ '\\' ∧ c ≠ '"' ∧ c ≠ '\n' ∧ c ≠ '\r' := by
  by_cases known : c ∈ escapes.map Prod.fst
  · simp only [escapes, map_cons, map_nil, mem_cons, not_mem_nil, or_false] at known
    rcases known with rfl | rfl | rfl | rfl | rfl | rfl | rfl | rfl
    case inr.inr.inr.inr.inr.inr.inr => exact .inr (.inl ⟨rfl, rfl⟩)
    all_goals exact .inl ⟨_, rfl, rfl⟩
  · have absent : escapes.lookup c = none := by
      refine lookup_eq_none_iff.mpr fun e listed => bne_iff_ne.mpr ?_
      rintro rfl
      exact known (mem_map_of_mem listed)
    refine .inr (.inr ⟨by rw [escapedChar, absent, Option.getD_none], ?_, ?_, ?_, ?_⟩)
    all_goals
      rintro rfl
      exact known (by decide)

/-- Escaped characters are read back. -/
theorem quoted?_escaped (s rest : List Char)
    : quoted? (s.flatMap escapedChar ++ '"' :: rest) = some (s, rest) := by
  induction s with
  | nil => rfl
  | cons c s ih =>
    rw [flatMap_cons, append_assoc]
    rcases escapedChar_cases c with ⟨e, written, known⟩ | ⟨rfl, written⟩ | ⟨written, plain⟩
    · rw [written, cons_append, singleton_append, quoted?_escape known, ih]
      rfl
    · have zero (rest : List Char)
          : quoted? ('\\' :: 'x' :: '0' :: '0' :: rest) = (quoted? rest).map (prepend '\x00') :=
        rfl
      rw [written]
      simp only [cons_append, nil_append, zero, ih]
      rfl
    · obtain ⟨noSlash, noQuote, noLine, noReturn⟩ := plain
      rw [written, singleton_append, quoted?_plain noQuote noSlash noLine noReturn, ih]
      rfl

theorem toList_literal (s : String)
    : (literal s).toList = '"' :: (s.toList.flatMap escapedChar ++ ['"']) := by
  simp [literal, toList_escaped]

/-- A text constant is read up to its delimiter. -/
theorem word?_literal (s : String) (h : Delimited rest)
    : word? ((literal s).toList ++ rest) = some (.string s, rest) := by
  have text : (literal s).toList ++ rest = '"' :: (s.toList.flatMap escapedChar ++ '"' :: rest) := by
    simp [toList_literal]
  have single : ['"', '"'].isPrefixOf (s.toList.flatMap escapedChar ++ '"' :: rest) = false := by
    cases s.toList with
    | nil =>
      cases rest with
      | nil => rfl
      | cons c rest => simp [List.isPrefixOf, (h.plain c rfl).2.2.symm]
    | cons c cs =>
      have first : ∃ d ds, escapedChar c = d :: ds ∧ d ≠ '"' := by
        rcases escapedChar_cases c with ⟨e, written, -⟩ | ⟨-, written⟩ | ⟨written, -, noQuote, -⟩
        · exact ⟨_, _, written, by decide⟩
        · exact ⟨_, _, written, by decide⟩
        · exact ⟨_, _, written, noQuote⟩
      obtain ⟨d, ds, escaped, other⟩ := first
      simp [escaped, isPrefixOf, other.symm]
  rw [text, word?, if_neg (by simp [isAsciiDigit]), if_neg (by decide), if_pos rfl,
    if_neg (by simp [single]), quoted?_escaped]
  simp only [Option.map_some, String.ofList_toList]

end Fxml.Code
