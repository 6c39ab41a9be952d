import Mathlib.Data.List.TakeWhile
import Fxml.Proofs.Text.Lines
import Fxml.Proofs.Xml.Content
import Fxml.Xml.Reference

/-! Character data as it stands in a text: a character is written as itself, as a reference or as a line
end of two characters. References are also read on their own, and then they stand for the same.
-/

open List

namespace Fxml.Xml

/-! ### Pieces -/

/-- A character as it stands in the source, and as it is shown. -/
structure Piece where
  source : List Char
  shown : Char

/-- A character that is no line end. -/
def isFlat (c : Char) : Bool := c != '\n' && c != '\r'

/-- The text of a reference between its ampersand and its semicolon. -/
inductive IsBody : List Char → Prop
  | hex {run} (found : run ≠ []) (digits : run.all Text.isAsciiHex) : IsBody ('#' :: 'x' :: run)
  | decimal {run} (found : run ≠ []) (digits : run.all Text.isAsciiDigit) : IsBody ('#' :: run)
  | name {run} (chars : run.all isNameChar) : IsBody run

/-- What a piece of character data looks like in front of the text that follows it. -/
inductive Piece.Stands : Piece → List Char → Prop
  | plain {c following} (other : c ≠ '&' ∧ c ≠ '\r') : Stands ⟨[c], c⟩ following
  | reference {body d following} (decoded : decodeReference body = .ok (some d))
      (within : IsBody body)
    : Stands ⟨'&' :: body ++ [';'], d⟩ following
  | pair {following} : Stands ⟨['\r', '\n'], '\n'⟩ following
  | lone {following} (alone : following.head? ≠ some '\n') : Stands ⟨['\r'], '\n'⟩ following

def sources (pieces : List Piece) : List Char := pieces.flatMap (·.source)

@[simp] theorem sources_cons (piece : Piece) (pieces : List Piece)
    : sources (piece :: pieces) = piece.source ++ sources pieces :=
  flatMap_cons

@[simp] theorem sources_append (pieces pieces' : List Piece)
    : sources (pieces ++ pieces') = sources pieces ++ sources pieces' :=
  flatMap_append

/-- Pieces as they stand in front of other text. -/
def Spelled : List Piece → List Char → Prop
  | [], _ => True
  | piece :: pieces, tail => piece.Stands (sources pieces ++ tail) ∧ Spelled pieces tail

theorem Spelled.right {passed pieces : List Piece} {tail : List Char} (h : Spelled (passed ++ pieces) tail)
    : Spelled pieces tail := by
  induction passed with
  | nil => exact h
  | cons piece passed ih => exact ih h.2

variable {cs more body text : List Char} {rest : Rest cs} {p : Char → Bool}

theorem takeRun_eq (p : Char → Bool) (cs : List Char)
    : cs = (takeRun p cs).1 ++ (takeRun p cs).2.1 ∧ (takeRun p cs).1.all p :=
  ⟨takeWhile_append_dropWhile.symm, all_takeWhile⟩

theorem scanName_eq {name : String} (h : scanName cs = .ok (name, rest))
    : cs = name.toList ++ rest.1 ∧ name.toList.all isNameChar := by
  unfold scanName at h
  split at h
  · cases h
  rename_i c more
  split at h
  · rename_i starts
    obtain ⟨whole, all⟩ := takeRun_eq isNameChar more
    dsimp only at h
    split at h
    · cases h
    cases h
    rw [String.toList_ofList, all_cons, all, isNameChar, starts]
    exact ⟨congrArg (c :: ·) whole, rfl⟩
  · cases h

/-- A reference ends with its first semicolon, and no line ends in it. -/
theorem IsBody.closed (h : IsBody body) : ';' ∉ body ∧ body.all isFlat := by
  have run_closed {p : Char → Bool} (other : [';', '\n', '\r'].all (!p ·)) {run : List Char}
      (all : run.all p)
      : ';' ∉ run ∧ run.all isFlat := by
    simp only [all_eq_true, isFlat] at *
    grind
  cases h with
  | hex _ digits =>
    have closed := run_closed (by decide) digits
    simpa [isFlat] using closed
  | decimal _ digits =>
    have closed := run_closed (by decide) digits
    simpa [isFlat] using closed
  | name chars => exact run_closed (by decide) chars

theorem scanReference.digits_eq {mark : List Char} {within : more <:+ cs}
    (h : digits p mark more within = .ok (body, rest))
    : ∃ run, body = mark ++ run ∧ more = run ++ ';' :: rest.1 ∧ run ≠ [] ∧ run.all p := by
  obtain ⟨whole, all⟩ := takeRun_eq p more
  unfold digits at h
  dsimp only at h
  split at h
  · cases h
  rename_i found
  split at h
  · rename_i after _ same _
    cases h
    refine ⟨_, rfl, same ▸ whole, ?_, all⟩
    simpa using found
  · cases h

theorem scanReference_eq (h : scanReference cs = .ok (body, rest))
    : cs = body ++ ';' :: rest.1 ∧ IsBody body := by
  unfold scanReference at h
  split at h
  · obtain ⟨run, rfl, whole, some, all⟩ := scanReference.digits_eq h
    exact ⟨congrArg ('#' :: 'x' :: ·) whole, .hex some all⟩
  · obtain ⟨run, rfl, whole, some, all⟩ := scanReference.digits_eq h
    exact ⟨congrArg ('#' :: ·) whole, .decimal some all⟩
  · obtain ⟨⟨name, after⟩, scanned, h⟩ := exists_of_bind_ok h
    obtain ⟨whole, all⟩ := scanName_eq scanned
    dsimp only at h
    split at h
    · cases h
      refine ⟨?_, .name all⟩
      simp_all
    · cases h

theorem stands_of_scanPiece {c d : Char} {rest : Rest more} (h : scanPiece c more = .ok (d, rest))
    : ∃ source, c :: more = source ++ rest.1 ∧ Piece.Stands ⟨source, d⟩ rest.1 := by
  unfold scanPiece at h
  split at h
  · rename_i ampersand
    cases eq_of_beq ampersand
    split at h
    · cases h
    rename_i scanned
    obtain ⟨whole, within⟩ := scanReference_eq scanned
    split at h
    · cases h
    · cases h
    rename_i decoded
    cases h
    exact ⟨_, by simpa using whole, .reference decoded within⟩
  split at h
  · rename_i isReturn
    cases eq_of_beq isReturn
    split at h
    · cases h
      exact ⟨_, rfl, .pair⟩
    · rename_i alone
      cases h
      refine ⟨_, rfl, .lone fun head => ?_⟩
      obtain ⟨after, eq⟩ := head?_eq_some_iff.mp head
      exact alone after eq
  split at h
  · cases h
  split at h
  · cases h
    exact ⟨_, rfl, .plain (by grind)⟩
  · cases h

/-- A text starts with character data that shows the given characters. -/
def Spells (cs text tail : List Char) : Prop :=
  ∃ pieces, cs = sources pieces ++ tail ∧ text = pieces.map (·.shown) ∧ Spelled pieces tail

theorem spells_cons {c d : Char} {tail : List Char} {rest : Rest more}
    (first : scanPiece c more = .ok (d, rest)) (later : Spells rest.1 text tail)
    : Spells (c :: more) (d :: text) tail := by
  obtain ⟨source, whole, stands⟩ := stands_of_scanPiece first
  obtain ⟨pieces, eq, rfl, spelled⟩ := later
  refine ⟨⟨source, d⟩ :: pieces, ?_, rfl, eq ▸ stands, spelled⟩
  simp [whole, eq]

theorem spells_of_scanText (h : scanText cs = .ok (text, rest))
    : Spells cs text rest.1 := by
  induction size : cs.length using Nat.strongRecOn generalizing cs text with
  | _ size ih =>
    subst size
    unfold scanText at h
    split at h
    · cases h
      exact ⟨[], rfl, rfl, trivial⟩
    split at h
    · cases h
      exact ⟨[], rfl, rfl, trivial⟩
    obtain ⟨⟨d, after⟩, first, h⟩ := exists_of_bind_ok h
    obtain ⟨⟨text, final⟩, later, h⟩ := exists_of_bind_ok h
    cases h
    exact spells_cons first (ih _ (Nat.lt_succ_of_le after.2.length_le) later rfl)

/-- The character data of a document stands in its text at its offset. -/
theorem exists_pieces {events : List Event} {offset : Nat} {raw value : String}
    (h : read cs = .ok events) (mem : .text offset raw value ∈ events)
    : ∃ before pieces tail, cs = before ++ (sources pieces ++ tail) ∧ before.length = offset
      ∧ raw.toList = sources pieces ∧ value.toList = pieces.map (·.shown) ∧ Spelled pieces tail := by
  obtain ⟨start, before, content, after, inside, found, _, rfl, misc⟩ := isDocument_of_read h
  have inner : .text offset raw value ∈ content := by
    by_contra outside
    have := misc (.text offset raw value) (by grind)
    cases this
  obtain ⟨here, suffix, _, _, _, _, _, step, mem⟩ := found.exists_step inner
  obtain ⟨before, rfl⟩ := suffix.trans inside
  cases step with
  | text first later =>
    cases mem_singleton.mp mem
    obtain ⟨pieces, whole, shown, spelled⟩ := spells_cons first (spells_of_scanText later)
    refine ⟨before, pieces, _, by rw [whole], ?_, ?_, by rw [String.toList_ofList, shown], spelled⟩
    · simp
    · rw [String.toList_ofList, whole]
      have := congrArg length whole
      simp at this ⊢
      rw [take_left']
      omega
  | start | empty | stop => simp at mem
  | aside _ plain => cases mem_singleton.mp mem; cases plain

/-! ### References read on their own -/

section

variable {run : List Char} {d : Char} {n : Nat}

/-- Text without blanks is read as it stands. -/
theorem strip_of_all (other : ∀ c, p c = true → Text.isBlank c = false) (all : run.all p)
    : Text.strip (String.ofList run) = String.ofList run := by
  have same (cs : List Char) (within : cs ⊆ run) : cs.dropWhile Text.isBlank = cs := by
    cases cs with
    | nil => rfl
    | cons c cs =>
      have solid := other c (all_eq_true.mp all c (within mem_cons_self))
      rw [dropWhile_cons_of_neg (by simp [solid])]
  rw [Text.strip, Text.trimBy, String.toList_ofList, same run (Subset.refl run),
    same run.reverse (by simp), reverse_reverse]

/-- A digit is no sign. -/
theorem takeSign_of_all (other : p '-' = false ∧ p '+' = false) (all : run.all p)
    : Literal.takeSign run = (false, run) := by
  unfold Literal.takeSign
  split
  · simp [other.1] at all
  · simp [other.2] at all
  · rfl

theorem decimalNumber_of_digits (digits : run.all Text.isAsciiDigit)
    : Text.decimalNumber run = Text.digitsNumber run := by
  refine foldl_ext _ _ _ fun value c member => ?_
  simp [Text.decimalValue?, all_eq_true.mp digits c member]

/-- A number that may stand in a reference is that of a character. -/
theorem characterOf_of_number (decoded : decodeReference.number n = .ok (some d))
    : characterOf n = .ok (.char d) := by
  unfold decodeReference.number at decoded
  split at decoded
  · rename_i valid
    cases decoded
    have valid : n.isValidChar := (by simpa [isCharNumber] using valid : _ ∧ _).1
    have bound : n < 0x110000 := by
      simp only [Nat.isValidChar] at valid
      omega
    unfold characterOf
    rw [if_neg (by simp; omega), if_neg (by simp; omega), Int.toNat_natCast, Text.Point.ofNat,
      if_pos valid]
  · cases decoded

theorem readHex_of_digits (found : run ≠ []) (digits : run.all Text.isAsciiHex)
    : readHex (String.ofList run) = .ok (Text.hexNumber run) := by
  have signless := takeSign_of_all (by decide) digits
  simp [readHex, strip_of_all (fun _ => Text.isBlank_of_isAsciiHex) digits, signless, found, digits]

/-- Digits are a number, if they are not too many. -/
theorem readInt_of_digits (found : run ≠ []) (digits : run.all Text.isAsciiDigit)
    : Literal.readInt (String.ofList run)
      = if Text.digitLimit < run.length then .error (.tooManyDigits run.length)
        else .ok (Text.digitsNumber run) := by
  have signless := takeSign_of_all (by decide) digits
  have decimals : run.all Text.isDecimal := all_eq_true.mpr fun c member => by
    simp [Text.isDecimal, Text.decimalValue?, all_eq_true.mp digits c member]
  simp [Literal.readInt, strip_of_all (fun _ => Text.isBlank_of_isAsciiDigit) digits, signless, found,
    decimals, decimalNumber_of_digits digits]

theorem dropLast_reference (body : List Char)
    : ((String.ofList ('&' :: body ++ [';'])).toList.drop 1).dropLast = body := by
  simp

theorem readReference_hex (found : run ≠ []) (digits : run.all Text.isAsciiHex)
    (decoded : decodeReference ('#' :: 'x' :: run) = .ok (some d))
    : readReference (String.ofList ('&' :: '#' :: 'x' :: run ++ [';'])) = .ok (some (.char d)) := by
  have number : characterOf (Text.hexNumber run) = .ok (.char d) := characterOf_of_number decoded
  unfold readReference
  rw [dropLast_reference ('#' :: 'x' :: run)]
  simp [readHex_of_digits found digits, number, bind, Except.bind, pure, Except.pure]

theorem readReference_decimal (found : run ≠ []) (digits : run.all Text.isAsciiDigit)
    (decoded : decodeReference ('#' :: run) = .ok (some d))
    : readReference (String.ofList ('&' :: '#' :: run ++ [';']))
      = if Text.digitLimit < run.length then .error (.tooManyDigits run.length)
        else .ok (some (.char d)) := by
  obtain ⟨c, more, rfl⟩ := exists_cons_of_ne_nil found
  have other : c ≠ 'x' ∧ c ≠ 'X' := by
    refine ⟨?_, ?_⟩ <;> rintro rfl <;> simp [Text.isAsciiDigit] at digits
  have number : characterOf (Text.digitsNumber (c :: more)) = .ok (.char d) :=
    characterOf_of_number (by simpa [decodeReference, other] using decoded)
  unfold readReference
  rw [dropLast_reference ('#' :: c :: more)]
  dsimp only
  split
  · exact absurd (cons.inj (cons.inj ‹_›).2).1 other.1
  · exact absurd (cons.inj (cons.inj ‹_›).2).1 other.2
  · rename_i same
    cases same
    rw [readInt_of_digits found digits]
    split_ifs
    · rfl
    · simp [number, bind, Except.bind, pure, Except.pure]
  · rename_i unmarked
    exact (unmarked _ rfl).elim

theorem readReference_name (chars : run.all isNameChar)
    (decoded : decodeReference run = .ok (some d))
    : readReference (String.ofList ('&' :: run ++ [';'])) = .ok (some (.char d)) := by
  have hash : isNameChar '#' = false := by decide
  unfold decodeReference at decoded
  split at decoded
  · simp [hash] at chars
  · simp [hash] at chars
  have entity : entityCharacter? (String.ofList run) = some d := Except.ok.inj decoded
  unfold readReference
  rw [dropLast_reference]
  dsimp only
  split
  · simp [hash] at chars
  · simp [hash] at chars
  · simp [hash] at chars
  · rw [entity]
    rfl

/-- How many digits a reference by a decimal number has. -/
def decimalDigits : List Char → Nat
  | '#' :: 'x' :: _ => 0
  | '#' :: digits => digits.length
  | _ => 0

/-- A reference that stands in a text is read on its own as the character that it shows there, unless
it is a decimal number with too many digits.
-/
theorem readReference_of_decoded (h : IsBody body) (decoded : decodeReference body = .ok (some d))
    : readReference (String.ofList ('&' :: body ++ [';']))
      = if Text.digitLimit < decimalDigits body then .error (.tooManyDigits (decimalDigits body))
        else .ok (some (.char d)) := by
  cases h with
  | hex found digits => exact readReference_hex found digits decoded
  | @decimal run found digits =>
    obtain ⟨c, more, rfl⟩ := exists_cons_of_ne_nil found
    have other : c ≠ 'x' := by
      rintro rfl
      simp [Text.isAsciiDigit] at digits
    have count : decimalDigits ('#' :: c :: more) = (c :: more).length := by
      simp [decimalDigits, other]
    rw [count, readReference_decimal found digits decoded]
  | name chars =>
    have count : decimalDigits body = 0 := by
      unfold decimalDigits
      split
      · rfl
      · simp [show isNameChar '#' = false by decide] at chars
      · rfl
    rw [count, readReference_name chars decoded]
    rfl

end

end Fxml.Xml
