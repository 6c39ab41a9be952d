import Fxml.Proofs.Expr.OneShot
import Fxml.Proofs.Expr.Rendering
import Fxml.Proofs.Text.Lines

/-! Where the nodes of an expression stand in its text, and where its faults do: all places are
within the value that is read.
-/

open List Fxml.Token

namespace Fxml

/-- A place on the line of another, at most `n` characters to its right. -/
def Position.Within (p start : Position) (n : Nat) : Prop :=
  p.line = start.line ∧ start.col ≤ p.col ∧ p.col ≤ start.col + n

variable {start : Position} {src cs : List Char} {tokens : List Token} {err : ExprError}
  {flaw : Flaw}

theorem Position.within_right {k n : Nat} (h : k ≤ n) : (start.right k).Within start n :=
  ⟨rfl, Nat.le_add_right _ _, Nat.add_le_add_left h _⟩

theorem Position.within_self (start : Position) (n : Nat) : start.Within start n :=
  within_right (Nat.zero_le n)

theorem Position.Within.of_right {p : Position} {k m n : Nat} (h : p.Within (start.right k) m)
    (part : k + m ≤ n)
    : p.Within start n := by
  obtain ⟨line, low, high⟩ := h
  simp only [Position.right] at line low high
  exact ⟨line, by omega, by omega⟩

/-- A fault of a text that starts at a place: it is within the text, and a bracket that is never closed
stands at the place of the fault.
-/
structure FaultWithin (start : Position) (src : List Char) (err : ExprError) : Prop where
  within : err.pos.Within start src.length
  bracket
    : ∀ text, err.cause = .neverClosed text
      → ∃ before c after, src = before ++ c :: after ∧ err.pos = start.right before.length
        ∧ c ∈ ['(', '[', '\x7b'] ∧ text = String.singleton c

theorem FaultWithin.of_part (front back : List Char)
    (fault : FaultWithin (start.right front.length) src err)
    : FaultWithin start (front ++ (src ++ back)) err where
  within := fault.within.of_right (by simp only [length_append]; omega)
  bracket text same := by
    obtain ⟨before, c, after, rfl, place, opens⟩ := fault.bracket text same
    refine ⟨front ++ before, c, after ++ back, by simp, ?_, opens⟩
    rw [place, length_append]
    simp only [Position.right, Position.mk.injEq, true_and]
    omega

/-- A text has a run of digits in it that is too long for a number. -/
def TooLong (src : List Char) (reason : Halt) : Prop :=
  ∃ digits, digits <:+: src ∧ Lexeme.IsDigits digits ∧ Text.digitLimit < digits.length
    ∧ reason = .unreadNumber digits.length

/-- What is read from a text that starts at a place is within the text. Nothing stops the reading but
a number that is too long.
-/
def WellPlaced {α : Type} (places : α → List Position) (start : Position) (src : List Char)
    : Except (Refusal ExprError) α → Prop
  | .ok a => ∀ p ∈ places a, p.Within start src.length
  | .error (.fault err) => FaultWithin start src err
  | .error (.halt reason) => TooLong src reason

theorem wellPlaced_at_start {α : Type} {places : α → List Position} {cause : ExprCause}
    (other : ∀ text, cause ≠ .neverClosed text)
    : WellPlaced places start src (.error (.fault ⟨cause, start⟩)) :=
  ⟨Position.within_self _ _, fun text same => (other text same).elim⟩

theorem TooLong.of_part (front back : List Char) {reason : Halt} (h : TooLong src reason)
    : TooLong (front ++ (src ++ back)) reason := by
  obtain ⟨digits, ⟨before, after, rfl⟩, number, long, same⟩ := h
  exact ⟨digits, ⟨front ++ before, after ++ back, by simp⟩, number, long, same⟩

/-- What is read from a part of a text is within the text. -/
theorem WellPlaced.of_part {α β : Type} {places : α → List Position} {places' : β → List Position}
    {r : Except (Refusal ExprError) α} {f : α → β} (front back : List Char)
    (h : WellPlaced places (start.right front.length) src r)
    (made : ∀ a, places' (f a) ⊆ start :: places a)
    : WellPlaced places' start (front ++ (src ++ back)) (r.map f) := by
  match r with
  | .ok a =>
    intro p member
    rcases mem_cons.mp (made a member) with rfl | member
    · exact Position.within_self _ _
    · exact (h p member).of_right (by simp only [length_append]; omega)
  | .error (.fault err) => exact FaultWithin.of_part front back h
  | .error (.halt reason) => exact TooLong.of_part front back h

/-! ### Faults of scanning -/

namespace Token

/-- Causes that have nothing to do with the end of a text. -/
def Local (cause : ExprCause) : Prop := cause ≠ .unexpectedEnd ∧ ∀ text, cause ≠ .neverClosed text

theorem scanString_flaw {quote : Char} {offset : Nat} (h : scanString quote offset cs = .error flaw)
    : flaw.offset ≤ offset + cs.length ∧ Local flaw.cause := by
  have next {p : Text.Point} {scanned : Except Flaw (List Text.Point × List Char)}
      (h : scanned.map (prepend p) = .error flaw) : scanned = .error flaw := by
    cases scanned with
    | error => exact h
    | ok => cases h
  fun_induction scanString quote offset cs with
  | case1 | case2 | case4 | case5 | case7 =>
    cases h
    simp [Local]
  | case8 => cases h
  | case3 offset a b c d tail hex ih =>
    obtain ⟨place, cause⟩ := ih (next h)
    exact ⟨by simp only [length_cons]; omega, cause⟩
  | case6 offset e tail _ _ c known ih =>
    obtain ⟨place, cause⟩ := ih (next h)
    exact ⟨by simp only [length_cons]; omega, cause⟩
  | case9 offset c tail noEnd _ _ noEscape other ih =>
    obtain ⟨place, cause⟩ := ih (next h)
    exact ⟨by simp only [length_cons]; omega, cause⟩

theorem scanLexeme_flaw {c : Char} (h : scanLexeme (c :: cs) = .error flaw)
    : flaw.offset ≤ (c :: cs).length ∧ Local flaw.cause := by
  unfold scanLexeme at h
  dsimp only at h
  split at h
  · unfold scanNumber at h
    dsimp only at h
    split at h
    · split at h
      · cases h
        exact ⟨Nat.zero_le _, nofun, nofun⟩
      · cases h
    · cases h
  · split at h
    · cases h
    · split at h
      · cases scanned : scanString c 1 cs with
        | ok value =>
          rw [scanned] at h
          cases h
        | error flaw' =>
          rw [scanned] at h
          cases h
          obtain ⟨place, cause⟩ := scanString_flaw scanned
          exact ⟨by simp only [length_cons]; omega, cause⟩
      · split at h
        · cases h
        · cases h
          exact ⟨Nat.zero_le _, nofun, nofun⟩

theorem scan_fault (h : scan start src = .error err)
    : err.pos.Within start src.length ∧ Local err.cause := by
  fun_induction scan start src with
  | case1 => cases h
  | case2 pos c rest _ ih =>
    obtain ⟨within, cause⟩ := ih h
    exact ⟨within.of_right (by simp only [length_cons]; omega), cause⟩
  | case3 pos c rest _ flaw scanned =>
    cases h
    obtain ⟨place, cause⟩ := scanLexeme_flaw scanned
    exact ⟨Position.within_right place, cause⟩
  | case4 pos c rest _ l after scanned shorter ih =>
    cases later : scan (pos.right ((c :: rest).length - after.length)) after with
    | ok tokens =>
      rw [later] at h
      cases h
    | error err' =>
      rw [later] at h
      cases h
      obtain ⟨within, cause⟩ := ih later
      exact ⟨within.of_right (by omega), cause⟩

end Token

/-! ### Whole texts -/

namespace Expr

open Lexeme (Laid laid_of_scan)

theorem blames_finish {eof : Position} {all rest : List Token} (sub : rest ⊆ all)
    (h : finish rest = .error err)
    : Blames eof all err := by
  cases rest with
  | nil => cases h
  | cons t more =>
    have member := sub mem_cons_self
    unfold finish at h
    dsimp only at h
    split at h
    · split at h
      · cases h
        exact .token member nofun nofun
      · cases h
        exact .token member nofun nofun
    · cases h
      exact .token member nofun nofun

/-- Tokens are within the text, and brackets stand where their tokens do. -/
theorem faultWithin_of_blames (laid : Laid start src tokens)
    (blames : Blames (start.right src.length) tokens err)
    : FaultWithin start src err := by
  cases blames with
  | ending other =>
    exact ⟨Position.within_right (Nat.le_refl _), fun text same => (other text same).elim⟩
  | token member _ other =>
    obtain ⟨before, slice, after, rfl, place, _⟩ := laid.exists_slice member
    refine ⟨?_, fun text same => (other text same).elim⟩
    rw [place]
    exact Position.within_right (by simp)
  | @bracket s pos member opens =>
    obtain ⟨before, slice, after, rfl, rfl, decodes⟩ := laid.exists_slice member
    refine ⟨Position.within_right (by simp), ?_⟩
    rintro text ⟨⟩
    cases decodes with
    | string _ _ value => cases value
    | symbol =>
    simp only [openers, mem_cons, not_mem_nil, or_false] at opens
    rcases opens with rfl | rfl | rfl
    all_goals exact ⟨before, _, after, rfl, rfl, by decide, rfl⟩

variable {D : List Lexeme → Tree → Prop} {r : Except ExprError (Expr × List Token)}

/-- What a reading of all tokens comes to in the end. -/
theorem finish_cases (laid : Laid start src tokens)
    (reads : Reads (start.right src.length) tokens (Spans D) tokens r)
    : (∃ e, (r >>= fun (e, rest) => finish rest >>= fun _ => .ok e) = .ok e
        ∧ ∀ p ∈ e.places, p.Within start src.length)
      ∨ ∃ err, (r >>= fun (e, rest) => finish rest >>= fun _ => .ok e) = .error err
        ∧ Blames (start.right src.length) tokens err := by
  cases r with
  | error err => exact .inr ⟨err, rfl, reads⟩
  | ok result =>
    obtain ⟨e, rest⟩ := result
    obtain ⟨used, rfl, spans⟩ := reads
    rw [ok_bind]
    dsimp only
    cases finished : finish rest with
    | error err => exact .inr ⟨err, rfl, blames_finish (subset_append_right _ _) finished⟩
    | ok =>
      refine .inl ⟨e, rfl, fun p node => ?_⟩
      obtain ⟨t, member, rfl⟩ := mem_map.mp (spans.placed node)
      obtain ⟨before, slice, after, rfl, place, _⟩ :=
        laid.exists_slice (mem_append_left _ member)
      rw [place]
      exact Position.within_right (by simp)

/-- The places of what is read with a cursor. -/
theorem wellPlaced_of_settles {take : List Token → Except ExprError (Expr × List Token)}
    {read : Except (Refusal ExprError) Expr}
    (settles : Settles src start (scan start src >>= fun tokens => take tokens >>= fun (e, rest) =>
      finish rest >>= fun _ => .ok e) read)
    (reads : ∀ tokens, ∃ D, Reads (start.right src.length) tokens (Spans D) tokens (take tokens))
    : WellPlaced places start src read := by
  match read with
  | .ok e =>
    obtain ⟨descends, -⟩ := settles
    obtain ⟨tokens, scanned, descends⟩ := exists_of_bind_ok descends
    obtain ⟨D, reads⟩ := reads tokens
    rcases finish_cases (laid_of_scan scanned) reads with ⟨e', same, within⟩ | ⟨err, same, -⟩
    · cases descends.symm.trans same
      exact within
    · cases descends.symm.trans same
  | .error (.fault err) =>
    change _ = Except.error err at settles
    cases scanned : scan start src with
    | error err' =>
      rw [scanned] at settles
      cases settles
      exact ⟨(scan_fault scanned).1, fun text same => ((scan_fault scanned).2.2 text same).elim⟩
    | ok tokens =>
      rw [scanned, ok_bind] at settles
      obtain ⟨D, reads⟩ := reads tokens
      rcases finish_cases (laid_of_scan scanned) reads with ⟨e, same, -⟩ | ⟨err', same, blames⟩
      · cases settles.symm.trans same
      · cases settles.symm.trans same
        exact faultWithin_of_blames (laid_of_scan scanned) blames
  | .error (.halt reason) =>
    obtain ⟨tokens, digits, pos, scanned, member, long, same⟩ := settles
    obtain ⟨before, slice, after, rfl, -, decodes⟩ := (laid_of_scan scanned).exists_slice member
    cases decodes with
    | string _ _ value => cases value
    | int digits =>
      rw [String.length_ofList] at long same
      exact ⟨slice, ⟨before, after, by simp⟩, digits, long, same⟩

theorem read_wellPlaced (src : List Char) (start : Position)
    : WellPlaced places start src (read src start) := by
  have settles := settles_read src start
  rw [descend_eq] at settles
  exact wellPlaced_of_settles settles fun tokens => ⟨_, reads_takeBinary _ _⟩

/-- Where an expression ends too early, the fault stands after the last character. -/
theorem place_of_unexpectedEnd (h : read src start = .error (.fault err))
    (ending : err.cause = .unexpectedEnd)
    : err.pos = start.right src.length := by
  have settles := settles_read src start
  rw [h, descend_eq] at settles
  change _ = Except.error err at settles
  cases scanned : scan start src with
  | error err' =>
    rw [scanned] at settles
    cases settles
    exact ((scan_fault scanned).2.1 ending).elim
  | ok tokens =>
    rw [scanned, ok_bind] at settles
    rcases finish_cases (laid_of_scan scanned) (reads_takeBinary _ _)
      with ⟨e, same, -⟩ | ⟨err', same, blames⟩
    · cases settles.symm.trans same
    · cases settles.symm.trans same
      cases blames with
      | ending => rfl
      | bracket => cases ending
      | token _ inside => exact (inside ending).elim

theorem readReference_wellPlaced (src : List Char) (start : Position)
    : WellPlaced places start src (readReference src start) := by
  have settles := settles_readReference src start
  rw [descendOnce_eq] at settles
  refine wellPlaced_of_settles settles fun tokens => ?_
  unfold takeOnce
  split
  · exact ⟨_, reads_takePostfix _ _⟩
  · exact ⟨fun _ _ => True, blames_place (Subset.refl _)⟩

end Expr

/-! ### Values -/

/-- The places of all nodes of a value. -/
def Value.places : Value → List Position
  | .text pos _ | .location pos _ | .resource pos _ | .method pos _ => [pos]
  | .binding pos e => pos :: e.places
  | .once e => e.places

namespace Value

theorem readBinding_wellPlaced {raw : List Char} (pos : Position) (opens : ['$', '\x7b'] <+: raw)
    : WellPlaced places pos raw (readBinding raw pos) := by
  unfold readBinding
  dsimp only
  split
  · exact wellPlaced_at_start nofun
  split
  · exact wellPlaced_at_start nofun
  · obtain ⟨tail, rfl⟩ := opens
    have whole : ∃ back, ['$', '\x7b'] ++ tail = ['$', '\x7b'] ++ (tail.dropLast ++ back) := by
      cases tail with
      | nil => exact ⟨[], rfl⟩
      | cons c rest => exact ⟨[_], by rw [dropLast_append_getLast (cons_ne_nil c rest)]⟩
    obtain ⟨back, whole⟩ := whole
    have inner := Expr.read_wellPlaced tail.dropLast (pos.right 2)
    have placed : WellPlaced places pos (['$', '\x7b'] ++ (tail.dropLast ++ back))
        ((Expr.read tail.dropLast (pos.right 2)).map (.binding pos)) :=
      inner.of_part ['$', '\x7b'] back fun _ => Subset.refl _
    rw [← whole] at placed
    rw [show ((['$', '\x7b'] ++ tail).drop 2).dropLast = tail.dropLast from rfl]
    cases result : Expr.read tail.dropLast (pos.right 2) with
    | error refusal =>
      rw [result] at placed
      exact placed
    | ok e =>
      rw [result] at placed
      exact placed

theorem read_wellPlaced (raw : List Char) (pos : Position) (allowBinding : Bool)
    : WellPlaced places pos raw (read raw pos allowBinding) := by
  have self (src : List Char) : ∀ p ∈ [pos], p.Within pos src.length :=
    forall_mem_singleton.mpr (Position.within_self _ _)
  unfold read
  split
  · exact self _
  · split
    · exact wellPlaced_at_start nofun
    · exact self _
  · split
    · exact wellPlaced_at_start nofun
    · exact self _
  · rename_i tail
    split
    · exact readBinding_wellPlaced pos ⟨tail, rfl⟩
    · exact wellPlaced_at_start nofun
  · exact wellPlaced_at_start nofun
  · rename_i c rest _
    split
    · have inner := Expr.readReference_wellPlaced (c :: rest) (pos.right 1)
      have placed : WellPlaced places pos (['$'] ++ (c :: rest ++ []))
          ((Expr.readReference (c :: rest) (pos.right 1)).map .once) :=
        inner.of_part ['$'] [] fun _ => subset_cons_self _ _
      rwa [append_nil] at placed
    · exact wellPlaced_at_start nofun
  · exact self _

/-- Reading a value gives an expression or a malformed expression, unless a number in it has more
digits than can be read; no token behind the last is looked at, no bracket is closed that is not open,
and the reading ends. All nodes of the expression and the place of the fault are on the line where the
value starts, between its first character and the end of the value; a bracket that is never closed is
a bracket of the value, at the place of the fault.
-/
theorem read_ok_or_malformed (raw : List Char) (pos : Position) (allowBinding : Bool)
    : (∃ v, read raw pos allowBinding = .ok v
        ∧ ∀ p ∈ v.places, p.line = pos.line ∧ pos.col ≤ p.col ∧ p.col ≤ pos.col + raw.length)
      ∨ (∃ err, read raw pos allowBinding = .error (.fault err)
        ∧ err.toFault.kind = .malformedExpression
        ∧ (err.pos.line = pos.line ∧ pos.col ≤ err.pos.col ∧ err.pos.col ≤ pos.col + raw.length)
        ∧ ∀ text, err.cause = .neverClosed text
          → ∃ before c after, raw = before ++ c :: after ∧ err.pos = pos.right before.length
            ∧ c ∈ ['(', '[', '\x7b'] ∧ text = String.singleton c)
      ∨ ∃ digits, read raw pos allowBinding = .error (.halt (.unreadNumber digits.length))
        ∧ digits <:+: raw ∧ (∀ c ∈ digits, Text.isAsciiDigit c = true)
        ∧ Text.digitLimit < digits.length := by
  have placed := read_wellPlaced raw pos allowBinding
  match result : read raw pos allowBinding with
  | .ok v =>
    rw [result] at placed
    exact .inl ⟨v, rfl, placed⟩
  | .error (.fault err) =>
    rw [result] at placed
    exact .inr (.inl ⟨err, rfl, rfl, placed.within, placed.bracket⟩)
  | .error (.halt reason) =>
    rw [result] at placed
    obtain ⟨digits, part, number, long, rfl⟩ := placed
    exact .inr (.inr ⟨digits, rfl, part, number.2, long⟩)

/-- A binding to a number with too many digits is not read. -/
theorem read_longBinding {digits : List Char} (digital : ∀ c ∈ digits, Text.isAsciiDigit c = true)
    (long : Text.digitLimit < digits.length) (pos : Position)
    : read ('$' :: '\x7b' :: (digits ++ ['\x7d'])) pos true
      = .error (.halt (.unreadNumber digits.length)) := by
  have solid : ¬digits.all Text.isBlank := by
    obtain ⟨d, ds, rfl⟩ := exists_cons_of_ne_nil (ne_nil_of_length_pos (Nat.zero_lt_of_lt long))
    simp [Text.isBlank_of_isAsciiDigit (digital d mem_cons_self)]
  have last : ('$' :: '\x7b' :: (digits ++ ['\x7d'])).getLast? = some '\x7d' := by
    simp [getLast?_cons]
  have inner : (('$' :: '\x7b' :: (digits ++ ['\x7d'])).drop 2).dropLast = digits := by simp
  rw [read, if_pos rfl, readBinding, last, inner, if_neg (by simp), if_neg solid,
    Expr.read_digits digital long]
  rfl

/-- A binding to one digit more than can be read is neither an expression nor a malformed one. -/
theorem read_overlong_binding
    : let raw := '$' :: '\x7b' :: (replicate (Text.digitLimit + 1) '1' ++ ['\x7d'])
      ∃ digits, read raw .start true = .error (.halt (.unreadNumber digits.length))
        ∧ digits <:+: raw ∧ Text.digitLimit < digits.length := by
  intro raw
  have halts := @read_longBinding (replicate (Text.digitLimit + 1) '1')
    (fun c member => eq_of_mem_replicate member ▸ rfl) (by simp) .start
  rcases read_ok_or_malformed raw .start true
    with ⟨v, result, _⟩ | ⟨err, result, _⟩ | ⟨digits, result, part, _, long⟩
  · cases halts.symm.trans result
  · cases halts.symm.trans result
  · exact ⟨digits, result, part, long⟩

end Value

end Fxml
