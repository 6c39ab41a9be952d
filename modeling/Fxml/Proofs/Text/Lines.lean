import Mathlib.Data.Prod.Lex
import Mathlib.Order.Monotone.Basic
import Fxml.Markup.Token

/-! Lines of a text. A line starts after each line end, and each offset has a place of its own. -/

open List

namespace Fxml.Text

variable {cs : List Char} {offset k start : Nat} {starts : List Nat} {c : Char}

theorem lt_of_mem_lineStartsFrom (mem : start ∈ lineStartsFrom offset cs)
    : offset < start := by
  fun_induction lineStartsFrom offset cs with grind

theorem pairwise_lineStartsFrom : (lineStartsFrom offset cs).Pairwise (· < ·) := by
  fun_induction lineStartsFrom offset cs with
  | case1 => exact .nil
  | case2 _ _ ih | case3 _ _ _ _ _ ih => exact .cons (fun _ => lt_of_mem_lineStartsFrom) ih
  | case4 _ _ _ _ _ ih => exact ih

/-- A line ends with the character at an index. -/
def EndsLine (cs : List Char) (k : Nat) : Prop :=
  cs[k]? = some '\n' ∨ cs[k]? = some '\r' ∧ cs[k + 1]? ≠ some '\n'

theorem mem_lineStartsFrom : offset + k + 1 ∈ lineStartsFrom offset cs ↔ EndsLine cs k := by
  have later {offset rest} := @lt_of_mem_lineStartsFrom rest offset
  unfold EndsLine
  fun_induction lineStartsFrom offset cs generalizing k with
  | case1 => simp
  | case2 offset rest ih =>
    match k with
    | 0 | 1 | k + 2 => grind
  | case3 offset c rest _ _ ih | case4 offset c rest _ _ ih =>
    cases k <;> cases rest <;> grind

theorem filter_eq_nil_of_lt {o : Nat} (after : ¬start ≤ o) (later : ∀ next ∈ starts, start < next)
    : starts.filter (· ≤ o) = [] := by
  refine filter_eq_nil_iff.mpr fun next mem => ?_
  grind [later next mem]

/-- Up to the next offset there is at most one more line. -/
theorem filter_le_succ (sorted : starts.Pairwise (· < ·)) (o : Nat)
    : starts.filter (· ≤ o + 1)
      = starts.filter (· ≤ o) ++ if o + 1 ∈ starts then [o + 1] else [] := by
  induction sorted with
  | nil => rfl
  | @cons start starts later sorted ih =>
    by_cases before : start ≤ o
    · grind
    · have none := filter_eq_nil_of_lt before later
      grind

theorem getElem?_filter_le (sorted : starts.Pairwise (· < ·)) (first o : Nat)
    : (first :: starts)[(starts.filter (· ≤ o)).length]?
      = some ((starts.filter (· ≤ o)).getLastD first) := by
  induction sorted generalizing first with
  | nil => rfl
  | @cons start starts later sorted ih =>
    by_cases before : start ≤ o
    · simp only [filter_cons, before, decide_true, if_true, length_cons,
        getElem?_cons_succ, getLastD_cons]
      exact ih start
    · simp [before, filter_eq_nil_of_lt before later]

theorem getLastD_filter_le (starts : List Nat) (o : Nat)
    : (starts.filter (· ≤ o)).getLastD 0 ≤ o := by
  grind

theorem isBlank_of_isSpace (space : Xml.isSpace c) : isBlank c := by
  simp only [Xml.isSpace, Bool.or_eq_true, beq_iff_eq] at space
  rcases space with ((rfl | rfl) | rfl) | rfl <;> rfl

/-- Digits are not blank. -/
theorem isBlank_of_isAsciiHex (h : isAsciiHex c = true) : isBlank c = false := by
  simp only [isAsciiHex, isAsciiDigit, Bool.or_eq_true, Bool.and_eq_true, decide_eq_true_eq,
    Char.le_def, UInt32.le_iff_toNat_le] at h
  have bounds : 48 ≤ c.toNat ∧ c.toNat ≤ 102 := by
    simp at h
    omega
  simp [isBlank, inRanges]
  omega

theorem isBlank_of_isAsciiDigit (h : isAsciiDigit c = true) : isBlank c = false :=
  isBlank_of_isAsciiHex (by simp [isAsciiHex, h])

namespace LineMap

variable {o : Nat}

theorem position_succ
    : (ofText cs).position (o + 1)
      = if o + 1 ∈ (ofText cs).starts then ⟨((ofText cs).position o).line + 1, 1⟩
        else ((ofText cs).position o).right 1 := by
  simp only [position, filter_le_succ pairwise_lineStartsFrom, ofText]
  split <;> rename_i starts
  · simp [starts]
  · simp only [starts, if_false, append_nil, Position.right]
    grind

/-- The place after a character, in a text with other text before and after it. -/
theorem position_next {before after : List Char} (text : cs = before ++ c :: after)
    : (ofText cs).position (before.length + 1)
      = if c = '\n' ∨ c = '\r' ∧ after.head? ≠ some '\n' then
          ⟨((ofText cs).position before.length).line + 1, 1⟩
        else ((ofText cs).position before.length).right 1 := by
  have ends := @mem_lineStartsFrom cs 0 before.length
  rw [position_succ]
  simp only [EndsLine, head?_eq_getElem?, ofText] at ends ⊢
  grind

/-- The offset of the place of an offset is that offset. -/
theorem offset_position (inside : o ≤ cs.length)
    : (ofText cs).offset ((ofText cs).position o) = o := by
  have := getLastD_filter_le (lineStartsFrom 0 cs) o
  simp only [offset, position, ofText, Nat.add_sub_cancel, getElem?_filter_le pairwise_lineStartsFrom]
  omega

/-- The place after each character is further on in its line, or in the next line. -/
theorem position_strictMono
    : StrictMono fun o => toLex (((ofText cs).position o).line, ((ofText cs).position o).col) := by
  refine strictMono_nat_of_lt_succ fun o => ?_
  rw [position_succ]
  split
  · exact Prod.Lex.toLex_lt_toLex.mpr (.inl (Nat.lt_succ_self _))
  · exact Prod.Lex.toLex_lt_toLex.mpr (.inr ⟨rfl, Nat.lt_succ_self _⟩)

/-- Offsets and places determine each other, and places are in the order of their offsets. -/
theorem position_exact (cs : List Char)
    : (∀ o ≤ cs.length, (ofText cs).offset ((ofText cs).position o) = o)
      ∧ ∀ o o', o < o' → o' ≤ cs.length
        → ((ofText cs).position o).line < ((ofText cs).position o').line
          ∨ ((ofText cs).position o).line = ((ofText cs).position o').line
            ∧ ((ofText cs).position o).col < ((ofText cs).position o').col := by
  refine ⟨fun o inside => offset_position inside, fun o o' before _ => ?_⟩
  exact Prod.Lex.toLex_lt_toLex.mp (position_strictMono before)

theorem position_exact_mixed
    : (ofText ['\r', '\n', '\r']).offset ((ofText ['\r', '\n', '\r']).position 1) = 1
      ∧ ((ofText ['\r', '\n', '\r']).position 1).line
        < ((ofText ['\r', '\n', '\r']).position 3).line := by
  refine ⟨(position_exact _).1 1 (by decide), ?_⟩
  exact ((position_exact _).2 1 3 (by decide) (by decide)).resolve_right (by decide)

end LineMap

end Fxml.Text
