import Fxml.Proofs.Expr.Cursor

/-! Expressions that are read once: those of the full grammar that start with a name or a list and
have no operator between two operands at the top. Both readers make the same tree of them.
-/

namespace Fxml.Expr

variable {n : Nat} {e left : Expr} {ts rest tokens : List Token}

/-- Whether an operator between two operands is at the top of an expression. -/
def isBinary : Expr → Bool
  | binary .. => true
  | _ => false

variable {eof : Position}

/-! ### Operators come to the top -/

theorem isBinary_of_takeOperands (top : left.isBinary = true)
    (read : takeOperands eof n left ts = .ok (e, rest))
    : e.isBinary = true := by
  -- Each round takes an operator and its operand, so the tokens that are left get fewer.
  induction length : ts.length using Nat.strongRecOn generalizing left ts with
  | ind size ih =>
    subst length
    rw [takeOperands_eq] at read
    split at read
    · cases read
      exact top
    · rename_i t more
      split at read
      · cases read
        exact top
      · obtain ⟨⟨right, middle⟩, first, read⟩ := exists_of_bind_ok read
        have shorter : middle.length < more.length := bound_of_plain first
        exact ih middle.length (Nat.lt_succ_of_lt shorter) rfl read rfl

/-- Without an operator nothing is read. -/
theorem takeOperands_of_not_isBinary (read : takeOperands eof n left ts = .ok (e, rest))
    (plain : e.isBinary = false)
    : e = left ∧ rest = ts := by
  rw [takeOperands_eq] at read
  split at read
  · cases read
    exact ⟨rfl, rfl⟩
  · split at read
    · cases read
      exact ⟨rfl, rfl⟩
    · obtain ⟨⟨right, middle⟩, _, read⟩ := exists_of_bind_ok read
      have top := isBinary_of_takeOperands rfl read
      rw [plain] at top
      cases top

/-- An expression without an operator at its top is read below all levels of operators. -/
theorem takeUnary_of_takeBinary (level : n ≤ 6) (read : takeBinary eof n ts = .ok (e, rest))
    (plain : e.isBinary = false)
    : takeUnary eof ts = .ok (e, rest) := by
  induction level using Nat.decreasingInduction generalizing e rest with
  | self =>
    rw [takeBinary_six] at read
    exact read
  | of_succ n loose ih =>
    rw [takeBinary_of_lt eof loose] at read
    obtain ⟨⟨left, middle⟩, first, read⟩ := exists_of_bind_ok read
    obtain ⟨rfl, rfl⟩ := takeOperands_of_not_isBinary read plain
    exact ih first plain

/-- Where no token follows, no level of operators adds anything. -/
theorem takeBinary_of_takeUnary (level : n ≤ 6) (read : takeUnary eof ts = .ok (e, []))
    : takeBinary eof n ts = .ok (e, []) := by
  induction level using Nat.decreasingInduction with
  | self =>
    rw [takeBinary_six]
    exact read
  | of_succ n loose ih =>
    rw [takeBinary_of_lt eof loose, ih, ok_bind]
    have ends : Ends n [] := trivial
    exact takeOperands_of_ends ends e

/-! ### Chains from a name or a list -/

/-- Suffixes put a property, a call or an item at the top. -/
theorem not_isBinary_of_takeSuffixes {start : Expr} (plain : start.isBinary = false)
    (read : takeSuffixes eof start ts = .ok (e, rest))
    : e.isBinary = false := by
  induction length : ts.length using Nat.strongRecOn generalizing start ts with
  | ind size ih =>
    subst length
    rw [takeSuffixes_eq] at read
    split at read
    · rename_i more
      obtain ⟨⟨args, middle⟩, first, read⟩ := exists_of_bind_ok read
      have shorter : middle.length < more.length := bound_of_plain first
      exact ih middle.length (by simp only [List.length_cons]; omega) rfl read rfl
    · exact ih _ (by simp only [List.length_cons]; omega) rfl read rfl
    · cases read
    · rename_i more
      split at read
      · cases read
      · obtain ⟨⟨key, middle⟩, first, second⟩ := exists_of_bind_ok read
        obtain ⟨after, closed, third⟩ := exists_of_bind_ok second
        have shorter : middle.length < more.length := bound_of_plain first
        have shorter' : after.length < middle.length := by
          obtain ⟨rest, -, rfl⟩ := exists_of_map_ok closed
          exact rest.property
        exact ih after.length (by simp only [List.length_cons]; omega) rfl third rfl
    · cases read
      exact plain

theorem startsReference_iff
    : startsReference tokens = true
      ↔ ∃ t rest, tokens = t :: rest
        ∧ (t.lexeme = .symbol .leftBracket
          ∨ ∃ name, t.lexeme = .ident name ∧ name ∉ ["true", "false", "null"]) := by
  have free (name : String) : (keyword? name).isNone = true ↔ name ∉ ["true", "false", "null"] := by
    unfold keyword?
    split <;> simp_all
  cases tokens with
  | nil => simp [startsReference]
  | cons t rest =>
    obtain ⟨lexeme, pos⟩ := t
    cases lexeme with
    | ident name => simp [startsReference, free]
    | symbol s => cases s <;> simp [startsReference]
    | _ => simp [startsReference]

/-- Before a name or a list there is no prefix operator to read. -/
theorem takeUnary_of_startsReference (starts : startsReference tokens = true)
    : takeUnary eof tokens = takePostfix eof tokens := by
  obtain ⟨⟨lexeme, pos⟩, rest, rfl, first⟩ := startsReference_iff.mp starts
  have primary : Derives.StartsPrimary ([(⟨lexeme, pos⟩ : Token)].map Token.lexeme) := by
    rcases first with rfl | ⟨name, rfl, _⟩
    · exact .inr (.inl rfl)
    · trivial
  exact takeUnary_of_primary primary

theorem not_isBinary_of_takePostfix (starts : startsReference tokens = true)
    (read : takePostfix eof tokens = .ok (e, rest))
    : e.isBinary = false := by
  rw [takePostfix_eq] at read
  obtain ⟨⟨start, middle⟩, first, read⟩ := exists_of_bind_ok read
  refine not_isBinary_of_takeSuffixes ?_ read
  obtain ⟨⟨lexeme, pos⟩, more, rfl, shape⟩ := startsReference_iff.mp starts
  rw [takePrimary_eq] at first
  rcases shape with rfl | ⟨name, rfl, _⟩
  · obtain ⟨⟨items, after⟩, _, first⟩ := exists_of_bind_ok first
    obtain ⟨_, _, first⟩ := exists_of_bind_ok first
    cases first
    rfl
  · dsimp only at first
    split at first <;> cases first <;> rfl

/-! ### Whole texts -/

/-- What is read once of tokens. -/
def takeOnce (eof : Position) (tokens : List Token) : Except ExprError (Expr × List Token) :=
  if startsReference tokens then takePostfix eof tokens
  else .error ⟨.expectedElementId, place eof tokens⟩

theorem descendOnce_eq (src : List Char) (start : Position)
    : descendOnce src start = Token.scan start src >>= fun tokens =>
        takeOnce (start.right src.length) tokens >>= fun (e, rest) =>
          finish rest >>= fun _ => .ok e := by
  unfold descendOnce
  cases Token.scan start src with
  | error e => rfl
  | ok tokens =>
    rw [ok_bind, ok_bind, takeOnce]
    dsimp only
    split
    · rw [takePostfix]
      cases readPostfix (start.right src.length) tokens <;> rfl
    · rfl

theorem startsReference_front (tokens : List Token)
    : (front eof tokens).startsReference = startsReference tokens := by
  cases tokens with
  | nil => rfl
  | cons t more =>
    obtain ⟨lexeme, pos⟩ := t
    cases lexeme with
    | symbol s => cases s <;> rfl
    | _ => rfl

theorem settles_readReference (src : List Char) (start : Position)
    : Settles src start (descendOnce src start) (readReference src start) := by
  rw [descendOnce_eq]
  refine settles_readAll fun tokens => follows_current ?_
  rw [startsReference_front, takeOnce]
  cases startsReference tokens with
  | true => exact (deep _ _).postfixed (by omega)
  | false => exact follows_fault_here _

theorem taken_of_finish {r : Except ExprError (Expr × List Token)}
    (h : (r >>= fun (e, rest) => finish rest >>= fun _ => .ok e) = .ok e)
    : r = .ok (e, []) := by
  obtain ⟨⟨e', rest⟩, taken, h⟩ := exists_of_bind_ok h
  obtain ⟨_, finished, same⟩ := exists_of_bind_ok h
  cases same
  cases finish_ok_iff.mp finished
  exact taken

/-- A text is read once with some tree exactly when the full grammar reads it with the same tree, its
first token is an opening bracket or a name that is no keyword, and no operator between two operands
is at the top of the tree.
-/
theorem readReference_ok_iff_read (src : List Char) (start : Position) (e : Expr)
    : readReference src start = .ok e
      ↔ read src start = .ok e
        ∧ (∃ t rest, Token.scan start src = .ok (t :: rest)
          ∧ (t.lexeme = .symbol .leftBracket
            ∨ ∃ name, t.lexeme = .ident name ∧ name ∉ ["true", "false", "null"]))
        ∧ ∀ pos op left right, e ≠ .binary pos op left right := by
  have top : (∀ pos op left right, e ≠ .binary pos op left right) ↔ e.isBinary = false := by
    cases e <;> simp [isBinary]
  rw [(settles_readReference src start).ok_iff, (settles_read src start).ok_iff, descendOnce_eq,
    descend_eq, top]
  constructor
  · rintro ⟨once, short⟩
    obtain ⟨tokens, scanned, once⟩ := exists_of_bind_ok once
    have taken := taken_of_finish once
    unfold takeOnce at taken
    split at taken
    · rename_i starts
      have plain := not_isBinary_of_takePostfix starts taken
      rw [← takeUnary_of_startsReference starts] at taken
      have whole := takeBinary_of_takeUnary (Nat.zero_le 6) taken
      obtain ⟨t, rest, rfl, first⟩ := startsReference_iff.mp starts
      refine ⟨⟨?_, short⟩, ⟨t, rest, scanned, first⟩, plain⟩
      rw [scanned, ok_bind, whole]
      rfl
    · cases taken
  · rintro ⟨⟨whole, short⟩, ⟨t, rest, scanned, first⟩, plain⟩
    have starts := startsReference_iff.mpr ⟨t, rest, rfl, first⟩
    refine ⟨?_, short⟩
    rw [scanned, ok_bind] at whole ⊢
    have taken := takeUnary_of_takeBinary (Nat.zero_le 6) (taken_of_finish whole) plain
    rw [takeUnary_of_startsReference starts] at taken
    rw [takeOnce, if_pos starts, taken]
    rfl

end Fxml.Expr
