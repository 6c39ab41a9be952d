import Fxml.Proofs.Expr.Reading

/-! Reading expressions follows the grammar: what is derived is read, and a text is read as a tree exactly
when its tokens derive the tree.
-/

open List Fxml.Token

namespace Fxml.Expr

open Derives

variable {n : Nat} {rest ts : List Token} {e : Expr} {dot pos closer : Position} {name : String}
  {l : Lexeme} {ls : List Lexeme} {op : BinaryOp}

/-! ### What is derived is read -/

/-- Tokens before which an expression of a level ends: no suffix goes on, and no operator of the
level or a tighter one.
-/
def Ends (n : Nat) : List Token → Prop
  | [] => True
  | t :: _ =>
    t.lexeme ≠ .symbol .dot ∧ t.lexeme ≠ .symbol .leftBracket ∧ t.lexeme ≠ .symbol .leftParen
      ∧ ∀ op : BinaryOp, t.lexeme = .symbol op.sign → op.level < n

/-- A reading gives a tree and leaves a rest. -/
def Gives (r : Except ExprError (Expr × List Token)) (t : Tree) (rest : List Token) : Prop :=
  ∃ e, r = .ok (e, rest) ∧ e.tree = t

variable {eof : Position}

theorem takeSuffixes_of_ends (ends : Ends n rest) (e : Expr)
    : takeSuffixes eof e rest = .ok (e, rest) := by
  rw [takeSuffixes_eq]
  split
  · exact (ends.1 rfl).elim
  · exact (ends.1 rfl).elim
  · exact (ends.1 rfl).elim
  · exact (ends.2.1 rfl).elim
  · rfl

theorem Ends.noCall (ends : Ends n rest) (pos : Position) (more : List Token)
    : rest ≠ ⟨.symbol .leftParen, pos⟩ :: more := by
  rintro rfl
  exact ends.2.2.1 rfl

/-- Before a primary there is no prefix operator to read. -/
theorem takeUnary_of_primary (starts : StartsPrimary (ts.map lexeme))
    : takeUnary eof (ts ++ rest) = takePostfix eof (ts ++ rest) := by
  rw [takeUnary_eq]
  split
  case h_3 => rfl
  all_goals
    rename_i same
    cases ts with
    | nil => exact starts.elim
    | cons t more =>
      cases same
      rcases starts with h | h | h <;> cases h

@[simp]
theorem atSymbol_cons (s s' : Symbol) (pos : Position) (rest : List Token)
    : atSymbol s (⟨.symbol s', pos⟩ :: rest) = (s' == s) :=
  rfl

@[simp]
theorem takeCloser_here (opener : Token) (closer : Symbol) (pos : Position) (rest : List Token)
    : takeCloser opener closer (⟨.symbol closer, pos⟩ :: rest) = .ok rest := by
  rw [takeCloser_eq]
  simp

theorem takeSuffixes_path (noCall : ∀ pos more, rest ≠ ⟨.symbol .leftParen, pos⟩ :: more)
    : takeSuffixes eof e (⟨.symbol .dot, dot⟩ :: ⟨.ident name, pos⟩ :: rest)
      = takeSuffixes eof (.path pos e name) rest := by
  rw [takeSuffixes_eq]
  split
  · rename_i same
    cases same
    exact (noCall _ _ rfl).elim
  · rename_i same
    cases same
    rfl
  · rename_i noName same
    cases same
    exact (noName _ _ _ rfl).elim
  · rename_i same
    cases same
  · rename_i noDot _
    exact (noDot _ _ rfl).elim

theorem takeOperands_of_ends (ends : Ends n rest) (e : Expr)
    : takeOperands eof n e rest = .ok (e, rest) := by
  rw [takeOperands_eq]
  split
  · rfl
  · split
    · rfl
    · rename_i op pos found
      obtain ⟨rfl, rfl⟩ := operatorAt?_eq_some.mp found
      exact absurd (ends.2.2.2 op rfl) (Nat.lt_irrefl _)

theorem takeOperands_join {left : Expr} {more : List Token}
    : takeOperands eof op.level left (⟨.symbol op.sign, pos⟩ :: more)
      = takeBinary eof (op.level + 1) more >>= fun (right, rest) =>
        takeOperands eof op.level (.binary pos op left right) rest := by
  rw [takeOperands_eq]
  dsimp only
  rw [operatorAt?_eq_some.mpr ⟨rfl, rfl⟩]

theorem ends_of_symbol {s : Symbol}
    (closing : s = .rightParen ∨ s = .rightBracket ∨ s = .rightBrace ∨ s = .comma ∨ s = .colon)
    : Ends n (⟨.symbol s, pos⟩ :: rest) := by
  rcases closing with rfl | rfl | rfl | rfl | rfl
  all_goals
    refine ⟨by simp, by simp, by simp, fun op same => ?_⟩
    cases op <;> cases same

theorem Ends.mono {m : Nat} (ends : Ends n rest) (h : n ≤ m) : Ends m rest := by
  cases rest with
  | nil => trivial
  | cons t more =>
    obtain ⟨dot, bracket, paren, level⟩ := ends
    exact ⟨dot, bracket, paren, fun op same => Nat.lt_of_lt_of_le (level op same) h⟩

theorem ends_operator : Ends (op.level + 1) (⟨.symbol op.sign, pos⟩ :: rest) := by
  refine ⟨?_, ?_, ?_, fun op' same => ?_⟩
  · cases op <;> simp [BinaryOp.sign]
  · cases op <;> simp [BinaryOp.sign]
  · cases op <;> simp [BinaryOp.sign]
  · cases op <;> cases op' <;> cases same <;> simp

/-- An expression ends no bracket, nor does it start with a comma. -/
theorem opens_append (opens : Opens (ts.map lexeme)) (rest : List Token)
    : (ts ++ rest).isEmpty = false
      ∧ atSymbol .rightParen (ts ++ rest) = false
      ∧ atSymbol .rightBracket (ts ++ rest) = false
      ∧ atSymbol .rightBrace (ts ++ rest) = false := by
  cases ts with
  | nil => exact opens.elim
  | cons t more =>
    obtain ⟨lexeme, pos⟩ := t
    cases lexeme with
    | symbol s =>
      cases s with
      | rightParen | rightBracket | rightBrace => rcases opens with h | h | h <;> cases h
      | _ => exact ⟨rfl, rfl, rfl, rfl⟩
    | _ => exact ⟨rfl, rfl, rfl, rfl⟩

theorem exists_first (h : ts.map lexeme = l :: ls)
    : ∃ pos more, ts = ⟨l, pos⟩ :: more ∧ more.map lexeme = ls := by
  obtain ⟨⟨_, pos⟩, more, rfl, rfl, last⟩ := map_eq_cons_iff.mp h
  exact ⟨pos, more, rfl, last⟩

theorem exists_single (h : ts.map lexeme = [l]) : ∃ pos, ts = [⟨l, pos⟩] := by
  obtain ⟨pos, more, rfl, last⟩ := exists_first h
  cases map_eq_nil_iff.mp last
  exact ⟨pos, rfl⟩

theorem exists_middle {ls' : List Lexeme} (h : ts.map lexeme = ls ++ l :: ls')
    : ∃ before pos after, ts = before ++ ⟨l, pos⟩ :: after ∧ before.map lexeme = ls
        ∧ after.map lexeme = ls' := by
  obtain ⟨before, more, rfl, first, second⟩ := map_eq_append_iff.mp h
  obtain ⟨pos, after, rfl, last⟩ := exists_first second
  exact ⟨before, pos, after, rfl, first, last⟩

theorem exists_last (h : ts.map lexeme = ls ++ [l])
    : ∃ before pos, ts = before ++ [⟨l, pos⟩] ∧ before.map lexeme = ls := by
  obtain ⟨before, pos, after, rfl, first, last⟩ := exists_middle h
  cases map_eq_nil_iff.mp last
  exact ⟨before, pos, rfl, first⟩

theorem exists_bracketed {l' : Lexeme} (h : ts.map lexeme = l :: (ls ++ [l']))
    : ∃ pos inner closer, ts = ⟨l, pos⟩ :: (inner ++ [⟨l', closer⟩]) ∧ inner.map lexeme = ls := by
  obtain ⟨pos, _, rfl, second⟩ := exists_first h
  obtain ⟨inner, closer, rfl, third⟩ := exists_last second
  exact ⟨pos, inner, closer, rfl, third⟩

theorem takeKey_of_other (opens : Opens (ts.map lexeme)) (other : ¬StartsWithName (ts.map lexeme))
    : takeKey eof (ts ++ rest) = takeBinary eof 0 (ts ++ rest) := by
  rw [takeKey_eq]
  split
  · rename_i name pos more same
    cases ts with
    | nil => exact opens.elim
    | cons t after =>
      cases same
      rw [if_neg fun free => other ⟨name, _, rfl, Option.isNone_iff_eq_none.mp free⟩]
      rfl
  · rfl

/-- Reading a tree at a level goes on with the operators of that level. -/
def GoesOn (eof : Position) (n : Nat) (ts : List Token) (t : Tree) (rest : List Token) : Prop :=
  ∃ e, e.tree = t ∧ takeBinary eof n ts = if n < 6 then takeOperands eof n e rest else .ok (e, rest)

/-- Where an expression ends, its reading is complete. -/
theorem GoesOn.gives {t : Tree} (h : GoesOn eof n ts t rest) (ends : Ends n rest)
    : Gives (takeBinary eof n ts) t rest := by
  obtain ⟨e, tree, read⟩ := h
  refine ⟨e, ?_, tree⟩
  rw [read, takeOperands_of_ends ends, ite_self]

/-- The reading of an expression is complete before a bracket that closes, a comma or a colon. -/
theorem gives_before (s : Symbol) (pos : Position) (rest : List Token) {t : Tree}
    (h : Ends 1 (⟨.symbol s, pos⟩ :: rest) → GoesOn eof 0 ts t (⟨.symbol s, pos⟩ :: rest))
    (closing : s = .rightParen ∨ s = .rightBracket ∨ s = .rightBrace ∨ s = .comma ∨ s = .colon
      := by simp)
    : Gives (takeBinary eof 0 ts) t (⟨.symbol s, pos⟩ :: rest) :=
  (h (ends_of_symbol closing)).gives (ends_of_symbol closing)

mutual

theorem takeBinary_complete {n : Nat} {ls : List Lexeme} {t : Tree} (derived : Binary n ls t)
    {ts : List Token} (same : ts.map lexeme = ls) (rest : List Token) (ends : Ends (n + 1) rest)
    : GoesOn eof n (ts ++ rest) t rest := by
  match derived with
  | .unary operand =>
    obtain ⟨e, read, tree⟩ := takeUnary_complete operand same rest ends
    refine ⟨e, tree, ?_⟩
    rw [takeBinary_six, read]
    rfl
  | .tighter loose operand =>
    have continues := takeBinary_complete operand same rest (ends.mono (Nat.le_succ _))
    obtain ⟨e, read, tree⟩ := continues.gives ends
    refine ⟨e, tree, ?_⟩
    rw [takeBinary_of_lt eof loose, read, if_pos loose]
    rfl
  | @Binary.join op _ _ _ _ left right =>
    have loose : op.level < 6 := by cases op <;> decide
    obtain ⟨before, pos, after, rfl, first, second⟩ := exists_middle same
    obtain ⟨l, leftTree, leftRead⟩ := takeBinary_complete left first
      (⟨.symbol op.sign, pos⟩ :: (after ++ rest)) ends_operator
    have continues := takeBinary_complete right second rest (ends.mono (Nat.le_succ _))
    obtain ⟨r, rightRead, rightTree⟩ := continues.gives ends
    refine ⟨.binary pos op l r, by simp [tree, leftTree, rightTree], ?_⟩
    rw [append_assoc, cons_append, leftRead, if_pos loose, if_pos loose, takeOperands_join,
      rightRead]
    rfl

theorem takeUnary_complete {ls : List Lexeme} {t : Tree} (derived : Unary ls t) {n : Nat}
    {ts : List Token} (same : ts.map lexeme = ls) (rest : List Token) (ends : Ends n rest)
    : Gives (takeUnary eof (ts ++ rest)) t rest := by
  match derived with
  | .neg operand =>
    obtain ⟨pos, more, rfl, later⟩ := exists_first same
    obtain ⟨e, read, tree⟩ := takeUnary_complete operand later rest ends
    refine ⟨applyUnary pos .neg e, ?_, by rw [tree_applyUnary_neg, tree]⟩
    simp [takeUnary_eq eof (_ :: _), read]
  | .not operand =>
    obtain ⟨pos, more, rfl, later⟩ := exists_first same
    obtain ⟨e, read, tree⟩ := takeUnary_complete operand later rest ends
    refine ⟨applyUnary pos .not e, ?_, by rw [tree_applyUnary_not, tree]⟩
    simp [takeUnary_eq eof (_ :: _), read]
  | .postfixed operand =>
    obtain ⟨e, tree, read⟩ := takePostfix_complete operand same rest ends.noCall
    refine ⟨e, ?_, tree⟩
    rw [takeUnary_of_primary (same ▸ operand.starts), read, takeSuffixes_of_ends ends]

/-- Reading a primary with suffixes goes on with further suffixes. -/
theorem takePostfix_complete {ls : List Lexeme} {t : Tree} (derived : Postfixed ls t)
    {ts : List Token} (same : ts.map lexeme = ls) (rest : List Token)
    (noCall : ∀ pos more, rest ≠ ⟨.symbol .leftParen, pos⟩ :: more)
    : ∃ e, e.tree = t ∧ takePostfix eof (ts ++ rest) = takeSuffixes eof e rest := by
  match derived with
  | .primary start =>
    obtain ⟨e, read, tree⟩ := takePrimary_complete start same rest
    refine ⟨e, tree, ?_⟩
    rw [takePostfix_eq, read]
    rfl
  | @Postfixed.path _ _ name target =>
    obtain ⟨before, dot, _, rfl, first, second⟩ := exists_middle same
    obtain ⟨pos, rfl⟩ := exists_single second
    obtain ⟨e, tree, read⟩ := takePostfix_complete target first
      (⟨.symbol .dot, dot⟩ :: ⟨.ident name, pos⟩ :: rest) (by simp)
    refine ⟨.path pos e name, by simp [Expr.tree, tree], ?_⟩
    rw [append_assoc]
    exact read.trans (takeSuffixes_path noCall)
  | @Postfixed.callEmpty _ _ name target =>
    obtain ⟨before, dot, _, rfl, first, second⟩ := exists_middle same
    obtain ⟨pos, _, rfl, third⟩ := exists_first second
    obtain ⟨paren, _, rfl, fourth⟩ := exists_first third
    obtain ⟨closer, rfl⟩ := exists_single fourth
    obtain ⟨e, tree, read⟩ := takePostfix_complete target first
      (⟨.symbol .dot, dot⟩ :: ⟨.ident name, pos⟩ :: ⟨.symbol .leftParen, paren⟩
        :: ⟨.symbol .rightParen, closer⟩ :: rest) (by simp)
    refine ⟨.call pos e name [], by simp [Expr.tree, trees, tree], ?_⟩
    rw [takeSuffixes_eq] at read
    simpa [takeArguments_eq] using read
  | @Postfixed.call _ _ _ _ name target arg =>
    obtain ⟨before, dot, _, rfl, first, second⟩ := exists_middle same
    obtain ⟨pos, _, rfl, third⟩ := exists_first second
    obtain ⟨paren, inside, closer, rfl, inner⟩ := exists_bracketed third
    obtain ⟨e, tree, read⟩ := takePostfix_complete target first
      (⟨.symbol .dot, dot⟩ :: ⟨.ident name, pos⟩ :: ⟨.symbol .leftParen, paren⟩
        :: (inside ++ ⟨.symbol .rightParen, closer⟩ :: rest)) (by simp)
    obtain ⟨a, argRead, argTree⟩ := gives_before .rightParen closer rest
      (takeBinary_complete arg inner _)
    refine ⟨.call pos e name [a], by simp [Expr.tree, trees, tree, argTree], ?_⟩
    rw [takeSuffixes_eq] at read
    simpa [takeArguments_eq, opens_append (inner ▸ arg.opens), argRead] using read
  | .index target key =>
    obtain ⟨before, pos, _, rfl, first, second⟩ := exists_middle same
    obtain ⟨inside, closer, rfl, inner⟩ := exists_last second
    obtain ⟨e, tree, read⟩ := takePostfix_complete target first
      (⟨.symbol .leftBracket, pos⟩ :: (inside ++ ⟨.symbol .rightBracket, closer⟩ :: rest))
      (by simp)
    obtain ⟨k, keyRead, keyTree⟩ := gives_before .rightBracket closer rest
      (takeBinary_complete key inner _)
    refine ⟨.index pos e k, by simp [Expr.tree, tree, keyTree], ?_⟩
    rw [takeSuffixes_eq] at read
    simpa [opens_append (inner ▸ key.opens), keyRead] using read

theorem takePrimary_complete {ls : List Lexeme} {t : Tree} (derived : Primary ls t)
    {ts : List Token} (same : ts.map lexeme = ls) (rest : List Token)
    : Gives (takePrimary eof (ts ++ rest)) t rest := by
  match derived with
  | .int _ | .float _ | .string _ | .halves _ =>
    obtain ⟨pos, rfl⟩ := exists_single same
    exact ⟨_, takePrimary_eq .., rfl⟩
  | @Primary.keyword _ value known =>
    obtain ⟨pos, rfl⟩ := exists_single same
    exact ⟨.const pos value, by simp [takePrimary_eq, known], rfl⟩
  | @Primary.ref name free =>
    obtain ⟨pos, rfl⟩ := exists_single same
    exact ⟨.ref pos name, by simp [takePrimary_eq, free], rfl⟩
  | .paren inside =>
    obtain ⟨pos, inner, closer, rfl, within⟩ := exists_bracketed same
    obtain ⟨e, read, tree⟩ := gives_before .rightParen closer rest
      (takeBinary_complete inside within _)
    exact ⟨e, by simp [takePrimary_eq, read], tree⟩
  | .list items =>
    obtain ⟨pos, inner, closer, rfl, within⟩ := exists_bracketed same
    obtain ⟨es, read, trees⟩ := takeItems_complete items within closer rest
    exact ⟨.list pos es, by simp [takePrimary_eq, read], by simp [tree, trees]⟩
  | .map entries =>
    obtain ⟨pos, inner, closer, rfl, within⟩ := exists_bracketed same
    obtain ⟨es, read, trees⟩ := takeEntries_complete entries within closer rest
    exact ⟨.map pos es, by simp [takePrimary_eq, read], by simp [tree, trees]⟩

theorem takeItems_complete {ls : List Lexeme} {ts : List Tree} (derived : Items ls ts)
    {tokens : List Token} (same : tokens.map lexeme = ls) (pos : Position) (rest : List Token)
    : ∃ es, takeItems eof (tokens ++ ⟨.symbol .rightBracket, pos⟩ :: rest)
          = .ok (es, ⟨.symbol .rightBracket, pos⟩ :: rest)
        ∧ trees es = ts := by
  match derived with
  | .nil =>
    cases map_eq_nil_iff.mp same
    exact ⟨[], by rw [takeItems_eq]; rfl, rfl⟩
  | .last item =>
    obtain ⟨e, read, tree⟩ := gives_before .rightBracket pos rest (takeBinary_complete item same _)
    refine ⟨[e], ?_, by simp [trees, tree]⟩
    rw [takeItems_eq]
    simp [opens_append (same ▸ item.opens), read]
  | .cons item more =>
    obtain ⟨before, comma, after, rfl, first, second⟩ := exists_middle same
    obtain ⟨e, read, tree⟩ := gives_before .comma comma (after ++ ⟨.symbol .rightBracket, pos⟩ :: rest)
      (takeBinary_complete item first _)
    obtain ⟨es, others, same⟩ := takeItems_complete more second pos rest
    refine ⟨e :: es, ?_, by simp [trees, tree, same]⟩
    rw [takeItems_eq]
    simp [opens_append (first ▸ item.opens), read, others]

theorem takeEntries_complete {ls : List Lexeme} {ts : List (Tree × Tree)} (derived : Entries ls ts)
    {tokens : List Token} (same : tokens.map lexeme = ls) (pos : Position) (rest : List Token)
    : ∃ es, takeEntries eof (tokens ++ ⟨.symbol .rightBrace, pos⟩ :: rest)
          = .ok (es, ⟨.symbol .rightBrace, pos⟩ :: rest)
        ∧ treePairs es = ts := by
  match derived with
  | .nil =>
    cases map_eq_nil_iff.mp same
    exact ⟨[], by rw [takeEntries_eq]; rfl, rfl⟩
  | .last key value =>
    obtain ⟨before, colon, after, rfl, first, second⟩ := exists_middle same
    obtain ⟨k, keyRead, keyTree⟩ := takeKey_complete key first colon
      (after ++ ⟨.symbol .rightBrace, pos⟩ :: rest)
    obtain ⟨v, valueRead, valueTree⟩ := gives_before .rightBrace pos rest
      (takeBinary_complete value second _)
    refine ⟨[(k, v)], ?_, by simp [treePairs, keyTree, valueTree]⟩
    rw [takeEntries_eq]
    simp [opens_append (first ▸ key.opens), keyRead, valueRead]
  | .cons key value more =>
    obtain ⟨before, colon, _, rfl, first, second⟩ := exists_middle same
    obtain ⟨inner, comma, after, rfl, third, fourth⟩ := exists_middle second
    obtain ⟨k, keyRead, keyTree⟩ := takeKey_complete key first colon
      (inner ++ ⟨.symbol .comma, comma⟩ :: (after ++ ⟨.symbol .rightBrace, pos⟩ :: rest))
    obtain ⟨v, valueRead, valueTree⟩ := gives_before .comma comma (after ++ ⟨.symbol .rightBrace, pos⟩ :: rest)
      (takeBinary_complete value third _)
    obtain ⟨es, others, pairs⟩ := takeEntries_complete more fourth pos rest
    refine ⟨(k, v) :: es, ?_, by simp [treePairs, keyTree, valueTree, pairs]⟩
    rw [takeEntries_eq]
    simp [opens_append (first ▸ key.opens), keyRead, valueRead, others]

theorem takeKey_complete {ls : List Lexeme} {t : Tree} (derived : Key ls t) {ts : List Token}
    (same : ts.map lexeme = ls) (pos : Position) (rest : List Token)
    : Gives (takeKey eof (ts ++ ⟨.symbol .colon, pos⟩ :: rest)) t (⟨.symbol .colon, pos⟩ :: rest) := by
  match derived with
  | @Key.name name free =>
    obtain ⟨place, rfl⟩ := exists_single same
    refine ⟨.const place (.text name), ?_, rfl⟩
    rw [takeKey_eq, singleton_append]
    simp only [free, Option.isNone_none, if_true]
  | .expression inner other =>
    obtain ⟨k, read, tree⟩ := gives_before .colon pos rest (takeBinary_complete inner same _)
    refine ⟨k, ?_, tree⟩
    rw [takeKey_of_other (same ▸ inner.opens) (same ▸ other), read]

end

/-! ### Whole texts -/

theorem finish_ok_iff : finish rest = .ok () ↔ rest = [] := by
  cases rest with
  | nil => simp [finish]
  | cons t more =>
    simp only [finish, reduceCtorEq, iff_false]
    split
    · split <;> simp
    · simp

theorem descend_eq (src : List Char) (start : Position)
    : descend src start = scan start src >>= fun tokens =>
        takeBinary (start.right src.length) 0 tokens >>= fun (e, rest) =>
          finish rest >>= fun _ => .ok e := by
  unfold descend
  cases scan start src with
  | error e => rfl
  | ok tokens =>
    rw [ok_bind, ok_bind, takeBinary, drop_zero]
    cases readBinary (start.right src.length) precedence tokens <;> rfl

/-- A text is read as a tree exactly when its tokens derive the tree. -/
theorem descend_ok_iff {src : List Char} {start : Position} {t : Tree}
    : (∃ e, descend src start = .ok e ∧ e.tree = t)
      ↔ ∃ tokens, scan start src = .ok tokens ∧ Binary 0 (tokens.map lexeme) t := by
  rw [descend_eq]
  constructor
  · rintro ⟨e, read, rfl⟩
    obtain ⟨tokens, scanned, read⟩ := exists_of_bind_ok read
    obtain ⟨⟨e', rest⟩, taken, read⟩ := exists_of_bind_ok read
    obtain ⟨_, finished, same⟩ := exists_of_bind_ok read
    cases same
    cases finish_ok_iff.mp finished
    have sound := reads_takeBinary (start.right src.length) tokens
    rw [taken] at sound
    obtain ⟨used, rfl, spans⟩ := sound
    exact ⟨_, scanned, by simpa using spans.derived⟩
  · rintro ⟨tokens, scanned, derived⟩
    have ends (n : Nat) : Ends n [] := trivial
    obtain ⟨e, taken, tree⟩ :=
      (@takeBinary_complete (start.right src.length) _ _ _ derived _ rfl [] (ends 1)).gives (ends 0)
    rw [append_nil] at taken
    refine ⟨e, ?_, tree⟩
    rw [scanned, ok_bind, taken, ok_bind]
    rfl

end Fxml.Expr
