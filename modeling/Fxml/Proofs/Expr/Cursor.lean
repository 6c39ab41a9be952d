import Fxml.Proofs.Expr.Parsing

/-! Readers with a cursor. They read what the readers by recursion on tokens do: the cursor stops at
the end mark, and every bracket that is closed is the one that was opened last. Only a number with
too many digits stops them elsewhere.
-/

open List Fxml.Text

namespace Fxml

/-- A lexeme that is no number with too many digits. -/
def Lexeme.isShort : Lexeme → Bool
  | .int digits => digits.length ≤ digitLimit
  | _ => true

namespace Expr

variable {α β : Type} {eof : Position} {ts more : List Token} {t : Token}
  {opened middle final : List Mark} {x : Parser α} {y : Except ExprError (α × List Token)}
  {f : α → Parser β} {g : α × List Token → Except ExprError (β × List Token)}
  {w : Except ExprError (β × List Token)} {n : Nat}

/-- The marks from a cursor on are those of some tokens and the end mark. -/
def Cursor.Before (eof : Position) (ts : List Token) (c : Cursor) : Prop :=
  c.marks.drop c.index = ts.map .ofToken ++ [⟨none, eof⟩]

/-- The mark of the first token, or the end mark. -/
def front (eof : Position) : List Token → Mark
  | [] => ⟨none, eof⟩
  | t :: _ => .ofToken t

/-- What a reading with a cursor comes to, if a reading of tokens comes to `y`. It halts only at a
number with too many digits.
-/
def Agrees (eof : Position) (ts : List Token) (final : List Mark)
    (y : Except ExprError (α × List Token))
    : Except (Refusal ExprError) (α × Cursor) → Prop
  | .ok (a, c) => ∃ used rest, y = .ok (a, rest) ∧ ts = used ++ rest ∧ (∀ t ∈ used, t.lexeme.isShort)
      ∧ c.Before eof rest ∧ c.opened = final
  | .error (.fault e) => y = .error e
  | .error (.halt reason) => ∃ digits pos, ⟨.int digits, pos⟩ ∈ ts ∧ digitLimit < digits.length
      ∧ reason = .unreadNumber digits.length

/-- A reader with a cursor before some tokens does what a reader of these tokens does. `opened` are
the open brackets before it, and `final` those after it.
-/
def Follows (eof : Position) (ts : List Token) (opened final : List Mark) (x : Parser α)
    (y : Except ExprError (α × List Token))
    : Prop :=
  ∀ c : Cursor, c.Before eof ts → c.opened = opened → Agrees eof ts final y (x.run c)

/-! ### Moves of the cursor -/

theorem Agrees.after (used : List Token) {r : Except (Refusal ExprError) (α × Cursor)}
    (short : ∀ t ∈ used, t.lexeme.isShort) (h : Agrees eof ts final y r)
    : Agrees eof (used ++ ts) final y r := by
  match r with
  | .ok (a, c) =>
    obtain ⟨used', rest, result, rfl, short', stands, brackets⟩ := h
    refine ⟨used ++ used', rest, result, by simp, ?_, stands, brackets⟩
    exact forall_mem_append.mpr ⟨short, short'⟩
  | .error (.fault e) => exact h
  | .error (.halt reason) =>
    obtain ⟨digits, pos, member, long⟩ := h
    exact ⟨digits, pos, mem_append_right _ member, long⟩

theorem run_bind_of_ok {a : α} {c c' : Cursor} (h : x.run c = .ok (a, c'))
    : (x >>= f).run c = (f a).run c' := by
  rw [StateT.run_bind, h]
  rfl

/-- One reader after another. -/
theorem Follows.bind (first : Follows eof ts opened middle x y)
    (next : ∀ a rest, y = .ok (a, rest) → rest <:+ ts
      → Follows eof rest middle final (f a) (g (a, rest)))
    : Follows eof ts opened final (x >>= f) (y >>= g) := by
  intro c stands brackets
  have agrees := first c stands brackets
  rw [StateT.run_bind]
  cases result : x.run c with
  | ok outcome =>
    obtain ⟨a, c'⟩ := outcome
    rw [result] at agrees
    obtain ⟨used, rest, rfl, rfl, short, stands', brackets'⟩ := agrees
    exact (next a rest rfl (suffix_append _ _) c' stands' brackets').after used short
  | error refusal =>
    rw [result] at agrees
    match refusal with
    | .fault e =>
      cases agrees
      rfl
    | .halt reason => exact agrees

theorem follows_pure (a : α) : Follows eof ts opened opened (pure a) (.ok (a, ts)) :=
  fun _ stands brackets => ⟨[], ts, rfl, rfl, forall_mem_nil _, stands, brackets⟩

theorem follows_fault (e : ExprError) : Follows eof ts opened final (Parser.fault e : Parser α) (.error e) :=
  fun _ _ _ => rfl

theorem follows_fault_bind (e : ExprError) : Follows eof ts opened final (Parser.fault e >>= f) (.error e) :=
  fun _ _ _ => rfl

theorem Follows.pos {p : Prop} [Decidable p] {x' : Parser α} (holds : p)
    (h : Follows eof ts opened final x y)
    : Follows eof ts opened final (if p then x else x') y := by
  rw [if_pos holds]
  exact h

theorem Follows.neg {p : Prop} [Decidable p] {x' : Parser α} (fails : ¬p)
    (h : Follows eof ts opened final x' y)
    : Follows eof ts opened final (if p then x else x') y := by
  rw [if_neg fails]
  exact h

theorem Cursor.Before.current {c : Cursor} (stands : c.Before eof ts)
    : Parser.current.run c = .ok (front eof ts, c) := by
  have found : c.marks[c.index]? = some (front eof ts) := by
    have first := congrArg head? stands
    rw [head?_drop] at first
    cases ts with
    | nil => simpa [front] using first
    | cons t more => simpa [front] using first
  unfold Parser.current
  simp only [StateT.run_bind, StateT.run_get, pure_bind, found]
  rfl

theorem follows_current {f : Mark → Parser β} (h : Follows eof ts opened final (f (front eof ts)) w)
    : Follows eof ts opened final (Parser.current >>= f) w := by
  intro c stands brackets
  rw [StateT.run_bind, stands.current]
  exact h c stands brackets

/-- The cursor moves over a token. -/
theorem Cursor.Before.advance {c : Cursor} (stands : c.Before eof (t :: more))
    : Parser.advance.run c = .ok (.ofToken t, { c with index := c.index + 1 })
      ∧ ({ c with index := c.index + 1 } : Cursor).Before eof more := by
  constructor
  · unfold Parser.advance
    rw [StateT.run_bind, stands.current]
    rfl
  · have rest := congrArg tail stands
    rw [tail_drop] at rest
    exact rest

theorem follows_advance {f : Mark → Parser β} (short : t.lexeme.isShort)
    (h : Follows eof more opened final (f (.ofToken t)) w)
    : Follows eof (t :: more) opened final (Parser.advance >>= f) w := by
  intro c stands brackets
  obtain ⟨moved, stands'⟩ := stands.advance
  rw [StateT.run_bind, moved]
  exact (h _ stands' brackets).after [t] (forall_mem_singleton.mpr short)

/-- A number with too many digits stops a reader that moves over it. -/
theorem follows_long {digits : String} {pos : Position} {f : Mark → Parser β}
    (long : digitLimit < digits.length)
    (halts : ∀ c, (f (.ofToken ⟨.int digits, pos⟩)).run c
      = .error (.halt (.unreadNumber digits.length)))
    : Follows eof (⟨.int digits, pos⟩ :: more) opened final (Parser.advance >>= f) w := by
  intro c stands _
  rw [run_bind_of_ok stands.advance.1, halts]
  exact ⟨digits, pos, mem_cons_self, long, rfl⟩

theorem follows_open {f : Mark → Parser β} (short : t.lexeme.isShort)
    (h : Follows eof more (.ofToken t :: opened) final (f (.ofToken t)) w)
    : Follows eof (t :: more) opened final (Parser.openBracket >>= f) w := by
  intro c stands brackets
  obtain ⟨moved, stands'⟩ := stands.advance
  let pushed : Cursor := { c with index := c.index + 1, opened := .ofToken t :: c.opened }
  have opens : Parser.openBracket.run c = .ok (.ofToken t, pushed) := by
    unfold Parser.openBracket
    rw [StateT.run_bind, moved]
    rfl
  have agrees := h pushed stands' (congrArg _ brackets)
  rw [StateT.run_bind, opens]
  exact agrees.after [t] (forall_mem_singleton.mpr short)

theorem isSymbol_front (s : Symbol) (ts : List Token)
    : (front eof ts).isSymbol s = atSymbol s ts := by
  cases ts with
  | nil => rfl
  | cons t more =>
    obtain ⟨lexeme, pos⟩ := t
    cases lexeme with
    | symbol s' => simp [front, Mark.isSymbol, Mark.ofToken, atSymbol]
    | _ => rfl

/-- The bracket that was opened last is closed, or it is blamed at the end. -/
theorem follows_close {opener : Token} {closer : Symbol} {f : Unit → Parser β}
    {g : List Token → Except ExprError (β × List Token)}
    (h : ∀ pos more, ts = ⟨.symbol closer, pos⟩ :: more → Follows eof more opened final (f ()) (g more))
    : Follows eof ts (.ofToken opener :: opened) final (Parser.closeBracket closer >>= f)
        (takeCloser opener closer ts >>= g) := by
  intro c stands brackets
  rw [takeCloser_eq]
  cases ts with
  | nil =>
    have blamed : (Parser.closeBracket closer).run c
        = .error (.fault ⟨.neverClosed opener.lexeme.text, opener.pos⟩) := by
      unfold Parser.closeBracket
      rw [run_bind_of_ok stands.current, isSymbol_front, if_neg (by simp [atSymbol]),
        if_pos (by simp [front]), run_bind_of_ok (StateT.run_get c), brackets]
      rfl
    rw [StateT.run_bind, blamed]
    rfl
  | cons t more =>
    obtain ⟨moved, stands'⟩ := stands.advance
    obtain ⟨lexeme, pos⟩ := t
    dsimp only
    split
    · rename_i closes
      subst closes
      let popped : Cursor := { c with index := c.index + 1, opened }
      have closed : (Parser.closeBracket closer).run c = .ok ((), popped) := by
        unfold Parser.closeBracket
        rw [run_bind_of_ok stands.current, isSymbol_front, if_pos (by simp [atSymbol]),
          run_bind_of_ok moved, run_bind_of_ok (StateT.run_get _), brackets]
        rfl
      have agrees := h pos more rfl popped stands' rfl
      rw [run_bind_of_ok closed]
      exact agrees.after [_] (forall_mem_singleton.mpr rfl)
    · rename_i other
      have expected : (Parser.closeBracket closer).run c
          = .error (.fault ⟨.expectedCloser closer.text lexeme.text, pos⟩) := by
        unfold Parser.closeBracket
        rw [run_bind_of_ok stands.current, if_neg (by simpa [front, Mark.isSymbol, Mark.ofToken]),
          if_neg (by simp [front, Mark.ofToken])]
        rfl
      rw [StateT.run_bind, expected]
      rfl

theorem pos_front (ts : List Token) : (front eof ts).pos = place eof ts := by
  cases ts <;> rfl

theorem isNone_front (ts : List Token) : (front eof ts).lexeme.isNone = ts.isEmpty := by
  cases ts <;> rfl

/-- A fault at the token that comes next. -/
theorem follows_fault_here {cause : ExprCause} (f : α → Parser β)
    : Follows eof ts opened final (Parser.fault ⟨cause, (front eof ts).pos⟩ >>= f)
        (.error ⟨cause, place eof ts⟩) := by
  rw [pos_front]
  exact follows_fault_bind _

theorem not_atSymbol {s : Symbol} (h : ∀ pos more, ts = ⟨.symbol s, pos⟩ :: more → False)
    : ¬atSymbol s ts = true := by
  unfold atSymbol
  split
  · rename_i s' pos more
    intro same
    cases eq_of_beq same
    exact h pos more rfl
  · exact Bool.false_ne_true

theorem follows_sees {s : Symbol} {f : Bool → Parser β}
    (h : Follows eof ts opened final (f (atSymbol s ts)) w)
    : Follows eof ts opened final (Parser.sees s >>= f) w := by
  unfold Parser.sees
  rw [bind_assoc]
  refine follows_current ?_
  rw [pure_bind, isSymbol_front]
  exact h

/-! ### The readers -/

variable (eof) in
/-- What the readers do that call one another less often than a bound. A reader of some tokens calls
others at most sixteen times for each token.
-/
structure Deep (depth : Nat) : Prop where
  binary {n : Nat} {ts : List Token} {opened : List Mark} (level : n ≤ 6)
      (enough : 16 * ts.length + 9 < depth + n)
    : Follows eof ts opened opened (Parser.binary depth (precedence.drop n)) (takeBinary eof n ts)
  operands {n : Nat} {left : Expr} {ts : List Token} {opened : List Mark} (loose : n < 6)
      (enough : 16 * ts.length + 5 < depth + n)
    : Follows eof ts opened opened
        (Parser.operands depth (operatorsAt n) (precedence.drop (n + 1)) left)
        (takeOperands eof n left ts)
  unary {ts : List Token} {opened : List Mark} (enough : 16 * ts.length + 2 < depth)
    : Follows eof ts opened opened (Parser.unary depth) (takeUnary eof ts)
  postfixed {ts : List Token} {opened : List Mark} (enough : 16 * ts.length + 1 < depth)
    : Follows eof ts opened opened (Parser.postfixed depth) (takePostfix eof ts)
  suffixes {e : Expr} {ts : List Token} {opened : List Mark} (enough : 16 * ts.length < depth)
    : Follows eof ts opened opened (Parser.suffixes depth e) (takeSuffixes eof e ts)
  arguments {pos : Position} {ts : List Token} {opened : List Mark}
      (enough : 16 * ts.length + 15 < depth)
    : Follows eof (⟨.symbol .leftParen, pos⟩ :: ts) opened opened (Parser.arguments depth)
        (takeArguments eof ⟨.symbol .leftParen, pos⟩ ts)
  primary {ts : List Token} {opened : List Mark} (enough : 16 * ts.length < depth)
    : Follows eof ts opened opened (Parser.primary depth) (takePrimary eof ts)
  items {ts : List Token} {opened : List Mark} (enough : 16 * ts.length + 15 < depth)
    : Follows eof ts opened opened (Parser.items depth) (takeItems eof ts)
  entries {ts : List Token} {opened : List Mark} (enough : 16 * ts.length + 15 < depth)
    : Follows eof ts opened opened (Parser.entries depth) (takeEntries eof ts)
  key {ts : List Token} {opened : List Mark} (enough : 16 * ts.length + 14 < depth)
    : Follows eof ts opened opened (Parser.key depth) (takeKey eof ts)

theorem operator?_front (ops : List BinaryOp) (ts : List Token)
    : (front eof ts).operator? ops = (operatorAt? ops ts).map (·.1) := by
  cases ts with
  | nil => rfl
  | cons t more =>
    obtain ⟨lexeme, pos⟩ := t
    cases lexeme with
    | symbol s =>
      simp only [front, Mark.ofToken, Mark.operator?, operatorAt?]
      cases binaryOp? s with
      | none => rfl
      | some op =>
        simp only [Option.filter_some, decide_eq_true_eq]
        split <;> rfl
    | _ => rfl

/-- What stands in brackets of its own. -/
theorem follows_bracketed {s closer : Symbol} {pos : Position} (a : α → Expr)
    (h : Follows eof ts (.ofToken ⟨.symbol s, pos⟩ :: opened) (.ofToken ⟨.symbol s, pos⟩ :: opened) x y)
    : Follows eof (⟨.symbol s, pos⟩ :: ts) opened opened
        (Parser.openBracket >>= fun _ => x >>= fun found =>
          Parser.closeBracket closer >>= fun _ => pure (a found))
        (y >>= fun (found, rest) =>
          takeCloser ⟨.symbol s, pos⟩ closer rest >>= fun rest => .ok (a found, rest)) :=
  follows_open rfl (h.bind fun _ _ _ _ => follows_close fun _ _ _ => follows_pure _)

theorem noPrimary_front (ts : List Token) : (front eof ts).noPrimary = noPrimary eof ts := by
  cases ts with
  | nil => rfl
  | cons t more =>
    obtain ⟨lexeme, pos⟩ := t
    cases lexeme with
    | symbol s => cases s <;> rfl
    | _ => rfl

namespace Deep

variable {depth : Nat} (below : Deep eof depth)

include below

theorem binary_next (level : n ≤ 6) (enough : 16 * ts.length + 9 < depth + 1 + n)
    : Follows eof ts opened opened (Parser.binary (depth + 1) (precedence.drop n))
        (takeBinary eof n ts) := by
  rcases Nat.lt_or_eq_of_le level with loose | rfl
  · rw [takeBinary_of_lt eof loose, drop_precedence loose, Parser.binary]
    refine (below.binary loose (by omega)).bind fun left rest _ part => ?_
    have shorter := part.length_le
    exact below.operands loose (by omega)
  · rw [takeBinary_six, show precedence.drop 6 = [] from rfl, Parser.binary]
    exact below.unary (by omega)

theorem operands_next {left : Expr} (loose : n < 6) (enough : 16 * ts.length + 5 < depth + 1 + n)
    : Follows eof ts opened opened
        (Parser.operands (depth + 1) (operatorsAt n) (precedence.drop (n + 1)) left)
        (takeOperands eof n left ts) := by
  rw [takeOperands_eq, Parser.operands]
  refine follows_current ?_
  rw [operator?_front]
  cases ts with
  | nil => exact follows_pure left
  | cons t more =>
    dsimp only
    cases found : operatorAt? (operatorsAt n) (t :: more) with
    | none => exact follows_pure left
    | some operator =>
      obtain ⟨op, pos⟩ := operator
      obtain ⟨rfl, rfl⟩ := operatorAt?_eq_some.mp found
      simp only [length_cons] at enough
      refine follows_advance rfl ?_
      refine (below.binary loose (by omega)).bind fun right rest read _ => ?_
      have shorter : rest.length < more.length := bound_of_plain read
      exact below.operands loose (by omega)

theorem unary_next (enough : 16 * ts.length + 2 < depth + 1)
    : Follows eof ts opened opened (Parser.unary (depth + 1)) (takeUnary eof ts) := by
  rw [takeUnary_eq]
  split
  all_goals
    rw [Parser.unary]
    refine follows_current ?_
    rw [isSymbol_front, isSymbol_front]
  · simp only [length_cons] at enough
    refine .pos rfl (follows_advance rfl ?_)
    exact (below.unary (by omega)).bind fun _ _ _ _ => follows_pure _
  · simp only [length_cons] at enough
    refine .neg Bool.false_ne_true (.pos rfl (follows_advance rfl ?_))
    exact (below.unary (by omega)).bind fun _ _ _ _ => follows_pure _
  · rename_i noMinus noBang
    exact .neg (not_atSymbol noMinus) (.neg (not_atSymbol noBang) (below.postfixed (by omega)))

theorem postfixed_next (enough : 16 * ts.length + 1 < depth + 1)
    : Follows eof ts opened opened (Parser.postfixed (depth + 1)) (takePostfix eof ts) := by
  rw [takePostfix_eq, Parser.postfixed]
  refine (below.primary (by omega)).bind fun e rest _ part => ?_
  have shorter := part.length_le
  exact below.suffixes (by omega)

theorem suffixes_next {e : Expr} (enough : 16 * ts.length < depth + 1)
    : Follows eof ts opened opened (Parser.suffixes (depth + 1) e) (takeSuffixes eof e ts) := by
  rw [takeSuffixes_eq]
  split
  all_goals
    rw [Parser.suffixes]
    refine follows_sees ?_
  · simp only [length_cons] at enough
    refine .pos rfl (follows_advance rfl (follows_current ?_))
    refine follows_advance rfl (follows_sees (.pos rfl ?_))
    refine (below.arguments (by omega)).bind fun args rest read part => ?_
    have shorter := bound_of_plain read
    exact below.suffixes (by omega)
  · rename_i noCall
    simp only [length_cons] at enough
    refine .pos rfl (follows_advance rfl (follows_current ?_))
    refine follows_advance rfl (follows_sees (.neg (not_atSymbol noCall) ?_))
    exact below.suffixes (by omega)
  · rename_i dot more noCall noName
    refine .pos rfl (follows_advance rfl (follows_current ?_))
    rw [pos_front]
    split
    · rename_i name named
      cases more with
      | nil => cases named
      | cons t more =>
        obtain ⟨lexeme, pos⟩ := t
        cases named
        exact (noName _ _ _ rfl).elim
    · exact follows_fault _
  · rename_i pos more
    simp only [length_cons] at enough
    refine .neg Bool.false_ne_true (follows_sees (.pos rfl (follows_open rfl (follows_current ?_))))
    rw [isSymbol_front]
    split
    · exact follows_fault_here _
    · refine (below.binary (Nat.zero_le 6) (by omega)).bind fun key rest read part => ?_
      have shorter : rest.length < more.length := bound_of_plain read
      refine follows_close fun pos' after same => ?_
      subst same
      exact below.suffixes (by simp only [length_cons] at shorter; omega)
  · rename_i noDot noBracket
    refine .neg (not_atSymbol fun pos more => noDot pos more) (follows_sees ?_)
    exact .neg (not_atSymbol noBracket) (follows_pure e)

theorem arguments_next {pos : Position} (enough : 16 * ts.length + 15 < depth + 1)
    : Follows eof (⟨.symbol .leftParen, pos⟩ :: ts) opened opened (Parser.arguments (depth + 1))
        (takeArguments eof ⟨.symbol .leftParen, pos⟩ ts) := by
  rw [takeArguments_eq, Parser.arguments]
  refine follows_open rfl (follows_sees ?_)
  dsimp only
  split
  · exact follows_close fun _ _ _ => follows_pure _
  · refine (below.binary (Nat.zero_le 6) (by omega)).bind fun arg rest _ _ => ?_
    refine follows_current ?_
    rw [isSymbol_front]
    dsimp only
    split
    · exact follows_fault_here _
    · exact follows_close fun _ _ _ => follows_pure _

theorem primary_next (enough : 16 * ts.length < depth + 1)
    : Follows eof ts opened opened (Parser.primary (depth + 1)) (takePrimary eof ts) := by
  rw [takePrimary_eq]
  split
  case h_9 noInt noFloat noString noHalves noName noParen noBracket noBrace =>
    rw [Parser.primary, ← noPrimary_front]
    refine follows_current ?_
    cases ts with
    | nil => exact follows_fault _
    | cons t more =>
      obtain ⟨lexeme, pos⟩ := t
      cases lexeme with
      | int digits => exact (noInt _ _ _ rfl).elim
      | float text => exact (noFloat _ _ _ rfl).elim
      | string value => exact (noString _ _ _ rfl).elim
      | halves value => exact (noHalves _ _ _ rfl).elim
      | ident name => exact (noName _ _ _ rfl).elim
      | symbol s =>
        cases s with
        | leftParen => exact (noParen _ _ rfl).elim
        | leftBracket => exact (noBracket _ _ rfl).elim
        | leftBrace => exact (noBrace _ _ rfl).elim
        | _ => exact follows_fault _
  all_goals
    rw [Parser.primary]
    refine follows_current ?_
    simp only [length_cons] at enough
  case h_1 digits pos more =>
    by_cases long : digitLimit < digits.length
    · refine follows_long long fun c => ?_
      rw [if_pos long]
      rfl
    · have short : (Lexeme.int digits).isShort := decide_eq_true (Nat.le_of_not_lt long)
      exact follows_advance short (.neg long (follows_pure _))
  case h_2 | h_3 | h_4 => exact follows_advance rfl (follows_pure _)
  case h_5 name pos more =>
    refine follows_advance rfl ?_
    cases keyword? name with
    | some value => exact follows_pure _
    | none => exact follows_pure _
  case h_6 => exact follows_bracketed id (below.binary (Nat.zero_le 6) (by omega))
  case h_7 => exact follows_bracketed (.list _) (below.items (by omega))
  case h_8 => exact follows_bracketed (.map _) (below.entries (by omega))

theorem items_next (enough : 16 * ts.length + 15 < depth + 1)
    : Follows eof ts opened opened (Parser.items (depth + 1)) (takeItems eof ts) := by
  rw [takeItems_eq, Parser.items]
  refine follows_current ?_
  rw [isSymbol_front, isNone_front]
  dsimp only
  split
  · exact follows_pure _
  · refine (below.binary (Nat.zero_le 6) (by omega)).bind fun item rest read part => ?_
    have shorter : rest.length < ts.length := bound_of_plain read
    dsimp only
    split
    · simp only [length_cons] at shorter
      refine follows_sees (.pos rfl (follows_advance rfl ?_))
      exact (below.items (by omega)).bind fun _ _ _ _ => follows_pure _
    · rename_i noComma
      exact follows_sees (.neg (not_atSymbol noComma) (follows_pure _))

theorem entries_next (enough : 16 * ts.length + 15 < depth + 1)
    : Follows eof ts opened opened (Parser.entries (depth + 1)) (takeEntries eof ts) := by
  rw [takeEntries_eq, Parser.entries]
  refine follows_current ?_
  rw [isSymbol_front, isNone_front]
  dsimp only
  split
  · exact follows_pure _
  · refine (below.key (by omega)).bind fun key rest read part => ?_
    have shorter : rest.length < ts.length := bound_of_plain read
    dsimp only
    split
    · simp only [length_cons] at shorter
      refine follows_current (.neg Bool.false_ne_true (follows_advance rfl ?_))
      refine (below.binary (Nat.zero_le 6) (by omega)).bind fun value rest' read' part' => ?_
      have shorter' := bound_of_plain read'
      dsimp only
      split
      · simp only [length_cons] at shorter'
        refine follows_sees (.pos rfl (follows_advance rfl ?_))
        exact (below.entries (by omega)).bind fun _ _ _ _ => follows_pure _
      · rename_i noComma
        exact follows_sees (.neg (not_atSymbol noComma) (follows_pure _))
    · rename_i noColon
      refine follows_current (.pos ?_ (follows_fault_here _))
      rw [isSymbol_front]
      simpa using not_atSymbol noColon

theorem key_next (enough : 16 * ts.length + 14 < depth + 1)
    : Follows eof ts opened opened (Parser.key (depth + 1)) (takeKey eof ts) := by
  rw [takeKey_eq]
  split
  all_goals
    rw [Parser.key]
    refine follows_current ?_
  · simp only [front, Mark.ofToken]
    split
    · exact follows_advance rfl (follows_pure _)
    · exact below.binary (Nat.zero_le 6) (by omega)
  · rename_i noName
    split
    · rename_i name named
      cases ts with
      | nil => cases named
      | cons t more =>
        obtain ⟨lexeme, pos⟩ := t
        cases named
        exact (noName _ _ _ rfl).elim
    · exact below.binary (Nat.zero_le 6) (by omega)

end Deep

theorem deep (eof : Position) (depth : Nat) : Deep eof depth := by
  induction depth with
  | zero => constructor <;> intros <;> omega
  | succ depth ih =>
    exact ⟨ih.binary_next, ih.operands_next, ih.unary_next, ih.postfixed_next, ih.suffixes_next,
      ih.arguments_next, ih.primary_next, ih.items_next, ih.entries_next, ih.key_next⟩

/-! ### Whole texts -/

theorem follows_finish {f : Unit → Parser β}
    (h : ts = [] → Follows eof ts opened final (f ()) w)
    : Follows eof ts opened final (Parser.finish >>= f) (finish ts >>= fun _ => w) := by
  unfold Parser.finish
  rw [bind_assoc]
  refine follows_current ?_
  cases ts with
  | nil => exact h rfl
  | cons t more =>
    obtain ⟨lexeme, pos⟩ := t
    have blamed : finish (⟨lexeme, pos⟩ :: more) = .error (Mark.ofToken ⟨lexeme, pos⟩).leftOver := by
      cases lexeme with
      | symbol s => cases s <;> rfl
      | _ => rfl
    rw [blamed]
    exact follows_fault_bind _

variable {src : List Char} {start : Position} {e : Expr}

/-- What a reading of a text comes to, if its tokens are read as `y`. -/
def Settles (src : List Char) (start : Position) (y : Except ExprError Expr)
    : Except (Refusal ExprError) Expr → Prop
  | .ok e => y = .ok e ∧ ∀ tokens, Token.scan start src = .ok tokens → ∀ t ∈ tokens, t.lexeme.isShort
  | .error (.fault e) => y = .error e
  | .error (.halt reason) => ∃ tokens digits pos, Token.scan start src = .ok tokens
      ∧ ⟨.int digits, pos⟩ ∈ tokens ∧ digitLimit < digits.length
      ∧ reason = .unreadNumber digits.length

/-- The cursor before the first of some tokens. -/
def Cursor.initial (eof : Position) (tokens : List Token) : Cursor where
  marks := tokens.map .ofToken ++ [⟨none, eof⟩]

theorem readAll_eq {reader : Nat → Parser Expr} {tokens : List Token}
    (scanned : Token.scan start src = .ok tokens)
    : readAll src start reader
      = ((reader (16 * (tokens.length + 1)) >>= fun e => Parser.finish >>= fun _ => pure e).run
          (.initial (start.right src.length) tokens)).map (·.1) := by
  have depth : (Cursor.initial (start.right src.length) tokens).marks.length = tokens.length + 1 := by
    simp [Cursor.initial]
  unfold readAll marks
  rw [scanned, ← depth]
  rfl

theorem map_finish (r : Except ExprError (Expr × List Token))
    : (r >>= fun (e, rest) => finish rest >>= fun _ => .ok e)
      = (r >>= fun (e, rest) => finish rest >>= fun _ => .ok (e, rest)).map Prod.fst := by
  cases r with
  | error e => rfl
  | ok outcome =>
    simp only [ok_bind]
    cases finish outcome.2 <;> rfl

/-- A reader whose cursor stands before the first token reads a whole text. -/
theorem settles_readAll {reader : Nat → Parser Expr}
    {take : List Token → Except ExprError (Expr × List Token)}
    (h : ∀ tokens, Follows (start.right src.length) tokens [] [] (reader (16 * (tokens.length + 1)))
      (take tokens))
    : Settles src start (Token.scan start src >>= fun tokens => take tokens >>= fun (e, rest) =>
        finish rest >>= fun _ => .ok e) (readAll src start reader) := by
  cases scanned : Token.scan start src with
  | error e =>
    unfold readAll marks
    rw [scanned]
    rfl
  | ok tokens =>
    have whole : Follows (start.right src.length) tokens [] []
        (reader (16 * (tokens.length + 1)) >>= fun e => Parser.finish >>= fun _ => pure e)
        (take tokens >>= fun (e, rest) => finish rest >>= fun _ => .ok (e, rest)) :=
      (h tokens).bind fun e rest _ _ => follows_finish fun _ => follows_pure e
    have agrees := whole (.initial _ tokens) rfl rfl
    rw [readAll_eq scanned, ok_bind, map_finish]
    cases result : StateT.run _ (Cursor.initial _ tokens) with
    | ok outcome =>
      obtain ⟨e, c⟩ := outcome
      rw [result] at agrees
      obtain ⟨used, rest, read, rfl, short, -⟩ := agrees
      refine ⟨by rw [read]; rfl, fun tokens scanned' => ?_⟩
      cases scanned.symm.trans scanned'
      obtain ⟨⟨e', rest'⟩, taken, read⟩ := exists_of_bind_ok read
      obtain ⟨_, finished, same⟩ := exists_of_bind_ok read
      cases same
      cases finish_ok_iff.mp finished
      simpa using short
    | error refusal =>
      rw [result] at agrees
      match refusal with
      | .fault e =>
        rw [show _ = Except.error e from agrees]
        rfl
      | .halt reason =>
        obtain ⟨digits, pos, member, long, same⟩ := agrees
        exact ⟨tokens, digits, pos, scanned, member, long, same⟩

theorem settles_read (src : List Char) (start : Position)
    : Settles src start (descend src start) (read src start) := by
  rw [descend_eq]
  exact settles_readAll fun tokens => (deep _ _).binary (Nat.zero_le 6) (by omega)

/-- A text is read exactly when its tokens are, and none of them is a number with too many digits. -/
theorem Settles.ok_iff {y : Except ExprError Expr} {r : Except (Refusal ExprError) Expr}
    (h : Settles src start y r)
    : r = .ok e
      ↔ y = .ok e ∧ ∀ tokens, Token.scan start src = .ok tokens → ∀ t ∈ tokens, t.lexeme.isShort := by
  match r with
  | .ok e' =>
    obtain ⟨rfl, short⟩ := h
    exact ⟨fun same => by cases same; exact ⟨rfl, short⟩, fun ⟨same, _⟩ => by cases same; rfl⟩
  | .error (.fault e') =>
    cases h
    exact ⟨nofun, nofun⟩
  | .error (.halt reason) =>
    obtain ⟨tokens, digits, pos, scanned, member, long, -⟩ := h
    refine ⟨nofun, fun ⟨_, short⟩ => ?_⟩
    have within := short tokens scanned _ member
    simp only [Lexeme.isShort, decide_eq_true_eq] at within
    omega

/-- A text is read as a tree exactly when its tokens derive the tree, and none of them is a number with
too many digits.
-/
theorem read_ok_iff {t : Tree}
    : (∃ e, read src start = .ok e ∧ e.tree = t)
      ↔ ∃ tokens, Token.scan start src = .ok tokens ∧ Derives.Binary 0 (tokens.map Token.lexeme) t
        ∧ ∀ token ∈ tokens, token.lexeme.isShort := by
  simp only [(settles_read src start).ok_iff]
  constructor
  · rintro ⟨e, ⟨descends, short⟩, same⟩
    obtain ⟨tokens, scanned, derived⟩ := descend_ok_iff.mp ⟨e, descends, same⟩
    exact ⟨tokens, scanned, derived, short tokens scanned⟩
  · rintro ⟨tokens, scanned, derived, short⟩
    obtain ⟨e, descends, same⟩ := descend_ok_iff.mpr ⟨tokens, scanned, derived⟩
    refine ⟨e, ⟨descends, fun tokens' scanned' => ?_⟩, same⟩
    cases scanned.symm.trans scanned'
    exact short

end Expr

end Fxml
