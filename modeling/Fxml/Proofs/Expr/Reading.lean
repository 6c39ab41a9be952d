import Fxml.Proofs.Expr.Descent
import Fxml.Proofs.Expr.Grammar
import Fxml.Proofs.Outcome
import Mathlib.Data.Nat.Init

/-! What readers of expressions take from tokens. An expression is derived from the tokens used for
it and its nodes stand at their places; a fault stands at a token or at the end of the text.
-/

open List

namespace Fxml.Expr

open Derives

variable {α β : Type} {P Q : List Token → Prop} {r : Except ExprError (α × { rest // P rest })}
  {n : Nat}

/-! ### The readers without their bounds -/

def plain {α : Type} {P : List Token → Prop} (r : Except ExprError (α × { rest // P rest }))
    : Except ExprError (α × List Token) :=
  r.map fun (a, rest) => (a, rest.val)

theorem bound_of_plain {a : α} {rest : List Token} (h : plain r = .ok (a, rest)) : P rest := by
  obtain ⟨⟨a, rest, bound⟩, _, same⟩ := exists_of_map_ok h
  cases same
  exact bound

theorem plain_bind {f : α × { rest // P rest } → Except ExprError (β × { rest // Q rest })}
    {g : α × List Token → Except ExprError (β × List Token)}
    (h : ∀ a rest bound, plain (f (a, ⟨rest, bound⟩)) = g (a, rest))
    : plain (r >>= f) = plain r >>= g := by
  cases r with
  | error e => rfl
  | ok r => exact h r.1 r.2.val r.2.property

/-- What is read can be changed, and the bound weakened, in the end. -/
theorem plain_pure {f : α → β} {weaker : ∀ x : α × { rest // P rest }, Q x.2.val}
    : plain (r >>= fun x => pure (f x.1, ⟨x.2.val, weaker x⟩))
      = plain r >>= fun (a, rest) => .ok (f a, rest) := by
  cases r <;> rfl

theorem plain_weaken {weaker : ∀ x : α × { rest // P rest }, Q x.2.val}
    : plain (r >>= fun x => pure (x.1, ⟨x.2.val, weaker x⟩)) = plain r := by
  cases r <;> rfl

@[simp]
theorem ok_bind (a : α) (f : α → Except ExprError β) : (.ok a >>= f) = f a := rfl

/-- The operators of a level. -/
def operatorsAt (n : Nat) : List BinaryOp := precedence[n]?.getD []

theorem mem_operatorsAt {op : BinaryOp} : op ∈ operatorsAt n ↔ op.level = n := by
  match n with
  | 0 | 1 | 2 | 3 | 4 | 5 => cases op <;> decide
  | n + 6 => cases op <;> simp [operatorsAt, precedence, BinaryOp.level]

theorem drop_precedence (h : n < 6)
    : precedence.drop n = operatorsAt n :: precedence.drop (n + 1) := by
  match n with
  | 0 | 1 | 2 | 3 | 4 | 5 => rfl

variable (eof : Position)

def takeBinary (n : Nat) (ts : List Token) : Except ExprError (Expr × List Token) :=
  plain (readBinary eof (precedence.drop n) ts)

def takeOperands (n : Nat) (left : Expr) (ts : List Token) : Except ExprError (Expr × List Token) :=
  plain (readOperands eof (operatorsAt n) (precedence.drop (n + 1)) left ts)

def takeUnary (ts : List Token) : Except ExprError (Expr × List Token) := plain (readUnary eof ts)

def takePostfix (ts : List Token) : Except ExprError (Expr × List Token) :=
  plain (readPostfix eof ts)

def takeSuffixes (e : Expr) (ts : List Token) : Except ExprError (Expr × List Token) :=
  plain (readSuffixes eof e ts)

def takeArguments (opener : Token) (ts : List Token) : Except ExprError (List Expr × List Token) :=
  plain (readArguments eof opener ts)

def takePrimary (ts : List Token) : Except ExprError (Expr × List Token) :=
  plain (readPrimary eof ts)

def takeItems (ts : List Token) : Except ExprError (List Expr × List Token) :=
  plain (readItems eof ts)

def takeEntries (ts : List Token) : Except ExprError (List (Expr × Expr) × List Token) :=
  plain (readEntries eof ts)

def takeKey (ts : List Token) : Except ExprError (Expr × List Token) := plain (readKey eof ts)

def takeCloser (opener : Token) (closer : Symbol) (ts : List Token) : Except ExprError (List Token) :=
  (closeBracket opener closer ts).map (·.val)

theorem takeBinary_six (ts : List Token) : takeBinary eof 6 ts = takeUnary eof ts := by
  unfold takeBinary takeUnary
  rw [show precedence.drop 6 = [] from rfl, readBinary]

theorem takeBinary_of_lt (h : n < 6) (ts : List Token)
    : takeBinary eof n ts
      = takeBinary eof (n + 1) ts >>= fun (left, rest) => takeOperands eof n left rest := by
  unfold takeBinary
  rw [drop_precedence h, readBinary]
  refine plain_bind fun left rest bound => ?_
  exact plain_weaken

theorem takeOperands_eq (n : Nat) (left : Expr) (ts : List Token)
    : takeOperands eof n left ts =
        match ts with
        | [] => .ok (left, [])
        | t :: more =>
          match operatorAt? (operatorsAt n) (t :: more) with
          | none => .ok (left, t :: more)
          | some (op, pos) => takeBinary eof (n + 1) more >>= fun (right, rest) =>
            takeOperands eof n (.binary pos op left right) rest := by
  unfold takeOperands
  rw [readOperands.eq_def]
  cases ts with
  | nil => rfl
  | cons t more =>
    dsimp only
    cases operatorAt? (operatorsAt n) (t :: more) with
    | none => rfl
    | some found => exact plain_bind fun right rest bound => plain_weaken

theorem takeUnary_eq (ts : List Token)
    : takeUnary eof ts =
        match ts with
        | ⟨.symbol .minus, pos⟩ :: more => takeUnary eof more >>= fun (operand, rest) =>
          .ok (applyUnary pos .neg operand, rest)
        | ⟨.symbol .bang, pos⟩ :: more => takeUnary eof more >>= fun (operand, rest) =>
          .ok (applyUnary pos .not operand, rest)
        | ts => takePostfix eof ts := by
  refine (?_ : ∀ r, _ = r → takeUnary eof ts = r) _ rfl
  intro r value
  unfold takeUnary
  rw [readUnary.eq_def]
  split <;> subst value
  · exact plain_pure
  · exact plain_pure
  · rename_i noMinus noBang
    split
    · exact (noMinus _ _ rfl).elim
    · exact (noBang _ _ rfl).elim
    · rfl

theorem takePostfix_eq (ts : List Token)
    : takePostfix eof ts = takePrimary eof ts >>= fun (e, rest) => takeSuffixes eof e rest := by
  unfold takePostfix
  rw [readPostfix.eq_def]
  exact plain_bind fun e rest bound => plain_weaken

theorem takeCloser_eq (opener : Token) (closer : Symbol) (ts : List Token)
    : takeCloser opener closer ts =
        match ts with
        | [] => .error ⟨.neverClosed opener.lexeme.text, opener.pos⟩
        | t :: rest =>
          if t.lexeme = .symbol closer then .ok rest
          else .error ⟨.expectedCloser closer.text t.lexeme.text, t.pos⟩ := by
  unfold takeCloser closeBracket
  cases ts with
  | nil => rfl
  | cons t rest =>
    simp only [beq_iff_eq]
    split <;> rfl

theorem plain_close {opener : Token} {closer : Symbol} {ts : List Token}
    {f : Shorter ts → Except ExprError (β × { rest // Q rest })}
    {g : List Token → Except ExprError (β × List Token)}
    (h : ∀ rest bound, plain (f ⟨rest, bound⟩) = g rest)
    : plain (closeBracket opener closer ts >>= f) = takeCloser opener closer ts >>= g := by
  unfold takeCloser
  cases closeBracket opener closer ts with
  | error e => rfl
  | ok rest => exact h rest.val rest.property

theorem takeSuffixes_eq (e : Expr) (ts : List Token)
    : takeSuffixes eof e ts =
        match ts with
        | ⟨.symbol .dot, _⟩ :: ⟨.ident name, pos⟩ :: ⟨.symbol .leftParen, parenPos⟩ :: more =>
          takeArguments eof ⟨.symbol .leftParen, parenPos⟩ more >>= fun (args, rest) =>
            takeSuffixes eof (.call pos e name args) rest
        | ⟨.symbol .dot, _⟩ :: ⟨.ident name, pos⟩ :: more => takeSuffixes eof (.path pos e name) more
        | ⟨.symbol .dot, _⟩ :: more => .error ⟨.emptySegment, place eof more⟩
        | ⟨.symbol .leftBracket, pos⟩ :: more =>
          if atSymbol .rightBracket more then .error ⟨.emptyIndex, place eof more⟩
          else takeBinary eof 0 more >>= fun (key, rest) =>
            takeCloser ⟨.symbol .leftBracket, pos⟩ .rightBracket rest >>= fun rest =>
              takeSuffixes eof (.index pos e key) rest
        | ts => .ok (e, ts) := by
  refine (?_ : ∀ r, _ = r → takeSuffixes eof e ts = r) _ rfl
  intro r value
  unfold takeSuffixes
  rw [readSuffixes.eq_def]
  split <;> subst value
  · exact plain_bind fun args rest bound => plain_weaken
  · rename_i noCall
    split
    · rename_i same
      cases same
      exact (noCall _ _ rfl).elim
    · rename_i same
      cases same
      exact plain_weaken
    · rename_i noPath same
      cases same
      exact (noPath _ _ _ rfl).elim
    · rename_i same
      cases same
    · rename_i noDot _
      exact (noDot _ _ rfl).elim
  · split <;> simp_all [plain, Except.map]
  · dsimp only
    split
    · rfl
    · refine plain_bind fun key rest bound => ?_
      exact plain_close fun rest bound => plain_weaken
  · split <;> simp_all [plain, Except.map]
    rfl

theorem takeArguments_eq (opener : Token) (ts : List Token)
    : takeArguments eof opener ts =
        if atSymbol .rightParen ts then takeCloser opener .rightParen ts >>= fun rest => .ok ([], rest)
        else takeBinary eof 0 ts >>= fun (arg, rest) =>
          if atSymbol .comma rest then .error ⟨.tooManyArguments, place eof rest⟩
          else takeCloser opener .rightParen rest >>= fun rest => .ok ([arg], rest) := by
  unfold takeArguments
  rw [readArguments.eq_def]
  split
  · exact plain_close fun rest bound => rfl
  · refine plain_bind fun arg rest bound => ?_
    dsimp only
    split
    · rfl
    · exact plain_close fun rest bound => rfl

theorem takePrimary_eq (ts : List Token)
    : takePrimary eof ts =
        match ts with
        | ⟨.int digits, pos⟩ :: more =>
          .ok (.const pos (.int (Text.digitsNumber digits.toList)), more)
        | ⟨.float text, pos⟩ :: more => .ok (.const pos (.float (floatValue text)), more)
        | ⟨.string value, pos⟩ :: more => .ok (.const pos (.text value), more)
        | ⟨.halves value, pos⟩ :: more => .ok (.halves pos value, more)
        | ⟨.ident name, pos⟩ :: more =>
          match keyword? name with
          | some value => .ok (.const pos value, more)
          | none => .ok (.ref pos name, more)
        | ⟨.symbol .leftParen, pos⟩ :: more => takeBinary eof 0 more >>= fun (e, rest) =>
          takeCloser ⟨.symbol .leftParen, pos⟩ .rightParen rest >>= fun rest => .ok (e, rest)
        | ⟨.symbol .leftBracket, pos⟩ :: more => takeItems eof more >>= fun (items, rest) =>
          takeCloser ⟨.symbol .leftBracket, pos⟩ .rightBracket rest >>= fun rest =>
            .ok (.list pos items, rest)
        | ⟨.symbol .leftBrace, pos⟩ :: more => takeEntries eof more >>= fun (entries, rest) =>
          takeCloser ⟨.symbol .leftBrace, pos⟩ .rightBrace rest >>= fun rest =>
            .ok (.map pos entries, rest)
        | ts => .error (noPrimary eof ts) := by
  refine (?_ : ∀ r, _ = r → takePrimary eof ts = r) _ rfl
  intro r value
  unfold takePrimary
  rw [readPrimary.eq_def]
  split <;> subst value
  · rfl
  · rfl
  · rfl
  · rfl
  · rename_i name _ _
    dsimp only
    cases keyword? name <;> rfl
  · exact plain_bind fun e rest bound => plain_close fun rest bound => rfl
  · exact plain_bind fun items rest bound => plain_close fun rest bound => rfl
  · exact plain_bind fun entries rest bound => plain_close fun rest bound => rfl
  · split <;> simp_all [plain, Except.map]

theorem takeItems_eq (ts : List Token)
    : takeItems eof ts =
        if ts.isEmpty || atSymbol .rightBracket ts then .ok ([], ts)
        else takeBinary eof 0 ts >>= fun (item, rest) =>
          match rest with
          | ⟨.symbol .comma, _⟩ :: more => takeItems eof more >>= fun (items, rest) =>
            .ok (item :: items, rest)
          | rest => .ok ([item], rest) := by
  unfold takeItems
  rw [readItems.eq_def]
  split
  · rfl
  · refine plain_bind fun item rest bound => ?_
    dsimp only
    split
    · exact plain_pure
    · rename_i noComma
      split
      · exact (noComma _ _ _ rfl HEq.rfl).elim
      · rfl

theorem takeEntries_eq (ts : List Token)
    : takeEntries eof ts =
        if ts.isEmpty || atSymbol .rightBrace ts then .ok ([], ts)
        else takeKey eof ts >>= fun (key, rest) =>
          match rest with
          | ⟨.symbol .colon, _⟩ :: more => takeBinary eof 0 more >>= fun (value, rest) =>
            match rest with
            | ⟨.symbol .comma, _⟩ :: more => takeEntries eof more >>= fun (entries, rest) =>
              .ok ((key, value) :: entries, rest)
            | rest => .ok ([(key, value)], rest)
          | rest => .error ⟨.missingColon, place eof rest⟩ := by
  unfold takeEntries
  rw [readEntries.eq_def]
  split
  · rfl
  · refine plain_bind fun key rest bound => ?_
    dsimp only
    split
    · refine plain_bind fun value rest bound => ?_
      dsimp only
      split
      · exact plain_pure
      · rename_i noComma
        split
        · exact (noComma _ _ _ rfl HEq.rfl).elim
        · rfl
    · rename_i noColon
      split
      · exact (noColon _ _ _ rfl HEq.rfl).elim
      · rfl

theorem takeKey_eq (ts : List Token)
    : takeKey eof ts =
        match ts with
        | ⟨.ident name, pos⟩ :: more =>
          if (keyword? name).isNone then .ok (.const pos (.text name), more)
          else takeBinary eof 0 (⟨.ident name, pos⟩ :: more)
        | ts => takeBinary eof 0 ts := by
  refine (?_ : ∀ r, _ = r → takeKey eof ts = r) _ rfl
  intro r value
  unfold takeKey
  rw [readKey.eq_def]
  split <;> subst value
  · dsimp only
    split <;> rfl
  · rename_i noName
    split
    · exact (noName _ _ _ rfl).elim
    · rfl

mutual

/-- The places of all nodes of an expression. -/
@[grind =] def places : Expr → List Position
  | const pos _ | halves pos _ | ref pos _ => [pos]
  | path pos target _ => pos :: places target
  | call pos target _ args => pos :: (places target ++ placesOfAll args)
  | index pos target key => pos :: (places target ++ places key)
  | list pos items => pos :: placesOfAll items
  | map pos entries => pos :: placesOfEntries entries
  | unary pos _ operand => pos :: places operand
  | binary pos _ left right => pos :: (places left ++ places right)

@[grind =] def placesOfAll : List Expr → List Position
  | [] => []
  | e :: rest => places e ++ placesOfAll rest

@[grind =] def placesOfEntries : List (Expr × Expr) → List Position
  | [] => []
  | (key, value) :: rest => places key ++ places value ++ placesOfEntries rest

end

theorem places_applyUnary (pos : Position) (op : UnaryOp) (e : Expr)
    : (applyUnary pos op e).places ⊆ pos :: e.places := by
  unfold applyUnary
  split
  · split
    · simp [places]
    · exact Subset.refl _
  · exact Subset.refl _

/-! ### Faults -/

/-- The symbols that open brackets. -/
def openers : List Symbol := [.leftParen, .leftBracket, .leftBrace]

/-- What a reader can blame: the end of the text, a bracket without a partner, or another token. -/
inductive Blames (all : List Token) : ExprError → Prop where
  | ending {cause : ExprCause} (other : ∀ text, cause ≠ .neverClosed text) : Blames all ⟨cause, eof⟩
  | bracket {s : Symbol} {pos : Position} (member : ⟨.symbol s, pos⟩ ∈ all) (opens : s ∈ openers)
    : Blames all ⟨.neverClosed s.text, pos⟩
  | token {t : Token} {cause : ExprCause} (member : t ∈ all) (inside : cause ≠ .unexpectedEnd)
    (other : ∀ text, cause ≠ .neverClosed text)
    : Blames all ⟨cause, t.pos⟩

variable {eof} {all ts rest : List Token} {e left start : Expr}

theorem blames_place (sub : ts ⊆ all) {cause : ExprCause} (inside : cause ≠ .unexpectedEnd := by simp)
    (other : ∀ text, cause ≠ .neverClosed text := by simp)
    : Blames eof all ⟨cause, place eof ts⟩ := by
  cases ts with
  | nil => exact .ending other
  | cons t rest => exact .token (sub mem_cons_self) inside other

theorem blames_noPrimary (sub : ts ⊆ all) : Blames eof all (noPrimary eof ts) := by
  cases ts with
  | nil => exact .ending nofun
  | cons t rest =>
    have member := sub mem_cons_self
    unfold noPrimary
    dsimp only
    split
    · exact .token member nofun nofun
    · split
      · exact .token member nofun nofun
      · exact .token member nofun nofun
    · exact .token member nofun nofun

/-! ### Readings -/

/-- A reading: what it gives has a property together with the tokens it uses, which are the first ones,
or it has something to blame.
-/
def Reads {α : Type} (eof : Position) (all : List Token) (P : α → List Token → Prop)
    (ts : List Token)
    : Except ExprError (α × List Token) → Prop
  | .ok (a, rest) => ∃ used, ts = used ++ rest ∧ P a used
  | .error err => Blames eof all err

/-- An expression that is derived from tokens and stands at their places. -/
structure Spans (D : List Lexeme → Tree → Prop) (e : Expr) (used : List Token) : Prop where
  derived : D (used.map Token.lexeme) e.tree
  placed : e.places ⊆ used.map Token.pos

/-- An expression with one before it that it goes on from. -/
def Continues (D : List Lexeme → Tree → Prop) (left e : Expr) (used : List Token) : Prop :=
  ∀ before, Spans D left before → Spans D e (before ++ used)

/-- The items of a list. -/
structure SpansItems (items : List Expr) (used : List Token) : Prop where
  derived : Items (used.map Token.lexeme) (trees items)
  placed : placesOfAll items ⊆ used.map Token.pos

/-- The entries of a map. -/
structure SpansEntries (entries : List (Expr × Expr)) (used : List Token) : Prop where
  derived : Entries (used.map Token.lexeme) (treePairs entries)
  placed : placesOfEntries entries ⊆ used.map Token.pos

attribute [grind →] Spans.placed SpansItems.placed SpansEntries.placed

section Reads

variable {α β : Type} {P P' : α → List Token → Prop} {Q : β → List Token → Prop}
  {r : Except ExprError (α × List Token)} {D D' : List Lexeme → Tree → Prop} {pos : Position}

theorem Reads.imp (h : Reads eof all P ts r) (f : ∀ a used, used <+: ts → P a used → P' a used)
    : Reads eof all P' ts r := by
  cases r with
  | error err => exact h
  | ok result =>
    obtain ⟨used, rfl, p⟩ := h
    exact ⟨used, rfl, f _ _ (prefix_append _ _) p⟩

/-- The tokens used before are used too. -/
theorem Reads.after (used : List Token)
    (h : Reads eof all (fun a used' => P a (used ++ used')) rest r)
    : Reads eof all P (used ++ rest) r := by
  cases r with
  | error err => exact h
  | ok result =>
    obtain ⟨used', rfl, p⟩ := h
    exact ⟨used ++ used', (append_assoc _ _ _).symm, p⟩

theorem Reads.bind {f : α × List Token → Except ExprError (β × List Token)}
    (first : Reads eof all P ts r)
    (next : ∀ a used rest, r = .ok (a, rest) → ts = used ++ rest → P a used
      → Reads eof all (fun b used' => Q b (used ++ used')) rest (f (a, rest)))
    : Reads eof all Q ts (r >>= f) := by
  cases r with
  | error err => exact first
  | ok result =>
    obtain ⟨used, rfl, p⟩ := first
    exact .after used (next _ _ _ rfl rfl p)

/-- A bracket that is open is closed, or blamed at the end. -/
theorem Reads.close {s closer : Symbol} {f : List Token → Except ExprError (β × List Token)}
    (member : ⟨.symbol s, pos⟩ ∈ all) (opens : s ∈ openers) (sub : rest ⊆ all)
    (next : ∀ pos' more, rest = ⟨.symbol closer, pos'⟩ :: more
      → Reads eof all (fun b used => Q b (⟨.symbol closer, pos'⟩ :: used)) more (f more))
    : Reads eof all Q rest (takeCloser ⟨.symbol s, pos⟩ closer rest >>= f) := by
  rw [takeCloser_eq]
  cases rest with
  | nil => exact .bracket member opens
  | cons t more =>
    dsimp only
    split
    · rename_i closes
      obtain ⟨lexeme, pos'⟩ := t
      subst closes
      exact .after [_] (next pos' more rfl)
    · exact .token (sub mem_cons_self) nofun nofun

/-- What stands in brackets of its own. -/
theorem bracketed {s closer : Symbol} {f : α → Expr} (inner : Reads eof all P ts r)
    (opens : s ∈ openers) (sub : ⟨.symbol s, pos⟩ :: ts ⊆ all)
    (spans : ∀ a used pos', P a used
      → Spans D (f a) (⟨.symbol s, pos⟩ :: (used ++ [⟨.symbol closer, pos'⟩])))
    : Reads eof all (Spans D) (⟨.symbol s, pos⟩ :: ts) (r >>= fun (a, rest) =>
        takeCloser ⟨.symbol s, pos⟩ closer rest >>= fun rest => .ok (f a, rest)) := by
  obtain ⟨opener, sub⟩ := cons_subset.mp sub
  refine .after [_] (inner.bind fun a used rest _ same given => ?_)
  subst same
  refine .close opener opens (append_subset.mp sub).2 ?_
  rintro pos' more rfl
  exact ⟨[], rfl, by simpa using spans a used pos' given⟩

theorem Spans.imp {used : List Token} (h : Spans D e used) (f : ∀ ls t, D ls t → D' ls t)
    : Spans D' e used :=
  ⟨f _ _ h.derived, h.placed⟩

theorem reads_token {t : Token} (derived : D [t.lexeme] e.tree) (place : e.places = [t.pos])
    : Reads eof all (Spans D) (t :: rest) (.ok (e, rest)) :=
  ⟨[t], rfl, derived, by simp [place]⟩

theorem reads_nothing : Reads eof all (Continues D left) ts (.ok (left, ts)) :=
  ⟨[], rfl, fun _ spans => by simpa using spans⟩

end Reads

theorem operatorAt?_eq_some {t : Token} {more : List Token} {op : BinaryOp} {pos : Position}
    : operatorAt? (operatorsAt n) (t :: more) = some (op, pos)
      ↔ op.level = n ∧ t = ⟨.symbol op.sign, pos⟩ := by
  obtain ⟨lexeme, pos'⟩ := t
  cases lexeme with
  | symbol s =>
    rw [← mem_operatorsAt]
    cases s <;> cases op <;> simp [operatorAt?, binaryOp?, BinaryOp.sign]
  | _ => simp [operatorAt?]

variable (eof all) in
/-- What is read from fewer tokens than a bound. -/
structure ReadsBelow (bound : Nat) : Prop where
  binary {n : Nat} {ts : List Token} (short : ts.length < bound) (level : n ≤ 6) (sub : ts ⊆ all)
    : Reads eof all (Spans (Binary n)) ts (takeBinary eof n ts)
  operands {n : Nat} {left : Expr} {ts : List Token} (short : ts.length < bound) (loose : n < 6)
    (sub : ts ⊆ all)
    : Reads eof all (Continues (Binary n) left) ts (takeOperands eof n left ts)
  unary {ts : List Token} (short : ts.length < bound) (sub : ts ⊆ all)
    : Reads eof all (Spans Unary) ts (takeUnary eof ts)
  suffixes {start : Expr} {ts : List Token} (short : ts.length < bound) (sub : ts ⊆ all)
    : Reads eof all (Continues Postfixed start) ts (takeSuffixes eof start ts)
  items {ts : List Token} (short : ts.length < bound) (sub : ts ⊆ all)
    : Reads eof all SpansItems ts (takeItems eof ts)
  entries {ts : List Token} (short : ts.length < bound) (sub : ts ⊆ all)
    : Reads eof all SpansEntries ts (takeEntries eof ts)

namespace ReadsBelow

variable {bound : Nat} (below : ReadsBelow eof all bound) (short : ts.length < bound + 1)
  (sub : ts ⊆ all)

include below short sub

theorem primary : Reads eof all (Spans Primary) ts (takePrimary eof ts) := by
  rw [takePrimary_eq]
  split
  · exact reads_token (.int _) rfl
  · exact reads_token (.float _) rfl
  · exact reads_token (.string _) rfl
  · exact reads_token (.halves _) rfl
  · split
    · exact reads_token (.keyword ‹_›) rfl
    · exact reads_token (.ref ‹_›) rfl
  · exact bracketed (below.binary (Nat.lt_of_succ_lt_succ short) (Nat.zero_le 6)
      (cons_subset.mp sub).2) (by simp [openers]) sub fun e used pos' inner =>
        ⟨by simpa using Primary.paren inner.derived, by grind⟩
  · exact bracketed (below.items (Nat.lt_of_succ_lt_succ short) (cons_subset.mp sub).2)
      (by simp [openers]) sub fun items used pos' inner =>
        ⟨by simpa [tree] using .list inner.derived, by grind⟩
  · exact bracketed (below.entries (Nat.lt_of_succ_lt_succ short) (cons_subset.mp sub).2)
      (by simp [openers]) sub fun entries used pos' inner =>
        ⟨by simpa [tree] using .map inner.derived, by grind⟩
  · exact blames_noPrimary sub

theorem postfixed : Reads eof all (Spans Postfixed) ts (takePostfix eof ts) := by
  rw [takePostfix_eq]
  refine (below.primary short sub).bind fun start used rest read same spans => ?_
  subst same
  have shorter := bound_of_plain read
  refine (below.suffixes (by omega) (append_subset.mp sub).2).imp fun e used' _ continued => ?_
  exact continued used (spans.imp fun _ _ => .primary)

theorem unary_next : Reads eof all (Spans Unary) ts (takeUnary eof ts) := by
  have prefixed {t : Token} {more : List Token} (op : UnaryOp) (short : (t :: more).length < bound + 1)
      (sub : t :: more ⊆ all)
      (derived : ∀ operand ls, Unary ls operand.tree
        → Unary (t.lexeme :: ls) (applyUnary t.pos op operand).tree)
      : Reads eof all (Spans Unary) (t :: more) (takeUnary eof more >>= fun (operand, rest) =>
          .ok (applyUnary t.pos op operand, rest)) := by
    have inner := below.unary (Nat.lt_of_succ_lt_succ short) (cons_subset.mp sub).2
    refine .after [t] (inner.bind fun operand used rest _ same spans => ?_)
    refine ⟨[], rfl, ?_, Subset.trans (places_applyUnary t.pos op operand) ?_⟩
    · simpa using derived operand _ spans.derived
    · grind
  rw [takeUnary_eq]
  split
  · refine prefixed .neg short sub fun operand ls derived => ?_
    rw [tree_applyUnary_neg]
    exact .neg derived
  · exact prefixed .not short sub fun operand ls derived => .not derived
  · exact (below.postfixed short sub).imp fun _ _ _ spans => spans.imp fun _ _ => .postfixed

theorem binary_next (level : n ≤ 6)
    : Reads eof all (Spans (Binary n)) ts (takeBinary eof n ts) := by
  induction level using Nat.decreasingInduction with
  | self =>
    rw [takeBinary_six]
    exact (below.unary_next short sub).imp fun _ _ _ spans => spans.imp fun _ _ => .unary
  | of_succ n loose ih =>
    rw [takeBinary_of_lt eof loose]
    refine ih.bind fun left used rest read same spans => ?_
    subst same
    have shorter := bound_of_plain read
    refine (below.operands (by omega) loose (append_subset.mp sub).2).imp
      fun e used' _ continued => ?_
    exact continued used (spans.imp fun _ _ => .tighter loose)

theorem operands_next (loose : n < 6)
    : Reads eof all (Continues (Binary n) left) ts (takeOperands eof n left ts) := by
  rw [takeOperands_eq]
  split
  · exact reads_nothing
  · rename_i t more
    split
    · exact reads_nothing
    · rename_i op pos found
      obtain ⟨rfl, rfl⟩ := operatorAt?_eq_some.mp found
      have sub' := (cons_subset.mp sub).2
      have short' : more.length < bound := Nat.lt_of_succ_lt_succ short
      refine .after [_] ((below.binary short' (by omega) sub').bind
        fun right used rest read same operand => ?_)
      subst same
      have shorter := bound_of_plain read
      refine (below.operands (by omega) loose (append_subset.mp sub').2).imp
        fun e used' _ continued before spans => ?_
      have joined : Spans (Binary op.level) (.binary pos op left right)
          (before ++ ⟨.symbol op.sign, pos⟩ :: used) := by
        refine ⟨by simpa [tree] using .join spans.derived operand.derived, ?_⟩
        grind
      simpa using continued _ joined

/-- The arguments of a call with its closing parenthesis, after what stands before them. -/
theorem arguments {pos : Position} (member : ⟨.symbol .leftParen, pos⟩ ∈ all)
    : Reads eof all (fun args used => ∀ start before dot name place, Spans Postfixed start before
          → Spans Postfixed (.call place start name args)
              (before ++ ⟨.symbol .dot, dot⟩ :: ⟨.ident name, place⟩ :: ⟨.symbol .leftParen, pos⟩ :: used))
        ts (takeArguments eof ⟨.symbol .leftParen, pos⟩ ts) := by
  rw [takeArguments_eq]
  split
  · refine .close member (by simp [openers]) sub ?_
    rintro pos' more rfl
    refine ⟨[], rfl, fun start before dot name place spans => ⟨?_, ?_⟩⟩
    · simpa [tree, trees] using .callEmpty spans.derived
    · grind
  · refine (below.binary_next short sub (Nat.zero_le 6)).bind fun arg used rest _ same inner => ?_
    subst same
    have sub' := (append_subset.mp sub).2
    dsimp only
    split
    · exact blames_place sub'
    · refine .close member (by simp [openers]) sub' ?_
      rintro pos' more rfl
      refine ⟨[], rfl, fun start before dot name place spans => ⟨?_, ?_⟩⟩
      · simpa [tree, trees] using .call spans.derived inner.derived
      · grind

theorem suffixes_next : Reads eof all (Continues Postfixed start) ts (takeSuffixes eof start ts) := by
  rw [takeSuffixes_eq]
  split
  · rename_i dot name pos paren more
    simp only [length_cons] at short
    simp only [cons_subset] at sub
    have args := below.arguments (by omega) sub.2.2.2 sub.2.2.1
    refine .after [_, _, _] (args.bind fun args used rest read same call => ?_)
    subst same
    have shorter := bound_of_plain read
    refine (below.suffixes (by omega) (append_subset.mp sub.2.2.2).2).imp
      fun e used' _ continued before spans => ?_
    simpa using continued _ (call start before dot name pos spans)
  · rename_i dot name pos more _
    simp only [length_cons] at short
    simp only [cons_subset] at sub
    refine .after [_, _] ((below.suffixes (by omega) sub.2.2).imp
      fun e used _ continued before spans => ?_)
    have path : Spans Postfixed (.path pos start name)
        (before ++ [⟨.symbol .dot, dot⟩, ⟨.ident name, pos⟩]) := by
      refine ⟨by simpa [tree] using .path spans.derived, ?_⟩
      grind
    simpa using continued _ path
  · exact blames_place (cons_subset.mp sub).2
  · rename_i pos more
    obtain ⟨opener, sub'⟩ := cons_subset.mp sub
    split
    · exact blames_place sub'
    · have short' : more.length < bound := Nat.lt_of_succ_lt_succ short
      refine .after [_] ((below.binary short' (by omega) sub').bind
        fun key used rest read same inner => ?_)
      subst same
      have rest_sub := (append_subset.mp sub').2
      refine .close opener (by simp [openers]) rest_sub ?_
      rintro pos' last rfl
      have shorter := bound_of_plain read
      simp only [length_cons] at shorter
      refine (below.suffixes (by omega) (cons_subset.mp rest_sub).2).imp
        fun e used' _ continued before spans => ?_
      have index : Spans Postfixed (.index pos start key)
          (before ++ ⟨.symbol .leftBracket, pos⟩ :: (used ++ [⟨.symbol .rightBracket, pos'⟩])) := by
        refine ⟨by simpa [tree] using .index spans.derived inner.derived, ?_⟩
        grind
      simpa using continued _ index
  · exact reads_nothing

theorem items_next : Reads eof all SpansItems ts (takeItems eof ts) := by
  rw [takeItems_eq]
  split
  · exact ⟨[], rfl, .nil, nil_subset _⟩
  · refine (below.binary_next short sub (Nat.zero_le 6)).bind fun item used rest read same spans => ?_
    subst same
    have sub' := (append_subset.mp sub).2
    have shorter := bound_of_plain read
    dsimp only
    split
    · simp only [length_cons] at shorter
      have others := below.items (by omega) (cons_subset.mp sub').2
      refine .after [_] (others.bind fun items used' rest _ _ inner => ?_)
      refine ⟨[], rfl, by simpa [trees] using .cons spans.derived inner.derived, ?_⟩
      grind
    · refine ⟨[], rfl, by simpa [trees] using .last spans.derived, ?_⟩
      grind

theorem key : Reads eof all (Spans Key) ts (takeKey eof ts) := by
  have expression (noName : ∀ name pos more, ts = ⟨.ident name, pos⟩ :: more → keyword? name ≠ none)
      : Reads eof all (Spans Key) ts (takeBinary eof 0 ts) := by
    refine (below.binary_next short sub (Nat.zero_le 6)).imp fun e used front spans => ?_
    refine ⟨.expression spans.derived ?_, spans.placed⟩
    rintro ⟨name, rest, starts, free⟩
    obtain ⟨⟨_, pos⟩, used, rfl, rfl, _⟩ := map_eq_cons_iff.mp starts
    obtain ⟨more, rfl⟩ := front
    exact noName name pos _ rfl free
  rw [takeKey_eq]
  split
  · split
    · rename_i free
      exact reads_token (.name (Option.isNone_iff_eq_none.mp free)) rfl
    · rename_i known
      refine expression fun name pos more same free => known ?_
      cases same
      exact Option.isNone_iff_eq_none.mpr free
  · rename_i noName
    exact expression fun name pos more same _ => noName _ _ _ same

theorem entries_next : Reads eof all SpansEntries ts (takeEntries eof ts) := by
  rw [takeEntries_eq]
  split
  · exact ⟨[], rfl, .nil, nil_subset _⟩
  · refine (below.key short sub).bind fun key used rest read same spans => ?_
    subst same
    have sub' := (append_subset.mp sub).2
    have shorter := bound_of_plain read
    dsimp only
    split
    · simp only [length_cons] at shorter
      have sub' := (cons_subset.mp sub').2
      refine .after [_] ((below.binary (by omega) (Nat.zero_le 6) sub').bind
        fun value used' rest read same inner => ?_)
      subst same
      have sub' := (append_subset.mp sub').2
      have shorter' := bound_of_plain read
      dsimp only
      split
      · simp only [length_cons] at shorter'
        have others := below.entries (by omega) (cons_subset.mp sub').2
        refine .after [_] (others.bind fun entries used'' rest _ _ others => ?_)
        refine ⟨[], rfl, ?_, ?_⟩
        · simpa [treePairs] using .cons spans.derived inner.derived others.derived
        · grind
      · refine ⟨[], rfl, by simpa [treePairs] using .last spans.derived inner.derived, ?_⟩
        grind
    · exact blames_place sub'

end ReadsBelow

variable (eof all) in
theorem readsBelow (bound : Nat) : ReadsBelow eof all bound := by
  induction bound with
  | zero => constructor <;> intros <;> omega
  | succ bound below =>
    exact {
      binary := fun short level sub => below.binary_next short sub level
      operands := fun short loose sub => below.operands_next short sub loose
      unary := fun short sub => below.unary_next short sub
      suffixes := fun short sub => below.suffixes_next short sub
      items := fun short sub => below.items_next short sub
      entries := fun short sub => below.entries_next short sub }

variable (eof) in
theorem reads_takeBinary (tokens : List Token)
    : Reads eof tokens (Spans (Binary 0)) tokens (takeBinary eof 0 tokens) :=
  (readsBelow eof tokens (tokens.length + 1)).binary (Nat.lt_succ_self _) (Nat.zero_le 6)
    (Subset.refl _)

variable (eof) in
theorem reads_takePostfix (tokens : List Token)
    : Reads eof tokens (Spans Postfixed) tokens (takePostfix eof tokens) :=
  (readsBelow eof tokens tokens.length).postfixed (Nat.lt_succ_self _) (Subset.refl _)

end Fxml.Expr
