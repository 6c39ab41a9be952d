import Fxml.Expr.Reader

/-! The grammar of expressions over lexemes: six levels of left associative binary operators, then
prefix operators, then primaries with suffixes. What is derived is a tree, an expression without
places.
-/

namespace Fxml

/-! ### Trees -/

/-- An expression without the places of its tokens. -/
inductive Tree where
  | const (value : Scalar)
  | halves (value : Text.Halves)
  | ref (name : String)
  | path (target : Tree) (name : String)
  | call (target : Tree) (name : String) (args : List Tree)
  | index (target key : Tree)
  | list (items : List Tree)
  | map (entries : List (Tree × Tree))
  | unary (op : UnaryOp) (operand : Tree)
  | binary (op : BinaryOp) (left right : Tree)

/-- A minus before a tree. It goes into a number. -/
def Tree.negated : Tree → Tree
  | const value =>
    match value.negate? with
    | some opposite => const opposite
    | none => unary .neg (const value)
  | t => unary .neg t

namespace Expr

mutual

/-- The tree of an expression. -/
def tree : Expr → Tree
  | const _ value => .const value
  | halves _ value => .halves value
  | ref _ name => .ref name
  | path _ target name => .path (tree target) name
  | call _ target name args => .call (tree target) name (trees args)
  | index _ target key => .index (tree target) (tree key)
  | list _ items => .list (trees items)
  | map _ entries => .map (treePairs entries)
  | unary _ op operand => .unary op (tree operand)
  | binary _ op left right => .binary op (tree left) (tree right)

def trees : List Expr → List Tree
  | [] => []
  | e :: rest => tree e :: trees rest

def treePairs : List (Expr × Expr) → List (Tree × Tree)
  | [] => []
  | (key, value) :: rest => (tree key, tree value) :: treePairs rest

end

theorem tree_applyUnary_neg (pos : Position) (e : Expr)
    : (applyUnary pos .neg e).tree = e.tree.negated := by
  cases e with
  | const _ value =>
    simp only [applyUnary, tree, Tree.negated]
    cases value.negate? <;> rfl
  | _ => rfl

theorem tree_applyUnary_not (pos : Position) (e : Expr)
    : (applyUnary pos .not e).tree = .unary .not e.tree :=
  rfl

end Expr

/-! ### Derivations -/

/-- How tight an operator binds, the loosest first. -/
def BinaryOp.level : BinaryOp → Nat
  | or => 0
  | and => 1
  | eq | ne => 2
  | lt | le | gt | ge => 3
  | add | sub => 4
  | mul | div | mod => 5

/-- The symbol that spells an operator. -/
def BinaryOp.sign : BinaryOp → Symbol
  | or => .or
  | and => .and
  | eq => .eq
  | ne => .ne
  | lt => .lt
  | le => .le
  | gt => .gt
  | ge => .ge
  | add => .plus
  | sub => .minus
  | mul => .star
  | div => .slash
  | mod => .percent

def StartsWithName (ls : List Lexeme) : Prop :=
  ∃ name rest, ls = .ident name :: rest ∧ Expr.keyword? name = none

namespace Derives

mutual

/-- An expression whose operators outside brackets have at least the given level. -/
inductive Binary : Nat → List Lexeme → Tree → Prop where
  | unary {ls : List Lexeme} {t : Tree} (operand : Unary ls t) : Binary 6 ls t
  | tighter {n : Nat} {ls : List Lexeme} {t : Tree} (loose : n < 6) (operand : Binary (n + 1) ls t)
    : Binary n ls t
  | join {op : BinaryOp} {ls rs : List Lexeme} {l r : Tree} (left : Binary op.level ls l)
    (right : Binary (op.level + 1) rs r)
    : Binary op.level (ls ++ .symbol op.sign :: rs) (.binary op l r)

/-- Prefix operators and their operand. -/
inductive Unary : List Lexeme → Tree → Prop where
  | neg {ls : List Lexeme} {t : Tree} (operand : Unary ls t)
    : Unary (.symbol .minus :: ls) t.negated
  | not {ls : List Lexeme} {t : Tree} (operand : Unary ls t)
    : Unary (.symbol .bang :: ls) (.unary .not t)
  | postfixed {ls : List Lexeme} {t : Tree} (operand : Postfixed ls t) : Unary ls t

/-- A primary and its suffixes. -/
inductive Postfixed : List Lexeme → Tree → Prop where
  | primary {ls : List Lexeme} {t : Tree} (start : Primary ls t) : Postfixed ls t
  | path {ls : List Lexeme} {t : Tree} {name : String} (target : Postfixed ls t)
    : Postfixed (ls ++ [.symbol .dot, .ident name]) (.path t name)
  | callEmpty {ls : List Lexeme} {t : Tree} {name : String} (target : Postfixed ls t)
    : Postfixed
        (ls ++ [.symbol .dot, .ident name, .symbol .leftParen, .symbol .rightParen])
        (.call t name [])
  | call {ls as : List Lexeme} {t a : Tree} {name : String} (target : Postfixed ls t)
    (arg : Binary 0 as a)
    : Postfixed
        (ls ++ .symbol .dot :: .ident name :: .symbol .leftParen :: (as ++ [.symbol .rightParen]))
        (.call t name [a])
  | index {ls ks : List Lexeme} {t k : Tree} (target : Postfixed ls t) (key : Binary 0 ks k)
    : Postfixed (ls ++ .symbol .leftBracket :: (ks ++ [.symbol .rightBracket])) (.index t k)

/-- A literal, a name, an expression in parentheses, a list or a map. -/
inductive Primary : List Lexeme → Tree → Prop where
  | int (digits : String) : Primary [.int digits] (.const (.int (Text.digitsNumber digits.toList)))
  | float (text : String) : Primary [.float text] (.const (.float (Expr.floatValue text)))
  | string (value : String) : Primary [.string value] (.const (.text value))
  | halves (value : Text.Halves) : Primary [.halves value] (.halves value)
  | keyword {name : String} {value : Scalar} (known : Expr.keyword? name = some value)
    : Primary [.ident name] (.const value)
  | ref {name : String} (free : Expr.keyword? name = none) : Primary [.ident name] (.ref name)
  | paren {ls : List Lexeme} {t : Tree} (inner : Binary 0 ls t)
    : Primary (.symbol .leftParen :: (ls ++ [.symbol .rightParen])) t
  | list {ls : List Lexeme} {ts : List Tree} (items : Items ls ts)
    : Primary (.symbol .leftBracket :: (ls ++ [.symbol .rightBracket])) (.list ts)
  | map {ls : List Lexeme} {ts : List (Tree × Tree)} (entries : Entries ls ts)
    : Primary (.symbol .leftBrace :: (ls ++ [.symbol .rightBrace])) (.map ts)

/-- The items of a list with commas between them; one may follow the last. -/
inductive Items : List Lexeme → List Tree → Prop where
  | nil : Items [] []
  | last {ls : List Lexeme} {t : Tree} (item : Binary 0 ls t) : Items ls [t]
  | cons {ls rest : List Lexeme} {t : Tree} {ts : List Tree} (item : Binary 0 ls t)
    (more : Items rest ts)
    : Items (ls ++ .symbol .comma :: rest) (t :: ts)

/-- The entries of a map with commas between them; one may follow the last. -/
inductive Entries : List Lexeme → List (Tree × Tree) → Prop where
  | nil : Entries [] []
  | last {ks vs : List Lexeme} {k v : Tree} (key : Key ks k) (value : Binary 0 vs v)
    : Entries (ks ++ .symbol .colon :: vs) [(k, v)]
  | cons {ks vs rest : List Lexeme} {k v : Tree} {ts : List (Tree × Tree)} (key : Key ks k)
    (value : Binary 0 vs v) (more : Entries rest ts)
    : Entries (ks ++ .symbol .colon :: (vs ++ .symbol .comma :: rest)) ((k, v) :: ts)

/-- The key of an entry. A name alone is a text, and an expression must not start with one. -/
inductive Key : List Lexeme → Tree → Prop where
  | name {name : String} (free : Expr.keyword? name = none)
    : Key [.ident name] (.const (.text name))
  | expression {ls : List Lexeme} {t : Tree} (inner : Binary 0 ls t) (other : ¬StartsWithName ls)
    : Key ls t

end

variable {ls : List Lexeme} {t : Tree}

def StartsPrimary : List Lexeme → Prop
  | [] => False
  | .symbol s :: _ => s = .leftParen ∨ s = .leftBracket ∨ s = .leftBrace
  | _ :: _ => True

/-- Lexemes that start as expressions do. -/
def Opens : List Lexeme → Prop
  | .symbol .minus :: _ | .symbol .bang :: _ => True
  | ls => StartsPrimary ls

theorem StartsPrimary.append (h : StartsPrimary ls) (rest : List Lexeme)
    : StartsPrimary (ls ++ rest) := by
  cases ls with
  | nil => exact h.elim
  | cons l ls => cases l <;> exact h

theorem Opens.append (h : Opens ls) (rest : List Lexeme) : Opens (ls ++ rest) := by
  cases ls with
  | nil => exact h.elim
  | cons l ls =>
    cases l with
    | symbol s => cases s <;> exact h
    | _ => trivial

theorem StartsPrimary.opens (h : StartsPrimary ls) : Opens ls := by
  unfold Opens
  split
  · trivial
  · trivial
  · exact h

theorem Primary.starts (derived : Primary ls t) : StartsPrimary ls := by
  cases derived with
  | paren => exact .inl rfl
  | list => exact .inr (.inl rfl)
  | map => exact .inr (.inr rfl)
  | _ => trivial

theorem Postfixed.starts {ls : List Lexeme} {t : Tree} : Postfixed ls t → StartsPrimary ls
  | .primary start => start.starts
  | .path target | .callEmpty target | .call target _ | .index target _ => target.starts.append _

theorem Unary.opens (derived : Unary ls t) : Opens ls := by
  cases derived with
  | postfixed operand => exact operand.starts.opens
  | _ => trivial

theorem Binary.opens {n : Nat} {ls : List Lexeme} {t : Tree} : Binary n ls t → Opens ls
  | .unary operand => operand.opens
  | .tighter _ operand => operand.opens
  | .join left _ => left.opens.append _

theorem Key.opens (derived : Key ls t) : Opens ls := by
  cases derived with
  | name => trivial
  | expression inner => exact inner.opens

end Derives

end Fxml
