import Fxml.Document.Reader

/-! Reading a document from its tokens. Tags pair by the order in which elements are read; no stack of
open tags is kept. -/

namespace Fxml.Document

/-- The sets of prefixes that have been made so far, and the number of the one that counts. Sets are
changed in place.
-/
structure PrefixScope where
  sets : List (List String) := [["fx"]]
  current : Nat := 0

namespace PrefixScope

def prefixes (s : PrefixScope) : List String := s.sets[s.current]?.getD []

/-- Notes a declaration in the set with the number `own`. As long as that one counts outside the
element, it is copied first.
-/
def note (found : PrefixScope × Nat) (a : Markup.RawAttribute) : PrefixScope × Nat :=
  if declaredPrefix a.name = "" then found
  else
    let (s, own) := found
    let (s, own) :=
      if own = s.current then ({ s with sets := s.sets ++ [s.prefixes] }, s.sets.length)
      else (s, own)
    ({ s with sets := s.sets.modify own fun prefixes => declare prefixes a }, own)

end PrefixScope

/-- Where reading has got to: the number of the token that comes next, and the prefixes that count.
-/
structure Cursor where
  marks : List Markup.Mark
  index : Nat := 0
  scope : PrefixScope := {}

abbrev Parsing : Type → Type := StateT Cursor Reading

namespace Parsing

def current : Parsing Markup.Mark := do
  let c ← get
  match c.marks[c.index]? with
  | some m => return m
  | none => halt .pastEnd

/-- Goes on to the next token. The end mark is never passed. -/
def advance : Parsing Markup.Mark := do
  let m ← current
  match m with
  | .token _ => modify fun c => { c with index := c.index + 1 }
  | .finish _ => pure ()
  return m

/-- Makes the set of prefixes with a number the one that counts. -/
def enter (own : Nat) : Parsing Unit :=
  modify fun c => { c with scope := { c.scope with current := own } }

/-- Takes the declarations of a tag, and gives the number of the set of prefixes for the element and
its content.
-/
def declareNamespaces (tag : Markup.Tag) : Parsing Nat := do
  let declarations := tag.attributes.filter fun a => isDeclaration a.name
  let record (t : Table String) (a : Markup.RawAttribute) : Table String :=
    t.put (declaredPrefix a.name) a.value
  modifyHeader fun h => { h with namespaces := declarations.foldl record h.namespaces }
  let c ← get
  let (scope, own) := declarations.foldl PrefixScope.note (c.scope, c.scope.current)
  set { c with scope }
  return own

mutual

/-- Reads an element from its start tag on. The first argument of all readers bounds how deep they
call one another.
-/
def element : Nat → Bool → Parsing Node
  | 0, _ => halt .endless
  | depth + 1, isRoot => do
    let tag := (← advance).tag
    let outer := (← get).scope.current
    enter (← declareNamespaces tag)
    let opening ← openElement (← get).scope.prefixes tag isRoot
    let node ← closeElement tag opening (← content depth)
    enter outer
    return node

/-- Reads the content of an element up to an end tag; its text is the last run that is not blank.
The end mark is taken for a run without text.
-/
def content : Nat → Parsing Content
  | 0 => halt .endless
  | depth + 1 => do
    match ← current with
    | .token (.start _) =>
      let node ← element depth false
      let (nodes, text) ← content depth
      return (node :: nodes, text)
    | .token (.stop ..) =>
      let _ ← advance
      return ([], none)
    | .token (.instruction i) =>
      let _ ← advance
      readInstruction i
      content depth
    | .token (.text run) =>
      let _ ← advance
      let text ← readText run
      let (nodes, later) ← content depth
      return (nodes, later <|> text)
    | .finish _ =>
      let _ ← advance
      content depth

end

/-- Reads the elements and instructions of a document up to the end mark; the last element is its
root.
-/
def document : Nat → Option Node → Parsing (Option Node)
  | 0, _ => halt .endless
  | depth + 1, root => do
    match ← current with
    | .finish _ => return root
    | .token (.instruction i) =>
      let _ ← advance
      readInstruction i
      document depth root
    | .token _ => document depth (some (← element depth true))

end Parsing

/-- Reads the tokens of a document. Readers call one another at most once for each token. -/
def parse (tokens : List Markup.Token) (stop : Position) : Reading (Option Node × Cursor) :=
  let marks := tokens.map .token ++ [.finish stop]
  (Parsing.document marks.length none).run { marks }

def read (src path : String) : Except (Refusal DocumentError) Document :=
  match Markup.Token.scan src with
  | .error (cause, pos) => .error (.fault ⟨.markup cause, pos⟩)
  | .ok (tokens, stop) => do
    let ((root, _), state) ← (parse tokens stop).run {}
    match root with
    | some root => return { state.header with path, root }
    | none => .error (.halt .noRoot)

end Fxml.Document
