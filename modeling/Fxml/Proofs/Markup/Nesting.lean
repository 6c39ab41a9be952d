import Fxml.Markup.Token
import Fxml.Proofs.Xml.Content

/-! How tags pair. The tokens between a start tag and the end tag that pairs with it are those of a
list of items, and a text that is well formed has the tokens of one element between instructions.
-/

open List

namespace Fxml.Markup

/-- A part of a document: an element with what is inside it, a text run or an instruction. -/
inductive Item where
  | element (tag : Tag) (content : List Item)
  | text (run : TextRun)
  | instruction (i : Instruction)

/-- Tokens in which start and end tags pair, and the items that they are the tokens of. -/
inductive Nests : List Token → List Item → Prop
  | nil : Nests [] []
  | text (run) {tokens items} (later : Nests tokens items) : Nests (.text run :: tokens) (.text run :: items)
  | instruction (i) {tokens items} (later : Nests tokens items)
    : Nests (.instruction i :: tokens) (.instruction i :: items)
  | element (tag pos name) {inner content tokens items} (inside : Nests inner content)
      (later : Nests tokens items)
    : Nests (.start tag :: (inner ++ .stop pos name :: tokens)) (.element tag content :: items)

variable {tokens more : List Token} {items others : List Item}

theorem Nests.append (first : Nests tokens items) (second : Nests more others)
    : Nests (tokens ++ more) (items ++ others) := by
  induction first with
  | nil => exact second
  | text run _ ih => exact .text run ih
  | instruction i _ ih => exact .instruction i ih
  | element tag pos name inside _ _ ih =>
    have whole := Nests.element tag pos name inside ih
    simpa using whole

/-! ### Open elements -/

/-- Tokens that close as many open elements as given. -/
inductive Closes : Nat → List Token → Prop
  | none : Closes 0 []
  | stop {n inner content rest} (inside : Nests inner content) (pos name) (later : Closes n rest)
    : Closes (n + 1) (inner ++ .stop pos name :: rest)

/-- Items may come before the first end tag. -/
theorem Closes.prepend {n : Nat} (first : Nests more others) (h : Closes (n + 1) tokens)
    : Closes (n + 1) (more ++ tokens) := by
  cases h with
  | stop inside pos name later =>
    rw [← append_assoc]
    exact .stop (first.append inside) pos name later

/-- A start tag pairs with the end tag of the innermost open element. -/
theorem Closes.start {n : Nat} (tag : Tag) (h : Closes (n + 2) tokens)
    : Closes (n + 1) (.start tag :: tokens) := by
  cases h with
  | stop inside pos name later =>
    cases later with
    | @stop _ inner content rest inside' pos' name' later =>
      have whole := Closes.stop (Nests.element tag pos name inside inside') pos' name' later
      simpa using whole

theorem Closes.exists_stop (h : Closes 1 tokens)
    : ∃ inner items pos name, tokens = inner ++ [.stop pos name] ∧ Nests inner items := by
  cases h with
  | stop inside pos name later =>
    cases later
    exact ⟨_, _, pos, name, rfl, inside⟩

/-! ### Scanned texts -/

section

variable {map : Text.LineMap} {cs here : List Char} {total : Nat} {opened : List (String × Nat)}
  {events : List Xml.Event}

/-- Content that is read inside open elements closes them all. -/
theorem closes_content (content : Xml.Content total opened here events) (inside : opened ≠ [])
    : Closes opened.length (events.filterMap (Token.ofEvent? map cs)) := by
  induction content with
  | last step =>
    cases step with
    | empty => exact (inside rfl).elim
    | stop => exact .stop .nil _ _ .none
  | @next opened _ _ _ opened' _ _ step going _ ih =>
    obtain ⟨first, outer, rfl⟩ := exists_cons_of_ne_nil inside
    cases step with
    | start => exact .start _ (ih (by simp))
    | empty => exact .prepend (.element _ _ _ .nil .nil) (ih inside)
    | stop => exact .stop .nil _ _ (ih (going rfl))
    | text => exact .prepend (.text _ .nil) (ih inside)
    | @aside _ _ event _ plain =>
      have rest := ih inside
      cases event with
      | cdata => exact .prepend (.text _ .nil) rest
      | instruction => exact .prepend (.instruction _ .nil) rest
      | comment => exact rest
      | _ => cases plain

/-- Content that begins with a start tag outside all elements is one element. -/
theorem element_of_content (content : Xml.Content total [] here events)
    (starts : ∃ offset name attributes later, events = .startTag offset name attributes :: later)
    : ∃ tag inner items pos name,
        events.filterMap (Token.ofEvent? map cs) = .start tag :: (inner ++ [.stop pos name])
        ∧ Nests inner items := by
  cases content with
  | last step =>
    cases step with
    | empty => exact ⟨_, [], [], _, _, rfl, .nil⟩
  | next step going rest =>
    cases step with
    | start =>
      obtain ⟨inner, items, pos, name, closed, nests⟩ :=
        (closes_content rest (cons_ne_nil _ _)).exists_stop
      exact ⟨_, inner, items, pos, name, congrArg (_ :: ·) closed, nests⟩
    | empty => exact (going rfl rfl).elim
    | text =>
      obtain ⟨_, _, _, _, same⟩ := starts
      cases same
    | aside _ plain =>
      obtain ⟨_, _, _, _, same⟩ := starts
      cases same
      cases plain

theorem instructions_of_misc (misc : ∀ event ∈ events, event.isMisc)
    : ∃ is : List Instruction, events.filterMap (Token.ofEvent? map cs) = is.map .instruction := by
  induction events with
  | nil => exact ⟨[], rfl⟩
  | cons event rest ih =>
    obtain ⟨plain, misc⟩ := forall_mem_cons.mp misc
    obtain ⟨is, later⟩ := ih misc
    cases event with
    | instruction => exact ⟨_ :: is, congrArg (_ :: ·) later⟩
    | comment => exact ⟨is, later⟩
    | _ => cases plain

end

/-- A whole document: one element, with instructions before and after it. -/
structure Whole (tokens : List Token) where
  before : List Instruction
  tag : Tag
  inner : List Token
  items : List Item
  pos : Position
  name : String
  after : List Instruction
  nests : Nests inner items
  same
    : tokens
      = before.map .instruction ++ .start tag :: (inner ++ .stop pos name :: after.map .instruction)

/-- The tokens of a text that is well formed are those of one element and instructions. -/
theorem exists_whole {src : String} {stop : Position} (scanned : Token.scan src = .ok (tokens, stop))
    : Nonempty (Whole tokens) := by
  unfold Token.scan at scanned
  dsimp only at scanned
  split at scanned
  · rename_i events read
    cases scanned
    obtain ⟨here, before, content, after, _, root, starts, rfl, misc⟩ := Xml.isDocument_of_read read
    obtain ⟨first, last⟩ := forall_mem_append.mp misc
    obtain ⟨tag, inner, items, pos, name, element, nests⟩ := element_of_content root starts
    obtain ⟨is, leading⟩ := instructions_of_misc first
    obtain ⟨is', trailing⟩ := instructions_of_misc last
    refine ⟨is, tag, inner, items, pos, name, is', nests, ?_⟩
    rw [filterMap_append, filterMap_append, leading, element, trailing]
    simp
  · cases scanned

end Fxml.Markup
