import Fxml.Proofs.Text.Lines

/-! Where the attributes of a start tag are found: each at its name and at its value. -/

open List

namespace Fxml.Markup

open Text (LineMap isBlank isBlank_of_isSpace)
open Xml (isNameChar isSpace)

variable {c : Char} {cs : List Char}

/-! ### Names and blanks -/

/-- No name has a character of the given ranges, if none of these may stand in a name. -/
theorem isNameChar_eq_false {ranges : List (Nat × Nat)} (inside : Text.inRanges ranges c.toNat)
    (none : ∀ n ∈ ranges.flatMap fun r => range' r.1 (r.2 + 1 - r.1),
      isNameChar (Char.ofNat n) = false)
    : isNameChar c = false := by
  obtain ⟨r, mem, inside⟩ := any_eq_true.mp inside
  rw [← Char.ofNat_toNat c]
  refine none _ (mem_flatMap.mpr ⟨r, mem, mem_range'_1.mpr ?_⟩)
  simp only [Bool.and_eq_true, decide_eq_true_eq] at inside
  omega

/-- The characters of a name do not end it. -/
theorem endsName_eq_false (named : isNameChar c) : endsName c = false := by
  by_contra ends
  simp only [endsName, Bool.not_eq_false, Bool.or_eq_true, beq_iff_eq] at ends
  rcases ends with ((blank | rfl) | rfl) | rfl
  · have none := isNameChar_eq_false blank (by decide +kernel)
    simp [none] at named
  all_goals simp +decide at named

/-- Blanks are skipped up to a character that is none. -/
theorem dropWhile_isBlank {blanks rest : List Char} (blank : blanks.all isSpace)
    (solid : isBlank c = false)
    : (blanks ++ c :: rest).dropWhile isBlank = c :: rest := by
  rw [dropWhile_append_of_pos fun c mem => isBlank_of_isSpace (all_eq_true.mp blank c mem),
    dropWhile_cons_of_neg (by simp [solid])]

/-- The name of an attribute ends with blanks or with the sign after them. -/
theorem takeWhile_name {name blanks rest : List Char} (named : name.all isNameChar)
    (blank : blanks.all isSpace)
    : (name ++ (blanks ++ '=' :: rest)).takeWhile (!endsName ·) = name := by
  have ended : (blanks ++ '=' :: rest).takeWhile (!endsName ·) = [] := by
    cases blanks with
    | nil => rfl
    | cons b blanks =>
      have stops := isBlank_of_isSpace (all_eq_true.mp blank b mem_cons_self)
      exact takeWhile_cons_of_neg (by simp [endsName, stops])
  have inside : ∀ c ∈ name, (!endsName c) = true := fun c mem => by
    simp [endsName_eq_false (all_eq_true.mp named c mem)]
  rw [takeWhile_append_of_pos inside, ended, append_nil]

/-! ### Attributes as they are spelled -/

/-- An attribute as a start tag spells it: blanks, a name, an equals sign between blanks, and a value
in quotes.
-/
structure Spelling where
  lead : List Char
  name : String
  before : List Char
  after : List Char
  quote : Char
  value : List Char
  blank : (lead ++ before ++ after).all isSpace
  named : name ≠ "" ∧ name.toList.all isNameChar
  quoted : quote = '"' ∨ quote = '\''
  closed : quote ∉ value

namespace Spelling

/-- From the first character of the name to the one before the value. -/
def link (a : Spelling) : List Char := a.name.toList ++ (a.before ++ '=' :: (a.after ++ [a.quote]))

def source (a : Spelling) : List Char := a.lead ++ (a.link ++ (a.value ++ [a.quote]))

/-- The search finds an attribute as it is spelled. -/
theorem findAttribute?_source (a : Spelling) (rest : List Char)
    : findAttribute? (a.source ++ rest)
      = some ⟨a.name, (a.link ++ (a.value ++ a.quote :: rest)).length,
          (a.value ++ a.quote :: rest).length, rest⟩ := by
  obtain ⟨lead, name, before, after, quote, value, blank, ⟨filled, named⟩, quoted, closed⟩ := a
  simp only [all_append, Bool.and_eq_true] at blank
  obtain ⟨⟨blankLead, blankBefore⟩, blankAfter⟩ := blank
  obtain ⟨c, more, chars⟩ := exists_cons_of_ne_nil (mt String.toList_eq_nil_iff.mp filled)
  have solid : isBlank c = false := by
    have ends := endsName_eq_false (all_eq_true.mp named c (by simp [chars]))
    simp only [endsName, Bool.or_eq_false_iff] at ends
    exact ends.1.1.1
  have start := @dropWhile_isBlank c lead
    (more ++ (before ++ '=' :: (after ++ quote :: (value ++ quote :: rest)))) blankLead solid
  have ended := @takeWhile_name _ _ (after ++ quote :: (value ++ quote :: rest)) named blankBefore
  have sign := @dropWhile_isBlank '=' before (after ++ quote :: (value ++ quote :: rest)) blankBefore rfl
  have opened := @dropWhile_isBlank quote after (value ++ quote :: rest) blankAfter
    (by rcases quoted with rfl | rfl <;> rfl)
  have shut : (value ++ quote :: rest).dropWhile (· != quote) = quote :: rest := by
    rw [dropWhile_append_of_pos fun d mem => by simpa using ne_of_mem_of_not_mem mem closed,
      dropWhile_cons_of_neg (by simp)]
  have marks : (quote == '"' || quote == '\'') = true := by simpa using quoted
  have same : String.ofList (c :: more) = name := by rw [← chars, String.ofList_toList]
  simp only [findAttribute?, source, link, chars, append_assoc, cons_append, nil_append] at *
  rw [start, ended]
  simp [sign, opened, shut, marks, same]

end Spelling

/-! ### Whole tags -/

/-- The text of a start tag up to its end. -/
def tagSource (name : String) (tag : List Spelling) : List Char :=
  '<' :: (name.toList ++ tag.flatMap (·.source))

/-- Attributes with the places of their names and values, where the first one is spelled at the given
offset.
-/
def places (map : LineMap) : Nat → List Spelling → List Xml.Attribute → List RawAttribute
  | offset, a :: tag, x :: attributes =>
    ⟨x.name, x.value, map.position (offset + a.lead.length),
        map.position (offset + a.lead.length + a.link.length)⟩
      :: places map (offset + a.source.length) tag attributes
  | _, _, _ => []

/-- The attributes of a tag are found in turn, each at its name and at its value. -/
theorem locateAttributes_sources {front rest : List Char} {tag : List Spelling}
    {attributes : List Xml.Attribute} (names : attributes.map (·.name) = tag.map (·.name))
    (text : cs = front ++ (tag.flatMap (·.source) ++ rest))
    : locateAttributes (.ofText cs) attributes (tag.flatMap (·.source) ++ rest)
      = some (places (.ofText cs) front.length tag attributes) := by
  induction tag generalizing front attributes with
  | nil =>
    cases map_eq_nil_iff.mp names
    rfl
  | cons a tag ih =>
    obtain ⟨x, attributes, rfl, same, names⟩ := map_eq_cons_iff.mp names
    rw [flatMap_cons, append_assoc] at text ⊢
    have later := @ih (front ++ a.source) _ names (by rw [text, append_assoc])
    generalize tag.flatMap (·.source) ++ rest = more at text later ⊢
    have nameAt : (LineMap.ofText cs).size - (a.link ++ (a.value ++ a.quote :: more)).length
        = front.length + a.lead.length := by
      simp only [text, LineMap.ofText, Spelling.source, length_append, length_cons, length_nil]
      omega
    have valueAt : (LineMap.ofText cs).size - (a.value ++ a.quote :: more).length
        = front.length + a.lead.length + a.link.length := by
      simp only [text, LineMap.ofText, Spelling.source, length_append, length_cons, length_nil]
      omega
    rw [length_append] at later
    rw [locateAttributes, a.findAttribute?_source]
    simp only [Option.bind_eq_bind, Option.bind_some, same, if_true, later, nameAt, valueAt, places]
    rfl

/-- All attributes of a start tag that stands in a text are found, and its token has them with the
places of the first characters of their names and of their values.
-/
theorem startTag_places (before rest : List Char) (name : String) (tag : List Spelling)
    (attributes : List Xml.Attribute) (names : attributes.map (·.name) = tag.map (·.name))
    : let cs := before ++ (tagSource name tag ++ rest)
      let start := before.length + 1 + name.length
      let found := places (.ofText cs) start tag attributes
      locateAttributes (.ofText cs) attributes (cs.drop start) = some found
        ∧ Token.ofEvent? (.ofText cs) cs (.startTag before.length name attributes)
          = some (.start ⟨(LineMap.ofText cs).position before.length, name, found⟩) := by
  intro cs start found
  have parts : cs = (before ++ '<' :: name.toList) ++ (tag.flatMap (·.source) ++ rest) := by
    simp only [cs, tagSource, append_assoc, cons_append]
  have size : (before ++ '<' :: name.toList).length = start := by
    simp only [start, length_append, length_cons, String.length_toList]
    omega
  have skipped : cs.drop start = tag.flatMap (·.source) ++ rest := by
    rw [parts, ← size, drop_left]
  have located := locateAttributes_sources names parts
  rw [size, ← skipped] at located
  refine ⟨located, ?_⟩
  have inside : before.length ≤ cs.length := by
    simp [cs]
  rw [Token.ofEvent?, LineMap.offset_position inside, located]
  rfl

/-- Values may hold the end of a tag, the other quote and a line end. -/
def quotedTag : List Spelling :=
  [⟨[' '], "x", [' '], [' '], '\'', ['>', '"', '\n'], by decide, by decide, by decide, by decide⟩,
    ⟨[' '], "y", [], [], '"', [], by decide, by decide, by decide, by decide⟩]

theorem startTag_places_quoted
    : Token.ofEvent? (.ofText "<A x = '>\"\n' y=\"\">".toList) "<A x = '>\"\n' y=\"\">".toList
        (.startTag 0 "A" [⟨"x", ">\" "⟩, ⟨"y", ""⟩])
      = some (.start ⟨⟨1, 1⟩, "A", [⟨"x", ">\" ", ⟨1, 4⟩, ⟨1, 9⟩⟩, ⟨"y", "", ⟨2, 3⟩, ⟨2, 6⟩⟩]⟩) := by
  have text : "<A x = '>\"\n' y=\"\">".toList = [] ++ (tagSource "A" quotedTag ++ ['>']) := by
    decide +kernel
  rw [text]
  exact (startTag_places [] ['>'] "A" quotedTag _ rfl).2.trans (by decide +kernel)

end Fxml.Markup
