import Fxml.Document.Reader
import Fxml.Proofs.Text.Lines
import Fxml.Proofs.Xml.CharacterData

/-! The place of a text. It is looked for in the text as it stands in the source, where a character
may be written as a reference or as a line end of two characters.
-/

open List

namespace Fxml.Text

/-! ### Collapsed text -/

variable {p : Char → Bool} {cs word : List Char}

theorem exists_splitBy (started : word ≠ [])
    : ∃ tail rest, splitBy p word cs = (word.reverse ++ tail) :: rest := by
  induction cs generalizing word with
  | nil => exact ⟨[], [], by simp [splitBy, started]⟩
  | cons c cs ih =>
    rw [splitBy]
    split
    · exact ⟨[], splitBy p [] cs, by simp [started]⟩
    · obtain ⟨tail, rest, found⟩ := @ih (c :: word) nofun
      exact ⟨c :: tail, rest, by simpa using found⟩

theorem find?_splitBy (p : Char → Bool) (cs : List Char)
    : cs.find? (!p ·) = none ∧ splitBy p [] cs = []
      ∨ ∃ c tail rest, cs.find? (!p ·) = some c ∧ splitBy p [] cs = (c :: tail) :: rest := by
  induction cs with
  | nil => exact .inl ⟨rfl, rfl⟩
  | cons c cs ih =>
    by_cases blank : p c
    · simpa [splitBy, blank] using ih
    · obtain ⟨tail, rest, found⟩ := @exists_splitBy p cs [c] nofun
      exact .inr ⟨c, tail, rest, by simp [blank], by simpa [splitBy, blank] using found⟩

theorem head?_collapseBlanks (s : String)
    : (collapseBlanks s).toList.head? = s.toList.find? (!isBlank ·) := by
  rw [collapseBlanks, String.toList_intercalate, words, map_map]
  rcases find?_splitBy isBlank s.toList with ⟨none, empty⟩ | ⟨c, tail, rest, first, found⟩
  · simp [none, empty]
  · rw [first, found]
    cases rest <;> simp [intercalate]

end Fxml.Text

namespace Fxml.Document

open Text (LineMap collapseBlanks isBlank isBlank_of_isSpace)
open Xml (Piece Spelled isFlat isSpace sources sources_cons sources_append)

variable {cs before following rest tail : List Char} {pos : Position} {pieces : List Piece}

theorem position_flat {c : Char} (text : cs = before ++ c :: following) (flat : isFlat c)
    : (LineMap.ofText cs).position (before.length + 1)
      = ((LineMap.ofText cs).position before.length).right 1 := by
  rw [LineMap.position_next text, if_neg]
  simp [isFlat] at flat
  grind

/-- Characters that end no line lie on one line. -/
theorem position_flat_run {body : List Char} (text : cs = before ++ (body ++ following))
    (flat : body.all isFlat)
    : (LineMap.ofText cs).position (before ++ body).length
      = ((LineMap.ofText cs).position before.length).right body.length := by
  induction body generalizing before with
  | nil => simp [Position.right]
  | cons c body ih =>
    obtain ⟨flat, later⟩ := Bool.and_eq_true_iff.mp flat
    have rest := @ih (before ++ [c]) (by simpa using text) later
    rw [@length_append _ before, length_singleton, position_flat text flat] at rest
    simpa [Position.right, Nat.add_assoc, Nat.add_comm 1] using rest

/-- How many digits a piece has that is a reference by a decimal number. -/
def digitsOf (piece : Piece) : Nat :=
  match piece.source with
  | '&' :: body => Xml.decimalDigits body.dropLast
  | _ => 0

/-- A piece is passed where it shows a space, and the search ends with it elsewhere. Too long a number
cannot be read.
-/
theorem firstVisible_piece {piece : Piece} (text : cs = before ++ (piece.source ++ following))
    (stands : piece.Stands following) (starts : rest <+: following)
    : firstVisible ((LineMap.ofText cs).position before.length) (piece.source ++ rest)
      = if Text.digitLimit < digitsOf piece then .error (.unreadNumber (digitsOf piece))
        else if isSpace piece.shown then
          firstVisible ((LineMap.ofText cs).position (before ++ piece.source).length) rest
        else .ok ((LineMap.ofText cs).position before.length) := by
  cases stands with
  | @plain c _ other =>
    have next := LineMap.position_next text
    have short : digitsOf ⟨[c], c⟩ = 0 := by
      unfold digitsOf
      split
      · rename_i same
        exact absurd (cons.inj same).1 other.1
      · rfl
    rw [short, if_neg (Nat.not_lt_zero _), singleton_append, firstVisible]
    · simp only [length_append, length_singleton, next]
      by_cases feed : c = '\n'
      · simp [feed, isSpace]
      · simp [feed, other.2]
    · exact fun _ isReturn => absurd isReturn other.2
    · exact fun ampersand => absurd ampersand other.1
  | @reference body d _ decoded within =>
    obtain ⟨closed, flat⟩ := within.closed
    have width := position_flat_run text (by simp [flat, isFlat])
    have whole : (body ++ ';' :: rest).takeWhile (· != ';') = body := by
      have inside : ∀ c ∈ body, (c != ';') = true := by grind
      simp [takeWhile_append_of_pos inside]
    have digits : digitsOf ⟨'&' :: body ++ [';'], d⟩ = Xml.decimalDigits body := by
      simp [digitsOf]
    have read := Xml.readReference_of_decoded within decoded
    have shape : '&' :: body ++ [';'] ++ rest = '&' :: (body ++ ';' :: rest) := by simp
    have left : (body ++ ';' :: rest).drop (body.length + 1) = rest := by simp
    rw [width, digits, shape, firstVisible]
    dsimp only
    rw [whole, read, left, if_neg (by simp)]
    split_ifs with long
    · rfl
    · simp [isSpaceOrNone, *]
    · simp [isSpaceOrNone, *]
  | pair =>
    have first := LineMap.position_next text
    have second := @LineMap.position_next cs _ (before ++ ['\r']) _ (by simpa using text)
    rw [length_append, length_singleton, first] at second
    have short : digitsOf ⟨['\r', '\n'], '\n'⟩ = 0 := rfl
    simp [short, firstVisible, isSpace, second, Position.right]
  | lone alone =>
    have next := LineMap.position_next text
    have short : digitsOf ⟨['\r'], '\n'⟩ = 0 := rfl
    rw [short, if_neg (Nat.not_lt_zero _), singleton_append, firstVisible]
    · simp [alone, next, isSpace]
    · rintro after - rfl
      obtain ⟨more, rfl⟩ := starts
      exact alone rfl
    · exact fun same => absurd same (by decide)

/-- A piece that the search can pass: a space, and not written with too many digits. -/
def IsPassed (piece : Piece) : Prop := digitsOf piece ≤ Text.digitLimit ∧ isSpace piece.shown = true

/-- Pieces that show spaces are passed. -/
theorem firstVisible_spaces {passed : List Piece}
    (text : cs = before ++ (sources (passed ++ pieces) ++ tail)) (spelled : Spelled (passed ++ pieces) tail)
    (spaces : ∀ piece ∈ passed, IsPassed piece)
    : firstVisible ((LineMap.ofText cs).position before.length) (sources (passed ++ pieces))
      = firstVisible ((LineMap.ofText cs).position (before ++ sources passed).length)
          (sources pieces) := by
  induction passed generalizing before with
  | nil => simp [sources]
  | cons piece passed ih =>
    obtain ⟨stands, later⟩ := spelled
    obtain ⟨⟨short, space⟩, spaces⟩ := forall_mem_cons.mp spaces
    rw [cons_append, sources_cons, append_assoc] at text
    have rest := @ih (before ++ piece.source) (by rw [text, append_assoc]) later spaces
    rw [cons_append, sources_cons, firstVisible_piece text stands (prefix_append ..),
      if_neg (Nat.not_lt.mpr short), if_pos space, rest, sources_cons, append_assoc]

/-- The search ends with a piece that shows no space. -/
theorem firstVisible_stop {passed : List Piece} {piece : Piece} {after : List Piece}
    (text : cs = before ++ (sources (passed ++ piece :: after) ++ tail))
    (spelled : Spelled (passed ++ piece :: after) tail)
    (spaces : ∀ piece ∈ passed, IsPassed piece)
    (other : ¬IsPassed piece)
    : firstVisible ((LineMap.ofText cs).position before.length) (sources (passed ++ piece :: after))
      = if Text.digitLimit < digitsOf piece then .error (.unreadNumber (digitsOf piece))
        else .ok ((LineMap.ofText cs).position (before ++ sources passed).length) := by
  have stands : piece.Stands (sources after ++ tail) := spelled.right.1
  have here : cs = before ++ sources passed ++ (piece.source ++ (sources after ++ tail)) := by
    rw [text]
    simp
  rw [firstVisible_spaces text spelled spaces, sources_cons,
    firstVisible_piece here stands (prefix_append ..)]
  split_ifs with long space
  · rfl
  · exact (other ⟨Nat.not_lt.mp long, space⟩).elim
  · rfl

/-- Where the search cannot pass all pieces, there is a first one that ends it. -/
theorem exists_stop (h : ¬∀ piece ∈ pieces, IsPassed piece)
    : ∃ passed piece after, pieces = passed ++ piece :: after
        ∧ (∀ piece ∈ passed, IsPassed piece) ∧ ¬IsPassed piece := by
  induction pieces with
  | nil => exact (h nofun).elim
  | cons piece rest ih =>
    by_cases here : IsPassed piece
    · obtain ⟨passed, stop, after, rfl, good, bad⟩ := ih fun all => h (forall_mem_cons.mpr ⟨here, all⟩)
      exact ⟨piece :: passed, stop, after, rfl, forall_mem_cons.mpr ⟨here, good⟩, bad⟩
    · exact ⟨[], piece, rest, rfl, nofun, here⟩

/-- Nothing but a number with too many digits halts the search. -/
theorem exists_digits_of_error {reason : Halt} (text : cs = before ++ (sources pieces ++ tail))
    (spelled : Spelled pieces tail)
    (h : firstVisible ((LineMap.ofText cs).position before.length) (sources pieces) = .error reason)
    : ∃ n, Text.digitLimit < n ∧ reason = .unreadNumber n := by
  by_cases spaces : ∀ piece ∈ pieces, IsPassed piece
  · have passed := @firstVisible_spaces cs before tail [] pieces (by simpa using text)
      (by simpa using spelled) spaces
    rw [append_nil, h, show sources [] = [] from rfl, firstVisible] at passed
    cases passed
  · obtain ⟨passed, piece, after, rfl, good, bad⟩ := exists_stop spaces
    rw [firstVisible_stop text spelled good bad] at h
    split_ifs at h with long
    cases h
    exact ⟨_, long, rfl⟩

/-- A run of character data stands in a text, after other text, as the given pieces. -/
structure Shows (cs : List Char) (run : Markup.TextRun) (before : List Char) (pieces : List Piece)
    : Prop where
  spelled : ∃ tail, cs = before ++ (sources pieces ++ tail) ∧ Spelled pieces tail
  pos : run.pos = (LineMap.ofText cs).position before.length
  raw : run.raw.toList = sources pieces
  value : run.value.toList = pieces.map (·.shown)

theorem exists_shows {src : String} {tokens : List Markup.Token} {stop : Position}
    {run : Markup.TextRun} (scanned : Markup.Token.scan src = .ok (tokens, stop))
    (mem : .text run ∈ tokens) (plain : run.cdata = false)
    : ∃ before pieces, Shows src.toList run before pieces := by
  unfold Markup.Token.scan at scanned
  dsimp only at scanned
  split at scanned
  · rename_i events read
    cases scanned
    obtain ⟨event, found, made⟩ := mem_filterMap.mp mem
    cases event with
    | text offset raw value =>
      cases made
      obtain ⟨before, pieces, tail, text, rfl, source, shown, spelled⟩ := Xml.exists_pieces read found
      exact ⟨before, pieces, ⟨tail, text, spelled⟩, rfl, source, shown⟩
    | cdata => cases made; cases plain
    | startTag | endTag | instruction | comment => cases made
  · cases scanned

/-- Text that is not blank has a first piece that is not. -/
theorem exists_visible {value : String} (shows : value.toList = pieces.map (·.shown))
    (visible : collapseBlanks value ≠ "")
    : ∃ blanks piece after, pieces = blanks ++ piece :: after
      ∧ (∀ blank ∈ blanks, isBlank blank.shown) ∧ isBlank piece.shown = false
      ∧ (collapseBlanks value).toList.head? = some piece.shown := by
  have head := Text.head?_collapseBlanks value
  rw [shows, find?_map] at head
  cases found : pieces.find? ((!isBlank ·) ∘ (·.shown)) with
  | none =>
    rw [found, Option.map_none, head?_eq_none_iff] at head
    exact absurd (String.toList_eq_nil_iff.mp head) visible
  | some piece =>
    obtain ⟨shown, blanks, after, rfl, blank⟩ := find?_eq_some_iff_append.mp found
    rw [found] at head
    refine ⟨blanks, piece, after, rfl, ?_, ?_, head⟩
    · simpa using blank
    · simpa using shown

theorem source_ne_nil (spelled : Spelled pieces tail)
    : ∀ piece ∈ pieces, piece.source ≠ [] := by
  induction pieces with
  | nil => nofun
  | cons piece pieces ih =>
    obtain ⟨stands, later⟩ := spelled
    exact forall_mem_cons.mpr ⟨by cases stands <;> nofun, ih later⟩

/-- Text can be placed at its first visible character where the pieces up to it are short, and the
blanks are spaces.
-/
def Placed (blanks : List Piece) (piece : Piece) : Prop :=
  (∀ blank ∈ blanks, isSpace blank.shown)
  ∧ ∀ passed ∈ blanks ++ [piece], digitsOf passed ≤ Text.digitLimit

/-- The search for visible text ends with the first piece that shows no space, and where this is not
the first piece that shows no blank it ends too early. A reference on the way must not have too many
digits.
-/
theorem firstVisible_iff (src : String) (tokens : List Markup.Token) (stop : Position)
    (scanned : Markup.Token.scan src = .ok (tokens, stop)) (run : Markup.TextRun)
    (mem : .text run ∈ tokens) (plain : run.cdata = false)
    (visible : collapseBlanks run.value ≠ "")
    : ∃ before blanks piece after, Shows src.toList run before (blanks ++ piece :: after)
      ∧ (∀ blank ∈ blanks, isBlank blank.shown) ∧ isBlank piece.shown = false
      ∧ (collapseBlanks run.value).toList.head? = some piece.shown
      ∧ (firstVisible run.pos run.raw.toList
          = .ok ((LineMap.ofText src.toList).position (before ++ sources blanks).length)
        ↔ Placed blanks piece) := by
  obtain ⟨before, pieces, shows⟩ := exists_shows scanned mem plain
  obtain ⟨blanks, piece, after, rfl, blank, shown, head⟩ := exists_visible shows.value visible
  refine ⟨before, blanks, piece, after, shows, blank, shown, head, ?_⟩
  obtain ⟨tail, text, spelled⟩ := shows.spelled
  have other : isSpace piece.shown = false := by
    by_contra space
    simp [isBlank_of_isSpace (eq_true_of_ne_false space)] at shown
  rw [shows.pos, shows.raw]
  by_cases spaces : ∀ blank ∈ blanks, IsPassed blank
  · rw [firstVisible_stop text spelled spaces (by simp [IsPassed, other])]
    split_ifs with long
    · refine ⟨nofun, fun placed => ?_⟩
      exact absurd (placed.2 piece (by simp)) (Nat.not_le.mpr long)
    · refine ⟨fun _ => ⟨fun blank mem => (spaces blank mem).2, fun passed mem => ?_⟩, fun _ => rfl⟩
      rcases mem_append.mp mem with mem | mem
      · exact (spaces passed mem).1
      · rw [mem_singleton.mp mem]
        exact Nat.not_lt.mp long
  · obtain ⟨passed, early, later, rfl, good, bad⟩ := exists_stop spaces
    refine ⟨fun same => ?_, fun placed => (bad ⟨placed.2 early (by simp), placed.1 early (by simp)⟩).elim⟩
    rw [append_assoc, cons_append] at text spelled same
    rw [firstVisible_stop text spelled good bad] at same
    split_ifs at same
    have inside := congrArg length text
    have offsets := congrArg (LineMap.ofText src.toList).offset (Except.ok.inj same)
    simp only [sources_append, sources_cons, length_append] at inside offsets
    rw [LineMap.offset_position (by omega), LineMap.offset_position (by omega)] at offsets
    have none : early.source = [] := length_eq_zero_iff.mp (by omega)
    exact (source_ne_nil spelled early (by simp) none).elim

/-- A no-break space is blank, but the search for visible text ends with it. -/
theorem firstVisible_noBreakSpace
    : ∃ tokens stop run, Markup.Token.scan "<A>&#160;b</A>" = .ok (tokens, stop)
        ∧ .text run ∈ tokens ∧ ∃ before blanks piece after,
          Shows "<A>&#160;b</A>".toList run before (blanks ++ piece :: after)
          ∧ (collapseBlanks run.value).toList.head? = some piece.shown
          ∧ firstVisible run.pos run.raw.toList
            ≠ .ok ((LineMap.ofText "<A>&#160;b</A>".toList).position (before ++ sources blanks).length) := by
  have scanned : Markup.Token.scan "<A>&#160;b</A>"
      = .ok ([.start ⟨⟨1, 1⟩, "A", []⟩, .text ⟨⟨1, 4⟩, "\u00a0b", "&#160;b", false⟩,
          .stop ⟨1, 11⟩ "A"], ⟨1, 15⟩) := by
    with_unfolding_all rfl
  obtain ⟨before, blanks, piece, after, shows, blank, shown, head, place⟩ :=
    firstVisible_iff _ _ _ scanned ⟨⟨1, 4⟩, "\u00a0b", "&#160;b", false⟩ (by simp) rfl (by decide +kernel)
  refine ⟨_, _, _, scanned, by simp, before, blanks, piece, after, shows, head, ?_⟩
  rw [Ne, place]
  rintro ⟨spaces, -⟩
  cases blanks with
  | nil =>
    obtain ⟨eq, -⟩ : '\u00a0' = piece.shown ∧ _ := cons.inj shows.value
    rw [← eq] at shown
    cases shown
  | cons first =>
    obtain ⟨eq, -⟩ : '\u00a0' = first.shown ∧ _ := cons.inj shows.value
    have space := spaces first mem_cons_self
    rw [← eq] at space
    cases space

end Fxml.Document
