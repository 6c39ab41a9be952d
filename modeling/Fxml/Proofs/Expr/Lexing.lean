import Fxml.Proofs.Expr.Places

/-! The tokens of a text as slices of it. They follow one another without overlap, leave out nothing
but blanks and are what the tokens stand for; a quoted text is one string, however it is escaped.
-/

open List

namespace Fxml.Token

open Lexeme

/-- How far a token stands from the start of its text. -/
def offset (t : Token) (start : Position) : Nat := t.pos.col - start.col

/-- A token stands for the characters of a text from its own column up to `stop`. A number is the longest
one that begins there.
-/
structure Cut (start : Position) (src : List Char) (t : Token) (stop : Nat) : Prop where
  line : t.pos.line = start.line
  after : start.col ≤ t.pos.col
  within : stop ≤ src.length
  decodes : Decodes (src.extract (t.offset start) stop) t.lexeme
  longest : t.lexeme.isNumeric = true
    → Longest (src.extract (t.offset start) stop) (src.drop (t.offset start))

/-- Tokens with the ends of their slices: columns increase, no two slices overlap, and every character
that is no blank belongs to a slice.
-/
structure Cuts (start : Position) (src : List Char) (cuts : List (Token × Nat)) : Prop where
  cut : ∀ c ∈ cuts, Cut start src c.1 c.2
  increasing : cuts.Pairwise fun a b => a.1.pos.col < b.1.pos.col
  disjoint : cuts.Pairwise fun a b => a.2 ≤ b.1.offset start
  cover : ∀ i c, src[i]? = some c → isSpace c = false → ∃ cut ∈ cuts, cut.1.offset start ≤ i ∧ i < cut.2

/-! ### Text in front -/

section Front

variable {start : Position} (front : List Char) {rest : List Char} {t : Token} {stop : Nat}

theorem Cut.offset_eq (cut : Cut (start.right front.length) rest t stop)
    : t.offset start = front.length + t.offset (start.right front.length) := by
  have := cut.after
  simp only [offset, Position.right] at this ⊢
  omega

theorem Cut.shift (cut : Cut (start.right front.length) rest t stop)
    : Cut start (front ++ rest) t (front.length + stop) := by
  have slice : (front ++ rest).extract (t.offset start) (front.length + stop)
      = rest.extract (t.offset (start.right front.length)) stop := by
    rw [cut.offset_eq, extract_eq_take_drop, extract_eq_take_drop,
      drop_length_add_append, Nat.add_sub_add_left]
  have tail : (front ++ rest).drop (t.offset start)
      = rest.drop (t.offset (start.right front.length)) := by
    rw [cut.offset_eq, drop_length_add_append]
  refine ⟨cut.line, ?_, ?_, slice ▸ cut.decodes, ?_⟩
  · exact Nat.le_trans (Nat.le_add_right _ _) cut.after
  · rw [length_append]
    exact Nat.add_le_add_left cut.within _
  · rw [slice, tail]
    exact cut.longest

/-- The ends of slices when a text is put in front. -/
def shift (k : Nat) (cuts : List (Token × Nat)) : List (Token × Nat) :=
  cuts.map fun (t, stop) => (t, k + stop)

theorem fst_shift (k : Nat) (cuts : List (Token × Nat))
    : (shift k cuts).map Prod.fst = cuts.map Prod.fst := by
  simp [shift]

variable {cuts : List (Token × Nat)} (h : Cuts (start.right front.length) rest cuts)

include h

theorem Cuts.cut_shift : ∀ c ∈ shift front.length cuts, Cut start (front ++ rest) c.1 c.2 := by
  intro c member
  obtain ⟨later, there, rfl⟩ := mem_map.mp member
  exact (h.cut later there).shift front

theorem Cuts.increasing_shift
    : (shift front.length cuts).Pairwise fun a b => a.1.pos.col < b.1.pos.col :=
  pairwise_map.mpr h.increasing

theorem Cuts.disjoint_shift
    : (shift front.length cuts).Pairwise fun a b => a.2 ≤ b.1.offset start := by
  refine pairwise_map.mpr (h.disjoint.imp_of_mem fun _ later apart => ?_)
  rw [(h.cut _ later).offset_eq]
  exact Nat.add_le_add_left apart _

/-- A character behind the text in front belongs to the slice it belonged to. -/
theorem Cuts.cover_shift {i : Nat} {c : Char} (behind : front.length ≤ i)
    (found : (front ++ rest)[i]? = some c) (solid : isSpace c = false)
    : ∃ cut ∈ shift front.length cuts, cut.1.offset start ≤ i ∧ i < cut.2 := by
  rw [getElem?_append_right behind] at found
  obtain ⟨⟨t, stop⟩, member, low, high⟩ := h.cover _ c found solid
  refine ⟨(t, front.length + stop), mem_map_of_mem member, ?_, ?_⟩
  · rw [(h.cut _ member).offset_eq]
    omega
  · omega

end Front

variable {start : Position} {cuts : List (Token × Nat)} {quote : Char}

/-! ### All tokens -/

/-- A blank in front belongs to no slice. -/
theorem Cuts.blank {c : Char} {rest : List Char} (space : isSpace c = true)
    (h : Cuts (start.right 1) rest cuts)
    : Cuts start (c :: rest) (shift 1 cuts) where
  cut := h.cut_shift [c]
  increasing := h.increasing_shift [c]
  disjoint := h.disjoint_shift [c]
  cover i d found solid := by
    cases i with
    | zero =>
      cases found
      rw [space] at solid
      cases solid
    | succ i => exact h.cover_shift [c] (Nat.le_add_left 1 i) found solid

/-- A token in front of others has the slice in front of theirs. -/
theorem Cuts.token {slice rest : List Char} {l : Lexeme} (decodes : Decodes slice l)
    (longest : l.isNumeric = true → Longest slice (slice ++ rest))
    (h : Cuts (start.right slice.length) rest cuts)
    : Cuts start (slice ++ rest) ((⟨l, start⟩, slice.length) :: shift slice.length cuts) := by
  have place : (⟨l, start⟩ : Token).offset start = 0 := Nat.sub_self _
  have own : (slice ++ rest).extract 0 slice.length = slice := by
    rw [extract_eq_take_drop, drop_zero, Nat.sub_zero, take_left]
  have nonempty : 0 < slice.length := length_pos_iff.mpr decodes.ne_nil
  refine {
    cut := forall_mem_cons.mpr ⟨?_, h.cut_shift slice⟩
    increasing := pairwise_cons.mpr ⟨fun c member => ?_, h.increasing_shift slice⟩
    disjoint := pairwise_cons.mpr ⟨fun c member => ?_, h.disjoint_shift slice⟩
    cover := fun i c found solid => ?_
  }
  · refine ⟨rfl, Nat.le_refl _, by simp, ?_, ?_⟩
    · rw [place, own]
      exact decodes
    · rw [place, own, drop_zero]
      exact longest
  · obtain ⟨later, there, rfl⟩ := mem_map.mp member
    have := (h.cut _ there).after
    simp only [Position.right] at this ⊢
    omega
  · obtain ⟨later, there, rfl⟩ := mem_map.mp member
    rw [(h.cut _ there).offset_eq]
    exact Nat.le_add_right _ _
  · by_cases inside : i < slice.length
    · refine ⟨_, mem_cons_self, ?_, inside⟩
      rw [place]
      exact Nat.zero_le i
    · obtain ⟨cut, member, bounds⟩ := h.cover_shift slice (Nat.le_of_not_lt inside) found solid
      exact ⟨cut, mem_cons_of_mem _ member, bounds⟩

theorem exists_cuts {src : List Char} {tokens : List Token} (laid : Laid start src tokens)
    : ∃ cuts, cuts.map Prod.fst = tokens ∧ Cuts start src cuts := by
  induction laid with
  | done => exact ⟨[], rfl, ⟨nofun, .nil, .nil, nofun⟩⟩
  | blank space _ ih =>
    obtain ⟨cuts, rfl, h⟩ := ih
    exact ⟨shift 1 cuts, fst_shift 1 cuts, h.blank space⟩
  | @token pos slice rest l tokens decodes longest _ ih =>
    obtain ⟨cuts, rfl, h⟩ := ih
    refine ⟨(⟨l, pos⟩, slice.length) :: shift slice.length cuts, ?_, h.token decodes longest⟩
    rw [map_cons, fst_shift]

/-- A quoted text is scanned as one string. -/
theorem scan_quoted (quotes : quote = '"' ∨ quote = '\'') {pieces : List (List Char)}
    {value : List Text.Point} (spelled : List.Forall₂ (Spells quote) pieces value) (start : Position)
    : scan start (quote :: (pieces.flatten ++ [quote])) = .ok [⟨.ofPoints value, start⟩] := by
  have scanned : scanLexeme (quote :: (pieces.flatten ++ [quote])) = .ok (.ofPoints value, []) := by
    have inner := scanString_pieces quotes spelled 1 []
    rcases quotes with rfl | rfl
    all_goals
      rw [scanLexeme, if_neg (by decide), if_neg (by decide), if_pos (by decide), inner]
      rfl
  have solid : isSpace quote = false := by rcases quotes with rfl | rfl <;> decide
  rw [scan_of_lexeme start solid scanned, scan]
  rfl

/-- All code points can be written between quotes, one after the other. -/
theorem exists_spellings (quotes : quote = '"' ∨ quote = '\'') (value : List Text.Point)
    : ∃ pieces, Forall₂ (Spells quote) pieces value := by
  induction value with
  | nil => exact ⟨[], .nil⟩
  | cons p value ih =>
    obtain ⟨pieces, spelled⟩ := ih
    obtain ⟨piece, first⟩ := exists_spelling quote quotes p
    exact ⟨piece :: pieces, .cons first spelled⟩

/-- Scanning is exact. The tokens of a text have increasing columns, and the slices from their columns on
are disjoint, hold all characters but blanks and stand for the tokens, numbers being as long as can be. The
mark behind the last token stands after the last character of the text, and so does the fault of an
expression that ends too early. Every value can be quoted, and however it is escaped it is scanned as one
string with that value.
-/
theorem scan_exact (start : Position)
    : (∀ src tokens, scan start src = .ok tokens
        → (∃ cuts, cuts.map Prod.fst = tokens ∧ Cuts start src cuts)
          ∧ ∃ stop, Expr.marks start src = .ok (tokens.map .ofToken ++ [⟨none, stop⟩])
            ∧ stop.line = start.line ∧ stop.col = start.col + src.length)
      ∧ (∀ src err, Expr.read src start = .error (.fault err) → err.cause = .unexpectedEnd
        → err.pos.line = start.line ∧ err.pos.col = start.col + src.length)
      ∧ ∀ quote, quote = '"' ∨ quote = '\'' → ∀ value : List Text.Point,
        (∃ pieces, List.Forall₂ (Spells quote) pieces value)
        ∧ ∀ pieces, List.Forall₂ (Spells quote) pieces value
          → ∃ l, scan start (quote :: (pieces.flatten ++ [quote])) = .ok [⟨l, start⟩]
            ∧ l.points? = some value := by
  refine ⟨fun src tokens scanned => ⟨exists_cuts (laid_of_scan scanned), ?_⟩,
    fun src err failed ending => ?_,
    fun quote quotes value => ⟨exists_spellings quotes value, fun pieces spelled => ?_⟩⟩
  · refine ⟨start.right src.length, ?_, rfl, rfl⟩
    rw [Expr.marks, scanned]
    rfl
  · rw [Expr.place_of_unexpectedEnd failed ending]
    exact ⟨rfl, rfl⟩
  · exact ⟨_, scan_quoted quotes spelled start, points?_ofPoints value⟩

end Fxml.Token
