import Fxml.Proofs.Code.TermWords

/-! What the text of an expression that is evaluated once is read as. A point and a name are lost
behind a whole number or where the name is a keyword, and a minus covers all suffixes of its number.
-/

open List Fxml.Naming Fxml.Code.Reading

namespace Fxml.Tree

open Code Number

/-! ### Phrases of expressions -/

/-- The phrase that a literal stands for. An infinite number is a call. -/
def scalarPhrase : Scalar → Phrase
  | .float x =>
    if x.isInf then
      .call (.name "float") [.constant (.text (if (parts x).negative then "-inf" else "inf"))]
    else .constant (.float x)
  | value => .constant value

section Phrases

variable (vars : String → String)

mutual

/-- The phrase that an expression stands for: a path is an attribute, an addition is a call of the
support library, all else is as it is.
-/
def phrase : Tree → Phrase
  | const value => scalarPhrase value
  | halves value => .halves value
  | ref name => .name (vars name)
  | path target name => .attr (phrase target) name
  | call target name args => .call (.attr (phrase target) name) (phrases args)
  | index target key => .index (phrase target) (phrase key)
  | list items => .list (phrases items)
  | map entries => .map (entryPhrases entries)
  | unary op operand => .unary op (phrase operand)
  | binary op left right =>
    if op = .add then .call (.attr (.name "runtime") "add") [phrase left, phrase right]
    else .binary op (phrase left) (phrase right)

def phrases : List Tree → List Phrase
  | [] => []
  | t :: ts => phrase t :: phrases ts

def entryPhrases : List (Tree × Tree) → List (Phrase × Phrase)
  | [] => []
  | (key, value) :: rest => (phrase key, phrase value) :: entryPhrases rest

end

end Phrases

/-! ### Names behind points -/

mutual

/-- Every name behind a point is no keyword, and stands behind no whole number. -/
def PlainNames : Tree → Prop
  | const _ | halves _ | ref _ => True
  | path target name =>
    PlainNames target ∧ target.isWholeConst = false ∧ isKeyword name = false
  | call target name args =>
    (PlainNames target ∧ target.isWholeConst = false ∧ isKeyword name = false) ∧ PlainItems args
  | index target key => PlainNames target ∧ PlainNames key
  | list items => PlainItems items
  | map entries => PlainEntries entries
  | unary _ operand => PlainNames operand
  | binary _ left right => PlainNames left ∧ PlainNames right

def PlainItems : List Tree → Prop
  | [] => True
  | t :: ts => PlainNames t ∧ PlainItems ts

def PlainEntries : List (Tree × Tree) → Prop
  | [] => True
  | (key, value) :: rest => PlainNames key ∧ PlainNames value ∧ PlainEntries rest

end

variable {ws vs : Option (List Word)} {value : Scalar} {op : UnaryOp} {t : Tree} {c : Bool}

/-- The dots and names among words. -/
def wordsWeight (ws : List Word) : Nat := (ws.map Word.weight).sum

@[simp] theorem wordsWeight_nil : wordsWeight [] = 0 := rfl

@[simp] theorem wordsWeight_cons (w : Word) (ws : List Word)
    : wordsWeight (w :: ws) = w.weight + wordsWeight ws :=
  rfl

@[simp] theorem wordsWeight_append (ws vs : List Word)
    : wordsWeight (ws ++ vs) = wordsWeight ws + wordsWeight vs := by
  simp [wordsWeight]

theorem both_eq_some {us : List Word} (h : both ws vs = some us)
    : ∃ xs ys, ws = some xs ∧ vs = some ys ∧ us = xs ++ ys := by
  cases ws with
  | none => cases h
  | some xs =>
    cases vs with
    | none => cases h
    | some ys =>
      cases h
      exact ⟨xs, ys, rfl, rfl, rfl⟩

/-- Words have at most the dots and names of a phrase, and fewer unless something holds. -/
def Bounded (ws : Option (List Word)) (weight : Nat) (plain : Prop) : Prop :=
  ∀ us, ws = some us → wordsWeight us ≤ weight ∧ (wordsWeight us = weight → plain)

theorem bounded_some {ws : List Word} {weight : Nat} (h : wordsWeight ws = weight)
    : Bounded (some ws) weight True := by
  rintro _ ⟨⟩
  exact ⟨h.le, fun _ => trivial⟩

theorem Bounded.both {a b : Nat} {p q : Prop} (first : Bounded ws a p) (second : Bounded vs b q)
    : Bounded (Code.both ws vs) (a + b) (p ∧ q) := by
  intro us h
  obtain ⟨xs, ys, left, right, rfl⟩ := both_eq_some h
  obtain ⟨leftLe, leftEq⟩ := first xs left
  obtain ⟨rightLe, rightEq⟩ := second ys right
  rw [wordsWeight_append]
  exact ⟨by omega, fun same => ⟨leftEq (by omega), rightEq (by omega)⟩⟩

theorem Bounded.imp {a b : Nat} {p q : Prop} (h : Bounded ws a p) (same : a = b) (implies : p → q)
    : Bounded ws b q :=
  fun us found => ⟨same ▸ (h us found).1, fun eq => implies ((h us found).2 (eq.trans same.symm))⟩

theorem weight_scalar (value : Scalar)
    : wordsWeight (scalarWords value) = (scalarPhrase value).weight := by
  cases value with
  | int n =>
    rw [scalarWords]
    split <;> rfl
  | float x =>
    rw [scalarWords, scalarPhrase]
    split
    · rfl
    · split <;> rfl
  | bool b => cases b <;> rfl
  | _ => rfl

/-- A name behind a point has two words that count, unless the point is lost or it is a keyword. -/
theorem bounded_named {weight : Nat} {plain : Prop} (h : Bounded ws weight plain) (name : String)
    : Bounded (namedWords t ws name) (weight + 2)
        (plain ∧ t.isWholeConst = false ∧ isKeyword name = false) := by
  have word : Bounded (some [.mark .dot, .ofName name]) 2 (isKeyword name = false) := by
    rintro _ ⟨⟩
    cases keyword : isKeyword name with
    | true => simp [ofName_of_keyword keyword, Word.weight]
    | false => simp [ofName_of_free keyword, Word.weight]
  have usual (other : t.isWholeConst = false)
      (words : namedWords t ws name = Code.both ws (some [.mark .dot, .ofName name]))
      : Bounded (namedWords t ws name) (weight + 2)
          (plain ∧ t.isWholeConst = false ∧ isKeyword name = false) := by
    rw [words]
    exact (h.both word).imp rfl fun both => ⟨both.1, other, both.2⟩
  cases t with
  | const value =>
    cases value with
    | int n =>
      intro us found
      rw [namedWords] at found
      have light : wordsWeight us = 0 := by
        split at found
        · cases found
          split <;> rfl
        · cases found
      rw [light]
      exact ⟨by omega, fun same => by omega⟩
    | _ => exact usual rfl rfl
  | _ => exact usual rfl rfl

section Weights

variable {vars : String → String}

theorem bounded_mark {m : Mark} (h : m ≠ .dot := by decide) : Bounded (some [.mark m]) 0 True := by
  refine bounded_some ?_
  cases m <;> first | rfl | exact (h rfl).elim

mutual

/-- The words of an expression have the dots and names of its phrase only where its names are plain. -/
theorem bounded_words : (t : Tree) → Bounded (t.words vars) (t.phrase vars).weight t.PlainNames
  | const value => bounded_some (weight_scalar value)
  | halves _ => bounded_some rfl
  | ref _ => bounded_some rfl
  | path t name => bounded_named (bounded_words t) name
  | call t name args =>
    ((bounded_named (bounded_words t) name).both ((bounded_mark).both
      ((bounded_items args).both bounded_mark))).imp
      (by simp only [phrase, Phrase.weight]; omega) fun all => ⟨all.1, all.2.2.1⟩
  | index t k =>
    ((bounded_words t).both ((bounded_mark).both
      ((bounded_words k).both bounded_mark))).imp
      (by simp only [phrase, Phrase.weight]; omega) fun all => ⟨all.1, all.2.2.1⟩
  | list ts =>
    ((bounded_mark).both ((bounded_items ts).both bounded_mark)).imp
      (by simp only [phrase, Phrase.weight]; omega) fun all => all.2.1
  | map ts =>
    ((bounded_mark).both ((bounded_entries ts).both bounded_mark)).imp
      (by simp only [phrase, Phrase.weight]; omega) fun all => all.2.1
  | unary op t =>
    ((bounded_mark).both ((@bounded_some _ 0 (by cases op <;> rfl)).both
      ((bounded_words t).both bounded_mark))).imp
      (by simp only [phrase, Phrase.weight, Nat.zero_add, Nat.add_zero]) fun all => all.2.2.1
  | binary op l r => by
    have right := (bounded_words r).both (bounded_mark (m := .rightParen))
    rw [words, phrase]
    split
    · refine ((@bounded_some _ 3 rfl).both ((bounded_words l).both
        ((bounded_mark).both right))).imp ?_ fun all => ⟨all.2.1, all.2.2.2.1⟩
      simp only [Phrase.weight, Phrase.weights]
      omega
    · refine ((bounded_mark).both ((bounded_words l).both
        ((@bounded_some _ 0 ?_).both right))).imp ?_ fun all => ⟨all.2.1, all.2.2.2.1⟩
      · cases op <;> rfl
      · simp only [Phrase.weight]
        omega

theorem bounded_items
    : (ts : List Tree) → Bounded (itemWords vars ts) (Phrase.weights (phrases vars ts)) (PlainItems ts)
  | [] => bounded_some rfl
  | [t] => (bounded_words t).imp (by simp [phrases, Phrase.weights]) fun plain => ⟨plain, trivial⟩
  | t :: t' :: ts =>
    ((bounded_words t).both ((bounded_mark).both (bounded_items (t' :: ts)))).imp
      (by simp only [phrases, Phrase.weights]; omega) fun all => ⟨all.1, all.2.2⟩

theorem bounded_entries
    : (ts : List (Tree × Tree))
      → Bounded (entryWords vars ts) (Phrase.entryWeights (entryPhrases vars ts)) (PlainEntries ts)
  | [] => bounded_some rfl
  | [(k, v)] =>
    ((bounded_words k).both ((bounded_mark).both (bounded_words v))).imp
      (by simp only [entryPhrases, Phrase.entryWeights]; omega)
      fun all => ⟨all.1, all.2.2, trivial⟩
  | (k, v) :: e :: ts =>
    ((bounded_words k).both ((bounded_mark).both ((bounded_words v).both
      ((bounded_mark).both (bounded_entries (e :: ts)))))).imp
      (by simp only [entryPhrases, Phrase.entryWeights]; omega)
      fun all => ⟨all.1, all.2.2.1, all.2.2.2.2⟩

end

end Weights

/-! ### Signs before suffixes -/

/-- A number whose text begins with a minus. -/
def isNegative : Scalar → Bool
  | .int n => n < 0
  | .float x => !x.isInf && (parts x).negative
  | _ => false

def isNegativeConst : Tree → Bool
  | const value => isNegative value
  | _ => false

mutual

/-- No suffix stands behind a negative number, and all text is whole. -/
def PlainTargets : Tree → Prop
  | halves _ => False
  | const _ | ref _ => True
  | path target _ => PlainTargets target ∧ target.isNegativeConst = false
  | call target _ args =>
    (PlainTargets target ∧ target.isNegativeConst = false) ∧ PlainTargetItems args
  | index target key => (PlainTargets target ∧ target.isNegativeConst = false) ∧ PlainTargets key
  | list items => PlainTargetItems items
  | map entries => PlainTargetEntries entries
  | unary _ operand => PlainTargets operand
  | binary _ left right => PlainTargets left ∧ PlainTargets right

def PlainTargetItems : List Tree → Prop
  | [] => True
  | t :: ts => PlainTargets t ∧ PlainTargetItems ts

def PlainTargetEntries : List (Tree × Tree) → Prop
  | [] => True
  | (key, value) :: rest => PlainTargets key ∧ PlainTargets value ∧ PlainTargetEntries rest

end

/-- Whether the text begins with the minus of a number, which waits for all suffixes behind it. -/
def isSigned : Tree → Bool
  | const value => isNegative value
  | path target _ | call target _ _ | index target _ => isSigned target
  | _ => false

theorem isSigned_of_plainTargets : (t : Tree) → t.PlainTargets → t.isSigned = t.isNegativeConst
  | const _, _ | ref _, _ | list _, _ | map _, _ | unary _ _, _ | binary _ _ _, _ => rfl
  | path t _, plain => (isSigned_of_plainTargets t plain.1).trans plain.2
  | call t _ _, plain => (isSigned_of_plainTargets t plain.1.1).trans plain.1.2
  | index t _, plain => (isSigned_of_plainTargets t plain.1.1).trans plain.1.2

theorem isNegativeConst_of_isSigned (h : t.isSigned = false)
    : t.isNegativeConst = false := by
  cases t with
  | const value => exact h
  | _ => rfl

/-- A literal without the minus of its text. -/
def scalarCore (value : Scalar) : Phrase :=
  if isNegative value then .constant (value.negate?.getD value) else scalarPhrase value

/-- A phrase behind a minus if there is one. -/
def signed (minus : Bool) (p : Phrase) : Phrase := if minus then p.after .neg else p

section Reading

variable (vars : String → String)

mutual

/-- What is read of the text of an expression, but for the minus that it begins with. -/
def core : Tree → Phrase
  | const value => scalarCore value
  | halves value => .constant (.text value.shown)
  | ref name => .name (vars name)
  | path target name => .attr (core target) name
  | call target name args => .call (.attr (core target) name) (readings args)
  | index target key => .index (core target) (signed key.isSigned (core key))
  | list items => .list (readings items)
  | map entries => .map (entryReadings entries)
  | unary op operand => (signed operand.isSigned (core operand)).after op
  | binary op left right =>
    if op = .add then
      .call (.attr (.name "runtime") "add")
        [signed left.isSigned (core left), signed right.isSigned (core right)]
    else .binary op (signed left.isSigned (core left)) (signed right.isSigned (core right))

def readings : List Tree → List Phrase
  | [] => []
  | t :: ts => signed t.isSigned (core t) :: readings ts

def entryReadings : List (Tree × Tree) → List (Phrase × Phrase)
  | [] => []
  | (key, value) :: rest =>
    (signed key.isSigned (core key), signed value.isSigned (core value)) :: entryReadings rest

end

/-- What the text of an expression is read as. -/
def reading (t : Tree) : Phrase := signed t.isSigned (t.core vars)

end Reading

section ReadBack

variable {t : Tree} {r r' : Reading} {frames : List Frame} {vars : String → String}

theorem reading_const (sound : (const value).Sound)
    : reading vars (const value) = scalarPhrase value := by
  unfold reading core isSigned scalarCore signed
  split
  · rename_i negative
    cases value with
    | int n => simp [Scalar.negate?, Phrase.after, scalarPhrase]
    | float x =>
      rw [isNegative, Bool.and_eq_true, Bool.not_eq_true'] at negative
      have number : x.isNaN = false := sound
      simp [Scalar.negate?, Phrase.after, scalarPhrase, negative.1, neg_neg_of_number number]
    | _ => cases negative
  · rfl

/-- A minus before a phrase never makes an attribute, a call or an index. -/
theorem signed_eq_iff {minus : Bool} {p q : Phrase} (core : ∀ value, p ≠ .constant value)
    (phrase : ∀ op r, q ≠ .unary op r)
    : signed minus p = q ↔ minus = false ∧ p = q := by
  cases minus with
  | false => simp [signed]
  | true =>
    have behind : p.after .neg = .unary .neg p := by
      cases p with
      | constant value => exact (core value rfl).elim
      | _ => rfl
    simp only [signed, if_true, behind, Bool.true_eq_false, false_and, iff_false]
    exact (phrase _ _ ·.symm)

/-- A suffix is read at its target just where no minus stands before that. -/
theorem target_iff (h : t.reading vars = t.phrase vars ↔ t.PlainTargets)
    : t.isSigned = false ∧ t.core vars = t.phrase vars
      ↔ t.PlainTargets ∧ t.isNegativeConst = false := by
  constructor
  · rintro ⟨unsigned, same⟩
    refine ⟨h.mp ?_, isNegativeConst_of_isSigned unsigned⟩
    rw [reading, unsigned]
    exact same
  · rintro ⟨plain, positive⟩
    have unsigned := (isSigned_of_plainTargets t plain).trans positive
    have same := h.mpr plain
    rw [reading, unsigned] at same
    exact ⟨unsigned, same⟩

theorem after_of_negated (h : t.negated = unary .neg t)
    : (t.phrase vars).after .neg = .unary .neg (t.phrase vars) := by
  cases t with
  | const value => cases value <;> first | rfl | cases h
  | binary op _ _ => cases op <;> rfl
  | _ => rfl

theorem eq_of_after {p q : Phrase} (h : p.after op = .unary op q) : p = q := by
  unfold Phrase.after at h
  split at h
  · split at h
    · cases h
    · cases h
      rfl
  · cases h
    rfl

mutual

/-- The text of an expression is read as its phrase just where no suffix stands behind a negative
number and all text is whole.
-/
theorem reading_eq_iff : (t : Tree) → t.Sound → (t.reading vars = t.phrase vars ↔ t.PlainTargets)
  | const _, sound => iff_of_true (reading_const sound) trivial
  | halves _, _ => iff_of_false nofun not_false
  | ref _, _ => iff_of_true rfl trivial
  | path t name, sound => by
    rw [PlainTargets, ← target_iff (reading_eq_iff t sound.1), reading, core, phrase, isSigned,
      signed_eq_iff]
    · simp
    · nofun
    · nofun
  | call t name args, sound => by
    rw [PlainTargets, ← target_iff (reading_eq_iff t sound.1), ← readings_eq_iff args sound.2.2.2,
      reading, core, phrase, isSigned, signed_eq_iff]
    · simp [and_assoc]
    · nofun
    · nofun
  | index t k, sound => by
    rw [PlainTargets, ← target_iff (reading_eq_iff t sound.1), ← reading_eq_iff k sound.2, reading, core,
      phrase, isSigned, signed_eq_iff]
    · simp [reading, and_assoc]
    · nofun
    · nofun
  | list ts, sound => by
    rw [PlainTargets, ← readings_eq_iff ts sound]
    exact Phrase.list.injEq .. ▸ Iff.rfl
  | map ts, sound => by
    rw [PlainTargets, ← entryReadings_eq_iff ts sound]
    exact Phrase.map.injEq .. ▸ Iff.rfl
  | unary op t, sound => by
    have operand := reading_eq_iff t sound.1
    rw [PlainTargets, ← operand]
    constructor
    · exact eq_of_after
    · intro same
      change (t.reading vars).after op = .unary op (t.phrase vars)
      rw [same]
      cases op with
      | neg => exact after_of_negated (sound.2 rfl)
      | not => rfl
  | binary op l r, sound => by
    rw [PlainTargets, ← reading_eq_iff l sound.1, ← reading_eq_iff r sound.2]
    change core vars (binary op l r) = phrase vars (binary op l r) ↔ _
    rw [core, phrase]
    split <;> simp [reading]

theorem readings_eq_iff
    : (ts : List Tree) → SoundItems ts → (readings vars ts = phrases vars ts ↔ PlainTargetItems ts)
  | [], _ => iff_of_true rfl trivial
  | t :: ts, sound => by
    rw [PlainTargetItems, ← reading_eq_iff t sound.1, ← readings_eq_iff ts sound.2, readings, phrases,
      cons.injEq]
    rfl

theorem entryReadings_eq_iff
    : (ts : List (Tree × Tree)) → SoundEntries ts
      → (entryReadings vars ts = entryPhrases vars ts ↔ PlainTargetEntries ts)
  | [], _ => iff_of_true rfl trivial
  | (k, v) :: ts, sound => by
    rw [PlainTargetEntries, ← reading_eq_iff k sound.1, ← reading_eq_iff v sound.2.1,
      ← entryReadings_eq_iff ts sound.2.2, entryReadings, entryPhrases, cons.injEq,
      Prod.mk.injEq, and_assoc]
    rfl

end

/-! ### Runs -/

/-- The words can be read and lead from one reading to another. -/
def Runs (ws : Option (List Word)) (r r' : Reading) : Prop :=
  ∃ us, ws = some us ∧ us.foldlM step r = some r'

theorem Runs.both {ws vs : Option (List Word)} {r'' : Reading} (first : Runs ws r r')
    (second : Runs vs r' r'')
    : Runs (Code.both ws vs) r r'' := by
  obtain ⟨us, rfl, left⟩ := first
  obtain ⟨us', rfl, right⟩ := second
  exact ⟨us ++ us', rfl, by rw [foldlM_append, left]; exact right⟩

theorem runs_word {w : Word} (h : r.step w = some r') : Runs (some [w]) r r' :=
  ⟨[w], rfl, by simp [h]⟩

/-- The minus that an expression begins with, as it waits for its operand. -/
def signFrames (t : Tree) : List Frame := if t.isSigned then [.unary .neg] else []

/-- After an expression. -/
def behind (vars : String → String) (t : Tree) (frames : List Frame) : Reading :=
  ⟨t.signFrames ++ frames, .phrase (t.core vars)⟩

/-- All operators but suffixes end the minus first. -/
theorem reduce_core {level : Nat} (loose : level ≤ 6) (t : Tree) (frames : List Frame)
    : reduce level (t.core vars) (t.signFrames ++ frames)
      = reduce level (t.reading vars) frames := by
  rw [signFrames, reading, signed]
  split
  · rw [singleton_append, reduce, if_pos (show level ≤ prefixLevel .neg from loose)]
  · rfl

theorem runs_scalar (c : Bool) (frames : List Frame)
    : Runs (some (scalarWords value)) ⟨frames, .operand c⟩ ((const value).behind vars frames) := by
  refine ⟨_, rfl, ?_⟩
  cases value with
  | int n =>
    rw [scalarWords, behind, signFrames, core, isSigned, scalarCore, isNegative]
    by_cases negative : n < 0
    · rw [if_pos negative, if_pos (decide_eq_true negative), if_pos (decide_eq_true negative),
        Scalar.negate?, show -n = n.natAbs by omega]
      rfl
    · rw [if_neg negative, if_neg (by simpa using negative), if_neg (by simpa using negative),
        show n = n.natAbs by omega]
      rfl
  | float x =>
    rw [scalarWords, behind, signFrames, core, isSigned, scalarCore, isNegative, scalarPhrase]
    cases infinite : x.isInf with
    | true => rfl
    | false =>
      cases negative : (parts x).negative with
      | true => rfl
      | false => rfl
  | bool b => cases b <;> rfl
  | _ => rfl

/-- A mark before which all operators within its bracket end. -/
def Ends (m : Mark) : Prop :=
  ∀ p frames, proceed p frames (.mark m) = close m (reduce 0 p frames).1 (reduce 0 p frames).2

theorem runs_close {m : Mark}
    (h : close m (reduce 0 (t.reading vars) frames).1 (reduce 0 (t.reading vars) frames).2 = some r)
    (ends : Ends m := by exact fun _ _ => rfl)
    : Runs (some [.mark m]) (t.behind vars frames) r := by
  refine runs_word ?_
  change proceed (t.core vars) (t.signFrames ++ frames) (.mark m) = some r
  rw [ends, reduce_core (by omega), h]

/-- The frames of a bracket whose items are parted by commas. -/
structure Bracket (frame : List Phrase → Frame) (m : Mark) (whole : List Phrase → Phrase) : Prop where
  ends : Ends m
  still {p ps frames} : reduce 0 p (frame ps :: frames) = (p, frame ps :: frames)
  comma {p ps frames} : close .comma p (frame ps :: frames)
    = some ⟨frame (ps ++ [p]) :: frames, .operand true⟩
  close {p ps frames} : close m p (frame ps :: frames) = some ⟨frames, .phrase (whole (ps ++ [p]))⟩
  empty {ps frames} : begin true (frame ps :: frames) (.mark m) = some ⟨frames, .phrase (whole ps)⟩

theorem bracket_call (p : Phrase) : Bracket (.call p) .rightParen (.call p) :=
  ⟨fun _ _ => rfl, rfl, rfl, rfl, rfl⟩

theorem bracket_list : Bracket .list .rightBracket .list :=
  ⟨fun _ _ => rfl, rfl, rfl, rfl, rfl⟩

theorem runs_named {name : String} (other : t.isWholeConst = false) (free : isKeyword name = false)
    (h : Runs (t.words vars) ⟨frames, .operand c⟩ (t.behind vars frames))
    : Runs (namedWords t (t.words vars) name) ⟨frames, .operand c⟩
        ⟨t.signFrames ++ frames, .phrase (.attr (t.core vars) name)⟩ := by
  have words : namedWords t (t.words vars) name
      = Code.both (t.words vars) (Code.both (some [.mark .dot]) (some [.name name])) := by
    rw [← ofName_of_free free]
    cases t with
    | const value =>
      cases value with
      | int _ => cases other
      | _ => rfl
    | _ => rfl
  rw [words]
  exact h.both ((runs_word rfl).both (runs_word rfl))

/-- An operator within its own parentheses takes the whole operand before it. -/
theorem step_infix {op : BinaryOp}
    : (t.behind vars (.paren :: frames)).step (infixWord op)
      = some ⟨.binary op (t.reading vars) :: .paren :: frames, .operand false⟩ := by
  have joins : ∀ p fs, proceed p fs (infixWord op) = join op p fs := by
    cases op <;> exact fun _ _ => rfl
  change proceed (t.core vars) (t.signFrames ++ .paren :: frames) (infixWord op) = _
  rw [joins, join, reduce_core (by omega), reduce_core (by cases op <;> decide)]
  simp [reduce, comparing]

theorem step_prefix
    : step ⟨.paren :: frames, .operand false⟩ (prefixWord op)
      = some ⟨.unary op :: .paren :: frames, .operand false⟩ := by
  cases op <;> rfl

theorem runs_sum
    : Runs (some [.name "runtime", .mark .dot, .name "add", .mark .leftParen]) ⟨frames, .operand c⟩
        ⟨.call (.attr (.name "runtime") "add") [] :: frames, .operand true⟩ :=
  ⟨_, rfl, rfl⟩

mutual

/-- Where names are plain, the text of an expression is read up to the minus that it begins with. -/
theorem runs_words : (t : Tree) → t.PlainNames → ∀ c frames,
    Runs (t.words vars) ⟨frames, .operand c⟩ (t.behind vars frames)
  | const _, _, c, frames => runs_scalar c frames
  | halves _, _, _, _ => runs_word rfl
  | ref _, _, _, _ => runs_word rfl
  | path t name, plain, c, frames => runs_named plain.2.1 plain.2.2 (runs_words t plain.1 c frames)
  | call t name args, plain, c, frames => by
    refine (runs_named plain.1.2.1 plain.1.2.2 (runs_words t plain.1.1 c frames)).both
      ((runs_word rfl).both ?_)
    exact runs_items (bracket_call _) args plain.2 [] _
  | index t k, plain, c, frames =>
    (runs_words t plain.1 c frames).both ((runs_word rfl).both
      ((runs_words k plain.2 false _).both (runs_close rfl)))
  | list ts, plain, c, frames =>
    (runs_word rfl).both (runs_items bracket_list ts plain [] frames)
  | map ts, plain, c, frames => (runs_word rfl).both (runs_entries ts plain [] frames)
  | unary op t, plain, c, frames => by
    refine (runs_word rfl).both ((runs_word step_prefix).both ((runs_words t plain false _).both ?_))
    refine runs_close ?_
    cases op <;> rfl
  | binary op l r, plain, c, frames => by
    rw [words, behind, core]
    split
    · exact runs_sum.both ((runs_words l plain.1 true _).both ((runs_close rfl).both
        ((runs_words r plain.2 true _).both (runs_close rfl))))
    · refine (runs_word rfl).both ((runs_words l plain.1 false _).both ((runs_word step_infix).both
        ((runs_words r plain.2 false _).both (runs_close ?_))))
      cases op <;> rfl

theorem runs_items {frame : List Phrase → Frame} {m : Mark} {whole : List Phrase → Phrase}
    (bracket : Bracket frame m whole)
    : (ts : List Tree) → PlainItems ts → ∀ ps frames,
      Runs (Code.both (itemWords vars ts) (some [.mark m])) ⟨frame ps :: frames, .operand true⟩
        ⟨frames, .phrase (whole (ps ++ readings vars ts))⟩
  | [], _, ps, frames => by
    rw [readings, append_nil]
    exact runs_word bracket.empty
  | [t], plain, ps, frames => by
    refine (runs_words t plain.1 true _).both (runs_close ?_ bracket.ends)
    rw [bracket.still]
    exact bracket.close
  | t :: t' :: ts, plain, ps, frames => by
    have rest := runs_items bracket (t' :: ts) plain.2 (ps ++ [t.reading vars]) frames
    rw [append_assoc] at rest
    rw [itemWords, both_assoc, both_assoc]
    · refine (runs_words t plain.1 true _).both (Runs.both (runs_close ?_) rest)
      rw [bracket.still]
      exact bracket.comma
    · nofun

theorem runs_entries
    : (ts : List (Tree × Tree)) → PlainEntries ts → ∀ ps frames,
      Runs (Code.both (entryWords vars ts) (some [.mark .rightBrace]))
        ⟨.key ps :: frames, .operand true⟩ ⟨frames, .phrase (.map (ps ++ entryReadings vars ts))⟩
  | [], _, ps, frames => by
    rw [entryReadings, append_nil]
    exact runs_word rfl
  | [(k, v)], plain, ps, frames => by
    rw [entryWords, both_assoc, both_assoc]
    exact (runs_words k plain.1 true _).both ((runs_close rfl).both
      ((runs_words v plain.2.1 false _).both (runs_close rfl)))
  | (k, v) :: e :: ts, plain, ps, frames => by
    have rest := runs_entries (e :: ts) plain.2.2 (ps ++ [(k.reading vars, v.reading vars)]) frames
    rw [append_assoc] at rest
    rw [entryWords, both_assoc, both_assoc, both_assoc, both_assoc]
    · exact (runs_words k plain.1 true _).both ((runs_close rfl).both
        ((runs_words v plain.2.1 false _).both ((runs_close rfl).both rest)))
    · nofun

end

/-! ### Reading back -/

/-- The text can be read as what it stands for: every name behind a point is one, every suffix stands
behind its whole target, and no text has halves of characters in it.
-/
def Readable (t : Tree) : Prop := t.PlainNames ∧ t.PlainTargets

theorem phraseOf?_words {ws : List Word} (plain : t.PlainNames) (found : t.words vars = some ws)
    : phraseOf? ws = some (t.reading vars) := by
  obtain ⟨us, same, run⟩ := @runs_words vars t plain false []
  rw [found] at same
  cases same
  rw [phraseOf?, run, Option.bind_some, behind, finish]
  simp only [reduce_core (Nat.zero_le 6)]
  rfl

/-- The text of an expression is read back just where it is readable. -/
theorem phrase?_chars_iff (sound : t.Sound) (fits : ∀ name ∈ t.names, Fits (vars name))
    : phrase? (t.chars vars) = some (t.phrase vars) ↔ t.Readable := by
  have spelled := spells_chars t sound fits [] ⟨delimited_nil, by simp⟩
  have words : words? (t.chars vars) = t.words vars := by
    rw [Spells, append_nil] at spelled
    rw [spelled, show words? [] = some [] by rw [words?]]
    cases t.words vars <;> simp
  rw [Code.phrase?, words]
  constructor
  · intro h
    obtain ⟨ws, found, read⟩ := Option.bind_eq_some_iff.mp h
    -- a lost point or name is missed in the phrase
    have plain : t.PlainNames := (bounded_words t ws found).2 (weight_phraseOf? read).symm
    rw [phraseOf?_words plain found, Option.some.injEq, reading_eq_iff t sound] at read
    exact ⟨plain, read⟩
  · rintro ⟨plain, targets⟩
    obtain ⟨ws, found, -⟩ := @runs_words vars t plain false []
    rw [found, Option.bind_some, phraseOf?_words plain found, (reading_eq_iff t sound).mpr targets]

end ReadBack

/-! ### Terms that are written -/

section Written

variable (vars : String → String)

mutual

/-- No number of an expression is too long to be written. -/
theorem Sound.all_isShort : {t : Tree} → t.Sound → (t.term vars).all Term.isShort = true
  | const (.float _), _ => rfl
  | const .null, _ | const (.bool _), _ | const (.text _), _ => rfl
  | const (.int n), sound => by
    have short : (Scalar.int n).isLong = false := sound
    simp [Term.all, Term.isShort, short]
  | halves _, _ | ref _, _ => rfl
  | path t _, sound => @Sound.all_isShort t sound.1
  | call _ _ _, sound => Bool.and_eq_true_iff.mpr ⟨sound.1.all_isShort, sound.2.2.2.all_isShort⟩
  | index _ _, sound => Bool.and_eq_true_iff.mpr ⟨sound.1.all_isShort, sound.2.all_isShort⟩
  | list _, sound => SoundItems.all_isShort sound
  | map _, sound => SoundEntries.all_isShort sound
  | unary _ t, sound => @Sound.all_isShort t sound.1
  | binary op l r, sound => by
    have left := @Sound.all_isShort l sound.1
    have right := @Sound.all_isShort r sound.2
    rw [term]
    split <;> simp [Term.all, Term.allOf, Term.support, Term.isShort, left, right]

theorem SoundItems.all_isShort
    : {ts : List Tree} → SoundItems ts → Term.allOf Term.isShort (terms vars ts) = true
  | [], _ => rfl
  | _ :: _, sound => Bool.and_eq_true_iff.mpr ⟨sound.1.all_isShort, sound.2.all_isShort⟩

theorem SoundEntries.all_isShort
    : {ts : List (Tree × Tree)} → SoundEntries ts
      → Term.allEntries Term.isShort (entryTerms vars ts) = true
  | [], _ => rfl
  | _ :: _, sound => Bool.and_eq_true_iff.mpr ⟨Bool.and_eq_true_iff.mpr
      ⟨sound.1.all_isShort, sound.2.1.all_isShort⟩, sound.2.2.all_isShort⟩

end

mutual

/-- A string holds the text of an expression that can be read. -/
theorem PlainTargets.all_isWhole : {t : Tree} → t.PlainTargets → (t.term vars).all Term.isWhole = true
  | const _, _ | ref _, _ => rfl
  | path t _, plain => @PlainTargets.all_isWhole t plain.1
  | call _ _ _, plain => Bool.and_eq_true_iff.mpr ⟨plain.1.1.all_isWhole, plain.2.all_isWhole⟩
  | index _ _, plain => Bool.and_eq_true_iff.mpr ⟨plain.1.1.all_isWhole, plain.2.all_isWhole⟩
  | list _, plain => PlainTargetItems.all_isWhole plain
  | map _, plain => PlainTargetEntries.all_isWhole plain
  | unary _ t, plain => @PlainTargets.all_isWhole t plain
  | binary op l r, plain => by
    have left := @PlainTargets.all_isWhole l plain.1
    have right := @PlainTargets.all_isWhole r plain.2
    rw [term]
    split <;> simp [Term.all, Term.allOf, Term.support, Term.isWhole, left, right]

theorem PlainTargetItems.all_isWhole
    : {ts : List Tree} → PlainTargetItems ts → Term.allOf Term.isWhole (terms vars ts) = true
  | [], _ => rfl
  | _ :: _, plain => Bool.and_eq_true_iff.mpr ⟨plain.1.all_isWhole, plain.2.all_isWhole⟩

theorem PlainTargetEntries.all_isWhole
    : {ts : List (Tree × Tree)} → PlainTargetEntries ts
      → Term.allEntries Term.isWhole (entryTerms vars ts) = true
  | [], _ => rfl
  | _ :: _, plain => Bool.and_eq_true_iff.mpr ⟨Bool.and_eq_true_iff.mpr
      ⟨plain.1.all_isWhole, plain.2.1.all_isWhole⟩, plain.2.2.all_isWhole⟩

end

/-- The text of an expression is written. -/
theorem Sound.source_term {t : Tree} (sound : t.Sound)
    : (t.term vars).source
      = .ok (if (t.term vars).all Term.isWhole then some (t.term vars).text else none) := by
  have short : [t.term vars].all (·.all Term.isShort) = true := by
    simp [sound.all_isShort]
  rw [Term.source, written, short]
  simp

/-- An expression is read back from what is written just where it is readable. -/
theorem Sound.read_back_iff {t : Tree} (sound : t.Sound) (fits : ∀ name ∈ t.names, Fits (vars name))
    : ∃ written, (t.term vars).source = .ok written
        ∧ ((written.bind fun text => Code.phrase? text.toList) = some (t.phrase vars)
          ↔ t.Readable) := by
  refine ⟨_, sound.source_term vars, ?_⟩
  have back := phrase?_chars_iff sound fits
  split
  · exact back
  · rename_i broken
    refine iff_of_false nofun fun readable => ?_
    exact broken (readable.2.all_isWhole vars)

end Written

end Fxml.Tree
