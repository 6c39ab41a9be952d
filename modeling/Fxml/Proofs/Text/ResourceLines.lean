import Mathlib.Data.List.Nodup
import Mathlib.Data.List.TakeWhile
import Fxml.Proofs.Table
import Fxml.Resource

/-! Resource bundles are read back from their lines, whatever stands between and around the entries.
-/

open List Fxml.Table

namespace Fxml.Text

variable {p : Char → Bool} {cs ds : List Char}

/-! ### Trimming -/

theorem trimBy_append_left (blank : ∀ c ∈ ds, p c = true) : trimBy p (ds ++ cs) = trimBy p cs := by
  rw [trimBy, trimBy, dropWhile_append_of_pos blank]

theorem trimBy_append_right (blank : ∀ c ∈ ds, p c = true) : trimBy p (cs ++ ds) = trimBy p cs := by
  have blank' : ∀ c ∈ ds.reverse, p c = true := fun c member => blank c (mem_reverse.mp member)
  rw [trimBy, trimBy, dropWhile_append]
  split
  · rename_i all
    rw [isEmpty_iff.mp all, dropWhile_eq_nil_iff.mpr blank]
  · rw [reverse_append, dropWhile_append_of_pos blank']

/-- A character that is not blank keeps what stands between it and the blanks at the ends. -/
theorem trimBy_mark {mark : Char} (visible : p mark = false)
    : trimBy p (cs ++ mark :: ds) = cs.dropWhile p ++ mark :: (ds.reverse.dropWhile p).reverse := by
  have front : (cs ++ mark :: ds).dropWhile p = cs.dropWhile p ++ mark :: ds := by
    rw [dropWhile_append]
    split
    · rename_i all
      rw [isEmpty_iff.mp all, dropWhile_cons_of_neg (by simp [visible]), nil_append]
    · rfl
  rw [trimBy, front, reverse_append, reverse_cons, append_assoc, dropWhile_append]
  split
  · rename_i all
    simp [isEmpty_iff.mp all, visible]
  · simp

theorem trimBy_dropWhile (p : Char → Bool) (cs : List Char)
    : trimBy p (cs.dropWhile p) = trimBy p cs := by
  have blank : ∀ c ∈ cs.takeWhile p, p c = true := fun c => mem_takeWhile_imp
  rw [← trimBy_append_left blank, takeWhile_append_dropWhile]

theorem trimBy_dropWhile_reverse (p : Char → Bool) (cs : List Char)
    : trimBy p (cs.reverse.dropWhile p).reverse = trimBy p cs := by
  have blank : ∀ c ∈ (cs.reverse.takeWhile p).reverse, p c = true :=
    fun c member => mem_takeWhile_imp (mem_reverse.mp member)
  rw [← trimBy_append_right blank, ← reverse_append, takeWhile_append_dropWhile, reverse_reverse]

theorem dropWhile_of_trimBy (h : trimBy p cs = cs) : cs.dropWhile p = cs := by
  have shorter := (dropWhile_suffix (l := (cs.dropWhile p).reverse) p).length_le
  rw [length_reverse, ← length_reverse] at shorter
  exact (dropWhile_suffix p).eq_of_length_le (Nat.le_trans (Nat.le_of_eq (congrArg length h.symm)) shorter)

/-! ### Lines -/

theorem splitLines_plain (line rest : List Char) (plain : ∀ c ∈ cs, isLineEnd c = false)
    : splitLines line (cs ++ rest) = splitLines (cs.reverse ++ line) rest := by
  induction cs generalizing line with
  | nil => rfl
  | cons c cs ih =>
    obtain ⟨first, plain⟩ := forall_mem_cons.mp plain
    rw [cons_append, splitLines]
    · rw [if_neg (by simp [first]), ih _ plain]
      simp
    · rintro tail rfl
      simp [isLineEnd, inRanges] at first

end Fxml.Text

namespace Fxml.Resource

open Text

variable {cs rest : List Char} {key value : String} {shown : Option (String × String)}

/-- The entry on a line, if it is one. -/
def entryOf? (line : List Char) : Option (String × String) :=
  let stripped := strip (String.ofList line)
  if isEntry stripped then some (entry stripped) else none

def entriesFrom (line rest : List Char) : List (String × String) :=
  (splitLines line rest).filterMap entryOf?

theorem read_eq (text : String) : read text = ofList (entriesFrom [] text.toList) := by
  rw [read, lines, entriesFrom, map_map, filter_map, map_map]
  refine congrArg ofList ?_
  induction splitLines [] text.toList with
  | nil => rfl
  | cons line lines ih =>
    rw [filterMap_cons, entryOf?, filter_cons]
    split <;> simp_all

@[simp] theorem entryOf?_nil : entryOf? [] = none := rfl

/-- A character that ends lines ends the one under way. A line feed after a carriage return ends
no further line, but such a line would be empty.
-/
theorem entriesFrom_end {c : Char} (ends : isLineEnd c = true) (line rest : List Char)
    : entriesFrom line (c :: rest) = (entryOf? line.reverse).toList ++ entriesFrom [] rest := by
  have first (line rest : List Char)
      : (line.reverse :: splitLines [] rest).filterMap entryOf?
        = (entryOf? line.reverse).toList ++ entriesFrom [] rest := by
    rw [filterMap_cons, entriesFrom]
    cases entryOf? line.reverse <;> rfl
  have single (line : List Char) {c : Char} {rest : List Char} (ends : isLineEnd c = true)
      (alone : ∀ tail, c = '\r' → rest = '\n' :: tail → False)
      : entriesFrom line (c :: rest) = (entryOf? line.reverse).toList ++ entriesFrom [] rest := by
    rw [entriesFrom, splitLines, if_pos ends, first]
    exact alone
  by_cases both : c = '\r' ∧ ∃ tail, rest = '\n' :: tail
  · obtain ⟨rfl, tail, rfl⟩ := both
    rw [entriesFrom, splitLines, first, single [] (by decide) (by simp)]
    simp
  · exact single line ends fun tail same rest => both ⟨same, tail, rest⟩

/-- Plain text up to the end of a line. -/
theorem entriesFrom_line (plain : ∀ c ∈ cs, isLineEnd c = false) {ending : List Char}
    (some_end : ending ≠ []) (ends : ∀ c ∈ ending, isLineEnd c = true) (rest : List Char)
    : entriesFrom [] (cs ++ ending ++ rest) = (entryOf? cs).toList ++ entriesFrom [] rest := by
  have blank (ending rest : List Char) (ends : ∀ c ∈ ending, isLineEnd c = true)
      : entriesFrom [] (ending ++ rest) = entriesFrom [] rest := by
    induction ending with
    | nil => rfl
    | cons c ending ih =>
      obtain ⟨first, ends⟩ := forall_mem_cons.mp ends
      rw [cons_append, entriesFrom_end first, ih ends]
      simp
  cases ending with
  | nil => exact absurd rfl some_end
  | cons c ending =>
    obtain ⟨first, ends⟩ := forall_mem_cons.mp ends
    have ended := entriesFrom_end first cs.reverse (ending ++ rest)
    rw [reverse_reverse, blank _ _ ends] at ended
    rw [append_assoc, entriesFrom, splitLines_plain _ _ plain, append_nil]
    exact ended

theorem entriesFrom_last (plain : ∀ c ∈ cs, isLineEnd c = false)
    : entriesFrom [] cs = (entryOf? cs).toList := by
  have whole := splitLines_plain [] [] plain
  rw [append_nil, append_nil] at whole
  rw [entriesFrom, whole, splitLines]
  split
  · rename_i empty
    rw [List.isEmpty_iff, reverse_eq_nil_iff] at empty
    simp [empty]
  · rw [reverse_reverse, filterMap_cons]
    cases entryOf? cs <;> rfl

/-! ### Entries -/

def IsPadding (cs : List Char) : Prop := ∀ c ∈ cs, isBlank c = true ∧ isLineEnd c = false

instance (cs : List Char) : Decidable (IsPadding cs) := decidableBAll _ cs

/-- A text without blanks at its ends and without ends of lines. -/
structure IsValue (value : String) : Prop where
  stripped : strip value = value
  plain : ∀ c ∈ value.toList, isLineEnd c = false

/-- A text that can be told from what stands before and behind a key. -/
structure IsKey (key : String) : Prop extends IsValue key where
  unbroken : ∀ c ∈ key.toList, c ≠ '=' ∧ c ≠ ':'
  unmarked : ∀ c ∈ key.toList.head?, c ≠ '#' ∧ c ≠ '!'

def Fits (entry : String × String) : Prop := IsKey entry.1 ∧ IsValue entry.2

/-- A line and the entry that it is meant for: nothing but blanks, a remark behind its mark, or an
entry with blanks around its key and its value.
-/
inductive Line : List Char → Option (String × String) → Prop
  | blank {cs : List Char} (padding : IsPadding cs) : Line cs none
  | remark (before text : List Char) {mark : Char} (padding : IsPadding before)
    (marked : mark = '#' ∨ mark = '!') (plain : ∀ c ∈ text, isLineEnd c = false)
    : Line (before ++ mark :: text) none
  | entry (indent between behind trail : List Char) (key value : String) (first : IsPadding indent)
    (second : IsPadding between) (third : IsPadding behind) (last : IsPadding trail)
    : Line ((indent ++ (key.toList ++ between)) ++ '=' :: (behind ++ (value.toList ++ trail)))
        (some (key, value))

theorem IsPadding.isBlank (h : IsPadding cs) : ∀ c ∈ cs, isBlank c = true :=
  fun c member => (h c member).1

theorem IsPadding.plain (h : IsPadding cs) : ∀ c ∈ cs, isLineEnd c = false :=
  fun c member => (h c member).2

theorem IsValue.trimBy_padded (h : IsValue value) {before after : List Char}
    (first : IsPadding before) (last : IsPadding after)
    : trimBy isBlank (before ++ (value.toList ++ after)) = value.toList := by
  rw [trimBy_append_left first.isBlank, trimBy_append_right last.isBlank]
  simpa [strip] using congrArg String.toList h.stripped

/-- The key of a line ends at its first separator. -/
theorem entry_eq {line : String} {front back : List Char} (shape : line.toList = front ++ '=' :: back)
    (unbroken : ∀ c ∈ front, c ≠ '=' ∧ c ≠ ':')
    : entry line = (strip (String.ofList front), strip (String.ofList back)) := by
  have taken : line.toList.takeWhile (fun c => !(c == '=' || c == ':')) = front := by
    rw [shape, takeWhile_append_of_pos fun c member => by simp [unbroken c member]]
    simp
  simp only [entry, taken]
  rw [shape, ← drop_drop, drop_left]
  rfl

theorem IsPadding.unbroken (h : IsPadding cs) : ∀ c ∈ cs, c ≠ '=' ∧ c ≠ ':' := by
  intro c member
  have blank := h.isBlank c member
  constructor <;> rintro rfl <;> revert blank <;> decide

theorem entryOf?_entry (isKey : IsKey key) (isValue : IsValue value)
    {indent between behind trail : List Char} (first : IsPadding indent)
    (second : IsPadding between) (third : IsPadding behind) (last : IsPadding trail)
    : entryOf? ((indent ++ (key.toList ++ between)) ++ '=' :: (behind ++ (value.toList ++ trail)))
      = some (key, value) := by
  generalize front : indent ++ (key.toList ++ between) = x
  generalize back : behind ++ (value.toList ++ trail) = y
  have stripped : (strip (String.ofList (x ++ '=' :: y))).toList
      = x.dropWhile isBlank ++ '=' :: (y.reverse.dropWhile isBlank).reverse := by
    simpa [strip] using trimBy_mark (by decide)
  have unbroken : ∀ c ∈ x.dropWhile isBlank, c ≠ '=' ∧ c ≠ ':' := by
    intro c member
    have inside := (dropWhile_suffix _).subset member
    simp only [← front, mem_append] at inside
    rcases inside with before | own | after
    · exact first.unbroken c before
    · exact isKey.unbroken c own
    · exact second.unbroken c after
  have entered : isEntry (strip (String.ofList (x ++ '=' :: y))) = true := by
    have keyFront : key.toList.dropWhile isBlank = key.toList :=
      dropWhile_of_trimBy (by simpa [strip] using congrArg String.toList isKey.stripped)
    rw [isEntry, stripped, ← front, dropWhile_append_of_pos first.isBlank, dropWhile_append,
      keyFront]
    cases shape : key.toList with
    | nil => simp [dropWhile_eq_nil_iff.mpr second.isBlank]
    | cons c rest =>
      have unmarked := isKey.unmarked c (by simp [shape])
      simp [unmarked]
  have keyRead : strip (String.ofList (x.dropWhile isBlank)) = key := by
    rw [strip, String.toList_ofList, trimBy_dropWhile, ← front, isKey.trimBy_padded first second,
      String.ofList_toList]
  have valueRead : strip (String.ofList (y.reverse.dropWhile isBlank).reverse) = value := by
    rw [strip, String.toList_ofList, trimBy_dropWhile_reverse, ← back,
      isValue.trimBy_padded third last, String.ofList_toList]
  rw [entryOf?, if_pos entered, entry_eq stripped unbroken, keyRead, valueRead]

theorem Line.plain (line : Line cs shown) (fits : ∀ entry ∈ shown.toList, Fits entry)
    : ∀ c ∈ cs, isLineEnd c = false := by
  cases line with
  | blank padding => exact padding.plain
  | remark before text padding marked plain =>
    intro c member
    rcases mem_append.mp member with before | after
    · exact padding.plain c before
    · rcases mem_cons.mp after with rfl | text
      · rcases marked with rfl | rfl <;> decide
      · exact plain c text
  | entry indent between behind trail key value first second third last =>
    obtain ⟨isKey, isValue⟩ := fits (key, value) mem_cons_self
    intro c member
    simp only [mem_append, mem_cons] at member
    rcases member with (pad | own | pad) | rfl | pad | own | pad
    · exact first.plain c pad
    · exact isKey.plain c own
    · exact second.plain c pad
    · decide
    · exact third.plain c pad
    · exact isValue.plain c own
    · exact last.plain c pad

theorem Line.entryOf? (line : Line cs shown) (fits : ∀ entry ∈ shown.toList, Fits entry)
    : entryOf? cs = shown := by
  cases line with
  | blank padding =>
    have : trimBy isBlank cs = [] := by
      rw [← append_nil cs, trimBy_append_left padding.isBlank]
      rfl
    simp [Resource.entryOf?, strip, this, isEntry]
  | @remark before text mark padding marked plain =>
    have visible : isBlank mark = false := by
      rcases marked with rfl | rfl <;> decide
    have stripped : (strip (String.ofList (before ++ mark :: text))).toList
        = mark :: (text.reverse.dropWhile isBlank).reverse := by
      rw [strip, String.toList_ofList, String.toList_ofList, trimBy_mark visible,
        dropWhile_eq_nil_iff.mpr padding.isBlank, nil_append]
    rw [Resource.entryOf?, isEntry, stripped]
    rcases marked with rfl | rfl <;> rfl
  | entry indent between behind trail key value first second third last =>
    obtain ⟨isKey, isValue⟩ := fits (key, value) mem_cons_self
    exact entryOf?_entry isKey isValue first second third last

/-! ### Bundles -/

/-- A text of lines and the entries that they are meant for, in their order. A line ends at any
character that ends lines, or at several of them; the last one may do without.
-/
inductive Layout : List Char → List (String × String) → Prop
  | last {cs : List Char} {shown : Option (String × String)} (line : Line cs shown)
    : Layout cs shown.toList
  | line (ending : List Char) {cs rest : List Char} {shown : Option (String × String)}
    {entries : List (String × String)} (line : Line cs shown) (some_end : ending ≠ [])
    (ends : ∀ c ∈ ending, isLineEnd c = true) (later : Layout rest entries)
    : Layout (cs ++ ending ++ rest) (shown.toList ++ entries)

theorem Layout.entriesFrom {entries : List (String × String)} (layout : Layout cs entries)
    (fits : ∀ entry ∈ entries, Fits entry)
    : entriesFrom [] cs = entries := by
  induction layout with
  | last line =>
    rw [entriesFrom_last (line.plain fits), line.entryOf? fits]
  | line ending line some_end ends later ih =>
    obtain ⟨own, others⟩ := forall_mem_append.mp fits
    rw [entriesFrom_line (line.plain own) some_end ends, line.entryOf? own, ih others]

/-- A bundle is read back from the lines of its entries: in any order, with blank lines and remarks
between them, and with blanks around keys and values.
-/
theorem read_layout (bundle : Table String) (unique : bundle.keys.Nodup)
    (fits : ∀ entry ∈ bundle, Fits entry) (text : String)
    (entries : List (String × String)) (layout : Layout text.toList entries)
    (same : entries.Perm bundle)
    : (∀ key, (read text).get? key = bundle.get? key) ∧ (read text).Perm bundle := by
  have found : read text = ofList entries := by
    rw [read_eq, layout.entriesFrom fun entry member => fits entry (same.subset member)]
  have agree (key : String) : (ofList entries).get? key = bundle.get? key :=
    get?_ofList
      (fun key value member => get?_of_mem unique (same.subset member))
      fun value there => same.mem_iff.mpr (mem_of_get? there)
  have once := nodup_ofList entries
  rw [found]
  refine ⟨agree, (perm_ext_iff_of_nodup (.of_map _ once) (.of_map _ unique)).mpr ?_⟩
  rintro ⟨key, value⟩
  constructor
  · intro member
    exact mem_of_get? (agree key ▸ get?_of_mem once member)
  · intro member
    exact mem_of_get? ((agree key).trans (get?_of_mem unique member))

/-- A value with separators and a key without characters. -/
theorem read_links
    : (read "# links\r\n\t=b\n\n url = a=b:c ").get? "url" = some "a=b:c"
      ∧ (read "# links\r\n\t=b\n\n url = a=b:c ").get? "" = some "b" := by
  have plain : ∀ c ∈ " links".toList, isLineEnd c = false := by simp [isLineEnd, inRanges]
  have remark : Line "# links".toList none := .remark [] _ nofun (.inl rfl) plain
  have short : Line "\t=b".toList (some ("", "b")) :=
    .entry ['\t'] [] [] [] "" "b" (by decide) nofun nofun nofun
  have long : Line " url = a=b:c ".toList (some ("url", "a=b:c")) :=
    .entry [' '] [' '] [' '] [' '] "url" "a=b:c" (by decide) (by decide) (by decide) (by decide)
  have same := (read_layout [("url", "a=b:c"), ("", "b")] (by decide) ?_
    "# links\r\n\t=b\n\n url = a=b:c " [("", "b"), ("url", "a=b:c")] ?_ (.swap ..)).1
  · exact ⟨same "url", same ""⟩
  · refine forall_mem_cons.mpr ⟨⟨⟨⟨by decide +kernel, ?_⟩, ?_, ?_⟩, by decide +kernel, ?_⟩,
      forall_mem_singleton.mpr ⟨⟨⟨by decide +kernel, ?_⟩, ?_, ?_⟩, by decide +kernel, ?_⟩⟩
    all_goals simp [isLineEnd, inRanges]
  · exact .line ['\r', '\n'] remark (by decide) (all_eq_true.mp rfl)
      (.line ['\n', '\n'] short (by decide) (all_eq_true.mp rfl) (.last long))

end Fxml.Resource
