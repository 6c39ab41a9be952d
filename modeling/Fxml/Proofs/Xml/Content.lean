import Fxml.Xml.Document
import Fxml.Proofs.Outcome
import Mathlib.Data.Nat.Init

/-! How a document is read. Its content is read piece by piece up to the end of the root element, and
only comments and instructions stand before and after it.
-/

open List

namespace Fxml.Xml

/-- The events that open no element, end none and show no character data. -/
def Event.isAside : Event → Bool
  | cdata .. | instruction .. | comment _ => true
  | _ => false

/-- The events that may stand outside the root element. -/
def Event.isMisc : Event → Bool
  | instruction .. | comment _ => true
  | _ => false

/-- A piece of content at the start of a text: its events, whether an element ends with it, the
elements that are open after it, and what is left of the text.
-/
inductive Step (total : Nat)
    : List (String × Nat) → List Char → List Event → Bool → List (String × Nat) → List Char → Prop
  | start {opened more tag attributes} {rest : Rest more}
      (scanned : scanMarkup more = .ok (.start tag, rest))
      (decoded : decodeAttributes (more.length + 1) [] tag.attributes = .ok attributes)
    : Step total opened ('<' :: more)
        [.startTag (total - (more.length + 1)) tag.name attributes] false
        ((tag.name, more.length + 1) :: opened) rest.1
  | empty {opened more tag attributes} {rest : Rest more}
      (scanned : scanMarkup more = .ok (.start tag, rest))
      (decoded : decodeAttributes (more.length + 1) [] tag.attributes = .ok attributes)
    : Step total opened ('<' :: more)
        [.startTag (total - (more.length + 1)) tag.name attributes,
          .endTag (total - rest.1.length) tag.name] true opened rest.1
  | stop {name left outer more} (rest : Rest more)
    : Step total ((name, left) :: outer) ('<' :: more)
        [.endTag (total - (more.length + 1)) name] true outer rest.1
  | aside {opened more event} (rest : Rest more) (plain : event.isAside)
    : Step total opened ('<' :: more) [event] false opened rest.1
  | text {opened c more d text} {after : Rest more} {rest : Rest after.1}
      (first : scanPiece c more = .ok (d, after)) (later : scanText after.1 = .ok (text, rest))
    : Step total opened (c :: more)
        [.text (total - (more.length + 1))
          (String.ofList ((c :: more).take (more.length + 1 - rest.1.length)))
          (String.ofList (d :: text))] false opened rest.1

/-- Content up to the end of the element that was opened first. -/
inductive Content (total : Nat) : List (String × Nat) → List Char → List Event → Prop
  | last {opened cs events rest} (step : Step total opened cs events true [] rest)
    : Content total opened cs events
  | next {opened cs found ended opened' rest events}
      (step : Step total opened cs found ended opened' rest) (going : ended = true → opened' ≠ [])
      (later : Content total opened' rest events)
    : Content total opened cs (found ++ events)

variable {total : Nat} {cs rest : List Char} {events : List Event} {opened : List (String × Nat)}
  {event : Event}

theorem content_of_readContent {rest : Rest cs}
    (read : readContent total opened cs = .ok (events, rest))
    : Content total opened cs events := by
  -- Each piece takes a character or more, so what is read after it is shorter.
  induction size : cs.length using Nat.strongRecOn generalizing opened cs events with
  | _ size ih =>
    subst size
    have inner {opened : List (String × Nat)} {tail : List Char} {found : List Event}
        {rest : Rest tail} (short : tail.length < cs.length)
        (read : readContent total opened tail = .ok (found, rest)) : Content total opened tail found :=
      ih _ short read rfl
    unfold readContent at read
    split at read
    · split at read <;> cases read
    simp only [length_cons, Nat.lt_succ_iff] at inner
    split at read
    · rename_i angle
      cases eq_of_beq angle
      obtain ⟨⟨markup, after⟩, scanned, piece⟩ := exists_of_bind_ok read
      dsimp only at piece
      split at piece
      · obtain ⟨attributes, decoded, piece⟩ := exists_of_bind_ok piece
        split at piece
        · split at piece
          · rename_i outermost
            cases piece
            cases isEmpty_iff.mp outermost
            exact .last (.empty scanned decoded)
          · rename_i enclosed
            obtain ⟨⟨found, _⟩, content, piece⟩ := exists_of_bind_ok piece
            cases piece
            exact .next (.empty scanned decoded) (fun _ => mt isEmpty_iff.mpr enclosed)
              (inner after.2.length_le content)
        · obtain ⟨⟨found, _⟩, content, piece⟩ := exists_of_bind_ok piece
          cases piece
          exact .next (.start scanned decoded) (by simp) (inner after.2.length_le content)
      · split at piece
        · cases piece
        split at piece
        · cases piece
        rename_i same
        cases Decidable.not_not.mp same
        split at piece
        · rename_i outermost
          cases piece
          cases isEmpty_iff.mp outermost
          exact .last (.stop after)
        · rename_i enclosed
          obtain ⟨⟨found, _⟩, content, piece⟩ := exists_of_bind_ok piece
          cases piece
          exact .next (.stop after) (fun _ => mt isEmpty_iff.mpr enclosed)
            (inner after.2.length_le content)
      all_goals
        obtain ⟨⟨found, _⟩, content, piece⟩ := exists_of_bind_ok piece
        cases piece
        exact .next (.aside after rfl) (by simp) (inner after.2.length_le content)
    · obtain ⟨⟨d, after⟩, first, read⟩ := exists_of_bind_ok read
      obtain ⟨⟨text, final⟩, later, read⟩ := exists_of_bind_ok read
      obtain ⟨⟨found, _⟩, content, read⟩ := exists_of_bind_ok read
      cases read
      exact .next (.text first later) (by simp)
        (inner (Nat.le_trans final.2.length_le after.2.length_le) content)

theorem suffix_cons_of_rest {c : Char} (rest : Rest cs) : rest.1 <:+ c :: cs :=
  rest.2.trans (suffix_cons c cs)

/-- Each piece of content stands somewhere in the text. -/
theorem Step.rest_suffix {found : List Event} {ended : Bool} {opened' : List (String × Nat)}
    (step : Step total opened cs found ended opened' rest) : rest <:+ cs := by
  cases step with
  | @text _ _ _ _ _ after rest => exact rest.2.trans (suffix_cons_of_rest after)
  | start | empty | stop | aside => exact suffix_cons_of_rest _

theorem Content.exists_step (content : Content total opened cs events) (mem : event ∈ events)
    : ∃ here, here <:+ cs ∧ ∃ outer found ended opened' rest,
        Step total outer here found ended opened' rest ∧ event ∈ found := by
  induction content with
  | last step => exact ⟨_, suffix_rfl, _, _, _, _, _, step, mem⟩
  | next step _ _ ih =>
    rcases mem_append.mp mem with mem | mem
    · exact ⟨_, suffix_rfl, _, _, _, _, _, step, mem⟩
    · obtain ⟨here, suffix, found⟩ := ih mem
      exact ⟨here, suffix.trans step.rest_suffix, found⟩

theorem isMisc_of_readEpilog (read : readEpilog total cs = .ok events)
    : ∀ event ∈ events, event.isMisc := by
  induction size : cs.length using Nat.strongRecOn generalizing cs events with
  | _ size ih =>
    subst size
    unfold readEpilog at read
    split at read
    · cases read
      exact forall_mem_nil _
    split at read
    · cases read
    rename_i after suffix _
    have inner {found : List Event} (read : readEpilog total after = .ok found)
        : ∀ event ∈ found, event.isMisc :=
      ih _ (Nat.lt_succ_of_le suffix.length_le) read rfl
    split at read
    · exact inner read
    · obtain ⟨found, later, rfl⟩ := exists_of_map_ok read
      exact forall_mem_cons.mpr ⟨rfl, inner later⟩
    · obtain ⟨found, later, rfl⟩ := exists_of_map_ok read
      exact forall_mem_cons.mpr ⟨rfl, inner later⟩
    · cases read

/-! ### The root element -/

variable {c : Char} {more : List Char}

/-- No scanner but that of markup finds an element. -/
theorem scanKeyword_not_element {rest : Rest cs} : scanKeyword cs ≠ .ok (.element, rest) := by
  intro h
  unfold scanKeyword at h
  split at h
  · cases h
  · obtain ⟨_, _, h⟩ := exists_of_bind_ok h
    cases h
  · cases h
  · dsimp only at h
    split at h
    · split at h
      · cases h
      · cases h
      · split at h <;> cases h
      · split at h <;> cases h
    · cases h

theorem scanPercent_not_element {rest : Rest cs} : scanPercent cs ≠ .ok (.element, rest) := by
  intro h
  unfold scanPercent at h
  split at h
  · cases h
  split at h
  · cases h
  · obtain ⟨⟨_, rest, suffix⟩, _, h⟩ := exists_of_bind_ok h
    dsimp only at h
    split at h
    · cases h
    · cases h

theorem scanWord_not_element {rest : Rest more} : scanWord c more ≠ .ok (.element, rest) := by
  intro h
  have token : (if isNameStart c then PrologToken.name (String.ofList (c :: (takeRun isNameChar more).1))
      else .punctuation) ≠ .element := by
    split <;> nofun
  unfold scanWord at h
  dsimp only at h
  split at h
  · exact token (Prod.mk.inj (Except.ok.inj h)).1
  split at h
  · exact token (Prod.mk.inj (Except.ok.inj h)).1
  split at h <;> cases h

/-- The prolog ends where a start tag begins. -/
theorem startsTag_of_scanPrologToken {rest : Rest more}
    (h : scanPrologToken c more = .ok (.element, rest))
    : c = '<' ∧ ∀ d ∈ more.head?, d ≠ '/' ∧ d ≠ '?' ∧ d ≠ '!' := by
  unfold scanPrologToken at h
  split at h
  · cases h
  split at h
  · obtain ⟨_, _, h⟩ := exists_of_bind_ok h
    cases h
  split at h
  · rename_i angle
    refine ⟨eq_of_beq angle, ?_⟩
    unfold scanPrologToken.markup at h
    split at h
    · cases h
    · obtain ⟨⟨token, rest⟩, scanned, h⟩ := exists_of_bind_ok h
      cases h
      exact (scanKeyword_not_element scanned).elim
    · obtain ⟨⟨found, rest⟩, _, h⟩ := exists_of_bind_ok h
      cases found <;> cases h
    · rename_i d ds noKeyword noInstruction
      split at h
      · rename_i starts
        rintro _ ⟨⟩
        refine ⟨?_, ?_, ?_⟩
        all_goals
          rintro rfl
          revert starts
          decide
      · cases h
  split at h
  · exact (scanPercent_not_element h).elim
  split at h
  · cases h
  split at h
  · split at h <;> cases h
  split at h
  · unfold scanCloseParen at h
    split at h <;> cases h
  split at h
  · cases h
  split at h
  · unfold scanPoundName at h
    split at h
    · cases h
    split at h
    · dsimp only at h
      split at h <;> cases h
    · cases h
  split at h
  · cases h
  split at h
  · exact (scanWord_not_element h).elim
  · cases h

theorem start_of_scanMarkup {markup : Markup} {rest : Rest cs}
    (starts : ∀ d ∈ cs.head?, d ≠ '/' ∧ d ≠ '?' ∧ d ≠ '!') (h : scanMarkup cs = .ok (markup, rest))
    : ∃ tag, markup = .start tag := by
  unfold scanMarkup at h
  dsimp only at h
  split at h
  · cases h
  · exact ((starts _ rfl).1 rfl).elim
  · exact ((starts _ rfl).2.1 rfl).elim
  · exact ((starts _ rfl).2.2 rfl).elim
  · exact ((starts _ rfl).2.2 rfl).elim
  · exact ((starts _ rfl).2.2 rfl).elim
  · split at h
    · cases h
    · cases h
      exact ⟨_, rfl⟩

/-- Where a start tag begins, the first event is that of the tag. -/
theorem startTag_of_readContent {rest : Rest ('<' :: more)}
    (starts : ∀ d ∈ more.head?, d ≠ '/' ∧ d ≠ '?' ∧ d ≠ '!')
    (read : readContent total opened ('<' :: more) = .ok (events, rest))
    : ∃ offset name attributes later, events = .startTag offset name attributes :: later := by
  unfold readContent at read
  dsimp only at read
  rw [if_pos (by decide)] at read
  obtain ⟨⟨markup, after⟩, scanned, read⟩ := exists_of_bind_ok read
  obtain ⟨tag, rfl⟩ := start_of_scanMarkup starts scanned
  obtain ⟨attributes, _, read⟩ := exists_of_bind_ok read
  split at read
  · split at read
    · cases read
      exact ⟨_, _, _, _, rfl⟩
    · obtain ⟨_, _, read⟩ := exists_of_bind_ok read
      cases read
      exact ⟨_, _, _, _, rfl⟩
  · obtain ⟨_, _, read⟩ := exists_of_bind_ok read
    cases read
    exact ⟨_, _, _, _, rfl⟩

/-- A document: content somewhere in its text that begins with a start tag, and with no element or text
before or after.
-/
def IsDocument (total : Nat) (cs : List Char) (events : List Event) : Prop :=
  ∃ here before content after, here <:+ cs ∧ Content total [] here content
    ∧ (∃ offset name attributes later, content = .startTag offset name attributes :: later)
    ∧ events = before ++ content ++ after ∧ ∀ event ∈ before ++ after, event.isMisc

theorem IsDocument.suffix (document : IsDocument total rest events) (suffix : rest <:+ cs)
    : IsDocument total cs events :=
  let ⟨here, before, content, after, inside, found⟩ := document
  ⟨here, before, content, after, inside.trans suffix, found⟩

theorem IsDocument.cons (document : IsDocument total cs events) (plain : event.isMisc)
    : IsDocument total cs (event :: events) := by
  obtain ⟨here, before, content, after, inside, found, starts, rfl, misc⟩ := document
  exact ⟨here, event :: before, content, after, inside, found, starts, rfl,
    forall_mem_cons.mpr ⟨plain, misc⟩⟩

theorem isDocument_of_readProlog {first : Bool} (read : readProlog total first cs = .ok events)
    : IsDocument total cs events := by
  induction size : cs.length using Nat.strongRecOn generalizing first cs events with
  | _ size ih =>
    subst size
    unfold readProlog at read
    split at read
    · cases read
    rename_i c more
    split at read
    · cases read
    rename_i after suffix token
    have inner {found : List Event} (read : readProlog total false after = .ok found)
        : IsDocument total (c :: more) found :=
      (ih _ (Nat.lt_succ_of_le suffix.length_le) read rfl).suffix (suffix.trans (suffix_cons ..))
    split at read
    · exact inner read
    · obtain ⟨found, later, rfl⟩ := exists_of_map_ok read
      exact (inner later).cons rfl
    · obtain ⟨found, later, rfl⟩ := exists_of_map_ok read
      exact (inner later).cons rfl
    · split at read
      · split at read
        · cases read
        · exact inner read
      · cases read
    · cases read
    · obtain ⟨⟨content, _⟩, root, read⟩ := exists_of_bind_ok read
      obtain ⟨later, epilog, read⟩ := exists_of_bind_ok read
      cases read
      obtain ⟨rfl, starts⟩ := startsTag_of_scanPrologToken token
      exact ⟨_, [], content, later, suffix_rfl, content_of_readContent root,
        startTag_of_readContent starts root, rfl, isMisc_of_readEpilog epilog⟩
    · cases read
    · cases read

theorem isDocument_of_read (h : read cs = .ok events) : IsDocument cs.length cs events := by
  refine (isDocument_of_readProlog h).suffix ?_
  split
  · exact drop_suffix 1 cs
  · exact suffix_rfl

end Fxml.Xml
