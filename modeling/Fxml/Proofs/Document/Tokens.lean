import Fxml.Proofs.Document.Scopes

/-! Reading from tokens is reading a tree. Where tags pair, each call of a reader for an element ends
just behind the end tag that pairs with its start tag, the prefixes that count are those of the tags
around, and what is read is what a reader of the tree reads.
-/

open List

namespace Fxml.Document

open Markup

/-! ### Trees -/

/-- Notes the namespaces of a tag in the header. -/
def noteNamespaces (tag : Tag) : Reading Unit :=
  let declarations := tag.attributes.filter fun a => isDeclaration a.name
  let record (t : Table String) (a : RawAttribute) : Table String :=
    t.put (declaredPrefix a.name) a.value
  modifyHeader fun h => { h with namespaces := declarations.foldl record h.namespaces }

/-- Reads an element inside some tags, with the prefixes that its own tag and those around it give. -/
def readElement (outer : List Tag) (isRoot : Bool) (tag : Tag) (content : Reading Content)
    : Reading Node := do
  noteNamespaces tag
  let opening ← openElement (scopeOf (tag :: outer)) tag isRoot
  closeElement tag opening (← content)

mutual

/-- Reads an item inside some tags. -/
def readItem (outer : List Tag) : Item → Reading (Option Node × Option Value)
  | .element tag content => do
    let node ← readElement outer false tag (readItems (tag :: outer) content)
    return (some node, none)
  | .text run => return (none, ← readText run)
  | .instruction i => do
    readInstruction i
    return (none, none)

def readItems (outer : List Tag) : List Item → Reading Content
  | [] => return ([], none)
  | item :: rest => do
    let (node, text) ← readItem outer item
    let (nodes, later) ← readItems outer rest
    return (node.toList ++ nodes, later <|> text)

end

/-- Reads a document of one element between instructions. -/
def readWhole {tokens : List Markup.Token} (w : Whole tokens) : Reading Node := do
  w.before.forM readInstruction
  let root ← readElement [] true w.tag (readItems [w.tag] w.items)
  w.after.forM readInstruction
  return root

/-! ### Cursors -/

namespace Cursor

/-- What a cursor has ahead, and that the prefixes inside some tags count. -/
structure At (c : Cursor) (outer : List Tag) (marks : List Mark) : Prop where
  ahead : c.marks.drop c.index = marks
  counts : c.scope.sets[c.scope.current]? = some (scopeOf outer)

/-- A cursor some tokens on, after more sets of prefixes were made. -/
def past (c : Cursor) (count : Nat) (more : List (List String)) : Cursor :=
  { c with
    index := c.index + count
    scope := { c.scope with sets := c.scope.sets ++ more } }

/-- A cursor for which another set of prefixes counts. -/
def within (c : Cursor) (own : Nat) : Cursor := { c with scope := { c.scope with current := own } }

variable {c : Cursor} {outer : List Tag} {m : Mark} {passed marks : List Mark}

theorem past_past (count count' : Nat) (more more' : List (List String))
    : (c.past count more).past count' more' = c.past (count + count') (more ++ more') := by
  simp [past, Nat.add_assoc]

theorem past_next (count : Nat) (more : List (List String))
    : (c.past 1 []).past count more = c.past (count + 1) more := by
  rw [past_past, nil_append, Nat.add_comm]

theorem At.past (h : c.At outer (passed ++ marks)) (more : List (List String))
    : (c.past passed.length more).At outer marks where
  ahead := by
    change c.marks.drop (c.index + passed.length) = marks
    rw [← drop_drop, h.ahead, drop_left]
  counts := by
    have bound := (List.getElem?_eq_some_iff.mp h.counts).1
    change (c.scope.sets ++ more)[c.scope.current]? = _
    rw [getElem?_append_left bound, h.counts]

theorem At.next (h : c.At outer (m :: marks)) : (c.past 1 []).At outer marks :=
  @At.past c outer [m] marks h []

theorem At.behind {tag : Tag} {inner : List Markup.Token} {pos : Position} {name : String}
    (h : c.At outer (.token (.start tag) :: (inner.map .token ++ .token (.stop pos name) :: marks)))
    (more : List (List String))
    : (c.past (inner.length + 2) more).At outer marks := by
  have whole : c.At outer ((.token (.start tag) :: (inner.map .token ++ [.token (.stop pos name)]))
      ++ marks) := by
    simpa using h
  simpa using whole.past more

theorem At.prefixes (h : c.At outer marks) : c.scope.prefixes = scopeOf outer := by
  rw [PrefixScope.prefixes, h.counts, Option.getD_some]

theorem At.getElem? (h : c.At outer (m :: marks)) : c.marks[c.index]? = some m := by
  have first := congrArg (·[0]?) h.ahead
  simpa using first

end Cursor

namespace Parsing

variable {α β : Type} {c : Cursor} {outer : List Tag} {m : Mark} {t : Markup.Token} {marks : List Mark}

theorem run_lift (x : Reading α) : (liftM x : Parsing α).run c = x >>= fun a => pure (a, c) := rfl

theorem run_current (h : c.At outer (m :: marks)) : current.run c = pure (m, c) := by
  simp [current, h.getElem?]

theorem run_advance (h : c.At outer (.token t :: marks))
    : advance.run c = pure (.token t, c.past 1 []) := by
  simp [advance, run_current h, Cursor.past]

theorem run_enter (own : Nat) : (enter own).run c = pure (⟨⟩, c.within own) := rfl

/-- Inside a tag the prefixes that its declarations leave count. -/
theorem run_declareNamespaces (h : c.At outer marks) (tag : Tag)
    : ∃ more own,
        (declareNamespaces tag).run c = (noteNamespaces tag >>= fun _ => pure (own, c.past 0 more))
        ∧ (c.scope.sets ++ more)[own]? = some (scopeOf (tag :: outer)) := by
  obtain ⟨more, own, noted, inside⟩ :=
    PrefixScope.foldl_note h.counts (tag.attributes.filter fun a => isDeclaration a.name)
  refine ⟨more, own, ?_, inside⟩
  unfold declareNamespaces
  simp only [StateT.run_bind, run_lift, bind_assoc, pure_bind, StateT.run_get]
  rw [noted]
  rfl

/-- Reading the content of an element, where its tags pair. -/
def ReadsContent (inner : List Markup.Token) (items : List Item) : Prop :=
  ∀ (depth : Nat) (c : Cursor) (outer : List Tag) (pos : Position) (name : String) (tail : List Mark),
    c.At outer (inner.map .token ++ .token (.stop pos name) :: tail) → inner.length < depth
    → ∃ more, (content depth).run c
        = readItems outer items >>= fun found => pure (found, c.past (inner.length + 1) more)

variable {inner tokens : List Markup.Token} {items : List Item} {pos : Position} {name : String}
  {depth : Nat} {tag : Tag}

/-- An element is read up to the end tag that pairs with its start tag. -/
theorem run_element (inside : ReadsContent inner items) (isRoot : Bool)
    (h : c.At outer (.token (.start tag) :: (inner.map .token ++ .token (.stop pos name) :: marks)))
    (deep : inner.length + 1 < depth)
    : ∃ more, (element depth isRoot).run c
        = readElement outer isRoot tag (readItems (tag :: outer) items) >>= fun node =>
            pure (node, c.past (inner.length + 2) more) := by
  obtain ⟨depth, rfl⟩ : ∃ n, depth = n + 1 := ⟨depth - 1, by omega⟩
  have next : (c.past 1 []).At outer (inner.map .token ++ .token (.stop pos name) :: marks) :=
    h.next
  obtain ⟨more, own, declared, inScope⟩ := run_declareNamespaces next tag
  have entered : (((c.past 1 []).past 0 more).within own).At (tag :: outer)
      (inner.map .token ++ .token (.stop pos name) :: marks) :=
    ⟨next.ahead, inScope⟩
  obtain ⟨more', read⟩ := inside depth _ _ pos name marks entered (by omega)
  refine ⟨more ++ more', ?_⟩
  -- The prefixes around the element count again behind it.
  have left : ((((c.past 1 []).past 0 more).within own).past (inner.length + 1) more').within
      (c.past 1 []).scope.current = c.past (inner.length + 2) (more ++ more') := by
    simp [Cursor.past, Cursor.within]
    omega
  rw [element, readElement]
  simp only [StateT.run_bind, run_advance h, pure_bind, StateT.run_get, Mark.tag, declared, bind_assoc,
    run_enter, run_lift, entered.prefixes, read, StateT.run_pure, left]

/-- Where tags pair, content is read up to the end tag of its element. -/
theorem readsContent_of_nests (nests : Nests inner items) : ReadsContent inner items := by
  induction nests with
  | nil =>
    intro depth c outer pos name tail h deep
    obtain ⟨depth, rfl⟩ : ∃ n, depth = n + 1 := ⟨depth - 1, by omega⟩
    refine ⟨[], ?_⟩
    rw [content, readItems]
    simp only [StateT.run_bind, run_current h, run_advance h, pure_bind]
    rfl
  | text run later ih =>
    intro depth c outer pos name tail h deep
    rw [length_cons] at deep
    obtain ⟨depth, rfl⟩ : ∃ n, depth = n + 1 := ⟨depth - 1, by omega⟩
    obtain ⟨more, read⟩ := ih depth _ _ pos name tail h.next (by omega)
    refine ⟨more, ?_⟩
    rw [content, readItems, readItem]
    simp only [StateT.run_bind, run_current h, run_advance h, pure_bind, run_lift, bind_assoc, read,
      StateT.run_pure, Cursor.past_next]
    rfl
  | instruction i later ih =>
    intro depth c outer pos name tail h deep
    rw [length_cons] at deep
    obtain ⟨depth, rfl⟩ : ∃ n, depth = n + 1 := ⟨depth - 1, by omega⟩
    obtain ⟨more, read⟩ := ih depth _ _ pos name tail h.next (by omega)
    refine ⟨more, ?_⟩
    rw [content, readItems, readItem]
    simp only [StateT.run_bind, run_current h, run_advance h, pure_bind, run_lift, bind_assoc, read,
      Cursor.past_next]
    simp
  | @element tag pos' name' inner _ tokens _ inside later ih ih' =>
    intro depth c outer pos name tail h deep
    simp only [length_cons, length_append] at deep
    have h : c.At outer (.token (.start tag) :: (inner.map .token ++ .token (.stop pos' name')
        :: (tokens.map .token ++ .token (.stop pos name) :: tail))) := by
      simpa using h
    obtain ⟨depth, rfl⟩ : ∃ n, depth = n + 1 := ⟨depth - 1, by omega⟩
    obtain ⟨more, node⟩ := @run_element c outer _ inner _ pos' name' depth tag ih false h (by omega)
    obtain ⟨more', rest⟩ := ih' depth _ _ pos name tail (h.behind more) (by omega)
    refine ⟨more ++ more', ?_⟩
    have count : inner.length + 2 + (tokens.length + 1)
        = (Markup.Token.start tag :: (inner ++ .stop pos' name' :: tokens)).length + 1 := by
      simp only [length_cons, length_append]
      omega
    rw [content, readItems, readItem]
    simp only [StateT.run_bind, run_current h, pure_bind, node, rest, bind_assoc, Cursor.past_past,
      count]
    simp

/-! ### Documents -/

/-- The marks of instructions. -/
def marksOf (is : List Instruction) : List Mark := is.map fun i => .token (.instruction i)

/-- Instructions outside the root are read one after the other. -/
theorem run_document_instructions (is : List Instruction) (root : Option Node)
    (h : c.At outer (marksOf is ++ marks))
    : (document (is.length + depth) root).run c
      = is.forM readInstruction >>= fun _ => (document depth root).run (c.past is.length []) := by
  induction is generalizing c with
  | nil =>
    rw [length_nil, Nat.zero_add, List.forM, pure_bind]
    simp [Cursor.past]
  | cons i rest ih =>
    have h : c.At outer (.token (.instruction i) :: (marksOf rest ++ marks)) := h
    have later := ih h.next
    rw [length_cons, Nat.add_right_comm, document, List.forM]
    simp only [StateT.run_bind, run_current h, run_advance h, pure_bind, run_lift, bind_assoc, later,
      Cursor.past_next]

/-- The root is read, and then instructions up to the end mark. -/
theorem run_document_root (nests : Nests inner items) (after : List Instruction) {stop : Position}
    (h : c.At outer (.token (.start tag) :: (inner.map .token ++ .token (.stop pos name)
      :: (marksOf after ++ [.finish stop]))))
    : ∃ c', (document (after.length + (inner.length + 2) + 1) none).run c
          = (readElement outer true tag (readItems (tag :: outer) items) >>= fun root =>
              after.forM readInstruction >>= fun _ => pure (some root, c'))
        ∧ c'.At outer [.finish stop] ∧ c'.marks = c.marks := by
  obtain ⟨more, node⟩ := @run_element c outer _ inner _ pos name (after.length + (inner.length + 2)) tag
    (readsContent_of_nests nests) true h (by omega)
  have behind := h.behind more
  have final := behind.past []
  refine ⟨_, ?_, final, rfl⟩
  have finished (root : Node) : (document (inner.length + 2) (some root)).run
      ((c.past (inner.length + 2) more).past (marksOf after).length [])
      = pure (some root, (c.past (inner.length + 2) more).past (marksOf after).length []) := by
    rw [document]
    simp only [StateT.run_bind, run_current final, pure_bind]
    rfl
  rw [marksOf, length_map] at finished ⊢
  rw [document]
  simp only [StateT.run_bind, run_current h, pure_bind, node, bind_assoc,
    run_document_instructions after _ behind, finished]

end Parsing

/-- A whole document is read like its tree, and at the end the cursor stands before the end mark. -/
theorem parse_whole {tokens : List Markup.Token} (w : Whole tokens) (stop : Position)
    : ∃ c : Cursor, parse tokens stop = (readWhole w >>= fun root => pure (some root, c))
        ∧ c.index = tokens.length := by
  have marks : tokens.map Mark.token ++ [.finish stop]
      = Parsing.marksOf w.before ++ .token (.start w.tag) :: (w.inner.map .token
        ++ .token (.stop w.pos w.name) :: (Parsing.marksOf w.after ++ [.finish stop])) := by
    simp [w.same, Parsing.marksOf, Function.comp_def]
  have depth : (tokens.map Mark.token ++ [Mark.finish stop]).length
      = w.before.length + (w.after.length + (w.inner.length + 2) + 1) := by
    rw [marks]
    simp only [Parsing.marksOf, length_append, length_cons, length_map, length_nil]
    omega
  have start : Cursor.At { marks := tokens.map Mark.token ++ [.finish stop] } [] _ := ⟨marks, rfl⟩
  obtain ⟨c, root, final, same⟩ := Parsing.run_document_root w.nests w.after (start.past [])
  have left := congrArg length final.ahead
  rw [same, length_drop] at left
  simp only [Cursor.past, length_append, length_map, length_singleton] at left
  rw [Parsing.marksOf, length_map] at root
  refine ⟨c, ?_, by omega⟩
  unfold parse
  dsimp only
  rw [depth, Parsing.run_document_instructions w.before none start, root]
  simp [readWhole]

/-! ### Prefixes -/

/-- Prefixes have lexical scope. Every element of a document is read with prefixes that only its own
tag and those around it determine, and a prefix that is not empty is among them if and only if its
nearest declaration there gives an address of the markup language, or there is none and it is `fx`.
-/
theorem parse_lexical (src : String)
    : (match Markup.Token.scan src with
        | .ok (tokens, stop) => ∃ (w : Whole tokens) (c : Cursor),
            parse tokens stop = (readWhole w >>= fun root => pure (some root, c))
        | .error _ => True)
      ∧ ∀ tags p, p ∈ scopeOf tags ↔ p ≠ "" ∧ isFx tags p = true := by
  refine ⟨?_, mem_scopeOf⟩
  split
  · rename_i tokens stop scanned
    obtain ⟨w⟩ := exists_whole scanned
    obtain ⟨c, same, _⟩ := parse_whole w stop
    exact ⟨w, c, same⟩
  · trivial

/-- A declaration of the empty prefix has no effect. -/
theorem emptyPrefix_refused
    : let tag : Tag := ⟨.start, "A", [⟨"xmlns:", fxNamespace, .start, .start⟩,
        ⟨":id", "x", .start, .start⟩]⟩
      isFx [tag] "" = true
      ∧ ((parse [.start tag, .stop .start "A"] .start).run {}).map (fun _ => ())
        = .error (.fault ⟨.undeclaredPrefix "", .start⟩) := by
  intro tag
  exact ⟨by decide +kernel, by cbv⟩

end Fxml.Document
