import Fxml.Proofs.Document.Tokens
import Fxml.Proofs.Document.Walk

/-! Ranks of nodes. Reading numbers the nodes of a document as they are completed, so their ranks
count them in the order of their end tags.
-/

open List

namespace Fxml.Document

open Markup (Item Nests Whole)

variable {α β : Type} {reasons : Halt → Prop} {low high : Nat} {x y : Reading α} {f : α → Reading β}
  {post : β → Nat → Prop} {cause : DocumentCause} {pos : Position} {p : Prop} {src path : String}
  {document : Document} {control isRoot : Bool} {prefixes : List String} {tag : Markup.Tag}
  {fx : Table Markup.RawAttribute} {items : List Item} {children nodes : List Node}

/-! ### Readings and their counter -/

/-- What may come of a reading that starts with a number of completed nodes: a result and a number of
completed nodes as stated, a fault, or a halt for one of some reasons.
-/
def Counts (reasons : Halt → Prop) (low : Nat) (x : Reading α) (post : α → Nat → Prop) : Prop :=
  ∀ s : State, s.completed = low →
    match x.run s with
    | .ok (a, s') => post a s'.completed
    | .error (.fault _) => True
    | .error (.halt reason) => reasons reason

theorem Counts.bind {mid : α → Nat → Prop} (first : Counts reasons low x mid)
    (second : ∀ a between, mid a between → Counts reasons between (f a) post)
    : Counts reasons low (x >>= f) post := by
  intro s start
  have held := first s start
  rw [StateT.run_bind]
  cases between : x.run s with
  | error e =>
    rw [between] at held
    cases e with
    | fault => trivial
    | halt => exact held
  | ok result =>
    obtain ⟨a, s'⟩ := result
    rw [between] at held
    exact second a _ held s' rfl

theorem Counts.mono {post' : α → Nat → Prop} {mid : α → Nat → Prop} (h : Counts reasons low x mid)
    (imp : ∀ a high, mid a high → post' a high)
    : Counts reasons low x post' := by
  intro s start
  have held := h s start
  split at held
  · exact imp _ _ held
  · trivial
  · exact held

theorem counts_pure {a : α} {post : α → Nat → Prop} (h : post a low)
    : Counts reasons low (pure a) post := by
  rintro s rfl
  exact h

theorem counts_fail {post : α → Nat → Prop} : Counts reasons low (fail cause pos) post :=
  fun _ _ => trivial

theorem counts_fail_bind : Counts reasons low (fail cause pos >>= f) post := fun _ _ => trivial

theorem Counts.ite [Decidable p] {post : α → Nat → Prop} (yes : Counts reasons low x post)
    (no : Counts reasons low y post)
    : Counts reasons low (if p then x else y) post := by
  split
  · exact yes
  · exact no

/-- A reading that completes no node. -/
def Keeps (reasons : Halt → Prop) (x : Reading α) : Prop :=
  ∀ low, Counts reasons low x fun _ high => high = low

theorem Keeps.pure (a : α) : Keeps reasons (Pure.pure a) := fun _ => counts_pure rfl

theorem Keeps.fail : Keeps reasons (fail cause pos : Reading α) := fun _ => counts_fail

theorem Keeps.halt {reason : Halt} (h : reasons reason)
    : Keeps reasons (halt reason : Reading α) :=
  fun _ _ _ => h

theorem Keeps.header (f : Header → Header) : Keeps reasons (modifyHeader f) := fun _ _ same => same

theorem Keeps.then (first : Keeps reasons x) (second : ∀ a, Counts reasons low (f a) post)
    : Counts reasons low (x >>= f) post :=
  (first low).bind fun a _ same => same ▸ second a

theorem Keeps.bind (first : Keeps reasons x) (second : ∀ a, Keeps reasons (f a))
    : Keeps reasons (x >>= f) :=
  fun low => first.then fun a => second a low

theorem Keeps.ite [Decidable p] (yes : Keeps reasons x) (no : Keeps reasons y)
    : Keeps reasons (if p then x else y) :=
  fun low => (yes low).ite (no low)

theorem Keeps.fold {f : β → α → Reading β} {items : List α}
    (step : ∀ b, ∀ a ∈ items, Keeps reasons (f b a)) (b : β)
    : Keeps reasons (items.foldlM f b) := by
  induction items generalizing b with
  | nil => exact .pure b
  | cons item rest ih =>
    rw [foldlM_cons]
    exact (step b item mem_cons_self).bind fun b' =>
      ih (fun b a member => step b a (mem_cons_of_mem _ member)) b'

theorem Keeps.loop {items : List α} {body : α → PUnit → Reading (ForInStep PUnit)}
    (round : ∀ item, Keeps reasons (body item ⟨⟩))
    : Keeps reasons (forIn items ⟨⟩ body) := by
  induction items with
  | nil => exact .pure _
  | cons item rest ih =>
    rw [forIn_cons]
    refine (round item).bind fun next => ?_
    cases next with
    | done => exact .pure _
    | yield => exact ih

theorem Keeps.forM {items : List α} {body : α → Reading PUnit}
    (round : ∀ item, Keeps reasons (body item))
    : Keeps reasons (items.forM body) := by
  induction items with
  | nil => exact .pure _
  | cons item rest ih => exact (round item).bind fun _ => ih

/-! ### Ranks in a tree -/

/-- The ranks of the nodes of a list of trees count from one number to another. -/
structure Ranked (low high : Nat) (nodes : List Node) : Prop where
  le : low ≤ high
  counted : (Node.postorderAll nodes).map Node.order = range' (low + 1) (high - low)

theorem ranked_nil : Ranked low low [] := ⟨Nat.le_refl _, by simp [Node.postorderAll]⟩

/-- Trees that are read one after the other. -/
theorem Ranked.append {mid : Nat} {more : List Node} (first : Ranked low mid nodes)
    (second : Ranked mid high more)
    : Ranked low high (nodes ++ more) := by
  have early := first.le
  have late := second.le
  refine ⟨by omega, ?_⟩
  rw [Node.postorderAll_append, map_append, first.counted, second.counted]
  have width : high - low = (mid - low) + (high - mid) := by omega
  have start : mid + 1 = low + 1 + (mid - low) := by omega
  rw [width, start, range'_append_1]

theorem Ranked.node {node : Node} (content : Ranked low high children)
    (order : node.order = high + 1) (inner : node.children = children)
    : Ranked low (high + 1) [node] := by
  have le := content.le
  refine ⟨by omega, ?_⟩
  have trees : Node.postorderAll [node] = Node.postorderAll children ++ [node] := by
    simp [Node.postorderAll, Node.postorder_eq, inner]
  have width : high + 1 - low = high - low + 1 := by omega
  rw [trees, map_append, content.counted, width, range'_1_concat]
  simp [order]
  omega

/-! ### Reasons to halt -/

/-- Reading a value comes to a halt. -/
def ValueHalts (raw : String) (reason : Halt) : Prop :=
  ∃ pos, Value.read raw.toList pos true = .error (.halt reason)

/-- The reasons for which reading a token can halt: a value in a tag or a text cannot be read, or the
first visible character of the text cannot be found.
-/
def TokenHalts (reason : Halt) : Markup.Token → Prop
  | .start tag => ∃ a ∈ tag.attributes, ValueHalts a.value reason
  | .text run =>
    run.cdata = false ∧ (firstVisible run.pos run.raw.toList = .error reason
      ∨ ValueHalts (Text.collapseBlanks run.value) reason)
  | .stop .. | .instruction _ => False

/-! ### Parts that complete no node -/

theorem readInstruction_keeps {i : Markup.Instruction} : Keeps reasons (readInstruction i) := by
  unfold readInstruction
  split
  · exact .ite (.header _) .fail
  · exact .header _
  · split
    · exact .header _
    · exact .header _
    · exact .fail
  · exact .ite (.header _) .fail
  · refine (Keeps.loop fun name => .ite ?_ ?_).bind fun _ => .pure _
    · exact (Keeps.header _).bind fun _ => .pure _
    · exact Keeps.fail.bind fun _ => .pure _
  · exact .fail

theorem readValue_keeps {raw : String} (known : ∀ reason, ValueHalts raw reason → reasons reason)
    : Keeps reasons (readValue raw pos) := by
  unfold readValue
  split
  · exact .pure _
  · exact (Keeps.header _).bind fun _ => .pure _
  · exact .halt (known _ ⟨_, ‹_›⟩)

theorem readAttribute_keeps {raw : Markup.RawAttribute}
    (known : ∀ reason, ValueHalts raw.value reason → reasons reason)
    : Keeps reasons (readAttribute control raw) := by
  unfold readAttribute
  split
  exact .ite ((Keeps.pure _).bind fun _ => .pure _) ((readValue_keeps known).bind fun _ => .pure _)

theorem readText_keeps {run : Markup.TextRun}
    (known : ∀ reason, TokenHalts reason (.text run) → reasons reason)
    : Keeps reasons (readText run) := by
  unfold readText
  split
  · exact .pure _
  rename_i plain
  have plain : run.cdata = false := Bool.eq_false_iff.mpr plain
  refine .ite (.pure _) ?_
  split
  · exact readValue_keeps fun reason halts => known reason ⟨plain, .inr halts⟩
  · exact .halt (known _ ⟨plain, .inl ‹_›⟩)

theorem takeId_keeps : Keeps reasons (takeId fx) := by
  unfold takeId
  split
  · exact .pure _
  split
  · exact .pure _
  · exact .fail

theorem rejectFx_keeps : Keeps reasons (rejectFx tag fx) := by
  cases fx with
  | nil => exact .pure _
  | cons => exact .fail

theorem rejectPlain_keeps {attributes : List Attribute}
    : Keeps reasons (rejectPlain tag attributes) := by
  cases attributes with
  | nil => exact .pure _
  | cons => exact .fail

/-! ### Start tags -/

/-- An element that can be the root of a document: an object or a constant. -/
def Opening.IsRoot : Opening → Prop
  | .object .. | .constant .. => True
  | _ => False

/-- Reading a start tag completes no node, and the root is an object or a constant. -/
def Opens (reasons : Halt → Prop) (isRoot : Bool) (x : Reading Opening) : Prop :=
  ∀ low, Counts reasons low x fun opening high => high = low ∧ (isRoot = true → opening.IsRoot)

theorem Opens.pure {opening : Opening} (h : isRoot = true → opening.IsRoot)
    : Opens reasons isRoot (Pure.pure opening) :=
  fun _ => counts_pure ⟨rfl, h⟩

theorem Opens.fail : Opens reasons isRoot (fail cause pos) := fun _ => counts_fail

theorem Opens.fail_bind {f : α → Reading Opening} : Opens reasons isRoot (Document.fail cause pos >>= f) :=
  fun _ => counts_fail_bind

theorem Opens.ite [Decidable p] {x y : Reading Opening} (yes : Opens reasons isRoot x)
    (no : Opens reasons isRoot y)
    : Opens reasons isRoot (if p then x else y) :=
  fun low => (yes low).ite (no low)

theorem Keeps.opens {f : α → Reading Opening} (first : Keeps reasons x)
    (second : ∀ a, Opens reasons isRoot (f a))
    : Opens reasons isRoot (x >>= f) :=
  fun low => first.then fun a => second a low

/-- Kinds of elements that are refused as roots. -/
theorem Opens.nested {x : Reading Opening} (inside : Opens reasons false x)
    : Opens reasons isRoot (if isRoot then Document.fail cause pos else x) := by
  cases isRoot with
  | true => exact .fail
  | false => exact inside

section

variable (known : ∀ reason, TokenHalts reason (.start tag) → reasons reason)
include known

theorem readAttributes_keeps : Keeps reasons (readAttributes prefixes tag isRoot control) := by
  refine .fold (fun found raw member => ?_) _
  unfold readTagAttribute
  refine .ite (.pure _) ?_
  split
  · refine .ite .fail (.ite (.ite ?_ .fail) (.pure _))
    exact (Keeps.header _).bind fun _ => .pure _
  · refine (readAttribute_keeps fun reason halts => ?_).bind fun _ => .pure _
    exact known reason ⟨raw, member, halts⟩

theorem openObject_opens : Opens reasons isRoot (openObject prefixes tag isRoot) := by
  unfold openObject
  refine (readAttributes_keeps known).opens fun (fx, attributes) => ?_
  refine takeId_keeps.opens fun (id, fx) => ?_
  refine .ite .fail_bind ?_
  split
  · exact .fail
  split
  · exact .ite .fail_bind (.pure fun _ => trivial)
  · exact .pure fun _ => trivial

theorem openRoot_opens : Opens reasons isRoot (openRoot prefixes tag) := by
  unfold openRoot
  refine (readAttributes_keeps known).opens fun (fx, attributes) => ?_
  dsimp only
  split
  · exact .fail
  · refine takeId_keeps.opens fun (id, fx) => ?_
    exact rejectFx_keeps.opens fun _ => .pure fun _ => trivial

theorem openSourced_opens {name : String}
    : Opens reasons false (openSourced prefixes tag name) := by
  unfold openSourced
  refine (readAttributes_keeps known).opens fun (fx, attributes) => ?_
  refine takeId_keeps.opens fun (id, fx) => ?_
  refine rejectFx_keeps.opens fun _ => ?_
  split
  · exact .fail
  refine .ite .fail (.ite ?_ ?_)
  · exact rejectPlain_keeps.opens fun _ => .pure nofun
  · exact rejectPlain_keeps.opens fun _ => .pure nofun

theorem openProperty_opens : Opens reasons false (openProperty prefixes tag) := by
  unfold openProperty
  refine (readAttributes_keeps known).opens fun (fx, attributes) => ?_
  exact .ite .fail_bind (.ite .fail_bind (.pure nofun))

theorem openControl_opens {name : String}
    : Opens reasons isRoot (openControl prefixes tag name isRoot) := by
  unfold openControl
  split
  · exact .fail
  · exact .ite (openRoot_opens known) .fail
  · exact .nested (.ite .fail_bind (.pure nofun))
  · exact .nested (openSourced_opens known)
  · exact .nested (openSourced_opens known)
  · exact .nested (openSourced_opens known)
  · exact .fail

theorem openElement_opens : Opens reasons isRoot (openElement prefixes tag isRoot) := by
  unfold openElement
  split
  · exact .ite (openControl_opens known) .fail
  · refine .ite (.nested (openProperty_opens known)) (.ite (.nested ?_) (.ite ?_ .fail))
    · exact .ite .fail_bind (.pure nofun)
    · exact openObject_opens known

end

/-! ### Elements -/

/-- A node that can be the root of a document: an object or a constant. -/
def IsRoot : Node → Prop
  | .object .. | .constant .. => True
  | _ => False

/-- What is made of an element: a node at its tag that holds the nodes of the content and is
complete after them.
-/
structure Completes (tag : Markup.Tag) (isRoot : Bool) (before : Nat) (children : List Node)
    (node : Node) (high : Nat)
    : Prop where
  pos : node.pos = tag.pos
  root : isRoot = true → IsRoot node
  content : node.children = children
  order : node.order = before + 1
  counted : high = before + 1

theorem counts_complete {make : Nat → Node}
    (made : ∀ n, (make n).order = n ∧ (make n).children = children ∧ (make n).pos = tag.pos
      ∧ (isRoot = true → IsRoot (make n)))
    : Counts reasons low (complete >>= fun n => pure (make n)) (Completes tag isRoot low children) := by
  rintro s rfl
  obtain ⟨order, same, pos, root⟩ := made (s.completed + 1)
  exact ⟨pos, root, same, order, rfl⟩

/-- An element without content has no children. -/
theorem rejectContent_counts {content : Content}
    : Counts reasons low (rejectContent tag content) fun _ high => high = low ∧ content.1 = [] := by
  obtain ⟨children, text⟩ := content
  unfold rejectContent
  cases children with
  | nil => exact .ite counts_fail (counts_pure ⟨rfl, rfl⟩)
  | cons => exact counts_fail

theorem counts_complete_empty {make : Nat → Node} {content : Content}
    (made : ∀ n, (make n).order = n ∧ (make n).children = [] ∧ (make n).pos = tag.pos
      ∧ (isRoot = true → IsRoot (make n)))
    : Counts reasons low (rejectContent tag content >>= fun _ => complete >>= fun n => pure (make n))
        (Completes tag isRoot low content.1) := by
  refine rejectContent_counts.bind fun _ _ ⟨same, empty⟩ => ?_
  rw [same, empty]
  exact counts_complete made

theorem closeElement_counts {opening : Opening} (content : Content)
    (root : isRoot = true → opening.IsRoot)
    : Counts reasons low (closeElement tag opening content)
        (Completes tag isRoot low content.1) := by
  unfold closeElement
  cases opening with
  | object => exact counts_complete fun _ => ⟨rfl, rfl, rfl, fun _ => trivial⟩
  | constant => exact counts_complete_empty fun _ => ⟨rfl, rfl, rfl, fun _ => trivial⟩
  | property => exact counts_complete fun _ => ⟨rfl, rfl, rfl, root⟩
  | staticProperty => exact counts_complete fun _ => ⟨rfl, rfl, rfl, root⟩
  | define =>
    dsimp only
    split
    · exact counts_fail
    · exact counts_complete fun _ => ⟨rfl, rfl, rfl, root⟩
  | inclusion => exact counts_complete_empty fun _ => ⟨rfl, rfl, rfl, root⟩
  | reference source id =>
    refine rejectContent_counts.bind fun _ _ ⟨same, empty⟩ => ?_
    rw [same, empty]
    exact .ite counts_fail_bind (counts_complete fun _ => ⟨rfl, rfl, rfl, root⟩)
  | copy => exact counts_complete_empty fun _ => ⟨rfl, rfl, rfl, root⟩

/-- Nodes stand for the elements among some items, in their order and with those inside them. -/
inductive Mirrors : List Item → List Node → Prop
  | nil : Mirrors [] []
  | text (run) {rest nodes} (later : Mirrors rest nodes) : Mirrors (.text run :: rest) nodes
  | instruction (i) {rest nodes} (later : Mirrors rest nodes)
    : Mirrors (.instruction i :: rest) nodes
  | element {tag content node rest nodes} (pos : node.pos = tag.pos)
    (inner : Mirrors content node.children) (later : Mirrors rest nodes)
    : Mirrors (.element tag content :: rest) (node :: nodes)

/-- What is read for an element: a node at its tag with the nodes of the elements inside it, ranked
after them.
-/
structure Reads (tag : Markup.Tag) (isRoot : Bool) (items : List Item) (low : Nat) (node : Node)
    (high : Nat)
    : Prop where
  pos : node.pos = tag.pos
  root : isRoot = true → IsRoot node
  content : Mirrors items node.children
  ranked : Ranked low high [node]

variable {outer : List Markup.Tag}

theorem readElement_counts {content : Reading Content}
    (known : ∀ reason, TokenHalts reason (.start tag) → reasons reason)
    (inside : Counts reasons low content fun found high =>
      Ranked low high found.1 ∧ Mirrors items found.1)
    : Counts reasons low (readElement outer isRoot tag content) (Reads tag isRoot items low) := by
  unfold readElement noteNamespaces
  refine (Keeps.header _).then fun _ => ?_
  refine (openElement_opens known low).bind fun opening _ ⟨same, root⟩ => ?_
  rw [same]
  refine inside.bind fun found before ⟨ranked, mirrored⟩ => ?_
  refine (closeElement_counts found root).mono fun node _ made => ?_
  rw [made.counted]
  exact ⟨made.pos, made.root, made.content ▸ mirrored, ranked.node made.order made.content⟩

/-- Only elements make nodes, one for each. -/
theorem readItems_counts {inner : List Markup.Token} (nests : Nests inner items)
    (known : ∀ token ∈ inner, ∀ reason, TokenHalts reason token → reasons reason)
    : Counts reasons low (readItems outer items) fun found high =>
        Ranked low high found.1 ∧ Mirrors items found.1 := by
  induction nests generalizing outer low with
  | nil =>
    rw [readItems]
    exact counts_pure ⟨ranked_nil, .nil⟩
  | text run later ih =>
    obtain ⟨here, known⟩ := forall_mem_cons.mp known
    simp only [readItems, readItem, bind_assoc, pure_bind]
    refine (readText_keeps here).then fun text => (ih known).bind ?_
    rintro ⟨nodes, _⟩ high ⟨ranked, mirrored⟩
    exact counts_pure ⟨ranked, .text run mirrored⟩
  | instruction i later ih =>
    obtain ⟨_, known⟩ := forall_mem_cons.mp known
    simp only [readItems, readItem, bind_assoc, pure_bind]
    refine readInstruction_keeps.then fun _ => (ih known).bind ?_
    rintro ⟨nodes, _⟩ high ⟨ranked, mirrored⟩
    exact counts_pure ⟨ranked, .instruction i mirrored⟩
  | element tag pos name inside later ih ih' =>
    obtain ⟨here, known⟩ := forall_mem_cons.mp known
    obtain ⟨first, rest⟩ := forall_mem_append.mp known
    simp only [readItems, readItem, bind_assoc, pure_bind]
    refine (readElement_counts here (ih first)).bind fun node mid made => ?_
    refine (ih' (forall_mem_cons.mp rest).2).bind ?_
    rintro ⟨nodes, _⟩ high ⟨ranked, mirrored⟩
    exact counts_pure ⟨made.ranked.append ranked, .element made.pos made.content mirrored⟩

/-! ### Documents -/

/-- The root of a whole document is read after the instructions before it. -/
theorem readWhole_counts {tokens : List Markup.Token} (w : Whole tokens)
    (known : ∀ token ∈ tokens, ∀ reason, TokenHalts reason token → reasons reason)
    : Counts reasons low (readWhole w) (Reads w.tag true w.items low) := by
  have all := w.same ▸ known
  obtain ⟨here, known⟩ := forall_mem_cons.mp (forall_mem_append.mp all).2
  unfold readWhole
  refine (Keeps.forM fun _ => readInstruction_keeps).then fun _ => ?_
  refine (readElement_counts here (readItems_counts w.nests (forall_mem_append.mp known).1)).bind ?_
  intro root high made
  exact (Keeps.forM fun _ => readInstruction_keeps).then fun _ => counts_pure made

section

variable (h : read src path = .ok document)
include h

/-- A document that is read has one root, and its nodes are numbered as they are completed. -/
theorem read_ok
    : IsRoot document.root ∧ ∃ high, Ranked 0 high [document.root] := by
  unfold read at h
  split at h
  · cases h
  rename_i tokens stop scanned
  obtain ⟨⟨⟨found, _⟩, state⟩, run, h⟩ := exists_of_bind_ok h
  obtain ⟨w⟩ := Markup.exists_whole scanned
  obtain ⟨c, whole, _⟩ := parse_whole w stop
  have counted := @readWhole_counts (fun _ => True) 0 tokens w (fun _ _ _ _ => trivial) {} rfl
  rw [whole, StateT.run_bind] at run
  obtain ⟨⟨root, state⟩, first, rest⟩ := exists_of_bind_ok run
  rw [first] at counted
  cases rest
  cases h
  exact ⟨counted.root rfl, _, counted.ranked⟩

theorem isRoot_of_read : IsRoot document.root := (read_ok h).1

/-- The nodes of a document that is read are numbered in the order of their end tags. -/
theorem ranks_postorder
    : document.root.postorder.map Node.order = range' 1 document.root.postorder.length := by
  obtain ⟨_, high, ranked⟩ := read_ok h
  have counted := ranked.counted
  simp only [Node.postorderAll, append_nil] at counted
  have total := congrArg length counted
  rw [length_map, length_range'] at total
  rw [counted, total]

theorem ranks_pairwise
    : document.root.postorder.Pairwise fun a b => a.order < b.order := by
  rw [← pairwise_map, ranks_postorder h]
  exact pairwise_lt_range'

theorem nodup_ranks
    : (document.root.walk.map Node.order).Nodup := by
  have both := (Node.postorder_perm_walk document.root).map Node.order
  rw [← both.nodup_iff, ranks_postorder h]
  exact nodup_range'

end

end Fxml.Document
