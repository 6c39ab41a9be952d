import Mathlib.Data.List.Nodup
import Fxml.Proofs.Plan.Shape
import Fxml.Proofs.Planning.Choice
import Fxml.Proofs.Planning.Pieces
import Fxml.Proofs.Planning.Placement

/-! How elements come to be. The draft of an object's element is the record of the effects of its
pieces, and the element has the values of the draft once a way to make the object is chosen. Any
other element has no value but what it copies.
-/

open List

namespace Fxml.Planning

variable {c : Context} {s t : State} {type : TypeDescriptor} {var : String} {node : Node}
  {piece : Piece} {d d' : Draft} {e e' : Element} {origin : Origin} {log : Log} {source : Source}
  {effect : Effect} {step : Step}

/-! ### The document and its ids -/

/-- A node gets an element unless it is a copy of nothing. -/
def Context.Placed (c : Context) (node : Node) : Prop := node ∈ c.document.root.placed .object

def Context.Grounded (c : Context) (node : Node) : Prop := node.Grounded c.registry

/-- The variable of an id. -/
def Context.varOf (c : Context) (id : String) : Option String := (c.registry.get? id).map (·.var)

/-- Nodes are told apart by their ranks, and each id is declared by one node of the document. -/
structure Context.Sound (c : Context) : Prop where
  ranks : (c.document.root.walk.map Node.order).Nodup
  unique : c.registry.keys.Nodup
  declares
    : ∀ id entry,
        c.registry.get? id = some entry
        → entry.node ∈ c.document.root.walk ∧ entry.node.id? = some id

theorem Context.Sound.eq_of_order (sound : c.Sound) {a b : Node} (ha : a ∈ c.document.root.walk)
    (hb : b ∈ c.document.root.walk) (same : a.order = b.order)
    : a = b :=
  inj_on_of_nodup_map sound.ranks ha hb same

theorem Context.Placed.mem_walk (h : c.Placed node) : node ∈ c.document.root.walk :=
  Node.placed_subset_walk _ _ h

/-! ### States that grow -/

/-- Names, variables, elements and bindings are only added, and a new variable has a new name. -/
structure Extends (s t : State) : Prop where
  taken : s.namer.taken ⊆ t.namer.taken
  vars : s.vars ⊆ t.vars
  fresh : ∀ rank var, (rank, var) ∈ t.vars → (rank, var) ∈ s.vars ∨ var ∉ s.namer.taken
  elements : s.elements.keys ⊆ t.elements.keys
  bindings : s.bindings ⊆ t.bindings

theorem Extends.of_same_names (namer : t.namer = s.namer) (vars : t.vars = s.vars)
    (elements : s.elements.keys ⊆ t.elements.keys) (bindings : s.bindings ⊆ t.bindings)
    : Extends s t where
  taken := namer ▸ Subset.refl _
  vars := vars ▸ Subset.refl _
  fresh _ _ member := .inl (vars ▸ member)
  elements := elements
  bindings := bindings

theorem Extends.of_same (namer : t.namer = s.namer) (vars : t.vars = s.vars)
    (elements : t.elements = s.elements) (bindings : t.bindings = s.bindings)
    : Extends s t :=
  .of_same_names namer vars (elements ▸ Subset.refl _) (bindings ▸ Subset.refl _)

theorem Extends.refl (s : State) : Extends s s := .of_same rfl rfl rfl rfl

theorem Extends.trans {u : State} (first : Extends s t) (second : Extends t u) : Extends s u where
  taken := Subset.trans first.taken second.taken
  vars := Subset.trans first.vars second.vars
  fresh rank var member :=
    (second.fresh rank var member).elim (first.fresh rank var)
      fun new => .inr fun old => new (first.taken old)
  elements := Subset.trans first.elements second.elements
  bindings := Subset.trans first.bindings second.bindings

/-- A variable of an element, or of an id. -/
def Known (c : Context) (s : State) (var : String) : Prop :=
  var ∈ s.elements.keys ∨ ∃ id, c.varOf id = some var

/-- An id that some node declares. -/
def Declared (c : Context) (id : String) : Prop := ∃ entry, c.registry.get? id = some entry

/-- A source names known variables and declared ids only. -/
def Reads (c : Context) (s : State) (source : Source) : Prop :=
  source.Valid (Known c s) (Declared c)

theorem Known.mono (h : Known c s var) (grows : Extends s t) : Known c t var :=
  h.imp_left fun member => grows.elements member

theorem Reads.mono (h : Reads c s source) (grows : Extends s t) : Reads c t source :=
  Source.Valid.mono h (fun _ known => known.mono grows) fun _ declared => declared

/-- The variable that a node stands for: its own, or that of the id it refers to. -/
def Standing (c : Context) (s : State) : Node → String → Prop
  | .reference _ _ id, var => c.varOf id = some var
  | node, var => (node.order, var) ∈ s.vars ∧ var ∈ s.elements.keys

theorem Standing.mono (h : Standing c s node var) (grows : Extends s t)
    : Standing c t node var := by
  cases node with
  | reference => exact h
  | _ => exact ⟨grows.vars h.1, grows.elements h.2⟩

theorem Standing.known (h : Standing c s node var) : Known c s var := by
  cases node with
  | reference => exact .inr ⟨_, h⟩
  | _ => exact .inl h.2

/-! ### Effects that come from a piece -/

/-- Nothing is made of a piece: of an attribute that is malformed or a blank handler, of a copy that
leads nowhere, of a node where none is taken, and of text beside the one value that is taken.
-/
def Piece.Idle (c : Context) (type : TypeDescriptor) (piece : Piece) : Prop :=
  match piece.slot, piece.matter with
  | .own, .attr a =>
    a.value = none ∨ isHandler type a = true ∧ a.raw.toList.all Text.isBlank = true
  | .inside _, .attr a => a.value = none
  | .own, .node n => ¬c.Grounded n
  | .inside _, .node n => ¬c.Grounded n ∨ isValue n = false
  | .own, .text _ => type.defaultProperty = none ∧ type.collection ≠ none
  | .inside element, .text _ =>
    element.children.any isItem = true ∧ ∀ p, piece.property? type = some p → holdsList p = false
  | _, .blank _ => True

/-- An effect on the draft of an element, given its type and variable, is one of a piece. -/
def Piece.Due (c : Context) (s : State) (type : TypeDescriptor) (var : String) (piece : Piece)
    : Effect → Prop
  | .step made =>
    piece.Gives c.types (Standing c s) made.source
      ∧ (piece.set? type = if made.kind = .set then some made.target else none)
      ∧ made.kind ≠ .handler
  | .handler made =>
    piece.Gives c.types (Standing c s) made.source
      ∧ piece.set? type = none
      ∧ made.kind ≠ .set
      ∧ (made.kind = .handler → made.target ∈ type.events.keys)
  | .hold name source _ =>
    piece.Gives c.types (Standing c s) source ∧ piece.kept? type = some name
  | .bind b => b ∈ s.bindings ∧ b.var = var ∧ piece.Binds type b
  | .text value =>
    piece = ⟨.own, .text value⟩ ∧ type.defaultProperty = none ∧ type.collection = none
  | .nothing => piece.Idle c type

/-- A step with the parts that its kind needs, which reads only what is known. -/
def Sensible (c : Context) (s : State) (step : Step) : Prop :=
  step.Shaped ∧ Reads c s step.source

/-- What an effect puts into a draft reads only what is known. -/
def Effect.Valid (c : Context) (s : State) : Effect → Prop
  | .step made | .handler made => Sensible c s made
  | .hold _ source _ => Reads c s source
  | .bind _ | .text _ | .nothing => True

theorem Piece.Due.mono (h : piece.Due c s type var effect) (grows : Extends s t)
    : piece.Due c t type var effect := by
  have gives {source : Source} (gives : piece.Gives c.types (Standing c s) source)
      : piece.Gives c.types (Standing c t) source :=
    gives.mono fun _ _ stands => stands.mono grows
  cases effect with
  | step | handler | hold => exact ⟨gives h.1, h.2⟩
  | bind => exact ⟨grows.bindings h.1, h.2⟩
  | text | nothing => exact h

theorem Effect.Valid.mono (h : effect.Valid c s) (grows : Extends s t)
    : effect.Valid c t := by
  cases effect with
  | step | handler => exact ⟨h.1, h.2.mono grows⟩
  | hold => exact Reads.mono h grows
  | bind | text | nothing => trivial

/-- The effects of a record are due and valid. -/
def Justifies (c : Context) (s : State) (type : TypeDescriptor) (var : String) (log : Log) : Prop :=
  ∀ entry ∈ log, entry.1.Due c s type var entry.2 ∧ entry.2.Valid c s

theorem Justifies.mono (h : Justifies c s type var log) (grows : Extends s t)
    : Justifies c t type var log :=
  fun entry member => (h entry member).imp (·.mono grows) (·.mono grows)

/-- A draft goes on by the effects of some pieces. -/
def Recorded (c : Context) (pieces : List Piece) (d d' : Draft) (s : State) : Prop :=
  ∃ log : Log,
    log.map Prod.fst = pieces
    ∧ d' = replay d log
    ∧ Justifies c s d.descriptor d.element.var log

namespace Recorded

variable {d'' : Draft} {pieces more : List Piece}

theorem nil : Recorded c [] d d s := ⟨[], rfl, rfl, fun _ member => nomatch member⟩

theorem one (effect : Effect) (due : piece.Due c s d.descriptor d.element.var effect)
    (valid : effect.Valid c s)
    : Recorded c [piece] d (effect.apply d) s := by
  refine ⟨[(piece, effect)], rfl, rfl, fun entry member => ?_⟩
  rw [mem_singleton.mp member]
  exact ⟨due, valid⟩

theorem skip (idle : piece.Idle c d.descriptor) : Recorded c [piece] d d s :=
  .one .nothing idle trivial

theorem idle (idle : ∀ piece ∈ pieces, piece.Idle c d.descriptor) : Recorded c pieces d d s := by
  refine ⟨pieces.map fun piece => (piece, .nothing), ?_, ?_, fun entry member => ?_⟩
  · rw [map_map]
    exact map_id pieces
  · induction pieces with
    | nil => rfl
    | cons piece rest ih => exact ih fun other member => idle other (mem_cons_of_mem _ member)
  · obtain ⟨piece, there, rfl⟩ := mem_map.mp member
    exact ⟨idle piece there, trivial⟩

theorem mono (h : Recorded c pieces d d' s) (grows : Extends s t) : Recorded c pieces d d' t := by
  obtain ⟨log, taken, same, justifies⟩ := h
  exact ⟨log, taken, same, justifies.mono grows⟩

theorem same (h : Recorded c pieces d d' s)
    : d'.element = d.element ∧ d'.descriptor = d.descriptor := by
  obtain ⟨log, _, rfl, _⟩ := h
  exact replay_same d log

theorem trans (first : Recorded c pieces d d' s) (second : Recorded c more d' d'' s)
    : Recorded c (pieces ++ more) d d'' s := by
  obtain ⟨element, descriptor⟩ := first.same
  obtain ⟨log, taken, rfl, justifies⟩ := first
  obtain ⟨log', taken', rfl, justifies'⟩ := second
  refine ⟨log ++ log', by rw [map_append, taken, taken'], replay_append.symm, ?_⟩
  intro entry member
  rcases mem_append.mp member with here | there
  · exact justifies entry here
  · rw [← element, ← descriptor]
    exact justifies' entry there

end Recorded

/-! ### The choice -/

/-- An element that nothing was put into yet. -/
structure Bare (e : Element) : Prop where
  args : e.args = []
  builder : e.builderType = none
  builderVar : e.builderVar = none
  builderSteps : e.builderSteps = []
  owner : e.ownerType = none
  source : e.source = none
  inclusion : e.inclusion = none
  steps : e.steps = []

/-- The draft of an element once the way to make its object is chosen. Values kept for construction
go to a builder or constructor; the element's text is used when nothing is kept, or when no
constructor fits.
-/
inductive Chosen (c : Context) (origin : Origin) (d : Draft) : Draft → Prop
  | root (is : origin = .root) (spent : d.pending = [])
    : Chosen c origin d { d with element := { d.element with strategy := .root } }
  | value {text : String} {pos : Position} {type : String} {source : Source}
    (is : origin = .value text) (spent : d.pending = [])
    (converts : Coercion.convert c.types pos type text = .ok source)
    : Chosen c origin d
        { d with element := { d.element with strategy := .value, source := some source } }
  | factory {method owner : String} (is : origin = .factory method) (spent : d.pending = [])
    : Chosen c origin d
        { d with
          element := { d.element with
            strategy := .factory, ownerType := some owner, member := some method } }
  | text {value : Value} {source : Source} (is : origin = .construct) (has : d.text = some value)
    (makes : Makes c.types value source) (reads : ∀ s, Reads c s source)
    : Chosen c origin d
        { d with element := { d.element with strategy := .text, source := some source } }
  | plain (is : origin = .construct) (spent : d.pending = []) (wordless : d.text = none)
    : Chosen c origin d d
  | builder {type : String} {var : String} (is : origin = .construct)
    (wordless : d.pending = [] → d.text = none)
    : Chosen c origin d
        { d with
          element := { d.element with
            strategy := .builder, builderType := some type, builderVar := some var
            builderSteps := d.pending.map fun (name, source, _) =>
              { pos := source.pos, kind := .set, target := name, source } } }
  | construct {chosen : Constructor} (is : origin = .construct)
    (wordless : d.pending = [] → d.text = none) (fits : d.Fits chosen)
    : Chosen c origin d (d.construct chosen)

def Draft.whole (d : Draft) : Element := { d.element with steps := d.steps ++ d.handlers }

namespace Chosen

theorem handler_mem (h : Chosen c origin d d') (member : step ∈ d.handlers)
    : step.source ∈ d'.whole.sources := by
  have kept : d'.handlers = d.handlers := by cases h <;> rfl
  refine Element.mem_sources.mpr (.inr (.inr (.inr ⟨step, ?_, rfl⟩)))
  exact mem_append_right _ (kept ▸ member)

/-- A step stays unless a constructor takes the property that it sets. -/
theorem step_mem (h : Chosen c origin d d') (member : step ∈ d.steps)
    : step.source ∈ d'.whole.sources
      ∨ Draft.isSetter step = true
        ∧ d'.element.strategy = .construct
        ∧ ∃ source, (step.target, source) ∈ d'.element.args
            ∧ d.offered.get? step.target = some source := by
  have kept (there : step ∈ d'.steps) : step.source ∈ d'.whole.sources :=
    Element.mem_sources.mpr (.inr (.inr (.inr ⟨step, mem_append_left _ there, rfl⟩)))
  cases h with
  | construct =>
    rename_i chosen _ _ _
    by_cases there : step ∈ (d.construct chosen).steps
    · exact .inl (kept there)
    · refine .inr ?_
      simp only [Draft.construct, mem_filter, member, true_and, Bool.not_eq_true',
        Bool.not_eq_false, Bool.and_eq_true, contains_iff_mem] at there
      obtain ⟨setter, taken⟩ := there
      obtain ⟨⟨target, source⟩, there, same⟩ := mem_map.mp taken
      obtain ⟨param, _, found⟩ := mem_filterMap.mp there
      obtain ⟨value, offered, pair⟩ := Option.map_eq_some_iff.mp found
      cases pair
      exact ⟨setter, rfl, source, same ▸ there, same ▸ offered⟩
  | root | value | factory | text | plain | builder => exact .inl (kept member)

/-- Without a text that is used instead, all that is kept for construction is used. -/
theorem pending_mem (h : Chosen c origin d d') {name : String} {place : Option Position}
    (found : d.pending.get? name = some (source, place))
    : source ∈ d'.whole.sources ∨ d'.element.strategy = .text := by
  have kept (spent : d.pending = []) : source ∈ d'.whole.sources := by
    rw [spent] at found
    cases found
  cases h with
  | root is spent => exact .inl (kept spent)
  | value is spent => exact .inl (kept spent)
  | factory is spent => exact .inl (kept spent)
  | plain is spent => exact .inl (kept spent)
  | text => exact .inr rfl
  | builder =>
    refine .inl (Element.mem_sources.mpr (.inr (.inr (.inl ?_))))
    exact ⟨_, mem_map_of_mem (Table.mem_of_get? found), rfl⟩
  | construct is wordless fits =>
    refine .inl (Element.mem_sources.mpr (.inl ⟨name, ?_⟩))
    obtain ⟨param, there, rfl⟩ :=
      mem_map.mp (fits.1 name (Table.mem_keys_of_mem (Table.mem_of_get? found)))
    refine mem_filterMap.mpr ⟨param, there, ?_⟩
    rw [get?_offered, found]
    rfl

/-- Text is used for construction, unless something else is kept for it. -/
theorem text_mem (h : Chosen c .construct d d') {value : Value} (has : d.text = some value)
    : (∃ source ∈ d'.whole.sources, Makes c.types value source)
      ∨ d.pending ≠ [] ∧ d'.element.strategy ≠ .text := by
  have wordless_held (wordless : d.pending = [] → d.text = none) : d.pending ≠ [] := by
    intro spent
    rw [wordless spent] at has
    cases has
  generalize same : Origin.construct = origin at h
  cases h with
  | root is | value is | factory is =>
    subst is
    cases same
  | text is has' makes =>
    rw [has] at has'
    cases has'
    exact .inl ⟨_, Element.mem_sources.mpr (.inr (.inl rfl)), makes⟩
  | plain is spent wordless =>
    rw [wordless] at has
    cases has
  | builder is wordless => exact .inr ⟨wordless_held wordless, nofun⟩
  | construct is wordless => exact .inr ⟨wordless_held wordless, nofun⟩

/-- The element has no values but those of its draft, or the one that it is read from. -/
theorem source_from (h : Chosen c origin d d') (bare : Bare d.element)
    (member : source ∈ d'.whole.sources)
    : (∃ step ∈ d.steps ++ d.handlers, step.source = source)
      ∨ (∃ name place, (name, source, place) ∈ d.pending)
      ∨ (∃ value, d.text = some value ∧ Makes c.types value source ∧ ∀ s, Reads c s source)
      ∨ ∃ text pos type,
          origin = .value text ∧ Coercion.convert c.types pos type text = .ok source := by
  obtain ⟨noArgs, _, _, noBuilder, _, noSource, _, _⟩ := bare
  have stepped {steps : List Step} (within : steps ⊆ d.steps)
      (there : ∃ step ∈ steps ++ d.handlers, step.source = source)
      : ∃ step ∈ d.steps ++ d.handlers, step.source = source := by
    obtain ⟨step, member, same⟩ := there
    refine ⟨step, ?_, same⟩
    rcases mem_append.mp member with here | after
    · exact mem_append_left _ (within here)
    · exact mem_append_right _ after
  rcases Element.mem_sources.mp member with ⟨name, arg⟩ | given | ⟨step, built, same⟩ | there
  · -- Only a constructor has arguments, and they are what it was offered.
    cases h with
    | construct =>
      obtain ⟨param, _, found⟩ := mem_filterMap.mp arg
      obtain ⟨value, offered, same⟩ := Option.map_eq_some_iff.mp found
      cases same
      rw [get?_offered, Option.or_eq_some_iff] at offered
      rcases offered with kept | ⟨_, set⟩
      · obtain ⟨⟨_, place⟩, held, rfl⟩ := Option.map_eq_some_iff.mp kept
        exact .inr (.inl ⟨_, place, Table.mem_of_get? held⟩)
      · obtain ⟨step, first, same⟩ := Option.map_eq_some_iff.mp set
        refine .inl ⟨step, ?_, same⟩
        exact mem_append_left _ (mem_of_find?_eq_some first)
    | root | value | factory | text | plain | builder => exact nomatch noArgs ▸ arg
  · cases h with
    | value is spent converts =>
      cases given
      exact .inr (.inr (.inr ⟨_, _, _, is, converts⟩))
    | text is has makes reads =>
      cases given
      exact .inr (.inr (.inl ⟨_, has, makes, reads⟩))
    | root | factory | plain | builder | construct => exact nomatch noSource ▸ given
  · cases h with
    | builder =>
      obtain ⟨⟨name, value, place⟩, there, rfl⟩ := mem_map.mp built
      exact .inr (.inl ⟨name, place, same ▸ there⟩)
    | root | value | factory | text | plain | construct => exact nomatch noBuilder ▸ built
  · refine .inl ?_
    cases h with
    | construct => exact stepped filter_sublist.subset there
    | root | value | factory | text | plain | builder => exact there

end Chosen

/-! ### Elements and their nodes -/

/-- An element takes its values from another one. -/
structure SameValues (e e' : Element) : Prop where
  var : e'.var = e.var
  type : e'.type = e.type
  strategy : e'.strategy = e.strategy
  args : e'.args = e.args
  sources : e'.sources = e.sources

theorem SameValues.trans {e'' : Element} (first : SameValues e e') (second : SameValues e' e'')
    : SameValues e e'' where
  var := second.var.trans first.var
  type := second.type.trans first.type
  strategy := second.strategy.trans first.strategy
  args := second.args.trans first.args
  sources := second.sources.trans first.sources

/-- What an element depends on is needed by a value of it, or is the controller. -/
def Justified (c : Context) (e : Element) : Prop :=
  ∀ var ∈ e.dependencies,
    var = Plan.controllerNode ∨ ∃ source ∈ e.sources, var ∈ source.needs c.varOf

/-- How an object's element came to be: by the effects of its pieces and the choice made. -/
def History (c : Context) (s : State) (origin : Origin) (type : TypeDescriptor) (e : Element)
    (log : Log)
    : Prop :=
  ∃ element d',
    Bare element
    ∧ element.var = e.var
    ∧ Justifies c s type element.var log
    ∧ Chosen c origin (replay { element, descriptor := type } log) d'
    ∧ SameValues d'.whole e

/-- The values of an element, given its node. -/
def Told (c : Context) (s : State) (e : Element) : Node → Prop
  | .object pos order origin tag id attributes children text =>
    ∃ type log,
      c.types.describe e.type = some type
      ∧ log.map Prod.fst = Node.pieces (.object pos order origin tag id attributes children text)
      ∧ History c s origin type e log
  | .copy pos _ id _ =>
    ∃ entry, c.registry.get? id = some entry ∧ e.sources = [.element pos entry.var]
  | _ => e.sources = []

theorem Told.mono (h : Told c s e node) (grows : Extends s t) : Told c t e node := by
  cases node with
  | object =>
    obtain ⟨type, log, described, pieces, element, d', bare, var, justifies, rest⟩ := h
    exact ⟨type, log, described, pieces, element, d', bare, var, justifies.mono grows, rest⟩
  | _ => exact h

theorem Told.of_same (h : Told c s e node) (same : SameValues e e') : Told c s e' node := by
  cases node with
  | object =>
    obtain ⟨type, log, described, pieces, element, d', bare, var, justifies, chosen, whole⟩ := h
    exact ⟨type, log, same.type ▸ described, pieces, element, d', bare, var.trans same.var.symm,
      justifies, chosen, whole.trans same⟩
  | copy =>
    obtain ⟨entry, declared, only⟩ := h
    exact ⟨entry, declared, same.sources.trans only⟩
  | _ => exact same.sources.trans h

end Fxml.Planning
