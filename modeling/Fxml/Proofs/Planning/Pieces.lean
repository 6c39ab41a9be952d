import Fxml.Planning.Element
import Fxml.Proofs.Table

/-! The content of an object's element, piece by piece: an attribute, a node or a text, in the
element itself or in one of its property elements. Each piece has one effect on the draft, so a
draft is the record of the effects replayed.
-/

open List

namespace Fxml.Planning

/-! ### Pieces -/

/-- Where a piece stands: in the object's element itself, or inside a property element. -/
inductive Slot where
  | own
  | inside (element : Node)

/-- What a piece is. A property element without content stands for an empty text. -/
inductive Matter where
  | attr (a : Attribute)
  | node (node : Node)
  | text (value : Value)
  | blank (pos : Position)

/-- A piece of the content of an object's element. -/
structure Piece where
  slot : Slot
  matter : Matter

/-- The text of a property element, or what stands for it when nothing else is there. -/
def textMatter (pos : Position) (alone : Bool) : Option Value → List Matter
  | some value => [.text value]
  | none => if alone then [.blank pos] else []

/-- The pieces that a child of an object's element brings. -/
def childPieces : Node → List Piece
  | .property pos order name attributes children text =>
    (attributes.map Matter.attr ++ (children.filter isItem).map Matter.node
        ++ textMatter pos (children.filter isItem).isEmpty text).map
      (⟨.inside (.property pos order name attributes children text), ·⟩)
  | .staticProperty pos order owner name children text =>
    (children.map Matter.node ++ textMatter pos (children.filter isValue).isEmpty text).map
      (⟨.inside (.staticProperty pos order owner name children text), ·⟩)
  | .define .. => []
  | child => [⟨.own, .node child⟩]

/-- The text that an object's element gives to its object. -/
def textPieces (origin : Origin) (text : Option Value) : List Piece :=
  match origin, text with
  | .construct, some value | .root, some value => [⟨.own, .text value⟩]
  | _, _ => []

end Planning

open Planning

/-- The way in which the object of a node comes to be. -/
def Node.origin? : Node → Option Origin
  | .object _ _ origin .. => some origin
  | _ => none

/-- The pieces of an object's element in the order in which they are taken: attributes, children,
text. The text of an element that is read from a value or made by a factory is none of them.
-/
def Node.pieces : Node → List Piece
  | .object _ _ origin _ _ attributes children text =>
    attributes.map (⟨.own, .attr ·⟩) ++ children.flatMap childPieces ++ textPieces origin text
  | _ => []

namespace Planning

namespace Piece

def value? (piece : Piece) : Option Value :=
  match piece.matter with
  | .attr a => a.value
  | .node _ => none
  | .text value => some value
  | .blank pos => some (.text pos "")

def property? (type : TypeDescriptor) (piece : Piece) : Option PropertyInfo :=
  match piece.slot, piece.matter with
  | .own, .attr a => if a.owner.isSome then none else type.properties.get? a.name
  | .own, _ =>
    if type.collection = some .list then none else type.defaultProperty.bind type.properties.get?
  | .inside _, .attr _ => none
  | .inside (.property _ _ name ..), _ => type.properties.get? name
  | .inside _, _ => none

end Piece

/-- Whether a property takes a piece as its only value, not as one of many. -/
def Matter.isSingle (p : PropertyInfo) : Matter → Bool
  | .node _ => !holdsList p
  | _ => !(p.kind == .list || ((TypeName.listItem? p.type).isSome && !p.settable))

/-- Whether an attribute is an event handler or a change listener. -/
def isHandler (type : TypeDescriptor) (a : Attribute) : Bool :=
  a.owner.isNone && (type.properties.get? a.name).isNone && isHandlerName a.name
    && ((type.events.get? (Naming.snake a.name)).isSome || (changedProperty? type a.name).isSome)

/-- Whether an attribute is an argument of a constructor and nothing else. -/
def isArgument (type : TypeDescriptor) (a : Attribute) : Bool :=
  a.owner.isNone && (type.properties.get? a.name).isNone && !isHandler type a
    && (parameterType? type a.name).isSome

namespace Piece

/-- The property that a piece is the only value of. -/
def single? (type : TypeDescriptor) (piece : Piece) : Option PropertyInfo :=
  (piece.property? type).filter (piece.matter.isSingle ·)

def set? (type : TypeDescriptor) (piece : Piece) : Option String :=
  ((piece.single? type).filter (·.settable)).map (·.name)

/-- The name under which a piece is kept for construction: that of a property that cannot be set, or
of a constructor's parameter.
-/
def kept? (type : TypeDescriptor) (piece : Piece) : Option String :=
  match piece.single? type with
  | some p => if p.settable then none else some p.name
  | none =>
    match piece.slot, piece.matter with
    | .own, .attr a => if isArgument type a then some a.name else none
    | _, _ => none

end Piece

/-! ### What a piece gives -/

def Makes (types : TypeSource) : Value → Source → Prop
  | .text pos text, source => ∃ type, Coercion.convert types pos type text = .ok source
  | .location pos path, source => source = .location pos path
  | .resource pos key, source => ∃ convert, source = .resource pos key convert
  | .once e, source => ∃ convert, source = .expr e.pos (.once e) convert
  | .binding .., _ | .method .., _ => False

/-- A source made of an attribute that is a handler. -/
def Handles (a : Attribute) (source : Source) : Prop :=
  match Value.readHandler a.raw.toList a.valuePos with
  | .ok (some (.method pos name)) => ∃ arity, source = .method pos name arity
  | .ok (some (.once e)) => ∃ convert, source = .handler e.pos (.expr e.pos (.once e) convert)
  | _ => False

/-- A source made of a piece, where `stands` tells the variables of nodes. -/
inductive Piece.Gives (types : TypeSource) (stands : Node → String → Prop) (piece : Piece)
    : Source → Prop
  | value {v : Value} {source : Source} (has : piece.value? = some v) (makes : Makes types v source)
    : Gives types stands piece source
  | handler {a : Attribute} {source : Source} (is : piece.matter = .attr a)
    (handles : Handles a source)
    : Gives types stands piece source
  | node {n : Node} {var : String} (is : piece.matter = .node n) (named : stands n var)
    : Gives types stands piece (.element n.pos var)

theorem Piece.Gives.mono {types : TypeSource} {stands stands' : Node → String → Prop}
    {piece : Piece} {source : Source} (h : piece.Gives types stands source)
    (more : ∀ n var, stands n var → stands' n var)
    : piece.Gives types stands' source := by
  cases h with
  | value has makes => exact .value has makes
  | handler is handles => exact .handler is handles
  | node is named => exact .node is (more _ _ named)

/-- A binding of a property to the expression of a piece. -/
def Piece.Binds (type : TypeDescriptor) (piece : Piece) (b : Binding) : Prop :=
  ∃ pos e p,
    piece.value? = some (.binding pos e)
    ∧ b.value = .once e
    ∧ piece.property? type = some p
    ∧ b.property = p.name

/-! ### Effects -/

/-- What becomes of a piece in the draft of its element. -/
inductive Effect where
  | step (step : Step)
  | handler (step : Step)
  | hold (name : String) (source : Source) (site : Site)
  | bind (binding : Binding)
  | text (value : Value)
  | nothing

def Effect.apply (d : Draft) : Effect → Draft
  | .step made => d.addStep made
  | .handler made => d.addHandler made
  | .hold name source site => d.hold name source site
  | .text value => { d with text := some value }
  | .bind _ | .nothing => d

def Effect.step? : Effect → Option Step
  | .step made => some made
  | _ => none

def Effect.handler? : Effect → Option Step
  | .handler made => some made
  | _ => none

theorem Effect.step?_eq_some {effect : Effect} {made : Step} (h : effect.step? = some made)
    : effect = .step made := by
  cases effect with
  | step => exact congrArg _ (Option.some.inj h)
  | handler | hold | bind | text | nothing => cases h

theorem Effect.handler?_eq_some {effect : Effect} {made : Step} (h : effect.handler? = some made)
    : effect = .handler made := by
  cases effect with
  | handler => exact congrArg _ (Option.some.inj h)
  | step | hold | bind | text | nothing => cases h

/-- Pieces with their effects, in the order in which they were taken. -/
abbrev Log := List (Piece × Effect)

/-- The draft once all effects of a record have taken place. -/
def replay (d : Draft) (log : Log) : Draft := log.foldl (fun d entry => entry.2.apply d) d

variable {d : Draft} {log more : Log} {name : String} {value : Value}

theorem replay_append : replay d (log ++ more) = replay (replay d log) more := foldl_append

theorem replay_cons (entry : Piece × Effect)
    : replay d (entry :: log) = replay (entry.2.apply d) log := rfl

theorem apply_same (d : Draft) (effect : Effect)
    : (effect.apply d).element = d.element ∧ (effect.apply d).descriptor = d.descriptor := by
  cases effect <;> exact ⟨rfl, rfl⟩

theorem replay_same (d : Draft) (log : Log)
    : (replay d log).element = d.element ∧ (replay d log).descriptor = d.descriptor := by
  induction log generalizing d with
  | nil => exact ⟨rfl, rfl⟩
  | cons entry rest ih =>
    obtain ⟨element, descriptor⟩ := apply_same d entry.2
    obtain ⟨element', descriptor'⟩ := ih (entry.2.apply d)
    exact ⟨element'.trans element, descriptor'.trans descriptor⟩

theorem steps_replay (d : Draft) (log : Log)
    : (replay d log).steps = d.steps ++ log.filterMap (·.2.step?) := by
  induction log generalizing d with
  | nil => exact (append_nil _).symm
  | cons entry rest ih =>
    rw [replay_cons, ih, filterMap_cons]
    obtain ⟨piece, effect⟩ := entry
    cases effect with
    | step step => simp [Effect.apply, Effect.step?, Draft.addStep]
    | _ => rfl

theorem handlers_replay (d : Draft) (log : Log)
    : (replay d log).handlers = d.handlers ++ log.filterMap (·.2.handler?) := by
  induction log generalizing d with
  | nil => exact (append_nil _).symm
  | cons entry rest ih =>
    rw [replay_cons, ih, filterMap_cons]
    obtain ⟨piece, effect⟩ := entry
    cases effect with
    | handler step => simp [Effect.apply, Effect.handler?, Draft.addHandler]
    | _ => rfl

/-- What is kept for construction was kept by some piece. -/
theorem mem_pending_replay {source : Source} {place : Option Position}
    (member : (name, source, place) ∈ (replay d log).pending)
    : (name, source, place) ∈ d.pending ∨ ∃ piece site, (piece, .hold name source site) ∈ log := by
  induction log generalizing d with
  | nil => exact .inl member
  | cons entry rest ih =>
    obtain ⟨piece, effect⟩ := entry
    rcases ih member with before | ⟨other, site, there⟩
    · cases effect with
      | hold held value site =>
        rcases Table.mem_put.mp before with ⟨same, new⟩ | ⟨_, old⟩
        · cases same
          cases new
          exact .inr ⟨piece, site, mem_cons_self⟩
        · exact .inl old
      | step | handler | bind | text | nothing => exact .inl before
    · exact .inr ⟨other, site, mem_cons_of_mem _ there⟩

/-- A piece is kept until a later one takes its name. -/
theorem pending_replay (absent : ∀ piece source site, (piece, .hold name source site) ∉ log)
    : (replay d log).pending.get? name = d.pending.get? name := by
  induction log generalizing d with
  | nil => rfl
  | cons entry rest ih =>
    obtain ⟨piece, effect⟩ := entry
    rw [replay_cons, ih fun other source site there =>
      absent other source site (mem_cons_of_mem _ there)]
    cases effect with
    | hold held source site =>
      have other : name ≠ held := by
        rintro rfl
        exact absent piece source site mem_cons_self
      exact (Table.get?_put (t := d.pending)).trans (if_neg other)
    | step | handler | bind | text | nothing => rfl

theorem text_replay (found : (replay d log).text = some value)
    : d.text = some value ∨ ∃ piece, (piece, .text value) ∈ log := by
  induction log generalizing d with
  | nil => exact .inl found
  | cons entry rest ih =>
    obtain ⟨piece, effect⟩ := entry
    rcases ih found with before | ⟨other, there⟩
    · cases effect with
      | text other =>
        cases before
        exact .inr ⟨piece, mem_cons_self⟩
      | step | handler | bind | hold | nothing => exact .inl before
    · exact .inr ⟨other, mem_cons_of_mem _ there⟩

/-- Once there is a text it stays, or a later one takes its place. -/
theorem isSome_text_replay {piece : Piece} (member : (piece, .text value) ∈ log)
    : (replay d log).text.isSome = true := by
  have kept (d : Draft) (log : Log) (said : d.text.isSome = true)
      : (replay d log).text.isSome = true := by
    induction log generalizing d with
    | nil => exact said
    | cons entry rest ih =>
      refine ih _ ?_
      obtain ⟨_, effect⟩ := entry
      cases effect with
      | text => rfl
      | step | handler | bind | hold | nothing => exact said
  obtain ⟨before, after, rfl⟩ := append_of_mem member
  rw [replay_append, replay_cons]
  exact kept _ after rfl

end Planning

end Fxml
