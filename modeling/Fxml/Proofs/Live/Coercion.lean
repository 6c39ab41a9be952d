import Fxml.Live.Script
import Fxml.Proofs.Table
import Fxml.Types.Coercion

/-! Texts as values of a type, ahead of time and live. A literal converted ahead of time stands for
a scalar, a member or constant of the type, or what the type makes of the text; the live conversion
does not know constants.
-/

open List Option

namespace Fxml.Live

open Coercion (convert isConvertible convertDescribed)

/-! ### Runs of actions -/

section

variable {α β : Type} {x : Action α} {f : α → Action β} {c : Caller} {w v u : World} {a : α} {e : Error}

@[simp] theorem run_pure : (pure a : Action α) c w = (.ok a, w) := rfl

@[simp] theorem run_get : (get : Action World) c w = (.ok w, w) := rfl

theorem run_bind
    : (x >>= f) c w = match x c w with
      | (.ok a, v) => f a c v
      | (.error e, v) => (.error e, v) := by
  have run : (x >>= f) c w
      = match x c w with
        | (result, v) => ExceptT.bindCont (fun a => f a c) result v := rfl
  rw [run]
  rcases x c w with ⟨_ | _, _⟩ <;> rfl

theorem run_bind_ok (h : x c w = (.ok a, v)) : (x >>= f) c w = f a c v := by
  rw [run_bind, h]

theorem run_bind_error (h : x c w = (.error e, v)) : (x >>= f) c w = (.error e, v) := by
  rw [run_bind, h]

@[simp] theorem run_get_bind {g : World → Action β} : (get >>= g) c w = g w c w := run_bind_ok run_get

theorem run_map_ok {g : α → β} (h : x c w = (.ok a, v)) : (g <$> x) c w = (.ok (g a), v) := by
  rw [map_eq_pure_bind, run_bind_ok h, run_pure]

theorem run_tryCatch {handle : Error → Action α}
    : tryCatch x handle c w = match x c w with
      | (.ok a, v) => (.ok a, v)
      | (.error e, v) => handle e c v := by
  simp only [tryCatch, tryCatchThe, MonadExceptOf.tryCatch, ExceptT.tryCatch, ExceptT.mk, Bind.bind,
    StateT.bind]
  rcases x c w with ⟨_ | _, _⟩ <;> rfl

/-- A run ends in a failure. -/
def Raises (r : Except Error α × World) : Prop := ∃ e v, r = (.error e, v)

theorem raises_throw : Raises ((throw e : Action α) c w) := ⟨e, w, rfl⟩

/-- What goes on with a failure whatever it is given fails. -/
theorem raises_bind (h : ∀ a v, Raises (f a c v)) : Raises ((x >>= f) c w) := by
  rcases run : x c w with ⟨e | a, v⟩
  · exact ⟨e, v, run_bind_error run⟩
  · rw [run_bind_ok run]
    exact h a v

end

/-! ### What converted literals stand for -/

/-- One and the same value, or the same scalar. -/
inductive Value.Alike : Value → Value → Prop where
  | refl (v : Value) : Alike v v
  | scalar (s : Scalar) (m n : Nat) : Alike (.scalar s m) (.scalar s n)

/-- Both results are failures, or values that are alike. -/
inductive SameResult : Except Error Value → Except Error Value → Prop where
  | ok {a b : Value} (h : a.Alike b) : SameResult (.ok a) (.ok b)
  | error (e e' : Error) : SameResult (.error e) (.error e')

theorem SameResult.refl : (r : Except Error Value) → SameResult r r
  | .ok a => .ok (.refl a)
  | .error e => .error e e

/-- The value that a converted literal stands for, given the type and the text as values: the scalar,
the member of the enumeration, the constant of the type, or what the type makes of the text.
-/
def denoted (target text : Value) : Source → Action Value
  | .literal _ s => createScalar s
  | .member _ _ name => do
    match ((← get).enumMembers? target).bind (·.get? name) with
    | some found => pure found
    | none => throw .noAttribute
  | .constant _ _ name => getAttribute target name
  | .parsed _ _ _ => callMethod target "value_of" [text]
  | _ => throw .wrongType

/-! ### Described types as live types -/

/-- A class is as a type is described: an enumeration has the described members, and what is said to
make values of texts can be called.
-/
structure IsDescribed (d : TypeDescriptor) (cls : ClassId) (c : Caller) (w : World) : Prop where
  members : ((w.enumMembers? (.type (.made cls))).map Table.keys).getD [] = d.members
  valueOf : d.valueOf = true
    → ∃ f v, getAttribute (.type (.made cls)) "value_of" c w = (.ok f, v) ∧ v.isCallable f = true

/-- The live type of a name: one of the basic types that literals have, or a class that is as it is
described.
-/
inductive Realizes (types : TypeSource) (c : Caller) (w : World) : String → Value → Prop where
  | text : Realizes types c w "str" (.basicType .text)
  | integer : Realizes types c w "int" (.basicType .integer)
  | number : Realizes types c w "float" (.basicType .number)
  | boolean : Realizes types c w "bool" (.basicType .boolean)
  | described {type : String} {d : TypeDescriptor} {cls : ClassId}
    (other : type ∉ ["str", "int", "float", "bool"]) (description : types.describe type = some d)
    (isDescribed : IsDescribed d cls c w)
    : Realizes types c w type (.type (.made cls))

/-! ### Basic types -/

section Basic

variable {c : Caller} {w : World} {text : String} {n : Nat} {e : Error}

theorem run_createScalar (s : Scalar) : ∃ m v, createScalar s c w = (.ok (.scalar s m), v) := by
  unfold createScalar
  split
  · exact ⟨0, w, rfl⟩
  · exact ⟨w.occurrences, _, rfl⟩

theorem run_createLiteralFloat (x : Float)
    : ∃ m v, createLiteralFloat x c w = (.ok (.scalar (.float x) m), v) := by
  unfold createLiteralFloat
  split
  · exact ⟨_, w, rfl⟩
  · split
    · exact ⟨_, w, rfl⟩
    · exact run_createScalar _

theorem run_literalText : literalText (.scalar (.text text) n) text e c w = (.ok text, w) :=
  rfl

theorem coerce_text
    : coerce (.scalar (.text text) n) (.basicType .text) c w = (.ok (.scalar (.text text) n), w) :=
  rfl

/-- What a run comes to that reads a literal: a scalar, or a failure if the text is no literal. -/
inductive GivesRead {α : Type} (scalar : α → Scalar) (r : Except Error Value × World)
    : Except Literal.Error α → Prop where
  | ok {a : α} {m : Nat} {v : World} (h : r = (.ok (.scalar (scalar a) m), v)) : GivesRead scalar r (.ok a)
  | error {e : Literal.Error} (h : Raises r) : GivesRead scalar r (.error e)

/-- A text that is read as a literal of a basic type becomes the value that the literal gives. -/
theorem coerce_read {α : Type} {t : BasicType} {read : Except Literal.Error α} {make : α → Action Value}
    {scalar : α → Scalar}
    (other : w.staysAs (.scalar (.text text) n) (.basicType t) = false)
    (basic : coerceBasic (.scalar (.text text) n) (.basic t) c w
      = (liftLiteral read >>= fun a => some <$> make a) c w)
    (makes : ∀ a, ∃ m v, make a c w = (.ok (.scalar (scalar a) m), v))
    : GivesRead scalar (coerce (.scalar (.text text) n) (.basicType t) c w) read := by
  have goesOn : ¬ ((Value.scalar (.text text) n).isNull || (Value.basicType t).isNull
      || w.staysAs (.scalar (.text text) n) (.basicType t)) = true := by
    rw [other]
    exact Bool.false_ne_true
  unfold coerce
  rw [run_get_bind, if_neg goesOn]
  cases read with
  | error e => exact .error ⟨.literal e, w, run_bind_error basic⟩
  | ok a =>
    obtain ⟨m, v, made⟩ := makes a
    exact .ok (run_bind_ok (basic.trans (run_map_ok made)))

theorem coerce_integer
    : GivesRead .int (coerce (.scalar (.text text) n) (.basicType .integer) c w) (Literal.readInt text) := by
  refine coerce_read rfl ?_ fun k => run_createScalar (.int k)
  unfold coerceBasic
  rw [run_get_bind]
  simp only [World.text?, World.scalar?]
  rw [run_bind_ok run_literalText]
  rfl

theorem coerce_number
    : GivesRead .float (coerce (.scalar (.text text) n) (.basicType .number) c w) (Literal.readFloat text) := by
  refine coerce_read rfl ?_ run_createLiteralFloat
  unfold coerceBasic
  rw [run_get_bind]
  simp only [World.text?, World.scalar?]
  rw [run_bind_ok run_literalText]

theorem coerce_boolean
    : GivesRead .bool (coerce (.scalar (.text text) n) (.basicType .boolean) c w) (Literal.readBool text) := by
  have makes (b : Bool)
      : ∃ m v, (pure (Value.bool b) : Action Value) c w = (.ok (.scalar (.bool b) m), v) :=
    ⟨0, w, rfl⟩
  have basic : coerceBasic (.scalar (.text text) n) (.basic .boolean) c w
      = (liftLiteral (Literal.readBool text) >>= fun b => some <$> pure (Value.bool b)) c w := by
    unfold coerceBasic
    rw [run_get_bind]
    simp only [World.text?, World.scalar?]
    rw [run_bind_ok run_literalText]
    simp only [map_pure]
  exact coerce_read rfl basic makes

end Basic

/-! ### Classes -/

theorem run_getAttribute? {v found : Value} {name : String} {c : Caller} {w w' : World}
    (h : getAttribute v name c w = (.ok found, w'))
    : getAttribute? v name c w = (.ok (some found), w') := by
  unfold getAttribute?
  rw [run_bind, run_tryCatch, run_bind_ok h]
  rfl

section Classes

variable {c : Caller} {w : World} {cls : ClassId} {text : String} {n : Nat}

theorem run_coerce_class
    : coerce (.scalar (.text text) n) (.type (.made cls)) c w
      = match w.enumMembers? (.type (.made cls)) with
        | some members => match Literal.member? members.keys text with
          | some name => (.ok ((members.get? name).getD .null), w)
          | none => (do
            throw (.notAMember (← shown (.scalar (.text text) n))
              (← targetName (.type (.made cls)))) : Action Value) c w
        | none => coerceThrough (.scalar (.text text) n) (.type (.made cls)) c w := by
  have goesOn : ¬ ((Value.scalar (.text text) n).isNull || (Value.type (.made cls)).isNull
      || w.staysAs (.scalar (.text text) n) (.type (.made cls))) = true :=
    Bool.false_ne_true
  unfold coerce
  rw [run_get_bind, if_neg goesOn]
  have basic : coerceBasic (.scalar (.text text) n) (.made cls) c w = (.ok none, w) := rfl
  show (coerceBasic (.scalar (.text text) n) (.made cls) >>= _) c w = _
  rw [run_bind_ok basic]
  cases w.enumMembers? (.type (.made cls)) with
  | none => rfl
  | some members =>
    show (literalText (.scalar (.text text) n) text .noAttribute >>= _) c w = _
    rw [run_bind_ok run_literalText]
    dsimp only
    cases Literal.member? members.keys text <;> rfl

/-- An enumeration takes the names of its members only. -/
theorem raises_coerce_enumeration {members : Table Value}
    (enumeration : w.enumMembers? (.type (.made cls)) = some members)
    (other : Literal.member? members.keys text = none)
    : Raises (coerce (.scalar (.text text) n) (.type (.made cls)) c w) := by
  rw [run_coerce_class, enumeration]
  dsimp only
  rw [other]
  exact raises_bind fun _ _ => raises_bind fun _ _ => raises_throw

theorem coerce_class (plain : w.enumMembers? (.type (.made cls)) = none) {f : Value} {v : World}
    (found : getAttribute (.type (.made cls)) "value_of" c w = (.ok f, v))
    (callable : v.isCallable f = true)
    : coerce (.scalar (.text text) n) (.type (.made cls)) c w
      = callMethod (.type (.made cls)) "value_of" [.scalar (.text text) n] c w := by
  have asked : getAttribute? (.type (.made cls)) "value_of" c w = (.ok (some f), v) :=
    run_getAttribute? found
  rw [run_coerce_class, plain, callMethod, run_bind_ok found]
  rw [coerceThrough, run_bind_ok asked, run_get_bind]
  exact congrFun (congrFun (if_pos callable) c) v

end Classes

/-! ### Agreement -/

section Agreement

variable {types : TypeSource} {c : Caller} {w : World} {pos : Position} {type text : String}
  {n : Nat} {target : Value} {d : TypeDescriptor}

/-- How the live conversion of a text answers to the conversion ahead of time. It refuses what that
refuses, and comes to what the converted literal stands for, except that it takes no constants and makes
a value of their names instead, and that an enumeration without members refuses every text.
-/
structure Follows (target text : Value) (c : Caller) (w : World)
    (converted : Except Coercion.Error Source)
    : Prop where
  refused {e : Coercion.Error} : converted = .error e → Raises (coerce text target c w)
  taken {source : Source} : converted = .ok source → w.enumMembers? target ≠ some []
    → (∀ p t name, source ≠ .constant p t name)
    → SameResult (denoted target text source c w).1 (coerce text target c w).1
  remade {p : Position} {t name : String} : converted = .ok (.constant p t name)
    → w.enumMembers? target ≠ some []
    → coerce text target c w = callMethod target "value_of" [text] c w
  empty : w.enumMembers? target = some [] → Raises (coerce text target c w)

theorem GivesRead.follows {α : Type} {scalar : α → Scalar} {read : Except Literal.Error α}
    {t : BasicType} {converted : Except Coercion.Error Source}
    (h : GivesRead scalar (coerce (.scalar (.text text) n) (.basicType t) c w) read) (pos : Position)
    (ok : ∀ a, read = .ok a → converted = .ok (.literal pos (scalar a)))
    (error : ∀ e, read = .error e → ∃ e', converted = .error e')
    : Follows (.basicType t) (.scalar (.text text) n) c w converted := by
  cases h with
  | error h =>
    obtain ⟨e', rfl⟩ := error _ rfl
    exact ⟨fun _ => h, nofun, nofun, nofun⟩
  | @ok a m v h =>
    obtain rfl := ok a rfl
    obtain ⟨k, u, made⟩ := run_createScalar (c := c) (w := w) (scalar a)
    refine ⟨nofun, fun same _ _ => ?_, nofun, nofun⟩
    cases same
    rw [denoted, made, h]
    exact .ok (.scalar _ _ _)

theorem mem_of_member? {members : List String} {name : String}
    (h : Literal.member? members text = some name)
    : name ∈ members := by
  unfold Literal.member? at h
  dsimp only at h
  split at h
  · rename_i exact
    cases h
    exact contains_iff_mem.mp exact
  · split at h
    · rename_i m alone
      cases h
      exact (mem_filter.mp (alone ▸ mem_singleton_self _)).1
    · cases h

theorem follows_enumeration {cls : ClassId} {members : Table Value}
    (described : types.describe type = some d) (isEnum : d.isEnum = true)
    (enumeration : w.enumMembers? (.type (.made cls)) = some members)
    (same : members.keys = d.members)
    : Follows (.type (.made cls)) (.scalar (.text text) n) c w
        (convertDescribed types pos type text) := by
  have some : members ≠ [] := by
    rintro rfl
    rw [TypeDescriptor.isEnum, ← same] at isEnum
    exact Bool.false_ne_true isEnum
  rw [convertDescribed, described]
  dsimp only
  rw [if_pos isEnum, ← same]
  cases named : Literal.member? members.keys text with
  | none =>
    have refused := raises_coerce_enumeration (c := c) (n := n) enumeration named
    exact ⟨fun _ => refused, nofun, nofun, fun _ => refused⟩
  | some name =>
    obtain ⟨found, get⟩ := Table.exists_get? (mem_of_member? named)
    have coerced : coerce (.scalar (.text text) n) (.type (.made cls)) c w = (.ok found, w) := by
      rw [run_coerce_class, enumeration]
      dsimp only
      rw [named]
      dsimp only
      rw [get, getD_some]
    have member : denoted (.type (.made cls)) (.scalar (.text text) n) (.member pos type name) c w
        = (.ok found, w) := by
      rw [denoted, run_get_bind, enumeration, bind_some, get]
      rfl
    refine ⟨nofun, fun same _ _ => ?_, nofun, fun empty => ?_⟩
    · cases same
      rw [coerced, member]
      exact .refl _
    · rw [enumeration] at empty
      exact absurd (Option.some.inj empty) some

/-- A class without members takes a text that its function makes a value of, unless it is an
enumeration.
-/
theorem follows_class {cls : ClassId} (described : types.describe type = some d)
    (isEnum : d.isEnum = false) (valueOf : d.valueOf = true) (h : IsDescribed d cls c w)
    : Follows (.type (.made cls)) (.scalar (.text text) n) c w
        (convertDescribed types pos type text) := by
  have made (some : w.enumMembers? (.type (.made cls)) ≠ some [])
      : coerce (.scalar (.text text) n) (.type (.made cls)) c w
        = callMethod (.type (.made cls)) "value_of" [.scalar (.text text) n] c w := by
    obtain ⟨f, v, found, callable⟩ := h.valueOf valueOf
    refine coerce_class ?_ found callable
    have members := h.members
    have none : d.members = [] := by simpa [TypeDescriptor.isEnum] using isEnum
    cases enumeration : w.enumMembers? (.type (.made cls)) with
    | none => rfl
    | some table =>
      rw [enumeration, map_some, getD_some, none] at members
      rw [enumeration, map_eq_nil_iff.mp members] at some
      exact absurd rfl some
  have converted : ∃ source, convertDescribed types pos type text = .ok source
      ∧ ((∃ p t name, source = .constant p t name) ∨ ∃ p t s, source = .parsed p t s) := by
    rw [convertDescribed, described]
    dsimp only
    rw [if_neg (by simp [isEnum]), if_pos valueOf]
    split
    · exact ⟨_, rfl, .inl ⟨_, _, _, rfl⟩⟩
    · exact ⟨_, rfl, .inr ⟨_, _, _, rfl⟩⟩
  obtain ⟨source, result, kind⟩ := converted
  rw [result]
  refine ⟨nofun, fun same some other => ?_, fun _ => made, fun empty => ?_⟩
  · cases same
    rcases kind with ⟨p, t, name, rfl⟩ | ⟨p, t, s, rfl⟩
    · exact absurd rfl (other p t name)
    · rw [made some]
      exact .refl _
  · exact raises_coerce_enumeration empty rfl

/-- A type that is no basic one and that values can be converted to is converted to as described. -/
theorem convert_described (other : type ∉ ["str", "int", "float", "bool"])
    (description : types.describe type = some d) (convertible : isConvertible types type = true)
    : convert types pos type text = convertDescribed types pos type text
      ∧ (d.isEnum = true ∨ d.valueOf = true) := by
  rw [isConvertible, if_neg (by simpa using other)] at convertible
  split at convertible
  · exact absurd convertible Bool.false_ne_true
  · rename_i plain
    simp only [Bool.or_eq_true, decide_eq_true_eq, not_or, Bool.not_eq_true,
      isSome_eq_false_iff, isNone_iff_eq_none] at plain
    obtain ⟨⟨object, list⟩, map⟩ := plain
    simp only [mem_cons, not_mem_nil, or_false, not_or] at other
    refine ⟨?_, by simpa [description] using convertible⟩
    rw [convert, if_neg (by simp [other, object]), if_neg other.2.1, if_neg other.2.2.1,
      if_neg other.2.2.2]
    split
    · rename_i item found
      cases list.symm.trans found
    · rw [map]
      rfl

/-- The live conversion of a text to a type that values can be converted to follows the conversion ahead
of time.
-/
theorem coerce_follows (realized : Realizes types c w type target)
    (convertible : isConvertible types type = true) (pos : Position) (text : String) (n : Nat)
    : Follows target (.scalar (.text text) n) c w (convert types pos type text) := by
  cases realized with
  | text =>
    rw [convert]
    obtain ⟨m, v, made⟩ := run_createScalar (c := c) (w := w) (.text text)
    refine ⟨nofun, fun same _ _ => ?_, nofun, nofun⟩
    cases same
    rw [denoted, made, coerce_text]
    exact .ok (.scalar _ _ _)
  | integer =>
    refine coerce_integer.follows pos (fun k read => ?_) fun e read => ?_
    all_goals
      rw [convert]
      simp [read]
  | number =>
    refine coerce_number.follows pos (fun k read => ?_) fun e read => ?_
    all_goals
      rw [convert]
      simp [read]
  | boolean =>
    refine coerce_boolean.follows pos (fun k read => ?_) fun e read => ?_
    all_goals
      rw [convert]
      simp [read]
  | @described _ d cls other description isDescribed =>
    obtain ⟨plain, kind⟩ := convert_described other description convertible
    rw [plain]
    cases isEnum : d.isEnum with
    | false => exact follows_class description isEnum (kind.resolve_left (by simp [isEnum])) isDescribed
    | true =>
      have members := isDescribed.members
      cases enumeration : w.enumMembers? (.type (.made cls)) with
      | none =>
        rw [enumeration] at members
        rw [TypeDescriptor.isEnum, ← members] at isEnum
        exact absurd isEnum Bool.false_ne_true
      | some table =>
        rw [enumeration] at members
        exact follows_enumeration description isEnum enumeration members

end Agreement

/-- A type with a function that makes values of texts and with one constant. -/
def paintTypes : TypeSource where
  hasType name := name == "ui.Paint"
  describe name :=
    if name = "ui.Paint" then
      some { TypeDescriptor.blank "ui.Paint" with valueOf := true, constants := [("RED", "ui.Paint")] }
    else none

/-- A world with the class of the type; its last object is the constant. -/
def paintWorld : World :=
  { World.initial with
    classes := #[⟨"Paint", [.basic .object], [.made 0, .basic .object],
      [("value_of", .object 2), ("RED", .object 3)], none⟩]
    objects := World.initial.objects ++ #[⟨.basic .function, .function (.valueOf 0 "text"), [], none⟩,
      ⟨.basic .staticFunction, .staticFunction (.object 1), [], none⟩, ⟨.made 0, .plain, [], none⟩] }

/-- The name of the constant is the constant ahead of time, and a new object live. -/
theorem paint_made_anew
    : convert paintTypes ⟨1, 1⟩ "ui.Paint" "RED" = .ok (.constant ⟨1, 1⟩ "ui.Paint" "RED")
      ∧ (getAttribute (.type (.made 0)) "RED" (callWithin callLimit) paintWorld).1 = .ok (.object 3)
      ∧ (coerce (nameValue "RED") (.type (.made 0)) (callWithin callLimit) paintWorld).1
        = .ok (.object 4) := by
  have realized : Realizes paintTypes (callWithin callLimit) paintWorld "ui.Paint" (.type (.made 0)) :=
    .described (by decide) rfl ⟨rfl, fun _ => ⟨.object 1, paintWorld, rfl, rfl⟩⟩
  have converted : convert paintTypes ⟨1, 1⟩ "ui.Paint" "RED"
      = .ok (.constant ⟨1, 1⟩ "ui.Paint" "RED") := by
    have assignable : paintTypes.isAssignable "ui.Paint" "ui.Paint" = true := by
      rw [TypeSource.isAssignable]
      rfl
    rw [(convert_described (by decide) rfl (by decide)).1]
    show (if paintTypes.isAssignable "ui.Paint" "ui.Paint" = true then _ else _) = _
    rw [assignable]
    rfl
  refine ⟨converted, rfl, ?_⟩
  have follows := coerce_follows realized (by decide) ⟨1, 1⟩ "RED" 0
  rw [nameValue, follows.remade converted nofun]
  rfl

end Fxml.Live
