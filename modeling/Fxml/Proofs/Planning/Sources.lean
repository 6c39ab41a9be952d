import Fxml.Proofs.Outcome
import Fxml.Proofs.Planning.Typing

/-! How values are found out in a run without errors. A value that passes makes a source of its own
form, which reads only what is declared.
-/

namespace Fxml.Coercion

variable {known declared : String → Prop} {types : TypeSource} {pos : Position}

theorem convertDescribed_valid {type text : String} {source : Source}
    (h : convertDescribed types pos type text = .ok source)
    : source.Valid known declared := by
  unfold convertDescribed at h
  dsimp only at h
  repeat' split at h
  all_goals cases h
  all_goals trivial

/-- Literal text makes a source that reads nothing. -/
theorem convert_valid {type text : String} {source : Source}
    (h : convert types pos type text = .ok source)
    : source.Valid known declared := by
  rw [convert] at h
  split at h
  · cases h
    trivial
  iterate 3
    split at h
    · split at h <;> cases h
      trivial
  split at h
  · rename_i item found
    have shorter := TypeName.listItem?_length found
    cases converted : (Literal.items text).mapM (convert types pos item) with
    | error => simp [converted, bind, Except.bind] at h
    | ok items =>
      simp only [converted, bind, Except.bind, pure, Except.pure, Except.ok.injEq] at h
      subst h
      refine Source.allValid_iff.mpr fun part member => ?_
      obtain ⟨piece, _, same⟩ := mem_of_mapM_ok converted part member
      exact convert_valid same
  · split at h
    · cases h
    · exact convertDescribed_valid h
termination_by type.length

end Fxml.Coercion

namespace Fxml.Planning

variable {c : Context} {s : State} {underway : List String} {pos : Position} {e : Expr}
  {target type name : String} {value : Value} {occasion : Occasion} {raw : List Char}

/-! ### Handlers -/

theorem all_blank_of_readHandler (h : Value.readHandler raw pos = .ok none)
    : raw.all Text.isBlank = true := by
  unfold Value.readHandler at h
  split at h
  · assumption
  split at h
  · split at h <;> cases h
  · obtain ⟨_, _, impossible⟩ := exists_of_map_ok h
    cases impossible
  · cases h

/-- After a dollar sign stands an expression, which is not a binding where none is allowed. -/
theorem once_of_read {rest : List Char} (h : Value.read ('$' :: rest) pos false = .ok value)
    : ∃ e, value = .once e := by
  unfold Value.read at h
  split at h <;> rename_i same
  · cases same
  · cases same
  · cases same
  · cases h
  · cases h
  · split at h
    · obtain ⟨e, _, made⟩ := exists_of_map_ok h
      exact ⟨e, made.symm⟩
    · cases h
  · rename_i single
    cases rest with
    | nil => exact (single rfl).elim
    | cons c rest => exact (same c rest rfl).elim

theorem handler_forms (h : Value.readHandler raw pos = .ok (some value))
    : (∃ pos name, value = .method pos name) ∨ ∃ e, value = .once e := by
  unfold Value.readHandler at h
  split at h
  · cases h
  split at h
  · split at h
    · cases h
      exact .inl ⟨_, _, rfl⟩
    · cases h
  · obtain ⟨found, read, same⟩ := exists_of_map_ok h
    cases same
    exact .inr (once_of_read read)
  · cases h

/-! ### Values -/

theorem attachedType_plans {ownerTag : String}
    : Plans c underway (attachedType ownerTag name pos) s (Given fun _ _ => True) := by
  have resolved : Plans c underway (resolveTag ownerTag pos) s (Given fun _ _ => True) := by
    refine .of_ends fun inv => resolveTag_ends.imp ?_
    rintro found t _ start ⟨described, rfl, rfl, _⟩
    exact ⟨inv start, .refl t, described, rfl, trivial⟩
  unfold attachedType
  refine resolved.bindGiven (fun _ => plans_pure_of_not_clean) ?_
  rintro ⟨owner, d⟩ t _
  dsimp only
  split
  · exact plans_pure.mpr fun _ _ => ⟨_, rfl, trivial⟩
  · exact plans_refuse rfl

theorem checkReferences_plans : Plans c underway (checkReferences e) s fun fine _ =>
        fine = true ∧ ∀ r ∈ e.references, r.isController = true ∨ Declared c r.name := by
  unfold checkReferences
  rw [plans_read_bind]
  refine (Plans.noRounds fun _ _ _ => ends_refuse rfl).bind fun _ t after => ?_
  refine plans_pure.mpr fun clean _ => ?_
  have none_unknown := (after clean).holds.1
  refine ⟨by rw [none_unknown]; rfl, fun r member => ?_⟩
  have known := List.filter_eq_nil_iff.mp none_unknown r member
  simp only [Bool.and_eq_true, Bool.not_eq_true', not_and, Bool.not_eq_false] at known
  by_cases controller : r.isController = true
  · exact .inl controller
  · exact .inr (Table.exists_get? (Table.contains_iff.mp (known (by simpa using controller))))

theorem rejectPending_plans {d : Draft} {reason : String}
    : Plans c underway (rejectPending d reason) s fun _ _ => d.pending = [] := by
  unfold rejectPending
  refine (Plans.noRounds fun _ _ _ => ends_refuse rfl).bind fun _ t after => ?_
  exact plans_pure.mpr fun clean _ => (after clean).holds.1

theorem textSource_plans {text : String} {textPos : Position}
    : Plans c underway (textSource text type textPos pos) s
        (Given fun source _ => Coercion.convert c.types textPos type text = .ok source) := by
  unfold textSource
  rw [plans_read_bind]
  split
  · rename_i source converted
    exact plans_pure.mpr fun _ _ => ⟨source, rfl, converted⟩
  · exact plans_refuse rfl

theorem checkAssignable_plans {type : Option String}
    : Plans c underway (checkAssignable target type pos) s fun _ _ => True := by
  unfold checkAssignable
  split
  · rw [plans_isAssignable_bind]
    split
    · exact plans_pure_trivial
    · exact plans_report
  · exact plans_pure_trivial

theorem methodSource_plans
    : Plans c underway (methodSource name pos occasion) s
        (Given fun source _ => ∃ arity, source = .method pos name arity) := by
  unfold methodSource
  rw [plans_read_bind]
  split
  · exact plans_refuse rfl
  · rw [plans_read_bind]
    split
    · exact plans_refuse rfl
    · exact (addLink_plans _).bind fun _ _ _ => plans_pure.mpr fun _ _ => ⟨_, rfl, _, rfl⟩

variable (sound : c.Sound)

include sound

/-- The type of an expression is asked for without an effect on what is planned. -/
theorem staticType_plans {s : State} (e : Expr)
    : Plans c underway (staticType e) s fun _ _ => True := by
  cases e with
  | ref pos name =>
    rw [staticType]
    split
    · exact plans_read_bind.mpr plans_pure_trivial
    · rw [plans_entry?_bind]
      split
      · rename_i declared
        exact (entryType_plans sound declared).imp fun _ _ _ _ => trivial
      · exact plans_pure_trivial
  | path pos target name =>
    rw [staticType]
    refine (staticType_plans target).bind fun found t _ => ?_
    cases found with
    | none => exact plans_pure_trivial
    | some owner => exact plans_describe_bind.mpr plans_pure_trivial
  | unary pos op operand => cases op <;> exact plans_pure_trivial
  | binary pos op left right =>
    rw [staticType]
    split
    · exact plans_pure_trivial
    · split
      · refine (staticType_plans left).bind fun _ t _ => ?_
        refine (staticType_plans right).bind fun _ u _ => ?_
        split <;> exact plans_pure_trivial
      · exact plans_pure_trivial
  | _ => exact plans_pure_trivial
termination_by sizeOf e

theorem checkStaticType_plans
    : Plans c underway (checkStaticType target e pos) s fun _ _ => True := by
  unfold checkStaticType
  refine (staticType_plans sound e).bind fun found t _ => ?_
  cases found with
  | none => exact plans_pure_trivial
  | some type =>
    rw [plans_isAssignable_bind]
    split
    · exact plans_pure_trivial
    · exact plans_report.bind fun _ _ _ => plans_pure_trivial

theorem expressionSource_plans
    : Plans c underway (expressionSource e type pos) s (Given fun source _ =>
          (∃ convert, source = .expr e.pos (.once e) convert) ∧ ∀ t, Reads c t source) := by
  unfold expressionSource
  refine checkReferences_plans.bind fun fine t checked => ?_
  cases fine with
  | false => exact plans_pure_of_not_clean fun clean => Bool.false_ne_true (checked clean).holds.1
  | true =>
    refine (staticType_plans sound e).bind fun found u typed => ?_
    cases found with
    | none =>
      refine plans_read_bind.mpr ((plans_pure (c := c)).mpr fun clean _ => ?_)
      exact ⟨_, rfl, ⟨_, rfl⟩, fun _ => ⟨e, rfl, (checked (typed clean).clean).holds.2⟩⟩
    | some _ =>
      refine (checkStaticType_plans sound).bind fun fits v compared => ?_
      refine plans_read_bind.mpr (plans_pure.mpr fun clean _ => ?_)
      have between := typed (compared clean).clean
      exact ⟨_, rfl, ⟨_, rfl⟩, fun _ => ⟨e, rfl, (checked between.clean).holds.2⟩⟩

/-- A value that passes makes a source of its own form, which reads declared ids only. -/
theorem valueSource_plans
    : Plans c underway (valueSource value type pos) s
        (Given fun source _ => Makes c.types value source ∧ ∀ t, Reads c t source) := by
  cases value with
  | text textPos text =>
    refine textSource_plans.imp fun found t _ after => ?_
    obtain ⟨source, rfl, converted⟩ := after.holds
    exact ⟨source, rfl, ⟨type, converted⟩, fun _ => Coercion.convert_valid converted⟩
  | location valuePos path =>
    have made {u : State} : Plans c underway (pure (some (.location valuePos path))) u
        (Given fun source _ =>
          Makes c.types (.location valuePos path) source ∧ ∀ t, Reads c t source) :=
      plans_pure.mpr fun _ _ => ⟨_, rfl, rfl, fun _ => trivial⟩
    rw [valueSource, plans_isAssignable_bind]
    split
    · exact made
    · exact plans_report.bind fun _ _ _ => made
  | resource valuePos key =>
    rw [valueSource, plans_read_bind]
    split
    · exact plans_refuse rfl
    · exact plans_read_bind.mpr (plans_pure.mpr fun _ _ => ⟨_, rfl, ⟨_, rfl⟩, fun _ => trivial⟩)
  | binding => exact plans_refuse rfl
  | method => exact plans_refuse rfl
  | once e => exact expressionSource_plans sound

/-- An attribute without a problem makes a handler unless it is blank. -/
theorem handlerSource_plans {a : Attribute}
    : Plans c underway (handlerSource a occasion) s fun found _ =>
        match found with
        | some source => Handles a source ∧ (∀ t, Reads c t source) ∧ source.IsHandler
        | none => a.raw.toList.all Text.isBlank = true := by
  unfold handlerSource
  split
  · exact .of_ends fun _ => ends_throw
  · exact .of_ends fun _ => ends_fault_bind fun _ => ends_pure_of_not_clean
  · rename_i none_there
    exact plans_pure.mpr fun _ _ => all_blank_of_readHandler none_there
  · rename_i pos name method
    refine methodSource_plans.imp fun found t _ after => ?_
    obtain ⟨source, rfl, arity, rfl⟩ := after.holds
    simp only [Handles, method]
    exact ⟨⟨arity, rfl⟩, fun _ => trivial, trivial⟩
  · rename_i e once
    refine (expressionSource_plans sound).bindGiven
      (fun _ => plans_pure_of_not_clean) fun source t after => plans_pure.mpr fun clean _ => ?_
    obtain ⟨⟨convert, rfl⟩, reads⟩ := (after clean).holds
    simp only [Option.map_some, Handles, once]
    exact ⟨⟨convert, rfl⟩, reads, trivial⟩
  · rename_i value method once other
    obtain ⟨pos, name, rfl⟩ | ⟨e, rfl⟩ := handler_forms other
    · exact (method pos name rfl).elim
    · exact (once e rfl).elim

end Fxml.Planning
