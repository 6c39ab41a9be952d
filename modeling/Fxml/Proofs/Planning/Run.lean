import Fxml.Planning.State

/-! Runs of planning that end without an error. Reports are never taken back, so such a run was
without an error at every point, and a statement about it may assume so. Runs compose by `Ends.bind`
alone.
-/

namespace Fxml.Planning

variable {α β : Type} {c : Context} {s : State} {x : Planning α} {f : α → Planning β}
  {mid post : α → State → Prop} {a : α} {problem : Problem} {pos : Position}

/-- No error was reported so far. -/
def State.Clean (s : State) : Prop := s.diagnostics.ok = true

/-- A computation leads from a state to a value and a state, given some knowledge of included
documents.
-/
def Yields (c : Context) (x : Planning α) (s : State) (a : α) (s' : State) : Prop :=
  ∃ known known', ((x.run c).run s).run.run known = (.ok (a, s'), known')

/-- Where a computation ends without an error, there was none at its start, and the value and state
are as stated.
-/
def Ends (c : Context) (x : Planning α) (s : State) (post : α → State → Prop) : Prop :=
  ∀ a s', Yields c x s a s' → s'.Clean → s.Clean ∧ post a s'

/-! ### One computation after the other -/

/-- A run of two computations goes on where the first one ends. -/
theorem run_bind (x : Planning α) (f : α → Planning β) (known : IncludeCache)
    : ((ReaderT.run (x >>= f) c).run s).run.run known
      = match ((x.run c).run s).run.run known with
        | (.ok (a, s'), known') => (((f a).run c).run s').run.run known'
        | (.error crash, known') => (.error crash, known') := by
  simp only [ReaderT.run_bind, StateT.run_bind, ExceptT.run_bind]
  rcases ((x.run c).run s).run.run known with ⟨_ | ⟨a, s'⟩, between⟩ <;> rfl

theorem Yields.of_bind {b : β} {s'' : State} (h : Yields c (x >>= f) s b s'')
    : ∃ a s', Yields c x s a s' ∧ Yields c (f a) s' b s'' := by
  obtain ⟨known, known', run⟩ := h
  rw [run_bind] at run
  rcases first : ((x.run c).run s).run.run known with ⟨_ | ⟨a, s'⟩, between⟩
  · rw [first] at run
    cases run
  · rw [first] at run
    exact ⟨a, s', ⟨known, between, first⟩, between, known', run⟩

theorem Ends.bind {post : β → State → Prop} (first : Ends c x s mid)
    (second : ∀ a t, (t.Clean → s.Clean ∧ mid a t) → Ends c (f a) t post)
    : Ends c (x >>= f) s post := by
  intro b s'' run clean
  obtain ⟨a, t, one, two⟩ := run.of_bind
  obtain ⟨between, stated⟩ := second a t (first a t one) b s'' two clean
  exact ⟨(first a t one between).1, stated⟩

theorem Ends.imp {post' : α → State → Prop} (h : Ends c x s post)
    (weaker : ∀ a t, t.Clean → s.Clean → post a t → post' a t)
    : Ends c x s post' := by
  intro a t run clean
  obtain ⟨start, stated⟩ := h a t run clean
  exact ⟨start, weaker a t clean start stated⟩

/-- A value is there, and it is as stated. -/
def Given (stated : α → State → Prop) (found : Option α) (s : State) : Prop :=
  ∃ a, found = some a ∧ stated a s

/-- Where the first of two computations must give a value, the second starts from one. -/
theorem Ends.bindGiven {x : Planning (Option α)} {f : Option α → Planning β}
    {post : β → State → Prop} (first : Ends c x s (Given mid))
    (fails : ∀ t, ¬t.Clean → Ends c (f none) t post)
    (second : ∀ a t, (t.Clean → s.Clean ∧ mid a t) → Ends c (f (some a)) t post)
    : Ends c (x >>= f) s post := by
  refine first.bind fun found t after => ?_
  cases found with
  | none =>
    refine fails t fun clean => ?_
    obtain ⟨_, _, impossible, _⟩ := after clean
    cases impossible
  | some a =>
    refine second a t fun clean => ?_
    obtain ⟨start, _, same, stated⟩ := after clean
    cases same
    exact ⟨start, stated⟩

/-! ### Single steps -/

@[simp] theorem yields_pure {b : α} {s' : State} : Yields c (pure a) s b s' ↔ b = a ∧ s' = s := by
  constructor
  · rintro ⟨known, known', run⟩
    cases run
    exact ⟨rfl, rfl⟩
  · rintro ⟨rfl, rfl⟩
    exact ⟨[], [], rfl⟩

@[simp] theorem ends_pure : Ends c (pure a) s post ↔ (s.Clean → post a s) := by
  constructor
  · intro h clean
    exact (h a s (yields_pure.mpr ⟨rfl, rfl⟩) clean).2
  · intro h b s' run clean
    obtain ⟨rfl, rfl⟩ := yields_pure.mp run
    exact ⟨clean, h clean⟩

theorem ends_pure_of_not_clean (h : ¬s.Clean) : Ends c (pure a) s post :=
  ends_pure.mpr fun clean => (h clean).elim

@[simp] theorem ends_get_bind {f : State → Planning α}
    : Ends c (get >>= f) s post ↔ Ends c (f s) s post :=
  Iff.rfl

@[simp] theorem ends_read_bind {f : Context → Planning α}
    : Ends c (read >>= f) s post ↔ Ends c (f c) s post :=
  Iff.rfl

@[simp] theorem ends_entry?_bind {id : String} {f : Option Entry → Planning α}
    : Ends c ( entry? id >>= f) s post ↔ Ends c (f (c.registry.get? id)) s post :=
  Iff.rfl

@[simp] theorem ends_describe_bind {type : String} {f : Option TypeDescriptor → Planning α}
    : Ends c (describe type >>= f) s post ↔ Ends c (f (c.types.describe type)) s post :=
  Iff.rfl

@[simp] theorem ends_throw {crash : Crash} : Ends c (throw crash) s post := by
  rintro a s' ⟨known, known', run⟩
  cases run

theorem ends_modify {f : State → State} {post : Unit → State → Prop}
    (same : (f s).diagnostics = s.diagnostics)
    : Ends c (modify f) s post ↔ (s.Clean → post () (f s)) := by
  have clean : (f s).Clean ↔ s.Clean := by rw [State.Clean, State.Clean, same]
  constructor
  · intro h start
    exact (h () (f s) ⟨[], [], rfl⟩ (clean.mpr start)).2
  · rintro h a s' ⟨known, known', run⟩ ends
    cases run
    exact ⟨clean.mp ends, h (clean.mp ends)⟩

theorem ends_modify_bind {f : State → State} {g : Unit → Planning α}
    (same : (f s).diagnostics = s.diagnostics)
    : Ends c (modify f >>= g) s post ↔ Ends c (g ()) (f s) post := by
  have clean : (f s).Clean ↔ s.Clean := by rw [State.Clean, State.Clean, same]
  unfold Ends
  rw [clean]
  exact Iff.rfl

/-- A look-up of another document changes nothing that is planned. -/
theorem Ends.lift {m : Lookup α} (h : ∀ a, s.Clean → post a s) : Ends c (liftM m) s post := by
  rintro a s' ⟨known, known', run⟩ clean
  have lifted : (m >>= fun value => pure (value, s) : Lookup (α × State)).run.run known
      = (.ok (a, s'), known') := run
  simp only [ExceptT.run_bind, StateT.run_bind] at lifted
  rcases found : m.run.run known with ⟨_ | value, between⟩
  all_goals
    rw [found] at lifted
    cases lifted
  exact ⟨clean, h a clean⟩

/-- Reports are not taken back. -/
theorem ok_of_report {ds : Diagnostics} (h : (ds.report problem pos).ok = true) : ds.ok = true := by
  simp only [Diagnostics.report, Diagnostics.add, Diagnostics.ok, List.all_append,
    Bool.and_eq_true] at h
  exact h.1

/-- After a report there is no error only if there was none and the report is a warning. -/
theorem clean_report
    : State.Clean { s with diagnostics := s.diagnostics.report problem pos }
      ↔ s.Clean ∧ problem.severity = .warning := by
  simp [State.Clean, Diagnostics.report, Diagnostics.add, Diagnostics.ok, Diagnostic.isError]

theorem Ends.report {post : Unit → State → Prop}
    (h : problem.severity = .warning → s.Clean → ∀ ds, post () { s with diagnostics := ds })
    : Ends c (report problem pos) s post := by
  rintro a s' ⟨known, known', run⟩ clean
  cases run
  obtain ⟨start, warning⟩ := clean_report.mp clean
  exact ⟨start, h warning start _⟩

theorem ends_report_error (h : problem.severity = .error)
    : Ends c (Planning.report problem pos) s fun _ _ => False :=
  Ends.report fun warning => by rw [h] at warning; cases warning

/-- A fault is an error in any case. -/
theorem not_clean_addFault (fault : Fault)
    : ¬State.Clean { s with diagnostics := s.diagnostics.addFault fault } := by
  have grave : fault.severity ≠ .warning := by
    unfold Fault.severity
    split <;> simp
  simp [State.Clean, Diagnostics.addFault, Diagnostics.add, Diagnostics.ok, Diagnostic.isError,
    grave]

theorem ends_fault_bind {fault : Fault} {f : Unit → Planning α}
    (rest : ∀ t, ¬t.Clean → Ends c (f ()) t post)
    : Ends c ((modify fun s => { s with diagnostics := s.diagnostics.addFault fault }) >>= f) s
        post := by
  intro b t run clean
  obtain ⟨_, u, one, two⟩ := run.of_bind
  obtain ⟨known, known', run⟩ := one
  cases run
  exact (not_clean_addFault fault (rest _ (not_clean_addFault fault) b t two clean).1).elim

/-- What follows an error report never ends without an error. -/
theorem ends_error_bind {f : Unit → Planning α} (h : problem.severity = .error)
    (rest : ∀ t, ¬t.Clean → Ends c (f ()) t post)
    : Ends c (Planning.report problem pos >>= f) s post :=
  (ends_report_error h).bind fun _ t after => rest t fun clean => (after clean).2

theorem ends_refuse (h : problem.severity = .error)
    : Ends c (Planning.report problem pos >>= fun _ => pure a) s post :=
  ends_error_bind h fun _ => ends_pure_of_not_clean

/-! ### Loops -/

/-- A loop whose rounds all report errors ends without one only if it has no rounds. -/
theorem Ends.noRounds {items : List β} {body : β → PUnit → Planning (ForInStep PUnit)}
    (round : ∀ item ∈ items, ∀ t, Ends c (body item ⟨⟩) t fun _ _ => False)
    : Ends c (forIn items ⟨⟩ body) s fun _ t => items = [] ∧ t = s := by
  induction items generalizing s with
  | nil =>
    rw [List.forIn_nil, ends_pure]
    exact fun _ => ⟨rfl, rfl⟩
  | cons item rest ih =>
    rw [List.forIn_cons]
    refine (round item List.mem_cons_self s).bind fun next t after => ?_
    cases next with
    | done => simpa using fun clean => (after clean).2
    | yield =>
      refine (ih (s := t) fun other member => round other (List.mem_cons_of_mem _ member)).imp ?_
      exact fun _ _ _ between _ => (after between).2.elim

end Fxml.Planning
