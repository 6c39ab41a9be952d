import Fxml.Cli.Run
import Fxml.Proofs.Outcome

/-! What becomes of the arguments of the command line. They are refused with a message, answered by
the help, or give options that can be used; only a number of jobs in digits that are no number, or are
too many for one, gets past the checks.
-/

open List Fxml.Text

namespace Fxml.Cli

variable {o result : Options} {args : List String} {flag value name : String} {n : Nat}

/-! ### The number of jobs -/

/-- A positive number in the decimal digits of any script. -/
structure IsCount (value : String) : Prop where
  decimals : ∀ c ∈ value.toList, isDecimal c = true
  short : value.toList.length ≤ digitLimit
  positive : 0 < decimalNumber value.toList

/-- Digits that are not read as a number: one of them has no decimal value, such as a superscript, or
there are too many of them.
-/
def IsDigitsOnly (value : String) : Prop :=
  (∀ c ∈ value.toList, isDigit c = true)
  ∧ ((∃ c ∈ value.toList, isDecimal c = false) ∨ digitLimit < value.toList.length)

theorem isDigit_of_isDecimal {c : Char} (h : isDecimal c = true) : isDigit c = true := by
  simp [isDigit, h]

theorem IsCount.not_isEmpty (h : IsCount value) : value.toList.isEmpty = false := by
  cases shape : value.toList with
  | nil => exact absurd h.positive (by simp [shape, decimalNumber])
  | cons => rfl

theorem readJobs_ok_iff
    : readJobs value = .ok n ↔ IsCount value ∧ n = decimalNumber value.toList := by
  unfold readJobs
  dsimp only
  constructor
  · intro h
    split_ifs at h with refused unread small
    cases h
    simp only [Bool.or_eq_true, Bool.not_eq_true', decide_eq_true_eq, not_or, Bool.not_eq_false,
      Nat.not_lt] at unread
    exact ⟨⟨all_eq_true.mp unread.1, unread.2, by omega⟩, rfl⟩
  · rintro ⟨count, rfl⟩
    have digits : value.toList.all isDigit = true :=
      all_eq_true.mpr fun c member => isDigit_of_isDecimal (count.decimals c member)
    have decimals : value.toList.all isDecimal = true := all_eq_true.mpr count.decimals
    have short : ¬digitLimit < value.toList.length := Nat.not_lt.mpr count.short
    have := count.positive
    simp only [count.not_isEmpty, digits, decimals, short, decide_false, Bool.not_true, Bool.or_self,
      Bool.false_eq_true, if_false]
    rw [if_neg (by omega)]

theorem readJobs_badDigits_iff : readJobs value = .error .badDigits ↔ IsDigitsOnly value := by
  unfold readJobs
  dsimp only
  constructor
  · intro h
    split_ifs at h with refused unread small
    · cases h
    · simp only [Bool.or_eq_true, Bool.not_eq_true', not_or, Bool.not_eq_false] at refused
      refine ⟨all_eq_true.mp refused.2, ?_⟩
      simpa using unread
    · cases h
  · rintro ⟨digits, unread⟩
    have digits : value.toList.all isDigit = true := all_eq_true.mpr digits
    have unread : (!value.toList.all isDecimal || decide (digitLimit < value.toList.length)) = true := by
      simpa using unread
    cases shape : value.toList with
    | nil => simp [shape] at unread
    | cons first rest =>
      rw [shape] at digits unread
      simp only [isEmpty_cons, digits, unread, Bool.not_true, Bool.or_self, Bool.false_eq_true,
        if_false, if_true]

/-! ### All arguments -/

theorem takesValue_iff
    : takesValue flag = true
      ↔ flag ∈ ["--types", "--package", "--root", "--resources", "--out-dir", "--stop-at",
          "--jobs"] :=
  contains_iff_mem

/-- Arguments among which digits that are not read as a number come as the number of jobs, after
nothing but arguments that are in order.
-/
inductive Derailed : List String → Prop
  | here {value rest} (digits : IsDigitsOnly value) : Derailed ("--jobs" :: value :: rest)
  | index {rest} (later : Derailed rest) : Derailed ("--index" :: rest)
  | input {name : String} {rest} (plain : name.startsWith "-" = false) (later : Derailed rest)
    : Derailed (name :: rest)
  | setting {flag value rest} (known : takesValue flag = true)
    (count : flag = "--jobs" → IsCount value) (later : Derailed rest)
    : Derailed (flag :: value :: rest)

theorem setOption_cases (o : Options) (known : takesValue flag = true) (value : String)
    : flag ≠ "--jobs" ∧ (∃ result, setOption o flag value = .ok result ∧ result.jobs = o.jobs)
      ∨ flag = "--jobs"
        ∧ setOption o flag value = (readJobs value).map fun n => { o with jobs := some n } := by
  have known := takesValue_iff.mp known
  simp only [mem_cons, not_mem_nil, or_false] at known
  rcases known with rfl | rfl | rfl | rfl | rfl | rfl | rfl
  case inr.inr.inr.inr.inr.inr =>
    refine .inr ⟨rfl, ?_⟩
    cases read : readJobs value <;> simp [setOption, read] <;> rfl
  all_goals exact .inl ⟨by decide, _, rfl, rfl⟩

theorem setOption_badDigits_iff (known : takesValue flag = true)
    : setOption o flag value = .error .badDigits ↔ flag = "--jobs" ∧ IsDigitsOnly value := by
  rcases setOption_cases o known value with ⟨other, result, set, _⟩ | ⟨rfl, set⟩
  · simp [set, other]
  · rw [set, ← readJobs_badDigits_iff]
    cases readJobs value <;> simp [Except.map]

theorem setOption_ok (known : takesValue flag = true) (set : setOption o flag value = .ok result)
    : (flag = "--jobs" → IsCount value)
      ∧ ((∀ n, o.jobs = some n → 0 < n) → ∀ n, result.jobs = some n → 0 < n) := by
  rcases setOption_cases o known value with ⟨other, next, set', same⟩ | ⟨rfl, set'⟩
  · cases set'.symm.trans set
    exact ⟨fun jobs => absurd jobs other, fun positive => same ▸ positive⟩
  · obtain ⟨n, read, rfl⟩ := exists_of_map_ok (set'.symm.trans set)
    obtain ⟨count, rfl⟩ := readJobs_ok_iff.mp read
    exact ⟨fun _ => count, fun _ m same => Option.some.inj same ▸ count.positive⟩

theorem derailed_of_badDigits (h : readArguments o args = .error .badDigits) : Derailed args := by
  fun_induction readArguments o args with
  | case8 o flag value rest _ known ih =>
    rcases error_of_bind h with here | ⟨next, set, later⟩
    · obtain ⟨rfl, digits⟩ := (setOption_badDigits_iff known).mp here
      exact .here digits
    · exact .setting known (setOption_ok known set).1 (ih next later)
  | case9 o value rest _ _ ih => exact .index (ih h)
  | case11 o name value rest _ _ _ plain ih => exact .input (by simpa using plain) (ih h)
  | _ => cases h

/-- An input that does not look like a flag is none. -/
theorem not_flag (plain : flag.startsWith "-" = false)
    : flag ≠ "--help" ∧ flag ≠ "-h" ∧ flag ≠ "--index" ∧ takesValue flag = false := by
  have no_flag (flags : List String) (all : ∀ name ∈ flags, name.startsWith "-" = true)
      : flag ∉ flags :=
    fun member => by simp [all flag member] at plain
  have apart := no_flag ["--help", "-h", "--index", "--types", "--package", "--root",
    "--resources", "--out-dir", "--stop-at", "--jobs"] (by decide +kernel)
  simp only [mem_cons, not_mem_nil, or_false, not_or] at apart
  simp [takesValue, apart]

theorem readArguments_input (plain : flag.startsWith "-" = false) (o : Options) (rest : List String)
    : readArguments o (flag :: rest)
      = readArguments { o with inputs := o.inputs ++ [flag] } rest := by
  obtain ⟨help, short, index, unknown⟩ := not_flag plain
  cases rest <;> simp [readArguments, help, short, index, unknown, plain]

theorem readArguments_setting (known : takesValue flag = true) (o : Options) (value : String)
    (rest : List String)
    : readArguments o (flag :: value :: rest)
      = setOption o flag value >>= (readArguments · rest) := by
  rw [readArguments, if_neg, if_pos known]
  rintro help
  simp only [Bool.or_eq_true, decide_eq_true_eq] at help
  rcases help with rfl | rfl <;> revert known <;> decide

theorem Derailed.badDigits (h : Derailed args) (o : Options)
    : readArguments o args = .error .badDigits := by
  induction h generalizing o with
  | here digits =>
    have known : takesValue "--jobs" = true := by decide
    rw [readArguments_setting known, (setOption_badDigits_iff known).mpr ⟨rfl, digits⟩]
    rfl
  | @index rest later ih =>
    cases rest with
    | nil => cases later
    | cons next rest => exact ih _
  | input plain _ ih =>
    rw [readArguments_input plain]
    exact ih _
  | @setting flag value rest known count _ ih =>
    rw [readArguments_setting known]
    obtain ⟨result, set⟩ : ∃ result, setOption o flag value = .ok result := by
      rcases setOption_cases o known value with ⟨_, result, set, _⟩ | ⟨rfl, set⟩
      · exact ⟨result, set⟩
      · rw [set, readJobs_ok_iff.mpr ⟨count rfl, rfl⟩]
        exact ⟨_, rfl⟩
    rw [set]
    exact ih result

theorem jobs_of_readArguments (h : readArguments o args = .ok result)
    (positive : ∀ n, o.jobs = some n → 0 < n)
    : ∀ n, result.jobs = some n → 0 < n := by
  fun_induction readArguments o args with
  | case1 | case4 | case6 => cases h; exact positive
  | case8 o flag value rest _ known ih =>
    obtain ⟨next, set, later⟩ := exists_of_bind_ok h
    exact ih next later ((setOption_ok known set).2 positive)
  | case9 _ _ _ _ _ ih | case11 _ _ _ _ _ _ _ _ ih => exact ih h positive
  | _ => cases h

/-! ### The options -/

theorem exists_parts_of_isPackage (h : isPackage name = true)
    : ∃ parts : List String, (∀ part ∈ parts, isIdentifier part = true)
        ∧ name = ".".intercalate parts := by
  refine ⟨(name.toList.splitOn '.').map String.ofList, ?_, ?_⟩
  · simpa [isPackage] using h
  · refine String.toList_inj.mp ?_
    simp [Function.comp_def]

/-- Options that can be used. -/
structure Options.Usable (o : Options) : Prop where
  inputs : o.inputs ≠ []
  stage : o.stopAt ∈ ["parse", "resolve", "generate"]
  package : o.package = ""
    ∨ ∃ parts : List String, (∀ part ∈ parts, isIdentifier part = true)
        ∧ o.package = ".".intercalate parts
  jobs : ∀ n, o.jobs = some n → 0 < n

theorem mem_stages (h : stage? name ≠ none)
    : name ∈ ["parse", "resolve", "generate"] := by
  unfold stage? at h
  split at h <;> simp_all

def Options.checked (o : Options) : Except Stop Options :=
  if (stage? o.stopAt).isNone then .error (.wrong (.unknownStage o.stopAt))
  else if o.package != "" && !isPackage o.package then .error (.wrong (.badPackage o.package))
  else if o.inputs.isEmpty then .error (.wrong .noInput)
  else .ok o

theorem Options.read_eq (args : List String)
    : Options.read args = readArguments {} args >>= Options.checked := by
  refine congrArg (readArguments {} args >>= ·) (funext fun o => ?_)
  unfold Options.checked
  split_ifs <;> rfl

theorem Options.usable_of_read (h : Options.read args = .ok o) : o.Usable := by
  rw [Options.read_eq] at h
  obtain ⟨read, reading, h⟩ := exists_of_bind_ok h
  unfold Options.checked at h
  split_ifs at h with stage package inputs
  cases h
  refine ⟨by simpa using inputs, mem_stages (by simpa using stage), ?_,
    jobs_of_readArguments reading nofun⟩
  by_cases empty : o.package = ""
  · exact .inl empty
  · refine .inr (exists_parts_of_isPackage ?_)
    simpa [empty] using package

theorem Options.read_badDigits_iff : Options.read args = .error .badDigits ↔ Derailed args := by
  rw [Options.read_eq]
  constructor
  · intro h
    rcases error_of_bind h with here | ⟨o, _, checked⟩
    · exact derailed_of_badDigits here
    · unfold Options.checked at checked
      split_ifs at checked <;> cases checked
  · intro h
    rw [h.badDigits]
    rfl

/-- For all arguments: a run ends at once with the help and code 0, or with a message and code 2, or
the options are usable. It fails in no other way, unless the arguments are derailed by digits that are
not read as a number, and then it always does.
-/
theorem run_documented_iff (introspected : TypeSource) (args : List String) (t : FileTree)
    : (Options.read args = .error .help
          ∧ run introspected args t = .ok { exit := 0, out := usage, tree := t }
        ∨ (∃ e, Options.read args = .error (.wrong e)
          ∧ run introspected args t
            = .ok { exit := 2, err := "error: " ++ e.message ++ "\n", tree := t })
        ∨ ∃ o, Options.read args = .ok o ∧ o.Usable)
      ↔ ¬Derailed args := by
  rw [← Options.read_badDigits_iff]
  cases read : Options.read args with
  | ok o => simp [Options.usable_of_read read]
  | error stop => cases stop <;> simp [run, read, errorLine]

/-- A superscript is a digit, but no decimal one: it is not refused with a message. -/
theorem superscript_not_refused
    : Derailed ["--jobs", "²", "main.fxml"]
      ∧ ∀ e, Options.read ["--jobs", "²", "main.fxml"] ≠ .error (.wrong e) := by
  have derailed : Derailed ["--jobs", "²", "main.fxml"] :=
    .here ⟨all_eq_true.mp (by decide +kernel), .inl ⟨'²', by decide +kernel, by decide +kernel⟩⟩
  refine ⟨derailed, fun e read => ?_⟩
  exact (run_documented_iff Catalog.empty _ {}).mp
    (.inr (.inl ⟨e, read, by simp [run, read, errorLine]⟩)) derailed

end Fxml.Cli
