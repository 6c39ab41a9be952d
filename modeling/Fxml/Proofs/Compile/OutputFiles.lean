import Fxml.Cli.Run
import Fxml.Proofs.Planning.Consistency
import Fxml.Proofs.Planning.LocalNames

/-! The files that generated modules are written to. Two documents share a file exactly when the
identifiers that the parts of their paths become are the same.
-/

open List Std.Do

set_option mvcgen.warning false

namespace Fxml

/-! ### Names of modules -/

namespace Naming

open Text

theorem isWord_of_mem_joinWords {cs : List Char} {inRun : Bool}
    : ∀ c ∈ joinWords inRun cs, isWord c = true := by
  induction cs generalizing inRun with
  | nil => exact nofun
  | cons c rest ih =>
    rw [joinWords]
    split
    · exact forall_mem_cons.mpr ⟨‹_›, ih⟩
    split
    · exact ih
    · exact forall_mem_cons.mpr ⟨by decide, ih⟩

/-- A name that is made of the characters of words. -/
def Wordy (name : String) : Prop :=
  (∀ c ∈ name.toList, isWord c = true) ∧ name.toList ≠ []

theorem wordy_identifier (name : String) : Wordy (identifier name) := by
  have words : ∀ c ∈ trimBy (· == '_') (joinWords false (snake name).toList), isWord c = true := by
    intro c member
    rw [trimBy, mem_reverse] at member
    have kept := (dropWhile_sublist _).mem member
    exact isWord_of_mem_joinWords c ((dropWhile_sublist _).mem (mem_reverse.mp kept))
  have letter : ∀ c ∈ "n_".toList, isWord c = true := by simp; decide
  have ending {word : String} (h : Wordy word)
      : Wordy (if isKeyword word then word ++ "_" else word) := by
    have mark : ∀ c ∈ "_".toList, isWord c = true := by simp; decide
    split
    · rw [Wordy, String.toList_append]
      exact ⟨forall_mem_append.mpr ⟨h.1, mark⟩, by simp⟩
    · exact h
  unfold identifier
  cases chars : trimBy (· == '_') (joinWords false (snake name).toList) with
  | nil => exact ending ⟨letter, by decide⟩
  | cons c rest =>
    rw [chars] at words
    refine ending ?_
    dsimp only
    split
    · rw [Wordy, String.toList_append]
      exact ⟨forall_mem_append.mpr ⟨letter, by rwa [String.toList_ofList]⟩, by simp⟩
    · rw [Wordy, String.toList_ofList]
      exact ⟨words, by simp⟩

end Naming

namespace Path

open Naming

/-- The names that the parts of a document's path become in that of its module. -/
def moduleParts (path : String) : List String :=
  ((parts (dropExtension path)).filter fun p => p != "" && p != ".").map identifier

theorem moduleParts_words {path : String} (name : String) (h : name ∈ moduleParts path)
    : Wordy name := by
  obtain ⟨part, -, rfl⟩ := mem_map.mp h
  exact wordy_identifier part

/-- The file of the module with such names. -/
def fileOf (package : String) (names : List String) : String :=
  moduleFile (".".intercalate (if package = "" then names else package :: names))

theorem moduleFile_moduleName (path package : String)
    : moduleFile (moduleName path package) = fileOf package (moduleParts path) :=
  rfl

theorem moduleFile_indexModule (package : String)
    : moduleFile (Cli.indexModule package) = fileOf package ["builders"] := by
  unfold Cli.indexModule fileOf
  split
  · rfl
  · rw [show ".".intercalate [package, "builders"] = package ++ ".builders" from
      String.toList_inj.mp (by simp)]

def slashed (names : List (List Char)) : List Char := names.flatMap ('/' :: ·)

theorem intercalate_cons (sep : Char) (first : List Char) (rest : List (List Char))
    : [sep].intercalate (first :: rest) = first ++ rest.flatMap (sep :: ·) := by
  induction rest generalizing first with
  | nil => simp
  | cons next rest ih => rw [intercalate_cons_cons, ih, flatMap_cons]; simp

theorem slashed_inj {names names' : List (List Char)} (free : ∀ name ∈ names, '/' ∉ name)
    (free' : ∀ name ∈ names', '/' ∉ name) (same : slashed names = slashed names')
    : names = names' := by
  have split {names : List (List Char)} (free : ∀ name ∈ names, '/' ∉ name)
      : (slashed names).splitOn '/' = [] :: names := by
    have joined := intercalate_cons '/' [] names
    rw [slashed, ← nil_append (flatMap _ _), ← joined]
    exact splitOn_intercalate '/' (forall_mem_cons.mpr ⟨nofun, free⟩) nofun
  have := split free
  rw [same, split free'] at this
  exact (cons.inj this).2.symm

theorem toList_fileOf {package : String} {names : List String}
    (words : ∀ name ∈ names, ∀ c ∈ name.toList, Text.isWord c = true)
    : (fileOf package names).toList
      = (if package = "" then (slashed (names.map String.toList)).drop 1
          else package.toList.map (fun c => if c = '.' then '/' else c)
            ++ slashed (names.map String.toList))
        ++ ".py".toList := by
  have stays {name : String} (member : name ∈ names)
      : name.toList.map (fun c => if c = '.' then '/' else c) = name.toList := by
    refine (map_congr_left fun c there => if_neg ?_).trans (map_id _)
    rintro rfl
    exact absurd (words name member '.' there) (by decide)
  have slashes {names' : List String} (sub : names' ⊆ names)
      : ((names'.map String.toList).flatMap ('.' :: ·)).map (fun c => if c = '.' then '/' else c)
        = slashed (names'.map String.toList) := by
    simp only [slashed, flatMap_map, map_flatMap]
    refine flatMap_congr fun name member => ?_
    simp [stays (sub member)]
  rw [fileOf, moduleFile, String.toList_append, String.toList_map, String.toList_intercalate]
  congr 1
  split
  · cases names with
    | nil => rfl
    | cons name rest =>
      have first := stays mem_cons_self
      have others := slashes (subset_cons_self name rest)
      rw [map_cons, show ".".toList = ['.'] from rfl, intercalate_cons, map_append, first, others]
      simp [slashed]
  · rw [map_cons, show ".".toList = ['.'] from rfl, intercalate_cons, map_append,
      slashes (Subset.refl _)]

theorem fileOf_inj {package : String} {names names' : List String}
    (words : ∀ name ∈ names, Wordy name) (words' : ∀ name ∈ names', Wordy name)
    : fileOf package names = fileOf package names' ↔ names = names' := by
  refine ⟨fun same => ?_, fun same => same ▸ rfl⟩
  have free {names : List String} (words : ∀ name ∈ names, Wordy name)
      : ∀ name ∈ names.map String.toList, '/' ∉ name := by
    intro _ member there
    obtain ⟨name, listed, rfl⟩ := mem_map.mp member
    exact absurd ((words name listed).1 '/' there) (by decide)
  have equal : slashed (names.map String.toList) = slashed (names'.map String.toList) := by
    have chars := congrArg String.toList same
    rw [toList_fileOf fun name member => (words name member).1,
      toList_fileOf fun name member => (words' name member).1, append_cancel_right_eq] at chars
    split at chars
    · cases names <;> cases names'
      all_goals simp_all [slashed, Wordy]
    · exact append_cancel_left chars
  exact map_injective_iff.mpr (fun _ _ => String.toList_inj.mp)
    (slashed_inj (free words) (free words') equal)

end Path

/-! ### Modules of units -/

namespace Planning

variable {α : Type}

theorem ends_spec (x : Planning α) : ⦃Pre fun _ => True⦄ x ⦃Post fun _ _ => True⦄ :=
  triple_iff_yields.mpr fun _ _ _ _ _ _ => trivial

theorem assemble_module (module className : String) (root : Element)
    : ⦃Pre fun _ => True⦄ assemble module className root
      ⦃Post fun plan _ => plan.module = module⦄ := by
  have inject (controller : TypeDescriptor) (id : String) (entry : Entry) :=
    ends_spec (injectField controller id entry)
  have order := ends_spec orderElements
  mvcgen [assemble, inject, order] invariants
  · Post fun _ _ => True
  · Post fun _ _ => True
  · Post fun _ _ => True

theorem planDocument_module (module className : String)
    : ⦃Pre fun _ => True⦄ planDocument module className
      ⦃Post fun found _ => Brings (fun plan => plan.module = module) found⦄ := by
  have node (node : Node) := ends_spec (planNode node)
  have assembled := assemble_module module className
  mvcgen [planDocument, node, assembled]
  all_goals grind

end Planning

open Planning

theorem Document.path_of_read {src path : String} {document : Document}
    (h : Document.read src path = .ok document)
    : document.path = path := by
  unfold Document.read at h
  split at h
  · cases h
  · obtain ⟨⟨root, state⟩, -, h⟩ := exists_of_bind_ok h
    dsimp only at h
    split at h
    · cases h
      rfl
    · cases h

/-- A statement about what a look-up finds; nothing is said of crashes. -/
abbrev Lookup.Finds {α : Type} (post : α → Prop)
    : PostCond α (.except Crash (.arg IncludeCache .pure)) :=
  ⟨fun a _ => ⌜post a⌝, fun _ _ => ⌜True⌝, ()⟩

theorem Lookup.wp_apply {α : Type} (x : Lookup α)
    (Q : PostCond α (.except Crash (.arg IncludeCache .pure))) (known : IncludeCache)
    : wp⟦x⟧ Q known = match x.run.run known with
      | (.ok a, known') => Q.1 a known'
      | (.error crash, known') => Q.2.1 crash known' := by
  rcases run : x.run.run known with ⟨_ | a, known'⟩
  all_goals
    simp [WP.wp, run]
    rfl

theorem Lookup.triple_iff {α : Type} {x : Lookup α} {post : α → Prop}
    : ⦃fun _ => ⌜True⌝⦄ x ⦃Lookup.Finds post⦄
      ↔ ∀ known a known', x.run.run known = (.ok a, known') → post a := by
  constructor
  · intro h known a known' run
    have holds := h known trivial
    rw [wp_apply, run] at holds
    exact holds
  · intro h known _
    rw [wp_apply]
    rcases run : x.run.run known with ⟨_ | a, known'⟩
    · trivial
    · exact h known a known' run

/-- The result of the document at a path; the module of its unit is that of the path. -/
@[grind] def CompileResult.Of (s : CompileSettings) (path : String) (r : CompileResult) : Prop :=
  r.path = path ∧ ∀ unit, r.unit = some unit → unit.module = Path.moduleName path s.package

namespace CompileSettings

variable {results : List CompileResult} {sources named : Table String} (s : CompileSettings)

@[spec] theorem plan_spec (document : Document) (settings : PlanSettings)
    (module className : String) (diagnostics : Diagnostics)
    : ⦃fun _ => ⌜True⌝⦄ document.plan settings module className diagnostics
      ⦃Lookup.Finds fun r => Brings (fun plan => plan.module = module) r.1⦄ := by
  refine Lookup.triple_iff.mpr fun known r known' run => ?_
  obtain ⟨c, registered, ds, s, -, -, -, -, -, yields, -⟩ := Document.plan_yields run
  have := triple_iff_yields.mp (planDocument_module module className)
  exact this _ _ _ _ trivial yields

@[spec] theorem compileParsed_spec (stopAt : Stage) (document : Document)
    (loader : Option (String → Lookup (Except IncludeFault IncludeTarget)))
    (diagnostics : Diagnostics)
    : ⦃fun _ => ⌜True⌝⦄ s.compileParsed stopAt document loader diagnostics
      ⦃Lookup.Finds fun r => r.Of s document.path⦄ := by
  mvcgen [compileParsed, generateUnit]
  all_goals grind [CompiledUnit.ofPlan]

theorem compileWithin_spec (depth : Nat) (stopAt : Stage) (stack : List String) (path text : String)
    : ⦃fun _ => ⌜True⌝⦄ s.compileWithin depth stopAt stack path text
      ⦃Lookup.Finds fun r => r.Of s path⦄ := by
  unfold compileWithin
  mvcgen
  all_goals grind [Document.path_of_read]

theorem compileMember_of (path text : String) (known : IncludeCache)
    : ((s.compileMember path text).run known).1.Of s path := by
  have compiled := Lookup.triple_iff.mp
    (s.compileWithin_spec (s.depth + 1) s.stopAt [path] path text)
  unfold compileMember
  rw [StateT.run_bind]
  rcases run : (s.compile path text).run.run known with ⟨_ | r, known'⟩
  · exact ⟨rfl, nofun⟩
  · exact compiled known r known' run

theorem compileMembers_of (members : Table String) (known : IncludeCache)
    : Forall₂ (fun member r => r.Of s member.1) members
        ((members.mapM fun (path, text) => s.compileMember path text).run known).1 := by
  induction members generalizing known with
  | nil => exact .nil
  | cons member rest ih =>
    rw [mapM_cons]
    exact .cons (s.compileMember_of member.1 member.2 known) (ih _)

variable {s}

theorem named_iff
    : s.named sources = .ok named ↔ Forall₂ (fun source member =>
            Path.reported s.working s.sourceRoot source.1 = .ok member.1 ∧ source.2 = member.2)
          sources named := by
  induction sources generalizing named with
  | nil =>
    rw [forall₂_nil_left_iff]
    constructor
    · intro h
      exact (Except.ok.inj h).symm
    · rintro rfl
      rfl
  | cons source rest ih =>
    have step : s.named (source :: rest) = (do
        let path ← Path.reported s.working s.sourceRoot source.1
        let others ← s.named rest
        return (path, source.2) :: others) := by
      rw [CompileSettings.named, mapM_cons, bind_assoc]
      rfl
    rw [step, forall₂_cons_left_iff]
    constructor
    · intro h
      obtain ⟨path, found, h⟩ := exists_of_bind_ok h
      obtain ⟨others, later, h⟩ := exists_of_bind_ok h
      cases h
      exact ⟨(path, source.2), others, ⟨found, rfl⟩, ih.mp later, rfl⟩
    · rintro ⟨⟨path, text⟩, others, ⟨found, rfl⟩, later, rfl⟩
      rw [found, ih.mpr later]
      rfl

theorem compileBatch_of {sources : Table String} (run : s.compileBatch sources = .ok results)
    : Forall₂ (fun source r => Path.reported s.working s.sourceRoot source.1 = .ok r.path)
        sources results
      ∧ ∀ r ∈ results, r.Of s r.path := by
  obtain ⟨named, reported, rest⟩ := exists_of_bind_ok run
  have compiled : Forall₂ (fun member r => r.Of s member.1) named results :=
    Except.ok.inj rest ▸ (s.sharing (Table.ofList named)).compileMembers_of named []
  have listed := named_iff.mp reported
  clear run reported rest
  induction listed generalizing results with
  | nil =>
    cases compiled
    exact ⟨.nil, nofun⟩
  | cons found _ ih =>
    cases compiled with
    | cons of rest =>
      obtain ⟨same, others⟩ := ih rest
      have place := of.1
      refine ⟨.cons (place ▸ found.1) same, forall_mem_cons.mpr ⟨?_, others⟩⟩
      exact place ▸ of

def moduleNames (results : List CompileResult) : List (List String) :=
  (results.filter (·.unit.isSome)).map fun r => Path.moduleParts r.path

theorem outputs_eq {o : Cli.Options} (of : ∀ r ∈ results, r.Of s r.path)
    (package : o.package = s.package)
    : (Cli.outputs o results).map Prod.fst
      = (moduleNames results ++ if o.index then [["builders"]] else []).map
          (Path.fileOf s.package) := by
  have files : (results.filterMap (·.unit)).map CompiledUnit.file
      = (moduleNames results).map (Path.fileOf s.package) := by
    induction results with
    | nil => rfl
    | cons r rest ih =>
      obtain ⟨first, others⟩ := forall_mem_cons.mp of
      cases unit : r.unit with
      | none => simpa [unit, moduleNames] using ih others
      | some u =>
        have file : u.file = Path.fileOf s.package (Path.moduleParts r.path) := by
          rw [CompiledUnit.file, first.2 u unit, Path.moduleFile_moduleName]
        simpa [unit, moduleNames, file] using ih others
  rw [Cli.outputs, map_append, map_append, ← files, map_map]
  congr 1
  split
  · rw [package, Path.moduleFile_indexModule]
    rfl
  · rfl

/-- The files of a batch are different exactly when the documents that have units become different
names, and none becomes that of the index if there is one.
-/
theorem outputs_distinct_iff {sources : Table String} {o : Cli.Options}
    (run : s.compileBatch sources = .ok results) (package : o.package = s.package)
    : List.Forall₂ (fun source r => Path.reported s.working s.sourceRoot source.1 = .ok r.path)
        sources results
      ∧ (((Cli.outputs o results).map Prod.fst).Nodup
        ↔ (moduleNames results).Nodup ∧ (o.index = true → ["builders"] ∉ moduleNames results)) := by
  obtain ⟨reported, of⟩ := compileBatch_of run
  have wordy : ∀ names ∈ moduleNames results ++ (if o.index then [["builders"]] else []),
      ∀ name ∈ names, Naming.Wordy name := by
    intro names member
    rcases List.mem_append.mp member with listed | index
    · obtain ⟨r, -, rfl⟩ := mem_map.mp listed
      exact Path.moduleParts_words
    · split at index
      · rw [mem_singleton.mp index]
        simp [Naming.Wordy]
        decide
      · cases index
  have distinct : ((Cli.outputs o results).map Prod.fst).Nodup
      ↔ (moduleNames results ++ if o.index then [["builders"]] else []).Nodup := by
    rw [outputs_eq of package]
    refine ⟨Nodup.of_map _, fun distinct => distinct.map_on fun names member names' there => ?_⟩
    exact (Path.fileOf_inj (wordy names member) (wordy names' there)).mp
  refine ⟨reported, distinct.trans ?_⟩
  cases o.index with
  | false => simp
  | true =>
    rw [if_pos rfl, nodup_append_comm, singleton_append, nodup_cons, and_comm]
    simp

/-- Two documents with names that become the same identifier. -/
def twinSources : Table String := [("a-b.fxml", "<ui.Box/>"), ("a_b.fxml", "<ui.Box/>")]

/-- Both are compiled, and one file is written over the other. -/
theorem twin_outputs
    : ∃ results,
        ({ types := boxTypes } : CompileSettings).compileBatch twinSources = .ok results
        ∧ results.map (·.path) = twinSources.keys
        ∧ moduleNames results = [["a_b"], ["a_b"]]
        ∧ ¬((Cli.outputs {} results).map Prod.fst).Nodup := by
  have shape : (({ types := boxTypes } : CompileSettings).compileBatch twinSources).toOption.map
      (fun results => (results.map (·.path), moduleNames results))
      = some (twinSources.keys, [["a_b"], ["a_b"]]) := by
    decide +kernel
  cases run : ({ types := boxTypes } : CompileSettings).compileBatch twinSources with
  | error e =>
    rw [run] at shape
    cases shape
  | ok results =>
    rw [run] at shape
    obtain ⟨paths, names⟩ := Prod.mk.inj (Option.some.inj shape)
    refine ⟨results, rfl, paths, names, fun distinct => ?_⟩
    have := ((outputs_distinct_iff run rfl).2.mp distinct).1
    rw [names] at this
    exact absurd this (by decide)

end CompileSettings

end Fxml
