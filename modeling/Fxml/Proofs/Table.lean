import Fxml.Table

/-! Tables as sets of entries: what is found, what putting an entry changes, and what stays. -/

open List

namespace Fxml.Table

variable {α : Type} {t : Table α} {value : α} {entries : List (String × α)} {name other : String}

theorem keys_eq (t : Table α) : t.keys = t.map Prod.fst := rfl

theorem mem_keys : name ∈ t.keys ↔ ∃ value, (name, value) ∈ t := by
  simp [keys_eq]

theorem mem_keys_of_mem (h : (name, value) ∈ t) : name ∈ t.keys :=
  mem_keys.mpr ⟨value, h⟩

theorem lookup_cons {κ : Type} [DecidableEq κ] (t : List (κ × α)) (key other : κ) (value : α)
    : List.lookup other ((key, value) :: t)
      = if other = key then some value else List.lookup other t := by
  rw [List.lookup_cons]
  by_cases same : other = key
  · simp [same]
  · simp [same, beq_eq_false_iff_ne.mpr same]

theorem get?_cons (t : Table α) (key other : String) (value : α)
    : get? ((key, value) :: t) other = if other = key then some value else t.get? other :=
  lookup_cons t key other value

@[simp] theorem keys_cons (t : Table α) (key : String) (value : α)
    : keys ((key, value) :: t) = key :: t.keys :=
  rfl

theorem mem_of_get? (h : t.get? name = some value) : (name, value) ∈ t := by
  induction t with
  | nil => cases h
  | cons entry rest ih =>
    obtain ⟨key, first⟩ := entry
    rw [get?_cons] at h
    split at h
    · rename_i same
      cases h
      rw [same]
      exact mem_cons_self
    · exact mem_cons_of_mem _ (ih h)

theorem get?_isSome_iff : (t.get? name).isSome = true ↔ name ∈ t.keys := by
  induction t with
  | nil => exact iff_of_false Bool.false_ne_true not_mem_nil
  | cons entry rest ih =>
    obtain ⟨key, first⟩ := entry
    rw [get?_cons, keys_cons, mem_cons]
    split
    · rename_i same
      simp [same]
    · rename_i different
      rw [ih]
      simp [different]

theorem contains_iff : t.contains name = true ↔ name ∈ t.keys :=
  get?_isSome_iff

theorem get?_eq_none_iff : t.get? name = none ↔ name ∉ t.keys := by
  rw [← get?_isSome_iff]
  simp

theorem exists_get? (h : name ∈ t.keys) : ∃ value, t.get? name = some value :=
  Option.isSome_iff_exists.mp (get?_isSome_iff.mpr h)

theorem get?_of_mem (unique : t.keys.Nodup) (h : (name, value) ∈ t) : t.get? name = some value := by
  induction t with
  | nil => cases h
  | cons entry rest ih =>
    obtain ⟨key, first⟩ := entry
    obtain ⟨absent, unique⟩ := nodup_cons.mp unique
    rcases mem_cons.mp h with same | later
    · cases same
      rw [get?_cons, if_pos rfl]
    · have different : name ≠ key := fun same => absent (same ▸ mem_keys_of_mem later)
      rw [get?_cons, if_neg different]
      exact ih unique later

theorem eq_of_mem (unique : t.keys.Nodup) {other : α} (here : (name, value) ∈ t)
    (there : (name, other) ∈ t)
    : value = other := by
  have found := get?_of_mem unique here
  rw [get?_of_mem unique there] at found
  exact (Option.some.inj found).symm

theorem get?_map_filter {β : Type} (unique : t.keys.Nodup) {keep : String × α → Bool} {f : α → β}
    {value : β}
    : Table.get? ((t.filter keep).map fun (key, entry) => (key, f entry)) name = some value
      ↔ ∃ entry, t.get? name = some entry ∧ keep (name, entry) = true ∧ f entry = value := by
  have keys : Table.keys ((t.filter keep).map fun (key, entry) => (key, f entry))
      = Table.keys (t.filter keep) := by
    simp [keys_eq, Function.comp_def]
  constructor
  · intro found
    obtain ⟨⟨key, entry⟩, member, same⟩ := mem_map.mp (mem_of_get? found)
    cases same
    obtain ⟨there, kept⟩ := mem_filter.mp member
    exact ⟨entry, get?_of_mem unique there, kept, rfl⟩
  · rintro ⟨entry, found, kept, rfl⟩
    refine get?_of_mem ?_ (mem_map.mpr
      ⟨(name, entry), mem_filter.mpr ⟨mem_of_get? found, kept⟩, rfl⟩)
    rw [keys]
    exact unique.sublist (filter_sublist.map _)

/-! ### Putting an entry -/

theorem mem_put {found : α}
    : (other, found) ∈ t.put name value
      ↔ other = name ∧ found = value ∨ other ≠ name ∧ (other, found) ∈ t := by
  unfold put
  split
  · rename_i there
    obtain ⟨old, before⟩ := mem_keys.mp (contains_iff.mp there)
    simp only [mem_map, Prod.exists]
    constructor
    · rintro ⟨key, first, member, entry⟩
      split at entry
      · rename_i same
        cases entry
        exact .inl ⟨beq_iff_eq.mp same, rfl⟩
      · rename_i different
        cases entry
        exact .inr ⟨fun same => different (beq_iff_eq.mpr same), member⟩
    · rintro (⟨rfl, rfl⟩ | ⟨different, member⟩)
      · exact ⟨other, old, before, by simp⟩
      · exact ⟨other, found, member, by simp [different]⟩
  · rename_i absent
    have fresh : ∀ entry : α, (name, entry) ∉ t :=
      fun entry member => absent (contains_iff.mpr (mem_keys_of_mem member))
    simp only [mem_append, mem_singleton, Prod.mk.injEq]
    constructor
    · rintro (old | new)
      · exact .inr ⟨fun same => fresh found (same ▸ old), old⟩
      · exact .inl new
    · rintro (new | ⟨_, old⟩)
      · exact .inr new
      · exact .inl old

theorem mem_keys_put : other ∈ (t.put name value).keys ↔ other = name ∨ other ∈ t.keys := by
  simp only [mem_keys, mem_put]
  constructor
  · rintro ⟨found, ⟨same, _⟩ | ⟨_, old⟩⟩
    · exact .inl same
    · exact .inr ⟨found, old⟩
  · rintro (rfl | ⟨found, old⟩)
    · exact ⟨value, .inl ⟨rfl, rfl⟩⟩
    · by_cases same : other = name
      · exact ⟨value, .inl ⟨same, rfl⟩⟩
      · exact ⟨found, .inr ⟨same, old⟩⟩

/-- A name that is there keeps its place, and a new one comes last. -/
theorem keys_put (t : Table α) (name : String) (value : α)
    : (t.put name value).keys = if t.contains name then t.keys else t.keys ++ [name] := by
  unfold put
  split
  · simp only [keys_eq, map_map]
    refine map_congr_left fun entry _ => ?_
    obtain ⟨key, found⟩ := entry
    simp only [Function.comp_apply]
    split <;> rfl
  · simp [keys_eq]

theorem nodup_put (unique : t.keys.Nodup) (name : String) (value : α)
    : (t.put name value).keys.Nodup := by
  rw [keys_put]
  split
  · exact unique
  · rename_i absent
    refine nodup_append.mpr ⟨unique, by simp, ?_⟩
    intro a ha b hb same
    exact absent (contains_iff.mpr (mem_singleton.mp hb ▸ same ▸ ha))

theorem lookup_overwrite (t : Table α) (name other : String) (value : α)
    : lookup other (t.map fun (k, v) => if k == name then (k, value) else (k, v))
      = if other = name then (t.lookup other).map fun _ => value else t.lookup other := by
  induction t with
  | nil => simp
  | cons entry rest ih =>
    obtain ⟨key, first⟩ := entry
    rw [map_cons, lookup_cons rest key other first]
    by_cases here : key = name
    · simp only [here, beq_self_eq_true, if_true, lookup_cons, ih]
      by_cases same : other = name <;> simp [same]
    · simp only [beq_eq_false_iff_ne.mpr here, Bool.false_eq_true, if_false, lookup_cons, ih]
      by_cases same : other = key <;> simp [same, here]

theorem get?_put
    : (t.put name value).get? other = if other = name then some value else t.get? other := by
  unfold put
  split
  · rename_i there
    refine (lookup_overwrite t name other value).trans ?_
    split
    · rename_i same
      obtain ⟨old, found⟩ := exists_get? (contains_iff.mp there)
      rw [same, show t.lookup name = some old from found]
      rfl
    · rfl
  · rename_i absent
    have none_found : t.lookup name = none := get?_eq_none_iff.mpr (mt contains_iff.mpr absent)
    refine lookup_append.trans ?_
    split
    · rename_i same
      simp [same, none_found]
    · rename_i different
      simp [lookup_cons, different, show t.lookup other = t.get? other from rfl]

/-- A list of entries becomes a table with the same keys, whose entries are all from the list. -/
theorem mem_foldl_put (entries : List (String × α)) (t : Table α)
    : (∀ name value, (name, value) ∈ entries.foldl (fun t (k, v) => t.put k v) t
        → (name, value) ∈ entries ∨ (name, value) ∈ t)
      ∧ ∀ name, name ∈ t.keys ∨ (∃ value, (name, value) ∈ entries)
        → name ∈ Table.keys (entries.foldl (fun t (k, v) => t.put k v) t) := by
  induction entries generalizing t with
  | nil => exact ⟨fun _ _ => .inr, fun _ h => h.elim id fun ⟨_, member⟩ => nomatch member⟩
  | cons entry rest ih =>
    obtain ⟨key, added⟩ := entry
    obtain ⟨sound, complete⟩ := ih (t.put key added)
    refine ⟨fun name value member => ?_, fun name h => complete name ?_⟩
    · rcases sound name value member with later | here
      · exact .inl (mem_cons_of_mem _ later)
      · rcases mem_put.mp here with ⟨rfl, rfl⟩ | ⟨_, old⟩
        · exact .inl mem_cons_self
        · exact .inr old
    · rcases h with old | ⟨value, member⟩
      · exact .inl (mem_keys_put.mpr (.inr old))
      · rcases mem_cons.mp member with same | later
        · exact .inl (mem_keys_put.mpr (.inl (Prod.mk.inj same).1))
        · exact .inr ⟨value, later⟩

theorem mem_keys_ofList : name ∈ (ofList entries).keys ↔ ∃ value, (name, value) ∈ entries := by
  obtain ⟨sound, complete⟩ := mem_foldl_put entries []
  constructor
  · intro member
    obtain ⟨value, held⟩ := mem_keys.mp member
    exact ⟨value, (sound name value held).resolve_right nofun⟩
  · intro listed
    exact complete name (.inr listed)

theorem nodup_ofList (entries : List (String × α)) : (ofList entries).keys.Nodup := by
  refine foldlRecOn entries _ (motive := fun t => Table.keys t |>.Nodup) nodup_nil ?_
  exact fun t unique entry _ => nodup_put unique entry.1 entry.2

theorem length_ofList_perm {entries' : List (String × α)} (perm : entries'.Perm entries)
    : (ofList entries').length = (ofList entries).length := by
  have keys : (ofList entries').keys.Perm (ofList entries).keys := by
    refine (perm_ext_iff_of_nodup (nodup_ofList _) (nodup_ofList _)).mpr fun name => ?_
    rw [mem_keys_ofList, mem_keys_ofList]
    exact exists_congr fun value => perm.mem_iff
  simpa only [keys_eq, length_map] using keys.length_eq

/-- Where entries agree with a function of their keys, so does the table of them. -/
theorem get?_ofList {f : String → Option α}
    (agree : ∀ name value, (name, value) ∈ entries → f name = some value)
    (listed : ∀ value, f name = some value → (name, value) ∈ entries)
    : (ofList entries).get? name = f name := by
  obtain ⟨sound, complete⟩ := mem_foldl_put entries []
  cases given : f name with
  | none =>
    refine get?_eq_none_iff.mpr fun member => ?_
    obtain ⟨value, there⟩ := mem_keys.mp member
    have same := agree name value ((sound name value there).resolve_right nofun)
    exact nomatch given.symm.trans same
  | some value =>
    obtain ⟨found, same⟩ := exists_get? (complete name (.inr ⟨value, listed value given⟩))
    have agrees := agree name found ((sound name found (mem_of_get? same)).resolve_right nofun)
    exact same.trans (agrees.symm.trans given)

end Fxml.Table
