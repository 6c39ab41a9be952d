import Mathlib.Data.List.Forall2

/-! Computations that may fail: what a success says of its parts. -/

open List

namespace Fxml

variable {ε α β : Type} {x : Except ε α} {f : α → Except ε β} {b : β} {items : List α}
  {results : List β} {e : ε}

theorem exists_of_bind_ok (h : (x >>= f) = .ok b) : ∃ a, x = .ok a ∧ f a = .ok b := by
  cases x with
  | error e => cases h
  | ok a => exact ⟨a, rfl, h⟩

theorem error_of_bind (h : (x >>= f) = .error e)
    : x = .error e ∨ ∃ a, x = .ok a ∧ f a = .error e := by
  cases x with
  | error e' =>
    cases h
    exact .inl rfl
  | ok a => exact .inr ⟨a, rfl, h⟩

theorem exists_of_map_ok {f : α → β} (h : x.map f = .ok b) : ∃ a, x = .ok a ∧ f a = b := by
  cases x with
  | error e => cases h
  | ok a =>
    cases h
    exact ⟨a, rfl, rfl⟩

theorem ok_of_toOption {a : α} (h : x.toOption = some a) : x = .ok a := by
  cases x with
  | error e => cases h
  | ok a =>
    cases h
    rfl

theorem exists_of_isOk (h : x.isOk = true) : ∃ a, x = .ok a := by
  cases x with
  | error e => cases h
  | ok a => exact ⟨a, rfl⟩

theorem forall₂_of_mapM_ok (h : items.mapM f = .ok results)
    : Forall₂ (fun a b => f a = .ok b) items results := by
  induction items generalizing results with
  | nil =>
    cases h
    exact .nil
  | cons a rest ih =>
    rw [mapM_cons] at h
    obtain ⟨b, first, h⟩ := exists_of_bind_ok h
    obtain ⟨bs, others, h⟩ := exists_of_bind_ok h
    cases h
    exact .cons first (ih others)

/-- What comes out of a list comes from its items. -/
theorem mem_of_mapM_ok (h : items.mapM f = .ok results)
    : ∀ result ∈ results, ∃ item ∈ items, f item = .ok result := by
  have each := forall₂_of_mapM_ok h
  clear h
  induction each with
  | nil => nofun
  | cons first _ ih =>
    intro result member
    rcases mem_cons.mp member with rfl | member
    · exact ⟨_, mem_cons_self, first⟩
    · obtain ⟨item, there, same⟩ := ih result member
      exact ⟨item, mem_cons_of_mem _ there, same⟩

/-- Where a list cannot be gone through, one of its items fails. -/
theorem exists_of_mapM_error (h : items.mapM f = .error e)
    : ∃ item ∈ items, f item = .error e := by
  induction items with
  | nil => cases h
  | cons a rest ih =>
    rw [mapM_cons] at h
    rcases error_of_bind h with here | ⟨b, _, h⟩
    · exact ⟨a, mem_cons_self, here⟩
    · rcases error_of_bind h with later | ⟨_, _, h⟩
      · obtain ⟨item, there, fails⟩ := ih later
        exact ⟨item, mem_cons_of_mem _ there, fails⟩
      · cases h

/-- What every step of a fold keeps, as it goes on in the list, holds in the end. -/
theorem of_foldlM_ok {motive : List α → β → Prop} {f : β → α → Except ε β}
    (step : ∀ {done b a b'}, motive done b → f b a = .ok b' → motive (done ++ [a]) b')
    (done : List α) {last : β} (start : motive done b) (h : items.foldlM f b = .ok last)
    : motive (done ++ items) last := by
  induction items generalizing done b with
  | nil =>
    cases h
    rwa [append_nil]
  | cons a rest ih =>
    rw [foldlM_cons] at h
    obtain ⟨next, first, h⟩ := exists_of_bind_ok h
    rw [append_cons]
    exact ih _ (step start first) h

end Fxml
