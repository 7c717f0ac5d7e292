import Mathlib.Data.List.Forall2

/-! # Rows laid end to end

What a filter finds in lists laid end to end, when it looks for the elements of one of them; and what
the elements of two lists that correspond have in common. -/

namespace Lib

universe u v

variable {α : Type u} {β : Type v}

/-- **A filter that rejects all rows but one** finds in the rows laid end to end what it finds in
that one. -/
theorem filterMap_flatten_of_index {p : α → Option β} {rows : List (List α)} :
    ∀ {i : Nat} {row : List α}, rows[i]? = some row →
      (∀ (k : Nat) (other : List α), k ≠ i → rows[k]? = some other → ∀ a ∈ other, p a = none) →
      rows.flatten.filterMap p = row.filterMap p := by
  have hnone : ∀ l : List α, (∀ a ∈ l, p a = none) → l.filterMap p = [] := fun l h =>
    List.filterMap_eq_nil_iff.mpr h
  induction rows with
  | nil => intro i row hi; cases hi
  | cons first rows ih =>
      intro i row hi hother
      rw [List.flatten_cons, List.filterMap_append]
      cases i with
      | zero =>
          cases hi
          rw [hnone rows.flatten, List.append_nil]
          intro a ha
          obtain ⟨other, hmem, ha⟩ := List.mem_flatten.mp ha
          obtain ⟨k, hk⟩ := List.mem_iff_getElem?.mp hmem
          exact hother (k + 1) other (by omega) hk a ha
      | succ i =>
          rw [hnone first fun a ha => hother 0 first (by omega) rfl a ha, List.nil_append]
          exact ih hi fun k other hne hk => hother (k + 1) other (by omega) hk

/-- Dropping what a filter rejects anyway changes nothing. -/
theorem filterMap_filter_of_some {p : α → Option β} {keep : α → Bool} {l : List α}
    (h : ∀ a ∈ l, ∀ b, p a = some b → keep a = true) :
    (l.filter keep).filterMap p = l.filterMap p := by
  induction l with
  | nil => rfl
  | cons a l ih =>
      have ih := ih fun a ha => h a (List.mem_cons_of_mem _ ha)
      by_cases hkeep : keep a = true
      · rw [List.filter_cons_of_pos hkeep, List.filterMap_cons, List.filterMap_cons, ih]
      · rw [List.filter_cons_of_neg hkeep, ih]
        cases hp : p a with
        | none => rw [List.filterMap_cons_none hp]
        | some b => exact absurd (h a List.mem_cons_self b hp) hkeep

/-- Dropping all that a filter finds leaves it nothing. -/
theorem filterMap_filter_of_none {p : α → Option β} {keep : α → Bool} {l : List α}
    (h : ∀ a ∈ l, ∀ b, p a = some b → keep a = false) : (l.filter keep).filterMap p = [] := by
  rw [List.filterMap_eq_nil_iff]
  intro a ha
  obtain ⟨hmem, hkeep⟩ := List.mem_filter.mp ha
  cases hp : p a with
  | none => rfl
  | some b => exact absurd hkeep (by simp [h a hmem b hp])

/-- Corresponding lists have corresponding elements. -/
theorem forall₂_getElem? {R : α → β → Prop} {l : List α} {l' : List β} (h : List.Forall₂ R l l')
    {i : Nat} {a : α} {b : β} (ha : l[i]? = some a) (hb : l'[i]? = some b) : R a b := by
  obtain ⟨hi, rfl⟩ := List.getElem?_eq_some_iff.mp ha
  obtain ⟨hi', rfl⟩ := List.getElem?_eq_some_iff.mp hb
  exact (List.forall₂_iff_get.mp h).2 i hi hi'

/-- Corresponding lists end alike. -/
theorem rel_getLast? {R : α → β → Prop} {l : List α} {l' : List β} (h : List.Forall₂ R l l') :
    Option.Rel R l.getLast? l'.getLast? := by
  induction h with
  | nil => exact .none
  | @cons a b l l' hab hrest ih =>
      cases hrest with
      | nil => exact .some hab
      | cons _ _ => rwa [List.getLast?_cons_cons, List.getLast?_cons_cons]

/-- A relation on what a total partial function yields is one on its arguments. -/
theorem forall₂_of_filterMap {α β γ : Type*} {g : α → Option β} {R : β → γ → Prop} {l : List α}
    {l' : List γ} (hg : ∀ a ∈ l, ∃ b, g a = some b) (h : List.Forall₂ R (l.filterMap g) l') :
    List.Forall₂ (fun a c => ∃ b, g a = some b ∧ R b c) l l' := by
  induction l generalizing l' with
  | nil =>
      cases h
      exact .nil
  | cons a l ih =>
      obtain ⟨b, hb⟩ := hg a List.mem_cons_self
      rw [List.filterMap_cons_some hb] at h
      cases h with
      | cons hr hrest =>
          exact .cons ⟨b, hb, hr⟩ (ih (fun a ha => hg a (List.mem_cons_of_mem _ ha)) hrest)

end Lib
