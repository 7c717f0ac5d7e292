import Mathlib.Order.Lattice
import Mathlib.Data.List.Basic
import Mathlib.Data.List.Pairwise

/-! # Binary search

`binarySearch` halves an interval that contains the element looked for, if there is one. In a list
whose keys increase strictly it finds what a scan finds. -/

namespace Lib

universe u v

variable {α : Type u} {κ : Type v} [LinearOrder κ] (key : α → κ)

/-- Halve the interval of `size` elements from `base` on, until one is left. -/
def narrow (l : List α) (k : κ) : Nat → Nat → Nat → Nat
  | 0, base, _ => base
  | fuel + 1, base, size =>
      if 1 < size then
        let half := size / 2
        let base :=
          match l[base + half]? with
          | some a => if k < key a then base else base + half
          | none => base
        narrow l k fuel base (size - half)
      else base

/-- The position of an element with the key. -/
def binarySearch (l : List α) (k : κ) : Option Nat :=
  let base := narrow key l k l.length 0 l.length
  match l[base]? with
  | some a => if key a = k then some base else none
  | none => none

variable {key} {l : List α} {k : κ}

/-- **The interval closes in on the element with the key.** -/
theorem narrow_eq (hsorted : l.Pairwise fun a b => key a < key b) {j : Nat} {b : α}
    (hj : l[j]? = some b) (hkey : key b = k) :
    ∀ fuel base size, size ≤ fuel + 1 → base ≤ j → j < base + size → base + size ≤ l.length →
      narrow key l k fuel base size = j := by
  have hlt : ∀ {i i' : Nat} {a a' : α}, l[i]? = some a → l[i']? = some a' → i < i' →
      key a < key a' := by
    intro i i' a a' hi hi' hii
    obtain ⟨hbound, rfl⟩ := List.getElem?_eq_some_iff.mp hi
    obtain ⟨hbound', rfl⟩ := List.getElem?_eq_some_iff.mp hi'
    exact List.pairwise_iff_getElem.mp hsorted i i' hbound hbound' hii
  intro fuel
  induction fuel with
  | zero =>
      intro base size hsize hbase hup _
      rw [narrow]
      omega
  | succ fuel ih =>
      intro base size hsize hbase hup hlen
      rw [narrow]
      split
      · have hmid : base + size / 2 < l.length := by omega
        obtain ⟨a, hget⟩ : ∃ a, l[base + size / 2]? = some a := ⟨_, List.getElem?_eq_getElem hmid⟩
        dsimp only
        rw [hget]
        dsimp only
        split
        · -- the element lies before the middle
          rename_i hbefore
          have : j < base + size / 2 := by
            by_contra hge
            rcases Nat.eq_or_lt_of_le (Nat.le_of_not_lt hge) with heq | hgt
            · rw [heq, hj, Option.some.injEq] at hget
              rw [← hget, hkey] at hbefore
              exact lt_irrefl k hbefore
            · have := hlt hget hj hgt
              rw [hkey] at this
              exact lt_asymm hbefore this
          exact ih base (size - size / 2) (by omega) hbase (by omega) (by omega)
        · rename_i hafter
          have : base + size / 2 ≤ j := by
            by_contra hgt
            have := hlt hj hget (Nat.lt_of_not_le hgt)
            rw [hkey] at this
            exact hafter this
          exact ih (base + size / 2) (size - size / 2) (by omega) this (by omega) (by omega)
      · omega

/-- **Binary search finds what a scan finds**, where the keys increase strictly. -/
theorem binarySearch_eq_find (hsorted : l.Pairwise fun a b => key a < key b) (k : κ) :
    (binarySearch key l k).bind (fun i => l[i]?) = l.find? fun a => decide (key a = k) := by
  unfold binarySearch
  dsimp only
  cases hfind : l.find? fun a => decide (key a = k) with
  | none =>
      split
      · rename_i a ha
        have hne := List.find?_eq_none.mp hfind a (List.mem_of_getElem? ha)
        rw [if_neg (by simpa using hne)]
        rfl
      · rfl
  | some b =>
      have hkey : key b = k := by simpa using List.find?_some hfind
      obtain ⟨j, hj⟩ := List.mem_iff_getElem?.mp (List.mem_of_find?_eq_some hfind)
      have hjlt : j < l.length := (List.getElem?_eq_some_iff.mp hj).1
      rw [narrow_eq hsorted hj hkey l.length 0 l.length (by omega) (by omega) (by omega) (by omega),
        hj]
      dsimp only
      rw [if_pos hkey, Option.bind_some, hj]

end Lib
