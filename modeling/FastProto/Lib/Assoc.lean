import Mathlib.Data.List.Basic
import Mathlib.Data.List.Forall2
import Mathlib.Data.List.Induction

/-! # Association lists

Lists of key-value pairs kept in insertion order. `upsertBy eq` replaces the value of the first key
that `eq` identifies with the new one, or appends; `List.lookup` reads the first pair with a key. -/

namespace Lib

universe u v

variable {α : Type u} {β : Type v}

/-- Put a value under a key: an equal key keeps its place and its key, a new key goes last. -/
def upsertBy (eq : α → α → Bool) : List (α × β) → α → β → List (α × β)
  | [], key, value => [(key, value)]
  | (k, v) :: rest, key, value =>
      if eq k key then (k, value) :: rest else (k, v) :: upsertBy eq rest key value

/-! ## Keys that are told apart -/

/-- Pairs with other keys stay in front. -/
theorem upsertBy_append {eq : α → α → Bool} {l : List (α × β)} (r : List (α × β)) {key : α}
    (value : β) (h : ∀ p ∈ l, eq p.1 key = false) :
    upsertBy eq (l ++ r) key value = l ++ upsertBy eq r key value := by
  induction l with
  | nil => rfl
  | cons p l ih =>
      obtain ⟨k, v⟩ := p
      have hne : eq k key = false := h (k, v) (by simp)
      rw [List.cons_append, upsertBy, hne, if_neg (by decide), ih fun p hp => h p (by simp [hp])]
      rfl

/-- A new key goes last. -/
theorem upsertBy_of_new {eq : α → α → Bool} {l : List (α × β)} {key : α} (value : β)
    (h : ∀ p ∈ l, eq p.1 key = false) : upsertBy eq l key value = l ++ [(key, value)] := by
  have happ := upsertBy_append [] value h
  rwa [List.append_nil] at happ

/-- Lists with the same keys and related values stay so when related values are put under one key. -/
theorem forall₂_upsertBy {γ : Type v} {eq : α → α → Bool} {K : α → Prop} {V : β → γ → Prop}
    {l : List (α × β)} {l' : List (α × γ)}
    (h : List.Forall₂ (fun p p' => p.1 = p'.1 ∧ K p.1 ∧ V p.2 p'.2) l l') {key : α} {value : β}
    {value' : γ} (hkey : K key) (hvalue : V value value') :
    List.Forall₂ (fun p p' => p.1 = p'.1 ∧ K p.1 ∧ V p.2 p'.2) (upsertBy eq l key value)
      (upsertBy eq l' key value') := by
  induction h with
  | nil => exact .cons ⟨rfl, hkey, hvalue⟩ .nil
  | @cons p p' l l' hp hrest ih =>
      obtain ⟨k, v⟩ := p
      obtain ⟨k', v'⟩ := p'
      obtain ⟨rfl, hk, hv⟩ := hp
      rw [upsertBy, upsertBy]
      split
      · exact .cons ⟨rfl, hk, hvalue⟩ hrest
      · exact .cons ⟨rfl, hk, hv⟩ ih

/-- **Putting pairwise distinct keys one after the other appends them all.** -/
theorem foldl_upsertBy {eq : α → α → Bool} {l : List (α × β)} :
    ∀ acc : List (α × β), (acc ++ l).Pairwise (fun p q => eq p.1 q.1 = false) →
      l.foldl (fun acc p => upsertBy eq acc p.1 p.2) acc = acc ++ l := by
  induction l with
  | nil =>
      intro acc _
      rw [List.append_nil]
      rfl
  | cons p l ih =>
      intro acc h
      have hnew : ∀ q ∈ acc, eq q.1 p.1 = false := fun q hq =>
        (List.pairwise_append.mp h).2.2 q hq p (by simp)
      rw [List.foldl_cons, upsertBy_of_new p.2 hnew, ih _ (by rwa [List.append_assoc]),
        List.append_assoc]
      rfl

/-- A pair of the result is an old pair, or holds the new value under an old or the new key. -/
theorem mem_upsertBy {eq : α → α → Bool} {l : List (α × β)} {key : α} {value : β} {p : α × β}
    (h : p ∈ upsertBy eq l key value) :
    p ∈ l ∨ p.2 = value ∧ (p.1 = key ∨ ∃ v, (p.1, v) ∈ l) := by
  induction l with
  | nil =>
      rw [upsertBy, List.mem_singleton] at h
      subst h
      exact .inr ⟨rfl, .inl rfl⟩
  | cons q l ih =>
      obtain ⟨k, v⟩ := q
      rw [upsertBy] at h
      split at h
      · rcases List.mem_cons.mp h with rfl | h
        · exact .inr ⟨rfl, .inr ⟨v, by simp⟩⟩
        · exact .inl (by simp [h])
      · rcases List.mem_cons.mp h with rfl | h
        · exact .inl (by simp)
        · rcases ih h with h | ⟨hv, hk | ⟨v', hv'⟩⟩
          · exact .inl (by simp [h])
          · exact .inr ⟨hv, .inl hk⟩
          · exact .inr ⟨hv, .inr ⟨v', by simp [hv']⟩⟩

/-- Distinct keys stay distinct. -/
theorem pairwise_upsertBy {eq : α → α → Bool} {l : List (α × β)} {key : α} {value : β}
    (h : l.Pairwise fun p q => eq p.1 q.1 = false) :
    (upsertBy eq l key value).Pairwise fun p q => eq p.1 q.1 = false := by
  induction l with
  | nil => exact List.pairwise_singleton _ _
  | cons q l ih =>
      obtain ⟨k, v⟩ := q
      obtain ⟨hhead, htail⟩ := List.pairwise_cons.mp h
      rw [upsertBy]
      split
      · exact List.pairwise_cons.mpr ⟨hhead, htail⟩
      · rename_i hne
        refine List.pairwise_cons.mpr ⟨fun p hp => ?_, ih htail⟩
        rcases mem_upsertBy hp with hp | ⟨-, hk | ⟨v', hv'⟩⟩
        · exact hhead p hp
        · rw [hk]
          simpa using hne
        · exact hhead (p.1, v') hv'

/-- A pair with another key stays. -/
theorem mem_upsertBy_of_ne {eq : α → α → Bool} {l : List (α × β)} {key : α} {value : β}
    {p : α × β} (hp : p ∈ l) (hne : ¬ eq p.1 key = true) : p ∈ upsertBy eq l key value := by
  induction l with
  | nil => cases hp
  | cons q rest ih =>
      obtain ⟨k, v⟩ := q
      rw [upsertBy]
      rcases List.mem_cons.mp hp with rfl | hp
      · rw [if_neg hne]
        exact List.mem_cons_self
      · split
        · exact List.mem_cons_of_mem _ hp
        · exact List.mem_cons_of_mem _ (ih hp)

/-! ## Updating with a collected list

For an equality of keys that is symmetric and transitive (a key need not equal itself), updating
with pairs one by one is updating with what they collect to. -/

section Collect

variable {eq : α → α → Bool} (hsymm : ∀ a b, eq a b = true → eq b a = true)
  (htrans : ∀ a b c, eq a b = true → eq b c = true → eq a c = true)
include hsymm htrans

/-- The second of two values under equal keys stays. -/
theorem upsertBy_twice {key key' : α} (h : eq key key' = true) (value value' : β)
    (l : List (α × β)) :
    upsertBy eq (upsertBy eq l key value) key' value' = upsertBy eq l key value' := by
  induction l with
  | nil => rw [upsertBy, upsertBy, upsertBy, if_pos h]
  | cons p rest ih =>
      obtain ⟨k, v⟩ := p
      rw [upsertBy, upsertBy]
      by_cases hk : eq k key = true
      · rw [if_pos hk, if_pos hk, upsertBy, if_pos (htrans _ _ _ hk h)]
      · have hk' : ¬ eq k key' = true := fun h' => hk (htrans _ _ _ h' (hsymm _ _ h))
        rw [if_neg hk, if_neg hk, upsertBy, if_neg hk', ih]

/-- A key that is there already commutes with any other key. -/
theorem upsertBy_comm {key other : α} (hother : ¬ eq other key = true) (value value' : β)
    {l : List (α × β)} (hpresent : ∃ p ∈ l, eq p.1 key = true) :
    upsertBy eq (upsertBy eq l other value') key value
      = upsertBy eq (upsertBy eq l key value) other value' := by
  induction l with
  | nil =>
      obtain ⟨p, hp, -⟩ := hpresent
      cases hp
  | cons p rest ih =>
      obtain ⟨k, v⟩ := p
      by_cases hk : eq k key = true
      · have hko : ¬ eq k other = true := fun h => hother (htrans _ _ _ (hsymm _ _ h) hk)
        rw [upsertBy, if_neg hko, upsertBy, if_pos hk, upsertBy, if_pos hk, upsertBy, if_neg hko]
      · by_cases hko : eq k other = true
        · rw [upsertBy, if_pos hko, upsertBy, if_neg hk, upsertBy, if_neg hk, upsertBy, if_pos hko]
        · have hrest : ∃ p ∈ rest, eq p.1 key = true := by
            obtain ⟨p, hp, heq⟩ := hpresent
            rcases List.mem_cons.mp hp with rfl | hp
            · exact absurd heq hk
            · exact ⟨p, hp, heq⟩
          rw [upsertBy, if_neg hko, upsertBy, if_neg hk, upsertBy, if_neg hk, upsertBy, if_neg hko,
            ih hrest]

omit hsymm htrans in
/-- A key is there once it has been put. -/
theorem exists_mem_upsertBy {key key' : α} (h : eq key key' = true)
    (htrans' : ∀ a, eq a key = true → eq a key' = true) (value : β) (l : List (α × β)) :
    ∃ p ∈ upsertBy eq l key value, eq p.1 key' = true := by
  induction l with
  | nil => exact ⟨(key, value), by simp [upsertBy], h⟩
  | cons p rest ih =>
      obtain ⟨k, v⟩ := p
      rw [upsertBy]
      by_cases hk : eq k key = true
      · rw [if_pos hk]
        exact ⟨(k, value), List.mem_cons_self, htrans' k hk⟩
      · rw [if_neg hk]
        obtain ⟨p, hp, heq⟩ := ih
        exact ⟨p, List.mem_cons_of_mem _ hp, heq⟩

/-- A key that is there already can be put after pairs with other keys, or before them. -/
theorem foldl_upsertBy_comm {key : α} (value : β) {r : List (α × β)}
    (hother : ∀ p ∈ r, ¬ eq p.1 key = true) :
    ∀ {l : List (α × β)}, (∃ p ∈ l, eq p.1 key = true) →
      upsertBy eq (r.foldl (fun acc p => upsertBy eq acc p.1 p.2) l) key value
        = r.foldl (fun acc p => upsertBy eq acc p.1 p.2) (upsertBy eq l key value) := by
  induction r with
  | nil => exact fun _ => rfl
  | cons q r ih =>
      intro l hpresent
      have hq := hother q List.mem_cons_self
      have hstill : ∃ p ∈ upsertBy eq l q.1 q.2, eq p.1 key = true := by
        obtain ⟨p, hp, heq⟩ := hpresent
        have hne : ¬ eq p.1 q.1 = true := fun h => hq (htrans _ _ _ (hsymm _ _ h) heq)
        exact ⟨p, mem_upsertBy_of_ne hp hne, heq⟩
      rw [List.foldl_cons, List.foldl_cons, ih (fun p hp => hother p (List.mem_cons_of_mem q hp))
        hstill, upsertBy_comm hsymm htrans hq value q.2 hpresent]

/-- Putting a pair after a collected list is collecting it first. -/
theorem foldl_upsertBy_upsertBy (key : α) (value : β) {r : List (α × β)}
    (hr : r.Pairwise fun p q => eq p.1 q.1 = false) :
    ∀ l : List (α × β),
      (upsertBy eq r key value).foldl (fun acc p => upsertBy eq acc p.1 p.2) l
        = upsertBy eq (r.foldl (fun acc p => upsertBy eq acc p.1 p.2) l) key value := by
  induction r with
  | nil => exact fun l => rfl
  | cons q r ih =>
      intro l
      obtain ⟨k, v⟩ := q
      obtain ⟨hfirst, hrest⟩ := List.pairwise_cons.mp hr
      rw [upsertBy]
      by_cases hk : eq k key = true
      · have hother : ∀ p ∈ r, ¬ eq p.1 key = true := fun p hp h => by
          have hne := hfirst p hp
          rw [htrans _ _ _ hk (hsymm _ _ h)] at hne
          cases hne
        rw [if_pos hk, List.foldl_cons, List.foldl_cons,
          foldl_upsertBy_comm hsymm htrans value hother
            (exists_mem_upsertBy hk (fun a ha => htrans _ _ _ ha hk) v l),
          upsertBy_twice hsymm htrans hk]
      · rw [if_neg hk, List.foldl_cons, List.foldl_cons, ih hrest]

/-- **Updating with pairs one by one is updating with what they collect to.** -/
theorem foldl_upsertBy_collect (l r : List (α × β)) :
    (r.foldl (fun acc p => upsertBy eq acc p.1 p.2) []).foldl
        (fun acc p => upsertBy eq acc p.1 p.2) l
      = r.foldl (fun acc p => upsertBy eq acc p.1 p.2) l := by
  have hpairwise : ∀ (r acc : List (α × β)), (acc.Pairwise fun p q => eq p.1 q.1 = false) →
      (r.foldl (fun acc p => upsertBy eq acc p.1 p.2) acc).Pairwise
        fun p q => eq p.1 q.1 = false := by
    intro r
    induction r with
    | nil => exact fun acc h => h
    | cons q r ih => exact fun acc h => ih _ (pairwise_upsertBy h)
  induction r using List.reverseRecOn with
  | nil => rfl
  | append_singleton r q ih =>
      rw [List.foldl_append, List.foldl_append, List.foldl_cons, List.foldl_nil, List.foldl_cons,
        List.foldl_nil, foldl_upsertBy_upsertBy hsymm htrans q.1 q.2
          (hpairwise r [] List.Pairwise.nil), ih]

end Collect

/-! ## Looking keys up -/

section Lookup

variable [DecidableEq α]

/-- A value found under a key stands in the list with it. -/
theorem mem_of_lookup {l : List (α × β)} {k : α} {b : β} (h : l.lookup k = some b) :
    (k, b) ∈ l := by
  obtain ⟨l₁, l₂, rfl, -⟩ := List.lookup_eq_some_iff.mp h
  simp

/-- With distinct keys, a pair of the list is what a lookup finds. -/
theorem lookup_of_mem {l : List (α × β)} (hkeys : (l.map Prod.fst).Nodup) {k : α} {b : β}
    (h : (k, b) ∈ l) : l.lookup k = some b := by
  induction l with
  | nil => cases h
  | cons p l ih =>
      obtain ⟨hp, hl⟩ := List.nodup_cons.mp hkeys
      rcases List.mem_cons.mp h with rfl | h
      · exact List.lookup_cons_self
      · have hne : (k == p.1) = false := by
          rw [beq_eq_false_iff_ne]
          intro hk
          exact hp (List.mem_map.mpr ⟨(k, b), h, hk⟩)
        rw [List.lookup_cons, hne]
        exact ih hl h

/-- A key that no pair has is not found. -/
theorem lookup_of_not_mem {l : List (α × β)} {k : α} (h : k ∉ l.map Prod.fst) :
    l.lookup k = none := by
  rw [List.lookup_eq_none_iff]
  intro p hp
  rw [bne_iff_ne]
  rintro rfl
  exact h (List.mem_map_of_mem hp)

/-- Nothing is found exactly under the keys that no pair has. -/
theorem lookup_eq_none_iff_not_mem {l : List (α × β)} {k : α} :
    l.lookup k = none ↔ k ∉ l.map Prod.fst := by
  refine ⟨fun hnone hmem => ?_, lookup_of_not_mem⟩
  obtain ⟨p, hp, rfl⟩ := List.mem_map.mp hmem
  have hfree := List.lookup_eq_none_iff.mp hnone p hp
  simp at hfree

/-- **The last of some pairs is found** exactly when no later pair has its key, where later pairs
have other values. -/
theorem lookup_reverse_append {l r : List (α × β)} {k : α} {b : β} (hr : (k, b) ∉ r) :
    (l ++ (k, b) :: r).reverse.lookup k = some b ↔ k ∉ r.map Prod.fst := by
  rw [List.reverse_append, List.reverse_cons, List.append_assoc, List.lookup_append,
    ← lookup_eq_none_iff_not_mem (l := r)]
  have hreverse : r.reverse.lookup k = none ↔ r.lookup k = none := by
    rw [lookup_eq_none_iff_not_mem, lookup_eq_none_iff_not_mem, List.map_reverse,
      List.mem_reverse]
  rw [← hreverse]
  cases hfound : r.reverse.lookup k with
  | none => simp
  | some other =>
      have hne : other ≠ b := by
        rintro rfl
        exact hr (List.mem_reverse.mp (mem_of_lookup hfound))
      simp [hne]

/-- Looking up among mapped values is mapping what is found. -/
theorem lookup_map_snd {γ : Type*} (f : β → γ) (l : List (α × β)) (k : α) :
    (l.map fun p => (p.1, f p.2)).lookup k = (l.lookup k).map f := by
  induction l with
  | nil => rfl
  | cons p l ih =>
      rw [List.map_cons, List.lookup_cons, List.lookup_cons, ih]
      cases k == p.1 <;> rfl

/-- Putting a value under a key replaces what the key had, and nothing else. -/
theorem lookup_upsertBy {l : List (α × β)} {key : α} {value : β} (k : α) :
    (upsertBy (· == ·) l key value).lookup k = if k = key then some value else l.lookup k := by
  induction l with
  | nil =>
      rw [upsertBy, List.lookup_cons]
      by_cases hkey : k = key
      · simp [hkey]
      · have hne : (k == key) = false := by simpa using hkey
        simp [hkey, hne]
  | cons p l ih =>
      obtain ⟨k', v⟩ := p
      rw [upsertBy]
      by_cases hk : k' = key
      · rw [if_pos (by simpa using hk), List.lookup_cons, List.lookup_cons, hk]
        by_cases hkey : k = key
        · simp [hkey]
        · have hne : (k == key) = false := by simpa using hkey
          simp [hkey, hne]
      · rw [if_neg (by simpa using hk), List.lookup_cons, List.lookup_cons, ih]
        by_cases hkey : k = key
        · have hne : (key == k') = false := by simpa using fun h => hk h.symm
          simp [hkey, hne]
        · simp [hkey]

/-- Putting a value under a key leaves old pairs and the new one. -/
theorem eq_or_mem_of_mem_upsertBy {l : List (α × β)} {key : α} {value : β} {p : α × β}
    (h : p ∈ upsertBy (· == ·) l key value) : p ∈ l ∨ p = (key, value) := by
  induction l with
  | nil => exact .inr (List.mem_singleton.mp h)
  | cons q l ih =>
      obtain ⟨k, v⟩ := q
      rw [upsertBy] at h
      split at h
      · rename_i hk
        rcases List.mem_cons.mp h with rfl | h
        · exact .inr (by rw [eq_of_beq hk])
        · exact .inl (List.mem_cons_of_mem _ h)
      · rcases List.mem_cons.mp h with rfl | h
        · exact .inl List.mem_cons_self
        · exact (ih h).imp_left (List.mem_cons_of_mem _)

/-- Distinct keys put one after the other into the empty list are the list itself. -/
theorem foldl_upsert_nodup {l : List (α × β)} (hkeys : (l.map Prod.fst).Nodup) :
    l.foldl (fun acc p => upsertBy (· == ·) acc p.1 p.2) [] = l := by
  rw [foldl_upsertBy []]
  · rfl
  · rw [List.nil_append]
    rw [List.Nodup, List.pairwise_map] at hkeys
    exact hkeys.imp fun h => by simpa using h

end Lookup

end Lib
