import FastProto.Lib.Fallible

/-! # Computations cut off by a limit

A recursion with a limit either does what it does without one or fails with the error of the limit.
`CutOff e p x y` says which: `x` is `y` where `p` fails and the error `e` where it holds. The rules
follow a computation that succeeds without the limit through its parts. -/

namespace Lib

universe u

variable {ε α γ σ : Type u} {e : ε} {p q : Prop}

/-- **`x` is `y` cut off by `e` where `p` holds.** -/
structure CutOff (e : ε) (p : Prop) (x y : Except ε α) : Prop where
  cut : p → x = .error e
  same : ¬ p → x = y

namespace CutOff

/-- A computation that does not recurse is never cut off. -/
theorem refl (x : Except ε α) : CutOff e False x x := ⟨False.elim, fun _ => rfl⟩

/-- The condition may be any equivalent one. -/
theorem congr {x y : Except ε α} (h : CutOff e p x y) (hpq : p ↔ q) : CutOff e q x y :=
  ⟨fun hq => h.cut (hpq.mpr hq), fun hq => h.same fun hp => hq (hpq.mp hp)⟩

/-- **The error says that the computation was cut off**, when it succeeds without the limit. -/
theorem eq_error_iff {x y : Except ε α} (h : CutOff e p x y) {a : α} (hy : y = .ok a) :
    x = .error e ↔ p := by
  refine ⟨fun hx => ?_, h.cut⟩
  by_contra hp
  rw [h.same hp, hy] at hx
  cases hx

/-- What succeeds was not cut off. -/
theorem not_of_ok {x y : Except ε α} (h : CutOff e p x y) {a : α} (hx : x = .ok a) : ¬ p := by
  intro hp
  rw [h.cut hp] at hx
  cases hx

/-- A bound computation is cut off in one of its parts. -/
theorem bind {x y : Except ε α} {f g : α → Except ε γ} {a : α} (hy : y = .ok a)
    (h : CutOff e p x y) (hf : CutOff e q (f a) (g a)) : CutOff e (p ∨ q) (x >>= f) (y >>= g) := by
  constructor
  · intro hpq
    by_cases hp : p
    · rw [h.cut hp, error_bind]
    · rw [h.same hp, hy, ok_bind]
      exact hf.cut (hpq.resolve_left hp)
  · intro hpq
    rw [h.same fun hp => hpq (.inl hp), hy, ok_bind, ok_bind]
    exact hf.same fun hq => hpq (.inr hq)

/-- What follows a computation that is cut off is not reached. -/
theorem bind_same {x y : Except ε α} (h : CutOff e p x y) (f : α → Except ε γ) :
    CutOff e p (x >>= f) (y >>= f) := by
  constructor
  · intro hp
    rw [h.cut hp, error_bind]
  · intro hp
    rw [h.same hp]

/-- What precedes a computation that is cut off runs as it does. -/
theorem after {x : Except ε α} {f g : α → Except ε γ} {a : α} (hx : x = .ok a)
    (h : CutOff e p (f a) (g a)) : CutOff e p (x >>= f) (x >>= g) := by
  rw [hx, ok_bind, ok_bind]
  exact h

/-- **A traversal is cut off at one of its elements.** -/
theorem mapM {f g : α → Except ε γ} {p : α → Prop} {l : List α} {bs : List γ}
    (hg : l.mapM g = .ok bs) (h : ∀ a ∈ l, ∀ b, g a = .ok b → CutOff e (p a) (f a) (g a)) :
    CutOff e (∃ a ∈ l, p a) (l.mapM f) (l.mapM g) := by
  induction l generalizing bs with
  | nil => exact (CutOff.refl _).congr ⟨False.elim, fun ⟨a, ha, _⟩ => nomatch ha⟩
  | cons a l ih =>
      rw [List.mapM_cons] at hg
      obtain ⟨b, hb, hrest⟩ := bind_eq_ok.mp hg
      obtain ⟨bs', hbs, -⟩ := bind_eq_ok.mp hrest
      rw [List.mapM_cons, List.mapM_cons]
      have htail := (ih hbs fun a ha => h a (List.mem_cons_of_mem _ ha)).bind_same
        fun bs => (pure (b :: bs) : Except ε (List γ))
      exact ((h a (List.mem_cons_self ..) b hb).bind hb htail).congr
        (List.exists_mem_cons_iff p a l).symm

/-- **A loop is cut off at one of its elements.** -/
theorem foldlM {f g : σ → α → Except ε σ} {p : α → Prop} {l : List α} {s t : σ}
    (hg : l.foldlM g s = .ok t)
    (h : ∀ a ∈ l, ∀ s s', g s a = .ok s' → CutOff e (p a) (f s a) (g s a)) :
    CutOff e (∃ a ∈ l, p a) (l.foldlM f s) (l.foldlM g s) := by
  induction l generalizing s with
  | nil => exact (CutOff.refl _).congr ⟨False.elim, fun ⟨a, ha, _⟩ => nomatch ha⟩
  | cons a l ih =>
      rw [List.foldlM_cons] at hg
      obtain ⟨s', hs', hrest⟩ := bind_eq_ok.mp hg
      rw [List.foldlM_cons, List.foldlM_cons]
      have htail := ih hrest fun a ha => h a (List.mem_cons_of_mem _ ha)
      exact ((h a (List.mem_cons_self ..) s s' hs').bind hs' htail).congr
        (List.exists_mem_cons_iff p a l).symm

end CutOff

end Lib
