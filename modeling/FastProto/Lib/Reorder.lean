import FastProto.Lib.Fallible

/-! # Reorderings that keep each key in order

A list is a reordering of another when the items of every key stand in the same order. A fold whose
steps commute for different keys does not see such a reordering, except in which error it ends with. -/

namespace Lib

universe u

variable {ε α κ σ τ : Type u}

/-! ## Results up to errors -/

/-- Two results that succeed alike. -/
def SameOk (x y : Except ε α) : Prop := ∀ a, x = .ok a ↔ y = .ok a

theorem SameOk.refl (x : Except ε α) : SameOk x x := fun _ => Iff.rfl

theorem SameOk.symm {x y : Except ε α} (h : SameOk x y) : SameOk y x := fun a => (h a).symm

theorem SameOk.trans {x y z : Except ε α} (hxy : SameOk x y) (hyz : SameOk y z) : SameOk x z :=
  fun a => (hxy a).trans (hyz a)

/-- Continuing results that succeed alike. -/
theorem SameOk.bind {x y : Except ε α} {f g : α → Except ε τ} (h : SameOk x y)
    (hfg : ∀ a, SameOk (f a) (g a)) : SameOk (x >>= f) (y >>= g) := by
  intro b
  rw [bind_eq_ok, bind_eq_ok]
  exact exists_congr fun a => and_congr (h a) (hfg a b)

/-! ## Folds -/

variable {step : σ → α → Except ε σ}

/-- A fold over items that act alike. -/
theorem foldlM_sameOk {R : α → α → Prop} (h : ∀ a b, R a b → ∀ s, SameOk (step s a) (step s b))
    {xs ys : List α} (hxs : List.Forall₂ R xs ys) :
    ∀ s, SameOk (xs.foldlM step s) (ys.foldlM step s) := by
  induction hxs with
  | nil => exact fun s => .refl _
  | cons hab _ ih =>
      intro s
      rw [List.foldlM_cons, List.foldlM_cons]
      exact (h _ _ hab s).bind ih

/-- **What an item does does not depend on the state**: it fails everywhere, or it applies one of the
functions of `P`. -/
def Acts (step : σ → α → Except ε σ) (a : α) (P : (σ → σ) → Prop) : Prop :=
  (∀ s t, step s a ≠ .ok t) ∨ ∃ f, P f ∧ ∀ s, step s a = .ok (f s)

/-- An item that never fails. -/
theorem Acts.of_ok {a : α} {P : (σ → σ) → Prop} {f : σ → σ} (h : ∀ s, step s a = .ok (f s))
    (hf : P f) : Acts step a P :=
  .inr ⟨f, hf, h⟩

/-- An item that computes something from itself and then updates the state. -/
theorem Acts.of_bind {a : α} {P : (σ → σ) → Prop} {x : Except ε τ} {f : τ → σ → σ}
    (h : ∀ s, step s a = x >>= fun b => .ok (f b s)) (hf : ∀ b, P (f b)) : Acts step a P := by
  cases x with
  | error e =>
      refine .inl fun s t hok => ?_
      rw [h] at hok
      cases hok
  | ok b => exact .inr ⟨f b, hf b, h⟩

/-- **Items that act through commuting functions commute**; where one fails, both orders fail. -/
theorem Acts.comm {a b : α} {P Q : (σ → σ) → Prop} (ha : Acts step a P) (hb : Acts step b Q)
    (hcomm : ∀ f g, P f → Q g → ∀ s, f (g s) = g (f s)) (s : σ) :
    SameOk (step s a >>= fun s' => step s' b) (step s b >>= fun s' => step s' a) := by
  have hfail : ∀ {x : α}, (∀ s t, step s x ≠ .ok t) → ∀ (y : α) (t : σ),
      (step s x >>= fun s' => step s' y) ≠ .ok t ∧ (step s y >>= fun s' => step s' x) ≠ .ok t := by
    intro x hx y t
    refine ⟨fun h => ?_, fun h => ?_⟩
    · obtain ⟨s', h, -⟩ := bind_eq_ok.mp h
      exact hx s s' h
    · obtain ⟨s', -, h⟩ := bind_eq_ok.mp h
      exact hx s' t h
  intro t
  rcases ha with ha | ⟨f, hf, ha⟩
  · exact iff_of_false (hfail ha b t).1 (hfail ha b t).2
  · rcases hb with hb | ⟨g, hg, hb⟩
    · exact iff_of_false (hfail hb a t).2 (hfail hb a t).1
    · rw [ha, hb, ok_bind, ok_bind, ha, hb, hcomm f g hf hg]

/-- **A fold over such items is one itself.** -/
theorem foldlM_acts {P : α → (σ → σ) → Prop} (h : ∀ a, Acts step a (P a)) (xs : List α) :
    (∀ s t, xs.foldlM step s ≠ .ok t) ∨ ∃ f : σ → σ, ∀ s, xs.foldlM step s = .ok (f s) := by
  induction xs with
  | nil => exact .inr ⟨id, fun s => rfl⟩
  | cons a xs ih =>
      simp only [List.foldlM_cons]
      rcases h a with hfail | ⟨f, -, hf⟩
      · refine .inl fun s t hok => ?_
        obtain ⟨s', hs', -⟩ := bind_eq_ok.mp hok
        exact hfail s s' hs'
      · simp only [hf, ok_bind]
        rcases ih with hfail | ⟨g, hg⟩
        · exact .inl fun s t => hfail (f s) t
        · exact .inr ⟨g ∘ f, fun s => hg (f s)⟩

/-! ## Reorderings -/

variable [DecidableEq κ] {key : α → κ}

/-- **The items of every key stand in the same order.** -/
def Reorder (key : α → κ) (xs ys : List α) : Prop :=
  ∀ k, xs.filter (fun a => decide (key a = k)) = ys.filter fun a => decide (key a = k)

theorem Reorder.refl (xs : List α) : Reorder key xs xs := fun _ => rfl

theorem Reorder.trans {xs ys zs : List α} (hxy : Reorder key xs ys) (hyz : Reorder key ys zs) :
    Reorder key xs zs := fun k => (hxy k).trans (hyz k)

theorem Reorder.cons (x : α) {xs ys : List α} (h : Reorder key xs ys) :
    Reorder key (x :: xs) (x :: ys) := by
  intro k
  rw [List.filter_cons, List.filter_cons, h k]

/-- Neighbours of different keys. -/
theorem Reorder.swap {x y : α} (hne : key x ≠ key y) (xs : List α) :
    Reorder key (x :: y :: xs) (y :: x :: xs) := by
  intro k
  by_cases hx : key x = k
  · have hy : ¬ key y = k := fun hy => hne (hx.trans hy.symm)
    simp [hx, hy]
  · simp [List.filter_cons, hx]

/-- A reordering of nothing. -/
theorem Reorder.nil_left {ys : List α} (h : Reorder key [] ys) : ys = [] := by
  cases ys with
  | nil => rfl
  | cons y ys =>
      have hkey := h (key y)
      rw [List.filter_cons_of_pos (by simp)] at hkey
      cases hkey

/-- Where the first item went: behind items of other keys. -/
theorem Reorder.cons_left {x : α} {xs ys : List α} (h : Reorder key (x :: xs) ys) :
    ∃ pre post, ys = pre ++ x :: post ∧ (∀ a ∈ pre, key a ≠ key x) ∧
      Reorder key xs (pre ++ post) := by
  have hkey := h (key x)
  rw [List.filter_cons_of_pos (by simp)] at hkey
  obtain ⟨pre, post, rfl, hpre, hx, hpost⟩ := List.filter_eq_cons_iff.mp hkey.symm
  have hne : ∀ a ∈ pre, key a ≠ key x := fun a ha => by simpa using hpre a ha
  refine ⟨pre, post, rfl, hne, fun k => ?_⟩
  have hk := h k
  rw [List.filter_append] at hk ⊢
  by_cases hkx : key x = k
  · rw [List.filter_cons_of_pos (by simpa using hkx), List.filter_cons_of_pos (by simpa using hkx)]
      at hk
    have hnil : pre.filter (fun a => decide (key a = k)) = [] :=
      List.filter_eq_nil_iff.mpr fun a ha => by simpa [← hkx] using hne a ha
    rw [hnil, List.nil_append] at hk ⊢
    exact List.cons_inj_right x |>.mp hk
  · rw [List.filter_cons_of_neg (by simpa using hkx), List.filter_cons_of_neg (by simpa using hkx)]
      at hk
    exact hk

/-- Moving an item to the front, past items it commutes with. -/
theorem foldlM_front {x : α} {pre : List α}
    (hcomm : ∀ a ∈ pre, ∀ s, SameOk (step s a >>= fun s' => step s' x)
      (step s x >>= fun s' => step s' a)) (post : List α) :
    ∀ s, SameOk ((pre ++ x :: post).foldlM step s) ((x :: (pre ++ post)).foldlM step s) := by
  induction pre with
  | nil => exact fun s => .refl _
  | cons a pre ih =>
      intro s
      have hswap := hcomm a List.mem_cons_self s
      have hrest := ih fun b hb => hcomm b (List.mem_cons_of_mem _ hb)
      have hfront : SameOk ((a :: (pre ++ x :: post)).foldlM step s)
          ((step s a >>= fun s' => step s' x) >>= fun s' => (pre ++ post).foldlM step s') := by
        rw [List.foldlM_cons, bind_assoc]
        refine (SameOk.refl _).bind fun s' => ?_
        have hstep := hrest s'
        rwa [List.foldlM_cons] at hstep
      have hback : (x :: (a :: pre ++ post)).foldlM step s
          = (step s x >>= fun s' => step s' a) >>= fun s' => (pre ++ post).foldlM step s' := by
        rw [List.foldlM_cons, bind_assoc]
        rfl
      rw [List.cons_append, hback]
      exact hfront.trans (hswap.bind fun s' => .refl _)

/-- **A fold whose steps commute for different keys does not see a reordering.** -/
theorem foldlM_reorder (hcomm : ∀ a b, key a ≠ key b → ∀ s,
    SameOk (step s a >>= fun s' => step s' b) (step s b >>= fun s' => step s' a)) {xs : List α} :
    ∀ {ys : List α}, Reorder key xs ys → ∀ s, SameOk (xs.foldlM step s) (ys.foldlM step s) := by
  induction xs with
  | nil =>
      intro ys h s
      rw [h.nil_left]
      exact .refl _
  | cons x xs ih =>
      intro ys h s
      obtain ⟨pre, post, rfl, hne, hrest⟩ := h.cons_left
      refine SameOk.trans ?_ (foldlM_front (fun a ha => hcomm a x (hne a ha)) post s).symm
      rw [List.foldlM_cons, List.foldlM_cons]
      exact (SameOk.refl _).bind fun s' => ih hrest s'

end Lib
