import Mathlib.Data.List.Forall2

/-! # Computations that may fail

Peeling a computation in `Except` into its parts, and what a fold or a traversal that succeeds
says about each of its elements. -/

namespace Lib

universe u

variable {ε ε' α γ σ : Type u}

/-! ## Peeling -/

/-- A bound computation succeeds iff both parts do, the second on the result of the first. -/
theorem bind_eq_ok {x : Except ε α} {f : α → Except ε γ} {b : γ} :
    (x >>= f) = .ok b ↔ ∃ a, x = .ok a ∧ f a = .ok b := by
  cases x with
  | error e => simp [bind, Except.bind]
  | ok a => simp [bind, Except.bind]

/-- Binding a successful computation passes its value on. -/
@[simp] theorem ok_bind (a : α) (f : α → Except ε γ) : ((.ok a : Except ε α) >>= f) = f a := rfl

/-- Binding a failed computation fails the same way. -/
@[simp] theorem error_bind (e : ε) (f : α → Except ε γ) :
    ((.error e : Except ε α) >>= f) = .error e := rfl

/-- Returning a value succeeds with it. -/
@[simp] theorem pure_eq_ok (a : α) : (pure a : Except ε α) = .ok a := rfl

/-- Throwing an error fails with it. -/
@[simp] theorem throw_eq_error (e : ε) : (throw e : Except ε α) = .error e := rfl

/-- A mapped computation succeeds when the computation does. -/
theorem map_eq_ok {x : Except ε α} {f : α → γ} {b : γ} :
    x.map f = .ok b ↔ ∃ a, x = .ok a ∧ f a = b := by
  cases x <;> simp [Except.map]

/-- Changing the error type keeps exactly the successes. -/
@[simp] theorem mapError_eq_ok {f : ε → ε'} {x : Except ε α} {a : α} :
    x.mapError f = .ok a ↔ x = .ok a := by
  cases x <;> simp [Except.mapError]

/-- Changing the error type of a success does nothing. -/
@[simp] theorem mapError_ok (f : ε → ε') (a : α) : (Except.ok a).mapError f = .ok a := rfl

/-- Changing the error type of a failure maps the error. -/
@[simp] theorem mapError_error (f : ε → ε') (e : ε) :
    (Except.error e : Except ε α).mapError f = .error (f e) := rfl

/-- Changing the error type distributes over binding. -/
theorem mapError_bind (f : ε → ε') (x : Except ε α) (g : α → Except ε γ) :
    (x >>= g).mapError f = x.mapError f >>= fun a => (g a).mapError f := by
  cases x <;> rfl

/-! ## Folds and traversals -/

/-- A fold that preserves an invariant at each element preserves it. -/
theorem foldlM_invariant {step : σ → α → Except ε σ} (P : σ → Prop) {l : List α}
    (hstep : ∀ s a s', a ∈ l → P s → step s a = .ok s' → P s') :
    ∀ s t, P s → l.foldlM step s = .ok t → P t := by
  induction l with
  | nil =>
      intro s t hs h
      cases h
      exact hs
  | cons a l ih =>
      intro s t hs h
      rw [List.foldlM_cons] at h
      obtain ⟨s', hs', h⟩ := bind_eq_ok.mp h
      exact ih (fun s b s' hb => hstep s b s' (List.mem_cons_of_mem a hb)) s' t
        (hstep s a s' (by simp) hs hs') h

/-- **A fold simulates another** when each of its steps does. -/
theorem foldlM_simulates {τ : Type u} {R : σ → τ → Prop} {step : σ → α → Except ε σ}
    {step' : τ → α → Except ε τ} {l : List α}
    (hstep : ∀ s t a t', a ∈ l → R s t → step' t a = .ok t' → ∃ s', step s a = .ok s' ∧ R s' t') :
    ∀ s t t', R s t → l.foldlM step' t = .ok t' → ∃ s', l.foldlM step s = .ok s' ∧ R s' t' := by
  induction l with
  | nil =>
      intro s t t' hR h
      cases h
      exact ⟨s, rfl, hR⟩
  | cons a l ih =>
      intro s t t' hR h
      rw [List.foldlM_cons] at h
      obtain ⟨mid', hmid', h⟩ := bind_eq_ok.mp h
      obtain ⟨mid, hmid, hR⟩ := hstep s t a mid' List.mem_cons_self hR hmid'
      obtain ⟨s', hs', hR⟩ := ih (fun s t b t' hb => hstep s t b t' (List.mem_cons_of_mem a hb))
        mid mid' t' hR h
      exact ⟨s', by rw [List.foldlM_cons, hmid, ok_bind, hs'], hR⟩

/-- A fold whose steps succeed under an invariant on the elements done succeeds, and the invariant
holds at its end. -/
theorem foldlM_total {step : σ → α → Except ε σ} {l : List α} (P : List α → σ → Prop)
    (hstep : ∀ done a rest s, done ++ a :: rest = l → P done s →
      ∃ s', step s a = .ok s' ∧ P (done ++ [a]) s') {s : σ} (hs : P [] s) :
    ∃ s', l.foldlM step s = .ok s' ∧ P l s' := by
  have hrun : ∀ rest done s, done ++ rest = l → P done s →
      ∃ s', rest.foldlM step s = .ok s' ∧ P l s' := by
    intro rest
    induction rest with
    | nil =>
        intro done s hl hP
        rw [List.append_nil] at hl
        exact ⟨s, rfl, hl ▸ hP⟩
    | cons a rest ih =>
        intro done s hl hP
        obtain ⟨s₁, hs₁, hP₁⟩ := hstep done a rest s hl hP
        obtain ⟨s', hs', hP'⟩ := ih (done ++ [a]) s₁ (by rw [← hl]; simp) hP₁
        exact ⟨s', by rw [List.foldlM_cons, hs₁, ok_bind, hs'], hP'⟩
  exact hrun l [] s rfl hs

/-- A traversal succeeds when it does on every element. -/
theorem mapM_total {f : α → Except ε γ} {l : List α} (h : ∀ a ∈ l, ∃ b, f a = .ok b) :
    ∃ bs, l.mapM f = .ok bs := by
  induction l with
  | nil => exact ⟨[], rfl⟩
  | cons a l ih =>
      obtain ⟨b, hb⟩ := h a (by simp)
      obtain ⟨bs, hbs⟩ := ih fun a ha => h a (by simp [ha])
      exact ⟨b :: bs, by rw [List.mapM_cons, hb, ok_bind, hbs]; rfl⟩

/-- A traversal that succeeds relates the lists element by element. -/
theorem mapM_eq_ok {f : α → Except ε γ} {l : List α} {l' : List γ} :
    l.mapM f = .ok l' ↔ List.Forall₂ (fun a b => f a = .ok b) l l' := by
  induction l generalizing l' with
  | nil =>
      rw [List.mapM_nil, List.forall₂_nil_left_iff]
      exact ⟨fun h => by cases h; rfl, fun h => by rw [h]; rfl⟩
  | cons a l ih =>
      rw [List.mapM_cons, List.forall₂_cons_left_iff]
      constructor
      · intro h
        obtain ⟨b, hb, h⟩ := bind_eq_ok.mp h
        obtain ⟨bs, hbs, h⟩ := bind_eq_ok.mp h
        cases h
        exact ⟨b, bs, hb, ih.mp hbs, rfl⟩
      · rintro ⟨b, bs, hb, hbs, rfl⟩
        rw [hb, ok_bind, ih.mpr hbs]
        rfl

/-- A fold whose steps append what an element renders to is a traversal followed by one append. -/
theorem foldlM_append {f : α → Except ε γ} (render : γ → List σ)
    {step : List σ → α → Except ε (List σ)}
    (hstep : ∀ buf a, step buf a = f a >>= fun c => .ok (buf ++ render c)) (l : List α) :
    ∀ buf, l.foldlM step buf = l.mapM f >>= fun cs => .ok (buf ++ cs.flatMap render) := by
  induction l with
  | nil =>
      intro buf
      simp
  | cons a l ih =>
      intro buf
      rw [List.foldlM_cons, List.mapM_cons, hstep, bind_assoc]
      cases f a with
      | error e => rfl
      | ok c =>
          rw [ok_bind, ok_bind, ok_bind, ih, bind_assoc]
          cases l.mapM f with
          | error e => rfl
          | ok cs =>
              simp [List.append_assoc]

/-- A fold may leave out the elements its step skips. -/
theorem foldlM_filter {step : σ → α → Except ε σ} {p : α → Bool}
    (hskip : ∀ s a, p a = false → step s a = .ok s) (l : List α) :
    ∀ s, l.foldlM step s = (l.filter p).foldlM step s := by
  induction l with
  | nil => intro s; rfl
  | cons a l ih =>
      intro s
      rw [List.foldlM_cons]
      cases hp : p a with
      | true =>
          rw [List.filter_cons_of_pos hp, List.foldlM_cons]
          exact congrArg _ (funext ih)
      | false => rw [List.filter_cons_of_neg (by simp [hp]), hskip s a hp, ok_bind, ih]

/-- Every element of the right list is related to one of the left. -/
theorem exists_left_of_forall₂ {R : α → γ → Prop} {l : List α} {l' : List γ}
    (h : List.Forall₂ R l l') {b : γ} (hb : b ∈ l') : ∃ a ∈ l, R a b := by
  induction h with
  | nil => cases hb
  | cons hab _ ih =>
      rcases List.mem_cons.mp hb with rfl | hb
      · exact ⟨_, by simp, hab⟩
      · obtain ⟨a, ha, hR⟩ := ih hb
        exact ⟨a, by simp [ha], hR⟩

/-- Every element of the left list is related to one of the right. -/
theorem exists_right_of_forall₂ {R : α → γ → Prop} {l : List α} {l' : List γ}
    (h : List.Forall₂ R l l') {a : α} (ha : a ∈ l) : ∃ b ∈ l', R a b :=
  exists_left_of_forall₂ h.flip ha

/-- Every result of a traversal comes from an element. -/
theorem exists_of_mem_mapM {f : α → Except ε γ} {l : List α} {l' : List γ}
    (h : l.mapM f = .ok l') {b : γ} (hb : b ∈ l') : ∃ a ∈ l, f a = .ok b :=
  exists_left_of_forall₂ (mapM_eq_ok.mp h) hb

/-- A traversal after a traversal succeeds with results that look like the elements, exactly when
this holds element by element. -/
theorem mapM_mapM_agree {β δ : Type u} {f : α → Except ε β} {g : β → Except ε γ} {c : γ → δ}
    {c' : α → δ} {l : List α} :
    (∃ mid out, l.mapM f = .ok mid ∧ mid.mapM g = .ok out ∧ out.map c = l.map c') ↔
      ∀ a ∈ l, ∃ b d, f a = .ok b ∧ g b = .ok d ∧ c d = c' a := by
  simp only [mapM_eq_ok]
  induction l with
  | nil => simp
  | cons a l ih =>
      rw [List.forall_mem_cons, ← ih]
      constructor
      · rintro ⟨mid, out, hmid, hout, hmap⟩
        obtain ⟨b, mid', hb, hmid', rfl⟩ := List.forall₂_cons_left_iff.mp hmid
        obtain ⟨d, out', hd, hout', rfl⟩ := List.forall₂_cons_left_iff.mp hout
        obtain ⟨hhead, htail⟩ := List.cons.inj hmap
        exact ⟨⟨b, d, hb, hd, hhead⟩, mid', out', hmid', hout', htail⟩
      · rintro ⟨⟨b, d, hb, hd, hhead⟩, mid, out, hmid, hout, htail⟩
        exact ⟨b :: mid, d :: out, .cons hb hmid, .cons hd hout,
          by rw [List.map_cons, List.map_cons, hhead, htail]⟩

/-- What a traversal keeps of every element, it keeps of the list. -/
theorem map_eq_of_mapM {δ : Type*} {f : α → Except ε γ} {c : α → δ} {c' : γ → δ} {l : List α}
    {l' : List γ} (h : l.mapM f = .ok l') (hkeep : ∀ a b, f a = .ok b → c' b = c a) :
    l'.map c' = l.map c := by
  have hall := mapM_eq_ok.mp h
  clear h
  induction hall with
  | nil => rfl
  | cons hab _ ih => rw [List.map_cons, List.map_cons, ih, hkeep _ _ hab]

/-! ## Errors -/

/-- Every error a computation raises satisfies `E`. -/
def Raises (E : ε → Prop) (x : Except ε α) : Prop := ∀ e, x = .error e → E e

/-- A result raises nothing. -/
theorem Raises.ok {E : ε → Prop} (a : α) : Raises E (.ok a : Except ε α) := fun _ h => nomatch h

/-- An error raises itself. -/
theorem Raises.error {E : ε → Prop} {e : ε} (h : E e) : Raises E (.error e : Except ε α) := by
  intro e' heq
  cases heq
  exact h

/-- A computation in steps raises what its steps raise. -/
theorem Raises.bind {E : ε → Prop} {x : Except ε α} {f : α → Except ε γ} (hx : Raises E x)
    (hf : ∀ a, x = .ok a → Raises E (f a)) : Raises E (x >>= f) := by
  cases x with
  | error e => exact Raises.error (hx e rfl)
  | ok a => exact hf a rfl

/-- A traversal raises what its elements raise. -/
theorem Raises.mapM {E : ε → Prop} {f : α → Except ε γ} {l : List α}
    (h : ∀ a ∈ l, Raises E (f a)) : Raises E (l.mapM f) := by
  induction l with
  | nil => exact Raises.ok _
  | cons a l ih =>
      rw [List.mapM_cons]
      exact (h a List.mem_cons_self).bind fun _ _ =>
        (ih fun a ha => h a (List.mem_cons_of_mem _ ha)).bind fun _ _ => Raises.ok _

/-- A loop raises what its rounds raise. -/
theorem Raises.forM {E : ε → Prop} {f : α → Except ε PUnit} {l : List α}
    (h : ∀ a ∈ l, Raises E (f a)) : Raises E (l.forM f) := by
  induction l with
  | nil => exact Raises.ok _
  | cons a l ih =>
      exact (h a List.mem_cons_self).bind fun _ _ => ih fun a ha => h a (List.mem_cons_of_mem _ ha)

/-- A fold raises what its steps raise under an invariant on the elements done, and the invariant
holds where it succeeds. -/
theorem Raises.foldlM {E : ε → Prop} {step : σ → α → Except ε σ} {l : List α}
    (P : List α → σ → Prop)
    (hstep : ∀ done a rest s, done ++ a :: rest = l → P done s →
      Raises E (step s a) ∧ ∀ s', step s a = .ok s' → P (done ++ [a]) s') {s : σ} (hs : P [] s) :
    Raises E (l.foldlM step s) ∧ ∀ s', l.foldlM step s = .ok s' → P l s' := by
  have hrun : ∀ rest done s, done ++ rest = l → P done s →
      Raises E (rest.foldlM step s) ∧ ∀ s', rest.foldlM step s = .ok s' → P l s' := by
    intro rest
    induction rest with
    | nil =>
        intro done s hl hP
        rw [List.append_nil] at hl
        refine ⟨Raises.ok s, fun s' hs' => ?_⟩
        cases hs'
        exact hl ▸ hP
    | cons a rest ih =>
        intro done s hl hP
        obtain ⟨hraises, hkeeps⟩ := hstep done a rest s hl hP
        rw [List.foldlM_cons]
        have hrest := fun s' (hs' : step s a = .ok s') =>
          ih (done ++ [a]) s' (by rw [← hl]; simp) (hkeeps s' hs')
        refine ⟨hraises.bind fun s' hs' => (hrest s' hs').1, fun t ht => ?_⟩
        obtain ⟨s', hs', ht⟩ := bind_eq_ok.mp ht
        exact (hrest s' hs').2 t ht
  exact hrun l [] s rfl hs

/-! ## Deciding what a computation yields -/

section Decide

variable {P : α → Prop} [DecidablePred P]

/-- Whether a computation succeeds. -/
instance decidableOk (x : Except ε α) : Decidable (∃ a, x = .ok a) :=
  match x with
  | .ok a => isTrue ⟨a, rfl⟩
  | .error _ => isFalse fun ⟨_, h⟩ => nomatch h

/-- Whether a computation succeeds with a value of some kind. -/
instance decidableOkAnd (x : Except ε α) : Decidable (∃ a, x = .ok a ∧ P a) :=
  match x with
  | .ok a => decidable_of_iff (P a) ⟨fun h => ⟨a, rfl, h⟩, fun ⟨_, h, hP⟩ => Except.ok.inj h ▸ hP⟩
  | .error _ => isFalse fun ⟨_, h, _⟩ => nomatch h

/-- Whether an option has a value of some kind. -/
instance decidableSomeAnd (o : Option α) : Decidable (∃ a, o = some a ∧ P a) :=
  match o with
  | some a => decidable_of_iff (P a) ⟨fun h => ⟨a, rfl, h⟩, fun ⟨_, h, hP⟩ => Option.some.inj h ▸ hP⟩
  | none => isFalse fun ⟨_, h, _⟩ => nomatch h

end Decide

end Lib
