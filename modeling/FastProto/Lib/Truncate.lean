import FastProto.Lib.Cursor

/-! # Buffers cut short

What a scanner does when its buffer ends inside the chunk it would read: it starves, and fails with
an error of the kind that says so. A loop over items therefore accepts exactly the prefixes that end
where an item ends. -/

namespace Lib

universe u

namespace Cursor

variable {β ε ε' α γ σ : Type u} {E : ε → Prop}

/-! ## Starving scanners -/

/-- **A scanner that starves**: on a strict prefix of a chunk it reads, it fails with an error of
`E`. -/
def Starves (E : ε → Prop) (f : Scan β ε α) : Prop :=
  ∀ pre front back a, back ≠ [] → Reads f (front ++ back) a →
    ∃ e, E e ∧ f (between pre front) = .error e

/-- What returns without reading has no strict prefix to starve on. -/
theorem Starves.pure (a : α) : Starves E (pure a : Scan β ε α) := by
  intro pre front back b hback h
  have hend := h [] []
  rw [pure_apply] at hend
  have hlen := congrArg (fun c : Except ε (α × Cursor β) =>
    match c with
    | .ok r => r.2.pos
    | .error _ => 0) hend
  have hpos := List.length_pos_iff.mpr hback
  simp at hlen
  omega

/-- What fails reads nothing. -/
theorem Starves.throw (e : ε) : Starves E (throw e : Scan β ε α) := by
  intro pre front back b _ h
  cases h [] []

/-- **Two scanners in a row starve when both do.** -/
theorem Starves.bind {f : Scan β ε α} {g : α → Scan β ε γ} (hf : Framed f) (hfs : Starves E f)
    (hg : ∀ a, Framed (g a)) (hgs : ∀ a, Starves E (g a)) : Starves E (f >>= g) := by
  intro pre front back b hback h
  obtain ⟨first, second, a, hchunk, hfirst, hsecond⟩ := Reads.of_bind hf hg h
  rcases List.append_eq_append_iff.mp hchunk with ⟨more, rfl, rfl⟩ | ⟨more, rfl, rfl⟩
  · -- the buffer ends inside the first chunk, or right after it
    by_cases hmore : more = []
    · subst hmore
      obtain ⟨e, he, herr⟩ := hgs a (pre ++ front) [] second b hback hsecond
      refine ⟨e, he, ?_⟩
      have hread := hfirst pre []
      rw [List.append_nil, List.append_nil] at hread
      rw [bind_apply, hread, ok_bind]
      exact herr
    · obtain ⟨e, he, herr⟩ := hfs pre front more a hmore hfirst
      exact ⟨e, he, by rw [bind_apply, herr, error_bind]⟩
  · -- it ends inside the second
    obtain ⟨e, he, herr⟩ := hgs a (pre ++ first) more back b hback hsecond
    exact ⟨e, he, by rw [bind_apply, hfirst pre more, ok_bind]; exact herr⟩

theorem Starves.ite {p : Prop} [Decidable p] {f g : Scan β ε α} (hf : Starves E f)
    (hg : Starves E g) : Starves E (if p then f else g) := by
  split
  · exact hf
  · exact hg

/-- A scanner that also returns what it consumed starves where it does. -/
theorem Starves.capture {f : Scan β ε α} (hframed : Framed f) (hf : Starves E f) :
    Starves E (capture f) := by
  intro pre front back b hback h
  obtain ⟨-, hread⟩ := h.capture_snd hframed
  obtain ⟨e, he, herr⟩ := hf pre front back b.1 hback hread
  exact ⟨e, he, by rw [Cursor.capture, herr, error_bind]⟩

/-- Reading one token starves on the empty buffer. -/
theorem starves_next {eof : ε} (heof : E eof) : Starves E (next eof : Scan β ε β) := by
  intro pre front back b hback h
  have hread := h [] []
  cases front with
  | nil => exact ⟨eof, heof, next_nil eof pre⟩
  | cons token front =>
      have htoken := reads_next eof token [] (front ++ back)
      rw [List.append_nil, List.cons_append] at hread
      rw [List.singleton_append, hread] at htoken
      injection htoken with hread
      have hrest := congrArg Cursor.rest (Prod.mk.inj hread).2
      rw [rest_between, rest_between] at hrest
      exact absurd (List.append_eq_nil_iff.mp hrest.symm).2 hback

/-- Taking a slice starves on a shorter buffer. -/
theorem starves_takeSlice {eof : ε} (heof : E eof) (n : Nat) :
    Starves E (takeSlice eof n : Scan β ε (List β)) := by
  intro pre front back slice hback h
  have hread := h [] []
  unfold takeSlice at hread
  split at hread
  · injection hread with hread
    have hpos := congrArg Cursor.pos (Prod.mk.inj hread).2
    have hlen := List.length_pos_iff.mpr hback
    simp only [between_pos, List.length_nil, List.nil_append, List.length_append] at hpos
    refine ⟨eof, heof, ?_⟩
    rw [takeSlice, if_neg]
    simp only [between_pos, between_buf, List.length_append]
    omega
  · cases hread

/-! ## Loops over a buffer cut short -/

section Loops

variable {item : Scan β ε' α} {step : σ → α → Except ε σ} {body : σ → Scan β ε σ}
  {conv : ε' → ε} {P : σ → Prop}

/-- **A loop whose buffer ends in something the item reader rejects** fails with that error, once
the items before it are taken. -/
theorem drain_rejects (hbody : BodyOn P item conv step body) (hkeeps : Keeps P step)
    {xs tail : List β} {as : List α} (hsplit : Split item xs as) (htail : tail ≠ []) {e : ε'} :
    ∀ (fuel : Nat) (pre : List β) (s t : σ), P s → (xs ++ tail).length ≤ fuel →
      as.foldlM step s = .ok t → item (between (pre ++ xs) tail) = .error e →
      drain body fuel s (between pre (xs ++ tail)) = .error (conv e) := by
  induction hsplit with
  | nil =>
      intro fuel pre s t hs hfuel _ hitem
      have hpos := List.length_pos_iff.mpr htail
      rw [List.nil_append] at hfuel ⊢
      rw [List.append_nil] at hitem
      obtain ⟨fuel, rfl⟩ : ∃ n, fuel = n + 1 := ⟨fuel - 1, by omega⟩
      rw [drain, atEnd_between, if_neg (by simp [htail]), hbody s hs, bind_apply, mapErr_apply,
        hitem]
      rfl
  | @cons chunk xs a as hne hread _ ih =>
      intro fuel pre s t hs hfuel hfold hitem
      have hpos : 0 < chunk.length := List.length_pos_iff.mpr hne
      rw [List.append_assoc, List.length_append] at hfuel
      obtain ⟨fuel, rfl⟩ : ∃ n, fuel = n + 1 := ⟨fuel - 1, by omega⟩
      rw [List.foldlM_cons] at hfold
      obtain ⟨s', hstep, hfold⟩ := bind_eq_ok.mp hfold
      rw [List.append_assoc, drain, atEnd_between, if_neg (by simp [hne]), hbody s hs, bind_apply,
        hread.mapErr conv pre (xs ++ tail), ok_bind, lift_apply, hstep, ok_bind, ok_bind]
      exact ih fuel (pre ++ chunk) s' t (hkeeps s a s' hs hstep) (by omega) hfold
        (by rwa [List.append_assoc])

/-- **Where a buffer of items may be cut**: a prefix is some of the items, or some of them and then
a strict prefix of the next one. -/
theorem Split.cut {xs : List β} {as : List α} (h : Split item xs as) :
    ∀ front back, xs = front ++ back →
      ∃ taken left, as = taken ++ left ∧ (Split item front taken ∨
        ∃ done part more a, front = done ++ part ∧ part ≠ [] ∧ more ≠ [] ∧
          Split item done taken ∧ Reads item (part ++ more) a ∧ a ∈ left) := by
  induction h with
  | nil =>
      intro front back h
      obtain ⟨rfl, rfl⟩ := List.append_eq_nil_iff.mp h.symm
      exact ⟨[], [], rfl, .inl .nil⟩
  | @cons chunk xs a as hne hread htail ih =>
      intro front back h
      rcases List.append_eq_append_iff.mp h with ⟨rest, rfl, rfl⟩ | ⟨rest, rfl, rfl⟩
      · -- the prefix holds the first item
        obtain ⟨taken, left, rfl, hcut⟩ := ih rest back rfl
        refine ⟨a :: taken, left, rfl, hcut.imp (Split.cons hne hread) ?_⟩
        rintro ⟨done, part, more, b, rfl, hpart, hmore, hdone, hb, hmem⟩
        exact ⟨chunk ++ done, part, more, b, by rw [List.append_assoc], hpart, hmore,
          .cons hne hread hdone, hb, hmem⟩
      · -- it ends in the first item, or before it
        by_cases hfront : front = []
        · exact ⟨[], a :: as, rfl, .inl (hfront ▸ .nil)⟩
        · by_cases hrest : rest = []
          · subst hrest
            rw [List.append_nil] at hread
            exact ⟨[a], as, rfl, .inl (Split.single hfront hread)⟩
          · exact ⟨[], a :: as, rfl,
              .inr ⟨[], front, rest, a, rfl, hfront, hrest, .nil, hread, List.mem_cons_self⟩⟩

end Loops

end Cursor

end Lib
