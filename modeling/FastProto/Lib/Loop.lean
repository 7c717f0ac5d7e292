import FastProto.Lib.Cursor

/-! # Loops that end

`Loop body s c r` says that the loop `while not at the end { body }` ends with `r`, after finitely
many rounds and without any bound on them. A body that makes progress in every round ends, with the
result of `drainAll`. -/

namespace Lib

universe u

namespace Cursor

variable {β ε ε' α γ σ : Type u}

/-! ## Moving forward -/

/-- A scanner that stays in its buffer and does not move back. -/
def Forward (f : Scan β ε α) : Prop :=
  ∀ c a c', c.pos ≤ c.buf.length → f c = .ok (a, c') →
    c'.buf = c.buf ∧ c.pos ≤ c'.pos ∧ c'.pos ≤ c.buf.length

/-- A scanner that stays in its buffer and moves ahead. -/
def Progresses (f : Scan β ε α) : Prop :=
  ∀ c a c', c.pos ≤ c.buf.length → f c = .ok (a, c') →
    c'.buf = c.buf ∧ c.pos < c'.pos ∧ c'.pos ≤ c.buf.length

/-- Progress is moving forward. -/
theorem Progresses.forward {f : Scan β ε α} (hf : Progresses f) : Forward f := by
  intro c a c' hpos h
  obtain ⟨hbuf, hlt, hle⟩ := hf c a c' hpos h
  exact ⟨hbuf, Nat.le_of_lt hlt, hle⟩

/-- A framed scanner moves forward by the chunk it reads. -/
theorem Framed.forward {f : Scan β ε α} (hf : Framed f) : Forward f := by
  intro c a c' hpos h
  rw [eq_between hpos] at h
  obtain ⟨chunk, post, hrest, rfl, -⟩ := hf _ _ a c' h
  have hbuf : c.buf = c.buf.take c.pos ++ (chunk ++ post) := by
    rw [← hrest, rest, List.take_append_drop]
  have hlen := congrArg List.length hbuf
  have htake : (c.buf.take c.pos).length = c.pos := by
    rw [List.length_take]
    omega
  simp only [List.length_append, htake] at hlen
  refine ⟨by rw [between_append_left, ← hbuf], ?_, ?_⟩ <;>
    simp only [between_pos, List.length_append, htake] <;> omega

/-- A framed scanner that reads a token moves ahead. -/
theorem Framed.progresses {f : Scan β ε α} (hf : Framed f) (ha : Advances f) : Progresses f := by
  intro c a c' hpos h
  obtain ⟨hbuf, -, hle⟩ := hf.forward c a c' hpos h
  refine ⟨hbuf, ?_, hle⟩
  rw [eq_between hpos] at h
  obtain ⟨chunk, post, -, rfl, hreads⟩ := hf _ _ a c' h
  have hne := List.length_pos_iff.mpr (ha.ne_nil hreads)
  have htake : (c.buf.take c.pos).length = c.pos := by
    rw [List.length_take]
    omega
  rw [between_pos, List.length_append, htake]
  omega

theorem Forward.pure (a : α) : Forward (pure a : Scan β ε α) := by
  intro c b c' hpos h
  cases h
  exact ⟨rfl, Nat.le_refl _, hpos⟩

theorem Forward.throw (e : ε) : Forward (throw e : Scan β ε α) := by
  intro c b c' _ h
  cases h

/-- A lifted computation does not move. -/
theorem Forward.lift (x : Except ε α) : Forward (StateT.lift x : Scan β ε α) := by
  intro c b c' hpos h
  rw [lift_apply] at h
  obtain ⟨a, -, h⟩ := bind_eq_ok.mp h
  cases h
  exact ⟨rfl, Nat.le_refl _, hpos⟩

/-- Looking at the tokens read does not move. -/
theorem Forward.rawSince (start : Nat) : Forward (rawSince start : Scan β ε (List β)) := by
  intro c b c' hpos h
  cases h
  exact ⟨rfl, Nat.le_refl _, hpos⟩

theorem Forward.bind {f : Scan β ε α} {g : α → Scan β ε γ} (hf : Forward f)
    (hg : ∀ a, Forward (g a)) : Forward (f >>= g) := by
  intro c b c' hpos h
  obtain ⟨⟨a, mid⟩, hmid, h⟩ := bind_eq_ok.mp h
  obtain ⟨hbuf, hle, hend⟩ := hf c a mid hpos hmid
  obtain ⟨hbuf', hle', hend'⟩ := hg a mid b c' (hbuf ▸ hend) h
  exact ⟨hbuf'.trans hbuf, Nat.le_trans hle hle', hbuf ▸ hend'⟩

theorem Forward.ite {p : Prop} [Decidable p] {f g : Scan β ε α} (hf : Forward f)
    (hg : Forward g) : Forward (if p then f else g) := by
  split
  · exact hf
  · exact hg

theorem Forward.mapErr {f : Scan β ε α} (hf : Forward f) (conv : ε → ε') :
    Forward (mapErr conv f) := by
  intro c a c' hpos h
  rw [mapErr_apply, mapError_eq_ok] at h
  exact hf c a c' hpos h

theorem Progresses.mapErr {f : Scan β ε α} (hf : Progresses f) (conv : ε → ε') :
    Progresses (mapErr conv f) := by
  intro c a c' hpos h
  rw [mapErr_apply, mapError_eq_ok] at h
  exact hf c a c' hpos h

/-- Progress in the first step is progress. -/
theorem Progresses.bind {f : Scan β ε α} {g : α → Scan β ε γ} (hf : Progresses f)
    (hg : ∀ a, Forward (g a)) : Progresses (f >>= g) := by
  intro c b c' hpos h
  obtain ⟨⟨a, mid⟩, hmid, h⟩ := bind_eq_ok.mp h
  obtain ⟨hbuf, hlt, hend⟩ := hf c a mid hpos hmid
  obtain ⟨hbuf', hle, hend'⟩ := hg a mid b c' (hbuf ▸ hend) h
  exact ⟨hbuf'.trans hbuf, Nat.lt_of_lt_of_le hlt hle, hbuf ▸ hend'⟩

/-! ## Loops -/

/-- The loop `while not at the end { body }` ends with a result. -/
inductive Loop (body : σ → Scan β ε σ) : σ → Cursor β → Except ε σ → Prop
  | done {s c} (h : c.atEnd = true) : Loop body s c (.ok s)
  | fail {s c e} (h : c.atEnd = false) (hbody : body s c = .error e) : Loop body s c (.error e)
  | next {s c s' c' r} (h : c.atEnd = false) (hbody : body s c = .ok (s', c'))
      (hrest : Loop body s' c' r) : Loop body s c r

/-- A state the loop is in, with its cursor, after some rounds. -/
inductive Reached (body : σ → Scan β ε σ) (s₀ : σ) (c₀ : Cursor β) : σ → Cursor β → Prop
  | start : Reached body s₀ c₀ s₀ c₀
  | round {s c s' c'} (before : Reached body s₀ c₀ s c) (h : c.atEnd = false)
      (hbody : body s c = .ok (s', c')) : Reached body s₀ c₀ s' c'

/-- **What every round keeps holds after any number of rounds.** -/
theorem Reached.invariant {body : σ → Scan β ε σ} {s₀ s : σ} {c₀ c : Cursor β} {P : σ → Prop}
    (hforward : ∀ s, Forward (body s)) (hpos : c₀.pos ≤ c₀.buf.length) (hstart : P s₀)
    (hround : ∀ s c s' c', P s → c.pos ≤ c.buf.length → body s c = .ok (s', c') → P s')
    (h : Reached body s₀ c₀ s c) : P s ∧ c.pos ≤ c.buf.length := by
  induction h with
  | start => exact ⟨hstart, hpos⟩
  | round _ _ hbody ih =>
      obtain ⟨hs, hc⟩ := ih
      obtain ⟨hbuf, -, hle⟩ := hforward _ _ _ _ hc hbody
      exact ⟨hround _ _ _ _ hs hc hbody, hbuf ▸ hle⟩

/-- A loop has at most one result. -/
theorem Loop.unique {body : σ → Scan β ε σ} {s : σ} {c : Cursor β} {r r' : Except ε σ}
    (h : Loop body s c r) (h' : Loop body s c r') : r = r' := by
  induction h with
  | done hend =>
      cases h' with
      | done _ => rfl
      | fail hmore _ | next hmore _ _ => rw [hend] at hmore; cases hmore
  | fail hmore hbody =>
      cases h' with
      | done hend => rw [hend] at hmore; cases hmore
      | fail _ hbody' => rw [hbody] at hbody'; cases hbody'; rfl
      | next _ hbody' _ => rw [hbody] at hbody'; cases hbody'
  | next hmore hbody _ ih =>
      cases h' with
      | done hend => rw [hend] at hmore; cases hmore
      | fail _ hbody' => rw [hbody] at hbody'; cases hbody'
      | next _ hbody' hrest' =>
          rw [hbody] at hbody'
          cases hbody'
          exact ih hrest'

/-- **A loop whose body makes progress ends**, within as many rounds as tokens are left. -/
theorem loop_drain {body : σ → Scan β ε σ} (h : ∀ s, Progresses (body s)) :
    ∀ (fuel : Nat) (s : σ) (c : Cursor β), c.pos ≤ c.buf.length → c.buf.length - c.pos ≤ fuel →
      Loop body s c (drain body fuel s c) := by
  intro fuel
  induction fuel with
  | zero =>
      intro s c hpos hfuel
      exact .done (by rw [atEnd, decide_eq_true_eq]; omega)
  | succ fuel ih =>
      intro s c hpos hfuel
      rw [drain]
      cases hend : c.atEnd with
      | true => exact .done hend
      | false =>
          rw [if_neg (by simp)]
          cases hbody : body s c with
          | error e => exact .fail hend hbody
          | ok r =>
              obtain ⟨hbuf, hlt, hle⟩ := h s c r.1 r.2 hpos hbody
              rw [ok_bind]
              refine .next hend hbody (ih r.1 r.2 (hbuf ▸ hle) ?_)
              rw [hbuf]
              omega

/-- **A loop whose body makes progress ends with the result of `drainAll`.** -/
theorem loop_drainAll {body : σ → Scan β ε σ} (h : ∀ s, Progresses (body s)) (s : σ)
    {c : Cursor β} (hpos : c.pos ≤ c.buf.length) : Loop body s c (drainAll body s c) :=
  loop_drain h _ s c hpos (Nat.le_refl _)

end Cursor

end Lib
