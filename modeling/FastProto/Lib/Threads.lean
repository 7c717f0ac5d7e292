import Mathlib.Logic.Relation
import Mathlib.Algebra.Order.BigOperators.Group.List
import Mathlib.Algebra.Order.Group.Nat

/-! # Threads over a shared state

A pool of threads over one shared state: at each step some thread, whichever the scheduler picks,
reads and updates the shared state and moves on. Facts about every interleaving come from one rule:
an invariant of the shared state together with a fact about each thread that the steps of the other
threads leave true. -/

namespace Lib.Threads

universe u

variable {σ τ : Type u} {step : σ → τ → Option (σ × τ)}

/-- **One step of a pool**: one thread takes its step, the others stay where they are. -/
inductive Step (step : σ → τ → Option (σ × τ)) : σ × List τ → σ × List τ → Prop
  /-- The thread between `before` and `after` moves. -/
  | move {s s' : σ} {t t' : τ} (before after : List τ) (h : step s t = some (s', t')) :
      Step step (s, before ++ t :: after) (s', before ++ t' :: after)

/-- **A run of a pool**: any number of steps, in any interleaving. -/
abbrev Run (step : σ → τ → Option (σ × τ)) : σ × List τ → σ × List τ → Prop :=
  Relation.ReflTransGen (Step step)

/-- No run from here goes on for ever. -/
def Terminates (step : σ → τ → Option (σ × τ)) : σ × List τ → Prop :=
  Acc fun later earlier => Step step earlier later

/-- A step of the first thread. -/
theorem Step.head {s s' : σ} {t t' : τ} (rest : List τ) (h : step s t = some (s', t')) :
    Step step (s, t :: rest) (s', t' :: rest) :=
  .move [] rest h

/-- A step of the second thread. -/
theorem Step.second {s s' : σ} {t t' : τ} (first : τ) (rest : List τ)
    (h : step s t = some (s', t')) : Step step (s, first :: t :: rest) (s', first :: t' :: rest) :=
  .move [first] rest h

/-- No thread appears or disappears. -/
theorem Run.length {c c' : σ × List τ} (h : Run step c c') : c'.2.length = c.2.length := by
  induction h with
  | refl => rfl
  | tail _ hstep ih =>
      cases hstep with
      | move before after _ =>
          rw [← ih, List.length_append, List.length_append, List.length_cons, List.length_cons]

section Invariant

variable (Shared : σ → Prop) (Local : σ → τ → Prop)
  (hmove : ∀ s t s' t', Shared s → Local s t → step s t = some (s', t') →
    Shared s' ∧ Local s' t' ∧ ∀ other, Local s other → Local s' other)
include hmove

/-- A step keeps what it keeps for the thread that moves and for those that do not. -/
theorem Step.invariant {c c' : σ × List τ} (h : Step step c c') (hshared : Shared c.1)
    (hlocal : ∀ t ∈ c.2, Local c.1 t) : Shared c'.1 ∧ ∀ t ∈ c'.2, Local c'.1 t := by
  cases h with
  | @move s s' t t' before after hs =>
      obtain ⟨hs', ht', hothers⟩ := hmove s t s' t' hshared (hlocal t (by simp)) hs
      refine ⟨hs', fun u hu => ?_⟩
      rcases List.mem_append.mp hu with hu | hu
      · exact hothers u (hlocal u (List.mem_append_left _ hu))
      · rcases List.mem_cons.mp hu with rfl | hu
        · exact ht'
        · exact hothers u (hlocal u (by simp [hu]))

/-- **The invariant rule**: what holds of the shared state and of every thread at the start, and is
kept by every step for the thread that moves and for those that do not, holds throughout. -/
theorem Run.invariant {c c' : σ × List τ} (h : Run step c c') (hshared : Shared c.1)
    (hlocal : ∀ t ∈ c.2, Local c.1 t) : Shared c'.1 ∧ ∀ t ∈ c'.2, Local c'.1 t := by
  induction h with
  | refl => exact ⟨hshared, hlocal⟩
  | tail _ hstep ih => exact hstep.invariant Shared Local hmove ih.1 ih.2

/-- **The termination rule**: a cost that every step lowers for the thread that moves, and raises for
no other one. -/
theorem terminates (cost : σ → τ → Nat)
    (hcost : ∀ s t s' t', Shared s → Local s t → step s t = some (s', t') →
      cost s' t' < cost s t ∧ ∀ other, Local s other → cost s' other ≤ cost s other)
    {c : σ × List τ} (hshared : Shared c.1) (hlocal : ∀ t ∈ c.2, Local c.1 t) :
    Terminates step c := by
  -- by induction on the cost of the whole pool
  obtain ⟨n, hn⟩ : ∃ n, (c.2.map (cost c.1)).sum = n := ⟨_, rfl⟩
  induction n using Nat.strong_induction_on generalizing c with
  | _ n ih =>
      refine Acc.intro _ fun c' hstep => ?_
      have hinv := Step.invariant Shared Local hmove hstep hshared hlocal
      refine ih _ ?_ hinv.1 hinv.2 rfl
      rw [← hn]
      cases hstep with
      | @move s s' t t' before after hs =>
          obtain ⟨hlt, hle⟩ := hcost s t s' t' hshared (hlocal t (by simp)) hs
          have hsum : ∀ l : List τ, (∀ u ∈ l, Local s u) →
              (l.map (cost s')).sum ≤ (l.map (cost s)).sum := fun l hl =>
            List.sum_le_sum fun u hu => hle u (hl u hu)
          have hbefore := hsum before fun u hu => hlocal u (by simp [hu])
          have hafter := hsum after fun u hu => hlocal u (by simp [hu])
          simp only [List.map_append, List.map_cons, List.sum_append, List.sum_cons]
          omega

end Invariant

/-- The invariant rule for a pool of one thread: there is no other thread to keep apart from. -/
theorem Run.invariant_single (Inv : σ → τ → Prop)
    (hmove : ∀ s t s' t', Inv s t → step s t = some (s', t') → Inv s' t')
    {s s' : σ} {t : τ} {pool : List τ} (h : Run step (s, [t]) (s', pool)) (hinv : Inv s t) :
    ∃ t', pool = [t'] ∧ Inv s' t' := by
  have hrun : ∀ c c' : σ × List τ, Run step c c' → (∃ u, c.2 = [u] ∧ Inv c.1 u) →
      ∃ u, c'.2 = [u] ∧ Inv c'.1 u := by
    intro c c' h hc
    induction h with
    | refl => exact hc
    | tail _ hstep ih =>
        obtain ⟨u, hu, hinv⟩ := ih
        cases hstep with
        | @move s s' t t' before after hs =>
            -- the only thread is the one that moves
            have hbefore : before = [] ∧ after = [] := by
              have hlen := congrArg List.length hu
              simp only [List.length_append, List.length_cons, List.length_nil] at hlen
              exact ⟨List.length_eq_zero_iff.mp (by omega), List.length_eq_zero_iff.mp (by omega)⟩
            obtain ⟨rfl, rfl⟩ := hbefore
            obtain rfl : t = u := by simpa using hu
            exact ⟨t', rfl, hmove s t s' t' hinv hs⟩
  exact hrun _ _ h ⟨t, rfl, hinv⟩

/-- **A thread that ends is done in a good state**: some run of it alone leads to where it takes no
step, and its invariant holds there. -/
theorem exists_stuck (Inv : σ → τ → Prop)
    (hmove : ∀ s t s' t', Inv s t → step s t = some (s', t') → Inv s' t') {s : σ} {t : τ}
    (h : Terminates step (s, [t])) (hinv : Inv s t) :
    ∃ s' t', Run step (s, [t]) (s', [t']) ∧ Inv s' t' ∧ step s' t' = none := by
  -- by induction on the runs left
  obtain ⟨c, hc⟩ : ∃ c : σ × List τ, c = (s, [t]) := ⟨_, rfl⟩
  rw [← hc] at h
  induction h generalizing s t with
  | intro c _ ih =>
      cases hstep : step s t with
      | none => exact ⟨s, t, .refl, hinv, hstep⟩
      | some next =>
          obtain ⟨s₁, t₁⟩ := next
          have hfirst : Step step (s, [t]) (s₁, [t₁]) := .head [] hstep
          obtain ⟨s', t', hrun, hdone⟩ :=
            ih (s₁, [t₁]) (by rw [hc]; exact hfirst) (hmove s t s₁ t₁ hinv hstep) rfl
          exact ⟨s', t', .head hfirst hrun, hdone⟩

end Lib.Threads
