import FastProto.Lib.Assoc

/-! # Tables where the first claim wins

A table gives each key to the owner that claims it first; a later claim on the key has to name the
same owner, or it is refused. Whether a list of claims is accepted depends on which claims stand in
it, and not on their order or number: `Concordant` says that no key has two owners, and
`foldlM_claim_eq_none` that this is what the table finds out. -/

namespace Lib

universe u v

variable {κ : Type u} {ω : Type v}

/-- No two claims give a key to different owners. -/
def Concordant (claims : List (κ × ω)) : Prop :=
  ∀ c ∈ claims, ∀ d ∈ claims, c.1 = d.1 → c.2 = d.2

/-- Fewer claims agree as well. -/
theorem Concordant.mono {claims claims' : List (κ × ω)} (h : Concordant claims')
    (hsub : ∀ c ∈ claims, c ∈ claims') : Concordant claims :=
  fun c hc d hd => h c (hsub c hc) d (hsub d hd)

variable [DecidableEq κ]

/-- A table records claims: it finds under a key exactly the owner they give it. -/
def Records (table claims : List (κ × ω)) : Prop :=
  ∀ key owner, table.lookup key = some owner ↔ (key, owner) ∈ claims

/-- Recorded claims agree. -/
theorem Records.concordant {table claims : List (κ × ω)} (h : Records table claims) :
    Concordant claims := by
  rintro ⟨key, owner⟩ hc ⟨key', owner'⟩ hd hkey
  dsimp only at hkey
  subst hkey
  have hfound := (h key owner).mpr hc
  rw [(h key owner').mpr hd, Option.some.injEq] at hfound
  exact hfound.symm

/-- A list of claims that agree records itself. -/
theorem Concordant.records {claims : List (κ × ω)} (h : Concordant claims) : Records claims claims := by
  intro key owner
  refine ⟨mem_of_lookup, fun hmem => ?_⟩
  cases hfound : claims.lookup key with
  | none =>
      rw [List.lookup_eq_none_iff] at hfound
      exact absurd (hfound _ hmem) (by simp)
  | some other => exact congrArg some (h _ (mem_of_lookup hfound) _ hmem rfl)

variable [DecidableEq ω]

/-- Claim a key for an owner: refused where another owner has it. -/
def claim (table : List (κ × ω)) (c : κ × ω) : Option (List (κ × ω)) :=
  if (table.lookup c.1).getD c.2 ≠ c.2 then none
  else some (upsertBy (· == ·) table c.1 c.2)

section Step

variable {table claims : List (κ × ω)} {c : κ × ω}

/-- **A claim is refused** exactly when it disagrees with one that is recorded. -/
theorem claim_eq_none (h : Records table claims) :
    claim table c = none ↔ ¬ Concordant (claims ++ [c]) := by
  have hheld : (table.lookup c.1).getD c.2 ≠ c.2 ↔
      ∃ owner, (c.1, owner) ∈ claims ∧ owner ≠ c.2 := by
    constructor
    · intro hne
      cases hfound : table.lookup c.1 with
      | none => exact absurd (by rw [hfound]; rfl) hne
      | some owner => exact ⟨owner, (h _ _).mp hfound, by simpa [hfound] using hne⟩
    · rintro ⟨owner, hmem, hne⟩
      rwa [(h _ _).mpr hmem]
  have hclaim : claim table c = none ↔ (table.lookup c.1).getD c.2 ≠ c.2 := by
    unfold claim
    split <;> simp_all
  rw [hclaim, hheld]
  constructor
  · rintro ⟨owner, hmem, hne⟩ hconcord
    exact hne (hconcord _ (List.mem_append_left _ hmem) c (by simp) rfl)
  · intro hdis
    by_contra hnone
    have hsame : ∀ d ∈ claims, d.1 = c.1 → d.2 = c.2 := by
      rintro ⟨key, owner⟩ hd rfl
      by_contra hne
      exact hnone ⟨owner, hd, hne⟩
    refine hdis fun d hd e he hkey => ?_
    rcases List.mem_append.mp hd with hd | hd <;> rcases List.mem_append.mp he with he | he
    · exact h.concordant d hd e he hkey
    · rw [List.mem_singleton.mp he] at hkey ⊢
      exact hsame d hd hkey
    · rw [List.mem_singleton.mp hd] at hkey ⊢
      exact (hsame e he hkey.symm).symm
    · rw [List.mem_singleton.mp hd, List.mem_singleton.mp he]

/-- **An accepted claim is recorded** beside the earlier ones. -/
theorem Records.claim {table' : List (κ × ω)} (h : Records table claims)
    (hclaim : claim table c = some table') : Records table' (claims ++ [c]) := by
  unfold Lib.claim at hclaim
  split at hclaim
  · cases hclaim
  · rename_i hheld
    rw [not_not] at hheld
    cases hclaim
    intro key owner
    rw [lookup_upsertBy, List.mem_append, List.mem_singleton, ← h key owner]
    by_cases hkey : key = c.1
    · subst hkey
      rw [if_pos rfl, Option.some.injEq]
      constructor
      · rintro rfl
        exact .inr rfl
      · rintro (hfound | hc)
        · rw [hfound] at hheld
          exact hheld.symm
        · rw [← hc]
    · rw [if_neg hkey]
      refine ⟨.inl, fun hor => hor.resolve_right fun hc => hkey ?_⟩
      rw [← hc]

end Step

/-- **A run of claims is refused** exactly when two of the claims, the recorded ones included,
disagree; otherwise the table records all of them. -/
theorem foldlM_claim {table claims : List (κ × ω)} (h : Records table claims)
    (new : List (κ × ω)) :
    (new.foldlM claim table = none ↔ ¬ Concordant (claims ++ new)) ∧
      ∀ table', new.foldlM claim table = some table' → Records table' (claims ++ new) := by
  induction new generalizing table claims with
  | nil =>
      rw [List.append_nil, List.foldlM_nil]
      refine ⟨⟨fun hnone => absurd hnone (by simp), fun hdis => absurd h.concordant hdis⟩, ?_⟩
      intro table' hsome
      rwa [← Option.some.inj hsome]
  | cons c new ih =>
      rw [List.foldlM_cons, List.append_cons]
      cases hclaim : claim table c with
      | none =>
          have hdis := (claim_eq_none h).mp hclaim
          have hdis' : ¬ Concordant ((claims ++ [c]) ++ new) := fun hconcord =>
            hdis (hconcord.mono fun d hd => List.mem_append_left _ hd)
          exact ⟨⟨fun _ => hdis', fun _ => rfl⟩, fun _ hsome => nomatch hsome⟩
      | some table' => exact ih (h.claim hclaim)

end Lib
