import FastProto.Link
import Mathlib.Data.Finset.Card
import Mathlib.Data.Finset.Lattice.Fold
import Mathlib.Data.Set.Finite.Basic
import Mathlib.Order.Monotone.Basic

/-! # What every run of linking keeps

Linking walks over a set of message classes, depth first, in any number of threads. `Linkable` says
what one native `link` call does on the set; from it follow what one step of a thread does
(`Linkable.threadStep`) and that every run ends (`Linkable.terminates`). -/

namespace FastProto

open Lib

/-- **A set of classes that links**: linking one of them makes its descriptor `Done`, and goes on with
classes of the set or with enums, among them those that `Goes` demands. -/
structure Linkable (p : Program) (dom : ClassId → DescId → Prop)
    (Done : DescId → Descriptor → Prop) (Goes : DescId → ClassId → Prop) : Prop where
  fastproto : ∀ c d, dom c d → (p.cls c).fastproto = some d
  flag : ∀ c d desc, dom c d → Done d desc → desc.linked = true
  linkOwn : ∀ c d desc, dom c d → desc = p.compiled d ∨ Done d desc →
    ∃ desc' targets, p.linkOwn c desc = .ok (desc', targets) ∧ Done d desc' ∧
      targets.length ≤ (p.inner d).refFields.length ∧
      (∀ target ∈ targets, ∀ d', (p.cls target).fastproto = some d' → dom target d') ∧
      ∀ c', Goes d c' → c' ∈ targets

/-! ## What is pending -/

/-- The classes an activation still has to enter or to link. -/
def Frame.pending : Frame → List ClassId
  | .enter cls | .link cls => [cls]
  | .loop targets => targets

/-- The classes the activations on a stack still have to enter or to link. -/
def pending (stack : List Frame) : List ClassId := stack.flatMap Frame.pending

@[simp] theorem pending_nil : pending [] = [] := rfl

@[simp] theorem pending_append (stack stack' : List Frame) :
    pending (stack ++ stack') = pending stack ++ pending stack' := List.flatMap_append

/-- The class whose method a thread runs. -/
def Thread.cls : Thread → ClassId
  | .call cls _ | .linking cls _ _ | .ready cls _ | .done cls _ _ => cls

/-- The activations a thread still has to leave; a thread that did not read the flag yet has its
class to enter. -/
def Thread.stack : Thread → List Frame
  | .call cls _ => [.enter cls]
  | .linking _ _ stack => stack
  | .ready _ _ | .done _ _ _ => []

@[simp] theorem Thread.cls_resume (cls : ClassId) (op : Operation) (stack : List Frame) :
    (Thread.resume cls op stack).cls = cls := by
  cases stack <;> rfl

@[simp] theorem Thread.stack_resume (cls : ClassId) (op : Operation) (stack : List Frame) :
    (Thread.resume cls op stack).stack = stack := by
  cases stack <;> rfl

section Invariant

variable {p : Program} {dom : ClassId → DescId → Prop} {Done : DescId → Descriptor → Prop}
  {Goes : DescId → ClassId → Prop}

variable (p dom) in
/-- An activation works on classes of the set. -/
def Frame.Within : Frame → Prop
  | .enter cls | .link cls => ∃ desc, dom cls desc
  | .loop targets => ∀ target ∈ targets, ∀ desc, (p.cls target).fastproto = some desc → dom target desc

variable (p dom Done) in
/-- Every descriptor of the set is as `compile_descriptor` left it or linked. -/
def Intact (descs : Descriptors) : Prop :=
  ∀ c d, dom c d → descs d = p.compiled d ∨ Done d (descs d)

variable (p dom) in
/-- **What is true of every thread**: it works on classes of the set, and the class it was called on is
linked or still to be entered. -/
structure Thread.Sound (descs : Descriptors) (t : Thread) : Prop where
  within : ∀ frame ∈ t.stack, frame.Within p dom
  root : ∃ d, dom t.cls d ∧ ((descs d).linked = true ∨ t.cls ∈ pending t.stack)

/-- **What a step may do to the link state**, with the classes pending before and after it: nothing
is unlinked, a class stops to be pending once it is linked, and the classes that a class newly linked
goes on with become pending. -/
structure LinkStep (dom : ClassId → DescId → Prop) (Goes : DescId → ClassId → Prop)
    (descs descs' : Descriptors) (before after : List ClassId) : Prop where
  mono : ∀ d, (descs d).linked = true → (descs' d).linked = true
  entered : ∀ c d, dom c d → c ∈ before → (descs' d).linked = true ∨ c ∈ after
  targets : ∀ c d, dom c d → (descs' d).linked = true → (descs d).linked = true ∨
    ∀ c', Goes d c' → c' ∈ after

/-- Nothing is linked at first. -/
theorem intact_compiled : Intact p dom Done p.compiled := fun _ _ _ => .inl rfl

/-- The flag of a descriptor of the set says whether it is linked. -/
theorem Intact.done_of_linked {descs : Descriptors} (hin : Intact p dom Done descs) {c : ClassId}
    {d : DescId} (hdom : dom c d) (h : (descs d).linked = true) : Done d (descs d) := by
  rcases hin c d hdom with hcompiled | hlinked
  · rw [hcompiled] at h
    cases h
  · exact hlinked

/-- A thread that starts on a class of the set is sound. -/
theorem Thread.sound_call {descs : Descriptors} {c : ClassId} (hc : ∃ d, dom c d) (op : Operation) :
    (Thread.call c op).Sound p dom descs := by
  obtain ⟨d, hdom⟩ := hc
  refine ⟨?_, d, hdom, .inr (List.mem_singleton.mpr rfl)⟩
  intro frame hframe
  obtain rfl := List.mem_singleton.mp hframe
  exact ⟨d, hdom⟩

/-- A step that leaves the link state alone and drops no class but linked ones. -/
theorem LinkStep.of_same {descs : Descriptors} {before after : List ClassId}
    (h : ∀ c d, dom c d → c ∈ before → (descs d).linked = true ∨ c ∈ after) :
    LinkStep dom Goes descs descs before after where
  mono := fun _ => id
  entered := h
  targets := fun _ _ _ => .inl

/-- Classes pending before and after on the rest of the stack. -/
theorem LinkStep.append {descs descs' : Descriptors} {before after : List ClassId}
    (h : LinkStep dom Goes descs descs' before after) (rest : List ClassId) :
    LinkStep dom Goes descs descs' (before ++ rest) (after ++ rest) where
  mono := h.mono
  entered := by
    intro c d hdom hc
    rw [List.mem_append] at hc ⊢
    rcases hc with hc | hc
    · exact (h.entered c d hdom hc).imp_right .inl
    · exact .inr (.inr hc)
  targets := by
    intro c d hdom hlinked
    refine (h.targets c d hdom hlinked).imp_right fun htargets c' href => ?_
    exact List.mem_append_left _ (htargets c' href)

/-- A thread stays sound while the others move: nothing is unlinked. -/
theorem Thread.Sound.mono {descs descs' : Descriptors} {t : Thread} (hs : t.Sound p dom descs)
    (hmono : ∀ d, (descs d).linked = true → (descs' d).linked = true) : t.Sound p dom descs' where
  within := hs.within
  root := by
    obtain ⟨d, hdom, hroot⟩ := hs.root
    exact ⟨d, hdom, hroot.imp_left (hmono d)⟩

/-- A thread that moves on with other activations of the set is still sound. -/
theorem Thread.Sound.step {descs descs' : Descriptors} {t t' : Thread} (hs : t.Sound p dom descs)
    (hcls : t'.cls = t.cls) (hwithin : ∀ frame ∈ t'.stack, frame.Within p dom)
    (hlink : LinkStep dom Goes descs descs' (pending t.stack) (pending t'.stack)) :
    t'.Sound p dom descs' where
  within := hwithin
  root := by
    obtain ⟨d, hdom, hroot⟩ := hs.root
    rw [hcls]
    rcases hroot with hlinked | hpending
    · exact ⟨d, hdom, .inl (hlink.mono d hlinked)⟩
    · exact ⟨d, hdom, hlink.entered _ d hdom hpending⟩

/-! ## Steps -/

variable (p dom Done Goes) in
/-- **What an activation does in one step**: the activations that take its place, and the descriptors
after it. -/
inductive Move (descs : Descriptors) : Frame → Descriptors → List Frame → Prop
  /-- The flag is set. -/
  | skip {c : ClassId} {d : DescId} (hdom : dom c d) (hflag : (descs d).linked = true) :
      Move descs (.enter c) descs []
  /-- The flag is not set. -/
  | enter {c : ClassId} {d : DescId} (hdom : dom c d) (hflag : (descs d).linked = false) :
      Move descs (.enter c) descs [.link c]
  /-- The native `link` call. -/
  | link {c : ClassId} {d : DescId} {desc : Descriptor} {targets : List ClassId} (hdom : dom c d)
      (hdone : Done d desc) (hlen : targets.length ≤ (p.inner d).refFields.length)
      (hwithin : (Frame.loop targets).Within p dom) (hgoes : ∀ c', Goes d c' → c' ∈ targets) :
      Move descs (.link c) (Function.update descs d desc) [.loop targets]
  /-- All referenced classes were entered. -/
  | finish : Move descs (.loop []) descs []
  /-- The next referenced class is an enum. -/
  | pass {target : ClassId} {targets : List ClassId} (hproto : (p.cls target).fastproto = none)
      (hwithin : (Frame.loop targets).Within p dom) :
      Move descs (.loop (target :: targets)) descs [.loop targets]
  /-- The next referenced class is a message. -/
  | descend {target : ClassId} {targets : List ClassId} (hdom : ∃ d, dom target d)
      (hwithin : (Frame.loop targets).Within p dom) :
      Move descs (.loop (target :: targets)) descs [.enter target, .loop targets]

/-- The activations that take the place of one work on classes of the set. -/
theorem Move.within {descs descs' : Descriptors} {frame : Frame} {frames : List Frame}
    (h : Move p dom Done Goes descs frame descs' frames) : ∀ f ∈ frames, f.Within p dom := by
  intro f hf
  cases h with
  | skip | finish => cases hf
  | enter hdom => rw [List.mem_singleton.mp hf]; exact ⟨_, hdom⟩
  | link _ _ _ hwithin | pass _ hwithin => rw [List.mem_singleton.mp hf]; exact hwithin
  | descend hdom hwithin =>
      rcases List.mem_cons.mp hf with rfl | hf
      · exact hdom
      · rw [List.mem_singleton.mp hf]; exact hwithin

/-- A step leaves every descriptor of the set unlinked or done. -/
theorem Move.intact {descs descs' : Descriptors} {frame : Frame} {frames : List Frame}
    (h : Move p dom Done Goes descs frame descs' frames) (hin : Intact p dom Done descs) :
    Intact p dom Done descs' := by
  cases h with
  | @link c d _ _ _ hdone =>
      intro c' d' hdom'
      by_cases hd : d' = d
      · rw [hd, Function.update_self]
        exact .inr hdone
      · rw [Function.update_of_ne hd]
        exact hin c' d' hdom'
  | _ => exact hin

variable (h : Linkable p dom Done Goes)
include h

/-- A class has one descriptor. -/
theorem Linkable.desc_unique {c : ClassId} {d d' : DescId} (hdom : dom c d) (hdom' : dom c d') :
    d = d' := by
  have hsame := (h.fastproto c d hdom).symm.trans (h.fastproto c d' hdom')
  exact Option.some.inj hsame

/-- **What a step of an activation does to the link state.** -/
theorem Linkable.linkStep {descs descs' : Descriptors} {frame : Frame} {frames : List Frame}
    (hmove : Move p dom Done Goes descs frame descs' frames) :
    LinkStep dom Goes descs descs' frame.pending (pending frames) := by
  cases hmove with
  | skip hdom hflag =>
      refine .of_same fun c' d' hdom' hc' => .inl ?_
      obtain rfl := List.mem_singleton.mp hc'
      rwa [h.desc_unique hdom' hdom]
  | enter => exact .of_same fun _ _ _ hc' => .inr hc'
  | @link c d desc targets hdom hdone _ _ hgoes =>
      have hself : (Function.update descs d desc d).linked = true := by
        rw [Function.update_self]
        exact h.flag c d desc hdom hdone
      refine ⟨?_, ?_, ?_⟩
      · intro d' hd'
        by_cases hd : d' = d
        · rw [hd]
          exact hself
        · rwa [Function.update_of_ne hd]
      · intro c' d' hdom' hc'
        obtain rfl := List.mem_singleton.mp hc'
        rw [h.desc_unique hdom' hdom]
        exact .inl hself
      · intro c' d' hdom' hd'
        by_cases hd : d' = d
        · rw [hd]
          exact .inr fun c'' hc'' => by simpa [pending, Frame.pending] using hgoes c'' hc''
        · rw [Function.update_of_ne hd] at hd'
          exact .inl hd'
  | finish => exact .of_same fun _ _ _ => nofun
  | pass hproto =>
      -- a class of the set is no enum
      refine .of_same fun c d hdom hc => ?_
      rcases List.mem_cons.mp hc with rfl | hc
      · have hproto' := h.fastproto c d hdom
        rw [hproto] at hproto'
        cases hproto'
      · exact .inr (by simpa [pending, Frame.pending] using hc)
  | descend =>
      exact .of_same fun _ _ _ hc => .inr (by simpa [pending, Frame.pending] using hc)

/-- **An activation on classes of the set makes one of the moves.** -/
theorem Linkable.frameStep {descs : Descriptors} (hin : Intact p dom Done descs) {frame : Frame}
    (hframe : frame.Within p dom) (cls : ClassId) (op : Operation) (stack : List Frame) :
    ∃ descs' frames, p.frameStep descs cls op frame stack
        = (descs', .resume cls op (frames ++ stack)) ∧
      Move p dom Done Goes descs frame descs' frames := by
  cases frame with
  | enter c =>
      obtain ⟨d, hdom⟩ := hframe
      unfold Program.frameStep
      simp only [h.fastproto c d hdom]
      cases hflag : (descs d).linked with
      | true => exact ⟨descs, [], rfl, .skip hdom hflag⟩
      | false => exact ⟨descs, [.link c], rfl, .enter hdom hflag⟩
  | link c =>
      obtain ⟨d, hdom⟩ := hframe
      obtain ⟨desc, targets, hlink, hdone, hlen, hwithin, hgoes⟩ :=
        h.linkOwn c d _ hdom (hin c d hdom)
      unfold Program.frameStep
      simp only [h.fastproto c d hdom, hlink]
      exact ⟨_, [.loop targets], rfl, .link hdom hdone hlen hwithin hgoes⟩
  | loop targets =>
      cases targets with
      | nil => exact ⟨descs, [], rfl, .finish⟩
      | cons target targets =>
          have hrest : Frame.Within p dom (.loop targets) := fun t ht =>
            hframe t (List.mem_cons_of_mem _ ht)
          unfold Program.frameStep
          cases hproto : (p.cls target).fastproto with
          | none =>
              simp only [hproto, Option.isSome_none, Bool.false_eq_true, if_false]
              exact ⟨descs, [.loop targets], rfl, .pass hproto hrest⟩
          | some d =>
              simp only [hproto, Option.isSome_some, if_true]
              exact ⟨descs, [.enter target, .loop targets], rfl,
                .descend ⟨d, hframe target (List.mem_cons_self ..) d hproto⟩ hrest⟩

/-- **What one step of a thread does**: it keeps the invariant, and a thread that is done ran the codec
on a linked descriptor. -/
theorem Linkable.threadStep {descs descs' : Descriptors} {t t' : Thread}
    (hin : Intact p dom Done descs) (hs : t.Sound p dom descs)
    (hstep : p.threadStep descs t = some (descs', t')) :
    Intact p dom Done descs' ∧ t'.Sound p dom descs' ∧
      LinkStep dom Goes descs descs' (pending t.stack) (pending t'.stack) ∧
      ∀ cls op outcome, t' = .done cls op outcome → ∃ d, dom cls d ∧ (descs d).linked = true ∧
        t.stack = [] ∧ outcome = p.run descs cls d op := by
  obtain ⟨d, hdom, hroot⟩ := hs.root
  have hproto := h.fastproto _ d hdom
  cases t with
  | call cls op =>
      have henter : LinkStep dom Goes descs descs [cls] [cls] := .of_same fun _ _ _ hc => .inr hc
      simp only [Program.threadStep, show (p.cls cls).fastproto = some d from hproto] at hstep
      by_cases hflag : (descs d).linked = true
      · rw [if_pos hflag] at hstep
        cases hstep
        -- the class is linked already, so nothing is left to do
        have hlink : LinkStep dom Goes descs descs [cls] [] := by
          refine .of_same fun c' d' hdom' hc' => .inl ?_
          obtain rfl := List.mem_singleton.mp hc'
          rwa [h.desc_unique hdom' hdom]
        exact ⟨hin, ⟨nofun, d, hdom, .inl hflag⟩, hlink, nofun⟩
      · rw [if_neg hflag] at hstep
        cases hstep
        exact ⟨hin, ⟨hs.within, hs.root⟩, henter, nofun⟩
  | linking cls op stack =>
      cases stack with
      | nil =>
          cases hstep
          exact ⟨hin, ⟨nofun, hs.root⟩, .of_same fun _ _ _ hc => .inr hc, nofun⟩
      | cons frame stack =>
          obtain ⟨descs₁, frames, hframe, hmove⟩ := h.frameStep hin
            (hs.within frame (List.mem_cons_self ..)) cls op stack
          simp only [Program.threadStep, hframe, Option.some.injEq, Prod.mk.injEq] at hstep
          obtain ⟨rfl, rfl⟩ := hstep
          -- the frames below the innermost one are untouched
          have hpending : LinkStep dom Goes descs descs₁ (pending (frame :: stack))
              (pending (Thread.resume cls op (frames ++ stack)).stack) := by
            rw [Thread.stack_resume, pending_append]
            exact (h.linkStep hmove).append (pending stack)
          refine ⟨hmove.intact hin, hs.step (Thread.cls_resume ..) ?_ hpending, hpending, ?_⟩
          · rw [Thread.stack_resume]
            intro f hf
            rcases List.mem_append.mp hf with hf | hf
            · exact hmove.within f hf
            · exact hs.within f (List.mem_cons_of_mem _ hf)
          · intro cls' op' outcome hdone
            cases hrest : frames ++ stack with
            | nil => rw [hrest] at hdone; cases hdone
            | cons f fs => rw [hrest] at hdone; cases hdone
  | ready cls op =>
      simp only [Program.threadStep, show (p.cls cls).fastproto = some d from hproto,
        Option.some.injEq, Prod.mk.injEq] at hstep
      obtain ⟨rfl, rfl⟩ := hstep
      have hlinked : (descs d).linked = true := hroot.resolve_right nofun
      refine ⟨hin, ⟨nofun, d, hdom, .inl hlinked⟩, .of_same fun _ _ _ hc => .inr hc, ?_⟩
      rintro _ _ _ ⟨⟩
      exact ⟨d, hdom, hlinked, rfl, rfl⟩
  | done cls op outcome => cases hstep

end Invariant

/-! ## Every run ends

The cost of a thread bounds the steps it still makes. It depends on the number of descriptors not
linked yet: linking one of them is paid for by the number going down. -/

/-- The number of descriptors not linked yet. -/
def unlinked (all : Finset DescId) (descs : Descriptors) : Nat :=
  (all.filter fun d => (descs d).linked = false).card

/-- What entering a class costs at most while `n` descriptors are not linked, each with at most `k`
references. -/
def enterCost (k : Nat) : Nat → Nat
  | 0 => 1
  | n + 1 => 3 + k * (enterCost k n + 1)

/-- What the native `link` call and the loop after it cost. -/
def linkCost (k n : Nat) : Nat := 2 + k * (enterCost k n + 1)

/-- Entering a class that is not linked makes one step before the `link` call. -/
theorem enterCost_succ (k n : Nat) : enterCost k (n + 1) = linkCost k n + 1 := by
  unfold linkCost
  rw [enterCost]
  omega

/-- A class is entered by at least one step. -/
theorem enterCost_pos (k n : Nat) : 0 < enterCost k n := by
  cases n with
  | zero => exact Nat.one_pos
  | succ n => rw [enterCost_succ]; omega

/-- The costs do not grow while classes are linked. -/
theorem enterCost_mono (k : Nat) : Monotone (enterCost k) := by
  refine monotone_nat_of_le_succ fun n => ?_
  induction n with
  | zero => exact enterCost_pos k 1
  | succ n ih =>
      rw [enterCost, enterCost]
      have := Nat.mul_le_mul_left k (Nat.add_le_add_right ih 1)
      omega

/-- The costs do not grow while classes are linked. -/
theorem linkCost_mono (k : Nat) : Monotone (linkCost k) := by
  intro n m hle
  have := Nat.mul_le_mul_left k (Nat.add_le_add_right (enterCost_mono k hle) 1)
  unfold linkCost
  omega

section Termination

variable {p : Program} {dom : ClassId → DescId → Prop} {Done : DescId → Descriptor → Prop}
  {Goes : DescId → ClassId → Prop}

variable (p) in
/-- What an activation costs: its class is one of those not linked, unless it was linked meanwhile. -/
def Frame.cost (k n : Nat) (descs : Descriptors) : Frame → Nat
  | .enter _ => enterCost k n
  | .link c =>
      match (p.cls c).fastproto with
      | some d => if (descs d).linked then linkCost k n else linkCost k (n - 1)
      | none => 0
  | .loop targets => 1 + targets.length * (enterCost k n + 1)

variable (p) in
/-- What a thread costs. -/
def Thread.cost (all : Finset DescId) (k : Nat) (descs : Descriptors) : Thread → Nat
  | .call _ _ => enterCost k (unlinked all descs) + 3
  | .linking _ _ stack => (stack.map (Frame.cost p k (unlinked all descs) descs)).sum + 2
  | .ready _ _ => 1
  | .done _ _ _ => 0

/-- Linking lowers the number of descriptors not linked. -/
theorem unlinked_le (all : Finset DescId) {descs descs' : Descriptors}
    (hmono : ∀ d, (descs d).linked = true → (descs' d).linked = true) :
    unlinked all descs' ≤ unlinked all descs := by
  refine Finset.card_le_card fun d hd => ?_
  rw [Finset.mem_filter] at hd ⊢
  refine ⟨hd.1, ?_⟩
  rw [← Bool.not_eq_true]
  intro hlinked
  rw [hmono d hlinked] at hd
  exact absurd hd.2 (by decide)

/-- Linking a descriptor for the first time lowers the number of those not linked. -/
theorem unlinked_lt {all : Finset DescId} {descs descs' : Descriptors}
    (hmono : ∀ d, (descs d).linked = true → (descs' d).linked = true) {d : DescId} (hd : d ∈ all)
    (hbefore : (descs d).linked = false) (hafter : (descs' d).linked = true) :
    unlinked all descs' < unlinked all descs := by
  refine Finset.card_lt_card ⟨?_, ?_⟩
  · intro d' hd'
    rw [Finset.mem_filter] at hd' ⊢
    refine ⟨hd'.1, ?_⟩
    rw [← Bool.not_eq_true]
    intro hlinked
    rw [hmono d' hlinked] at hd'
    exact absurd hd'.2 (by decide)
  · intro hsub
    have hmem := hsub (Finset.mem_filter.mpr ⟨hd, hbefore⟩)
    rw [Finset.mem_filter, hafter] at hmem
    exact absurd hmem.2 (by decide)

variable (h : Linkable p dom Done Goes) {all : Finset DescId} (hall : ∀ c d, dom c d → d ∈ all)
  {k : Nat} (hk : ∀ c d, dom c d → (p.inner d).refFields.length ≤ k)
include h hall

/-- An activation does not become more expensive while others move. -/
theorem Linkable.cost_le {descs descs' : Descriptors}
    (hmono : ∀ d, (descs d).linked = true → (descs' d).linked = true) {frame : Frame}
    (hframe : frame.Within p dom) :
    frame.cost p k (unlinked all descs') descs' ≤ frame.cost p k (unlinked all descs) descs := by
  have hle := unlinked_le all hmono
  cases frame with
  | enter c => exact enterCost_mono k hle
  | loop targets =>
      have := Nat.mul_le_mul_left targets.length (Nat.add_le_add_right (enterCost_mono k hle) 1)
      simp only [Frame.cost]
      omega
  | link c =>
      obtain ⟨d, hdom⟩ := hframe
      simp only [Frame.cost, h.fastproto c d hdom]
      cases hbefore : (descs d).linked with
      | true =>
          rw [hmono d hbefore]
          exact linkCost_mono k hle
      | false =>
          cases hafter : (descs' d).linked with
          | false => exact linkCost_mono k (Nat.sub_le_sub_right hle 1)
          | true =>
              -- linked by another thread meanwhile
              have hlt := unlinked_lt hmono (hall c d hdom) hbefore hafter
              exact linkCost_mono k (Nat.le_sub_one_of_lt hlt)

/-- The activations on a stack do not become more expensive while others move. -/
theorem Linkable.sum_cost_le {descs descs' : Descriptors}
    (hmono : ∀ d, (descs d).linked = true → (descs' d).linked = true) {stack : List Frame}
    (hstack : ∀ frame ∈ stack, frame.Within p dom) :
    (stack.map (Frame.cost p k (unlinked all descs') descs')).sum
      ≤ (stack.map (Frame.cost p k (unlinked all descs) descs)).sum :=
  List.sum_le_sum fun frame hframe => h.cost_le hall hmono (hstack frame hframe)

include hk

/-- **Every move of an activation lowers its cost.** -/
theorem Linkable.cost_lt {descs descs' : Descriptors} {frame : Frame} {frames : List Frame}
    (hmove : Move p dom Done Goes descs frame descs' frames) :
    (frames.map (Frame.cost p k (unlinked all descs') descs')).sum
      < frame.cost p k (unlinked all descs) descs := by
  have hmono := (h.linkStep hmove).mono
  cases hmove with
  | skip => exact enterCost_pos k _
  | @enter c d hdom hflag =>
      have hpos : 0 < unlinked all descs :=
        Finset.card_pos.mpr ⟨d, Finset.mem_filter.mpr ⟨hall c d hdom, hflag⟩⟩
      obtain ⟨n, hn⟩ := Nat.exists_eq_succ_of_ne_zero hpos.ne'
      simp only [Frame.cost, h.fastproto c d hdom, hflag, List.map_cons, List.map_nil,
        List.sum_cons, List.sum_nil, hn, Nat.succ_eq_add_one, enterCost_succ]
      simp
  | @link c d desc targets hdom hdone hlen =>
      have hbound : targets.length ≤ k := hlen.trans (hk c d hdom)
      have hloop : ∀ n m, m ≤ n → 1 + targets.length * (enterCost k m + 1) < linkCost k n := by
        intro n m hle
        have := Nat.mul_le_mul hbound (Nat.add_le_add_right (enterCost_mono k hle) 1)
        unfold linkCost
        omega
      simp only [Frame.cost, h.fastproto c d hdom, List.map_cons, List.map_nil, List.sum_cons,
        List.sum_nil, Nat.add_zero]
      cases hbefore : (descs d).linked with
      | true => exact hloop _ _ (unlinked_le all hmono)
      | false =>
          have hafter : (Function.update descs d desc d).linked = true := by
            rw [Function.update_self]
            exact h.flag c d desc hdom hdone
          exact hloop _ _ (Nat.le_sub_one_of_lt (unlinked_lt hmono (hall c d hdom) hbefore hafter))
  | finish => simp [Frame.cost]
  | pass =>
      simp only [Frame.cost, List.map_cons, List.map_nil, List.sum_cons, List.sum_nil,
        List.length_cons, Nat.add_mul]
      omega
  | descend =>
      simp only [Frame.cost, List.map_cons, List.map_nil, List.sum_cons, List.sum_nil,
        List.length_cons, Nat.add_mul]
      omega

/-- **Every step of a thread lowers its cost**, and raises the cost of no other thread. -/
theorem Linkable.thread_cost {descs descs' : Descriptors} {t t' : Thread}
    (hin : Intact p dom Done descs) (hs : t.Sound p dom descs)
    (hstep : p.threadStep descs t = some (descs', t')) :
    t'.cost p all k descs' < t.cost p all k descs ∧
      ∀ other : Thread, other.Sound p dom descs →
        other.cost p all k descs' ≤ other.cost p all k descs := by
  obtain ⟨-, -, hlink, -⟩ := h.threadStep hin hs hstep
  constructor
  · obtain ⟨d, hdom, -⟩ := hs.root
    have hproto := h.fastproto _ d hdom
    cases t with
    | call cls op =>
        simp only [Program.threadStep, show (p.cls cls).fastproto = some d from hproto] at hstep
        split at hstep
        · cases hstep
          simp only [Thread.cost]
          omega
        · cases hstep
          simp only [Thread.cost, Frame.cost, List.map_cons, List.map_nil, List.sum_cons,
            List.sum_nil]
          omega
    | linking cls op stack =>
        cases stack with
        | nil =>
            cases hstep
            simp [Thread.cost]
        | cons frame stack =>
            obtain ⟨descs₁, frames, hframe, hmove⟩ := h.frameStep hin
              (hs.within frame (List.mem_cons_self ..)) cls op stack
            simp only [Program.threadStep, hframe, Option.some.injEq, Prod.mk.injEq] at hstep
            obtain ⟨rfl, rfl⟩ := hstep
            -- the frames that replace the innermost one cost less, the others no more
            have hlt := h.cost_lt hall hk hmove
            have hle := h.sum_cost_le hall (h.linkStep hmove).mono (k := k)
              fun f hf => hs.within f (List.mem_cons_of_mem _ hf)
            have hresume : (Thread.resume cls op (frames ++ stack)).cost p all k descs₁
                ≤ ((frames ++ stack).map (Frame.cost p k (unlinked all descs₁) descs₁)).sum + 2 := by
              cases frames ++ stack with
              | nil => simp [Thread.resume, Thread.cost]
              | cons f fs => exact Nat.le_refl _
            refine Nat.lt_of_le_of_lt hresume ?_
            simp only [Thread.cost, List.map_append, List.sum_append, List.map_cons, List.sum_cons]
            omega
    | ready cls op =>
        simp only [Program.threadStep, show (p.cls cls).fastproto = some d from hproto,
          Option.some.injEq, Prod.mk.injEq] at hstep
        obtain ⟨rfl, rfl⟩ := hstep
        exact Nat.one_pos
    | done cls op outcome => cases hstep
  · intro other hother
    cases other with
    | call cls op => exact Nat.add_le_add_right (enterCost_mono k (unlinked_le all hlink.mono)) 3
    | linking cls op stack => exact Nat.add_le_add_right (h.sum_cost_le hall hlink.mono hother.within) 2
    | ready cls op => exact Nat.le_refl _
    | done cls op outcome => exact Nat.le_refl _

omit hall hk in
/-- **Every run ends** when the set has finitely many descriptors, from any state of them. -/
theorem Linkable.terminates_of_sound (hfinite : {d | ∃ c, dom c d}.Finite) {descs : Descriptors}
    (hin : Intact p dom Done descs) {pool : List Thread} (hpool : ∀ t ∈ pool, t.Sound p dom descs) :
    Threads.Terminates p.threadStep (descs, pool) := by
  have hall : ∀ c d, dom c d → d ∈ hfinite.toFinset := fun c d hdom =>
    hfinite.mem_toFinset.mpr ⟨c, hdom⟩
  have hk : ∀ c d, dom c d →
      (p.inner d).refFields.length ≤ hfinite.toFinset.sup fun d => (p.inner d).refFields.length :=
    fun c d hdom => Finset.le_sup (f := fun d => (p.inner d).refFields.length) (hall c d hdom)
  refine Threads.terminates (Intact p dom Done) (fun descs t => t.Sound p dom descs) ?_
    (Thread.cost p hfinite.toFinset _) (fun s t s' t' hin hs hstep =>
      h.thread_cost hall hk hin hs hstep) hin hpool
  intro s t s' t' hin hs hstep
  obtain ⟨hin', hs', hlink, -⟩ := h.threadStep hin hs hstep
  exact ⟨hin', hs', fun other hother => hother.mono hlink.mono⟩

omit hall hk in
/-- Every run of first calls ends. -/
theorem Linkable.terminates (hfinite : {d | ∃ c, dom c d}.Finite) {calls : List (ClassId × Operation)}
    (hcalls : ∀ call ∈ calls, ∃ d, dom call.1 d) :
    Threads.Terminates p.threadStep (p.compiled, calls.map fun call => .call call.1 call.2) := by
  refine h.terminates_of_sound hfinite intact_compiled fun t ht => ?_
  obtain ⟨call, hcall, rfl⟩ := List.mem_map.mp ht
  exact Thread.sound_call (hcalls call hcall) call.2

end Termination

end FastProto
