import FastProto.LinkRace

/-! # One call of `_ensure_linked`

Linking marks a class before it visits the classes the class refers to, so during the walk a linked
descriptor may refer to one that is not linked yet; such a class is on the stack. When the call
returns the stack is empty and the linked descriptors are closed under references again. When it
raises, the classes above the one that failed stay linked: the linked descriptors are closed only if
the class that failed is the one the call was made on. -/

namespace FastProto

open Lib

/-! ## States of the descriptors -/

/-- The class stored for a reference field of a descriptor. -/
def Descriptor.Refers (desc : Descriptor) (linked : LinkedRef) : Prop :=
  ∃ field ∈ desc.inner.fields, field.kind.needsRef = true ∧ desc.ref field.number = some linked

/-- **Reachable descriptors**, through the classes stored for message fields, repeated fields and map
values. -/
def Descriptors.Reaches (descs : Descriptors) : DescId → DescId → Prop :=
  Relation.ReflTransGen fun d d' => ∃ linked, (descs d).Refers linked ∧ linked.desc = some d'

/-- **Each linked descriptor has all descriptors reachable from it linked.** -/
def Descriptors.Closed (descs : Descriptors) : Prop :=
  ∀ d, (descs d).linked = true → ∀ d', descs.Reaches d d' → (descs d').linked = true

/-- A linked descriptor, with a class for each of its reference fields. -/
structure Program.Complete (p : Program) (d : DescId) (desc : Descriptor) : Prop where
  inner : desc.inner = p.inner d
  linked : desc.linked = true
  refs : ∀ number name, (number, name) ∈ (p.inner d).refFields →
    ∃ linked, desc.ref number = some linked

/-- **A state of the descriptors**: each is as `compile_descriptor` left it or linked. -/
def Program.State (p : Program) (descs : Descriptors) : Prop :=
  ∀ d, descs d = p.compiled d ∨ p.Complete d (descs d)

/-- A set of message classes with descriptors of their own fields, that every reference that resolves
stays in. -/
structure ClassGraph (p : Program) (dom : ClassId → DescId → Prop) : Prop where
  fastproto : ∀ c d, dom c d → (p.cls c).fastproto = some d
  numbers : ∀ c d, dom c d → ((p.inner d).fields.map (·.number)).Nodup
  targets : ∀ c d, dom c d → ∀ number name, (number, name) ∈ (p.inner d).refFields →
    ∀ target, resolve p.getattr (p.moduleVars c) name = .ok target →
    ∀ d', (p.cls target).fastproto = some d' → dom target d'

/-- Every reference of a class resolves in the namespace of its module. -/
def Program.Resolves (p : Program) (c : ClassId) (d : DescId) : Prop :=
  ∀ number name, (number, name) ∈ (p.inner d).refFields →
    ∃ target, resolve p.getattr (p.moduleVars c) name = .ok target

section States

variable {p : Program} {descs : Descriptors}

/-- Closure is closure under single references. -/
theorem Descriptors.closed_iff : descs.Closed ↔ ∀ d, (descs d).linked = true →
    ∀ linked d', (descs d).Refers linked → linked.desc = some d' → (descs d').linked = true := by
  constructor
  · intro h d hd linked d' hrefers hdesc
    exact h d hd d' (.single ⟨linked, hrefers, hdesc⟩)
  · intro h d hd d' hreach
    induction hreach with
    | refl => exact hd
    | tail _ hlast ih =>
        obtain ⟨linked, hrefers, hdesc⟩ := hlast
        exact h _ ih linked _ hrefers hdesc

/-- A descriptor that is not linked is as it was compiled. -/
theorem Program.State.compiled (h : p.State descs) {d : DescId} (hd : (descs d).linked = false) :
    descs d = p.compiled d := by
  rcases h d with hcompiled | hcomplete
  · exact hcompiled
  · rw [hcomplete.linked] at hd
    cases hd

/-- A linked descriptor has a class for each reference field. -/
theorem Program.State.complete (h : p.State descs) {d : DescId} (hd : (descs d).linked = true) :
    p.Complete d (descs d) := by
  rcases h d with hcompiled | hcomplete
  · rw [hcompiled] at hd
    cases hd
  · exact hcomplete

/-- Linking changes no field. -/
theorem Program.State.inner (h : p.State descs) (d : DescId) : (descs d).inner = p.inner d := by
  rcases h d with hcompiled | hcomplete
  · rw [hcompiled]
    rfl
  · exact hcomplete.inner

end States

/-! ## The `link` call -/

section Link

variable {p : Program} {dom : ClassId → DescId → Prop}

/-- Traversals of references that resolve succeed. -/
theorem Program.resolved_total {c : ClassId} {references : List (UInt32 × String)}
    (h : ∀ number name, (number, name) ∈ references →
      ∃ target, resolve p.getattr (p.moduleVars c) name = .ok target) :
    ∃ refs : List (UInt32 × ClassId), List.Forall₂ (fun reference ref => ref.1 = reference.1 ∧
      resolve p.getattr (p.moduleVars c) reference.2 = .ok ref.2) references refs := by
  induction references with
  | nil => exact ⟨[], .nil⟩
  | cons reference references ih =>
      obtain ⟨target, htarget⟩ := h reference.1 reference.2 List.mem_cons_self
      obtain ⟨refs, hrefs⟩ := ih fun number name hmem =>
        h number name (List.mem_cons_of_mem _ hmem)
      exact ⟨(reference.1, target) :: refs, .cons ⟨rfl, htarget⟩ hrefs⟩

/-- **What linking a compiled class does**: its references resolve to the classes stored for them. -/
structure OwnLinked (p : Program) (dom : ClassId → DescId → Prop) (c : ClassId) (d : DescId)
    (desc : Descriptor) (targets : List ClassId) : Prop where
  complete : p.Complete d desc
  resolves : p.Resolves c d
  within : (Frame.loop targets).Within p dom
  count : targets.length ≤ (p.inner d).refFields.length
  /-- The classes stored are those the loop goes on with. -/
  stored : ∀ linked, desc.Refers linked → linked.cls ∈ targets ∧
    (p.cls linked.cls).fastproto = linked.desc
  referred : ∀ target ∈ targets, desc.Refers (buildLinkedRef target (p.cls target))

/-- The native `link` call of a class that was not linked succeeds iff its references resolve. -/
theorem ClassGraph.linkOwn (h : ClassGraph p dom) {c : ClassId} {d : DescId} (hdom : dom c d) :
    (∀ desc targets, p.linkOwn c (p.compiled d) = .ok (desc, targets) →
      OwnLinked p dom c d desc targets) ∧
    (p.Resolves c d → ∃ desc targets, p.linkOwn c (p.compiled d) = .ok (desc, targets)) := by
  have hnodup : ((p.inner d).refFields.map (·.1)).Nodup := nodup_refFields (h.numbers c d hdom)
  constructor
  · intro desc targets hlink
    obtain ⟨refs, hresolved, rfl, hdesc⟩ := Program.linkOwn_eq_ok.mp hlink
    have hrel := (Program.resolved_eq_ok hnodup).mp hresolved
    have hkeys : (refs.map Prod.fst).Nodup := by
      rw [map_fst_of_resolved hrel]
      exact hnodup
    have hinner : desc.inner = p.inner d := by rw [hdesc]; rfl
    -- the table has one entry a reference: numbers are distinct
    have hlookup : ∀ number, desc.ref number
        = (refs.lookup number).map fun target => buildLinkedRef target (p.cls target) := by
      intro number
      rw [hdesc]
      exact p.lookup_linkRefs refs number
    have hresolves : ∀ reference ∈ (p.inner d).refFields, ∃ ref ∈ refs, ref.1 = reference.1 ∧
        resolve p.getattr (p.moduleVars c) reference.2 = .ok ref.2 :=
      fun reference hreference => exists_right_of_forall₂ hrel hreference
    -- what the loop visits are classes that fields refer to
    have hfield : ∀ ref ∈ refs, ∃ field ∈ desc.inner.fields, field.number = ref.1 ∧
        field.kind.needsRef = true := by
      intro ref href
      obtain ⟨reference, hreference, hnumber, -⟩ := exists_left_of_forall₂ hrel href
      obtain ⟨field, hfield, hfnumber, hneeds⟩ := mem_refFields hreference
      exact ⟨field, by rw [hinner]; exact hfield, hfnumber.trans hnumber.symm, hneeds⟩
    refine ⟨⟨hinner, by rw [hdesc], ?_⟩, ?_, ?_, ?_, ?_, ?_⟩
    · intro number name hmem
      obtain ⟨ref, href, hnumber, -⟩ := hresolves _ hmem
      dsimp only at hnumber
      refine ⟨buildLinkedRef ref.2 (p.cls ref.2), ?_⟩
      rw [hlookup, ← hnumber, lookup_of_mem hkeys href]
      rfl
    · intro number name hmem
      obtain ⟨ref, -, -, hresolve⟩ := hresolves _ hmem
      exact ⟨ref.2, hresolve⟩
    · intro target htarget d' hproto
      obtain ⟨ref, href, rfl⟩ := List.mem_map.mp htarget
      obtain ⟨reference, hreference, -, hresolve⟩ := exists_left_of_forall₂ hrel href
      exact h.targets c d hdom reference.1 reference.2 hreference ref.2 hresolve d' hproto
    · rw [List.length_map, hrel.length_eq]
    · rintro linked ⟨field, -, -, href⟩
      rw [hlookup] at href
      obtain ⟨target, htarget, rfl⟩ := Option.map_eq_some_iff.mp href
      rw [buildLinkedRef_cls, buildLinkedRef_desc]
      exact ⟨List.mem_map_of_mem (mem_of_lookup htarget), rfl⟩
    · intro target htarget
      obtain ⟨ref, href, rfl⟩ := List.mem_map.mp htarget
      obtain ⟨field, hfield, hnumber, hneeds⟩ := hfield ref href
      refine ⟨field, hfield, hneeds, ?_⟩
      rw [hlookup, hnumber, lookup_of_mem hkeys href]
      rfl
  · intro hresolves
    obtain ⟨refs, hrel⟩ := Program.resolved_total hresolves
    exact ⟨_, _, Program.linkOwn_eq_ok.mpr
      ⟨refs, (Program.resolved_eq_ok hnodup).mpr hrel, rfl, rfl⟩⟩

end Link

/-! ## The walk of one call -/

/-- A linked descriptor refers to the class. -/
def Descriptors.Referred (p : Program) (descs : Descriptors) (target : ClassId) : Prop :=
  ∃ d, (descs d).linked = true ∧ (descs d).Refers (buildLinkedRef target (p.cls target))

/-- **The invariant of one call on `cls`**: what was linked before stays as it is, references of
linked descriptors are linked or on the stack, and the walk is at its first class, nothing linked yet,
or `cls` is linked and every class on the stack is referred to by a linked descriptor. -/
structure Walk (p : Program) (dom : ClassId → DescId → Prop) (cls : ClassId) (d₀ : DescId)
    (before descs : Descriptors) (stack : List Frame) : Prop where
  state : p.State descs
  within : ∀ frame ∈ stack, frame.Within p dom
  kept : ∀ d, (before d).linked = true → descs d = before d
  closed : ∀ d, (descs d).linked = true → ∀ linked d', (descs d).Refers linked →
    linked.desc = some d' → (descs d').linked = true ∨
      linked.cls ∈ pending stack ∧ (p.cls linked.cls).fastproto = some d'
  /-- Only loops are entered from. -/
  below : ∀ frame ∈ stack.tail, ∃ targets, frame = .loop targets
  /-- No other thread links the class between the check of its flag and the call. -/
  fresh : ∀ c rest, stack = .link c :: rest → ∀ d, dom c d → (descs d).linked = false
  phase : (stack = [.enter cls] ∨ stack = [.link cls]) ∧ descs = before ∨
    (descs d₀).linked = true ∧ (stack = [] ∨ p.Resolves cls d₀ ∧
      ∀ target ∈ pending stack, descs.Referred p target)

/-- **A call that raises**: some class of the graph has a reference that does not resolve. It is the
class of the call, and nothing was linked; or the class of the call was linked and a linked descriptor
refers to one that is not. -/
structure Failed (p : Program) (dom : ClassId → DescId → Prop) (cls : ClassId) (d₀ : DescId)
    (before descs : Descriptors) : Prop where
  state : p.State descs
  unresolved : ∃ c d, dom c d ∧ ¬ p.Resolves c d
  outcome : ¬ p.Resolves cls d₀ ∧ descs = before ∨
    p.Resolves cls d₀ ∧ ∃ d linked d', (descs d).linked = true ∧ (descs d).Refers linked ∧
      linked.desc = some d' ∧ (descs d').linked = false

/-- What is true of the one thread. -/
def SoloThread (p : Program) (dom : ClassId → DescId → Prop) (cls : ClassId) (d₀ : DescId)
    (op : Operation) (before descs : Descriptors) : Thread → Prop
  | .linking c op' stack => c = cls ∧ op' = op ∧ Walk p dom cls d₀ before descs stack
  | .ready c op' => c = cls ∧ op' = op ∧ Walk p dom cls d₀ before descs []
  | .done _ _ (.raised _) => Failed p dom cls d₀ before descs
  | .done _ _ _ => True
  | .call _ _ => False

section Walk

variable {p : Program} {dom : ClassId → DescId → Prop} {cls : ClassId} {d₀ : DescId}
  {op : Operation} {before descs : Descriptors}

/-- A thread that resumes is where its stack says. -/
theorem soloThread_resume {stack : List Frame} (h : Walk p dom cls d₀ before descs stack) :
    SoloThread p dom cls d₀ op before descs (.resume cls op stack) := by
  cases stack with
  | nil => exact ⟨rfl, rfl, h⟩
  | cons frame stack => exact ⟨rfl, rfl, h⟩

/-- The walk of a call begins in any closed state. -/
theorem Walk.start (hstate : p.State before) (hclosed : before.Closed) (hdom : dom cls d₀) :
    Walk p dom cls d₀ before before [.enter cls] where
  state := hstate
  within := by
    intro frame hframe
    obtain rfl := List.mem_singleton.mp hframe
    exact ⟨d₀, hdom⟩
  kept := fun _ _ => rfl
  closed := fun d hd linked d' hrefers hdesc =>
    .inl (Descriptors.closed_iff.mp hclosed d hd linked d' hrefers hdesc)
  fresh := nofun
  below := nofun
  phase := .inl ⟨.inl rfl, rfl⟩

/-- A move that changes no descriptor, with what stays pending. -/
theorem Walk.same {stack stack' : List Frame} (h : Walk p dom cls d₀ before descs stack)
    (hwithin : ∀ frame ∈ stack', frame.Within p dom)
    (hbelow : ∀ frame ∈ stack'.tail, ∃ targets, frame = .loop targets)
    (hpending : ∀ c ∈ pending stack, c ∈ pending stack' ∨
      ∀ d, (p.cls c).fastproto = some d → (descs d).linked = true)
    (hsub : ∀ c ∈ pending stack', c ∈ pending stack)
    (hfresh : ∀ c rest, stack' = .link c :: rest → ∀ d, dom c d → (descs d).linked = false)
    (hphase : (stack' = [.enter cls] ∨ stack' = [.link cls]) ∧ descs = before ∨
      (descs d₀).linked = true ∧ (stack' = [] ∨ p.Resolves cls d₀ ∧
        ∀ target ∈ pending stack, descs.Referred p target)) :
    Walk p dom cls d₀ before descs stack' where
  state := h.state
  within := hwithin
  kept := h.kept
  closed := by
    intro d hd linked d' hrefers hdesc
    rcases h.closed d hd linked d' hrefers hdesc with hlinked | ⟨hmem, hproto⟩
    · exact .inl hlinked
    · rcases hpending _ hmem with hmem' | hdone
      · exact .inr ⟨hmem', hproto⟩
      · exact .inl (hdone d' hproto)
  below := hbelow
  fresh := hfresh
  phase := by
    refine hphase.imp_right fun hphase => ⟨hphase.1, hphase.2.imp_right fun hrest =>
      ⟨hrest.1, fun target htarget => hrest.2 target (hsub target htarget)⟩⟩

/-- The `link` call of the innermost class. -/
theorem Walk.link (h : ClassGraph p dom) (hdom : dom cls d₀) {c : ClassId} {d : DescId}
    (hc : dom c d) {stack : List Frame} (hwalk : Walk p dom cls d₀ before descs (.link c :: stack))
    {desc : Descriptor} {targets : List ClassId} (hown : OwnLinked p dom c d desc targets) :
    Walk p dom cls d₀ before (Function.update descs d desc) (.loop targets :: stack) := by
  have hfresh := hwalk.fresh c stack rfl d hc
  have hself : Function.update descs d desc d = desc := Function.update_self ..
  have hother : ∀ {d'}, d' ≠ d → Function.update descs d desc d' = descs d' :=
    fun hne => Function.update_of_ne hne ..
  have hmono : ∀ d', (descs d').linked = true →
      (Function.update descs d desc d').linked = true := by
    intro d' hlinked
    by_cases hd : d' = d
    · rw [hd, hself]
      exact hown.complete.linked
    · rwa [hother hd]
  -- what was linked before keeps its references: the class linked now was not
  have hreferred : ∀ target, descs.Referred p target →
      Descriptors.Referred p (Function.update descs d desc) target := by
    rintro target ⟨d', hlinked, hrefers⟩
    have hne : d' ≠ d := by
      rintro rfl
      rw [hfresh] at hlinked
      cases hlinked
    exact ⟨d', hmono d' hlinked, by rwa [hother hne]⟩
  have htargets : ∀ target ∈ targets, Descriptors.Referred p (Function.update descs d desc) target :=
    fun target htarget => ⟨d, by rw [hself]; exact hown.complete.linked, by
      rw [hself]; exact hown.referred target htarget⟩
  refine ⟨fun d' => ?_, ?_, fun d' hd' => ?_, ?_, hwalk.below, by simp, .inr ?_⟩
  · by_cases hd : d' = d
    · rw [hd, hself]
      exact .inr hown.complete
    · rw [hother hd]
      exact hwalk.state d'
  · intro frame hframe
    rcases List.mem_cons.mp hframe with rfl | hframe
    · exact hown.within
    · exact hwalk.within frame (List.mem_cons_of_mem _ hframe)
  · have hne : d' ≠ d := by
      rintro rfl
      rw [← hwalk.kept d' hd', hfresh] at hd'
      cases hd'
    rw [hother hne]
    exact hwalk.kept d' hd'
  · intro d' hd' linked d'' hrefers hdesc
    by_cases hd : d' = d
    · -- the references of the class just linked are pending
      rw [hd, hself] at hrefers
      obtain ⟨hmem, hproto⟩ := hown.stored linked hrefers
      exact .inr ⟨List.mem_append_left _ hmem, hproto.trans hdesc⟩
    · rw [hother hd] at hd' hrefers
      rcases hwalk.closed d' hd' linked d'' hrefers hdesc with hlinked | ⟨hmem, hproto⟩
      · exact .inl (hmono d'' hlinked)
      · rcases List.mem_cons.mp hmem with hsame | hmem
        · rw [hsame, h.fastproto c d hc, Option.some.injEq] at hproto
          rw [← hproto, hself]
          exact .inl hown.complete.linked
        · exact .inr ⟨List.mem_append_right _ hmem, hproto⟩
  · -- either the class of the call itself has just been linked, or one below it
    rcases hwalk.phase with ⟨hstack, -⟩ | ⟨hlinked, hrest⟩
    · have hroot : c = cls ∧ stack = [] := by
        rcases hstack with hstack | hstack <;> cases hstack
        exact ⟨rfl, rfl⟩
      obtain ⟨rfl, rfl⟩ := hroot
      obtain rfl : d = d₀ := by
        have hproto := (h.fastproto c d hc).symm.trans (h.fastproto c d₀ hdom)
        exact Option.some.inj hproto
      refine ⟨by rw [hself]; exact hown.complete.linked, .inr ⟨hown.resolves, ?_⟩⟩
      intro target htarget
      exact htargets target (by simpa [pending, Frame.pending] using htarget)
    · obtain ⟨hresolves, hpending⟩ := hrest.resolve_left (by simp)
      refine ⟨hmono d₀ hlinked, .inr ⟨hresolves, fun target htarget => ?_⟩⟩
      rcases List.mem_append.mp (show target ∈ targets ++ pending stack from htarget) with hmem | hmem
      · exact htargets target hmem
      · exact hreferred target (hpending target (List.mem_cons_of_mem _ hmem))

/-- A `link` call that raises. -/
theorem Walk.failed (h : ClassGraph p dom) (hdom : dom cls d₀) {c : ClassId} {d : DescId}
    (hc : dom c d) {stack : List Frame} (hwalk : Walk p dom cls d₀ before descs (.link c :: stack))
    (hresolves : ¬ p.Resolves c d) : Failed p dom cls d₀ before descs where
  state := hwalk.state
  unresolved := ⟨c, d, hc, hresolves⟩
  outcome := by
    have hproto := h.fastproto c d hc
    rcases hwalk.phase with ⟨hstack, hbefore⟩ | ⟨-, hrest⟩
    · have hroot : c = cls := by
        rcases hstack with hstack | hstack <;> cases hstack
        rfl
      subst hroot
      have hsame := hproto.symm.trans (h.fastproto c d₀ hdom)
      cases hsame
      exact .inl ⟨hresolves, hbefore⟩
    · obtain ⟨hroot, hpending⟩ := hrest.resolve_left nofun
      obtain ⟨d', hlinked, hrefers⟩ := hpending c List.mem_cons_self
      refine .inr ⟨hroot, d', _, d, hlinked, hrefers, ?_, hwalk.fresh c stack rfl d hc⟩
      rw [buildLinkedRef_desc, hproto]

/-- What a class is entered or linked from is a loop, never a class about to be linked. -/
theorem Walk.stack_ne_link {frame : Frame} {stack : List Frame}
    (hwalk : Walk p dom cls d₀ before descs (frame :: stack)) (c : ClassId) (rest : List Frame) :
    stack ≠ .link c :: rest := by
  rintro rfl
  obtain ⟨targets, htargets⟩ := hwalk.below (.link c) List.mem_cons_self
  cases htargets

/-- The frames below the innermost one stay in the graph. -/
theorem Walk.within_tail {frame : Frame} {stack : List Frame}
    (hwalk : Walk p dom cls d₀ before descs (frame :: stack)) : ∀ f ∈ stack, f.Within p dom :=
  fun f hf => hwalk.within f (List.mem_cons_of_mem _ hf)

/-- Entering a class that is linked goes back to what it was entered from. -/
theorem Walk.enter_linked (h : ClassGraph p dom) (hdom : dom cls d₀) {c : ClassId} {d : DescId}
    (hc : dom c d) {stack : List Frame} (hwalk : Walk p dom cls d₀ before descs (.enter c :: stack))
    (hflag : (descs d).linked = true) : Walk p dom cls d₀ before descs stack := by
  have hproto := h.fastproto c d hc
  refine hwalk.same hwalk.within_tail (fun f hf => hwalk.below f (List.mem_of_mem_tail hf))
    (fun c' hc' => ?_) (fun c' hc' => List.mem_cons_of_mem _ hc')
    (fun c' rest hstack => absurd hstack (hwalk.stack_ne_link c' rest)) ?_
  · -- the class entered is no longer pending, but it is linked
    rcases List.mem_cons.mp hc' with rfl | hc'
    · refine .inr fun d' hd' => ?_
      rw [hproto, Option.some.injEq] at hd'
      rwa [← hd']
    · exact .inl hc'
  · -- the stack is empty when the class entered is that of the call
    rcases hwalk.phase with ⟨hstack, -⟩ | ⟨hlinked, hrest⟩
    · obtain ⟨rfl, rfl⟩ : c = cls ∧ stack = [] := by
        rcases hstack with hstack | hstack <;> cases hstack
        exact ⟨rfl, rfl⟩
      rw [h.fastproto c d₀ hdom, Option.some.injEq] at hproto
      rw [← hproto] at hflag
      exact .inr ⟨hflag, .inl rfl⟩
    · exact .inr ⟨hlinked, .inr (hrest.resolve_left (by simp))⟩

/-- Entering a class that is not linked leads to its `link` call. -/
theorem Walk.enter_fresh (h : ClassGraph p dom) {c : ClassId} {d : DescId} (hc : dom c d)
    {stack : List Frame} (hwalk : Walk p dom cls d₀ before descs (.enter c :: stack))
    (hflag : (descs d).linked = false) : Walk p dom cls d₀ before descs (.link c :: stack) := by
  refine hwalk.same ?_ hwalk.below (fun c' hc' => .inl hc') (fun c' hc' => hc') ?_ ?_
  · intro f hf
    rcases List.mem_cons.mp hf with rfl | hf
    · exact ⟨d, hc⟩
    · exact hwalk.within_tail f hf
  · intro c' rest hstack d' hc'
    cases hstack
    have hsame := (h.fastproto c d hc).symm.trans (h.fastproto c d' hc')
    cases hsame
    exact hflag
  · rcases hwalk.phase with ⟨hstack, hbefore⟩ | ⟨hlinked, hrest⟩
    · obtain ⟨rfl, rfl⟩ : c = cls ∧ stack = [] := by
        rcases hstack with hstack | hstack <;> cases hstack
        exact ⟨rfl, rfl⟩
      exact .inl ⟨.inr rfl, hbefore⟩
    · exact .inr ⟨hlinked, .inr (hrest.resolve_left (by simp))⟩

/-- In a loop the class of the call is linked. -/
theorem Walk.loop_phase {targets : List ClassId} {stack : List Frame}
    (hwalk : Walk p dom cls d₀ before descs (.loop targets :: stack)) :
    (descs d₀).linked = true ∧ p.Resolves cls d₀ ∧
      ∀ target ∈ pending (.loop targets :: stack), descs.Referred p target := by
  obtain ⟨hlinked, hrest⟩ := hwalk.phase.resolve_left (by
    rintro ⟨hstack | hstack, -⟩ <;> cases hstack)
  exact ⟨hlinked, hrest.resolve_left (by simp)⟩

/-- A loop with no class left ends. -/
theorem Walk.loop_done {stack : List Frame}
    (hwalk : Walk p dom cls d₀ before descs (.loop [] :: stack)) :
    Walk p dom cls d₀ before descs stack := by
  obtain ⟨hlinked, hrest⟩ := hwalk.loop_phase
  exact hwalk.same hwalk.within_tail (fun f hf => hwalk.below f (List.mem_of_mem_tail hf))
    (fun c hc => .inl hc) (fun c hc => hc)
    (fun c rest hstack => absurd hstack (hwalk.stack_ne_link c rest)) (.inr ⟨hlinked, .inr hrest⟩)

/-- The loop passes over a class without a descriptor, such as that of an enum. -/
theorem Walk.loop_skip {target : ClassId} {targets : List ClassId} {stack : List Frame}
    (hwalk : Walk p dom cls d₀ before descs (.loop (target :: targets) :: stack))
    (hproto : (p.cls target).fastproto = none) :
    Walk p dom cls d₀ before descs (.loop targets :: stack) := by
  obtain ⟨hlinked, hrest⟩ := hwalk.loop_phase
  refine hwalk.same ?_ hwalk.below (fun c hc => ?_) (fun c hc => List.mem_cons_of_mem _ hc) (by simp)
    (.inr ⟨hlinked, .inr hrest⟩)
  · intro f hf
    rcases List.mem_cons.mp hf with rfl | hf
    · exact fun c hc => hwalk.within _ List.mem_cons_self c (List.mem_cons_of_mem _ hc)
    · exact hwalk.within_tail f hf
  · -- an enum has no descriptor that could be left unlinked
    rcases List.mem_cons.mp hc with rfl | hc
    · refine .inr fun d hd => ?_
      rw [hproto] at hd
      cases hd
    · exact .inl hc

/-- The loop enters the next class. -/
theorem Walk.loop_enter {target : ClassId} {targets : List ClassId} {stack : List Frame}
    (hwalk : Walk p dom cls d₀ before descs (.loop (target :: targets) :: stack)) {d : DescId}
    (hproto : (p.cls target).fastproto = some d) :
    Walk p dom cls d₀ before descs (.enter target :: .loop targets :: stack) := by
  obtain ⟨hlinked, hrest⟩ := hwalk.loop_phase
  have hframe : ∀ c ∈ target :: targets, ∀ d, (p.cls c).fastproto = some d → dom c d :=
    hwalk.within (.loop (target :: targets)) List.mem_cons_self
  refine hwalk.same ?_ ?_ (fun c hc => .inl hc) (fun c hc => hc) (by simp)
    (.inr ⟨hlinked, .inr hrest⟩)
  · intro f hf
    rcases List.mem_cons.mp hf with rfl | hf
    · exact ⟨d, hframe target List.mem_cons_self d hproto⟩
    · rcases List.mem_cons.mp hf with rfl | hf
      · exact fun c hc => hframe c (List.mem_cons_of_mem _ hc)
      · exact hwalk.within_tail f hf
  · intro f hf
    rcases List.mem_cons.mp hf with rfl | hf
    · exact ⟨targets, rfl⟩
    · exact hwalk.below f hf

/-- **One step of the walk.** -/
theorem Walk.step (h : ClassGraph p dom) (hdom : dom cls d₀) {frame : Frame} {stack : List Frame}
    (hwalk : Walk p dom cls d₀ before descs (frame :: stack)) {descs' : Descriptors} {t' : Thread}
    (hstep : p.frameStep descs cls op frame stack = (descs', t')) :
    (∃ stack', t' = .resume cls op stack' ∧ Walk p dom cls d₀ before descs' stack') ∨
      ∃ err, t' = .done cls op (.raised err) ∧ Failed p dom cls d₀ before descs' := by
  -- one case for each statement of `_ensure_linked`
  cases frame with
  | enter c =>
      obtain ⟨d, hc⟩ := hwalk.within (.enter c) List.mem_cons_self
      simp only [Program.frameStep, h.fastproto c d hc] at hstep
      by_cases hflag : (descs d).linked = true
      · rw [if_pos hflag] at hstep
        cases hstep
        exact .inl ⟨stack, rfl, hwalk.enter_linked h hdom hc hflag⟩
      · rw [if_neg hflag] at hstep
        cases hstep
        exact .inl ⟨.link c :: stack, rfl, hwalk.enter_fresh h hc (by simpa using hflag)⟩
  | link c =>
      obtain ⟨d, hc⟩ := hwalk.within (.link c) List.mem_cons_self
      have hproto := h.fastproto c d hc
      have hcompiled := hwalk.state.compiled (hwalk.fresh c stack rfl d hc)
      obtain ⟨hok, htotal⟩ := h.linkOwn hc
      simp only [Program.frameStep, hproto, hcompiled] at hstep
      cases hown : p.linkOwn c (p.compiled d) with
      | ok result =>
          obtain ⟨desc, targets⟩ := result
          rw [hown] at hstep
          cases hstep
          exact .inl ⟨.loop targets :: stack, rfl, hwalk.link h hdom hc (hok desc targets hown)⟩
      | error err =>
          rw [hown] at hstep
          cases hstep
          refine .inr ⟨err, rfl, hwalk.failed h hdom hc fun hresolves => ?_⟩
          obtain ⟨desc, targets, hlink⟩ := htotal hresolves
          rw [hown] at hlink
          cases hlink
  | loop targets =>
      cases targets with
      | nil =>
          cases hstep
          exact .inl ⟨stack, rfl, hwalk.loop_done⟩
      | cons target targets =>
          cases hproto : (p.cls target).fastproto with
          | none =>
              simp only [Program.frameStep, hproto] at hstep
              cases hstep
              exact .inl ⟨.loop targets :: stack, rfl, hwalk.loop_skip hproto⟩
          | some d =>
              simp only [Program.frameStep, hproto, Option.isSome_some, if_true] at hstep
              cases hstep
              exact .inl ⟨.enter target :: .loop targets :: stack, rfl, hwalk.loop_enter hproto⟩

/-- **One step of the thread.** -/
theorem soloThread_step (h : ClassGraph p dom) (hdom : dom cls d₀) {t t' : Thread}
    {descs' : Descriptors} (ht : SoloThread p dom cls d₀ op before descs t)
    (hstep : p.threadStep descs t = some (descs', t')) :
    SoloThread p dom cls d₀ op before descs' t' := by
  cases t with
  | call c op' => exact ht.elim
  | linking c op' stack =>
      obtain ⟨rfl, rfl, hwalk⟩ := ht
      cases stack with
      | nil =>
          cases hstep
          exact ⟨rfl, rfl, hwalk⟩
      | cons frame stack =>
          rcases hwalk.step h hdom (Option.some.inj hstep) with ⟨stack', rfl, hwalk'⟩ | ⟨err, rfl, hfail⟩
          · exact soloThread_resume hwalk'
          · exact hfail
  | ready c op' =>
      obtain ⟨rfl, rfl, -⟩ := ht
      simp only [Program.threadStep, h.fastproto c d₀ hdom] at hstep
      cases hstep
      cases op' <;> exact trivial
  | done c op' outcome => cases hstep

end Walk

/-! ## Calls -/

/-- A call of `_ensure_linked`, made by the only thread, returns. -/
def Program.Returns (p : Program) (cls : ClassId) (op : Operation) (before after : Descriptors) :
    Prop :=
  Threads.Run p.threadStep (before, [.linking cls op [.enter cls]]) (after, [.ready cls op])

/-- A call of `_ensure_linked`, made by the only thread, raises. -/
def Program.Raises (p : Program) (cls : ClassId) (op : Operation) (before after : Descriptors)
    (err : PyErr) : Prop :=
  Threads.Run p.threadStep (before, [.linking cls op [.enter cls]])
    (after, [.done cls op (.raised err)])

/-- **A call that links everything**: it ends and returns, everything reachable from the descriptor of
its class is linked with a class for each reference field, what was linked before is as it was, and the
linked descriptors are closed. -/
structure Program.LinksAll (p : Program) (cls : ClassId) (d₀ : DescId) (op : Operation)
    (before : Descriptors) : Prop where
  terminates : Threads.Terminates p.threadStep (before, [.linking cls op [.enter cls]])
  returns : ∃ after, p.Returns cls op before after ∧
    (∀ d, after.Reaches d₀ d → p.Complete d (after d)) ∧
    (∀ d, (before d).linked = true → after d = before d) ∧ after.Closed

section Calls

variable {p : Program} {dom : ClassId → DescId → Prop} {cls : ClassId} {d₀ : DescId}
  {op : Operation} {before after : Descriptors}

/-- What holds of the thread throughout the call. -/
theorem soloThread_run (h : ClassGraph p dom) (hdom : dom cls d₀) (hstate : p.State before)
    (hclosed : before.Closed) {pool : List Thread}
    (hrun : Threads.Run p.threadStep (before, [.linking cls op [.enter cls]]) (after, pool)) :
    ∃ t, pool = [t] ∧ SoloThread p dom cls d₀ op before after t :=
  Threads.Run.invariant_single (SoloThread p dom cls d₀ op before)
    (fun _ _ _ _ ht hstep => soloThread_step h hdom ht hstep) hrun
    ⟨rfl, rfl, Walk.start hstate hclosed hdom⟩

/-- A state is one in which every class of the set is as it was compiled or linked. -/
theorem Program.State.intact (h : p.State before) : Intact p dom p.Complete before :=
  fun _ d _ => h d

/-- **A graph whose references resolve links**, from any state. -/
theorem ClassGraph.linkable (h : ClassGraph p dom) (hresolves : ∀ c d, dom c d → p.Resolves c d) :
    Linkable p dom p.Complete fun _ _ => False where
  fastproto := h.fastproto
  flag := fun _ _ _ _ hcomplete => hcomplete.linked
  linkOwn := by
    intro c d desc hdom hdesc
    obtain ⟨hok, htotal⟩ := h.linkOwn hdom
    obtain ⟨desc', targets, hlink⟩ := htotal (hresolves c d hdom)
    have hown := hok desc' targets hlink
    rcases hdesc with rfl | hcomplete
    · exact ⟨desc', targets, hlink, hown.complete, hown.count, hown.within, fun _ => False.elim⟩
    · -- linked before: the references stored stay
      obtain ⟨refs, hresolved, htargets, -⟩ := Program.linkOwn_eq_ok.mp hlink
      refine ⟨_, targets, Program.linkOwn_eq_ok.mpr ⟨refs, ?_, htargets, rfl⟩,
        ⟨hcomplete.inner, rfl, fun number name hmem => ?_⟩, hown.count, hown.within,
        fun _ => False.elim⟩
      · rw [hcomplete.inner]
        exact hresolved
      · obtain ⟨linked, href⟩ := hcomplete.refs number name hmem
        obtain ⟨stored, hstored, hlookup⟩ := Option.bind_eq_some_iff.mp href
        refine ⟨linked, ?_⟩
        show (desc.refs.or _).bind _ = _
        rw [hstored]
        exact hlookup

/-- **A call on a graph whose references resolve ends and returns.** -/
theorem ClassGraph.returns (h : ClassGraph p dom) (hresolves : ∀ c d, dom c d → p.Resolves c d)
    (hfinite : {d | ∃ c, dom c d}.Finite) (hdom : dom cls d₀) (hstate : p.State before)
    (hclosed : before.Closed) (op : Operation) :
    Threads.Terminates p.threadStep (before, [.linking cls op [.enter cls]]) ∧
      ∃ after, p.Returns cls op before after := by
  have hterminates : Threads.Terminates p.threadStep (before, [.linking cls op [.enter cls]]) := by
    refine (h.linkable hresolves).terminates_of_sound hfinite hstate.intact fun t ht => ?_
    obtain rfl := List.mem_singleton.mp ht
    refine ⟨?_, d₀, hdom, .inr (List.mem_singleton.mpr rfl)⟩
    intro frame hframe
    obtain rfl := List.mem_singleton.mp hframe
    exact ⟨d₀, hdom⟩
  refine ⟨hterminates, ?_⟩
  -- from every state of the walk the call goes on to its return, by induction on the runs left
  have hreturn : ∀ c : Descriptors × List Thread, Threads.Terminates p.threadStep c →
      ∀ stack, c.2 = [.linking cls op stack] → Walk p dom cls d₀ before c.1 stack →
      ∃ after, Threads.Run p.threadStep c (after, [.ready cls op]) := by
    intro c hc
    induction hc with
    | intro c _ ih =>
        rintro stack hpool hwalk
        obtain ⟨descs, pool⟩ := c
        obtain rfl : pool = _ := hpool
        cases stack with
        | nil => exact ⟨descs, .single (.head [] rfl)⟩
        | cons frame stack =>
            cases hresult : p.frameStep descs cls op frame stack with
            | mk descs' t' =>
                have hfirst : Threads.Step p.threadStep
                    (descs, [.linking cls op (frame :: stack)]) (descs', [t']) :=
                  .head [] (congrArg some hresult)
                rcases hwalk.step h hdom hresult with ⟨stack', rfl, hwalk'⟩ | ⟨err, -, hfail⟩
                · cases stack' with
                  | nil => exact ⟨descs', .single hfirst⟩
                  | cons frame' stack' =>
                      obtain ⟨after, hrun⟩ := ih _ hfirst (frame' :: stack') rfl hwalk'
                      exact ⟨after, .head hfirst hrun⟩
                · obtain ⟨c, d, hc, hnot⟩ := hfail.unresolved
                  exact absurd (hresolves c d hc) hnot
  exact hreturn _ hterminates [.enter cls] rfl (Walk.start hstate hclosed hdom)

/-- **Where a call returns**: the class of the call is linked, everything reachable from it has its
classes, and the linked descriptors are closed. -/
theorem Walk.finish (hwalk : Walk p dom cls d₀ before after []) :
    (∀ d, after.Reaches d₀ d → p.Complete d (after d)) ∧ after.Closed := by
  have hclosed : after.Closed := Descriptors.closed_iff.mpr fun d hd linked d' hrefers hdesc =>
    (hwalk.closed d hd linked d' hrefers hdesc).resolve_right fun hpending => nomatch hpending.1
  have hlinked : (after d₀).linked = true := by
    rcases hwalk.phase with ⟨hstack, -⟩ | ⟨hlinked, -⟩
    · rcases hstack with hstack | hstack <;> cases hstack
    · exact hlinked
  exact ⟨fun d hreach => hwalk.state.complete (hclosed d₀ hlinked d hreach), hclosed⟩

/-- A call on a graph whose references resolve links everything. -/
theorem ClassGraph.linksAll (h : ClassGraph p dom) (hresolves : ∀ c d, dom c d → p.Resolves c d)
    (hfinite : {d | ∃ c, dom c d}.Finite) (hdom : dom cls d₀) (hstate : p.State before)
    (hclosed : before.Closed) (op : Operation) : p.LinksAll cls d₀ op before := by
  obtain ⟨hterminates, after, hreturns⟩ :=
    h.returns hresolves hfinite hdom hstate hclosed op
  obtain ⟨t, hpool, hthread⟩ := soloThread_run h hdom hstate hclosed hreturns
  obtain rfl := List.singleton_injective hpool
  obtain ⟨-, -, hwalk⟩ := hthread
  obtain ⟨hcomplete, hclosed'⟩ := hwalk.finish
  exact ⟨hterminates, after, hreturns, hcomplete, hwalk.kept, hclosed'⟩

end Calls

/-- **A successful link reaches everything and ends**: on a finite graph of message classes whose
references resolve, from any state closed under references, the call ends and returns; afterwards the
descriptor of its class and all descriptors reachable from it are linked with a class for each reference
field, those linked before are unchanged, and the state is closed again. -/
theorem ensureLinked_reaches {p : Program} {dom : ClassId → DescId → Prop} (h : ClassGraph p dom)
    (hfinite : {d | ∃ c, dom c d}.Finite) (hresolves : ∀ c d, dom c d → p.Resolves c d)
    {cls : ClassId} {d₀ : DescId} (hdom : dom cls d₀) {before : Descriptors}
    (hstate : p.State before) (hclosed : before.Closed) (op : Operation) :
    Threads.Terminates p.threadStep (before, [.linking cls op [.enter cls]]) ∧
      ∃ after, p.Returns cls op before after ∧
        (∀ d, after.Reaches d₀ d → p.Complete d (after d)) ∧
        (∀ d, (before d).linked = true → after d = before d) ∧ after.Closed := by
  have hlinks := h.linksAll hresolves hfinite hdom hstate hclosed op
  exact ⟨hlinks.terminates, hlinks.returns⟩

/-- Nothing linked is closed. -/
theorem Program.closed_compiled (p : Program) : Descriptors.Closed p.compiled :=
  fun _ hd => nomatch hd

/-- Nothing linked is a state. -/
theorem Program.state_compiled (p : Program) : p.State p.compiled := fun _ => .inl rfl

/-- The message classes of the module are finitely many. -/
theorem finite_holderDom : {d | ∃ c, holderDom c d}.Finite := by
  refine (Set.finite_le_nat 1).subset ?_
  rintro d ⟨c, ⟨-, rfl⟩ | ⟨-, rfl⟩⟩
  · exact Nat.zero_le 1
  · exact Nat.le_refl 1

/-- The classes of the module, in a namespace where they are the only message classes. -/
theorem classGraph_holder {vars : ClassId → List (String × ClassId)} :
    ClassGraph { holderProgram with moduleVars := vars } holderDom where
  fastproto := by
    rintro _ _ (⟨rfl, rfl⟩ | ⟨rfl, rfl⟩)
    · rfl
    · rfl
  numbers := by
    rintro _ _ (⟨rfl, rfl⟩ | ⟨rfl, rfl⟩)
    · show (recursiveMessage.fields.map (·.number)).Nodup
      decide
    · show (holderMessage.fields.map (·.number)).Nodup
      decide
  targets := by
    rintro _ _ - _ _ - target - d' hproto
    by_cases hholder : target = 2
    · subst hholder
      cases hproto
      exact .inr ⟨rfl, rfl⟩
    · have hcls : holderProgram.cls target = recursiveWorld.cls target := if_neg hholder
      have hproto : (holderProgram.cls target).fastproto = some d' := hproto
      rw [hcls] at hproto
      by_cases hrecursive : target = 0
      · subst hrecursive
        cases hproto
        exact .inl ⟨rfl, rfl⟩
      · have hcls : recursiveWorld.cls target = { enum := some { values := [0, 1] } } :=
          if_neg hrecursive
        rw [hcls] at hproto
        cases hproto

/-- `H`, `M` and `E`, where `M` refers to itself. -/
theorem ensureLinked_reaches_holder :
    ∃ after, holderProgram.Returns 2 (.fromBytes []) holderProgram.compiled after ∧
      ∀ d, after.Reaches 1 d → holderProgram.Complete d (after d) := by
  have hresolves : ∀ c d, holderDom c d → holderProgram.Resolves c d := by
    rintro _ _ (⟨rfl, rfl⟩ | ⟨rfl, rfl⟩) number name hmem
    · rcases hmem with _ | ⟨_, _ | ⟨_, hmem⟩⟩
      · exact ⟨1, rfl⟩
      · exact ⟨0, rfl⟩
      · cases hmem
    · rcases hmem with _ | ⟨_, hmem⟩
      · exact ⟨0, rfl⟩
      · cases hmem
  obtain ⟨-, after, hreturns, hcomplete, -, -⟩ := ensureLinked_reaches
    (@classGraph_holder holderProgram.moduleVars) finite_holderDom hresolves (.inr ⟨rfl, rfl⟩)
    holderProgram.state_compiled holderProgram.closed_compiled (.fromBytes [])
  exact ⟨after, hreturns, hcomplete⟩

/-! ## Calls that raise -/

/-- **No half-linked type is left behind**: the linked descriptors are closed, so that a later call,
once every name resolves, links everything. -/
structure Program.Recovers (p : Program) (cls : ClassId) (d₀ : DescId) (after : Descriptors) : Prop where
  closed : after.Closed
  later : ∀ (later : Program) (dom : ClassId → DescId → Prop), later.cls = p.cls →
    later.inner = p.inner → ClassGraph later dom → {d | ∃ c, dom c d}.Finite →
    (∀ c d, dom c d → later.Resolves c d) → dom cls d₀ → ∀ op, later.LinksAll cls d₀ op after

/-- **A failed link leaves no half-linked type behind exactly when the reference that does not resolve
is one of the class the call was made on**: otherwise the classes above the one that failed stay
linked. -/
theorem recovers_iff {p : Program} {dom : ClassId → DescId → Prop} (h : ClassGraph p dom)
    {cls : ClassId} {d₀ : DescId} (hdom : dom cls d₀) {before after : Descriptors}
    (hstate : p.State before) (hclosed : before.Closed) {op : Operation} {err : PyErr}
    (hraises : p.Raises cls op before after err) :
    p.Recovers cls d₀ after ↔ ¬ p.Resolves cls d₀ := by
  obtain ⟨t, hpool, hthread⟩ := soloThread_run h hdom hstate hclosed hraises
  obtain rfl := List.singleton_injective hpool
  have hfailed : Failed p dom cls d₀ before after := hthread
  constructor
  · intro hrecovers
    rcases hfailed.outcome with ⟨hnot, -⟩ | ⟨-, d, linked, d', hd, hrefers, hdesc, hunlinked⟩
    · exact hnot
    · -- a linked descriptor refers to one that is not linked
      have hlinked := Descriptors.closed_iff.mp hrecovers.closed d hd linked d' hrefers hdesc
      rw [hunlinked] at hlinked
      cases hlinked
  · intro hnot
    rcases hfailed.outcome with ⟨-, rfl⟩ | ⟨hresolves, -⟩
    · refine ⟨hclosed, fun later dom' _ hinner hlater hfinite hresolves hdom' op => ?_⟩
      refine hlater.linksAll hresolves hfinite hdom' (fun d => ?_) hclosed op
      rcases hstate d with hcompiled | hcomplete
      · exact .inl (by rw [hcompiled, Program.compiled, Program.compiled, hinner])
      · refine .inr ⟨by rw [hinner]; exact hcomplete.inner, hcomplete.linked, ?_⟩
        rw [hinner]
        exact hcomplete.refs
    · exact absurd hresolves hnot

/-- The module while `E` is not defined yet. -/
def earlyProgram : Program := { holderProgram with moduleVars := fun _ => [("M", 0), ("H", 2)] }

/-- A call on `M` raises for `E` and links nothing. -/
theorem recovers_early :
    ∃ err, earlyProgram.Raises 0 (.fromBytes []) earlyProgram.compiled earlyProgram.compiled err ∧
      earlyProgram.Recovers 0 0 earlyProgram.compiled := by
  have henter : earlyProgram.threadStep earlyProgram.compiled (.linking 0 (.fromBytes []) [.enter 0])
      = some (earlyProgram.compiled, .linking 0 (.fromBytes []) [.link 0]) := rfl
  have hlink : earlyProgram.threadStep earlyProgram.compiled (.linking 0 (.fromBytes []) [.link 0])
      = some (earlyProgram.compiled,
          .done 0 (.fromBytes []) (.raised (.lookupError "cannot resolve referenced type 'E'"))) := rfl
  have hraises : earlyProgram.Raises 0 (.fromBytes []) earlyProgram.compiled earlyProgram.compiled
      (.lookupError "cannot resolve referenced type 'E'") :=
    .head (.head _ henter) (.single (.head _ hlink))
  refine ⟨_, hraises, (recovers_iff classGraph_holder (.inl ⟨rfl, rfl⟩)
    earlyProgram.state_compiled earlyProgram.closed_compiled hraises).mpr fun hresolves => ?_⟩
  obtain ⟨target, htarget⟩ := hresolves 2 "E" (List.mem_cons_self ..)
  cases htarget

/-- **A half-linked type**: a call on `H` links it, then raises for the reference of `M` to `E`; `H` stays
linked and `M` is not. -/
theorem halfLinked_early : ClassGraph earlyProgram holderDom ∧ {d | ∃ c, holderDom c d}.Finite ∧
    earlyProgram.State earlyProgram.compiled ∧ Descriptors.Closed earlyProgram.compiled ∧
    ∃ after err, earlyProgram.Raises 2 (.fromBytes []) earlyProgram.compiled after err ∧
      (after 1).linked = true ∧ (after 0).linked = false ∧ after.Reaches 1 0 ∧ ¬ after.Closed := by
  have henter : earlyProgram.threadStep earlyProgram.compiled (.linking 2 (.fromBytes []) [.enter 2])
      = some (earlyProgram.compiled, .linking 2 (.fromBytes []) [.link 2]) := rfl
  have hlink : earlyProgram.threadStep earlyProgram.compiled (.linking 2 (.fromBytes []) [.link 2])
      = some (Function.update earlyProgram.compiled 1 (holderWorld.descriptor 1),
          .linking 2 (.fromBytes []) [.loop [0]]) := rfl
  have hloop : earlyProgram.threadStep
      (Function.update earlyProgram.compiled 1 (holderWorld.descriptor 1))
      (.linking 2 (.fromBytes []) [.loop [0]])
      = some (_, .linking 2 (.fromBytes []) [.enter 0, .loop []]) := rfl
  have hinner : earlyProgram.threadStep
      (Function.update earlyProgram.compiled 1 (holderWorld.descriptor 1))
      (.linking 2 (.fromBytes []) [.enter 0, .loop []])
      = some (_, .linking 2 (.fromBytes []) [.link 0, .loop []]) := rfl
  -- `H` is linked when `M` raises, since the name `E` does not exist yet
  have hfail : earlyProgram.threadStep
      (Function.update earlyProgram.compiled 1 (holderWorld.descriptor 1))
      (.linking 2 (.fromBytes []) [.link 0, .loop []])
      = some (_, .done 2 (.fromBytes [])
          (.raised (.lookupError "cannot resolve referenced type 'E'"))) := rfl
  have hreaches : Descriptors.Reaches
      (Function.update earlyProgram.compiled 1 (holderWorld.descriptor 1)) 1 0 :=
    .single ⟨_, ⟨_, List.mem_cons_self .., rfl, rfl⟩, rfl⟩
  refine ⟨classGraph_holder, finite_holderDom, earlyProgram.state_compiled,
    earlyProgram.closed_compiled, _, _, .head (.head _ henter) <| .head (.head _ hlink) <|
      .head (.head _ hloop) <| .head (.head _ hinner) <| .single (.head _ hfail), rfl, rfl, hreaches,
    fun hclosed => ?_⟩
  have hlinked := hclosed 1 rfl 0 hreaches
  cases hlinked

end FastProto
