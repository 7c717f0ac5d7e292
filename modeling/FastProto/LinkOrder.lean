import FastProto.LinkRace

/-! # Who links first

A subclass of a message class shares the descriptor of its parent, and the first call links it: with
the classes that the names lead to in the module of the class called. The references come out as the
generated module binds them, in every order of first calls, exactly when they do so in the module of
every class of the hierarchy. -/

namespace FastProto

open Lib

/-- **A hierarchy of message classes**: the classes of a generated module and subclasses of them, from
any module, each with the descriptor it has or inherits. `bound` is the class the generated module
binds to the type of a reference field. -/
structure Hierarchy (p : Program) (set : ClassId → DescId → Prop) (bound : DescId → UInt32 → ClassId) :
    Prop where
  finite : {d | ∃ x, set x d}.Finite
  fastproto : ∀ x d, set x d → (p.cls x).fastproto = some d
  numbers : ∀ x d, set x d → ((p.inner d).fields.map (·.number)).Nodup
  /-- The message types referred to are generated with the others. -/
  closed : ∀ x d, set x d → ∀ reference ∈ (p.inner d).refFields, ∀ d',
    (p.cls (bound d reference.1)).fastproto = some d' → set (bound d reference.1) d'

/-- Threads that each run a method. -/
def firstCalls (calls : List (ClassId × Operation)) : List Thread :=
  calls.map fun call => .call call.1 call.2

/-- **Linking comes out alike**: in every run of first calls of classes of the hierarchy, linking
succeeds, and every linked descriptor refers to the classes that the generated module binds. -/
def Program.LinksAlike (p : Program) (set : ClassId → DescId → Prop)
    (bound : DescId → UInt32 → ClassId) : Prop :=
  ∀ calls : List (ClassId × Operation), (∀ call ∈ calls, ∃ d, set call.1 d) →
    Threads.Terminates p.threadStep (p.compiled, firstCalls calls) ∧
    ∀ descs pool, Threads.Run p.threadStep (p.compiled, firstCalls calls) (descs, pool) →
      (∀ t ∈ pool, ∀ cls op err, t ≠ .done cls op (.raised err)) ∧
      ∀ x d, set x d → (descs d).linked = true → ∀ reference ∈ (p.inner d).refFields,
        (descs d).ref reference.1
          = some (buildLinkedRef (bound d reference.1) (p.cls (bound d reference.1)))

section Order

variable {p : Program} {set : ClassId → DescId → Prop} {bound : DescId → UInt32 → ClassId}

variable (p bound) in
/-- The mapping that the generated module gives for a descriptor. -/
def boundRefs (d : DescId) : List (UInt32 × ClassId) :=
  (p.inner d).refFields.map fun reference => (reference.1, bound d reference.1)

variable (p bound) in
/-- The descriptor is linked to what the generated module binds. -/
structure LinkedBound (d : DescId) (desc : Descriptor) : Prop where
  inner : desc.inner = p.inner d
  linked : desc.linked = true
  refs : desc.refs = some (p.linkRefs (boundRefs p bound d))

/-- The references of a descriptor linked to what the generated module binds. -/
theorem LinkedBound.ref {d : DescId} {desc : Descriptor} (h : LinkedBound p bound d desc)
    (hnumbers : ((p.inner d).fields.map (·.number)).Nodup) {reference : UInt32 × String}
    (hmem : reference ∈ (p.inner d).refFields) :
    desc.ref reference.1
      = some (buildLinkedRef (bound d reference.1) (p.cls (bound d reference.1))) := by
  have hkeys : ((boundRefs p bound d).map Prod.fst).Nodup := by
    rw [boundRefs, List.map_map]
    exact nodup_refFields hnumbers
  have hlookup := lookup_of_mem hkeys (List.mem_map_of_mem (f := fun reference =>
    (reference.1, bound d reference.1)) hmem)
  unfold Descriptor.ref
  rw [h.refs]
  show (p.linkRefs (boundRefs p bound d)).lookup reference.1 = _
  rw [p.lookup_linkRefs, hlookup]
  rfl

/-- **A hierarchy links** to what the generated module binds, if the names lead there in the module of
every class of it. -/
theorem Hierarchy.linkable (h : Hierarchy p set bound)
    (hleads : ∀ x d, set x d → ∀ reference ∈ (p.inner d).refFields,
      LeadsTo p.getattr (p.moduleVars x) (segments reference.2) (bound d reference.1)) :
    Linkable p set (LinkedBound p bound) (fun _ _ => False) where
  fastproto := h.fastproto
  flag := fun _ _ _ _ hdone => hdone.linked
  linkOwn := by
    intro x d desc hset hdesc
    have hinner : desc.inner = p.inner d := by
      rcases hdesc with rfl | hdone
      · rfl
      · exact hdone.inner
    have hresolved : p.resolved x (p.inner d).refFields = .ok (boundRefs p bound d) := by
      rw [Program.resolved_eq_ok (nodup_refFields (h.numbers x d hset)), boundRefs,
        List.forall₂_map_right_iff, List.forall₂_same]
      exact fun reference hmem => ⟨rfl, resolve_eq_ok.mpr (hleads x d hset reference hmem)⟩
    refine ⟨_, _, Program.linkOwn_eq_ok.mpr ⟨_, by rw [hinner]; exact hresolved, rfl, rfl⟩, ?_, ?_,
      ?_, fun _ => False.elim⟩
    · refine ⟨hinner, rfl, ?_⟩
      rcases hdesc with rfl | hdone
      · rfl
      · simp only [hdone.refs, Option.some_or]
    · rw [List.length_map, boundRefs, List.length_map]
    · intro target htarget d' hproto
      obtain ⟨ref, href, rfl⟩ := List.mem_map.mp htarget
      obtain ⟨reference, hmem, rfl⟩ := List.mem_map.mp href
      exact h.closed x d hset reference hmem d' hproto

/-- **In every order of first calls linking comes out alike**, if the names lead to the bound classes in
the module of every class. -/
theorem Hierarchy.linksAlike (h : Hierarchy p set bound)
    (hleads : ∀ x d, set x d → ∀ reference ∈ (p.inner d).refFields,
      LeadsTo p.getattr (p.moduleVars x) (segments reference.2) (bound d reference.1)) :
    p.LinksAlike set bound := by
  have hlink := h.linkable hleads
  intro calls hcalls
  refine ⟨hlink.terminates h.finite hcalls, fun descs pool hrun => ?_⟩
  have hinv := Threads.Run.invariant (Intact p set (LinkedBound p bound))
    (fun descs t => t.Sound p set descs ∧ ∀ cls op err, t ≠ .done cls op (.raised err))
    (by
      rintro s t s' t' hin ⟨hs, -⟩ hstep
      obtain ⟨hin', hs', hlinked, hdone⟩ := hlink.threadStep hin hs hstep
      refine ⟨hin', ⟨hs', ?_⟩, fun other hother => ⟨hother.1.mono hlinked.mono, hother.2⟩⟩
      -- a thread is done after running the codec
      intro cls op err hraised
      obtain ⟨d, -, -, -, houtcome⟩ := hdone cls op _ hraised
      cases op <;> cases houtcome) hrun intact_compiled
    (by
      intro t ht
      obtain ⟨call, hcall, rfl⟩ := List.mem_map.mp ht
      exact ⟨Thread.sound_call (hcalls call hcall) call.2, nofun⟩)
  refine ⟨fun t ht => (hinv.2 t ht).2, fun x d hset hlinked reference hmem => ?_⟩
  exact (hinv.1.done_of_linked hset hlinked).ref (h.numbers x d hset) hmem

/-- **The first call of a class links it in its own module**: either linking raises, or the references
are those its module has. -/
theorem Hierarchy.leadsTo (h : Hierarchy p set bound) (halike : p.LinksAlike set bound) {x : ClassId}
    {d : DescId} (hset : set x d) {reference : UInt32 × String}
    (hmem : reference ∈ (p.inner d).refFields) :
    LeadsTo p.getattr (p.moduleVars x) (segments reference.2) (bound d reference.1) := by
  have hproto := h.fastproto x d hset
  have hnodup := nodup_refFields (h.numbers x d hset)
  have hcall : p.threadStep p.compiled (.call x (.fromBytes []))
      = some (p.compiled, .linking x (.fromBytes []) [.enter x]) := by
    simp [Program.threadStep, Program.compiled, hproto]
  have henter : p.threadStep p.compiled (.linking x (.fromBytes []) [.enter x])
      = some (p.compiled, .linking x (.fromBytes []) [.link x]) := by
    simp [Program.threadStep, Program.frameStep, Program.compiled, hproto]
  have hstart : ∀ {descs t}, p.threadStep p.compiled (.linking x (.fromBytes []) [.link x])
      = some (descs, t) → Threads.Run p.threadStep
        (p.compiled, firstCalls [(x, .fromBytes [])]) (descs, [t]) := fun hlink =>
    .head (.head _ hcall) <| .head (.head _ henter) <| .single (.head _ hlink)
  have hcalls : ∀ call ∈ [(x, Operation.fromBytes [])], ∃ d, set call.1 d := by
    intro call hcall
    obtain rfl := List.mem_singleton.mp hcall
    exact ⟨d, hset⟩
  cases hown : p.linkOwn x (p.compiled d) with
  | error err =>
      have hraise : p.threadStep p.compiled (.linking x (.fromBytes []) [.link x])
          = some (p.compiled, .done x (.fromBytes []) (.raised err)) := by
        simp [Program.threadStep, Program.frameStep, hproto, hown]
      have hrun := ((halike _ hcalls).2 _ _ (hstart hraise)).1
      exact absurd rfl (hrun _ (List.mem_singleton.mpr rfl) x _ err)
  | ok linked =>
      obtain ⟨desc, targets⟩ := linked
      have hstore : p.threadStep p.compiled (.linking x (.fromBytes []) [.link x])
          = some (Function.update p.compiled d desc,
              .linking x (.fromBytes []) [.loop targets]) := by
        simp [Program.threadStep, Program.frameStep, hproto, hown]
      obtain ⟨refs, hresolved, -, hdesc⟩ := Program.linkOwn_eq_ok.mp hown
      have hrel := (Program.resolved_eq_ok hnodup).mp hresolved
      obtain ⟨ref, href, hnumber, hresolve⟩ := exists_right_of_forall₂ hrel hmem
      have hkeys : (refs.map Prod.fst).Nodup := by
        rw [map_fst_of_resolved hrel]
        exact hnodup
      have hbound := ((halike _ hcalls).2 _ _ (hstart hstore)).2 x d hset
        (by rw [Function.update_self, hdesc]) reference hmem
      have hlookup : desc.ref reference.1 = some (buildLinkedRef ref.2 (p.cls ref.2)) := by
        rw [hdesc, ← hnumber]
        show (p.linkRefs refs).lookup ref.1 = _
        rw [p.lookup_linkRefs, lookup_of_mem hkeys href]
        rfl
      -- the class the module leads to is the one that was stored
      rw [Function.update_self, hlookup, Option.some.injEq] at hbound
      have hcls := congrArg LinkedRef.cls hbound
      rw [buildLinkedRef_cls, buildLinkedRef_cls] at hcls
      rw [← hcls]
      exact resolve_eq_ok.mp hresolve

end Order

/-! ## A subclass in another module

`class MyH(H)` in a module that imports `H` alone: the class has identity 3. -/

/-- The program with the subclass. -/
def subclassProgram : Program where
  cls id :=
    if id = 3 then { mro := {} :: holderClass.mro, fastproto := some 1 } else holderProgram.cls id
  inner := holderProgram.inner
  moduleVars id := if id = 3 then [("H", 2), ("MyH", 3)] else holderProgram.moduleVars id
  getattr := holderProgram.getattr

/-- The message classes of the two modules. -/
def subclassSet (cls : ClassId) (desc : DescId) : Prop := holderDom cls desc ∨ cls = 3 ∧ desc = 1

/-- What the generated module binds: `E` to the field `e` of `M`, `M` to the others. -/
def holderBound (desc : DescId) (number : UInt32) : ClassId :=
  if desc = 0 ∧ number = 2 then 1 else 0

/-- What the generated module binds are generated classes and the enum. -/
theorem holderBound_closed {desc : DescId} {number : UInt32} {desc' : DescId}
    (h : (subclassProgram.cls (holderBound desc number)).fastproto = some desc') :
    holderDom (holderBound desc number) desc' := by
  unfold holderBound at h ⊢
  split at h
  · cases h
  · cases h
    rw [if_neg (by assumption)]
    exact .inl ⟨rfl, rfl⟩

/-- The generated classes are a hierarchy. -/
theorem hierarchy_generated : Hierarchy subclassProgram holderDom holderBound where
  finite := by
    refine (Set.finite_le_nat 1).subset ?_
    rintro d ⟨x, ⟨rfl, rfl⟩ | ⟨rfl, rfl⟩⟩
    · exact Nat.zero_le 1
    · exact Nat.le_refl 1
  fastproto := by
    rintro x d (⟨rfl, rfl⟩ | ⟨rfl, rfl⟩)
    · rfl
    · rfl
  numbers := by
    rintro x d (⟨rfl, rfl⟩ | ⟨rfl, rfl⟩)
    · decide
    · decide
  closed := fun _ _ _ _ _ _ => holderBound_closed

/-- The generated classes and the subclass are a hierarchy. -/
theorem hierarchy_subclass : Hierarchy subclassProgram subclassSet holderBound where
  finite := by
    refine (hierarchy_generated.finite.union (Set.finite_singleton 1)).subset ?_
    rintro d ⟨x, hx | ⟨rfl, rfl⟩⟩
    · exact .inl ⟨x, hx⟩
    · exact .inr rfl
  fastproto := by
    rintro x d (hx | ⟨rfl, rfl⟩)
    · exact hierarchy_generated.fastproto x d hx
    · rfl
  numbers := by
    rintro x d (hx | ⟨rfl, rfl⟩)
    · exact hierarchy_generated.numbers x d hx
    · decide
  closed := fun _ _ _ _ _ _ hproto => .inl (holderBound_closed hproto)

/-- **The subclass links first**: the module it is declared in has no `M`. -/
theorem subclass_first : ¬ ∀ (p : Program) (set : ClassId → DescId → Prop)
    (bound : DescId → UInt32 → ClassId), Hierarchy p set bound → p.LinksAlike set bound := by
  intro halike
  have hcalls : ∀ call ∈ [((3 : ClassId), Operation.fromBytes [])], ∃ d, subclassSet call.1 d := by
    intro call hcall
    obtain rfl := List.mem_singleton.mp hcall
    exact ⟨1, .inr ⟨rfl, rfl⟩⟩
  have hcall : subclassProgram.threadStep subclassProgram.compiled (.call 3 (.fromBytes []))
      = some (_, .linking 3 (.fromBytes []) [.enter 3]) := rfl
  have henter : subclassProgram.threadStep subclassProgram.compiled
      (.linking 3 (.fromBytes []) [.enter 3]) = some (_, .linking 3 (.fromBytes []) [.link 3]) := rfl
  -- the references of `H` are resolved in the module of the subclass, where `M` is missing
  have hraise : subclassProgram.threadStep subclassProgram.compiled
      (.linking 3 (.fromBytes []) [.link 3]) = some (_, .done 3 (.fromBytes [])
        (.raised (.lookupError "cannot resolve referenced type 'M'"))) := rfl
  have hrun : Threads.Run subclassProgram.threadStep
      (subclassProgram.compiled, firstCalls [(3, .fromBytes [])]) (subclassProgram.compiled, _) :=
    .head (.head _ hcall) <| .head (.head _ henter) <| .single (.head _ hraise)
  have hsucceeds := ((halike _ _ _ hierarchy_subclass _ hcalls).2 _ _ hrun).1
  exact hsucceeds _ (List.mem_cons_self ..) _ _ _ rfl

section Order

variable {p : Program} {set : ClassId → DescId → Prop} {bound : DescId → UInt32 → ClassId}

/-- **Linking comes out alike in every order of first calls** exactly when every reference leads to the
class that the generated module binds, in the module of every class of the hierarchy. -/
theorem Hierarchy.linksAlike_iff (h : Hierarchy p set bound) : p.LinksAlike set bound ↔
    ∀ x d, set x d → ∀ reference ∈ (p.inner d).refFields,
      LeadsTo p.getattr (p.moduleVars x) (segments reference.2) (bound d reference.1) :=
  ⟨fun halike _ _ hset _ hmem => h.leadsTo halike hset hmem, h.linksAlike⟩

end Order

/-- The generated classes link alike among themselves, but not with the subclass. -/
theorem linksAlike_iff_subclass : subclassProgram.LinksAlike holderDom holderBound ∧
    ¬ subclassProgram.LinksAlike subclassSet holderBound := by
  constructor
  · refine hierarchy_generated.linksAlike_iff.mpr ?_
    rintro x d (⟨rfl, rfl⟩ | ⟨rfl, rfl⟩) reference hmem
    · have hrefs : (subclassProgram.inner 0).refFields = [(2, "E"), (3, "M")] := rfl
      rw [hrefs] at hmem
      rcases hmem with _ | ⟨_, _ | ⟨_, hmem⟩⟩
      · exact ⟨0, rfl, nofun⟩
      · exact ⟨0, rfl, nofun⟩
      · cases hmem
    · have hrefs : (subclassProgram.inner 1).refFields = [(1, "M")] := rfl
      rw [hrefs] at hmem
      rcases hmem with _ | ⟨_, hmem⟩
      · exact ⟨0, rfl, nofun⟩
      · cases hmem
  · intro halike
    have hleads := hierarchy_subclass.linksAlike_iff.mp halike 3 1 (.inr ⟨rfl, rfl⟩) (1, "M")
      (List.mem_singleton.mpr rfl)
    -- the only suffix of the name is the name itself
    obtain ⟨start, hchain, -⟩ := hleads
    have hparts : segments "M" = ["M"] := rfl
    rw [hparts] at hchain
    cases start with
    | zero => cases hchain
    | succ start =>
        rw [List.drop_succ_cons, List.drop_nil] at hchain
        cases hchain

end FastProto
