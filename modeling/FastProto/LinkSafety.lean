import FastProto.LinkRun
import FastProto.DecodeAgree

/-! # What a thread may find linked

A descriptor is marked linked before the classes it refers to are. The classes a thread still has to
enter are on its stack: with one thread, every class that a linked class refers to is linked or on
the stack, and all of them are linked once the stack is empty. With more threads, only the class a
thread was called on is known to be linked when it decodes. -/

namespace FastProto

open Lib

/-! ## Graphs of message classes -/

/-- **A graph of message classes all of whose references resolve**: `w` is the program with every
class linked, and no two classes share a descriptor. -/
structure LinkGraph (p : Program) (w : World) (dom : ClassId → DescId → Prop) : Prop where
  family : Family w dom
  classes : w.cls = p.cls
  own : ∀ c c' d, dom c d → dom c' d → c = c'
  links : ∀ c d, dom c d → ∃ targets, p.linkOwn c (p.compiled d) = .ok (w.descriptor d, targets)

/-- A class refers to a message class through one of its fields. -/
def Refers (w : World) (d : DescId) (c' : ClassId) (d' : DescId) : Prop :=
  ∃ field ∈ (w.descriptor d).inner.fields, field.kind.refersToMessage = true ∧
    ∃ linked, (w.descriptor d).ref field.number = some linked ∧ linked.cls = c' ∧
      linked.desc = some d'

section Graph

variable {p : Program} {w : World} {dom : ClassId → DescId → Prop}

/-- **A descriptor of the graph, linked**: its references are those `_resolve` finds, one by one. -/
theorem LinkGraph.descriptor (h : LinkGraph p w dom) {c : ClassId} {d : DescId} (hdom : dom c d) :
    ∃ refs : List (UInt32 × ClassId),
      List.Forall₂ (fun reference ref => ref.1 = reference.1 ∧
        resolve p.getattr (p.moduleVars c) reference.2 = .ok ref.2) (p.inner d).refFields refs ∧
      w.descriptor d = {
        inner := p.inner d
        refs := some (p.linkRefs refs)
        linked := true
        fastInit := p.fastInit c (p.inner d) } := by
  obtain ⟨targets, hlink⟩ := h.links c d hdom
  obtain ⟨refs, hresolved, -, hdesc⟩ := Program.linkOwn_eq_ok.mp hlink
  have hinner : (w.descriptor d).inner = p.inner d := by rw [hdesc]; rfl
  have hnodup : ((p.inner d).refFields.map (·.1)).Nodup :=
    nodup_refFields (by rw [← hinner]; exact (h.family.generated c d hdom).numbers)
  exact ⟨refs, (Program.resolved_eq_ok hnodup).mp hresolved, hdesc⟩

/-- The classes of the graph have their descriptors. -/
theorem LinkGraph.fastproto (h : LinkGraph p w dom) {c : ClassId} {d : DescId} (hdom : dom c d) :
    (p.cls c).fastproto = some d := by
  rw [← h.classes]
  exact (h.family.generated c d hdom).fastproto

/-- A class has one descriptor. -/
theorem LinkGraph.desc_unique (h : LinkGraph p w dom) {c : ClassId} {d d' : DescId}
    (hdom : dom c d) (hdom' : dom c d') : d = d' := by
  have hsame := (h.fastproto hdom).symm.trans (h.fastproto hdom')
  exact Option.some.inj hsame

/-- Linking does not change the fields of a message. -/
theorem LinkGraph.inner (h : LinkGraph p w dom) {c : ClassId} {d : DescId} (hdom : dom c d) :
    (w.descriptor d).inner = p.inner d := by
  obtain ⟨refs, -, hdesc⟩ := h.descriptor hdom
  rw [hdesc]

/-- The flag of a linked descriptor is set. -/
theorem LinkGraph.linked (h : LinkGraph p w dom) {c : ClassId} {d : DescId} (hdom : dom c d) :
    (w.descriptor d).linked = true := by
  obtain ⟨refs, -, hdesc⟩ := h.descriptor hdom
  rw [hdesc]

/-- A reference is needed for messages and enums. -/
theorem FieldKind.needsRef_cases (kind : FieldKind) (h : kind.needsRef = true) :
    kind.refersToMessage = true ∨ kind.refersToEnum = true := by
  cases kind with
  | enum => exact .inr rfl
  | message => exact .inl rfl
  | map key value => cases value with
    | enum => exact .inr rfl
    | message => exact .inl rfl
    | _ => cases h
  | _ => cases h

variable (w) in
/-- The descriptor is the linked one. -/
abbrev World.Done (d : DescId) (desc : Descriptor) : Prop := desc = w.descriptor d

variable (w) in
/-- The message classes a class refers to. -/
abbrev World.Goes (d : DescId) (c' : ClassId) : Prop := ∃ d', Refers w d c' d'

/-- What a reference of a class of the graph leads to is a message of the graph or an enum. -/
theorem LinkGraph.dom_of_ref (h : LinkGraph p w dom) {c : ClassId} {d : DescId} (hdom : dom c d)
    {field : FieldDescriptor} (hfield : field ∈ (w.descriptor d).inner.fields)
    (hneeds : field.kind.needsRef = true) {target : ClassId}
    (href : (w.descriptor d).ref field.number = some (buildLinkedRef target (p.cls target)))
    {d' : DescId} (hproto : (p.cls target).fastproto = some d') : dom target d' := by
  have htarget : ∀ {cls' : ClassId},
      (w.descriptor d).ref field.number = some (buildLinkedRef cls' (w.cls cls')) →
        cls' = target := by
    intro cls' href'
    rw [href, Option.some.injEq] at href'
    have hcls := congrArg LinkedRef.cls href'
    rw [buildLinkedRef_cls, buildLinkedRef_cls] at hcls
    exact hcls.symm
  rcases field.kind.needsRef_cases hneeds with hmessage | henum
  · obtain ⟨cls', desc', href', hproto', hdom'⟩ := h.family.messages c d hdom field hfield hmessage
    obtain rfl := htarget href'
    rw [h.classes, hproto, Option.some.injEq] at hproto'
    rw [hproto']
    exact hdom'
  · obtain ⟨cls', enum, href', hproto', -⟩ := h.family.enums c d hdom field hfield henum
    obtain rfl := htarget href'
    rw [h.classes, hproto] at hproto'
    cases hproto'

/-- **A graph links**: every class of it, for the first time or once more, gets its linked
descriptor. -/
theorem LinkGraph.linkable (h : LinkGraph p w dom) : Linkable p dom w.Done w.Goes where
  fastproto := fun _ _ hdom => h.fastproto hdom
  flag := by
    rintro c d _ hdom rfl
    exact h.linked hdom
  linkOwn := by
    intro c d desc hdom hdesc
    obtain ⟨refs, hrel, hlinked⟩ := h.descriptor hdom
    have hnodup : ((p.inner d).refFields.map (·.1)).Nodup :=
      nodup_refFields (by rw [← h.inner hdom]; exact (h.family.generated c d hdom).numbers)
    have hkeys : (refs.map Prod.fst).Nodup := by
      rw [map_fst_of_resolved hrel]
      exact hnodup
    have hlookup : ∀ number, (w.descriptor d).ref number
        = (refs.lookup number).map fun target => buildLinkedRef target (p.cls target) := by
      intro number
      rw [hlinked]
      exact p.lookup_linkRefs refs number
    refine ⟨w.descriptor d, refs.map (·.2), ?_, rfl, ?_, ?_, ?_⟩
    · have hinner : desc.inner = p.inner d := by
        rcases hdesc with rfl | rfl
        · rfl
        · exact h.inner hdom
      refine Program.linkOwn_eq_ok.mpr ⟨refs, ?_, rfl, ?_⟩
      · rw [hinner]
        exact (Program.resolved_eq_ok hnodup).mpr hrel
      · rcases hdesc with rfl | rfl
        · rw [hlinked]
          rfl
        · rw [hlinked]
          simp
    · rw [List.length_map, hrel.length_eq]
    · intro target htarget d' hproto
      obtain ⟨ref, href, rfl⟩ := List.mem_map.mp htarget
      obtain ⟨reference, hreference, hnumber, -⟩ := exists_left_of_forall₂ hrel href
      obtain ⟨field, hfield, hfnumber, hneeds⟩ := mem_refFields hreference
      refine h.dom_of_ref hdom (by rw [h.inner hdom]; exact hfield) hneeds ?_ hproto
      rw [hlookup, hfnumber, ← hnumber, lookup_of_mem hkeys href]
      rfl
    · rintro c' ⟨d', field, -, -, linked, href, rfl, -⟩
      rw [hlookup] at href
      obtain ⟨target, htarget, rfl⟩ := Option.map_eq_some_iff.mp href
      rw [buildLinkedRef_cls]
      exact List.mem_map_of_mem (mem_of_lookup htarget)

end Graph

/-! ## Decoding while others link -/

section Decoding

variable {p : Program} {w : World} {dom : ClassId → DescId → Prop}

variable (p w) in
/-- The outcome of a decode is the one with every descriptor linked. -/
def Thread.Agrees : Thread → Prop
  | .done cls (.fromBytes data) outcome => ∀ d, (p.cls cls).fastproto = some d →
      outcome = .decoded (decode w d cls data)
  | _ => True

/-- A message without references refers to no message. -/
theorem LinkGraph.not_refers (h : LinkGraph p w dom) {c : ClassId} {d : DescId} (hdom : dom c d)
    (hnone : (p.inner d).refFields = []) (number : UInt32) : (w.descriptor d).ref number = none := by
  obtain ⟨refs, hrel, hlinked⟩ := h.descriptor hdom
  rw [hnone] at hrel
  cases hrel
  rw [hlinked]
  rfl

/-- An instance is built alike whether the class is linked or not: before, on the general path. -/
theorem LinkGraph.construct (h : LinkGraph p w dom) {descs : Descriptors}
    (hin : Intact p dom w.Done descs) {c : ClassId} {d : DescId} (hdom : dom c d)
    {values : List (Option PyVal)}
    (hvalues : List.Forall₂ (fun (field : FieldDescriptor) (v : Option PyVal) =>
      field.isCollection = true → v.isSome = true) (w.descriptor d).inner.fields values)
    (unknown : Bytes) :
    FastProto.construct (p.world descs) c (descs d) values unknown
      = FastProto.construct w c (w.descriptor d) values unknown := by
  have hclasses : (p.world descs).cls = w.cls := h.classes.symm
  rw [construct_congr hclasses]
  rcases hin c d hdom with hdesc | hdesc
  · have hgen := h.family.generated c d hdom
    have hinner := h.inner hdom
    rw [construct_generated h.family hdom hvalues,
      ← hgen.constructGeneral hvalues.length_eq.symm unknown, hdesc]
    unfold FastProto.constructGeneral
    rw [hinner]
    rfl
  · rw [hdesc]

/-- The message classes that a class of the graph refers to are classes of the graph. -/
theorem LinkGraph.dom_of_refers (h : LinkGraph p w dom) {c c' : ClassId} {d d' : DescId}
    (hdom : dom c d) (hrefers : Refers w d c' d') : dom c' d' := by
  obtain ⟨field, hfield, hmessage, linked, href, rfl, hdesc⟩ := hrefers
  obtain ⟨cls', desc', href', hproto, hdom'⟩ := h.family.messages c d hdom field hfield hmessage
  rw [href, Option.some.injEq] at href'
  subst href'
  rw [buildLinkedRef_desc, hproto, Option.some.injEq] at hdesc
  rw [buildLinkedRef_cls, ← hdesc]
  exact hdom'

/-- **Decoding agrees with the linked program** on a set of classes closed under message references,
each of them linked or without references of its own. -/
theorem LinkGraph.agree (h : LinkGraph p w dom) {descs : Descriptors} (hin : Intact p dom w.Done descs)
    {set : ClassId → DescId → Prop} (hset : ∀ c d, set c d → dom c d)
    (hlinked : ∀ c d, set c d → (descs d).linked = true ∨ (p.inner d).refFields = [])
    (hclosed : ∀ c d, set c d → ∀ c' d', Refers w d c' d' → dom c' d' → set c' d') :
    Agree (p.world descs) w set where
  cls := h.classes.symm
  inner := by
    intro c d hc
    rcases hin c d (hset c d hc) with hdesc | hdesc
    · rw [h.inner (hset c d hc)]
      exact congrArg Descriptor.inner hdesc
    · exact congrArg Descriptor.inner hdesc
  ref := by
    intro c d hc
    rcases hlinked c d hc with hflag | hnone
    · exact congrArg Descriptor.ref (hin.done_of_linked (hset c d hc) hflag)
    · rcases hin c d (hset c d hc) with hdesc | hdesc
      · funext number
        rw [h.not_refers (hset c d hc) hnone]
        exact congrArg (Descriptor.ref · number) hdesc
      · exact congrArg Descriptor.ref hdesc
  wellFormed := fun c d hc => (h.family.generated c d (hset c d hc)).wellFormed
  messages := by
    intro c d hc field hfield hmessage linked href d' hdesc
    have hrefers : Refers w d linked.cls d' := ⟨field, hfield, hmessage, linked, href, rfl, hdesc⟩
    exact hclosed c d hc linked.cls d' hrefers (h.dom_of_refers (hset c d hc) hrefers)
  construct := fun c d hc _ unknown hvalues => h.construct hin (hset c d hc) hvalues unknown

end Decoding

/-! ## Runs -/

/-- Threads that each call `from_bytes`. -/
def firstUses (calls : List (ClassId × Bytes)) : List Thread :=
  calls.map fun call => .call call.1 (.fromBytes call.2)

/-- **Linking is safe** with this many threads: in every run of first uses of classes of the graph,
every decode returns what it returns with every descriptor linked. -/
def Program.Safe (p : Program) (w : World) (dom : ClassId → DescId → Prop) (threads : Nat) : Prop :=
  ∀ calls : List (ClassId × Bytes), calls.length = threads → (∀ call ∈ calls, ∃ d, dom call.1 d) →
    ∀ descs pool, Threads.Run p.threadStep (p.compiled, firstUses calls) (descs, pool) →
      ∀ t ∈ pool, t.Agrees p w

/-- **A flat graph**: the messages a class refers to are the class itself or have no references. -/
def LinkGraph.Flat (p : Program) (w : World) (dom : ClassId → DescId → Prop) : Prop :=
  ∀ c d, dom c d → ∀ c' d', Refers w d c' d' → c' = c ∨ (p.inner d').refFields = []

section Runs

variable {p : Program} {w : World} {dom : ClassId → DescId → Prop}

/-- A thread that starts is sound. -/
theorem sound_firstUses {calls : List (ClassId × Bytes)} (hcalls : ∀ call ∈ calls, ∃ d, dom call.1 d)
    {t : Thread} (ht : t ∈ firstUses calls) : t.Sound p dom p.compiled := by
  obtain ⟨call, hcall, rfl⟩ := List.mem_map.mp ht
  exact Thread.sound_call (hcalls call hcall) _

/-- A thread that moves agrees, if decoding agrees on the classes linked. -/
theorem LinkGraph.agrees_step (h : LinkGraph p w dom) {descs descs' : Descriptors} {t t' : Thread}
    (hin : Intact p dom w.Done descs) (hs : t.Sound p dom descs)
    (hagree : t.stack = [] → ∃ set, Agree (p.world descs) w set ∧
      ∀ c d, dom c d → (descs d).linked = true → set c d)
    (hstep : p.threadStep descs t = some (descs', t')) : t'.Agrees p w := by
  obtain ⟨-, -, -, hdone⟩ := h.linkable.threadStep hin hs hstep
  cases t' with
  | done cls op outcome =>
      obtain ⟨d, hdom, hlinked, hstack, rfl⟩ := hdone cls op outcome rfl
      cases op with
      | toBytes instance_ => exact trivial
      | fromBytes data =>
          obtain ⟨set, hset, hmem⟩ := hagree hstack
          intro d' hproto
          obtain rfl : d' = d := by
            rw [h.fastproto hdom, Option.some.injEq] at hproto
            exact hproto.symm
          show Outcome.decoded _ = _
          rw [decode, hset.decodeMessage _ _ _ _ (hmem cls d' hdom hlinked)]
          rfl
  | _ => exact trivial

/-- **With one thread linking is safe**: the references of every linked class are linked or pending, so
at the decode, when nothing is pending, the linked classes are closed under references. -/
theorem LinkGraph.safe_single (h : LinkGraph p w dom) : p.Safe w dom 1 := by
  intro calls hlen hcalls descs pool hrun t ht
  obtain ⟨call, rfl⟩ := List.length_eq_one_iff.mp hlen
  have hstart : Intact p dom w.Done p.compiled ∧
      (Thread.call call.1 (.fromBytes call.2)).Sound p dom p.compiled ∧
      (∀ c d, dom c d → (p.compiled d).linked = true → ∀ c' d', Refers w d c' d' → dom c' d' →
        (p.compiled d').linked = true ∨
          c' ∈ pending (Thread.call call.1 (.fromBytes call.2)).stack) ∧
      (Thread.call call.1 (.fromBytes call.2)).Agrees p w :=
    ⟨intact_compiled, sound_firstUses hcalls (List.mem_singleton.mpr rfl), nofun, trivial⟩
  obtain ⟨t', rfl, -, -, -, hagrees⟩ := Threads.Run.invariant_single
    (fun descs t => Intact p dom w.Done descs ∧ t.Sound p dom descs ∧
      (∀ c d, dom c d → (descs d).linked = true → ∀ c' d', Refers w d c' d' → dom c' d' →
        (descs d').linked = true ∨ c' ∈ pending t.stack) ∧ t.Agrees p w)
    (by
      rintro s t s' t' ⟨hin, hs, hclosed, -⟩ hstep
      obtain ⟨hin', hs', hlink, -⟩ := h.linkable.threadStep hin hs hstep
      refine ⟨hin', hs', ?_, h.agrees_step hin hs ?_ hstep⟩
      · intro c d hdom hlinked c' d' href hdom'
        rcases hlink.targets c d hdom hlinked with hbefore | hnew
        · rcases hclosed c d hdom hbefore c' d' href hdom' with hlinked' | hpending
          · exact .inl (hlink.mono d' hlinked')
          · exact hlink.entered c' d' hdom' hpending
        · exact .inr (hnew c' ⟨d', href⟩)
      · intro hstack
        refine ⟨fun c d => dom c d ∧ (s d).linked = true, h.agree hin (fun _ _ hc => hc.1)
          (fun _ _ hc => .inl hc.2) ?_, fun _ _ hdom hlinked => ⟨hdom, hlinked⟩⟩
        rintro c d ⟨hdom, hlinked⟩ c' d' href hdom'
        rcases hclosed c d hdom hlinked c' d' href hdom' with hlinked' | hpending
        · exact ⟨hdom', hlinked'⟩
        · rw [hstack] at hpending
          cases hpending) hrun hstart
  rwa [List.mem_singleton.mp ht]

/-- **On a flat graph linking is safe** with any number of threads. -/
theorem LinkGraph.safe_flat (h : LinkGraph p w dom) (hflat : LinkGraph.Flat p w dom)
    (threads : Nat) : p.Safe w dom threads := by
  intro calls _ hcalls descs pool hrun t ht
  have hinv := Threads.Run.invariant (Intact p dom w.Done)
    (fun descs t => t.Sound p dom descs ∧ t.Agrees p w)
    (by
      rintro s t s' t' hin ⟨hs, -⟩ hstep
      obtain ⟨hin', hs', hlink, -⟩ := h.linkable.threadStep hin hs hstep
      refine ⟨hin', ⟨hs', h.agrees_step hin hs ?_ hstep⟩, fun other hother =>
        ⟨hother.1.mono hlink.mono, hother.2⟩⟩
      intro _
      refine ⟨fun c d => dom c d ∧ ((s d).linked = true ∨ (p.inner d).refFields = []),
        h.agree hin (fun _ _ hc => hc.1) (fun _ _ hc => hc.2) ?_,
        fun _ _ hdom hlinked => ⟨hdom, .inl hlinked⟩⟩
      rintro c d ⟨hdom, hc⟩ c' d' href hdom'
      refine ⟨hdom', ?_⟩
      rcases hflat c d hdom c' d' href with rfl | hnone
      · rwa [h.desc_unique hdom' hdom]
      · exact .inr hnone) hrun intact_compiled fun t ht => by
        refine ⟨sound_firstUses hcalls ht, ?_⟩
        obtain ⟨call, -, rfl⟩ := List.mem_map.mp ht
        exact trivial
  exact (hinv.2 t ht).2

end Runs

end FastProto
