import FastProto.LinkClosure
import FastProto.LinkOrder

/-! # Linking on first use

Descriptors are linked when a class is first used. Encoding finds the descriptor of a nested message
on the class of the message, so it never depends on what is linked: whatever the interleaving of
threads, `to_bytes` returns what it would if every class had been linked before. Decoding does depend
on it; but where one thread makes its calls one after the other, every call leaves the linked classes
closed under references, and `from_bytes` returns what it would with every class linked as well. -/

namespace FastProto

open Lib

/-! ## Encoding and references -/

section Congruence

variable {V : Type} {rt : Runtime V} {nested nested' : NestedEncoder V}
  {linked linked' : Option LinkedRef}
  (h : ∀ value buf, nested value linked buf = nested' value linked' buf)
include h

/-- A nested message is written alike. -/
theorem writeNestedField_congr (buf : Bytes) (number : UInt32) (value : V) :
    writeNestedField nested buf number value linked
      = writeNestedField nested' buf number value linked' := by
  unfold writeNestedField
  simp only [h]

/-- A single value is written alike. -/
theorem encodeSingle_congr (buf : Bytes) (number : UInt32) (kind : FieldKind) (value : V) :
    encodeSingle rt nested buf number kind value linked
      = encodeSingle rt nested' buf number kind value linked' := by
  cases kind with
  | message => exact writeNestedField_congr h buf number value
  | _ => rfl

/-- A repeated field is written alike. -/
theorem encodeRepeated_congr (buf : Bytes) (number : UInt32) (kind : FieldKind) (value : V) :
    encodeRepeated rt nested buf number kind value linked
      = encodeRepeated rt nested' buf number kind value linked' := by
  unfold encodeRepeated
  cases kind with
  | message => simp only [writeNestedField_congr h]
  | _ => rfl

/-- A map is written alike. -/
theorem encodeMap_congr (buf : Bytes) (number : UInt32) (key : ScalarType) (valueKind : MapValue)
    (value : V) : encodeMap rt nested buf number key valueKind value linked
      = encodeMap rt nested' buf number key valueKind value linked' := by
  have hvalue : ∀ buf v, encodeMapValue rt nested buf valueKind v linked
      = encodeMapValue rt nested' buf valueKind v linked' := by
    intro buf v
    cases valueKind with
    | message => exact writeNestedField_congr h buf 2 v
    | _ => rfl
  unfold encodeMap
  simp only [hvalue]

end Congruence

/-- **A field is written alike** where its nested messages are. -/
theorem encodeField_congr {V : Type} {rt : Runtime V} {nested nested' : NestedEncoder V}
    {desc desc' : Descriptor} {field : FieldDescriptor}
    (h : ∀ value buf, nested value (desc.ref field.number) buf
      = nested' value (desc'.ref field.number) buf) (instance_ : V) (st : Bytes × List Nat) :
    encodeField rt nested desc instance_ st field
      = encodeField rt nested' desc' instance_ st field := by
  unfold encodeField
  simp only [encodeMap_congr h, encodeRepeated_congr h, encodeSingle_congr h]

/-- **The descriptor of a nested message is that of its class**, whether a reference is linked or
not. -/
theorem nestedDescriptor_own {V : Type} {rt : Runtime V} {linked : Option LinkedRef}
    (h : ∀ l, linked = some l → l.desc = rt.typeDescriptor l.cls) (value : V) :
    nestedDescriptor rt value linked = nestedDescriptor rt value none := by
  unfold nestedDescriptor
  cases rt.view value with
  | inst cls attrs =>
      dsimp only [Option.bind_none]
      cases hfound : linked.bind fun l => if l.cls = cls then l.desc else none with
      | none => rfl
      | some desc =>
          obtain ⟨l, hl, hdesc⟩ := Option.bind_eq_some_iff.mp hfound
          split at hdesc
          · rename_i hcls
            rw [h l hl, hcls] at hdesc
            dsimp only
            rw [hdesc]
          · cases hdesc
  | _ => rfl

/-- A nested message without a linked reference has the descriptor of some class. -/
theorem exists_of_nestedDescriptor {V : Type} {rt : Runtime V} {value : V} {desc : DescId}
    (h : nestedDescriptor rt value none = .ok desc) : ∃ cls, rt.typeDescriptor cls = some desc := by
  unfold nestedDescriptor at h
  split at h
  · rename_i cls attrs _
    dsimp only [Option.bind_none] at h
    split at h
    · rename_i desc' hdesc
      cases h
      exact ⟨cls, hdesc⟩
    · cases h
  · cases h

section Encoding

variable {p : Program} {w : World} {dom : ClassId → DescId → Prop} {descs : Descriptors}

/-- A linked reference has the descriptor of its class. -/
theorem LinkGraph.ref_own (h : LinkGraph p w dom) {c : ClassId} {d : DescId} (hdom : dom c d)
    {number : UInt32} {l : LinkedRef} (href : (w.descriptor d).ref number = some l) :
    l.desc = (p.cls l.cls).fastproto := by
  obtain ⟨refs, -, hdesc⟩ := h.descriptor hdom
  rw [hdesc, Descriptor.ref, Option.bind_some, Program.lookup_linkRefs] at href
  obtain ⟨target, -, rfl⟩ := Option.map_eq_some_iff.mp href
  rw [buildLinkedRef_desc, buildLinkedRef_cls]

/-- Writing the fields and the unknown bytes of a message reads no descriptor but its own. -/
theorem encode_world (h : w.cls = p.cls) (descs : Descriptors) (instance_ : PyVal) :
    (∀ nested desc st field, encodeField (p.world descs).runtime nested desc instance_ st field
      = encodeField w.runtime nested desc instance_ st field) ∧
    ∀ buf, encodeUnknown (p.world descs).runtime instance_ buf
      = encodeUnknown w.runtime instance_ buf := by
  obtain ⟨cls, descriptor⟩ := w
  obtain rfl : cls = p.cls := h
  exact ⟨fun _ _ _ _ => rfl, fun _ => rfl⟩

/-- **Encoding does not depend on linking**: with descriptors that are compiled or linked, a message
is encoded as with every class linked. -/
theorem LinkGraph.encodeMessage_eq (h : LinkGraph p w dom)
    (hall : ∀ c d, (p.cls c).fastproto = some d → dom c d) (hin : Intact p dom w.Done descs)
    (levels : Nat) : ∀ (c : ClassId) (d : DescId), dom c d → ∀ (instance_ : PyVal) (buf : Bytes),
      encodeMessage (p.world descs).runtime levels instance_ d buf
        = encodeMessage w.runtime levels instance_ d buf := by
  induction levels with
  | zero => exact fun _ _ _ _ _ => rfl
  | succ levels ih =>
      intro c d hdom instance_ buf
      -- linked or not, a descriptor has the same fields
      have hinner : (descs d).inner = (w.descriptor d).inner := by
        rcases hin c d hdom with hdesc | hdesc
        · rw [hdesc, h.inner hdom]
          rfl
        · rw [hdesc]
      -- the references that are stored agree with what the class of the value says itself
      have hown : ∀ number l, (descs d).ref number = some l → l.desc = (p.cls l.cls).fastproto := by
        intro number l href
        rcases hin c d hdom with hdesc | hdesc
        · rw [hdesc] at href
          cases href
        · rw [hdesc] at href
          exact h.ref_own hdom href
      have hnested : ∀ field : FieldDescriptor, ∀ value buf,
          (nestedDescriptor (p.world descs).runtime value ((descs d).ref field.number) >>= fun desc =>
            encodeMessage (p.world descs).runtime levels value desc buf)
          = (nestedDescriptor w.runtime value ((w.descriptor d).ref field.number) >>= fun desc =>
            encodeMessage w.runtime levels value desc buf) := by
        intro field value buf
        have htype : ∀ cls, w.runtime.typeDescriptor cls = (p.cls cls).fastproto := by
          intro cls
          rw [← h.classes]
          rfl
        rw [nestedDescriptor_own (fun l hl => hown field.number l hl),
          nestedDescriptor_own (fun l hl => (h.ref_own hdom hl).trans (htype l.cls).symm)]
        have hnone : nestedDescriptor (p.world descs).runtime value none
            = nestedDescriptor w.runtime value none := by
          unfold nestedDescriptor
          simp only [Option.bind_none, htype]
          rfl
        rw [hnone]
        cases hdesc : nestedDescriptor w.runtime value none with
        | error err => rfl
        | ok desc =>
            obtain ⟨cls, hcls⟩ := exists_of_nestedDescriptor hdesc
            rw [htype] at hcls
            exact ih cls desc (hall cls desc hcls) value buf
      have hfield : encodeField (p.world descs).runtime
            (fun value linked buf =>
              nestedDescriptor (p.world descs).runtime value linked >>= fun desc =>
              encodeMessage (p.world descs).runtime levels value desc buf) (descs d) instance_
          = encodeField w.runtime
            (fun value linked buf => nestedDescriptor w.runtime value linked >>= fun desc =>
              encodeMessage w.runtime levels value desc buf) (w.descriptor d) instance_ := by
        funext st field
        rw [(encode_world h.classes descs instance_).1]
        exact encodeField_congr (hnested field) instance_ st
      unfold encodeMessage
      show (List.foldlM (encodeField (p.world descs).runtime _ (descs d) instance_)
          (buf, List.replicate (descs d).inner.oneofs.length 0) (descs d).inner.fields >>= _) = _
      rw [hfield, hinner]
      refine bind_congr fun st => ?_
      show (checkOneofs (descs d).inner.oneofs st.2 >>= fun _ =>
        encodeUnknown (p.world descs).runtime instance_ st.1) = _
      rw [hinner, (encode_world h.classes descs instance_).2]
      rfl

end Encoding

/-! ## Calls -/

/-- What a call returns with every class linked. -/
def World.outcome (w : World) (cls : ClassId) (desc : DescId) : Operation → Outcome
  | .toBytes instance_ => .encoded (encode w.runtime desc instance_)
  | .fromBytes data => .decoded (decode w desc cls data)

/-- The method a thread runs. -/
def Thread.op : Thread → Operation
  | .call _ op | .linking _ op _ | .ready _ op | .done _ op _ => op

@[simp] theorem Thread.op_resume (cls : ClassId) (op : Operation) (stack : List Frame) :
    (Thread.resume cls op stack).op = op := by
  cases stack <;> rfl

section Calls

variable {p : Program} {w : World} {dom : ClassId → DescId → Prop} {descs descs' : Descriptors}
  {t t' : Thread}

variable (p) in
/-- The innermost activation leaves the method of its thread alone. -/
theorem Program.frameStep_call (descs : Descriptors) (cls : ClassId) (op : Operation) (frame : Frame)
    (stack : List Frame) : (p.frameStep descs cls op frame stack).2.cls = cls ∧
      (p.frameStep descs cls op frame stack).2.op = op := by
  have hresume : (Thread.resume cls op stack).cls = cls ∧ (Thread.resume cls op stack).op = op :=
    ⟨Thread.cls_resume .., Thread.op_resume ..⟩
  unfold Program.frameStep
  split
  · split
    · exact ⟨rfl, rfl⟩
    · split
      · exact hresume
      · exact ⟨rfl, rfl⟩
  · split
    · exact ⟨rfl, rfl⟩
    · split <;> exact ⟨rfl, rfl⟩
  · exact hresume
  · split <;> exact ⟨rfl, rfl⟩

/-- A thread goes on with the method it was started for. -/
theorem Program.threadStep_call (hstep : p.threadStep descs t = some (descs', t')) :
    t'.cls = t.cls ∧ t'.op = t.op := by
  cases t with
  | call cls op =>
      simp only [Program.threadStep] at hstep
      split at hstep
      · cases hstep; exact ⟨rfl, rfl⟩
      · split at hstep <;> cases hstep <;> exact ⟨rfl, rfl⟩
  | linking cls op stack =>
      cases stack with
      | nil => cases hstep; exact ⟨rfl, rfl⟩
      | cons frame stack =>
          have hframe := p.frameStep_call descs cls op frame stack
          rwa [Option.some.inj hstep] at hframe
  | ready cls op =>
      simp only [Program.threadStep] at hstep
      split at hstep <;> cases hstep <;> exact ⟨rfl, rfl⟩
  | done => cases hstep

/-- A thread takes no step once it is done, and only then. -/
theorem Program.threadStep_eq_none :
    p.threadStep descs t = none ↔ ∃ cls op outcome, t = .done cls op outcome := by
  constructor
  · intro hstep
    cases t with
    | call cls op =>
        simp only [Program.threadStep] at hstep
        split at hstep
        · cases hstep
        · split at hstep <;> cases hstep
    | linking cls op stack => cases stack <;> cases hstep
    | ready cls op =>
        simp only [Program.threadStep] at hstep
        split at hstep <;> cases hstep
    | done cls op outcome => exact ⟨cls, op, outcome, rfl⟩
  · rintro ⟨cls, op, outcome, rfl⟩
    rfl

variable (p w) in
/-- A call that is done returned what it does with every class linked. -/
def Thread.Matches (t : Thread) : Prop :=
  ∀ cls op outcome, t = .done cls op outcome → ∀ desc, (p.cls cls).fastproto = some desc →
    outcome = w.outcome cls desc op

variable (p w) in
/-- An encoding that is done returned what it does with every class linked. -/
def Thread.EncodesAlike (t : Thread) : Prop := ∀ instance_, t.op = .toBytes instance_ → t.Matches p w

/-- **A step of an encoding**: it matches, whatever is linked by now. -/
theorem LinkGraph.encodesAlike_step (h : LinkGraph p w dom)
    (hall : ∀ c d, (p.cls c).fastproto = some d → dom c d) (hin : Intact p dom w.Done descs)
    (hs : t.Sound p dom descs) (hstep : p.threadStep descs t = some (descs', t')) :
    t'.EncodesAlike p w := by
  rintro instance_ hop cls op outcome rfl desc hproto
  obtain rfl : op = .toBytes instance_ := hop
  obtain ⟨-, -, -, hdone⟩ := h.linkable.threadStep hin hs hstep
  obtain ⟨d, hdom, -, -, rfl⟩ := hdone cls _ outcome rfl
  obtain rfl : desc = d := by
    rw [h.fastproto hdom, Option.some.injEq] at hproto
    exact hproto.symm
  exact congrArg Outcome.encoded (h.encodeMessage_eq hall hin _ cls desc hdom instance_ [])

/-- **`to_bytes` is safe under any interleaving**: whatever is called on other threads meanwhile, an
encoding is what it is with every class linked. -/
theorem LinkGraph.toBytes_safe (h : LinkGraph p w dom)
    (hall : ∀ c d, (p.cls c).fastproto = some d → dom c d) {calls : List (ClassId × Operation)}
    (hcalls : ∀ call ∈ calls, ∃ d, dom call.1 d) {pool : List Thread}
    (hrun : Threads.Run p.threadStep (p.compiled, firstCalls calls) (descs, pool)) :
    ∀ t ∈ pool, t.EncodesAlike p w := by
  -- encoding never reads a flag or a reference that a racing `link` may change
  have hinv := Threads.Run.invariant (Intact p dom w.Done)
    (fun descs t => t.Sound p dom descs ∧ t.EncodesAlike p w)
    (by
      rintro s t s' t' hin ⟨hs, -⟩ hstep
      obtain ⟨hin', hs', hlink, -⟩ := h.linkable.threadStep hin hs hstep
      exact ⟨hin', ⟨hs', h.encodesAlike_step hall hin hs hstep⟩, fun other hother =>
        ⟨hother.1.mono hlink.mono, hother.2⟩⟩) hrun intact_compiled fun t ht => by
      obtain ⟨call, hcall, rfl⟩ := List.mem_map.mp ht
      exact ⟨Thread.sound_call (hcalls call hcall) call.2, nofun⟩
  exact fun t ht => (hinv.2 t ht).2

end Calls

/-- The classes with a descriptor are those of the module. -/
theorem holderDom_of_fastproto (c : ClassId) (d : DescId)
    (h : (holderProgram.cls c).fastproto = some d) : holderDom c d := by
  by_cases htwo : c = 2
  · subst htwo
    cases h
    exact .inr ⟨rfl, rfl⟩
  · by_cases hzero : c = 0
    · subst hzero
      cases h
      exact .inl ⟨rfl, rfl⟩
    · have hcls : holderProgram.cls c = { enum := some { values := [0, 1] } } := by
        show (if c = 2 then _ else if c = 0 then _ else _) = _
        rw [if_neg htwo, if_neg hzero]
      rw [hcls] at h
      cases h

/-- The classes of the module are called. -/
theorem exists_holderDom {calls : List (ClassId × Operation)} (h : ∀ call ∈ calls, call.1 = 2) :
    ∀ call ∈ calls, ∃ d, holderDom call.1 d := fun call hcall => ⟨1, .inr ⟨h call hcall, rfl⟩⟩

/-- `H { m = M { a = 1 } }`, as the decoder builds it. -/
def holderValue : PyVal :=
  .inst 2 [("m", .inst 0 [("a", .int 1), ("e", .member 1 0), ("m", .pyNone),
    (unknownSlot, .bytes [])]), (unknownSlot, .bytes [])]

/-- Two threads: the second one encodes `H { m = M { a = 1 } }` while `M` is not linked. -/
theorem toBytes_safe_holder :
    (Thread.done 2 (.toBytes holderValue) (.encoded (.ok [0x0a, 2, 0x08, 1]))).EncodesAlike
      holderProgram holderWorld := by
  have hcall : holderProgram.threadStep holderProgram.compiled (.call 2 (.fromBytes []))
      = some (_, .linking 2 (.fromBytes []) [.enter 2]) := rfl
  have henter : holderProgram.threadStep holderProgram.compiled
      (.linking 2 (.fromBytes []) [.enter 2]) = some (_, .linking 2 (.fromBytes []) [.link 2]) := rfl
  have hstore : holderProgram.threadStep holderProgram.compiled
      (.linking 2 (.fromBytes []) [.link 2])
      = some (Function.update holderProgram.compiled 1 (holderWorld.descriptor 1),
          .linking 2 (.fromBytes []) [.loop [0]]) := rfl
  have hread : holderProgram.threadStep
      (Function.update holderProgram.compiled 1 (holderWorld.descriptor 1))
      (.call 2 (.toBytes holderValue)) = some (_, .ready 2 (.toBytes holderValue)) := rfl
  -- thread 1 stops after linking `H`, with `M` pending; thread 2 encodes
  have hrun : Threads.Run holderProgram.threadStep
      (holderProgram.compiled, firstCalls [(2, .fromBytes []), (2, .toBytes holderValue)])
      (Function.update holderProgram.compiled 1 (holderWorld.descriptor 1),
        [.linking 2 (.fromBytes []) [.loop [0]],
          .done 2 (.toBytes holderValue) (.encoded (.ok [0x0a, 2, 0x08, 1]))]) :=
    .head (.head _ hcall) <| .head (.head _ henter) <| .head (.head _ hstore) <|
      .head (.second _ _ hread) <| .single (.second _ _ rfl)
  exact linkGraph_holder.toBytes_safe holderDom_of_fastproto
    (exists_holderDom (by simp)) hrun _ (List.mem_cons_of_mem _ (List.mem_cons_self ..))

/-! ## Calls one after the other -/

/-- **Calls made one after the other**: each runs to its end before the next one starts. The
descriptors the calls leave, and what they return. -/
inductive Program.Session (p : Program) :
    Descriptors → List (ClassId × Operation) → Descriptors → List Outcome → Prop
  /-- No call is left. -/
  | nil {descs : Descriptors} : Session p descs [] descs []
  /-- The first call runs to its end. -/
  | call {descs descs' descs'' : Descriptors} {cls : ClassId} {op : Operation}
      {calls : List (ClassId × Operation)} {outcome : Outcome} {outcomes : List Outcome}
      (hcall : Threads.Run p.threadStep (descs, [.call cls op]) (descs', [.done cls op outcome]))
      (hrest : Session p descs' calls descs'' outcomes) :
      Session p descs ((cls, op) :: calls) descs'' (outcome :: outcomes)

/-- **Descriptors between two calls**: each is as it was compiled or linked, and the message classes
that a linked one refers to are linked. -/
structure Settled (p : Program) (w : World) (dom : ClassId → DescId → Prop) (descs : Descriptors) :
    Prop where
  intact : Intact p dom w.Done descs
  closed : ∀ c d, dom c d → (descs d).linked = true → ∀ c' d', Refers w d c' d' →
    (descs d').linked = true

/-- **During a call**: the message classes that a linked one refers to are linked or pending. -/
structure InCall (p : Program) (w : World) (dom : ClassId → DescId → Prop) (cls : ClassId)
    (op : Operation) (before descs : Descriptors) (t : Thread) : Prop where
  intact : Intact p dom w.Done descs
  sound : t.Sound p dom descs
  cls_eq : t.cls = cls
  op_eq : t.op = op
  kept : ∀ d, (before d).linked = true → (descs d).linked = true
  closed : ∀ c d, dom c d → (descs d).linked = true → ∀ c' d', Refers w d c' d' →
    (descs d').linked = true ∨ c' ∈ pending t.stack
  matching : t.Matches p w

section Sessions

variable {p : Program} {w : World} {dom : ClassId → DescId → Prop} {before descs descs' : Descriptors}
  {cls : ClassId} {op : Operation} {t t' : Thread}

/-- Nothing is linked at first. -/
theorem settled_compiled : Settled p w dom p.compiled where
  intact := intact_compiled
  closed := nofun

/-- A call starts between two others. -/
theorem InCall.start (hsettled : Settled p w dom descs) (hcls : ∃ d, dom cls d) (op : Operation) :
    InCall p w dom cls op descs descs (.call cls op) where
  intact := hsettled.intact
  sound := Thread.sound_call hcls op
  cls_eq := rfl
  op_eq := rfl
  kept := fun _ => id
  closed := fun c d hdom hlinked c' d' hrefers => .inl (hsettled.closed c d hdom hlinked c' d' hrefers)
  matching := nofun

variable (h : LinkGraph p w dom) (hall : ∀ c d, (p.cls c).fastproto = some d → dom c d)
include h

/-- **A decode between settled descriptors agrees**: the linked classes are closed under references. -/
theorem Settled.agree (hsettled : Settled p w dom descs) :
    Agree (p.world descs) w fun c d => dom c d ∧ (descs d).linked = true :=
  h.agree hsettled.intact (fun _ _ hc => hc.1) (fun _ _ hc => .inl hc.2)
    fun c d hc c' d' hrefers hdom' => ⟨hdom', hsettled.closed c d hc.1 hc.2 c' d' hrefers⟩

include hall

/-- **What the codec returns on settled descriptors** it returns with every class linked. -/
theorem Settled.run (hsettled : Settled p w dom descs) {d : DescId} (hdom : dom cls d)
    (hlinked : (descs d).linked = true) (op : Operation) :
    p.run descs cls d op = w.outcome cls d op := by
  cases op with
  | toBytes instance_ =>
      exact congrArg Outcome.encoded
        (h.encodeMessage_eq hall hsettled.intact _ cls d hdom instance_ [])
  | fromBytes data =>
      show Outcome.decoded (decode _ _ _ _) = Outcome.decoded (decode _ _ _ _)
      rw [decode, (hsettled.agree h).decodeMessage _ _ _ _ ⟨hdom, hlinked⟩]
      rfl

/-- **One step of a call.** -/
theorem InCall.step (hcall : InCall p w dom cls op before descs t)
    (hstep : p.threadStep descs t = some (descs', t')) : InCall p w dom cls op before descs' t' := by
  obtain ⟨hin', hs', hlink, hdone⟩ := h.linkable.threadStep hcall.intact hcall.sound hstep
  obtain ⟨hcls, hop⟩ := p.threadStep_call hstep
  refine ⟨hin', hs', hcls.trans hcall.cls_eq, hop.trans hcall.op_eq,
    fun d hd => hlink.mono d (hcall.kept d hd), ?_, ?_⟩
  · intro c d hdom hlinked c' d' hrefers
    rcases hlink.targets c d hdom hlinked with hbefore | hnew
    · rcases hcall.closed c d hdom hbefore c' d' hrefers with hlinked' | hpending
      · exact .inl (hlink.mono d' hlinked')
      · exact hlink.entered c' d' (h.dom_of_refers hdom hrefers) hpending
    · exact .inr (hnew c' ⟨d', hrefers⟩)
  · rintro cls' op' outcome rfl desc hproto
    obtain ⟨d, hdom, hlinked, hstack, rfl⟩ := hdone cls' op' outcome rfl
    obtain rfl : desc = d := by
      rw [h.fastproto hdom, Option.some.injEq] at hproto
      exact hproto.symm
    -- nothing is pending when the codec runs
    have hsettled : Settled p w dom descs := by
      refine ⟨hcall.intact, fun c d hdom hlinked c' d' hrefers => ?_⟩
      refine (hcall.closed c d hdom hlinked c' d' hrefers).resolve_right ?_
      rw [hstack]
      exact List.not_mem_nil
    exact hsettled.run h hall hdom hlinked op'

/-- **A call from settled descriptors**: they are settled when it is done, its class is linked, and it
returned what it does with every class linked. -/
theorem LinkGraph.call (hsettled : Settled p w dom descs) {d : DescId} (hdom : dom cls d)
    {outcome : Outcome}
    (hrun : Threads.Run p.threadStep (descs, [.call cls op]) (descs', [.done cls op outcome])) :
    Settled p w dom descs' ∧ (∀ d, (descs d).linked = true → (descs' d).linked = true) ∧
      (descs' d).linked = true ∧ outcome = w.outcome cls d op := by
  obtain ⟨t, ht, hdone⟩ := Threads.Run.invariant_single (InCall p w dom cls op descs)
    (fun _ _ _ _ hcall hstep => hcall.step h hall hstep) hrun (.start hsettled ⟨d, hdom⟩ op)
  obtain rfl : Thread.done cls op outcome = t := by simpa using ht
  refine ⟨⟨hdone.intact, fun c d hdom hlinked c' d' hrefers => ?_⟩, hdone.kept, ?_,
    hdone.matching cls op outcome rfl d (h.fastproto hdom)⟩
  · exact (hdone.closed c d hdom hlinked c' d' hrefers).resolve_right nofun
  · obtain ⟨d', hdom', hroot⟩ := hdone.sound.root
    rw [h.desc_unique hdom hdom']
    exact hroot.resolve_right nofun

/-- A call from settled descriptors ends. -/
theorem LinkGraph.exists_call (hfinite : {d | ∃ c, dom c d}.Finite) (hsettled : Settled p w dom descs)
    (hcls : ∃ d, dom cls d) (op : Operation) : ∃ descs' outcome,
      Threads.Run p.threadStep (descs, [.call cls op]) (descs', [.done cls op outcome]) := by
  have hstart := InCall.start hsettled hcls op
  have hterminates : Threads.Terminates p.threadStep (descs, [.call cls op]) := by
    refine h.linkable.terminates_of_sound hfinite hsettled.intact fun t ht => ?_
    obtain rfl := List.mem_singleton.mp ht
    exact hstart.sound
  obtain ⟨descs', t', hrun, hcall, hstuck⟩ := Threads.exists_stuck (InCall p w dom cls op descs)
    (fun _ _ _ _ hcall hstep => hcall.step h hall hstep) hterminates hstart
  obtain ⟨cls', op', outcome, rfl⟩ := Program.threadStep_eq_none.mp hstuck
  obtain rfl : cls' = cls := hcall.cls_eq
  obtain rfl : op' = op := hcall.op_eq
  exact ⟨descs', outcome, hrun⟩

/-- **A session from settled descriptors**: they are settled after it, and every call returned what it
does with every class linked. -/
theorem LinkGraph.session {calls : List (ClassId × Operation)}
    (hcalls : ∀ call ∈ calls, ∃ d, dom call.1 d) (hsettled : Settled p w dom descs)
    {outcomes : List Outcome} (hrun : p.Session descs calls descs' outcomes) :
    Settled p w dom descs' ∧ (∀ d, (descs d).linked = true → (descs' d).linked = true) ∧
      (∀ call ∈ calls, ∀ d, dom call.1 d → (descs' d).linked = true) ∧
      List.Forall₂ (fun call outcome => ∀ d, dom call.1 d → outcome = w.outcome call.1 d call.2)
        calls outcomes := by
  induction hrun with
  | nil => exact ⟨hsettled, fun _ => id, nofun, .nil⟩
  | @call descs descs₁ _ cls op calls outcome outcomes hcall _ ih =>
      obtain ⟨d, hdom⟩ := hcalls (cls, op) List.mem_cons_self
      obtain ⟨hsettled₁, hmono, hlinked, houtcome⟩ := h.call hall hsettled hdom hcall
      obtain ⟨hsettled', hmono', hlinked', hrest⟩ :=
        ih (fun call hcall => hcalls call (List.mem_cons_of_mem _ hcall)) hsettled₁
      refine ⟨hsettled', fun d hd => hmono' d (hmono d hd), ?_, .cons (fun d' hdom' => ?_) hrest⟩
      · intro call hmem d' hdom'
        rcases List.mem_cons.mp hmem with rfl | hmem
        · rw [h.desc_unique hdom' hdom]
          exact hmono' d hlinked
        · exact hlinked' call hmem d' hdom'
      · rw [h.desc_unique hdom' hdom]
        exact houtcome

/-- Every session can be run. -/
theorem LinkGraph.exists_session (hfinite : {d | ∃ c, dom c d}.Finite)
    {calls : List (ClassId × Operation)} (hcalls : ∀ call ∈ calls, ∃ d, dom call.1 d)
    (hsettled : Settled p w dom descs) : ∃ descs' outcomes, p.Session descs calls descs' outcomes := by
  induction calls generalizing descs with
  | nil => exact ⟨descs, [], .nil⟩
  | cons call calls ih =>
      obtain ⟨cls, op⟩ := call
      obtain ⟨d, hdom⟩ := hcalls (cls, op) List.mem_cons_self
      obtain ⟨descs₁, outcome, hcall⟩ := h.exists_call hall hfinite hsettled ⟨d, hdom⟩ op
      have hsettled₁ := (h.call hall hsettled hdom hcall).1
      obtain ⟨descs', outcomes, hrest⟩ :=
        ih (fun call hmem => hcalls call (List.mem_cons_of_mem _ hmem)) hsettled₁
      exact ⟨descs', outcome :: outcomes, .call hcall hrest⟩

/-- **Linking on first use shows nowhere in a session**: calls made one after the other, in any order
and on any classes of the graph, all end, and each returns what it does with every class linked. -/
theorem LinkGraph.session_compiled (hfinite : {d | ∃ c, dom c d}.Finite)
    {calls : List (ClassId × Operation)} (hcalls : ∀ call ∈ calls, ∃ d, dom call.1 d) :
    (∃ descs outcomes, p.Session p.compiled calls descs outcomes) ∧
      ∀ descs outcomes, p.Session p.compiled calls descs outcomes →
        List.Forall₂ (fun call outcome => ∀ d, dom call.1 d → outcome = w.outcome call.1 d call.2)
          calls outcomes :=
  ⟨h.exists_session hall hfinite hcalls settled_compiled, fun _ _ hrun =>
    (h.session hall hcalls settled_compiled hrun).2.2.2⟩

/-- **A step of a call on a linked class**: it links nothing. -/
theorem Settled.warm_step (hsettled : Settled p w dom descs)
    (hlinking : ∀ cls op stack, t ≠ .linking cls op stack) {d : DescId} (hdom : dom t.cls d)
    (hlinked : (descs d).linked = true) (hstep : p.threadStep descs t = some (descs', t')) :
    descs' = descs ∧ t'.cls = t.cls ∧ (∀ cls op stack, t' ≠ .linking cls op stack) ∧
      t'.Matches p w := by
  have hproto := h.fastproto hdom
  cases t with
  | call cls op =>
      simp only [Program.threadStep, show (p.cls cls).fastproto = some d from hproto, hlinked,
        if_true] at hstep
      cases hstep
      exact ⟨rfl, rfl, by simp, by simp [Thread.Matches]⟩
  | linking cls op stack => exact absurd rfl (hlinking cls op stack)
  | ready cls op =>
      simp only [Program.threadStep, show (p.cls cls).fastproto = some d from hproto] at hstep
      cases hstep
      refine ⟨rfl, rfl, by simp, ?_⟩
      rintro cls' op' outcome hdone d' hproto'
      cases hdone
      obtain rfl : d = d' := Option.some.inj (hproto.symm.trans hproto')
      exact hsettled.run h hall hdom hlinked op
  | done cls op outcome => cases hstep

/-- **Classes that were used once are safe**: after a session, threads that call methods of the classes
used in it link nothing, and each call returns what it does with every class linked. -/
theorem LinkGraph.safe_after {first calls : List (ClassId × Operation)}
    (hfirst : ∀ call ∈ first, ∃ d, dom call.1 d) {outcomes : List Outcome}
    (hsession : p.Session p.compiled first descs outcomes)
    (hcalls : ∀ call ∈ calls, ∃ used ∈ first, used.1 = call.1) {pool : List Thread}
    (hrun : Threads.Run p.threadStep (descs, firstCalls calls) (descs', pool)) :
    descs' = descs ∧ ∀ t ∈ pool, t.Matches p w := by
  obtain ⟨hsettled, -, hlinked, -⟩ := h.session hall hfirst settled_compiled hsession
  -- every class called is linked, so no thread writes and the store stays as it is
  have hinv := Threads.Run.invariant (fun descs' => descs' = descs)
    (fun _ t => t.Matches p w ∧ (∀ cls op stack, t ≠ .linking cls op stack) ∧
      ∃ d, dom t.cls d ∧ (descs d).linked = true)
    (by
      rintro _ t s' t' rfl ⟨-, hlinking, d, hdom, hlinked⟩ hstep
      obtain ⟨rfl, hcls, hlinking', hmatches⟩ := hsettled.warm_step h hall hlinking hdom hlinked hstep
      exact ⟨rfl, ⟨hmatches, hlinking', d, by rwa [hcls], hlinked⟩, fun _ hother => hother⟩) hrun rfl
    (by
      intro t ht
      obtain ⟨call, hcall, rfl⟩ := List.mem_map.mp ht
      obtain ⟨used, hused, hsame⟩ := hcalls call hcall
      obtain ⟨d, hdom⟩ := hfirst used hused
      refine ⟨nofun, nofun, d, ?_, hlinked used hused d hdom⟩
      rw [← hsame]
      exact hdom)
  exact ⟨hinv.1, fun t ht => (hinv.2 t ht).1⟩

end Sessions

/-- A session of two calls: `H { m = M { a = 1 } }` is encoded, and its bytes are decoded. -/
theorem session_compiled_holder :
    (∃ descs outcomes, holderProgram.Session holderProgram.compiled
      [(2, .toBytes holderValue), (2, .fromBytes [0x0a, 2, 0x08, 1])] descs outcomes) ∧
    ∀ descs outcomes, holderProgram.Session holderProgram.compiled
      [(2, .toBytes holderValue), (2, .fromBytes [0x0a, 2, 0x08, 1])] descs outcomes →
        outcomes = [.encoded (.ok [0x0a, 2, 0x08, 1]), .decoded (.ok holderValue)] := by
  obtain ⟨hexists, hall⟩ := linkGraph_holder.session_compiled holderDom_of_fastproto finite_holderDom
    (@exists_holderDom [(2, .toBytes holderValue), (2, .fromBytes [0x0a, 2, 0x08, 1])] (by simp))
  refine ⟨hexists, fun descs outcomes hsession => ?_⟩
  cases hall descs outcomes hsession with
  | cons hfirst hrest =>
      cases hrest with
      | cons hsecond hrest =>
          cases hrest
          rw [hfirst 1 (.inr ⟨rfl, rfl⟩), hsecond 1 (.inr ⟨rfl, rfl⟩)]
          rfl

/-- After `H` was used once, the race of two first uses does not happen. -/
theorem safe_after_holder : ∃ descs outcomes,
    holderProgram.Session holderProgram.compiled [(2, .fromBytes [])] descs outcomes ∧
    ∀ pool descs', Threads.Run holderProgram.threadStep (descs, firstCalls
      [(2, .fromBytes []), (2, .fromBytes [0x0a, 2, 0x1a, 0])]) (descs', pool) →
        descs' = descs ∧ ∀ t ∈ pool, t.Matches holderProgram holderWorld := by
  obtain ⟨descs, outcomes, hsession⟩ := linkGraph_holder.exists_session holderDom_of_fastproto
    finite_holderDom (@exists_holderDom [(2, .fromBytes [])] (by simp)) settled_compiled
  refine ⟨descs, outcomes, hsession, fun pool descs' hrun => ?_⟩
  exact linkGraph_holder.safe_after holderDom_of_fastproto
    (@exists_holderDom [(2, .fromBytes [])] (by simp)) hsession (by simp) hrun

end FastProto
