import FastProto.GeneratedSessions
import FastProto.ForwardCompat

/-! # Versions of a schema

Two programs are generated from two versions of the same files: the newer version keeps the fields of
the older one and may add others. What the newer program reads, the older one reads as far as it knows
the fields, and when it passes a message on, the newer program reads the message it would have read at
once (`evolution_generated`). -/

namespace FastProto

open Lib

namespace ModuleSet

/-! ## What calls return -/

section Returns

variable (M : ModuleSet) (py : PythonNames) (ids : ObjectIds M)

/-- **Calls on a class return this outcome**, in every session of the program, whatever was called
before. -/
def Returns (full : String) (op : Operation) (outcome : Outcome) : Prop :=
  ∀ calls : List (ClassId × Operation), (∀ call ∈ calls, M.MessageClass call.1 call.1) →
    ∀ (descs : Descriptors) (outcomes : List Outcome),
      (M.program py ids).Session (M.program py ids).compiled calls descs outcomes →
      ∀ place : Nat, calls[place]? = some (M.idOf full, op) → outcomes[place]? = some outcome

variable {M py ids} {file : FileDescriptorProto} {p : String × DescriptorProto}

/-- **What calls return** is what they do with every class linked. -/
theorem returns_iff (hvalid : ProtocValid M.files) (hnumbers : ValidNumbers M.files)
    (hloaded : M.Loaded) (hsound : ∀ file ∈ M.loaded, M.Sound py file) (hfile : file ∈ M.loaded)
    (hp : p ∈ file.allMessages) {op : Operation} {outcome : Outcome} :
    M.Returns py ids p.1 op outcome ↔
      (M.linkedWorld py ids).outcome (M.idOf p.1) (M.idOf p.1) op = outcome := by
  have hgraph : LinkGraph (M.program py ids) (M.linkedWorld py ids) M.MessageClass :=
    linkGraph_program hvalid hnumbers hloaded hsound
  constructor
  · -- one call is a session
    intro hreturns
    have hcalls : ∀ call ∈ [(M.idOf p.1, op)], M.MessageClass call.1 call.1 := by
      intro call hcall
      rw [List.mem_singleton.mp hcall]
      exact messageClass_of_mem hfile hp
    obtain ⟨descs, outcomes, hrun⟩ := hgraph.exists_session (fun _ _ => messageClass_of_fastproto)
      M.finite_messageClass (fun call hcall => ⟨call.1, hcalls call hcall⟩) settled_compiled
    have houtcome := hreturns _ hcalls descs outcomes hrun 0 rfl
    rw [outcomes_generated hvalid hnumbers hloaded hsound hcalls hrun] at houtcome
    exact Option.some.inj houtcome
  · rintro rfl calls hcalls descs outcomes hrun place hcall
    rw [outcomes_generated hvalid hnumbers hloaded hsound hcalls hrun, List.getElem?_map, hcall]
    rfl

end Returns

/-! ## Two versions -/

/-- The messages of the loaded files. -/
def loadedMessages (M : ModuleSet) : List (String × DescriptorProto) :=
  M.loaded.flatMap (·.allMessages)

/-- **The newer files extend the older ones**: messages of one name keep their fields, and the fields
the types of the messages they hold. -/
structure EvolvesInto (old new : ModuleSet) : Prop where
  fields : ∀ p ∈ old.loadedMessages, ∀ q ∈ new.loadedMessages, q.1 = p.1 →
    p.2.compiled.ExtendedBy q.2.compiled
  types : ∀ p ∈ old.loadedMessages, ∀ q ∈ new.loadedMessages, q.1 = p.1 →
    ∀ f ∈ p.2.compiled.fields, ∀ g ∈ q.2.compiled.fields, f.Kept g →
      f.kind.refersToMessage = true → g.typeName = f.typeName

/-- The classes of one message in the two programs. -/
inductive SameMessage (old new : ModuleSet) : ClassId → DescId → ClassId → DescId → Prop where
  | intro {p q : String × DescriptorProto} (hp : p ∈ old.loadedMessages)
      (hq : q ∈ new.loadedMessages) (hname : q.1 = p.1) :
      SameMessage old new (old.idOf p.1) (old.idOf p.1) (new.idOf q.1) (new.idOf q.1)

/-- The messages of loaded files are messages of the files. -/
theorem mem_messagesOf {M : ModuleSet} (hloaded : M.Loaded) {file : FileDescriptorProto}
    (hfile : file ∈ M.loaded) {p : String × DescriptorProto} (hp : p ∈ file.allMessages) :
    p ∈ messagesOf M.files :=
  List.mem_flatMap.mpr
    ⟨file, hloaded.files file hfile, (FileDescriptorProto.mem_messages hp).1⟩

/-- A reference is one to its class. -/
theorem cls_of_ref {e e' : ClassId} {cls cls' : PyClass}
    (h : some (buildLinkedRef e cls) = some (buildLinkedRef e' cls')) : e = e' := by
  have hcls := congrArg LinkedRef.cls (Option.some.inj h)
  rwa [buildLinkedRef_cls, buildLinkedRef_cls] at hcls

section Evolution

variable {old new : ModuleSet} {py py' : PythonNames} {ids : ObjectIds old} {ids' : ObjectIds new}
  (hvalid : ProtocValid old.files) (hnumbers : ValidNumbers old.files) (hloaded : old.Loaded)
  (hsound : ∀ file ∈ old.loaded, old.Sound py file) (hvalid' : ProtocValid new.files)
  (hnumbers' : ValidNumbers new.files) (hloaded' : new.Loaded)
  (hsound' : ∀ file ∈ new.loaded, new.Sound py' file) (hevolves : old.EvolvesInto new)
include hvalid hnumbers hloaded hsound hvalid' hnumbers' hloaded' hsound' hevolves

/-- **The newer program knows the messages of the older one.** -/
theorem evolves_linkedWorld : Evolves (old.linkedWorld py ids) (new.linkedWorld py' ids')
    (SameMessage old new) where
  extended := by
    rintro _ _ _ _ ⟨hp, hq, hname⟩
    obtain ⟨file, hfile, hp'⟩ := List.mem_flatMap.mp hp
    obtain ⟨file', hfile', hq'⟩ := List.mem_flatMap.mp hq
    have hinner := @inner_linked old py ids _ _ hvalid hnumbers hloaded hfile (hsound file hfile) hp'
    have hinner' :=
      @inner_linked new py' ids' _ _ hvalid' hnumbers' hloaded' hfile' (hsound' file' hfile') hq'
    show ((old.linkedDescriptors py ids _).inner).ExtendedBy (new.linkedDescriptors py' ids' _).inner
    rw [hinner, hinner']
    exact hevolves.fields _ hp _ hq hname
  messages := by
    rintro _ _ _ _ ⟨hp, hq, hname⟩ f hf g hg hkept hrefers e de e' de' href hproto href' hproto'
    obtain ⟨file, hfile, hp'⟩ := List.mem_flatMap.mp hp
    obtain ⟨file', hfile', hq'⟩ := List.mem_flatMap.mp hq
    have hinner := @inner_linked old py ids _ _ hvalid hnumbers hloaded hfile (hsound file hfile) hp'
    have hinner' :=
      @inner_linked new py' ids' _ _ hvalid' hnumbers' hloaded' hfile' (hsound' file' hfile') hq'
    replace hf := hinner ▸ hf
    replace hg := hinner' ▸ hg
    -- the classes the two fields refer to have one name
    obtain ⟨other, hother, r, hr, htype, htarget⟩ :=
      (@target_of_field old py ids _ _ hvalid hnumbers hloaded hsound hfile hp' f hf).1 hrefers
    obtain ⟨other', hother', r', hr', htype', htarget'⟩ :=
      (@target_of_field new py' ids' _ _ hvalid' hnumbers' hloaded' hsound' hfile' hq' g hg).1
        (by rw [hkept.kind]; exact hrefers)
    have hfull : fullName r'.1 = fullName r.1 :=
      Option.some.inj (htype'.symm.trans
        ((hevolves.types _ hp _ hq hname f hf g hg hkept hrefers).trans htype))
    have hsame : r'.1 = r.1 := by
      rw [← dot_message (mem_messagesOf hloaded' hother' hr'), hfull,
        dot_message (mem_messagesOf hloaded hother hr)]
    obtain rfl : e = old.idOf r.1 := cls_of_ref (href.symm.trans htarget)
    obtain rfl : e' = new.idOf r'.1 := cls_of_ref (href'.symm.trans htarget')
    obtain ⟨rfl, -⟩ := messageClass_of_fastproto hproto
    obtain ⟨rfl, -⟩ := messageClass_of_fastproto hproto'
    exact .intro (List.mem_flatMap.mpr ⟨other, hother, hr⟩)
      (List.mem_flatMap.mpr ⟨other', hother', hr'⟩) hsame

/-- **Older programs pass the messages of newer ones on.** Let a newer program read a message from
some bytes. Then the older program reads from them a message that has, in the fields it knows, what
the newer one has; and from the bytes that the older program makes of its message the newer one reads
the message it read at first. All this holds of the calls of both programs in every session. -/
theorem evolution_generated {file file' : FileDescriptorProto} {p q : String × DescriptorProto}
    (hfile : file ∈ old.loaded) (hp : p ∈ file.allMessages) (hfile' : file' ∈ new.loaded)
    (hq : q ∈ file'.allMessages) (hname : q.1 = p.1) {data : Bytes} {m' : PyVal}
    (h : new.Returns py' ids' q.1 (.fromBytes data) (.decoded (.ok m'))) :
    ∃ m, old.Returns py ids p.1 (.fromBytes data) (.decoded (.ok m)) ∧
      SeenAs (old.linkedWorld py ids) (new.linkedWorld py' ids') (SameMessage old new) .message m m' ∧
      ∀ out, old.Returns py ids p.1 (.toBytes m) (.encoded (.ok out)) → out.length ≤ isizeMax →
        new.Returns py' ids' q.1 (.fromBytes out) (.decoded (.ok m')) := by
  have hold := fun {op outcome} =>
    @returns_iff old py ids file p hvalid hnumbers hloaded hsound hfile hp op outcome
  have hnew := fun {op outcome} =>
    @returns_iff new py' ids' file' q hvalid' hnumbers' hloaded' hsound' hfile' hq op outcome
  have hdecode : decode (new.linkedWorld py' ids') (new.idOf q.1) (new.idOf q.1) data = .ok m' :=
    Outcome.decoded.inj (hnew.mp h)
  -- messages of one name in the two versions are related
  have hdoms : ∀ c d c' d', SameMessage old new c d c' d' →
      old.MessageClass c d ∧ new.MessageClass c' d' := by
    rintro _ _ _ _ ⟨hp, hq, -⟩
    obtain ⟨file, hfile, hp⟩ := List.mem_flatMap.mp hp
    obtain ⟨file', hfile', hq⟩ := List.mem_flatMap.mp hq
    exact ⟨messageClass_of_mem hfile hp, messageClass_of_mem hfile' hq⟩
  have hrelated : SameMessage old new (old.idOf p.1) (old.idOf p.1) (new.idOf q.1) (new.idOf q.1) :=
    .intro (List.mem_flatMap.mpr ⟨file, hfile, hp⟩) (List.mem_flatMap.mpr ⟨file', hfile', hq⟩) hname
  obtain ⟨m, hm, hseen, hback⟩ := decode_relayed
    (@family_linkedWorld old py ids hvalid hnumbers hloaded hsound)
    (family_linkedWorld hvalid' hnumbers' hloaded' hsound')
    (evolves_linkedWorld hvalid hnumbers hloaded hsound hvalid' hnumbers' hloaded' hsound' hevolves)
    hdoms hrelated hdecode
  refine ⟨m, hold.mpr (congrArg Outcome.decoded hm), hseen, fun out hout hlen => ?_⟩
  exact hnew.mpr (congrArg Outcome.decoded (hback out (Outcome.encoded.inj (hold.mp hout)) hlen))

end Evolution

/-! ## Decoding records

What a message of generated classes is decoded to, record by record. -/

end ModuleSet

/-- A record of a singular field sets the slot of the field. -/
theorem segmentStep_singular {w : World} {nested : NestedDecoder} {desc : Descriptor}
    {st : DecodeState} {seg : Segment} {idx : Nat} {field : FieldDescriptor}
    (hfield : desc.inner.recognize seg.number seg.payload.wire = some (idx, field))
    (hmap : field.kind.isMap = false) (hlabel : field.label ≠ .repeated) {value : PyVal}
    (hvalue : valueOfPayload w nested field.kind (desc.ref field.number) seg.payload = .ok value) :
    segmentStep w nested desc st seg = .ok ((st.claimOneof field idx).store idx value) := by
  rw [segmentStep, hfield]
  dsimp only
  rw [fieldStep_singular w nested hmap hlabel, hvalue, ok_bind]

/-- The bytes of a record that no field takes are kept. -/
theorem segmentStep_keep {w : World} {nested : NestedDecoder} {desc : Descriptor} {st : DecodeState}
    {seg : Segment} (hfield : desc.inner.recognize seg.number seg.payload.wire = none) :
    segmentStep w nested desc st seg = .ok (st.keep seg.raw) := by
  rw [segmentStep, hfield]

/-- **A message of a family is decoded from records** to the instance with what their steps leave. -/
theorem decodeMessage_records {w : World} {dom : ClassId → DescId → Prop} (hfam : Family w dom)
    {cls : ClassId} {desc : DescId} (hdom : dom cls desc) {levels : Nat} {recs : List Record}
    (hrecs : ∀ rec ∈ recs, rec.Readable) {st : DecodeState}
    (hfold : (recs.map Record.segment).foldlM
      (segmentStep w (decodeMessage w levels) (w.descriptor desc))
      (DecodeState.init (w.descriptor desc).inner.fields) = .ok st) :
    decodeMessage w (levels + 1) cls desc (recordsBytes recs)
      = .ok (instanceOf cls (w.descriptor desc) (filledValues (w.descriptor desc) st.values)
          st.unknown) := by
  have hwf := (hfam.generated cls desc hdom).wellFormed
  have hready : st.Ready (w.descriptor desc).inner.fields :=
    foldlM_invariant (·.Ready (w.descriptor desc).inner.fields)
      (fun s seg s' _ => segmentStep_keeps w _ hwf s seg s') _ _ (DecodeState.ready_init _) hfold
  rw [decodeMessage_split hwf (split_segments hrecs), hfold, ok_bind]
  exact construct_generated hfam hdom hready.collections _

namespace ModuleSet

/-! ## A later version of the package

`message Outer { Inner inner = 1; int32 size = 2; message Inner {} }`: the field `size` is added. -/

/-- The fields of the later version. -/
def laterFields : List FieldDescriptorProto :=
  outerMessage.field ++ [{ name := "size", number := 2, type := .scalar .int32 }]

/-- The added field as the parser returns it. -/
def sizeField : FieldDescriptor where
  number := 2
  name := "size"
  kind := .scalar .int32
  label := .single
  typeName := none
  oneofIndex := none

set_option maxRecDepth 20000 in
/-- The later version is one of the package. -/
theorem version_later : Version laterFields := ⟨by decide, by decide, by decide, by decide⟩

/-- What the parser returns for the later version. -/
theorem compiled_later :
    (outerWith laterFields).compiled = ⟨"Outer", [innerField, sizeField], []⟩ := by
  decide

/-- What is sent: the added field, the kept one, and a field that neither version knows. -/
def sentRecords : List Record := [⟨2, .varint 7⟩, ⟨1, .len []⟩, ⟨9, .varint 5⟩]

/-- The records can be read. -/
theorem readable_sentRecords : ∀ rec ∈ sentRecords, rec.Readable := fun rec hrec =>
  ⟨by revert rec; decide, fits_of_recordsBytes (by decide) rec hrec⟩

/-- `Outer.Inner()`. -/
def sentInner (inner : ClassId) : PyVal := .inst inner [(unknownSlot, .bytes [])]

/-- What the older version reads: `Outer(inner=Outer.Inner())`, the rest kept as bytes. -/
def olderValue (outer inner : ClassId) : PyVal :=
  .inst outer [("inner", sentInner inner), (unknownSlot, .bytes [0x10, 7, 0x48, 5])]

/-- What the newer version reads: `Outer(inner=Outer.Inner(), size=7)`, one field kept as bytes. -/
def newerValue (outer inner : ClassId) : PyVal :=
  .inst outer [("inner", sentInner inner), ("size", .int 7), (unknownSlot, .bytes [0x48, 5])]

section PackageWorld

variable {w : World} {dom : ClassId → DescId → Prop} {outer inner : ClassId}
  {fields : List FieldDescriptor}

/-- The value of the field `inner`, sent empty. -/
theorem PackageWorld.value_inner (h : PackageWorld w dom outer inner fields) (levels : Nat) :
    valueOfPayload w (decodeMessage w (levels + 1)) innerField.kind
      ((w.descriptor outer).ref innerField.number) (.len []) = .ok (sentInner inner) := by
  -- a message without records
  have hdecode := @decodeMessage_records w dom h.family inner inner h.innerDom levels []
    (fun _ hrec => absurd hrec List.not_mem_nil) _ rfl
  rw [instanceOf, filledValues, h.innerInner] at hdecode
  obtain ⟨linked, href, hcls, hdesc⟩ := h.ref
  rw [href]
  show decodeMessageValue _ (some linked) [] = _
  unfold decodeMessageValue
  dsimp only
  rw [hdesc, hcls]
  exact hdecode

/-- The older version keeps the added field among the unknown bytes. -/
theorem PackageWorld.decode_older (h : PackageWorld w dom outer inner [innerField]) :
    decode w outer outer (recordsBytes sentRecords) = .ok (olderValue outer inner) := by
  have hinner := h.outerInner
  -- the added field and field 9 are kept, in the order of the input
  have hfold : (sentRecords.map Record.segment).foldlM
      (segmentStep w (decodeMessage w maxDepth) (w.descriptor outer))
      (DecodeState.init (w.descriptor outer).inner.fields)
      = .ok ⟨[some (sentInner inner)], [0x10, 7, 0x48, 5], []⟩ := by
    rw [sentRecords, List.map_cons, List.map_cons, List.map_cons, List.map_nil, List.foldlM_cons,
      segmentStep_keep (by rw [hinner]; decide), ok_bind, List.foldlM_cons,
      segmentStep_singular (by rw [hinner]; rfl) rfl (by decide) (h.value_inner 99), ok_bind,
      List.foldlM_cons, segmentStep_keep (by rw [hinner]; decide), ok_bind, hinner]
    rfl
  have hdecode := decodeMessage_records h.family h.outerDom readable_sentRecords hfold
  rw [instanceOf, filledValues, hinner] at hdecode
  exact hdecode

/-- The newer version reads it. -/
theorem PackageWorld.decode_newer (h : PackageWorld w dom outer inner [innerField, sizeField]) :
    decode w outer outer (recordsBytes sentRecords) = .ok (newerValue outer inner) := by
  have hinner := h.outerInner
  have hsize : valueOfPayload w (decodeMessage w maxDepth) sizeField.kind
      ((w.descriptor outer).ref sizeField.number) (.varint 7) = .ok (.int 7) := rfl
  -- only field 9 is kept
  have hfold : (sentRecords.map Record.segment).foldlM
      (segmentStep w (decodeMessage w maxDepth) (w.descriptor outer))
      (DecodeState.init (w.descriptor outer).inner.fields)
      = .ok ⟨[some (sentInner inner), some (.int 7)], [0x48, 5], []⟩ := by
    rw [sentRecords, List.map_cons, List.map_cons, List.map_cons, List.map_nil, List.foldlM_cons,
      segmentStep_singular (by rw [hinner]; rfl) rfl (by decide) hsize, ok_bind, List.foldlM_cons,
      segmentStep_singular (by rw [hinner]; rfl) rfl (by decide) (h.value_inner 99), ok_bind,
      List.foldlM_cons, segmentStep_keep (by rw [hinner]; decide), ok_bind, hinner]
    rfl
  have hdecode := decodeMessage_records h.family h.outerDom readable_sentRecords hfold
  rw [instanceOf, filledValues, hinner] at hdecode
  exact hdecode

/-- The unknown bytes of an instance are in its hidden slot. -/
theorem PackageWorld.unknownOf_inst (h : PackageWorld w dom outer inner fields) {cls : ClassId}
    (hdom : dom cls cls) {attrs : Attrs} {unknown : Bytes}
    (hattrs : attrs.lookup unknownSlot = some (.bytes unknown)) :
    unknownOf w.runtime (.inst cls attrs) = .ok unknown := by
  rw [unknownOf, getattr_inst (h.family.generated cls cls hdom) hattrs]
  rfl

/-- **The older version passes the added field on**, behind the fields it knows. -/
theorem PackageWorld.encode_older (h : PackageWorld w dom outer inner [innerField]) :
    encode w.runtime outer (olderValue outer inner) = .ok [0x0a, 0, 0x10, 7, 0x48, 5] := by
  obtain ⟨linked, href, rfl, hdesc⟩ := h.ref
  -- `Inner` has neither fields nor unknown bytes
  have hnested : messageRecords w.runtime maxDepth (sentInner linked.cls) linked.cls
      = .ok ([], []) := by
    rw [maxDepth, messageRecords_succ, World.runtime_descriptor, h.innerInner, sentInner,
      h.unknownOf_inst h.innerDom rfl]
    rfl
  have hpayload : valuePayload w.runtime (plainPayload w.runtime maxDepth) innerField.kind
      (sentInner linked.cls) ((w.descriptor outer).ref innerField.number) = .ok (.len []) := by
    have hdescriptor : nestedDescriptor w.runtime (sentInner linked.cls) (some linked)
        = .ok linked.cls := by
      unfold nestedDescriptor sentInner
      simp only [World.runtime, PyVal.shape, Option.bind_some, if_true, hdesc]
    have hkind : innerField.kind = .message := rfl
    rw [href, hkind, valuePayload, plainPayload, hdescriptor, ok_bind, hnested]
    rfl
  have hget : w.runtime.getattr (olderValue outer linked.cls) innerField.name
      = .ok (sentInner linked.cls) := getattr_inst (h.family.generated _ _ h.outerDom) rfl
  have hfield := @fieldRecords_some _ w.runtime (plainPayload w.runtime maxDepth)
    (w.descriptor outer) (olderValue outer linked.cls) _ [] innerField hget rfl rfl rfl
  -- the record of `inner`, and behind it what was kept
  have hrecs : messageRecords w.runtime (maxDepth + 1) (olderValue outer linked.cls) outer
      = .ok ([⟨1, .len []⟩], [0x10, 7, 0x48, 5]) := by
    have hunknown : unknownOf w.runtime (olderValue outer linked.cls) = .ok [0x10, 7, 0x48, 5] :=
      h.unknownOf_inst h.outerDom rfl
    rw [messageRecords_succ, World.runtime_descriptor, h.outerInner, fieldsRecords]
    simp only [List.foldlM_cons, List.length_nil, List.replicate_zero]
    rw [hfield, hpayload, hunknown]
    rfl
  exact encodeMessage_eq_ok.mpr ⟨_, _, hrecs, by decide⟩

end PackageWorld

/-- **The later version extends the package**: it keeps `inner`, and no field stands in a oneof. -/
theorem evolvesInto_later : packageModule.EvolvesInto (packageModuleWith laterFields) := by
  have hmessages : ∀ {fields : List FieldDescriptorProto} {p : String × DescriptorProto},
      p ∈ (packageModuleWith fields).loadedMessages →
        p = (".pkg.Outer", outerWith fields) ∨ p = (".pkg.Outer.Inner", innerMessage) := by
    intro fields p hp
    obtain ⟨file, hfile, hp⟩ := List.mem_flatMap.mp hp
    rw [List.mem_singleton.mp hfile, allMessages_packageWith] at hp
    exact List.mem_pair.mp hp
  have holder : outerMessage.compiled = ⟨"Outer", [innerField], []⟩ := by decide
  have hempty : innerMessage.compiled = ⟨"Inner", [], []⟩ := by decide
  have hdiffer : ".pkg.Outer.Inner" ≠ ".pkg.Outer" := by decide
  -- the conditions on oneofs hold vacuously, those on kept fields do not
  have hnone : ∀ f ∈ [innerField, sizeField], f.group = none := by decide
  constructor
  · intro p hp q hq hname
    rcases @hmessages outerMessage.field p hp with rfl | rfl <;>
      rcases hmessages hq with rfl | rfl
    · show outerMessage.compiled.ExtendedBy (outerWith laterFields).compiled
      rw [holder, compiled_later]
      have hshares : ∀ f ∈ [innerField, sizeField], ∀ g, ¬ f.SharesOneof g := by
        rintro f hf g ⟨group, hgroup, -⟩
        rw [hnone f hf] at hgroup
        cases hgroup
      exact {
        field := by decide
        group := fun f hf _ _ g hg _ _ _ _ _ => iff_of_false
          (hshares f (List.mem_cons.mpr (.inl (List.mem_singleton.mp hf))) _) (hshares g hg _)
        whole := fun _ _ g hg _ _ _ h => absurd h (hshares g hg _) }
    · exact absurd hname hdiffer
    · exact absurd hname hdiffer.symm
    · show innerMessage.compiled.ExtendedBy innerMessage.compiled
      rw [hempty]
      exact ⟨fun f hf => absurd hf List.not_mem_nil, fun f hf => absurd hf List.not_mem_nil,
        fun f hf => absurd hf List.not_mem_nil⟩
  · intro p hp q hq hname f hf g hg hkept hrefers
    rcases @hmessages outerMessage.field p hp with rfl | rfl <;>
      rcases hmessages hq with rfl | rfl
    · replace hf : f ∈ outerMessage.compiled.fields := hf
      rw [holder, List.mem_singleton] at hf
      rw [compiled_later] at hg
      subst hf
      -- the kept field refers to `.pkg.Outer.Inner` in both versions
      rcases List.mem_pair.mp hg with rfl | rfl
      · rfl
      · cases hkept.number
    · exact absurd hname hdiffer
    · exact absurd hname hdiffer.symm
    · rw [hempty] at hf
      cases hf

/-- **The two versions of the package**: the newer one reads the added field, the older one passes it
on, and the newer one reads it again from what the older one made. -/
theorem evolution_generated_package : ∃ (ids : ObjectIds packageModule)
    (ids' : ObjectIds (packageModuleWith laterFields)),
    let older := olderValue (packageModule.idOf ".pkg.Outer") (packageModule.idOf ".pkg.Outer.Inner")
    let newer := newerValue ((packageModuleWith laterFields).idOf ".pkg.Outer")
      ((packageModuleWith laterFields).idOf ".pkg.Outer.Inner")
    (packageModuleWith laterFields).Returns cpython ids' ".pkg.Outer"
      (.fromBytes [0x10, 7, 0x0a, 0, 0x48, 5]) (.decoded (.ok newer)) ∧
    packageModule.Returns cpython ids ".pkg.Outer"
      (.fromBytes [0x10, 7, 0x0a, 0, 0x48, 5]) (.decoded (.ok older)) ∧
    SeenAs (packageModule.linkedWorld cpython ids)
      ((packageModuleWith laterFields).linkedWorld cpython ids')
      (SameMessage packageModule (packageModuleWith laterFields)) .message older newer ∧
    packageModule.Returns cpython ids ".pkg.Outer" (.toBytes older)
      (.encoded (.ok [0x0a, 0, 0x10, 7, 0x48, 5])) ∧
    (packageModuleWith laterFields).Returns cpython ids' ".pkg.Outer"
      (.fromBytes [0x0a, 0, 0x10, 7, 0x48, 5]) (.decoded (.ok newer)) := by
  obtain ⟨hvalid, hnumbers, hloaded, hsound⟩ := package_valid version_package
  obtain ⟨hvalid', hnumbers', hloaded', hsound'⟩ := package_valid version_later
  obtain ⟨ids⟩ := nonempty_objectIds packageModule
  obtain ⟨ids'⟩ := nonempty_objectIds (packageModuleWith laterFields)
  refine ⟨ids, ids', ?_⟩
  intro older newer
  have hworld := packageWorld version_package (by decide) (List.mem_singleton_self _) ids
  have hworld' := packageWorld version_later compiled_later List.mem_cons_self ids'
  -- each version is a module set of its own, with its own identities
  have hold := fun {op outcome} => @returns_iff packageModule cpython ids packageFile
    (".pkg.Outer", outerMessage) hvalid hnumbers hloaded hsound List.mem_cons_self outer_mem op outcome
  have hnew := fun {op outcome} => @returns_iff (packageModuleWith laterFields) cpython ids'
    (packageWith laterFields) (".pkg.Outer", outerWith laterFields) hvalid' hnumbers' hloaded' hsound'
    List.mem_cons_self outer_mem op outcome
  have hdata : recordsBytes sentRecords = [0x10, 7, 0x0a, 0, 0x48, 5] := by decide
  have hread := hworld'.decode_newer
  have hreadOld := hworld.decode_older
  have hpass := hworld.encode_older
  rw [hdata] at hread hreadOld
  have hreturns : (packageModuleWith laterFields).Returns cpython ids' ".pkg.Outer"
      (.fromBytes [0x10, 7, 0x0a, 0, 0x48, 5]) (.decoded (.ok newer)) :=
    hnew.mpr (congrArg Outcome.decoded hread)
  have hencoded : packageModule.Returns cpython ids ".pkg.Outer" (.toBytes older)
      (.encoded (.ok [0x0a, 0, 0x10, 7, 0x48, 5])) := hold.mpr (congrArg Outcome.encoded hpass)
  -- what the older version reads is determined, so it is the value computed above
  obtain ⟨m, hm, hseen, hback⟩ := @evolution_generated packageModule (packageModuleWith laterFields)
    cpython cpython ids ids' hvalid hnumbers hloaded hsound hvalid' hnumbers' hloaded' hsound'
    evolvesInto_later _ _ _ _ List.mem_cons_self outer_mem List.mem_cons_self outer_mem rfl _ _ hreturns
  obtain rfl : m = older := by
    have hdecode := Outcome.decoded.inj (hold.mp hm)
    exact Except.ok.inj (hdecode.symm.trans hreadOld)
  exact ⟨hreturns, hm, hseen, hencoded, hback _ hencoded (by decide)⟩

end ModuleSet

end FastProto
