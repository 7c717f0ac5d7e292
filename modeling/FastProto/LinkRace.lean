import FastProto.LinkSafety
import FastProto.MessageRoundTrip

/-! # The race of two first uses

Between linking a class and linking the classes it refers to, a second thread finds the flag set and
decodes. A payload that nests one value of the referred class shows the difference: its message
fields raise, its enum fields decode to bare integers. -/

namespace FastProto

open Lib Lib.Cursor

/-! ## Decoding one value -/

/-- The kind of the values in a field: the one of the value slot for a map. -/
def FieldKind.leaf : FieldKind → FieldKind
  | .map _ value => value.kind
  | kind => kind

/-- The payload of a field that carries one value: for a map, an entry without a key. -/
def FieldKind.probe (kind : FieldKind) (value : Payload) : Payload :=
  match kind with
  | .map _ _ => .len (Record.bytes ⟨2, value⟩)
  | _ => value

/-- What a field holds once one value was decoded into it. -/
def FieldDescriptor.holding (field : FieldDescriptor) (value : PyVal) : PyVal :=
  match field.kind with
  | .map key _ => .dict [(scalarDefault key, value)]
  | _ => if field.label = .repeated then .list [value] else value

/-- What a field holds tells the value. -/
theorem FieldDescriptor.holding_inj {field : FieldDescriptor} {a b : PyVal}
    (h : field.holding a = field.holding b) : a = b := by
  unfold holding at h
  split at h
  · simpa using h
  · split at h
    · simpa using h
    · exact h

/-- A varint takes at most ten bytes. -/
theorem length_varintBytes_le (value : UInt64) : (varintBytes value).length ≤ 10 := by
  rw [length_varintBytes, varintLen]
  have hlog : (value ||| 1).toNat.log2 < 64 := by
    have hne : (value ||| 1).toNat ≠ 0 := by
      rw [UInt64.toNat_or]
      exact fun h => absurd (Nat.or_eq_zero_iff.mp h).2 (by decide)
    exact (Nat.log2_lt hne).mpr (value ||| 1).toNat_lt
  omega

/-- A record is little longer than its payload. -/
theorem Record.length_bytes_le (rec : Record) : rec.bytes.length ≤ rec.payload.bytes.length + 10 := by
  have := length_varintBytes_le ((rec.number.toUInt64 <<< 3) ||| rec.payload.wire.toU64)
  rw [Record.bytes, List.length_append, tagBytes]
  omega

/-- A chunk is little longer than its content. -/
theorem Payload.length_len_le (data : Bytes) : (Payload.len data).bytes.length ≤ data.length + 10 := by
  have := length_varintBytes_le (UInt64.ofNat data.length)
  rw [Payload.bytes, lenBytes, List.length_append]
  omega

/-- The payload of a field is little longer than the one of its value. -/
theorem FieldKind.length_probe_le (kind : FieldKind) (value : Payload) :
    (kind.probe value).bytes.length ≤ value.bytes.length + 20 := by
  unfold probe
  split
  · have hlen := Payload.length_len_le (Record.bytes ⟨2, value⟩)
    have hrec := Record.length_bytes_le ⟨2, value⟩
    dsimp only at hrec
    omega
  · omega

/-- A payload of moderate length fits its length prefix. -/
theorem Payload.fits_of_length {payload : Payload} (h : payload.bytes.length < 2 ^ 64) :
    payload.Fits := by
  cases payload with
  | len data =>
      rw [Payload.bytes, lenBytes, List.length_append] at h
      show data.length < 2 ^ 64
      omega
  | _ => trivial

section Step

variable (w : World) (nested : NestedDecoder)

/-- A value that is read off a payload of its own: not packed. -/
structure FieldKind.Reads (kind : FieldKind) (value : Payload) : Prop where
  wire : value.wire = kind.leaf.expectedWire
  plain : kind.leaf.isPacked = true → value.wire ≠ .len

variable {w nested}

/-- An entry without a key decodes to the default key and its value. -/
theorem decodeMapEntry_probe {key : ScalarType} {valueKind : MapValue} {linked : Option LinkedRef}
    {value : Payload} (hwire : value.wire = valueKind.kind.expectedWire)
    (hlen : value.bytes.length < 2 ^ 64) {kv : PyVal × PyVal} :
    decodeMapEntry w nested key valueKind linked (Record.bytes ⟨2, value⟩) = .ok kv ↔
      ∃ x, valueOfPayload w nested valueKind.kind linked value = .ok x ∧
        kv = (scalarDefault key, x) := by
  have hreadable : Record.Readable ⟨2, value⟩ :=
    ⟨(by decide : ValidNumber 2), Payload.fits_of_length hlen⟩
  have hsplit : Split Reader.readRecord (Record.bytes ⟨2, value⟩) [⟨2, value⟩] :=
    Split.single (Record.bytes_ne_nil hreadable) (Reader.reads_record hreadable.1 hreadable.2)
  have hstep : mapEntryStep w nested key valueKind linked (none, none) ⟨2, value⟩
      = valueOfPayload w nested valueKind.kind linked value >>= fun v => .ok (none, some v) := by
    unfold mapEntryStep
    rw [if_neg (fun h => absurd (h.1 : (2 : UInt32) = 1) (by decide)), if_pos ⟨rfl, hwire⟩]
  rw [decodeMapEntry_eq_ok]
  constructor
  · rintro ⟨recs, entry, hrecs, hfold, hfinish⟩
    obtain rfl := hrecs.unique hsplit
    rw [List.foldlM_cons, hstep, bind_eq_ok] at hfold
    obtain ⟨entry', hentry', hfold⟩ := hfold
    obtain ⟨x, hx, hentry'⟩ := bind_eq_ok.mp hentry'
    cases hentry'
    cases hfold
    cases hfinish
    exact ⟨x, hx, rfl⟩
  · rintro ⟨x, hx, rfl⟩
    refine ⟨_, (none, some x), hsplit, ?_, rfl⟩
    rw [List.foldlM_cons, hstep, hx]
    rfl

/-- **The step on the payload of one value**, in the state before the first tag. -/
theorem fieldStep_probe {desc : Descriptor} {idx : Nat} {field : FieldDescriptor}
    (hfield : desc.inner.fields[idx]? = some field) {value : Payload}
    (hreads : field.kind.Reads value) (hlen : value.bytes.length < 2 ^ 64) {st : DecodeState} :
    fieldStep w nested desc (.init desc.inner.fields) idx field (field.kind.probe value) = .ok st ↔
      ∃ x, valueOfPayload w nested field.kind.leaf (desc.ref field.number) value = .ok x ∧
        st = ((DecodeState.init desc.inner.fields).claimOneof field idx).store idx
          (field.holding x) := by
  have hready := DecodeState.ready_init desc.inner.fields
  have hkeep : ((DecodeState.init desc.inner.fields).claimOneof field idx).values[idx]?
      = (DecodeState.init desc.inner.fields).values[idx]? :=
    DecodeState.claimOneof_getElem? nofun
  have hslot : (DecodeState.init desc.inner.fields).values[idx]? = some (accumulator field) := by
    rw [DecodeState.init, List.getElem?_map, hfield]
    rfl
  rw [hslot] at hkeep
  cases hk : field.kind with
  | map key valueKind =>
      rw [hk] at hreads
      have hitems : accumulator field = some (.dict []) := by simp only [accumulator, hk]
      rw [hitems] at hkeep
      rw [FieldKind.probe, fieldStep_map w nested hk _ hkeep, bind_eq_ok]
      simp only [decodeMapEntry_probe hreads.wire hlen]
      constructor
      · rintro ⟨kv, ⟨x, hx, rfl⟩, hst⟩
        cases hst
        exact ⟨x, hx, by simp only [FieldDescriptor.holding, hk]; rfl⟩
      · rintro ⟨x, hx, rfl⟩
        refine ⟨_, ⟨x, hx, rfl⟩, ?_⟩
        simp only [FieldDescriptor.holding, hk]
        rfl
  | _ =>
      -- no map: the payload is the one of the value
      have hnot : field.kind.isMap = false := by rw [hk]; rfl
      have hleaf : field.kind.leaf = field.kind := by rw [hk]; rfl
      rw [show FieldKind.probe _ value = value from rfl, ← hk, hleaf]
      by_cases hlabel : field.label = .repeated
      · have hitems : accumulator field = some (.list []) := by
          simp only [accumulator, hk, hlabel, if_true]
        have hhold : ∀ x, field.holding x = .list [x] := by
          intro x
          simp only [FieldDescriptor.holding, hk, hlabel, if_true]
        have hone : repeatedOfPayload w nested field.kind (desc.ref field.number) value []
            = packedStep w nested field.kind (desc.ref field.number) [] value := by
          unfold repeatedOfPayload
          split
          · rw [if_neg]
            intro hpacked
            exact hreads.plain (by rw [hleaf]; exact hpacked) rfl
          · rfl
        rw [hitems] at hkeep
        rw [fieldStep_repeated w nested hnot hlabel value hkeep, hone, packedStep]
        simp only [bind_eq_ok, hhold]
        constructor
        · rintro ⟨items, ⟨x, hx, hitems⟩, hst⟩
          cases hitems
          cases hst
          exact ⟨x, hx, rfl⟩
        · rintro ⟨x, hx, rfl⟩
          exact ⟨[x], ⟨x, hx, rfl⟩, rfl⟩
      · have hhold : ∀ x, field.holding x = x := by
          intro x
          simp only [FieldDescriptor.holding, hk, if_neg hlabel]
        rw [fieldStep_singular w nested hnot hlabel, bind_eq_ok]
        simp only [hhold]
        constructor
        · rintro ⟨x, hx, hst⟩
          cases hst
          exact ⟨x, hx, rfl⟩
        · rintro ⟨x, hx, rfl⟩
          exact ⟨x, hx, rfl⟩

/-- The field takes the payload of one value. -/
theorem FieldDescriptor.accepts_probe {field : FieldDescriptor} {oneofs : Nat}
    (hshape : field.Shaped oneofs) {value : Payload} (hreads : field.kind.Reads value) :
    field.accepts (field.kind.probe value).wire = true := by
  cases hk : field.kind with
  | map key valueKind =>
      rw [accepts, (hshape.map_single key valueKind hk).1, if_neg (by decide), hk]
      rfl
  | _ =>
      rw [hk] at hreads
      rw [accepts, hk, FieldKind.takesRepeated]
      simp only [FieldKind.probe, hreads.wire, FieldKind.leaf, decide_true, Bool.or_true, ite_self]

/-- **A message of one record** decodes iff the value in it does. -/
theorem decodeMessage_probe (levels : Nat) (cls : ClassId) {descId : DescId}
    (hwf : (w.descriptor descId).inner.WellFormed)
    (hnumbers : ((w.descriptor descId).inner.fields.map (·.number)).Nodup) {idx : Nat}
    {field : FieldDescriptor} (hfield : (w.descriptor descId).inner.fields[idx]? = some field)
    (hvalid : ValidNumber field.number) {value : Payload} (hreads : field.kind.Reads value)
    (hlen : value.bytes.length + 20 < 2 ^ 64) {v : PyVal} :
    decodeMessage w (levels + 1) cls descId (Record.bytes ⟨field.number, field.kind.probe value⟩)
        = .ok v ↔
      ∃ x, valueOfPayload w (decodeMessage w levels) field.kind.leaf
          ((w.descriptor descId).ref field.number) value = .ok x ∧
        construct w cls (w.descriptor descId)
          (((w.descriptor descId).inner.fields.map accumulator).set idx (some (field.holding x))) []
          = .ok v := by
  have hprobe := field.kind.length_probe_le value
  have hreadable : Record.Readable ⟨field.number, field.kind.probe value⟩ :=
    ⟨hvalid, Payload.fits_of_length (by dsimp only; omega)⟩
  have hsplit : Split Reader.readSegment (Record.bytes ⟨field.number, field.kind.probe value⟩)
      [Record.segment ⟨field.number, field.kind.probe value⟩] :=
    Split.single (Record.bytes_ne_nil hreadable) (Reader.reads_segment hreadable.1 hreadable.2)
  have hstep : segmentStep w (decodeMessage w levels) (w.descriptor descId)
      (.init (w.descriptor descId).inner.fields)
      (Record.segment ⟨field.number, field.kind.probe value⟩)
      = fieldStep w (decodeMessage w levels) (w.descriptor descId)
          (.init (w.descriptor descId).inner.fields) idx field (field.kind.probe value) :=
    segmentStep_record (recognizes_of_nodup hnumbers hfield) (FieldDescriptor.accepts_probe
      (hwf.shaped field (List.mem_of_getElem? hfield)) hreads) _
  -- no group has an owner yet: claiming one clears no slot
  have hclaim : ((DecodeState.init (w.descriptor descId).inner.fields).claimOneof field idx).values
      = (w.descriptor descId).inner.fields.map accumulator := by
    unfold DecodeState.claimOneof
    split <;> rfl
  rw [decodeMessage_eq_ok hwf]
  constructor
  · rintro ⟨segs, st, hsegs, hfold, hfinish⟩
    obtain rfl := hsegs.unique hsplit
    rw [List.foldlM_cons, hstep, bind_eq_ok] at hfold
    obtain ⟨st', hst', hfold⟩ := hfold
    cases hfold
    obtain ⟨x, hx, rfl⟩ := (fieldStep_probe hfield hreads (by omega)).mp hst'
    rw [DecodeState.store_values, hclaim, DecodeState.store_unknown,
      DecodeState.claimOneof_unknown] at hfinish
    exact ⟨x, hx, hfinish⟩
  · rintro ⟨x, hx, hfinish⟩
    refine ⟨_, ((DecodeState.init (w.descriptor descId).inner.fields).claimOneof field idx).store idx
      (field.holding x), hsplit, ?_, ?_⟩
    · rw [List.foldlM_cons, hstep, (fieldStep_probe hfield hreads (by omega)).mpr ⟨x, hx, rfl⟩]
      rfl
    · rw [DecodeState.store_values, hclaim, DecodeState.store_unknown,
        DecodeState.claimOneof_unknown]
      exact hfinish

end Step

/-! ## Instances that hold one value -/

/-- The instance decoded from a message with one record. -/
def instanceHolding (cls : ClassId) (desc : Descriptor) (idx : Nat) (held : PyVal) : PyVal :=
  instanceOf cls desc
    (filledValues desc ((desc.inner.fields.map accumulator).set idx (some held))) []

/-- The instance tells the value it holds. -/
theorem instanceHolding_inj {cls : ClassId} {desc : Descriptor} {idx : Nat}
    {field : FieldDescriptor} (hfield : desc.inner.fields[idx]? = some field) {a b : PyVal}
    (h : instanceHolding cls desc idx a = instanceHolding cls desc idx b) : a = b := by
  have hlt := (List.getElem?_eq_some_iff.mp hfield).1
  have hlen : ∀ held : PyVal, ((desc.inner.fields.map accumulator).set idx (some held)).length
      = desc.inner.fields.length := by
    intro held
    rw [List.length_set, List.length_map]
  have hslot : ∀ held, (filledValues desc ((desc.inner.fields.map accumulator).set idx
      (some held)))[idx]? = some held := by
    intro held
    have hset : ((desc.inner.fields.map accumulator).set idx (some held))[idx]? = some (some held) :=
      List.getElem?_set_self (by rw [List.length_map]; exact hlt)
    exact filledValues_getElem? hfield hset
  unfold instanceHolding instanceOf at h
  obtain ⟨-, hattrs⟩ := PyVal.inst.inj h
  have hzip := List.append_cancel_right hattrs
  have hvalues := congrArg (List.map Prod.snd) hzip
  rw [List.map_snd_zip (by rw [List.length_map, length_filledValues (hlen a)]),
    List.map_snd_zip (by rw [List.length_map, length_filledValues (hlen b)])] at hvalues
  have hsame := (hslot a).symm.trans ((congrArg (·[idx]?) hvalues).trans (hslot b))
  exact Option.some.inj hsame

section Graph

variable {p : Program} {w : World} {dom : ClassId → DescId → Prop}

/-- **A class of the graph decodes one record** to the instance that holds its value, linked or not:
the link state decides about the value alone. -/
theorem LinkGraph.decode_probe (h : LinkGraph p w dom) {descs : Descriptors}
    (hin : Intact p dom w.Done descs) {c : ClassId} {d : DescId} (hdom : dom c d) {idx : Nat}
    {field : FieldDescriptor} (hfield : (w.descriptor d).inner.fields[idx]? = some field)
    {value : Payload} (hreads : field.kind.Reads value) (hlen : value.bytes.length + 20 < 2 ^ 64)
    (levels : Nat) {v : PyVal} :
    decodeMessage (p.world descs) (levels + 1) c d
        (Record.bytes ⟨field.number, field.kind.probe value⟩) = .ok v ↔
      ∃ x, valueOfPayload (p.world descs) (decodeMessage (p.world descs) levels) field.kind.leaf
          ((descs d).ref field.number) value = .ok x ∧
        v = instanceHolding c (w.descriptor d) idx (field.holding x) := by
  have hgen := h.family.generated c d hdom
  have hinner : (descs d).inner = (w.descriptor d).inner := by
    rcases hin c d hdom with hdesc | hdesc
    · rw [hdesc, h.inner hdom]
      rfl
    · rw [hdesc]
  have hready := DecodeState.ready_init (w.descriptor d).inner.fields
  -- the field read is set, the others have their accumulators
  have hvalues : ∀ x, List.Forall₂ (fun (field : FieldDescriptor) (v : Option PyVal) =>
      field.isCollection = true → v.isSome = true) (w.descriptor d).inner.fields
      (((w.descriptor d).inner.fields.map accumulator).set idx (some (field.holding x))) := by
    intro x
    have hstored : ((DecodeState.init (w.descriptor d).inner.fields).store idx
        (field.holding x)).Ready (w.descriptor d).inner.fields := hready.store hfield ?_ ?_
    · exact hstored.collections
    · intro hmap
      obtain ⟨key, value, hk⟩ := FieldKind.isMap_iff.mp hmap
      exact ⟨[(scalarDefault key, x)], by simp only [FieldDescriptor.holding, hk]⟩
    · intro hmap hlabel
      refine ⟨[x], ?_⟩
      unfold FieldDescriptor.holding
      split
      · rename_i hk
        rw [hk] at hmap
        cases hmap
      · rw [if_pos hlabel]
  -- the instance is built alike whether the descriptor is linked or not
  have hconstruct : ∀ x, FastProto.construct (p.world descs) c (descs d)
      (((w.descriptor d).inner.fields.map accumulator).set idx (some (field.holding x))) []
      = .ok (instanceHolding c (w.descriptor d) idx (field.holding x)) := fun x => by
    rw [h.construct hin hdom (hvalues x), construct_generated h.family hdom (hvalues x)]
    rfl
  have hwf : ((p.world descs).descriptor d).inner.WellFormed := hinner ▸ hgen.wellFormed
  have hnumbers : (((p.world descs).descriptor d).inner.fields.map (·.number)).Nodup :=
    hinner ▸ hgen.numbers
  have hfield' : ((p.world descs).descriptor d).inner.fields[idx]? = some field := hinner ▸ hfield
  rw [decodeMessage_probe levels c hwf hnumbers hfield'
    (hgen.valid field (List.mem_of_getElem? hfield)) hreads hlen]
  refine exists_congr fun x => and_congr_right fun _ => ?_
  show FastProto.construct (p.world descs) c (descs d)
    (((descs d).inner.fields.map accumulator).set idx _) [] = _ ↔ _
  rw [hinner, hconstruct x, Except.ok.injEq]
  exact eq_comm

/-! ## The difference -/

/-- The payload of a value that shows whether its field is linked: an empty message, or the zero of an
enum. -/
def FieldKind.sample (kind : FieldKind) : Payload :=
  match kind.leaf with
  | .enum => .varint 0
  | _ => .len []

/-- The kinds of the values of fields that need a reference. -/
theorem FieldKind.leaf_of_needsRef {kind : FieldKind} (h : kind.needsRef = true) :
    kind.leaf = .message ∧ kind.refersToMessage = true ∨
      kind.leaf = .enum ∧ kind.refersToEnum = true := by
  cases kind with
  | enum => exact .inr ⟨rfl, rfl⟩
  | message => exact .inl ⟨rfl, rfl⟩
  | map key value => cases value with
    | enum => exact .inr ⟨rfl, rfl⟩
    | message => exact .inl ⟨rfl, rfl⟩
    | _ => cases h
  | _ => cases h

/-- The linked program is a program with every descriptor linked. -/
theorem LinkGraph.world_eq (h : LinkGraph p w dom) : p.world w.descriptor = w := by
  unfold Program.world
  rw [← h.classes]

/-- An empty message decodes to the instance with all fields absent. -/
theorem LinkGraph.decode_nil (h : LinkGraph p w dom) {c : ClassId} {d : DescId} (hdom : dom c d)
    (levels : Nat) : ∃ x, decodeMessage w (levels + 1) c d [] = .ok x := by
  have hwf := (h.family.generated c d hdom).wellFormed
  have hbuild := construct_generated h.family hdom
    (DecodeState.ready_init (w.descriptor d).inner.fields).collections []
  exact ⟨_, (decodeMessage_eq_ok hwf).mpr ⟨[], .init _, .nil, rfl, hbuild⟩⟩

/-- **A reference that is not linked shows**: the sample decodes to a value, to which it does not
decode without the reference. -/
theorem LinkGraph.sample_differs (h : LinkGraph p w dom) {c : ClassId} {d : DescId}
    (hdom : dom c d) {field : FieldDescriptor} (hfield : field ∈ (w.descriptor d).inner.fields)
    (hneeds : field.kind.needsRef = true) (levels : Nat) :
    ∃ x, valueOfPayload w (decodeMessage w (levels + 1)) field.kind.leaf
        ((w.descriptor d).ref field.number) field.kind.sample = .ok x ∧
      ∀ u nested, valueOfPayload u nested field.kind.leaf none field.kind.sample ≠ .ok x := by
  unfold FieldKind.sample
  rcases FieldKind.leaf_of_needsRef hneeds with ⟨hleaf, hrefers⟩ | ⟨hleaf, hrefers⟩
  · obtain ⟨c', d', href, hproto, hdom'⟩ := h.family.messages c d hdom field hfield hrefers
    obtain ⟨x, hx⟩ := h.decode_nil hdom' levels
    refine ⟨x, ?_, ?_⟩
    · simp only [hleaf, valueOfPayload, decodeMessageValue, href, buildLinkedRef_desc, hproto,
        buildLinkedRef_cls, hx]
    · intro u nested
      simp only [hleaf, valueOfPayload, decodeMessageValue]
      simp
  · obtain ⟨c', enum, href, hproto, henum, hmissing, hzero⟩ :=
      h.family.enums c d hdom field hfield hrefers
    refine ⟨.member c' 0, ?_, ?_⟩
    · simp only [hleaf, valueOfPayload, decodeEnum, href]
      rw [coerceEnum_linked hproto henum hmissing]
      exact congrArg _ (if_pos hzero)
    · intro u nested
      simp only [hleaf, valueOfPayload]
      simp [decodeEnum, coerceEnum]

/-- The sample is read off a payload of its own. -/
theorem FieldKind.reads_sample {kind : FieldKind} (h : kind.needsRef = true) :
    kind.Reads kind.sample := by
  unfold sample
  rcases leaf_of_needsRef h with ⟨hleaf, -⟩ | ⟨hleaf, -⟩
  · exact ⟨by simp only [hleaf]; rfl, by rw [hleaf]; nofun⟩
  · exact ⟨by simp only [hleaf]; rfl, by simp only [hleaf]; exact fun _ => nofun⟩

/-- A nested message is decoded one level down, by the class its field is linked to. -/
theorem valueOfPayload_message (u : World) (nested : NestedDecoder) {linked : LinkedRef} {d : DescId}
    (h : linked.desc = some d) (sub : Bytes) :
    valueOfPayload u nested .message (some linked) (.len sub) = nested linked.cls d sub := by
  simp only [valueOfPayload, decodeMessageValue, h]

/-- **Decoding while a referred class is not linked**: when a class is linked and another one that it
refers to is not, some bytes decode differently. -/
theorem LinkGraph.decode_differs (h : LinkGraph p w dom) {descs : Descriptors}
    (hin : Intact p dom w.Done descs) {c c' : ClassId} {d d' : DescId} (hdom : dom c d)
    (hlinked : descs d = w.descriptor d) (hrefers : Refers w d c' d')
    (hcompiled : descs d' = p.compiled d') (hrefs : (p.inner d').refFields ≠ []) (levels : Nat) :
    ∃ data, decodeMessage (p.world descs) (levels + 3) c d data
      ≠ decodeMessage w (levels + 3) c d data := by
  have hdom' := h.dom_of_refers hdom hrefers
  obtain ⟨field, hfield, hmessage, linked, href, rfl, hdesc⟩ := hrefers
  -- a field of the referred class with a reference of its own
  obtain ⟨⟨number, name⟩, hmem⟩ := List.exists_mem_of_ne_nil _ hrefs
  obtain ⟨inner, hinner, -, hneeds⟩ := mem_refFields hmem
  rw [← h.inner hdom'] at hinner
  obtain ⟨i, hi⟩ := List.mem_iff_getElem?.mp hfield
  obtain ⟨j, hj⟩ := List.mem_iff_getElem?.mp hinner
  obtain ⟨x, hx, hdiffers⟩ := h.sample_differs hdom' hinner hneeds levels
  have hwlen : inner.kind.sample.bytes.length + 20 < 2 ^ 64 := by
    unfold FieldKind.sample
    split <;> decide
  have hdecode := fun {descs : Descriptors} (hin : Intact p dom w.Done descs) (v : PyVal) =>
    h.decode_probe hin hdom' hj (FieldKind.reads_sample hneeds) hwlen (levels + 1) (v := v)
  generalize hbytes : Record.bytes ⟨inner.number, inner.kind.probe inner.kind.sample⟩ = bytes
    at hdecode
  -- the outer record carries a message of the referred class
  have hleaf : field.kind.leaf = .message := by
    cases hk : field.kind with
    | message => rfl
    | map key value => cases value with
      | message => rfl
      | _ => rw [hk] at hmessage; cases hmessage
    | _ => rw [hk] at hmessage; cases hmessage
  have hreads : field.kind.Reads (.len bytes) := ⟨by rw [hleaf]; rfl, by rw [hleaf]; nofun⟩
  have hlen : (Payload.len bytes).bytes.length + 20 < 2 ^ 64 := by
    have h₁ := Payload.length_len_le bytes
    have h₂ := Record.length_bytes_le ⟨inner.number, inner.kind.probe inner.kind.sample⟩
    have h₃ := inner.kind.length_probe_le inner.kind.sample
    have h₄ : inner.kind.sample.bytes.length ≤ 1 := by
      unfold FieldKind.sample
      split <;> decide
    rw [hbytes] at h₂
    dsimp only at h₂
    omega
  have houter := fun {descs : Descriptors} (hin : Intact p dom w.Done descs) (v : PyVal) =>
    h.decode_probe hin hdom hi hreads hlen (levels + 2) (v := v)
  have hfull : Intact p dom w.Done w.descriptor := fun _ _ _ => .inr rfl
  refine ⟨Record.bytes ⟨field.number, field.kind.probe (.len bytes)⟩, fun hsame => ?_⟩
  -- with every class linked the bytes decode
  have hnested := (hdecode hfull _).mpr ⟨x, by rw [h.world_eq]; exact hx, rfl⟩
  have hdone := (houter hfull _).mpr ⟨_, by
    rw [hleaf, href, valueOfPayload_message _ _ hdesc]
    exact hnested, rfl⟩
  rw [h.world_eq, ← hsame] at hdone
  -- without the link the nested bytes decode to something else
  obtain ⟨y, hy, hheld⟩ := (houter hin _).mp hdone
  have hval := FieldDescriptor.holding_inj (instanceHolding_inj hi hheld)
  rw [hleaf, hlinked, href, valueOfPayload_message _ _ hdesc, ← hval] at hy
  obtain ⟨z, hz, hheld'⟩ := (hdecode hin _).mp hy
  have hval' := FieldDescriptor.holding_inj (instanceHolding_inj hj hheld')
  rw [hcompiled, ← hval'] at hz
  exact hdiffers _ _ hz

/-- **Two threads race on a graph that is not flat**: the second one decodes right after the first one
linked its class. -/
theorem LinkGraph.not_safe (h : LinkGraph p w dom) {threads : Nat} (hthreads : 2 ≤ threads)
    (hflat : ¬ LinkGraph.Flat p w dom) : ¬ p.Safe w dom threads := by
  intro hsafe
  unfold LinkGraph.Flat at hflat
  push Not at hflat
  obtain ⟨c, d, hdom, c', d', hrefers, hne, hrefs⟩ := hflat
  have hproto := h.fastproto hdom
  have hd' : d' ≠ d := by
    rintro rfl
    exact hne (h.own _ _ _ (h.dom_of_refers hdom hrefers) hdom)
  obtain ⟨_, targets, hlink, rfl, hlen, hwithin, hgoes⟩ := h.linkable.linkOwn c d _ hdom (.inl rfl)
  have hin : Intact p dom w.Done (Function.update p.compiled d (w.descriptor d)) :=
    (Move.link hdom rfl hlen hwithin hgoes).intact intact_compiled
  obtain ⟨descs, hdescs⟩ : ∃ descs, descs = Function.update p.compiled d (w.descriptor d) := ⟨_, rfl⟩
  rw [← hdescs] at hin
  have hself : descs d = w.descriptor d := by rw [hdescs, Function.update_self]
  have hother : descs d' = p.compiled d' := by rw [hdescs, Function.update_of_ne hd']
  obtain ⟨data, hdiffers⟩ := h.decode_differs hin hdom hself hrefers hother hrefs 98
  -- the first thread stops once its class is linked
  have hcall : p.threadStep p.compiled (.call c (.fromBytes []))
      = some (p.compiled, .linking c (.fromBytes []) [.enter c]) := by
    simp [Program.threadStep, Program.compiled, hproto]
  have henter : p.threadStep p.compiled (.linking c (.fromBytes []) [.enter c])
      = some (p.compiled, .linking c (.fromBytes []) [.link c]) := by
    simp [Program.threadStep, Program.frameStep, Program.compiled, hproto]
  have hstore : p.threadStep p.compiled (.linking c (.fromBytes []) [.link c])
      = some (descs, .linking c (.fromBytes []) [.loop targets]) := by
    simp [Program.threadStep, Program.frameStep, hproto, hlink, hdescs]
  -- the second one is called on the bytes that show the difference
  have hread : p.threadStep descs (.call c (.fromBytes data))
      = some (descs, .ready c (.fromBytes data)) := by
    simp [Program.threadStep, hproto, hself, h.linked hdom]
  have hdecode : p.threadStep descs (.ready c (.fromBytes data))
      = some (descs, .done c (.fromBytes data) (p.run descs c d (.fromBytes data))) := by
    simp [Program.threadStep, hproto]
  have hlength : ((c, []) :: (c, data) :: List.replicate (threads - 2) (c, [])).length = threads := by
    rw [List.length_cons, List.length_cons, List.length_replicate]
    omega
  have hcalls : ∀ call ∈ (c, []) :: (c, data) :: List.replicate (threads - 2) (c, []),
      ∃ d, dom call.1 d := by
    intro call hmem
    have hcls : call.1 = c := by
      rcases List.mem_cons.mp hmem with rfl | hmem
      · rfl
      · rcases List.mem_cons.mp hmem with rfl | hmem
        · rfl
        · rw [(List.mem_replicate.mp hmem).2]
    rw [hcls]
    exact ⟨d, hdom⟩
  have hrun : Threads.Run p.threadStep
      (p.compiled, firstUses ((c, []) :: (c, data) :: List.replicate (threads - 2) (c, [])))
      (descs, .linking c (.fromBytes []) [.loop targets] ::
        .done c (.fromBytes data) (p.run descs c d (.fromBytes data)) ::
        firstUses (List.replicate (threads - 2) (c, []))) :=
    .head (.head _ hcall) <| .head (.head _ henter) <| .head (.head _ hstore) <|
      .head (.second _ _ hread) <| .single (.second _ _ hdecode)
  have hagrees := hsafe _ hlength hcalls _ _ hrun _ (List.mem_cons_of_mem _ (List.mem_cons_self ..)) d
    hproto
  exact hdiffers (Outcome.decoded.inj hagrees)

end Graph

/-! ## A class that refers to another one

`message H { M m = 1; }` next to `M` and `E`: the class has identity 2 and descriptor 1. -/

/-- The serialized `DescriptorProto` of `H`. -/
def holderBytes : Bytes :=
  [0x0a, 1, 0x48, 0x12, 13, 0x0a, 1, 0x6d, 0x18, 1, 0x20, 1, 0x28, 11, 0x32, 2, 0x2e, 0x4d]

/-- `H` as the parser returns it. -/
def holderMessage : MessageDescriptor where
  name := "H"
  fields := [
    { number := 1, name := "m", kind := .message, label := .optional, typeName := some "M",
      oneofIndex := none }]
  oneofs := []

/-- The dataclass generated for `H`. -/
def holderClass : PyClass where
  mro := [{ dataclass := some { fields := [{ name := "m", default := some .pyNone }] } }]
  fastproto := some 1

/-- The module generated for the file. -/
def holderProgram : Program where
  cls id := if id = 2 then holderClass else recursiveWorld.cls id
  inner desc := if desc = 1 then holderMessage else recursiveMessage
  moduleVars _ := [("E", 1), ("M", 0), ("H", 2)]
  getattr _ _ := none

/-- The module with every class linked. -/
def holderWorld : World where
  cls := holderProgram.cls
  descriptor desc :=
    if desc = 1 then
      { inner := holderMessage
        refs := some [(1, buildLinkedRef 0 recursiveClass)]
        linked := true
        fastInit := some { cls := 2, defaults := [.pyNone] } }
    else
      { inner := recursiveMessage
        refs := some [(2, buildLinkedRef 1 { enum := some { values := [0, 1] } }),
          (3, buildLinkedRef 0 recursiveClass)]
        linked := true
        fastInit := some { cls := 0, defaults := [.int 0, .member 1 0, .pyNone] } }

/-- The message classes of the module. -/
def holderDom (cls : ClassId) (desc : DescId) : Prop := cls = 0 ∧ desc = 0 ∨ cls = 2 ∧ desc = 1

/-- The classes of the module are a family. -/
theorem family_holderWorld : Family holderWorld holderDom where
  generated := by
    -- the class `M` and the class `H` that refers to it
    rintro _ _ (⟨rfl, rfl⟩ | ⟨rfl, rfl⟩)
    · exact {
        fastproto := rfl
        metaCall := rfl
        concrete := rfl
        dataclass := ⟨_, rfl, rfl, .cons ⟨rfl, rfl, rfl, .inl rfl⟩
          (.cons ⟨rfl, rfl, rfl, .inl rfl⟩ (.cons ⟨rfl, rfl, rfl, .inl rfl⟩ .nil))⟩
        parsed := ⟨recursiveBytes, by rfl⟩
        numbers := by decide
        valid := by decide
        names := by decide
        slot := by decide }
    · exact {
        fastproto := rfl
        metaCall := rfl
        concrete := rfl
        dataclass := ⟨_, rfl, rfl, .cons ⟨rfl, rfl, rfl, .inl rfl⟩ .nil⟩
        parsed := ⟨holderBytes, by rfl⟩
        numbers := by decide
        valid := by decide
        names := by decide
        slot := by decide }
  messages := by
    rintro _ _ (⟨rfl, rfl⟩ | ⟨rfl, rfl⟩) field hfield hkind
    · refine ⟨0, 0, ?_, rfl, .inl ⟨rfl, rfl⟩⟩
      rcases hfield with _ | ⟨_, _ | ⟨_, _ | ⟨_, hfield⟩⟩⟩
      · cases hkind
      · cases hkind
      · rfl
      · cases hfield
    · refine ⟨0, 0, ?_, rfl, .inl ⟨rfl, rfl⟩⟩
      rcases hfield with _ | ⟨_, hfield⟩
      · rfl
      · cases hfield
  enums := by
    rintro _ _ (⟨rfl, rfl⟩ | ⟨rfl, rfl⟩) field hfield hkind
    · refine ⟨1, { values := [0, 1] }, ?_, rfl, rfl, rfl, by decide⟩
      rcases hfield with _ | ⟨_, _ | ⟨_, _ | ⟨_, hfield⟩⟩⟩
      · cases hkind
      · rfl
      · cases hkind
      · cases hfield
    · rcases hfield with _ | ⟨_, hfield⟩
      · cases hkind
      · cases hfield
  fast := by
    rintro _ _ (⟨rfl, rfl⟩ | ⟨rfl, rfl⟩) fast hfast
    · cases hfast
      rfl
    · cases hfast
      rfl

/-- The classes of the module are a graph. -/
theorem linkGraph_holder : LinkGraph holderProgram holderWorld holderDom where
  family := family_holderWorld
  classes := rfl
  own := by
    rintro c c' d (⟨rfl, rfl⟩ | ⟨rfl, rfl⟩) (⟨rfl, hd⟩ | ⟨rfl, hd⟩)
    · rfl
    · cases hd
    · cases hd
    · rfl
  links := by
    rintro _ _ (⟨rfl, rfl⟩ | ⟨rfl, rfl⟩)
    · exact ⟨_, rfl⟩
    · exact ⟨_, rfl⟩

/-- **The race on two threads**: the second one decodes `H { m = M { m = M {} } }` while `M` is not
linked. -/
theorem race_holder : ¬ ∀ (p : Program) (w : World) (dom : ClassId → DescId → Prop),
    LinkGraph p w dom → ∀ threads, p.Safe w dom threads := by
  intro hsafe
  have hcalls : ∀ call ∈ [((2 : ClassId), ([] : Bytes)), (2, [0x0a, 2, 0x1a, 0])],
      ∃ d, holderDom call.1 d := by
    intro call hcall
    rcases List.mem_cons.mp hcall with rfl | hcall
    · exact ⟨1, .inr ⟨rfl, rfl⟩⟩
    · obtain rfl := List.mem_singleton.mp hcall
      exact ⟨1, .inr ⟨rfl, rfl⟩⟩
  have hcall : holderProgram.threadStep holderProgram.compiled (.call 2 (.fromBytes []))
      = some (_, .linking 2 (.fromBytes []) [.enter 2]) := rfl
  have henter : holderProgram.threadStep holderProgram.compiled
      (.linking 2 (.fromBytes []) [.enter 2]) = some (_, .linking 2 (.fromBytes []) [.link 2]) := rfl
  have hstore : holderProgram.threadStep holderProgram.compiled
      (.linking 2 (.fromBytes []) [.link 2])
      = some (Function.update holderProgram.compiled 1 (holderWorld.descriptor 1),
          .linking 2 (.fromBytes []) [.loop [0]]) := rfl
  -- thread 2 finds the flag of `H` set and goes on, though `M` is not linked
  have hread : holderProgram.threadStep
      (Function.update holderProgram.compiled 1 (holderWorld.descriptor 1))
      (.call 2 (.fromBytes [0x0a, 2, 0x1a, 0]))
      = some (_, .ready 2 (.fromBytes [0x0a, 2, 0x1a, 0])) := rfl
  have hrun : Threads.Run holderProgram.threadStep
      (holderProgram.compiled, firstUses [(2, []), (2, [0x0a, 2, 0x1a, 0])])
      (Function.update holderProgram.compiled 1 (holderWorld.descriptor 1),
        [.linking 2 (.fromBytes []) [.loop [0]],
          .done 2 (.fromBytes [0x0a, 2, 0x1a, 0])
            (.decoded (.error (.runtimeError "message field was not linked to a class")))]) :=
    .head (.head _ hcall) <| .head (.head _ henter) <| .head (.head _ hstore) <|
      .head (.second _ _ hread) <| .single (.second _ _ rfl)
  have hagrees := hsafe _ _ _ linkGraph_holder 2 _ rfl hcalls _ _ hrun _
    (List.mem_cons_of_mem _ (List.mem_cons_self ..)) 1 rfl
  have hlinked : ∃ value, decode holderWorld 1 2 [0x0a, 2, 0x1a, 0] = .ok value := ⟨_, rfl⟩
  obtain ⟨value, hvalue⟩ := hlinked
  rw [hvalue] at hagrees
  cases hagrees

section Graph

variable {p : Program} {w : World} {dom : ClassId → DescId → Prop}

/-- **Linking is safe with one thread, and with more of them on flat graphs alone.** -/
theorem LinkGraph.safe_iff (h : LinkGraph p w dom) (threads : Nat) :
    p.Safe w dom threads ↔ threads ≤ 1 ∨ LinkGraph.Flat p w dom := by
  constructor
  · intro hsafe
    by_contra hnot
    rw [not_or] at hnot
    exact h.not_safe (by omega) hnot.2 hsafe
  · rintro (hone | hflat)
    · rcases Nat.le_one_iff_eq_zero_or_eq_one.mp hone with rfl | rfl
      · -- no thread at all
        intro calls hlen _ descs pool hrun t ht
        rw [List.length_eq_zero_iff.mp hlen] at hrun
        have hpool : pool = [] := List.length_eq_zero_iff.mp (Threads.Run.length hrun)
        rw [hpool] at ht
        cases ht
      · exact h.safe_single
    · exact h.safe_flat hflat threads

end Graph

/-- Two threads race on the module, one does not. -/
theorem safe_iff_holder : holderProgram.Safe holderWorld holderDom 1 ∧
    ¬ holderProgram.Safe holderWorld holderDom 2 := by
  refine ⟨(linkGraph_holder.safe_iff 1).mpr (.inl (Nat.le_refl 1)), fun hsafe => ?_⟩
  rcases (linkGraph_holder.safe_iff 2).mp hsafe with hone | hflat
  · exact absurd hone (by decide)
  · -- `H` refers to `M`, which has references
    have hrefers : Refers holderWorld 1 0 0 :=
      ⟨_, List.mem_cons_self .., rfl, _, rfl, rfl, rfl⟩
    rcases hflat 2 1 (.inr ⟨rfl, rfl⟩) 0 0 hrefers with hsame | hnone
    · exact absurd hsame (by decide)
    · exact absurd hnone (by decide)

end FastProto
