import FastProto.Decode

/-! # The decoder as a fold over segments

Every loop of the decoder reads a tag and a payload and then updates its state. Here the updates are
written on payloads already read: one value, one element of a repeated field, one field of a map
entry, one segment of a message. `decodeMessage_eq_ok` is the result: decoding succeeds iff the bytes
split into segments, the fold of `segmentStep` over them succeeds, and so does the construction. -/

namespace FastProto

open Lib Lib.Cursor

/-! ## Single values -/

/-- The value of a scalar payload; a payload of another wire type is never passed. -/
def scalarOfPayload (scalar : ScalarType) (payload : Payload) : PyResult PyVal :=
  match scalar, payload with
  | .int32, .varint raw => .ok (.int raw.toUInt32.toInt32.toInt)
  | .int64, .varint raw => .ok (.int raw.toInt64.toInt)
  | .uint32, .varint raw => .ok (.int raw.toUInt32.toNat)
  | .uint64, .varint raw => .ok (.int raw.toNat)
  | .sint32, .varint raw => .ok (.int (zigzagDecode32 raw.toUInt32).toInt)
  | .sint64, .varint raw => .ok (.int (zigzagDecode64 raw).toInt)
  | .bool, .varint raw => .ok (.bool (decide (raw ≠ 0)))
  | .fixed32, .i32 raw => .ok (.int raw.toNat)
  | .sfixed32, .i32 raw => .ok (.int raw.toInt32.toInt)
  | .float, .i32 raw => .ok (.float (FloatBits.widen raw))
  | .fixed64, .i64 raw => .ok (.int raw.toNat)
  | .sfixed64, .i64 raw => .ok (.int raw.toInt64.toInt)
  | .double, .i64 raw => .ok (.float raw)
  | .string, .len data => decodeStr data
  | .bytes, .len data => .ok (.bytes data)
  | _, _ => .error (.panicked "payload of another wire type")

/-- `decode_scalar` reads the payload of its wire type. -/
theorem decodeScalar_eq (scalar : ScalarType) :
    decodeScalar scalar = orWireErr (Reader.readPayload scalar.wireType) >>= fun payload =>
      StateT.lift (scalarOfPayload scalar payload) := by
  unfold orWireErr
  cases scalar <;>
  · simp only [ScalarType.wireType, payload_varint, payload_i64, payload_len, payload_i32]
    rfl

section Values

variable (w : World) (nested : NestedDecoder)

/-- The value of the payload of a field that is not a map. -/
def valueOfPayload (kind : FieldKind) (linked : Option LinkedRef) (payload : Payload) :
    PyResult PyVal :=
  match kind, payload with
  | .scalar scalar, payload => scalarOfPayload scalar payload
  | .enum, .varint raw => decodeEnum w linked raw
  | .message, .len sub => decodeMessageValue nested linked sub
  | .timestamp, .len sub => decodeTimestamp sub
  | .duration, .len sub => decodeDuration sub
  | _, _ => .error (.panicked "payload of another wire type")

/-- A singular value is read off the payload of the expected wire type. -/
theorem decodeSingle_eq {kind : FieldKind} (hkind : kind.isMap = false)
    (linked : Option LinkedRef) :
    decodeSingle w nested kind linked
      = orWireErr (Reader.readPayload kind.expectedWire) >>= fun payload =>
          StateT.lift (valueOfPayload w nested kind linked payload) := by
  unfold orWireErr
  cases kind with
  | scalar scalar => exact decodeScalar_eq scalar
  | enum => rw [FieldKind.expectedWire, payload_varint]; rfl
  | message => rw [FieldKind.expectedWire, payload_len]; rfl
  | timestamp => rw [FieldKind.expectedWire, payload_len]; rfl
  | duration => rw [FieldKind.expectedWire, payload_len]; rfl
  | map key value => cases hkind

/-! ## Repeated fields -/

/-- The step of the loop over a packed chunk. -/
def packedStep (kind : FieldKind) (linked : Option LinkedRef) (list : List PyVal)
    (payload : Payload) : PyResult (List PyVal) := do
  let item ← valueOfPayload w nested kind linked payload
  .ok (list ++ [item])

/-- Decoding one element and appending it. -/
def packedBody (kind : FieldKind) (linked : Option LinkedRef) (list : List PyVal) :
    DecodeM (List PyVal) := do
  let item ← decodeSingle w nested kind linked
  pure (list ++ [item])

/-- The loop over a packed chunk works payload by payload. -/
theorem packedBody_body {kind : FieldKind} (hkind : kind.isMap = false)
    (linked : Option LinkedRef) :
    Body (Reader.readPayload kind.expectedWire) wireErr (packedStep w nested kind linked)
      (packedBody w nested kind linked) := by
  intro list
  unfold packedBody packedStep
  rw [decodeSingle_eq w nested hkind, bind_assoc]
  simp only [lift_bind, lift_ok]
  rfl

/-- The elements a payload of a repeated field appends. -/
def repeatedOfPayload (kind : FieldKind) (linked : Option LinkedRef) (payload : Payload)
    (list : List PyVal) : PyResult (List PyVal) :=
  match payload with
  | .len chunk =>
      if kind.isPacked then
        drainAll (packedBody w nested kind linked) list (Reader.new chunk)
      else packedStep w nested kind linked list (.len chunk)
  | payload => packedStep w nested kind linked list payload

/-- The wire types a repeated field takes: packed, or its elements' own. -/
def FieldKind.takesRepeated (kind : FieldKind) (wire : WireType) : Bool :=
  decide (wire = .len) || decide (wire = kind.expectedWire)

/-- A kind that cannot be packed expects a length-delimited element. -/
theorem expectedWire_of_not_packed {kind : FieldKind} (h : kind.isPacked = false) :
    kind.expectedWire = .len := by
  cases kind with
  | scalar s => cases s <;> first | rfl | cases h
  | enum => cases h
  | message => rfl
  | timestamp => rfl
  | duration => rfl
  | map key value => rfl

/-- The elements of a packed kind have no chunk of their own. -/
theorem expectedWire_of_packed {kind : FieldKind} (h : kind.isPacked = true) :
    kind.expectedWire ≠ .len := by
  cases kind with
  | scalar scalar =>
      cases scalar <;> simp [FieldKind.isPacked, ScalarType.isPackable, FieldKind.expectedWire,
        ScalarType.wireType] at h ⊢
  | enum => decide
  | _ => cases h

/-- **`decode_repeated` in one line a case**: a packed chunk, one element, or not this field. -/
theorem decodeRepeated_eq {kind : FieldKind} (hkind : kind.isMap = false)
    (linked : Option LinkedRef) (wire : WireType) (list : List PyVal) :
    decodeRepeated w nested kind linked wire list
      = if kind.isPacked = true ∧ wire = .len then do
          let chunk ← orWireErr Reader.readLenDelimited
          let items ← StateT.lift (drainAll (packedBody w nested kind linked) list
            (Reader.new chunk))
          pure (some items)
        else if wire = kind.expectedWire then do
          let item ← decodeSingle w nested kind linked
          pure (some (list ++ [item]))
        else pure none := by
  -- without packing the guard of the packed branch is false
  have hunpacked : ∀ {x y z : DecodeM (Option (List PyVal))}, y = z →
      (if wire = .len then y else pure none)
        = if false = true ∧ wire = .len then x else if wire = .len then z else pure none := by
    rintro x y z rfl
    simp
  cases kind with
  | scalar scalar =>
      cases hpack : scalar.isPackable with
      | true =>
          simp only [decodeRepeated, FieldKind.isPacked, hpack, true_and, if_true]
          rfl
      | false =>
          have hexp : (FieldKind.scalar scalar).expectedWire = .len := expectedWire_of_not_packed hpack
          simp only [decodeRepeated, FieldKind.isPacked, hpack, hexp]
          exact hunpacked rfl
  | enum =>
      have hbody : packedBody w nested .enum linked = (fun list => do
          let raw ← orWireErr Reader.readVarint
          let item ← StateT.lift (decodeEnum w linked raw)
          pure (list ++ [item])) := by
        funext list
        simp only [packedBody, decodeSingle, bind_assoc]
      simp only [decodeRepeated, FieldKind.isPacked, true_and, hbody, decodeSingle, bind_assoc]
      rfl
  | message =>
      refine hunpacked ?_
      simp only [decodeSingle, bind_assoc]
  | timestamp =>
      refine hunpacked ?_
      simp only [decodeSingle, bind_assoc]
  | duration =>
      refine hunpacked ?_
      simp only [decodeSingle, bind_assoc]
  | map key value => cases hkind

/-- **A repeated field that takes the wire type reads the payload and appends its elements.** -/
theorem decodeRepeated_of_takes {kind : FieldKind} (hkind : kind.isMap = false)
    (linked : Option LinkedRef) {wire : WireType} (hwire : kind.takesRepeated wire = true)
    (list : List PyVal) :
    decodeRepeated w nested kind linked wire list
      = orWireErr (Reader.readPayload wire) >>= fun payload =>
          StateT.lift (repeatedOfPayload w nested kind linked payload list >>= fun items =>
            .ok (some items)) := by
  rw [decodeRepeated_eq w nested hkind]
  unfold FieldKind.takesRepeated at hwire
  rw [Bool.or_eq_true, decide_eq_true_eq, decide_eq_true_eq] at hwire
  by_cases hpacked : kind.isPacked = true ∧ wire = .len
  · obtain ⟨hpack, rfl⟩ := hpacked
    unfold orWireErr
    rw [if_pos ⟨hpack, rfl⟩, payload_len]
    simp only [repeatedOfPayload, hpack, if_true, lift_bind, lift_ok]
  · -- an element of its own: the expected wire type, with the tag it was announced by
    have hexp : wire = kind.expectedWire := by
      rcases hwire with hlen | hexp
      · have hnot : kind.isPacked = false := by
          cases hpack : kind.isPacked with
          | false => rfl
          | true => exact absurd ⟨hpack, hlen⟩ hpacked
        rw [hlen, expectedWire_of_not_packed hnot]
      · exact hexp
    rw [if_neg hpacked, if_pos hexp, decodeSingle_eq w nested hkind, ← hexp, bind_assoc]
    refine readPayload_congr fun payload hpayload => ?_
    have hstep : repeatedOfPayload w nested kind linked payload list
        = packedStep w nested kind linked list payload := by
      unfold repeatedOfPayload
      split
      · rw [if_neg fun hpack => hpacked ⟨hpack, hpayload.symm⟩]
      · rfl
    rw [hstep]
    simp only [packedStep, lift_bind, lift_ok, bind_assoc, pure_bind]

/-- A repeated field that does not take the wire type reports so and reads nothing. -/
theorem decodeRepeated_of_not_takes {kind : FieldKind} (hkind : kind.isMap = false)
    (linked : Option LinkedRef) {wire : WireType} (hwire : kind.takesRepeated wire = false)
    (list : List PyVal) :
    decodeRepeated w nested kind linked wire list = pure none := by
  unfold FieldKind.takesRepeated at hwire
  rw [Bool.or_eq_false_iff, decide_eq_false_iff_not, decide_eq_false_iff_not] at hwire
  rw [decodeRepeated_eq w nested hkind, if_neg (fun h => hwire.1 h.2), if_neg hwire.2]

/-! ## Map entries -/

/-- The step of `decode_map_entry` on one record. -/
def mapEntryStep (key : ScalarType) (valueKind : MapValue) (linked : Option LinkedRef)
    (entry : Option PyVal × Option PyVal) (rec : Record) :
    PyResult (Option PyVal × Option PyVal) :=
  if rec.number = 1 ∧ rec.payload.wire = key.wireType then do
    let k ← scalarOfPayload key rec.payload
    .ok (some k, entry.2)
  else if rec.number = 2 ∧ rec.payload.wire = valueKind.kind.expectedWire then do
    let v ← valueOfPayload w nested valueKind.kind linked rec.payload
    .ok (entry.1, some v)
  else .ok entry

/-- The loop body of `decode_map_entry` with its value branches merged. -/
theorem mapEntryBody_eq (key : ScalarType) (valueKind : MapValue) (linked : Option LinkedRef)
    (entry : Option PyVal × Option PyVal) :
    mapEntryBody w nested key valueKind linked entry
      = orWireErr Reader.readTag >>= fun (number, wire) =>
          if number = 1 ∧ wire = key.wireType then
            decodeScalar key >>= fun k => pure (some k, entry.2)
          else if number = 2 ∧ wire = valueKind.kind.expectedWire then
            decodeSingle w nested valueKind.kind linked >>= fun v => pure (entry.1, some v)
          else orWireErr (Reader.skip wire) >>= fun _ => pure entry := by
  unfold mapEntryBody
  refine congrArg _ (funext fun tag => ?_)
  obtain ⟨number, wire⟩ := tag
  dsimp only
  by_cases hkey : number = 1 ∧ wire = key.wireType
  · rw [if_pos hkey, if_pos hkey]
  · rw [if_neg hkey, if_neg hkey]
    by_cases hnum : number = 2
    · simp only [hnum, if_true, true_and]
      cases valueKind with
      | scalar scalar => rfl
      | enum => simp only [MapValue.kind, decodeSingle, bind_assoc]; rfl
      | message => simp only [MapValue.kind, decodeSingle, bind_assoc]; rfl
      | timestamp => simp only [MapValue.kind, decodeSingle, bind_assoc]; rfl
      | duration => simp only [MapValue.kind, decodeSingle, bind_assoc]; rfl
    · rw [if_neg hnum, if_neg fun h => hnum h.1]

/-- **The loop of `decode_map_entry` works record by record.** -/
theorem mapEntry_body (key : ScalarType) (valueKind : MapValue) (linked : Option LinkedRef) :
    Body Reader.readRecord wireErr (mapEntryStep w nested key valueKind linked)
      (mapEntryBody w nested key valueKind linked) := by
  refine body_of_branches (fun entry => mapEntryBody_eq w nested key valueKind linked entry)
    fun entry number wire => ?_
  dsimp only
  unfold mapEntryStep
  by_cases hkey : number = 1 ∧ wire = key.wireType
  · rw [if_pos hkey, decodeScalar_eq, ← hkey.2, bind_assoc]
    refine readPayload_congr fun payload hpayload => ?_
    rw [if_pos ⟨hkey.1, hpayload⟩, lift_bind]
    rfl
  · rw [if_neg hkey]
    by_cases hvalue : number = 2 ∧ wire = valueKind.kind.expectedWire
    · rw [if_pos hvalue, decodeSingle_eq w nested valueKind.kind_isMap, ← hvalue.2, bind_assoc]
      refine readPayload_congr fun payload hpayload => ?_
      rw [if_neg (by rw [hpayload]; exact hkey), if_pos ⟨hvalue.1, hpayload⟩,
        lift_bind]
      rfl
    · rw [if_neg hvalue]
      unfold orWireErr
      rw [skip_bind]
      refine readPayload_congr fun payload hpayload => ?_
      rw [if_neg (by rw [hpayload]; exact hkey), if_neg (by rw [hpayload]; exact hvalue)]
      rfl

/-- What `decode_map_entry` returns for the key and the value seen. -/
def mapEntryFinish (key : ScalarType) (valueKind : MapValue) (linked : Option LinkedRef)
    (entry : Option PyVal × Option PyVal) : PyResult (PyVal × PyVal) := do
  let v ←
    match entry.2 with
    | some v => .ok v
    | none => mapValueDefault w nested valueKind linked
  .ok (entry.1.getD (scalarDefault key), v)

/-- `decode_map_entry` succeeds iff the entry splits into records that fold. -/
theorem decodeMapEntry_eq_ok {key : ScalarType} {valueKind : MapValue}
    {linked : Option LinkedRef} {data : Bytes} {kv : PyVal × PyVal} :
    decodeMapEntry w nested key valueKind linked data = .ok kv ↔
      ∃ recs entry, Split Reader.readRecord data recs ∧
        recs.foldlM (mapEntryStep w nested key valueKind linked) (none, none) = .ok entry ∧
        mapEntryFinish w nested key valueKind linked entry = .ok kv := by
  have hloop : ∀ entry, drainAll (mapEntryBody w nested key valueKind linked) (none, none)
      (Reader.new data) = .ok entry ↔ _ := fun entry =>
    drainAll_eq_ok Reader.framed_readRecord Reader.advances_readRecord
      (mapEntry_body w nested key valueKind linked)
  unfold decodeMapEntry
  rw [bind_eq_ok]
  constructor
  · rintro ⟨entry, h, hfinish⟩
    obtain ⟨recs, hsplit, hfold⟩ := (hloop entry).mp h
    exact ⟨recs, entry, hsplit, hfold, hfinish⟩
  · rintro ⟨recs, entry, hsplit, hfold, hfinish⟩
    exact ⟨entry, (hloop entry).mpr ⟨recs, hsplit, hfold⟩, hfinish⟩

/-! ## Segments of a message -/

/-- The wire types a field takes. -/
def FieldDescriptor.accepts (field : FieldDescriptor) (wire : WireType) : Bool :=
  if field.label = .repeated then field.kind.takesRepeated wire
  else decide (wire = field.kind.expectedWire)

/-- The field a segment belongs to, with its index; none when the number is unknown or the field
does not take the wire type. -/
def MessageDescriptor.recognize (desc : MessageDescriptor) (number : UInt32) (wire : WireType) :
    Option (Nat × FieldDescriptor) :=
  (fieldByNumber desc.fields number).bind fun idx =>
    (desc.fields[idx]?).bind fun field => if field.accepts wire then some (idx, field) else none

/-- The step on a payload that the field at index `idx` takes. -/
def fieldStep (desc : Descriptor) (st : DecodeState) (idx : Nat) (field : FieldDescriptor)
    (payload : Payload) : PyResult DecodeState :=
  let linked := desc.ref field.number
  let st := st.claimOneof field idx
  match field.kind, payload with
  | .map key value, .len entry => do
      let (k, v) ← decodeMapEntry w nested key value linked entry
      match st.values[idx]? with
      | some (some (.dict items)) => .ok (st.store idx (.dict (dictSet items k v)))
      | _ => .error (.panicked "called `Option::unwrap()` on a `None` value")
  | .map _ _, _ => .error (.panicked "payload of another wire type")
  | kind, payload =>
      if field.label = .repeated then
        match st.values[idx]? with
        | some (some (.list items)) => do
            let items ← repeatedOfPayload w nested kind linked payload items
            .ok (st.store idx (.list items))
        | _ => .error (.panicked "called `Option::unwrap()` on a `None` value")
      else do
        let value ← valueOfPayload w nested kind linked payload
        .ok (st.store idx value)

/-- **The step of `decode_message` on one segment**: a field takes its payload, or the bytes are
kept. -/
def segmentStep (desc : Descriptor) (st : DecodeState) (seg : Segment) : PyResult DecodeState :=
  match desc.inner.recognize seg.number seg.payload.wire with
  | some (idx, field) => fieldStep w nested desc st idx field seg.payload
  | none => .ok (st.keep seg.raw)

/-- The field a segment belongs to as the lookup table of the descriptor finds it. -/
def Descriptor.target (desc : Descriptor) (number : UInt32) (wire : WireType) :
    Option (Nat × FieldDescriptor) :=
  (desc.fieldIndex.get number).bind fun idx =>
    (desc.inner.fields[idx]?).bind fun field =>
      if field.accepts wire then some (idx, field) else none

/-- The step of `decode_message` on one segment, with the lookup table of the descriptor. -/
def targetStep (desc : Descriptor) (st : DecodeState) (seg : Segment) : PyResult DecodeState :=
  match desc.target seg.number seg.payload.wire with
  | some (idx, field) => fieldStep w nested desc st idx field seg.payload
  | none => .ok (st.keep seg.raw)

/-- The shape `parse_message` gives every field of a message. -/
abbrev MessageDescriptor.Shaped (desc : MessageDescriptor) : Prop :=
  ∀ field ∈ desc.fields, field.Shaped desc.oneofs.length

/-- What the decoder relies on about a descriptor: the shape of parsed fields, and a number of
fields that fits the lookup table. -/
structure MessageDescriptor.WellFormed (desc : MessageDescriptor) : Prop where
  shaped : ∀ field ∈ desc.fields, field.Shaped desc.oneofs.length
  count : desc.fields.length < 2 ^ 32 - 1

end Values

/-- **The invariant of the decoding loop**: a slot per field, an accumulator in the slot of every
map and list, and only optional fields among the owners of oneof groups. -/
structure DecodeState.Ready (fields : List FieldDescriptor) (st : DecodeState) : Prop where
  length : st.values.length = fields.length
  dicts : ∀ (idx : Nat) (field : FieldDescriptor), fields[idx]? = some field →
    field.kind.isMap = true → ∃ items, st.values[idx]? = some (some (.dict items))
  lists : ∀ (idx : Nat) (field : FieldDescriptor), fields[idx]? = some field →
    field.kind.isMap = false → field.label = .repeated →
    ∃ items, st.values[idx]? = some (some (.list items))
  owners : ∀ owner ∈ st.oneofOwner, ∃ field, fields[owner.2]? = some field ∧
    field.label = .optional

namespace DecodeState

@[simp] theorem keep_values (st : DecodeState) (raw : Bytes) : (st.keep raw).values = st.values :=
  rfl

@[simp] theorem keep_unknown (st : DecodeState) (raw : Bytes) :
    (st.keep raw).unknown = st.unknown ++ raw := rfl

@[simp] theorem keep_oneofOwner (st : DecodeState) (raw : Bytes) :
    (st.keep raw).oneofOwner = st.oneofOwner := rfl

@[simp] theorem store_values (st : DecodeState) (idx : Nat) (value : PyVal) :
    (st.store idx value).values = st.values.set idx (some value) := rfl

@[simp] theorem store_unknown (st : DecodeState) (idx : Nat) (value : PyVal) :
    (st.store idx value).unknown = st.unknown := rfl

@[simp] theorem store_oneofOwner (st : DecodeState) (idx : Nat) (value : PyVal) :
    (st.store idx value).oneofOwner = st.oneofOwner := rfl

@[simp] theorem claimOneof_unknown (st : DecodeState) (field : FieldDescriptor) (idx : Nat) :
    (st.claimOneof field idx).unknown = st.unknown := by
  unfold claimOneof
  split <;> rfl

@[simp] theorem claimOneof_length (st : DecodeState) (field : FieldDescriptor) (idx : Nat) :
    (st.claimOneof field idx).values.length = st.values.length := by
  unfold claimOneof
  split
  · dsimp only
    split
    · split
      · rw [List.length_set]
      · rfl
    · rfl
  · rfl

/-- Only a member of a oneof group claims it. -/
theorem claimOneof_of_label {st : DecodeState} {field : FieldDescriptor} (idx : Nat)
    (h : field.label ≠ .optional) : st.claimOneof field idx = st := by
  unfold claimOneof
  split
  · rename_i hlabel
    exact absurd hlabel h
  · rfl

/-- Claiming a group leaves every slot alone but the one of its former owner. -/
theorem claimOneof_getElem? {st : DecodeState} {field : FieldDescriptor} {idx i : Nat}
    (h : ∀ owner ∈ st.oneofOwner, owner.2 ≠ i) :
    (st.claimOneof field idx).values[i]? = st.values[i]? := by
  unfold claimOneof
  split
  · rename_i group _ _
    dsimp only
    split
    · rename_i prev hprev
      split
      · rw [List.getElem?_set_ne (h _ (mem_of_lookup hprev))]
      · rfl
    · rfl
  · rfl

end DecodeState

/-- The state before the first tag is ready. -/
theorem DecodeState.ready_init (fields : List FieldDescriptor) : (init fields).Ready fields where
  length := by simp [init]
  dicts := by
    intro idx field hfield hmap
    refine ⟨[], ?_⟩
    rw [init, List.getElem?_map, hfield]
    unfold accumulator
    cases hkind : field.kind with
    | map key value => simp [hkind]
    | _ => rw [hkind] at hmap; cases hmap
  lists := by
    intro idx field hfield hmap hlabel
    refine ⟨[], ?_⟩
    rw [init, List.getElem?_map, hfield]
    unfold accumulator
    cases hkind : field.kind with
    | map key value => rw [hkind] at hmap; cases hmap
    | _ => simp [hkind, hlabel]
  owners := by
    intro owner howner
    cases howner

namespace DecodeState.Ready

variable {fields : List FieldDescriptor} {st : DecodeState}

/-- Keeping unknown bytes stays ready. -/
theorem keep (h : st.Ready fields) (raw : Bytes) : (st.keep raw).Ready fields :=
  ⟨h.length, h.dicts, h.lists, h.owners⟩

/-- No owner of a oneof group is a field with another label. -/
theorem owner_ne (h : st.Ready fields) {idx : Nat} {field : FieldDescriptor}
    (hfield : fields[idx]? = some field) (hlabel : field.label ≠ .optional) :
    ∀ owner ∈ st.oneofOwner, owner.2 ≠ idx := by
  rintro owner howner rfl
  obtain ⟨f, hf, hopt⟩ := h.owners owner howner
  rw [hfield] at hf
  cases hf
  exact hlabel hopt

/-- Claiming a oneof group stays ready. -/
theorem claimOneof (h : st.Ready fields) {oneofs : Nat}
    (hshaped : ∀ f ∈ fields, f.Shaped oneofs) {idx : Nat} {field : FieldDescriptor}
    (hfield : fields[idx]? = some field) : (st.claimOneof field idx).Ready fields where
  length := by rw [claimOneof_length, h.length]
  dicts := by
    intro i f hf hmap
    have hlabel : f.label ≠ .optional := by
      cases hkind : f.kind with
      | map key value =>
          rw [((hshaped f (List.mem_of_getElem? hf)).map_single key value hkind).1]
          decide
      | _ => rw [hkind] at hmap; cases hmap
    rw [claimOneof_getElem? (h.owner_ne hf hlabel)]
    exact h.dicts i f hf hmap
  lists := by
    intro i f hf hmap hlabel
    rw [claimOneof_getElem? (h.owner_ne hf (by rw [hlabel]; decide))]
    exact h.lists i f hf hmap hlabel
  owners := by
    intro owner howner
    unfold DecodeState.claimOneof at howner
    split at howner
    · rename_i group hindex hlabel
      rcases List.mem_cons.mp howner with rfl | howner
      · exact ⟨field, hfield, hlabel⟩
      · exact h.owners owner howner
    · exact h.owners owner howner

/-- Storing a value of the accumulator's shape stays ready. -/
theorem store (h : st.Ready fields) {idx : Nat} {field : FieldDescriptor}
    (hfield : fields[idx]? = some field) {value : PyVal}
    (hdict : field.kind.isMap = true → ∃ items, value = .dict items)
    (hlist : field.kind.isMap = false → field.label = .repeated → ∃ items, value = .list items) :
    (st.store idx value).Ready fields where
  length := by rw [store_values, List.length_set, h.length]
  dicts := by
    intro i f hf hmap
    rw [store_values, List.getElem?_set]
    by_cases hi : idx = i
    · subst hi
      rw [hfield] at hf
      cases hf
      obtain ⟨items, hitems⟩ := hdict hmap
      have hlt := (List.getElem?_eq_some_iff.mp hfield).1
      rw [if_pos rfl, if_pos (by rw [h.length]; exact hlt), hitems]
      exact ⟨items, rfl⟩
    · rw [if_neg hi]
      exact h.dicts i f hf hmap
  lists := by
    intro i f hf hmap hlabel
    rw [store_values, List.getElem?_set]
    by_cases hi : idx = i
    · subst hi
      rw [hfield] at hf
      cases hf
      obtain ⟨items, hitems⟩ := hlist hmap hlabel
      have hlt := (List.getElem?_eq_some_iff.mp hfield).1
      rw [if_pos rfl, if_pos (by rw [h.length]; exact hlt), hitems]
      exact ⟨items, rfl⟩
    · rw [if_neg hi]
      exact h.lists i f hf hmap hlabel
  owners := h.owners

end DecodeState.Ready

/-- A segment is recognized by a field of the message with its number that takes its wire type. -/
theorem MessageDescriptor.recognize_eq_some {desc : MessageDescriptor} {number : UInt32}
    {wire : WireType} {idx : Nat} {field : FieldDescriptor}
    (h : desc.recognize number wire = some (idx, field)) :
    fieldByNumber desc.fields number = some idx ∧ desc.fields[idx]? = some field ∧
      field.number = number ∧ field.accepts wire = true := by
  unfold recognize at h
  obtain ⟨i, hi, h⟩ := Option.bind_eq_some_iff.mp h
  obtain ⟨f, hf, h⟩ := Option.bind_eq_some_iff.mp h
  split at h
  · cases h
    obtain ⟨hlt, hnum, -⟩ := List.findIdx?_eq_some_iff_getElem.mp hi
    rw [List.getElem?_eq_getElem hlt] at hf
    cases hf
    exact ⟨hi, List.getElem?_eq_getElem hlt, by simpa using hnum, by assumption⟩
  · cases h

/-- A map field takes the wire type of its entries alone. -/
theorem payload_of_map_accepts {field : FieldDescriptor} {oneofs : Nat}
    (hshape : field.Shaped oneofs) {key : ScalarType} {value : MapValue}
    (hkind : field.kind = .map key value) {payload : Payload}
    (hacc : field.accepts payload.wire = true) : ∃ entry, payload = .len entry := by
  rw [FieldDescriptor.accepts, (hshape.map_single key value hkind).1, if_neg (by decide),
    decide_eq_true_eq, hkind] at hacc
  cases payload with
  | len entry => exact ⟨entry, rfl⟩
  | _ => cases hacc

section Segments

variable (w : World) (nested : NestedDecoder) {desc : Descriptor}

/-- The step of a map field on an entry. -/
theorem fieldStep_map {st : DecodeState} {idx : Nat} {field : FieldDescriptor}
    {key : ScalarType} {value : MapValue} (hkind : field.kind = .map key value) (entry : Bytes)
    {items : List (PyVal × PyVal)}
    (hitems : (st.claimOneof field idx).values[idx]? = some (some (.dict items))) :
    fieldStep w nested desc st idx field (.len entry)
      = decodeMapEntry w nested key value (desc.ref field.number) entry >>= fun (k, v) =>
          .ok ((st.claimOneof field idx).store idx (.dict (dictSet items k v))) := by
  unfold fieldStep
  simp only [hkind, hitems]

/-- The step of a repeated field. -/
theorem fieldStep_repeated {st : DecodeState} {idx : Nat} {field : FieldDescriptor}
    (hmap : field.kind.isMap = false) (hlabel : field.label = .repeated) (payload : Payload)
    {items : List PyVal}
    (hitems : (st.claimOneof field idx).values[idx]? = some (some (.list items))) :
    fieldStep w nested desc st idx field payload
      = repeatedOfPayload w nested field.kind (desc.ref field.number) payload items >>= fun items =>
          .ok ((st.claimOneof field idx).store idx (.list items)) := by
  unfold fieldStep
  cases hk : field.kind with
  | map key value => rw [hk] at hmap; cases hmap
  | _ => simp only [hlabel, if_true, hitems]

/-- The step of a singular field. -/
theorem fieldStep_singular {st : DecodeState} {idx : Nat} {field : FieldDescriptor}
    (hmap : field.kind.isMap = false) (hlabel : field.label ≠ .repeated) (payload : Payload) :
    fieldStep w nested desc st idx field payload
      = valueOfPayload w nested field.kind (desc.ref field.number) payload >>= fun value =>
          .ok ((st.claimOneof field idx).store idx value) := by
  unfold fieldStep
  cases hk : field.kind with
  | map key value => rw [hk] at hmap; cases hmap
  | _ => simp only [if_neg hlabel]

/-- **The step of a field keeps the decoder ready.** -/
theorem fieldStep_ready (hshaped : desc.inner.Shaped) {st st' : DecodeState}
    (hready : st.Ready desc.inner.fields) {idx : Nat} {field : FieldDescriptor}
    (hfield : desc.inner.fields[idx]? = some field) {payload : Payload}
    (hacc : field.accepts payload.wire = true)
    (h : fieldStep w nested desc st idx field payload = .ok st') :
    st'.Ready desc.inner.fields := by
  have hclaim := hready.claimOneof hshaped hfield
  by_cases hmap : field.kind.isMap = true
  · obtain ⟨key, value, hkind⟩ := FieldKind.isMap_iff.mp hmap
    obtain ⟨items, hitems⟩ := hclaim.dicts idx field hfield hmap
    obtain ⟨entry, rfl⟩ := payload_of_map_accepts
      (hshaped field (List.mem_of_getElem? hfield)) hkind hacc
    rw [fieldStep_map w nested hkind entry hitems] at h
    obtain ⟨⟨k, v⟩, -, h⟩ := bind_eq_ok.mp h
    cases h
    exact hclaim.store hfield (fun _ => ⟨_, rfl⟩) fun h => absurd (hmap.symm.trans h) (by decide)
  · have hnot : field.kind.isMap = false := by simpa using hmap
    by_cases hlabel : field.label = .repeated
    · obtain ⟨items, hitems⟩ := hclaim.lists idx field hfield hnot hlabel
      rw [fieldStep_repeated w nested hnot hlabel payload hitems] at h
      obtain ⟨items', -, h⟩ := bind_eq_ok.mp h
      cases h
      exact hclaim.store hfield (fun h => absurd h hmap) fun _ _ => ⟨_, rfl⟩
    · rw [fieldStep_singular w nested hnot hlabel] at h
      obtain ⟨value, -, h⟩ := bind_eq_ok.mp h
      cases h
      exact hclaim.store hfield (fun h => absurd h hmap) fun _ h => absurd h hlabel

/-- **The step of a segment keeps the decoder ready.** -/
theorem segmentStep_keeps (hwf : desc.inner.WellFormed) :
    Keeps (·.Ready desc.inner.fields) (segmentStep w nested desc) := by
  intro st seg st' hready h
  unfold segmentStep at h
  split at h
  · rename_i idx field hrec
    obtain ⟨-, hfield, -, hacc⟩ := MessageDescriptor.recognize_eq_some hrec
    exact fieldStep_ready w nested hwf.shaped hready hfield hacc h
  · cases h
    exact hready.keep seg.raw

/-- Keeping a field as unknown is reading its payload and its bytes. -/
theorem keepUnknown_eq (st : DecodeState) (wire : WireType) (start : Nat) :
    keepUnknown st wire start
      = mapErr wireErr (Reader.readPayload wire) >>= fun _ => rawSince start >>= fun raw =>
          StateT.lift (.ok (st.keep raw)) := by
  unfold keepUnknown orWireErr
  rw [skip_bind]
  rfl

/-- A field that takes the wire type reads its payload and makes its step. -/
theorem decodeField_of_accepts (hshaped : desc.inner.Shaped) {st : DecodeState}
    (hready : st.Ready desc.inner.fields) {idx : Nat} {field : FieldDescriptor}
    (hfield : desc.inner.fields[idx]? = some field) {wire : WireType}
    (hacc : field.accepts wire = true) (start : Nat) :
    decodeField w nested desc st idx field wire start
      = mapErr wireErr (Reader.readPayload wire) >>= fun payload =>
          StateT.lift (fieldStep w nested desc st idx field payload) := by
  have hclaim := hready.claimOneof hshaped hfield
  have hshape := hshaped field (List.mem_of_getElem? hfield)
  have hguard : ¬ (field.label ≠ .repeated ∧ wire ≠ field.kind.expectedWire) := by
    rintro ⟨hlabel, hwire⟩
    rw [FieldDescriptor.accepts, if_neg hlabel, decide_eq_true_eq] at hacc
    exact hwire hacc
  unfold decodeField
  dsimp only
  rw [if_neg hguard]
  by_cases hmap : field.kind.isMap = true
  · -- a map is never repeated: its wire type is the one of an entry
    obtain ⟨key, value, hkind⟩ := FieldKind.isMap_iff.mp hmap
    obtain ⟨items, hitems⟩ := hclaim.dicts idx field hfield hmap
    have hwire : wire = .len := by
      rw [FieldDescriptor.accepts, (hshape.map_single key value hkind).1, if_neg (by decide),
        decide_eq_true_eq, hkind] at hacc
      exact hacc
    unfold orWireErr
    rw [hwire, payload_len]
    simp only [hkind, hitems, fieldStep_map w nested hkind _ hitems, lift_bind, lift_ok]
  · have hnot : field.kind.isMap = false := by simpa using hmap
    by_cases hlabel : field.label = .repeated
    · obtain ⟨items, hitems⟩ := hclaim.lists idx field hfield hnot hlabel
      rw [FieldDescriptor.accepts, if_pos hlabel] at hacc
      have hbody : (decodeRepeated w nested field.kind (desc.ref field.number) wire items
          >>= fun r => r.elim (keepUnknown (st.claimOneof field idx) wire start) fun items =>
            pure ((st.claimOneof field idx).store idx (.list items)))
          = mapErr wireErr (Reader.readPayload wire) >>= fun payload =>
              StateT.lift (fieldStep w nested desc st idx field payload) := by
        rw [decodeRepeated_of_takes w nested hnot _ hacc, bind_assoc]
        refine congrArg _ (funext fun payload => ?_)
        rw [fieldStep_repeated w nested hnot hlabel payload hitems]
        simp only [lift_bind, bind_assoc, lift_ok, pure_bind, Option.elim_some]
      rw [← hbody]
      simp only [if_pos hlabel, hitems]
      cases hk : field.kind with
      | map key value => rw [hk] at hnot; cases hnot
      | _ => exact bind_congr fun r => by cases r <;> rfl
    · rw [FieldDescriptor.accepts, if_neg hlabel, decide_eq_true_eq] at hacc
      have hbody : (decodeSingle w nested field.kind (desc.ref field.number) >>= fun value =>
          pure ((st.claimOneof field idx).store idx value))
          = mapErr wireErr (Reader.readPayload wire) >>= fun payload =>
              StateT.lift (fieldStep w nested desc st idx field payload) := by
        rw [decodeSingle_eq w nested hnot, ← hacc, bind_assoc]
        refine congrArg _ (funext fun payload => ?_)
        rw [fieldStep_singular w nested hnot hlabel]
        simp only [lift_bind, lift_ok]
      rw [← hbody]
      simp only [if_neg hlabel]
      cases hk : field.kind with
      | map key value => rw [hk] at hnot; cases hnot
      | _ => rfl

/-- A field that does not take the wire type leaves the state alone but for the unknown bytes: no
oneof group is claimed on the way. -/
theorem decodeField_of_not_accepts (hshaped : desc.inner.Shaped) {st : DecodeState}
    (hready : st.Ready desc.inner.fields) {idx : Nat} {field : FieldDescriptor}
    (hfield : desc.inner.fields[idx]? = some field) {wire : WireType}
    (hacc : field.accepts wire = false) (start : Nat) :
    decodeField w nested desc st idx field wire start = keepUnknown st wire start := by
  have hclaim := hready.claimOneof hshaped hfield
  have hshape := hshaped field (List.mem_of_getElem? hfield)
  unfold decodeField
  dsimp only
  by_cases hlabel : field.label = .repeated
  · have hnot : field.kind.isMap = false := by
      cases hk : field.kind with
      | map key value =>
          have := (hshape.map_single key value hk).1
          rw [hlabel] at this
          cases this
      | _ => rfl
    obtain ⟨items, hitems⟩ := hclaim.lists idx field hfield hnot hlabel
    rw [FieldDescriptor.accepts, if_pos hlabel] at hacc
    rw [if_neg fun h => h.1 hlabel]
    have hsame : st.claimOneof field idx = st :=
      DecodeState.claimOneof_of_label idx (by rw [hlabel]; decide)
    simp only [if_pos hlabel, hitems]
    have hbody := decodeRepeated_of_not_takes w nested hnot (desc.ref field.number) hacc items
    cases hk : field.kind with
    | map key value => rw [hk] at hnot; cases hnot
    | _ =>
        rw [hk] at hbody
        simp only [hbody, pure_bind, hsame]
  · rw [FieldDescriptor.accepts, if_neg hlabel, decide_eq_false_iff_not] at hacc
    rw [if_pos ⟨hlabel, hacc⟩]

/-- What the lookup table finds is a field of the descriptor that takes the wire type. -/
theorem Descriptor.target_eq_some {number : UInt32} {wire : WireType} {idx : Nat}
    {field : FieldDescriptor} (h : desc.target number wire = some (idx, field)) :
    desc.inner.fields[idx]? = some field ∧ field.accepts wire = true := by
  unfold target at h
  obtain ⟨i, -, h⟩ := Option.bind_eq_some_iff.mp h
  obtain ⟨f, hf, h⟩ := Option.bind_eq_some_iff.mp h
  split at h
  · rename_i hacc
    cases h
    exact ⟨hf, hacc⟩
  · cases h

/-- With few enough fields the lookup table finds what a scan finds. -/
theorem Descriptor.target_eq (hwf : desc.inner.WellFormed) :
    desc.target = desc.inner.recognize := by
  funext number wire
  unfold target MessageDescriptor.recognize fieldIndex
  rw [FieldIndex.get_build hwf.count]

/-- With few enough fields the two steps agree. -/
theorem targetStep_eq (hwf : desc.inner.WellFormed) :
    targetStep w nested desc = segmentStep w nested desc := by
  funext st seg
  unfold targetStep segmentStep
  rw [Descriptor.target_eq hwf]

/-- **The step of a segment keeps the decoder ready**, through the lookup table. -/
theorem targetStep_keeps (hshaped : desc.inner.Shaped) :
    Keeps (·.Ready desc.inner.fields) (targetStep w nested desc) := by
  intro st seg st' hready h
  unfold targetStep at h
  split at h
  · rename_i idx field htarget
    obtain ⟨hfield, hacc⟩ := Descriptor.target_eq_some htarget
    exact fieldStep_ready w nested hshaped hready hfield hacc h
  · cases h
    exact hready.keep seg.raw

/-- The loop body of `decode_message` after the tag. -/
def decodeTagged (desc : Descriptor) (st : DecodeState) (start : Nat) (tag : UInt32 × WireType) :
    DecodeM DecodeState :=
  match desc.fieldIndex.get tag.1 with
  | none => keepUnknown st tag.2 start
  | some idx =>
      match desc.inner.fields[idx]? with
      | some field => decodeField w nested desc st idx field tag.2 start
      | none => throw (.panicked "index out of bounds")

/-- **The loop of `decode_message` works segment by segment**, through the lookup table. -/
theorem decodeBody_target (hshaped : desc.inner.Shaped) :
    BodyOn (·.Ready desc.inner.fields) Reader.readSegment wireErr (targetStep w nested desc)
      (decodeBody w nested desc) := by
  refine body_of_captured_branches (decodeTagged w nested desc) (fun _ _ => rfl)
    fun st start number wire hready => ?_
  unfold decodeTagged
  dsimp only
  cases hidx : desc.fieldIndex.get number with
  | none =>
      dsimp only
      rw [keepUnknown_eq]
      refine congrArg _ (funext fun payload => congrArg _ (funext fun raw => ?_))
      simp only [targetStep, Descriptor.target, hidx, Option.bind_none]
  | some idx =>
      obtain ⟨field, hfield⟩ : ∃ field, desc.inner.fields[idx]? = some field :=
        ⟨_, List.getElem?_eq_getElem (FieldIndex.get_lt hidx)⟩
      simp only [hfield]
      by_cases hacc : field.accepts wire = true
      · rw [decodeField_of_accepts w nested hshaped hready hfield hacc]
        refine readPayload_congr fun payload hpayload => ?_
        show _ = rawSince start >>= fun raw => StateT.lift _
        simp only [targetStep, Descriptor.target, hidx, Option.bind_some, hfield, hpayload, hacc,
          if_true]
        rfl
      · have hnot : field.accepts wire = false := by simpa using hacc
        rw [decodeField_of_not_accepts w nested hshaped hready hfield hnot, keepUnknown_eq]
        refine readPayload_congr fun payload hpayload => ?_
        refine congrArg _ (funext fun raw => ?_)
        simp only [targetStep, Descriptor.target, hidx, Option.bind_some, hfield, hpayload, hnot]
        rfl

/-- **The loop of `decode_message` works segment by segment.** -/
theorem decodeBody_body (hwf : desc.inner.WellFormed) :
    BodyOn (·.Ready desc.inner.fields) Reader.readSegment wireErr (segmentStep w nested desc)
      (decodeBody w nested desc) :=
  targetStep_eq w nested hwf ▸ decodeBody_target w nested hwf.shaped

end Segments

/-- What the loop leaves is ready. -/
theorem ready_of_loop {w : World} {levels : Nat} {descId : DescId}
    (hwf : (w.descriptor descId).inner.WellFormed) {data : Bytes} {st : DecodeState}
    (h : drainAll (decodeBody w (decodeMessage w levels) (w.descriptor descId))
      (DecodeState.init (w.descriptor descId).inner.fields) (Reader.new data) = .ok st) :
    st.Ready (w.descriptor descId).inner.fields := by
  obtain ⟨segs, -, hfold⟩ := (drainAll_eq_ok_on Reader.framed_readSegment
    Reader.advances_readSegment (decodeBody_body w (decodeMessage w levels) hwf)
    (segmentStep_keeps w (decodeMessage w levels) hwf)
    (DecodeState.ready_init (w.descriptor descId).inner.fields)).mp h
  exact foldlM_invariant (·.Ready (w.descriptor descId).inner.fields)
    (fun s seg s' _ => segmentStep_keeps w _ hwf s seg s') _ _ (DecodeState.ready_init _) hfold

/-- On bytes that split into segments the decoder runs through the segments. -/
theorem decodeMessage_split {w : World} {levels : Nat} {cls : ClassId} {descId : DescId}
    (hwf : (w.descriptor descId).inner.WellFormed) {data : Bytes} {segs : List Segment}
    (hsplit : Split Reader.readSegment data segs) :
    decodeMessage w (levels + 1) cls descId data
      = segs.foldlM (segmentStep w (decodeMessage w levels) (w.descriptor descId))
          (DecodeState.init (w.descriptor descId).inner.fields) >>= fun st =>
        construct w cls (w.descriptor descId) st.values st.unknown := by
  have hloop := drainAll_split_on (decodeBody_body w (decodeMessage w levels) hwf)
    (segmentStep_keeps w (decodeMessage w levels) hwf) hsplit
    (DecodeState.ready_init (w.descriptor descId).inner.fields)
  rw [← hloop]
  rfl

/-- **Decoding a message succeeds iff its bytes split into segments that fold and the values can be
made an instance.** -/
theorem decodeMessage_eq_ok {w : World} {levels : Nat} {cls : ClassId} {descId : DescId}
    (hwf : (w.descriptor descId).inner.WellFormed) {data : Bytes} {value : PyVal} :
    decodeMessage w (levels + 1) cls descId data = .ok value ↔
      ∃ segs st, Split Reader.readSegment data segs ∧
        segs.foldlM (segmentStep w (decodeMessage w levels) (w.descriptor descId))
          (DecodeState.init (w.descriptor descId).inner.fields) = .ok st ∧
        construct w cls (w.descriptor descId) st.values st.unknown = .ok value := by
  have hloop : ∀ st, drainAll (decodeBody w (decodeMessage w levels) (w.descriptor descId))
      (DecodeState.init (w.descriptor descId).inner.fields) (Reader.new data) = .ok st ↔ _ :=
    fun st => drainAll_eq_ok_on Reader.framed_readSegment Reader.advances_readSegment
      (decodeBody_body w (decodeMessage w levels) hwf)
      (segmentStep_keeps w (decodeMessage w levels) hwf)
      (DecodeState.ready_init (w.descriptor descId).inner.fields)
  unfold decodeMessage
  dsimp only
  rw [bind_eq_ok]
  constructor
  · rintro ⟨st, h, hfinish⟩
    obtain ⟨segs, hsplit, hfold⟩ := (hloop st).mp h
    exact ⟨segs, st, hsplit, hfold, hfinish⟩
  · rintro ⟨segs, st, hsplit, hfold, hfinish⟩
    exact ⟨st, (hloop st).mpr ⟨segs, hsplit, hfold⟩, hfinish⟩

end FastProto
