import FastProto.EncodeRecords

/-! # The naive encoder

The encoder of `src/encode/mod.rs` writes nested messages, map entries, packed lists and
Timestamp/Duration payloads into the output buffer, behind a reserved length byte that is patched
afterwards. This file states what that is worth as an encoder of its own: every length-delimited
payload is built in a buffer of its own, from nothing, and appended with `write_len_delimited`. The
two agree on every buffer, at every nesting and for every payload size, errors included. -/

namespace FastProto

open Lib

variable {V : Type}

/-! ## Payloads in buffers of their own -/

/-- A payload built apart, as one tagged length-delimited field. -/
def naiveDelimited (number : UInt32) (data : Bytes) : Bytes :=
  writeLenDelimited (writeTag [] number .len) data

section Fields

variable (rt : Runtime V) (nested : NestedPayload V)

/-- A single tagged value; `nested` builds the payload of a nested message. -/
def naiveSingle (number : UInt32) (kind : FieldKind) (value : V) (linked : Option LinkedRef) :
    PyResult Bytes :=
  match kind with
  | .scalar scalar => encodeScalarField [] number scalar (rt.view value) false
  | .enum => encodeEnum (writeTag [] number .varint) (rt.view value)
  | .message => do
      let data ← nested value linked
      .ok (naiveDelimited number data)
  | .timestamp => do
      let (secs, nanos) ← datetimeToParts (rt.view value)
      .ok (naiveDelimited number (encodeParts [] secs nanos))
  | .duration => do
      let (secs, nanos) ← timedeltaToParts (rt.view value)
      .ok (naiveDelimited number (encodeParts [] secs nanos))
  | .map _ _ => .error (.panicked "maps handled separately")

/-- A packed list; nothing for an empty one. -/
def naivePacked (number : UInt32) (items : List V)
    (element : Bytes → PyShape V → PyResult Bytes) : PyResult Bytes := do
  let data ← items.foldlM (fun data item => element data (rt.view item)) []
  .ok (if data.isEmpty then [] else naiveDelimited number data)

/-- A repeated field: packed for numeric scalars and enums, otherwise the elements one by one. -/
def naiveRepeated (number : UInt32) (kind : FieldKind) (value : V) (linked : Option LinkedRef) :
    PyResult Bytes :=
  if (rt.view value).isStrOrBytes then
    .error (.typeError "repeated field must be a list of elements, not a str/bytes")
  else do
    match kind with
    | .scalar scalar =>
        let items ← rt.items value
        if scalar.isPackable then
          naivePacked rt number items fun data item => encodeScalar data scalar item
        else do
          let fields ← items.mapM fun item =>
            encodeScalar (writeTag [] number scalar.wireType) scalar (rt.view item)
          .ok fields.flatten
    | .enum =>
        let items ← rt.items value
        naivePacked rt number items encodeEnum
    | .map _ _ => .error (.panicked "maps handled separately")
    | kind =>
        let items ← rt.items value
        let fields ← items.mapM fun item => naiveSingle rt nested number kind item linked
        .ok fields.flatten

/-- The value of a map entry, as field 2. -/
def naiveMapValue (valueKind : MapValue) (value : V) (linked : Option LinkedRef) :
    PyResult Bytes :=
  match valueKind with
  | .scalar scalar => encodeScalar (writeTag [] 2 scalar.wireType) scalar (rt.view value)
  | valueKind => naiveSingle rt nested 2 valueKind.kind value linked

/-- A map entry: a message with the key as field 1 and the value as field 2. -/
def naiveEntry (number : UInt32) (key : ScalarType) (valueKind : MapValue)
    (linked : Option LinkedRef) (entry : V × V) : PyResult Bytes := do
  let k ← encodeScalar (writeTag [] 1 key.wireType) key (rt.view entry.1)
  let v ← naiveMapValue rt nested valueKind entry.2 linked
  .ok (naiveDelimited number (k ++ v))

/-- A map field: one entry message per pair. -/
def naiveMap (number : UInt32) (key : ScalarType) (valueKind : MapValue) (value : V)
    (linked : Option LinkedRef) : PyResult Bytes :=
  match rt.view value with
  | .dict items => do
      let entries ← items.mapM (naiveEntry rt nested number key valueKind linked)
      .ok entries.flatten
  | _ => .error (.typeError "map field must be a dict")

/-- The bytes of one field of an instance, and the oneof counters after it. -/
def naiveField (desc : Descriptor) (instance_ : V) (counts : List Nat) (field : FieldDescriptor) :
    PyResult (Bytes × List Nat) := do
  let value ← rt.getattr instance_ field.name
  let linked := desc.ref field.number
  match field.kind with
  | .map key valKind => do
      let bytes ← naiveMap rt nested field.number key valKind value linked
      .ok (bytes, counts)
  | kind =>
      match field.label with
      | .repeated => do
          let bytes ← naiveRepeated rt nested field.number kind value linked
          .ok (bytes, counts)
      | .optional =>
          if (rt.view value).isNone then .ok ([], counts)
          else do
            let counts ← countMember counts field.oneofIndex
            let bytes ← naiveSingle rt nested field.number kind value linked
            .ok (bytes, counts)
      | .single =>
          match kind with
          | .scalar scalar => do
              let bytes ← encodeScalarField [] field.number scalar (rt.view value) true
              .ok (bytes, counts)
          | .enum => do
              let v ← (rt.view value).extractI32
              .ok (if v ≠ 0 then
                  writeVarint (writeTag [] field.number .varint) v.toInt64.toUInt64
                else [], counts)
          | _ => do
              let bytes ← naiveSingle rt nested field.number kind value linked
              .ok (bytes, counts)

/-- The bytes of a run of fields, and the oneof counters after them. -/
def naiveFields (desc : Descriptor) (instance_ : V) :
    List FieldDescriptor → List Nat → PyResult (Bytes × List Nat)
  | [], counts => .ok ([], counts)
  | field :: fields, counts => do
      let (bytes, counts) ← naiveField rt nested desc instance_ counts field
      let (rest, counts) ← naiveFields desc instance_ fields counts
      .ok (bytes ++ rest, counts)

end Fields

/-- **The naive encoder**: a message as a byte string of its own, `levels` nesting levels at most. -/
def naiveMessage (rt : Runtime V) : Nat → V → DescId → PyResult Bytes
  | 0, _, _ => .error (.valueError ("message nesting exceeded " ++ toString maxDepth ++ " levels"))
  | levels + 1, instance_, descId => do
      let desc := rt.descriptor descId
      let nested : NestedPayload V := fun value linked => do
        let nestedDesc ← nestedDescriptor rt value linked
        naiveMessage rt levels value nestedDesc
      let (bytes, counts) ← naiveFields rt nested desc instance_ desc.inner.fields
        (List.replicate desc.inner.oneofs.length 0)
      checkOneofs desc.inner.oneofs counts
      encodeUnknown rt instance_ bytes

/-! ## The naive encoder writes the records -/

/-- A delimited payload is the bytes of its record. -/
theorem naiveDelimited_eq (number : UInt32) (data : Bytes) :
    naiveDelimited number data = (⟨number, .len data⟩ : Record).bytes := by
  rw [naiveDelimited, writeLenDelimited_eq, writeTag_eq, List.nil_append]
  rfl

section Fields

variable (rt : Runtime V) (nested : NestedPayload V)

/-- A single value is the bytes of its record. -/
theorem naiveSingle_eq (number : UInt32) (kind : FieldKind) (value : V)
    (linked : Option LinkedRef) :
    naiveSingle rt nested number kind value linked
      = valuePayload rt nested kind value linked >>= fun payload =>
          .ok (⟨number, payload⟩ : Record).bytes := by
  cases kind with
  | scalar scalar =>
      refine (encodeScalarField_eq [] number scalar (rt.view value) false).trans ?_
      simp [valuePayload]
  | enum =>
      refine (encodeEnum_eq (writeTag [] number .varint) (rt.view value)).trans ?_
      simp only [valuePayload, enumPayload, bind_assoc, ok_bind]
      refine congrArg _ (funext fun v => ?_)
      exact congrArg Except.ok (writeTag_append [] number (.varint v.toInt64.toUInt64))
  | message =>
      simp only [naiveSingle, valuePayload, bind_assoc, ok_bind, naiveDelimited_eq]
  | timestamp =>
      simp only [naiveSingle, valuePayload, bind_assoc, ok_bind, naiveDelimited_eq, encodeParts_eq,
        List.nil_append]
  | duration =>
      simp only [naiveSingle, valuePayload, bind_assoc, ok_bind, naiveDelimited_eq, encodeParts_eq,
        List.nil_append]
  | map key value => rfl

/-- A packed list is the bytes of its records, of which there are none or one. -/
theorem naivePacked_eq {element : Bytes → PyShape V → PyResult Bytes}
    {payload : PyShape V → PyResult Payload}
    (helement : ∀ buf value, element buf value
      = payload value >>= fun p => .ok (buf ++ p.bytes))
    (number : UInt32) (items : List V) :
    naivePacked rt number items element
      = (items.mapM fun item => payload (rt.view item)) >>= fun payloads =>
          .ok (recordsBytes (packedRecords number payloads)) := by
  unfold naivePacked
  rw [foldlM_append Payload.bytes (fun b v => helement b (rt.view v)), bind_assoc]
  refine congrArg _ (funext fun payloads => ?_)
  rw [ok_bind, List.nil_append]
  refine congrArg Except.ok ?_
  unfold packedRecords
  dsimp only
  by_cases hdata : (payloads.flatMap Payload.bytes).isEmpty = true
  · rw [if_pos hdata, if_pos hdata, recordsBytes_nil]
  · rw [if_neg hdata, if_neg hdata, naiveDelimited_eq, recordsBytes_cons, recordsBytes_nil,
      List.append_nil]

/-- Elements rendered one by one from their payloads. -/
theorem mapM_flatten {α β : Type} {f : α → PyResult Bytes} {g : α → PyResult β} {render : β → Bytes}
    (h : ∀ a, f a = g a >>= fun b => .ok (render b)) (l : List α) :
    (l.mapM f >>= fun parts => .ok parts.flatten)
      = l.mapM g >>= fun bs => .ok (bs.flatMap render) := by
  have hf : f = fun a => g a >>= fun b => .ok (render b) := funext h
  have hfold : l.foldlM (fun buf a => g a >>= fun b => .ok (buf ++ render b)) []
      = l.mapM g >>= fun bs => .ok ([] ++ bs.flatMap render) :=
    foldlM_append render (fun _ _ => rfl) l []
  have hfold' : l.foldlM (fun buf a => f a >>= fun part => .ok (buf ++ part)) []
      = l.mapM f >>= fun parts => .ok ([] ++ parts.flatMap id) :=
    foldlM_append id (fun _ _ => rfl) l []
  simp only [List.nil_append, List.flatMap_id] at hfold hfold'
  rw [← hfold, ← hfold', hf]
  simp only [bind_assoc, ok_bind]

/-- A repeated field is the bytes of its records. -/
theorem naiveRepeated_eq (number : UInt32) (kind : FieldKind) (value : V)
    (linked : Option LinkedRef) :
    naiveRepeated rt nested number kind value linked
      = repeatedRecords rt nested number kind value linked >>= fun recs =>
          .ok (recordsBytes recs) := by
  unfold naiveRepeated repeatedRecords
  by_cases htext : (rt.view value).isStrOrBytes = true
  · rw [if_pos htext, if_pos htext]
    rfl
  · rw [if_neg htext, if_neg htext]
    -- elements that are not packed are records of their own
    have hsingles : ∀ items : List V,
        (items.mapM (fun item => naiveSingle rt nested number kind item linked) >>= fun parts =>
          (.ok parts.flatten : PyResult Bytes))
          = items.mapM (fun item => valuePayload rt nested kind item linked) >>= fun payloads =>
              .ok (recordsBytes (payloads.map fun payload => ⟨number, payload⟩)) := by
      intro items
      rw [mapM_flatten (fun item => naiveSingle_eq rt nested number kind item linked)]
      simp only [recordsBytes, List.flatMap_map]
    cases kind with
    | scalar scalar =>
        dsimp only
        rw [bind_assoc]
        refine congrArg _ (funext fun items => ?_)
        by_cases hpack : scalar.isPackable = true
        · rw [if_pos hpack, naivePacked_eq rt (fun b v => encodeScalar_eq b scalar v), bind_assoc]
          simp only [FieldKind.isPacked, hpack, if_true, ok_bind, valuePayload]
        · rw [if_neg hpack, bind_assoc,
            mapM_flatten fun v => encodeScalar_tagged [] number scalar (rt.view v)]
          simp [FieldKind.isPacked, hpack, valuePayload, recordsBytes, List.flatMap_map]
    | enum =>
        dsimp only
        rw [bind_assoc]
        refine congrArg _ (funext fun items => ?_)
        rw [naivePacked_eq rt encodeEnum_eq, bind_assoc]
        simp only [FieldKind.isPacked, if_true, ok_bind, valuePayload]
    | message =>
        dsimp only
        rw [bind_assoc]
        refine congrArg _ (funext fun items => (hsingles items).trans ?_)
        simp [FieldKind.isPacked]
    | timestamp =>
        dsimp only
        rw [bind_assoc]
        refine congrArg _ (funext fun items => (hsingles items).trans ?_)
        simp [FieldKind.isPacked]
    | duration =>
        dsimp only
        rw [bind_assoc]
        refine congrArg _ (funext fun items => (hsingles items).trans ?_)
        simp [FieldKind.isPacked]
    | map key value => rfl

/-- The value of a map entry is the record with number 2. -/
theorem naiveMapValue_eq (valueKind : MapValue) (value : V) (linked : Option LinkedRef) :
    naiveMapValue rt nested valueKind value linked
      = valuePayload rt nested valueKind.kind value linked >>= fun payload =>
          .ok (⟨2, payload⟩ : Record).bytes := by
  cases valueKind with
  | scalar scalar => exact encodeScalar_tagged [] 2 scalar (rt.view value)
  | enum => exact naiveSingle_eq rt nested 2 .enum value linked
  | message => exact naiveSingle_eq rt nested 2 .message value linked
  | timestamp => exact naiveSingle_eq rt nested 2 .timestamp value linked
  | duration => exact naiveSingle_eq rt nested 2 .duration value linked

/-- A map entry is the bytes of its record, which holds two records. -/
theorem naiveEntry_eq (number : UInt32) (key : ScalarType) (valueKind : MapValue)
    (linked : Option LinkedRef) (entry : V × V) :
    naiveEntry rt nested number key valueKind linked entry
      = entryPayload rt nested key valueKind linked entry >>= fun payload =>
          .ok (⟨number, payload⟩ : Record).bytes := by
  unfold naiveEntry entryPayload
  rw [encodeScalar_tagged]
  simp only [naiveMapValue_eq, bind_assoc, ok_bind, naiveDelimited_eq, recordsBytes_cons,
    recordsBytes_nil, List.nil_append, List.append_nil]

/-- A map field is the bytes of its records, an entry each. -/
theorem naiveMap_eq (number : UInt32) (key : ScalarType) (valueKind : MapValue) (value : V)
    (linked : Option LinkedRef) :
    naiveMap rt nested number key valueKind value linked
      = mapRecords rt nested number key valueKind value linked >>= fun recs =>
          .ok (recordsBytes recs) := by
  unfold naiveMap mapRecords
  cases rt.view value with
  | dict items =>
      dsimp only
      rw [mapM_flatten (naiveEntry_eq rt nested number key valueKind linked), bind_assoc]
      simp only [ok_bind, recordsBytes, List.flatMap_map]
  | _ => rfl

/-- A field is the bytes of its records. -/
theorem naiveField_eq (desc : Descriptor) (instance_ : V) (counts : List Nat)
    (field : FieldDescriptor) :
    naiveField rt nested desc instance_ counts field
      = fieldRecords rt nested desc instance_ counts field >>= fun (recs, counts) =>
          .ok (recordsBytes recs, counts) := by
  -- the encoder in place, on an empty buffer and with nested messages built apart
  let appending : NestedEncoder V := fun value linked buf =>
    nested value linked >>= fun data => .ok (buf ++ data)
  have hnested : ∀ value linked buf, appending value linked buf
      = nested value linked >>= fun data => .ok (buf ++ data) := fun _ _ _ => rfl
  refine Eq.trans ?_ (encodeField_eq hnested desc instance_ [] counts field)
  unfold naiveField encodeField
  refine congrArg _ (funext fun value => ?_)
  obtain ⟨number, name, kind, label, typeName, oneofIndex⟩ := field
  dsimp only
  have hsingle : encodeSingle rt appending [] number kind value (desc.ref number)
      = naiveSingle rt nested number kind value (desc.ref number) :=
    (encodeSingle_eq rt hnested [] number kind value (desc.ref number)).trans
      (naiveSingle_eq rt nested number kind value (desc.ref number)).symm
  have hrepeated : encodeRepeated rt appending [] number kind value (desc.ref number)
      = naiveRepeated rt nested number kind value (desc.ref number) :=
    (encodeRepeated_eq rt hnested [] number kind value (desc.ref number)).trans
      (naiveRepeated_eq rt nested number kind value (desc.ref number)).symm
  cases kind with
  | map key valKind =>
      have hmap := (encodeMap_eq hnested [] number key valKind value (desc.ref number)).trans
        (naiveMap_eq rt nested number key valKind value (desc.ref number)).symm
      exact congrArg (· >>= fun bytes => .ok (bytes, counts)) hmap.symm
  | scalar scalar => cases label <;> simp only [hsingle, hrepeated]
  | enum => cases label <;> simp only [hsingle, hrepeated]
  | message => cases label <;> simp only [hsingle, hrepeated]
  | timestamp => cases label <;> simp only [hsingle, hrepeated]
  | duration => cases label <;> simp only [hsingle, hrepeated]

/-- The records of a run of fields come after those already there. -/
theorem fieldsRecords_append (desc : Descriptor) (instance_ : V) (fields : List FieldDescriptor) :
    ∀ (recs : List Record) (counts : List Nat),
      fieldsRecords rt nested desc instance_ fields (recs, counts)
        = fieldsRecords rt nested desc instance_ fields ([], counts) >>= fun st =>
            .ok (recs ++ st.1, st.2) := by
  unfold fieldsRecords
  induction fields with
  | nil => intro recs counts; simp
  | cons field fields ih =>
      intro recs counts
      rw [List.foldlM_cons, List.foldlM_cons]
      cases fieldRecords rt nested desc instance_ counts field with
      | error e => rfl
      | ok r =>
          simp only [ok_bind, List.nil_append]
          rw [ih (recs ++ r.1) r.2, ih r.1 r.2]
          simp only [bind_assoc, ok_bind, List.append_assoc]

/-- A run of fields is the bytes of their records. -/
theorem naiveFields_eq (desc : Descriptor) (instance_ : V) (fields : List FieldDescriptor) :
    ∀ counts : List Nat, naiveFields rt nested desc instance_ fields counts
      = fieldsRecords rt nested desc instance_ fields ([], counts) >>= fun st =>
          .ok (recordsBytes st.1, st.2) := by
  induction fields with
  | nil => intro counts; rfl
  | cons field fields ih =>
      intro counts
      have htail := fieldsRecords_append rt nested desc instance_ fields
      unfold fieldsRecords at ih htail ⊢
      rw [List.foldlM_cons, naiveFields, naiveField_eq]
      cases fieldRecords rt nested desc instance_ counts field with
      | error e => rfl
      | ok r =>
          simp only [ok_bind, List.nil_append]
          rw [htail r.1 r.2, ih r.2]
          simp only [bind_assoc, ok_bind, recordsBytes_append]

end Fields

/-- The naive encoder writes the records of a message and its unknown bytes. -/
theorem naiveMessage_eq (rt : Runtime V) (levels : Nat) :
    ∀ (instance_ : V) (descId : DescId),
      naiveMessage rt levels instance_ descId
        = messageRecords rt levels instance_ descId >>= fun (recs, unknown) =>
            .ok (recordsBytes recs ++ unknown) := by
  induction levels with
  | zero => exact fun instance_ descId => rfl
  | succ levels ih =>
      intro instance_ descId
      have hplain : (fun value linked => do
          let nestedDesc ← nestedDescriptor rt value linked
          naiveMessage rt levels value nestedDesc : NestedPayload V) = plainPayload rt levels := by
        funext value linked
        exact congrArg _ (funext fun nestedDesc => ih value nestedDesc)
      unfold naiveMessage
      rw [messageRecords_succ, hplain]
      dsimp only
      rw [naiveFields_eq]
      simp only [bind_assoc, ok_bind, encodeUnknown_eq]

/-- **Encoding in place leaves the buffer followed by what the naive encoder builds**, for every
buffer, every nesting and every payload size; where one of them raises, so does the other. -/
theorem encodeMessage_eq_naive (rt : Runtime V) (levels : Nat) (instance_ : V) (descId : DescId)
    (buf : Bytes) :
    encodeMessage rt levels instance_ descId buf
      = naiveMessage rt levels instance_ descId >>= fun bytes => .ok (buf ++ bytes) := by
  rw [encodeMessage_eq, naiveMessage_eq, bind_assoc]
  simp only [ok_bind, List.append_assoc]

end FastProto
