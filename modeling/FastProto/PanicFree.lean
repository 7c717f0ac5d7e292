import FastProto.ReaderSafety
import FastProto.OneofGroups

/-! # No descriptor makes the codec panic

A descriptor comes out of `parse_message`, whatever its bytes were, and goes through `link`. In every
round of the decoder's loop the accumulators it unwraps are in place and its indexes are in bounds;
the encoder and `oneofs()` index no group past the table. The arms for maps that are `unreachable!`
are not reached: whatever stands there, the results are the same. -/

namespace FastProto

open Lib Lib.Cursor

/-! ## Descriptors -/

/-- A descriptor as the codec meets it: parsed from some bytes, and linked any number of times. -/
inductive Descriptor.Compiled : Descriptor → Prop
  | parsed {bytes inner} (h : parseMessage bytes = .ok inner) : Compiled { inner }
  | linked {desc desc' refs fastInit} (h : Compiled desc)
      (hlink : desc.link refs fastInit = .ok desc') : Compiled desc'

/-- Linking keeps the fields. -/
theorem Descriptor.link_inner {desc desc' : Descriptor} {refs : Refs} {fastInit : Option FastInit}
    (h : desc.link refs fastInit = .ok desc') : desc'.inner = desc.inner := by
  unfold link at h
  dsimp only at h
  split at h
  · split at h
    · cases h
    · cases h
      rfl
  · cases h
    rfl

/-- The fields of a compiled descriptor have the shapes the parser gives. -/
theorem Descriptor.Compiled.shaped {desc : Descriptor} (h : desc.Compiled) : desc.inner.Shaped := by
  induction h with
  | parsed h => exact parseMessage_shaped h
  | linked _ hlink ih => rwa [Descriptor.link_inner hlink]

/-- **The defaults of the fast path are index-aligned with the fields.** -/
theorem Descriptor.Compiled.defaults {desc : Descriptor} (h : desc.Compiled) :
    ∀ fast, desc.fastInit = some fast → fast.defaults.length = desc.inner.fields.length := by
  induction h with
  | parsed _ => exact fun fast h => nomatch h
  | @linked desc desc' refs fastInit _ hlink ih =>
      intro fast hfast
      rw [Descriptor.link_inner hlink]
      unfold Descriptor.link at hlink
      dsimp only at hlink
      split at hlink
      · rename_i given
        split at hlink
        · cases hlink
        · rename_i hlen
          cases hlink
          rcases Option.or_eq_some_iff.mp hfast with hold | ⟨-, hnew⟩
          · exact ih fast hold
          · cases hnew
            exact not_not.mp hlen
      · cases hlink
        rw [Option.or_none] at hfast
        exact ih fast hfast

/-! ## Decoding -/

section Decoding

variable (w : World) (nested : NestedDecoder) {desc : Descriptor}

/-- **A round of the loop of `decode_message` is safe** in a state: slots for all fields, owners of
oneof groups among them, and a field for every index the lookup table gives, with its accumulator in
place after a oneof group is claimed. -/
structure RoundSafe (desc : Descriptor) (st : DecodeState) : Prop where
  values : st.values.length = desc.inner.fields.length
  owners : ∀ owner ∈ st.oneofOwner, owner.2 < st.values.length
  inBounds : ∀ number idx, desc.fieldIndex.get number = some idx → idx < desc.inner.fields.length
  dicts : ∀ (idx : Nat) (field : FieldDescriptor), desc.inner.fields[idx]? = some field →
    field.kind.isMap = true →
      ∃ items, (st.claimOneof field idx).values[idx]? = some (some (.dict items))
  lists : ∀ (idx : Nat) (field : FieldDescriptor), desc.inner.fields[idx]? = some field →
    field.kind.isMap = false → field.label = .repeated →
      ∃ items, (st.claimOneof field idx).values[idx]? = some (some (.list items))

/-- A ready state is safe. -/
theorem DecodeState.Ready.safe (hshaped : desc.inner.Shaped) {st : DecodeState}
    (h : st.Ready desc.inner.fields) : RoundSafe desc st where
  values := h.length
  owners := by
    intro owner howner
    obtain ⟨field, hfield, -⟩ := h.owners owner howner
    rw [h.length]
    exact (List.getElem?_eq_some_iff.mp hfield).1
  inBounds := fun _ _ hget => FieldIndex.get_lt hget
  dicts := fun idx field hfield => (h.claimOneof hshaped hfield).dicts idx field hfield
  lists := fun idx field hfield => (h.claimOneof hshaped hfield).lists idx field hfield

/-- **Every state the loop of `decode_message` reaches is ready**, whatever the bytes. -/
theorem ready_of_reached (hshaped : desc.inner.Shaped) {data : Bytes} {st : DecodeState}
    {reader : Reader} (h : Reached (decodeBody w nested desc) (DecodeState.init desc.inner.fields)
      (Reader.new data) st reader) :
    st.Ready desc.inner.fields ∧ reader.pos ≤ reader.buf.length := by
  refine h.invariant (fun st => (progresses_decodeBody w nested desc st).forward) (Nat.zero_le _)
    (DecodeState.ready_init _) fun s c s' c' hready _ hbody => ?_
  rw [decodeBody_target w nested hshaped s hready] at hbody
  obtain ⟨⟨seg, mid⟩, -, hstep⟩ := bind_eq_ok.mp hbody
  obtain ⟨st', hst', heq⟩ := bind_eq_ok.mp hstep
  cases heq
  exact targetStep_keeps w nested hshaped s seg s' hready hst'

/-- `decodeField`, with any function in the place of `decode_repeated`. -/
def decodeFieldWith (repeated : FieldKind → Option LinkedRef → WireType → List PyVal →
      DecodeM (Option (List PyVal)))
    (desc : Descriptor) (st : DecodeState) (idx : Nat) (field : FieldDescriptor)
    (wire : WireType) (start : Nat) : DecodeM DecodeState :=
  let linked := desc.ref field.number
  if field.label ≠ .repeated ∧ wire ≠ field.kind.expectedWire then keepUnknown st wire start
  else
    let st := st.claimOneof field idx
    match field.kind with
    | .map key value => do
        let entry ← orWireErr Reader.readLenDelimited
        let (k, v) ← StateT.lift (decodeMapEntry w nested key value linked entry)
        match st.values[idx]? with
        | some (some (.dict items)) => pure (st.store idx (.dict (dictSet items k v)))
        | _ => throw (.panicked "called `Option::unwrap()` on a `None` value")
    | kind =>
        if field.label = .repeated then
          match st.values[idx]? with
          | some (some (.list items)) => do
              match ← repeated kind linked wire items with
              | some items => pure (st.store idx (.list items))
              | none => keepUnknown st wire start
          | _ => throw (.panicked "called `Option::unwrap()` on a `None` value")
        else do
          let value ← decodeSingle w nested kind linked
          pure (st.store idx value)

/-- With `decode_repeated` in its place it is `decodeField`. -/
theorem decodeFieldWith_self (desc : Descriptor) (st : DecodeState) (idx : Nat)
    (field : FieldDescriptor) (wire : WireType) (start : Nat) :
    decodeFieldWith w nested (decodeRepeated w nested) desc st idx field wire start
      = decodeField w nested desc st idx field wire start := rfl

/-- **`decode_repeated` never sees a map**: what it does on maps does not matter. -/
theorem decodeFieldWith_eq {repeated : FieldKind → Option LinkedRef → WireType → List PyVal →
      DecodeM (Option (List PyVal))}
    (h : ∀ kind linked wire list, kind.isMap = false →
      repeated kind linked wire list = decodeRepeated w nested kind linked wire list)
    (st : DecodeState) (idx : Nat) (field : FieldDescriptor) (wire : WireType) (start : Nat) :
    decodeFieldWith w nested repeated desc st idx field wire start
      = decodeField w nested desc st idx field wire start := by
  rw [← decodeFieldWith_self]
  unfold decodeFieldWith
  cases hkind : field.kind with
  | map key value => rfl
  | scalar scalar =>
      simp only [h (.scalar scalar) _ _ _ rfl]
  | enum =>
      simp only [h .enum _ _ _ rfl]
  | message =>
      simp only [h .message _ _ _ rfl]
  | timestamp =>
      simp only [h .timestamp _ _ _ rfl]
  | duration =>
      simp only [h .duration _ _ _ rfl]

end Decoding

/-! ## Encoding -/

section Encoding

variable {V : Type} (rt : Runtime V) (nested : NestedEncoder V) (desc : Descriptor)

/-- `encodeField`, with any functions in the places of `encode_single` and `encode_repeated`. -/
def encodeFieldWith
    (single repeated : Bytes → UInt32 → FieldKind → V → Option LinkedRef → PyResult Bytes)
    (desc : Descriptor) (instance_ : V) (st : Bytes × List Nat) (field : FieldDescriptor) :
    PyResult (Bytes × List Nat) := do
  let (buf, counts) := st
  let value ← rt.getattr instance_ field.name
  let linked := desc.ref field.number
  match field.kind with
  | .map key valKind => do
      let buf ← encodeMap rt nested buf field.number key valKind value linked
      .ok (buf, counts)
  | kind =>
      match field.label with
      | .repeated => do
          let buf ← repeated buf field.number kind value linked
          .ok (buf, counts)
      | .optional =>
          if (rt.view value).isNone then .ok (buf, counts)
          else do
            let counts ← countMember counts field.oneofIndex
            let buf ← single buf field.number kind value linked
            .ok (buf, counts)
      | .single =>
          match kind with
          | .scalar scalar => do
              let buf ← encodeScalarField buf field.number scalar (rt.view value) true
              .ok (buf, counts)
          | .enum => do
              let v ← (rt.view value).extractI32
              .ok (if v ≠ 0 then
                  writeVarint (writeTag buf field.number .varint) v.toInt64.toUInt64
                else buf, counts)
          | _ => do
              let buf ← single buf field.number kind value linked
              .ok (buf, counts)

/-- With `encode_single` and `encode_repeated` in their places it is `encodeField`. -/
theorem encodeFieldWith_self (instance_ : V) (st : Bytes × List Nat) (field : FieldDescriptor) :
    encodeFieldWith rt nested (encodeSingle rt nested) (encodeRepeated rt nested) desc instance_ st
      field = encodeField rt nested desc instance_ st field := rfl

/-- **`encode_single` and `encode_repeated` never see a map**: what they do on maps does not
matter. -/
theorem encodeFieldWith_eq
    {single repeated : Bytes → UInt32 → FieldKind → V → Option LinkedRef → PyResult Bytes}
    (hsingle : ∀ buf number kind value linked, kind.isMap = false →
      single buf number kind value linked = encodeSingle rt nested buf number kind value linked)
    (hrepeated : ∀ buf number kind value linked, kind.isMap = false →
      repeated buf number kind value linked
        = encodeRepeated rt nested buf number kind value linked)
    (instance_ : V) (st : Bytes × List Nat) (field : FieldDescriptor) :
    encodeFieldWith rt nested single repeated desc instance_ st field
      = encodeField rt nested desc instance_ st field := by
  rw [← encodeFieldWith_self]
  unfold encodeFieldWith
  cases hkind : field.kind with
  | map key value => rfl
  | scalar scalar =>
      simp only [hsingle _ _ (.scalar scalar) _ _ rfl, hrepeated _ _ (.scalar scalar) _ _ rfl]
  | enum =>
      simp only [hsingle _ _ .enum _ _ rfl, hrepeated _ _ .enum _ _ rfl]
  | message =>
      simp only [hsingle _ _ .message _ _ rfl, hrepeated _ _ .message _ _ rfl]
  | timestamp =>
      simp only [hsingle _ _ .timestamp _ _ rfl, hrepeated _ _ .timestamp _ _ rfl]
  | duration =>
      simp only [hsingle _ _ .duration _ _ rfl, hrepeated _ _ .duration _ _ rfl]

/-- Counting a member keeps the number of counters. -/
theorem countMember_length {counts counts' : List Nat} {group : Option UInt32}
    (h : countMember counts group = .ok counts') : counts'.length = counts.length := by
  unfold countMember at h
  split at h
  · cases h
    rfl
  · split at h
    · cases h
      rw [List.length_set]
    · cases h

/-- **The field loop of `encode_message` keeps the number of counters.** -/
theorem encodeField_length {instance_ : V} {st st' : Bytes × List Nat} {field : FieldDescriptor}
    (h : encodeField rt nested desc instance_ st field = .ok st') :
    st'.2.length = st.2.length := by
  have hkeep : ∀ {x : PyResult Bytes} {counts : List Nat} {st' : Bytes × List Nat},
      (x >>= fun buf => .ok (buf, counts)) = .ok st' → st'.2 = counts := by
    intro x counts st' h
    obtain ⟨buf, -, h⟩ := bind_eq_ok.mp h
    cases h
    rfl
  unfold encodeField at h
  obtain ⟨value, -, h⟩ := bind_eq_ok.mp h
  split at h
  · rw [hkeep h]
  · split at h
    · rw [hkeep h]
    · split at h
      · cases h
        rfl
      · obtain ⟨counts, hcounts, h⟩ := bind_eq_ok.mp h
        rw [hkeep h, countMember_length hcounts]
    · split at h
      · rw [hkeep h]
      · obtain ⟨v, -, h⟩ := bind_eq_ok.mp h
        cases h
        rfl
      · rw [hkeep h]

/-- Adding a member keeps the number of groups. -/
theorem addMember_length {groups groups' : List (String × List String)} {field : FieldDescriptor}
    (h : addMember groups field = .ok groups') : groups'.length = groups.length := by
  unfold addMember at h
  split at h
  · cases h
    rfl
  · split at h
    · cases h
      rw [List.length_set]
    · cases h

end Encoding

/-! ## The codec -/

/-- **`decode_message` is safe** on a descriptor: every round of its loop, on any bytes and with any
nested decoder, is; a default of the fast path stands for every slot; and `decode_repeated` is
called for no map. -/
structure Descriptor.DecodesSafely (desc : Descriptor) (w : World) (nested : NestedDecoder) :
    Prop where
  rounds : ∀ (data : Bytes) (st : DecodeState) (reader : Reader),
    Reached (decodeBody w nested desc) (DecodeState.init desc.inner.fields) (Reader.new data) st
      reader → RoundSafe desc st
  defaults : ∀ fast, desc.fastInit = some fast → fast.defaults.length = desc.inner.fields.length
  repeated : ∀ repeated : FieldKind → Option LinkedRef → WireType → List PyVal →
      DecodeM (Option (List PyVal)),
    (∀ kind linked wire list, kind.isMap = false →
      repeated kind linked wire list = decodeRepeated w nested kind linked wire list) →
    ∀ st idx field wire start, decodeFieldWith w nested repeated desc st idx field wire start
      = decodeField w nested desc st idx field wire start

/-- **`encode_message` is safe** on a descriptor: there is a counter for the oneof group of every
field when its turn comes and for no group past the table at the end, and neither `encode_single`
nor `encode_repeated` is called for a map. -/
structure Descriptor.EncodesSafely {V : Type} (desc : Descriptor) (rt : Runtime V)
    (nested : NestedEncoder V) : Prop where
  counters : ∀ (instance_ : V) (buf : Bytes) (done rest : List FieldDescriptor)
      (field : FieldDescriptor) (st : Bytes × List Nat),
    desc.inner.fields = done ++ field :: rest →
    done.foldlM (encodeField rt nested desc instance_)
      (buf, List.replicate desc.inner.oneofs.length 0) = .ok st →
    ∀ group, field.oneofIndex = some group → group.toNat < st.2.length
  groups : ∀ (instance_ : V) (buf : Bytes) (st : Bytes × List Nat),
    desc.inner.fields.foldlM (encodeField rt nested desc instance_)
      (buf, List.replicate desc.inner.oneofs.length 0) = .ok st →
    st.2.length = desc.inner.oneofs.length
  maps : ∀ single repeated : Bytes → UInt32 → FieldKind → V → Option LinkedRef → PyResult Bytes,
    (∀ buf number kind value linked, kind.isMap = false →
      single buf number kind value linked = encodeSingle rt nested buf number kind value linked) →
    (∀ buf number kind value linked, kind.isMap = false →
      repeated buf number kind value linked
        = encodeRepeated rt nested buf number kind value linked) →
    ∀ instance_ st field, encodeFieldWith rt nested single repeated desc instance_ st field
      = encodeField rt nested desc instance_ st field

/-- **`oneofs()` is safe** on a descriptor: it always returns, with one entry per group, and its
index is in bounds for every field. -/
structure Descriptor.GroupsSafely (desc : Descriptor) : Prop where
  members : ∀ (done rest : List FieldDescriptor) (field : FieldDescriptor)
      (groups : List (String × List String)),
    desc.inner.fields = done ++ field :: rest →
    done.foldlM addMember (desc.inner.oneofs.map fun name => (name, [])) = .ok groups →
    ∀ group, field.oneofIndex = some group → group.toNat < groups.length
  returns : ∃ groups, desc.oneofs = .ok groups ∧ groups.length = desc.inner.oneofs.length

/-- The counters of `encode_message` after some of its fields. -/
theorem encodeFields_length {V : Type} (rt : Runtime V) (nested : NestedEncoder V)
    (desc : Descriptor) {instance_ : V} {buf : Bytes} {fields : List FieldDescriptor}
    {st : Bytes × List Nat}
    (h : fields.foldlM (encodeField rt nested desc instance_)
      (buf, List.replicate desc.inner.oneofs.length 0) = .ok st) :
    st.2.length = desc.inner.oneofs.length :=
  foldlM_invariant (fun st => st.2.length = desc.inner.oneofs.length)
    (fun _ _ _ _ hlen hstep => (encodeField_length rt nested desc hstep).trans hlen)
    _ _ List.length_replicate h

/-- The groups of `oneofs()` after some of its fields. -/
theorem addMembers_length {oneofs : List String} {fields : List FieldDescriptor}
    {groups : List (String × List String)}
    (h : fields.foldlM addMember (oneofs.map fun name => (name, [])) = .ok groups) :
    groups.length = oneofs.length :=
  foldlM_invariant (fun groups => groups.length = oneofs.length)
    (fun _ _ _ _ hlen hstep => (addMember_length hstep).trans hlen) _ _ (List.length_map ..) h

/-- Where every index is in bounds, a member can be added. -/
theorem addMember_isOk {groups : List (String × List String)} {field : FieldDescriptor}
    (h : ∀ group, field.oneofIndex = some group → group.toNat < groups.length) :
    ∃ groups', addMember groups field = .ok groups' := by
  unfold addMember
  cases hgroup : field.oneofIndex with
  | none => exact ⟨groups, rfl⟩
  | some group =>
      have hget := List.getElem?_eq_getElem (h group hgroup)
      dsimp only
      rw [hget]
      exact ⟨_, rfl⟩

/-- `oneofs()` returns whenever the indexes of its fields are in bounds. -/
theorem addMembers_isOk {oneofs : List String} {fields : List FieldDescriptor}
    (h : ∀ field ∈ fields, ∀ group, field.oneofIndex = some group → group.toNat < oneofs.length) :
    ∃ groups, fields.foldlM addMember (oneofs.map fun name => (name, [])) = .ok groups ∧
      groups.length = oneofs.length := by
  refine foldlM_total
    (fun _ (groups : List (String × List String)) => groups.length = oneofs.length)
    (fun done field rest groups heq hlen => ?_) (List.length_map ..)
  have hmem : field ∈ fields := heq ▸ List.mem_append_right _ List.mem_cons_self
  obtain ⟨groups', hstep⟩ := addMember_isOk (hlen ▸ h field hmem)
  exact ⟨groups', hstep, (addMember_length hstep).trans hlen⟩

/-- **No descriptor makes the codec panic**, whatever bytes `parse_message` read it from: on every
input and every instance, with any nested codec, `decode_message`, `encode_message` and `oneofs()`
find the accumulators they unwrap in place, index in bounds and call no function on a map that does
not take one. -/
theorem codec_panicFree {desc : Descriptor} (h : desc.Compiled) :
    (∀ (w : World) (nested : NestedDecoder), desc.DecodesSafely w nested) ∧
    (∀ (V : Type) (rt : Runtime V) (nested : NestedEncoder V), desc.EncodesSafely rt nested) ∧
    desc.GroupsSafely := by
  have hshaped := h.shaped
  -- an index that survives parsing is one of a declared group
  have hin : ∀ {done rest : List FieldDescriptor} {field : FieldDescriptor},
      desc.inner.fields = done ++ field :: rest → ∀ group, field.oneofIndex = some group →
        group.toNat < desc.inner.oneofs.length := by
    intro done rest field heq
    exact (hshaped field (heq ▸ List.mem_append_right _ List.mem_cons_self)).oneof_lt
  refine ⟨fun w nested => ?_, fun V rt nested => ?_, ?_⟩
  · exact {
      rounds := fun data st reader hreached =>
        (ready_of_reached w nested hshaped hreached).1.safe hshaped
      defaults := h.defaults
      repeated := fun repeated hrepeated => decodeFieldWith_eq w nested hrepeated }
  · exact {
      counters := by
        intro instance_ buf done rest field st heq hfold group hgroup
        rw [encodeFields_length rt nested desc hfold]
        exact hin heq group hgroup
      groups := fun instance_ buf st hfold => encodeFields_length rt nested desc hfold
      maps := fun single repeated hsingle hrepeated =>
        encodeFieldWith_eq rt nested desc hsingle hrepeated }
  · exact {
      members := by
        intro done rest field groups heq hfold group hgroup
        rw [addMembers_length hfold]
        exact hin heq group hgroup
      returns := addMembers_isOk fun field hfield => (hshaped field hfield).oneof_lt }

/-- A `DescriptorProto` that `protoc` cannot emit: `M` declares the group `g` and has the fields
`repeated int64 a = 1`, a member of it, `int64 b = 1`, another, and `int64 c = 0` with group 7. -/
def malformedBytes : Bytes :=
  [0x0a, 1, 0x4d, 0x42, 3, 0x0a, 1, 0x67,
    0x12, 11, 0x0a, 1, 0x61, 0x18, 1, 0x20, 3, 0x28, 3, 0x48, 0,
    0x12, 11, 0x0a, 1, 0x62, 0x18, 1, 0x20, 1, 0x28, 3, 0x48, 0,
    0x12, 11, 0x0a, 1, 0x63, 0x18, 0, 0x20, 1, 0x28, 3, 0x48, 7]

/-- What the parser makes of it. -/
def malformed : Descriptor where
  inner :=
    { name := "M"
      fields := [
        { number := 1, name := "a", kind := .scalar .int64, label := .repeated, typeName := none,
          oneofIndex := some 0 },
        { number := 1, name := "b", kind := .scalar .int64, label := .optional, typeName := none,
          oneofIndex := some 0 },
        { number := 0, name := "c", kind := .scalar .int64, label := .optional, typeName := none,
          oneofIndex := none }]
      oneofs := ["g"] }

/-- The codec on a repeated oneof member, a number used twice and a group that does not exist. -/
theorem codec_panicFree_malformed :
    malformed.Compiled ∧
      (∀ (w : World) (nested : NestedDecoder), malformed.DecodesSafely w nested) ∧
      (∀ (V : Type) (rt : Runtime V) (nested : NestedEncoder V),
        malformed.EncodesSafely rt nested) ∧
      malformed.GroupsSafely := by
  have hcompiled : malformed.Compiled := by
    have hparse : parseMessage malformedBytes = .ok malformed.inner := by rfl
    exact .parsed hparse
  exact ⟨hcompiled, codec_panicFree hcompiled⟩

end FastProto
