import FastProto.MessageRoundTrip

/-! # What decode builds conforms

Whatever bytes the decoder accepts, the message it builds conforms to its descriptor: every slot
holds a value of its field's type, at most one member of a oneof group is set, and the unknown bytes
are segments the descriptor does not recognise. Enum values are those the coercion makes. -/

namespace FastProto

open Lib Lib.Cursor

/-- The leaves decode builds: what the coercion makes of some integer, and any Duration. -/
def decodedLeaves (w : World) : Leaves where
  enum linked value := ∃ i, coerceEnum w linked i = .ok value
  duration _ := True

/-! ## Values -/

section Values

variable {w : World} {message : Option LinkedRef → PyVal → Prop} {nested : NestedDecoder}

/-- What decoding a nested message of a kind owes: a value that conforms. -/
def NestedSound (nested : NestedDecoder) (message : Option LinkedRef → PyVal → Prop)
    (kind : FieldKind) (linked : Option LinkedRef) : Prop :=
  kind.refersToMessage = true → ∀ data value,
    decodeMessageValue nested linked data = .ok value → message linked value

/-- The values of a map owe what the map owes. -/
theorem NestedSound.mapValue {key : ScalarType} {valueKind : MapValue} {linked : Option LinkedRef}
    (h : NestedSound nested message (.map key valueKind) linked) :
    NestedSound nested message valueKind.kind linked := by
  cases valueKind with
  | message => exact h
  | _ => exact nofun

/-- A decoded Timestamp is in UTC. -/
theorem decodeTimestamp_conforms {data : Bytes} {value : PyVal}
    (h : decodeTimestamp data = .ok value) : ∃ d, value = .datetime d ∧ d.offset = some 0 := by
  obtain ⟨⟨secs, nanos⟩, -, h⟩ := bind_eq_ok.mp h
  obtain ⟨d, hd, h⟩ := bind_eq_ok.mp h
  cases h
  exact ⟨d, rfl, (partsToDatetime_eq_ok.mp hd).2.1⟩

/-- A decoded Duration is a `timedelta`. -/
theorem decodeDuration_conforms {data : Bytes} {value : PyVal}
    (h : decodeDuration data = .ok value) : ∃ d, value = .timedelta d := by
  obtain ⟨⟨secs, nanos⟩, -, h⟩ := bind_eq_ok.mp h
  obtain ⟨d, -, h⟩ := bind_eq_ok.mp h
  cases h
  exact ⟨d, rfl⟩

/-- **A payload decodes to a value of the kind.** -/
theorem valueOfPayload_conforms {kind : FieldKind} {linked : Option LinkedRef}
    (hnested : NestedSound nested message kind linked) {payload : Payload} {value : PyVal}
    (h : valueOfPayload w nested kind linked payload = .ok value) :
    ValueConforms (decodedLeaves w) message kind linked value := by
  cases kind with
  | scalar scalar => exact holds_of_scalarOfPayload h
  | enum =>
      cases payload with
      | varint raw => exact ⟨raw.toUInt32.toInt32, h⟩
      | _ => cases h
  | message =>
      cases payload with
      | len data => exact hnested rfl data value h
      | _ => cases h
  | timestamp =>
      cases payload with
      | len data => exact decodeTimestamp_conforms h
      | _ => cases h
  | duration =>
      cases payload with
      | len data =>
          obtain ⟨d, rfl⟩ := decodeDuration_conforms h
          exact ⟨d, rfl, trivial⟩
      | _ => cases h
  | map key value => cases h

/-- One element appended keeps a list conforming. -/
theorem packedStep_conforms {kind : FieldKind} {linked : Option LinkedRef}
    (hnested : NestedSound nested message kind linked) {payload : Payload} {items items' : List PyVal}
    (hitems : ∀ item ∈ items, ValueConforms (decodedLeaves w) message kind linked item)
    (h : packedStep w nested kind linked items payload = .ok items') :
    ∀ item ∈ items', ValueConforms (decodedLeaves w) message kind linked item := by
  obtain ⟨value, hvalue, h⟩ := bind_eq_ok.mp h
  cases h
  intro item hitem
  rcases List.mem_append.mp hitem with hitem | hitem
  · exact hitems item hitem
  · rw [List.mem_singleton.mp hitem]
    exact valueOfPayload_conforms hnested hvalue

/-- **What a payload appends to a repeated field conforms.** -/
theorem repeatedOfPayload_conforms {kind : FieldKind} (hmap : kind.isMap = false)
    {linked : Option LinkedRef} (hnested : NestedSound nested message kind linked)
    {payload : Payload} {items items' : List PyVal}
    (hitems : ∀ item ∈ items, ValueConforms (decodedLeaves w) message kind linked item)
    (h : repeatedOfPayload w nested kind linked payload items = .ok items') :
    ∀ item ∈ items', ValueConforms (decodedLeaves w) message kind linked item := by
  unfold repeatedOfPayload at h
  split at h
  · split at h
    · obtain ⟨payloads, -, hfold⟩ := (drainAll_eq_ok (Reader.framed_readPayload _)
        (Reader.advances_readPayload _) (packedBody_body w nested hmap linked)).mp h
      exact foldlM_invariant
        (fun items => ∀ item ∈ items, ValueConforms (decodedLeaves w) message kind linked item)
        (fun s payload s' _ hs hs' => packedStep_conforms hnested hs hs') _ _ hitems hfold
    · exact packedStep_conforms hnested hitems h
  · exact packedStep_conforms hnested hitems h

/-- **A map entry decodes to a key and a value of their types**, absent ones included. -/
theorem decodeMapEntry_conforms {key : ScalarType} {valueKind : MapValue}
    {linked : Option LinkedRef} (hnested : NestedSound nested message (.map key valueKind) linked)
    {entry : Bytes} {kv : PyVal × PyVal}
    (h : decodeMapEntry w nested key valueKind linked entry = .ok kv) :
    key.Holds kv.1 ∧ ValueConforms (decodedLeaves w) message valueKind.kind linked kv.2 := by
  obtain ⟨recs, ⟨k, v⟩, -, hfold, hfinish⟩ := (decodeMapEntry_eq_ok w nested).mp h
  have hseen : (∀ x ∈ k, key.Holds x) ∧
      ∀ x ∈ v, ValueConforms (decodedLeaves w) message valueKind.kind linked x := by
    refine foldlM_invariant (fun e : Option PyVal × Option PyVal => (∀ x ∈ e.1, key.Holds x) ∧
      ∀ x ∈ e.2, ValueConforms (decodedLeaves w) message valueKind.kind linked x)
      (fun e rec e' _ he he' => ?_) (none, none) (k, v) ⟨nofun, nofun⟩ hfold
    unfold mapEntryStep at he'
    split at he'
    · obtain ⟨x, hx, he'⟩ := bind_eq_ok.mp he'
      cases he'
      exact ⟨fun y hy => by cases hy; exact holds_of_scalarOfPayload hx, he.2⟩
    · split at he'
      · obtain ⟨x, hx, he'⟩ := bind_eq_ok.mp he'
        cases he'
        exact ⟨he.1, fun y hy => by cases hy; exact valueOfPayload_conforms hnested.mapValue hx⟩
      · cases he'
        exact he
  have hkey : key.Holds (k.getD (scalarDefault key)) := by
    cases k with
    | none => exact key.holds_default
    | some k => exact hseen.1 k rfl
  unfold mapEntryFinish at hfinish
  cases v with
  | some v =>
      cases hfinish
      exact ⟨hkey, hseen.2 v rfl⟩
  | none =>
      -- an entry without a value has the default of its kind
      obtain ⟨x, hx, hfinish⟩ := bind_eq_ok.mp hfinish
      cases hfinish
      refine ⟨hkey, ?_⟩
      cases valueKind with
      | scalar scalar => cases hx; exact scalar.holds_default
      | enum => exact ⟨0, hx⟩
      | message => exact hnested rfl [] x hx
      | timestamp =>
          obtain ⟨d, hd, hx⟩ := bind_eq_ok.mp hx
          cases hx
          exact ⟨d, rfl, (partsToDatetime_eq_ok.mp hd).2.1⟩
      | duration =>
          obtain ⟨d, -, hx⟩ := bind_eq_ok.mp hx
          cases hx
          exact ⟨d, rfl, trivial⟩

end Values

/-! ## The loop -/

/-- **The invariant of the decoding loop on values**: every slot conforms to its field, the member of
a oneof group that is set owns the group, and the unknown bytes are unrecognized segments. -/
structure DecodeState.Sound (w : World) (message : Option LinkedRef → PyVal → Prop)
    (desc : Descriptor) (st : DecodeState) : Prop where
  seen : ∀ (idx : Nat) (field : FieldDescriptor) (value : PyVal),
    desc.inner.fields[idx]? = some field → st.values[idx]? = some (some value) →
      SeenConforms (decodedLeaves w) message desc field value
  owner : ∀ (idx : Nat) (field : FieldDescriptor) (value : PyVal) (group : UInt32),
    desc.inner.fields[idx]? = some field → st.values[idx]? = some (some value) →
      field.label = .optional → field.oneofIndex = some group →
      st.oneofOwner.lookup group = some idx
  unknown : UnknownConforms desc.inner st.unknown

/-- A slot that is set after a oneof group was claimed was set before. -/
theorem DecodeState.claimOneof_some {st : DecodeState} {field : FieldDescriptor} {idx i : Nat}
    {value : PyVal} (h : (st.claimOneof field idx).values[i]? = some (some value)) :
    st.values[i]? = some (some value) := by
  unfold claimOneof at h
  split at h
  · dsimp only at h
    split at h
    · split at h
      · rw [List.getElem?_set] at h
        split at h
        · split at h <;> cases h
        · exact h
      · exact h
    · exact h
  · exact h

section Loop

variable {w : World} {message : Option LinkedRef → PyVal → Prop} {nested : NestedDecoder}
  {desc : Descriptor} {st : DecodeState}

/-- The state before the first tag is sound. -/
theorem DecodeState.sound_init (hwf : desc.inner.WellFormed) :
    (init desc.inner.fields).Sound w message desc where
  seen := by
    intro idx field value hfield hvalue
    rw [init, List.getElem?_map, hfield, Option.map_some] at hvalue
    have hacc : accumulator field = some value := Option.some.inj hvalue
    unfold accumulator at hacc
    unfold SeenConforms
    cases hk : field.kind with
    | map key valueKind =>
        rw [hk] at hacc
        cases hacc
        exact ⟨[], rfl, .nil, by simp⟩
    | _ =>
        rw [hk] at hacc
        dsimp only at hacc ⊢
        split at hacc
        · cases hacc
          rename_i hlabel
          rw [if_pos hlabel]
          exact ⟨[], rfl, by simp⟩
        · cases hacc
  owner := by
    intro idx field value group hfield hvalue hlabel _
    have hmap : field.kind.isMap = false := by
      cases hk : field.kind with
      | map key valueKind =>
          have := ((hwf.shaped field (List.mem_of_getElem? hfield)).map_single key valueKind hk).1
          rw [hlabel] at this
          cases this
      | _ => rfl
    rw [init, List.getElem?_map, hfield, Option.map_some,
      (accumulator_singular hmap (by rw [hlabel]; decide)).1] at hvalue
    cases hvalue
  unknown := ⟨[], .nil, by simp⟩

/-- **Storing a conforming value stays sound**: a member that was set in another slot of the group is
cleared when the group is claimed. -/
theorem DecodeState.Sound.claim_store (h : st.Sound w message desc) {idx : Nat}
    {field : FieldDescriptor} {value : PyVal} (hfield : desc.inner.fields[idx]? = some field)
    (hvalue : SeenConforms (decodedLeaves w) message desc field value) :
    ((st.claimOneof field idx).store idx value).Sound w message desc where
  seen := by
    intro i f v hf hv
    rw [store_values, List.getElem?_set] at hv
    by_cases hi : idx = i
    · subst hi
      rw [hfield] at hf
      cases hf
      rw [if_pos rfl] at hv
      split at hv
      · cases hv
        exact hvalue
      · cases hv
    · rw [if_neg hi] at hv
      exact h.seen i f v hf (claimOneof_some hv)
  owner := by
    intro i f v group hf hv hlabel hgroup
    rw [store_values, List.getElem?_set] at hv
    rw [store_oneofOwner]
    by_cases hi : idx = i
    · subst hi
      rw [hfield] at hf
      cases hf
      unfold claimOneof
      rw [hgroup, hlabel]
      exact List.lookup_cons_self
    · rw [if_neg hi] at hv
      have hold := h.owner i f v group hf (claimOneof_some hv) hlabel hgroup
      unfold claimOneof at hv ⊢
      split
      · rename_i group' hgroup' hlabel'
        rw [hgroup', hlabel'] at hv
        dsimp only at hv ⊢
        by_cases hsame : group = group'
        · -- the former owner of the group is cleared, so its slot is not set
          subst hsame
          have hne : i ≠ idx := fun h => hi h.symm
          rw [hold] at hv
          dsimp only at hv
          rw [if_pos hne, List.getElem?_set, if_pos rfl] at hv
          split at hv <;> cases hv
        · have hbeq : (group == group') = false := by simpa using hsame
          rw [List.lookup_cons, hbeq]
          exact hold
      · exact hold
  unknown := by
    rw [store_unknown, claimOneof_unknown]
    exact h.unknown

/-- Keeping an unrecognized segment stays sound. -/
theorem DecodeState.Sound.keep (h : st.Sound w message desc) {seg : Segment}
    (hread : Reads Reader.readSegment seg.raw seg)
    (hseg : desc.inner.recognize seg.number seg.payload.wire = none) :
    (st.keep seg.raw).Sound w message desc where
  seen := h.seen
  owner := h.owner
  unknown := by
    obtain ⟨segs, hsplit, hnone⟩ := h.unknown
    refine ⟨segs ++ [seg], hsplit.append (Split.single
      (Reader.advances_readSegment.ne_nil hread) hread), fun s hs => ?_⟩
    rcases List.mem_append.mp hs with hs | hs
    · exact hnone s hs
    · rw [List.mem_singleton.mp hs]
      exact hseg

/-- **The step of a field stays sound.** -/
theorem fieldStep_sound (hwf : desc.inner.WellFormed) (hready : st.Ready desc.inner.fields)
    (h : st.Sound w message desc) {idx : Nat} {field : FieldDescriptor}
    (hfield : desc.inner.fields[idx]? = some field)
    (hnested : NestedSound nested message field.kind (desc.ref field.number)) {payload : Payload}
    (hacc : field.accepts payload.wire = true) {st' : DecodeState}
    (hstep : fieldStep w nested desc st idx field payload = .ok st') :
    st'.Sound w message desc := by
  have hclaim := hready.claimOneof hwf.shaped hfield
  by_cases hmap : field.kind.isMap = true
  · obtain ⟨key, valueKind, hkind⟩ := FieldKind.isMap_iff.mp hmap
    obtain ⟨items, hitems⟩ := hclaim.dicts idx field hfield hmap
    obtain ⟨entry, rfl⟩ := payload_of_map_accepts
      (hwf.shaped field (List.mem_of_getElem? hfield)) hkind hacc
    rw [fieldStep_map w nested hkind entry hitems] at hstep
    obtain ⟨⟨k, v⟩, hentry, hstep⟩ := bind_eq_ok.mp hstep
    cases hstep
    rw [hkind] at hnested
    obtain ⟨hk, hv⟩ := decodeMapEntry_conforms hnested hentry
    obtain ⟨items', heq, hkeys, hall⟩ := (seenConforms_map hkind).mp
      (h.seen idx field _ hfield (DecodeState.claimOneof_some hitems))
    cases heq
    refine h.claim_store hfield ((seenConforms_map hkind).mpr
      ⟨dictSet items k v, rfl, pairwise_upsertBy hkeys, fun item hitem => ?_⟩)
    rcases mem_upsertBy hitem with hold | ⟨hval, hkey⟩
    · exact hall item hold
    · rw [hval]
      rcases hkey with hkey | ⟨v', hold⟩
      · rw [hkey]
        exact ⟨hk, hv⟩
      · exact ⟨(hall _ hold).1, hv⟩
  · have hnot : field.kind.isMap = false := by simpa using hmap
    by_cases hlabel : field.label = .repeated
    · obtain ⟨items, hitems⟩ := hclaim.lists idx field hfield hnot hlabel
      rw [fieldStep_repeated w nested hnot hlabel payload hitems] at hstep
      obtain ⟨items', hrepeated, hstep⟩ := bind_eq_ok.mp hstep
      cases hstep
      obtain ⟨old, heq, hall⟩ := (seenConforms_repeated hnot hlabel).mp
        (h.seen idx field _ hfield (DecodeState.claimOneof_some hitems))
      cases heq
      exact h.claim_store hfield ((seenConforms_repeated hnot hlabel).mpr
        ⟨items', rfl, repeatedOfPayload_conforms hnot hnested hall hrepeated⟩)
    · rw [fieldStep_singular w nested hnot hlabel] at hstep
      obtain ⟨value, hvalue, hstep⟩ := bind_eq_ok.mp hstep
      cases hstep
      exact h.claim_store hfield ((seenConforms_singular hnot hlabel).mpr
        (valueOfPayload_conforms hnested hvalue))

/-- **The whole loop stays sound** on segments as the reader returns them. -/
theorem foldlM_sound (hwf : desc.inner.WellFormed)
    (hnested : ∀ field ∈ desc.inner.fields,
      NestedSound nested message field.kind (desc.ref field.number)) {data : Bytes}
    {segs : List Segment} (hsplit : Split Reader.readSegment data segs) {st st' : DecodeState}
    (hready : st.Ready desc.inner.fields) (hsound : st.Sound w message desc)
    (h : segs.foldlM (segmentStep w nested desc) st = .ok st') :
    st'.Ready desc.inner.fields ∧ st'.Sound w message desc := by
  induction hsplit generalizing st with
  | nil =>
      cases h
      exact ⟨hready, hsound⟩
  | @cons chunk rest seg segs _ hread _ ih =>
      rw [List.foldlM_cons] at h
      obtain ⟨st₁, hstep, h⟩ := bind_eq_ok.mp h
      have hready₁ := segmentStep_keeps w nested hwf st seg st₁ hready hstep
      refine ih hready₁ ?_ h
      unfold segmentStep at hstep
      split at hstep
      · rename_i idx field hrec
        obtain ⟨-, hfield, -, hacc⟩ := MessageDescriptor.recognize_eq_some hrec
        exact fieldStep_sound hwf hready hsound hfield
          (hnested field (List.mem_of_getElem? hfield)) hacc hstep
      · rename_i hrec
        cases hstep
        exact hsound.keep (by rw [(Reader.segment_of_reads hread).1]; exact hread) hrec

end Loop

/-! ## Messages -/

/-- A slot that was never filled reads as a zero value that conforms. -/
theorem zeroValue_conforms {w : World} {dom : ClassId → DescId → Prop} (hfam : Family w dom)
    {message : Option LinkedRef → PyVal → Prop} {cls : ClassId} {descId : DescId}
    (hdom : dom cls descId) {field : FieldDescriptor}
    (hfield : field ∈ (w.descriptor descId).inner.fields) (hcol : field.isCollection = false) :
    FieldConforms (decodedLeaves w) message (w.descriptor descId) field
      (zeroValue (w.descriptor descId) field) := by
  have hshape := (hfam.generated cls descId hdom).wellFormed.shaped field hfield
  have hmap : field.kind.isMap = false := by
    unfold FieldDescriptor.isCollection at hcol
    cases hk : field.kind with
    | map key valueKind => rw [hk] at hcol; cases hcol
    | _ => rfl
  cases hlabel : field.label with
  | repeated =>
      unfold FieldDescriptor.isCollection at hcol
      cases hk : field.kind <;> simp [hk, hlabel] at hcol
  | optional => exact .inl ⟨hlabel, zeroValue_optional hmap hlabel⟩
  | single =>
      refine .inr ((seenConforms_singular hmap (by rw [hlabel]; decide)).mpr ?_)
      cases hk : field.kind with
      | scalar scalar =>
          unfold zeroValue
          simp only [hk, hlabel]
          exact scalar.holds_default
      | enum => exact ⟨0, coerceEnum_zeroValue hfam hdom hfield hk hlabel⟩
      | map key valueKind => rw [hk] at hmap; cases hmap
      | _ => exact absurd hlabel (hshape.message_label (by rw [hk]; rfl))

section Filled

variable {w : World} {dom : ClassId → DescId → Prop} {message : Option LinkedRef → PyVal → Prop}
  {cls : ClassId} {descId : DescId} {st : DecodeState}

/-- The value built for a field is the one seen, or the zero value. -/
theorem filledValues_getElem? {desc : Descriptor} {values : List (Option PyVal)} {idx : Nat}
    {field : FieldDescriptor} (hfield : desc.inner.fields[idx]? = some field)
    {slot : Option PyVal} (hslot : values[idx]? = some slot) :
    (filledValues desc values)[idx]? = some (slot.getD (zeroValue desc field)) := by
  unfold filledValues
  rw [List.getElem?_zipWith, hfield, hslot]

/-- The slot of a map or a list is never empty. -/
theorem DecodeState.Ready.collections {fields : List FieldDescriptor} {st : DecodeState}
    (h : st.Ready fields) : List.Forall₂ (fun (field : FieldDescriptor) (slot : Option PyVal) =>
      field.isCollection = true → slot.isSome = true) fields st.values := by
  rw [List.forall₂_iff_get]
  refine ⟨h.length.symm, fun i hi hi' hcol => ?_⟩
  have hfield := List.getElem?_eq_getElem hi
  have hslot := List.getElem?_eq_getElem hi'
  rw [List.get_eq_getElem] at hcol ⊢
  by_cases hmap : (fields[i]).kind.isMap = true
  · obtain ⟨items, hitems⟩ := h.dicts i _ hfield hmap
    rw [hslot] at hitems
    rw [Option.some.inj hitems]
    rfl
  · have hnot : (fields[i]).kind.isMap = false := by simpa using hmap
    have hlabel : (fields[i]).label = .repeated := by
      unfold FieldDescriptor.isCollection at hcol
      cases hk : (fields[i]).kind with
      | map key valueKind => rw [hk] at hnot; cases hnot
      | _ =>
          rw [hk] at hcol
          exact of_decide_eq_true hcol
    obtain ⟨items, hitems⟩ := h.lists i _ hfield hnot hlabel
    rw [hslot] at hitems
    rw [Option.some.inj hitems]
    rfl

/-- **The parts of the instance built conform.** -/
theorem messageConforms_of_sound (hfam : Family w dom) (hdom : dom cls descId)
    (hready : st.Ready (w.descriptor descId).inner.fields)
    (hsound : st.Sound w message (w.descriptor descId)) :
    MessageConforms (decodedLeaves w) message (w.descriptor descId)
      (filledValues (w.descriptor descId) st.values) st.unknown where
  fields := by
    have hcollections := hready.collections
    rw [List.forall₂_iff_get] at hcollections ⊢
    refine ⟨(length_filledValues hready.length).symm, fun i hi hi' => ?_⟩
    have hi'' : i < st.values.length := by rw [hready.length]; exact hi
    have hfield := List.getElem?_eq_getElem hi
    have hslot := List.getElem?_eq_getElem hi''
    have hvalue := filledValues_getElem? hfield hslot
    rw [List.getElem?_eq_getElem hi'] at hvalue
    rw [List.get_eq_getElem, List.get_eq_getElem, Option.some.inj hvalue]
    cases hs : st.values[i] with
    | some v =>
        rw [hs] at hslot
        exact .inr (hsound.seen i _ v hfield hslot)
    | none =>
        refine zeroValue_conforms hfam hdom (List.mem_of_getElem? hfield) ?_
        rw [Bool.eq_false_iff]
        intro hcol
        have hsome := hcollections.2 i hi hi'' hcol
        rw [List.get_eq_getElem, hs] at hsome
        cases hsome
  oneofs := by
    rw [List.pairwise_iff_getElem]
    intro i j hi hj hij hsame
    rw [List.getElem_zip, List.getElem_zip] at hsame ⊢
    rw [List.length_zip] at hi hj
    have hfi := List.getElem?_eq_getElem (l := (w.descriptor descId).inner.fields) (i := i) (by omega)
    have hfj := List.getElem?_eq_getElem (l := (w.descriptor descId).inner.fields) (i := j) (by omega)
    have hsi := List.getElem?_eq_getElem (l := st.values) (i := i) (by rw [hready.length]; omega)
    have hsj := List.getElem?_eq_getElem (l := st.values) (i := j) (by rw [hready.length]; omega)
    have hvi := filledValues_getElem? hfi hsi
    have hvj := filledValues_getElem? hfj hsj
    rw [List.getElem?_eq_getElem (by omega)] at hvi hvj
    rw [Option.some.inj hvi, Option.some.inj hvj]
    obtain ⟨hli, hlj, hsome, hgroup⟩ := hsame
    dsimp only at hli hlj hsome hgroup ⊢
    obtain ⟨group, hgi⟩ := Option.isSome_iff_exists.mp hsome
    have hnone : ∀ (k : Nat) (field : FieldDescriptor),
        (w.descriptor descId).inner.fields[k]? = some field → field.label = .optional →
        zeroValue (w.descriptor descId) field = .pyNone := by
      intro k field hfield hlabel
      refine zeroValue_optional ?_ hlabel
      have hshape := (hfam.generated cls descId hdom).wellFormed.shaped field
        (List.mem_of_getElem? hfield)
      cases hk : field.kind with
      | map key valueKind =>
          have := (hshape.map_single key valueKind hk).1
          rw [hlabel] at this
          cases this
      | _ => rfl
    have hilt : i < st.values.length := by rw [hready.length]; omega
    have hjlt : j < st.values.length := by rw [hready.length]; omega
    cases hvi' : st.values[i] with
    | none => exact .inl (hnone i _ hfi hli)
    | some vi =>
        cases hvj' : st.values[j] with
        | none => exact .inr (hnone j _ hfj hlj)
        | some vj =>
            -- two set members would both own the group
            rw [hvi'] at hsi
            rw [hvj'] at hsj
            have hi := hsound.owner i _ vi group hfi hsi hli hgi
            have hj := hsound.owner j _ vj group hfj hsj hlj (hgroup ▸ hgi)
            rw [hi] at hj
            have := Option.some.inj hj
            omega
  unknown := hsound.unknown

end Filled

/-- **Whatever the decoder accepts is a message that conforms to its descriptor.** -/
theorem decodeMessage_conforms {w : World} {dom : ClassId → DescId → Prop} (hfam : Family w dom)
    (levels : Nat) : ∀ cls descId data value, dom cls descId →
      decodeMessage w levels cls descId data = .ok value →
      Conforms w (decodedLeaves w) levels cls descId value := by
  induction levels with
  | zero => intro cls descId data value _ h; cases h
  | succ levels ih =>
      intro cls descId data value hdom h
      have hgen := hfam.generated cls descId hdom
      obtain ⟨segs, st, hsplit, hfold, hconstruct⟩ := (decodeMessage_eq_ok hgen.wellFormed).mp h
      have hnested : ∀ field ∈ (w.descriptor descId).inner.fields,
          NestedSound (decodeMessage w levels)
            (NestedConforms (Conforms w (decodedLeaves w) levels)) field.kind
            ((w.descriptor descId).ref field.number) := by
        intro field hfield hrefers data value hdecode
        obtain ⟨cls', desc', href, hproto, hdom'⟩ :=
          hfam.messages cls descId hdom field hfield hrefers
        have hlink : buildLinkedRef cls' (w.cls cls') = { cls := cls', desc := some desc' } := by
          simp [buildLinkedRef, hproto]
        rw [href, hlink] at hdecode ⊢
        exact ⟨_, desc', rfl, rfl, ih cls' desc' data value hdom' hdecode⟩
      obtain ⟨hready, hsound⟩ := foldlM_sound hgen.wellFormed hnested hsplit
        (DecodeState.ready_init _) (DecodeState.sound_init hgen.wellFormed) hfold
      rw [construct_generated hfam hdom hready.collections] at hconstruct
      cases hconstruct
      exact ⟨_, st.unknown, rfl, messageConforms_of_sound hfam hdom hready hsound⟩

end FastProto
