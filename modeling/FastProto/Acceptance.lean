import FastProto.DecodeMerge

/-! # What the decoder accepts

Whether a message is accepted is decided one field at a time: its bytes are a row of fields, and each
field the descriptor knows has a payload that reads as a value of its kind. What came before it and
what comes after it do not matter. -/

namespace FastProto

open Lib Lib.Cursor

section Fields

variable (w : World) (nested : NestedDecoder) (desc : Descriptor)

/-- **The payload reads as a value of the field**: an entry of its map, elements of its list, or its
value. -/
def Descriptor.Takes (field : FieldDescriptor) (payload : Payload) : Prop :=
  if field.kind.isMap then ∃ entry, entryOf w nested desc field payload = some entry
  else if field.label = .repeated then
    ∃ items, repeatedOfPayload w nested field.kind (desc.ref field.number) payload [] = .ok items
  else ∃ value, valueOfPayload w nested field.kind (desc.ref field.number) payload = .ok value

variable {w nested desc} {idx : Nat} {field : FieldDescriptor} {payload : Payload}

/-- A map takes the entries that decode. -/
theorem takes_map {key : ScalarType} {value : MapValue} (hkind : field.kind = .map key value) :
    desc.Takes w nested field payload ↔ ∃ entry kv, payload = .len entry ∧
      decodeMapEntry w nested key value (desc.ref field.number) entry = .ok kv := by
  unfold Descriptor.Takes entryOf
  rw [if_pos (by rw [hkind]; rfl), hkind]
  cases payload with
  | len entry =>
      cases hentry : decodeMapEntry w nested key value (desc.ref field.number) entry with
      | error e => simp [hentry, Except.toOption]
      | ok kv => exact iff_of_true ⟨kv, by simp [hentry, Except.toOption]⟩ ⟨entry, kv, rfl, hentry⟩
  | _ => simp

/-- A list takes the payloads whose elements decode. -/
theorem takes_repeated (hmap : field.kind.isMap = false) (hlabel : field.label = .repeated) :
    desc.Takes w nested field payload ↔ ∃ items,
      repeatedOfPayload w nested field.kind (desc.ref field.number) payload [] = .ok items := by
  unfold Descriptor.Takes
  rw [if_neg (by rw [hmap]; decide), if_pos hlabel]

/-- A singular field takes the payloads that decode. -/
theorem takes_singular (hmap : field.kind.isMap = false) (hlabel : field.label ≠ .repeated) :
    desc.Takes w nested field payload ↔ ∃ value,
      valueOfPayload w nested field.kind (desc.ref field.number) payload = .ok value := by
  unfold Descriptor.Takes
  rw [if_neg (by rw [hmap]; decide), if_neg hlabel]

/-- **The step of a field succeeds iff the field takes the payload.** -/
theorem fieldStep_takes (hshaped : desc.inner.Shaped) {st : DecodeState}
    (hready : st.Ready desc.inner.fields) (hfield : desc.inner.fields[idx]? = some field)
    (hacc : field.accepts payload.wire = true) :
    (∃ st', fieldStep w nested desc st idx field payload = .ok st')
      ↔ desc.Takes w nested field payload := by
  have hclaim := hready.claimOneof hshaped hfield
  by_cases hmap : field.kind.isMap = true
  · obtain ⟨key, valueKind, hkind⟩ := FieldKind.isMap_iff.mp hmap
    obtain ⟨items, hitems⟩ := hclaim.dicts idx field hfield hmap
    obtain ⟨entry, rfl⟩ := payload_of_map_accepts (hshaped field (List.mem_of_getElem? hfield))
      hkind hacc
    rw [fieldStep_map w nested hkind entry hitems, takes_map hkind]
    constructor
    · rintro ⟨st', h⟩
      obtain ⟨kv, hkv, -⟩ := bind_eq_ok.mp h
      exact ⟨entry, kv, rfl, hkv⟩
    · rintro ⟨entry', kv, heq, hkv⟩
      cases heq
      exact ⟨_, by rw [hkv, ok_bind]⟩
  · have hnot : field.kind.isMap = false := by simpa using hmap
    by_cases hlabel : field.label = .repeated
    · obtain ⟨items, hitems⟩ := hclaim.lists idx field hfield hnot hlabel
      rw [fieldStep_repeated w nested hnot hlabel payload hitems, takes_repeated hnot hlabel,
        repeatedOfPayload_append]
      constructor
      · rintro ⟨st', h⟩
        obtain ⟨all, hall, -⟩ := bind_eq_ok.mp h
        obtain ⟨new, hnew, -⟩ := bind_eq_ok.mp hall
        exact ⟨new, hnew⟩
      · rintro ⟨new, hnew⟩
        exact ⟨_, by rw [hnew, ok_bind, ok_bind]⟩
    · rw [fieldStep_singular w nested hnot hlabel, takes_singular hnot hlabel]
      constructor
      · rintro ⟨st', h⟩
        obtain ⟨value, hvalue, -⟩ := bind_eq_ok.mp h
        exact ⟨value, hvalue⟩
      · rintro ⟨value, hvalue⟩
        exact ⟨_, by rw [hvalue, ok_bind]⟩

/-- The descriptor takes a segment: it does not know it, or the field takes the payload. -/
def Descriptor.TakesSegment (w : World) (nested : NestedDecoder) (desc : Descriptor)
    (seg : Segment) : Prop :=
  ∀ idx field, desc.target seg.number seg.payload.wire = some (idx, field) →
    desc.Takes w nested field seg.payload

/-- A step succeeds iff the descriptor takes the segment. -/
theorem targetStep_takes (hshaped : desc.inner.Shaped) {st : DecodeState}
    (hready : st.Ready desc.inner.fields) {seg : Segment} :
    (∃ st', targetStep w nested desc st seg = .ok st') ↔ desc.TakesSegment w nested seg := by
  unfold targetStep Descriptor.TakesSegment
  cases htarget : desc.target seg.number seg.payload.wire with
  | none => exact iff_of_true ⟨_, rfl⟩ fun idx field h => by cases h
  | some target =>
      obtain ⟨idx, field⟩ := target
      obtain ⟨hfield, hacc⟩ := Descriptor.target_eq_some htarget
      dsimp only
      rw [fieldStep_takes hshaped hready hfield hacc]
      refine ⟨fun h idx' field' heq => ?_, fun h => h idx field rfl⟩
      cases heq
      exact h

/-- **A row of segments folds iff each of them is taken**, from whatever state. -/
theorem foldlM_takes (hshaped : desc.inner.Shaped) {segs : List Segment} :
    ∀ {st : DecodeState}, st.Ready desc.inner.fields →
      ((∃ st', segs.foldlM (targetStep w nested desc) st = .ok st')
        ↔ ∀ seg ∈ segs, desc.TakesSegment w nested seg) := by
  induction segs with
  | nil => exact fun _ => iff_of_true ⟨_, rfl⟩ fun seg h => by cases h
  | cons seg segs ih =>
      intro st hready
      rw [List.forall_mem_cons, ← targetStep_takes hshaped hready]
      constructor
      · rintro ⟨st', h⟩
        rw [List.foldlM_cons] at h
        obtain ⟨mid, hmid, h⟩ := bind_eq_ok.mp h
        have hready' := targetStep_keeps w nested hshaped st seg mid hready hmid
        exact ⟨⟨mid, hmid⟩, (ih hready').mp ⟨st', h⟩⟩
      · rintro ⟨⟨mid, hmid⟩, hrest⟩
        have hready' := targetStep_keeps w nested hshaped st seg mid hready hmid
        obtain ⟨st', h⟩ := (ih hready').mpr hrest
        exact ⟨st', by rw [List.foldlM_cons, hmid, ok_bind, h]⟩

end Fields

/-- **Exactly which bytes a generated class decodes**: those that are a row of fields of which each
is unknown to the descriptor or taken by its field, wherever it stands. -/
theorem decodeMessage_accepts_iff {w : World} {dom : ClassId → DescId → Prop} (hfam : Family w dom)
    {cls : ClassId} {descId : DescId} (hdom : dom cls descId) (levels : Nat) (data : Bytes) :
    (∃ value, decodeMessage w (levels + 1) cls descId data = .ok value) ↔
      ∃ segs, Split Reader.readSegment data segs ∧ ∀ seg ∈ segs, ∀ idx field,
        (w.descriptor descId).inner.recognize seg.number seg.payload.wire = some (idx, field) →
        (w.descriptor descId).Takes w (decodeMessage w levels) field seg.payload := by
  have hwf := (hfam.generated cls descId hdom).wellFormed
  rw [decodeMessage_succ, ← Descriptor.target_eq hwf]
  -- the fold accepts iff each segment is taken, whatever came before it
  constructor
  · rintro ⟨value, h⟩
    obtain ⟨st, hst, -⟩ := bind_eq_ok.mp h
    obtain ⟨segs, hsplit, hfold⟩ := (decodeFields_eq_ok hwf.shaped).mp hst
    exact ⟨segs, hsplit, (foldlM_takes hwf.shaped (DecodeState.ready_init _)).mp ⟨st, hfold⟩⟩
  · rintro ⟨segs, hsplit, htakes⟩
    obtain ⟨st, hfold⟩ := (foldlM_takes hwf.shaped (DecodeState.ready_init _)).mpr htakes
    have hst := (decodeFields_eq_ok hwf.shaped).mpr ⟨segs, hsplit, hfold⟩
    rw [hst, ok_bind]
    exact ⟨_, construct_generated hfam hdom (decodeFields_ready hwf.shaped hst).collections _⟩

/-- A known field and a field of an unknown number are accepted, and so the first is taken. -/
theorem decodeMessage_accepts_iff_recursiveWorld :
    (∃ value, decodeMessage recursiveWorld 101 0 0 [0x08, 0x07, 0x2d, 0, 0, 0, 0] = .ok value) ∧
      ∃ segs, Split Reader.readSegment [0x08, 0x07, 0x2d, 0, 0, 0, 0] segs ∧
        ∀ seg ∈ segs, ∀ idx field,
          (recursiveWorld.descriptor 0).inner.recognize seg.number seg.payload.wire
            = some (idx, field) →
          (recursiveWorld.descriptor 0).Takes recursiveWorld (decodeMessage recursiveWorld 100) field
            seg.payload := by
  have haccepted : ∃ value,
      decodeMessage recursiveWorld 101 0 0 [0x08, 0x07, 0x2d, 0, 0, 0, 0] = .ok value := ⟨_, rfl⟩
  exact ⟨haccepted,
    (decodeMessage_accepts_iff family_recursiveWorld ⟨rfl, rfl⟩ 100 _).mp haccepted⟩

end FastProto
