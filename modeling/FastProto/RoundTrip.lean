import FastProto.Conforms

/-! # Decode undoes encode: single values

A conforming value decodes from its own payload to a value related to it by `R`: equality for the
values decode itself builds, equality up to the class of enum values in general. -/

namespace FastProto

open Lib Lib.Cursor

/-! ## Equality of values -/

/-- A relation that lists, dicts and instances carry from their elements, values and attributes. -/
structure Congruence (R : PyVal → PyVal → Prop) : Prop where
  refl : ∀ value, R value value
  list : ∀ {xs ys : List PyVal}, List.Forall₂ R xs ys → R (.list xs) (.list ys)
  dict : ∀ (keys : List PyVal) {xs ys : List PyVal}, List.Forall₂ R xs ys →
    R (.dict (keys.zip xs)) (.dict (keys.zip ys))
  inst : ∀ (cls : ClassId) (names : List String) {xs ys : List PyVal}, List.Forall₂ R xs ys →
    R (.inst cls (names.zip xs)) (.inst cls (names.zip ys))

/-- An integer as an enum field may hold it: plain, or as a member of an `IntEnum`. -/
def PyVal.IsInt (value : PyVal) (i : Int) : Prop :=
  value = .int i ∨ ∃ cls, value = .member cls i

/-- **Equality of values, with `IntEnum` members equal to their integers.** Floats are equal when
their bit patterns are. -/
inductive PyEq : PyVal → PyVal → Prop
  | refl (value : PyVal) : PyEq value value
  | int {a b : PyVal} {i : Int} (ha : a.IsInt i) (hb : b.IsInt i) : PyEq a b
  | list {xs ys : List PyVal} (h : List.Forall₂ PyEq xs ys) : PyEq (.list xs) (.list ys)
  | dict (keys : List PyVal) {xs ys : List PyVal} (h : List.Forall₂ PyEq xs ys) :
      PyEq (.dict (keys.zip xs)) (.dict (keys.zip ys))
  | inst (cls : ClassId) (names : List String) {xs ys : List PyVal}
      (h : List.Forall₂ PyEq xs ys) : PyEq (.inst cls (names.zip xs)) (.inst cls (names.zip ys))

/-- Equality up to enum classes is a congruence. -/
theorem congruence_pyEq : Congruence PyEq := ⟨.refl, .list, .dict, .inst⟩

/-- Equality is a congruence. -/
theorem congruence_eq : Congruence Eq where
  refl _ := rfl
  list h := by rw [List.forall₂_eq_eq_eq] at h; rw [h]
  dict keys _ _ h := by rw [List.forall₂_eq_eq_eq] at h; rw [h]
  inst cls names _ _ h := by rw [List.forall₂_eq_eq_eq] at h; rw [h]

section Congruence

variable {R : PyVal → PyVal → Prop}

/-- Dicts with the same keys and related values are related. -/
theorem Congruence.dict_pairs (hR : Congruence R) {xs ys : List (PyVal × PyVal)}
    (h : List.Forall₂ (fun p q => p.1 = q.1 ∧ R p.2 q.2) xs ys) : R (.dict xs) (.dict ys) := by
  have hkeys : xs.map Prod.fst = ys.map Prod.fst := by
    induction h with
    | nil => rfl
    | cons hpq _ ih => rw [List.map_cons, List.map_cons, hpq.1, ih]
  have hvalues : List.Forall₂ R (xs.map Prod.snd) (ys.map Prod.snd) := by
    rw [List.forall₂_map_left_iff, List.forall₂_map_right_iff]
    exact h.imp fun p q hpq => hpq.2
  have hrel := hR.dict (xs.map Prod.fst) hvalues
  have hzip : ∀ l : List (PyVal × PyVal), (l.map Prod.fst).zip (l.map Prod.snd) = l := fun l => by
    rw [List.zip_map', List.map_id']
  rw [hzip, hkeys, hzip] at hrel
  exact hrel

/-- Instances with related field values and the same unknown bytes are related. -/
theorem Congruence.instanceOf (hR : Congruence R) (cls : ClassId) {desc : Descriptor}
    {xs ys : List PyVal} (h : List.Forall₂ R xs ys)
    (hlen : ys.length = desc.inner.fields.length) (unknown : Bytes) :
    R (FastProto.instanceOf cls desc xs unknown) (FastProto.instanceOf cls desc ys unknown) := by
  have hrel := hR.inst cls (desc.inner.fields.map (·.name) ++ [unknownSlot])
    (List.rel_append h (.cons (hR.refl (.bytes unknown)) .nil))
  have hxs : (desc.inner.fields.map (·.name)).length = xs.length := by
    rw [List.length_map, h.length_eq, hlen]
  have hys : (desc.inner.fields.map (·.name)).length = ys.length := by rw [List.length_map, hlen]
  rw [List.zip_append hxs, List.zip_append hys] at hrel
  exact hrel

end Congruence

/-! ## Values -/

section Values

variable {w : World} {R : PyVal → PyVal → Prop} {leaves : Leaves}
  {message : Option LinkedRef → PyVal → Prop} {plain : NestedPayload PyVal}
  {nested : NestedDecoder}

/-- **What the leaves of a kind owe to the decoder**: the bytes of a nested message and the integer of
an enum value decode to related values. -/
structure LeavesDecode (w : World) (R : PyVal → PyVal → Prop) (leaves : Leaves)
    (message : Option LinkedRef → PyVal → Prop) (plain : NestedPayload PyVal)
    (nested : NestedDecoder) (kind : FieldKind) (linked : Option LinkedRef) : Prop where
  message : kind.refersToMessage = true → ∀ value data, message linked value →
    plain value linked = .ok data → data.length < 2 ^ 64 →
      ∃ value', decodeMessageValue nested linked data = .ok value' ∧ R value' value
  enum : kind.refersToEnum = true → ∀ value i, leaves.enum linked value →
    value.shape.extractI32 = .ok i →
      ∃ value', coerceEnum w linked i = .ok value' ∧ R value' value

/-- The values of a map owe what the map owes. -/
theorem LeavesDecode.mapValue {key : ScalarType} {valueKind : MapValue}
    {linked : Option LinkedRef}
    (h : LeavesDecode w R leaves message plain nested (.map key valueKind) linked) :
    LeavesDecode w R leaves message plain nested valueKind.kind linked := by
  cases valueKind with
  | scalar scalar => exact ⟨nofun, nofun⟩
  | enum => exact ⟨nofun, h.enum⟩
  | message => exact ⟨h.message, nofun⟩
  | timestamp => exact ⟨nofun, nofun⟩
  | duration => exact ⟨nofun, nofun⟩

/-- The payload of a value has the wire type of its kind. -/
theorem wire_of_valuePayload {kind : FieldKind} {value : PyVal} {linked : Option LinkedRef}
    {payload : Payload} (h : valuePayload w.runtime plain kind value linked = .ok payload) :
    payload.wire = kind.expectedWire := by
  cases kind with
  | scalar scalar => exact wire_of_scalarPayload h
  | enum =>
      obtain ⟨i, -, h⟩ := bind_eq_ok.mp h
      cases h
      rfl
  | message =>
      obtain ⟨data, -, h⟩ := bind_eq_ok.mp h
      cases h
      rfl
  | timestamp =>
      obtain ⟨parts, -, h⟩ := bind_eq_ok.mp h
      cases h
      rfl
  | duration =>
      obtain ⟨parts, -, h⟩ := bind_eq_ok.mp h
      cases h
      rfl
  | map key value => cases h

/-- **The payload of a conforming value decodes to a related value.** -/
theorem valueOfPayload_valuePayload (hR : Congruence R) {kind : FieldKind}
    {linked : Option LinkedRef}
    (hleaves : LeavesDecode w R leaves message plain nested kind linked) {value : PyVal}
    (hvalue : ValueConforms leaves message kind linked value) {payload : Payload}
    (hpayload : valuePayload w.runtime plain kind value linked = .ok payload)
    (hfits : payload.Fits) :
    ∃ value', valueOfPayload w nested kind linked payload = .ok value' ∧ R value' value := by
  cases kind with
  | scalar scalar =>
      obtain ⟨payload', hp, hdecode, -⟩ := ScalarType.Holds.roundTrip hvalue
      have heq : payload = payload' := Except.ok.inj (hpayload.symm.trans hp)
      exact ⟨value, by rw [heq]; exact hdecode, hR.refl value⟩
  | enum =>
      obtain ⟨i, hi, h⟩ := bind_eq_ok.mp hpayload
      cases h
      obtain ⟨value', hcoerce, hrel⟩ := hleaves.enum rfl value i hvalue hi
      refine ⟨value', ?_, hrel⟩
      show decodeEnum w linked _ = _
      rw [decodeEnum, toInt32_signExtend, hcoerce]
  | message =>
      obtain ⟨data, hdata, h⟩ := bind_eq_ok.mp hpayload
      cases h
      exact hleaves.message rfl value data hvalue hdata hfits
  | timestamp =>
      obtain ⟨d, rfl, hutc⟩ := hvalue
      obtain ⟨⟨secs, nanos⟩, hparts, h⟩ := bind_eq_ok.mp hpayload
      cases h
      refine ⟨.datetime d, ?_, hR.refl _⟩
      show decodeTimestamp _ = _
      rw [decodeTimestamp, decodeParts_partsRecords, mapError_ok, ok_bind]
      dsimp only
      rw [partsToDatetime_datetimeToParts hutc hparts, ok_bind]
  | duration =>
      obtain ⟨d, rfl, -⟩ := hvalue
      obtain ⟨⟨secs, nanos⟩, hparts, h⟩ := bind_eq_ok.mp hpayload
      cases h
      refine ⟨.timedelta d, ?_, hR.refl _⟩
      show decodeDuration _ = _
      rw [decodeDuration, decodeParts_partsRecords, mapError_ok, ok_bind]
      dsimp only
      rw [partsToTimedelta_timedeltaToParts hparts, ok_bind]
  | map key value => exact hvalue.elim

/-- Payloads of a list of conforming values, decoded one after the other, are appended. -/
theorem foldlM_packedStep (hR : Congruence R) {kind : FieldKind} {linked : Option LinkedRef}
    (hleaves : LeavesDecode w R leaves message plain nested kind linked) {items : List PyVal}
    {payloads : List Payload}
    (hpayloads : List.Forall₂ (fun item payload =>
      valuePayload w.runtime plain kind item linked = .ok payload) items payloads)
    (hitems : ∀ item ∈ items, ValueConforms leaves message kind linked item)
    (hfits : ∀ payload ∈ payloads, payload.Fits) :
    ∃ items', List.Forall₂ R items' items ∧ List.Forall₂ (fun payload item' =>
      valueOfPayload w nested kind linked payload = .ok item') payloads items' := by
  induction hpayloads with
  | nil => exact ⟨[], .nil, .nil⟩
  | @cons item payload items payloads hp _ ih =>
      obtain ⟨item', hdecode, hrel⟩ := valueOfPayload_valuePayload hR hleaves
        (hitems item (by simp)) hp (hfits payload (by simp))
      obtain ⟨items', hrels, hdecodes⟩ := ih (fun i hi => hitems i (by simp [hi]))
        fun p hp => hfits p (by simp [hp])
      exact ⟨item' :: items', .cons hrel hrels, .cons hdecode hdecodes⟩

/-- Appending decoded payloads one after the other. -/
theorem foldlM_packedStep_eq {kind : FieldKind} {linked : Option LinkedRef}
    {payloads : List Payload} {items' : List PyVal}
    (h : List.Forall₂ (fun payload item' =>
      valueOfPayload w nested kind linked payload = .ok item') payloads items') :
    ∀ acc, payloads.foldlM (packedStep w nested kind linked) acc = .ok (acc ++ items') := by
  induction h with
  | nil => intro acc; rw [List.append_nil]; rfl
  | cons hp _ ih =>
      intro acc
      rw [List.foldlM_cons, packedStep, hp, ok_bind, ok_bind, ih, List.append_assoc]
      rfl

/-- The decoder reads an entry of a key and a value one after the other. -/
theorem decodeMapEntry_entry (nested : NestedDecoder) {key : ScalarType} {valueKind : MapValue}
    (linked : Option LinkedRef) {kp vp : Payload} (hkey : kp.wire = key.wireType)
    (hvalue : vp.wire = valueKind.kind.expectedWire)
    (hfits : (recordsBytes [⟨1, kp⟩, ⟨2, vp⟩]).length < 2 ^ 64) :
    decodeMapEntry w nested key valueKind linked (recordsBytes [⟨1, kp⟩, ⟨2, vp⟩])
      = scalarOfPayload key kp >>= fun k =>
          valueOfPayload w nested valueKind.kind linked vp >>= fun v => .ok (k, v) := by
  have hreadable : ∀ rec ∈ [(⟨1, kp⟩ : Record), ⟨2, vp⟩], rec.Readable := by
    intro rec hrec
    refine ⟨?_, fits_of_recordsBytes hfits rec hrec⟩
    rcases List.mem_cons.mp hrec with rfl | hrec
    · exact (by decide : ValidNumber 1)
    · rw [List.mem_singleton.mp hrec]
      exact (by decide : ValidNumber 2)
  have hfirst : ∀ entry, mapEntryStep w nested key valueKind linked entry ⟨1, kp⟩
      = scalarOfPayload key kp >>= fun k => .ok (some k, entry.2) := by
    intro entry
    unfold mapEntryStep
    rw [if_pos ⟨rfl, hkey⟩]
  have hsecond : ∀ entry, mapEntryStep w nested key valueKind linked entry ⟨2, vp⟩
      = valueOfPayload w nested valueKind.kind linked vp >>= fun v => .ok (entry.1, some v) := by
    intro entry
    unfold mapEntryStep
    rw [if_neg (by rintro ⟨h, -⟩; cases h), if_pos ⟨rfl, hvalue⟩]
  unfold decodeMapEntry
  rw [show Reader.new (recordsBytes [⟨1, kp⟩, ⟨2, vp⟩]) = ⟨recordsBytes [⟨1, kp⟩, ⟨2, vp⟩], 0⟩ from rfl,
    drainAll_split (mapEntry_body w nested key valueKind linked) (split_recordsBytes hreadable),
    List.foldlM_cons, hfirst]
  cases scalarOfPayload key kp with
  | error e => rfl
  | ok k =>
      rw [ok_bind, ok_bind, ok_bind, List.foldlM_cons, hsecond]
      cases valueOfPayload w nested valueKind.kind linked vp with
      | error e => rfl
      | ok v => rfl

/-- The entry written for a key and a value decodes to the key and a related value. -/
theorem decodeMapEntry_entryPayload (hR : Congruence R) {key : ScalarType} {valueKind : MapValue}
    {linked : Option LinkedRef}
    (hleaves : LeavesDecode w R leaves message plain nested (.map key valueKind) linked)
    {item : PyVal × PyVal} (hkey : key.Holds item.1)
    (hvalue : ValueConforms leaves message valueKind.kind linked item.2) {payload : Payload}
    (hpayload : entryPayload w.runtime plain key valueKind linked item = .ok payload)
    (hfits : payload.Fits) :
    ∃ entry value', payload = .len entry ∧
      decodeMapEntry w nested key valueKind linked entry = .ok (item.1, value') ∧
      R value' item.2 := by
  unfold entryPayload at hpayload
  obtain ⟨kp, hkp, hpayload⟩ := bind_eq_ok.mp hpayload
  obtain ⟨vp, hvp, hpayload⟩ := bind_eq_ok.mp hpayload
  cases hpayload
  obtain ⟨kp', hkp', hkdecode, -⟩ := hkey.roundTrip
  have hkeq : kp = kp' := Except.ok.inj (hkp.symm.trans hkp')
  subst hkeq
  have hrecs : ∀ rec ∈ [(⟨1, kp⟩ : Record), ⟨2, vp⟩], rec.payload.Fits :=
    fits_of_recordsBytes hfits
  obtain ⟨value', hvdecode, hrel⟩ := valueOfPayload_valuePayload hR hleaves.mapValue hvalue hvp
    (hrecs ⟨2, vp⟩ (by simp))
  refine ⟨_, value', rfl, ?_, hrel⟩
  rw [decodeMapEntry_entry nested linked (wire_of_scalarPayload hkp) (wire_of_valuePayload hvp) hfits,
    hkdecode, ok_bind, hvdecode, ok_bind]

end Values

end FastProto
