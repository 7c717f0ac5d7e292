import FastProto.Codec
import FastProto.Nesting

/-! # The nesting limit: the decoder

The decoder, too, is cut off exactly at the paths of the encoded message: in the bytes the encoder
wrote for a message, a payload of a message field is the payload of a message an edge away. -/

namespace FastProto

open Lib Lib.Cursor

/-! ## Nested decoders -/

section Values

variable {w : World} {limited unbounded : NestedDecoder} {e : PyErr} {p : Prop}

/-- Values of kinds without messages are decoded without recursion. -/
theorem valueOfPayload_flat {kind : FieldKind} (hkind : kind ≠ .message)
    (linked : Option LinkedRef) (payload : Payload) :
    valueOfPayload w limited kind linked payload
      = valueOfPayload w unbounded kind linked payload := by
  cases kind with
  | message => exact absurd rfl hkind
  | _ => cases payload <;> rfl

/-- Map entries without messages are decoded without recursion. -/
theorem decodeMapEntry_flat {key : ScalarType} {valueKind : MapValue} (hkind : valueKind ≠ .message)
    (linked : Option LinkedRef) (entry : Bytes) :
    decodeMapEntry w limited key valueKind linked entry
      = decodeMapEntry w unbounded key valueKind linked entry := by
  cases valueKind with
  | message => exact absurd rfl hkind
  | _ => rfl

/-- Repeated fields without messages are decoded without recursion. -/
theorem repeatedOfPayload_flat {kind : FieldKind} (hkind : kind ≠ .message)
    (linked : Option LinkedRef) (payload : Payload) (items : List PyVal) :
    repeatedOfPayload w limited kind linked payload items
      = repeatedOfPayload w unbounded kind linked payload items := by
  cases kind with
  | message => exact absurd rfl hkind
  | _ => cases payload <;> rfl

/-- **The message of a payload is cut off** by what its bytes are. -/
def PayloadCutsOff (w : World) (e : PyErr) (p : Prop) (limited unbounded : NestedDecoder)
    (kind : FieldKind) (linked : Option LinkedRef) (payload : Payload) : Prop :=
  ∀ value, valueOfPayload w unbounded kind linked payload = .ok value →
    CutOff e p (valueOfPayload w limited kind linked payload)
      (valueOfPayload w unbounded kind linked payload)

/-- **The entry of a payload is cut off** by what its bytes are. -/
def EntryCutsOff (w : World) (e : PyErr) (p : Prop) (limited unbounded : NestedDecoder)
    (key : ScalarType) (valueKind : MapValue) (linked : Option LinkedRef) (payload : Payload) : Prop :=
  ∀ entry kv, payload = .len entry →
    decodeMapEntry w unbounded key valueKind linked entry = .ok kv →
    CutOff e p (decodeMapEntry w limited key valueKind linked entry)
      (decodeMapEntry w unbounded key valueKind linked entry)

/-- An element of a repeated field is cut off as its value is. -/
theorem repeatedOfPayload_cutOff {kind : FieldKind} {linked : Option LinkedRef} {payload : Payload}
    (hkind : kind.isPacked = false) (hcut : PayloadCutsOff w e p limited unbounded kind linked payload)
    {items items' : List PyVal}
    (h : repeatedOfPayload w unbounded kind linked payload items = .ok items') :
    CutOff e p (repeatedOfPayload w limited kind linked payload items)
      (repeatedOfPayload w unbounded kind linked payload items) := by
  have hstep : ∀ nested, repeatedOfPayload w nested kind linked payload items
      = packedStep w nested kind linked items payload := by
    intro nested
    cases payload with
    | len chunk => simp only [repeatedOfPayload, hkind, Bool.false_eq_true, if_false]
    | _ => rfl
  rw [hstep] at h
  rw [hstep, hstep]
  obtain ⟨value, hvalue, -⟩ := bind_eq_ok.mp h
  exact (hcut value hvalue).bind_same _

/-- The step of a field that is no map. -/
theorem fieldStep_not_map (nested : NestedDecoder) {desc : Descriptor} {field : FieldDescriptor}
    (hmap : field.kind.isMap = false) (st : DecodeState) (idx : Nat) (payload : Payload) :
    fieldStep w nested desc st idx field payload
      = if field.label = .repeated then
          match (st.claimOneof field idx).values[idx]? with
          | some (some (.list items)) =>
              repeatedOfPayload w nested field.kind (desc.ref field.number) payload items
                >>= fun items => .ok ((st.claimOneof field idx).store idx (.list items))
          | _ => .error (.panicked "called `Option::unwrap()` on a `None` value")
        else
          valueOfPayload w nested field.kind (desc.ref field.number) payload >>= fun value =>
            .ok ((st.claimOneof field idx).store idx value) := by
  unfold fieldStep
  cases hkind : field.kind with
  | map key valueKind => rw [hkind] at hmap; cases hmap
  | _ => rfl

/-- **A message field is cut off as the message of the payload is.** -/
theorem fieldStep_cutOff {desc : Descriptor} {field : FieldDescriptor} (hkind : field.kind = .message)
    {payload : Payload}
    (hcut : PayloadCutsOff w e p limited unbounded .message (desc.ref field.number) payload)
    {st st' : DecodeState} {idx : Nat}
    (h : fieldStep w unbounded desc st idx field payload = .ok st') :
    CutOff e p (fieldStep w limited desc st idx field payload)
      (fieldStep w unbounded desc st idx field payload) := by
  have hmap : field.kind.isMap = false := by rw [hkind]; rfl
  rw [fieldStep_not_map _ hmap] at h
  rw [fieldStep_not_map _ hmap, fieldStep_not_map _ hmap]
  rw [hkind] at h ⊢
  by_cases hlabel : field.label = .repeated
  · rw [if_pos hlabel] at h
    rw [if_pos hlabel, if_pos hlabel]
    split at h
    · obtain ⟨items, hitems, -⟩ := bind_eq_ok.mp h
      exact (repeatedOfPayload_cutOff rfl hcut hitems).bind_same _
    · cases h
  · rw [if_neg hlabel] at h
    rw [if_neg hlabel, if_neg hlabel]
    obtain ⟨value, hvalue, -⟩ := bind_eq_ok.mp h
    exact (hcut value hvalue).bind_same _

/-- **A map field is cut off as the entry of the payload is.** -/
theorem fieldStep_map_cutOff {desc : Descriptor} {field : FieldDescriptor} {key : ScalarType}
    {valueKind : MapValue} (hkind : field.kind = .map key valueKind) {payload : Payload}
    (hcut : EntryCutsOff w e p limited unbounded key valueKind (desc.ref field.number) payload)
    {st st' : DecodeState} {idx : Nat}
    (h : fieldStep w unbounded desc st idx field payload = .ok st') :
    CutOff e p (fieldStep w limited desc st idx field payload)
      (fieldStep w unbounded desc st idx field payload) := by
  unfold fieldStep at h ⊢
  simp only [hkind] at h ⊢
  cases payload with
  | len entry =>
      obtain ⟨kv, hkv, -⟩ := bind_eq_ok.mp h
      exact (hcut entry kv rfl hkv).bind_same _
  | _ => cases h

/-- **A field that refers to no message is decoded without recursion.** -/
theorem fieldStep_flat {desc : Descriptor} {field : FieldDescriptor}
    (hkind : field.kind.refersToMessage = false) (st : DecodeState) (idx : Nat) (payload : Payload) :
    fieldStep w limited desc st idx field payload
      = fieldStep w unbounded desc st idx field payload := by
  by_cases hmap : field.kind.isMap = true
  · obtain ⟨key, valueKind, hmap⟩ := FieldKind.isMap_iff.mp hmap
    have hvalue : valueKind ≠ .message := by
      rintro rfl
      rw [hmap] at hkind
      cases hkind
    unfold fieldStep
    cases payload with
    | len entry => simp only [hmap, @decodeMapEntry_flat w limited unbounded key valueKind hvalue]
    | _ => simp only [hmap]
  · have hnot : field.kind.isMap = false := by simpa using hmap
    have hvalue : field.kind ≠ .message := by
      intro h
      rw [h] at hkind
      cases hkind
    simp only [fieldStep_not_map _ hnot, @valueOfPayload_flat w limited unbounded _ hvalue,
      @repeatedOfPayload_flat w limited unbounded _ hvalue]

end Values

/-! ## What the records of a message carry -/

/-- **A payload carries the bytes of a message**: as a whole, or as the value of a map entry. -/
inductive Carries (field : FieldDescriptor) (data : Bytes) : Payload → Prop
  | message (hkind : field.kind = .message) : Carries field data (.len data)
  | mapValue {key : ScalarType} {kp : Payload} (hkind : field.kind = .map key .message)
      (hwire : kp.wire = key.wireType) :
      Carries field data (.len (recordsBytes [⟨1, kp⟩, ⟨2, .len data⟩]))

/-- **A field is cut off where the message its payload carries is.** -/
theorem Carries.fieldStep_cutOff {w : World} {limited unbounded : NestedDecoder} {e : PyErr}
    {p : Prop} {desc : Descriptor} {field : FieldDescriptor} {data : Bytes} {payload : Payload}
    (hcarries : Carries field data payload) (hfits : payload.Fits)
    (hcut : ∀ value, decodeMessageValue unbounded (desc.ref field.number) data = .ok value →
      CutOff e p (decodeMessageValue limited (desc.ref field.number) data)
        (decodeMessageValue unbounded (desc.ref field.number) data))
    {st st' : DecodeState} {idx : Nat}
    (h : fieldStep w unbounded desc st idx field payload = .ok st') :
    CutOff e p (fieldStep w limited desc st idx field payload)
      (fieldStep w unbounded desc st idx field payload) := by
  cases hcarries with
  | message hkind =>
      have hpayload : PayloadCutsOff w e p limited unbounded .message (desc.ref field.number)
          (.len data) := hcut
      exact FastProto.fieldStep_cutOff hkind hpayload h
  | mapValue hkind hwire =>
      refine fieldStep_map_cutOff hkind (fun entry kv hentry hkv => ?_) h
      cases hentry
      rw [decodeMapEntry_entry _ _ hwire rfl hfits] at hkv
      rw [decodeMapEntry_entry _ _ hwire rfl hfits, decodeMapEntry_entry _ _ hwire rfl hfits]
      obtain ⟨k, hk, hkv⟩ := bind_eq_ok.mp hkv
      obtain ⟨v, hv, -⟩ := bind_eq_ok.mp hkv
      exact CutOff.after hk ((hcut v hv).bind_same _)

section Records

variable {w : World} {plain : NestedPayload PyVal} {desc : Descriptor} {instance_ value : PyVal}
  {field : FieldDescriptor}

/-- The payload of a message is the bytes of the message. -/
theorem carries_of_valuePayload {item : PyVal} {payload : Payload} (hkind : field.kind = .message)
    {linked : Option LinkedRef}
    (h : valuePayload w.runtime plain field.kind item linked = .ok payload) :
    ∃ data, plain item linked = .ok data ∧ Carries field data payload := by
  rw [hkind] at h
  obtain ⟨data, hdata, h⟩ := bind_eq_ok.mp h
  cases h
  exact ⟨data, hdata, .message hkind⟩

/-- The payload of an entry carries the bytes of its value. -/
theorem carries_of_entryPayload {key : ScalarType} {entry : PyVal × PyVal} {payload : Payload}
    (hkind : field.kind = .map key .message) {linked : Option LinkedRef}
    (h : entryPayload w.runtime plain key .message linked entry = .ok payload) :
    ∃ data, plain entry.2 linked = .ok data ∧ Carries field data payload := by
  obtain ⟨kp, hkp, h⟩ := bind_eq_ok.mp h
  obtain ⟨vp, hvp, h⟩ := bind_eq_ok.mp h
  obtain ⟨data, hdata, hvp⟩ := bind_eq_ok.mp hvp
  cases hvp
  cases h
  exact ⟨data, hdata, .mapValue hkind (wire_of_scalarPayload hkp)⟩

/-- **The records of a field carry the messages in its value**: each record one of them, and each of
them in some record. -/
structure FieldCarries (w : World) (plain : NestedPayload PyVal) (desc : Descriptor)
    (field : FieldDescriptor) (value : PyVal) (recs : List Record) : Prop where
  accepted : ∀ rec ∈ recs, field.accepts rec.payload.wire = true
  source : field.kind.refersToMessage = true → ∀ rec ∈ recs, ∃ item data,
    w.runtime.Holds field value item ∧ plain item (desc.ref field.number) = .ok data ∧
      Carries field data rec.payload
  target : ∀ item, w.runtime.Holds field value item → ∃ data,
    plain item (desc.ref field.number) = .ok data ∧ ∃ rec ∈ recs, Carries field data rec.payload

/-- The records of a map carry its values. -/
theorem fieldCarries_map {key : ScalarType} {valueKind : MapValue}
    (hkind : field.kind = .map key valueKind) {recs : List Record}
    (h : mapRecords w.runtime plain field.number key valueKind value (desc.ref field.number)
      = .ok recs) : FieldCarries w plain desc field value recs := by
  unfold mapRecords at h
  split at h
  case h_2 => cases h
  rename_i items hview
  obtain ⟨payloads, hpayloads, h⟩ := bind_eq_ok.mp h
  cases h
  have hall := mapM_eq_ok.mp hpayloads
  refine ⟨fun rec hrec => ?_, fun hrefers rec hrec => ?_, fun item hitem => ?_⟩
  · obtain ⟨payload, hmem, rfl⟩ := List.mem_map.mp hrec
    obtain ⟨entry, -, hpayload⟩ := exists_left_of_forall₂ hall hmem
    obtain ⟨kp, -, hp⟩ := bind_eq_ok.mp hpayload
    obtain ⟨vp, -, hp⟩ := bind_eq_ok.mp hp
    cases hp
    unfold FieldDescriptor.accepts
    split
    · rfl
    · rw [hkind]; rfl
  · obtain ⟨payload, hmem, rfl⟩ := List.mem_map.mp hrec
    obtain ⟨entry, hentry, hpayload⟩ := exists_left_of_forall₂ hall hmem
    have hvalue : valueKind = .message := by
      rw [hkind] at hrefers
      cases valueKind with
      | message => rfl
      | _ => cases hrefers
    subst hvalue
    obtain ⟨data, hdata, hcarries⟩ := carries_of_entryPayload hkind hpayload
    exact ⟨entry.2, data, .mapValue hkind hview hentry, hdata, hcarries⟩
  · obtain ⟨items', hview', entry, hentry, rfl, rfl⟩ := (Runtime.holds_map hkind).mp hitem
    rw [hview] at hview'
    cases hview'
    obtain ⟨payload, hmem, hpayload⟩ := exists_right_of_forall₂ hall hentry
    obtain ⟨data, hdata, hcarries⟩ := carries_of_entryPayload hkind hpayload
    exact ⟨data, hdata, _, List.mem_map.mpr ⟨payload, hmem, rfl⟩, hcarries⟩

/-- A kind without entries that refers to messages is that of messages. -/
theorem FieldKind.eq_message {kind : FieldKind} (hmap : kind.isMap = false)
    (hrefers : kind.refersToMessage = true) : kind = .message := by
  cases kind with
  | message => rfl
  | map key valueKind => cases hmap
  | _ => cases hrefers

/-- The records of a repeated field carry its items. -/
theorem fieldCarries_repeated (hmap : field.kind.isMap = false) (hlabel : field.label = .repeated)
    {recs : List Record}
    (h : repeatedRecords w.runtime plain field.number field.kind value (desc.ref field.number)
      = .ok recs) : FieldCarries w plain desc field value recs := by
  obtain ⟨items, payloads, hitems, hpayloads, rfl⟩ : ∃ items payloads,
      w.runtime.items value = .ok items ∧
      (items.mapM fun item => valuePayload w.runtime plain field.kind item (desc.ref field.number))
        = .ok payloads ∧
      recs = if field.kind.isPacked then packedRecords field.number payloads
        else payloads.map fun payload => ⟨field.number, payload⟩ := by
    unfold repeatedRecords at h
    split at h
    · cases h
    · cases hk : field.kind with
      | map key valueKind => rw [hk] at hmap; cases hmap
      | _ =>
          rw [hk] at h
          obtain ⟨items, hitems, h⟩ := bind_eq_ok.mp h
          obtain ⟨payloads, hpayloads, h⟩ := bind_eq_ok.mp h
          exact ⟨items, payloads, hitems, hpayloads, (Except.ok.inj h).symm⟩
  have hall := mapM_eq_ok.mp hpayloads
  -- messages are never packed
  have hnot : field.kind = .message → field.kind.isPacked = false := fun hkind => by rw [hkind]; rfl
  refine ⟨fun rec hrec => ?_, fun hrefers rec hrec => ?_, fun item hitem => ?_⟩
  · unfold FieldDescriptor.accepts FieldKind.takesRepeated
    rw [if_pos hlabel]
    split at hrec
    · unfold packedRecords at hrec
      dsimp only at hrec
      split at hrec
      · cases hrec
      · obtain rfl := List.mem_singleton.mp hrec
        rfl
    · obtain ⟨payload, hmem, rfl⟩ := List.mem_map.mp hrec
      obtain ⟨item, -, hpayload⟩ := exists_left_of_forall₂ hall hmem
      simp [wire_of_valuePayload hpayload]
  · have hkind := FieldKind.eq_message hmap hrefers
    rw [if_neg (by simp [hnot hkind])] at hrec
    obtain ⟨payload, hmem, rfl⟩ := List.mem_map.mp hrec
    obtain ⟨item, hitem, hpayload⟩ := exists_left_of_forall₂ hall hmem
    obtain ⟨data, hdata, hcarries⟩ := carries_of_valuePayload hkind hpayload
    exact ⟨item, data, .item hkind hlabel hitems hitem, hdata, hcarries⟩
  · obtain ⟨items', hitems', hmem, hkind⟩ := (Runtime.holds_repeated hmap hlabel).mp hitem
    rw [hitems] at hitems'
    cases hitems'
    obtain ⟨payload, hp, hpayload⟩ := exists_right_of_forall₂ hall hmem
    obtain ⟨data, hdata, hcarries⟩ := carries_of_valuePayload hkind hpayload
    refine ⟨data, hdata, ⟨field.number, payload⟩, ?_, hcarries⟩
    rw [if_neg (by simp [hnot hkind])]
    exact List.mem_map.mpr ⟨payload, hp, rfl⟩

/-- The record of a singular field carries its value. -/
theorem fieldCarries_singular (hmap : field.kind.isMap = false) (hlabel : field.label ≠ .repeated)
    (hset : field.label = .optional → (w.runtime.view value).isNone = false) {payload : Payload}
    (h : valuePayload w.runtime plain field.kind value (desc.ref field.number) = .ok payload) :
    FieldCarries w plain desc field value [⟨field.number, payload⟩] := by
  refine ⟨fun rec hrec => ?_, fun hrefers rec hrec => ?_, fun item hitem => ?_⟩
  · obtain rfl := List.mem_singleton.mp hrec
    unfold FieldDescriptor.accepts
    rw [if_neg hlabel, wire_of_valuePayload h]
    exact decide_eq_true rfl
  · obtain rfl := List.mem_singleton.mp hrec
    have hkind := FieldKind.eq_message hmap hrefers
    obtain ⟨data, hdata, hcarries⟩ := carries_of_valuePayload hkind h
    exact ⟨value, data, .singular hkind hlabel hset, hdata, hcarries⟩
  · obtain ⟨hkind, -, rfl⟩ := (Runtime.holds_singular hmap hlabel).mp hitem
    obtain ⟨data, hdata, hcarries⟩ := carries_of_valuePayload hkind h
    exact ⟨data, hdata, _, List.mem_singleton_self _, hcarries⟩

/-- A field that writes nothing has no message in its value. -/
theorem fieldCarries_nil (hmap : field.kind.isMap = false) (hlabel : field.label ≠ .repeated)
    (hnone : field.kind = .message → field.label = .optional ∧ (w.runtime.view value).isNone = true) :
    FieldCarries w plain desc field value [] := by
  refine ⟨by simp, by simp, fun item hitem => ?_⟩
  obtain ⟨hkind, hset, -⟩ := (Runtime.holds_singular hmap hlabel).mp hitem
  obtain ⟨hoptional, hnone⟩ := hnone hkind
  rw [hset hoptional] at hnone
  cases hnone

/-- **The records of a field carry the messages in its value.** -/
theorem fieldRecords_carries (hget : w.runtime.getattr instance_ field.name = .ok value)
    {counts counts' : List Nat} {recs : List Record}
    (h : fieldRecords w.runtime plain desc instance_ counts field = .ok (recs, counts')) :
    FieldCarries w plain desc field value recs := by
  by_cases hmap : field.kind.isMap = true
  · obtain ⟨key, valueKind, hkind⟩ := FieldKind.isMap_iff.mp hmap
    rw [fieldRecords_map _ _ hget hkind] at h
    obtain ⟨recs', hrecs, h⟩ := bind_eq_ok.mp h
    cases h
    exact fieldCarries_map hkind hrecs
  · have hnot : field.kind.isMap = false := by simpa using hmap
    cases hlabel : field.label with
    | repeated =>
        rw [fieldRecords_repeated _ _ hget hnot hlabel] at h
        obtain ⟨recs', hrecs, h⟩ := bind_eq_ok.mp h
        cases h
        exact fieldCarries_repeated hnot hlabel hrecs
    | optional =>
        by_cases hnone : (w.runtime.view value).isNone = true
        · rw [fieldRecords_none _ _ hget hnot hlabel hnone] at h
          cases h
          exact fieldCarries_nil hnot (by simp [hlabel]) fun _ => ⟨hlabel, hnone⟩
        · rw [fieldRecords_some _ _ hget hnot hlabel (by simpa using hnone)] at h
          obtain ⟨counts₁, -, h⟩ := bind_eq_ok.mp h
          obtain ⟨payload, hpayload, h⟩ := bind_eq_ok.mp h
          cases h
          exact fieldCarries_singular hnot (by simp [hlabel]) (fun _ => by simpa using hnone) hpayload
    | single =>
        rw [fieldRecords_single _ _ hget hnot hlabel] at h
        obtain ⟨payload, hpayload, h⟩ := bind_eq_ok.mp h
        cases h
        split
        · rename_i hskip
          refine fieldCarries_nil hnot (by simp [hlabel]) fun hkind => ?_
          rw [hkind] at hskip
          cases hskip
        · exact fieldCarries_singular hnot (by simp [hlabel]) (by simp [hlabel]) hpayload

/-- **The records of the fields are the records of each of them.** -/
theorem fieldsRecords_parts {fields : List FieldDescriptor} {st out : List Record × List Nat}
    (h : fieldsRecords w.runtime plain desc instance_ fields st = .ok out) :
    (∀ rec ∈ st.1, rec ∈ out.1) ∧
    (∀ rec ∈ out.1, rec ∈ st.1 ∨ ∃ field ∈ fields, ∃ counts part, rec ∈ part.1 ∧
      fieldRecords w.runtime plain desc instance_ counts field = .ok part) ∧
    ∀ field ∈ fields, ∃ counts part, (∀ rec ∈ part.1, rec ∈ out.1) ∧
      fieldRecords w.runtime plain desc instance_ counts field = .ok part := by
  induction fields generalizing st with
  | nil =>
      cases h
      exact ⟨fun _ hrec => hrec, fun _ hrec => .inl hrec, fun _ hf => (List.not_mem_nil hf).elim⟩
  | cons field fields ih =>
      unfold fieldsRecords at h
      rw [List.foldlM_cons] at h
      obtain ⟨st', hstep, h⟩ := bind_eq_ok.mp h
      obtain ⟨part, hpart, hstep⟩ := bind_eq_ok.mp hstep
      cases hstep
      obtain ⟨hkept, hsource, htarget⟩ := ih h
      have hpartOut : ∀ rec ∈ part.1, rec ∈ out.1 := fun rec hrec =>
        hkept rec (List.mem_append_right _ hrec)
      refine ⟨fun rec hrec => hkept rec (List.mem_append_left _ hrec), fun rec hrec => ?_,
        fun f hf => ?_⟩
      · rcases hsource rec hrec with hrec | ⟨f, hf, counts, part', hrec, hpart'⟩
        · rcases List.mem_append.mp hrec with hrec | hrec
          · exact .inl hrec
          · exact .inr ⟨field, List.mem_cons_self .., _, part, hrec, hpart⟩
        · exact .inr ⟨f, List.mem_cons_of_mem _ hf, counts, part', hrec, hpart'⟩
      · rcases List.mem_cons.mp hf with rfl | hf
        · exact ⟨_, part, hpartOut, hpart⟩
        · exact htarget f hf

end Records

/-! ## Typed trees -/

/-- **A message whose parts are where its type has them**: its unknown bytes are fields it does not
recognise, and the messages in its fields are of the classes linked for them. -/
structure World.Typed (w : World) (s : PyVal × DescId) : Prop where
  unknown : ∀ unknown, unknownOf w.runtime s.1 = .ok unknown →
    UnknownConforms (w.descriptor s.2).inner unknown
  nested : ∀ field ∈ (w.descriptor s.2).inner.fields, ∀ value item,
    w.runtime.getattr s.1 field.name = .ok value → w.runtime.Holds field value item →
    ∃ linked attrs, (w.descriptor s.2).ref field.number = some linked ∧ item = .inst linked.cls attrs

/-- **A typed tree**: all messages on paths from the root are typed. -/
def World.TypedTree (w : World) (s : PyVal × DescId) : Prop :=
  ∀ n t, w.runtime.Path n s t → w.Typed t

/-- The messages an edge away are typed trees. -/
theorem World.TypedTree.edge {w : World} {s t : PyVal × DescId} (h : w.TypedTree s)
    (hedge : w.runtime.Edge s t) : w.TypedTree t :=
  fun n u hpath => h (n + 1) u (.cons hedge hpath)

/-- The root is typed. -/
theorem World.TypedTree.root {w : World} {s : PyVal × DescId} (h : w.TypedTree s) : w.Typed s :=
  h 0 s (.nil s)

section Carries

variable {field : FieldDescriptor} {data : Bytes} {payload : Payload}

/-- The field takes the payload. -/
theorem Carries.accepts (h : Carries field data payload) : field.accepts payload.wire = true := by
  unfold FieldDescriptor.accepts
  cases h with
  | message hkind =>
      split
      · rfl
      · rw [hkind]; rfl
  | mapValue hkind =>
      split
      · rfl
      · rw [hkind]; rfl

/-- The field refers to messages. -/
theorem Carries.refers (h : Carries field data payload) : field.kind.refersToMessage = true := by
  cases h with
  | message hkind => rw [hkind]; rfl
  | mapValue hkind => rw [hkind]; rfl

/-- The message is no longer than the payload. -/
theorem Carries.length (h : Carries field data payload) (hfits : payload.Fits) :
    data.length < 2 ^ 64 := by
  cases h with
  | message => exact hfits
  | @mapValue key kp =>
      have hrecs : ∀ rec ∈ [(⟨1, kp⟩ : Record), ⟨2, .len data⟩], rec.payload.Fits :=
        fits_of_recordsBytes hfits
      exact hrecs ⟨2, .len data⟩ (by simp)

end Carries

/-! ## The decoder is cut off at the paths of the message encoded -/

section Decode

variable {w : World} {dom : ClassId → DescId → Prop}

/-- A segment carries a message an edge away from which a path goes on. -/
def LeadsDeep (w : World) (plain : NestedPayload PyVal) (levels : Nat) (s : PyVal × DescId)
    (seg : Segment) : Prop :=
  ∃ field ∈ (w.descriptor s.2).inner.fields, ∃ value data t, seg.number = field.number ∧
    w.runtime.getattr s.1 field.name = .ok value ∧ w.runtime.Holds field value t.1 ∧
    nestedDescriptor w.runtime t.1 ((w.descriptor s.2).ref field.number) = .ok t.2 ∧
    plain t.1 ((w.descriptor s.2).ref field.number) = .ok data ∧ Carries field data seg.payload ∧
    w.runtime.Deep levels t

/-- **The decoder with `levels` levels is cut off at the paths that exceed them**, on the encoding of a
typed tree and against the decoder with levels that suffice. -/
def DecodesCutOff (w : World) (dom : ClassId → DescId → Prop) (levels : Nat) : Prop :=
  ∀ above below cls s recs unknown value, dom cls s.2 → w.TypedTree s →
    messageRecords w.runtime above s.1 s.2 = .ok (recs, unknown) →
    (recordsBytes recs ++ unknown).length < 2 ^ 64 →
    decodeMessage w below cls s.2 (recordsBytes recs ++ unknown) = .ok value →
    CutOff nestingError (w.runtime.Deep levels s)
      (decodeMessage w levels cls s.2 (recordsBytes recs ++ unknown))
      (decodeMessage w below cls s.2 (recordsBytes recs ++ unknown))

/-- The message in a field is decoded by the class linked for the field. -/
theorem DecodesCutOff.nested {levels : Nat} (hfam : Family w dom) (h : DecodesCutOff w dom levels)
    {cls : ClassId} {s : PyVal × DescId} (hdom : dom cls s.2) (htree : w.TypedTree s)
    {field : FieldDescriptor} (hfield : field ∈ (w.descriptor s.2).inner.fields) {value item : PyVal}
    (hget : w.runtime.getattr s.1 field.name = .ok value) (hitem : w.runtime.Holds field value item)
    {above : Nat} {data : Bytes}
    (hdata : plainPayload w.runtime above item ((w.descriptor s.2).ref field.number) = .ok data)
    (hlength : data.length < 2 ^ 64) (hrefers : field.kind.refersToMessage = true) :
    ∃ d, nestedDescriptor w.runtime item ((w.descriptor s.2).ref field.number) = .ok d ∧
      ∀ below v,
        decodeMessageValue (decodeMessage w below) ((w.descriptor s.2).ref field.number) data = .ok v →
        CutOff nestingError (w.runtime.Deep levels (item, d))
          (decodeMessageValue (decodeMessage w levels) ((w.descriptor s.2).ref field.number) data)
          (decodeMessageValue (decodeMessage w below) ((w.descriptor s.2).ref field.number) data) := by
  obtain ⟨cls', d, href, hproto, hdom'⟩ := hfam.messages cls s.2 hdom field hfield hrefers
  obtain ⟨linked, attrs, hlinked, rfl⟩ := htree.root.nested field hfield value item hget hitem
  have hlink : buildLinkedRef cls' (w.cls cls') = { cls := cls', desc := some d } := by
    simp [buildLinkedRef, hproto]
  rw [hlink] at href
  rw [href] at hlinked
  cases hlinked
  have hnested : nestedDescriptor w.runtime (.inst cls' attrs)
      ((w.descriptor s.2).ref field.number) = .ok d := by
    rw [href]
    simp [nestedDescriptor, World.runtime, PyVal.shape]
  obtain ⟨d', hd', hdata⟩ := bind_eq_ok.mp hdata
  rw [hnested] at hd'
  cases hd'
  obtain ⟨⟨recs, unknown⟩, hrecs, hdata⟩ := bind_eq_ok.mp hdata
  cases hdata
  refine ⟨d, hnested, fun below v hv => ?_⟩
  rw [href] at hv ⊢
  exact h above below cls' (_, d) recs unknown v hdom'
    (htree.edge ⟨field, hfield, value, hget, hitem, hnested⟩) hrecs hlength hv

/-- The step of a segment that carries a message is cut off where the message leads deep. -/
theorem DecodesCutOff.step {levels : Nat} (hfam : Family w dom) (h : DecodesCutOff w dom levels)
    {cls : ClassId} {s : PyVal × DescId} (hdom : dom cls s.2) (htree : w.TypedTree s)
    {field : FieldDescriptor} (hfield : field ∈ (w.descriptor s.2).inner.fields) {value item : PyVal}
    (hget : w.runtime.getattr s.1 field.name = .ok value) (hitem : w.runtime.Holds field value item)
    {above : Nat} {data : Bytes}
    (hdata : plainPayload w.runtime above item ((w.descriptor s.2).ref field.number) = .ok data)
    {payload : Payload} (hcarries : Carries field data payload) (hfits : payload.Fits) {idx : Nat}
    (hrec : (w.descriptor s.2).inner.Recognizes idx field) {below : Nat} {st st' : DecodeState}
    (hstep : segmentStep w (decodeMessage w below) (w.descriptor s.2) st
      (⟨field.number, payload⟩ : Record).segment = .ok st') :
    ∃ d, nestedDescriptor w.runtime item ((w.descriptor s.2).ref field.number) = .ok d ∧
      CutOff nestingError (w.runtime.Deep levels (item, d))
        (segmentStep w (decodeMessage w levels) (w.descriptor s.2) st
          (⟨field.number, payload⟩ : Record).segment)
        (segmentStep w (decodeMessage w below) (w.descriptor s.2) st
          (⟨field.number, payload⟩ : Record).segment) := by
  obtain ⟨d, hd, hcut⟩ := h.nested hfam hdom htree hfield hget hitem hdata
    (hcarries.length hfits) hcarries.refers
  refine ⟨d, hd, ?_⟩
  rw [segmentStep_record hrec hcarries.accepts] at hstep
  rw [segmentStep_record hrec hcarries.accepts, segmentStep_record hrec hcarries.accepts]
  exact hcarries.fieldStep_cutOff hfits (hcut below) hstep

/-- **The step of a record of the message is cut off where it leads deep.** -/
theorem DecodesCutOff.record {levels : Nat} (hfam : Family w dom) (h : DecodesCutOff w dom levels)
    {cls : ClassId} {s : PyVal × DescId} (hdom : dom cls s.2) (htree : w.TypedTree s)
    {field : FieldDescriptor} (hfield : field ∈ (w.descriptor s.2).inner.fields) {above : Nat}
    {counts : List Nat} {part : List Record × List Nat}
    (hpart : fieldRecords w.runtime (plainPayload w.runtime above) (w.descriptor s.2) s.1 counts field
      = .ok part) {rec : Record} (hrec : rec ∈ part.1) (hfits : rec.payload.Fits) {below : Nat}
    {st st' : DecodeState}
    (hstep : segmentStep w (decodeMessage w below) (w.descriptor s.2) st rec.segment = .ok st') :
    CutOff nestingError (LeadsDeep w (plainPayload w.runtime above) levels s rec.segment)
      (segmentStep w (decodeMessage w levels) (w.descriptor s.2) st rec.segment)
      (segmentStep w (decodeMessage w below) (w.descriptor s.2) st rec.segment) := by
  have hgen := hfam.generated cls s.2 hdom
  obtain ⟨value, hget, -⟩ := bind_eq_ok.mp hpart
  have hcarry := fieldRecords_carries hget hpart
  have hnumber := number_of_fieldRecords hpart rec hrec
  obtain ⟨idx, hidx⟩ := List.mem_iff_getElem?.mp hfield
  have hrecognizes := recognizes_of_nodup hgen.numbers hidx
  obtain ⟨number, payload⟩ := rec
  dsimp only at hnumber
  subst hnumber
  -- only this field can be the one the record leads deep through
  have hsame : ∀ field' ∈ (w.descriptor s.2).inner.fields, field.number = field'.number →
      field' = field := fun field' hfield' hnum => eq_of_number hgen.numbers hfield' hfield hnum.symm
  by_cases hrefers : field.kind.refersToMessage = true
  · obtain ⟨item, data, hitem, hdata, hcarries⟩ := hcarry.source hrefers _ hrec
    obtain ⟨d, hd, hcut⟩ := h.step hfam hdom htree hfield hget hitem hdata hcarries hfits hrecognizes
      hstep
    refine hcut.congr ⟨fun hdeep => ?_, ?_⟩
    · exact ⟨field, hfield, value, data, (item, d), rfl, hget, hitem, hd, hdata, hcarries, hdeep⟩
    · rintro ⟨field', hfield', value', data', ⟨item', d'⟩, hnum, hget', hitem', hd', hdata',
        hcarries', hdeep⟩
      obtain rfl := hsame field' hfield' hnum
      obtain ⟨d'', hd'', hcut'⟩ := h.step hfam hdom htree hfield hget' hitem' hdata' hcarries' hfits
        hrecognizes hstep
      rw [hd''] at hd'
      cases hd'
      exact (hcut.eq_error_iff hstep).mp (hcut'.cut hdeep)
  · have hcongr : ∀ nested, segmentStep w nested (w.descriptor s.2) st
        (⟨field.number, payload⟩ : Record).segment
          = fieldStep w (decodeMessage w below) (w.descriptor s.2) st idx field payload := by
      intro nested
      rw [segmentStep_record hrecognizes (hcarry.accepted _ hrec)]
      exact fieldStep_flat (by simpa using hrefers) st idx payload
    rw [hcongr, hcongr]
    refine (CutOff.refl _).congr ⟨False.elim, ?_⟩
    rintro ⟨field', hfield', value', data', t, hnum, -, -, -, -, hcarries, -⟩
    obtain rfl := hsame field' hfield' hnum
    exact hrefers hcarries.refers

/-- A segment that no field takes leads nowhere. -/
theorem not_leadsDeep (hnumbers : ((w.descriptor s.2).inner.fields.map (·.number)).Nodup)
    {plain : NestedPayload PyVal} {levels : Nat} {seg : Segment}
    (hseg : (w.descriptor s.2).inner.recognize seg.number seg.payload.wire = none) :
    ¬ LeadsDeep w plain levels s seg := by
  rintro ⟨field, hfield, value, data, t, hnum, -, -, -, -, hcarries, -⟩
  obtain ⟨idx, hidx⟩ := List.mem_iff_getElem?.mp hfield
  rw [hnum, recognizes_of_nodup hnumbers hidx _ hcarries.accepts] at hseg
  cases hseg

/-- **The decoder is cut off at the paths that exceed its levels**, on the encoding of a typed tree. -/
theorem decodesCutOff (hfam : Family w dom) (levels : Nat) : DecodesCutOff w dom levels := by
  induction levels with
  | zero =>
      intro above below cls s recs unknown value _ _ _ _ _
      exact ⟨fun _ => rfl, fun h => (h (w.runtime.deep_zero s)).elim⟩
  | succ levels ih =>
      intro above below cls s recs unknown value hdom htree hrecs hlength hvalue
      obtain ⟨above, rfl⟩ : ∃ n, above = n + 1 := by
        cases above with
        | zero => cases hrecs
        | succ n => exact ⟨n, rfl⟩
      obtain ⟨below, rfl⟩ : ∃ n, below = n + 1 := by
        cases below with
        | zero => cases hvalue
        | succ n => exact ⟨n, rfl⟩
      have hgen := hfam.generated cls s.2 hdom
      rw [messageRecords_succ, World.runtime_descriptor] at hrecs
      obtain ⟨⟨frecs, counts⟩, hfields, hrecs⟩ := bind_eq_ok.mp hrecs
      obtain ⟨_, -, hrecs⟩ := bind_eq_ok.mp hrecs
      obtain ⟨unknown', hunknown, hrecs⟩ := bind_eq_ok.mp hrecs
      obtain ⟨rfl, rfl⟩ : frecs = recs ∧ unknown' = unknown := by simpa using hrecs
      obtain ⟨-, hsource, htarget⟩ := fieldsRecords_parts hfields
      have hfits : ∀ rec ∈ frecs, rec.payload.Fits := fits_of_recordsBytes (by
        rw [List.length_append] at hlength
        omega)
      have hsource : ∀ rec ∈ frecs, ∃ field ∈ (w.descriptor s.2).inner.fields, ∃ counts part,
          rec ∈ part.1 ∧ fieldRecords w.runtime (plainPayload w.runtime above) (w.descriptor s.2) s.1
            counts field = .ok part := fun rec hrec => (hsource rec hrec).resolve_left nofun
      have hreadable : ∀ rec ∈ frecs, rec.Readable := fun rec hrec => by
        obtain ⟨field, hfield, counts, part, hmem, hpart⟩ := hsource rec hrec
        exact ⟨number_of_fieldRecords hpart rec hmem ▸ hgen.valid field hfield, hfits rec hrec⟩
      obtain ⟨segs, hsplit, hunrecognized⟩ := htree.root.unknown _ hunknown
      have hsegs := (split_segments hreadable).append hsplit
      rw [decodeMessage_split hgen.wellFormed hsegs] at hvalue
      rw [decodeMessage_split hgen.wellFormed hsegs, decodeMessage_split hgen.wellFormed hsegs]
      obtain ⟨st, hfold, -⟩ := bind_eq_ok.mp hvalue
      -- record by record: the limit is met below a record iff the tree is deep there
      refine ((CutOff.foldlM (p := LeadsDeep w (plainPayload w.runtime above) levels s) hfold
        fun seg hseg st st' hstep => ?_).bind_same _).congr ?_
      · rcases List.mem_append.mp hseg with hseg | hseg
        · obtain ⟨rec, hrec, rfl⟩ := List.mem_map.mp hseg
          obtain ⟨field, hfield, counts, part, hmem, hpart⟩ := hsource rec hrec
          exact ih.record hfam hdom htree hfield hpart hmem (hfits rec hrec) hstep
        · -- unknown bytes are kept without being read, however deep
          have hkeep : ∀ nested, segmentStep w nested (w.descriptor s.2) st seg
              = .ok (st.keep seg.raw) := by
            intro nested
            unfold segmentStep
            rw [hunrecognized seg hseg]
          rw [hkeep, hkeep]
          exact (CutOff.refl _).congr
            ⟨False.elim, not_leadsDeep hgen.numbers (hunrecognized seg hseg)⟩
      · rw [Runtime.deep_succ]
        constructor
        · rintro ⟨seg, -, field, hfield, value, data, t, -, hget, hitem, hd, -, -, hdeep⟩
          exact ⟨t, ⟨field, hfield, value, hget, hitem, hd⟩, hdeep⟩
        · rintro ⟨t, ⟨field, hfield, value, hget, hitem, hd⟩, hdeep⟩
          obtain ⟨counts, part, hkept, hpart⟩ := htarget field hfield
          obtain ⟨data, hdata, rec, hrec, hcarries⟩ := (fieldRecords_carries hget hpart).target _ hitem
          exact ⟨rec.segment, List.mem_append_left _ (List.mem_map_of_mem (hkept rec hrec)), field,
            hfield, value, data, t, number_of_fieldRecords hpart rec hrec, hget, hitem, hd, hdata,
            hcarries, hdeep⟩

end Decode

/-! ## Messages that conform -/

section Conforming

variable {w : World} {dom : ClassId → DescId → Prop} {leaves : Leaves}

/-- A field with messages in its value refers to messages. -/
theorem Runtime.Holds.refers {V : Type} {rt : Runtime V} {field : FieldDescriptor} {value item : V}
    (h : rt.Holds field value item) : field.kind.refersToMessage = true := by
  cases h with
  | singular hkind => rw [hkind]; rfl
  | item hkind => rw [hkind]; rfl
  | mapValue hkind => rw [hkind]; rfl

/-- The messages in the value of a conforming field conform. -/
theorem Runtime.Holds.conforms {message : Option LinkedRef → PyVal → Prop} {desc : Descriptor}
    {field : FieldDescriptor} {oneofs : Nat} (hshape : field.Shaped oneofs) {value item : PyVal}
    (h : FieldConforms leaves message desc field value) (hitem : w.runtime.Holds field value item) :
    message (desc.ref field.number) item := by
  cases hitem with
  | singular hkind hlabel hset =>
      have hmap : field.kind.isMap = false := by rw [hkind]; rfl
      have hseen := h.resolve_left fun ⟨hoptional, hnone⟩ => by
        have hsome := hset hoptional
        rw [World.runtime_view, isNone_shape.mpr hnone] at hsome
        cases hsome
      rw [seenConforms_singular hmap hlabel, hkind] at hseen
      exact hseen
  | item hkind hlabel hitems hmem =>
      have hmap : field.kind.isMap = false := by rw [hkind]; rfl
      have hseen := h.resolve_left fun ⟨hoptional, _⟩ => by rw [hlabel] at hoptional; cases hoptional
      rw [seenConforms_repeated hmap hlabel, hkind] at hseen
      obtain ⟨items, rfl, hvalues⟩ := hseen
      cases hitems
      exact hvalues item hmem
  | mapValue hkind hview hmem =>
      have hseen := h.resolve_left fun ⟨hoptional, _⟩ => by
        rw [(hshape.map_single _ _ hkind).1] at hoptional
        cases hoptional
      rw [seenConforms_map hkind] at hseen
      obtain ⟨items, rfl, -, hvalues⟩ := hseen
      cases hview
      exact (hvalues _ hmem).2

/-- **A message that conforms is a typed tree.** -/
theorem Conforms.typedTree (hfam : Family w dom) (levels : Nat) : ∀ cls s, dom cls s.2 →
    Conforms w leaves levels cls s.2 s.1 → w.TypedTree s := by
  induction levels with
  | zero => exact fun _ _ _ h => h.elim
  | succ levels ih =>
      rintro cls ⟨m, descId⟩ hdom ⟨values, unknown, hm, hparts⟩
      dsimp only at hdom hm hparts
      subst hm
      have hgen := hfam.generated cls descId hdom
      have hlen : values.length = (w.descriptor descId).inner.fields.length :=
        hparts.fields.length_eq.symm
      -- what a field holds conforms: the values stand in the order of the fields
      have hnested : ∀ field ∈ (w.descriptor descId).inner.fields, ∀ value item,
          w.runtime.getattr (instanceOf cls (w.descriptor descId) values unknown) field.name
            = .ok value → w.runtime.Holds field value item →
          NestedConforms (Conforms w leaves levels) ((w.descriptor descId).ref field.number) item := by
        intro field hfield value item hget hitem
        obtain ⟨i, hi, rfl⟩ := List.mem_iff_getElem.mp hfield
        have hp : ((w.descriptor descId).inner.fields[i], values[i])
            ∈ (w.descriptor descId).inner.fields.zip values :=
          List.mem_iff_getElem.mpr ⟨i, by rw [List.length_zip]; omega, List.getElem_zip⟩
        rw [getattr_instanceOf hgen unknown hlen hp] at hget
        cases hget
        exact hitem.conforms (hgen.wellFormed.shaped _ hfield) (List.forall₂_zip hparts.fields hp)
      -- along the path: the message itself, or a message one edge down
      intro n t hpath
      cases hpath with
      | nil =>
          refine ⟨fun unknown' hunknown => ?_, fun field hfield value item hget hitem => ?_⟩
          · rw [unknownOf_instanceOf hgen hlen] at hunknown
            cases hunknown
            exact hparts.unknown
          · obtain ⟨cls', desc', href, -, -, ⟨attrs, rfl⟩, -⟩ := hfam.nested_of_conforms hdom hfield
              hitem.refers (hnested field hfield value item hget hitem)
            exact ⟨_, attrs, href, rfl⟩
      | @cons n _ t _ hedge hpath =>
          obtain ⟨field, hfield, value, hget, hitem, hd⟩ := hedge
          obtain ⟨cls', desc', href, hdom', hconf, -, hdescriptor⟩ := hfam.nested_of_conforms hdom
            hfield hitem.refers (hnested field hfield value _ hget hitem)
          rw [World.runtime_descriptor, href, hdescriptor] at hd
          obtain rfl := Except.ok.inj hd
          exact ih cls' _ hdom' hconf n _ hpath

end Conforming

/-! ## The limit of the codec -/

/-- **A path of more than `MAX_DEPTH` message edges** starts at a message. -/
def Runtime.TooDeep {V : Type} (rt : Runtime V) (s : V × DescId) : Prop :=
  ∃ n t, maxDepth < n ∧ rt.Path n s t

/-- The encoder refuses what it could encode without the limit where a path is too long. -/
theorem encode_nesting {V : Type} {rt : Runtime V} {descId : DescId} {instance_ : V} {levels : Nat}
    {out : Bytes} (h : encodeMessage rt levels instance_ descId [] = .ok out) :
    encode rt descId instance_ = .error nestingError ↔ rt.TooDeep (instance_, descId) := by
  unfold encode Runtime.TooDeep
  rw [(encode_cutOff h (maxDepth + 1)).eq_error_iff h, Runtime.deep_succ_iff_exists]

/-- The decoder refuses what it could decode without the limit where a path is too long. -/
theorem decode_nesting {w : World} {dom : ClassId → DescId → Prop} (hfam : Family w dom)
    {cls : ClassId} {descId : DescId} (hdom : dom cls descId) {m m' : PyVal}
    (htree : w.TypedTree (m, descId)) {levels below : Nat} {out : Bytes}
    (hout : encodeMessage w.runtime levels m descId [] = .ok out) (hlen : out.length ≤ isizeMax)
    (h : decodeMessage w below cls descId out = .ok m') :
    decode w descId cls out = .error nestingError ↔ w.runtime.TooDeep (m, descId) := by
  obtain ⟨recs, unknown, hrecs, rfl⟩ := encodeMessage_eq_ok.mp hout
  have hcut := decodesCutOff hfam (maxDepth + 1) levels below cls (m, descId) recs unknown m' hdom htree
    hrecs (by unfold isizeMax at hlen; omega) h
  unfold decode Runtime.TooDeep
  rw [hcut.eq_error_iff h, Runtime.deep_succ_iff_exists]

/-- A cycle of message edges is never encoded. -/
theorem encodeMessage_cycle {V : Type} {rt : Runtime V} {m n : Nat} {s t : V × DescId}
    (hreach : rt.Path m s t) (hcycle : rt.Path (n + 1) t t) (levels : Nat) (buf : Bytes) :
    ∃ err, encodeMessage rt levels s.1 s.2 buf = .error err := by
  cases h : encodeMessage rt levels s.1 s.2 buf with
  | error err => exact ⟨err, rfl⟩
  | ok out =>
      have hcut := encode_cutOff h levels
      exact absurd (Runtime.deep_of_cycle hreach hcycle levels) (hcut.not_of_ok h)

/-- **Encoder and decoder refuse exactly the same nesting.** Whatever encodes without the limit is
refused by `encode` with the nesting error iff a path of more than `MAX_DEPTH` message edges starts
at it. The encoding of a typed tree, if it decodes without the limit, is refused by `decode` with the
same error under the same condition; messages that conform are such trees, and encode and decode
without the limit. A cycle of message edges is refused by the encoder with any number of levels. -/
theorem nesting_limit {w : World} {dom : ClassId → DescId → Prop} (hfam : Family w dom) :
    (∀ (V : Type) (rt : Runtime V) (descId : DescId) (instance_ : V) (levels : Nat) (out : Bytes),
      encodeMessage rt levels instance_ descId [] = .ok out →
      (encode rt descId instance_ = .error nestingError ↔ rt.TooDeep (instance_, descId))) ∧
    (∀ cls descId m levels out, dom cls descId → w.TypedTree (m, descId) →
      encodeMessage w.runtime levels m descId [] = .ok out → out.length ≤ isizeMax →
      (∃ below m', decodeMessage w below cls descId out = .ok m') →
      (decode w descId cls out = .error nestingError ↔ w.runtime.TooDeep (m, descId))) ∧
    (∀ cls descId m levels, dom cls descId → Conforms w messageLeaves levels cls descId m →
      ∃ out, encodeMessage w.runtime levels m descId [] = .ok out ∧
        (encode w.runtime descId m = .error nestingError ↔ w.runtime.TooDeep (m, descId)) ∧
        (out.length ≤ isizeMax →
          (decode w descId cls out = .error nestingError ↔ w.runtime.TooDeep (m, descId)))) ∧
    ∀ (V : Type) (rt : Runtime V) (m n : Nat) (s t : V × DescId), rt.Path m s t →
      rt.Path (n + 1) t t → ∀ levels buf,
        ∃ err, encodeMessage rt levels s.1 s.2 buf = .error err := by
  refine ⟨fun V rt descId instance_ levels out h => encode_nesting h,
    fun cls descId m levels out hdom htree hout hlen ⟨below, m', h⟩ =>
      decode_nesting hfam hdom htree hout hlen h,
    fun cls descId m levels hdom hm => ?_,
    fun V rt m n s t hreach hcycle => encodeMessage_cycle hreach hcycle⟩
  obtain ⟨recs, unknown, hrecs⟩ := messageRecords_of_conforms hfam (messageLeaves_enumsEncode w)
    (fun _ _ _ _ _ _ _ hd => hd) levels cls descId m hdom hm
  have hout := encodeMessage_eq_ok.mpr ⟨recs, unknown, hrecs, rfl⟩
  refine ⟨_, hout, encode_nesting hout, fun hlen => ?_⟩
  -- a message that conforms is decoded again, with enough levels
  obtain ⟨m', hdecode, -⟩ := decodeMessage_of_conforms hfam congruence_pyEq
    (messageLeaves_enumsDecode w) levels cls descId m recs unknown hdom hm hrecs
    (by unfold isizeMax at hlen; omega)
  exact decode_nesting hfam hdom (Conforms.typedTree hfam levels cls (m, descId) hdom hm) hout hlen
    hdecode

/-- A chain of `n` message edges. -/
def chain : Nat → PyVal
  | 0 => instanceOf 0 (recursiveWorld.descriptor 0) [.int 0, .int 0, .pyNone] []
  | n + 1 => instanceOf 0 (recursiveWorld.descriptor 0) [.int 0, .int 0, chain n] []

/-- Chains conform. -/
theorem conforms_chain (n : Nat) : Conforms recursiveWorld messageLeaves (n + 1) 0 0 (chain n) := by
  have hexcl : ∀ values, (recursiveMessage.fields.zip values).Pairwise OneofExclusive := by
    intro values
    refine List.pairwise_of_forall_mem_list fun p hp q _ hsame => ?_
    have hnone : ∀ field ∈ recursiveMessage.fields, field.oneofIndex = none := by decide
    have hsome := hsame.2.2.1
    rw [hnone p.1 (List.of_mem_zip hp).1] at hsome
    cases hsome
  have hunknown : UnknownConforms recursiveMessage [] := ⟨[], .nil, nofun⟩
  induction n with
  | zero =>
      exact ⟨_, _, rfl, .cons (.inr ⟨0, rfl, by decide, by decide⟩)
        (.cons (.inr ⟨0, .inl rfl, by decide, by decide⟩) (.cons (.inl ⟨rfl, rfl⟩) .nil)), hexcl _,
        hunknown⟩
  | succ n ih =>
      exact ⟨_, _, rfl, .cons (.inr ⟨0, rfl, by decide, by decide⟩)
        (.cons (.inr ⟨0, .inl rfl, by decide, by decide⟩)
          (.cons (.inr ⟨_, 0, rfl, rfl, ih⟩) .nil)), hexcl _, hunknown⟩

/-- The edges of a chain. -/
theorem edge_chain {n : Nat} {t : PyVal × DescId} :
    recursiveWorld.runtime.Edge (chain n, 0) t ↔ ∃ m, n = m + 1 ∧ t = (chain m, 0) := by
  constructor
  · rintro ⟨field, hfield, value, hget, hitem, hd⟩
    obtain ⟨item, d⟩ := t
    have hrefers := hitem.refers
    rcases hfield with _ | ⟨_, _ | ⟨_, _ | ⟨_, hfield⟩⟩⟩
    · cases hrefers
    · cases hrefers
    · obtain ⟨-, hset, hvalue⟩ := (Runtime.holds_singular rfl (by decide)).mp hitem
      dsimp only at hvalue
      subst hvalue
      cases n with
      | zero =>
          cases hget
          cases hset rfl
      | succ n =>
          obtain rfl : chain n = item := Except.ok.inj hget
          cases n <;> cases hd <;> exact ⟨_, rfl, rfl⟩
    · cases hfield
  · rintro ⟨m, rfl, rfl⟩
    have hmem : recursiveMessage.fields[2] ∈ recursiveMessage.fields := by decide
    refine ⟨_, hmem, chain m, rfl, .singular rfl (by decide) fun _ => ?_, ?_⟩
    · cases m <;> rfl
    · cases m <;> rfl

/-- The paths of a chain are no longer than the chain. -/
theorem path_chain {k n : Nat} {t : PyVal × DescId}
    (h : recursiveWorld.runtime.Path k (chain n, 0) t) : k ≤ n := by
  induction k generalizing n with
  | zero => exact Nat.zero_le n
  | succ k ih =>
      cases h with
      | cons hedge hpath =>
          obtain ⟨m, rfl, rfl⟩ := edge_chain.mp hedge
          exact Nat.succ_le_succ (ih hpath)

/-- A chain is a path. -/
theorem path_of_chain (n : Nat) : recursiveWorld.runtime.Path n (chain n, 0) (chain 0, 0) := by
  induction n with
  | zero => exact .nil _
  | succ n ih => exact .cons (edge_chain.mpr ⟨n, rfl, rfl⟩) ih

/-- An object that is its own field `m`. -/
def cyclicRuntime : Runtime Nat where
  view value := if value = 0 then .inst 0 [("a", 1), ("e", 1), ("m", 0)] else .int 0
  iter _ := .error (.typeError "object is not iterable")
  getattribute _ attrs name := ((attrs.lookup name).map .ok).getD (.error (.attributeError name))
  typeDescriptor _ := some 0
  descriptor := recursiveWorld.descriptor

/-- The boundary, on the bytes that more levels encode: a chain of 101 edges is refused on both sides,
a chain of 100 edges on neither; and an object that contains itself is refused. -/
theorem nesting_limit_chain :
    (∃ out, encodeMessage recursiveWorld.runtime 102 (chain 101) 0 [] = .ok out ∧
      encode recursiveWorld.runtime 0 (chain 101) = .error nestingError ∧
      (out.length ≤ isizeMax → decode recursiveWorld 0 0 out = .error nestingError)) ∧
    (∃ out, encodeMessage recursiveWorld.runtime 101 (chain 100) 0 [] = .ok out ∧
      encode recursiveWorld.runtime 0 (chain 100) ≠ .error nestingError ∧
      (out.length ≤ isizeMax → decode recursiveWorld 0 0 out ≠ .error nestingError)) ∧
    ∃ err, encode cyclicRuntime 0 0 = .error err := by
  obtain ⟨-, -, hconforms, hcycle⟩ := nesting_limit family_recursiveWorld
  have hdeep : recursiveWorld.runtime.TooDeep (chain 101, 0) :=
    ⟨101, _, by decide, path_of_chain 101⟩
  have hflat : ¬ recursiveWorld.runtime.TooDeep (chain 100, 0) := by
    rintro ⟨n, t, hlt, hpath⟩
    exact absurd (path_chain hpath) (by unfold maxDepth at hlt; omega)
  obtain ⟨out, hout, hencode, hdecode⟩ :=
    hconforms 0 0 (chain 101) 102 ⟨rfl, rfl⟩ (conforms_chain 101)
  obtain ⟨out', hout', hencode', hdecode'⟩ :=
    hconforms 0 0 (chain 100) 101 ⟨rfl, rfl⟩ (conforms_chain 100)
  have hedge : cyclicRuntime.Edge (0, 0) (0, 0) :=
    ⟨recursiveMessage.fields[2], by decide, 0, rfl, .singular rfl (by decide) fun _ => rfl, rfl⟩
  exact ⟨⟨out, hout, hencode.mpr hdeep, fun hlen => (hdecode hlen).mpr hdeep⟩,
    ⟨out', hout', fun h => hflat (hencode'.mp h), fun hlen h => hflat ((hdecode' hlen).mp h)⟩,
    hcycle Nat cyclicRuntime 0 0 (0, 0) (0, 0) (.nil _) (.cons hedge (.nil _)) _ _⟩

end FastProto
