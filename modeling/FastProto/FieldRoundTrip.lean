import FastProto.RoundTrip

/-! # Decode undoes encode: fields

The records of a field bring the decoder from a state where the slot of the field is as it was
initially to one where it holds the value. -/

namespace FastProto

open Lib Lib.Cursor

/-! ## Fields -/

/-- The field at an index takes its number and the wire types it accepts. -/
def MessageDescriptor.Recognizes (desc : MessageDescriptor) (idx : Nat) (field : FieldDescriptor) :
    Prop :=
  ∀ wire, field.accepts wire = true → desc.recognize field.number wire = some (idx, field)

/-- **What the records of a field do to the decoder**: the slot of the field takes a value that reads
as `value`, and at most the group of a set member is claimed. -/
def FieldDecoded (R : PyVal → PyVal → Prop) (desc : Descriptor) (st st' : DecodeState) (idx : Nat)
    (field : FieldDescriptor) (value : PyVal) : Prop :=
  ∃ slot, st'.values = st.values.set idx slot ∧
    R (slot.getD (zeroValue desc field)) value ∧
    (field.isCollection = true → slot.isSome = true) ∧
    st'.unknown = st.unknown ∧
    ∀ owner ∈ st'.oneofOwner, owner ∈ st.oneofOwner ∨
      field.label = .optional ∧ field.oneofIndex = some owner.1 ∧ value ≠ .pyNone

/-- Storing what a slot holds changes nothing. -/
theorem DecodeState.store_self {st : DecodeState} {idx : Nat} {value : PyVal}
    (h : st.values[idx]? = some (some value)) : st.store idx value = st := by
  obtain ⟨hlt, hget⟩ := List.getElem?_eq_some_iff.mp h
  unfold store
  rw [← hget, List.set_getElem_self]

/-- A later store at an index overrides an earlier one. -/
theorem DecodeState.store_store (st : DecodeState) (idx : Nat) (value value' : PyVal) :
    (st.store idx value).store idx value' = st.store idx value' := by
  unfold store
  rw [List.set_set]

/-- What is stored in a slot is found there. -/
theorem DecodeState.store_getElem? {st : DecodeState} {idx : Nat} (value : PyVal)
    (h : idx < st.values.length) : (st.store idx value).values[idx]? = some (some value) := by
  rw [store_values, List.getElem?_set, if_pos rfl, if_pos h]

section Fields

variable {w : World} {R : PyVal → PyVal → Prop} {leaves : Leaves}
  {message : Option LinkedRef → PyVal → Prop} {plain : NestedPayload PyVal}
  {nested : NestedDecoder} {desc : Descriptor} {idx : Nat} {field : FieldDescriptor}

/-- The step on a record of a recognized field. -/
theorem segmentStep_record (hrec : desc.inner.Recognizes idx field) {payload : Payload}
    (hacc : field.accepts payload.wire = true) (st : DecodeState) :
    segmentStep w nested desc st (⟨field.number, payload⟩ : Record).segment
      = fieldStep w nested desc st idx field payload := by
  unfold segmentStep
  rw [show (⟨field.number, payload⟩ : Record).segment.number = field.number from rfl,
    show (⟨field.number, payload⟩ : Record).segment.payload = payload from rfl, hrec _ hacc]

/-- The elements of a repeated field, a record each, are appended to its list. -/
theorem foldlM_repeated (hrec : desc.inner.Recognizes idx field) (hmap : field.kind.isMap = false)
    (hlabel : field.label = .repeated) (hpacked : field.kind.isPacked = false)
    {payloads : List Payload} {items' : List PyVal}
    (hwire : ∀ payload ∈ payloads, payload.wire = field.kind.expectedWire)
    (hdecode : List.Forall₂ (fun payload item' => valueOfPayload w nested field.kind
      (desc.ref field.number) payload = .ok item') payloads items') :
    ∀ (acc : List PyVal) (st : DecodeState), st.values[idx]? = some (some (.list acc)) →
      ((payloads.map fun payload => (⟨field.number, payload⟩ : Record)).map Record.segment).foldlM
        (segmentStep w nested desc) st = .ok (st.store idx (.list (acc ++ items'))) := by
  induction hdecode with
  | nil =>
      intro acc st hst
      rw [List.append_nil, DecodeState.store_self hst]
      rfl
  | @cons payload item' payloads items' hp _ ih =>
      intro acc st hst
      have hw := hwire payload (by simp)
      have hacc : field.accepts payload.wire = true := by
        rw [FieldDescriptor.accepts, if_pos hlabel, FieldKind.takesRepeated, hw]
        simp
      have hclaim : st.claimOneof field idx = st :=
        DecodeState.claimOneof_of_label idx (by rw [hlabel]; decide)
      have hrepeated : repeatedOfPayload w nested field.kind (desc.ref field.number) payload acc
          = .ok (acc ++ [item']) := by
        have hstep : packedStep w nested field.kind (desc.ref field.number) acc payload
            = .ok (acc ++ [item']) := by
          rw [packedStep, hp, ok_bind]
        unfold repeatedOfPayload
        split
        · rw [hpacked, if_neg (by decide), hstep]
        · exact hstep
      have hlt := (List.getElem?_eq_some_iff.mp hst).1
      rw [List.map_cons, List.map_cons, List.foldlM_cons, segmentStep_record hrec hacc,
        fieldStep_repeated w nested hmap hlabel payload (by rw [hclaim]; exact hst), hrepeated,
        ok_bind, ok_bind, hclaim,
        ih (fun p hp => hwire p (by simp [hp])) _ _ (DecodeState.store_getElem? _ hlt),
        DecodeState.store_store, List.append_assoc]
      rfl

/-- The elements of a packed field, in one record, are appended to its list. -/
theorem foldlM_packed (hrec : desc.inner.Recognizes idx field) (hmap : field.kind.isMap = false)
    (hlabel : field.label = .repeated) (hpacked : field.kind.isPacked = true)
    {payloads : List Payload} {items' : List PyVal}
    (hwire : ∀ payload ∈ payloads, payload.wire = field.kind.expectedWire)
    (hfits : ∀ payload ∈ payloads, payload.Fits)
    (hdecode : List.Forall₂ (fun payload item' => valueOfPayload w nested field.kind
      (desc.ref field.number) payload = .ok item') payloads items') {st : DecodeState}
    (hst : st.values[idx]? = some (some (.list []))) :
    ((packedRecords field.number payloads).map Record.segment).foldlM
        (segmentStep w nested desc) st = .ok (st.store idx (.list items')) := by
  unfold packedRecords
  dsimp only
  by_cases hempty : payloads = []
  · subst hempty
    cases hdecode
    rw [DecodeState.store_self hst]
    rfl
  · have hne : (payloads.flatMap Payload.bytes).isEmpty = false := by
      cases payloads with
      | nil => exact absurd rfl hempty
      | cons payload payloads =>
          rw [List.flatMap_cons, List.isEmpty_eq_false_iff, Ne, List.append_eq_nil_iff]
          exact fun h => payload.bytes_ne_nil h.1
    have hacc : field.accepts (Payload.len (payloads.flatMap Payload.bytes)).wire = true := by
      rw [FieldDescriptor.accepts, if_pos hlabel, FieldKind.takesRepeated]
      simp [Payload.wire]
    have hclaim : st.claimOneof field idx = st :=
      DecodeState.claimOneof_of_label idx (by rw [hlabel]; decide)
    have hrepeated : repeatedOfPayload w nested field.kind (desc.ref field.number)
        (.len (payloads.flatMap Payload.bytes)) [] = .ok items' := by
      unfold repeatedOfPayload
      dsimp only
      rw [if_pos hpacked, Reader.new, drainAll_split (packedBody_body w nested hmap _)
        (split_payloads fun p hp => ⟨hwire p hp, hfits p hp⟩), foldlM_packedStep_eq hdecode]
      rfl
    rw [hne, if_neg (by decide), List.map_cons, List.map_nil, List.foldlM_cons,
      segmentStep_record hrec hacc,
      fieldStep_repeated w nested hmap hlabel _ (by rw [hclaim]; exact hst), hrepeated, ok_bind,
      ok_bind, hclaim]
    rfl

/-- The entries of a map field, a record each, are put into its dict. -/
theorem foldlM_entries (hrec : desc.inner.Recognizes idx field) {key : ScalarType}
    {valueKind : MapValue} (hkind : field.kind = .map key valueKind) (hlabel : field.label = .single)
    {payloads : List Payload} {items' : List (PyVal × PyVal)}
    (hdecode : List.Forall₂ (fun payload item' => ∃ entry, payload = .len entry ∧
      decodeMapEntry w nested key valueKind (desc.ref field.number) entry = .ok item')
      payloads items') :
    ∀ (acc : List (PyVal × PyVal)) (st : DecodeState), st.values[idx]? = some (some (.dict acc)) →
      ((payloads.map fun payload => (⟨field.number, payload⟩ : Record)).map Record.segment).foldlM
        (segmentStep w nested desc) st
        = .ok (st.store idx (.dict (items'.foldl (fun acc kv => dictSet acc kv.1 kv.2) acc))) := by
  induction hdecode with
  | nil =>
      intro acc st hst
      rw [List.foldl_nil, DecodeState.store_self hst]
      rfl
  | @cons payload item' payloads items' hp _ ih =>
      intro acc st hst
      obtain ⟨entry, rfl, hentry⟩ := hp
      have hacc : field.accepts (Payload.len entry).wire = true := by
        rw [FieldDescriptor.accepts, hlabel, if_neg (by decide), hkind]
        rfl
      have hclaim : st.claimOneof field idx = st :=
        DecodeState.claimOneof_of_label idx (by rw [hlabel]; decide)
      have hlt := (List.getElem?_eq_some_iff.mp hst).1
      rw [List.map_cons, List.map_cons, List.foldlM_cons, segmentStep_record hrec hacc,
        fieldStep_map w nested hkind entry (by rw [hclaim]; exact hst), hentry, ok_bind, hclaim]
      dsimp only
      rw [ok_bind, ih _ _ (DecodeState.store_getElem? _ hlt), DecodeState.store_store,
        List.foldl_cons]

/-- Entries of conforming items decode to the same keys and related values. -/
theorem entries_decode (hR : Congruence R) {key : ScalarType} {valueKind : MapValue}
    {linked : Option LinkedRef}
    (hleaves : LeavesDecode w R leaves message plain nested (.map key valueKind) linked)
    {items : List (PyVal × PyVal)} {payloads : List Payload}
    (hpayloads : List.Forall₂ (fun item payload =>
      entryPayload w.runtime plain key valueKind linked item = .ok payload) items payloads)
    (hitems : ∀ item ∈ items, key.Holds item.1 ∧
      ValueConforms leaves message valueKind.kind linked item.2)
    (hfits : ∀ payload ∈ payloads, payload.Fits) :
    ∃ items', List.Forall₂ (fun p q : PyVal × PyVal => p.1 = q.1 ∧ R p.2 q.2) items' items ∧
      List.Forall₂ (fun payload item' => ∃ entry, payload = .len entry ∧
        decodeMapEntry w nested key valueKind linked entry = .ok item') payloads items' := by
  induction hpayloads with
  | nil => exact ⟨[], .nil, .nil⟩
  | @cons item payload items payloads hp _ ih =>
      obtain ⟨hkey, hvalue⟩ := hitems item (by simp)
      obtain ⟨entry, value', hentry, hdecode, hrel⟩ := decodeMapEntry_entryPayload hR hleaves hkey
        hvalue hp (hfits payload (by simp))
      obtain ⟨items', hrels, hdecodes⟩ := ih (fun i hi => hitems i (by simp [hi]))
        fun p hp => hfits p (by simp [hp])
      exact ⟨(item.1, value') :: items', .cons ⟨rfl, hrel⟩ hrels,
        .cons ⟨entry, hentry, hdecode⟩ hdecodes⟩

/-- Items with the same keys are told apart alike. -/
theorem pairwise_keys {xs ys : List (PyVal × PyVal)}
    (h : List.Forall₂ (fun p q : PyVal × PyVal => p.1 = q.1 ∧ R p.2 q.2) xs ys)
    (hys : ys.Pairwise fun p q => keyEq p.1 q.1 = false) :
    xs.Pairwise fun p q => keyEq p.1 q.1 = false := by
  have hkeys : xs.map Prod.fst = ys.map Prod.fst := by
    clear hys
    induction h with
    | nil => rfl
    | cons hpq _ ih => rw [List.map_cons, List.map_cons, hpq.1, ih]
  rw [← List.pairwise_map (f := Prod.fst) (R := fun a b => keyEq a b = false)] at hys ⊢
  rwa [hkeys]

/-- **The records of a map field decode to its dict.** -/
theorem fieldDecoded_map (hR : Congruence R) (hrec : desc.inner.Recognizes idx field)
    {key : ScalarType} {valueKind : MapValue} (hkind : field.kind = .map key valueKind)
    (hlabel : field.label = .single)
    (hleaves : LeavesDecode w R leaves message plain nested field.kind (desc.ref field.number))
    {value : PyVal}
    (hvalue : MapConforms leaves message key valueKind (desc.ref field.number) value)
    {recs : List Record}
    (hrecs : mapRecords w.runtime plain field.number key valueKind value (desc.ref field.number)
      = .ok recs)
    (hfits : ∀ rec ∈ recs, rec.payload.Fits) {st : DecodeState}
    (hst : st.values[idx]? = some (some (.dict []))) :
    ∃ st', (recs.map Record.segment).foldlM (segmentStep w nested desc) st = .ok st' ∧
      FieldDecoded R desc st st' idx field value := by
  obtain ⟨items, rfl, hkeys, hitems⟩ := hvalue
  obtain ⟨payloads, hpayloads, h⟩ := bind_eq_ok.mp hrecs
  cases h
  rw [hkind] at hleaves
  obtain ⟨items', hrels, hdecodes⟩ := entries_decode hR hleaves (mapM_eq_ok.mp hpayloads) hitems
    fun p hp => hfits ⟨field.number, p⟩ (List.mem_map_of_mem hp)
  have hdict : items'.foldl (fun acc kv => dictSet acc kv.1 kv.2) [] = items' :=
    foldl_upsertBy [] (by rw [List.nil_append]; exact pairwise_keys hrels hkeys)
  refine ⟨_, foldlM_entries hrec hkind hlabel hdecodes [] st hst, ?_⟩
  rw [hdict]
  exact ⟨some (.dict items'), rfl, hR.dict_pairs hrels, fun _ => rfl, rfl, fun owner h => .inl h⟩

/-- **The records of a repeated field decode to its list.** -/
theorem fieldDecoded_repeated (hR : Congruence R) (hrec : desc.inner.Recognizes idx field)
    (hmap : field.kind.isMap = false) (hlabel : field.label = .repeated)
    (hleaves : LeavesDecode w R leaves message plain nested field.kind (desc.ref field.number))
    {value : PyVal} (hvalue : ∃ items, value = .list items ∧
      ∀ item ∈ items, ValueConforms leaves message field.kind (desc.ref field.number) item)
    {recs : List Record}
    (hrecs : repeatedRecords w.runtime plain field.number field.kind value (desc.ref field.number)
      = .ok recs)
    (hfits : ∀ rec ∈ recs, rec.payload.Fits) {st : DecodeState}
    (hst : st.values[idx]? = some (some (.list []))) :
    ∃ st', (recs.map Record.segment).foldlM (segmentStep w nested desc) st = .ok st' ∧
      FieldDecoded R desc st st' idx field value := by
  obtain ⟨items, rfl, hitems⟩ := hvalue
  obtain ⟨payloads, hpayloads, rfl⟩ : ∃ payloads, (items.mapM fun item =>
      valuePayload w.runtime plain field.kind item (desc.ref field.number)) = .ok payloads ∧
      recs = if field.kind.isPacked then packedRecords field.number payloads
        else payloads.map fun payload => ⟨field.number, payload⟩ := by
    unfold repeatedRecords at hrecs
    rw [if_neg (by simp [PyVal.shape, PyShape.isStrOrBytes])] at hrecs
    have hview : w.runtime.items (.list items) = .ok items := rfl
    cases hk : field.kind with
    | map key value => rw [hk] at hmap; cases hmap
    | _ =>
        rw [hk] at hrecs
        simp only [hview, ok_bind] at hrecs
        obtain ⟨payloads, hpayloads, h⟩ := bind_eq_ok.mp hrecs
        cases h
        exact ⟨payloads, hpayloads, rfl⟩
  have hrel := mapM_eq_ok.mp hpayloads
  have hwire : ∀ payload ∈ payloads, payload.wire = field.kind.expectedWire := by
    intro payload hp
    obtain ⟨item, -, hitem⟩ := exists_of_mem_mapM hpayloads hp
    exact wire_of_valuePayload hitem
  by_cases hpacked : field.kind.isPacked = true
  · -- packed elements are fixed-width or varints: they have no chunk of their own
    have helems : ∀ payload ∈ payloads, payload.Fits := by
      intro payload hp
      have hw := hwire payload hp
      cases payload with
      | len data =>
          exfalso
          cases hk : field.kind with
          | scalar s =>
              rw [hk] at hw hpacked
              cases s with
              | string | bytes => exact absurd hpacked (by decide)
              | _ => cases hw
          | enum => rw [hk] at hw; cases hw
          | _ => rw [hk] at hpacked; cases hpacked
      | _ => trivial
    obtain ⟨items', hrels, hdecodes⟩ := foldlM_packedStep hR hleaves hrel hitems helems
    rw [if_pos hpacked]
    refine ⟨_, foldlM_packed hrec hmap hlabel hpacked hwire helems hdecodes hst, ?_⟩
    exact ⟨some (.list items'), rfl, hR.list hrels, fun _ => rfl, rfl, fun owner h => .inl h⟩
  · rw [if_neg hpacked] at hfits ⊢
    obtain ⟨items', hrels, hdecodes⟩ := foldlM_packedStep hR hleaves hrel hitems
      fun p hp => hfits ⟨field.number, p⟩ (List.mem_map_of_mem hp)
    refine ⟨_, foldlM_repeated hrec hmap hlabel (by simpa using hpacked) hwire hdecodes [] st hst, ?_⟩
    exact ⟨some (.list items'), rfl, hR.list hrels, fun _ => rfl, rfl, fun owner h => .inl h⟩

/-- A field whose slot is left empty because its value is the zero value. -/
theorem fieldDecoded_empty {value : PyVal} (hcol : field.isCollection = false) {st : DecodeState}
    (hst : st.values[idx]? = some none) (hzero : R (zeroValue desc field) value) :
    FieldDecoded R desc st st idx field value := by
  obtain ⟨hlt, hget⟩ := List.getElem?_eq_some_iff.mp hst
  refine ⟨none, ?_, hzero, ?_, rfl, fun owner h => .inl h⟩
  · rw [← hget, List.set_getElem_self]
  · rw [hcol]
    exact nofun

/-- **The record of a singular field decodes to its value**; a set member claims its group. -/
theorem fieldDecoded_record (hR : Congruence R) (hrec : desc.inner.Recognizes idx field)
    (hmap : field.kind.isMap = false) (hlabel : field.label ≠ .repeated)
    (hleaves : LeavesDecode w R leaves message plain nested field.kind (desc.ref field.number))
    {value : PyVal} (hvalue : ValueConforms leaves message field.kind (desc.ref field.number) value)
    {payload : Payload}
    (hpayload : valuePayload w.runtime plain field.kind value (desc.ref field.number) = .ok payload)
    (hfits : payload.Fits) {st : DecodeState} (hset : field.label = .optional → value ≠ .pyNone)
    (hfree : field.label = .optional →
      ∀ group, field.oneofIndex = some group → st.oneofOwner.lookup group = none) :
    ∃ st', ([(⟨field.number, payload⟩ : Record)].map Record.segment).foldlM
        (segmentStep w nested desc) st = .ok st' ∧ FieldDecoded R desc st st' idx field value := by
  have hacc : field.accepts payload.wire = true := by
    rw [FieldDescriptor.accepts, if_neg hlabel, wire_of_valuePayload hpayload, decide_eq_true_eq]
  obtain ⟨value', hdecode, hrel⟩ := valueOfPayload_valuePayload hR hleaves hvalue hpayload hfits
  refine ⟨(st.claimOneof field idx).store idx value', ?_, some value', ?_, hrel, fun _ => rfl, ?_, ?_⟩
  · rw [List.map_cons, List.map_nil, List.foldlM_cons, segmentStep_record hrec hacc,
      fieldStep_singular w nested hmap hlabel, hdecode, ok_bind, ok_bind]
    rfl
  · -- no member of the group was set before, so no slot is cleared
    have hvalues : (st.claimOneof field idx).values = st.values := by
      unfold DecodeState.claimOneof
      split
      · rename_i group hgroup hopt
        dsimp only
        rw [hfree hopt group hgroup]
      · rfl
    rw [DecodeState.store_values, hvalues]
  · rw [DecodeState.store_unknown, DecodeState.claimOneof_unknown]
  · intro owner howner
    rw [DecodeState.store_oneofOwner] at howner
    unfold DecodeState.claimOneof at howner
    split at howner
    · rename_i group hgroup hopt
      rcases List.mem_cons.mp howner with rfl | howner
      · exact .inr ⟨hopt, hgroup, hset hopt⟩
      · exact .inl howner
    · exact .inl howner

/-- The slot of a singular field is empty at the start. -/
theorem accumulator_singular (hmap : field.kind.isMap = false) (hlabel : field.label ≠ .repeated) :
    accumulator field = none ∧ field.isCollection = false := by
  unfold accumulator FieldDescriptor.isCollection
  cases hk : field.kind with
  | map key value => rw [hk] at hmap; cases hmap
  | _ => simp [hlabel]

/-- A field with presence has no zero value but None. -/
theorem zeroValue_optional (hmap : field.kind.isMap = false) (hlabel : field.label = .optional) :
    zeroValue desc field = .pyNone := by
  unfold zeroValue
  cases hk : field.kind with
  | map key value => rw [hk] at hmap; cases hmap
  | _ => simp only [hlabel]

/-- A value left out as a default is the zero value of its field. -/
theorem zeroValue_of_isDefault (hR : Congruence R) (hlabel : field.label = .single)
    (hlike : field.kind.isMessageLike = false) (hmap : field.kind.isMap = false)
    (hleaves : LeavesDecode w R leaves message plain nested field.kind (desc.ref field.number))
    (hzero : field.kind = .enum →
      coerceEnum w (desc.ref field.number) 0 = .ok (zeroValue desc field))
    {value : PyVal} (hvalue : ValueConforms leaves message field.kind (desc.ref field.number) value)
    {payload : Payload}
    (hpayload : valuePayload w.runtime plain field.kind value (desc.ref field.number) = .ok payload)
    (hdefault : payload.isDefault = true) : R (zeroValue desc field) value := by
  cases hk : field.kind with
  | scalar scalar =>
      rw [hk] at hvalue hpayload
      obtain ⟨payload', hp, -, hd⟩ := ScalarType.Holds.roundTrip hvalue
      have heq : payload = payload' := Except.ok.inj (hpayload.symm.trans hp)
      rw [hd (heq ▸ hdefault)]
      unfold zeroValue
      simp only [hk, hlabel]
      exact hR.refl _
  | enum =>
      rw [hk] at hvalue hpayload hleaves
      obtain ⟨i, hi, h⟩ := bind_eq_ok.mp hpayload
      cases h
      simp only [Payload.isDefault, toUInt64_eq_zero, toInt64_eq_zero, decide_eq_true_eq] at hdefault
      subst hdefault
      obtain ⟨value', hcoerce, hrel⟩ := hleaves.enum rfl value 0 hvalue hi
      rw [hzero hk] at hcoerce
      cases hcoerce
      exact hrel
  | map key value => rw [hk] at hmap; cases hmap
  | _ => rw [hk] at hlike; cases hlike

/-- **The records of a conforming field bring its value into its slot.** -/
theorem fieldDecoded_of_conforms (hR : Congruence R) (hrec : desc.inner.Recognizes idx field)
    {oneofs : Nat} (hshape : field.Shaped oneofs)
    (hleaves : LeavesDecode w R leaves message plain nested field.kind (desc.ref field.number))
    (hzero : field.kind = .enum → field.label = .single →
      coerceEnum w (desc.ref field.number) 0 = .ok (zeroValue desc field))
    {instance_ value : PyVal} (hget : w.runtime.getattr instance_ field.name = .ok value)
    (hvalue : FieldConforms leaves message desc field value) {counts counts' : List Nat}
    {recs : List Record}
    (hrecs : fieldRecords w.runtime plain desc instance_ counts field = .ok (recs, counts'))
    (hfits : ∀ rec ∈ recs, rec.payload.Fits) {st : DecodeState}
    (hst : st.values[idx]? = some (accumulator field))
    (hfree : value ≠ .pyNone → field.label = .optional →
      ∀ group, field.oneofIndex = some group → st.oneofOwner.lookup group = none) :
    ∃ st', (recs.map Record.segment).foldlM (segmentStep w nested desc) st = .ok st' ∧
      FieldDecoded R desc st st' idx field value := by
  -- the cases of `encode_field`: a map, and else by label
  by_cases hmap : field.kind.isMap = true
  · obtain ⟨key, valueKind, hkind⟩ := FieldKind.isMap_iff.mp hmap
    have hlabel := (hshape.map_single key valueKind hkind).1
    have hseen := (seenConforms_map hkind).mp (hvalue.resolve_left fun h => by
      rw [hlabel] at h
      cases h.1)
    rw [fieldRecords_map w.runtime plain hget hkind] at hrecs
    obtain ⟨recs', hrecs', h⟩ := bind_eq_ok.mp hrecs
    cases h
    have hacc : accumulator field = some (.dict []) := by
      unfold accumulator
      rw [hkind]
    exact fieldDecoded_map hR hrec hkind hlabel hleaves hseen hrecs' hfits (by rw [hst, hacc])
  · have hnot : field.kind.isMap = false := by simpa using hmap
    cases hlabel : field.label with
    | repeated =>
        have hseen := (seenConforms_repeated hnot hlabel).mp
          (hvalue.resolve_left fun h => by rw [hlabel] at h; cases h.1)
        rw [fieldRecords_repeated w.runtime plain hget hnot hlabel] at hrecs
        obtain ⟨recs', hrecs', h⟩ := bind_eq_ok.mp hrecs
        cases h
        have hacc : accumulator field = some (.list []) := by
          unfold accumulator
          cases hk : field.kind with
          | map key value => rw [hk] at hnot; cases hnot
          | _ => simp [hlabel]
        exact fieldDecoded_repeated hR hrec hnot hlabel hleaves hseen hrecs' hfits
          (by rw [hst, hacc])
    | optional =>
        have hne : field.label ≠ .repeated := by rw [hlabel]; decide
        obtain ⟨hacc, hcol⟩ := accumulator_singular hnot hne
        -- an unset optional field writes nothing and decodes to `None`
        by_cases hnone : value = .pyNone
        · rw [fieldRecords_none w.runtime plain hget hnot hlabel (isNone_shape.mpr hnone)] at hrecs
          cases hrecs
          refine ⟨st, rfl, fieldDecoded_empty hcol (by rw [hst, hacc]) ?_⟩
          rw [zeroValue_optional hnot hlabel, hnone]
          exact hR.refl _
        · have hset : (w.runtime.view value).isNone = false :=
            Bool.eq_false_iff.mpr fun h => hnone (isNone_shape.mp h)
          have hseen := (seenConforms_singular hnot hne).mp (hvalue.resolve_left fun h => hnone h.2)
          rw [fieldRecords_some w.runtime plain hget hnot hlabel hset] at hrecs
          obtain ⟨counts₁, -, hrecs⟩ := bind_eq_ok.mp hrecs
          obtain ⟨payload, hpayload, h⟩ := bind_eq_ok.mp hrecs
          cases h
          exact fieldDecoded_record hR hrec hnot hne hleaves hseen hpayload
            (hfits ⟨field.number, payload⟩ (by simp))
            (fun _ => hnone) (hfree hnone)
    | single =>
        have hne : field.label ≠ .repeated := by rw [hlabel]; decide
        obtain ⟨hacc, hcol⟩ := accumulator_singular hnot hne
        have hseen := (seenConforms_singular hnot hne).mp
          (hvalue.resolve_left fun h => by rw [hlabel] at h; cases h.1)
        have hlike : field.kind.isMessageLike = false :=
          Bool.eq_false_iff.mpr fun h => hshape.message_label h hlabel
        rw [fieldRecords_single w.runtime plain hget hnot hlabel] at hrecs
        obtain ⟨payload, hpayload, h⟩ := bind_eq_ok.mp hrecs
        rw [hlike, Bool.not_false, Bool.true_and] at h
        -- a default is not written: the slot stays empty and is filled with the zero value
        by_cases hdefault : payload.isDefault = true
        · rw [if_pos hdefault] at h
          cases h
          exact ⟨st, rfl, fieldDecoded_empty hcol (by rw [hst, hacc]) (zeroValue_of_isDefault hR hlabel
            hlike hnot hleaves (fun hk => hzero hk hlabel) hseen hpayload hdefault)⟩
        · rw [if_neg hdefault] at h
          cases h
          exact fieldDecoded_record hR hrec hnot hne hleaves hseen hpayload
            (hfits ⟨field.number, payload⟩ (by simp))
            (fun h => by rw [hlabel] at h; cases h) fun h => by rw [hlabel] at h; cases h

end Fields

end FastProto
