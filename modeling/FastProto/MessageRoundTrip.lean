import FastProto.FieldRoundTrip

/-! # Decode undoes encode: messages

Going through the fields in order, the decoder has the values of the fields done in their slots and
the initial accumulators in the others. At the end the instance built is the one encoded, up to the
relation of its values. -/

namespace FastProto

open Lib Lib.Cursor

/-! ## All fields of a message -/

/-- The records of a field carry its number. -/
theorem number_of_fieldRecords {V : Type} {rt : Runtime V} {plain : NestedPayload V}
    {desc : Descriptor} {instance_ : V} {counts counts' : List Nat} {field : FieldDescriptor}
    {recs : List Record}
    (h : fieldRecords rt plain desc instance_ counts field = .ok (recs, counts')) :
    ∀ rec ∈ recs, rec.number = field.number := by
  -- every list of records is made from payloads and the number of the field
  have hmapped : ∀ payloads : List Payload,
      ∀ rec ∈ payloads.map (fun payload => (⟨field.number, payload⟩ : Record)),
        rec.number = field.number := by
    intro payloads rec hrec
    obtain ⟨payload, -, rfl⟩ := List.mem_map.mp hrec
    rfl
  have hsingle : ∀ payload, ∀ rec ∈ [(⟨field.number, payload⟩ : Record)],
      rec.number = field.number := fun payload => hmapped [payload]
  obtain ⟨value, hget, -⟩ := bind_eq_ok.mp h
  by_cases hmap : field.kind.isMap = true
  · obtain ⟨key, valueKind, hkind⟩ := FieldKind.isMap_iff.mp hmap
    rw [fieldRecords_map rt plain hget hkind] at h
    obtain ⟨recs', hrecs, h⟩ := bind_eq_ok.mp h
    cases h
    unfold mapRecords at hrecs
    split at hrecs
    · obtain ⟨payloads, -, hrecs⟩ := bind_eq_ok.mp hrecs
      cases hrecs
      exact hmapped payloads
    · cases hrecs
  · have hnot : field.kind.isMap = false := by simpa using hmap
    cases hlabel : field.label with
    | repeated =>
        rw [fieldRecords_repeated rt plain hget hnot hlabel] at h
        obtain ⟨recs', hrecs, h⟩ := bind_eq_ok.mp h
        cases h
        have hpacked : ∀ payloads, ∀ rec ∈ (if field.kind.isPacked then
            packedRecords field.number payloads
            else payloads.map fun payload => (⟨field.number, payload⟩ : Record)),
            rec.number = field.number := by
          intro payloads
          split
          · unfold packedRecords
            dsimp only
            split
            · simp
            · exact hsingle _
          · exact hmapped payloads
        unfold repeatedRecords at hrecs
        split at hrecs
        · cases hrecs
        · cases hk : field.kind with
          | map key value => rw [hk] at hnot; cases hnot
          | _ =>
              rw [hk] at hrecs
              obtain ⟨items, -, hrecs⟩ := bind_eq_ok.mp hrecs
              obtain ⟨payloads, -, hrecs⟩ := bind_eq_ok.mp hrecs
              cases hrecs
              rw [← hk]
              exact hpacked payloads
    | optional =>
        by_cases hnone : (rt.view value).isNone = true
        · rw [fieldRecords_none rt plain hget hnot hlabel hnone] at h
          cases h
          simp
        · rw [fieldRecords_some rt plain hget hnot hlabel (by simpa using hnone)] at h
          obtain ⟨counts₁, -, h⟩ := bind_eq_ok.mp h
          obtain ⟨payload, -, h⟩ := bind_eq_ok.mp h
          cases h
          exact hsingle payload
    | single =>
        rw [fieldRecords_single rt plain hget hnot hlabel] at h
        obtain ⟨payload, -, h⟩ := bind_eq_ok.mp h
        split at h <;> cases h
        · simp
        · exact hsingle payload

/-- **The state between two fields**: the slots of the fields done read as their values, those of
the fields to come are as they were, and every owner of a oneof group is a member that was set. -/
structure FieldsDecoded (R : PyVal → PyVal → Prop) (desc : Descriptor)
    (done rest : List (FieldDescriptor × PyVal)) (st : DecodeState) : Prop where
  slots : ∃ slots, st.values = slots ++ rest.map (accumulator ·.1) ∧
    List.Forall₂ (fun (slot : Option PyVal) (p : FieldDescriptor × PyVal) =>
      R (slot.getD (zeroValue desc p.1)) p.2 ∧
        (p.1.isCollection = true → slot.isSome = true)) slots done
  unknown : st.unknown = []
  owners : ∀ owner ∈ st.oneofOwner, ∃ p ∈ done, p.1.label = .optional ∧
    p.1.oneofIndex = some owner.1 ∧ p.2 ≠ .pyNone

/-- One more field. -/
theorem FieldsDecoded.next {R : PyVal → PyVal → Prop} {desc : Descriptor}
    {done rest : List (FieldDescriptor × PyVal)} {p : FieldDescriptor × PyVal}
    {st st' : DecodeState} (h : FieldsDecoded R desc done (p :: rest) st)
    (hfield : FieldDecoded R desc st st' done.length p.1 p.2) :
    FieldsDecoded R desc (done ++ [p]) rest st' := by
  obtain ⟨slot, hvalues, hrel, hcol, hunknown, howners⟩ := hfield
  obtain ⟨slots, hslots, hrels⟩ := h.slots
  refine ⟨⟨slots ++ [slot], ?_, List.rel_append hrels (.cons ⟨hrel, hcol⟩ .nil)⟩,
    hunknown.trans h.unknown, fun owner howner => ?_⟩
  · rw [hvalues, hslots, ← hrels.length_eq, List.map_cons,
      List.set_append_right _ _ (Nat.le_refl _), Nat.sub_self, List.set_cons_zero,
      List.append_assoc]
    rfl
  · rcases howners owner howner with howner | ⟨hlabel, hindex, hset⟩
    · obtain ⟨q, hq, hrest⟩ := h.owners owner howner
      exact ⟨q, by simp [hq], hrest⟩
    · exact ⟨p, by simp, hlabel, hindex, hset⟩

/-- The group of a member about to be set is free: another member set would exclude it. -/
theorem FieldsDecoded.free {R : PyVal → PyVal → Prop} {desc : Descriptor}
    {done rest : List (FieldDescriptor × PyVal)} {p : FieldDescriptor × PyVal} {st : DecodeState}
    (h : FieldsDecoded R desc done rest st) (hexcl : ∀ q ∈ done, OneofExclusive q p)
    (hset : p.2 ≠ .pyNone) (hlabel : p.1.label = .optional) (group : UInt32)
    (hgroup : p.1.oneofIndex = some group) : st.oneofOwner.lookup group = none := by
  cases hlookup : st.oneofOwner.lookup group with
  | none => rfl
  | some prev =>
      obtain ⟨q, hq, hqlabel, hqindex, hqset⟩ := h.owners _ (mem_of_lookup hlookup)
      have hsame : q.1.SameGroup p.1 :=
        ⟨hqlabel, hlabel, by simp [hqindex], hqindex.trans hgroup.symm⟩
      exact ((hexcl q hq hsame).elim hqset hset).elim

/-- Fields with one number are one field. -/
theorem eq_of_number {fields : List FieldDescriptor} (hnumbers : (fields.map (·.number)).Nodup)
    {f g : FieldDescriptor} (hf : f ∈ fields) (hg : g ∈ fields) (h : f.number = g.number) : f = g :=
  List.inj_on_of_nodup_map hnumbers hf hg h

/-- With distinct numbers, every field takes its own records. -/
theorem recognizes_of_nodup {desc : MessageDescriptor}
    (hnumbers : (desc.fields.map (·.number)).Nodup) {idx : Nat} {field : FieldDescriptor}
    (hfield : desc.fields[idx]? = some field) : desc.Recognizes idx field := by
  intro wire hacc
  obtain ⟨hlt, hget⟩ := List.getElem?_eq_some_iff.mp hfield
  have hidx : fieldByNumber desc.fields field.number = some idx := by
    rw [fieldByNumber, List.findIdx?_eq_some_iff_getElem]
    refine ⟨hlt, by simp [hget], fun j hj hnum => ?_⟩
    have hjlt : j < desc.fields.length := by omega
    have hjlt' : j < (desc.fields.map (·.number)).length := by rwa [List.length_map]
    have hlt' : idx < (desc.fields.map (·.number)).length := by rwa [List.length_map]
    have hsame : (desc.fields.map (·.number))[j] = (desc.fields.map (·.number))[idx] := by
      simpa [hget] using hnum
    have := hnumbers.getElem_inj_iff.mp hsame
    omega
  unfold MessageDescriptor.recognize
  rw [hidx, Option.bind_some, hfield, Option.bind_some, if_pos hacc]

section Fields

variable {w : World} {R : PyVal → PyVal → Prop} {leaves : Leaves}
  {message : Option LinkedRef → PyVal → Prop} {plain : NestedPayload PyVal}
  {nested : NestedDecoder} {desc : Descriptor}

/-- **The records of the fields of a conforming instance bring every value into its slot.** -/
theorem fieldsDecoded_of_conforms (hR : Congruence R) {pairs : List (FieldDescriptor × PyVal)}
    (hfields : desc.inner.fields = pairs.map Prod.fst)
    (hnumbers : (desc.inner.fields.map (·.number)).Nodup) {oneofs : Nat}
    (hshape : ∀ p ∈ pairs, p.1.Shaped oneofs)
    (hleaves : ∀ p ∈ pairs, LeavesDecode w R leaves message plain nested p.1.kind
      (desc.ref p.1.number))
    (hzero : ∀ p ∈ pairs, p.1.kind = .enum → p.1.label = .single →
      coerceEnum w (desc.ref p.1.number) 0 = .ok (zeroValue desc p.1)) {instance_ : PyVal}
    (hget : ∀ p ∈ pairs, w.runtime.getattr instance_ p.1.name = .ok p.2)
    (hvalues : ∀ p ∈ pairs, FieldConforms leaves message desc p.1 p.2)
    (hexcl : pairs.Pairwise OneofExclusive) :
    ∀ rest done, done ++ rest = pairs → ∀ recs₀ counts recs counts' st,
      fieldsRecords w.runtime plain desc instance_ (rest.map Prod.fst) (recs₀, counts)
        = .ok (recs, counts') →
      (∀ rec ∈ recs, rec.payload.Fits) → FieldsDecoded R desc done rest st →
      ∃ recs₁ st', recs = recs₀ ++ recs₁ ∧
        (recs₁.map Record.segment).foldlM (segmentStep w nested desc) st = .ok st' ∧
        FieldsDecoded R desc pairs [] st' ∧
        ∀ rec ∈ recs₁, ∃ field ∈ desc.inner.fields, rec.number = field.number := by
  intro rest
  induction rest with
  | nil =>
      intro done hpairs recs₀ counts recs counts' st hrecs _ hst
      rw [List.append_nil] at hpairs
      subst hpairs
      cases hrecs
      exact ⟨[], st, by rw [List.append_nil], rfl, hst, by simp⟩
  | cons p rest ih =>
      intro done hpairs recs₀ counts recs counts' st hrecs hfits hst
      have hp : p ∈ pairs := by rw [← hpairs]; simp
      unfold fieldsRecords at hrecs
      rw [List.map_cons, List.foldlM_cons] at hrecs
      obtain ⟨⟨recs₂, counts₂⟩, hstep, hrecs⟩ := bind_eq_ok.mp hrecs
      obtain ⟨⟨precs, pcounts⟩, hfield, hstep⟩ := bind_eq_ok.mp hstep
      cases hstep
      have hpairs' : (done ++ [p]) ++ rest = pairs := by rw [List.append_assoc]; exact hpairs
      have hidx : desc.inner.fields[done.length]? = some p.1 := by
        rw [hfields, ← hpairs, List.map_append, List.map_cons,
          List.getElem?_append_right (by simp)]
        simp
      have hslot : st.values[done.length]? = some (accumulator p.1) := by
        obtain ⟨slots, hslots, hrels⟩ := hst.slots
        rw [hslots, ← hrels.length_eq, List.map_cons, List.getElem?_append_right (Nat.le_refl _)]
        simp
      have hbefore : ∀ q ∈ done, OneofExclusive q p := by
        rw [← hpairs] at hexcl
        exact fun q hq => (List.pairwise_append.mp hexcl).2.2 q hq p (by simp)
      -- the records of the fields to come stand behind those of this one
      have hprefix : ∃ recs', recs = (recs₀ ++ precs) ++ recs' := by
        have hpre := foldlM_invariant (fun s : List Record × List Nat => ∃ recs',
          s.1 = (recs₀ ++ precs) ++ recs') (fun s f s' _ hs hs' => by
            obtain ⟨recs', hs⟩ := hs
            obtain ⟨⟨frecs, fcounts⟩, -, hs'⟩ := bind_eq_ok.mp hs'
            cases hs'
            exact ⟨recs' ++ frecs, by rw [hs, List.append_assoc]⟩) _ _
          ⟨[], by rw [List.append_nil]⟩ hrecs
        exact hpre
      have hpfits : ∀ rec ∈ precs, rec.payload.Fits := by
        obtain ⟨recs', rfl⟩ := hprefix
        exact fun rec hrec => hfits rec (by simp [hrec])
      obtain ⟨st₁, hfold, hdecoded⟩ := fieldDecoded_of_conforms hR
        (recognizes_of_nodup hnumbers hidx) (hshape p hp) (hleaves p hp) (hzero p hp) (hget p hp)
        (hvalues p hp) hfield hpfits hslot fun hset hlabel => hst.free hbefore hset hlabel
      obtain ⟨recs₁, st', hrecs₁, hfold', hdone, hnums⟩ := ih (done ++ [p]) hpairs' _ _ _ _ st₁ hrecs
        hfits (hst.next hdecoded)
      refine ⟨precs ++ recs₁, st', by rw [hrecs₁, List.append_assoc], ?_, hdone, fun rec hrec => ?_⟩
      · rw [List.map_append, List.foldlM_append, hfold, ok_bind, hfold']
      · rcases List.mem_append.mp hrec with hrec | hrec
        · exact ⟨p.1, List.mem_of_getElem? hidx, number_of_fieldRecords hfield rec hrec⟩
        · exact hnums rec hrec

/-- Segments that no field takes are kept, in order. -/
theorem foldlM_unrecognized {segs : List Segment}
    (h : ∀ seg ∈ segs, desc.inner.recognize seg.number seg.payload.wire = none) :
    ∀ st, segs.foldlM (segmentStep w nested desc) st
      = .ok { st with unknown := st.unknown ++ segs.flatMap Segment.raw } := by
  induction segs with
  | nil =>
      intro st
      rw [List.flatMap_nil, List.append_nil]
      rfl
  | cons seg segs ih =>
      intro st
      have hstep : segmentStep w nested desc st seg = .ok (st.keep seg.raw) := by
        unfold segmentStep
        rw [h seg (by simp)]
      rw [List.foldlM_cons, hstep, ok_bind, ih fun seg hseg => h seg (by simp [hseg]),
        DecodeState.keep_unknown, List.append_assoc]
      rfl

end Fields

/-! ## Enum members -/

/-- The value map of an enum class holds its members. -/
theorem EnumClass.lookup_valueMap (enum : EnumClass) (cls : ClassId) (i : Int) :
    (enum.valueMap cls).lookup i = if i ∈ enum.values then some (.member cls i) else none := by
  unfold valueMap
  induction enum.values with
  | nil => rfl
  | cons value values ih =>
      rw [List.map_cons, List.lookup_cons, ih]
      by_cases hi : i = value
      · simp [hi]
      · have hne : (i == value) = false := by simpa using hi
        simp [hi, hne]

/-- **Coercing an integer to a linked enum**: the member with the value, or the integer itself. The
direct table and the value map agree. -/
theorem coerceEnum_linked {w : World} {cls : ClassId} {enum : EnumClass}
    (hproto : (w.cls cls).fastproto = none) (henum : (w.cls cls).enum = some enum)
    (hmissing : enum.missing = none) (value : Int32) :
    coerceEnum w (some (buildLinkedRef cls (w.cls cls))) value
      = .ok (if value.toInt ∈ enum.values then .member cls value.toInt else .int value.toInt) := by
  have hlink : buildLinkedRef cls (w.cls cls)
      = { cls, enumMap := some (enum.valueMap cls), enumTable := some (enum.table cls) } := by
    simp [buildLinkedRef, hproto, henum, hmissing]
  have hlookup : ((enum.valueMap cls).lookup value.toInt).getD (.int value.toInt)
      = if value.toInt ∈ enum.values then .member cls value.toInt else .int value.toInt := by
    rw [EnumClass.lookup_valueMap]
    split <;> rfl
  rw [hlink, ← hlookup]
  unfold coerceEnum
  simp only [Option.bind_some]
  cases htable : (enum.table cls)[value.toInt64.toUInt64.toNat]? with
  | none => rfl
  | some slot =>
      -- inside the table, the 64-bit pattern of the value is the value
      unfold EnumClass.table at htable
      rw [List.getElem?_map] at htable
      obtain ⟨n, hn, rfl⟩ := Option.map_eq_some_iff.mp htable
      obtain ⟨hlt, hget⟩ := List.getElem?_eq_some_iff.mp hn
      rw [List.length_range, enumTableSize] at hlt
      rw [List.getElem_range] at hget
      have hval : (n : Int) = value.toInt := by
        rw [← hget, ← Int32.toInt_toInt64]
        show _ = value.toInt64.toBitVec.toInt
        rw [BitVec.toInt_eq_toNat_cond, if_pos]
        · rfl
        · show 2 * value.toInt64.toUInt64.toNat < 2 ^ 64
          omega
      rw [hval]

/-! ## Messages -/

/-- What an enum value of a family owes to the decoder. -/
def Leaves.EnumsDecode (leaves : Leaves) (w : World) (R : PyVal → PyVal → Prop) : Prop :=
  ∀ (cls : ClassId) (enum : EnumClass), (w.cls cls).fastproto = none →
    (w.cls cls).enum = some enum → enum.missing = none → ∀ value i,
      leaves.enum (some (buildLinkedRef cls (w.cls cls))) value →
      value.shape.extractI32 = .ok i →
      ∃ value', coerceEnum w (some (buildLinkedRef cls (w.cls cls))) i = .ok value' ∧ R value' value

/-- The initial state of the decoder, before the first field. -/
theorem fieldsDecoded_init {R : PyVal → PyVal → Prop} {desc : Descriptor}
    {pairs : List (FieldDescriptor × PyVal)} (hfields : desc.inner.fields = pairs.map Prod.fst) :
    FieldsDecoded R desc [] pairs (DecodeState.init desc.inner.fields) where
  slots := by
    refine ⟨[], ?_, .nil⟩
    rw [DecodeState.init, hfields, List.map_map]
    rfl
  unknown := rfl
  owners := nofun

/-- The values of an instance built from the slots read as the values encoded. -/
theorem FieldsDecoded.filled {R : PyVal → PyVal → Prop} {desc : Descriptor}
    {pairs : List (FieldDescriptor × PyVal)} {st : DecodeState}
    (h : FieldsDecoded R desc pairs [] st) (hfields : desc.inner.fields = pairs.map Prod.fst) :
    List.Forall₂ (fun (field : FieldDescriptor) (v : Option PyVal) =>
      field.isCollection = true → v.isSome = true) desc.inner.fields st.values ∧
      List.Forall₂ R (filledValues desc st.values) (pairs.map Prod.snd) := by
  obtain ⟨slots, hslots, hrels⟩ := h.slots
  rw [List.map_nil, List.append_nil] at hslots
  unfold filledValues
  rw [hslots, hfields]
  clear hslots hfields h
  induction hrels with
  | nil => exact ⟨.nil, .nil⟩
  | cons hp _ ih => exact ⟨.cons hp.2 ih.1, .cons hp.1 ih.2⟩

/-- The zero value of an enum field is what zero is coerced to. -/
theorem coerceEnum_zeroValue {w : World} {dom : ClassId → DescId → Prop} (hfam : Family w dom)
    {cls : ClassId} {descId : DescId} (hdom : dom cls descId) {field : FieldDescriptor}
    (hfield : field ∈ (w.descriptor descId).inner.fields) (hkind : field.kind = .enum)
    (hlabel : field.label = .single) :
    coerceEnum w ((w.descriptor descId).ref field.number) 0
      = .ok (zeroValue (w.descriptor descId) field) := by
  obtain ⟨cls', enum, href, hproto, henum, hmissing, hmem⟩ :=
    hfam.enums cls descId hdom field hfield (by rw [hkind]; rfl)
  unfold zeroValue
  rw [href, coerceEnum_linked hproto henum hmissing]
  simp only [hkind, hlabel, buildLinkedRef_cls]
  exact congrArg _ (if_pos hmem)

/-- One level down, nested messages and enum values decode to related values. -/
theorem Family.leavesDecode {w : World} {dom : ClassId → DescId → Prop} (hfam : Family w dom)
    {R : PyVal → PyVal → Prop} {leaves : Leaves} (henum : leaves.EnumsDecode w R) {levels : Nat}
    (hnested : ∀ cls descId value recs unknown, dom cls descId →
      Conforms w leaves levels cls descId value →
      messageRecords w.runtime levels value descId = .ok (recs, unknown) →
      (recordsBytes recs ++ unknown).length < 2 ^ 64 →
      ∃ value', decodeMessage w levels cls descId (recordsBytes recs ++ unknown) = .ok value' ∧
        R value' value)
    {cls : ClassId} {descId : DescId} (hdom : dom cls descId) {field : FieldDescriptor}
    (hfield : field ∈ (w.descriptor descId).inner.fields) :
    LeavesDecode w R leaves (NestedConforms (Conforms w leaves levels))
      (plainPayload w.runtime levels) (decodeMessage w levels) field.kind
      ((w.descriptor descId).ref field.number) where
  message := by
    intro hrefers value data hvalue hdata hlength
    -- the nested message is encoded by the descriptor of the class the field refers to
    obtain ⟨cls', desc', href, hdom', hconf, -, hdescriptor⟩ :=
      hfam.nested_of_conforms hdom hfield hrefers hvalue
    unfold plainPayload at hdata
    rw [href, hdescriptor, ok_bind] at hdata
    obtain ⟨⟨recs, unknown'⟩, hrecs, hdata⟩ := bind_eq_ok.mp hdata
    cases hdata
    rw [href]
    exact hnested cls' desc' _ recs unknown' hdom' hconf hrecs hlength
  enum := by
    intro hrefers value i
    obtain ⟨cls', enum, href, hproto, henumcls, hmissing, -⟩ :=
      hfam.enums cls descId hdom field hfield hrefers
    rw [href]
    exact henum cls' enum hproto henumcls hmissing value i

/-- **Decoding what was encoded gives the message back**, up to the relation of its values: the
records go to their fields and the unknown bytes are kept. -/
theorem decodeMessage_of_conforms {w : World} {dom : ClassId → DescId → Prop}
    (hfam : Family w dom) {R : PyVal → PyVal → Prop} (hR : Congruence R) {leaves : Leaves}
    (henum : leaves.EnumsDecode w R) (levels : Nat) :
    ∀ cls descId value recs unknown, dom cls descId → Conforms w leaves levels cls descId value →
      messageRecords w.runtime levels value descId = .ok (recs, unknown) →
      (recordsBytes recs ++ unknown).length < 2 ^ 64 →
      ∃ value', decodeMessage w levels cls descId (recordsBytes recs ++ unknown) = .ok value' ∧
        R value' value := by
  induction levels with
  | zero => exact fun cls descId value recs unknown _ h => h.elim
  | succ levels ih =>
      intro cls descId value recs unknown hdom h hrecs hlength
      obtain ⟨values, unknown', rfl, hparts⟩ := h
      have hgen := hfam.generated cls descId hdom
      have hlen : values.length = (w.descriptor descId).inner.fields.length :=
        hparts.fields.length_eq.symm
      have hfst : (w.descriptor descId).inner.fields
          = ((w.descriptor descId).inner.fields.zip values).map Prod.fst :=
        (List.map_fst_zip (by omega)).symm
      have hsnd : ((w.descriptor descId).inner.fields.zip values).map Prod.snd = values :=
        List.map_snd_zip (by omega)
      rw [messageRecords_succ, World.runtime_descriptor] at hrecs
      obtain ⟨⟨frecs, counts⟩, hfields, hrecs⟩ := bind_eq_ok.mp hrecs
      obtain ⟨_, -, hrecs⟩ := bind_eq_ok.mp hrecs
      rw [unknownOf_instanceOf hgen hlen, ok_bind] at hrecs
      obtain ⟨rfl, rfl⟩ : frecs = recs ∧ unknown' = unknown := by simpa using hrecs
      have hfits : ∀ rec ∈ frecs, rec.payload.Fits := fits_of_recordsBytes (by
        rw [List.length_append] at hlength
        omega)
      rw [hfst] at hfields
      obtain ⟨recs₁, st, hrecs₁, hfold, hdone, hnumbers⟩ := fieldsDecoded_of_conforms hR hfst
        hgen.numbers (fun p hp => hgen.wellFormed.shaped p.1 (List.of_mem_zip hp).1)
        (fun p hp => hfam.leavesDecode henum ih hdom (List.of_mem_zip hp).1)
        (fun p hp => coerceEnum_zeroValue hfam hdom (List.of_mem_zip hp).1)
        (fun p hp => getattr_instanceOf hgen unknown' hlen hp)
        (fun p hp => List.forall₂_zip hparts.fields hp) hparts.oneofs _ [] rfl _ _ _ _ _ hfields
        hfits (fieldsDecoded_init hfst)
      rw [List.nil_append] at hrecs₁
      subst hrecs₁
      -- the records of known fields, and behind them the bytes kept
      have hreadable : ∀ rec ∈ frecs, rec.Readable := fun rec hrec => by
        obtain ⟨field, hfield, hnumber⟩ := hnumbers rec hrec
        exact ⟨hnumber ▸ hgen.valid field hfield, hfits rec hrec⟩
      obtain ⟨segs, hsplit, hunrecognized⟩ := hparts.unknown
      obtain ⟨hcollections, hfilled⟩ := hdone.filled hfst
      rw [hsnd] at hfilled
      refine ⟨instanceOf cls (w.descriptor descId) (filledValues (w.descriptor descId) st.values)
        unknown', ?_, hR.instanceOf cls hfilled hlen unknown'⟩
      rw [decodeMessage_eq_ok hgen.wellFormed]
      refine ⟨frecs.map Record.segment ++ segs, { st with unknown := unknown' },
        (split_segments hreadable).append hsplit, ?_, ?_⟩
      · rw [List.foldlM_append, hfold, ok_bind, foldlM_unrecognized hunrecognized,
          hdone.unknown, List.nil_append, flatMap_raw_of_split hsplit]
      · exact construct_generated hfam hdom hcollections unknown'

end FastProto
