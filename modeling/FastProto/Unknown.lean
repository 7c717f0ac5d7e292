import FastProto.Codec

/-! # Unknown fields

The bytes the decoder keeps are, in order and verbatim, the segments that no field of the descriptor
takes. Without these segments the decoder reaches the same values, and the encoder writes them back
after the known fields. -/

namespace FastProto

open Lib Lib.Cursor

/-- Whether no field of the descriptor takes a segment: its number is unknown, or the field with the
number does not take its wire type. -/
def MessageDescriptor.unrecognized (desc : MessageDescriptor) (seg : Segment) : Bool :=
  (desc.recognize seg.number seg.payload.wire).isNone

/-- With distinct numbers, a segment is unrecognized iff every field with its number rejects its wire
type. -/
theorem MessageDescriptor.unrecognized_iff {desc : MessageDescriptor}
    (hnumbers : (desc.fields.map (·.number)).Nodup) (seg : Segment) :
    desc.unrecognized seg = true ↔ ∀ field ∈ desc.fields, field.number = seg.number →
      field.accepts seg.payload.wire = false := by
  unfold unrecognized
  rw [Option.isNone_iff_eq_none]
  constructor
  · intro h field hfield hnumber
    obtain ⟨idx, hidx⟩ := List.mem_iff_getElem?.mp hfield
    rw [Bool.eq_false_iff]
    intro hacc
    have hrec := recognizes_of_nodup hnumbers hidx seg.payload.wire hacc
    rw [hnumber, h] at hrec
    cases hrec
  · intro h
    cases hrec : desc.recognize seg.number seg.payload.wire with
    | none => rfl
    | some p =>
        obtain ⟨idx, field⟩ := p
        obtain ⟨-, hfield, hnumber, hacc⟩ := recognize_eq_some hrec
        rw [h field (List.mem_of_getElem? hfield) hnumber] at hacc
        cases hacc

/-! ## Dropping segments -/

/-- The raw bytes of some of the segments of a buffer split into these segments. -/
theorem split_filter {data : Bytes} {segs : List Segment}
    (h : Split Reader.readSegment data segs) (keep : Segment → Bool) :
    Split Reader.readSegment ((segs.filter keep).flatMap Segment.raw) (segs.filter keep) := by
  induction h with
  | nil => exact .nil
  | @cons chunk rest seg segs hne hread _ ih =>
      by_cases hkeep : keep seg = true
      · rw [List.filter_cons_of_pos hkeep, List.flatMap_cons, (Reader.segment_of_reads hread).1]
        exact .cons hne hread ih
      · rwa [List.filter_cons_of_neg hkeep]

/-- The state with other unknown bytes. -/
def DecodeState.withUnknown (st : DecodeState) (unknown : Bytes) : DecodeState := { st with unknown }

section Steps

variable {w : World} {nested : NestedDecoder} {desc : Descriptor}

/-- Claiming a oneof group does not look at the unknown bytes. -/
theorem DecodeState.claimOneof_withUnknown (st : DecodeState) (field : FieldDescriptor) (idx : Nat)
    (unknown : Bytes) : (st.withUnknown unknown).claimOneof field idx
      = (st.claimOneof field idx).withUnknown unknown := by
  unfold claimOneof withUnknown
  split <;> rfl

/-- The step of a field neither looks at the unknown bytes nor changes them. -/
theorem fieldStep_withUnknown {st st' : DecodeState} {idx : Nat} {field : FieldDescriptor}
    {payload : Payload} (h : fieldStep w nested desc st idx field payload = .ok st') :
    st'.unknown = st.unknown ∧ ∀ unknown,
      fieldStep w nested desc (st.withUnknown unknown) idx field payload
        = .ok (st'.withUnknown unknown) := by
  rw [← DecodeState.claimOneof_unknown st field idx]
  unfold fieldStep at h ⊢
  simp only [DecodeState.claimOneof_withUnknown] at h ⊢
  generalize st.claimOneof field idx = claimed at h ⊢
  have hvalues : ∀ unknown, (claimed.withUnknown unknown).values = claimed.values := fun _ => rfl
  simp only [hvalues]
  split at h
  · obtain ⟨⟨k, v⟩, hentry, h⟩ := bind_eq_ok.mp h
    dsimp only at h
    split at h
    · rename_i items hitems
      cases h
      refine ⟨rfl, fun unknown => ?_⟩
      rw [hentry, ok_bind]
      rfl
    · cases h
  · cases h
  · split at h
    · rename_i hlabel
      split at h
      · rename_i items hitems
        obtain ⟨items', hrepeated, h⟩ := bind_eq_ok.mp h
        cases h
        refine ⟨rfl, fun unknown => ?_⟩
        simp only [hlabel, if_true, hrepeated, ok_bind]
        rfl
      · cases h
    · rename_i hlabel
      obtain ⟨value, hvalue, h⟩ := bind_eq_ok.mp h
      cases h
      refine ⟨rfl, fun unknown => ?_⟩
      simp only [if_neg hlabel, hvalue, ok_bind]
      rfl

/-- **Folding over the recognized segments alone reaches the same values**, and the bytes kept are
those of the others. -/
theorem foldlM_filter_recognized {segs : List Segment} :
    ∀ {st st' : DecodeState}, segs.foldlM (segmentStep w nested desc) st = .ok st' →
      st'.unknown = st.unknown ++ (segs.filter desc.inner.unrecognized).flatMap Segment.raw ∧
      ∀ unknown, (segs.filter fun seg => !desc.inner.unrecognized seg).foldlM
        (segmentStep w nested desc) (st.withUnknown unknown) = .ok (st'.withUnknown unknown) := by
  induction segs with
  | nil =>
      intro st st' h
      cases h
      exact ⟨by rw [List.filter_nil, List.flatMap_nil, List.append_nil], fun unknown => rfl⟩
  | cons seg segs ih =>
      intro st st' h
      rw [List.foldlM_cons] at h
      obtain ⟨st₁, hstep, h⟩ := bind_eq_ok.mp h
      obtain ⟨hunknown, hfold⟩ := ih h
      cases hrec : desc.inner.recognize seg.number seg.payload.wire with
      -- an unrecognized segment is kept, and its absence is not noticed
      | none =>
          have hun : desc.inner.unrecognized seg = true := by
            rw [MessageDescriptor.unrecognized, hrec]
            rfl
          unfold segmentStep at hstep
          rw [hrec] at hstep
          cases hstep
          constructor
          · rw [hunknown, List.filter_cons_of_pos hun, List.flatMap_cons, DecodeState.keep_unknown,
              List.append_assoc]
          · intro unknown
            rw [List.filter_cons_of_neg (by simp [hun])]
            exact hfold unknown
      -- a recognized one leaves the unknown bytes alone
      | some p =>
          obtain ⟨idx, field⟩ := p
          have hun : desc.inner.unrecognized seg = false := by
            rw [MessageDescriptor.unrecognized, hrec]
            rfl
          have hfield : ∀ st, segmentStep w nested desc st seg
              = fieldStep w nested desc st idx field seg.payload := fun st => by
            unfold segmentStep
            rw [hrec]
          rw [hfield] at hstep
          obtain ⟨hkeep, hstep'⟩ := fieldStep_withUnknown hstep
          constructor
          · rw [hunknown, hkeep, List.filter_cons_of_neg (by simp [hun])]
          · intro unknown
            rw [List.filter_cons_of_pos (by simp [hun]), List.foldlM_cons, hfield, hstep', ok_bind]
            exact hfold unknown

end Steps

/-! ## The encoding of a message with unknown bytes -/

/-- The fields are encoded without looking at the unknown bytes. -/
theorem fieldsRecords_congr {V : Type} {rt : Runtime V} {plain : NestedPayload V}
    {desc : Descriptor} {instance_ instance' : V} {fields : List FieldDescriptor}
    (h : ∀ field ∈ fields, rt.getattr instance_ field.name = rt.getattr instance' field.name) :
    ∀ st, fieldsRecords rt plain desc instance_ fields st
      = fieldsRecords rt plain desc instance' fields st := by
  induction fields with
  | nil => exact fun st => rfl
  | cons field fields ih =>
      intro st
      have hfield : fieldRecords rt plain desc instance_ st.2 field
          = fieldRecords rt plain desc instance' st.2 field := by
        unfold fieldRecords
        rw [h field (by simp)]
      unfold fieldsRecords at ih ⊢
      rw [List.foldlM_cons, List.foldlM_cons, hfield]
      refine congrArg _ (funext fun st' => ih (fun f hf => h f (by simp [hf])) st')

section Family

variable {w : World} {dom : ClassId → DescId → Prop} {cls : ClassId} {descId : DescId}

/-- **The encoding of an instance is that of its known fields followed by its unknown bytes.** -/
theorem encode_instanceOf (hgen : GeneratedClass w cls descId) {values : List PyVal}
    (hlen : values.length = (w.descriptor descId).inner.fields.length) {unknown : Bytes}
    {levels : Nat} {out : Bytes}
    (h : encodeMessage w.runtime levels (instanceOf cls (w.descriptor descId) values unknown) descId []
      = .ok out) :
    ∃ known, encodeMessage w.runtime levels (instanceOf cls (w.descriptor descId) values []) descId []
      = .ok known ∧ out = known ++ unknown := by
  obtain ⟨recs, unknown', hrecs, rfl⟩ := encodeMessage_eq_ok.mp h
  cases levels with
  | zero => cases hrecs
  | succ levels =>
      rw [messageRecords_succ, World.runtime_descriptor] at hrecs
      obtain ⟨⟨frecs, counts⟩, hfields, hrecs⟩ := bind_eq_ok.mp hrecs
      obtain ⟨_, hcheck, hrecs⟩ := bind_eq_ok.mp hrecs
      rw [unknownOf_instanceOf hgen hlen, ok_bind] at hrecs
      obtain ⟨rfl, rfl⟩ : frecs = recs ∧ unknown = unknown' := by simpa using hrecs
      have hfst : ((w.descriptor descId).inner.fields.zip values).map Prod.fst
          = (w.descriptor descId).inner.fields := List.map_fst_zip (by omega)
      have hsame : ∀ field ∈ (w.descriptor descId).inner.fields,
          w.runtime.getattr (instanceOf cls (w.descriptor descId) values unknown) field.name
            = w.runtime.getattr (instanceOf cls (w.descriptor descId) values []) field.name := by
        intro field hfield
        rw [← hfst] at hfield
        obtain ⟨p, hp, rfl⟩ := List.mem_map.mp hfield
        rw [getattr_instanceOf hgen unknown hlen hp, getattr_instanceOf hgen [] hlen hp]
      refine ⟨recordsBytes frecs, encodeMessage_eq_ok.mpr ⟨frecs, [], ?_, ?_⟩, rfl⟩
      · rw [messageRecords_succ, World.runtime_descriptor, ← fieldsRecords_congr hsame, hfields,
          ok_bind]
        dsimp only
        rw [hcheck, ok_bind, unknownOf_instanceOf hgen hlen, ok_bind]
      · rw [List.append_nil]

/-- **Unknown data is preserved exactly.** The bytes decode accepts split into segments; the unknown
bytes of the instance are the segments no field takes, verbatim and in order; without them the bytes
decode to the same field values; and they are what an encoding ends with and what decoding it
keeps. -/
theorem unknown_preserved (hfam : Family w dom) (hdom : dom cls descId) {levels : Nat} {data : Bytes}
    {m : PyVal} (h : decodeMessage w levels cls descId data = .ok m) :
    ∃ segs values, Split Reader.readSegment data segs ∧
      let unknown := (segs.filter (w.descriptor descId).inner.unrecognized).flatMap Segment.raw
      let known := (segs.filter fun seg => !(w.descriptor descId).inner.unrecognized seg).flatMap
        Segment.raw
      m = instanceOf cls (w.descriptor descId) values unknown ∧
      unknownOf w.runtime m = .ok unknown ∧
      decodeMessage w levels cls descId known
        = .ok (instanceOf cls (w.descriptor descId) values []) ∧
      ∀ out, encodeMessage w.runtime levels m descId [] = .ok out →
        ∃ fields, encodeMessage w.runtime levels (instanceOf cls (w.descriptor descId) values [])
            descId [] = .ok fields ∧ out = fields ++ unknown ∧
          (out.length ≤ isizeMax → ∃ m', decodeMessage w levels cls descId out = .ok m' ∧
            unknownOf w.runtime m' = .ok unknown) := by
  cases levels with
  | zero => cases h
  | succ levels =>
      have hgen := hfam.generated cls descId hdom
      obtain ⟨segs, st, hsplit, hfold, hconstruct⟩ := (decodeMessage_eq_ok hgen.wellFormed).mp h
      -- the slots of known fields never see an unknown segment
      have hready : st.Ready (w.descriptor descId).inner.fields := foldlM_invariant
        (·.Ready (w.descriptor descId).inner.fields)
        (fun s seg s' _ => segmentStep_keeps w _ hgen.wellFormed s seg s') _ _
        (DecodeState.ready_init _) hfold
      have hlen : (filledValues (w.descriptor descId) st.values).length = _ :=
        length_filledValues hready.length
      rw [construct_generated hfam hdom hready.collections] at hconstruct
      obtain ⟨hunknown, hrecognized⟩ := foldlM_filter_recognized hfold
      rw [DecodeState.init, List.nil_append] at hunknown
      rw [hunknown] at hconstruct
      cases hconstruct
      refine ⟨segs, filledValues (w.descriptor descId) st.values, hsplit, rfl,
        unknownOf_instanceOf hgen hlen, ?_, fun out hout => ?_⟩
      · rw [decodeMessage_eq_ok hgen.wellFormed]
        exact ⟨_, _, split_filter hsplit _, hrecognized [],
          construct_generated hfam hdom hready.collections []⟩
      · obtain ⟨fields, hfields, hsplitOut⟩ := encode_instanceOf hgen hlen hout
        exact ⟨fields, hfields, hsplitOut, fun hout' => ⟨_,
          decodeMessage_of_decoded hfam hdom h hout hout', unknownOf_instanceOf hgen hlen⟩⟩

end Family

/-- A known field between an unknown number and a known number with another wire type. -/
theorem unknown_preserved_recursiveWorld :
    ∃ segs values, Split Reader.readSegment [0x28, 0x01, 0x08, 0x07, 0x15, 0x00, 0x00, 0x00, 0x00]
        segs ∧
      let unknown := (segs.filter recursiveMessage.unrecognized).flatMap Segment.raw
      let known := (segs.filter fun seg => !recursiveMessage.unrecognized seg).flatMap Segment.raw
      instanceOf 0 (recursiveWorld.descriptor 0) [.int 7, .member 1 0, .pyNone]
          [0x28, 0x01, 0x15, 0x00, 0x00, 0x00, 0x00]
        = instanceOf 0 (recursiveWorld.descriptor 0) values unknown ∧
      unknownOf recursiveWorld.runtime (instanceOf 0 (recursiveWorld.descriptor 0)
        [.int 7, .member 1 0, .pyNone] [0x28, 0x01, 0x15, 0x00, 0x00, 0x00, 0x00]) = .ok unknown ∧
      decodeMessage recursiveWorld 101 0 0 known
        = .ok (instanceOf 0 (recursiveWorld.descriptor 0) values []) ∧
      ∀ out, encodeMessage recursiveWorld.runtime 101 (instanceOf 0 (recursiveWorld.descriptor 0)
          [.int 7, .member 1 0, .pyNone] [0x28, 0x01, 0x15, 0x00, 0x00, 0x00, 0x00]) 0 [] = .ok out →
        ∃ fields, encodeMessage recursiveWorld.runtime 101
            (instanceOf 0 (recursiveWorld.descriptor 0) values []) 0 [] = .ok fields ∧
          out = fields ++ unknown ∧
          (out.length ≤ isizeMax → ∃ m', decodeMessage recursiveWorld 101 0 0 out = .ok m' ∧
            unknownOf recursiveWorld.runtime m' = .ok unknown) :=
  unknown_preserved family_recursiveWorld ⟨rfl, rfl⟩ rfl

end FastProto