import FastProto.Lib.Truncate
import FastProto.DecodeMerge

/-! # Messages cut short

The prefixes of a message that decode are those that end where one of its fields ends; every other
prefix is refused with the error that tells the buffer ran out. Nothing of a message cut inside a
field is returned. -/

namespace FastProto

open Lib Lib.Cursor

/-- The errors of a reader whose buffer ran out. -/
def WireError.Truncated (err : WireError) : Prop := err = .unexpectedEof ∨ err = .invalidLength

namespace Reader

/-- `next_byte` runs out on the empty buffer. -/
theorem starves_nextByte : Starves WireError.Truncated nextByte := starves_next (.inl rfl)

/-- The varint loop runs out on a strict prefix. -/
theorem starves_readVarintLoop (shifts : List Nat) :
    ∀ result, Starves WireError.Truncated (readVarintLoop result shifts) := by
  induction shifts with
  | nil => intro result; exact Starves.throw _
  | cons shift shifts ih =>
      intro result
      exact starves_nextByte.bind framed_nextByte
        (fun byte => (Framed.pure _).ite (framed_readVarintLoop shifts _))
        fun byte => (Starves.pure _).ite (ih _)

/-- `read_varint` runs out on a strict prefix. -/
theorem starves_readVarint : Starves WireError.Truncated readVarint :=
  starves_nextByte.bind framed_nextByte
    (fun _ => (Framed.pure _).ite (framed_readVarintLoop _ _))
    fun _ => (Starves.pure _).ite (starves_readVarintLoop _ _)

/-- `read_tag` runs out on a strict prefix. -/
theorem starves_readTag : Starves WireError.Truncated readTag := by
  refine starves_readVarint.bind framed_readVarint (fun key => ?_) fun key => ?_
  · cases WireType.fromU64 (key &&& 0x7) with
    | none => exact Framed.throw _
    | some wire => exact (Framed.throw _).ite (Framed.pure _)
  · cases WireType.fromU64 (key &&& 0x7) with
    | none => exact Starves.throw _
    | some wire => exact (Starves.throw _).ite (Starves.pure _)

/-- Reading a payload runs out on a strict prefix. -/
theorem starves_readPayload (wire : WireType) :
    Starves WireError.Truncated (readPayload wire) := by
  cases wire with
  | varint =>
      exact starves_readVarint.bind framed_readVarint (fun _ => Framed.pure _)
        fun _ => Starves.pure _
  | i64 =>
      refine Starves.bind framed_readFixed64 ?_ (fun _ => Framed.pure _) fun _ => Starves.pure _
      exact (starves_takeSlice (.inl rfl) 8).bind (framed_takeSlice _ 8) (fun _ => Framed.pure _)
        fun _ => Starves.pure _
  | len =>
      refine Starves.bind framed_readLenDelimited ?_ (fun _ => Framed.pure _) fun _ =>
        Starves.pure _
      exact starves_readVarint.bind framed_readVarint (fun len => framed_takeSlice _ len.toNat)
        fun len => starves_takeSlice (.inr rfl) len.toNat
  | i32 =>
      refine Starves.bind framed_readFixed32 ?_ (fun _ => Framed.pure _) fun _ => Starves.pure _
      exact (starves_takeSlice (.inl rfl) 4).bind (framed_takeSlice _ 4) (fun _ => Framed.pure _)
        fun _ => Starves.pure _

/-- Reading a record runs out on a strict prefix. -/
theorem starves_readRecord : Starves WireError.Truncated readRecord :=
  starves_readTag.bind framed_readTag
    (fun tag => (framed_readPayload tag.2).bind fun _ => Framed.pure _)
    fun tag => (starves_readPayload tag.2).bind (framed_readPayload tag.2)
      (fun _ => Framed.pure _) fun _ => Starves.pure _

/-- **Reading a field with its bytes runs out on a strict prefix.** -/
theorem starves_readSegment : Starves WireError.Truncated readSegment :=
  Starves.bind framed_readRecord.capture (starves_readRecord.capture framed_readRecord)
    (fun _ => Framed.pure _) fun _ => Starves.pure _

end Reader

/-! ## Prefixes of a message -/

section Prefixes

variable {w : World} {cls : ClassId} {descId : DescId} {levels : Nat} {data : Bytes} {value : PyVal}

/-- The first fields of a row of fields, in their own bytes. -/
theorem split_take {segs : List Segment} (h : Split Reader.readSegment data segs) (k : Nat) :
    Split Reader.readSegment ((segs.take k).flatMap Segment.raw) (segs.take k) := by
  induction h generalizing k with
  | nil =>
      rw [List.take_nil]
      exact .nil
  | @cons chunk rest seg segs hne hread _ ih =>
      cases k with
      | zero => exact .nil
      | succ k =>
          rw [List.take_succ_cons, List.flatMap_cons, (Reader.segment_of_reads hread).1]
          exact .cons hne hread (ih k)

/-- The first fields of a message that decodes make a message that decodes. -/
theorem decodeMessage_of_split_append (hgen : GeneratedClass w cls descId)
    {taken left : List Segment} {front : Bytes}
    (h : decodeMessage w (levels + 1) cls descId data = .ok value)
    (hsplit : Split Reader.readSegment data (taken ++ left))
    (hfront : Split Reader.readSegment front taken) :
    ∃ value', decodeMessage w (levels + 1) cls descId front = .ok value' := by
  rw [decodeMessage_split hgen.wellFormed hsplit, List.foldlM_append, bind_assoc] at h
  obtain ⟨st, hst, h⟩ := bind_eq_ok.mp h
  obtain ⟨st', hst', hconstruct⟩ := bind_eq_ok.mp h
  have hwhole := decodeFields_ready hgen.wellFormed.shaped
    ((decodeFields_eq_ok hgen.wellFormed.shaped).mpr ⟨taken ++ left, hsplit, by
      rw [targetStep_eq w _ hgen.wellFormed, List.foldlM_append, hst, ok_bind, hst']⟩)
  rw [decodeMessage_split hgen.wellFormed hfront, hst, ok_bind]
  rw [← targetStep_eq w _ hgen.wellFormed] at hst
  have hready := decodeFields_ready hgen.wellFormed.shaped
    ((decodeFields_eq_ok hgen.wellFormed.shaped).mpr ⟨taken, hfront, hst⟩)
  exact construct_total hgen hconstruct hwhole.length hready.length

/-- A message that decodes, cut inside a field, is refused with the error of a buffer that ran
out. -/
theorem decodeMessage_of_cut (hgen : GeneratedClass w cls descId) {taken left : List Segment}
    (h : decodeMessage w (levels + 1) cls descId data = .ok value)
    (hsplit : Split Reader.readSegment data (taken ++ left)) {done part more : Bytes} {seg : Segment}
    (hpart : part ≠ []) (hmore : more ≠ []) (hdone : Split Reader.readSegment done taken)
    (hseg : Reads Reader.readSegment (part ++ more) seg) :
    ∃ err : WireError, err.Truncated ∧
      decodeMessage w (levels + 1) cls descId (done ++ part) = .error (wireErr err) := by
  rw [decodeMessage_split hgen.wellFormed hsplit, List.foldlM_append, bind_assoc] at h
  obtain ⟨st, hst, -⟩ := bind_eq_ok.mp h
  obtain ⟨err, htruncated, hread⟩ := Reader.starves_readSegment done part more seg hmore hseg
  refine ⟨err, htruncated, ?_⟩
  have hloop := drain_rejects (decodeBody_body w (decodeMessage w levels) hgen.wellFormed)
    (segmentStep_keeps w _ hgen.wellFormed) hdone hpart (done ++ part).length [] _ st
    (DecodeState.ready_init _) (Nat.le_refl _) hst hread
  rw [decodeMessage_succ, decodeFields, drainAll, Reader.new, mk_zero]
  simp only [between_buf, between_pos, List.nil_append, List.length_nil, Nat.sub_zero]
  rw [hloop, error_bind]

/-- **Which prefixes of a message decode.** A message that decodes is a row of fields; cut anywhere,
it decodes iff the cut is between two of them, and otherwise it is refused with the error of a
buffer that ran out. -/
theorem decodeMessage_take (hgen : GeneratedClass w cls descId)
    (h : decodeMessage w (levels + 1) cls descId data = .ok value) :
    ∃ segs, Split Reader.readSegment data segs ∧ ∀ cut,
      ((∃ value', decodeMessage w (levels + 1) cls descId (data.take cut) = .ok value') ↔
        ∃ k, data.take cut = (segs.take k).flatMap Segment.raw) ∧
      ((∀ k, data.take cut ≠ (segs.take k).flatMap Segment.raw) → ∃ err : WireError,
        err.Truncated ∧
          decodeMessage w (levels + 1) cls descId (data.take cut) = .error (wireErr err)) := by
  obtain ⟨segs, -, hsplit, -⟩ := (decodeMessage_eq_ok hgen.wellFormed).mp h
  refine ⟨segs, hsplit, fun cut => ?_⟩
  have hboundary : ∀ k, data.take cut = (segs.take k).flatMap Segment.raw →
      ∃ value', decodeMessage w (levels + 1) cls descId (data.take cut) = .ok value' := by
    intro k hk
    rw [hk]
    exact decodeMessage_of_split_append hgen h (by rwa [List.take_append_drop]) (split_take hsplit k)
  obtain ⟨taken, left, rfl, hcut⟩ := hsplit.cut _ _ (List.take_append_drop cut data).symm
  rcases hcut with htaken | ⟨done, part, more, seg, hfront, hpart, hmore, hdone, hseg, -⟩
  · -- the cut is between two fields
    have hk : data.take cut = ((taken ++ left).take taken.length).flatMap Segment.raw := by
      rw [List.take_left, flatMap_raw_of_split htaken]
    exact ⟨⟨fun _ => ⟨_, hk⟩, fun ⟨k, hk⟩ => hboundary k hk⟩, fun hno => absurd hk (hno _)⟩
  · -- the cut is inside a field: it cannot also be between two of them
    obtain ⟨err, htruncated, herr⟩ := decodeMessage_of_cut hgen h hsplit hpart hmore hdone hseg
    rw [← hfront] at herr
    refine ⟨⟨?_, fun ⟨k, hk⟩ => hboundary k hk⟩, fun _ => ⟨err, htruncated, herr⟩⟩
    rintro ⟨value', hvalue⟩
    rw [herr] at hvalue
    cases hvalue

end Prefixes

/-- A number and a nested message, cut anywhere. -/
theorem decodeMessage_take_recursiveWorld :
    ∃ segs, Split Reader.readSegment [0x08, 5, 0x1a, 2, 0x10, 0] segs ∧ ∀ cut,
      ((∃ value', decodeMessage recursiveWorld 101 0 0 ([0x08, 5, 0x1a, 2, 0x10, 0].take cut)
          = .ok value') ↔
        ∃ k, [0x08, 5, 0x1a, 2, 0x10, 0].take cut = (segs.take k).flatMap Segment.raw) ∧
      ((∀ k, [0x08, 5, 0x1a, 2, 0x10, 0].take cut ≠ (segs.take k).flatMap Segment.raw) →
        ∃ err : WireError, err.Truncated ∧
          decodeMessage recursiveWorld 101 0 0 ([0x08, 5, 0x1a, 2, 0x10, 0].take cut)
            = .error (wireErr err)) :=
  @decodeMessage_take recursiveWorld 0 0 100 _
    (instanceOf 0 (recursiveWorld.descriptor 0) [.int 5, .member 1 0,
      instanceOf 0 (recursiveWorld.descriptor 0) [.int 0, .member 1 0, .pyNone] []] [])
    (family_recursiveWorld.generated 0 0 ⟨rfl, rfl⟩) rfl

end FastProto
