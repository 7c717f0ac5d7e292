import FastProto.DecodeMerge
import FastProto.Unknown
import FastProto.OneofDecode
import FastProto.Varint

/-! # Packed and unpacked forms

A repeated field of a packable type reads the same list however the list is written: an entry a value,
packed chunks of any length, or both in turn, with fields of other numbers in between. Those fields are
read as if the entries of this one were absent. -/

namespace FastProto

open Lib Lib.Cursor

/-! ## Writing a list in pieces -/

/-- A wire field of an input, as a repeated field sees it. -/
inductive Piece where
  /-- An unpacked entry. -/
  | entry (value : PyVal)
  /-- A packed chunk, of any length. -/
  | chunk (values : List PyVal)
  /-- A field of another number. -/
  | other (seg : Segment)

/-- The values a piece carries for the list. -/
def Piece.values : Piece → List PyVal
  | .entry value => [value]
  | .chunk values => values
  | .other _ => []

/-- The bytes a piece carries for other fields. -/
def Piece.rest : Piece → Bytes
  | .other seg => seg.raw
  | _ => []

/-- The list written by some pieces. -/
def valuesOf (pieces : List Piece) : List PyVal := pieces.flatMap Piece.values

/-- What stays of an input without the entries of the field. -/
def restOf (pieces : List Piece) : Bytes := pieces.flatMap Piece.rest

@[simp] theorem valuesOf_cons (piece : Piece) (pieces : List Piece) :
    valuesOf (piece :: pieces) = piece.values ++ valuesOf pieces := rfl

@[simp] theorem restOf_cons (piece : Piece) (pieces : List Piece) :
    restOf (piece :: pieces) = piece.rest ++ restOf pieces := rfl

section Pieces

variable (w : World) (nested : NestedDecoder) (desc : Descriptor) (field : FieldDescriptor)

/-- **What may stand on the wire for a piece**: any segment whose payload reads as the value, any
packed chunk whose payloads, in any spelling, read as the values. -/
inductive WritesPiece : Piece → Segment → Prop
  | entry {value : PyVal} {seg : Segment} (hnumber : seg.number = field.number)
      (hwire : seg.payload.wire = field.kind.expectedWire)
      (hvalue : valueOfPayload w nested field.kind (desc.ref field.number) seg.payload = .ok value) :
      WritesPiece (.entry value) seg
  | chunk {values : List PyVal} {payloads : List Payload} {data : Bytes} {seg : Segment}
      (hnumber : seg.number = field.number) (hpayload : seg.payload = .len data)
      (hsplit : Split (Reader.readPayload field.kind.expectedWire) data payloads)
      (hvalues : List.Forall₂ (fun payload value => valueOfPayload w nested field.kind
        (desc.ref field.number) payload = .ok value) payloads values) :
      WritesPiece (.chunk values) seg
  | other {seg : Segment} (hnumber : seg.number ≠ field.number) : WritesPiece (.other seg) seg

/-- **The input is a way of writing the pieces**, one wire field a piece. -/
def WrittenAs (data : Bytes) (pieces : List Piece) : Prop :=
  ∃ segs, Split Reader.readSegment data segs ∧
    List.Forall₂ (WritesPiece w nested desc field) pieces segs

end Pieces

/-! ## The types of elements -/

/-- The values of a packable type: those that a payload of its wire type reads as. -/
def FieldKind.Element (w : World) (kind : FieldKind) (linked : Option LinkedRef) (value : PyVal) :
    Prop :=
  ∃ payload : Payload, payload.wire = kind.expectedWire ∧
    ∀ nested, valueOfPayload w nested kind linked payload = .ok value

/-- Every value of a scalar type has a payload, and a payload reads as no other. -/
theorem element_scalar (w : World) (scalar : ScalarType) (linked : Option LinkedRef) (value : PyVal) :
    (FieldKind.scalar scalar).Element w linked value ↔ scalar.Holds value := by
  constructor
  · rintro ⟨payload, -, hread⟩
    exact holds_of_scalarOfPayload (hread fun _ _ _ => .error (.valueError ""))
  · intro hholds
    obtain ⟨payload, hwrite, hread, -⟩ := hholds.roundTrip
    exact ⟨payload, wire_of_scalarPayload hwrite, fun _ => hread⟩

/-- Every 32-bit number that the enum's class does not reject has a payload. -/
theorem element_enum (w : World) (linked : Option LinkedRef) (value : PyVal) :
    FieldKind.enum.Element w linked value ↔ ∃ i : Int32, coerceEnum w linked i = .ok value := by
  constructor
  · rintro ⟨payload, hwire, hread⟩
    cases payload with
    | varint raw => exact ⟨_, hread fun _ _ _ => .error (.valueError "")⟩
    | _ => cases hwire
  · rintro ⟨i, hi⟩
    refine ⟨.varint i.toInt64.toUInt64, rfl, fun nested => ?_⟩
    show decodeEnum w linked i.toInt64.toUInt64 = .ok value
    unfold decodeEnum
    rw [toInt32_signExtend]
    exact hi

section Steps

variable {w : World} {nested : NestedDecoder} {desc : Descriptor} {field : FieldDescriptor} {idx : Nat}

/-- A packable type is no map. -/
theorem isMap_of_isPacked {kind : FieldKind} (h : kind.isPacked = true) : kind.isMap = false := by
  cases kind with
  | map => cases h
  | _ => rfl

/-- The elements of a packable type are not length-delimited. -/
theorem expectedWire_of_isPacked {kind : FieldKind} (h : kind.isPacked = true) :
    kind.expectedWire ≠ .len := by
  cases kind with
  | scalar scalar => cases scalar <;> first | decide | cases h
  | enum => decide
  | _ => cases h

/-- A payload that is not length-delimited takes ten bytes at most. -/
theorem length_payload_le {payload : Payload} (h : payload.wire ≠ .len) :
    payload.bytes.length ≤ 10 := by
  cases payload with
  | varint value =>
      rw [Payload.bytes, length_varintBytes]
      exact varintLen_le (by decide) (by have := value.toNat_lt; omega)
  | i64 bits => rw [Payload.bytes, length_toLeBytes]; decide
  | len data => exact absurd rfl h
  | i32 bits => rw [Payload.bytes, length_toLeBytes]; decide

/-- The length of a chunk. -/
theorem length_payloads_le {payloads : List Payload} (h : ∀ payload ∈ payloads, payload.wire ≠ .len) :
    (payloads.flatMap Payload.bytes).length ≤ 10 * payloads.length := by
  induction payloads with
  | nil => exact Nat.le_refl 0
  | cons payload payloads ih =>
      have hhead := length_payload_le (h payload List.mem_cons_self)
      have htail := ih fun payload hmem => h payload (List.mem_cons_of_mem _ hmem)
      rw [List.flatMap_cons, List.length_append, List.length_cons]
      omega

/-- What can be written for a piece: values of the type, in chunks whose length can be written. -/
def Piece.Writable (w : World) (desc : Descriptor) (field : FieldDescriptor) : Piece → Prop
  | .entry value => field.kind.Element w (desc.ref field.number) value
  | .chunk values => values.length < 2 ^ 60 ∧
      ∀ value ∈ values, field.kind.Element w (desc.ref field.number) value
  | .other seg => seg.number ≠ field.number ∧ seg.raw ≠ [] ∧
      Cursor.Reads Reader.readSegment seg.raw seg

/-- Values of the type have payloads. -/
theorem exists_payloads {values : List PyVal} (nested : NestedDecoder)
    (h : ∀ value ∈ values, field.kind.Element w (desc.ref field.number) value) :
    ∃ payloads : List Payload, (∀ payload ∈ payloads, payload.wire = field.kind.expectedWire) ∧
      List.Forall₂ (fun payload value => valueOfPayload w nested field.kind (desc.ref field.number)
        payload = .ok value) payloads values := by
  induction values with
  | nil => exact ⟨[], by simp, .nil⟩
  | cons value values ih =>
      obtain ⟨payload, hwire, hread⟩ := h value List.mem_cons_self
      obtain ⟨payloads, hwires, hreads⟩ := ih fun value hmem => h value (List.mem_cons_of_mem _ hmem)
      exact ⟨payload :: payloads, List.forall_mem_cons.mpr ⟨hwire, hwires⟩, .cons (hread nested) hreads⟩

/-- A piece can be written. -/
theorem exists_writesPiece (nested : NestedDecoder) (hnumber : ValidNumber field.number)
    (hpacked : field.kind.isPacked = true) {piece : Piece} (h : piece.Writable w desc field) :
    ∃ chunk seg, chunk ≠ [] ∧ Cursor.Reads Reader.readSegment chunk seg ∧
      WritesPiece w nested desc field piece seg := by
  have hrecord : ∀ {payload : Payload}, payload.Fits →
      WritesPiece w nested desc field piece (⟨field.number, payload⟩ : Record).segment →
      ∃ chunk seg, chunk ≠ [] ∧ Cursor.Reads Reader.readSegment chunk seg ∧
        WritesPiece w nested desc field piece seg :=
    fun hfits hwrites => ⟨_, _, Record.bytes_ne_nil ⟨hnumber, hfits⟩,
      Reader.reads_segment hnumber hfits, hwrites⟩
  have hfits : ∀ {payload : Payload}, payload.wire = field.kind.expectedWire → payload.Fits := by
    intro payload hwire
    cases payload with
    | len data => exact absurd hwire.symm (expectedWire_of_isPacked hpacked)
    | _ => trivial
  cases piece with
  | entry value =>
      obtain ⟨payload, hwire, hread⟩ := h
      exact hrecord (hfits hwire) (.entry rfl hwire (hread nested))
  | chunk values =>
      obtain ⟨payloads, hwires, hreads⟩ := exists_payloads nested h.2
      refine @hrecord (.len (payloads.flatMap Payload.bytes)) ?_
        (.chunk rfl rfl (split_payloads fun payload hmem =>
          ⟨hwires payload hmem, hfits (hwires payload hmem)⟩) hreads)
      have hlen := length_payloads_le fun payload hmem =>
        hwires payload hmem ▸ expectedWire_of_isPacked hpacked
      have hcount := h.1
      rw [← hreads.length_eq] at hcount
      show (payloads.flatMap Payload.bytes).length < 2 ^ 64
      omega
  | other seg => exact ⟨seg.raw, seg, h.2.1, h.2.2, .other h.1⟩

/-- **Every list of values can be written in every way.** -/
theorem exists_writtenAs (nested : NestedDecoder) (hnumber : ValidNumber field.number)
    (hpacked : field.kind.isPacked = true) {pieces : List Piece}
    (h : ∀ piece ∈ pieces, piece.Writable w desc field) :
    ∃ data, WrittenAs w nested desc field data pieces := by
  induction pieces with
  | nil => exact ⟨[], [], .nil, .nil⟩
  | cons piece pieces ih =>
      obtain ⟨chunk, seg, hne, hread, hwrites⟩ :=
        exists_writesPiece nested hnumber hpacked (h piece List.mem_cons_self)
      obtain ⟨data, segs, hsplit, htail⟩ := ih fun piece hmem => h piece (List.mem_cons_of_mem _ hmem)
      exact ⟨chunk ++ data, seg :: segs, .cons hne hread hsplit, .cons hwrites htail⟩

/-! ## A piece -/

/-- **A piece of the field adds its values to the list**, packed or not. -/
theorem segmentStep_piece (hrec : desc.inner.Recognizes idx field)
    (hlabel : field.label = .repeated) (hpacked : field.kind.isPacked = true) {piece : Piece}
    {seg : Segment} (hwrites : WritesPiece w nested desc field piece seg)
    (hnumber : seg.number = field.number) {st : DecodeState} {items : List PyVal}
    (hitems : st.values[idx]? = some (some (.list items))) :
    segmentStep w nested desc st seg = .ok (st.store idx (.list (items ++ piece.values))) := by
  have hmap := isMap_of_isPacked hpacked
  -- a repeated field claims no oneof
  have hclaim : st.claimOneof field idx = st :=
    DecodeState.claimOneof_of_label idx (by rw [hlabel]; decide)
  have hstep : ∀ {values : List PyVal},
      repeatedOfPayload w nested field.kind (desc.ref field.number) seg.payload items
        = .ok (items ++ values) → field.accepts seg.payload.wire = true →
      segmentStep w nested desc st seg = .ok (st.store idx (.list (items ++ values))) := by
    intro values hread hacc
    unfold segmentStep
    rw [hnumber, hrec _ hacc]
    dsimp only
    rw [fieldStep_repeated w nested hmap hlabel _ (by rw [hclaim]; exact hitems), hread, ok_bind,
      hclaim]
  cases hwrites with
  | @entry value _ _ hwire hvalue =>
      refine hstep ?_ ?_
      · have hstep' : packedStep w nested field.kind (desc.ref field.number) items seg.payload
            = .ok (items ++ (Piece.entry value).values) := by
          rw [packedStep, hvalue]
          rfl
        cases hpayload : seg.payload with
        | len data =>
            rw [hpayload] at hwire
            exact absurd hwire.symm (expectedWire_of_isPacked hpacked)
        | _ =>
            rw [hpayload] at hstep'
            exact hstep'
      · unfold FieldDescriptor.accepts FieldKind.takesRepeated
        rw [if_pos hlabel, hwire]
        simp
  | chunk _ hpayload hsplit hvalues =>
      refine hstep ?_ ?_
      · rw [hpayload]
        simp only [repeatedOfPayload, hpacked, if_true]
        rw [Reader.new, drainAll_split (packedBody_body w nested hmap (desc.ref field.number)) hsplit]
        exact foldlM_packedStep_eq hvalues items
      · unfold FieldDescriptor.accepts FieldKind.takesRepeated
        rw [if_pos hlabel, hpayload]
        rfl
  | other hother => exact absurd hnumber hother

/-! ## The other fields -/

/-- Claiming a oneof leaves a slot that no group owns alone. -/
theorem DecodeState.claimOneof_store {st : DecodeState} (howners : ∀ owner ∈ st.oneofOwner,
    owner.2 ≠ idx) (field' : FieldDescriptor) (i : Nat) (value : PyVal) :
    (st.store idx value).claimOneof field' i = (st.claimOneof field' i).store idx value := by
  unfold claimOneof store
  dsimp only
  split
  · rename_i group _ _
    cases hprev : st.oneofOwner.lookup group with
    | none => rfl
    | some prev =>
        dsimp only
        split
        · rw [List.set_comm _ _ (howners _ (mem_of_lookup hprev)).symm]
        · rfl
  · rfl

/-- **The step of another field does not see the slot** of this one. -/
theorem fieldStep_store {st : DecodeState} (howners : ∀ owner ∈ st.oneofOwner, owner.2 ≠ idx)
    {field' : FieldDescriptor} {i : Nat} (hne : i ≠ idx) (payload : Payload) (value : PyVal) :
    fieldStep w nested desc (st.store idx value) i field' payload
      = fieldStep w nested desc st i field' payload >>= fun st' => .ok (st'.store idx value) := by
  unfold fieldStep
  dsimp only
  rw [DecodeState.claimOneof_store howners]
  generalize st.claimOneof field' i = claimed
  have hget : (claimed.store idx value).values[i]? = claimed.values[i]? :=
    List.getElem?_set_ne hne.symm
  have hcomm : ∀ value', (claimed.store idx value).store i value'
      = (claimed.store i value').store idx value := by
    intro value'
    unfold DecodeState.store
    dsimp only
    rw [List.set_comm _ _ hne.symm]
  simp only [hget, hcomm]
  split
  · simp only [bind_assoc]
    refine bind_congr fun kv => ?_
    split <;> rfl
  · rfl
  · split
    · split
      · simp only [bind_assoc, ok_bind]
      · rfl
    · simp only [bind_assoc, ok_bind]

/-- A segment of another number. -/
theorem segmentStep_store (hfield : desc.inner.fields[idx]? = some field) {st : DecodeState}
    (howners : ∀ owner ∈ st.oneofOwner, owner.2 ≠ idx) {seg : Segment}
    (hnumber : seg.number ≠ field.number) (value : PyVal) :
    segmentStep w nested desc (st.store idx value) seg
      = segmentStep w nested desc st seg >>= fun st' => .ok (st'.store idx value) := by
  unfold segmentStep
  cases hrec : desc.inner.recognize seg.number seg.payload.wire with
  | none => rfl
  | some found =>
      obtain ⟨i, field'⟩ := found
      obtain ⟨-, hfield', hnumber', -⟩ := MessageDescriptor.recognize_eq_some hrec
      refine fieldStep_store howners ?_ seg.payload value
      rintro rfl
      rw [hfield] at hfield'
      cases hfield'
      exact hnumber hnumber'.symm

/-! ## All pieces -/

/-- The bytes of the other fields. -/
theorem restOf_eq {pieces : List Piece} {segs : List Segment}
    (h : List.Forall₂ (WritesPiece w nested desc field) pieces segs) :
    (segs.filter fun seg => seg.number ≠ field.number).flatMap Segment.raw = restOf pieces := by
  induction h with
  | nil => rfl
  | @cons piece seg pieces segs hwrites _ ih =>
      rw [restOf_cons, ← ih]
      cases hwrites with
      | entry hnumber _ _ => simp [hnumber, Piece.rest]
      | chunk hnumber _ _ _ => simp [hnumber, Piece.rest]
      | other hnumber => simp [hnumber, Piece.rest]

/-- **The fold over the segments is the fold over those of the other fields**, with the list of all
pieces in the slot. -/
theorem foldlM_pieces (hwf : desc.inner.WellFormed) (hrec : desc.inner.Recognizes idx field)
    (hfield : desc.inner.fields[idx]? = some field) (hlabel : field.label = .repeated)
    (hpacked : field.kind.isPacked = true) {pieces : List Piece} {segs : List Segment}
    (h : List.Forall₂ (WritesPiece w nested desc field) pieces segs) :
    ∀ (items : List PyVal) (st : DecodeState), st.Ready desc.inner.fields →
      segs.foldlM (segmentStep w nested desc) (st.store idx (.list items))
        = (segs.filter fun seg => seg.number ≠ field.number).foldlM (segmentStep w nested desc) st
            >>= fun st' => .ok (st'.store idx (.list (items ++ valuesOf pieces))) := by
  have hnot : field.label ≠ .optional := by rw [hlabel]; decide
  induction h with
  | nil =>
      intro items st _
      rw [valuesOf, List.flatMap_nil, List.append_nil]
      rfl
  | @cons piece seg pieces segs hwrites _ ih =>
      intro items st hready
      rw [List.foldlM_cons]
      by_cases hnumber : seg.number = field.number
      · have hlt : idx < st.values.length := by
          rw [hready.length]
          exact (List.getElem?_eq_some_iff.mp hfield).1
        rw [segmentStep_piece hrec hlabel hpacked hwrites hnumber
            (DecodeState.store_getElem? (.list items) hlt), ok_bind, DecodeState.store_store,
          ih _ _ hready, List.filter_cons_of_neg (by simpa using hnumber), valuesOf_cons,
          List.append_assoc]
      · have hnil : piece.values = [] := by
          cases hwrites with
          | entry h => exact absurd h hnumber
          | chunk h => exact absurd h hnumber
          | other => rfl
        rw [segmentStep_store hfield (hready.owner_ne hfield hnot) hnumber,
          List.filter_cons_of_pos (by simpa using hnumber), List.foldlM_cons, bind_assoc, bind_assoc,
          valuesOf_cons, hnil, List.nil_append]
        cases hstep : segmentStep w nested desc st seg with
        | error e => rfl
        | ok st' =>
            rw [ok_bind, ok_bind, ok_bind]
            exact ih items st' (segmentStep_keeps w nested hwf st seg st' hready hstep)

end Steps

/-! ## Messages -/

/-- The first field with its number takes every segment it accepts. -/
theorem MessageDescriptor.recognizes_of_first {desc : MessageDescriptor} {idx : Nat}
    {field : FieldDescriptor} (hfield : desc.fields[idx]? = some field)
    (hfirst : fieldByNumber desc.fields field.number = some idx) : desc.Recognizes idx field := by
  intro wire hacc
  unfold recognize
  rw [hfirst, Option.bind_some, hfield, Option.bind_some, if_pos hacc]

section Messages

variable {w : World} {levels : Nat} {cls : ClassId} {descId : DescId} {idx : Nat}
  {field : FieldDescriptor}

/-- **The loop of `decode_message`** on pieces: the slots of the other fields, and the list. -/
theorem decodeFields_pieces (hwf : (w.descriptor descId).inner.WellFormed)
    (hfield : (w.descriptor descId).inner.fields[idx]? = some field)
    (hfirst : fieldByNumber (w.descriptor descId).inner.fields field.number = some idx)
    (hlabel : field.label = .repeated) (hpacked : field.kind.isPacked = true) {data : Bytes}
    {pieces : List Piece}
    (h : WrittenAs w (decodeMessage w levels) (w.descriptor descId) field data pieces) :
    decodeFields w levels descId data
      = decodeFields w levels descId (restOf pieces) >>= fun st =>
          .ok (st.store idx (.list (valuesOf pieces))) := by
  obtain ⟨segs, hsplit, hwrites⟩ := h
  have hfold : ∀ {data segs}, Split Reader.readSegment data segs →
      decodeFields w levels descId data
        = segs.foldlM (segmentStep w (decodeMessage w levels) (w.descriptor descId))
            (DecodeState.init (w.descriptor descId).inner.fields) :=
    fun hsplit => drainAll_split_on (decodeBody_body w _ hwf) (segmentStep_keeps w _ hwf) hsplit
      (DecodeState.ready_init _)
  have hinit : (DecodeState.init (w.descriptor descId).inner.fields).values[idx]?
      = some (some (.list [])) := by
    obtain ⟨items, hitems⟩ := (DecodeState.ready_init _).lists idx field hfield
      (isMap_of_isPacked hpacked) hlabel
    have hacc : (DecodeState.init (w.descriptor descId).inner.fields).values[idx]?
        = some (accumulator field) := by
      rw [DecodeState.init, List.getElem?_map, hfield, Option.map_some]
    rw [hacc]
    unfold accumulator
    cases hkind : field.kind with
    | map key value =>
        rw [hkind] at hpacked
        cases hpacked
    | _ => simp only [hlabel, if_true]
  have hrest := split_filter hsplit fun seg => decide (seg.number ≠ field.number)
  rw [restOf_eq hwrites] at hrest
  have hrun := foldlM_pieces hwf (MessageDescriptor.recognizes_of_first hfield hfirst) hfield hlabel
    hpacked hwrites [] _ (DecodeState.ready_init (w.descriptor descId).inner.fields)
  rw [DecodeState.store_self hinit, List.nil_append] at hrun
  rw [hfold hsplit, hrun, hfold hrest]

/-- **Packed and unpacked forms are interchangeable.** Whatever way of writing a list the input is, the
class is built from the slots that the other fields alone give and the list; so two ways of writing
one list between the same other fields decode alike. For a generated class the attribute is the list,
and everything else is what the other fields alone give. -/
theorem decodeMessage_pieces
    (hparsed : ∃ bytes, parseMessage bytes = .ok (w.descriptor descId).inner)
    (hcount : (w.descriptor descId).inner.fields.length < 2 ^ 32 - 1)
    (hfield : (w.descriptor descId).inner.fields[idx]? = some field)
    (hfirst : fieldByNumber (w.descriptor descId).inner.fields field.number = some idx)
    (hlabel : field.label = .repeated) (hpacked : field.kind.isPacked = true) {data : Bytes}
    {pieces : List Piece}
    (h : WrittenAs w (decodeMessage w levels) (w.descriptor descId) field data pieces) :
    (decodeMessage w (levels + 1) cls descId data
      = decodeFields w levels descId (restOf pieces) >>= fun st =>
          construct w cls (w.descriptor descId)
            (st.values.set idx (some (.list (valuesOf pieces)))) st.unknown) ∧
    (∀ data' pieces',
      WrittenAs w (decodeMessage w levels) (w.descriptor descId) field data' pieces' →
      valuesOf pieces' = valuesOf pieces → restOf pieces' = restOf pieces →
      decodeMessage w (levels + 1) cls descId data'
        = decodeMessage w (levels + 1) cls descId data) ∧
    ∀ dom, Family w dom → dom cls descId →
      ∀ alone, decodeMessage w (levels + 1) cls descId (restOf pieces) = .ok alone →
      ∃ value, decodeMessage w (levels + 1) cls descId data = .ok value ∧
        w.runtime.getattr value field.name = .ok (.list (valuesOf pieces)) ∧
        (∀ field' ∈ (w.descriptor descId).inner.fields, field' ≠ field →
          w.runtime.getattr value field'.name = w.runtime.getattr alone field'.name) ∧
        unknownOf w.runtime value = unknownOf w.runtime alone := by
  obtain ⟨bytes, hbytes⟩ := hparsed
  have hwf : (w.descriptor descId).inner.WellFormed := ⟨parseMessage_shaped hbytes, hcount⟩
  -- the pieces only matter through their elements and what stands between them
  have hdecode : ∀ {data pieces},
      WrittenAs w (decodeMessage w levels) (w.descriptor descId) field data pieces →
      decodeMessage w (levels + 1) cls descId data
        = decodeFields w levels descId (restOf pieces) >>= fun st =>
            construct w cls (w.descriptor descId)
              (st.values.set idx (some (.list (valuesOf pieces)))) st.unknown := by
    intro data pieces h
    rw [decodeMessage_succ, decodeFields_pieces hwf hfield hfirst hlabel hpacked h, bind_assoc]
    rfl
  refine ⟨hdecode h, fun data' pieces' h' hvalues hrest => ?_, fun dom hfam hdom alone halone => ?_⟩
  · rw [hdecode h', hdecode h, hvalues, hrest]
  · have hgen := hfam.generated cls descId hdom
    rw [decodeMessage_succ] at halone
    obtain ⟨st, hst, halone⟩ := bind_eq_ok.mp halone
    have hready := decodeFields_ready hwf.shaped hst
    have hlt : idx < st.values.length := by
      rw [hready.length]
      exact (List.getElem?_eq_some_iff.mp hfield).1
    -- the list in place of the slot that decoding the rest leaves
    have hstored : (st.store idx (.list (valuesOf pieces))).Ready
        (w.descriptor descId).inner.fields :=
      hready.store hfield (fun hmap => absurd ((isMap_of_isPacked hpacked).symm.trans hmap)
        (by decide)) fun _ _ => ⟨_, rfl⟩
    rw [construct_generated hfam hdom hready.collections] at halone
    cases halone
    refine ⟨instanceOf cls (w.descriptor descId) (filledValues (w.descriptor descId)
      (st.store idx (.list (valuesOf pieces))).values) st.unknown, ?_, ?_, ?_, ?_⟩
    · rw [hdecode h, hst]
      exact construct_generated hfam hdom hstored.collections _
    · exact getattr_filledValues hgen hstored.length hfield
        (DecodeState.store_getElem? _ hlt) _
    · intro field' hmem hne
      obtain ⟨i, hi⟩ := List.mem_iff_getElem?.mp hmem
      have hidx : idx ≠ i := by
        rintro rfl
        rw [hfield] at hi
        exact hne (Option.some.inj hi).symm
      obtain ⟨slot, hslot⟩ : ∃ slot, st.values[i]? = some slot := by
        refine ⟨_, List.getElem?_eq_getElem ?_⟩
        rw [hready.length]
        exact (List.getElem?_eq_some_iff.mp hi).1
      have hkept : (st.store idx (.list (valuesOf pieces))).values[i]? = some slot := by
        rw [DecodeState.store_values, List.getElem?_set_ne hidx]
        exact hslot
      rw [getattr_filledValues hgen hstored.length hi hkept,
        getattr_filledValues hgen hready.length hi hslot]
    · rw [unknownOf_instanceOf hgen (length_filledValues hstored.length),
        unknownOf_instanceOf hgen (length_filledValues hready.length)]

end Messages

/-- The list 5, 6, 7, 8 as an entry, a chunk of two, an empty chunk and an entry, with another field
in between. -/
theorem decodeMessage_pieces_choice :
    decodeMessage choiceWorld 1 0 0 [0x18, 5, 0x1a, 2, 6, 7, 0x08, 1, 0x1a, 0, 0x18, 8]
      = decodeFields choiceWorld 0 0 [0x08, 1] >>= fun st =>
          construct choiceWorld 0 (choiceWorld.descriptor 0)
            (st.values.set 2 (some (.list [.int 5, .int 6, .int 7, .int 8]))) st.unknown := by
  let recs : List Record :=
    [⟨3, .varint 5⟩, ⟨3, .len [6, 7]⟩, ⟨1, .varint 1⟩, ⟨3, .len []⟩, ⟨3, .varint 8⟩]
  have hsplit : Split Reader.readSegment [0x18, 5, 0x1a, 2, 6, 7, 0x08, 1, 0x1a, 0, 0x18, 8]
      (recs.map Record.segment) := by
    have hvalid : ∀ rec ∈ recs, ValidNumber rec.number := by decide
    have hfits := fits_of_recordsBytes (show (recordsBytes recs).length < 2 ^ 64 by decide)
    exact split_segments fun rec hrec => ⟨hvalid rec hrec, hfits rec hrec⟩
  have hchunk : Split (Reader.readPayload .varint) [6, 7] [.varint 6, .varint 7] := by
    have hvarint : ∀ payload ∈ [Payload.varint 6, .varint 7], payload.wire = .varint ∧ payload.Fits := by
      intro payload hpayload
      rcases List.mem_pair.mp hpayload with rfl | rfl <;> exact ⟨rfl, trivial⟩
    exact split_payloads hvarint
  have hpieces : WrittenAs choiceWorld (decodeMessage choiceWorld 0) (choiceWorld.descriptor 0)
      { number := 3, name := "r", kind := .scalar .int32, label := .repeated, typeName := none,
        oneofIndex := none }
      [0x18, 5, 0x1a, 2, 6, 7, 0x08, 1, 0x1a, 0, 0x18, 8]
      [.entry (.int 5), .chunk [.int 6, .int 7],
        .other (⟨1, .varint 1⟩ : Record).segment, .chunk [], .entry (.int 8)] :=
    ⟨_, hsplit, .cons (.entry rfl rfl rfl)
      (.cons (.chunk rfl rfl hchunk (.cons rfl (.cons rfl .nil)))
        (.cons (.other (by decide))
          (.cons (.chunk rfl rfl .nil .nil) (.cons (.entry rfl rfl rfl) .nil))))⟩
  exact (@decodeMessage_pieces choiceWorld 0 0 0 2 _ ⟨choiceBytes, by rfl⟩ (by decide) rfl (by rfl) rfl
    rfl _ _ hpieces).1

end FastProto
