import FastProto.Wire

/-! # Wire records

A message on the wire is a sequence of records, each a tag and a payload. `readRecord` reads one
record as the loops of the decoder and of the descriptor parser do, `readSegment` also keeps the
bytes it was read from. Both are decided by those bytes, and both undo the writers. -/

namespace FastProto

open Lib Lib.Cursor

/-- The payload of a record, by wire type. -/
inductive Payload where
  | varint (value : UInt64)
  | i64 (bits : UInt64)
  | len (data : Bytes)
  | i32 (bits : UInt32)
  deriving DecidableEq, Repr

/-- The wire type a payload is written with. -/
def Payload.wire : Payload → WireType
  | .varint _ => .varint
  | .i64 _ => .i64
  | .len _ => .len
  | .i32 _ => .i32

/-- The bytes of a payload, without its tag. -/
def Payload.bytes : Payload → Bytes
  | .varint value => varintBytes value
  | .i64 bits => toLeBytes 8 bits.toNat
  | .len data => lenBytes data
  | .i32 bits => toLeBytes 4 bits.toNat

/-- A chunk whose length fits the `u64` of its prefix; the other payloads always fit. -/
def Payload.Fits : Payload → Prop
  | .len data => data.length < 2 ^ 64
  | _ => True

/-- A record: a field number and a payload. -/
structure Record where
  /-- The field number of the tag. -/
  number : UInt32
  /-- What follows the tag. -/
  payload : Payload
  deriving DecidableEq, Repr

/-- The bytes of a record as the encoder writes it. -/
def Record.bytes (rec : Record) : Bytes :=
  tagBytes rec.number rec.payload.wire ++ rec.payload.bytes

/-- A record read off a buffer, with the bytes it was read from. -/
structure Segment extends Record where
  /-- The bytes consumed: the tag and the payload, as they stood. -/
  raw : Bytes
  deriving DecidableEq, Repr

/-- The record as a segment, in the encoder's own bytes. -/
def Record.segment (rec : Record) : Segment := { rec with raw := rec.bytes }

namespace Reader

/-- Read the payload of the given wire type. -/
def readPayload : WireType → ReadM Payload
  | .varint => do let value ← readVarint; pure (.varint value)
  | .i64 => do let bits ← readFixed64; pure (.i64 bits)
  | .len => do let data ← readLenDelimited; pure (.len data)
  | .i32 => do let bits ← readFixed32; pure (.i32 bits)

/-- Read one record: a tag and the payload its wire type announces. -/
def readRecord : ReadM Record := do
  let (number, wire) ← readTag
  let payload ← readPayload wire
  pure ⟨number, payload⟩

/-- Read one record and keep its bytes. -/
def readSegment : ReadM Segment := do
  let (rec, raw) ← capture readRecord
  pure { rec with raw }

/-- Skipping a payload is reading it and dropping it. -/
theorem skip_eq (wire : WireType) : skip wire = readPayload wire >>= fun _ => pure () := by
  cases wire <;> simp only [skip, readPayload, bind_assoc, pure_bind]

/-- Reading a payload is decided by the bytes it consumes. -/
theorem framed_readPayload (wire : WireType) : Framed (readPayload wire) := by
  cases wire with
  | varint => exact framed_readVarint.bind fun _ => Framed.pure _
  | i64 => exact framed_readFixed64.bind fun _ => Framed.pure _
  | len => exact framed_readLenDelimited.bind fun _ => Framed.pure _
  | i32 => exact framed_readFixed32.bind fun _ => Framed.pure _

/-- Reading a payload consumes a byte. -/
theorem advances_readPayload (wire : WireType) : Advances (readPayload wire) := by
  cases wire with
  | varint => exact Advances.bind framed_readVarint advances_readVarint
  | i64 => exact Advances.bind framed_readFixed64 advances_readFixed64
  | len => exact Advances.bind framed_readLenDelimited advances_readLenDelimited
  | i32 => exact Advances.bind framed_readFixed32 advances_readFixed32

/-- Reading a record is decided by the bytes it consumes. -/
theorem framed_readRecord : Framed readRecord :=
  framed_readTag.bind fun tag => (framed_readPayload tag.2).bind fun _ => Framed.pure _

/-- Reading a record consumes a byte. -/
theorem advances_readRecord : Advances readRecord :=
  Advances.bind framed_readTag advances_readTag

/-- Reading a segment is decided by the bytes it consumes. -/
theorem framed_readSegment : Framed readSegment :=
  framed_readRecord.capture.bind fun _ => Framed.pure _

/-- Reading a segment consumes a byte. -/
theorem advances_readSegment : Advances readSegment :=
  Advances.bind framed_readRecord.capture (Advances.capture framed_readRecord advances_readRecord)

/-- The payload read has the wire type asked for. -/
theorem wire_of_readPayload {wire : WireType} {payload : Payload} {r r' : Reader}
    (h : readPayload wire r = .ok (payload, r')) : payload.wire = wire := by
  cases wire <;>
  · obtain ⟨⟨_, _⟩, -, h⟩ := bind_eq_ok.mp h
    cases h
    rfl

/-- Reading back a payload. -/
theorem reads_payload {payload : Payload} (h : payload.Fits) :
    Reads (readPayload payload.wire) payload.bytes payload := by
  cases payload with
  | varint value => exact (reads_varint value).bind_nil (Reads.pure _)
  | i64 bits => exact (reads_fixed64 bits).bind_nil (Reads.pure _)
  | len data => exact (reads_lenDelimited h).bind_nil (Reads.pure _)
  | i32 bits => exact (reads_fixed32 bits).bind_nil (Reads.pure _)

/-- **Reading back a record.** -/
theorem reads_record {rec : Record} (hnum : ValidNumber rec.number) (hfit : rec.payload.Fits) :
    Reads readRecord rec.bytes rec :=
  (reads_tag hnum rec.payload.wire).bind ((reads_payload hfit).bind_nil (Reads.pure _))

/-- **Reading back a record as a segment.** -/
theorem reads_segment {rec : Record} (hnum : ValidNumber rec.number) (hfit : rec.payload.Fits) :
    Reads readSegment rec.bytes rec.segment :=
  (reads_record hnum hfit).capture.bind_nil (Reads.pure _)

/-- A segment's bytes are the chunk it was read from, and its number is legal. -/
theorem segment_of_reads {chunk : Bytes} {seg : Segment} (h : Reads readSegment chunk seg) :
    seg.raw = chunk ∧ ValidNumber seg.number := by
  obtain ⟨⟨rec, raw⟩, hread, rfl⟩ := h.of_bind_pure framed_readRecord.capture
  obtain ⟨hraw, hrec⟩ := hread.capture_snd framed_readRecord
  obtain ⟨⟨⟨number, wire⟩, r₁⟩, htag, hrest⟩ := bind_eq_ok.mp (hrec [] [])
  obtain ⟨⟨payload, r₂⟩, -, hend⟩ := bind_eq_ok.mp hrest
  cases hend
  exact ⟨hraw, validNumber_of_readTag htag⟩

end Reader

/-! ## Loop bodies

A loop body of the source reads a tag and then, branch by branch, the payload it expects or nothing
but the payload to skip. -/

section Bodies

variable {σ ε α : Type} {conv : WireError → ε}

/-- Reading a varint payload is reading a varint. -/
theorem payload_varint (f : Payload → Scan UInt8 ε α) :
    (mapErr conv (Reader.readPayload .varint) >>= f)
      = mapErr conv Reader.readVarint >>= fun v => f (.varint v) := by
  rw [Reader.readPayload, mapErr_bind, bind_assoc]
  rfl

/-- Reading an 8-byte payload is reading a fixed 64-bit value. -/
theorem payload_i64 (f : Payload → Scan UInt8 ε α) :
    (mapErr conv (Reader.readPayload .i64) >>= f)
      = mapErr conv Reader.readFixed64 >>= fun bits => f (.i64 bits) := by
  rw [Reader.readPayload, mapErr_bind, bind_assoc]
  rfl

/-- Reading a length-delimited payload is reading a chunk. -/
theorem payload_len (f : Payload → Scan UInt8 ε α) :
    (mapErr conv (Reader.readPayload .len) >>= f)
      = mapErr conv Reader.readLenDelimited >>= fun data => f (.len data) := by
  rw [Reader.readPayload, mapErr_bind, bind_assoc]
  rfl

/-- Reading a 4-byte payload is reading a fixed 32-bit value. -/
theorem payload_i32 (f : Payload → Scan UInt8 ε α) :
    (mapErr conv (Reader.readPayload .i32) >>= f)
      = mapErr conv Reader.readFixed32 >>= fun bits => f (.i32 bits) := by
  rw [Reader.readPayload, mapErr_bind, bind_assoc]
  rfl

/-- What follows a payload may use its wire type. -/
theorem readPayload_congr {wire : WireType} {f g : Payload → Scan UInt8 ε α}
    (h : ∀ payload : Payload, payload.wire = wire → f payload = g payload) :
    (mapErr conv (Reader.readPayload wire) >>= f) = mapErr conv (Reader.readPayload wire) >>= g := by
  funext reader
  rw [bind_apply, bind_apply, mapErr_apply]
  cases hread : Reader.readPayload wire reader with
  | error e => rfl
  | ok r => rw [mapError_ok, ok_bind, ok_bind, h r.1 (Reader.wire_of_readPayload hread)]

/-- Skipping a payload and going on is reading it and going on. -/
theorem skip_bind (wire : WireType) (f : Unit → Scan UInt8 ε α) :
    (mapErr conv (Reader.skip wire) >>= f)
      = mapErr conv (Reader.readPayload wire) >>= fun _ => f () := by
  rw [Reader.skip_eq, mapErr_bind, bind_assoc]
  rfl

/-- **A body that reads a tag and then branches is a step on records**, once each branch reads
exactly the payload of its wire type before it touches the state. -/
theorem body_of_branches {step : σ → Record → Except ε σ} {body : σ → Scan UInt8 ε σ}
    {branch : σ → UInt32 × WireType → Scan UInt8 ε σ}
    (hbody : ∀ s, body s = mapErr conv Reader.readTag >>= branch s)
    (hbranch : ∀ s number wire, branch s (number, wire)
      = mapErr conv (Reader.readPayload wire) >>= fun payload =>
          StateT.lift (step s ⟨number, payload⟩)) :
    Body Reader.readRecord conv step body := by
  intro s
  rw [hbody]
  unfold Reader.readRecord
  rw [mapErr_bind, bind_assoc]
  refine congrArg _ (funext fun tag => ?_)
  rw [hbranch, mapErr_bind, bind_assoc]
  rfl

/-- **A body that also keeps the bytes read is a step on segments**: `branch` is passed the offset
the tag stands at. -/
theorem body_of_captured_branches {P : σ → Prop} {step : σ → Segment → Except ε σ}
    {body : σ → Scan UInt8 ε σ} (branch : σ → Nat → UInt32 × WireType → Scan UInt8 ε σ)
    (hbody : ∀ s reader, body s reader
      = (mapErr conv Reader.readTag >>= branch s reader.pos) reader)
    (hbranch : ∀ s start number wire, P s → branch s start (number, wire)
      = mapErr conv (Reader.readPayload wire) >>= fun payload => rawSince start >>= fun raw =>
          StateT.lift (step s ⟨⟨number, payload⟩, raw⟩)) :
    BodyOn P Reader.readSegment conv step body := by
  intro s hs
  funext reader
  rw [hbody]
  unfold Reader.readSegment Reader.readRecord
  rw [mapErr_bind, bind_assoc, bind_apply, bind_apply, mapErr_apply, mapErr_apply, capture,
    bind_apply]
  cases Reader.readTag reader with
  | error e => rfl
  | ok tag =>
      obtain ⟨⟨number, wire⟩, rest⟩ := tag
      rw [mapError_ok, ok_bind, ok_bind, hbranch s reader.pos number wire hs, bind_apply]
      dsimp only
      rw [bind_apply, mapErr_apply]
      cases Reader.readPayload wire rest with
      | error e => rfl
      | ok payload => rfl

end Bodies

/-! ## Records in a row -/

/-- The bytes of a list of records. -/
def recordsBytes (recs : List Record) : Bytes := recs.flatMap Record.bytes

@[simp] theorem recordsBytes_nil : recordsBytes [] = [] := rfl

@[simp] theorem recordsBytes_cons (rec : Record) (recs : List Record) :
    recordsBytes (rec :: recs) = rec.bytes ++ recordsBytes recs := rfl

@[simp] theorem recordsBytes_append (xs ys : List Record) :
    recordsBytes (xs ++ ys) = recordsBytes xs ++ recordsBytes ys := List.flatMap_append

/-- A record the reader gives back: legal number, chunk within the range of its length prefix. -/
def Record.Readable (rec : Record) : Prop := ValidNumber rec.number ∧ rec.payload.Fits

/-- A record takes at least one byte. -/
theorem Record.bytes_ne_nil {rec : Record} (h : rec.Readable) : rec.bytes ≠ [] :=
  Reader.advances_readRecord.ne_nil (Reader.reads_record h.1 h.2)

/-- **The bytes of readable records split into the records.** -/
theorem split_recordsBytes {recs : List Record} (h : ∀ rec ∈ recs, rec.Readable) :
    Split Reader.readRecord (recordsBytes recs) recs := by
  have hsplit := Split.flatMap (f := Record.bytes) (g := fun rec => [rec]) recs fun rec hrec =>
    Split.single (Record.bytes_ne_nil (h rec hrec)) (Reader.reads_record (h rec hrec).1 (h rec hrec).2)
  rwa [List.flatMap_singleton'] at hsplit

/-- The bytes of readable records split into the records as segments. -/
theorem split_segments {recs : List Record} (h : ∀ rec ∈ recs, rec.Readable) :
    Split Reader.readSegment (recordsBytes recs) (recs.map Record.segment) := by
  have hsplit := Split.flatMap (f := Record.bytes) (g := fun rec => [rec.segment]) recs
    fun rec hrec => Split.single (Record.bytes_ne_nil (h rec hrec))
      (Reader.reads_segment (h rec hrec).1 (h rec hrec).2)
  rwa [← List.map_eq_flatMap] at hsplit

/-- A payload takes at least one byte. -/
theorem Payload.bytes_ne_nil (payload : Payload) : payload.bytes ≠ [] := by
  have hvarint : ∀ value, varintBytes value ≠ [] := fun value =>
    Reader.advances_readVarint.ne_nil (Reader.reads_varint value)
  cases payload with
  | varint value => exact hvarint value
  | i64 bits => exact fun h => by simpa [Payload.bytes, toLeBytes] using congrArg List.length h
  | len data => exact fun h => hvarint _ (List.append_eq_nil_iff.mp h).1
  | i32 bits => exact fun h => by simpa [Payload.bytes, toLeBytes] using congrArg List.length h

/-- The bytes of payloads of one wire type split into the payloads. -/
theorem split_payloads {wire : WireType} {payloads : List Payload}
    (h : ∀ payload ∈ payloads, payload.wire = wire ∧ payload.Fits) :
    Split (Reader.readPayload wire) (payloads.flatMap Payload.bytes) payloads := by
  have hsplit : Split (Reader.readPayload wire) _ _ := Split.flatMap (f := Payload.bytes)
    (g := fun payload => [payload]) payloads fun payload hp => by
      obtain ⟨rfl, hfits⟩ := h payload hp
      exact Split.single payload.bytes_ne_nil (Reader.reads_payload hfits)
  rwa [List.flatMap_singleton'] at hsplit

/-- A chunk is no longer than the record that carries it. -/
theorem Record.fits_of_length {rec : Record} (h : rec.bytes.length < 2 ^ 64) :
    rec.payload.Fits := by
  obtain ⟨number, payload⟩ := rec
  cases payload with
  | len data =>
      simp only [Record.bytes, Payload.bytes, lenBytes, List.length_append] at h
      show data.length < 2 ^ 64
      omega
  | _ => trivial

/-- Records that take less than `2^64` bytes have chunks that fit. -/
theorem fits_of_recordsBytes {recs : List Record} (h : (recordsBytes recs).length < 2 ^ 64) :
    ∀ rec ∈ recs, rec.payload.Fits := by
  induction recs with
  | nil => intro rec hrec; cases hrec
  | cons rec recs ih =>
      rw [recordsBytes_cons, List.length_append] at h
      intro rec' hrec'
      rcases List.mem_cons.mp hrec' with rfl | hrec'
      · exact Record.fits_of_length (by omega)
      · exact ih (by omega) rec' hrec'

/-- The raw bytes of the segments of a buffer, in order, are the buffer. -/
theorem flatMap_raw_of_split {data : Bytes} {segs : List Segment}
    (h : Split Reader.readSegment data segs) : segs.flatMap Segment.raw = data := by
  induction h with
  | nil => rfl
  | cons _ hread _ ih =>
      rw [List.flatMap_cons, ih, (Reader.segment_of_reads hread).1]

end FastProto
