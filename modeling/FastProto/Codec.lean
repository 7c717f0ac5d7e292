import FastProto.DecodeConforms

/-! # The codec on families of message classes

The results about `encode` and `decode` as a pair, for every family of generated classes: decode
undoes encode, what decode accepts encodes to a normal form, and unknown fields pass through. The
lengths involved are those of a Rust `Vec`, at most `isize::MAX` bytes. -/

namespace FastProto

open Lib Lib.Cursor

/-! ## Decode undoes encode -/

/-- The leaves of the message language: enum values are 32-bit integers, plain or as members of an
`IntEnum`, and Durations are in range. -/
def messageLeaves : Leaves where
  enum _ value := ∃ i, value.IsInt i ∧ -2 ^ 31 ≤ i ∧ i < 2 ^ 31
  duration d := d.InRange

/-- Integers and members convert alike. -/
theorem PyVal.IsInt.index {value : PyVal} {i : Int} (h : value.IsInt i) : value.shape.index = .ok i := by
  rcases h with rfl | ⟨cls, rfl⟩
  · rfl
  · rfl

/-- The integer an enum value converts to is the one it holds. -/
theorem PyVal.IsInt.extractI32 {value : PyVal} {i : Int} (h : value.IsInt i)
    (hrange : -2 ^ 31 ≤ i ∧ i < 2 ^ 31) :
    ∃ v : Int32, value.shape.extractI32 = .ok v ∧ v.toInt = i := by
  refine ⟨Int32.ofInt i, ?_, Int32.toInt_ofInt_of_le hrange.1 hrange.2⟩
  unfold PyShape.extractI32
  rw [h.index, ok_bind, if_pos hrange]

/-- What an integer is coerced to is the integer. -/
theorem coerceEnum_isInt {w : World} {cls : ClassId} {enum : EnumClass}
    (hproto : (w.cls cls).fastproto = none) (henum : (w.cls cls).enum = some enum)
    (hmissing : enum.missing = none) (i : Int32) :
    ∃ value, coerceEnum w (some (buildLinkedRef cls (w.cls cls))) i = .ok value ∧
      value.IsInt i.toInt := by
  rw [coerceEnum_linked hproto henum hmissing]
  refine ⟨_, rfl, ?_⟩
  split
  · exact .inr ⟨cls, rfl⟩
  · exact .inl rfl

/-- The enum values of the message language encode. -/
theorem messageLeaves_enumsEncode (w : World) : messageLeaves.EnumsEncode w := by
  rintro cls enum - - - value ⟨i, hint, hrange⟩
  obtain ⟨v, hv, -⟩ := hint.extractI32 hrange
  exact ⟨v, hv⟩

/-- The enum values of the message language decode to the integer they hold. -/
theorem messageLeaves_enumsDecode (w : World) : messageLeaves.EnumsDecode w PyEq := by
  rintro cls enum hproto henum hmissing value v ⟨i, hint, hrange⟩ hv
  obtain ⟨v', hv', rfl⟩ := hint.extractI32 hrange
  rw [hv] at hv'
  cases hv'
  obtain ⟨value', hcoerce, hint'⟩ := coerceEnum_isInt hproto henum hmissing v
  exact ⟨value', hcoerce, .int hint' hint⟩

/-- What `encode` writes: the bytes of the records and the unknown bytes. -/
theorem encodeMessage_eq_ok {V : Type} {rt : Runtime V} {levels : Nat} {instance_ : V}
    {descId : DescId} {out : Bytes} :
    encodeMessage rt levels instance_ descId [] = .ok out ↔
      ∃ recs unknown, messageRecords rt levels instance_ descId = .ok (recs, unknown) ∧
        out = recordsBytes recs ++ unknown := by
  rw [encodeMessage_eq, bind_eq_ok]
  constructor
  · rintro ⟨⟨recs, unknown⟩, hrecs, h⟩
    cases h
    exact ⟨recs, unknown, hrecs, by rw [List.nil_append]⟩
  · rintro ⟨recs, unknown, hrecs, rfl⟩
    exact ⟨(recs, unknown), hrecs, rfl⟩

section Family

variable {w : World} {dom : ClassId → DescId → Prop} {cls : ClassId} {descId : DescId}

/-- **Decode undoes encode over the whole message language**: a message that conforms to its
descriptor, nested at most `maxDepth` levels below the top, encodes, and its encoding decodes to an
equal message. -/
theorem decode_encode (hfam : Family w dom) (hdom : dom cls descId) {m : PyVal}
    (hm : Conforms w messageLeaves (maxDepth + 1) cls descId m) :
    ∃ out, encode w.runtime descId m = .ok out ∧
      (out.length ≤ isizeMax → ∃ m', decode w descId cls out = .ok m' ∧ PyEq m' m) := by
  obtain ⟨recs, unknown, hrecs⟩ := messageRecords_of_conforms hfam (messageLeaves_enumsEncode w)
    (fun _ _ _ _ _ _ _ hd => hd) (maxDepth + 1) cls descId m hdom hm
  refine ⟨recordsBytes recs ++ unknown, encodeMessage_eq_ok.mpr ⟨recs, unknown, hrecs, rfl⟩,
    fun hlen => ?_⟩
  exact decodeMessage_of_conforms hfam congruence_pyEq (messageLeaves_enumsDecode w) (maxDepth + 1)
    cls descId m recs unknown hdom hm hrecs (by unfold isizeMax at hlen; omega)

end Family

/-- A message of the recursive family, one level deep, with an unknown field 5. -/
def recursiveValue : PyVal :=
  instanceOf 0 (recursiveWorld.descriptor 0)
    [.int 5, .member 1 1,
      instanceOf 0 (recursiveWorld.descriptor 0) [.int (-1), .int 7, .pyNone] []]
    [0x28, 0x01]

/-- The message conforms. -/
theorem conforms_recursiveValue :
    Conforms recursiveWorld messageLeaves (maxDepth + 1) 0 0 recursiveValue := by
  have hexcl : ∀ values, (recursiveMessage.fields.zip values).Pairwise OneofExclusive := by
    intro values
    refine List.pairwise_of_forall_mem_list fun p hp q _ hsame => ?_
    have hnone : ∀ field ∈ recursiveMessage.fields, field.oneofIndex = none := by decide
    have hsome := hsame.2.2.1
    rw [hnone p.1 (List.of_mem_zip hp).1] at hsome
    cases hsome
  refine ⟨_, _, rfl, ⟨.cons (.inr ⟨5, rfl, by decide, by decide⟩)
    (.cons (.inr ⟨1, .inr ⟨1, rfl⟩, by decide, by decide⟩) (.cons (.inr ?_) .nil)), hexcl _,
    [(⟨5, .varint 1⟩ : Record).segment], ?_, by decide⟩⟩
  · refine ⟨_, 0, rfl, rfl, _, _, rfl, ⟨.cons (.inr ⟨-1, rfl, by decide, by decide⟩)
      (.cons (.inr ⟨7, .inl rfl, by decide, by decide⟩) (.cons (.inl ⟨rfl, rfl⟩) .nil)), hexcl _,
      [], .nil, nofun⟩⟩
  · have hread := @Reader.reads_segment ⟨5, .varint 1⟩ (by decide) trivial
    exact Split.single (by decide) hread

/-- The message survives, with its submessage and its unknown field. -/
theorem decode_encode_recursiveValue :
    ∃ out, encode recursiveWorld.runtime 0 recursiveValue = .ok out ∧
      (out.length ≤ isizeMax →
        ∃ m', decode recursiveWorld 0 0 out = .ok m' ∧ PyEq m' recursiveValue) :=
  decode_encode family_recursiveWorld ⟨rfl, rfl⟩ conforms_recursiveValue

/-! ## The normal form -/

section Family

variable {w : World} {dom : ClassId → DescId → Prop} {cls : ClassId} {descId : DescId}

/-- An integer decode stored in an enum field is a 32-bit integer. -/
theorem decodedLeaves_extractI32 {cls : ClassId} {enum : EnumClass}
    (hproto : (w.cls cls).fastproto = none) (henum : (w.cls cls).enum = some enum)
    (hmissing : enum.missing = none) {value : PyVal} {i : Int32}
    (h : coerceEnum w (some (buildLinkedRef cls (w.cls cls))) i = .ok value) :
    value.shape.extractI32 = .ok i := by
  obtain ⟨value', hcoerce, hint⟩ := coerceEnum_isInt hproto henum hmissing i
  rw [h] at hcoerce
  cases hcoerce
  obtain ⟨v, hv, hvi⟩ := hint.extractI32 ⟨Int32.le_toInt i, Int32.toInt_lt i⟩
  rw [hv, Int32.toInt_inj.mp hvi]

/-- The enum values decode builds decode to themselves. -/
theorem decodedLeaves_enumsDecode (w : World) : (decodedLeaves w).EnumsDecode w Eq := by
  rintro cls enum hproto henum hmissing value v ⟨i, hi⟩ hv
  rw [decodedLeaves_extractI32 hproto henum hmissing hi] at hv
  cases hv
  exact ⟨value, hi, rfl⟩

/-- The enum values decode builds encode. -/
theorem decodedLeaves_enumsEncode (w : World) : (decodedLeaves w).EnumsEncode w := by
  rintro cls enum hproto henum hmissing value ⟨i, hi⟩
  exact ⟨i, decodedLeaves_extractI32 hproto henum hmissing hi⟩

/-- **Decoding the encoding of a decoded message** gives the message again. -/
theorem decodeMessage_of_decoded (hfam : Family w dom) (hdom : dom cls descId) {levels : Nat}
    {data out : Bytes} {m : PyVal} (h : decodeMessage w levels cls descId data = .ok m)
    (hout : encodeMessage w.runtime levels m descId [] = .ok out) (hlen : out.length ≤ isizeMax) :
    decodeMessage w levels cls descId out = .ok m := by
  obtain ⟨recs, unknown, hrecs, rfl⟩ := encodeMessage_eq_ok.mp hout
  obtain ⟨m', hdecode, rfl⟩ := decodeMessage_of_conforms hfam congruence_eq
    (decodedLeaves_enumsDecode w) levels cls descId m recs unknown hdom
    (decodeMessage_conforms hfam levels cls descId data m hdom h) hrecs
    (by unfold isizeMax at hlen; omega)
  exact hdecode

/-- **Whatever the decoder accepts, the encoder serializes, and re-encoding is a normal form**: the
encoding of the message decoded from any bytes decodes to the same message, which encodes to the same
bytes. Duration fields are left out: `timedelta` holds values past the Duration range. -/
theorem reencode_normalForm (hfam : Family w dom) (hdom : dom cls descId)
    (hduration : ∀ cls desc, dom cls desc → ∀ field ∈ (w.descriptor desc).inner.fields,
      field.kind.isDuration = false) {data : Bytes} {m : PyVal}
    (h : decode w descId cls data = .ok m) :
    ∃ out, encode w.runtime descId m = .ok out ∧
      (out.length ≤ isizeMax → ∃ m', decode w descId cls out = .ok m' ∧ m' = m ∧
        encode w.runtime descId m' = .ok out) := by
  -- what was decoded conforms, so encoding it cannot fail
  obtain ⟨recs, unknown, hrecs⟩ := messageRecords_of_conforms hfam (decodedLeaves_enumsEncode w)
    (fun cls desc hd field hfield hkind => by
      rw [hduration cls desc hd field hfield] at hkind
      cases hkind) (maxDepth + 1) cls descId m hdom
    (decodeMessage_conforms hfam _ cls descId data m hdom h)
  have hout : encode w.runtime descId m = .ok (recordsBytes recs ++ unknown) :=
    encodeMessage_eq_ok.mpr ⟨recs, unknown, hrecs, rfl⟩
  exact ⟨_, hout, fun hlen => ⟨m, decodeMessage_of_decoded hfam hdom h hout hlen, rfl, hout⟩⟩

end Family

/-- An overlong varint and a field given twice: the second value of `a` counts. -/
def recursiveData : Bytes := [0x08, 0x85, 0x00, 0x10, 0x01, 0x1a, 0x02, 0x10, 0x00, 0x08, 0x07]

/-- What the bytes decode to has a normal form. -/
theorem reencode_normalForm_recursiveData :
    ∃ out, encode recursiveWorld.runtime 0 (instanceOf 0 (recursiveWorld.descriptor 0)
        [.int 7, .member 1 1,
          instanceOf 0 (recursiveWorld.descriptor 0) [.int 0, .member 1 0, .pyNone] []] []) = .ok out ∧
      (out.length ≤ isizeMax → ∃ m', decode recursiveWorld 0 0 out = .ok m' ∧
        m' = instanceOf 0 (recursiveWorld.descriptor 0)
          [.int 7, .member 1 1,
            instanceOf 0 (recursiveWorld.descriptor 0) [.int 0, .member 1 0, .pyNone] []] [] ∧
        encode recursiveWorld.runtime 0 m' = .ok out) :=
  reencode_normalForm family_recursiveWorld ⟨rfl, rfl⟩ (by rintro _ _ ⟨rfl, rfl⟩; decide)
    (show decode recursiveWorld 0 0 recursiveData = .ok _ from rfl)

end FastProto
