import FastProto.DecodeConforms
import FastProto.DecodeMerge

/-! # The size of what decode builds

`PyVal.footprint` counts what a value holds: the bytes of strings and byte strings, the elements of
lists and dicts, instances and their attributes. What the decoder builds grows linearly with its
input: a byte pays for at most as much as one instance of the widest class. -/

namespace FastProto

open Lib Lib.Cursor

/-! ## Counting -/

mutual

/-- **What a value holds**: bytes of text, elements, entries, instances and attributes. -/
def PyVal.footprint : PyVal → Nat
  | .str s => s.utf8ByteSize
  | .bytes b => b.length
  | .bytearray b => b.length
  | .list items => itemsFootprint items
  | .tuple items => itemsFootprint items
  | .dict items => entriesFootprint items
  | .inst _ attrs => 1 + attrsFootprint attrs
  | _ => 0

/-- The items of a list, one more for each. -/
def itemsFootprint : List PyVal → Nat
  | [] => 0
  | value :: rest => 1 + value.footprint + itemsFootprint rest

/-- The entries of a dict, one more for each. -/
def entriesFootprint : List (PyVal × PyVal) → Nat
  | [] => 0
  | (key, value) :: rest => 1 + key.footprint + value.footprint + entriesFootprint rest

/-- The attributes of an instance, one more for each. -/
def attrsFootprint : List (String × PyVal) → Nat
  | [] => 0
  | (_, value) :: rest => 1 + value.footprint + attrsFootprint rest

end

@[simp] theorem itemsFootprint_append (xs ys : List PyVal) :
    itemsFootprint (xs ++ ys) = itemsFootprint xs + itemsFootprint ys := by
  induction xs with
  | nil => simp [itemsFootprint]
  | cons x xs ih =>
      rw [List.cons_append, itemsFootprint, itemsFootprint, ih]
      omega

@[simp] theorem attrsFootprint_append (xs ys : List (String × PyVal)) :
    attrsFootprint (xs ++ ys) = attrsFootprint xs + attrsFootprint ys := by
  induction xs with
  | nil => simp [attrsFootprint]
  | cons x xs ih =>
      rw [List.cons_append, attrsFootprint, attrsFootprint, ih]
      omega

/-- Attributes count one each, and what they hold. -/
theorem attrsFootprint_zip {names : List String} {values : List PyVal}
    (h : values.length = names.length) :
    attrsFootprint (names.zip values) = names.length + (values.map PyVal.footprint).sum := by
  induction names generalizing values with
  | nil =>
      rw [List.length_eq_zero_iff.mp h]
      rfl
  | cons name names ih =>
      cases values with
      | nil => cases h
      | cons value values =>
          rw [List.zip_cons_cons, attrsFootprint, ih (by simpa using h), List.map_cons,
            List.sum_cons, List.length_cons]
          omega

/-- Setting a key of a dict adds at most the entry. -/
theorem entriesFootprint_dictSet (items : List (PyVal × PyVal)) (key value : PyVal) :
    entriesFootprint (dictSet items key value)
      ≤ entriesFootprint items + (1 + key.footprint + value.footprint) := by
  induction items with
  | nil => simp [dictSet, upsertBy, entriesFootprint]
  | cons item items ih =>
      obtain ⟨k, v⟩ := item
      unfold dictSet upsertBy
      split
      · rw [entriesFootprint, entriesFootprint]
        omega
      · rw [entriesFootprint, entriesFootprint]
        unfold dictSet at ih
        omega

/-- Replacing an element of a list of numbers. -/
theorem sum_map_set {α : Type} (f : α → Nat) {l : List α} {idx : Nat} {old : α}
    (h : l[idx]? = some old) (x : α) :
    ((l.set idx x).map f).sum + f old = (l.map f).sum + f x := by
  induction l generalizing idx with
  | nil => cases h
  | cons a l ih =>
      cases idx with
      | zero =>
          cases h
          rw [List.set_cons_zero, List.map_cons, List.map_cons, List.sum_cons, List.sum_cons]
          omega
      | succ idx =>
          have := @ih idx (by simpa using h)
          rw [List.set_cons_succ, List.map_cons, List.map_cons, List.sum_cons, List.sum_cons]
          omega

/-- The default of a scalar type holds nothing. -/
theorem footprint_scalarDefault (scalar : ScalarType) : (scalarDefault scalar).footprint = 0 := by
  cases scalar <;> rfl

/-! ## The bytes a payload takes -/

/-- The size of the value a payload may stand for: a chunk pays for an instance of its own. -/
def Payload.size : Payload → Nat
  | .len data => data.length + 1
  | _ => 0

/-- A slice is read from itself. -/
theorem eq_of_reads_takeSlice {n : Nat} {err : WireError} {chunk slice : Bytes}
    (h : Reads (takeSlice err n) chunk slice) : slice = chunk := by
  have hread := h [] []
  unfold takeSlice at hread
  split at hread
  · injection hread with hread
    obtain ⟨hslice, hpos⟩ := Prod.mk.inj hread
    have hn := congrArg Cursor.pos hpos
    simp only [between_pos, List.length_nil, List.nil_append, Nat.zero_add] at hn
    rw [← hslice, between_buf, between_pos, List.length_nil, List.drop_zero, List.append_nil,
      List.nil_append, hn, List.take_length]
  · cases hread

/-- A payload is read from at least its size, and from at least one byte. -/
theorem size_le_of_reads {wire : WireType} {chunk : Bytes} {payload : Payload}
    (h : Reads (Reader.readPayload wire) chunk payload) :
    1 ≤ chunk.length ∧ payload.size ≤ chunk.length := by
  have hpos : 1 ≤ chunk.length :=
    List.length_pos_iff.mpr ((Reader.advances_readPayload wire).ne_nil h)
  refine ⟨hpos, ?_⟩
  cases wire with
  | len =>
      obtain ⟨data, hdata, rfl⟩ := h.of_bind_pure Reader.framed_readLenDelimited
      obtain ⟨front, back, len, rfl, hfront, hback⟩ := Reads.of_bind Reader.framed_readVarint
        (fun len => framed_takeSlice _ len.toNat) hdata
      have hlen := List.length_pos_iff.mpr (Reader.advances_readVarint.ne_nil hfront)
      rw [eq_of_reads_takeSlice hback, List.length_append, Payload.size]
      omega
  | varint =>
      obtain ⟨v, -, rfl⟩ := h.of_bind_pure Reader.framed_readVarint
      exact Nat.zero_le _
  | i64 =>
      obtain ⟨v, -, rfl⟩ := h.of_bind_pure Reader.framed_readFixed64
      exact Nat.zero_le _
  | i32 =>
      obtain ⟨v, -, rfl⟩ := h.of_bind_pure Reader.framed_readFixed32
      exact Nat.zero_le _

/-- A record is read from one byte more than its payload. -/
theorem size_lt_of_reads_record {chunk : Bytes} {rec : Record}
    (h : Reads Reader.readRecord chunk rec) :
    1 < chunk.length ∧ rec.payload.size < chunk.length := by
  obtain ⟨front, back, ⟨number, wire⟩, rfl, hfront, hback⟩ := Reads.of_bind Reader.framed_readTag
    (fun tag => (Reader.framed_readPayload tag.2).bind fun _ => Framed.pure _) h
  obtain ⟨payload, hpayload, rfl⟩ := hback.of_bind_pure (Reader.framed_readPayload wire)
  have hlen := List.length_pos_iff.mpr (Reader.advances_readTag.ne_nil hfront)
  obtain ⟨hpos, hsize⟩ := size_le_of_reads hpayload
  rw [List.length_append]
  dsimp only
  omega

/-- A field is read from one byte more than its payload. -/
theorem size_lt_of_reads_segment {chunk : Bytes} {seg : Segment}
    (h : Reads Reader.readSegment chunk seg) :
    1 < chunk.length ∧ seg.payload.size < chunk.length := by
  obtain ⟨rec, hrec, rfl⟩ := h.of_bind_pure Reader.framed_readRecord.capture
  exact size_lt_of_reads_record (hrec.capture_snd Reader.framed_readRecord).2

/-! ## Values -/

section Values

variable {w : World} {nested : NestedDecoder} {cost : Nat}

/-- **What the references of a field owe** for its values to stay small: a nested message stands for
at most `cost` a byte and once more, an enum value for nothing. -/
structure Light (w : World) (nested : NestedDecoder) (cost : Nat) (kind : FieldKind)
    (linked : Option LinkedRef) : Prop where
  message : kind.refersToMessage = true → ∀ data value,
    decodeMessageValue nested linked data = .ok value → value.footprint ≤ cost * (data.length + 1)
  enum : kind.refersToEnum = true → ∀ i value, coerceEnum w linked i = .ok value →
    value.footprint = 0

/-- The values of a map owe what the map owes. -/
theorem Light.mapValue {key : ScalarType} {valueKind : MapValue} {linked : Option LinkedRef}
    (h : Light w nested cost (.map key valueKind) linked) :
    Light w nested cost valueKind.kind linked := by
  cases valueKind with
  | message => exact ⟨h.message, nofun⟩
  | enum => exact ⟨nofun, h.enum⟩
  | _ => exact ⟨nofun, nofun⟩

/-- A decoded string has the bytes it was decoded from. -/
theorem footprint_of_decodeStr {data : Bytes} {value : PyVal} (h : decodeStr data = .ok value) :
    value.footprint = data.length := by
  unfold decodeStr fromUtf8 String.fromUTF8? at h
  split at h
  · rename_i s hs
    cases h
    split at hs
    · cases hs
      rfl
    · cases hs
  · cases h

/-- A decoded scalar is no larger than its payload, and a number takes nothing. -/
theorem footprint_of_scalarOfPayload {scalar : ScalarType} {payload : Payload} {value : PyVal}
    (h : scalarOfPayload scalar payload = .ok value) : value.footprint ≤ payload.size := by
  unfold scalarOfPayload at h
  split at h <;> first
    | exact Nat.le_trans (Nat.le_of_eq (footprint_of_decodeStr h)) (Nat.le_succ _)
    | (cases h; exact Nat.zero_le _)
    | (cases h; exact Nat.le_succ _)
    | cases h

/-- **A payload decodes to a value no larger than `cost` times its size.** -/
theorem footprint_of_valueOfPayload (hcost : 1 ≤ cost) {kind : FieldKind}
    {linked : Option LinkedRef} (hlight : Light w nested cost kind linked) {payload : Payload}
    {value : PyVal} (h : valueOfPayload w nested kind linked payload = .ok value) :
    value.footprint ≤ cost * payload.size := by
  cases kind with
  | scalar scalar =>
      exact Nat.le_trans (footprint_of_scalarOfPayload h) (Nat.le_mul_of_pos_left _ hcost)
  | enum =>
      cases payload with
      | varint raw => rw [hlight.enum rfl _ value h]; exact Nat.zero_le _
      | _ => cases h
  | message =>
      cases payload with
      | len data => exact hlight.message rfl data value h
      | _ => cases h
  | timestamp =>
      cases payload with
      | len data =>
          obtain ⟨d, rfl, -⟩ := decodeTimestamp_conforms h
          exact Nat.zero_le _
      | _ => cases h
  | duration =>
      cases payload with
      | len data =>
          obtain ⟨d, rfl⟩ := decodeDuration_conforms h
          exact Nat.zero_le _
      | _ => cases h
  | map key value => cases h

/-- One element appended grows the list by one and the element. -/
theorem footprint_of_packedStep (hcost : 1 ≤ cost) {kind : FieldKind} {linked : Option LinkedRef}
    (hlight : Light w nested cost kind linked) {payload : Payload} {items items' : List PyVal}
    (h : packedStep w nested kind linked items payload = .ok items') :
    itemsFootprint items' ≤ itemsFootprint items + (1 + cost * payload.size) := by
  obtain ⟨value, hvalue, h⟩ := bind_eq_ok.mp h
  cases h
  have := footprint_of_valueOfPayload hcost hlight hvalue
  simp only [itemsFootprint_append, itemsFootprint]
  omega

/-- The elements of packed kinds stand for no chunk. -/
theorem size_of_packed {kind : FieldKind} (hpacked : kind.isPacked = true) {payload : Payload}
    (hwire : payload.wire = kind.expectedWire) : payload.size = 0 := by
  cases payload with
  | len data => exact absurd hwire.symm (expectedWire_of_packed hpacked)
  | _ => rfl

/-- **A payload of a repeated field** grows the list by less than `cost` for each byte of it. -/
theorem footprint_of_repeatedOfPayload (hcost : 1 ≤ cost) {kind : FieldKind}
    (hmap : kind.isMap = false) {linked : Option LinkedRef}
    (hlight : Light w nested cost kind linked) {payload : Payload} {items items' : List PyVal}
    (h : repeatedOfPayload w nested kind linked payload items = .ok items') :
    itemsFootprint items' ≤ itemsFootprint items + (1 + cost * payload.size) := by
  unfold repeatedOfPayload at h
  split at h
  · rename_i chunk
    split at h
    · rename_i hpacked
      obtain ⟨payloads, hsplit, hfold⟩ := (drainAll_eq_ok (Reader.framed_readPayload _)
        (Reader.advances_readPayload _) (packedBody_body w nested hmap linked)).mp h
      have hle := hsplit.foldlM_le (P := fun _ => True) (m := itemsFootprint) cost
        (fun items payload items' chunk _ hread hstep => by
          have hgrow := footprint_of_packedStep hcost hlight hstep
          have hwire : payload.wire = kind.expectedWire :=
            Reader.wire_of_readPayload (hread [] [])
          rw [size_of_packed hpacked hwire, Nat.mul_zero] at hgrow
          have := Nat.mul_le_mul hcost (size_le_of_reads hread).1
          exact ⟨trivial, by omega⟩) items items' trivial hfold
      rw [Payload.size, Nat.mul_add]
      omega
    · exact footprint_of_packedStep hcost hlight h
  · exact footprint_of_packedStep hcost hlight h

/-- What an optional part of a map entry holds. -/
def partFootprint (part : Option PyVal) : Nat := (part.map PyVal.footprint).getD 0

/-- **A map entry** grows the dict by no more than a nested message would. -/
theorem footprint_of_decodeMapEntry (hcost : 1 ≤ cost) {key : ScalarType} {valueKind : MapValue}
    {linked : Option LinkedRef} (hlight : Light w nested cost (.map key valueKind) linked)
    {entry : Bytes} {kv : PyVal × PyVal}
    (h : decodeMapEntry w nested key valueKind linked entry = .ok kv) :
    kv.1.footprint + kv.2.footprint ≤ cost * (entry.length + 1) := by
  obtain ⟨recs, ⟨k, v⟩, hsplit, hfold, hfinish⟩ := (decodeMapEntry_eq_ok w nested).mp h
  have hle := hsplit.foldlM_le (P := fun _ => True)
    (m := fun e : Option PyVal × Option PyVal => partFootprint e.1 + partFootprint e.2) cost
    (fun e rec e' chunk _ hread hstep => by
      obtain ⟨-, hsize⟩ := size_lt_of_reads_record hread
      have hgrow := Nat.mul_le_mul_left cost (Nat.le_of_lt hsize)
      have hself := Nat.le_mul_of_pos_left rec.payload.size hcost
      refine ⟨trivial, ?_⟩
      unfold mapEntryStep at hstep
      split at hstep
      · obtain ⟨x, hx, hstep⟩ := bind_eq_ok.mp hstep
        cases hstep
        have := footprint_of_scalarOfPayload hx
        simp only [partFootprint, Option.map_some, Option.getD_some]
        omega
      · split at hstep
        · obtain ⟨x, hx, hstep⟩ := bind_eq_ok.mp hstep
          cases hstep
          have := footprint_of_valueOfPayload hcost hlight.mapValue hx
          simp only [partFootprint, Option.map_some, Option.getD_some]
          omega
        · cases hstep
          omega) (none, none) (k, v) trivial hfold
  simp only [partFootprint, Option.map_none, Option.getD_none, Nat.add_zero, Nat.zero_add] at hle
  have hkey : (k.getD (scalarDefault key)).footprint = (k.map PyVal.footprint).getD 0 := by
    cases k with
    | some k => rfl
    | none => exact footprint_scalarDefault key
  rw [Nat.mul_add, Nat.mul_one]
  unfold mapEntryFinish at hfinish
  cases v with
  | some v =>
      cases hfinish
      simp only [Option.map_some, Option.getD_some] at hle
      dsimp only
      rw [hkey]
      omega
  | none =>
      -- an entry without a value has the default of its kind, at most an empty message
      obtain ⟨x, hx, hfinish⟩ := bind_eq_ok.mp hfinish
      cases hfinish
      have hdefault : x.footprint ≤ cost := by
        cases valueKind with
        | scalar scalar => cases hx; rw [footprint_scalarDefault]; exact Nat.zero_le _
        | enum => rw [hlight.enum rfl 0 x hx]; exact Nat.zero_le _
        | message => simpa using hlight.message rfl [] x hx
        | timestamp =>
            obtain ⟨d, -, hx⟩ := bind_eq_ok.mp hx
            cases hx
            exact Nat.zero_le _
        | duration =>
            obtain ⟨d, -, hx⟩ := bind_eq_ok.mp hx
            cases hx
            exact Nat.zero_le _
      simp only [Option.map_none, Option.getD_none] at hle
      dsimp only
      rw [hkey]
      omega

end Values

/-! ## The loop -/

/-- What the slots and the unknown bytes hold. -/
def DecodeState.footprint (st : DecodeState) : Nat :=
  (st.values.map partFootprint).sum + st.unknown.length

namespace DecodeState

/-- The state before the first tag holds nothing. -/
theorem footprint_init (fields : List FieldDescriptor) : (init fields).footprint = 0 := by
  have hslots : ∀ field : FieldDescriptor, partFootprint (accumulator field) = 0 := by
    intro field
    unfold accumulator
    split
    · rfl
    · split <;> rfl
  simp [footprint, init, hslots, Function.comp_def]

/-- Claiming a oneof group lets go of the member set before. -/
theorem footprint_claimOneof (st : DecodeState) (field : FieldDescriptor) (idx : Nat) :
    (st.claimOneof field idx).footprint ≤ st.footprint := by
  have hclear : ∀ i, ((st.values.set i none).map partFootprint).sum
      ≤ (st.values.map partFootprint).sum := by
    intro i
    cases hold : st.values[i]? with
    | none => rw [List.set_eq_of_length_le (List.getElem?_eq_none_iff.mp hold)]
    | some old =>
        have := sum_map_set partFootprint hold none
        simp only [show partFootprint none = 0 from rfl] at this
        omega
  unfold claimOneof footprint
  split
  · dsimp only
    refine Nat.add_le_add_right ?_ _
    split
    · split
      · exact hclear _
      · exact Nat.le_refl _
    · exact Nat.le_refl _
  · exact Nat.le_refl _

/-- Storing a value replaces what the slot held. -/
theorem footprint_store (st : DecodeState) {idx : Nat} {old : Option PyVal}
    (h : st.values[idx]? = some old) (value : PyVal) :
    (st.store idx value).footprint + partFootprint old = st.footprint + value.footprint := by
  have := sum_map_set partFootprint h (some value)
  simp only [show partFootprint (some value) = value.footprint from rfl] at this
  simp only [footprint, store_values, store_unknown]
  omega

end DecodeState

section Loop

variable {w : World} {nested : NestedDecoder} {desc : Descriptor} {cost : Nat}

/-- **The step of a field** grows the state by less than `cost` for each byte of it. -/
theorem footprint_of_fieldStep (hcost : 1 ≤ cost) (hwf : desc.inner.WellFormed) {st st' : DecodeState}
    (hready : st.Ready desc.inner.fields) {idx : Nat} {field : FieldDescriptor}
    (hfield : desc.inner.fields[idx]? = some field)
    (hlight : Light w nested cost field.kind (desc.ref field.number)) {payload : Payload}
    (hacc : field.accepts payload.wire = true)
    (h : fieldStep w nested desc st idx field payload = .ok st') :
    st'.footprint ≤ st.footprint + (1 + cost * payload.size) := by
  have hclaim := hready.claimOneof hwf.shaped hfield
  have hle := st.footprint_claimOneof field idx
  by_cases hmap : field.kind.isMap = true
  · obtain ⟨key, valueKind, hkind⟩ := FieldKind.isMap_iff.mp hmap
    obtain ⟨items, hitems⟩ := hclaim.dicts idx field hfield hmap
    obtain ⟨entry, rfl⟩ := payload_of_map_accepts
      (hwf.shaped field (List.mem_of_getElem? hfield)) hkind hacc
    rw [fieldStep_map w nested hkind entry hitems] at h
    obtain ⟨⟨k, v⟩, hentry, h⟩ := bind_eq_ok.mp h
    cases h
    rw [hkind] at hlight
    have hgrow := footprint_of_decodeMapEntry hcost hlight hentry
    have hstore := (st.claimOneof field idx).footprint_store hitems (.dict (dictSet items k v))
    have hset := entriesFootprint_dictSet items k v
    simp only [partFootprint, Option.map_some, Option.getD_some, PyVal.footprint] at hstore
    dsimp only at hgrow
    rw [Payload.size]
    omega
  · have hnot : field.kind.isMap = false := by simpa using hmap
    by_cases hlabel : field.label = .repeated
    · obtain ⟨items, hitems⟩ := hclaim.lists idx field hfield hnot hlabel
      rw [fieldStep_repeated w nested hnot hlabel payload hitems] at h
      obtain ⟨items', hrepeated, h⟩ := bind_eq_ok.mp h
      cases h
      have hgrow := footprint_of_repeatedOfPayload hcost hnot hlight hrepeated
      have hstore := (st.claimOneof field idx).footprint_store hitems (.list items')
      simp only [partFootprint, Option.map_some, Option.getD_some, PyVal.footprint] at hstore
      omega
    · rw [fieldStep_singular w nested hnot hlabel] at h
      obtain ⟨value, hvalue, h⟩ := bind_eq_ok.mp h
      cases h
      have hgrow := footprint_of_valueOfPayload hcost hlight hvalue
      have hlt : idx < (st.claimOneof field idx).values.length := by
        rw [hclaim.length]
        exact (List.getElem?_eq_some_iff.mp hfield).1
      have hstore := (st.claimOneof field idx).footprint_store (List.getElem?_eq_getElem hlt) value
      omega

/-- **The whole loop** grows the state by at most `cost` for each byte. -/
theorem footprint_of_foldlM (hcost : 1 ≤ cost) (hwf : desc.inner.WellFormed)
    (hlight : ∀ field ∈ desc.inner.fields, Light w nested cost field.kind (desc.ref field.number))
    {data : Bytes} {segs : List Segment} (hsplit : Split Reader.readSegment data segs)
    {st : DecodeState} (h : segs.foldlM (segmentStep w nested desc)
      (DecodeState.init desc.inner.fields) = .ok st) :
    st.footprint ≤ cost * data.length := by
  have hle := hsplit.foldlM_le (P := (·.Ready desc.inner.fields)) (m := DecodeState.footprint) cost
    (fun s seg s' chunk hready hread hstep => by
      refine ⟨segmentStep_keeps w nested hwf s seg s' hready hstep, ?_⟩
      obtain ⟨-, hsize⟩ := size_lt_of_reads_segment hread
      have hbytes := Nat.mul_le_mul_left cost (show seg.payload.size + 1 ≤ chunk.length from hsize)
      have hself := Nat.le_mul_of_pos_left chunk.length hcost
      unfold segmentStep at hstep
      split at hstep
      · rename_i idx field hrec
        obtain ⟨-, hfield, -, hacc⟩ := MessageDescriptor.recognize_eq_some hrec
        have hgrow := footprint_of_fieldStep hcost hwf hready hfield
          (hlight field (List.mem_of_getElem? hfield)) hacc hstep
        rw [Nat.mul_add] at hbytes
        omega
      · cases hstep
        rw [DecodeState.footprint, DecodeState.keep_values, DecodeState.keep_unknown,
          List.length_append, (Reader.segment_of_reads hread).1, DecodeState.footprint]
        omega) _ st (DecodeState.ready_init _) h
  rwa [DecodeState.footprint_init, Nat.zero_add] at hle

end Loop

/-! ## Messages -/

/-- A zero value holds nothing. -/
theorem footprint_zeroValue (desc : Descriptor) (field : FieldDescriptor) :
    (zeroValue desc field).footprint = 0 := by
  unfold zeroValue
  split
  · rfl
  · rfl
  · rfl
  · exact footprint_scalarDefault _
  · split <;> rfl

/-- An instance counts itself, its attributes, what its slots hold and its unknown bytes. -/
theorem footprint_instanceOf {cls : ClassId} {desc : Descriptor} {st : DecodeState}
    (hready : st.Ready desc.inner.fields) :
    (instanceOf cls desc (filledValues desc st.values) st.unknown).footprint
      = desc.inner.fields.length + 2 + st.footprint := by
  have hfilled : ∀ (fields : List FieldDescriptor) (values : List (Option PyVal)),
      values.length = fields.length →
      ((List.zipWith (fun field v => v.getD (zeroValue desc field)) fields values).map
        PyVal.footprint).sum = (values.map partFootprint).sum := by
    intro fields
    induction fields with
    | nil =>
        intro values hlen
        rw [List.length_eq_zero_iff.mp hlen]
        rfl
    | cons field fields ih =>
        intro values hlen
        cases values with
        | nil => cases hlen
        | cons v values =>
            have hv : (v.getD (zeroValue desc field)).footprint = partFootprint v := by
              cases v with
              | none => exact footprint_zeroValue desc field
              | some v => rfl
            rw [List.zipWith_cons_cons, List.map_cons, List.map_cons, List.sum_cons, List.sum_cons,
              ih values (by simpa using hlen), hv]
  rw [instanceOf, PyVal.footprint, attrsFootprint_append, attrsFootprint_zip
    (by rw [length_filledValues hready.length, List.length_map]), filledValues,
    hfilled _ _ hready.length, List.length_map, DecodeState.footprint]
  simp only [attrsFootprint, PyVal.footprint]
  omega

/-- A reference to an enum stands for members and numbers, which hold nothing. -/
theorem footprint_coerceEnum {w : World} {cls : ClassId} {enum : EnumClass}
    (hproto : (w.cls cls).fastproto = none) (henum : (w.cls cls).enum = some enum)
    (hmissing : enum.missing = none) {i : Int32} {value : PyVal}
    (h : coerceEnum w (some (buildLinkedRef cls (w.cls cls))) i = .ok value) :
    value.footprint = 0 := by
  rw [coerceEnum_linked hproto henum hmissing] at h
  cases h
  split <;> rfl

/-- **What decode builds is linear in its input.** For classes of at most `width` fields, a decoded
message holds at most `width + 2` things for each byte of its input, and once more: bytes of text,
elements, entries, instances and attributes together, whatever the bytes are and however the
messages nest. -/
theorem footprint_of_decodeMessage {w : World} {dom : ClassId → DescId → Prop} (hfam : Family w dom)
    {width : Nat}
    (hwidth : ∀ cls desc, dom cls desc → (w.descriptor desc).inner.fields.length ≤ width)
    (levels : Nat) : ∀ cls descId data value, dom cls descId →
      decodeMessage w levels cls descId data = .ok value →
      value.footprint ≤ (width + 2) * (data.length + 1) := by
  induction levels with
  | zero => intro cls descId data value _ h; cases h
  | succ levels ih =>
      intro cls descId data value hdom h
      have hgen := hfam.generated cls descId hdom
      obtain ⟨segs, st, hsplit, hfold, hconstruct⟩ := (decodeMessage_eq_ok hgen.wellFormed).mp h
      -- a nested message is light by induction, an enum member is of constant size
      have hlight : ∀ field ∈ (w.descriptor descId).inner.fields,
          Light w (decodeMessage w levels) (width + 2) field.kind
            ((w.descriptor descId).ref field.number) := by
        intro field hfield
        refine ⟨fun hrefers data value hdecode => ?_, fun hrefers i value henum => ?_⟩
        · obtain ⟨cls', desc', href, hproto, hdom'⟩ :=
            hfam.messages cls descId hdom field hfield hrefers
          have hlink : buildLinkedRef cls' (w.cls cls') = { cls := cls', desc := some desc' } := by
            simp [buildLinkedRef, hproto]
          rw [href, hlink] at hdecode
          exact ih cls' desc' data value hdom' hdecode
        · obtain ⟨cls', enum, href, hproto, hcls, hmissing, -⟩ :=
            hfam.enums cls descId hdom field hfield hrefers
          rw [href] at henum
          exact footprint_coerceEnum hproto hcls hmissing henum
      have hcost : 1 ≤ width + 2 := by omega
      have hst := footprint_of_foldlM hcost hgen.wellFormed hlight hsplit hfold
      have hready := decodeFields_ready hgen.wellFormed.shaped
        ((decodeFields_eq_ok hgen.wellFormed.shaped).mpr
          ⟨segs, hsplit, by rwa [targetStep_eq w _ hgen.wellFormed]⟩)
      rw [construct_generated hfam hdom hready.collections] at hconstruct
      cases hconstruct
      have hlen := hwidth cls descId hdom
      rw [footprint_instanceOf hready, Nat.mul_add, Nat.mul_one]
      omega

/-- A message nested in a message, six bytes long: two instances of three fields. -/
theorem footprint_of_decodeMessage_recursiveWorld :
    (instanceOf 0 (recursiveWorld.descriptor 0) [.int 5, .member 1 0,
      instanceOf 0 (recursiveWorld.descriptor 0) [.int 0, .member 1 0, .pyNone] []] []).footprint
      ≤ (3 + 2) * (6 + 1) :=
  footprint_of_decodeMessage family_recursiveWorld (fun _ _ _ => Nat.le_refl 3) 101 0 0
    [0x08, 5, 0x1a, 2, 0x10, 0] _ ⟨rfl, rfl⟩ rfl

end FastProto
