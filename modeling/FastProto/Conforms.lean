import FastProto.Family
import FastProto.Scalar

/-! # Messages that conform to their descriptor

`Conforms w leaves levels cls desc m` says that `m` is an instance of `cls` whose field values have
the types `desc` gives them, nested at most `levels` deep, with at most one member set per oneof
group and with unknown bytes that are fields the descriptor does not recognise. What an enum value
and a Duration may be is a parameter. Conforming messages encode: `messageRecords_of_conforms`. -/

namespace FastProto

open Lib Lib.Cursor

/-! ## Conformance -/

/-- The values admitted where the message language leaves room. -/
structure Leaves where
  /-- The values of an enum field with the given reference. -/
  enum : Option LinkedRef → PyVal → Prop
  /-- The values of a Duration field. -/
  duration : TimeDelta → Prop

section Values

variable (leaves : Leaves) (message : Option LinkedRef → PyVal → Prop)

/-- **A value of a kind**, where `message` are the values of a nested message. -/
def ValueConforms (kind : FieldKind) (linked : Option LinkedRef) (value : PyVal) : Prop :=
  match kind with
  | .scalar scalar => scalar.Holds value
  | .enum => leaves.enum linked value
  | .message => message linked value
  | .timestamp => ∃ d, value = .datetime d ∧ d.offset = some 0
  | .duration => ∃ d, value = .timedelta d ∧ leaves.duration d
  | .map _ _ => False

/-- The value of a map field: a dict with keys and values of their types, and keys told apart. -/
def MapConforms (key : ScalarType) (valueKind : MapValue) (linked : Option LinkedRef)
    (value : PyVal) : Prop :=
  ∃ items, value = .dict items ∧ items.Pairwise (fun p q => keyEq p.1 q.1 = false) ∧
    ∀ item ∈ items, key.Holds item.1 ∧ ValueConforms leaves message valueKind.kind linked item.2

/-- The value of a field that decode stores when it sees the field. -/
def SeenConforms (desc : Descriptor) (field : FieldDescriptor) (value : PyVal) : Prop :=
  match field.kind with
  | .map key valueKind => MapConforms leaves message key valueKind (desc.ref field.number) value
  | kind =>
      if field.label = .repeated then
        ∃ items, value = .list items ∧
          ∀ item ∈ items, ValueConforms leaves message kind (desc.ref field.number) item
      else ValueConforms leaves message kind (desc.ref field.number) value

variable {leaves message} {desc : Descriptor} {field : FieldDescriptor} {value : PyVal}

/-- The value seen for a map field. -/
theorem seenConforms_map {key : ScalarType} {valueKind : MapValue}
    (hkind : field.kind = .map key valueKind) : SeenConforms leaves message desc field value ↔
      MapConforms leaves message key valueKind (desc.ref field.number) value := by
  unfold SeenConforms
  rw [hkind]

/-- The value seen for a repeated field. -/
theorem seenConforms_repeated (hmap : field.kind.isMap = false) (hlabel : field.label = .repeated) :
    SeenConforms leaves message desc field value ↔ ∃ items, value = .list items ∧
      ∀ item ∈ items, ValueConforms leaves message field.kind (desc.ref field.number) item := by
  unfold SeenConforms
  cases hk : field.kind with
  | map key value => rw [hk] at hmap; cases hmap
  | _ => simp only [hlabel, if_true]

/-- The value seen for a singular field. -/
theorem seenConforms_singular (hmap : field.kind.isMap = false) (hlabel : field.label ≠ .repeated) :
    SeenConforms leaves message desc field value ↔
      ValueConforms leaves message field.kind (desc.ref field.number) value := by
  unfold SeenConforms
  cases hk : field.kind with
  | map key value => rw [hk] at hmap; cases hmap
  | _ => simp only [if_neg hlabel]

variable (leaves message)

/-- **The value of a field**: None, too, for a field with presence. -/
def FieldConforms (desc : Descriptor) (field : FieldDescriptor) (value : PyVal) : Prop :=
  field.label = .optional ∧ value = .pyNone ∨ SeenConforms leaves message desc field value

end Values

/-- Two fields are members of one oneof group. -/
def FieldDescriptor.SameGroup (f g : FieldDescriptor) : Prop :=
  f.label = .optional ∧ g.label = .optional ∧ f.oneofIndex.isSome = true ∧
    f.oneofIndex = g.oneofIndex

/-- Of two members of a oneof group at least one is None. -/
def OneofExclusive (p q : FieldDescriptor × PyVal) : Prop :=
  p.1.SameGroup q.1 → p.2 = .pyNone ∨ q.2 = .pyNone

/-- Bytes that are a sequence of fields the descriptor does not recognise. -/
def UnknownConforms (desc : MessageDescriptor) (unknown : Bytes) : Prop :=
  ∃ segs, Split Reader.readSegment unknown segs ∧
    ∀ seg ∈ segs, desc.recognize seg.number seg.payload.wire = none

/-- The parts of a conforming instance. -/
structure MessageConforms (leaves : Leaves) (message : Option LinkedRef → PyVal → Prop)
    (desc : Descriptor) (values : List PyVal) (unknown : Bytes) : Prop where
  fields : List.Forall₂ (FieldConforms leaves message desc) desc.inner.fields values
  oneofs : (desc.inner.fields.zip values).Pairwise OneofExclusive
  unknown : UnknownConforms desc.inner unknown

/-- The values of a nested message whose field is linked: an instance of exactly the linked class. -/
def NestedConforms (conforms : ClassId → DescId → PyVal → Prop) (linked : Option LinkedRef)
    (value : PyVal) : Prop :=
  ∃ l desc, linked = some l ∧ l.desc = some desc ∧ conforms l.cls desc value

/-- **A message that conforms to its descriptor**, at most `levels` messages deep. -/
def Conforms (w : World) (leaves : Leaves) : Nat → ClassId → DescId → PyVal → Prop
  | 0, _, _, _ => False
  | levels + 1, cls, descId, value =>
      ∃ values unknown, value = instanceOf cls (w.descriptor descId) values unknown ∧
        MessageConforms leaves (NestedConforms (Conforms w leaves levels)) (w.descriptor descId)
          values unknown

/-! ## Reading a conforming instance -/

section Instance

variable {w : World} {cls : ClassId} {descId : DescId} {values : List PyVal} {unknown : Bytes}

/-- An attribute stored on the instance is what `getattr` finds. -/
theorem getattr_inst (hgen : GeneratedClass w cls descId) {attrs : Attrs} {name : String}
    {value : PyVal} (h : attrs.lookup name = some value) :
    w.runtime.getattr (.inst cls attrs) name = .ok value := by
  obtain ⟨dc, hmro, -, -⟩ := hgen.dataclass
  exact getattr_dataclass hmro h

/-- Reading the attribute of a field. -/
theorem getattr_instanceOf (hgen : GeneratedClass w cls descId) (unknown : Bytes)
    (hlen : values.length = (w.descriptor descId).inner.fields.length)
    {p : FieldDescriptor × PyVal} (hp : p ∈ (w.descriptor descId).inner.fields.zip values) :
    w.runtime.getattr (instanceOf cls (w.descriptor descId) values unknown) p.1.name
      = .ok p.2 := by
  have hmem : (p.1.name, p.2) ∈ ((w.descriptor descId).inner.fields.map (·.name)).zip values := by
    rw [List.zip_map_left]
    exact List.mem_map.mpr ⟨p, hp, rfl⟩
  have hkeys : ((((w.descriptor descId).inner.fields.map (·.name)).zip values).map
      Prod.fst).Nodup := by
    rw [map_fst_attrs hlen]
    exact hgen.names
  refine getattr_inst hgen ?_
  rw [List.lookup_append, lookup_of_mem hkeys hmem]
  rfl

/-- The unknown bytes of an instance. -/
theorem unknownOf_instanceOf (hgen : GeneratedClass w cls descId)
    (hlen : values.length = (w.descriptor descId).inner.fields.length) :
    unknownOf w.runtime (instanceOf cls (w.descriptor descId) values unknown) = .ok unknown := by
  have hnone : (((w.descriptor descId).inner.fields.map (·.name)).zip values).lookup unknownSlot
      = none := by
    refine lookup_of_not_mem ?_
    rw [map_fst_attrs hlen]
    exact hgen.slot
  have hget : w.runtime.getattr (instanceOf cls (w.descriptor descId) values unknown) unknownSlot
      = .ok (.bytes unknown) := by
    refine getattr_inst hgen ?_
    rw [List.lookup_append, hnone, List.lookup_cons_self]
    rfl
  unfold unknownOf
  rw [hget]
  rfl

end Instance

/-! ## Conforming messages encode -/

/-- Whether values of a kind, or the values of a map of that kind, are Durations. -/
def FieldKind.isDuration : FieldKind → Bool
  | .duration | .map _ .duration => true
  | _ => false

section Encode

variable {w : World} {leaves : Leaves} {message : Option LinkedRef → PyVal → Prop}
  {plain : NestedPayload PyVal}

/-- **What the leaves of a kind owe to the encoder**: nested messages have bytes, enum values are
32-bit integers and Durations are in range, as far as the kind has such values. -/
structure LeavesEncode (leaves : Leaves) (message : Option LinkedRef → PyVal → Prop)
    (plain : NestedPayload PyVal) (kind : FieldKind) (linked : Option LinkedRef) : Prop where
  message : kind.refersToMessage = true → ∀ value, message linked value →
    ∃ data, plain value linked = .ok data
  enum : kind.refersToEnum = true → ∀ value, leaves.enum linked value →
    ∃ i, value.shape.extractI32 = .ok i
  duration : kind.isDuration = true → ∀ d, leaves.duration d → d.InRange

/-- The values of a map owe what the map owes. -/
theorem LeavesEncode.mapValue {key : ScalarType} {valueKind : MapValue}
    {linked : Option LinkedRef} (h : LeavesEncode leaves message plain (.map key valueKind) linked) :
    LeavesEncode leaves message plain valueKind.kind linked := by
  cases valueKind with
  | scalar scalar => exact ⟨nofun, nofun, nofun⟩
  | enum => exact ⟨nofun, h.enum, nofun⟩
  | message => exact ⟨h.message, nofun, nofun⟩
  | timestamp => exact ⟨nofun, nofun, nofun⟩
  | duration => exact ⟨nofun, nofun, h.duration⟩

/-- A conforming value has a payload. -/
theorem valuePayload_of_conforms {kind : FieldKind} {linked : Option LinkedRef}
    (hleaves : LeavesEncode leaves message plain kind linked) {value : PyVal}
    (h : ValueConforms leaves message kind linked value) :
    ∃ payload, valuePayload w.runtime plain kind value linked = .ok payload := by
  cases kind with
  | scalar scalar =>
      obtain ⟨payload, hpayload, -⟩ := ScalarType.Holds.roundTrip h
      exact ⟨payload, hpayload⟩
  | enum =>
      obtain ⟨i, hi⟩ := hleaves.enum rfl value h
      refine ⟨.varint i.toInt64.toUInt64, ?_⟩
      show enumPayload value.shape = _
      rw [enumPayload, hi, ok_bind]
  | message =>
      obtain ⟨data, hdata⟩ := hleaves.message rfl value h
      exact ⟨.len data, by rw [valuePayload, hdata, ok_bind]⟩
  | timestamp =>
      obtain ⟨d, rfl, -⟩ := h
      obtain ⟨secs, nanos, hparts, -⟩ := datetimeToParts_eq (V := PyVal) d
      refine ⟨.len (recordsBytes (partsRecords secs nanos)), ?_⟩
      show (datetimeToParts (.datetime d : PyShape PyVal) >>= fun parts => _) = _
      rw [hparts, ok_bind]
  | duration =>
      obtain ⟨d, rfl, hd⟩ := h
      obtain ⟨secs, nanos, hparts⟩ := (hleaves.duration rfl d hd).parts (V := PyVal)
      refine ⟨.len (recordsBytes (partsRecords secs nanos)), ?_⟩
      show (timedeltaToParts (.timedelta d : PyShape PyVal) >>= fun parts => _) = _
      rw [hparts, ok_bind]
  | map key value => exact h.elim

/-- **The oneof counters while fields are encoded**: none is above one, and one means that a member
of the group was set. -/
structure CountsSound (oneofs : Nat) (done : List (FieldDescriptor × PyVal)) (counts : List Nat) :
    Prop where
  length : counts.length = oneofs
  le_one : ∀ (g c : Nat), counts[g]? = some c → c ≤ 1
  set_member : ∀ g : Nat, counts[g]? = some 1 → ∃ p ∈ done, p.1.label = .optional ∧
    (∃ i, p.1.oneofIndex = some i ∧ i.toNat = g) ∧ p.2 ≠ .pyNone

/-- No member is counted before the first field. -/
theorem CountsSound.init (oneofs : Nat) : CountsSound oneofs [] (List.replicate oneofs 0) := by
  refine ⟨List.length_replicate, fun g c hg => ?_, fun g hg => ?_⟩
  · rw [List.getElem?_replicate] at hg
    split at hg <;> cases hg
    exact Nat.zero_le _
  · rw [List.getElem?_replicate] at hg
    split at hg <;> cases hg

/-- Counting a member keeps the counters sound when no member of its group was set before. -/
theorem CountsSound.countMember {oneofs : Nat} {done : List (FieldDescriptor × PyVal)}
    {counts : List Nat} (h : CountsSound oneofs done counts) {p : FieldDescriptor × PyVal}
    (hshape : p.1.Shaped oneofs) (hlabel : p.1.label = .optional) (hset : p.2 ≠ .pyNone)
    (hexcl : ∀ q ∈ done, OneofExclusive q p) :
    ∃ counts', FastProto.countMember counts p.1.oneofIndex = .ok counts' ∧
      CountsSound oneofs (done ++ [p]) counts' := by
  have hmono : ∀ g : Nat, counts[g]? = some 1 → ∃ q ∈ done ++ [p], q.1.label = .optional ∧
      (∃ i, q.1.oneofIndex = some i ∧ i.toNat = g) ∧ q.2 ≠ .pyNone := by
    intro g hg
    obtain ⟨q, hq, hrest⟩ := h.set_member g hg
    exact ⟨q, by simp [hq], hrest⟩
  unfold FastProto.countMember
  cases hindex : p.1.oneofIndex with
  | none => exact ⟨counts, rfl, h.length, h.le_one, hmono⟩
  | some i =>
      have hlt : i.toNat < counts.length := by
        rw [h.length]
        exact hshape.oneof_lt i hindex
      have hget := List.getElem?_eq_getElem hlt
      -- a counter of one would be another member set in the group
      have hzero : counts[i.toNat] = 0 := by
        have hle := h.le_one i.toNat _ hget
        by_contra hne
        have hone : counts[i.toNat] = 1 := by omega
        rw [hone] at hget
        obtain ⟨q, hq, hqlabel, ⟨j, hj, hji⟩, hqset⟩ := h.set_member i.toNat hget
        have hsame : q.1.SameGroup p.1 := by
          refine ⟨hqlabel, hlabel, by simp [hj], ?_⟩
          rw [hj, hindex, UInt32.toNat_inj.mp hji]
        exact (hexcl q hq hsame).elim hqset hset
      refine ⟨counts.set i.toNat 1, ?_, ?_, ?_, ?_⟩
      · simp only [hget, hzero]
        rfl
      · rw [List.length_set, h.length]
      · intro g c hg
        by_cases hig : i.toNat = g
        · rw [List.getElem?_set, if_pos hig, if_pos hlt] at hg
          cases hg
          exact Nat.le_refl _
        · rw [List.getElem?_set_ne hig] at hg
          exact h.le_one g c hg
      · intro g hg
        by_cases hig : i.toNat = g
        · exact ⟨p, by simp, hlabel, ⟨i, hindex, hig⟩, hset⟩
        · rw [List.getElem?_set_ne hig] at hg
          exact hmono g hg

/-- Fields that are not counted keep the counters sound. -/
theorem CountsSound.append {oneofs : Nat} {done : List (FieldDescriptor × PyVal)}
    {counts : List Nat} (h : CountsSound oneofs done counts) (p : FieldDescriptor × PyVal) :
    CountsSound oneofs (done ++ [p]) counts where
  length := h.length
  le_one := h.le_one
  set_member := by
    intro g hg
    obtain ⟨q, hq, hrest⟩ := h.set_member g hg
    exact ⟨q, by simp [hq], hrest⟩

/-- Sound counters pass the check of the oneof groups. -/
theorem CountsSound.check {oneofs : List String} {done : List (FieldDescriptor × PyVal)}
    {counts : List Nat} (h : CountsSound oneofs.length done counts) :
    checkOneofs oneofs counts = .ok () := by
  unfold checkOneofs
  split
  · rfl
  · rename_i count g hfound
    have hmem := List.mem_zipIdx_iff_getElem?.mp (List.mem_of_find?_eq_some hfound)
    have hlarge : 1 < count := by simpa using List.find?_some hfound
    exact absurd hlarge (Nat.not_lt.mpr (h.le_one g count hmem))

/-- Only None is None. -/
theorem isNone_shape {value : PyVal} : value.shape.isNone = true ↔ value = .pyNone := by
  cases value <;> simp [PyVal.shape, PyShape.isNone]

/-- **A conforming field has records**, and keeps the oneof counters sound. -/
theorem fieldRecords_of_conforms {desc : Descriptor} {instance_ : PyVal}
    {p : FieldDescriptor × PyVal}
    (hleaves : LeavesEncode leaves message plain p.1.kind (desc.ref p.1.number))
    (hget : w.runtime.getattr instance_ p.1.name = .ok p.2) {oneofs : Nat}
    (hshape : p.1.Shaped oneofs) (h : FieldConforms leaves message desc p.1 p.2)
    {done : List (FieldDescriptor × PyVal)} {counts : List Nat}
    (hcounts : CountsSound oneofs done counts) (hexcl : ∀ q ∈ done, OneofExclusive q p) :
    ∃ recs counts', fieldRecords w.runtime plain desc instance_ counts p.1 = .ok (recs, counts') ∧
      CountsSound oneofs (done ++ [p]) counts' := by
  by_cases hmap : p.1.kind.isMap = true
  · obtain ⟨key, valueKind, hkind⟩ := FieldKind.isMap_iff.mp hmap
    rw [fieldRecords_map w.runtime plain hget hkind]
    obtain ⟨items, hvalue, -, hitems⟩ := (seenConforms_map hkind).mp (h.resolve_left fun h => by
      rw [(hshape.map_single key valueKind hkind).1] at h
      cases h.1)
    -- keys are scalars, so only the value can be a message that has to be encoded
    have hentries : ∃ payloads, items.mapM
        (entryPayload w.runtime plain key valueKind (desc.ref p.1.number)) = .ok payloads := by
      refine mapM_total fun item hitem => ?_
      obtain ⟨hkey, hval⟩ := hitems item hitem
      obtain ⟨keyPayload, hkeyPayload, -⟩ := hkey.roundTrip
      rw [hkind] at hleaves
      obtain ⟨payload, hpayload⟩ := valuePayload_of_conforms (w := w) hleaves.mapValue hval
      refine ⟨.len (recordsBytes [⟨1, keyPayload⟩, ⟨2, payload⟩]), ?_⟩
      unfold entryPayload
      show (scalarPayload key item.1.shape >>= _) = _
      rw [hkeyPayload, ok_bind, hpayload, ok_bind]
    obtain ⟨payloads, hpayloads⟩ := hentries
    refine ⟨payloads.map fun payload => ⟨p.1.number, payload⟩, counts, ?_, hcounts.append p⟩
    have hrecords : mapRecords w.runtime plain p.1.number key valueKind p.2 (desc.ref p.1.number)
        = .ok (payloads.map fun payload => ⟨p.1.number, payload⟩) := by
      rw [hvalue]
      show (items.mapM _ >>= fun payloads => _) = _
      rw [hpayloads, ok_bind]
    rw [hrecords, ok_bind]
  · have hnot : p.1.kind.isMap = false := by simpa using hmap
    cases hlabel : p.1.label with
    | repeated =>
        obtain ⟨items, hvalue, hitems⟩ := (seenConforms_repeated hnot hlabel).mp
          (h.resolve_left fun h => by rw [hlabel] at h; cases h.1)
        obtain ⟨payloads, hpayloads⟩ := mapM_total (f := fun item =>
          valuePayload w.runtime plain p.1.kind item (desc.ref p.1.number)) fun item hitem =>
            valuePayload_of_conforms hleaves (hitems item hitem)
        have hrecords : repeatedRecords w.runtime plain p.1.number p.1.kind p.2
            (desc.ref p.1.number) = .ok (if p.1.kind.isPacked then packedRecords p.1.number payloads
              else payloads.map fun payload => ⟨p.1.number, payload⟩) := by
          unfold repeatedRecords
          rw [hvalue, if_neg (by simp [World.runtime, PyVal.shape, PyShape.isStrOrBytes])]
          have hitems' : w.runtime.items (.list items) = .ok items := rfl
          cases hk : p.1.kind with
          | map key value => rw [hk] at hnot; cases hnot
          | _ =>
              rw [hk] at hpayloads
              simp only [hitems', ok_bind, hpayloads]
        rw [fieldRecords_repeated w.runtime plain hget hnot hlabel, hrecords, ok_bind]
        exact ⟨_, _, rfl, hcounts.append p⟩
    | optional =>
        by_cases hnone : p.2 = .pyNone
        · rw [fieldRecords_none w.runtime plain hget hnot hlabel (isNone_shape.mpr hnone)]
          exact ⟨_, _, rfl, hcounts.append p⟩
        · have hvalue := (seenConforms_singular hnot (by rw [hlabel]; decide)).mp
            (h.resolve_left fun h => hnone h.2)
          obtain ⟨payload, hpayload⟩ := valuePayload_of_conforms (w := w) hleaves hvalue
          -- the one case that counts towards a oneof
          obtain ⟨counts', hcount, hsound⟩ := hcounts.countMember hshape hlabel hnone hexcl
          have hset : (w.runtime.view p.2).isNone = false :=
            Bool.eq_false_iff.mpr fun h => hnone (isNone_shape.mp h)
          rw [fieldRecords_some w.runtime plain hget hnot hlabel hset, hcount, ok_bind, hpayload,
            ok_bind]
          exact ⟨_, _, rfl, hsound⟩
    | single =>
        have hvalue := (seenConforms_singular hnot (by rw [hlabel]; decide)).mp
          (h.resolve_left fun h => by rw [hlabel] at h; cases h.1)
        obtain ⟨payload, hpayload⟩ := valuePayload_of_conforms (w := w) hleaves hvalue
        rw [fieldRecords_single w.runtime plain hget hnot hlabel, hpayload, ok_bind]
        exact ⟨_, _, rfl, hcounts.append p⟩

/-- The records of all fields of a conforming instance. -/
theorem fieldsRecords_of_conforms {desc : Descriptor} {instance_ : PyVal}
    {pairs : List (FieldDescriptor × PyVal)}
    (hleaves : ∀ p ∈ pairs, LeavesEncode leaves message plain p.1.kind (desc.ref p.1.number))
    (hget : ∀ p ∈ pairs, w.runtime.getattr instance_ p.1.name = .ok p.2) {oneofs : Nat}
    (hshape : ∀ p ∈ pairs, p.1.Shaped oneofs)
    (h : ∀ p ∈ pairs, FieldConforms leaves message desc p.1 p.2)
    (hexcl : pairs.Pairwise OneofExclusive) {counts : List Nat}
    (hcounts : CountsSound oneofs [] counts) :
    ∃ recs counts', fieldsRecords w.runtime plain desc instance_ (pairs.map Prod.fst) ([], counts)
      = .ok (recs, counts') ∧ CountsSound oneofs pairs counts' := by
  unfold fieldsRecords
  rw [List.foldlM_map]
  have hrun := @foldlM_total _ _ _
    (fun (st : List Record × List Nat) (p : FieldDescriptor × PyVal) => do
      let r ← fieldRecords w.runtime plain desc instance_ st.2 p.1
      .ok (st.1 ++ r.1, r.2))
    pairs (fun done st => CountsSound oneofs done st.2) (fun done p rest st hl hst => by
      have hp : p ∈ pairs := by rw [← hl]; simp
      have hbefore : ∀ q ∈ done, OneofExclusive q p := by
        rw [← hl] at hexcl
        exact fun q hq => (List.pairwise_append.mp hexcl).2.2 q hq p (by simp)
      obtain ⟨recs, counts', hrec, hsound⟩ := fieldRecords_of_conforms (hleaves p hp)
        (hget p hp) (hshape p hp) (h p hp) hst hbefore
      exact ⟨(st.1 ++ recs, counts'), by rw [hrec, ok_bind], hsound⟩) ([], counts) hcounts
  obtain ⟨⟨recs, counts'⟩, hfold, hsound⟩ := hrun
  exact ⟨recs, counts', hfold, hsound⟩

end Encode

/-- The nested descriptor of an instance of exactly the linked class is the linked one. -/
theorem nestedDescriptor_instanceOf {w : World} {linked : LinkedRef} {desc : Descriptor}
    {descId : DescId} {values : List PyVal} {unknown : Bytes} (hdesc : linked.desc = some descId) :
    nestedDescriptor w.runtime (instanceOf linked.cls desc values unknown) (some linked)
      = .ok descId := by
  unfold nestedDescriptor instanceOf
  simp only [World.runtime, PyVal.shape, Option.bind_some, if_true, hdesc]

/-- **A nested message of a family** is an instance of the class its field refers to, and conforms to the
descriptor of that class. -/
theorem Family.nested_of_conforms {w : World} {dom : ClassId → DescId → Prop} (hfam : Family w dom)
    {leaves : Leaves} {levels : Nat} {cls : ClassId} {descId : DescId} (hdom : dom cls descId)
    {field : FieldDescriptor} (hfield : field ∈ (w.descriptor descId).inner.fields)
    (hrefers : field.kind.refersToMessage = true) {value : PyVal}
    (h : NestedConforms (Conforms w leaves levels) ((w.descriptor descId).ref field.number) value) :
    ∃ cls' desc', (w.descriptor descId).ref field.number = some { cls := cls', desc := some desc' } ∧
      dom cls' desc' ∧ Conforms w leaves levels cls' desc' value ∧
      (∃ attrs, value = .inst cls' attrs) ∧
      nestedDescriptor w.runtime value (some { cls := cls', desc := some desc' }) = .ok desc' := by
  obtain ⟨cls', desc', href, hproto, hdom'⟩ := hfam.messages cls descId hdom field hfield hrefers
  have hlink : buildLinkedRef cls' (w.cls cls') = { cls := cls', desc := some desc' } := by
    simp [buildLinkedRef, hproto]
  rw [hlink] at href
  obtain ⟨l, descId', hlinked, hdesc, hconf⟩ := h
  rw [href] at hlinked
  cases hlinked
  cases hdesc
  refine ⟨cls', desc', href, hdom', hconf, ?_⟩
  cases levels with
  | zero => exact hconf.elim
  | succ levels =>
      obtain ⟨values, unknown, rfl, -⟩ := hconf
      exact ⟨⟨_, rfl⟩, nestedDescriptor_instanceOf rfl⟩

/-- What an enum value of a family owes to the encoder. -/
def Leaves.EnumsEncode (leaves : Leaves) (w : World) : Prop :=
  ∀ (cls : ClassId) (enum : EnumClass), (w.cls cls).fastproto = none →
    (w.cls cls).enum = some enum → enum.missing = none → ∀ value,
      leaves.enum (some (buildLinkedRef cls (w.cls cls))) value →
      ∃ i, value.shape.extractI32 = .ok i

/-- What the Durations of a family owe to the encoder. -/
def Leaves.DurationsEncode (leaves : Leaves) (w : World) (dom : ClassId → DescId → Prop) : Prop :=
  ∀ cls desc, dom cls desc → ∀ field ∈ (w.descriptor desc).inner.fields,
    field.kind.isDuration = true → ∀ d, leaves.duration d → d.InRange

/-- **Conforming messages encode**: the records of a conforming message exist, at every level. -/
theorem messageRecords_of_conforms {w : World} {dom : ClassId → DescId → Prop}
    (hfam : Family w dom) {leaves : Leaves} (henum : leaves.EnumsEncode w)
    (hduration : leaves.DurationsEncode w dom) (levels : Nat) :
    ∀ cls descId value, dom cls descId → Conforms w leaves levels cls descId value →
      ∃ recs unknown, messageRecords w.runtime levels value descId = .ok (recs, unknown) := by
  induction levels with
  | zero => exact fun cls descId value _ h => h.elim
  | succ levels ih =>
      intro cls descId value hdom h
      obtain ⟨values, unknown, rfl, hparts⟩ := h
      have hgen := hfam.generated cls descId hdom
      have hlen : values.length = (w.descriptor descId).inner.fields.length :=
        hparts.fields.length_eq.symm
      have hfst : ((w.descriptor descId).inner.fields.zip values).map Prod.fst
          = (w.descriptor descId).inner.fields := List.map_fst_zip (by omega)
      have hleaves : ∀ p ∈ (w.descriptor descId).inner.fields.zip values,
          LeavesEncode leaves (NestedConforms (Conforms w leaves levels))
            (plainPayload w.runtime levels) p.1.kind ((w.descriptor descId).ref p.1.number) := by
        intro p hp
        have hfield := (List.of_mem_zip hp).1
        refine ⟨fun hrefers value hvalue => ?_, fun hrefers value => ?_,
          hduration cls descId hdom p.1 hfield⟩
        swap
        · obtain ⟨cls', enum, href, hproto, henumcls, hmissing, -⟩ :=
            hfam.enums cls descId hdom p.1 hfield hrefers
          rw [href]
          exact henum cls' enum hproto henumcls hmissing value
        obtain ⟨cls', desc', href, hdom', hconf, -, hnested⟩ :=
          hfam.nested_of_conforms hdom hfield hrefers hvalue
        obtain ⟨recs, unknown, hrecs⟩ := ih cls' desc' _ hdom' hconf
        refine ⟨recordsBytes recs ++ unknown, ?_⟩
        unfold plainPayload
        rw [href, hnested, ok_bind, hrecs, ok_bind]
      have hcounts := CountsSound.init (w.descriptor descId).inner.oneofs.length
      obtain ⟨recs, counts, hrecs, hsound⟩ := fieldsRecords_of_conforms hleaves
        (fun p hp => getattr_instanceOf hgen unknown hlen hp)
        (fun p hp => hgen.wellFormed.shaped p.1 (List.of_mem_zip hp).1)
        (fun p hp => List.forall₂_zip hparts.fields hp) hparts.oneofs hcounts
      rw [hfst] at hrecs
      refine ⟨recs, unknown, ?_⟩
      rw [messageRecords_succ, World.runtime_descriptor, hrecs, ok_bind]
      dsimp only
      rw [hsound.check, ok_bind, unknownOf_instanceOf hgen hlen, ok_bind]

end FastProto
