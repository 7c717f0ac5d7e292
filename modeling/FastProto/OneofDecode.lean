import FastProto.DecodeMerge
import FastProto.MessageRoundTrip

/-! # The last member of a oneof wins

In a decoded instance at most one member of a oneof group is set: the one whose correctly typed field
occurs last on the wire, with the value of that occurrence. So the check of the encoder that at most
one member is set never fails on what the decoder built, at any depth. -/

namespace FastProto

open Lib Lib.Cursor

/-! ## Occurrences on the wire -/

/-- The singular member of a group a segment is a correctly typed occurrence of. -/
def MessageDescriptor.memberOf (desc : MessageDescriptor) (group : UInt32) (seg : Segment) :
    Option FieldDescriptor :=
  desc.fields.find? fun field => decide (field.number = seg.number ∧ field.group = some group ∧
    seg.payload.wire = field.kind.expectedWire)

/-- The correctly typed occurrences of the singular members of a group, in wire order. -/
def MessageDescriptor.occurrences (desc : MessageDescriptor) (group : UInt32)
    (segs : List Segment) : List (FieldDescriptor × Payload) :=
  segs.filterMap fun seg => (desc.memberOf group seg).map fun field => (field, seg.payload)

section Occurrences

variable {desc : Descriptor}

/-- A member of a group takes its expected wire type only. -/
theorem accepts_of_group {field : FieldDescriptor} {group : UInt32}
    (hgroup : field.group = some group) (wire : WireType) :
    field.accepts wire = true ↔ wire = field.kind.expectedWire := by
  have hlabel : field.label ≠ .repeated := by
    intro hlabel
    rw [FieldDescriptor.group_of_label (by rw [hlabel]; decide)] at hgroup
    cases hgroup
  rw [FieldDescriptor.accepts, if_neg hlabel, decide_eq_true_eq]

/-- The claim of a segment for a group is its occurrence of a member. -/
theorem Descriptor.claim_group (hwf : desc.inner.WellFormed)
    (hnumbers : (desc.inner.fields.map (·.number)).Nodup) (group : UInt32) (seg : Segment) :
    (desc.claim (.group group) seg).map (fun c => (c.field, c.payload))
      = (desc.inner.memberOf group seg).map fun field => (field, seg.payload) := by
  unfold claim
  rw [target_eq hwf]
  cases hmember : desc.inner.memberOf group seg with
  | some field =>
      have hfield := List.mem_of_find?_eq_some hmember
      obtain ⟨hnumber, hgroup, hwire⟩ : field.number = seg.number ∧ field.group = some group ∧
          seg.payload.wire = field.kind.expectedWire := by
        have hfound := List.find?_some hmember
        exact of_decide_eq_true hfound
      obtain ⟨idx, hidx⟩ := List.mem_iff_getElem?.mp hfield
      have hrec := recognizes_of_nodup hnumbers hidx seg.payload.wire
        ((accepts_of_group hgroup _).mpr hwire)
      rw [hnumber] at hrec
      rw [hrec]
      dsimp only
      rw [if_pos (FieldDescriptor.contest_of_some hgroup idx)]
      rfl
  | none =>
      cases hrec : desc.inner.recognize seg.number seg.payload.wire with
      | none => rfl
      | some found =>
          obtain ⟨idx, field⟩ := found
          obtain ⟨-, hfield, hnumber, hacc⟩ := MessageDescriptor.recognize_eq_some hrec
          dsimp only
          rw [if_neg fun hcontest => ?_]
          · rfl
          · have hgroup := FieldDescriptor.contest_eq_group.mp hcontest
            have hnot := List.find?_eq_none.mp hmember field (List.mem_of_getElem? hfield)
            exact hnot (decide_eq_true ⟨hnumber, hgroup, (accepts_of_group hgroup _).mp hacc⟩)

/-- The claims of a run for a group are its occurrences of members. -/
theorem Descriptor.claims_group (hwf : desc.inner.WellFormed)
    (hnumbers : (desc.inner.fields.map (·.number)).Nodup) (group : UInt32) (segs : List Segment) :
    (desc.claims (.group group) segs).map (fun c => (c.field, c.payload))
      = desc.inner.occurrences group segs := by
  unfold claims MessageDescriptor.occurrences
  rw [List.map_filterMap]
  exact List.filterMap_congr fun seg _ => claim_group hwf hnumbers group seg

end Occurrences

/-! ## The decoded instance -/

/-- **What a decoded instance owes for a oneof group**: the member that occurs last holds the value of
that occurrence, every other member is None. -/
structure GroupOutcome (w : World) (nested : NestedDecoder) (desc : Descriptor) (value : PyVal)
    (group : UInt32) (segs : List Segment) : Prop where
  last : ∀ field payload, (desc.inner.occurrences group segs).getLast? = some (field, payload) →
    ∃ v, valueOfPayload w nested field.kind (desc.ref field.number) payload = .ok v ∧
      w.runtime.getattr value field.name = .ok v
  others : ∀ field ∈ desc.inner.fields, field.group = some group →
    (desc.inner.occurrences group segs).getLast?.map Prod.fst ≠ some field →
    w.runtime.getattr value field.name = .ok .pyNone

section Outcome

variable {w : World} {nested : NestedDecoder} {cls : ClassId} {descId : DescId}

/-- Attributes of an instance built from slots. -/
theorem getattr_filledValues (hgen : GeneratedClass w cls descId) {st : DecodeState}
    (hlen : st.values.length = (w.descriptor descId).inner.fields.length) {idx : Nat}
    {field : FieldDescriptor} (hfield : (w.descriptor descId).inner.fields[idx]? = some field)
    {slot : Option PyVal} (hslot : st.values[idx]? = some slot) (unknown : Bytes) :
    w.runtime.getattr (instanceOf cls (w.descriptor descId)
        (filledValues (w.descriptor descId) st.values) unknown) field.name
      = .ok (slot.getD (zeroValue (w.descriptor descId) field)) :=
  @getattr_instanceOf w cls descId _ hgen unknown (length_filledValues hlen)
    (field, slot.getD (zeroValue (w.descriptor descId) field))
    (List.mem_of_getElem? (List.getElem?_zip_eq_some.mpr
      ⟨hfield, filledValues_getElem? hfield hslot⟩))

/-- **The groups of an instance built from the slots of a run.** -/
theorem DecodeState.After.outcome (hgen : GeneratedClass w cls descId) {segs : List Segment}
    {st : DecodeState} (h : st.After w nested (w.descriptor descId) segs) (group : UInt32) :
    GroupOutcome w nested (w.descriptor descId) (instanceOf cls (w.descriptor descId)
      (filledValues (w.descriptor descId) st.values) st.unknown) group segs := by
  have hshaped := hgen.wellFormed.shaped
  have hoccurrences := (w.descriptor descId).claims_group hgen.wellFormed hgen.numbers group segs
  refine ⟨fun field payload hlast => ?_, fun field hmem hgroup hother => ?_⟩
  · rw [← hoccurrences, List.getLast?_map] at hlast
    obtain ⟨c, hc, heq⟩ := Option.map_eq_some_iff.mp hlast
    cases heq
    have hmem := List.mem_of_getLast? hc
    obtain ⟨hfield, hcontest, -⟩ := Descriptor.mem_claims hmem
    have hgroup := FieldDescriptor.contest_eq_group.mp hcontest
    obtain ⟨v, hv⟩ := h.values_of_group hshaped hmem
    have hslot := h.slots c.idx c.field hfield
    rw [slotAfter_of_group hshaped hfield hgroup, contendedSlot, hcontest, hc, Option.bind_some,
      if_pos rfl, hv] at hslot
    exact ⟨v, hv, getattr_filledValues hgen h.length hfield hslot _⟩
  · obtain ⟨idx, hfield⟩ := List.mem_iff_getElem?.mp hmem
    have hslot := h.slots idx field hfield
    have hnone : contendedSlot w nested (w.descriptor descId) idx field segs = none := by
      rw [contendedSlot, FieldDescriptor.contest_of_some hgroup]
      cases hlast : ((w.descriptor descId).claims (.group group) segs).getLast? with
      | none => rfl
      | some c =>
          rw [Option.bind_some, if_neg]
          rintro rfl
          obtain ⟨hfield', -, -⟩ := Descriptor.mem_claims (List.mem_of_getLast? hlast)
          rw [hfield] at hfield'
          cases hfield'
          rw [← hoccurrences, List.getLast?_map, hlast] at hother
          exact hother rfl
    rw [slotAfter_of_group hshaped hfield hgroup, hnone] at hslot
    have hzero : zeroValue (w.descriptor descId) field = .pyNone := by
      obtain ⟨hmap, hlabel⟩ := not_collection_of_group hshaped hfield hgroup
      unfold zeroValue
      cases hk : field.kind with
      | map key value => rw [hk] at hmap; cases hmap
      | _ => simp only [hlabel]
    rw [getattr_filledValues hgen h.length hfield hslot, hzero]
    rfl

end Outcome

/-! ## Encoding what was decoded -/

/-- The error of a message with several members of a oneof set. -/
def oneofError (name : String) (count : Nat) : PyErr :=
  .valueError ("at most one member of oneof '" ++ name ++ "' may be set, got " ++ toString count)

/-- An error other than that of a oneof. -/
def NotOneof (e : PyErr) : Prop := ∀ name count, e ≠ oneofError name count

/-- Errors with another text are not that of a oneof. -/
theorem notOneof_valueError {msg : String} (h : msg.toList.head? ≠ some 'a') :
    NotOneof (.valueError msg) := by
  intro name count heq
  have hmsg := PyErr.valueError.inj heq
  rw [hmsg, String.append_assoc, String.append_assoc, String.toList_append] at h
  exact h rfl

section Leaves

variable {V : Type} {value : PyShape V}

/-- Reading an integer raises nothing about a oneof. -/
theorem raises_index : Raises NotOneof value.index := by
  intro e h
  unfold PyShape.index at h
  split at h <;> cases h
  exact fun name count heq => nomatch heq

/-- A range check of the native integers raises nothing about a oneof. -/
theorem raises_range {α : Type} {p : Int → Prop} [DecidablePred p] {f : Int → α} :
    Raises NotOneof (value.index >>= fun i =>
      if p i then .ok (f i) else .error PyShape.outOfRangeInt) := by
  refine raises_index.bind fun i _ => ?_
  split
  · exact Raises.ok _
  · exact Raises.error fun name count heq => nomatch heq

/-- Reading a float raises nothing about a oneof. -/
theorem raises_extractF64 : Raises NotOneof value.extractF64 := by
  intro e h
  unfold PyShape.extractF64 at h
  split at h
  · cases h
  · split at h
    · split at h <;> cases h
      exact fun name count heq => nomatch heq
    · cases h
      exact fun name count heq => nomatch heq

/-- The payload of a scalar raises nothing about a oneof. -/
theorem raises_scalarPayload (scalar : ScalarType) :
    Raises NotOneof (scalarPayload scalar value) := by
  have hfinish : ∀ {α : Type} {x : PyResult α} {f : α → Payload}, Raises NotOneof x →
      Raises NotOneof (x >>= fun a => .ok (f a)) := fun h => h.bind fun _ _ => Raises.ok _
  cases scalar with
  | float => exact hfinish (raises_extractF64.bind fun _ _ => Raises.ok _)
  | double => exact hfinish raises_extractF64
  | bool =>
      refine hfinish fun e h => ?_
      unfold PyShape.extractBool at h
      split at h <;> cases h
      exact fun name count heq => nomatch heq
  | string =>
      refine hfinish fun e h => ?_
      unfold PyShape.strBytes at h
      split at h <;> cases h
      exact fun name count heq => nomatch heq
  | bytes =>
      refine hfinish fun e h => ?_
      unfold PyShape.byteSlice at h
      split at h <;> cases h
      exact fun name count heq => nomatch heq
  | _ => exact hfinish raises_range

/-- The payload of an enum raises nothing about a oneof. -/
theorem raises_enumPayload : Raises NotOneof (enumPayload value) :=
  (raises_range (p := fun i => -2 ^ 31 ≤ i ∧ i < 2 ^ 31)).bind fun _ _ => Raises.ok _

/-- The parts of a Timestamp raise nothing about a oneof. -/
theorem raises_datetimeToParts : Raises NotOneof (datetimeToParts value) := by
  intro e h
  unfold datetimeToParts at h
  split at h <;> cases h
  exact fun name count heq => nomatch heq

/-- The parts of a Duration raise nothing about a oneof. -/
theorem raises_timedeltaToParts : Raises NotOneof (timedeltaToParts value) := by
  intro e h
  unfold timedeltaToParts at h
  split at h
  · dsimp only at h
    split at h <;> cases h
    exact notOneof_valueError (by decide)
  · cases h
    exact fun name count heq => nomatch heq

end Leaves

/-! ## Fields of what conforms -/

section Fields

variable {w : World} {leaves : Leaves} {message : Option LinkedRef → PyVal → Prop}
  {plain : NestedPayload PyVal}

/-- The payload of a conforming value raises nothing about a oneof, as nested messages do not. -/
theorem raises_valuePayload {kind : FieldKind} {linked : Option LinkedRef}
    (hplain : kind.refersToMessage = true → ∀ value, message linked value →
      Raises NotOneof (plain value linked))
    {value : PyVal} (h : ValueConforms leaves message kind linked value) :
    Raises NotOneof (valuePayload w.runtime plain kind value linked) := by
  cases kind with
  | scalar scalar => exact raises_scalarPayload scalar
  | enum => exact raises_enumPayload
  | message => exact (hplain rfl value h).bind fun _ _ => Raises.ok _
  | timestamp => exact raises_datetimeToParts.bind fun _ _ => Raises.ok _
  | duration => exact raises_timedeltaToParts.bind fun _ _ => Raises.ok _
  | map key value => exact h.elim

/-- **A conforming field raises nothing about a oneof**, and keeps the oneof counters sound. -/
theorem fieldRecords_raises {desc : Descriptor} {instance_ : PyVal} {p : FieldDescriptor × PyVal}
    (hplain : p.1.kind.refersToMessage = true → ∀ value, message (desc.ref p.1.number) value →
      Raises NotOneof (plain value (desc.ref p.1.number)))
    (hget : w.runtime.getattr instance_ p.1.name = .ok p.2) {oneofs : Nat}
    (hshape : p.1.Shaped oneofs) (h : FieldConforms leaves message desc p.1 p.2)
    {done : List (FieldDescriptor × PyVal)} {counts : List Nat}
    (hcounts : CountsSound oneofs done counts) (hexcl : ∀ q ∈ done, OneofExclusive q p) :
    Raises NotOneof (fieldRecords w.runtime plain desc instance_ counts p.1) ∧
      ∀ recs counts', fieldRecords w.runtime plain desc instance_ counts p.1 = .ok (recs, counts') →
        CountsSound oneofs (done ++ [p]) counts' := by
  -- a field that is not counted leaves the counters as they are
  have huncounted : ∀ {x : PyResult (List Record)}, Raises NotOneof x →
      Raises NotOneof (x >>= fun recs => .ok (recs, counts)) ∧
        ∀ recs counts', (x >>= fun recs => .ok (recs, counts)) = .ok (recs, counts') →
          CountsSound oneofs (done ++ [p]) counts' := by
    intro x hx
    refine ⟨hx.bind fun _ _ => Raises.ok _, fun recs counts' hrun => ?_⟩
    obtain ⟨_, -, hrun⟩ := bind_eq_ok.mp hrun
    cases hrun
    exact hcounts.append p
  by_cases hmap : p.1.kind.isMap = true
  · obtain ⟨key, valueKind, hkind⟩ := FieldKind.isMap_iff.mp hmap
    rw [fieldRecords_map w.runtime plain hget hkind]
    obtain ⟨items, hvalue, -, hitems⟩ := (seenConforms_map hkind).mp (h.resolve_left fun h => by
      rw [(hshape.map_single key valueKind hkind).1] at h
      cases h.1)
    apply huncounted
    rw [hvalue]
    refine Raises.bind (Raises.mapM fun item hitem => ?_) fun _ _ => Raises.ok _
    refine (raises_scalarPayload key).bind fun _ _ => ?_
    refine (raises_valuePayload (fun hrefers => ?_) (hitems item hitem).2).bind fun _ _ =>
      Raises.ok _
    refine hplain ?_
    rw [hkind]
    cases valueKind with
    | message => rfl
    | _ => cases hrefers
  · have hnot : p.1.kind.isMap = false := by simpa using hmap
    cases hlabel : p.1.label with
    | repeated =>
        obtain ⟨items, hvalue, hitems⟩ := (seenConforms_repeated hnot hlabel).mp
          (h.resolve_left fun h => by rw [hlabel] at h; cases h.1)
        rw [fieldRecords_repeated w.runtime plain hget hnot hlabel]
        apply huncounted
        unfold repeatedRecords
        rw [hvalue, if_neg (by simp [World.runtime, PyVal.shape, PyShape.isStrOrBytes])]
        have hitems' : w.runtime.items (.list items) = .ok items := rfl
        have hpayloads : Raises NotOneof (items.mapM fun item =>
            valuePayload w.runtime plain p.1.kind item (desc.ref p.1.number)) :=
          Raises.mapM fun item hitem => raises_valuePayload hplain (hitems item hitem)
        cases hk : p.1.kind with
        | map key value => rw [hk] at hnot; cases hnot
        | _ =>
            rw [hk] at hpayloads
            rw [hitems', ok_bind]
            exact hpayloads.bind fun _ _ => Raises.ok _
    | optional =>
        by_cases hnone : p.2 = .pyNone
        · rw [fieldRecords_none w.runtime plain hget hnot hlabel (isNone_shape.mpr hnone)]
          exact huncounted (Raises.ok [])
        · have hvalue := (seenConforms_singular hnot (by rw [hlabel]; decide)).mp
            (h.resolve_left fun h => hnone h.2)
          obtain ⟨counts', hcount, hsound⟩ := hcounts.countMember hshape hlabel hnone hexcl
          have hset : (w.runtime.view p.2).isNone = false :=
            Bool.eq_false_iff.mpr fun h => hnone (isNone_shape.mp h)
          rw [fieldRecords_some w.runtime plain hget hnot hlabel hset, hcount, ok_bind]
          refine ⟨(raises_valuePayload hplain hvalue).bind fun _ _ => Raises.ok _,
            fun recs counts'' hrun => ?_⟩
          obtain ⟨_, -, hrun⟩ := bind_eq_ok.mp hrun
          cases hrun
          exact hsound
    | single =>
        have hvalue := (seenConforms_singular hnot (by rw [hlabel]; decide)).mp
          (h.resolve_left fun h => by rw [hlabel] at h; cases h.1)
        rw [fieldRecords_single w.runtime plain hget hnot hlabel]
        refine ⟨(raises_valuePayload hplain hvalue).bind fun _ _ => Raises.ok _,
          fun recs counts' hrun => ?_⟩
        obtain ⟨_, -, hrun⟩ := bind_eq_ok.mp hrun
        cases hrun
        exact hcounts.append p

/-- The fields of a conforming instance raise nothing about a oneof. -/
theorem fieldsRecords_raises {desc : Descriptor} {instance_ : PyVal}
    {pairs : List (FieldDescriptor × PyVal)}
    (hplain : ∀ p ∈ pairs, p.1.kind.refersToMessage = true →
      ∀ value, message (desc.ref p.1.number) value → Raises NotOneof (plain value (desc.ref p.1.number)))
    (hget : ∀ p ∈ pairs, w.runtime.getattr instance_ p.1.name = .ok p.2) {oneofs : Nat}
    (hshape : ∀ p ∈ pairs, p.1.Shaped oneofs)
    (h : ∀ p ∈ pairs, FieldConforms leaves message desc p.1 p.2)
    (hexcl : pairs.Pairwise OneofExclusive) {counts : List Nat}
    (hcounts : CountsSound oneofs [] counts) :
    Raises NotOneof (fieldsRecords w.runtime plain desc instance_ (pairs.map Prod.fst)
      ([], counts)) ∧
      ∀ recs counts', fieldsRecords w.runtime plain desc instance_ (pairs.map Prod.fst)
        ([], counts) = .ok (recs, counts') → CountsSound oneofs pairs counts' := by
  unfold fieldsRecords
  rw [List.foldlM_map]
  have hrun := @Raises.foldlM _ _ _ NotOneof
    (fun (st : List Record × List Nat) (p : FieldDescriptor × PyVal) => do
      let r ← fieldRecords w.runtime plain desc instance_ st.2 p.1
      .ok (st.1 ++ r.1, r.2))
    pairs (fun done st => CountsSound oneofs done st.2) (fun done p rest st hl hst => by
      have hp : p ∈ pairs := by rw [← hl]; simp
      have hbefore : ∀ q ∈ done, OneofExclusive q p := by
        rw [← hl] at hexcl
        exact fun q hq => (List.pairwise_append.mp hexcl).2.2 q hq p (by simp)
      obtain ⟨hraises, hkeeps⟩ := fieldRecords_raises (hplain p hp) (hget p hp) (hshape p hp)
        (h p hp) hst hbefore
      refine ⟨hraises.bind fun _ _ => Raises.ok _, fun st' hst' => ?_⟩
      obtain ⟨⟨recs, counts'⟩, hrec, hst'⟩ := bind_eq_ok.mp hst'
      cases hst'
      exact hkeeps recs counts' hrec) ([], counts) hcounts
  exact ⟨hrun.1, fun recs counts' hfold => hrun.2 (recs, counts') hfold⟩

end Fields

/-! ## Messages that conform -/

/-- **No oneof error comes from a conforming message**, at any depth and whatever the levels left. -/
theorem messageRecords_raises {w : World} {dom : ClassId → DescId → Prop} (hfam : Family w dom)
    {leaves : Leaves} (levels : Nat) : ∀ levels' cls descId value, dom cls descId →
      Conforms w leaves levels' cls descId value →
      Raises NotOneof (messageRecords w.runtime levels value descId) := by
  induction levels with
  | zero => exact fun _ _ _ _ _ _ => Raises.error (notOneof_valueError (by decide))
  | succ levels ih =>
      intro levels' cls descId value hdom h
      -- the level of the encoder and the one the message conforms at go down together
      cases levels' with
      | zero => exact h.elim
      | succ levels' =>
      obtain ⟨values, unknown, rfl, hparts⟩ := h
      have hgen := hfam.generated cls descId hdom
      have hlen : values.length = (w.descriptor descId).inner.fields.length :=
        hparts.fields.length_eq.symm
      have hfst : ((w.descriptor descId).inner.fields.zip values).map Prod.fst
          = (w.descriptor descId).inner.fields := List.map_fst_zip (by omega)
      -- what a nested message raises is not a oneof error, by induction
      have hplain : ∀ p ∈ (w.descriptor descId).inner.fields.zip values,
          p.1.kind.refersToMessage = true → ∀ value,
          NestedConforms (Conforms w leaves levels') ((w.descriptor descId).ref p.1.number) value →
          Raises NotOneof (plainPayload w.runtime levels value
            ((w.descriptor descId).ref p.1.number)) := by
        intro p hp hrefers value hvalue
        obtain ⟨cls', desc', href, hdom', hconf, -, hnested⟩ :=
          hfam.nested_of_conforms hdom (List.of_mem_zip hp).1 hrefers hvalue
        unfold plainPayload
        rw [href, hnested, ok_bind]
        exact (ih levels' cls' desc' _ hdom' hconf).bind fun _ _ => Raises.ok _
      obtain ⟨hraises, hsound⟩ := fieldsRecords_raises hplain
        (fun p hp => getattr_instanceOf hgen unknown hlen hp)
        (fun p hp => hgen.wellFormed.shaped p.1 (List.of_mem_zip hp).1)
        (fun p hp => List.forall₂_zip hparts.fields hp) hparts.oneofs
        (CountsSound.init (w.descriptor descId).inner.oneofs.length)
      rw [hfst] at hraises hsound
      rw [messageRecords_succ, World.runtime_descriptor]
      refine hraises.bind fun st hst => ?_
      rw [(hsound st.1 st.2 hst).check, ok_bind, unknownOf_instanceOf hgen hlen]
      exact Raises.ok _

/-- A singular member with another wire type on the wire is kept as unknown bytes, and no slot or
owner changes. -/
theorem segmentStep_of_wrongWire {w : World} {nested : NestedDecoder} {desc : Descriptor}
    (hnumbers : (desc.inner.fields.map (·.number)).Nodup) {field : FieldDescriptor}
    (hfield : field ∈ desc.inner.fields) {group : UInt32} (hgroup : field.group = some group)
    {seg : Segment} (hnumber : seg.number = field.number)
    (hwire : seg.payload.wire ≠ field.kind.expectedWire) (st : DecodeState) :
    segmentStep w nested desc st seg = .ok (st.keep seg.raw) := by
  have hrec : desc.inner.recognize seg.number seg.payload.wire = none := by
    cases hrec : desc.inner.recognize seg.number seg.payload.wire with
    | none => rfl
    | some found =>
        obtain ⟨idx, field'⟩ := found
        obtain ⟨-, hfield', hnumber', hacc⟩ := MessageDescriptor.recognize_eq_some hrec
        have hsame := eq_of_number hnumbers (List.mem_of_getElem? hfield') hfield
          (hnumber'.trans hnumber)
        subst hsame
        exact absurd ((accepts_of_group hgroup _).mp hacc) hwire
  unfold segmentStep
  rw [hrec]

/-- **The last member of a oneof on the wire wins and is the only one set**: in a decoded instance
every group has the outcome of its occurrences, a member with another wire type changes no slot, and
the encoder never rejects the instance with the oneof error, at any depth. -/
theorem decodeMessage_oneof {w : World} {dom : ClassId → DescId → Prop} (hfam : Family w dom)
    {cls : ClassId} {descId : DescId} (hdom : dom cls descId) {levels : Nat} {data : Bytes}
    {value : PyVal} (h : decodeMessage w levels cls descId data = .ok value) :
    ∃ below segs, levels = below + 1 ∧ Split Reader.readSegment data segs ∧
      (∀ group, GroupOutcome w (decodeMessage w below) (w.descriptor descId) value group segs) ∧
      (∀ field ∈ (w.descriptor descId).inner.fields, ∀ group, field.group = some group →
        ∀ seg ∈ segs, seg.number = field.number → seg.payload.wire ≠ field.kind.expectedWire →
        ∀ st, segmentStep w (decodeMessage w below) (w.descriptor descId) st seg
          = .ok (st.keep seg.raw)) ∧
      ∀ levels' buf name count,
        encodeMessage w.runtime levels' value descId buf ≠ .error (oneofError name count) := by
  have hgen := hfam.generated cls descId hdom
  have hconforms := decodeMessage_conforms hfam levels cls descId data value hdom h
  cases levels with
  | zero => cases h
  | succ below =>
      obtain ⟨segs, st, hsplit, hfold, hconstruct⟩ := (decodeMessage_eq_ok hgen.wellFormed).mp h
      refine ⟨below, segs, rfl, hsplit, fun group => ?_, fun field hfield group hgroup seg _ hnumber
        hwire st => segmentStep_of_wrongWire hgen.numbers hfield hgroup hnumber hwire st,
        fun levels' buf name count herror => ?_⟩
      · -- the owner table names the last member seen, and the slots follow it
        have hready := foldlM_invariant (·.Ready (w.descriptor descId).inner.fields)
          (fun s seg s' _ => segmentStep_keeps w _ hgen.wellFormed s seg s') _ _
          (DecodeState.ready_init _) hfold
        rw [← targetStep_eq w _ hgen.wellFormed] at hfold
        have hafter := foldlM_after hgen.wellFormed.shaped hfold
        rw [construct_generated hfam hdom hready.collections] at hconstruct
        cases hconstruct
        exact hafter.outcome hgen group
      · rw [encodeMessage_eq] at herror
        -- a decoded message has at most one member of a group set
        have hraises := (messageRecords_raises hfam levels' (below + 1) cls descId value hdom
          hconforms).bind (f := fun p : List Record × Bytes =>
            (.ok (buf ++ recordsBytes p.1 ++ p.2) : PyResult Bytes)) fun _ _ => Raises.ok _
        exact hraises _ herror name count rfl

/-- The class with a oneof is a family. -/
theorem family_choiceWorld : Family choiceWorld (fun cls desc => cls = 0 ∧ desc = 0) where
  generated := by
    rintro _ _ ⟨rfl, rfl⟩
    exact {
      fastproto := rfl
      metaCall := rfl
      concrete := rfl
      dataclass := ⟨_, rfl, rfl, .cons ⟨rfl, rfl, rfl, .inl rfl⟩
        (.cons ⟨rfl, rfl, rfl, .inl rfl⟩ (.cons ⟨rfl, rfl, rfl, .inr ⟨rfl, .list, rfl, rfl⟩⟩
          (.cons ⟨rfl, rfl, rfl, .inr ⟨rfl, .dict, rfl, rfl⟩⟩ .nil)))⟩
      parsed := ⟨choiceBytes, by rfl⟩
      numbers := by decide
      valid := by decide
      names := by decide
      slot := by decide }
  messages := by
    rintro _ _ ⟨rfl, rfl⟩ field hfield hkind
    have hnone : ∀ field ∈ choiceMessage.fields, field.kind.refersToMessage = false := by decide
    rw [hnone field hfield] at hkind
    cases hkind
  enums := by
    rintro _ _ ⟨rfl, rfl⟩ field hfield hkind
    have hnone : ∀ field ∈ choiceMessage.fields, field.kind.refersToEnum = false := by decide
    rw [hnone field hfield] at hkind
    cases hkind
  fast := by
    rintro _ _ ⟨rfl, rfl⟩ fast hfast
    cases hfast
    rfl

/-- The members `a = 5`, `b = ""`, an `a` with the wire type of a string and `a = 7`: the last integer
wins. -/
theorem decodeMessage_oneof_choice :
    let value := instanceOf 0 (choiceWorld.descriptor 0)
      [.int 7, .pyNone, .list [], .dict []] [0x0a, 0]
    decodeMessage choiceWorld 1 0 0 [0x08, 5, 0x12, 0, 0x0a, 0, 0x08, 7] = .ok value ∧
      ∃ below segs, 1 = below + 1 ∧
        Split Reader.readSegment [0x08, 5, 0x12, 0, 0x0a, 0, 0x08, 7] segs ∧
        ∀ group, GroupOutcome choiceWorld (decodeMessage choiceWorld below)
          (choiceWorld.descriptor 0) value group segs := by
  intro value
  have hdecode : decodeMessage choiceWorld 1 0 0 [0x08, 5, 0x12, 0, 0x0a, 0, 0x08, 7]
      = .ok value := by rfl
  obtain ⟨below, segs, hlevels, hsplit, hgroups, -⟩ :=
    decodeMessage_oneof family_choiceWorld ⟨rfl, rfl⟩ hdecode
  exact ⟨hdecode, below, segs, hlevels, hsplit, hgroups⟩

end FastProto
