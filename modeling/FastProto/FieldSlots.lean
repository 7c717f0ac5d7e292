import FastProto.DecodeRecords

/-! # What a run of segments leaves in the slots

The loop of `decode_message` keeps one slot per field and a table of the occupied oneof groups. Here
the whole state after a run of segments is given in closed form. A repeated field holds the elements
of its segments in order and a map their entries. Every other field contends: the members of a oneof
group with each other, any other field with itself alone. The slot of the field that claimed last
holds the value of that claim, and the other contenders have no value. -/

namespace FastProto

open Lib Lib.Cursor

/-! ## Claims -/

/-- The oneof group in which a field excludes others: only fields with explicit presence take part. -/
def FieldDescriptor.group (field : FieldDescriptor) : Option UInt32 :=
  if field.label = .optional then field.oneofIndex else none

/-- What a field contends for: its group, or a place of its own. -/
inductive Contest where
  | group (group : UInt32)
  | alone (idx : Nat)
  deriving DecidableEq, Repr

/-- The contest of the field at an index. -/
def FieldDescriptor.contest (field : FieldDescriptor) (idx : Nat) : Contest :=
  match field.group with
  | some group => .group group
  | none => .alone idx

/-- A segment that a field takes: the index of the field, the field and the payload. -/
structure Claim where
  idx : Nat
  field : FieldDescriptor
  payload : Payload

/-- The claim a segment makes in a contest. -/
def Descriptor.claim (desc : Descriptor) (contest : Contest) (seg : Segment) : Option Claim :=
  match desc.target seg.number seg.payload.wire with
  | some (idx, field) =>
      if field.contest idx = contest then some ⟨idx, field, seg.payload⟩ else none
  | none => none

/-- The claims of a run in a contest, in order. -/
def Descriptor.claims (desc : Descriptor) (contest : Contest) (segs : List Segment) : List Claim :=
  segs.filterMap (desc.claim contest)

/-- The payloads a run has for the field at an index. -/
def Descriptor.payloads (desc : Descriptor) (idx : Nat) (segs : List Segment) : List Payload :=
  segs.filterMap fun seg =>
    match desc.target seg.number seg.payload.wire with
    | some (i, _) => if i = idx then some seg.payload else none
    | none => none

/-- The bytes a run leaves as unknown. -/
def Descriptor.leftover (desc : Descriptor) (segs : List Segment) : Bytes :=
  segs.flatMap fun seg => if (desc.target seg.number seg.payload.wire).isSome then [] else seg.raw

@[simp] theorem Descriptor.claims_append (desc : Descriptor) (contest : Contest)
    (xs ys : List Segment) :
    desc.claims contest (xs ++ ys) = desc.claims contest xs ++ desc.claims contest ys :=
  List.filterMap_append

@[simp] theorem Descriptor.payloads_append (desc : Descriptor) (idx : Nat) (xs ys : List Segment) :
    desc.payloads idx (xs ++ ys) = desc.payloads idx xs ++ desc.payloads idx ys :=
  List.filterMap_append

@[simp] theorem Descriptor.leftover_append (desc : Descriptor) (xs ys : List Segment) :
    desc.leftover (xs ++ ys) = desc.leftover xs ++ desc.leftover ys :=
  List.flatMap_append

section Single

variable {desc : Descriptor} {seg : Segment} {idx : Nat} {field : FieldDescriptor}

/-- A segment no field takes claims nothing. -/
theorem Descriptor.claims_of_none (h : desc.target seg.number seg.payload.wire = none)
    (contest : Contest) : desc.claims contest [seg] = [] := by
  simp [claims, claim, h]

/-- A segment claims in the contest of its field. -/
theorem Descriptor.claims_of_some (h : desc.target seg.number seg.payload.wire = some (idx, field))
    (contest : Contest) : desc.claims contest [seg]
      = if field.contest idx = contest then [⟨idx, field, seg.payload⟩] else [] := by
  simp only [claims, List.filterMap_cons, List.filterMap_nil, claim, h]
  split <;> simp_all

/-- A segment no field takes has a payload for none. -/
theorem Descriptor.payloads_of_none (h : desc.target seg.number seg.payload.wire = none) (i : Nat) :
    desc.payloads i [seg] = [] := by
  simp [payloads, h]

/-- A segment has its payload for its field. -/
theorem Descriptor.payloads_of_some
    (h : desc.target seg.number seg.payload.wire = some (idx, field)) (i : Nat) :
    desc.payloads i [seg] = if idx = i then [seg.payload] else [] := by
  simp only [payloads, List.filterMap_cons, List.filterMap_nil, h]
  split <;> simp_all

/-- Every claim is made by a field of the descriptor in its own contest, on a wire type it takes. -/
theorem Descriptor.mem_claims {contest : Contest} {segs : List Segment} {c : Claim}
    (h : c ∈ desc.claims contest segs) : desc.inner.fields[c.idx]? = some c.field ∧
      c.field.contest c.idx = contest ∧ c.field.accepts c.payload.wire = true := by
  obtain ⟨seg, -, hclaim⟩ := List.mem_filterMap.mp h
  unfold claim at hclaim
  split at hclaim
  · rename_i idx field htarget
    split at hclaim
    · rename_i hcontest
      cases hclaim
      obtain ⟨hfield, hacc⟩ := target_eq_some htarget
      exact ⟨hfield, hcontest, hacc⟩
    · cases hclaim
  · cases hclaim

end Single

/-! ## Slots -/

section Slots

variable (w : World) (nested : NestedDecoder) (desc : Descriptor)

/-- The value of a claim. -/
def Claim.value (c : Claim) : PyResult PyVal :=
  valueOfPayload w nested c.field.kind (desc.ref c.field.number) c.payload

/-- The slot of a contending field: the value of the last claim, if it is its own. -/
def contendedSlot (idx : Nat) (field : FieldDescriptor) (segs : List Segment) : Option PyVal :=
  (desc.claims (field.contest idx) segs).getLast?.bind fun c =>
    if c.idx = idx then (c.value w nested desc).toOption else none

/-- The elements a payload adds to a repeated field. -/
def elementsOf (field : FieldDescriptor) (payload : Payload) : List PyVal :=
  (repeatedOfPayload w nested field.kind (desc.ref field.number) payload []).toOption.getD []

/-- The entry a payload puts into a map field. -/
def entryOf (field : FieldDescriptor) (payload : Payload) : Option (PyVal × PyVal) :=
  match field.kind, payload with
  | .map key value, .len entry =>
      (decodeMapEntry w nested key value (desc.ref field.number) entry).toOption
  | _, _ => none

/-- `dict.update` with entries in order. -/
def dictUpdate (items entries : List (PyVal × PyVal)) : List (PyVal × PyVal) :=
  entries.foldl (fun items entry => dictSet items entry.1 entry.2) items

/-- **The slot of a field after a run of segments.** -/
def slotAfter (idx : Nat) (field : FieldDescriptor) (segs : List Segment) : Option PyVal :=
  if field.kind.isMap then
    some (.dict (dictUpdate [] ((desc.payloads idx segs).filterMap (entryOf w nested desc field))))
  else if field.label = .repeated then
    some (.list ((desc.payloads idx segs).flatMap (elementsOf w nested desc field)))
  else contendedSlot w nested desc idx field segs

/-- The owner of a oneof group after a run of segments. -/
def ownerAfter (group : UInt32) (segs : List Segment) : Option Nat :=
  (desc.claims (.group group) segs).getLast?.map Claim.idx

/-- **The state of the decoder after a run of segments**, in closed form. -/
structure DecodeState.After (segs : List Segment) (st : DecodeState) : Prop where
  length : st.values.length = desc.inner.fields.length
  slots : ∀ (idx : Nat) (field : FieldDescriptor), desc.inner.fields[idx]? = some field →
    st.values[idx]? = some (slotAfter w nested desc idx field segs)
  unknown : st.unknown = desc.leftover segs
  owners : ∀ group, st.oneofOwner.lookup group = ownerAfter desc group segs
  /-- The claims made so far have values. -/
  values : ∀ contest, ∀ c ∈ desc.claims contest segs, c.field.kind.isMap = false →
    c.field.label ≠ .repeated → ∃ value, c.value w nested desc = .ok value

end Slots

/-! ## Contests -/

section Contests

variable {field field' : FieldDescriptor} {idx i : Nat}

/-- A field without explicit presence contends with itself alone. -/
theorem FieldDescriptor.group_of_label (h : field.label ≠ .optional) : field.group = none :=
  if_neg h

/-- A field in no group contends with itself alone. -/
theorem FieldDescriptor.contest_of_none (h : field.group = none) (idx : Nat) :
    field.contest idx = .alone idx := by
  rw [contest, h]

/-- The members of a group contend for it. -/
theorem FieldDescriptor.contest_of_some {group : UInt32} (h : field.group = some group) (idx : Nat) :
    field.contest idx = .group group := by
  rw [contest, h]

/-- Contending for a group is being in it. -/
theorem FieldDescriptor.contest_eq_group {group : UInt32} :
    field.contest idx = .group group ↔ field.group = some group := by
  unfold contest
  split <;> simp_all

/-- Two fields that contend for a place of their own are at the same index. -/
theorem FieldDescriptor.contest_ne_alone (h : i ≠ idx) : field'.contest i ≠ .alone idx := by
  unfold contest
  split
  · exact fun h => nomatch h
  · exact fun heq => h (Contest.alone.inj heq)

/-- A field in no group claims nothing. -/
theorem DecodeState.claimOneof_of_none (st : DecodeState) (h : field.group = none) (idx : Nat) :
    st.claimOneof field idx = st := by
  unfold FieldDescriptor.group at h
  by_cases hlabel : field.label = .optional
  · rw [if_pos hlabel] at h
    unfold claimOneof
    rw [h]
  · exact claimOneof_of_label idx hlabel

/-- A member of a group clears the owner of the group and owns it. -/
theorem DecodeState.claimOneof_of_some (st : DecodeState) {group : UInt32}
    (h : field.group = some group) (idx : Nat) :
    st.claimOneof field idx =
      { st with
        values :=
          match st.oneofOwner.lookup group with
          | some prev => if prev ≠ idx then st.values.set prev none else st.values
          | none => st.values
        oneofOwner := (group, idx) :: st.oneofOwner } := by
  unfold FieldDescriptor.group at h
  by_cases hlabel : field.label = .optional
  · rw [if_pos hlabel] at h
    unfold claimOneof
    split
    · rename_i heq _
      rw [h] at heq
      cases heq
      rfl
    · rename_i hnot
      exact absurd hlabel (hnot group h)
  · rw [if_neg hlabel] at h
    cases h

end Contests

/-! ## One more segment -/

section Step

variable {w : World} {nested : NestedDecoder} {desc : Descriptor}

/-- A payload adds its elements to the list there is. -/
theorem repeatedOfPayload_append {kind : FieldKind} {linked : Option LinkedRef} (payload : Payload)
    (items : List PyVal) :
    repeatedOfPayload w nested kind linked payload items
      = repeatedOfPayload w nested kind linked payload [] >>= fun new => .ok (items ++ new) := by
  have hstep : ∀ payload : Payload, packedStep w nested kind linked items payload
      = packedStep w nested kind linked [] payload >>= fun new => .ok (items ++ new) := by
    intro payload
    simp only [packedStep, bind_assoc, ok_bind, List.nil_append]
  have hbody : ∀ list : List PyVal, packedBody w nested kind linked (items ++ list)
      = packedBody w nested kind linked list >>= fun list => pure (items ++ list) := by
    intro list
    simp only [packedBody, bind_assoc, pure_bind, List.append_assoc]
  cases payload with
  | len chunk =>
      simp only [repeatedOfPayload]
      split
      · have hdrain := drain_map (items ++ ·) hbody
          ((Reader.new chunk).buf.length - (Reader.new chunk).pos) [] (Reader.new chunk)
        rwa [List.append_nil] at hdrain
      · exact hstep (.len chunk)
  | varint v => exact hstep (.varint v)
  | i64 bits => exact hstep (.i64 bits)
  | i32 bits => exact hstep (.i32 bits)

/-- Before the first segment the slots are the accumulators. -/
theorem DecodeState.after_nil :
    (DecodeState.init desc.inner.fields).After w nested desc [] where
  length := by simp [init]
  slots idx field hfield := by
    have hmap := List.getElem?_map (f := accumulator) (l := desc.inner.fields) (i := idx)
    rw [init, hmap, hfield, Option.map_some]
    unfold slotAfter accumulator
    cases hk : field.kind with
    | map key value => rfl
    | _ =>
        by_cases hlabel : field.label = .repeated
        · simp [hlabel, FieldKind.isMap, Descriptor.payloads]
        · simp [hlabel, FieldKind.isMap, contendedSlot, Descriptor.claims]
  unknown := rfl
  owners group := rfl
  values contest c hc := nomatch hc

/-- A segment no field takes is kept. -/
theorem DecodeState.After.keep {segs : List Segment} {st : DecodeState}
    (h : st.After w nested desc segs) {seg : Segment}
    (htarget : desc.target seg.number seg.payload.wire = none) :
    (st.keep seg.raw).After w nested desc (segs ++ [seg]) where
  length := h.length
  slots idx field hfield := by
    rw [keep_values, h.slots idx field hfield]
    unfold slotAfter contendedSlot
    rw [Descriptor.payloads_append, Descriptor.payloads_of_none htarget, Descriptor.claims_append,
      Descriptor.claims_of_none htarget, List.append_nil, List.append_nil]
  unknown := by
    rw [keep_unknown, h.unknown, Descriptor.leftover_append]
    simp [Descriptor.leftover, htarget]
  owners group := by
    rw [keep_oneofOwner, h.owners]
    unfold ownerAfter
    rw [Descriptor.claims_append, Descriptor.claims_of_none htarget, List.append_nil]
  values contest c hc := by
    rw [Descriptor.claims_append, Descriptor.claims_of_none htarget, List.append_nil] at hc
    exact h.values contest c hc

/-- The slots of the other fields do not see a segment that does not claim in their contest. -/
theorem slotAfter_other {segs : List Segment} {seg : Segment} {idx i : Nat}
    {field field' : FieldDescriptor}
    (htarget : desc.target seg.number seg.payload.wire = some (idx, field)) (hne : i ≠ idx)
    (hcontest : field.contest idx ≠ field'.contest i) :
    slotAfter w nested desc i field' (segs ++ [seg]) = slotAfter w nested desc i field' segs := by
  unfold slotAfter contendedSlot
  rw [Descriptor.payloads_append, Descriptor.payloads_of_some htarget, if_neg hne.symm,
    Descriptor.claims_append, Descriptor.claims_of_some htarget, if_neg hcontest, List.append_nil,
    List.append_nil]

/-- A member of a group is no map and has explicit presence. -/
theorem not_collection_of_group (hshaped : desc.inner.Shaped) {idx : Nat} {field : FieldDescriptor}
    (hfield : desc.inner.fields[idx]? = some field) {group : UInt32}
    (hgroup : field.group = some group) : field.kind.isMap = false ∧ field.label = .optional := by
  have hlabel : field.label = .optional := by
    by_contra hlabel
    rw [FieldDescriptor.group_of_label hlabel] at hgroup
    cases hgroup
  refine ⟨?_, hlabel⟩
  by_contra hmap
  obtain ⟨key, value, hkind⟩ := FieldKind.isMap_iff.mp (by simpa using hmap)
  have hsingle := ((hshaped field (List.mem_of_getElem? hfield)).map_single key value hkind).1
  rw [hlabel] at hsingle
  cases hsingle

/-- The slot of a member of a group is contended for. -/
theorem slotAfter_of_group (hshaped : desc.inner.Shaped) {idx : Nat} {field : FieldDescriptor}
    (hfield : desc.inner.fields[idx]? = some field) {group : UInt32}
    (hgroup : field.group = some group) (segs : List Segment) :
    slotAfter w nested desc idx field segs = contendedSlot w nested desc idx field segs := by
  obtain ⟨hmap, hlabel⟩ := not_collection_of_group hshaped hfield hgroup
  rw [slotAfter, if_neg (by rw [hmap]; decide), if_neg (by rw [hlabel]; decide)]

/-- A claim in a group has a value. -/
theorem DecodeState.After.values_of_group (hshaped : desc.inner.Shaped) {segs : List Segment}
    {st : DecodeState} (h : st.After w nested desc segs) {group : UInt32} {c : Claim}
    (hc : c ∈ desc.claims (.group group) segs) : ∃ value, c.value w nested desc = .ok value := by
  obtain ⟨hfield, hcontest, -⟩ := Descriptor.mem_claims hc
  obtain ⟨hmap, hlabel⟩ := not_collection_of_group hshaped hfield
    (FieldDescriptor.contest_eq_group.mp hcontest)
  exact h.values _ c hc hmap (by rw [hlabel]; decide)

/-- Clearing the owner of a group leaves no value in it, and touches no other contest. -/
theorem DecodeState.After.claimOneof_values (hshaped : desc.inner.Shaped) {segs : List Segment} {st : DecodeState}
    (h : st.After w nested desc segs) {idx i : Nat} {field field' : FieldDescriptor}
    (hfield' : desc.inner.fields[i]? = some field') (hne : i ≠ idx) :
    (st.claimOneof field idx).values[i]? =
      if field'.contest i = field.contest idx then some none else st.values[i]? := by
  cases hgroup : field.group with
  | none =>
      rw [st.claimOneof_of_none hgroup, FieldDescriptor.contest_of_none hgroup,
        if_neg (FieldDescriptor.contest_ne_alone hne)]
  | some group =>
      rw [st.claimOneof_of_some hgroup, FieldDescriptor.contest_of_some hgroup]
      dsimp only
      rw [h.owners]
      have hslot := h.slots i field' hfield'
      have hi : i < st.values.length := (List.getElem?_eq_some_iff.mp hslot).1
      by_cases hmember : field'.contest i = .group group
      · -- the slot of another member holds nothing, unless it is the one that is cleared
        rw [if_pos hmember]
        rw [slotAfter_of_group hshaped hfield' (FieldDescriptor.contest_eq_group.mp hmember),
          contendedSlot, hmember] at hslot
        unfold ownerAfter
        cases hlast : (desc.claims (.group group) segs).getLast? with
        | none =>
            rw [hlast] at hslot
            exact hslot
        | some c =>
            rw [hlast, Option.bind_some] at hslot
            rw [Option.map_some]
            dsimp only
            by_cases hown : c.idx = i
            · rw [if_pos (by rw [hown]; exact hne), hown, List.getElem?_set_self hi]
            · rw [if_neg hown] at hslot
              split
              · rw [List.getElem?_set_ne hown, hslot]
              · exact hslot
      · rw [if_neg hmember]
        unfold ownerAfter
        cases hlast : (desc.claims (.group group) segs).getLast? with
        | none => rfl
        | some c =>
            rw [Option.map_some]
            dsimp only
            have hprev : i ≠ c.idx := by
              rintro rfl
              obtain ⟨hfield, hcontest, -⟩ := Descriptor.mem_claims (List.mem_of_getLast? hlast)
              rw [hfield'] at hfield
              cases hfield
              exact hmember hcontest
            split
            · rw [List.getElem?_set_ne hprev.symm]
            · rfl

/-- A payload for a list or a map goes into the slot of its field. -/
theorem DecodeState.After.collect {segs : List Segment} {st : DecodeState}
    (h : st.After w nested desc segs) {seg : Segment} {idx : Nat} {field : FieldDescriptor}
    (htarget : desc.target seg.number seg.payload.wire = some (idx, field))
    (hlabel : field.label ≠ .optional)
    (hcol : field.kind.isMap = true ∨ field.label = .repeated) {value : PyVal}
    (hvalue : some value = slotAfter w nested desc idx field (segs ++ [seg])) :
    (st.store idx value).After w nested desc (segs ++ [seg]) := by
  obtain ⟨hfield, -⟩ := Descriptor.target_eq_some htarget
  have hnone := FieldDescriptor.group_of_label hlabel
  have hcontest := FieldDescriptor.contest_of_none hnone idx
  have hidx : idx < st.values.length := by
    rw [h.length]
    exact (List.getElem?_eq_some_iff.mp hfield).1
  refine ⟨by rw [store_values, List.length_set, h.length], fun i field' hfield' => ?_, ?_,
    fun group => ?_, fun contest c hc hmap hrep => ?_⟩
  · rw [store_values]
    by_cases hi : i = idx
    · subst hi
      rw [hfield] at hfield'
      cases hfield'
      rw [List.getElem?_set_self hidx, hvalue]
    · rw [List.getElem?_set_ne (Ne.symm hi), h.slots i field' hfield',
        slotAfter_other htarget hi (by rw [hcontest]; exact (FieldDescriptor.contest_ne_alone hi).symm)]
  · rw [store_unknown, h.unknown, Descriptor.leftover_append]
    simp [Descriptor.leftover, htarget]
  · have hother : ¬ Contest.alone idx = .group group := fun heq => nomatch heq
    rw [store_oneofOwner, h.owners]
    unfold ownerAfter
    rw [Descriptor.claims_append, Descriptor.claims_of_some htarget, hcontest, if_neg hother,
      List.append_nil]
  · rw [Descriptor.claims_append, Descriptor.claims_of_some htarget] at hc
    rcases List.mem_append.mp hc with hc | hc
    · exact h.values contest c hc hmap hrep
    · split at hc
      · rw [List.mem_singleton] at hc
        subst hc
        rcases hcol with hcol | hcol
        · exact absurd (hcol.symm.trans hmap) (by decide)
        · exact absurd hcol hrep
      · cases hc

/-- A payload for any other field wins its contest. -/
theorem DecodeState.After.claim (hshaped : desc.inner.Shaped) {segs : List Segment}
    {st : DecodeState} (h : st.After w nested desc segs) {seg : Segment} {idx : Nat}
    {field : FieldDescriptor}
    (htarget : desc.target seg.number seg.payload.wire = some (idx, field))
    (hmap : field.kind.isMap = false) (hrep : field.label ≠ .repeated) {value : PyVal}
    (hvalue : valueOfPayload w nested field.kind (desc.ref field.number) seg.payload = .ok value) :
    ((st.claimOneof field idx).store idx value).After w nested desc (segs ++ [seg]) := by
  obtain ⟨hfield, -⟩ := Descriptor.target_eq_some htarget
  have hidx : idx < (st.claimOneof field idx).values.length := by
    rw [claimOneof_length, h.length]
    exact (List.getElem?_eq_some_iff.mp hfield).1
  refine ⟨by rw [store_values, List.length_set, claimOneof_length, h.length],
    fun i field' hfield' => ?_, ?_, fun group => ?_, fun contest c hc hcmap hcrep => ?_⟩
  · rw [store_values]
    by_cases hi : i = idx
    · -- the claim is the last one of its contest
      subst hi
      rw [hfield] at hfield'
      cases hfield'
      have hwon : slotAfter w nested desc i field (segs ++ [seg]) = some value := by
        rw [slotAfter, if_neg (by rw [hmap]; decide), if_neg hrep, contendedSlot,
          Descriptor.claims_append, Descriptor.claims_of_some htarget, if_pos rfl,
          List.getLast?_concat, Option.bind_some, if_pos rfl, Claim.value, hvalue]
        rfl
      rw [List.getElem?_set_self hidx, hwon]
    · rw [List.getElem?_set_ne (Ne.symm hi), h.claimOneof_values hshaped hfield' hi]
      by_cases hcontest : field'.contest i = field.contest idx
      · -- another contender has lost to it
        have hgroup : ∃ group, field'.group = some group := by
          cases hgroup : field'.group with
          | none =>
              rw [FieldDescriptor.contest_of_none hgroup] at hcontest
              exact absurd hcontest.symm (FieldDescriptor.contest_ne_alone (Ne.symm hi))
          | some group => exact ⟨group, rfl⟩
        obtain ⟨group, hgroup⟩ := hgroup
        rw [if_pos hcontest, slotAfter_of_group hshaped hfield' hgroup, contendedSlot, hcontest,
          Descriptor.claims_append, Descriptor.claims_of_some htarget, if_pos rfl,
          List.getLast?_concat, Option.bind_some, if_neg (Ne.symm hi)]
      · rw [if_neg hcontest, h.slots i field' hfield',
          slotAfter_other htarget hi (Ne.symm hcontest)]
  · rw [store_unknown, claimOneof_unknown, h.unknown, Descriptor.leftover_append]
    simp [Descriptor.leftover, htarget]
  · rw [store_oneofOwner]
    unfold ownerAfter
    rw [Descriptor.claims_append, Descriptor.claims_of_some htarget]
    cases hown : field.group with
    | none =>
        have hother : ¬ Contest.alone idx = .group group := fun heq => nomatch heq
        rw [st.claimOneof_of_none hown, FieldDescriptor.contest_of_none hown, if_neg hother,
          List.append_nil]
        exact h.owners group
    | some own =>
        rw [st.claimOneof_of_some hown, FieldDescriptor.contest_of_some hown]
        dsimp only
        by_cases hsame : group = own
        · rw [hsame, List.lookup_cons_self, if_pos rfl, List.getLast?_concat, Option.map_some]
        · have hbeq : (group == own) = false := by simpa using hsame
          rw [List.lookup_cons, hbeq, if_neg fun heq => hsame (Contest.group.inj heq).symm,
            List.append_nil]
          exact h.owners group
  · rw [Descriptor.claims_append, Descriptor.claims_of_some htarget] at hc
    rcases List.mem_append.mp hc with hc | hc
    · exact h.values contest c hc hcmap hcrep
    · split at hc
      · rw [List.mem_singleton] at hc
        subst hc
        exact ⟨value, hvalue⟩
      · cases hc

/-- **A step of the decoder extends the run by its segment.** -/
theorem targetStep_after (hshaped : desc.inner.Shaped) {segs : List Segment} {st st' : DecodeState}
    (h : st.After w nested desc segs) {seg : Segment}
    (hstep : targetStep w nested desc st seg = .ok st') :
    st'.After w nested desc (segs ++ [seg]) := by
  unfold targetStep at hstep
  cases htarget : desc.target seg.number seg.payload.wire with
  | none =>
      rw [htarget] at hstep
      cases hstep
      exact h.keep htarget
  | some found =>
      obtain ⟨idx, field⟩ := found
      rw [htarget] at hstep
      dsimp only at hstep
      obtain ⟨hfield, hacc⟩ := Descriptor.target_eq_some htarget
      have hshape := hshaped field (List.mem_of_getElem? hfield)
      have hslot := h.slots idx field hfield
      by_cases hmap : field.kind.isMap = true
      · -- an entry goes into the dict of a map
        obtain ⟨key, value, hkind⟩ := FieldKind.isMap_iff.mp hmap
        obtain ⟨entry, hpayload⟩ := payload_of_map_accepts hshape hkind hacc
        have hlabel : field.label ≠ .optional := by
          rw [(hshape.map_single key value hkind).1]
          decide
        have hclaim := @DecodeState.claimOneof_of_label st field idx hlabel
        rw [slotAfter, if_pos hmap, ← hclaim] at hslot
        rw [hpayload, fieldStep_map w nested hkind entry hslot, hclaim] at hstep
        obtain ⟨⟨k, v⟩, hentry, hstore⟩ := bind_eq_ok.mp hstep
        cases hstore
        refine h.collect htarget hlabel (.inl hmap) ?_
        rw [slotAfter, if_pos hmap, Descriptor.payloads_append, Descriptor.payloads_of_some htarget,
          if_pos rfl, hpayload, List.filterMap_append, dictUpdate, dictUpdate, List.foldl_append]
        simp [entryOf, hkind, hentry, Except.toOption]
      · have hnot : field.kind.isMap = false := by simpa using hmap
        by_cases hlabel : field.label = .repeated
        · -- elements go to the end of the list of a repeated field
          have hlabel' : field.label ≠ .optional := by
            rw [hlabel]
            decide
          have hclaim := @DecodeState.claimOneof_of_label st field idx hlabel'
          rw [slotAfter, if_neg hmap, if_pos hlabel, ← hclaim] at hslot
          rw [fieldStep_repeated w nested hnot hlabel _ hslot, repeatedOfPayload_append, hclaim,
            bind_assoc] at hstep
          obtain ⟨new, hnew, hstore⟩ := bind_eq_ok.mp hstep
          cases hstore
          refine h.collect htarget hlabel' (.inr hlabel) ?_
          rw [slotAfter, if_neg hmap, if_pos hlabel, Descriptor.payloads_append,
            Descriptor.payloads_of_some htarget, if_pos rfl, List.flatMap_append]
          simp [elementsOf, hnew, Except.toOption]
        · rw [fieldStep_singular w nested hnot hlabel] at hstep
          obtain ⟨value, hvalue, hstore⟩ := bind_eq_ok.mp hstep
          cases hstore
          exact h.claim hshaped htarget hnot hlabel hvalue

/-- **The state after a run of segments.** -/
theorem foldlM_after (hshaped : desc.inner.Shaped) {segs : List Segment} :
    ∀ {st : DecodeState}, segs.foldlM (targetStep w nested desc) (DecodeState.init desc.inner.fields)
      = .ok st → st.After w nested desc segs := by
  induction segs using List.reverseRecOn with
  | nil =>
      intro st h
      cases h
      exact DecodeState.after_nil
  | append_singleton segs seg ih =>
      intro st h
      rw [List.foldlM_append] at h
      obtain ⟨mid, hmid, h⟩ := bind_eq_ok.mp h
      rw [List.foldlM_cons] at h
      obtain ⟨st', hstep, h⟩ := bind_eq_ok.mp h
      cases h
      exact targetStep_after hshaped (ih hmid) hstep

end Step

end FastProto
