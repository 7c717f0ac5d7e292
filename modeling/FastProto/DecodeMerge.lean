import FastProto.FieldSlots
import FastProto.DecodeConforms

/-! # Decoding a concatenation

Protobuf decoding turns concatenation into a last-wins merge. The state the loop of `decode_message`
leaves on `xs ++ ys` is a function of the states it leaves on `xs` and on `ys`: nothing but the slots
and the unknown bytes has to be carried over the seam, although the loop also keeps a table of the
occupied oneof groups. -/

namespace FastProto

open Lib Lib.Cursor

/-! ## Keys of dicts -/

/-- Two floats are equal keys when neither is a NaN and they are the same or both zero. -/
theorem keyEq_float {a b : UInt64} : keyEq (.float a) (.float b) = true ↔
    ((!isNanBits a) = true ∧ (!isNanBits b) = true) ∧
      (a = b ∨ a.toNat % 2 ^ 63 = 0 ∧ b.toNat % 2 ^ 63 = 0) := by
  simp only [keyEq, Bool.and_eq_true, Bool.or_eq_true, beq_iff_eq]

/-- Equality of dict keys is symmetric. -/
theorem keyEq_symm (a b : PyVal) (h : keyEq a b = true) : keyEq b a = true := by
  unfold keyEq at h
  split at h
  case h_5 a b =>
    obtain ⟨⟨ha, hb⟩, heq⟩ := keyEq_float.mp h
    exact keyEq_float.mpr ⟨⟨hb, ha⟩, heq.imp Eq.symm And.symm⟩
  case h_6 => cases h
  all_goals
    rw [beq_iff_eq] at h
    subst h
    exact beq_self_eq_true _

/-- Equality of dict keys is transitive. -/
theorem keyEq_trans (a b c : PyVal) (hab : keyEq a b = true) (hbc : keyEq b c = true) :
    keyEq a c = true := by
  unfold keyEq at hab
  split at hab
  case h_5 a b =>
    obtain ⟨⟨ha, -⟩, heq | ⟨hza, hzb⟩⟩ := keyEq_float.mp hab
    · rw [heq]
      exact hbc
    · -- two zeros: the third key is a zero too
      cases c with
      | float c =>
          obtain ⟨⟨-, hc⟩, heq | ⟨-, hzc⟩⟩ := keyEq_float.mp hbc
          · exact keyEq_float.mpr ⟨⟨ha, hc⟩, .inr ⟨hza, heq ▸ hzb⟩⟩
          · exact keyEq_float.mpr ⟨⟨ha, hc⟩, .inr ⟨hza, hzc⟩⟩
      | _ => cases hbc
  case h_6 => cases hab
  all_goals
    rw [beq_iff_eq] at hab
    subst hab
    exact hbc

/-- **Updating a dict with entries is updating it with the dict they make.** -/
theorem dictUpdate_collect (items entries : List (PyVal × PyVal)) :
    dictUpdate items (dictUpdate [] entries) = dictUpdate items entries :=
  foldl_upsertBy_collect keyEq_symm keyEq_trans items entries

/-! ## The merge of two states -/

/-- Whether a member of the group has a value. -/
def groupSet (fields : List FieldDescriptor) (values : List (Option PyVal)) (group : UInt32) : Bool :=
  (fields.zip values).any fun p => decide (p.1.group = some group) && p.2.isSome

/-- `list` of the second run after the one of the first. -/
def mergeList : Option PyVal → Option PyVal → Option PyVal
  | some (.list xs), some (.list ys) => some (.list (xs ++ ys))
  | x, _ => x

/-- `dict` of the first run updated with the entries of the second. -/
def mergeDict : Option PyVal → Option PyVal → Option PyVal
  | some (.dict xs), some (.dict ys) => some (.dict (dictUpdate xs ys))
  | x, _ => x

/-- **The merge of the slots `x` and `y` of a field**, `ys` being all slots of the second run. A
singular slot takes the second value if there is one; otherwise it keeps the first one, unless the
second run set another member of the same oneof group. -/
def mergeSlot (fields : List FieldDescriptor) (ys : List (Option PyVal)) (field : FieldDescriptor)
    (x y : Option PyVal) : Option PyVal :=
  if field.kind.isMap then mergeDict x y
  else if field.label = .repeated then mergeList x y
  else if y.isSome then y
  else if field.group.any (groupSet fields ys) then none
  else x

/-- The merge of all slots. -/
def mergeValues (fields : List FieldDescriptor) (xs ys : List (Option PyVal)) :
    List (Option PyVal) :=
  (fields.zip (xs.zip ys)).map fun p => mergeSlot fields ys p.1 p.2.1 p.2.2

/-- A state is the merge of the states of two runs. -/
structure DecodeState.Merges (fields : List FieldDescriptor) (x y xy : DecodeState) : Prop where
  values : xy.values = mergeValues fields x.values y.values
  unknown : xy.unknown = x.unknown ++ y.unknown

/-! ## Slots of a concatenation -/

section Slots

variable {w : World} {nested : NestedDecoder} {desc : Descriptor}

/-- In a group nobody claimed nobody has a value. -/
theorem DecodeState.After.groupSet_of_nil (hshaped : desc.inner.Shaped) {segs : List Segment}
    {st : DecodeState} (h : st.After w nested desc segs) {group : UInt32}
    (hclaims : desc.claims (.group group) segs = []) :
    groupSet desc.inner.fields st.values group = false := by
  unfold groupSet
  rw [List.any_eq_false]
  rintro ⟨field, slot⟩ hp
  obtain ⟨idx, hidx⟩ := List.mem_iff_getElem?.mp hp
  obtain ⟨hfield, hslot⟩ := List.getElem?_zip_eq_some.mp hidx
  by_cases hgroup : field.group = some group
  · have hnone := h.slots idx field hfield
    rw [hslot, slotAfter_of_group hshaped hfield hgroup, contendedSlot,
      FieldDescriptor.contest_of_some hgroup, hclaims] at hnone
    cases hnone
    simp
  · simp [hgroup]

/-- The last claim of a group has a value, so the group is set. -/
theorem DecodeState.After.groupSet_of_last (hshaped : desc.inner.Shaped) {segs : List Segment}
    {st : DecodeState} (h : st.After w nested desc segs) {group : UInt32} {c : Claim}
    (hlast : (desc.claims (.group group) segs).getLast? = some c) :
    groupSet desc.inner.fields st.values group = true := by
  have hmem := List.mem_of_getLast? hlast
  obtain ⟨hfield, hcontest, -⟩ := Descriptor.mem_claims hmem
  have hgroup := FieldDescriptor.contest_eq_group.mp hcontest
  obtain ⟨value, hvalue⟩ := h.values_of_group hshaped hmem
  have hslot := h.slots c.idx c.field hfield
  rw [slotAfter_of_group hshaped hfield hgroup, contendedSlot, hcontest, hlast, Option.bind_some,
    if_pos rfl, hvalue] at hslot
  unfold groupSet
  rw [List.any_eq_true]
  refine ⟨(c.field, some value), List.mem_of_getElem? (List.getElem?_zip_eq_some.mpr
    ⟨hfield, hslot⟩), by simp [hgroup]⟩

/-- The slot of a contending field after two runs. -/
theorem DecodeState.After.contendedSlot_append (hshaped : desc.inner.Shaped)
    {xs ys : List Segment} {sy : DecodeState} (hy : sy.After w nested desc ys) {idx : Nat}
    {field : FieldDescriptor} (hfield : desc.inner.fields[idx]? = some field)
    (hmap : field.kind.isMap = false) (hlabel : field.label ≠ .repeated) :
    contendedSlot w nested desc idx field (xs ++ ys) =
      if (contendedSlot w nested desc idx field ys).isSome then
        contendedSlot w nested desc idx field ys
      else if field.group.any (groupSet desc.inner.fields sy.values) then none
      else contendedSlot w nested desc idx field xs := by
  unfold contendedSlot
  rw [Descriptor.claims_append, List.getLast?_append]
  cases hlast : (desc.claims (field.contest idx) ys).getLast? with
  | none =>
      -- the second run does not claim: the slot and the group stay as they were
      have hnil := List.getLast?_eq_none_iff.mp hlast
      have hunset : ¬ field.group.any (groupSet desc.inner.fields sy.values) = true := by
        cases hgroup : field.group with
        | none => simp
        | some group =>
            rw [FieldDescriptor.contest_of_some hgroup] at hnil
            simp [hy.groupSet_of_nil hshaped hnil]
      rw [Option.bind_none, Option.isSome_none, if_neg (by decide), if_neg hunset, Option.none_or]
  | some c =>
      rw [Option.some_or, Option.bind_some]
      by_cases hown : c.idx = idx
      · have hmem := List.mem_of_getLast? hlast
        obtain ⟨hcfield, -, -⟩ := Descriptor.mem_claims hmem
        rw [hown, hfield] at hcfield
        cases hcfield
        obtain ⟨value, hvalue⟩ := hy.values _ c hmem hmap hlabel
        rw [if_pos hown, hvalue]
        rfl
      · -- another member claimed last: the group is set
        have hset : field.group.any (groupSet desc.inner.fields sy.values) = true := by
          have hmem := List.mem_of_getLast? hlast
          obtain ⟨-, hcontest, -⟩ := Descriptor.mem_claims hmem
          cases hgroup : field.group with
          | none =>
              rw [FieldDescriptor.contest_of_none hgroup] at hcontest
              exact absurd hcontest (FieldDescriptor.contest_ne_alone hown)
          | some group =>
              rw [FieldDescriptor.contest_of_some hgroup] at hlast
              simp [hy.groupSet_of_last hshaped hlast]
        rw [if_neg hown, Option.isSome_none, if_neg (by decide), if_pos hset]

/-- **The slot of a field after two runs is the merge of its slots.** -/
theorem DecodeState.After.slotAfter_append (hshaped : desc.inner.Shaped) {xs ys : List Segment}
    {sy : DecodeState} (hy : sy.After w nested desc ys) {idx : Nat} {field : FieldDescriptor}
    (hfield : desc.inner.fields[idx]? = some field) :
    slotAfter w nested desc idx field (xs ++ ys) = mergeSlot desc.inner.fields sy.values field
      (slotAfter w nested desc idx field xs) (slotAfter w nested desc idx field ys) := by
  unfold slotAfter mergeSlot
  by_cases hmap : field.kind.isMap = true
  · simp only [if_pos hmap, mergeDict, Descriptor.payloads_append, List.filterMap_append,
      dictUpdate_collect]
    simp only [dictUpdate, List.foldl_append]
  · rw [if_neg hmap, if_neg hmap, if_neg hmap, if_neg hmap]
    by_cases hlabel : field.label = .repeated
    · simp only [if_pos hlabel, mergeList, Descriptor.payloads_append, List.flatMap_append]
    · simp only [if_neg hlabel]
      exact hy.contendedSlot_append hshaped hfield (by simpa using hmap) hlabel

/-- **The state after two runs is the merge of the states.** -/
theorem DecodeState.After.merges (hshaped : desc.inner.Shaped) {xs ys : List Segment}
    {sx sy sxy : DecodeState} (hx : sx.After w nested desc xs) (hy : sy.After w nested desc ys)
    (hxy : sxy.After w nested desc (xs ++ ys)) : sx.Merges desc.inner.fields sy sxy where
  values := by
    refine List.ext_getElem? fun idx => ?_
    unfold mergeValues
    rw [List.getElem?_map]
    cases hfield : desc.inner.fields[idx]? with
    | none =>
        have hlen := List.getElem?_eq_none_iff.mp hfield
        rw [List.getElem?_eq_none_iff.mpr (by rw [hxy.length]; exact hlen),
          List.getElem?_eq_none_iff.mpr (by rw [List.length_zip]; omega)]
        rfl
    | some field =>
        have hzip : (desc.inner.fields.zip (sx.values.zip sy.values))[idx]?
            = some (field, slotAfter w nested desc idx field xs,
                slotAfter w nested desc idx field ys) :=
          List.getElem?_zip_eq_some.mpr ⟨hfield, List.getElem?_zip_eq_some.mpr
            ⟨hx.slots idx field hfield, hy.slots idx field hfield⟩⟩
        rw [hzip, Option.map_some, hxy.slots idx field hfield, hy.slotAfter_append hshaped hfield]
  unknown := by rw [hxy.unknown, hx.unknown, hy.unknown, Descriptor.leftover_append]

/-! ## Acceptance does not depend on the slots -/

/-- A step that succeeds from one state succeeds from every other. -/
theorem targetStep_total (hshaped : desc.inner.Shaped) {s s' t : DecodeState}
    (hs : s.Ready desc.inner.fields) (ht : t.Ready desc.inner.fields) {seg : Segment}
    (h : targetStep w nested desc s seg = .ok s') :
    ∃ t', targetStep w nested desc t seg = .ok t' := by
  unfold targetStep at h ⊢
  cases htarget : desc.target seg.number seg.payload.wire with
  | none => exact ⟨_, rfl⟩
  | some found =>
      obtain ⟨idx, field⟩ := found
      rw [htarget] at h
      dsimp only at h ⊢
      obtain ⟨hfield, hacc⟩ := Descriptor.target_eq_some htarget
      have hsclaim := hs.claimOneof hshaped hfield
      have htclaim := ht.claimOneof hshaped hfield
      by_cases hmap : field.kind.isMap = true
      · obtain ⟨key, value, hkind⟩ := FieldKind.isMap_iff.mp hmap
        obtain ⟨entry, hpayload⟩ := payload_of_map_accepts
          (hshaped field (List.mem_of_getElem? hfield)) hkind hacc
        obtain ⟨items, hitems⟩ := hsclaim.dicts idx field hfield hmap
        obtain ⟨items', hitems'⟩ := htclaim.dicts idx field hfield hmap
        rw [hpayload, fieldStep_map w nested hkind entry hitems] at h
        rw [hpayload, fieldStep_map w nested hkind entry hitems']
        obtain ⟨⟨k, v⟩, hentry, -⟩ := bind_eq_ok.mp h
        exact ⟨_, by rw [hentry]; rfl⟩
      · have hnot : field.kind.isMap = false := by simpa using hmap
        by_cases hlabel : field.label = .repeated
        · obtain ⟨items, hitems⟩ := hsclaim.lists idx field hfield hnot hlabel
          obtain ⟨items', hitems'⟩ := htclaim.lists idx field hfield hnot hlabel
          rw [fieldStep_repeated w nested hnot hlabel _ hitems, repeatedOfPayload_append,
            bind_assoc] at h
          rw [fieldStep_repeated w nested hnot hlabel _ hitems', repeatedOfPayload_append,
            bind_assoc]
          obtain ⟨new, hnew, -⟩ := bind_eq_ok.mp h
          exact ⟨_, by rw [hnew]; rfl⟩
        · rw [fieldStep_singular w nested hnot hlabel] at h ⊢
          obtain ⟨value, hvalue, -⟩ := bind_eq_ok.mp h
          exact ⟨_, by rw [hvalue]; rfl⟩

/-- A run that succeeds from one state succeeds from every other. -/
theorem foldlM_total_of_ready (hshaped : desc.inner.Shaped) {segs : List Segment} :
    ∀ {s s' t : DecodeState}, s.Ready desc.inner.fields → t.Ready desc.inner.fields →
      segs.foldlM (targetStep w nested desc) s = .ok s' →
      ∃ t', segs.foldlM (targetStep w nested desc) t = .ok t' := by
  induction segs with
  | nil => exact fun _ _ _ => ⟨_, rfl⟩
  | cons seg segs ih =>
      intro s s' t hs ht h
      rw [List.foldlM_cons] at h
      obtain ⟨s₁, hstep, hrest⟩ := bind_eq_ok.mp h
      obtain ⟨t₁, hstep'⟩ := targetStep_total hshaped hs ht hstep
      obtain ⟨t', hrest'⟩ := ih (targetStep_keeps w nested hshaped s seg s₁ hs hstep)
        (targetStep_keeps w nested hshaped t seg t₁ ht hstep') hrest
      exact ⟨t', by rw [List.foldlM_cons, hstep', ok_bind, hrest']⟩

end Slots

/-! ## Messages -/

/-- The loop of `decode_message`: the state it leaves, before the instance is built. -/
def decodeFields (w : World) (levels : Nat) (descId : DescId) (data : Bytes) :
    PyResult DecodeState :=
  drainAll (decodeBody w (decodeMessage w levels) (w.descriptor descId))
    (DecodeState.init (w.descriptor descId).inner.fields) (Reader.new data)

/-- A message is decoded by its loop and its construction. -/
theorem decodeMessage_succ (w : World) (levels : Nat) (cls : ClassId) (descId : DescId)
    (data : Bytes) :
    decodeMessage w (levels + 1) cls descId data = decodeFields w levels descId data >>= fun st =>
      construct w cls (w.descriptor descId) st.values st.unknown := rfl

section Fields

variable {w : World} {levels : Nat} {descId : DescId}

/-- The loop succeeds iff the bytes split into segments that fold. -/
theorem decodeFields_eq_ok (hshaped : (w.descriptor descId).inner.Shaped) {data : Bytes}
    {st : DecodeState} : decodeFields w levels descId data = .ok st ↔
      ∃ segs, Split Reader.readSegment data segs ∧
        segs.foldlM (targetStep w (decodeMessage w levels) (w.descriptor descId))
          (DecodeState.init (w.descriptor descId).inner.fields) = .ok st :=
  drainAll_eq_ok_on Reader.framed_readSegment Reader.advances_readSegment
    (decodeBody_target w (decodeMessage w levels) hshaped)
    (targetStep_keeps w (decodeMessage w levels) hshaped) (DecodeState.ready_init _)

/-- What the loop leaves is ready. -/
theorem decodeFields_ready (hshaped : (w.descriptor descId).inner.Shaped) {data : Bytes}
    {st : DecodeState} (h : decodeFields w levels descId data = .ok st) :
    st.Ready (w.descriptor descId).inner.fields := by
  obtain ⟨segs, -, hfold⟩ := (decodeFields_eq_ok hshaped).mp h
  exact foldlM_invariant (·.Ready (w.descriptor descId).inner.fields)
    (fun s seg s' _ => targetStep_keeps w (decodeMessage w levels) hshaped s seg s') _ _
    (DecodeState.ready_init _) hfold

/-- **The loop turns concatenation into the merge of its states.** -/
theorem decodeFields_append (hshaped : (w.descriptor descId).inner.Shaped) {xs ys : Bytes}
    {sx sy : DecodeState} (hx : decodeFields w levels descId xs = .ok sx)
    (hy : decodeFields w levels descId ys = .ok sy) :
    ∃ sxy, decodeFields w levels descId (xs ++ ys) = .ok sxy ∧
      sx.Merges (w.descriptor descId).inner.fields sy sxy := by
  obtain ⟨segsx, hsplitx, hfoldx⟩ := (decodeFields_eq_ok hshaped).mp hx
  obtain ⟨segsy, hsplity, hfoldy⟩ := (decodeFields_eq_ok hshaped).mp hy
  obtain ⟨sxy, hrest⟩ := foldlM_total_of_ready hshaped (DecodeState.ready_init _)
    (decodeFields_ready hshaped hx) hfoldy
  have hfold : (segsx ++ segsy).foldlM
      (targetStep w (decodeMessage w levels) (w.descriptor descId))
      (DecodeState.init (w.descriptor descId).inner.fields) = .ok sxy := by
    rw [List.foldlM_append, hfoldx, ok_bind, hrest]
  exact ⟨sxy, (decodeFields_eq_ok hshaped).mpr ⟨_, hsplitx.append hsplity, hfold⟩,
    (foldlM_after hshaped hfoldx).merges hshaped (foldlM_after hshaped hfoldy)
      (foldlM_after hshaped hfold)⟩

end Fields

/-- Assignments a generated class takes, it takes with other values. -/
theorem GeneratedClass.assign_total {w : World} {cls : ClassId} {descId : DescId}
    (hgen : GeneratedClass w cls descId) {l l' : List (String × PyVal)} {attrs : Attrs}
    (h : (w.cls cls).assign [] l = .ok attrs) (hlen : l.length = l'.length)
    (hnames : ∀ name ∈ l'.map Prod.fst, name ∈ (w.descriptor descId).fieldNames) :
    ∃ attrs', (w.cls cls).assign [] l' = .ok attrs' := by
  obtain ⟨dc, hmro, -, hfields⟩ := hgen.dataclass
  by_cases hfrozen : dc.frozen = true
  · -- a frozen class fails on the first assignment, whatever the value is
    cases l with
    | nil =>
        obtain rfl := List.eq_nil_of_length_eq_zero hlen.symm
        exact ⟨[], rfl⟩
    | cons p l =>
        unfold PyClass.assign at h
        rw [List.foldlM_cons, setattr_dataclass hmro, if_pos hfrozen] at h
        cases h
  · exact ⟨_, assign_dataclass hmro (fun f hf => (params_generated hfields f hf).2) (by simpa using hfrozen)
      (by rw [names_generated hfields]; exact hnames) []⟩

/-- The fast path assigns fields of the message. -/
theorem map_fst_fastAttrs_subset {fields : List FieldDescriptor} {values : List (Option PyVal)}
    {defaults : List PyVal} :
    ∀ name ∈ (fastAttrs fields values defaults).map Prod.fst, name ∈ fields.map (·.name) := by
  intro name hname
  obtain ⟨p, hp, rfl⟩ := List.mem_map.mp hname
  obtain ⟨q, hq, rfl⟩ := List.mem_map.mp hp
  exact List.mem_map_of_mem (List.of_mem_zip (List.of_mem_zip hq).1).1

/-- A generated class whose instance was built from some state is built from every state. -/
theorem construct_total {w : World} {cls : ClassId} {descId : DescId}
    (hgen : GeneratedClass w cls descId) {values values' : List (Option PyVal)}
    {unknown unknown' : Bytes} {value : PyVal}
    (h : construct w cls (w.descriptor descId) values unknown = .ok value)
    (hvalues : values.length = (w.descriptor descId).inner.fields.length)
    (hlen : values'.length = (w.descriptor descId).inner.fields.length) :
    ∃ value', construct w cls (w.descriptor descId) values' unknown' = .ok value' := by
  have hgeneral := hgen.constructGeneral hlen unknown'
  unfold construct at h ⊢
  cases hfast : (w.descriptor descId).fastInit with
  | none => exact ⟨_, hgeneral⟩
  | some fast =>
      rw [hfast] at h
      dsimp only at h ⊢
      by_cases hcls : cls = fast.cls
      · rw [if_pos hcls] at h ⊢
        unfold constructFast at h ⊢
        obtain ⟨start, hnew, h⟩ := bind_eq_ok.mp h
        obtain ⟨attrs, hassign, -⟩ := bind_eq_ok.mp h
        rw [PyClass.objectNew, ← hcls, hgen.concrete, if_neg (by decide)] at hnew
        cases hnew
        rw [← hcls] at hassign ⊢
        have hsame : (fastAttrs (w.descriptor descId).inner.fields values fast.defaults).length
            = (fastAttrs (w.descriptor descId).inner.fields values' fast.defaults).length := by
          simp [fastAttrs, hvalues, hlen]
        obtain ⟨attrs', hassign'⟩ := hgen.assign_total hassign hsame map_fst_fastAttrs_subset
        rw [PyClass.objectNew, hgen.concrete, if_neg (by decide), ok_bind, hassign', ok_bind,
          hgen.setUnknown_inst]
        exact ⟨_, rfl⟩
      · rw [if_neg hcls]
        exact ⟨_, hgeneral⟩

/-- **Decoding a concatenation merges**: with `xs` and `ys` accepted at one depth, the loop accepts
`xs ++ ys` with the merge of the two states, and the instance is built from it. A generated class
takes every such state. -/
theorem decodeMessage_append {w : World} {levels : Nat} {cls : ClassId} {descId : DescId}
    (hparsed : ∃ bytes, parseMessage bytes = .ok (w.descriptor descId).inner) {xs ys : Bytes}
    {vx vy : PyVal} (hx : decodeMessage w (levels + 1) cls descId xs = .ok vx)
    (hy : decodeMessage w (levels + 1) cls descId ys = .ok vy) :
    ∃ sx sy sxy, decodeFields w levels descId xs = .ok sx ∧
      decodeFields w levels descId ys = .ok sy ∧
      decodeFields w levels descId (xs ++ ys) = .ok sxy ∧
      sx.Merges (w.descriptor descId).inner.fields sy sxy ∧
      decodeMessage w (levels + 1) cls descId (xs ++ ys)
        = construct w cls (w.descriptor descId) sxy.values sxy.unknown ∧
      (GeneratedClass w cls descId →
        ∃ vxy, decodeMessage w (levels + 1) cls descId (xs ++ ys) = .ok vxy) := by
  obtain ⟨bytes, hbytes⟩ := hparsed
  have hshaped : (w.descriptor descId).inner.Shaped := parseMessage_shaped hbytes
  rw [decodeMessage_succ] at hx hy
  obtain ⟨sx, hsx, hcx⟩ := bind_eq_ok.mp hx
  obtain ⟨sy, hsy, -⟩ := bind_eq_ok.mp hy
  obtain ⟨sxy, hsxy, hmerges⟩ := decodeFields_append hshaped hsx hsy
  have hdecode : decodeMessage w (levels + 1) cls descId (xs ++ ys)
      = construct w cls (w.descriptor descId) sxy.values sxy.unknown := by
    rw [decodeMessage_succ, hsxy, ok_bind]
  -- a generated class takes whatever slots are left; another may refuse the merged ones
  refine ⟨sx, sy, sxy, hsx, hsy, hsxy, hmerges, hdecode, fun hgen => ?_⟩
  rw [hdecode]
  exact construct_total hgen hcx (decodeFields_ready hshaped hsx).length
    (decodeFields_ready hshaped hsxy).length

/-! ## A message with a oneof, a list and a map -/

/-- The descriptor of
`message C { oneof choice { int32 a = 1; string b = 2; } repeated int32 r = 3;
map<string, int32> m = 4; }`. -/
def choiceBytes : Bytes :=
  [
    0x0a, 0x01, 0x43,
    0x12, 0x0b, 0x0a, 0x01, 0x61, 0x18, 0x01, 0x20, 0x01, 0x28, 0x05, 0x48, 0x00,
    0x12, 0x0b, 0x0a, 0x01, 0x62, 0x18, 0x02, 0x20, 0x01, 0x28, 0x09, 0x48, 0x00,
    0x12, 0x09, 0x0a, 0x01, 0x72, 0x18, 0x03, 0x20, 0x03, 0x28, 0x05,
    0x12, 0x14, 0x0a, 0x01, 0x6d, 0x18, 0x04, 0x20, 0x03, 0x28, 0x0b, 0x32, 0x09, 0x2e, 0x43,
    0x2e, 0x4d, 0x45, 0x6e, 0x74, 0x72, 0x79,
    0x1a, 0x28, 0x0a, 0x06, 0x4d, 0x45, 0x6e, 0x74, 0x72, 0x79, 0x12, 0x0b, 0x0a, 0x03, 0x6b,
    0x65, 0x79, 0x18, 0x01, 0x20, 0x01, 0x28, 0x09, 0x12, 0x0d, 0x0a, 0x05, 0x76, 0x61, 0x6c,
    0x75, 0x65, 0x18, 0x02, 0x20, 0x01, 0x28, 0x05, 0x3a, 0x02, 0x38, 0x01,
    0x42, 0x08, 0x0a, 0x06, 0x63, 0x68, 0x6f, 0x69, 0x63, 0x65]

/-- `C` as the parser returns it. -/
def choiceMessage : MessageDescriptor where
  name := "C"
  fields := [
    { number := 1, name := "a", kind := .scalar .int32, label := .optional, typeName := none,
      oneofIndex := some 0 },
    { number := 2, name := "b", kind := .scalar .string, label := .optional, typeName := none,
      oneofIndex := some 0 },
    { number := 3, name := "r", kind := .scalar .int32, label := .repeated, typeName := none,
      oneofIndex := none },
    { number := 4, name := "m", kind := .map .string (.scalar .int32), label := .single,
      typeName := none, oneofIndex := none }]
  oneofs := ["choice"]

/-- The dataclass generated for `C`. -/
def choiceClass : PyClass where
  mro := [{ dataclass := some { fields := [
    { name := "a", default := some .pyNone },
    { name := "b", default := some .pyNone },
    { name := "r", defaultFactory := some .list },
    { name := "m", defaultFactory := some .dict }] } }]
  fastproto := some 0

/-- The linked class. -/
def choiceWorld : World where
  cls _ := choiceClass
  descriptor _ :=
    { inner := choiceMessage
      refs := some []
      linked := true
      fastInit := some { cls := 0, defaults := [.pyNone, .pyNone, .pyNone, .pyNone] } }

/-- Two accepted messages of which the second moves the oneof, extends the list and updates the
map. -/
theorem decodeMessage_append_choice :
    ∃ sx sy sxy, decodeFields choiceWorld 0 0 [0x08, 5, 0x18, 1, 0x22, 2, 0x10, 7] = .ok sx ∧
      decodeFields choiceWorld 0 0 [0x12, 0, 0x18, 2, 0x22, 2, 0x10, 8] = .ok sy ∧
      decodeFields choiceWorld 0 0
        ([0x08, 5, 0x18, 1, 0x22, 2, 0x10, 7] ++ [0x12, 0, 0x18, 2, 0x22, 2, 0x10, 8]) = .ok sxy ∧
      sx.Merges choiceMessage.fields sy sxy := by
  obtain ⟨sx, sy, sxy, hx, hy, hxy, hmerges, -⟩ := @decodeMessage_append choiceWorld 0 0 0
    ⟨choiceBytes, by rfl⟩ [0x08, 5, 0x18, 1, 0x22, 2, 0x10, 7] [0x12, 0, 0x18, 2, 0x22, 2, 0x10, 8]
    _ _ (by rfl) (by rfl)
  exact ⟨sx, sy, sxy, hx, hy, hxy, hmerges⟩

end FastProto
