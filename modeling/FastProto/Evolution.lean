import FastProto.Relay
import FastProto.Lib.Rows

/-! # Extending a message

A newer schema adds fields to a message and keeps the older ones: their numbers, kinds and labels
stay, names and places may change. `MessageDescriptor.ExtendedBy` says so, and that oneofs are
respected: two kept fields share one on both sides or on none, and a oneof with a kept member has
no new one. What the two sides make of one stream is then compared field by field: a kept field gets
the same payloads on both sides and wins the same contests, and a new field is unknown to the older
side. -/

namespace FastProto

open Lib Lib.Cursor

/-- Two fields stand in one oneof. -/
def FieldDescriptor.SharesOneof (f f' : FieldDescriptor) : Prop :=
  ∃ group, f.group = some group ∧ f'.group = some group

/-- **The newer message extends the older one.** -/
structure MessageDescriptor.ExtendedBy (old new : MessageDescriptor) : Prop where
  /-- Every older field is kept. -/
  field : ∀ f ∈ old.fields, ∃ g ∈ new.fields, f.Kept g
  /-- Kept fields stand in one oneof on both sides or on none. -/
  group : ∀ f ∈ old.fields, ∀ f' ∈ old.fields, ∀ g ∈ new.fields, ∀ g' ∈ new.fields,
    f.Kept g → f'.Kept g' → f ≠ f' → (f.SharesOneof f' ↔ g.SharesOneof g')
  /-- A oneof of the newer message has kept members alone or new members alone. -/
  whole : ∀ f ∈ old.fields, ∀ g ∈ new.fields, f.Kept g → ∀ g' ∈ new.fields, g.SharesOneof g' →
    ∃ f' ∈ old.fields, f'.Kept g'

/-- **The two sides of an extension**: both tables are well formed and have one field a number. -/
structure Descriptor.ExtendedBy (old new : Descriptor) : Prop where
  inner : old.inner.ExtendedBy new.inner
  oldFormed : old.inner.WellFormed
  newFormed : new.inner.WellFormed
  oldNumbers : (old.inner.fields.map (·.number)).Nodup
  newNumbers : (new.inner.fields.map (·.number)).Nodup

/-- A segment the table has a field for. -/
def Descriptor.Known (desc : Descriptor) (seg : Segment) : Prop :=
  (desc.target seg.number seg.payload.wire).isSome = true

instance (desc : Descriptor) : DecidablePred desc.Known := fun seg =>
  inferInstanceAs (Decidable ((desc.target seg.number seg.payload.wire).isSome = true))

/-- What is left over are the segments the table has no field for. -/
theorem Descriptor.leftover_eq (desc : Descriptor) (segs : List Segment) :
    desc.leftover segs = (segs.filter fun seg => !decide (desc.Known seg)).flatMap Segment.raw := by
  unfold Descriptor.leftover
  induction segs with
  | nil => rfl
  | cons seg segs ih =>
      rw [List.flatMap_cons, ih]
      by_cases hseg : desc.Known seg
      · rw [List.filter_cons_of_neg (by simp [hseg]), if_pos (show _ = true from hseg),
          List.nil_append]
      · rw [List.filter_cons_of_pos (by simp [hseg]), if_neg (show ¬ _ = true from hseg),
          List.flatMap_cons]

/-! ## Kept fields -/

section Fields

variable {f f' g g' : FieldDescriptor} {i i' j j' : Nat}

/-- A kept field is kept both ways. -/
theorem FieldDescriptor.Kept.symm (h : f.Kept g) : g.Kept f :=
  ⟨h.number.symm, h.kind.symm, h.label.symm⟩

/-- Sharing a oneof is symmetric. -/
theorem FieldDescriptor.SharesOneof.symm (h : f.SharesOneof f') : f'.SharesOneof f := by
  obtain ⟨group, hf, hf'⟩ := h
  exact ⟨group, hf', hf⟩

/-- Two fields contend for one slot at a time exactly when they share a oneof. -/
theorem FieldDescriptor.contest_eq_iff (hne : i ≠ i') :
    f.contest i = f'.contest i' ↔ f.SharesOneof f' := by
  constructor
  · intro h
    cases hgroup : f'.group with
    | none =>
        rw [contest_of_none hgroup] at h
        exact absurd h (contest_ne_alone hne)
    | some group =>
        rw [contest_of_some hgroup] at h
        exact ⟨group, contest_eq_group.mp h, hgroup⟩
  · rintro ⟨group, hf, hf'⟩
    rw [contest_of_some hf, contest_of_some hf']

/-- A number stands at one place of the table. -/
theorem index_eq_of_number {fields : List FieldDescriptor}
    (hnumbers : (fields.map (·.number)).Nodup) (hf : fields[i]? = some f) (hf' : fields[i']? = some f')
    (h : f.number = f'.number) : i = i' := by
  have hi : (fields.map (·.number))[i]? = some f.number := by rw [List.getElem?_map, hf]; rfl
  have hi' : (fields.map (·.number))[i']? = some f'.number := by rw [List.getElem?_map, hf']; rfl
  obtain ⟨hlt, -⟩ := List.getElem?_eq_some_iff.mp hi
  exact (List.getElem?_inj hlt hnumbers).mp (hi.trans (h ▸ hi'.symm))

/-- **A record one table gives to a field, the other gives to the field kept for it.** -/
theorem FieldDescriptor.Kept.target {a b : Descriptor} (hkept : f.Kept g)
    (ha : a.inner.WellFormed) (hb : b.inner.WellFormed)
    (hnumbers : (b.inner.fields.map (·.number)).Nodup) (hg : b.inner.fields[j]? = some g)
    {number : UInt32} {wire : WireType} (h : a.target number wire = some (i, f)) :
    b.target number wire = some (j, g) := by
  rw [Descriptor.target_eq ha] at h
  obtain ⟨-, -, hnumber, hacc⟩ := MessageDescriptor.recognize_eq_some h
  have hrec := recognizes_of_nodup hnumbers hg wire (by rw [hkept.accepts]; exact hacc)
  rwa [hkept.number, hnumber, ← Descriptor.target_eq hb] at hrec

end Fields

namespace Descriptor.ExtendedBy

variable {old new : Descriptor} {f f' g g' : FieldDescriptor} {i i' j j' : Nat}

/-- The record of a field goes to it. -/
theorem target_record (hnumbers : (old.inner.fields.map (·.number)).Nodup)
    (hformed : old.inner.WellFormed) (hf : old.inner.fields[i]? = some f) {wire : WireType}
    (hacc : f.accepts wire = true) : old.target f.number wire = some (i, f) := by
  rw [Descriptor.target_eq hformed]
  exact recognizes_of_nodup hnumbers hf wire hacc

/-- Both tables give a record to the two sides of one field. -/
theorem target_iff (h : old.ExtendedBy new) (hf : old.inner.fields[i]? = some f)
    (hg : new.inner.fields[j]? = some g) (hkept : f.Kept g) {number : UInt32} {wire : WireType} :
    old.target number wire = some (i, f) ↔ new.target number wire = some (j, g) :=
  ⟨hkept.target h.oldFormed h.newFormed h.newNumbers hg,
    hkept.symm.target h.newFormed h.oldFormed h.oldNumbers hf⟩

/-- What the older table gives to a field, the newer one gives to the field kept for it. -/
theorem target_some (h : old.ExtendedBy new) {number : UInt32} {wire : WireType}
    (htarget : old.target number wire = some (i, f)) :
    ∃ j g, new.inner.fields[j]? = some g ∧ f.Kept g ∧ new.target number wire = some (j, g) := by
  obtain ⟨hf, -⟩ := Descriptor.target_eq_some htarget
  obtain ⟨g, hg, hkept⟩ := h.inner.field f (List.mem_of_getElem? hf)
  obtain ⟨j, hj⟩ := List.mem_iff_getElem?.mp hg
  exact ⟨j, g, hj, hkept, (h.target_iff hf hj hkept).mp htarget⟩

/-- **Kept fields contend for one slot on both sides or on none.** -/
theorem contest_iff (h : old.ExtendedBy new) (hf : old.inner.fields[i]? = some f)
    (hf' : old.inner.fields[i']? = some f') (hg : new.inner.fields[j]? = some g)
    (hg' : new.inner.fields[j']? = some g') (hkept : f.Kept g) (hkept' : f'.Kept g') :
    f'.contest i' = f.contest i ↔ g'.contest j' = g.contest j := by
  by_cases hi : i' = i
  · subst hi
    obtain rfl : f = f' := Option.some.inj (hf.symm.trans hf')
    have hnumber : g'.number = g.number := hkept'.number.trans hkept.number.symm
    obtain rfl := index_eq_of_number h.newNumbers hg' hg hnumber
    obtain rfl : g = g' := Option.some.inj (hg.symm.trans hg')
    exact iff_of_true rfl rfl
  · have hj : j' ≠ j := by
      rintro rfl
      obtain rfl : g = g' := Option.some.inj (hg.symm.trans hg')
      exact hi (index_eq_of_number h.oldNumbers hf' hf (hkept'.number.symm.trans hkept.number))
    have hne : f' ≠ f := by
      rintro rfl
      exact hi (index_eq_of_number h.oldNumbers hf' hf rfl)
    rw [FieldDescriptor.contest_eq_iff hi, FieldDescriptor.contest_eq_iff hj]
    exact h.inner.group f' (List.mem_of_getElem? hf') f (List.mem_of_getElem? hf) g'
      (List.mem_of_getElem? hg') g (List.mem_of_getElem? hg) hkept' hkept hne

/-- A newer field that contends with a kept one is kept. -/
theorem kept_of_contest (h : old.ExtendedBy new) (hf : old.inner.fields[i]? = some f)
    (hg : new.inner.fields[j]? = some g) (hg' : new.inner.fields[j']? = some g') (hkept : f.Kept g)
    (hcontest : g'.contest j' = g.contest j) :
    ∃ (i' : Nat) (f' : FieldDescriptor), old.inner.fields[i']? = some f' ∧ f'.Kept g' := by
  by_cases hj : j' = j
  · subst hj
    obtain rfl : g = g' := Option.some.inj (hg.symm.trans hg')
    exact ⟨i, f, hf, hkept⟩
  · obtain ⟨f', hf', hkept'⟩ := h.inner.whole f (List.mem_of_getElem? hf) g (List.mem_of_getElem? hg)
      hkept g' (List.mem_of_getElem? hg') ((FieldDescriptor.contest_eq_iff hj).mp hcontest).symm
    obtain ⟨i', hi'⟩ := List.mem_iff_getElem?.mp hf'
    exact ⟨i', f', hi', hkept'⟩

/-! ## Streams

The payloads of a kept field and the claims in its contest are the same on both sides; a new field
and its contest see nothing of what the older side knows. -/

/-- The payloads of a field are those of the segments that go to it. -/
theorem payloads_eq {desc : Descriptor} (hf : desc.inner.fields[i]? = some f) (segs : List Segment) :
    desc.payloads i segs = segs.filterMap fun seg =>
      if desc.target seg.number seg.payload.wire = some (i, f) then some seg.payload else none := by
  unfold Descriptor.payloads
  congr 1
  funext seg
  cases htarget : desc.target seg.number seg.payload.wire with
  | none => rfl
  | some p =>
      obtain ⟨k, f'⟩ := p
      by_cases hk : k = i
      · subst hk
        obtain ⟨hf', -⟩ := Descriptor.target_eq_some htarget
        obtain rfl : f = f' := Option.some.inj (hf.symm.trans hf')
        simp
      · simp [hk]

/-- **A kept field gets the same payloads on both sides.** -/
theorem payloads_kept (h : old.ExtendedBy new) (hf : old.inner.fields[i]? = some f)
    (hg : new.inner.fields[j]? = some g) (hkept : f.Kept g) (segs : List Segment) :
    new.payloads j segs = old.payloads i segs := by
  rw [payloads_eq hf, payloads_eq hg]
  congr 1
  funext seg
  simp only [h.target_iff hf hg hkept]

/-- A claim on one side is the claim of the kept field on the other. -/
structure SameClaim (old new : Descriptor) (c c' : Claim) : Prop where
  kept : c.field.Kept c'.field
  payload : c'.payload = c.payload
  field : old.inner.fields[c.idx]? = some c.field
  field' : new.inner.fields[c'.idx]? = some c'.field

/-- A claim is of a field exactly when its other side is of the field kept for it. -/
theorem SameClaim.idx_iff (h : old.ExtendedBy new) {c c' : Claim} (hc : SameClaim old new c c')
    (hf : old.inner.fields[i]? = some f) (hg : new.inner.fields[j]? = some g) (hkept : f.Kept g) :
    c.idx = i ↔ c'.idx = j := by
  constructor
  · rintro rfl
    obtain rfl : f = c.field := Option.some.inj (hf.symm.trans hc.field)
    exact index_eq_of_number h.newNumbers hc.field' hg (hc.kept.number.trans hkept.number.symm)
  · rintro rfl
    obtain rfl : g = c'.field := Option.some.inj (hg.symm.trans hc.field')
    exact index_eq_of_number h.oldNumbers hc.field hf (hc.kept.number.symm.trans hkept.number)

/-- **A kept field has the same contest on both sides.** -/
theorem claims_kept (h : old.ExtendedBy new) (hf : old.inner.fields[i]? = some f)
    (hg : new.inner.fields[j]? = some g) (hkept : f.Kept g) (segs : List Segment) :
    List.Forall₂ (SameClaim old new) (old.claims (f.contest i) segs)
      (new.claims (g.contest j) segs) := by
  refine List.rel_filterMap (R := Eq) (fun seg seg' hseg => ?_) (List.forall₂_refl segs)
  subst hseg
  unfold Descriptor.claim
  cases htarget : old.target seg.number seg.payload.wire with
  | none =>
      cases htarget' : new.target seg.number seg.payload.wire with
      | none => exact .none
      | some p =>
          obtain ⟨j', g'⟩ := p
          obtain ⟨hg', -⟩ := Descriptor.target_eq_some htarget'
          have hcontest : g'.contest j' ≠ g.contest j := by
            intro hcontest
            obtain ⟨i', f', hf', hkept'⟩ := h.kept_of_contest hf hg hg' hkept hcontest
            rw [(h.target_iff hf' hg' hkept').mpr htarget'] at htarget
            cases htarget
          dsimp only
          rw [if_neg hcontest]
          exact .none
  | some p =>
      obtain ⟨i', f'⟩ := p
      obtain ⟨hf', -⟩ := Descriptor.target_eq_some htarget
      obtain ⟨j', g', hg', hkept', htarget'⟩ := h.target_some htarget
      rw [htarget']
      dsimp only
      by_cases hcontest : f'.contest i' = f.contest i
      · rw [if_pos hcontest, if_pos ((h.contest_iff hf hf' hg hg' hkept hkept').mp hcontest)]
        exact .some ⟨hkept', rfl, hf', hg'⟩
      · rw [if_neg hcontest,
          if_neg fun h' => hcontest ((h.contest_iff hf hf' hg hg' hkept hkept').mpr h')]
        exact .none

/-- What goes to a kept field is known to the older side, and so are all claims in its contest. -/
theorem known_of_claim (h : old.ExtendedBy new) (hf : old.inner.fields[i]? = some f)
    (hg : new.inner.fields[j]? = some g) (hkept : f.Kept g) {seg : Segment} {c : Claim}
    (hc : new.claim (g.contest j) seg = some c) : old.Known seg := by
  unfold Descriptor.claim at hc
  cases htarget : new.target seg.number seg.payload.wire with
  | none => rw [htarget] at hc; cases hc
  | some p =>
      obtain ⟨j', g'⟩ := p
      obtain ⟨hg', -⟩ := Descriptor.target_eq_some htarget
      rw [htarget] at hc
      dsimp only at hc
      split at hc
      · rename_i hcontest
        obtain ⟨i', f', hf', hkept'⟩ := h.kept_of_contest hf hg hg' hkept hcontest
        rw [Descriptor.Known, (h.target_iff hf' hg' hkept').mpr htarget]
        rfl
      · cases hc

/-- No field is kept for a new one, nor for one that contends with it. -/
theorem not_known_of_claim (h : old.ExtendedBy new) (hg : new.inner.fields[j]? = some g)
    (hnew : ∀ f ∈ old.inner.fields, ¬ f.Kept g) {seg : Segment} {c : Claim}
    (hc : new.claim (g.contest j) seg = some c) : ¬ old.Known seg := by
  intro hknown
  obtain ⟨⟨i, f⟩, htarget⟩ := Option.isSome_iff_exists.mp hknown
  obtain ⟨hf, -⟩ := Descriptor.target_eq_some htarget
  obtain ⟨j', g', hg', hkept', htarget'⟩ := h.target_some htarget
  unfold Descriptor.claim at hc
  rw [htarget'] at hc
  dsimp only at hc
  split at hc
  · rename_i hcontest
    obtain ⟨i', f', hf', hkept⟩ := h.kept_of_contest hf hg' hg hkept' hcontest.symm
    exact hnew f' (List.mem_of_getElem? hf') hkept
  · cases hc

end Descriptor.ExtendedBy

/-! ## Slots

`relayed` is the stream the older side passes on. A new field finds in it what it found before; a
kept one finds the records written for it, and nothing else. -/

/-- What the older side passes on: the records of its fields, then the segments it does not know. -/
def relayed (old : Descriptor) (recs : List Record) (segs : List Segment) : List Segment :=
  recs.map Record.segment ++ segs.filter fun seg => !decide (old.Known seg)

/-- A slot depends on the claims in its contest and on its payloads. -/
theorem slotAfter_congr {w : World} {nested : NestedDecoder} {desc : Descriptor} {idx : Nat}
    {field : FieldDescriptor} {segs segs' : List Segment}
    (hclaims : desc.claims (field.contest idx) segs = desc.claims (field.contest idx) segs')
    (hpayloads : desc.payloads idx segs = desc.payloads idx segs') :
    slotAfter w nested desc idx field segs = slotAfter w nested desc idx field segs' := by
  unfold slotAfter contendedSlot
  rw [hclaims, hpayloads]

/-- What the payloads written for a field make of it where no other field contends. -/
def rebuilt (w : World) (nested : NestedDecoder) (desc : Descriptor) (field : FieldDescriptor)
    (payloads : List Payload) : Option PyVal :=
  if field.kind.isMap then
    some (.dict (dictUpdate [] (payloads.filterMap (entryOf w nested desc field))))
  else if field.label = .repeated then
    some (.list (payloads.flatMap (elementsOf w nested desc field)))
  else payloads.getLast?.bind fun payload =>
    (valueOfPayload w nested field.kind (desc.ref field.number) payload).toOption

/-- **The rows of records written for the fields of a table**, one row a field: each record has the
number of its field and a wire type the field takes, and of the fields of a oneof one at most wrote
any. -/
structure Rows (desc : Descriptor) (rows : List (List Record)) : Prop where
  own : List.Forall₂ (fun (field : FieldDescriptor) (row : List Record) =>
    ∀ rec ∈ row, rec.number = field.number ∧ field.accepts rec.payload.wire = true)
    desc.inner.fields rows
  alone : ∀ (i k : Nat) (f f' : FieldDescriptor) (row row' : List Record), k ≠ i →
    desc.inner.fields[i]? = some f → desc.inner.fields[k]? = some f' → rows[i]? = some row →
    rows[k]? = some row' → f'.SharesOneof f → row = [] ∨ row' = []

section Rows

variable {old new : Descriptor} {rows : List (List Record)} {i j k : Nat}
  {f g : FieldDescriptor} {row : List Record}

/-- The records of a row go to the field of the row. -/
theorem Rows.target (h : Rows old rows) (hformed : old.inner.WellFormed)
    (hnumbers : (old.inner.fields.map (·.number)).Nodup) (hf : old.inner.fields[i]? = some f)
    (hrow : rows[i]? = some row) {rec : Record} (hrec : rec ∈ row) :
    old.target rec.segment.number rec.segment.payload.wire = some (i, f) := by
  obtain ⟨hnumber, hacc⟩ := forall₂_getElem? h.own hf hrow rec hrec
  have htarget := Descriptor.ExtendedBy.target_record hnumbers hformed hf hacc
  rwa [← hnumber] at htarget

/-- A row belongs to a field. -/
theorem Rows.field (h : Rows old rows) (hrow : rows[i]? = some row) :
    ∃ f, old.inner.fields[i]? = some f := by
  obtain ⟨hlt, -⟩ := List.getElem?_eq_some_iff.mp hrow
  rw [← h.own.length_eq] at hlt
  exact ⟨_, List.getElem?_eq_getElem hlt⟩

/-- The records written are known. -/
theorem Rows.known (h : Rows old rows) (hformed : old.inner.WellFormed)
    (hnumbers : (old.inner.fields.map (·.number)).Nodup) {rec : Record} (hrec : rec ∈ rows.flatten) :
    old.Known rec.segment := by
  obtain ⟨row, hrow, hrec⟩ := List.mem_flatten.mp hrec
  obtain ⟨i, hi⟩ := List.mem_iff_getElem?.mp hrow
  obtain ⟨f, hf⟩ := h.field hi
  rw [Descriptor.Known, h.target hformed hnumbers hf hi hrec]
  rfl

/-- A field gets the payloads of its row. -/
theorem Rows.payloads (h : Rows old rows) (hformed : old.inner.WellFormed)
    (hnumbers : (old.inner.fields.map (·.number)).Nodup) (hf : old.inner.fields[i]? = some f)
    (hrow : rows[i]? = some row) :
    old.payloads i (rows.flatten.map Record.segment) = row.map (·.payload) := by
  rw [Descriptor.ExtendedBy.payloads_eq hf, List.filterMap_map, filterMap_flatten_of_index hrow]
  · rw [← List.filterMap_eq_map]
    refine List.filterMap_congr fun rec hrec => ?_
    rw [Function.comp_apply, if_pos (h.target hformed hnumbers hf hrow hrec)]
    rfl
  · intro k other hne hk rec hrec
    obtain ⟨f', hf'⟩ := h.field hk
    rw [Function.comp_apply, h.target hformed hnumbers hf' hk hrec, if_neg]
    rintro heq
    cases heq
    exact hne rfl

/-- A claim in the contest of a field comes from its own row or from that of a field it shares a
oneof with. -/
theorem Rows.claim_other (h : Rows old rows) (hformed : old.inner.WellFormed)
    (hnumbers : (old.inner.fields.map (·.number)).Nodup) {f' : FieldDescriptor} {other : List Record}
    (hne : k ≠ i) (hf' : old.inner.fields[k]? = some f') (hk : rows[k]? = some other) {rec : Record}
    (hrec : rec ∈ other) {c : Claim} (hc : old.claim (f.contest i) rec.segment = some c) :
    f'.SharesOneof f ∧ c.idx = k := by
  unfold Descriptor.claim at hc
  rw [h.target hformed hnumbers hf' hk hrec] at hc
  dsimp only at hc
  split at hc
  · rename_i hcontest
    cases hc
    exact ⟨(FieldDescriptor.contest_eq_iff hne).mp hcontest, rfl⟩
  · cases hc

/-- **The contest of a field that wrote a row** saw that row alone. -/
theorem Rows.claims (h : Rows old rows) (hformed : old.inner.WellFormed)
    (hnumbers : (old.inner.fields.map (·.number)).Nodup) (hf : old.inner.fields[i]? = some f)
    (hrow : rows[i]? = some row) (hwrote : row ≠ []) :
    old.claims (f.contest i) (rows.flatten.map Record.segment)
      = row.map fun rec => ⟨i, f, rec.payload⟩ := by
  unfold Descriptor.claims
  rw [List.filterMap_map, filterMap_flatten_of_index hrow]
  · rw [← List.filterMap_eq_map]
    refine List.filterMap_congr fun rec hrec => ?_
    rw [Function.comp_apply, Descriptor.claim, h.target hformed hnumbers hf hrow hrec]
    exact if_pos rfl
  · intro k other hne hk rec hrec
    obtain ⟨f', hf'⟩ := h.field hk
    rw [Function.comp_apply]
    cases hc : old.claim (f.contest i) rec.segment with
    | none => rfl
    | some c =>
        obtain ⟨hshares, -⟩ := h.claim_other hformed hnumbers hne hf' hk hrec hc
        rcases h.alone i k f f' row other hne hf hf' hrow hk hshares with hempty | hempty
        · exact absurd hempty hwrote
        · rw [hempty] at hrec
          cases hrec

/-- A field that wrote nothing makes no claim. -/
theorem Rows.claims_of_nil (h : Rows old rows) (hformed : old.inner.WellFormed)
    (hnumbers : (old.inner.fields.map (·.number)).Nodup) (hrow : rows[i]? = some []) :
    ∀ c ∈ old.claims (f.contest i) (rows.flatten.map Record.segment), c.idx ≠ i := by
  intro c hc
  obtain ⟨seg, hseg, hc⟩ := List.mem_filterMap.mp hc
  obtain ⟨rec, hrec, rfl⟩ := List.mem_map.mp hseg
  obtain ⟨other, hother, hrec⟩ := List.mem_flatten.mp hrec
  obtain ⟨k, hk⟩ := List.mem_iff_getElem?.mp hother
  obtain ⟨f', hf'⟩ := h.field hk
  have hne : k ≠ i := by
    rintro rfl
    obtain rfl : [] = other := Option.some.inj (hrow.symm.trans hk)
    cases hrec
  rw [(h.claim_other hformed hnumbers hne hf' hk hrec hc).2]
  exact hne

end Rows

namespace Descriptor.ExtendedBy

variable {w : World} {newer : NestedDecoder} {old new : Descriptor} {rows : List (List Record)}
  {i j : Nat} {f g : FieldDescriptor} {row : List Record}

/-- **A new field finds what it found before.** -/
theorem slotAfter_new (h : old.ExtendedBy new) (hrows : Rows old rows)
    (hg : new.inner.fields[j]? = some g) (hnew : ∀ f ∈ old.inner.fields, ¬ f.Kept g)
    (segs : List Segment) :
    slotAfter w newer new j g (relayed old rows.flatten segs) = slotAfter w newer new j g segs := by
  have hknown : ∀ rec ∈ rows.flatten, old.Known rec.segment := fun rec hrec =>
    hrows.known h.oldFormed h.oldNumbers hrec
  -- a segment of a new field is not one of the records, and it is passed on
  have hsame : ∀ {β : Type} (p : Segment → Option β), (∀ seg b, p seg = some b → ¬ old.Known seg) →
      (relayed old rows.flatten segs).filterMap p = segs.filterMap p := by
    intro β p hp
    rw [relayed, List.filterMap_append,
      filterMap_filter_of_some fun seg _ b hb => by simp [hp seg b hb],
      List.filterMap_eq_nil_iff.mpr, List.nil_append]
    intro seg hseg
    obtain ⟨rec, hrec, rfl⟩ := List.mem_map.mp hseg
    cases hpr : p rec.segment with
    | none => rfl
    | some b => exact absurd (hknown rec hrec) (hp _ b hpr)
  refine slotAfter_congr (hsame _ fun seg c hc => h.not_known_of_claim hg hnew hc) ?_
  rw [payloads_eq hg, payloads_eq hg]
  refine hsame _ fun seg payload hpayload hseg => ?_
  obtain ⟨⟨i, f⟩, htarget⟩ := Option.isSome_iff_exists.mp hseg
  obtain ⟨hf, -⟩ := Descriptor.target_eq_some htarget
  obtain ⟨j', g', hg', hkept, htarget'⟩ := h.target_some htarget
  split at hpayload
  · rename_i heq
    rw [htarget'] at heq
    cases heq
    exact hnew f (List.mem_of_getElem? hf) hkept
  · cases hpayload

/-- **A kept field finds the records written for the fields of the older table, and nothing else.** -/
theorem slotAfter_kept (h : old.ExtendedBy new) (hf : old.inner.fields[i]? = some f)
    (hg : new.inner.fields[j]? = some g) (hkept : f.Kept g) (recs : List Record)
    (segs : List Segment) :
    slotAfter w newer new j g (relayed old recs segs)
      = slotAfter w newer new j g (recs.map Record.segment) := by
  refine slotAfter_congr ?_ ?_
  · rw [relayed, Descriptor.claims_append, Descriptor.claims, Descriptor.claims,
      filterMap_filter_of_none, List.append_nil]
    intro seg _ c hc
    simp [h.known_of_claim hf hg hkept hc]
  · rw [relayed, Descriptor.payloads_append, payloads_eq hg, payloads_eq hg, filterMap_filter_of_none,
      List.append_nil]
    intro seg _ payload hpayload
    split at hpayload
    · rename_i htarget
      simp [Descriptor.Known, (h.target_iff hf hg hkept).mpr htarget]
    · cases hpayload

/-- **A kept field is rebuilt from its row.** -/
theorem slotAfter_rows (h : old.ExtendedBy new) (hrows : Rows old rows)
    (hf : old.inner.fields[i]? = some f) (hrow : rows[i]? = some row)
    (hg : new.inner.fields[j]? = some g) (hkept : f.Kept g) (segs : List Segment) :
    slotAfter w newer new j g (relayed old rows.flatten segs)
      = rebuilt w newer new g (row.map (·.payload)) := by
  rw [h.slotAfter_kept hf hg hkept]
  have hclaims := rel_getLast? (h.claims_kept hf hg hkept (rows.flatten.map Record.segment))
  unfold slotAfter rebuilt
  rw [h.payloads_kept hf hg hkept, hrows.payloads h.oldFormed h.oldNumbers hf hrow]
  refine if_congr Iff.rfl rfl (if_congr Iff.rfl rfl ?_)
  unfold contendedSlot
  -- a field that wrote nothing claims nothing, so its slot stays as it was
  by_cases hwrote : row = []
  · subst hwrote
    have hnone := hrows.claims_of_nil (f := f) h.oldFormed h.oldNumbers hrow
    generalize hlast : (new.claims (g.contest j) (rows.flatten.map Record.segment)).getLast? = last
      at hclaims ⊢
    cases hclaims' : (old.claims (f.contest i) (rows.flatten.map Record.segment)).getLast? with
    | none =>
        rw [hclaims'] at hclaims
        cases hclaims
        rfl
    | some c =>
        rw [hclaims'] at hclaims
        cases hclaims with
        | @some _ c' hc =>
            have hne : ¬ c'.idx = j := fun heq => hnone c (List.mem_of_getLast? hclaims')
              ((hc.idx_iff h hf hg hkept).mpr heq)
            rw [Option.bind_some, if_neg hne]
            rfl
  · rw [hrows.claims h.oldFormed h.oldNumbers hf hrow hwrote, List.getLast?_map] at hclaims
    rw [List.getLast?_map]
    generalize (new.claims (g.contest j) (rows.flatten.map Record.segment)).getLast? = last
      at hclaims ⊢
    cases hlast : row.getLast? with
    | none =>
        rw [hlast] at hclaims
        cases hclaims
        rfl
    | some rec =>
        rw [hlast] at hclaims
        cases hclaims with
        | @some _ c' hc =>
            have hidx : c'.idx = j := (hc.idx_iff h hf hg hkept).mp rfl
            have hfield : c'.field = g := by
              have hfield' := hc.field'
              rw [hidx, hg] at hfield'
              exact (Option.some.inj hfield').symm
            rw [Option.bind_some, if_pos hidx, Claim.value, hfield, hc.payload]
            rfl

/-- **What neither side knows is passed on as it came.** -/
theorem leftover_relayed (h : old.ExtendedBy new) (hrows : Rows old rows) (segs : List Segment) :
    new.leftover (relayed old rows.flatten segs) = new.leftover segs := by
  have hnew : ∀ seg, old.Known seg → (new.target seg.number seg.payload.wire).isSome = true := by
    intro seg hseg
    obtain ⟨⟨i, f⟩, htarget⟩ := Option.isSome_iff_exists.mp hseg
    obtain ⟨j, g, -, -, htarget'⟩ := h.target_some htarget
    rw [htarget']
    rfl
  have hrecs : new.leftover (rows.flatten.map Record.segment) = [] := by
    unfold Descriptor.leftover
    rw [List.flatMap_eq_nil_iff]
    intro seg hseg
    obtain ⟨rec, hrec, rfl⟩ := List.mem_map.mp hseg
    rw [if_pos (hnew _ (hrows.known h.oldFormed h.oldNumbers hrec))]
  rw [relayed, Descriptor.leftover_append, hrecs, List.nil_append]
  unfold Descriptor.leftover
  induction segs with
  | nil => rfl
  | cons seg segs ih =>
      by_cases hseg : old.Known seg
      · rw [List.filter_cons_of_neg (by simp [hseg]), ih, List.flatMap_cons, if_pos (hnew seg hseg),
          List.nil_append]
      · rw [List.filter_cons_of_pos (by simp [hseg]), List.flatMap_cons, List.flatMap_cons, ih]

end Descriptor.ExtendedBy

end FastProto
