import FastProto.Evolution
import FastProto.OneofDecode
import FastProto.Unknown

/-! # Messages that pass through an older reader

A message written under a newer schema reaches its newer reader unharmed when an older process has
decoded and encoded it in between. The fields the older side knows are read and written again, the
ones it does not know travel as unknown bytes, and what the newer side reads in the end is what it
would have read at once: `decode_relayed`. On the way the older side sees the fields it knows with
the values they were written with: `decode_seen`. -/

namespace FastProto

open Lib Lib.Cursor

/-! ## One field -/

/-- **The slot of an older field stands for the slot of the field kept for it.** -/
inductive SlotRelays (u w : World) (rel : ClassId → DescId → ClassId → DescId → Prop)
    (plain : NestedPayload PyVal) (newer : NestedDecoder)
    (f : FieldDescriptor) (lu lw : Option LinkedRef) : Option PyVal → Option PyVal → Prop where
  | dict {key : ScalarType} {valueKind : MapValue} {items items' : List (PyVal × PyVal)}
      (hkind : f.kind = .map key valueKind)
      (hitems : List.Forall₂ (EntryRelays u w rel plain newer key valueKind lu lw) items items')
      (hkeys : dictUpdate [] items' = items') :
      SlotRelays u w rel plain newer f lu lw (some (.dict items)) (some (.dict items'))
  | list {items items' : List PyVal} (hmap : f.kind.isMap = false) (hlabel : f.label = .repeated)
      (hitems : List.Forall₂ (Relays u w rel plain newer f.kind lu lw) items items') :
      SlotRelays u w rel plain newer f lu lw (some (.list items)) (some (.list items'))
  | value {slot slot' : Option PyVal} (hmap : f.kind.isMap = false) (hlabel : f.label ≠ .repeated)
      (hvalue : Option.Rel (Relays u w rel plain newer f.kind lu lw) slot slot') :
      SlotRelays u w rel plain newer f lu lw slot slot'

section Read

variable {u w : World} {rel : ClassId → DescId → ClassId → DescId → Prop}
  {plain : NestedPayload PyVal} {older newer : NestedDecoder}
  {old new : Descriptor} {i j : Nat} {f g : FieldDescriptor}

/-- **A payload the newer field takes, the older field takes.** -/
theorem RefsRelay.takes (hkept : f.Kept g)
    (hrefs : RefsRelay u w rel plain older newer f.kind (old.ref f.number) (new.ref g.number))
    {payload : Payload} (h : new.Takes w newer g payload) : old.Takes u older f payload := by
  by_cases hmap : f.kind.isMap = true
  · obtain ⟨key, valueKind, hkind⟩ := FieldKind.isMap_iff.mp hmap
    obtain ⟨entry, ⟨k, v'⟩, rfl, hentry⟩ := (takes_map (by rw [hkept.kind]; exact hkind)).mp h
    rw [hkind] at hrefs
    obtain ⟨v, hv, -⟩ := hrefs.entry hentry
    exact (takes_map hkind).mpr ⟨entry, (k, v), rfl, hv⟩
  · have hnot : f.kind.isMap = false := by simpa using hmap
    have hnot' : g.kind.isMap = false := by rw [hkept.kind]; exact hnot
    by_cases hlabel : f.label = .repeated
    · obtain ⟨items', hitems'⟩ := (takes_repeated hnot' (by rw [hkept.label]; exact hlabel)).mp h
      rw [hkept.kind] at hitems'
      obtain ⟨items, hitems, -⟩ := hrefs.elements hnot hitems'
      exact (takes_repeated hnot hlabel).mpr ⟨items, hitems⟩
    · obtain ⟨value', hvalue'⟩ := (takes_singular hnot' (by rw [hkept.label]; exact hlabel)).mp h
      rw [hkept.kind] at hvalue'
      obtain ⟨value, hvalue, -⟩ := hrefs.value hvalue'
      exact (takes_singular hnot hlabel).mpr ⟨value, hvalue⟩

/-- Entries that stand for one another make dicts that do. -/
theorem dictUpdate_relays {key : ScalarType} {valueKind : MapValue} {lu lw : Option LinkedRef}
    {entries entries' : List (PyVal × PyVal)}
    (h : List.Forall₂ (EntryRelays u w rel plain newer key valueKind lu lw) entries entries') :
    ∀ {items items' : List (PyVal × PyVal)},
      List.Forall₂ (EntryRelays u w rel plain newer key valueKind lu lw) items items' →
      List.Forall₂ (EntryRelays u w rel plain newer key valueKind lu lw) (dictUpdate items entries)
        (dictUpdate items' entries') := by
  induction h with
  | nil => exact fun hitems => hitems
  | @cons entry entry' entries entries' hentry _ ih =>
      intro items items' hitems
      obtain ⟨k, v⟩ := entry
      obtain ⟨k', v'⟩ := entry'
      obtain ⟨rfl, hk, hv⟩ := hentry
      exact ih (forall₂_upsertBy hitems hk hv)

/-- **The payloads of a map make dicts that stand for one another.** -/
theorem dict_relays (hkept : f.Kept g) {key : ScalarType} {valueKind : MapValue}
    (hkind : f.kind = .map key valueKind)
    (hrefs : RefsRelay u w rel plain older newer f.kind (old.ref f.number) (new.ref g.number))
    {payloads : List Payload} (htakes : ∀ payload ∈ payloads, new.Takes w newer g payload) :
    List.Forall₂ (EntryRelays u w rel plain newer key valueKind (old.ref f.number) (new.ref g.number))
      (payloads.filterMap (entryOf u older old f)) (payloads.filterMap (entryOf w newer new g)) := by
  have hkind' : g.kind = .map key valueKind := by rw [hkept.kind]; exact hkind
  rw [hkind] at hrefs
  refine List.rel_filterMap (R := fun p p' => p = p' ∧ new.Takes w newer g p) ?_
    (List.forall₂_same.mpr fun payload hp => ⟨rfl, htakes payload hp⟩)
  rintro payload _ ⟨rfl, htake⟩
  obtain ⟨entry, ⟨k, v'⟩, rfl, hentry⟩ := (takes_map hkind').mp htake
  obtain ⟨v, hv, hholds, hrelay⟩ := hrefs.entry hentry
  unfold entryOf
  simp only [hkind, hkind', hv, hentry]
  exact .some ⟨rfl, hholds, hrelay⟩

/-- **The payloads of a list make lists that stand for one another.** -/
theorem list_relays (hkept : f.Kept g) (hmap : f.kind.isMap = false) (hlabel : f.label = .repeated)
    (hrefs : RefsRelay u w rel plain older newer f.kind (old.ref f.number) (new.ref g.number))
    {payloads : List Payload} (htakes : ∀ payload ∈ payloads, new.Takes w newer g payload) :
    List.Forall₂ (Relays u w rel plain newer f.kind (old.ref f.number) (new.ref g.number))
      (payloads.flatMap (elementsOf u older old f)) (payloads.flatMap (elementsOf w newer new g)) := by
  induction payloads with
  | nil => exact .nil
  | cons payload payloads ih =>
      obtain ⟨items', hitems'⟩ := (takes_repeated (by rw [hkept.kind]; exact hmap)
        (by rw [hkept.label]; exact hlabel)).mp (htakes payload List.mem_cons_self)
      obtain ⟨items, hitems, hrel⟩ := hrefs.elements hmap (by rw [← hkept.kind]; exact hitems')
      have holder : elementsOf u older old f payload = items := by
        simp [elementsOf, hitems, Except.toOption]
      have hnewer : elementsOf w newer new g payload = items' := by
        simp [elementsOf, hitems', Except.toOption]
      rw [List.flatMap_cons, List.flatMap_cons, holder, hnewer]
      exact List.rel_append hrel (ih fun p hp => htakes p (List.mem_cons_of_mem _ hp))

/-- **The last claim of a contest stands for its other side.** -/
theorem contendedSlot_relays (h : old.ExtendedBy new) (hf : old.inner.fields[i]? = some f)
    (hg : new.inner.fields[j]? = some g) (hkept : f.Kept g) (hmap : f.kind.isMap = false)
    (hlabel : f.label ≠ .repeated)
    (hrefs : RefsRelay u w rel plain older newer f.kind (old.ref f.number) (new.ref g.number))
    {segs : List Segment} (htakes : ∀ seg ∈ segs, new.TakesSegment w newer seg) :
    Option.Rel (Relays u w rel plain newer f.kind (old.ref f.number) (new.ref g.number))
      (contendedSlot u older old i f segs) (contendedSlot w newer new j g segs) := by
  -- the last claim on the slot, in both versions
  have hlast := rel_getLast? (h.claims_kept hf hg hkept segs)
  unfold contendedSlot
  cases hlast' : (new.claims (g.contest j) segs).getLast? with
  | none =>
      rw [hlast'] at hlast
      generalize (old.claims (f.contest i) segs).getLast? = last at hlast ⊢
      cases hlast
      exact .none
  | some c' =>
      rw [hlast'] at hlast
      generalize (old.claims (f.contest i) segs).getLast? = last at hlast ⊢
      cases hlast with
      | @some c _ hc =>
          rw [Option.bind_some, Option.bind_some]
          -- a later member of the oneof may have taken the slot away again
          by_cases hidx : c'.idx = j
          · have hidx' := (hc.idx_iff h hf hg hkept).mpr hidx
            rw [if_pos hidx, if_pos hidx']
            have hfield : c'.field = g := by
              have hfield' := hc.field'
              rw [hidx, hg] at hfield'
              exact (Option.some.inj hfield').symm
            have hfield₀ : c.field = f := by
              have hfield' := hc.field
              rw [hidx', hf] at hfield'
              exact (Option.some.inj hfield').symm
            have htake : new.Takes w newer g c'.payload := by
              obtain ⟨seg, hseg, hclaim⟩ := List.mem_filterMap.mp (List.mem_of_getLast? hlast')
              unfold Descriptor.claim at hclaim
              split at hclaim
              · rename_i idx field htarget
                split at hclaim
                · cases hclaim
                  rw [← hfield]
                  exact htakes seg hseg idx field htarget
                · cases hclaim
              · cases hclaim
            obtain ⟨value', hvalue'⟩ := (takes_singular (by rw [hkept.kind]; exact hmap)
              (by rw [hkept.label]; exact hlabel)).mp htake
            obtain ⟨value, hvalue, hrelay⟩ := hrefs.value (by rw [← hkept.kind]; exact hvalue')
            rw [Claim.value, Claim.value, hfield, hfield₀, hvalue', ← hc.payload, hvalue]
            exact .some hrelay
          · rw [if_neg hidx, if_neg fun h' => hidx ((hc.idx_iff h hf hg hkept).mp h')]
            exact .none

/-- **The slot of an older field stands for the slot of the field kept for it**, after any stream
the newer side takes. -/
theorem slotAfter_relays (h : old.ExtendedBy new) (hf : old.inner.fields[i]? = some f)
    (hg : new.inner.fields[j]? = some g) (hkept : f.Kept g)
    (hrefs : RefsRelay u w rel plain older newer f.kind (old.ref f.number) (new.ref g.number))
    {segs : List Segment} (htakes : ∀ seg ∈ segs, new.TakesSegment w newer seg) :
    SlotRelays u w rel plain newer f (old.ref f.number) (new.ref g.number)
      (slotAfter u older old i f segs) (slotAfter w newer new j g segs) := by
  have hpayloads : ∀ payload ∈ old.payloads i segs, new.Takes w newer g payload := by
    intro payload hp
    rw [← h.payloads_kept hf hg hkept, Descriptor.ExtendedBy.payloads_eq hg] at hp
    obtain ⟨seg, hseg, hp⟩ := List.mem_filterMap.mp hp
    split at hp
    · rename_i htarget
      cases hp
      exact htakes seg hseg j g htarget
    · cases hp
  unfold slotAfter
  rw [h.payloads_kept hf hg hkept, hkept.kind, hkept.label]
  by_cases hmap : f.kind.isMap = true
  · obtain ⟨key, valueKind, hkind⟩ := FieldKind.isMap_iff.mp hmap
    rw [if_pos hmap, if_pos hmap]
    exact .dict hkind (dictUpdate_relays (dict_relays hkept hkind hrefs hpayloads) .nil)
      (dictUpdate_collect [] _)
  · rw [if_neg hmap, if_neg hmap]
    have hnot : f.kind.isMap = false := by simpa using hmap
    by_cases hlabel : f.label = .repeated
    · rw [if_pos hlabel, if_pos hlabel]
      exact .list hnot hlabel (list_relays hkept hnot hlabel hrefs hpayloads)
    · rw [if_neg hlabel, if_neg hlabel]
      exact .value hnot hlabel (contendedSlot_relays h hf hg hkept hnot hlabel hrefs htakes)

end Read

/-! ## One field, written back -/

/-- A default payload is read as the default of its type. -/
theorem scalarDefault_of_isDefault {scalar : ScalarType} {payload : Payload} {value : PyVal}
    (h : scalarOfPayload scalar payload = .ok value) (hdefault : payload.isDefault = true) :
    value = scalarDefault scalar := by
  have hempty : decodeStr [] = .ok (.str "") := rfl
  unfold scalarOfPayload at h
  split at h <;> simp only [Payload.isDefault, decide_eq_true_eq, List.isEmpty_iff, reduceCtorEq]
    at hdefault h <;> subst hdefault
  case h_14 =>
    rw [hempty] at h
    cases h
    rfl
  all_goals
    cases h
    rfl

section Written

variable {u w : World} {rel : ClassId → DescId → ClassId → DescId → Prop}
  {plain : NestedPayload PyVal} {older newer : NestedDecoder}
  {old new : Descriptor} {f g : FieldDescriptor} {oneofs : Nat} {m : PyVal}
  {counts counts' : List Nat} {slot slot' : Option PyVal} {row : List Record}

/-- The zero value of a field without presence stands for that of the field kept for it. -/
theorem zeroValue_relays (hkept : f.Kept g) (hshape : f.Shaped oneofs)
    (hrefs : RefsRelay u w rel plain older newer f.kind (old.ref f.number) (new.ref g.number))
    (hzero : f.kind = .enum → f.label = .single →
      coerceEnum u (old.ref f.number) 0 = .ok (zeroValue old f))
    (hzero' : g.kind = .enum → g.label = .single →
      coerceEnum w (new.ref g.number) 0 = .ok (zeroValue new g))
    (hmap : f.kind.isMap = false) (hlabel : f.label = .single) :
    Relays u w rel plain newer f.kind (old.ref f.number) (new.ref g.number) (zeroValue old f)
      (zeroValue new g) := by
  cases hkind : f.kind with
  | scalar scalar =>
      have hold : zeroValue old f = scalarDefault scalar := by simp [zeroValue, hkind, hlabel]
      have hnew : zeroValue new g = scalarDefault scalar := by
        simp [zeroValue, hkept.kind, hkept.label, hkind, hlabel]
      rw [hold, hnew]
      exact relays_scalar scalar.holds_default
  | enum =>
      rw [hkind] at hrefs
      have hnew := hzero' (by rw [hkept.kind, hkind]) (by rw [hkept.label, hlabel])
      obtain ⟨value, hvalue, hset, hi, hi'⟩ := hrefs.enum rfl 0 _ hnew
      obtain rfl : zeroValue old f = value := Except.ok.inj ((hzero hkind hlabel).symm.trans hvalue)
      exact relays_enum hi hi' hset hnew
  | map key value => rw [hkind] at hmap; cases hmap
  | message => exact absurd hlabel (hshape.message_label (by rw [hkind]; rfl))
  | timestamp => exact absurd hlabel (hshape.message_label (by rw [hkind]; rfl))
  | duration => exact absurd hlabel (hshape.message_label (by rw [hkind]; rfl))

/-- **What is not written because it is the default** is what the newer side has when it reads
nothing. -/
theorem zeroValue_of_default (hkept : f.Kept g) (hshape : f.Shaped oneofs)
    (hzero' : g.kind = .enum → g.label = .single →
      coerceEnum w (new.ref g.number) 0 = .ok (zeroValue new g))
    (hmap : f.kind.isMap = false) (hlabel : f.label = .single) {payload : Payload} {value' : PyVal}
    (h : valueOfPayload w newer f.kind (new.ref g.number) payload = .ok value')
    (hdefault : payload.isDefault = true) : value' = zeroValue new g := by
  cases hkind : f.kind with
  | scalar scalar =>
      rw [hkind] at h
      rw [scalarDefault_of_isDefault h hdefault]
      simp [zeroValue, hkept.kind, hkept.label, hkind, hlabel]
  | enum =>
      rw [hkind] at h
      cases payload with
      | varint raw =>
          simp only [Payload.isDefault, decide_eq_true_eq] at hdefault
          subst hdefault
          have hnew := hzero' (by rw [hkept.kind, hkind]) (by rw [hkept.label, hlabel])
          exact Except.ok.inj (h.symm.trans hnew)
      | _ => cases h
  | map key value => rw [hkind] at hmap; cases hmap
  | message => exact absurd hlabel (hshape.message_label (by rw [hkind]; rfl))
  | timestamp => exact absurd hlabel (hshape.message_label (by rw [hkind]; rfl))
  | duration => exact absurd hlabel (hshape.message_label (by rw [hkind]; rfl))

/-- A member that is not set writes nothing. -/
theorem row_of_unset (hmap : f.kind.isMap = false) (hlabel : f.label = .optional)
    (hget : u.runtime.getattr m f.name = .ok .pyNone)
    (hrow : fieldRecords u.runtime plain old m counts f = .ok (row, counts')) : row = [] := by
  rw [fieldRecords_none u.runtime plain hget hmap hlabel rfl] at hrow
  cases hrow
  rfl

/-- The record of a singular field brings its value back. -/
theorem rebuilt_record (hkept : f.Kept g) (hmap : f.kind.isMap = false) (hlabel : f.label ≠ .repeated)
    {value value' : PyVal}
    (h : Relays u w rel plain newer f.kind (old.ref f.number) (new.ref g.number) value value')
    {payload : Payload}
    (hpayload : valuePayload u.runtime plain f.kind value (old.ref f.number) = .ok payload)
    (hfits : payload.Fits) :
    (∀ rec ∈ [(⟨f.number, payload⟩ : Record)],
      f.accepts rec.payload.wire = true ∧ new.Takes w newer g rec.payload) ∧
      rebuilt w newer new g ([(⟨f.number, payload⟩ : Record)].map (·.payload)) = some value' := by
  obtain ⟨hacc, htake, hread⟩ := written_value hkept hmap hlabel h hpayload hfits
  refine ⟨fun rec hrec => ?_, ?_⟩
  · rw [List.mem_singleton.mp hrec]
    exact ⟨hacc, htake⟩
  · unfold rebuilt
    rw [if_neg (by rw [hkept.kind, hmap]; decide), if_neg (by rw [hkept.label]; exact hlabel)]
    simp [hread, Except.toOption]

/-- **The row written for a field brings back what the newer side had**, up to the zero value that
stands for nothing. -/
theorem SlotRelays.written (h : SlotRelays u w rel plain newer f (old.ref f.number) (new.ref g.number)
      slot slot') (hkept : f.Kept g) (hshape : f.Shaped oneofs)
    (hrefs : RefsRelay u w rel plain older newer f.kind (old.ref f.number) (new.ref g.number))
    (hzero : f.kind = .enum → f.label = .single →
      coerceEnum u (old.ref f.number) 0 = .ok (zeroValue old f))
    (hzero' : g.kind = .enum → g.label = .single →
      coerceEnum w (new.ref g.number) 0 = .ok (zeroValue new g))
    (hget : u.runtime.getattr m f.name = .ok (slot.getD (zeroValue old f)))
    (hrow : fieldRecords u.runtime plain old m counts f = .ok (row, counts'))
    (hfits : ∀ rec ∈ row, rec.payload.Fits) :
    (∀ rec ∈ row, f.accepts rec.payload.wire = true ∧ new.Takes w newer g rec.payload) ∧
      (rebuilt w newer new g (row.map (·.payload))).getD (zeroValue new g)
        = slot'.getD (zeroValue new g) := by
  -- no record leaves the slot of a singular field empty
  have hnothing : f.kind.isMap = false → f.label ≠ .repeated →
      rebuilt w newer new g (([] : List Record).map (·.payload)) = none := by
    intro hmap hlabel
    unfold rebuilt
    rw [if_neg (by rw [hkept.kind, hmap]; decide), if_neg (by rw [hkept.label]; exact hlabel)]
    rfl
  cases h with
  | @dict key valueKind items items' hkind hitems hkeys =>
      rw [fieldRecords_map u.runtime plain hget hkind] at hrow
      obtain ⟨recs, hrecs, heq⟩ := bind_eq_ok.mp hrow
      cases heq
      obtain ⟨htakes, hread⟩ := written_map hkept hkind
        (hshape.map_single key valueKind hkind).1 hitems hrecs hfits
      refine ⟨htakes, ?_⟩
      unfold rebuilt
      rw [if_pos (by rw [hkept.kind, hkind]; rfl), hread, hkeys]
  | list hmap hlabel hitems =>
      rw [fieldRecords_repeated u.runtime plain hget hmap hlabel] at hrow
      obtain ⟨recs, hrecs, heq⟩ := bind_eq_ok.mp hrow
      cases heq
      obtain ⟨htakes, hread⟩ := written_repeated hkept hmap hlabel hitems hrecs hfits
      refine ⟨htakes, ?_⟩
      unfold rebuilt
      rw [if_neg (by rw [hkept.kind, hmap]; decide), if_pos (by rw [hkept.label]; exact hlabel), hread]
  | value hmap hlabel hvalue =>
      cases hl : f.label with
      | «repeated» => exact absurd hl hlabel
      | optional =>
          cases hvalue with
          | none =>
              rw [Option.getD_none, zeroValue_optional hmap hl] at hget
              obtain rfl := row_of_unset hmap hl hget hrow
              exact ⟨by simp, by rw [hnothing hmap hlabel]⟩
          | @some value value' hrelay =>
              have hset : (u.runtime.view value).isNone = false :=
                Bool.eq_false_iff.mpr fun h => hrelay.set (isNone_shape.mp h)
              rw [fieldRecords_some u.runtime plain hget hmap hl hset] at hrow
              obtain ⟨counts₁, -, hrow⟩ := bind_eq_ok.mp hrow
              obtain ⟨payload, hpayload, heq⟩ := bind_eq_ok.mp hrow
              cases heq
              obtain ⟨htakes, hread⟩ := rebuilt_record hkept hmap hlabel hrelay hpayload
                (hfits ⟨f.number, payload⟩ (by simp))
              exact ⟨htakes, by rw [hread]⟩
      | single =>
          have hlike : f.kind.isMessageLike = false :=
            Bool.eq_false_iff.mpr fun h => hshape.message_label h hl
          -- a slot left empty stands for the zero values, which relay each other
          have hrelay : Relays u w rel plain newer f.kind (old.ref f.number) (new.ref g.number)
              (slot.getD (zeroValue old f)) (slot'.getD (zeroValue new g)) := by
            cases hvalue with
            | none => exact zeroValue_relays hkept hshape hrefs hzero hzero' hmap hl
            | some hrelay => exact hrelay
          rw [fieldRecords_single u.runtime plain hget hmap hl] at hrow
          obtain ⟨payload, hpayload, heq⟩ := bind_eq_ok.mp hrow
          rw [hlike, Bool.not_false, Bool.true_and] at heq
          by_cases hdefault : payload.isDefault = true
          · rw [if_pos hdefault] at heq
            cases heq
            -- the older program drops a default, and the newer one fills it in again
            have hread := hrelay.reads payload hpayload (by
              cases payload with
              | len data => simp_all [Payload.isDefault, Payload.Fits]
              | _ => trivial)
            rw [hnothing hmap hlabel, Option.getD_none]
            exact ⟨by simp, (zeroValue_of_default hkept hshape hzero' hmap hl hread hdefault).symm⟩
          · rw [if_neg hdefault] at heq
            cases heq
            obtain ⟨htakes, hread⟩ := rebuilt_record hkept hmap hlabel hrelay hpayload
              (hfits ⟨f.number, payload⟩ (by simp))
            exact ⟨htakes, by rw [hread, Option.getD_some]⟩

/-- **The older side has in a field** what it has for the value of the field kept for it. -/
theorem SlotRelays.seen (h : SlotRelays u w rel plain newer f (old.ref f.number) (new.ref g.number)
      slot slot') (hkept : f.Kept g) (hshape : f.Shaped oneofs)
    (hrefs : RefsRelay u w rel plain older newer f.kind (old.ref f.number) (new.ref g.number))
    (hzero : f.kind = .enum → f.label = .single →
      coerceEnum u (old.ref f.number) 0 = .ok (zeroValue old f))
    (hzero' : g.kind = .enum → g.label = .single →
      coerceEnum w (new.ref g.number) 0 = .ok (zeroValue new g)) :
    FieldSeenAs u w rel f (slot.getD (zeroValue old f)) (slot'.getD (zeroValue new g)) := by
  cases h with
  | @dict key valueKind items items' hkind hitems hkeys =>
      refine .dict hkind ?_ fun i item item' hitem hitem' =>
        (forall₂_getElem? hitems hitem hitem').2.2.seen
      clear hkeys
      induction hitems with
      | nil => rfl
      | cons hitem _ ih => rw [List.map_cons, List.map_cons, hitem.1, ih]
  | list hmap hlabel hitems =>
      exact .list hlabel hitems.length_eq fun i item item' hitem hitem' =>
        (forall₂_getElem? hitems hitem hitem').seen
  | value hmap hlabel hvalue =>
      cases hvalue with
      | some hrelay => exact .value hlabel hrelay.seen
      | none =>
          cases hl : f.label with
          | «repeated» => exact absurd hl hlabel
          | optional =>
              rw [Option.getD_none, Option.getD_none, zeroValue_optional hmap hl,
                zeroValue_optional (by rw [hkept.kind]; exact hmap) (by rw [hkept.label]; exact hl)]
              exact .unset hl
          | single =>
              exact .value hlabel (zeroValue_relays hkept hshape hrefs hzero hzero' hmap hl).seen

end Written

/-! ## One message -/

/-- The records of all fields are rows, one a field. -/
theorem fieldsRecords_rows {V : Type} {rt : Runtime V} {plain : NestedPayload V} {desc : Descriptor}
    {m : V} {fields : List FieldDescriptor} : ∀ {st st' : List Record × List Nat},
      fieldsRecords rt plain desc m fields st = .ok st' →
      ∃ rows, List.Forall₂ (fun (field : FieldDescriptor) (row : List Record) =>
          ∃ counts counts', fieldRecords rt plain desc m counts field = .ok (row, counts'))
          fields rows ∧ st'.1 = st.1 ++ rows.flatten := by
  induction fields with
  | nil =>
      intro st st' h
      cases h
      exact ⟨[], .nil, by rw [List.flatten_nil, List.append_nil]⟩
  | cons field fields ih =>
      intro st st' h
      unfold fieldsRecords at ih h
      rw [List.foldlM_cons] at h
      obtain ⟨mid, hmid, h⟩ := bind_eq_ok.mp h
      obtain ⟨⟨row, counts⟩, hrow, heq⟩ := bind_eq_ok.mp hmid
      cases heq
      obtain ⟨rows, hrows, hst⟩ := ih h
      refine ⟨row :: rows, .cons ⟨_, _, hrow⟩ hrows, ?_⟩
      rw [hst, List.flatten_cons, List.append_assoc]

section Step

variable {u w : World} {rel : ClassId → DescId → ClassId → DescId → Prop}
  {plain : NestedPayload PyVal} {older newer : NestedDecoder}
  {old new : Descriptor} {segs : List Segment} {rows : List (List Record)} {m : PyVal}

/-- What two sides owe each other for the fields of a message, and what the older one wrote for the
fields of an instance it decoded. -/
structure RelaysFields (u w : World) (rel : ClassId → DescId → ClassId → DescId → Prop)
    (plain : NestedPayload PyVal) (older newer : NestedDecoder)
    (old new : Descriptor) (segs : List Segment) (m : PyVal) (rows : List (List Record)) : Prop where
  extended : old.ExtendedBy new
  refs : ∀ f ∈ old.inner.fields, ∀ g ∈ new.inner.fields, f.Kept g →
    RefsRelay u w rel plain older newer f.kind (old.ref f.number) (new.ref g.number)
  zero : ∀ f ∈ old.inner.fields, f.kind = .enum → f.label = .single →
    coerceEnum u (old.ref f.number) 0 = .ok (zeroValue old f)
  zero' : ∀ g ∈ new.inner.fields, g.kind = .enum → g.label = .single →
    coerceEnum w (new.ref g.number) 0 = .ok (zeroValue new g)
  takes : ∀ seg ∈ segs, new.TakesSegment w newer seg
  values : ∀ (i : Nat) (f : FieldDescriptor), old.inner.fields[i]? = some f →
    u.runtime.getattr m f.name = .ok ((slotAfter u older old i f segs).getD (zeroValue old f))
  records : List.Forall₂ (fun (field : FieldDescriptor) (row : List Record) =>
    ∃ counts counts', fieldRecords u.runtime plain old m counts field = .ok (row, counts'))
    old.inner.fields rows
  fits : ∀ rec ∈ rows.flatten, rec.payload.Fits

/-- The row of a field is accepted, taken and brings the slot of the field kept for it back. -/
theorem RelaysFields.row (h : RelaysFields u w rel plain older newer old new segs m rows) {i j : Nat}
    {f g : FieldDescriptor} {row : List Record} (hf : old.inner.fields[i]? = some f)
    (hg : new.inner.fields[j]? = some g) (hkept : f.Kept g) (hrow : rows[i]? = some row) :
    (∀ rec ∈ row, f.accepts rec.payload.wire = true ∧ new.Takes w newer g rec.payload) ∧
      (rebuilt w newer new g (row.map (·.payload))).getD (zeroValue new g)
        = (slotAfter w newer new j g segs).getD (zeroValue new g) := by
  obtain ⟨counts, counts', hrecs⟩ := forall₂_getElem? h.records hf hrow
  have hmem := List.mem_of_getElem? hf
  have hmem' := List.mem_of_getElem? hg
  have hrefs := h.refs f hmem g hmem' hkept
  exact (slotAfter_relays h.extended hf hg hkept hrefs h.takes).written hkept
    (h.extended.oldFormed.shaped f hmem) hrefs (h.zero f hmem) (h.zero' g hmem') (h.values i f hf)
    hrecs fun rec hrec => h.fits rec (List.mem_flatten.mpr ⟨row, List.mem_of_getElem? hrow, hrec⟩)

/-- **A member that lost its oneof wrote nothing.** -/
theorem RelaysFields.lost (h : RelaysFields u w rel plain older newer old new segs m rows) {i k : Nat}
    {f f' : FieldDescriptor} (hne : k ≠ i) (hf : old.inner.fields[i]? = some f)
    (hf' : old.inner.fields[k]? = some f') (hshares : f'.SharesOneof f)
    (hset : (slotAfter u older old i f segs).isSome = true) :
    slotAfter u older old k f' segs = none := by
  obtain ⟨group, hgroup', hgroup⟩ := hshares
  rw [slotAfter_of_group h.extended.oldFormed.shaped hf hgroup] at hset
  rw [slotAfter_of_group h.extended.oldFormed.shaped hf' hgroup']
  unfold contendedSlot at hset ⊢
  rw [FieldDescriptor.contest_of_some hgroup] at hset
  rw [FieldDescriptor.contest_of_some hgroup']
  cases hlast : (old.claims (.group group) segs).getLast? with
  | none => rfl
  | some c =>
      rw [hlast, Option.bind_some] at hset
      rw [Option.bind_some]
      by_cases hidx : c.idx = i
      · rw [if_neg (by omega)]
      · rw [if_neg hidx] at hset
        cases hset

/-- **What is written for the fields are rows.** -/
theorem RelaysFields.wrote (h : RelaysFields u w rel plain older newer old new segs m rows) :
    Rows old rows where
  own := by
    rw [List.forall₂_iff_get]
    refine ⟨h.records.length_eq, fun i hi hi' rec hrec => ?_⟩
    have hf := List.getElem?_eq_getElem hi
    have hrow := List.getElem?_eq_getElem hi'
    obtain ⟨g, hg, hkept⟩ := h.extended.inner.field _ (List.mem_of_getElem? hf)
    obtain ⟨j, hj⟩ := List.mem_iff_getElem?.mp hg
    obtain ⟨counts, counts', hrecs⟩ := forall₂_getElem? h.records hf hrow
    exact ⟨number_of_fieldRecords hrecs rec hrec, ((h.row hf hj hkept hrow).1 rec hrec).1⟩
  alone := by
    intro i k f f' row row' hne hf hf' hrow hrow' hshares
    by_cases hset : (slotAfter u older old i f segs).isSome = true
    · -- the other member has no value
      right
      obtain ⟨group, hgroup', -⟩ := id hshares
      obtain ⟨hmap, hlabel⟩ := not_collection_of_group h.extended.oldFormed.shaped hf' hgroup'
      have hget := h.values k f' hf'
      rw [h.lost hne hf hf' hshares hset, Option.getD_none, zeroValue_optional hmap hlabel] at hget
      obtain ⟨counts, counts', hrecs⟩ := forall₂_getElem? h.records hf' hrow'
      exact row_of_unset hmap hlabel hget hrecs
    · left
      obtain ⟨group, -, hgroup⟩ := id hshares
      obtain ⟨hmap, hlabel⟩ := not_collection_of_group h.extended.oldFormed.shaped hf hgroup
      have hget := h.values i f hf
      rw [Option.not_isSome_iff_eq_none.mp hset, Option.getD_none, zeroValue_optional hmap hlabel]
        at hget
      obtain ⟨counts, counts', hrecs⟩ := forall₂_getElem? h.records hf hrow
      exact row_of_unset hmap hlabel hget hrecs

/-- **The newer side takes what is passed on.** -/
theorem RelaysFields.takes_relayed (h : RelaysFields u w rel plain older newer old new segs m rows) :
    ∀ seg ∈ relayed old rows.flatten segs, new.TakesSegment w newer seg := by
  intro seg hseg
  rcases List.mem_append.mp hseg with hseg | hseg
  · obtain ⟨rec, hrec, rfl⟩ := List.mem_map.mp hseg
    obtain ⟨row, hrow, hrec⟩ := List.mem_flatten.mp hrec
    obtain ⟨i, hi⟩ := List.mem_iff_getElem?.mp hrow
    obtain ⟨f, hf⟩ := h.wrote.field hi
    obtain ⟨j, g, hg, hkept, htarget⟩ := h.extended.target_some
      (h.wrote.target h.extended.oldFormed h.extended.oldNumbers hf hi hrec)
    intro j' g' htarget'
    rw [htarget] at htarget'
    cases htarget'
    exact ((h.row hf hg hkept hi).1 rec hrec).2
  · exact h.takes seg (List.mem_filter.mp hseg).1

/-- **Every field of the newer side comes back.** -/
theorem RelaysFields.slots (h : RelaysFields u w rel plain older newer old new segs m rows) {j : Nat}
    {g : FieldDescriptor} (hg : new.inner.fields[j]? = some g) :
    (slotAfter w newer new j g (relayed old rows.flatten segs)).getD (zeroValue new g)
      = (slotAfter w newer new j g segs).getD (zeroValue new g) := by
  by_cases hkept : ∃ f ∈ old.inner.fields, f.Kept g
  · obtain ⟨f, hf, hkept⟩ := hkept
    obtain ⟨i, hi⟩ := List.mem_iff_getElem?.mp hf
    have hlt : i < rows.length := by
      rw [← h.records.length_eq]
      exact (List.getElem?_eq_some_iff.mp hi).1
    have hrow := List.getElem?_eq_getElem hlt
    rw [h.extended.slotAfter_rows h.wrote hi hrow hg hkept]
    exact (h.row hi hg hkept hrow).2
  · rw [h.extended.slotAfter_new h.wrote hg fun f hf hkept' => hkept ⟨f, hf, hkept'⟩]

end Step

/-! ## All messages -/

/-- **A newer program knows the messages of an older one.** Related classes have a table that extends
the other, and the messages a kept field refers to on the two sides are related again. -/
structure Evolves (u w : World) (rel : ClassId → DescId → ClassId → DescId → Prop) : Prop where
  extended : ∀ c d c' d', rel c d c' d' →
    (u.descriptor d).inner.ExtendedBy (w.descriptor d').inner
  messages : ∀ c d c' d', rel c d c' d' → ∀ f ∈ (u.descriptor d).inner.fields,
    ∀ g ∈ (w.descriptor d').inner.fields, f.Kept g → f.kind.refersToMessage = true →
    ∀ e de e' de', (u.descriptor d).ref f.number = some (buildLinkedRef e (u.cls e)) →
      (u.cls e).fastproto = some de →
      (w.descriptor d').ref g.number = some (buildLinkedRef e' (w.cls e')) →
      (w.cls e').fastproto = some de' → rel e de e' de'

/-- **What passes through the older side** with this many levels left: a message the newer side reads,
the older one reads, and what it writes for it the newer one reads as the same message. -/
def PassesThrough (u w : World) (levels : Nat) (rel : ClassId → DescId → ClassId → DescId → Prop) :
    Prop :=
  ∀ c d c' d' data m', rel c d c' d' → decodeMessage w levels c' d' data = .ok m' →
    ∃ values unknown,
      decodeMessage u levels c d data = .ok (instanceOf c (u.descriptor d) values unknown) ∧
      SeenAs u w rel .message (instanceOf c (u.descriptor d) values unknown) m' ∧
      ∀ recs rest, messageRecords u.runtime levels (instanceOf c (u.descriptor d) values unknown) d
          = .ok (recs, rest) → (recordsBytes recs ++ rest).length < 2 ^ 64 →
        decodeMessage w levels c' d' (recordsBytes recs ++ rest) = .ok m'

section Worlds

variable {u w : World} {domU domW : ClassId → DescId → Prop}
  {rel : ClassId → DescId → ClassId → DescId → Prop}

/-- **Fields owe each other what their messages do**, one level down. -/
theorem PassesThrough.refs {levels : Nat} (h : PassesThrough u w levels rel) (hu : Family u domU)
    (hw : Family w domW) (hev : Evolves u w rel) {c d c' d' : Nat} (hrel : rel c d c' d')
    (hdom : domU c d) (hdom' : domW c' d') {f g : FieldDescriptor}
    (hf : f ∈ (u.descriptor d).inner.fields) (hg : g ∈ (w.descriptor d').inner.fields)
    (hkept : f.Kept g) :
    RefsRelay u w rel (plainPayload u.runtime levels) (decodeMessage u levels) (decodeMessage w levels)
      f.kind ((u.descriptor d).ref f.number) ((w.descriptor d').ref g.number) where
  message := by
    intro hrefers data value' hvalue'
    obtain ⟨e, de, href, hproto, -⟩ := hu.messages c d hdom f hf hrefers
    obtain ⟨e', de', href', hproto', -⟩ := hw.messages c' d' hdom' g hg
      (by rw [hkept.kind]; exact hrefers)
    have hnext := hev.messages c d c' d' hrel f hf g hg hkept hrefers e de e' de' href hproto href'
      hproto'
    have hread : ∀ data, decodeMessageValue (decodeMessage w levels)
        ((w.descriptor d').ref g.number) data = decodeMessage w levels e' de' data := fun data => by
      simp only [decodeMessageValue, href', buildLinkedRef, hproto']
    rw [hread] at hvalue'
    obtain ⟨values, unknown, hdecode, hseen, hback⟩ := h e de e' de' data value' hnext hvalue'
    refine ⟨instanceOf e (u.descriptor de) values unknown, ?_, by simp [instanceOf], hseen,
      fun out hout hfits => ?_⟩
    · simp only [decodeMessageValue, href, buildLinkedRef, hproto]
      exact hdecode
    · unfold plainPayload at hout
      rw [href] at hout
      have hdesc : (buildLinkedRef e (u.cls e)).desc = some de := by rw [buildLinkedRef_desc, hproto]
      have hnested := @nestedDescriptor_instanceOf u _ (u.descriptor de) de values unknown hdesc
      rw [buildLinkedRef_cls] at hnested
      rw [hnested, ok_bind] at hout
      obtain ⟨⟨recs, rest⟩, hrecs, hout⟩ := bind_eq_ok.mp hout
      cases hout
      rw [hread]
      exact hback recs rest hrecs hfits
  enum := by
    intro hrefers i value' hvalue'
    obtain ⟨e, enum, href, hproto, henum, hmissing, -⟩ := hu.enums c d hdom f hf hrefers
    obtain ⟨e', enum', href', hproto', henum', hmissing', -⟩ := hw.enums c' d' hdom' g hg
      (by rw [hkept.kind]; exact hrefers)
    rw [href'] at hvalue'
    have hcoerce := coerceEnum_linked hproto henum hmissing i
    refine ⟨_, by rw [href]; exact hcoerce, ?_, decodedLeaves_extractI32 hproto henum hmissing hcoerce,
      decodedLeaves_extractI32 hproto' henum' hmissing' hvalue'⟩
    split <;> simp

/-- **One more level.** -/
theorem PassesThrough.succ {levels : Nat} (h : PassesThrough u w levels rel) (hu : Family u domU)
    (hw : Family w domW) (hev : Evolves u w rel)
    (hdoms : ∀ c d c' d', rel c d c' d' → domU c d ∧ domW c' d') :
    PassesThrough u w (levels + 1) rel := by
  intro c d c' d' data m' hrel hdecode
  obtain ⟨hdom, hdom'⟩ := hdoms c d c' d' hrel
  have hgen := hu.generated c d hdom
  have hgen' := hw.generated c' d' hdom'
  have hshaped := hgen.wellFormed.shaped
  have hshaped' := hgen'.wellFormed.shaped
  have hext : (u.descriptor d).ExtendedBy (w.descriptor d') :=
    ⟨hev.extended c d c' d' hrel, hgen.wellFormed, hgen'.wellFormed, hgen.numbers, hgen'.numbers⟩
  -- the newer side reads the data, so it takes every segment
  rw [decodeMessage_succ] at hdecode
  obtain ⟨st', hst', hconstruct⟩ := bind_eq_ok.mp hdecode
  rw [construct_generated hw hdom' (decodeFields_ready hshaped' hst').collections] at hconstruct
  cases hconstruct
  obtain ⟨segs, hsplit, hfold'⟩ := (decodeFields_eq_ok hshaped').mp hst'
  have hafter' := foldlM_after hshaped' hfold'
  have htakes := (foldlM_takes hshaped' (DecodeState.ready_init _)).mp ⟨st', hfold'⟩
  have hrefs : ∀ f ∈ (u.descriptor d).inner.fields, ∀ g ∈ (w.descriptor d').inner.fields, f.Kept g →
      RefsRelay u w rel (plainPayload u.runtime levels) (decodeMessage u levels)
        (decodeMessage w levels) f.kind ((u.descriptor d).ref f.number)
        ((w.descriptor d').ref g.number) :=
    fun f hf g hg hkept => h.refs hu hw hev hrel hdom hdom' hf hg hkept
  -- so does the older one
  have htakes' : ∀ seg ∈ segs,
      (u.descriptor d).TakesSegment u (decodeMessage u levels) seg := by
    intro seg hseg i f htarget
    obtain ⟨hf, -⟩ := Descriptor.target_eq_some htarget
    obtain ⟨j, g, hg, hkept, htarget'⟩ := hext.target_some htarget
    exact (hrefs f (List.mem_of_getElem? hf) g (List.mem_of_getElem? hg) hkept).takes hkept
      (htakes seg hseg j g htarget')
  obtain ⟨st, hfold⟩ := (foldlM_takes hshaped (DecodeState.ready_init _)).mpr htakes'
  have hafter := foldlM_after hshaped hfold
  have hst := (decodeFields_eq_ok hshaped).mpr ⟨segs, hsplit, hfold⟩
  have hready := decodeFields_ready hshaped hst
  have hseen : SeenAs u w rel .message
      (instanceOf c (u.descriptor d) (filledValues (u.descriptor d) st.values) st.unknown)
      (instanceOf c' (w.descriptor d') (filledValues (w.descriptor d') st'.values) st'.unknown) := by
    have hget : ∀ (i : Nat) (f : FieldDescriptor), (u.descriptor d).inner.fields[i]? = some f → _ :=
      fun i f hf => getattr_filledValues hgen hready.length hf (hafter.slots i f hf) st.unknown
    have hget' : ∀ (j : Nat) (g : FieldDescriptor), (w.descriptor d').inner.fields[j]? = some g → _ :=
      fun j g hg => getattr_filledValues hgen' (decodeFields_ready hshaped' hst').length hg
        (hafter'.slots j g hg) st'.unknown
    refine .message hrel (fun f hf g hg _ => ?_) fun f hf g hg hkept v v' hv hv' => ?_
    · obtain ⟨i, hi⟩ := List.mem_iff_getElem?.mp hf
      obtain ⟨j, hj⟩ := List.mem_iff_getElem?.mp hg
      exact ⟨⟨_, hget i f hi⟩, ⟨_, hget' j g hj⟩⟩
    · obtain ⟨i, hi⟩ := List.mem_iff_getElem?.mp hf
      obtain ⟨j, hj⟩ := List.mem_iff_getElem?.mp hg
      obtain rfl := Except.ok.inj ((hget i f hi).symm.trans hv)
      obtain rfl := Except.ok.inj ((hget' j g hj).symm.trans hv')
      have hfield := hrefs f hf g hg hkept
      exact (slotAfter_relays hext hi hj hkept hfield htakes).seen hkept (hshaped f hf) hfield
        (fun hkind hlabel => coerceEnum_zeroValue hu hdom hf hkind hlabel)
        fun hkind hlabel => coerceEnum_zeroValue hw hdom' hg hkind hlabel
  refine ⟨filledValues (u.descriptor d) st.values, st.unknown, ?_, hseen,
    fun recs rest hrecs hfits => ?_⟩
  · rw [decodeMessage_succ, hst, ok_bind]
    exact construct_generated hu hdom hready.collections _
  -- what the older side writes
  have hlen : (filledValues (u.descriptor d) st.values).length = _ :=
    length_filledValues hready.length
  rw [messageRecords_succ, World.runtime_descriptor] at hrecs
  obtain ⟨⟨frecs, counts⟩, hfields, hrecs⟩ := bind_eq_ok.mp hrecs
  obtain ⟨_, -, hrecs⟩ := bind_eq_ok.mp hrecs
  rw [unknownOf_instanceOf hgen hlen, ok_bind] at hrecs
  obtain ⟨rfl, rfl⟩ : frecs = recs ∧ st.unknown = rest := by simpa using hrecs
  obtain ⟨rows, hrows, hflat⟩ := fieldsRecords_rows hfields
  dsimp only at hflat
  rw [List.nil_append] at hflat
  subst hflat
  have hrelay : RelaysFields u w rel (plainPayload u.runtime levels) (decodeMessage u levels)
      (decodeMessage w levels) (u.descriptor d) (w.descriptor d') segs
      (instanceOf c (u.descriptor d) (filledValues (u.descriptor d) st.values) st.unknown) rows :=
    { extended := hext
      refs := hrefs
      zero := fun f hf hkind hlabel => coerceEnum_zeroValue hu hdom hf hkind hlabel
      zero' := fun g hg hkind hlabel => coerceEnum_zeroValue hw hdom' hg hkind hlabel
      takes := htakes
      values := fun i f hf => getattr_filledValues hgen hready.length hf (hafter.slots i f hf) _
      records := hrows
      fits := fits_of_recordsBytes (by rw [List.length_append] at hfits; omega) }
  -- what the newer side makes of it
  have hsplit' : Split Reader.readSegment (recordsBytes rows.flatten ++ st.unknown)
      (relayed (u.descriptor d) rows.flatten segs) := by
    rw [hafter.unknown, Descriptor.leftover_eq]
    refine (split_segments fun rec hrec => ⟨?_, hrelay.fits rec hrec⟩).append (split_filter hsplit _)
    obtain ⟨row, hrow, hrec⟩ := List.mem_flatten.mp hrec
    obtain ⟨f, hf, hown⟩ := exists_left_of_forall₂ hrelay.wrote.own hrow
    rw [(hown rec hrec).1]
    exact hgen.valid f hf
  obtain ⟨st'', hfold''⟩ := (foldlM_takes hshaped' (DecodeState.ready_init _)).mpr
    hrelay.takes_relayed
  have hafter'' := foldlM_after hshaped' hfold''
  have hst'' := (decodeFields_eq_ok hshaped').mpr ⟨_, hsplit', hfold''⟩
  rw [decodeMessage_succ, hst'', ok_bind,
    construct_generated hw hdom' (decodeFields_ready hshaped' hst'').collections, hafter''.unknown,
    hext.leftover_relayed hrelay.wrote, hafter'.unknown]
  have hvalues : filledValues (w.descriptor d') st''.values
      = filledValues (w.descriptor d') st'.values := by
    refine List.ext_getElem? fun j => ?_
    cases hg : (w.descriptor d').inner.fields[j]? with
    | none => rw [filledValues, filledValues, List.getElem?_zipWith, List.getElem?_zipWith, hg]
    | some g =>
        rw [filledValues_getElem? hg (hafter''.slots j g hg),
          filledValues_getElem? hg (hafter'.slots j g hg), hrelay.slots hg]
  rw [hvalues]

/-- **At every depth, what a newer side reads passes through the older one.** -/
theorem passesThrough (hu : Family u domU) (hw : Family w domW) (hev : Evolves u w rel)
    (hdoms : ∀ c d c' d', rel c d c' d' → domU c d ∧ domW c' d') :
    ∀ levels, PassesThrough u w levels rel
  | 0 => fun _ _ _ _ _ _ _ h => by cases h
  | levels + 1 => (passesThrough hu hw hev hdoms levels).succ hu hw hev hdoms

/-- **One older reader in between**: what it has, and what it passes on. -/
theorem decode_relayed (hu : Family u domU) (hw : Family w domW) (hev : Evolves u w rel)
    (hdoms : ∀ c d c' d', rel c d c' d' → domU c d ∧ domW c' d') {c d c' d' : Nat}
    (hrel : rel c d c' d') {data : Bytes} {m' : PyVal} (h : decode w d' c' data = .ok m') :
    ∃ m, decode u d c data = .ok m ∧ SeenAs u w rel .message m m' ∧
      ∀ out, encode u.runtime d m = .ok out → out.length ≤ isizeMax →
        decode w d' c' out = .ok m' := by
  obtain ⟨values, unknown, hdecode, hseen, hback⟩ :=
    passesThrough hu hw hev hdoms (maxDepth + 1) c d c' d' data m' hrel h
  refine ⟨_, hdecode, hseen, fun out hout hlen => ?_⟩
  obtain ⟨recs, rest, hrecs, rfl⟩ := encodeMessage_eq_ok.mp hout
  exact hback recs rest hrecs (by unfold isizeMax at hlen; omega)

end Worlds

/-! ## Any number of older readers -/

/-- **A program of an older schema** that handles a message class of the newer one. -/
structure OlderReader (w : World) (dom : ClassId → DescId → Prop) (cls : ClassId) (desc : DescId) where
  world : World
  olderDom : ClassId → DescId → Prop
  rel : ClassId → DescId → ClassId → DescId → Prop
  olderCls : ClassId
  olderDesc : DescId
  family : Family world olderDom
  evolves : Evolves world w rel
  doms : ∀ c d c' d', rel c d c' d' → olderDom c d ∧ dom c' d'
  related : rel olderCls olderDesc cls desc

section Chain

variable {w : World} {dom : ClassId → DescId → Prop} {cls : ClassId} {descId : DescId}

/-- Decode the bytes and encode what came out. -/
def OlderReader.pass (r : OlderReader w dom cls descId) (data : Bytes) : PyResult Bytes := do
  let m ← decode r.world r.olderDesc r.olderCls data
  encode r.world.runtime r.olderDesc m

/-- **Bytes on their way through older readers**, in whatever order and as often as they come. -/
inductive PassedOn (w : World) (dom : ClassId → DescId → Prop) (cls : ClassId) (descId : DescId)
    (data : Bytes) : Bytes → Prop where
  | sent : PassedOn w dom cls descId data data
  | hop {mid out : Bytes} (h : PassedOn w dom cls descId data mid) (r : OlderReader w dom cls descId)
      (hpass : r.pass mid = .ok out) (hlen : out.length ≤ isizeMax) :
      PassedOn w dom cls descId data out

/-- What is decoded can be encoded, unless a Duration is out of range. -/
theorem encode_of_decode (hfam : Family w dom) (hdom : dom cls descId)
    (hduration : ∀ cls desc, dom cls desc → ∀ field ∈ (w.descriptor desc).inner.fields,
      field.kind.isDuration = false) {data : Bytes} {m : PyVal}
    (h : decode w descId cls data = .ok m) : ∃ out, encode w.runtime descId m = .ok out := by
  obtain ⟨recs, unknown, hrecs⟩ := messageRecords_of_conforms hfam (decodedLeaves_enumsEncode w)
    (fun cls desc hd field hfield hkind => by
      rw [hduration cls desc hd field hfield] at hkind
      cases hkind) (maxDepth + 1) cls descId m hdom
    (decodeMessage_conforms hfam _ cls descId data m hdom h)
  exact ⟨_, encodeMessage_eq_ok.mpr ⟨recs, unknown, hrecs, rfl⟩⟩

/-- One hop keeps what the newer side reads. -/
theorem OlderReader.decode_pass (r : OlderReader w dom cls descId) (hw : Family w dom) {data : Bytes}
    {m' : PyVal} (h : decode w descId cls data = .ok m') :
    ∃ m, decode r.world r.olderDesc r.olderCls data = .ok m ∧ SeenAs r.world w r.rel .message m m' ∧
      ∀ out, r.pass data = .ok out → out.length ≤ isizeMax → decode w descId cls out = .ok m' := by
  obtain ⟨m, hm, hseen, hback⟩ := decode_relayed r.family hw r.evolves r.doms r.related h
  refine ⟨m, hm, hseen, fun out hpass hlen => hback out ?_ hlen⟩
  unfold pass at hpass
  rwa [hm, ok_bind] at hpass

/-- After any number of hops the newer side reads the same message. -/
theorem PassedOn.decode_eq (hw : Family w dom) {data out : Bytes} {m' : PyVal}
    (hpassed : PassedOn w dom cls descId data out) (h : decode w descId cls data = .ok m') :
    decode w descId cls out = .ok m' := by
  induction hpassed with
  | sent => exact h
  | hop _ r hpass hlen ih =>
      obtain ⟨m, -, -, hback⟩ := r.decode_pass hw ih
      exact hback _ hpass hlen

/-- **Forward compatibility.** A message a newer program reads is the same message for it after any
number of older programs decoded and encoded it on the way; and each next one decodes what it gets,
and encodes it if none of its messages has a Duration. -/
theorem decode_passedOn (hw : Family w dom) {data out : Bytes} {m' : PyVal}
    (h : decode w descId cls data = .ok m') (hpassed : PassedOn w dom cls descId data out) :
    decode w descId cls out = .ok m' ∧ ∀ r : OlderReader w dom cls descId,
      ∃ m, decode r.world r.olderDesc r.olderCls out = .ok m ∧
        ((∀ c d, r.olderDom c d → ∀ field ∈ (r.world.descriptor d).inner.fields,
          field.kind.isDuration = false) → ∃ next, encode r.world.runtime r.olderDesc m = .ok next) := by
  have hread := hpassed.decode_eq hw h
  refine ⟨hread, fun r => ?_⟩
  obtain ⟨m, hm, -⟩ := r.decode_pass hw hread
  exact ⟨m, hm, fun hduration =>
    encode_of_decode r.family (r.doms _ _ _ _ r.related).1 hduration hm⟩

/-- **Older readers see the message**: in whatever order and however often older programs decoded and
encoded it on the way, each one has in the fields it knows, at every depth, what the newer program has
in the message that was sent. -/
theorem decode_seen (hw : Family w dom) {data out : Bytes} {m' : PyVal}
    (h : decode w descId cls data = .ok m') (hpassed : PassedOn w dom cls descId data out)
    (r : OlderReader w dom cls descId) :
    ∃ m, decode r.world r.olderDesc r.olderCls out = .ok m ∧ SeenAs r.world w r.rel .message m m' := by
  obtain ⟨m, hm, hseen, -⟩ := r.decode_pass hw (hpassed.decode_eq hw h)
  exact ⟨m, hm, hseen⟩

end Chain

/-! ## An older schema of the recursive class

`message M { int32 a = 1; M m = 3; }`, before the field `e` was added. -/

/-- The serialized `DescriptorProto` of the older `M`. -/
def earlierBytes : Bytes :=
  [0x0a, 1, 0x4d,
    0x12, 9, 0x0a, 1, 0x61, 0x18, 1, 0x20, 1, 0x28, 5,
    0x12, 13, 0x0a, 1, 0x6d, 0x18, 3, 0x20, 1, 0x28, 11, 0x32, 2, 0x2e, 0x4d]

/-- The older `M` as the parser returns it. -/
def earlierMessage : MessageDescriptor where
  name := "M"
  fields := [
    { number := 1, name := "a", kind := .scalar .int32, label := .single, typeName := none,
      oneofIndex := none },
    { number := 3, name := "m", kind := .message, label := .optional, typeName := some "M",
      oneofIndex := none }]
  oneofs := []

/-- The dataclass generated for the older `M`. -/
def earlierClass : PyClass where
  mro := [{ dataclass := some { fields := [
    { name := "a", default := some (.int 0) },
    { name := "m", default := some .pyNone }] } }]
  fastproto := some 0

/-- The class generated for the older file, linked. -/
def earlierWorld : World where
  cls _ := earlierClass
  descriptor _ :=
    { inner := earlierMessage
      refs := some [(3, buildLinkedRef 0 earlierClass)]
      linked := true }

/-- The older class is a family. -/
theorem family_earlierWorld : Family earlierWorld (fun cls desc => cls = 0 ∧ desc = 0) where
  generated := by
    rintro _ _ ⟨rfl, rfl⟩
    exact {
      fastproto := rfl
      metaCall := rfl
      concrete := rfl
      dataclass := ⟨_, rfl, rfl, .cons ⟨rfl, rfl, rfl, .inl rfl⟩
        (.cons ⟨rfl, rfl, rfl, .inl rfl⟩ .nil)⟩
      parsed := ⟨earlierBytes, by rfl⟩
      numbers := by decide
      valid := by decide
      names := by decide
      slot := by decide }
  messages := by
    rintro _ _ ⟨rfl, rfl⟩ field hfield hkind
    refine ⟨0, 0, ?_, rfl, rfl, rfl⟩
    rcases hfield with _ | ⟨_, _ | ⟨_, hfield⟩⟩
    · cases hkind
    · rfl
    · cases hfield
  enums := by
    rintro _ _ ⟨rfl, rfl⟩ field hfield hkind
    rcases hfield with _ | ⟨_, _ | ⟨_, hfield⟩⟩
    · cases hkind
    · cases hkind
    · cases hfield
  fast := by
    rintro _ _ ⟨rfl, rfl⟩ fast hfast
    cases hfast

/-- No field of the two messages stands in a oneof. -/
theorem not_sharesOneof_recursive {f g : FieldDescriptor}
    (h : f ∈ earlierMessage.fields ∨ f ∈ recursiveMessage.fields) : ¬ f.SharesOneof g := by
  have hold : ∀ f ∈ earlierMessage.fields, f.group = none := by decide
  have hnew : ∀ f ∈ recursiveMessage.fields, f.group = none := by decide
  rintro ⟨group, hgroup, -⟩
  have hnone : f.group = none := h.elim (hold f) (hnew f)
  rw [hnone] at hgroup
  cases hgroup

/-- The reader of the older schema. -/
def earlierReader : OlderReader recursiveWorld (fun cls desc => cls = 0 ∧ desc = 0) 0 0 where
  world := earlierWorld
  olderDom cls desc := cls = 0 ∧ desc = 0
  rel c d c' d' := (c = 0 ∧ d = 0) ∧ c' = 0 ∧ d' = 0
  olderCls := 0
  olderDesc := 0
  family := family_earlierWorld
  evolves :=
    { extended := by
        rintro _ _ _ _ ⟨⟨rfl, rfl⟩, rfl, rfl⟩
        exact {
          field := by decide
          group := fun _ hf _ _ _ hg _ _ _ _ _ => iff_of_false
            (not_sharesOneof_recursive (.inl hf)) (not_sharesOneof_recursive (.inr hg))
          whole := fun _ _ _ hg _ _ _ hshares =>
            absurd hshares (not_sharesOneof_recursive (.inr hg)) }
      messages := by
        rintro _ _ _ _ ⟨⟨rfl, rfl⟩, rfl, rfl⟩ f hf g hg hkept hrefers e de e' de' href hproto href'
          hproto'
        rcases hf with _ | ⟨_, _ | ⟨_, hf⟩⟩
        · cases hrefers
        · have hnumber : g.number = 3 := hkept.number
          rw [hnumber] at href'
          have he : 0 = e := by
            have := congrArg LinkedRef.cls (Option.some.inj href)
            rwa [buildLinkedRef_cls, buildLinkedRef_cls] at this
          have he' : 0 = e' := by
            have := congrArg LinkedRef.cls (Option.some.inj href')
            rwa [buildLinkedRef_cls, buildLinkedRef_cls] at this
          subst he he'
          cases hproto
          cases hproto'
          exact ⟨⟨rfl, rfl⟩, rfl, rfl⟩
        · cases hf }
  doms := fun _ _ _ _ h => h
  related := ⟨⟨rfl, rfl⟩, rfl, rfl⟩

/-- The older reader drops what was given twice and passes the field it does not know on; the newer
one reads the message it was sent. -/
theorem decode_passedOn_earlierReader :
    let out := [0x08, 0x07, 0x1a, 0x02, 0x10, 0x00, 0x10, 0x01]
    earlierReader.pass recursiveData = .ok out ∧
      decode recursiveWorld 0 0 out = .ok (instanceOf 0 (recursiveWorld.descriptor 0)
        [.int 7, .member 1 1,
          instanceOf 0 (recursiveWorld.descriptor 0) [.int 0, .member 1 0, .pyNone] []] []) ∧
      ∀ r : OlderReader recursiveWorld (fun cls desc => cls = 0 ∧ desc = 0) 0 0,
        ∃ m, decode r.world r.olderDesc r.olderCls out = .ok m ∧
          ((∀ c d, r.olderDom c d → ∀ field ∈ (r.world.descriptor d).inner.fields,
            field.kind.isDuration = false) →
              ∃ next, encode r.world.runtime r.olderDesc m = .ok next) :=
  ⟨rfl, decode_passedOn family_recursiveWorld (show decode recursiveWorld 0 0 recursiveData = .ok _ from rfl)
    (.hop .sent earlierReader rfl (by decide))⟩

/-- What the older reader has of the message, after it was passed on once. -/
theorem decode_seen_earlierReader : ∃ m,
    decode earlierWorld 0 0 [0x08, 0x07, 0x1a, 0x02, 0x10, 0x00, 0x10, 0x01] = .ok m ∧
      SeenAs earlierWorld recursiveWorld earlierReader.rel .message m
        (instanceOf 0 (recursiveWorld.descriptor 0) [.int 7, .member 1 1,
          instanceOf 0 (recursiveWorld.descriptor 0) [.int 0, .member 1 0, .pyNone] []] []) :=
  decode_seen family_recursiveWorld (show decode recursiveWorld 0 0 recursiveData = .ok _ from rfl)
    (.hop .sent earlierReader rfl (by decide)) earlierReader

end FastProto
