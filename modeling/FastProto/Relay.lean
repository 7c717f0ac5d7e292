import FastProto.Acceptance
import FastProto.Codec

/-! # What an older reader passes on

Two processes share a message type: an older one that knows some of its fields and a newer one that
knows more. The older one decodes a message and encodes it again; the newer one decodes what comes
out. `Relays` says of a value of the older side that the newer side reads it as a given one, and
`SeenAs` that the two are the same message as far as the older side can tell. Here both are followed
through values, lists and maps. -/

namespace FastProto

open Lib Lib.Cursor

/-! ## What the older side has -/

/-- **The newer field `g` is the older field `f`**: names, types it refers to and the place in the
message may have changed, the number, the kind and the label have not. -/
structure FieldDescriptor.Kept (f g : FieldDescriptor) : Prop where
  number : g.number = f.number
  kind : g.kind = f.kind
  label : g.label = f.label

instance (f g : FieldDescriptor) : Decidable (f.Kept g) :=
  decidable_of_iff (g.number = f.number ∧ g.kind = f.kind ∧ g.label = f.label)
    ⟨fun h => ⟨h.1, h.2.1, h.2.2⟩, fun h => ⟨h.number, h.kind, h.label⟩⟩

/-- A kept field takes the same wire types. -/
theorem FieldDescriptor.Kept.accepts {f g : FieldDescriptor} (h : f.Kept g) (wire : WireType) :
    g.accepts wire = f.accepts wire := by
  unfold FieldDescriptor.accepts
  rw [h.kind, h.label]

section Seen

variable (u w : World) (rel : ClassId → DescId → ClassId → DescId → Prop)

mutual

/-- **What the older side has where the newer side has a value**: the same scalars and times, an enum
value of the same number, and a message of a related class with the same fields, as far as the older
side knows them. -/
inductive SeenAs : FieldKind → PyVal → PyVal → Prop where
  | scalar {scalar : ScalarType} (value : PyVal) : SeenAs (.scalar scalar) value value
  | timestamp (value : PyVal) : SeenAs .timestamp value value
  | duration (value : PyVal) : SeenAs .duration value value
  | enum {value value' : PyVal} {i : Int32} (hi : value.shape.extractI32 = .ok i)
      (hi' : value'.shape.extractI32 = .ok i) : SeenAs .enum value value'
  | message {c : ClassId} {d : DescId} {c' : ClassId} {d' : DescId} {attrs attrs' : List (String × PyVal)}
      (hrel : rel c d c' d')
      (set : ∀ f ∈ (u.descriptor d).inner.fields, ∀ g ∈ (w.descriptor d').inner.fields, f.Kept g →
        (∃ v, u.runtime.getattr (.inst c attrs) f.name = .ok v) ∧
          ∃ v', w.runtime.getattr (.inst c' attrs') g.name = .ok v')
      (fields : ∀ f ∈ (u.descriptor d).inner.fields, ∀ g ∈ (w.descriptor d').inner.fields, f.Kept g →
        ∀ v v', u.runtime.getattr (.inst c attrs) f.name = .ok v →
          w.runtime.getattr (.inst c' attrs') g.name = .ok v' → FieldSeenAs f v v') :
      SeenAs .message (.inst c attrs) (.inst c' attrs')

/-- What the older side has in a field: entries with the same keys in the same order, as many items,
and in each place what it has for the value there; nothing where nothing is set. -/
inductive FieldSeenAs : FieldDescriptor → PyVal → PyVal → Prop where
  | dict {f : FieldDescriptor} {key : ScalarType} {valueKind : MapValue}
      {items items' : List (PyVal × PyVal)} (hkind : f.kind = .map key valueKind)
      (keys : items.map Prod.fst = items'.map Prod.fst)
      (values : ∀ (i : Nat) (item item' : PyVal × PyVal), items[i]? = some item →
        items'[i]? = some item' → SeenAs valueKind.kind item.2 item'.2) :
      FieldSeenAs f (.dict items) (.dict items')
  | list {f : FieldDescriptor} {items items' : List PyVal} (hlabel : f.label = .repeated)
      (length : items.length = items'.length)
      (values : ∀ (i : Nat) (item item' : PyVal), items[i]? = some item → items'[i]? = some item' →
        SeenAs f.kind item item') :
      FieldSeenAs f (.list items) (.list items')
  | unset {f : FieldDescriptor} (hlabel : f.label = .optional) : FieldSeenAs f .pyNone .pyNone
  | value {f : FieldDescriptor} {value value' : PyVal} (hlabel : f.label ≠ .repeated)
      (h : SeenAs f.kind value value') : FieldSeenAs f value value'

end

end Seen

/-! ## What the older side passes on -/

section Values

variable (u w : World) (rel : ClassId → DescId → ClassId → DescId → Prop)
  (plain : NestedPayload PyVal) (older newer : NestedDecoder)

/-- **`value` stands for `value'`**: what the older side writes for the one, the newer side reads as
the other. -/
structure Relays (kind : FieldKind) (lu lw : Option LinkedRef) (value value' : PyVal) : Prop where
  reads : ∀ payload, valuePayload u.runtime plain kind value lu = .ok payload → payload.Fits →
    valueOfPayload w newer kind lw payload = .ok value'
  set : value ≠ .pyNone
  seen : SeenAs u w rel kind value value'

/-- **What the references of a field owe**: the older side reads the nested messages and the enum
numbers the newer one reads, and writes something the newer one reads the same way. -/
structure RefsRelay (kind : FieldKind) (lu lw : Option LinkedRef) : Prop where
  message : kind.refersToMessage = true → ∀ data value',
    decodeMessageValue newer lw data = .ok value' →
    ∃ value, decodeMessageValue older lu data = .ok value ∧ value ≠ .pyNone ∧
      SeenAs u w rel .message value value' ∧ ∀ out, plain value lu = .ok out → out.length < 2 ^ 64 →
        decodeMessageValue newer lw out = .ok value'
  enum : kind.refersToEnum = true → ∀ i value', coerceEnum w lw i = .ok value' →
    ∃ value, coerceEnum u lu i = .ok value ∧ value ≠ .pyNone ∧ value.shape.extractI32 = .ok i ∧
      value'.shape.extractI32 = .ok i

variable {u w rel plain older newer} {kind : FieldKind} {lu lw : Option LinkedRef}

/-- The values of a map owe what the map owes. -/
theorem RefsRelay.mapValue {key : ScalarType} {valueKind : MapValue}
    (h : RefsRelay u w rel plain older newer (.map key valueKind) lu lw) :
    RefsRelay u w rel plain older newer valueKind.kind lu lw := by
  cases valueKind with
  | message => exact ⟨h.message, nofun⟩
  | enum => exact ⟨nofun, h.enum⟩
  | _ => exact ⟨nofun, nofun⟩

/-- A scalar stands for itself. -/
theorem relays_scalar {scalar : ScalarType} {value : PyVal} (h : scalar.Holds value) :
    Relays u w rel plain newer (.scalar scalar) lu lw value value where
  reads := by
    intro payload hpayload _
    obtain ⟨payload', hp, hdecode, -⟩ := h.roundTrip
    obtain rfl : payload = payload' := Except.ok.inj (hpayload.symm.trans hp)
    exact hdecode
  set := h.ne_pyNone
  seen := .scalar value

/-- An enum value stands for what the newer side makes of its number. -/
theorem relays_enum {value value' : PyVal} {i : Int32} (hi : value.shape.extractI32 = .ok i)
    (hi' : value'.shape.extractI32 = .ok i) (hset : value ≠ .pyNone)
    (hvalue' : coerceEnum w lw i = .ok value') :
    Relays u w rel plain newer .enum lu lw value value' where
  reads := by
    intro payload hpayload _
    obtain ⟨j, hj, hpayload⟩ := bind_eq_ok.mp hpayload
    obtain rfl : j = i := Except.ok.inj (hj.symm.trans hi)
    cases hpayload
    show decodeEnum w lw _ = _
    rw [decodeEnum, toInt32_signExtend, hvalue']
  set := hset
  seen := .enum hi hi'

/-- A time stands for itself. -/
theorem relays_timestamp {data : Bytes} {value : PyVal} (h : decodeTimestamp data = .ok value) :
    Relays u w rel plain newer .timestamp lu lw value value where
  reads := by
    intro payload hpayload hfits
    obtain ⟨value', hvalue', rfl⟩ := @valueOfPayload_valuePayload w Eq (decodedLeaves w)
      (fun _ _ => True) plain newer congruence_eq .timestamp lw ⟨nofun, nofun⟩ value
      (decodeTimestamp_conforms h) payload hpayload hfits
    exact hvalue'
  set := by
    obtain ⟨d, rfl, -⟩ := decodeTimestamp_conforms h
    nofun
  seen := .timestamp value

/-- A duration stands for itself. -/
theorem relays_duration {data : Bytes} {value : PyVal} (h : decodeDuration data = .ok value) :
    Relays u w rel plain newer .duration lu lw value value where
  reads := by
    intro payload hpayload hfits
    obtain ⟨d, rfl⟩ := decodeDuration_conforms h
    obtain ⟨value', hvalue', rfl⟩ := @valueOfPayload_valuePayload w Eq (decodedLeaves w)
      (fun _ _ => True) plain newer congruence_eq .duration lw ⟨nofun, nofun⟩ (.timedelta d)
      ⟨d, rfl, trivial⟩ payload hpayload hfits
    exact hvalue'
  set := by
    obtain ⟨d, rfl⟩ := decodeDuration_conforms h
    nofun
  seen := .duration value

/-- **A payload the newer side reads, the older side reads**, as a value that stands for it. -/
theorem RefsRelay.value (h : RefsRelay u w rel plain older newer kind lu lw) {payload : Payload}
    {value' : PyVal} (hvalue : valueOfPayload w newer kind lw payload = .ok value') :
    ∃ value, valueOfPayload u older kind lu payload = .ok value ∧
      Relays u w rel plain newer kind lu lw value value' := by
  cases kind with
  | scalar scalar => exact ⟨value', hvalue, relays_scalar (holds_of_scalarOfPayload hvalue)⟩
  | enum =>
      cases payload with
      | varint raw =>
          obtain ⟨value, hcoerce, hset, hi, hi'⟩ := h.enum rfl _ _ hvalue
          exact ⟨value, hcoerce, relays_enum hi hi' hset hvalue⟩
      | _ => cases hvalue
  | message =>
      cases payload with
      | len data =>
          obtain ⟨value, hdecode, hset, hseen, hout⟩ := h.message rfl data value' hvalue
          refine ⟨value, hdecode, ?_, hset, hseen⟩
          intro payload hpayload hfits
          obtain ⟨out, hplain, hpayload⟩ := bind_eq_ok.mp hpayload
          cases hpayload
          exact hout out hplain hfits
      | _ => cases hvalue
  | timestamp =>
      cases payload with
      | len data => exact ⟨value', hvalue, relays_timestamp hvalue⟩
      | _ => cases hvalue
  | duration =>
      cases payload with
      | len data => exact ⟨value', hvalue, relays_duration hvalue⟩
      | _ => cases hvalue
  | map key value => cases hvalue

/-- The default of a map's values is read on both sides. -/
theorem RefsRelay.default {key : ScalarType} {valueKind : MapValue}
    (h : RefsRelay u w rel plain older newer (.map key valueKind) lu lw) {value' : PyVal}
    (hvalue : mapValueDefault w newer valueKind lw = .ok value') :
    ∃ value, mapValueDefault u older valueKind lu = .ok value ∧
      Relays u w rel plain newer valueKind.kind lu lw value value' := by
  cases valueKind with
  | scalar scalar =>
      cases hvalue
      exact ⟨_, rfl, relays_scalar scalar.holds_default⟩
  | enum =>
      obtain ⟨value, hcoerce, hset, hi, hi'⟩ := h.enum rfl 0 _ hvalue
      exact ⟨value, hcoerce, relays_enum hi hi' hset hvalue⟩
  | message => exact @RefsRelay.value _ _ _ _ _ _ _ _ _ h.mapValue (.len []) _ hvalue
  | timestamp =>
      have hempty : decodeTimestamp [] = .ok value' := hvalue
      exact ⟨value', hvalue, relays_timestamp hempty⟩
  | duration =>
      have hempty : decodeDuration [] = .ok value' := hvalue
      exact ⟨value', hvalue, relays_duration hempty⟩

/-- What the older side has seen of an entry stands for what the newer side has: the same key, if
any, and a value that stands for the value, if any. -/
def SeenRelays (u w : World) (rel : ClassId → DescId → ClassId → DescId → Prop)
    (plain : NestedPayload PyVal) (newer : NestedDecoder) (key : ScalarType)
    (valueKind : MapValue) (lu lw : Option LinkedRef) (s t : Option PyVal × Option PyVal) : Prop :=
  s.1 = t.1 ∧ (∀ k ∈ t.1, key.Holds k) ∧
    Option.Rel (Relays u w rel plain newer valueKind.kind lu lw) s.2 t.2

/-- One more record of an entry. -/
theorem RefsRelay.entryStep {key : ScalarType} {valueKind : MapValue}
    (h : RefsRelay u w rel plain older newer (.map key valueKind) lu lw)
    {s t t' : Option PyVal × Option PyVal}
    (hseen : SeenRelays u w rel plain newer key valueKind lu lw s t) {rec : Record}
    (hstep : mapEntryStep w newer key valueKind lw t rec = .ok t') :
    ∃ s', mapEntryStep u older key valueKind lu s rec = .ok s' ∧
      SeenRelays u w rel plain newer key valueKind lu lw s' t' := by
  obtain ⟨hkey, hholds, hval⟩ := hseen
  unfold mapEntryStep at hstep ⊢
  split at hstep
  · rename_i hcond
    obtain ⟨k, hk, hstep⟩ := bind_eq_ok.mp hstep
    cases hstep
    rw [if_pos hcond]
    exact ⟨(some k, s.2), by rw [hk, ok_bind], rfl,
      fun y hy => by cases hy; exact holds_of_scalarOfPayload hk, hval⟩
  · rename_i hnot
    rw [if_neg hnot]
    split at hstep
    · rename_i hcond
      obtain ⟨v', hv', hstep⟩ := bind_eq_ok.mp hstep
      cases hstep
      obtain ⟨v, hv, hrelay⟩ := h.mapValue.value hv'
      rw [if_pos hcond]
      exact ⟨(s.1, some v), by rw [hv, ok_bind], hkey, hholds, .some hrelay⟩
    · rename_i hcond
      cases hstep
      rw [if_neg hcond]
      exact ⟨s, rfl, hkey, hholds, hval⟩

/-- **An entry of a map the newer side reads, the older side reads**, with the key it has. -/
theorem RefsRelay.entry {key : ScalarType} {valueKind : MapValue}
    (h : RefsRelay u w rel plain older newer (.map key valueKind) lu lw) {entry : Bytes} {k v' : PyVal}
    (hentry : decodeMapEntry w newer key valueKind lw entry = .ok (k, v')) :
    ∃ v, decodeMapEntry u older key valueKind lu entry = .ok (k, v) ∧ key.Holds k ∧
      Relays u w rel plain newer valueKind.kind lu lw v v' := by
  obtain ⟨recs, ⟨kseen, vseen'⟩, hsplit, hfold, hfinish⟩ := (decodeMapEntry_eq_ok w newer).mp hentry
  have hstep : ∀ s t rec t', rec ∈ recs → SeenRelays u w rel plain newer key valueKind lu lw s t →
      mapEntryStep w newer key valueKind lw t rec = .ok t' →
      ∃ s', mapEntryStep u older key valueKind lu s rec = .ok s' ∧
        SeenRelays u w rel plain newer key valueKind lu lw s' t' :=
    fun _ _ _ _ _ hrel hstep => h.entryStep hrel hstep
  have hstart : SeenRelays u w rel plain newer key valueKind lu lw (none, none) (none, none) :=
    ⟨rfl, nofun, .none⟩
  obtain ⟨⟨kseen₀, vseen⟩, hfold₀, hkey, hseen, hval⟩ :=
    foldlM_simulates hstep (none, none) (none, none) (kseen, vseen') hstart hfold
  dsimp only at hkey hseen hval
  subst hkey
  have hholds : key.Holds (kseen₀.getD (scalarDefault key)) := by
    cases kseen₀ with
    | none => exact key.holds_default
    | some k => exact hseen k rfl
  have hdone : ∀ v, mapEntryFinish u older key valueKind lu (kseen₀, vseen)
      = .ok (kseen₀.getD (scalarDefault key), v) →
      decodeMapEntry u older key valueKind lu entry = .ok (kseen₀.getD (scalarDefault key), v) :=
    fun v hv => (decodeMapEntry_eq_ok u older).mpr ⟨recs, _, hsplit, hfold₀, hv⟩
  cases hval with
  | some hrelay =>
      cases hfinish
      exact ⟨_, hdone _ rfl, hholds, hrelay⟩
  | none =>
      obtain ⟨x', hx', hfinish⟩ := bind_eq_ok.mp hfinish
      cases hfinish
      obtain ⟨v, hv, hrelay⟩ := h.default hx'
      refine ⟨v, hdone v ?_, hholds, hrelay⟩
      show (mapValueDefault u older valueKind lu >>= fun v => _) = _
      rw [hv, ok_bind]

/-- **The elements of a payload the newer side reads, the older side reads**, one by one. -/
theorem RefsRelay.elements (hmap : kind.isMap = false)
    (h : RefsRelay u w rel plain older newer kind lu lw) {payload : Payload} {items' : List PyVal}
    (hitems : repeatedOfPayload w newer kind lw payload [] = .ok items') :
    ∃ items, repeatedOfPayload u older kind lu payload [] = .ok items ∧
      List.Forall₂ (Relays u w rel plain newer kind lu lw) items items' := by
  have hstep : ∀ (s t : List PyVal) (payload : Payload) (t' : List PyVal),
      List.Forall₂ (Relays u w rel plain newer kind lu lw) s t →
      packedStep w newer kind lw t payload = .ok t' →
      ∃ s', packedStep u older kind lu s payload = .ok s' ∧
        List.Forall₂ (Relays u w rel plain newer kind lu lw) s' t' := by
    intro s t payload t' hrel ht
    obtain ⟨x', hx', ht⟩ := bind_eq_ok.mp ht
    cases ht
    obtain ⟨x, hx, hrelay⟩ := h.value hx'
    exact ⟨s ++ [x], by rw [packedStep, hx, ok_bind],
      List.rel_append hrel (.cons hrelay .nil)⟩
  unfold repeatedOfPayload at hitems ⊢
  cases payload with
  | len chunk =>
      dsimp only at hitems ⊢
      split at hitems
      · rename_i hpacked
        rw [if_pos hpacked]
        obtain ⟨payloads, hsplit, hfold⟩ := (drainAll_eq_ok (Reader.framed_readPayload _)
          (Reader.advances_readPayload _) (packedBody_body w newer hmap lw)).mp hitems
        obtain ⟨items, hfold₀, hrel⟩ := foldlM_simulates
          (fun s t payload t' _ => hstep s t payload t') [] [] items' .nil hfold
        exact ⟨items, (drainAll_eq_ok (Reader.framed_readPayload _) (Reader.advances_readPayload _)
          (packedBody_body u older hmap lu)).mpr ⟨payloads, hsplit, hfold₀⟩, hrel⟩
      · rename_i hpacked
        rw [if_neg hpacked]
        exact hstep [] [] _ items' .nil hitems
  | _ => exact hstep [] [] _ items' .nil hitems

end Values

/-! ## What the older side writes back -/

section Records

variable {u w : World} {rel : ClassId → DescId → ClassId → DescId → Prop}
  {plain : NestedPayload PyVal} {newer : NestedDecoder} {desc' : Descriptor}
  {f g : FieldDescriptor} {lu : Option LinkedRef}

/-- The payload written for a value is one the field reads. -/
theorem written_value (hkept : f.Kept g) (hmap : f.kind.isMap = false) (hlabel : f.label ≠ .repeated)
    {value value' : PyVal}
    (h : Relays u w rel plain newer f.kind lu (desc'.ref g.number) value value') {payload : Payload}
    (hpayload : valuePayload u.runtime plain f.kind value lu = .ok payload) (hfits : payload.Fits) :
    f.accepts payload.wire = true ∧ desc'.Takes w newer g payload ∧
      valueOfPayload w newer g.kind (desc'.ref g.number) payload = .ok value' := by
  have hread := h.reads payload hpayload hfits
  refine ⟨?_, ?_, by rw [hkept.kind]; exact hread⟩
  · rw [FieldDescriptor.accepts, if_neg hlabel, wire_of_valuePayload hpayload, decide_eq_true_eq]
  · exact (takes_singular (by rw [hkept.kind]; exact hmap) (by rw [hkept.label]; exact hlabel)).mpr
      ⟨value', by rw [hkept.kind]; exact hread⟩

/-- The payloads written for items are read one by one. -/
theorem written_items {kind : FieldKind} {lw : Option LinkedRef} {items items' : List PyVal}
    (hrel : List.Forall₂ (Relays u w rel plain newer kind lu lw) items items')
    {payloads : List Payload}
    (hpayloads : List.Forall₂ (fun item payload =>
      valuePayload u.runtime plain kind item lu = .ok payload) items payloads)
    (hfits : ∀ payload ∈ payloads, payload.Fits) :
    List.Forall₂ (fun payload item' => valueOfPayload w newer kind lw payload = .ok item')
      payloads items' := by
  induction hrel generalizing payloads with
  | nil =>
      cases hpayloads
      exact .nil
  | @cons item item' items items' hitem _ ih =>
      obtain ⟨payload, rest, hp, hrest, rfl⟩ := List.forall₂_cons_left_iff.mp hpayloads
      exact .cons (hitem.reads payload hp (hfits payload List.mem_cons_self))
        (ih hrest fun p hp => hfits p (List.mem_cons_of_mem payload hp))

/-- What is written for a list: the payloads of its items, packed or in a record each. -/
theorem repeatedRecords_list_eq_ok {number : UInt32} {kind : FieldKind} (hmap : kind.isMap = false)
    {items : List PyVal} {recs : List Record} :
    repeatedRecords u.runtime plain number kind (.list items) lu = .ok recs ↔
      ∃ payloads, (items.mapM fun item => valuePayload u.runtime plain kind item lu) = .ok payloads ∧
        (if kind.isPacked then packedRecords number payloads
          else payloads.map fun payload => ⟨number, payload⟩) = recs := by
  have hview : u.runtime.items (.list items) = .ok items := rfl
  unfold repeatedRecords
  rw [if_neg (by simp [PyVal.shape, PyShape.isStrOrBytes])]
  cases kind with
  | map key value => cases hmap
  | _ =>
      simp only [hview, ok_bind]
      rw [bind_eq_ok]
      simp only [Except.ok.injEq]

/-- The elements of a list come back, packed into one record or in a record each. -/
theorem written_repeated (hkept : f.Kept g) (hmap : f.kind.isMap = false)
    (hlabel : f.label = .repeated) {items items' : List PyVal}
    (hrel : List.Forall₂ (Relays u w rel plain newer f.kind lu (desc'.ref g.number)) items items')
    {recs : List Record}
    (hrecs : repeatedRecords u.runtime plain f.number f.kind (.list items) lu = .ok recs)
    (hfits : ∀ rec ∈ recs, rec.payload.Fits) :
    (∀ rec ∈ recs, f.accepts rec.payload.wire = true ∧ desc'.Takes w newer g rec.payload) ∧
      (recs.map (·.payload)).flatMap (elementsOf w newer desc' g) = items' := by
  have hmap' : g.kind.isMap = false := by rw [hkept.kind]; exact hmap
  have hlabel' : g.label = .repeated := by rw [hkept.label]; exact hlabel
  obtain ⟨payloads, hpayloads, rfl⟩ := (repeatedRecords_list_eq_ok hmap).mp hrecs
  have hwire : ∀ payload ∈ payloads, payload.wire = f.kind.expectedWire := by
    intro payload hp
    obtain ⟨item, -, hitem⟩ := exists_of_mem_mapM hpayloads hp
    exact wire_of_valuePayload hitem
  -- packed: all elements are one record, which an empty list leaves out
  by_cases hpacked : f.kind.isPacked = true
  · have helems : ∀ payload ∈ payloads, payload.Fits := by
      intro payload hp
      cases payload with
      | len data => exact absurd (hwire _ hp).symm (expectedWire_of_packed hpacked)
      | _ => trivial
    have hdecode := written_items hrel (mapM_eq_ok.mp hpayloads) helems
    rw [if_pos hpacked]
    unfold packedRecords
    dsimp only
    by_cases hempty : payloads = []
    · subst hempty
      cases hdecode
      exact ⟨nofun, rfl⟩
    · have hchunk : repeatedOfPayload w newer g.kind (desc'.ref g.number)
          (.len (payloads.flatMap Payload.bytes)) [] = .ok items' := by
        unfold repeatedOfPayload
        dsimp only
        rw [hkept.kind, if_pos hpacked, Reader.new, drainAll_split (packedBody_body w newer hmap _)
          (split_payloads fun p hp => ⟨hwire p hp, helems p hp⟩), foldlM_packedStep_eq hdecode]
        rfl
      have hne : (payloads.flatMap Payload.bytes).isEmpty = false := by
        cases payloads with
        | nil => exact absurd rfl hempty
        | cons payload payloads =>
            rw [List.flatMap_cons, List.isEmpty_eq_false_iff, Ne, List.append_eq_nil_iff]
            exact fun h => payload.bytes_ne_nil h.1
      rw [hne, if_neg (by decide)]
      refine ⟨fun rec hrec => ?_, ?_⟩
      · rw [List.mem_singleton.mp hrec, FieldDescriptor.accepts, if_pos hlabel,
          FieldKind.takesRepeated]
        exact ⟨by simp [Payload.wire], (takes_repeated hmap' hlabel').mpr ⟨items', hchunk⟩⟩
      · simp [elementsOf, hchunk, Except.toOption]
  · rw [if_neg hpacked] at hfits ⊢
    have hdecode := written_items hrel (mapM_eq_ok.mp hpayloads)
      fun p hp => hfits ⟨f.number, p⟩ (List.mem_map_of_mem hp)
    -- otherwise every element is a record of its own
    have hone : ∀ payload item', valueOfPayload w newer f.kind (desc'.ref g.number) payload
        = .ok item' → payload.wire = f.kind.expectedWire →
        repeatedOfPayload w newer g.kind (desc'.ref g.number) payload [] = .ok [item'] := by
      intro payload item' hitem hp
      have hstep : packedStep w newer f.kind (desc'.ref g.number) [] payload = .ok [item'] := by
        rw [packedStep, hitem, ok_bind]
        rfl
      unfold repeatedOfPayload
      rw [hkept.kind]
      cases payload with
      | len data => dsimp only; rw [if_neg hpacked]; exact hstep
      | _ => exact hstep
    refine ⟨fun rec hrec => ?_, ?_⟩
    · obtain ⟨payload, hp, rfl⟩ := List.mem_map.mp hrec
      obtain ⟨item', -, hitem⟩ := exists_right_of_forall₂ hdecode hp
      refine ⟨?_, (takes_repeated hmap' hlabel').mpr ⟨_, hone payload item' hitem (hwire _ hp)⟩⟩
      rw [FieldDescriptor.accepts, if_pos hlabel, FieldKind.takesRepeated, hwire payload hp]
      simp
    · rw [List.map_map]
      clear hrel hpayloads hrecs hfits
      induction hdecode with
      | nil => rfl
      | @cons payload item' payloads items' hitem _ ih =>
          rw [List.map_cons, List.flatMap_cons,
            ih fun p hp => hwire p (List.mem_cons_of_mem payload hp)]
          simp [elementsOf, hone payload item' hitem (hwire _ List.mem_cons_self), Except.toOption]

/-- **An entry of the older dict stands for an entry of the newer one**: the same key, and a value
that stands for the value. -/
def EntryRelays (u w : World) (rel : ClassId → DescId → ClassId → DescId → Prop)
    (plain : NestedPayload PyVal) (newer : NestedDecoder) (key : ScalarType)
    (valueKind : MapValue) (lu lw : Option LinkedRef) (item item' : PyVal × PyVal) : Prop :=
  item.1 = item'.1 ∧ key.Holds item.1 ∧
    Relays u w rel plain newer valueKind.kind lu lw item.2 item'.2

/-- The entry written for an item is read as the item it stands for. -/
theorem written_entry {key : ScalarType} {valueKind : MapValue} {lw : Option LinkedRef}
    {item item' : PyVal × PyVal} (h : EntryRelays u w rel plain newer key valueKind lu lw item item')
    {payload : Payload} (hpayload : entryPayload u.runtime plain key valueKind lu item = .ok payload)
    (hfits : payload.Fits) :
    ∃ entry, payload = .len entry ∧ decodeMapEntry w newer key valueKind lw entry = .ok item' := by
  obtain ⟨hkey, hholds, hvalue⟩ := h
  unfold entryPayload at hpayload
  obtain ⟨kp, hkp, hpayload⟩ := bind_eq_ok.mp hpayload
  obtain ⟨vp, hvp, hpayload⟩ := bind_eq_ok.mp hpayload
  cases hpayload
  obtain ⟨kp', hkp', hkdecode, -⟩ := hholds.roundTrip
  obtain rfl : kp = kp' := Except.ok.inj (hkp.symm.trans hkp')
  have hrecs : ∀ rec ∈ [(⟨1, kp⟩ : Record), ⟨2, vp⟩], rec.payload.Fits := fits_of_recordsBytes hfits
  have hread := hvalue.reads vp hvp (hrecs ⟨2, vp⟩ (by simp))
  refine ⟨_, rfl, ?_⟩
  rw [decodeMapEntry_entry newer lw (wire_of_scalarPayload hkp) (wire_of_valuePayload hvp) hfits,
    hkdecode, ok_bind, hread, ok_bind, hkey]

/-- The payloads written for the entries of a dict are read as the entries they stand for. -/
theorem written_entries {key : ScalarType} {valueKind : MapValue} {lw : Option LinkedRef}
    {items items' : List (PyVal × PyVal)}
    (hrel : List.Forall₂ (EntryRelays u w rel plain newer key valueKind lu lw) items items')
    {payloads : List Payload} (hpayloads : List.Forall₂ (fun item payload =>
      entryPayload u.runtime plain key valueKind lu item = .ok payload) items payloads)
    (hfits : ∀ payload ∈ payloads, payload.Fits) :
    List.Forall₂ (fun payload item' => ∃ entry, payload = .len entry ∧
      decodeMapEntry w newer key valueKind lw entry = .ok item') payloads items' := by
  induction hrel generalizing payloads with
  | nil =>
      cases hpayloads
      exact .nil
  | @cons item item' items items' hitem _ ih =>
      obtain ⟨payload, rest, hp, hrest, rfl⟩ := List.forall₂_cons_left_iff.mp hpayloads
      exact .cons (written_entry hitem hp (hfits payload List.mem_cons_self))
        (ih hrest fun p hp => hfits p (List.mem_cons_of_mem payload hp))

/-- The entries of a dict come back, a record each. -/
theorem written_map (hkept : f.Kept g) {key : ScalarType} {valueKind : MapValue}
    (hkind : f.kind = .map key valueKind) (hlabel : f.label = .single)
    {items items' : List (PyVal × PyVal)}
    (hrel : List.Forall₂ (EntryRelays u w rel plain newer key valueKind lu (desc'.ref g.number))
      items items') {recs : List Record}
    (hrecs : mapRecords u.runtime plain f.number key valueKind (.dict items) lu = .ok recs)
    (hfits : ∀ rec ∈ recs, rec.payload.Fits) :
    (∀ rec ∈ recs, f.accepts rec.payload.wire = true ∧ desc'.Takes w newer g rec.payload) ∧
      (recs.map (·.payload)).filterMap (entryOf w newer desc' g) = items' := by
  have hkind' : g.kind = .map key valueKind := by rw [hkept.kind]; exact hkind
  obtain ⟨payloads, hpayloads, h⟩ := bind_eq_ok.mp hrecs
  cases h
  have hdecode := written_entries hrel (mapM_eq_ok.mp hpayloads)
    fun p hp => hfits ⟨f.number, p⟩ (List.mem_map_of_mem hp)
  refine ⟨fun rec hrec => ?_, ?_⟩
  · obtain ⟨payload, hp, rfl⟩ := List.mem_map.mp hrec
    obtain ⟨item', -, entry, rfl, hentry⟩ := exists_right_of_forall₂ hdecode hp
    refine ⟨?_, (takes_map hkind').mpr ⟨entry, item', rfl, hentry⟩⟩
    rw [FieldDescriptor.accepts, hlabel, hkind]
    rfl
  · rw [List.map_map]
    clear hrel hpayloads hrecs hfits
    induction hdecode with
    | nil => rfl
    | @cons payload item' payloads items' hitem _ ih =>
        obtain ⟨entry, rfl, hentry⟩ := hitem
        have hread : entryOf w newer desc' g (.len entry) = some item' := by
          unfold entryOf
          simp only [hkind', hentry]
          rfl
        rw [List.map_cons, Function.comp_apply, List.filterMap_cons_some hread, ih]

end Records

end FastProto
