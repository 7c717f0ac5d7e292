import FastProto.EncodeRecords
import FastProto.Lib.Cutoff

/-! # The nesting limit

The encoder and the decoder each count the messages they are nested in and refuse the same trees:
those with a path of more than `MAX_DEPTH` message edges. An edge leads from a message to a message
in one of its fields; map entries, Timestamps and Durations are no messages of their own. Against the
same recursion without the limit, both are cut off exactly at such a path. -/

namespace FastProto

open Lib Lib.Cursor

variable {V : Type}

/-- What both recursions raise at the limit. -/
def nestingError : PyErr :=
  .valueError ("message nesting exceeded " ++ toString maxDepth ++ " levels")

/-! ## Paths of message edges -/

/-- **The nested messages in the value of a field**: the value itself, an item of a list, a value of a
map. -/
inductive Runtime.Holds (rt : Runtime V) (field : FieldDescriptor) (value : V) : V → Prop
  | singular (hkind : field.kind = .message) (hlabel : field.label ≠ .repeated)
      (hset : field.label = .optional → (rt.view value).isNone = false) : rt.Holds field value value
  | item {items : List V} {item : V} (hkind : field.kind = .message)
      (hlabel : field.label = .repeated) (hitems : rt.items value = .ok items) (hmem : item ∈ items) :
      rt.Holds field value item
  | mapValue {key : ScalarType} {items : List (V × V)} {entry : V × V}
      (hkind : field.kind = .map key .message) (hview : rt.view value = .dict items)
      (hmem : entry ∈ items) : rt.Holds field value entry.2

section Holds

variable {rt : Runtime V} {field : FieldDescriptor} {value item : V}

/-- The messages in the value of a map field. -/
theorem Runtime.holds_map {key : ScalarType} {valueKind : MapValue}
    (hkind : field.kind = .map key valueKind) : rt.Holds field value item ↔
      ∃ items, rt.view value = .dict items ∧
        ∃ entry ∈ items, valueKind = .message ∧ item = entry.2 := by
  constructor
  · intro h
    cases h with
    | singular hkind' => rw [hkind] at hkind'; cases hkind'
    | item hkind' => rw [hkind] at hkind'; cases hkind'
    | mapValue hkind' hview hmem =>
        rw [hkind] at hkind'
        cases hkind'
        exact ⟨_, hview, _, hmem, rfl, rfl⟩
  · rintro ⟨items, hview, entry, hmem, rfl, rfl⟩
    exact .mapValue hkind hview hmem

/-- The messages in the value of a repeated field. -/
theorem Runtime.holds_repeated (hmap : field.kind.isMap = false) (hlabel : field.label = .repeated) :
    rt.Holds field value item ↔
      ∃ items, rt.items value = .ok items ∧ item ∈ items ∧ field.kind = .message := by
  constructor
  · intro h
    cases h with
    | singular _ hlabel' => exact absurd hlabel hlabel'
    | item hkind _ hitems hmem => exact ⟨_, hitems, hmem, hkind⟩
    | mapValue hkind => rw [hkind] at hmap; cases hmap
  · rintro ⟨items, hitems, hmem, hkind⟩
    exact .item hkind hlabel hitems hmem

/-- The message in the value of a singular field. -/
theorem Runtime.holds_singular (hmap : field.kind.isMap = false) (hlabel : field.label ≠ .repeated) :
    rt.Holds field value item ↔
      field.kind = .message ∧ (field.label = .optional → (rt.view value).isNone = false) ∧
        item = value := by
  constructor
  · intro h
    cases h with
    | singular hkind _ hset => exact ⟨hkind, hset, rfl⟩
    | item _ hlabel' => exact absurd hlabel' hlabel
    | mapValue hkind => rw [hkind] at hmap; cases hmap
  · rintro ⟨hkind, hset, rfl⟩
    exact .singular hkind hlabel hset

end Holds

/-- **A message edge**, between messages with the descriptors they are encoded by. -/
def Runtime.Edge (rt : Runtime V) (s t : V × DescId) : Prop :=
  ∃ field ∈ (rt.descriptor s.2).inner.fields, ∃ value, rt.getattr s.1 field.name = .ok value ∧
    rt.Holds field value t.1 ∧
    nestedDescriptor rt t.1 ((rt.descriptor s.2).ref field.number) = .ok t.2

/-- A path of a number of message edges. -/
inductive Runtime.Path (rt : Runtime V) : Nat → V × DescId → V × DescId → Prop
  | nil (s : V × DescId) : rt.Path 0 s s
  | cons {n : Nat} {s t u : V × DescId} (hedge : rt.Edge s t) (hpath : rt.Path n t u) :
      rt.Path (n + 1) s u

/-- Some path of `n` message edges starts at a message. -/
def Runtime.Deep (rt : Runtime V) (n : Nat) (s : V × DescId) : Prop := ∃ t, rt.Path n s t

section Paths

variable {rt : Runtime V} {s t u : V × DescId} {m n : Nat}

/-- Every message is the start of the empty path. -/
theorem Runtime.deep_zero (rt : Runtime V) (s : V × DescId) : rt.Deep 0 s := ⟨s, .nil s⟩

/-- A path is an edge and the path from its end. -/
theorem Runtime.deep_succ : rt.Deep (n + 1) s ↔ ∃ t, rt.Edge s t ∧ rt.Deep n t := by
  constructor
  · rintro ⟨u, hpath⟩
    cases hpath with
    | cons hedge hpath => exact ⟨_, hedge, u, hpath⟩
  · rintro ⟨t, hedge, u, hpath⟩
    exact ⟨u, .cons hedge hpath⟩

/-- Paths compose. -/
theorem Runtime.Path.append (h : rt.Path m s t) (h' : rt.Path n t u) : rt.Path (m + n) s u := by
  induction h with
  | nil s => rwa [Nat.zero_add]
  | @cons k s t u hedge _ ih =>
      rw [Nat.add_right_comm]
      exact .cons hedge (ih h')

/-- The start of a long path starts shorter ones. -/
theorem Runtime.Deep.of_le (h : rt.Deep n s) (hle : m ≤ n) : rt.Deep m s := by
  induction m generalizing n s with
  | zero => exact rt.deep_zero s
  | succ m ih =>
      obtain ⟨n, rfl⟩ : ∃ k, n = k + 1 := ⟨n - 1, by omega⟩
      obtain ⟨t, hedge, hdeep⟩ := Runtime.deep_succ.mp h
      exact Runtime.deep_succ.mpr ⟨t, hedge, ih hdeep (by omega)⟩

/-- **A path of more than `n` edges** is one of `n + 1`, and more. -/
theorem Runtime.deep_succ_iff_exists : rt.Deep (n + 1) s ↔ ∃ m t, n < m ∧ rt.Path m s t := by
  constructor
  · rintro ⟨t, hpath⟩
    exact ⟨n + 1, t, Nat.lt_succ_self n, hpath⟩
  · rintro ⟨m, t, hlt, hpath⟩
    exact Runtime.Deep.of_le ⟨t, hpath⟩ hlt

/-- Going round a cycle gives paths of any length. -/
theorem Runtime.deep_of_cycle (hreach : rt.Path m s t) (hcycle : rt.Path (n + 1) t t) (k : Nat) :
    rt.Deep k s := by
  have hround : ∀ k, ∃ j, k ≤ j ∧ rt.Path j t t := by
    intro k
    induction k with
    | zero => exact ⟨0, Nat.le_refl 0, .nil t⟩
    | succ k ih =>
        obtain ⟨j, hj, hpath⟩ := ih
        exact ⟨n + 1 + j, by omega, hcycle.append hpath⟩
  obtain ⟨j, hj, hpath⟩ := hround k
  exact Runtime.Deep.of_le ⟨t, hreach.append hpath⟩ (by omega)

end Paths

/-! ## The encoder -/

section Encode

variable {rt : Runtime V} {plain unbounded : NestedPayload V} {e : PyErr}
  {cut : Option LinkedRef → V → Prop}

/-- **The nested messages of an encoder are cut off** where `cut` holds. -/
def CutsOff (e : PyErr) (cut : Option LinkedRef → V → Prop) (plain unbounded : NestedPayload V) :
    Prop :=
  ∀ value linked data, unbounded value linked = .ok data →
    CutOff e (cut linked value) (plain value linked) (unbounded value linked)

/-- Of the single values only messages are cut off. -/
theorem valuePayload_cutOff (hcut : CutsOff e cut plain unbounded) {kind : FieldKind} {value : V}
    {linked : Option LinkedRef} {payload : Payload}
    (h : valuePayload rt unbounded kind value linked = .ok payload) :
    CutOff e (kind = .message ∧ cut linked value) (valuePayload rt plain kind value linked)
      (valuePayload rt unbounded kind value linked) := by
  cases kind with
  | message =>
      obtain ⟨data, hdata, -⟩ := bind_eq_ok.mp h
      exact ((hcut value linked data hdata).bind_same _).congr (by simp)
  | _ => exact (CutOff.refl _).congr (by simp)

/-- An entry of a map is cut off at its value. -/
theorem entryPayload_cutOff (hcut : CutsOff e cut plain unbounded) {key : ScalarType}
    {valueKind : MapValue} {linked : Option LinkedRef} {entry : V × V} {payload : Payload}
    (h : entryPayload rt unbounded key valueKind linked entry = .ok payload) :
    CutOff e (valueKind = .message ∧ cut linked entry.2)
      (entryPayload rt plain key valueKind linked entry)
      (entryPayload rt unbounded key valueKind linked entry) := by
  obtain ⟨keyPayload, hkey, h⟩ := bind_eq_ok.mp h
  obtain ⟨payload', hvalue, -⟩ := bind_eq_ok.mp h
  have hkind : valueKind.kind = .message ↔ valueKind = .message := by
    cases valueKind <;> simp [MapValue.kind]
  exact (CutOff.after hkey ((valuePayload_cutOff hcut hvalue).bind_same _)).congr (by rw [hkind])

/-- A map is cut off at one of its values. -/
theorem mapRecords_cutOff (hcut : CutsOff e cut plain unbounded) {number : UInt32} {key : ScalarType}
    {valueKind : MapValue} {value : V} {linked : Option LinkedRef} {recs : List Record}
    (h : mapRecords rt unbounded number key valueKind value linked = .ok recs) :
    CutOff e (∃ items, rt.view value = .dict items ∧
        ∃ entry ∈ items, valueKind = .message ∧ cut linked entry.2)
      (mapRecords rt plain number key valueKind value linked)
      (mapRecords rt unbounded number key valueKind value linked) := by
  unfold mapRecords at h ⊢
  cases hview : rt.view value with
  | dict items =>
      rw [hview] at h
      obtain ⟨payloads, hpayloads, -⟩ := bind_eq_ok.mp h
      have hitems := CutOff.mapM hpayloads fun entry _ payload hp => entryPayload_cutOff hcut hp
      exact (hitems.bind_same _).congr (by simp)
  | _ => rw [hview] at h; cases h

/-- A repeated field is cut off at one of its items. -/
theorem repeatedRecords_cutOff (hcut : CutsOff e cut plain unbounded) {number : UInt32}
    {kind : FieldKind} {value : V} {linked : Option LinkedRef} {recs : List Record}
    (h : repeatedRecords rt unbounded number kind value linked = .ok recs) :
    CutOff e (∃ items, rt.items value = .ok items ∧ ∃ item ∈ items, kind = .message ∧ cut linked item)
      (repeatedRecords rt plain number kind value linked)
      (repeatedRecords rt unbounded number kind value linked) := by
  unfold repeatedRecords at h ⊢
  by_cases hstr : (rt.view value).isStrOrBytes = true
  · rw [if_pos hstr] at h
    cases h
  · rw [if_neg hstr] at h
    rw [if_neg hstr, if_neg hstr]
    cases kind with
    | map key value => cases h
    | _ =>
        obtain ⟨items, hitems, h⟩ := bind_eq_ok.mp h
        obtain ⟨payloads, hpayloads, -⟩ := bind_eq_ok.mp h
        have hcuts := CutOff.mapM hpayloads fun item _ payload hp => valuePayload_cutOff hcut hp
        exact (CutOff.after hitems (hcuts.bind_same _)).congr (by simp [hitems])

/-- **A field is cut off at a message in its value.** -/
theorem fieldRecords_cutOff (hcut : CutsOff e cut plain unbounded) {desc : Descriptor}
    {instance_ value : V} {counts : List Nat} {field : FieldDescriptor}
    (hget : rt.getattr instance_ field.name = .ok value) {out : List Record × List Nat}
    (h : fieldRecords rt unbounded desc instance_ counts field = .ok out) :
    CutOff e (∃ item, rt.Holds field value item ∧ cut (desc.ref field.number) item)
      (fieldRecords rt plain desc instance_ counts field)
      (fieldRecords rt unbounded desc instance_ counts field) := by
  by_cases hmap : field.kind.isMap = true
  · obtain ⟨key, valueKind, hkind⟩ := FieldKind.isMap_iff.mp hmap
    rw [fieldRecords_map rt _ hget hkind] at h
    rw [fieldRecords_map rt _ hget hkind, fieldRecords_map rt _ hget hkind]
    obtain ⟨recs, hrecs, -⟩ := bind_eq_ok.mp h
    refine ((mapRecords_cutOff hcut hrecs).bind_same _).congr ?_
    simp only [Runtime.holds_map hkind]
    constructor
    · rintro ⟨items, hview, entry, hmem, hvalue, hcut⟩
      exact ⟨entry.2, ⟨items, hview, entry, hmem, hvalue, rfl⟩, hcut⟩
    · rintro ⟨_, ⟨items, hview, entry, hmem, hvalue, rfl⟩, hcut⟩
      exact ⟨items, hview, entry, hmem, hvalue, hcut⟩
  · have hnot : field.kind.isMap = false := by simpa using hmap
    -- a value that is written and not a list is cut off where it is a message
    have hsingular : field.label ≠ .repeated →
        (field.label = .optional → (rt.view value).isNone = false) →
        ((field.kind = .message ∧ cut (desc.ref field.number) value) ↔
          ∃ item, rt.Holds field value item ∧ cut (desc.ref field.number) item) := by
      intro hlabel hset
      simp only [Runtime.holds_singular hnot hlabel]
      constructor
      · rintro ⟨hkind, hcut⟩
        exact ⟨value, ⟨hkind, hset, rfl⟩, hcut⟩
      · rintro ⟨_, ⟨hkind, -, rfl⟩, hcut⟩
        exact ⟨hkind, hcut⟩
    cases hlabel : field.label with
    | repeated =>
        rw [fieldRecords_repeated rt _ hget hnot hlabel] at h
        rw [fieldRecords_repeated rt _ hget hnot hlabel, fieldRecords_repeated rt _ hget hnot hlabel]
        obtain ⟨recs, hrecs, -⟩ := bind_eq_ok.mp h
        refine ((repeatedRecords_cutOff hcut hrecs).bind_same _).congr ?_
        simp only [Runtime.holds_repeated hnot hlabel]
        constructor
        · rintro ⟨items, hitems, item, hmem, hkind, hcut⟩
          exact ⟨item, ⟨items, hitems, hmem, hkind⟩, hcut⟩
        · rintro ⟨item, ⟨items, hitems, hmem, hkind⟩, hcut⟩
          exact ⟨items, hitems, item, hmem, hkind, hcut⟩
    | optional =>
        by_cases hnone : (rt.view value).isNone = true
        · rw [fieldRecords_none rt _ hget hnot hlabel hnone,
            fieldRecords_none rt _ hget hnot hlabel hnone]
          refine (CutOff.refl _).congr ⟨False.elim, ?_⟩
          rintro ⟨item, hitem, -⟩
          have hset := ((Runtime.holds_singular hnot (by simp [hlabel])).mp hitem).2.1 hlabel
          rw [hnone] at hset
          cases hset
        · have hset : (rt.view value).isNone = false := by simpa using hnone
          rw [fieldRecords_some rt _ hget hnot hlabel hset] at h
          rw [fieldRecords_some rt _ hget hnot hlabel hset,
            fieldRecords_some rt _ hget hnot hlabel hset]
          obtain ⟨counts', hcounts, h⟩ := bind_eq_ok.mp h
          obtain ⟨payload, hpayload, -⟩ := bind_eq_ok.mp h
          exact (CutOff.after hcounts ((valuePayload_cutOff hcut hpayload).bind_same _)).congr
            (hsingular (by simp [hlabel]) fun _ => hset)
    | single =>
        rw [fieldRecords_single rt _ hget hnot hlabel] at h
        rw [fieldRecords_single rt _ hget hnot hlabel, fieldRecords_single rt _ hget hnot hlabel]
        obtain ⟨payload, hpayload, -⟩ := bind_eq_ok.mp h
        exact ((valuePayload_cutOff hcut hpayload).bind_same _).congr
          (hsingular (by simp [hlabel]) (by simp [hlabel]))

/-- **The fields of a message are cut off at a message in the value of one of them.** -/
theorem fieldsRecords_cutOff (hcut : CutsOff e cut plain unbounded) {desc : Descriptor}
    {instance_ : V} {fields : List FieldDescriptor} {st out : List Record × List Nat}
    (h : fieldsRecords rt unbounded desc instance_ fields st = .ok out) :
    CutOff e (∃ field ∈ fields, ∃ value, rt.getattr instance_ field.name = .ok value ∧
        ∃ item, rt.Holds field value item ∧ cut (desc.ref field.number) item)
      (fieldsRecords rt plain desc instance_ fields st)
      (fieldsRecords rt unbounded desc instance_ fields st) := by
  refine CutOff.foldlM h fun field _ st st' hstep => ?_
  obtain ⟨out, hfield, -⟩ := bind_eq_ok.mp hstep
  obtain ⟨value, hget, -⟩ := bind_eq_ok.mp hfield
  refine ((fieldRecords_cutOff hcut hget hfield).bind_same _).congr ?_
  simp [hget]

/-- **The encoder is cut off at the paths that exceed its levels**, against the same encoder with
more levels that succeeds. -/
theorem messageRecords_cutOff (rt : Runtime V) (levels : Nat) : ∀ unbounded instance_ descId out,
    messageRecords rt unbounded instance_ descId = .ok out →
    CutOff nestingError (rt.Deep levels (instance_, descId))
      (messageRecords rt levels instance_ descId) (messageRecords rt unbounded instance_ descId) := by
  induction levels with
  | zero =>
      exact fun _ instance_ descId _ _ => ⟨fun _ => rfl, fun h => (h (rt.deep_zero _)).elim⟩
  | succ levels ih =>
      intro unbounded instance_ descId out h
      cases unbounded with
      | zero => cases h
      | succ unbounded =>
          have hcut : CutsOff nestingError
              (fun linked value => ∃ d, nestedDescriptor rt value linked = .ok d ∧
                rt.Deep levels (value, d))
              (plainPayload rt levels) (plainPayload rt unbounded) := by
            intro value linked data hdata
            obtain ⟨d, hd, hdata⟩ := bind_eq_ok.mp hdata
            obtain ⟨out', hout', -⟩ := bind_eq_ok.mp hdata
            exact (CutOff.after hd ((ih unbounded value d out' hout').bind_same _)).congr
              (by simp [hd])
          rw [messageRecords_succ] at h
          rw [messageRecords_succ, messageRecords_succ]
          obtain ⟨st, hfields, -⟩ := bind_eq_ok.mp h
          refine ((fieldsRecords_cutOff hcut hfields).bind_same _).congr ?_
          rw [Runtime.deep_succ]
          constructor
          · rintro ⟨field, hfield, value, hget, item, hitem, d, hd, hdeep⟩
            exact ⟨(item, d), ⟨field, hfield, value, hget, hitem, hd⟩, hdeep⟩
          · rintro ⟨⟨item, d⟩, ⟨field, hfield, value, hget, hitem, hd⟩, hdeep⟩
            exact ⟨field, hfield, value, hget, item, hitem, d, hd, hdeep⟩

end Encode

/-- **What is encoded without the limit is refused with the limit exactly when a path is too long.** -/
theorem encode_cutOff {rt : Runtime V} {unbounded : Nat} {instance_ : V} {descId : DescId}
    {buf out : Bytes}
    (h : encodeMessage rt unbounded instance_ descId buf = .ok out) (levels : Nat) :
    CutOff nestingError (rt.Deep levels (instance_, descId))
      (encodeMessage rt levels instance_ descId buf)
      (encodeMessage rt unbounded instance_ descId buf) := by
  rw [encodeMessage_eq] at h
  obtain ⟨recs, hrecs, -⟩ := bind_eq_ok.mp h
  rw [encodeMessage_eq, encodeMessage_eq]
  exact (messageRecords_cutOff rt levels unbounded instance_ descId recs hrecs).bind_same _

end FastProto
