import FastProto.Wire
import Mathlib.Data.List.Sort

/-! # The compiled message descriptor (`src/descriptor/mod.rs`)

The digested form of a message that the encoder and the decoder walk over, free of Python objects,
and `FieldIndex`, the lookup table from wire numbers to field indexes. -/

namespace FastProto

/-- Maximum message nesting the codec will follow. -/
def maxDepth : Nat := 100

/-- A protobuf scalar (leaf) value type. -/
inductive ScalarType where
  | double | float
  | int32 | int64 | uint32 | uint64 | sint32 | sint64
  | fixed32 | fixed64 | sfixed32 | sfixed64
  | bool | string | bytes
  deriving DecidableEq, Repr

/-- The wire type used to encode a single value of this scalar. -/
def ScalarType.wireType : ScalarType → WireType
  | .double | .fixed64 | .sfixed64 => .i64
  | .float | .fixed32 | .sfixed32 => .i32
  | .string | .bytes => .len
  | _ => .varint

/-- Whether this scalar is eligible for packed encoding when repeated. -/
def ScalarType.isPackable : ScalarType → Bool
  | .string | .bytes => false
  | _ => true

/-- The cardinality of a field. -/
inductive Label where
  /-- No explicit presence: the default value is not serialized. -/
  | single
  /-- Explicit presence, `T | None` in Python. -/
  | optional
  /-- A `repeated` field, `list[T]` in Python. -/
  | repeated
  deriving DecidableEq, Repr

/-- The value type of a map's value slot. -/
inductive MapValue where
  | scalar (scalar : ScalarType)
  | enum
  | message
  | timestamp
  | duration
  deriving DecidableEq, Repr

/-- What kind of value a field holds (independent of its cardinality). -/
inductive FieldKind where
  | scalar (scalar : ScalarType)
  | enum
  | message
  | map (key : ScalarType) (value : MapValue)
  | timestamp
  | duration
  deriving DecidableEq, Repr

/-- The kind of field a map's value slot is encoded as. -/
def MapValue.kind : MapValue → FieldKind
  | .scalar s => .scalar s
  | .enum => .enum
  | .message => .message
  | .timestamp => .timestamp
  | .duration => .duration

/-- Whether a repeated field of this kind is written as one packed record. -/
def FieldKind.isPacked : FieldKind → Bool
  | .scalar s => s.isPackable
  | .enum => true
  | _ => false

/-- Whether a kind is the one of a map field. -/
def FieldKind.isMap : FieldKind → Bool
  | .map _ _ => true
  | _ => false

/-- A kind that is a map carries a key type and a value type. -/
theorem FieldKind.isMap_iff {kind : FieldKind} :
    kind.isMap = true ↔ ∃ key value, kind = .map key value := by
  cases kind with
  | map key value => simp [isMap]
  | _ => simp [isMap]

/-- A map's value slot is no map. -/
@[simp] theorem MapValue.kind_isMap (value : MapValue) : value.kind.isMap = false := by
  cases value <;> rfl

/-- One field of a message. -/
structure FieldDescriptor where
  /-- Protobuf field number (the tag). -/
  number : UInt32
  /-- The Python attribute name on the dataclass instance. -/
  name : String
  kind : FieldKind
  label : Label
  /-- Fully-qualified proto name (minus the leading dot) of the class the field refers to. -/
  typeName : Option String
  /-- Index into `MessageDescriptor.oneofs` if this is a real oneof member. -/
  oneofIndex : Option UInt32
  deriving DecidableEq, Repr

/-- A whole message type. -/
structure MessageDescriptor where
  name : String
  fields : List FieldDescriptor
  /-- Names of the declared oneof groups, index-aligned with `FieldDescriptor.oneofIndex`. -/
  oneofs : List String
  deriving DecidableEq, Repr

/-! ## The field index -/

/-- Precomputed field-number to field-index lookup. -/
inductive FieldIndex where
  /-- `table[number] = index + 1`, 0 = no such field. -/
  | dense (table : List UInt32)
  /-- Sorted `(number, index)` pairs. -/
  | sparse (pairs : List (UInt32 × UInt32))
  deriving DecidableEq, Repr

/-- The order `sort_unstable` sorts the pairs by. -/
def pairLe (a b : UInt32 × UInt32) : Bool := a.1 < b.1 || (a.1 == b.1 && a.2 ≤ b.2)

/-- `dedup_by_key` on the number: drop an element with the number of the one kept before it. -/
def dedupByNumber (prev : Option UInt32) : List (UInt32 × UInt32) → List (UInt32 × UInt32)
  | [] => []
  | a :: rest =>
      if prev = some a.1 then dedupByNumber prev rest else a :: dedupByNumber (some a.1) rest

/-- One round of the loop that fills the dense table: the first declaration keeps its slot. -/
def fillSlot (table : List UInt32) (entry : FieldDescriptor × Nat) : List UInt32 :=
  if table[entry.1.number.toNat]? = some 0 then
    table.set entry.1.number.toNat (UInt32.ofNat entry.2 + 1)
  else table

/-- Build the lookup table of a message's fields. -/
def FieldIndex.build (fields : List FieldDescriptor) : FieldIndex :=
  let max := (fields.map (·.number.toNat)).foldl Nat.max 0
  if max ≤ Nat.max (fields.length * 4) 64 then
    .dense (fields.zipIdx.foldl fillSlot (List.replicate (max + 1) 0))
  else
    .sparse (dedupByNumber none
      ((fields.zipIdx.map fun (f, i) => (f.number, UInt32.ofNat i)).mergeSort pairLe))

/-- The index into `fields` of the field with this wire number, if any. In the sorted table, whose
numbers are distinct, the binary search finds the pair with the number. -/
def FieldIndex.get : FieldIndex → UInt32 → Option Nat
  | .dense table, number =>
      match table[number.toNat]? with
      | some slot => if slot ≠ 0 then some (slot.toNat - 1) else none
      | none => none
  | .sparse pairs, number => (pairs.find? fun p => p.1 == number).map fun p => p.2.toNat

/-- The index of the first field with a wire number, by scanning. -/
def fieldByNumber (fields : List FieldDescriptor) (number : UInt32) : Option Nat :=
  fields.findIdx? fun f => f.number == number

/-- What the dense table holds at one number once `fields` are filled in, the first at index
`start`: a slot already taken stays. -/
theorem foldl_fillSlot_getElem (number : UInt32) (fields : List FieldDescriptor) :
    ∀ (start : Nat) (table : List UInt32), start + fields.length < 2 ^ 32 - 1 →
      ((fields.zipIdx start).foldl fillSlot table)[number.toNat]? =
        (table[number.toNat]?).map fun slot =>
          if slot = 0 then
            match fieldByNumber fields number with
            | some i => UInt32.ofNat (start + i) + 1
            | none => 0
          else slot := by
  induction fields with
  | nil =>
      intro start table _
      show table[number.toNat]? = _
      cases table[number.toNat]? with
      | none => rfl
      | some slot =>
          by_cases h : slot = 0
          · simp [fieldByNumber, h]
          · simp [h]
  | cons f fields ih =>
      intro start table hlen
      rw [List.length_cons] at hlen
      rw [List.zipIdx_cons, List.foldl_cons, ih (start + 1) _ (by omega)]
      have hsucc : UInt32.ofNat start + 1 ≠ 0 := by
        rw [Ne, ← UInt32.toNat_inj, UInt32.toNat_add, UInt32.toNat_ofNat']
        simp
        omega
      by_cases hnum : f.number = number
      · -- the field at hand has the number: it takes the slot iff the slot is free
        have hfirst : fieldByNumber (f :: fields) number = some 0 := by
          simp [fieldByNumber, List.findIdx?_cons, hnum]
        rw [hfirst]
        unfold fillSlot
        rw [hnum]
        cases ht : table[number.toNat]? with
        | none => simp [ht]
        | some slot =>
            by_cases h : slot = 0
            · obtain ⟨hbound, -⟩ := List.getElem?_eq_some_iff.mp ht
              simp [h, hbound, hsucc]
            · simp [ht, h]
      · -- another number: the slot is not touched, and the later fields count from one further
        have hskip : fieldByNumber (f :: fields) number
            = (fieldByNumber fields number).map (· + 1) := by
          simp [fieldByNumber, List.findIdx?_cons, hnum]
        have hkeep : (fillSlot table (f, start))[number.toNat]? = table[number.toNat]? := by
          unfold fillSlot
          split
          · rw [List.getElem?_set_ne]
            exact fun h => hnum (UInt32.toNat_inj.mp h)
          · rfl
        rw [hkeep, hskip]
        cases fieldByNumber fields number with
        | none => rfl
        | some i =>
            simp only [Option.map_some]
            rw [show start + 1 + i = start + (i + 1) by omega]

/-- Dropping repeated numbers keeps the first pair of each number not seen before. -/
theorem find?_dedupByNumber (number : UInt32) (pairs : List (UInt32 × UInt32)) :
    ∀ prev, prev ≠ some number →
      (dedupByNumber prev pairs).find? (fun p => p.1 == number)
        = pairs.find? fun p => p.1 == number := by
  induction pairs with
  | nil => intro prev _; rfl
  | cons a rest ih =>
      intro prev hprev
      rw [dedupByNumber]
      by_cases hdrop : prev = some a.1
      · have hne : a.1 ≠ number := fun h => hprev (by rw [hdrop, h])
        rw [if_pos hdrop, ih prev hprev, List.find?_cons_of_neg (by simpa using hne)]
      · rw [if_neg hdrop, List.find?_cons, List.find?_cons]
        by_cases hnum : a.1 = number
        · simp [hnum]
        · have hbeq : (a.1 == number) = false := by simpa using hnum
          rw [hbeq]
          exact ih (some a.1) (by simpa using hnum)

/-- The sort order of the pairs is total. -/
theorem pairLe_total (a b : UInt32 × UInt32) : (pairLe a b || pairLe b a) = true := by
  simp only [pairLe, Bool.or_eq_true, Bool.and_eq_true, decide_eq_true_eq, beq_iff_eq,
    UInt32.lt_iff_toNat_lt, UInt32.le_iff_toNat_le, ← UInt32.toNat_inj]
  omega

/-- The sort order of the pairs is transitive. -/
theorem pairLe_trans (a b c : UInt32 × UInt32) (hab : pairLe a b = true)
    (hbc : pairLe b c = true) : pairLe a c = true := by
  simp only [pairLe, Bool.or_eq_true, Bool.and_eq_true, decide_eq_true_eq, beq_iff_eq,
    UInt32.lt_iff_toNat_lt, UInt32.le_iff_toNat_le, ← UInt32.toNat_inj] at hab hbc ⊢
  omega

/-- Every number of a field list is at most the maximum the table is sized by. -/
theorem le_foldl_max {l : List Nat} {n : Nat} (h : n ∈ l) (acc : Nat) : n ≤ l.foldl Nat.max acc := by
  induction l generalizing acc with
  | nil => cases h
  | cons a l ih =>
      rw [List.foldl_cons]
      rcases List.mem_cons.mp h with rfl | h
      · have hmono : ∀ (l : List Nat) (acc : Nat), acc ≤ l.foldl Nat.max acc := by
          intro l
          induction l with
          | nil => intro acc; exact Nat.le_refl _
          | cons b l ih => intro acc; exact Nat.le_trans (Nat.le_max_left _ _) (ih _)
        exact Nat.le_trans (Nat.le_max_right _ _) (hmono l _)
      · exact ih h _

/-- The sorted table finds the first declaration of a number. -/
theorem find?_sorted_pairs {fields : List FieldDescriptor} (hlen : fields.length < 2 ^ 32)
    (number : UInt32) :
    ((((fields.zipIdx.map fun (f, i) => (f.number, UInt32.ofNat i)).mergeSort pairLe).find?
      fun p => p.1 == number).map fun p => p.2.toNat) = fieldByNumber fields number := by
  generalize hpairs : (fields.zipIdx.map fun (f, i) => (f.number, UInt32.ofNat i)) = pairs
  have hmem : ∀ p, p ∈ pairs.mergeSort pairLe ↔
      ∃ i f, fields[i]? = some f ∧ p = (f.number, UInt32.ofNat i) := by
    intro p
    rw [List.mem_mergeSort, ← hpairs, List.mem_map]
    constructor
    · rintro ⟨⟨f, i⟩, hfi, rfl⟩
      exact ⟨i, f, List.mem_zipIdx_iff_getElem?.mp hfi, rfl⟩
    · rintro ⟨i, f, hfi, rfl⟩
      exact ⟨(f, i), List.mem_zipIdx_iff_getElem?.mpr hfi, rfl⟩
  have hsorted := List.pairwise_mergeSort pairLe_trans pairLe_total pairs
  generalize pairs.mergeSort pairLe = sorted at hmem hsorted
  cases hfind : sorted.find? (fun p => p.1 == number) with
  | none =>
      symm
      rw [Option.map_none, fieldByNumber, List.findIdx?_eq_none_iff]
      intro f hf
      obtain ⟨i, hi⟩ := List.mem_iff_getElem?.mp hf
      have := List.find?_eq_none.mp hfind _ ((hmem _).mpr ⟨i, f, hi, rfl⟩)
      simpa using this
  | some p =>
      obtain ⟨hp, before, after, rfl, hbefore⟩ := List.find?_eq_some_iff_append.mp hfind
      obtain ⟨i, f, hi, rfl⟩ := (hmem p).mp (by simp)
      have hnum : f.number = number := by simpa using hp
      have hilt : i < fields.length := (List.getElem?_eq_some_iff.mp hi).1
      symm
      rw [Option.map_some, fieldByNumber, List.findIdx?_eq_some_iff_getElem, UInt32.toNat_ofNat',
        Nat.mod_eq_of_lt (by omega)]
      refine ⟨hilt, ?_, ?_⟩
      · rw [(List.getElem?_eq_some_iff.mp hi).2]
        simpa using hnum
      · -- an earlier field with the number would come first in the sorted table
        intro j hj
        have hjlt : j < fields.length := by omega
        intro hjnum
        have hjnum' : fields[j].number = number := by simpa using hjnum
        have hmemj := (hmem (fields[j].number, UInt32.ofNat j)).mpr
          ⟨j, fields[j], List.getElem?_eq_getElem hjlt, rfl⟩
        have hjval : (UInt32.ofNat j).toNat = j := by rw [UInt32.toNat_ofNat']; omega
        have hival : (UInt32.ofNat i).toNat = i := by rw [UInt32.toNat_ofNat']; omega
        rcases List.mem_append.mp hmemj with h | h
        · have := hbefore _ h
          simp [hjnum'] at this
        · rcases List.mem_cons.mp h with h | h
          · have hij := congrArg (fun q : UInt32 × UInt32 => q.2.toNat) h
            simp only [hjval, hival] at hij
            omega
          · have hle := (List.pairwise_cons.mp (List.pairwise_append.mp hsorted).2.1).1 _ h
            simp only [pairLe, Bool.or_eq_true, Bool.and_eq_true, decide_eq_true_eq, beq_iff_eq,
              UInt32.lt_iff_toNat_lt, UInt32.le_iff_toNat_le, hjnum', hnum, hjval, hival] at hle
            omega

/-- **The lookup table finds what a scan of the fields finds**, in either representation. -/
theorem FieldIndex.get_build {fields : List FieldDescriptor} (hlen : fields.length < 2 ^ 32 - 1)
    (number : UInt32) : (build fields).get number = fieldByNumber fields number := by
  unfold build
  by_cases hdense : (fields.map (·.number.toNat)).foldl Nat.max 0
      ≤ Nat.max (fields.length * 4) 64
  · simp only [if_pos hdense, get]
    rw [foldl_fillSlot_getElem number fields 0 _ (by omega), List.getElem?_replicate]
    cases hfirst : fieldByNumber fields number with
    | none =>
        by_cases hbound : number.toNat < (fields.map (·.number.toNat)).foldl Nat.max 0 + 1
        · simp [hbound]
        · simp [hbound]
    | some i =>
        obtain ⟨hilt, hi, -⟩ := List.findIdx?_eq_some_iff_getElem.mp hfirst
        have hmem : number.toNat ∈ fields.map (·.number.toNat) := by
          refine List.mem_map.mpr ⟨fields[i], List.getElem_mem hilt, ?_⟩
          rw [show fields[i].number = number by simpa using hi]
        have hle := le_foldl_max hmem 0
        have hval : (UInt32.ofNat i + 1).toNat = i + 1 := by
          rw [UInt32.toNat_add, UInt32.toNat_ofNat']
          simp
          omega
        have hne : UInt32.ofNat i + 1 ≠ 0 := by
          rw [Ne, ← UInt32.toNat_inj, hval]
          simp
        rw [if_pos (by omega)]
        simp [hne, hval]
  · simp only [if_neg hdense, get]
    rw [find?_dedupByNumber number _ none (by simp)]
    exact find?_sorted_pairs (by omega) number

/-- The slots of the direct table stay within the number of fields seen. -/
theorem foldl_fillSlot_le (fields : List FieldDescriptor) :
    ∀ (start : Nat) (table : List UInt32), (∀ slot ∈ table, slot.toNat ≤ start) →
      ∀ slot ∈ (fields.zipIdx start).foldl fillSlot table, slot.toNat ≤ start + fields.length := by
  induction fields with
  | nil => exact fun start table h => h
  | cons f fields ih =>
      intro start table h
      rw [List.zipIdx_cons, List.foldl_cons, List.length_cons, ← Nat.add_assoc, Nat.add_right_comm]
      refine ih (start + 1) _ fun slot hslot => ?_
      have hnew : (UInt32.ofNat start + 1).toNat ≤ start + 1 := by
        rw [UInt32.toNat_add, UInt32.toNat_ofNat']
        have := Nat.mod_le start (2 ^ 32)
        simp
        omega
      unfold fillSlot at hslot
      split at hslot
      · rcases List.mem_or_eq_of_mem_set hslot with hold | rfl
        · exact Nat.le_succ_of_le (h slot hold)
        · exact hnew
      · exact Nat.le_succ_of_le (h slot hslot)

/-- Dropping repeated numbers adds no pair. -/
theorem mem_of_mem_dedupByNumber {pairs : List (UInt32 × UInt32)} {p : UInt32 × UInt32} :
    ∀ {prev}, p ∈ dedupByNumber prev pairs → p ∈ pairs := by
  induction pairs with
  | nil => exact fun h => h
  | cons a rest ih =>
      intro prev h
      rw [dedupByNumber] at h
      split at h
      · exact List.mem_cons_of_mem a (ih h)
      · rcases List.mem_cons.mp h with rfl | h
        · exact List.mem_cons_self
        · exact List.mem_cons_of_mem a (ih h)

/-- **The lookup table never points past the fields**, however many there are. -/
theorem FieldIndex.get_lt {fields : List FieldDescriptor} {number : UInt32} {idx : Nat}
    (h : (build fields).get number = some idx) : idx < fields.length := by
  unfold build at h
  dsimp only at h
  split at h
  · simp only [get] at h
    split at h
    · rename_i slot hslot
      by_cases hzero : slot = 0
      · rw [if_neg (not_not.mpr hzero)] at h
        cases h
      · rw [if_pos hzero, Option.some.injEq] at h
        have hle := foldl_fillSlot_le fields 0 _ (fun slot hslot => by
          rw [List.eq_of_mem_replicate hslot]
          exact Nat.le_refl 0) slot (List.mem_of_getElem? hslot)
        have hpos : slot.toNat ≠ 0 := fun heq => hzero (UInt32.toNat_inj.mp heq)
        omega
    · cases h
  · simp only [get] at h
    obtain ⟨p, hfind, rfl⟩ := Option.map_eq_some_iff.mp h
    have hmem := List.mem_mergeSort.mp (mem_of_mem_dedupByNumber (List.mem_of_find?_eq_some hfind))
    obtain ⟨⟨f, i⟩, hfi, rfl⟩ := List.mem_map.mp hmem
    have hlt := (List.getElem?_eq_some_iff.mp (List.mem_zipIdx_iff_getElem?.mp hfi)).1
    show (UInt32.ofNat i).toNat < fields.length
    rw [UInt32.toNat_ofNat']
    exact Nat.lt_of_le_of_lt (Nat.mod_le i _) hlt

end FastProto
