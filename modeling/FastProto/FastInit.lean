import FastProto.Decode

/-! # The guard of the fast construction path (`_fast_init_defaults`)

Decode may build instances with `object.__new__` and `setattr` when running `__init__` cannot be
observed. The guard inspects the class and returns the default objects that `__init__` would assign,
or `none` to send decode through the class. -/

namespace FastProto

open Lib

/-- The entry of a dataclass field in the list of defaults: its default object, or a placeholder for
a field the decoder builds an accumulator for. -/
def DataField.fastDefault (f : DataField) (field : FieldDescriptor) : Option PyVal :=
  if f.init then
    match f.default, f.defaultFactory with
    | some value, _ => some value
    | none, some .list | none, some .dict => if field.isCollection then some .pyNone else none
    | none, _ => none
  else none

/-- `_fast_init_defaults`: the dataclass default objects per field, if decode may bypass
`__init__`. -/
def fastInitDefaults (cls : PyClass) (inner : MessageDescriptor) : Option (List PyVal) :=
  -- the class must be a dataclass itself, not merely inherit one
  match cls.mro.head?.bind (·.dataclass) with
  | none => none
  | some dc =>
      if !dc.frozen && cls.metaCall.isNone && cls.mro.all (·.new.isNone)
          && cls.mro.all (·.postInit.isNone)
          && decide (dc.fields.map (·.name) = inner.fields.map (·.name)) then
        (dc.fields.zip inner.fields).mapM fun (f, field) => f.fastDefault field
      else none

/-- The guard returns a default for every field of the descriptor. -/
theorem length_fastInitDefaults {cls : PyClass} {inner : MessageDescriptor} {defaults : List PyVal}
    (h : fastInitDefaults cls inner = some defaults) : defaults.length = inner.fields.length := by
  have hmapM : ∀ (l : List (DataField × FieldDescriptor)) (ds : List PyVal),
      (l.mapM fun (f, field) => f.fastDefault field) = some ds → ds.length = l.length := by
    intro l
    induction l with
    | nil => intro ds h; cases h; rfl
    | cons p l ih =>
        intro ds h
        rw [List.mapM_cons] at h
        obtain ⟨d, -, h⟩ := Option.bind_eq_some_iff.mp h
        obtain ⟨ds', hds', h⟩ := Option.bind_eq_some_iff.mp h
        cases h
        rw [List.length_cons, List.length_cons, ih ds' hds']
  unfold fastInitDefaults at h
  split at h
  · cases h
  · split at h
    · rename_i dc _ hguard
      have hnames : dc.fields.map (·.name) = inner.fields.map (·.name) := by
        simp only [Bool.and_eq_true, decide_eq_true_eq] at hguard
        exact hguard.2
      have hlen := congrArg List.length hnames
      rw [List.length_map, List.length_map] at hlen
      rw [hmapM _ _ h, List.length_zip, hlen, Nat.min_self]
    · cases h

end FastProto
