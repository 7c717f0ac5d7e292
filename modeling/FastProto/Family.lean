import FastProto.DecodeRecords
import FastProto.EncodeRecords
import FastProto.FastInit

/-! # Families of generated message classes

The classes a generated module defines: every message class is a plain dataclass whose defaults are
the proto3 zero values and whose descriptor comes out of `parse_message`, and every reference of a
descriptor is linked to a class of the family. `construct_generated` says what decode builds of such
a class, on either construction path. -/

namespace FastProto

open Lib

/-! ## Generated classes -/

/-- The proto3 zero value of a field: what its class stores for an absent field. -/
def zeroValue (desc : Descriptor) (field : FieldDescriptor) : PyVal :=
  match field.kind, field.label with
  | .map _ _, _ => .dict []
  | _, .repeated => .list []
  | _, .optional => .pyNone
  | .scalar s, .single => scalarDefault s
  | _, .single =>
      match desc.ref field.number with
      | some linked => .member linked.cls 0
      | none => .int 0

/-- The dataclass entry generated for a field: its zero value as the default or from a factory. -/
structure GeneratedField (desc : Descriptor) (f : DataField) (field : FieldDescriptor) : Prop where
  name : f.name = field.name
  init : f.init = true
  regular : f.fieldType = .regular
  zero : f.default = some (zeroValue desc field) ∨
    f.default = none ∧ ∃ factory, f.defaultFactory = some factory ∧
      factory.make = .ok (zeroValue desc field)

/-- **A message class as the code generator writes it**, with its descriptor. -/
structure GeneratedClass (w : World) (cls : ClassId) (descId : DescId) : Prop where
  fastproto : (w.cls cls).fastproto = some descId
  metaCall : (w.cls cls).metaCall = none
  concrete : (w.cls cls).abstract = false
  /-- The class is one dataclass and writes no constructor machinery of its own. -/
  dataclass : ∃ dc : Dataclass, (w.cls cls).mro = [{ dataclass := some dc }] ∧ dc.init = true ∧
    List.Forall₂ (GeneratedField (w.descriptor descId)) dc.fields (w.descriptor descId).inner.fields
  parsed : ∃ bytes, parseMessage bytes = .ok (w.descriptor descId).inner
  /-- Numbers are distinct and in `1..2^29-1`, names are distinct and none is the hidden slot. -/
  numbers : ((w.descriptor descId).inner.fields.map (·.number)).Nodup
  valid : ∀ field ∈ (w.descriptor descId).inner.fields, ValidNumber field.number
  names : ((w.descriptor descId).inner.fields.map (·.name)).Nodup
  slot : unknownSlot ∉ (w.descriptor descId).inner.fields.map (·.name)

/-- Whether values of a kind, or the values of a map of that kind, are messages of a class. -/
def FieldKind.refersToMessage : FieldKind → Bool
  | .message | .map _ .message => true
  | _ => false

/-- Whether values of a kind, or the values of a map of that kind, are members of an enum. -/
def FieldKind.refersToEnum : FieldKind → Bool
  | .enum | .map _ .enum => true
  | _ => false

/-- **A family of linked message classes**: `dom` holds of a class and its descriptor, every class
of it is generated, every reference is linked as `link` builds it, to a class of the family or to an
enum with a zero value and the default `_missing_`, and the fast path was set up by its guard. -/
structure Family (w : World) (dom : ClassId → DescId → Prop) : Prop where
  generated : ∀ cls desc, dom cls desc → GeneratedClass w cls desc
  messages : ∀ cls desc, dom cls desc → ∀ field ∈ (w.descriptor desc).inner.fields,
    field.kind.refersToMessage = true → ∃ cls' desc',
      (w.descriptor desc).ref field.number = some (buildLinkedRef cls' (w.cls cls')) ∧
        (w.cls cls').fastproto = some desc' ∧ dom cls' desc'
  enums : ∀ cls desc, dom cls desc → ∀ field ∈ (w.descriptor desc).inner.fields,
    field.kind.refersToEnum = true → ∃ cls' enum,
      (w.descriptor desc).ref field.number = some (buildLinkedRef cls' (w.cls cls')) ∧
        (w.cls cls').fastproto = none ∧ (w.cls cls').enum = some enum ∧ enum.missing = none ∧
        0 ∈ enum.values
  fast : ∀ cls desc, dom cls desc → ∀ fast, (w.descriptor desc).fastInit = some fast →
    fastInitDefaults (w.cls fast.cls) (w.descriptor desc).inner = some fast.defaults

/-! ## Building an instance -/

/-- The instance of a class with the given field values and unknown bytes. -/
def instanceOf (cls : ClassId) (desc : Descriptor) (values : List PyVal) (unknown : Bytes) : PyVal :=
  .inst cls ((desc.inner.fields.map (·.name)).zip values ++ [(unknownSlot, .bytes unknown)])

/-- The field values after decoding: an absent field has its zero value. -/
def filledValues (desc : Descriptor) (values : List (Option PyVal)) : List PyVal :=
  List.zipWith (fun field v => v.getD (zeroValue desc field)) desc.inner.fields values

/-- **The descriptor of a generated class is well formed.** -/
theorem GeneratedClass.wellFormed {w : World} {cls : ClassId} {descId : DescId}
    (h : GeneratedClass w cls descId) : (w.descriptor descId).inner.WellFormed where
  shaped := by
    obtain ⟨bytes, hparse⟩ := h.parsed
    exact parseMessage_shaped hparse
  count := by
    -- distinct numbers below 2^29 bound the number of fields
    have hnodup : ((w.descriptor descId).inner.fields.map (·.number.toNat)).Nodup := by
      have := h.numbers.map (f := UInt32.toNat) fun a b hab => UInt32.toNat_inj.mp hab
      rwa [List.map_map] at this
    have hsub : (w.descriptor descId).inner.fields.map (·.number.toNat) ⊆ List.range (2 ^ 29) := by
      intro n hn
      obtain ⟨field, hfield, rfl⟩ := List.mem_map.mp hn
      have := (h.valid field hfield).2
      rw [List.mem_range]
      omega
    have hle := (hnodup.subperm hsub).length_le
    rw [List.length_map, List.length_range] at hle
    omega

/-! ### Keyword arguments -/

/-- Only the names of fields are passed. -/
theorem mem_foldl_passSeen {l : List (FieldDescriptor × Option PyVal)} :
    ∀ {acc : Kwargs} {p : String × PyVal}, p ∈ l.foldl passSeen acc →
      (∃ q ∈ acc, q.1 = p.1) ∨ ∃ q ∈ l, q.1.name = p.1 := by
  induction l with
  | nil => exact fun h => .inl ⟨_, h, rfl⟩
  | cons q l ih =>
      intro acc p h
      rw [List.foldl_cons] at h
      rcases ih h with ⟨r, hr, hname⟩ | ⟨r, hr, hname⟩
      · unfold passSeen at hr
        split at hr
        · rcases mem_upsertBy hr with hr | ⟨-, hk | ⟨v', hv'⟩⟩
          · exact .inl ⟨r, hr, hname⟩
          · exact .inr ⟨q, by simp, hk.symm.trans hname⟩
          · exact .inl ⟨(r.1, v'), hv', hname⟩
        · exact .inl ⟨r, hr, hname⟩
      · exact .inr ⟨r, by simp [hr], hname⟩

/-- A name that no field has is not passed. -/
theorem lookup_foldl_passSeen_of_not_mem {l : List (FieldDescriptor × Option PyVal)}
    {name : String} (h : name ∉ l.map (·.1.name)) :
    ∀ acc : Kwargs, (l.foldl passSeen acc).lookup name = acc.lookup name := by
  induction l with
  | nil => exact fun acc => rfl
  | cons q l ih =>
      intro acc
      rw [List.map_cons, List.mem_cons, not_or] at h
      rw [List.foldl_cons, ih h.2]
      unfold passSeen
      split
      · rw [lookup_upsertBy, if_neg h.1]
      · rfl

/-- A field is passed iff it was seen, with the value decoded for it. -/
theorem lookup_foldl_passSeen {l : List (FieldDescriptor × Option PyVal)}
    (hnames : (l.map (·.1.name)).Nodup) {p : FieldDescriptor × Option PyVal} (hp : p ∈ l) :
    ∀ acc : Kwargs, acc.lookup p.1.name = none → (l.foldl passSeen acc).lookup p.1.name = p.2 := by
  induction l with
  | nil => cases hp
  | cons q l ih =>
      intro acc hacc
      rw [List.map_cons, List.nodup_cons] at hnames
      rw [List.foldl_cons]
      rcases List.mem_cons.mp hp with rfl | htail
      · rw [lookup_foldl_passSeen_of_not_mem hnames.1]
        unfold passSeen
        split
        · rename_i v hv
          rw [lookup_upsertBy, if_pos rfl, hv]
        · rename_i hv
          rw [hacc, hv]
      · refine ih hnames.2 htail _ ?_
        unfold passSeen
        split
        · rw [lookup_upsertBy, if_neg, hacc]
          intro hname
          exact hnames.1 (List.mem_map.mpr ⟨p, htail, hname⟩)
        · exact hacc

/-! ### The general path -/

/-- The value a generated entry stores. -/
theorem GeneratedField.stored {desc : Descriptor} {f : DataField} {field : FieldDescriptor}
    (h : GeneratedField desc f field) (slots : Bool) (kwargs : Kwargs) :
    f.stored slots kwargs
      = .ok (some ((kwargs.lookup field.name).getD (zeroValue desc field))) := by
  unfold DataField.stored
  rw [if_neg (by simp [h.regular]), h.init, if_pos rfl, h.name]
  cases kwargs.lookup field.name with
  | some value => rfl
  | none =>
      rcases h.zero with hdefault | ⟨hdefault, factory, hfactory, hmake⟩
      · simp [hdefault]
      · simp [hdefault, hfactory, hmake, Except.map]

section GeneratedFields

variable {desc : Descriptor} {dfs : List DataField} {fields : List FieldDescriptor}

/-- The generated assignments store every field in order, where `setattr` stores what it is given. -/
theorem foldlM_assign_generated {setattr : Attrs → String → PyVal → PyResult Attrs}
    (h : List.Forall₂ (GeneratedField desc) dfs fields)
    (hsetattr : ∀ name ∈ dfs.map (·.name), ∀ attrs value,
      setattr attrs name value = .ok (setAttr attrs name value))
    (slots : Bool) (kwargs : Kwargs) :
    ∀ attrs : Attrs, dfs.foldlM (DataField.assign setattr slots kwargs) attrs
      = .ok ((fields.map fun field =>
          (field.name, (kwargs.lookup field.name).getD (zeroValue desc field))).foldl
            (fun attrs p => setAttr attrs p.1 p.2) attrs) := by
  induction h with
  | nil => exact fun attrs => rfl
  | cons hf _ ih =>
      intro attrs
      rw [List.map_cons, List.forall_mem_cons] at hsetattr
      rw [List.foldlM_cons, DataField.assign, hf.stored slots kwargs, ok_bind]
      dsimp only
      rw [hsetattr.1, ok_bind, ih hsetattr.2, List.map_cons, List.foldl_cons, hf.name]

/-- The entries have the names of the fields. -/
theorem names_generated (h : List.Forall₂ (GeneratedField desc) dfs fields) :
    dfs.map (·.name) = fields.map (·.name) := by
  induction h with
  | nil => rfl
  | cons hf _ ih => rw [List.map_cons, List.map_cons, hf.name, ih]

/-- The entries are ordinary parameters. -/
theorem params_generated (h : List.Forall₂ (GeneratedField desc) dfs fields) :
    ∀ f ∈ dfs, f.init = true ∧ f.fieldType = .regular := by
  induction h with
  | nil => intro f hf; cases hf
  | cons hf _ ih =>
      intro f hmem
      rcases List.mem_cons.mp hmem with rfl | hmem
      · exact ⟨hf.init, hf.regular⟩
      · exact ih f hmem

/-- With distinct names, the keyword of a field is the value decoded for it. -/
theorem lookup_decodedKwargs (desc : Descriptor) (hnames : (fields.map (·.name)).Nodup)
    {values : List (Option PyVal)} (hlen : values.length = fields.length) :
    (fields.map fun field => (field.name,
        ((decodedKwargs fields values).lookup field.name).getD (zeroValue desc field)))
      = List.zipWith (fun field v => (field.name, v.getD (zeroValue desc field))) fields values := by
  have hzip : (fields.zip values).map Prod.fst = fields := List.map_fst_zip (by omega)
  have hlookup : ∀ p ∈ fields.zip values,
      (decodedKwargs fields values).lookup p.1.name = p.2 := by
    intro p hp
    refine lookup_foldl_passSeen ?_ hp [] rfl
    rw [← hzip, List.map_map] at hnames
    exact hnames
  generalize decodedKwargs fields values = kwargs at hlookup
  rw [← List.map_uncurry_zip_eq_zipWith]
  conv_lhs => rw [← hzip, List.map_map]
  refine List.map_congr_left fun p hp => ?_
  show (p.1.name, (kwargs.lookup p.1.name).getD _) = _
  rw [hlookup p hp]
  rfl

end GeneratedFields

section Construct

variable {w : World} {cls : ClassId} {descId : DescId}

/-- The attributes of an instance, field by field. -/
theorem attrs_filledValues (desc : Descriptor) (values : List (Option PyVal)) :
    (desc.inner.fields.map (·.name)).zip (filledValues desc values)
      = List.zipWith (fun field v => (field.name, v.getD (zeroValue desc field)))
          desc.inner.fields values := by
  unfold filledValues
  generalize desc.inner.fields = fields
  induction fields generalizing values with
  | nil => rfl
  | cons field fields ih =>
      cases values with
      | nil => rfl
      | cons v values => simp only [List.map_cons, List.zipWith_cons_cons, List.zip_cons_cons, ih]

/-- The names of the attributes of an instance are those of the fields. -/
theorem map_fst_attrs {desc : Descriptor} {values : List PyVal}
    (hlen : values.length = desc.inner.fields.length) :
    ((desc.inner.fields.map (·.name)).zip values).map Prod.fst = desc.inner.fields.map (·.name) :=
  List.map_fst_zip (by rw [List.length_map]; omega)

/-- As many values as fields. -/
theorem length_filledValues {desc : Descriptor} {values : List (Option PyVal)}
    (hlen : values.length = desc.inner.fields.length) :
    (filledValues desc values).length = desc.inner.fields.length := by
  rw [filledValues, List.length_zipWith, hlen, Nat.min_self]

/-- The hidden slot is none of the attributes of the fields. -/
theorem GeneratedClass.slot_new (hgen : GeneratedClass w cls descId) {values : List PyVal}
    (hlen : values.length = (w.descriptor descId).inner.fields.length) :
    ∀ p ∈ ((w.descriptor descId).inner.fields.map (·.name)).zip values,
      (p.1 == unknownSlot) = false := by
  intro p hp
  rw [beq_eq_false_iff_ne]
  intro hname
  refine hgen.slot ?_
  rw [← hname, ← map_fst_attrs hlen]
  exact List.mem_map_of_mem hp

/-- Storing the unknown bytes on an instance sets the hidden slot. -/
theorem GeneratedClass.setUnknown_inst (hgen : GeneratedClass w cls descId) (attrs : Attrs)
    (unknown : Bytes) : setUnknown w (.inst cls attrs) unknown
      = .ok (.inst cls (setAttr attrs unknownSlot (.bytes unknown))) := by
  obtain ⟨dc, hmro, -, hfields⟩ := hgen.dataclass
  have hregular := fun f hf => (params_generated hfields f hf).2
  unfold setUnknown
  dsimp only
  rw [storeUnknown_dataclass hmro hregular fun _ => rfl]
  rfl

/-- Storing the unknown bytes fills the hidden slot. -/
theorem GeneratedClass.setUnknown_instanceOf (hgen : GeneratedClass w cls descId)
    {values : List PyVal} (hlen : values.length = (w.descriptor descId).inner.fields.length)
    (unknown unknown' : Bytes) :
    setUnknown w (instanceOf cls (w.descriptor descId) values unknown) unknown'
      = .ok (instanceOf cls (w.descriptor descId) values unknown') := by
  unfold instanceOf
  rw [hgen.setUnknown_inst, setAttr, upsertBy_append _ _ (hgen.slot_new hlen)]
  rfl

/-- **Calling a generated class** stores the fields seen and the zero values of the others. -/
theorem GeneratedClass.call (hgen : GeneratedClass w cls descId) {values : List (Option PyVal)}
    (hlen : values.length = (w.descriptor descId).inner.fields.length) :
    (w.cls cls).call cls (decodedKwargs (w.descriptor descId).inner.fields values)
      = .ok (instanceOf cls (w.descriptor descId)
          (filledValues (w.descriptor descId) values) []) := by
  obtain ⟨dc, hmro, hinit, hfields⟩ := hgen.dataclass
  have hattrs := lookup_decodedKwargs (w.descriptor descId) hgen.names hlen
  rw [← attrs_filledValues] at hattrs
  have hkeys : ∀ kw ∈ decodedKwargs (w.descriptor descId).inner.fields values,
      kw.1 ∈ dc.fields.map (·.name) := by
    intro kw hmem
    rcases mem_foldl_passSeen hmem with ⟨q, hq, -⟩ | ⟨q, hq, hname⟩
    · cases hq
    · rw [names_generated hfields, ← hname]
      exact List.mem_map_of_mem (List.of_mem_zip hq).1
  generalize decodedKwargs (w.descriptor descId).inner.fields values = kwargs at hattrs hkeys
  -- every keyword is a parameter, and no parameter is an `InitVar`
  have hknown : (kwargs.find? fun kw => !dc.fields.any fun f => f.isParam && f.name == kw.1)
      = none := by
    rw [List.find?_eq_none]
    intro kw hmem
    obtain ⟨f, hf, hname⟩ := List.mem_map.mp (hkeys kw hmem)
    have hany : (dc.fields.any fun f => f.isParam && f.name == kw.1) = true := by
      rw [List.any_eq_true]
      exact ⟨f, hf, by simp [DataField.isParam, params_generated hfields f hf, hname]⟩
    rw [hany]
    decide
  have hinitVars : initVarArgs dc.fields kwargs = .ok [] := by
    unfold initVarArgs
    rw [List.filter_eq_nil_iff.mpr fun f hf => by simp [(params_generated hfields f hf).2]]
    rfl
  have hregular := fun f hf => (params_generated hfields f hf).2
  have hassign : assignFields (w.cls cls) dc kwargs [] = .ok
      (((w.descriptor descId).inner.fields.map (·.name)).zip
        (filledValues (w.descriptor descId) values)) := by
    unfold assignFields
    rw [foldlM_assign_generated hfields fun name hname => assignField_dataclass hmro hregular hname,
      hattrs, foldl_upsert_nodup]
    rw [map_fst_attrs (length_filledValues hlen)]
    exact hgen.names
  have hpost : (w.cls cls).postInit = messagePostInit (w.cls cls) := by
    unfold PyClass.postInit
    rw [hmro]
    rfl
  have hrun : (w.cls cls).runInit [] kwargs
      = generatedInit (w.cls cls) dc (messagePostInit (w.cls cls)) [] kwargs := by
    unfold PyClass.runInit
    rw [hmro]
    simp only [List.findSome?_cons, PyClass.layerInit, hinit, if_true, hpost]
  have hnew : (w.cls cls).objectNew = .ok [] := by
    unfold PyClass.objectNew
    rw [hgen.concrete, if_neg (by decide)]
  have hinst : generatedInit (w.cls cls) dc (messagePostInit (w.cls cls)) [] kwargs
      = .ok (setAttr (((w.descriptor descId).inner.fields.map (·.name)).zip
          (filledValues (w.descriptor descId) values)) unknownSlot (.bytes [])) := by
    unfold generatedInit
    rw [hknown]
    dsimp only
    rw [hassign, ok_bind, hinitVars, ok_bind, messagePostInit,
      storeUnknown_dataclass hmro hregular fun _ => rfl]
  rw [PyClass.call_eq hgen.metaCall (by rw [hmro]; simp), hnew, ok_bind, hrun, hinst, ok_bind,
    setAttr, upsertBy_of_new _ (hgen.slot_new (length_filledValues hlen))]
  rfl

/-! ### The fast path -/

/-- The default captured for a generated entry is the zero value, but for the placeholder of a
collection. -/
theorem GeneratedField.fastDefault {desc : Descriptor} {f : DataField} {field : FieldDescriptor}
    (h : GeneratedField desc f field) {default : PyVal} (hd : f.fastDefault field = some default) :
    default = zeroValue desc field ∨ field.isCollection = true := by
  unfold DataField.fastDefault at hd
  rw [h.init, if_pos rfl] at hd
  rcases h.zero with hzero | ⟨hzero, -⟩
  · rw [hzero] at hd
    cases hd
    exact .inl rfl
  · rw [hzero] at hd
    by_cases hcol : field.isCollection = true
    · exact .inr hcol
    · -- without a default, only a collection has an entry
      cases hfactory : f.defaultFactory with
      | none => simp [hfactory] at hd
      | some factory => cases factory <;> simp [hfactory, hcol] at hd

/-- The assignments of the fast path are the attributes of the instance: the captured defaults agree
with the zero values wherever they are read. -/
theorem fastAttrs_generated {desc : Descriptor} {dfs : List DataField}
    {fields : List FieldDescriptor} (h : List.Forall₂ (GeneratedField desc) dfs fields) :
    ∀ {values : List (Option PyVal)} {defaults : List PyVal},
      ((dfs.zip fields).mapM fun (f, field) => f.fastDefault field) = some defaults →
      List.Forall₂ (fun field v => field.isCollection = true → v.isSome = true) fields values →
      fastAttrs fields values defaults
        = List.zipWith (fun field v => (field.name, v.getD (zeroValue desc field)))
            fields values := by
  induction h with
  | nil =>
      intro values defaults _ hvalues
      cases hvalues
      rfl
  | @cons f field dfs fields hf _ ih =>
      intro values defaults hdefaults hvalues
      cases hvalues with
      | @cons _ v _ values hv hvs =>
          rw [List.zip_cons_cons, List.mapM_cons] at hdefaults
          obtain ⟨d, hd, hdefaults⟩ := Option.bind_eq_some_iff.mp hdefaults
          obtain ⟨ds, hds, hdefaults⟩ := Option.bind_eq_some_iff.mp hdefaults
          cases hdefaults
          rw [List.zipWith_cons_cons, ← ih hds hvs]
          refine congrArg (· :: _) (congrArg (Prod.mk _) ?_)
          rcases hf.fastDefault hd with rfl | hcol
          · rfl
          · obtain ⟨x, rfl⟩ := Option.isSome_iff_exists.mp (hv hcol)
            rfl

/-- **The general path builds the instance** with the fields seen and the zero values of the
others. -/
theorem GeneratedClass.constructGeneral (hgen : GeneratedClass w cls descId)
    {values : List (Option PyVal)} (hlen : values.length = (w.descriptor descId).inner.fields.length)
    (unknown : Bytes) :
    FastProto.constructGeneral w cls (w.descriptor descId) values unknown
      = .ok (instanceOf cls (w.descriptor descId)
          (filledValues (w.descriptor descId) values) unknown) := by
  unfold FastProto.constructGeneral
  rw [hgen.call hlen, ok_bind]
  by_cases hunknown : unknown = []
  · rw [hunknown, if_neg (by simp)]
  · rw [if_pos hunknown, hgen.setUnknown_instanceOf (length_filledValues hlen)]

/-- **Decode builds the instance with the fields seen and the zero values of the others**, on either
path. -/
theorem construct_generated {dom : ClassId → DescId → Prop} (hfam : Family w dom)
    (hdom : dom cls descId) {values : List (Option PyVal)}
    (hvalues : List.Forall₂ (fun field v => field.isCollection = true → v.isSome = true)
      (w.descriptor descId).inner.fields values) (unknown : Bytes) :
    construct w cls (w.descriptor descId) values unknown
      = .ok (instanceOf cls (w.descriptor descId)
          (filledValues (w.descriptor descId) values) unknown) := by
  have hgen := hfam.generated cls descId hdom
  have hlen : values.length = (w.descriptor descId).inner.fields.length := hvalues.length_eq.symm
  have hgeneral := hgen.constructGeneral hlen unknown
  unfold construct
  cases hfast : (w.descriptor descId).fastInit with
  | none => exact hgeneral
  | some fast =>
      dsimp only
      by_cases hcls : cls = fast.cls
      · rw [if_pos hcls]
        obtain ⟨dc, hmro, hinit, hfields⟩ := hgen.dataclass
        have hdefaults := hfam.fast cls descId hdom fast hfast
        unfold fastInitDefaults at hdefaults
        rw [← hcls, hmro] at hdefaults
        simp only [List.head?_cons, Option.bind_some] at hdefaults
        split at hdefaults
        · rename_i hguard
          have hfrozen : dc.frozen = false := by
            simp only [Bool.and_eq_true, Bool.not_eq_true'] at hguard
            exact hguard.1.1.1.1
          have hattrs := fastAttrs_generated hfields hdefaults hvalues
          rw [← attrs_filledValues] at hattrs
          have hkeys := map_fst_attrs (length_filledValues hlen)
          have hassign := assign_dataclass hmro (fun f hf => (params_generated hfields f hf).2)
            hfrozen (by rw [hkeys, names_generated hfields]; exact fun _ => id) []
          rw [foldl_upsert_nodup (by rw [hkeys]; exact hgen.names)] at hassign
          unfold constructFast
          rw [← hcls, PyClass.objectNew, hgen.concrete, if_neg (by decide), ok_bind, hattrs, hassign,
            ok_bind, hgen.setUnknown_inst, setAttr,
            upsertBy_of_new _ (hgen.slot_new (length_filledValues hlen))]
          rfl
        · cases hdefaults
      · rw [if_neg hcls]
        exact hgeneral

end Construct

/-! ## A family of one recursive class

`message M { int32 a = 1; E e = 2; M m = 3; }` and `enum E { ZERO = 0; ONE = 1; }`: the class has
identity 0, the enum identity 1. -/

/-- The serialized `DescriptorProto` of `M`. -/
def recursiveBytes : Bytes :=
  [0x0a, 1, 0x4d,
    0x12, 9, 0x0a, 1, 0x61, 0x18, 1, 0x20, 1, 0x28, 5,
    0x12, 13, 0x0a, 1, 0x65, 0x18, 2, 0x20, 1, 0x28, 14, 0x32, 2, 0x2e, 0x45,
    0x12, 13, 0x0a, 1, 0x6d, 0x18, 3, 0x20, 1, 0x28, 11, 0x32, 2, 0x2e, 0x4d]

/-- `M` as the parser returns it. -/
def recursiveMessage : MessageDescriptor where
  name := "M"
  fields := [
    { number := 1, name := "a", kind := .scalar .int32, label := .single, typeName := none,
      oneofIndex := none },
    { number := 2, name := "e", kind := .enum, label := .single, typeName := some "E",
      oneofIndex := none },
    { number := 3, name := "m", kind := .message, label := .optional, typeName := some "M",
      oneofIndex := none }]
  oneofs := []

/-- The dataclass generated for `M`. -/
def recursiveClass : PyClass where
  mro := [{ dataclass := some { fields := [
    { name := "a", default := some (.int 0) },
    { name := "e", default := some (.member 1 0) },
    { name := "m", default := some .pyNone }] } }]
  fastproto := some 0

/-- The classes generated for the file, linked. -/
def recursiveWorld : World where
  cls id := if id = 0 then recursiveClass else { enum := some { values := [0, 1] } }
  descriptor _ :=
    { inner := recursiveMessage
      refs := some [(2, buildLinkedRef 1 { enum := some { values := [0, 1] } }),
        (3, buildLinkedRef 0 recursiveClass)]
      linked := true }

/-- The classes of the file are a family. -/
theorem family_recursiveWorld : Family recursiveWorld (fun cls desc => cls = 0 ∧ desc = 0) where
  generated := by
    rintro _ _ ⟨rfl, rfl⟩
    exact {
      fastproto := rfl
      metaCall := rfl
      concrete := rfl
      dataclass := ⟨_, rfl, rfl, .cons ⟨rfl, rfl, rfl, .inl rfl⟩
        (.cons ⟨rfl, rfl, rfl, .inl rfl⟩ (.cons ⟨rfl, rfl, rfl, .inl rfl⟩ .nil))⟩
      parsed := ⟨recursiveBytes, by rfl⟩
      numbers := by decide
      valid := by decide
      names := by decide
      slot := by decide }
  messages := by
    rintro _ _ ⟨rfl, rfl⟩ field hfield hkind
    refine ⟨0, 0, ?_, rfl, rfl, rfl⟩
    rcases hfield with _ | ⟨_, _ | ⟨_, _ | ⟨_, hfield⟩⟩⟩
    · cases hkind
    · cases hkind
    · rfl
    · cases hfield
  enums := by
    rintro _ _ ⟨rfl, rfl⟩ field hfield hkind
    refine ⟨1, { values := [0, 1] }, ?_, rfl, rfl, rfl, by decide⟩
    rcases hfield with _ | ⟨_, _ | ⟨_, _ | ⟨_, hfield⟩⟩⟩
    · cases hkind
    · rfl
    · cases hkind
    · cases hfield
  fast := by
    rintro _ _ ⟨rfl, rfl⟩ fast hfast
    cases hfast

end FastProto
