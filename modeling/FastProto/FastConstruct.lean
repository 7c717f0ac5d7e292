import FastProto.DecodeConforms

/-! # When the fast path is observed

The guard of the fast path looks at a class from outside: it sees the flags, the hooks and the names
of the fields, but neither who wrote the `__init__` the class runs, nor whether an entry of
`__dataclass_fields__` is a field, nor what assigning an attribute does. The fast path builds the same
message as the general one exactly for classes that take its assignments and whose `__init__` is the
generated one over regular fields, or behaves like it. -/

namespace FastProto

open Lib Lib.Cursor

/-! ## Decoded messages on the two paths -/

/-- The decoder accepts some bytes with these values and unknown bytes. -/
def Decoded (w : World) (descId : DescId) (st : DecodeState) : Prop :=
  ∃ levels data, drainAll (decodeBody w (decodeMessage w levels) (w.descriptor descId))
    (.init (w.descriptor descId).inner.fields) (Reader.new data) = .ok st

/-- The empty message is accepted. -/
theorem decoded_init (w : World) (descId : DescId) :
    Decoded w descId (.init (w.descriptor descId).inner.fields) := ⟨0, [], rfl⟩

/-- There is a value for every field, an accumulator for a collection. -/
theorem Decoded.ready {w : World} {descId : DescId} (hwf : (w.descriptor descId).inner.WellFormed)
    {st : DecodeState} (h : Decoded w descId st) : st.Ready (w.descriptor descId).inner.fields := by
  obtain ⟨levels, data, hloop⟩ := h
  exact ready_of_loop hwf hloop

/-- **Two instances are the same message**: every field reads the same, and so do the unknown bytes. -/
structure SameMessage (w : World) (descId : DescId) (a b : PyVal) : Prop where
  fields : ∀ field ∈ (w.descriptor descId).inner.fields,
    w.runtime.getattr a field.name = w.runtime.getattr b field.name
  unknown : encodeUnknown w.runtime a [] = encodeUnknown w.runtime b []

/-- **The fast path is equivalent to the general one**: whatever the decoder accepts, both build an
instance, and the two instances are the same message. -/
def FastEquivalent (w : World) (cls : ClassId) (descId : DescId) (defaults : List PyVal) : Prop :=
  ∀ st, Decoded w descId st → ∃ fast general,
    constructFast w (w.descriptor descId) { cls, defaults } st.values st.unknown = .ok fast ∧
    constructGeneral w cls (w.descriptor descId) st.values st.unknown = .ok general ∧
    SameMessage w descId fast general

/-- What Python makes sure of when a class is made: `__dataclass_fields__` has one entry a name, and a
dataclass that is not frozen has no frozen base. -/
structure PyClass.Lawful (cls : PyClass) : Prop where
  names : ∀ layer ∈ cls.mro, ∀ dc, layer.dataclass = some dc → (dc.fields.map (·.name)).Nodup
  frozen : ∀ dc, cls.mro.head?.bind (·.dataclass) = some dc → dc.frozen = false →
    ∀ layer ∈ cls.mro, ∀ dc', layer.dataclass = some dc' → dc'.frozen = false

/-- A class that is one dataclass, not frozen, is lawful. -/
theorem PyClass.Lawful.of_single {cls : PyClass} {layer : Layer} {dc : Dataclass}
    (hmro : cls.mro = [layer]) (hdc : layer.dataclass = some dc)
    (hnames : (dc.fields.map (·.name)).Nodup) (hfrozen : dc.frozen = false) : cls.Lawful := by
  have honly : ∀ layer' ∈ cls.mro, ∀ dc', layer'.dataclass = some dc' → dc' = dc := by
    intro layer' hlayer' dc' hdc'
    rw [hmro, List.mem_singleton] at hlayer'
    rw [hlayer', hdc] at hdc'
    exact (Option.some.inj hdc').symm
  constructor
  · intro layer' hlayer' dc' hdc'
    rw [honly layer' hlayer' dc' hdc']
    exact hnames
  · intro _ _ _ layer' hlayer' dc' hdc'
    rw [honly layer' hlayer' dc' hdc']
    exact hfrozen

/-! ## When `__init__` is unobservable -/

/-- Whether access through an instance runs code of the object the class binds. -/
def ClassEntry.isDescriptor : ClassEntry → Bool
  | .descriptor _ _ => true
  | _ => false

namespace PyClass

/-- The dataclass of a class that runs the `__init__` generated for it. -/
def ownGenerated (cls : PyClass) : Option Dataclass :=
  match cls.mro with
  | [] => none
  | layer :: _ => if layer.init.isSome then none else layer.dataclass.filter (·.init)

/-- Whether access to the unknown bytes and to attributes of these names runs no code of the user: no
`__setattr__`, no `__getattribute__` and no property. -/
def plainAccess (cls : PyClass) (names : List String) : Bool :=
  cls.mro.all (fun layer => layer.setattr.isNone && layer.getattribute.isNone) &&
    (unknownSlot :: names).all fun name => !(cls.typeLookup name).any (·.isDescriptor)

/-- Whether instances have a place for an attribute, in a slot or in `__dict__`. -/
def stores (cls : PyClass) (name : String) : Bool :=
  match cls.typeLookup name with
  | some .slot => true
  | _ => cls.hasDict

/-- What an attribute reads as that is not stored on the instance. -/
def classValue (cls : PyClass) (name : String) : Option PyVal :=
  match cls.typeLookup name with
  | some (.value v) => some v
  | _ => none

end PyClass

/-- The value an attribute of an instance reads as. -/
def readAttr (w : World) (cls : ClassId) (attrs : Attrs) (name : String) : Option PyVal :=
  (attrs.lookup name).or ((w.cls cls).classValue name)

/-- **What `__init__` owes**: every field reads as the argument passed or else as the default of the
dataclass, and the slot of the unknown bytes is empty. -/
structure InitStores (w : World) (cls : ClassId) (descId : DescId) (defaults : List PyVal)
    (st : DecodeState) (attrs : Attrs) : Prop where
  fields : ∀ p ∈ fastAttrs (w.descriptor descId).inner.fields st.values defaults,
    p.1 ≠ unknownSlot → readAttr w cls attrs p.1 = some p.2
  /-- A field that is named like the slot reads as the empty slot. -/
  named : st.unknown = [] → unknownSlot ∈ (w.descriptor descId).fieldNames →
    readAttr w cls attrs unknownSlot = some (.bytes [])
  slot : st.unknown = [] → encodeUnknown w.runtime (.inst cls attrs) [] = .ok []

/-- Attributes left by the two paths take the unknown bytes and then read alike. -/
def ReadsAlike (w : World) (cls : ClassId) (descId : DescId) (unknown : Bytes)
    (fast general : Attrs) : Prop :=
  ∃ a b, setUnknown w (.inst cls fast) unknown = .ok a ∧
    (if unknown ≠ [] then setUnknown w (.inst cls general) unknown else .ok (.inst cls general))
      = .ok b ∧
    SameMessage w descId a b

section Conditions

variable (w : World) (cls : ClassId) (descId : DescId) (defaults : List PyVal)

/-- The fields and the unknown bytes have a place on the instances. -/
def FieldsStored : Prop :=
  ∀ name ∈ unknownSlot :: (w.descriptor descId).fieldNames, (w.cls cls).stores name = true

/-- The `__init__` that `@dataclass` generated for the class itself is unobservable: no entry is an
`InitVar`, and no accepted message sets a field whose entry is a `ClassVar`. The fields have a place,
and a `ClassVar` reads as its default; where code of the user takes part in attribute access, that
code takes the assignments of an accepted message, and neither the defaults of the `ClassVar` entries
nor the empty bytes stored before the unknown ones show in what it reads. -/
def GeneratedUnobservable (dc : Dataclass) : Prop :=
  (∀ f ∈ dc.fields, f.fieldType ≠ .initVar) ∧
  (∀ f ∈ dc.fields, f.fieldType = .classVar → ∀ st, Decoded w descId st →
    (decodedKwargs (w.descriptor descId).inner.fields st.values).lookup f.name = none) ∧
  if (w.cls cls).plainAccess (w.descriptor descId).fieldNames then
    FieldsStored w cls descId ∧
      ∀ f ∈ dc.fields, f.fieldType = .classVar → f.name ≠ unknownSlot →
        (w.cls cls).classValue f.name = f.default
  else
    ∀ st, Decoded w descId st → ∃ fast own general,
      (w.cls cls).assign [] (fastAttrs (w.descriptor descId).inner.fields st.values defaults)
        = .ok fast ∧
      (w.cls cls).assign [] ((fastAttrs (w.descriptor descId).inner.fields st.values defaults).filter
        fun p => dc.hasRegular p.1) = .ok own ∧
      messagePostInit (w.cls cls) own [] = .ok general ∧
      ReadsAlike w cls descId st.unknown fast general

/-- An `__init__` that the user wrote or that is inherited is unobservable: on the arguments of every
accepted message it raises nothing and stores what it owes, on instances that have a place for the
fields; where code of the user takes part in attribute access, that code takes the assignments and
reads alike after `__init__`. -/
def WrittenUnobservable : Prop :=
  if (w.cls cls).plainAccess (w.descriptor descId).fieldNames then
    FieldsStored w cls descId ∧ ∀ st, Decoded w descId st → ∃ attrs,
      (w.cls cls).runInit [] (decodedKwargs (w.descriptor descId).inner.fields st.values)
        = .ok attrs ∧
      InitStores w cls descId defaults st attrs
  else
    ∀ st, Decoded w descId st → ∃ fast general,
      (w.cls cls).assign [] (fastAttrs (w.descriptor descId).inner.fields st.values defaults)
        = .ok fast ∧
      (w.cls cls).runInit [] (decodedKwargs (w.descriptor descId).inner.fields st.values)
        = .ok general ∧
      ReadsAlike w cls descId st.unknown fast general

/-- **When running `__init__` cannot be observed**, for a class that can be instantiated. -/
def InitUnobservable : Prop :=
  (w.cls cls).abstract = false ∧
    match (w.cls cls).ownGenerated with
    | some dc => GeneratedUnobservable w cls descId defaults dc
    | none => WrittenUnobservable w cls descId defaults

end Conditions

/-- A generated `__init__` over regular fields is unobservable under plain access, once the fields have a
place. -/
theorem generatedUnobservable_of_regular {w : World} {cls : ClassId} {descId : DescId}
    {defaults : List PyVal} {dc : Dataclass} (hregular : ∀ f ∈ dc.fields, f.fieldType = .regular)
    (hplain : (w.cls cls).plainAccess (w.descriptor descId).fieldNames = true)
    (hstored : FieldsStored w cls descId) : GeneratedUnobservable w cls descId defaults dc := by
  have hother : ∀ f ∈ dc.fields, ∀ t, t ≠ FieldType.regular → f.fieldType ≠ t := by
    intro f hf t ht heq
    exact ht (heq.symm.trans (hregular f hf))
  refine ⟨fun f hf => hother f hf _ (by decide), fun f hf hclass => ?_, ?_⟩
  · exact absurd hclass (hother f hf _ (by decide))
  · rw [if_pos hplain]
    exact ⟨hstored, fun f hf hclass => absurd hclass (hother f hf _ (by decide))⟩

/-! ## What the guard establishes -/

/-- What is known of a class that passes the guard. -/
structure FastGuard (cls : PyClass) (inner : MessageDescriptor) (defaults : List PyVal)
    (dc : Dataclass) : Prop where
  own : cls.mro.head?.bind (·.dataclass) = some dc
  frozen : dc.frozen = false
  metaCall : cls.metaCall = none
  new : ∀ layer ∈ cls.mro, layer.new = none
  postInit : ∀ layer ∈ cls.mro, layer.postInit = none
  names : dc.fields.map (·.name) = inner.fields.map (·.name)
  defaults : (dc.fields.zip inner.fields).mapM (fun (f, field) => f.fastDefault field) = some defaults

/-- **The guard read off**: it passes a class exactly when these hold. -/
theorem fastInitDefaults_eq_some {cls : PyClass} {inner : MessageDescriptor} {defaults : List PyVal} :
    fastInitDefaults cls inner = some defaults ↔ ∃ dc, FastGuard cls inner defaults dc := by
  unfold fastInitDefaults
  constructor
  · intro h
    split at h
    · cases h
    · rename_i dc hown
      split at h
      · rename_i hguard
        simp only [Bool.and_eq_true, Bool.not_eq_true', Option.isNone_iff_eq_none, List.all_eq_true,
          decide_eq_true_eq] at hguard
        obtain ⟨⟨⟨⟨hfrozen, hmeta⟩, hnew⟩, hpost⟩, hnames⟩ := hguard
        exact ⟨dc, hown, hfrozen, hmeta, hnew, hpost, hnames, h⟩
      · cases h
  · rintro ⟨dc, hown, hfrozen, hmeta, hnew, hpost, hnames, hdefaults⟩
    rw [hown]
    dsimp only
    rw [if_pos]
    · exact hdefaults
    · simp only [Bool.and_eq_true, Bool.not_eq_true', Option.isNone_iff_eq_none, List.all_eq_true,
        decide_eq_true_eq]
      exact ⟨⟨⟨⟨hfrozen, hmeta⟩, hnew⟩, hpost⟩, hnames⟩

namespace FastGuard

variable {cls : PyClass} {inner : MessageDescriptor} {defaults : List PyVal} {dc : Dataclass}
  (h : FastGuard cls inner defaults dc)
include h

/-- The dataclass is the one of the first layer. -/
theorem mro_eq : ∃ layer rest, cls.mro = layer :: rest ∧ layer.dataclass = some dc := by
  have hown := h.own
  cases hmro : cls.mro with
  | nil => rw [hmro] at hown; cases hown
  | cons layer rest =>
      rw [hmro] at hown
      exact ⟨layer, rest, rfl, hown⟩

/-- There is a default for every field. -/
theorem length_defaults : defaults.length = inner.fields.length :=
   length_fastInitDefaults (fastInitDefaults_eq_some.mpr ⟨dc, h⟩)

/-- No dataclass among the layers is frozen. -/
theorem not_frozen (hlawful : cls.Lawful) :
    ∀ layer ∈ cls.mro, ∀ dc', layer.dataclass = some dc' → dc'.frozen = false :=
  hlawful.frozen dc h.own h.frozen

/-- The names of the fields are distinct. -/
theorem names_nodup (hlawful : cls.Lawful) : (inner.fields.map (·.name)).Nodup := by
  obtain ⟨layer, rest, hmro, hdc⟩ := h.mro_eq
  rw [← h.names]
  exact hlawful.names layer (by rw [hmro]; exact List.mem_cons_self ..) dc hdc

/-- Calling the class runs its `__init__`. -/
theorem call_eq (id : ClassId) (kwargs : Kwargs) :
    cls.call id kwargs = cls.objectNew >>= fun attrs => cls.runInit attrs kwargs >>= fun attrs =>
      .ok (.inst id attrs) :=
  PyClass.call_eq h.metaCall h.new id kwargs

/-- The `__post_init__` of the class is the one of `Message`. -/
theorem postInit_eq : cls.postInit = messagePostInit cls := by
  unfold PyClass.postInit
  rw [List.findSome?_eq_none_iff.mpr h.postInit]
  rfl

end FastGuard

/-! ## Plain attribute access -/

namespace PyClass

variable {cls : PyClass}

/-- Without a `__setattr__` of the user or a frozen dataclass, `setattr` is the one of `object`. -/
theorem setattr_eq (hsetattr : ∀ layer ∈ cls.mro, layer.setattr = none)
    (hfrozen : ∀ layer ∈ cls.mro, ∀ dc, layer.dataclass = some dc → dc.frozen = false) :
    cls.setattr = cls.objectSetattr := by
  have hfrom : ∀ (layers : List Layer) (own : Bool), (∀ layer ∈ layers, layer.setattr = none) →
      (∀ layer ∈ layers, ∀ dc, layer.dataclass = some dc → dc.frozen = false) →
      Layer.setattrFrom cls.objectSetattr own layers = cls.objectSetattr := by
    intro layers
    induction layers with
    | nil => exact fun _ _ _ => rfl
    | cons layer layers ih =>
        intro own hsetattr hfrozen
        rw [List.forall_mem_cons] at hsetattr hfrozen
        have hrejects : ∀ name, layer.rejects own name = false := by
          intro name
          unfold Layer.rejects
          cases hdc : layer.dataclass with
          | none => rfl
          | some dc => rw [Option.any_some, hfrozen.1 dc hdc, Bool.false_and]
        funext attrs name value
        rw [Layer.setattrFrom, hsetattr.1]
        dsimp only
        rw [hrejects, if_neg (by decide), ih false hsetattr.2 hfrozen.2]
  exact hfrom cls.mro true hsetattr hfrozen

/-- An attribute that is no descriptor is stored where there is a place for it. -/
theorem objectSetattr_eq {name : String}
    (hplain : (cls.typeLookup name).any (·.isDescriptor) = false) (attrs : Attrs) (value : PyVal) :
    cls.objectSetattr attrs name value =
      if cls.stores name then .ok (setAttr attrs name value) else .error (.attributeError name) := by
  unfold objectSetattr stores
  cases hentry : cls.typeLookup name with
  | none => rfl
  | some entry =>
      rw [hentry] at hplain
      cases entry with
      | slot => rfl
      | value v => rfl
      | descriptor get set => cases hplain

/-- It reads as what is stored, or as what the class binds. -/
theorem objectGetattribute_eq {name : String}
    (hplain : (cls.typeLookup name).any (·.isDescriptor) = false) (attrs : Attrs) :
    cls.objectGetattribute attrs name
      = (((attrs.lookup name).or (cls.classValue name)).map .ok).getD
          (.error (.attributeError name)) := by
  unfold objectGetattribute classValue
  cases hentry : cls.typeLookup name with
  | none => cases attrs.lookup name <;> rfl
  | some entry =>
      rw [hentry] at hplain
      cases entry with
      | slot => cases attrs.lookup name <;> rfl
      | value v => cases attrs.lookup name <;> rfl
      | descriptor get set => cases hplain

/-- What plain access is. -/
theorem plainAccess_iff {names : List String} : cls.plainAccess names = true ↔
    (∀ layer ∈ cls.mro, layer.setattr = none ∧ layer.getattribute = none) ∧
      ∀ name ∈ unknownSlot :: names, (cls.typeLookup name).any (·.isDescriptor) = false := by
  simp only [plainAccess, Bool.and_eq_true, List.all_eq_true, Option.isNone_iff_eq_none,
    Bool.not_eq_true']

end PyClass

/-! ## The two instances -/

section Instances

variable {w : World} {cls : ClassId} {descId : DescId} {defaults : List PyVal} {dc : Dataclass}

/-- The names of the attributes the fast path stores are those of the fields. -/
theorem map_fst_fastAttrs {fields : List FieldDescriptor} {values : List (Option PyVal)}
    {defaults : List PyVal} (hvalues : values.length = fields.length)
    (hdefaults : defaults.length = fields.length) :
    (fastAttrs fields values defaults).map Prod.fst = fields.map (·.name) := by
  have hzip : ((fields.zip values).zip defaults).map (fun p => p.1.1) = fields := by
    have hfst : ((fields.zip values).zip defaults).map Prod.fst = fields.zip values :=
      List.map_fst_zip (by rw [List.length_zip]; omega)
    have := congrArg (List.map Prod.fst) hfst
    rw [List.map_map, List.map_fst_zip (by omega)] at this
    exact this
  unfold fastAttrs
  rw [List.map_map]
  conv_rhs => rw [← hzip, List.map_map]
  rfl

/-- `object.__new__` makes an empty instance of a class without abstract methods. -/
theorem objectNew_eq_ok {cls : PyClass} {attrs : Attrs} :
    cls.objectNew = .ok attrs ↔ cls.abstract = false ∧ attrs = [] := by
  unfold PyClass.objectNew
  cases cls.abstract with
  | true => simp
  | false => simp [eq_comm]

/-- **The two paths are equivalent iff both leave attributes that read alike**: the assignments of the
fast path, and `__init__` on the fields seen. -/
theorem FastGuard.equivalent_iff (h : FastGuard (w.cls cls) (w.descriptor descId).inner defaults dc) :
    FastEquivalent w cls descId defaults ↔ (w.cls cls).abstract = false ∧
      ∀ st, Decoded w descId st → ∃ fast general,
        (w.cls cls).assign [] (fastAttrs (w.descriptor descId).inner.fields st.values defaults)
          = .ok fast ∧
        (w.cls cls).runInit [] (decodedKwargs (w.descriptor descId).inner.fields st.values)
          = .ok general ∧
        ReadsAlike w cls descId st.unknown fast general := by
  unfold FastEquivalent constructFast constructGeneral
  simp only [h.call_eq]
  constructor
  · intro hequivalent
    refine ⟨?_, fun st hst => ?_⟩
    · -- an abstract class cannot be made on the fast path either, as the empty message shows
      obtain ⟨a, b, hfast, -⟩ := hequivalent _ (decoded_init w descId)
      obtain ⟨start, hnew, -⟩ := bind_eq_ok.mp hfast
      exact (objectNew_eq_ok.mp hnew).1
    · obtain ⟨a, b, hfast, hgeneral, hsame⟩ := hequivalent st hst
      obtain ⟨start, hnew, hfast⟩ := bind_eq_ok.mp hfast
      obtain ⟨-, rfl⟩ := objectNew_eq_ok.mp hnew
      obtain ⟨fast, hassign, hunknown⟩ := bind_eq_ok.mp hfast
      rw [hnew, ok_bind, bind_assoc] at hgeneral
      obtain ⟨general, hinit, hgeneral⟩ := bind_eq_ok.mp hgeneral
      exact ⟨fast, general, hassign, hinit, a, b, hunknown, hgeneral, hsame⟩
  · rintro ⟨hconcrete, hpaths⟩ st hst
    obtain ⟨fast, general, hassign, hinit, a, b, hunknown, hgeneral, hsame⟩ := hpaths st hst
    have hnew := objectNew_eq_ok.mpr ⟨hconcrete, rfl⟩
    refine ⟨a, b, ?_, ?_, hsame⟩
    · rw [hnew, ok_bind, hassign, ok_bind, hunknown]
    · rw [hnew, ok_bind, hinit, ok_bind, ok_bind, hgeneral]

end Instances

/-! ## The instances under plain access -/

section Plain

variable {w : World} {cls : ClassId} {descId : DescId} {defaults : List PyVal} {dc : Dataclass}
  (hplain : (w.cls cls).plainAccess (w.descriptor descId).fieldNames = true)
include hplain

/-- An attribute of an instance reads as what is stored on it or on the class. -/
theorem getattr_readAttr {name : String}
    (hname : name ∈ unknownSlot :: (w.descriptor descId).fieldNames) (attrs : Attrs) :
    w.runtime.getattr (.inst cls attrs) name
      = ((readAttr w cls attrs name).map .ok).getD (.error (.attributeError name)) := by
  obtain ⟨hlayers, hentries⟩ := PyClass.plainAccess_iff.mp hplain
  have hown : (w.cls cls).mro.findSome? (·.getattribute) = none :=
    List.findSome?_eq_none_iff.mpr fun layer hlayer => (hlayers layer hlayer).2
  show (w.cls cls).getattr attrs name = _
  unfold PyClass.getattr
  rw [hown]
  exact PyClass.objectGetattribute_eq (hentries name hname) attrs

/-- Assigning stores an attribute where there is a place for it. -/
theorem FastGuard.setattr_plain
    (h : FastGuard (w.cls cls) (w.descriptor descId).inner defaults dc)
    (hlawful : (w.cls cls).Lawful) {name : String}
    (hname : name ∈ unknownSlot :: (w.descriptor descId).fieldNames) (attrs : Attrs)
    (value : PyVal) : (w.cls cls).setattr attrs name value =
      if (w.cls cls).stores name then .ok (setAttr attrs name value)
      else .error (.attributeError name) := by
  obtain ⟨hlayers, hentries⟩ := PyClass.plainAccess_iff.mp hplain
  rw [PyClass.setattr_eq (fun layer hlayer => (hlayers layer hlayer).1) (h.not_frozen hlawful)]
  exact PyClass.objectSetattr_eq (hentries name hname) attrs value

/-- Assignments to distinct fields store them if there is a place for each. -/
theorem FastGuard.assign_plain (h : FastGuard (w.cls cls) (w.descriptor descId).inner defaults dc)
    (hlawful : (w.cls cls).Lawful) {l : List (String × PyVal)} (hkeys : (l.map Prod.fst).Nodup)
    (hnames : ∀ name ∈ l.map Prod.fst, name ∈ (w.descriptor descId).fieldNames) {attrs : Attrs} :
    (w.cls cls).assign [] l = .ok attrs ↔
      (∀ name ∈ l.map Prod.fst, (w.cls cls).stores name = true) ∧ attrs = l := by
  have hset : ∀ p ∈ l, ∀ acc value, (w.cls cls).setattr acc p.1 value =
      if (w.cls cls).stores p.1 then .ok (setAttr acc p.1 value)
      else .error (.attributeError p.1) := fun p hp acc value =>
    h.setattr_plain hplain hlawful (List.mem_cons_of_mem _ (hnames _ (List.mem_map_of_mem hp))) acc
      value
  -- an attribute without a place makes the assignments fail
  have hstored : ∀ l' : List (String × PyVal), (∀ p ∈ l', p ∈ l) → ∀ acc,
      (w.cls cls).assign acc l' = .ok attrs → ∀ p ∈ l', (w.cls cls).stores p.1 = true := by
    intro l'
    induction l' with
    | nil => intro _ _ _ p hp; cases hp
    | cons q l' ih =>
        intro hsub acc hassign p hp
        rw [List.forall_mem_cons] at hsub
        unfold PyClass.assign at hassign
        rw [List.foldlM_cons, hset q hsub.1] at hassign
        obtain ⟨acc', hq, hassign⟩ := bind_eq_ok.mp hassign
        rcases List.mem_cons.mp hp with rfl | hp
        · by_contra hnot
          rw [if_neg hnot] at hq
          cases hq
        · exact ih hsub.2 acc' hassign p hp
  have hall : (∀ name ∈ l.map Prod.fst, (w.cls cls).stores name = true) →
      (w.cls cls).assign [] l = .ok l := by
    intro hstores
    rw [PyClass.assign_eq (fun p hp acc => by
      rw [hset p hp, if_pos (hstores _ (List.mem_map_of_mem hp))]), foldl_upsert_nodup hkeys]
  constructor
  · intro hassign
    have hstores : ∀ name ∈ l.map Prod.fst, (w.cls cls).stores name = true := by
      intro name hname
      obtain ⟨p, hp, rfl⟩ := List.mem_map.mp hname
      exact hstored l (fun _ => id) [] hassign p hp
    rw [hall hstores] at hassign
    exact ⟨hstores, (Except.ok.inj hassign).symm⟩
  · rintro ⟨hstores, rfl⟩
    exact hall hstores

/-- The unknown bytes are stored if there is a place for them. -/
theorem FastGuard.setUnknown_plain
    (h : FastGuard (w.cls cls) (w.descriptor descId).inner defaults dc)
    (hlawful : (w.cls cls).Lawful) {attrs : Attrs} {unknown : Bytes} {value : PyVal} :
    setUnknown w (.inst cls attrs) unknown = .ok value ↔
      (w.cls cls).stores unknownSlot = true ∧
        value = .inst cls (setAttr attrs unknownSlot (.bytes unknown)) := by
  have hobject := PyClass.objectSetattr_eq
    ((PyClass.plainAccess_iff.mp hplain).2 _ (List.mem_cons_self ..)) attrs (.bytes unknown)
  have hset := h.setattr_plain hplain hlawful (List.mem_cons_self ..) attrs (.bytes unknown)
  unfold setUnknown PyClass.storeUnknown
  dsimp only
  rw [hset, hobject]
  by_cases hstores : (w.cls cls).stores unknownSlot = true
  · rw [if_pos hstores]
    constructor
    · intro hvalue
      exact ⟨hstores, (Except.ok.inj hvalue).symm⟩
    · rintro ⟨-, rfl⟩
      rfl
  · rw [if_neg hstores]
    constructor
    · intro hvalue
      cases hvalue
    · rintro ⟨h, -⟩
      exact absurd h hstores

omit hplain in
/-- What is stored under a name is what it reads as. -/
theorem readAttr_setAttr (w : World) (cls : ClassId) (attrs : Attrs) (name : String) (value : PyVal)
    (k : String) : readAttr w cls (setAttr attrs name value) k
      = if k = name then some value else readAttr w cls attrs k := by
  unfold readAttr setAttr
  rw [lookup_upsertBy]
  split <;> rfl

/-- **Two instances are the same message iff `__init__` stores what it owes.** -/
theorem sameMessage_iff {st : DecodeState}
    (hvalues : st.values.length = (w.descriptor descId).inner.fields.length)
    (hdefaults : defaults.length = (w.descriptor descId).inner.fields.length)
    (hnames : ((w.descriptor descId).inner.fields.map (·.name)).Nodup) (attrs : Attrs) :
    SameMessage w descId
        (.inst cls (setAttr (fastAttrs (w.descriptor descId).inner.fields st.values defaults)
          unknownSlot (.bytes st.unknown)))
        (.inst cls (if st.unknown ≠ [] then setAttr attrs unknownSlot (.bytes st.unknown) else attrs)) ↔
      InitStores w cls descId defaults st attrs := by
  have hkeys := map_fst_fastAttrs hvalues hdefaults
  generalize hfast : fastAttrs (w.descriptor descId).inner.fields st.values defaults = fast at hkeys
  generalize hgeneral : (if st.unknown ≠ [] then setAttr attrs unknownSlot (.bytes st.unknown)
    else attrs) = general
  have hget : ∀ field ∈ (w.descriptor descId).inner.fields, ∀ attrs : Attrs,
      w.runtime.getattr (.inst cls attrs) field.name
        = ((readAttr w cls attrs field.name).map .ok).getD (.error (.attributeError field.name)) :=
    fun field hfield attrs =>
      getattr_readAttr hplain (List.mem_cons_of_mem _ (List.mem_map_of_mem hfield)) attrs
  -- the slot gives stored bytes back, on both instances
  have hstored : ∀ attrs : Attrs, encodeUnknown w.runtime
      (.inst cls (setAttr attrs unknownSlot (.bytes st.unknown))) [] = .ok st.unknown := by
    intro attrs
    unfold encodeUnknown
    rw [getattr_readAttr hplain (List.mem_cons_self ..), readAttr_setAttr, if_pos rfl]
    rfl
  -- the fast path leaves what it assigns, the slot apart
  have hread : ∀ p ∈ fast, p.1 ≠ unknownSlot →
      readAttr w cls (setAttr fast unknownSlot (.bytes st.unknown)) p.1 = some p.2 := by
    intro p hp hne
    rw [readAttr_setAttr, if_neg hne, readAttr, lookup_of_mem (by rw [hkeys]; exact hnames) hp]
    rfl
  -- storing the unknown bytes touches no other attribute
  have hother : ∀ name, name ≠ unknownSlot → readAttr w cls general name = readAttr w cls attrs name := by
    intro name hne
    rw [← hgeneral]
    split
    · rw [readAttr_setAttr, if_neg hne]
    · rfl
  constructor
  · intro hsame
    have hgetattr : ∀ name ∈ fast.map Prod.fst, ∀ v,
        readAttr w cls (setAttr fast unknownSlot (.bytes st.unknown)) name = some v →
          readAttr w cls general name = some v := by
      intro name hname v hv
      rw [hkeys] at hname
      obtain ⟨field, hfield, rfl⟩ := List.mem_map.mp hname
      have heq := hsame.fields field hfield
      rw [hget field hfield, hget field hfield, hv] at heq
      cases hgen : readAttr w cls general field.name with
      | none => rw [hgen] at heq; cases heq
      | some v' => rw [hgen] at heq; rw [Except.ok.inj heq]
    refine ⟨?_, ?_, ?_⟩
    · intro p hp hne
      rw [hfast] at hp
      rw [← hother p.1 hne]
      exact hgetattr p.1 (List.mem_map_of_mem hp) _ (hread p hp hne)
    · intro hunknown hmem
      have := hgetattr unknownSlot (by rw [hkeys]; exact hmem) (.bytes [])
        (by rw [readAttr_setAttr, if_pos rfl, hunknown])
      rwa [← hgeneral, if_neg (by simp [hunknown])] at this
    · intro hunknown
      have := hsame.unknown
      rw [hstored, ← hgeneral, if_neg (by simp [hunknown]), hunknown] at this
      exact this.symm
  · intro hstores
    refine ⟨?_, ?_⟩
    · intro field hfield
      have hname : field.name ∈ fast.map Prod.fst := by
        rw [hkeys]
        exact List.mem_map_of_mem hfield
      obtain ⟨p, hp, hpname⟩ := List.mem_map.mp hname
      rw [hget field hfield, hget field hfield]
      -- a field named like the slot reads as the unknown bytes on the fast path
      by_cases hne : field.name = unknownSlot
      · rw [hne, readAttr_setAttr, if_pos rfl, ← hgeneral]
        by_cases hunknown : st.unknown = []
        · rw [if_neg (by simp [hunknown]), hstores.named hunknown
            (by rw [Descriptor.fieldNames, ← hne]; exact List.mem_map_of_mem hfield), hunknown]
        · rw [if_pos hunknown, readAttr_setAttr, if_pos rfl]
      · rw [hother _ hne, ← hpname, hread p hp (by rw [hpname]; exact hne),
          hstores.fields p (by rw [hfast]; exact hp) (by rw [hpname]; exact hne)]
    · rw [hstored, ← hgeneral]
      by_cases hunknown : st.unknown = []
      · rw [if_neg (by simp [hunknown]), hstores.slot hunknown, hunknown]
      · rw [if_pos hunknown, hstored]

/-- The unknown bytes have a place, and both instances read alike, iff `__init__` stores what it
owes. -/
theorem FastGuard.readsAlike_plain
    (h : FastGuard (w.cls cls) (w.descriptor descId).inner defaults dc)
    (hlawful : (w.cls cls).Lawful) {st : DecodeState}
    (hvalues : st.values.length = (w.descriptor descId).inner.fields.length) {attrs : Attrs} :
    ReadsAlike w cls descId st.unknown
        (fastAttrs (w.descriptor descId).inner.fields st.values defaults) attrs ↔
      (w.cls cls).stores unknownSlot = true ∧ InitStores w cls descId defaults st attrs := by
  have hsame := sameMessage_iff hplain hvalues h.length_defaults (h.names_nodup hlawful) attrs
  have hgeneral : (w.cls cls).stores unknownSlot = true →
      (if st.unknown ≠ [] then setUnknown w (.inst cls attrs) st.unknown else .ok (.inst cls attrs))
        = .ok (.inst cls (if st.unknown ≠ [] then setAttr attrs unknownSlot (.bytes st.unknown)
            else attrs)) := by
    intro hslot
    by_cases hunknown : st.unknown = []
    · rw [if_neg (by simp [hunknown]), if_neg (by simp [hunknown])]
    · rw [if_pos hunknown, if_pos hunknown]
      exact (h.setUnknown_plain hplain hlawful).mpr ⟨hslot, rfl⟩
  constructor
  · rintro ⟨a, b, hfast, hinit, hmessage⟩
    obtain ⟨hslot, rfl⟩ := (h.setUnknown_plain hplain hlawful).mp hfast
    rw [hgeneral hslot] at hinit
    cases hinit
    exact ⟨hslot, hsame.mp hmessage⟩
  · rintro ⟨hslot, hstores⟩
    exact ⟨_, _, (h.setUnknown_plain hplain hlawful).mpr ⟨hslot, rfl⟩, hgeneral hslot,
      hsame.mpr hstores⟩

/-- **Under plain access the two paths are equivalent iff the fields have a place and `__init__` stores
what it owes** for every accepted message. -/
theorem FastGuard.equivalent_plain
    (h : FastGuard (w.cls cls) (w.descriptor descId).inner defaults dc)
    (hlawful : (w.cls cls).Lawful) (hwf : (w.descriptor descId).inner.WellFormed) :
    FastEquivalent w cls descId defaults ↔ (w.cls cls).abstract = false ∧ FieldsStored w cls descId ∧
      ∀ st, Decoded w descId st → ∃ attrs,
        (w.cls cls).runInit [] (decodedKwargs (w.descriptor descId).inner.fields st.values)
          = .ok attrs ∧
        InitStores w cls descId defaults st attrs := by
  rw [h.equivalent_iff]
  refine and_congr_right fun _ => ?_
  have hkeys : ∀ st, Decoded w descId st →
      (fastAttrs (w.descriptor descId).inner.fields st.values defaults).map Prod.fst
        = (w.descriptor descId).fieldNames := by
    intro st hst
    exact map_fst_fastAttrs (hst.ready hwf).length h.length_defaults
  have hassign : ∀ st (hst : Decoded w descId st) fast,
      (w.cls cls).assign [] (fastAttrs (w.descriptor descId).inner.fields st.values defaults)
          = .ok fast ↔
        (∀ name ∈ (w.descriptor descId).fieldNames, (w.cls cls).stores name = true) ∧
          fast = fastAttrs (w.descriptor descId).inner.fields st.values defaults := by
    intro st hst fast
    rw [h.assign_plain hplain hlawful (by rw [hkeys st hst]; exact h.names_nodup hlawful)
      (by rw [hkeys st hst]; exact fun _ => id), hkeys st hst]
  constructor
  · intro hpaths
    have hread : ∀ st, Decoded w descId st → FieldsStored w cls descId ∧ ∃ attrs,
        (w.cls cls).runInit [] (decodedKwargs (w.descriptor descId).inner.fields st.values)
          = .ok attrs ∧
        InitStores w cls descId defaults st attrs := by
      intro st hst
      obtain ⟨fast, attrs, hfast, hinit, hreads⟩ := hpaths st hst
      obtain ⟨hnames, rfl⟩ := (hassign st hst _).mp hfast
      obtain ⟨hslot, hstores⟩ :=
        (h.readsAlike_plain hplain hlawful (hst.ready hwf).length).mp hreads
      exact ⟨List.forall_mem_cons.mpr ⟨hslot, hnames⟩, attrs, hinit, hstores⟩
    exact ⟨(hread _ (decoded_init w descId)).1, fun st hst => (hread st hst).2⟩
  · rintro ⟨hstored, hinit⟩ st hst
    obtain ⟨hslot, hnames⟩ := List.forall_mem_cons.mp hstored
    obtain ⟨attrs, hinit, hstores⟩ := hinit st hst
    exact ⟨_, attrs, (hassign st hst _).mpr ⟨hnames, rfl⟩, hinit,
      (h.readsAlike_plain hplain hlawful (hst.ready hwf).length).mpr ⟨hslot, hstores⟩⟩

end Plain

/-! ## The generated `__init__` -/

/-- A field of a class that passed the guard, with its dataclass entry, the value decoded for it and
its default. -/
structure FastEntry where
  entry : DataField
  field : FieldDescriptor
  value : Option PyVal
  default : PyVal

/-- What is known of such a field. -/
structure FastEntry.Sound (e : FastEntry) : Prop where
  name : e.entry.name = e.field.name
  default : e.entry.fastDefault e.field = some e.default
  collection : e.field.isCollection = true → e.value.isSome = true

/-- The fields of a class that passed the guard, one by one. -/
theorem exists_fastEntries {dfs : List DataField} :
    ∀ {fields : List FieldDescriptor} {values : List (Option PyVal)} {defaults : List PyVal},
      dfs.map (·.name) = fields.map (·.name) →
      (dfs.zip fields).mapM (fun (f, field) => f.fastDefault field) = some defaults →
      List.Forall₂ (fun field v => field.isCollection = true → v.isSome = true) fields values →
      ∃ entries : List FastEntry, dfs = entries.map (·.entry) ∧ fields = entries.map (·.field) ∧
        values = entries.map (·.value) ∧ defaults = entries.map (·.default) ∧
        ∀ e ∈ entries, e.Sound := by
  induction dfs with
  | nil =>
      intro fields values defaults hnames hdefaults hvalues
      cases fields with
      | nil =>
          cases hvalues
          have hnil : defaults = [] := by simpa using hdefaults.symm
          exact ⟨[], rfl, rfl, rfl, hnil, fun _ => nofun⟩
      | cons field fields => cases hnames
  | cons f dfs ih =>
      intro fields values defaults hnames hdefaults hvalues
      cases fields with
      | nil => cases hnames
      | cons field fields =>
          cases hvalues with
          | @cons _ v _ values hv hvs =>
              rw [List.map_cons, List.map_cons, List.cons.injEq] at hnames
              rw [List.zip_cons_cons, List.mapM_cons] at hdefaults
              obtain ⟨d, hd, hdefaults⟩ := Option.bind_eq_some_iff.mp hdefaults
              obtain ⟨ds, hds, hdefaults⟩ := Option.bind_eq_some_iff.mp hdefaults
              cases hdefaults
              obtain ⟨entries, rfl, rfl, rfl, rfl, hsound⟩ := ih hnames.2 hds hvs
              refine ⟨⟨f, field, v, d⟩ :: entries, rfl, rfl, rfl, rfl, fun e he => ?_⟩
              rcases List.mem_cons.mp he with rfl | he
              · exact ⟨hnames.1, hd, hv⟩
              · exact hsound e he

/-- An entry the guard takes is a parameter unless it is a `ClassVar`. -/
theorem FastEntry.Sound.init {e : FastEntry} (h : e.Sound) : e.entry.init = true := by
  have hdefault := h.default
  unfold DataField.fastDefault at hdefault
  split at hdefault
  · assumption
  · cases hdefault

/-- A field that was not seen has its default on the dataclass. -/
theorem FastEntry.Sound.default_of_absent {e : FastEntry} (h : e.Sound) (habsent : e.value = none) :
    e.entry.default = some e.default := by
  have hdefault := h.default
  unfold DataField.fastDefault at hdefault
  rw [if_pos h.init] at hdefault
  -- a placeholder stands for a collection, and those are always decoded
  have hcol : e.field.isCollection ≠ true := by
    intro hcol
    have := h.collection hcol
    rw [habsent] at this
    cases this
  cases hd : e.entry.default with
  | some d => simpa [hd] using hdefault
  | none =>
      rw [hd] at hdefault
      cases hfactory : e.entry.defaultFactory with
      | none => simp [hfactory] at hdefault
      | some factory => cases factory <;> simp [hfactory, hcol] at hdefault

/-- What the generated `__init__` stores for a field. -/
def FastEntry.stored (e : FastEntry) : Option PyVal :=
  if e.entry.fieldType = .regular then some (e.value.getD e.default) else none

/-- The value an entry stores is the one of its field. -/
theorem FastEntry.Sound.stored_eq {e : FastEntry} (h : e.Sound) (slots : Bool) {kwargs : Kwargs}
    (hlookup : kwargs.lookup e.field.name = e.value) : e.entry.stored slots kwargs = .ok e.stored := by
  unfold DataField.stored FastEntry.stored
  by_cases hregular : e.entry.fieldType = .regular
  · rw [if_neg (by simp [hregular]), if_pos hregular, h.init, if_pos rfl, h.name, hlookup]
    cases hvalue : e.value with
    | some v => rfl
    | none => rw [h.default_of_absent hvalue]; rfl
  · rw [if_pos hregular, if_neg hregular]

/-- The attribute an entry is assigned, if it is one. -/
def FastEntry.assigned (e : FastEntry) : Option (String × PyVal) :=
  e.stored.map fun value => (e.field.name, value)

/-- The generated assignments are those of the entries that are attributes. -/
theorem foldlM_assign_entries {cls : PyClass} {entries : List FastEntry}
    (hsound : ∀ e ∈ entries, e.Sound) (slots : Bool) {kwargs : Kwargs}
    (hlookup : ∀ e ∈ entries, kwargs.lookup e.field.name = e.value) :
    ∀ attrs : Attrs, (entries.map (·.entry)).foldlM (DataField.assign cls.setattr slots kwargs) attrs
      = cls.assign attrs (entries.filterMap FastEntry.assigned) := by
  induction entries with
  | nil => exact fun attrs => rfl
  | cons e entries ih =>
      intro attrs
      rw [List.forall_mem_cons] at hsound hlookup
      have hrest := ih hsound.2 hlookup.2
      have hstored := hsound.1.stored_eq slots hlookup.1
      rw [List.map_cons, List.foldlM_cons, DataField.assign, hstored, ok_bind, hsound.1.name]
      cases he : e.stored with
      | none =>
          rw [List.filterMap_cons_none (by rw [FastEntry.assigned, he]; rfl)]
          exact hrest attrs
      | some value =>
          rw [List.filterMap_cons_some (by rw [FastEntry.assigned, he]; rfl)]
          unfold PyClass.assign
          rw [List.foldlM_cons]
          exact congrArg _ (funext hrest)

/-- They are what the fast path assigns, less the entries that are no attributes. -/
theorem filterMap_assigned {dc : Dataclass} {entries : List FastEntry}
    (hsound : ∀ e ∈ entries, e.Sound)
    (hregular : ∀ e ∈ entries, dc.hasRegular e.field.name = decide (e.entry.fieldType = .regular)) :
    entries.filterMap FastEntry.assigned
      = (entries.map fun e => (e.field.name, e.value.getD e.default)).filter
          fun p => dc.hasRegular p.1 := by
  induction entries with
  | nil => rfl
  | cons e entries ih =>
      rw [List.forall_mem_cons] at hsound hregular
      have hrest := ih hsound.2 hregular.2
      by_cases he : e.entry.fieldType = .regular
      · rw [List.filterMap_cons_some (b := (e.field.name, e.value.getD e.default))
            (by rw [FastEntry.assigned, FastEntry.stored, if_pos he]; rfl),
          List.map_cons, List.filter_cons_of_pos (by rw [hregular.1]; simpa using he), hrest]
      · rw [List.filterMap_cons_none (by rw [FastEntry.assigned, FastEntry.stored, if_neg he]; rfl),
          List.map_cons, List.filter_cons_of_neg (by rw [hregular.1]; simpa using he), hrest]

/-- A class that runs the `__init__` generated for it. -/
theorem FastGuard.runInit_eq {cls : PyClass} {inner : MessageDescriptor} {defaults : List PyVal}
    {dc dc' : Dataclass} (h : FastGuard cls inner defaults dc) (hown : cls.ownGenerated = some dc') :
    dc' = dc ∧ cls.runInit = generatedInit cls dc (messagePostInit cls) := by
  obtain ⟨layer, rest, hmro, hdc⟩ := h.mro_eq
  unfold PyClass.ownGenerated at hown
  rw [hmro] at hown
  dsimp only at hown
  split at hown
  · cases hown
  · rename_i hnone
    rw [hdc, Option.filter_eq_some_iff] at hown
    obtain ⟨hsame, hinit⟩ := hown
    cases hsame
    refine ⟨rfl, ?_⟩
    have hlayer : cls.layerInit layer = some (generatedInit cls dc (messagePostInit cls)) := by
      unfold PyClass.layerInit
      rw [Option.not_isSome_iff_eq_none.mp hnone, hdc]
      simp only [hinit, if_true, h.postInit_eq]
    funext attrs kwargs
    unfold PyClass.runInit
    rw [hmro, List.findSome?_cons, hlayer]

/-- The generated `__init__` succeeds iff every argument is a parameter and it passes nothing on. -/
theorem generatedInit_eq_ok {cls : PyClass} {dc : Dataclass} {kwargs : Kwargs} {start attrs : Attrs} :
    generatedInit cls dc (messagePostInit cls) start kwargs = .ok attrs ↔
      (∀ kw ∈ kwargs, ∃ f ∈ dc.fields, f.isParam = true ∧ f.name = kw.1) ∧
      initVarArgs dc.fields kwargs = .ok [] ∧
      ∃ own, assignFields cls dc kwargs start = .ok own ∧
        messagePostInit cls own [] = .ok attrs := by
  -- a keyword is unexpected iff no parameter has its name
  have hknown : (kwargs.find? fun kw => !dc.fields.any fun f => f.isParam && f.name == kw.1) = none ↔
      ∀ kw ∈ kwargs, ∃ f ∈ dc.fields, f.isParam = true ∧ f.name = kw.1 := by
    rw [List.find?_eq_none]
    refine forall_congr' fun kw => forall_congr' fun _ => ?_
    simp
  rw [← hknown]
  unfold generatedInit
  cases kwargs.find? fun kw => !dc.fields.any fun f => f.isParam && f.name == kw.1 with
  | some kw => simp
  | none =>
      dsimp only
      rw [bind_eq_ok]
      constructor
      · rintro ⟨own, hassign, h⟩
        obtain ⟨args, hargs, h⟩ := bind_eq_ok.mp h
        cases args with
        | nil => exact ⟨rfl, hargs, own, hassign, h⟩
        | cons arg args => cases h
      · rintro ⟨-, hargs, own, hassign, hpost⟩
        refine ⟨own, hassign, ?_⟩
        rw [hargs]
        exact hpost

/-- Nothing is passed on to `__post_init__` iff no entry is an `InitVar`. -/
theorem initVarArgs_eq_nil {fields : List DataField} {kwargs : Kwargs} :
    initVarArgs fields kwargs = .ok [] ↔ ∀ f ∈ fields, f.fieldType ≠ .initVar := by
  unfold initVarArgs
  rw [mapM_eq_ok]
  constructor
  · intro h f hf hinit
    have hnil := List.forall₂_nil_right_iff.mp h
    rw [List.filter_eq_nil_iff] at hnil
    exact hnil f hf (by simp [hinit])
  · intro h
    rw [List.filter_eq_nil_iff.mpr fun f hf => by simpa using h f hf]
    exact .nil

section Generated

variable {w : World} {cls : ClassId} {descId : DescId} {defaults : List PyVal} {dc : Dataclass}

/-- The fields of a class that passed the guard, with the values of an accepted message. -/
structure FastEntries (w : World) (descId : DescId) (defaults : List PyVal) (dc : Dataclass)
    (st : DecodeState) (entries : List FastEntry) : Prop where
  fields : dc.fields = entries.map (·.entry)
  attrs : fastAttrs (w.descriptor descId).inner.fields st.values defaults
    = entries.map fun e => (e.field.name, e.value.getD e.default)
  names : (entries.map (·.field.name)).Nodup
  sound : ∀ e ∈ entries, e.Sound
  /-- The argument of a field is the value decoded for it. -/
  lookup : ∀ e ∈ entries,
    (decodedKwargs (w.descriptor descId).inner.fields st.values).lookup e.field.name = e.value
  keys : ∀ kw ∈ decodedKwargs (w.descriptor descId).inner.fields st.values,
    ∃ e ∈ entries, e.field.name = kw.1

/-- The guard establishes them. -/
theorem FastGuard.exists_entries (h : FastGuard (w.cls cls) (w.descriptor descId).inner defaults dc)
    (hlawful : (w.cls cls).Lawful) {st : DecodeState}
    (hready : st.Ready (w.descriptor descId).inner.fields) :
    ∃ entries, FastEntries w descId defaults dc st entries := by
  obtain ⟨entries, hdfs, hfields, hvalues, hdefaults, hsound⟩ :=
    exists_fastEntries h.names h.defaults hready.collections
  -- entries, fields, values and defaults are four columns of one list
  have hzip : (w.descriptor descId).inner.fields.zip st.values
      = entries.map fun e => (e.field, e.value) := by
    rw [hfields, hvalues, List.zip_map']
  have hnodup : (entries.map (·.field.name)).Nodup := by
    have := h.names_nodup hlawful
    rwa [hfields, List.map_map] at this
  refine ⟨entries, hdfs, ?_, hnodup, hsound, fun e he => ?_, fun kw hkw => ?_⟩
  · unfold fastAttrs
    rw [hzip, hdefaults, List.zip_map', List.map_map]
    rfl
  · unfold decodedKwargs
    rw [hzip]
    exact lookup_foldl_passSeen (by rw [List.map_map]; exact hnodup)
      (List.mem_map_of_mem (f := fun e => (e.field, e.value)) he) [] rfl
  · unfold decodedKwargs at hkw
    rw [hzip] at hkw
    rcases mem_foldl_passSeen hkw with ⟨q, hq, -⟩ | ⟨q, hq, hname⟩
    · cases hq
    · obtain ⟨e, he, rfl⟩ := List.mem_map.mp hq
      exact ⟨e, he, hname⟩

namespace FastEntries

variable {st : DecodeState} {entries : List FastEntry}
  (h : FastEntries w descId defaults dc st entries)
include h

/-- The entry of a field is one of the dataclass. -/
theorem entry_mem {e : FastEntry} (he : e ∈ entries) : e.entry ∈ dc.fields := by
  rw [h.fields]
  exact List.mem_map_of_mem he

/-- A name has one entry. -/
theorem entry_eq {f : DataField} (hf : f ∈ dc.fields) {e : FastEntry} (he : e ∈ entries)
    (hname : f.name = e.field.name) : f = e.entry := by
  rw [h.fields] at hf
  obtain ⟨e', he', rfl⟩ := List.mem_map.mp hf
  rw [(h.sound e' he').name] at hname
  rw [List.inj_on_of_nodup_map h.names he' he hname]

/-- A field is an attribute if its entry is. -/
theorem hasRegular {e : FastEntry} (he : e ∈ entries) :
    dc.hasRegular e.field.name = decide (e.entry.fieldType = .regular) := by
  unfold Dataclass.hasRegular
  rw [Bool.eq_iff_iff, List.any_eq_true, decide_eq_true_eq]
  constructor
  · rintro ⟨f, hf, hmatch⟩
    rw [Bool.and_eq_true, beq_iff_eq, decide_eq_true_eq] at hmatch
    rw [← h.entry_eq hf he hmatch.1]
    exact hmatch.2
  · intro hregular
    exact ⟨e.entry, h.entry_mem he, by simp [(h.sound e he).name, hregular]⟩

/-- Every argument is a parameter iff no `ClassVar` was seen, where no entry is an `InitVar`. -/
theorem params_iff :
    (∀ kw ∈ decodedKwargs (w.descriptor descId).inner.fields st.values,
      ∃ f ∈ dc.fields, f.isParam = true ∧ f.name = kw.1) ↔
    ∀ f ∈ dc.fields, f.fieldType = .classVar →
      (decodedKwargs (w.descriptor descId).inner.fields st.values).lookup f.name = none := by
  constructor
  · intro hparams f hf hclass
    rw [List.lookup_eq_none_iff]
    intro kw hkw
    rw [bne_iff_ne]
    intro hname
    obtain ⟨g, hg, hparam, hgname⟩ := hparams kw hkw
    obtain ⟨e, he, hename⟩ := h.keys kw hkw
    -- the parameter with the name is the entry itself
    rw [h.entry_eq hg he (hgname.trans hename.symm),
      ← h.entry_eq hf he (hname.trans hename.symm), DataField.isParam, hclass] at hparam
    simp at hparam
  · intro hnever kw hkw
    obtain ⟨e, he, hname⟩ := h.keys kw hkw
    refine ⟨e.entry, h.entry_mem he, ?_, (h.sound e he).name.trans hname⟩
    rw [DataField.isParam, (h.sound e he).init, Bool.true_and, decide_eq_true_eq]
    intro hclass
    have hnone := hnever e.entry (h.entry_mem he) hclass
    rw [(h.sound e he).name, hname] at hnone
    have := List.lookup_eq_none_iff.mp hnone kw hkw
    simp at this

/-- The assignments of the generated `__init__` are those of the fast path to attributes. -/
theorem assignFields_eq {cls : PyClass} (hfrozen : dc.frozen = false) :
    assignFields cls dc (decodedKwargs (w.descriptor descId).inner.fields st.values) []
      = cls.assign [] ((fastAttrs (w.descriptor descId).inner.fields st.values defaults).filter
          fun p => dc.hasRegular p.1) := by
  unfold assignFields
  rw [hfrozen, if_neg (by decide), h.attrs,
    ← filterMap_assigned h.sound fun e he => h.hasRegular he]
  conv_lhs => rw [h.fields]
  exact foldlM_assign_entries h.sound dc.slots h.lookup []

/-- The fast path assigns the value or the default of a field. -/
theorem mem_fastAttrs {e : FastEntry} (he : e ∈ entries) : (e.field.name, e.value.getD e.default) ∈
    fastAttrs (w.descriptor descId).inner.fields st.values defaults := by
  rw [h.attrs]
  exact List.mem_map.mpr ⟨e, he, rfl⟩

/-- The generated `__init__` leaves the entries that are attributes. -/
theorem lookup_own {e : FastEntry} (he : e ∈ entries) :
    ((fastAttrs (w.descriptor descId).inner.fields st.values defaults).filter
      fun p => dc.hasRegular p.1).lookup e.field.name = e.stored := by
  have hkeys : ((fastAttrs (w.descriptor descId).inner.fields st.values defaults).map
      Prod.fst).Nodup := by
    rw [h.attrs, List.map_map]
    exact h.names
  have hown := h.hasRegular he
  unfold FastEntry.stored
  by_cases hregular : e.entry.fieldType = .regular
  · rw [if_pos hregular]
    have hmem : (e.field.name, e.value.getD e.default) ∈
        (fastAttrs (w.descriptor descId).inner.fields st.values defaults).filter
          fun p => dc.hasRegular p.1 :=
      List.mem_filter.mpr ⟨h.mem_fastAttrs he, by rw [hown]; exact decide_eq_true hregular⟩
    exact lookup_of_mem (hkeys.sublist (List.filter_sublist.map _)) hmem
  · rw [if_neg hregular]
    refine lookup_of_not_mem fun hname => ?_
    obtain ⟨p, hp, hpname⟩ := List.mem_map.mp hname
    have hp := (List.mem_filter.mp hp).2
    rw [hpname, hown] at hp
    exact hregular (of_decide_eq_true hp)

/-- A `ClassVar` that was not seen: the fast path assigns its default. -/
theorem default_eq {e : FastEntry} (he : e ∈ entries)
    (hnever : (decodedKwargs (w.descriptor descId).inner.fields st.values).lookup e.entry.name
      = none) : e.entry.default = some (e.value.getD e.default) := by
  have habsent : e.value = none := by
    rw [← h.lookup e he, ← (h.sound e he).name]
    exact hnever
  rw [(h.sound e he).default_of_absent habsent, habsent]
  rfl

end FastEntries

/-- **The generated `__init__` on an accepted message**: it raises nothing iff no entry is an
`InitVar`, no `ClassVar` was seen and the assignments raise nothing. -/
theorem FastGuard.generatedInit_eq_ok
    (h : FastGuard (w.cls cls) (w.descriptor descId).inner defaults dc)
    (hlawful : (w.cls cls).Lawful) {st : DecodeState}
    (hready : st.Ready (w.descriptor descId).inner.fields) {attrs : Attrs} :
    generatedInit (w.cls cls) dc (messagePostInit (w.cls cls)) []
        (decodedKwargs (w.descriptor descId).inner.fields st.values) = .ok attrs ↔
      (∀ f ∈ dc.fields, f.fieldType ≠ .initVar) ∧
      (∀ f ∈ dc.fields, f.fieldType = .classVar →
        (decodedKwargs (w.descriptor descId).inner.fields st.values).lookup f.name = none) ∧
      ∃ own, (w.cls cls).assign []
          ((fastAttrs (w.descriptor descId).inner.fields st.values defaults).filter
            fun p => dc.hasRegular p.1) = .ok own ∧
        messagePostInit (w.cls cls) own [] = .ok attrs := by
  obtain ⟨entries, hentries⟩ := h.exists_entries hlawful hready
  rw [FastProto.generatedInit_eq_ok, initVarArgs_eq_nil, hentries.params_iff,
    hentries.assignFields_eq h.frozen]
  exact and_left_comm

/-- Under plain access the generated `__init__` fills the slot. -/
theorem FastGuard.messagePostInit_plain
    (h : FastGuard (w.cls cls) (w.descriptor descId).inner defaults dc)
    (hplain : (w.cls cls).plainAccess (w.descriptor descId).fieldNames = true)
    (hlawful : (w.cls cls).Lawful) (hslot : (w.cls cls).stores unknownSlot = true) (own : Attrs) :
    messagePostInit (w.cls cls) own [] = .ok (setAttr own unknownSlot (.bytes [])) := by
  unfold messagePostInit PyClass.storeUnknown
  dsimp only
  rw [h.setattr_plain hplain hlawful (List.mem_cons_self ..), if_pos hslot]

/-- **The generated `__init__` over regular fields stores what it owes** iff every `ClassVar` reads as
its default. -/
theorem FastGuard.initStores_iff
    (h : FastGuard (w.cls cls) (w.descriptor descId).inner defaults dc)
    (hplain : (w.cls cls).plainAccess (w.descriptor descId).fieldNames = true)
    (hlawful : (w.cls cls).Lawful) (hinitVar : ∀ f ∈ dc.fields, f.fieldType ≠ .initVar)
    {st : DecodeState} (hready : st.Ready (w.descriptor descId).inner.fields)
    (hnever : ∀ f ∈ dc.fields, f.fieldType = .classVar →
      (decodedKwargs (w.descriptor descId).inner.fields st.values).lookup f.name = none) :
    InitStores w cls descId defaults st
        (setAttr ((fastAttrs (w.descriptor descId).inner.fields st.values defaults).filter
          fun p => dc.hasRegular p.1) unknownSlot (.bytes [])) ↔
      ∀ f ∈ dc.fields, f.fieldType = .classVar → f.name ≠ unknownSlot →
        (w.cls cls).classValue f.name = f.default := by
  obtain ⟨entries, hentries⟩ := h.exists_entries hlawful hready
  -- an attribute reads as assigned, another entry as what the class binds
  have hread : ∀ e ∈ entries, e.field.name ≠ unknownSlot →
      readAttr w cls (setAttr
        ((fastAttrs (w.descriptor descId).inner.fields st.values defaults).filter
          fun p => dc.hasRegular p.1) unknownSlot (.bytes [])) e.field.name
        = e.stored.or ((w.cls cls).classValue e.field.name) := by
    intro e he hne
    rw [readAttr_setAttr, if_neg hne, readAttr, hentries.lookup_own he]
  have hclassVar : ∀ e ∈ entries, e.entry.fieldType ≠ .regular → e.entry.fieldType = .classVar := by
    intro e he hregular
    cases hty : e.entry.fieldType with
    | regular => exact absurd hty hregular
    | classVar => rfl
    | initVar => exact absurd hty (hinitVar e.entry (hentries.entry_mem he))
  constructor
  · intro hstores f hf hclass hne
    rw [hentries.fields] at hf
    obtain ⟨e, he, rfl⟩ := List.mem_map.mp hf
    have hdefault := hentries.default_eq he (hnever e.entry (hentries.entry_mem he) hclass)
    rw [(hentries.sound e he).name] at hne ⊢
    have hfield := hstores.fields _ (hentries.mem_fastAttrs he) hne
    rw [hread e he hne, FastEntry.stored, if_neg (by rw [hclass]; decide), Option.none_or] at hfield
    rw [hfield, hdefault]
  · intro hvalues
    refine ⟨?_, ?_, ?_⟩
    · intro p hp hne
      rw [hentries.attrs] at hp
      obtain ⟨e, he, rfl⟩ := List.mem_map.mp hp
      have hne : e.field.name ≠ unknownSlot := hne
      rw [hread e he hne, FastEntry.stored]
      by_cases hregular : e.entry.fieldType = .regular
      · rw [if_pos hregular]
        rfl
      · have hclass := hclassVar e he hregular
        have hmem := hentries.entry_mem he
        have hvalue := hvalues e.entry hmem hclass (by rw [(hentries.sound e he).name]; exact hne)
        rw [hentries.default_eq he (hnever e.entry hmem hclass), (hentries.sound e he).name] at hvalue
        rw [if_neg hregular, Option.none_or, hvalue]
    · intro _ _
      rw [readAttr_setAttr, if_pos rfl]
    · intro _
      unfold encodeUnknown
      rw [getattr_readAttr hplain (List.mem_cons_self ..), readAttr_setAttr, if_pos rfl]
      rfl

/-- The generated `__init__` where attribute access is Python's own. -/
theorem FastGuard.generated_plain
    (h : FastGuard (w.cls cls) (w.descriptor descId).inner defaults dc)
    (hplain : (w.cls cls).plainAccess (w.descriptor descId).fieldNames = true)
    (hlawful : (w.cls cls).Lawful) (hwf : (w.descriptor descId).inner.WellFormed) :
    (FieldsStored w cls descId ∧ ∀ st, Decoded w descId st → ∃ attrs,
      generatedInit (w.cls cls) dc (messagePostInit (w.cls cls)) []
          (decodedKwargs (w.descriptor descId).inner.fields st.values) = .ok attrs ∧
        InitStores w cls descId defaults st attrs) ↔
      GeneratedUnobservable w cls descId defaults dc := by
  -- `__init__` assigns a part of what the fast path does, so its fields have a place too
  have hown : FieldsStored w cls descId → ∀ st (hst : Decoded w descId st) own,
      (w.cls cls).assign [] ((fastAttrs (w.descriptor descId).inner.fields st.values defaults).filter
          fun p => dc.hasRegular p.1) = .ok own ↔
        own = (fastAttrs (w.descriptor descId).inner.fields st.values defaults).filter
          fun p => dc.hasRegular p.1 := by
    intro hstored st hst own
    have hkeys := map_fst_fastAttrs (hst.ready hwf).length h.length_defaults
    have hsub : (((fastAttrs (w.descriptor descId).inner.fields st.values defaults).filter
        fun p => dc.hasRegular p.1).map Prod.fst).Sublist (w.descriptor descId).fieldNames := by
      rw [Descriptor.fieldNames, ← hkeys]
      exact List.filter_sublist.map _
    rw [h.assign_plain hplain hlawful ((h.names_nodup hlawful).sublist hsub) fun _ => hsub.mem]
    exact and_iff_right fun name hname => hstored name (List.mem_cons_of_mem _ (hsub.mem hname))
  unfold GeneratedUnobservable
  rw [if_pos hplain]
  constructor
  · rintro ⟨hstored, hinit⟩
    have hslot := hstored _ (List.mem_cons_self ..)
    have hparts : ∀ st, Decoded w descId st → (∀ f ∈ dc.fields, f.fieldType ≠ .initVar) ∧
        (∀ f ∈ dc.fields, f.fieldType = .classVar →
          (decodedKwargs (w.descriptor descId).inner.fields st.values).lookup f.name = none) ∧
        ∀ f ∈ dc.fields, f.fieldType = .classVar → f.name ≠ unknownSlot →
          (w.cls cls).classValue f.name = f.default := by
      intro st hst
      obtain ⟨attrs, hattrs, hstores⟩ := hinit st hst
      obtain ⟨hinitVar, hnever, own, hassign, hpost⟩ :=
        (h.generatedInit_eq_ok hlawful (hst.ready hwf)).mp hattrs
      obtain rfl := (hown hstored st hst own).mp hassign
      rw [h.messagePostInit_plain hplain hlawful hslot] at hpost
      cases hpost
      exact ⟨hinitVar, hnever,
        (h.initStores_iff hplain hlawful hinitVar (hst.ready hwf) hnever).mp hstores⟩
    -- what does not depend on the input is read off the empty message
    have hempty := hparts _ (decoded_init w descId)
    exact ⟨hempty.1, fun f hf hclass st hst => (hparts st hst).2.1 f hf hclass, hstored, hempty.2.2⟩
  · rintro ⟨hinitVar, hnever, hstored, hvalues⟩
    have hslot := hstored _ (List.mem_cons_self ..)
    refine ⟨hstored, fun st hst => ?_⟩
    have hnever : ∀ f ∈ dc.fields, f.fieldType = .classVar →
        (decodedKwargs (w.descriptor descId).inner.fields st.values).lookup f.name = none :=
      fun f hf hclass => hnever f hf hclass st hst
    exact ⟨_, (h.generatedInit_eq_ok hlawful (hst.ready hwf)).mpr ⟨hinitVar, hnever, _,
        (hown hstored st hst _).mpr rfl, h.messagePostInit_plain hplain hlawful hslot _⟩,
      (h.initStores_iff hplain hlawful hinitVar (hst.ready hwf) hnever).mpr hvalues⟩

/-- The generated `__init__` where code of the user takes part in attribute access. -/
theorem FastGuard.generated_custom
    (h : FastGuard (w.cls cls) (w.descriptor descId).inner defaults dc)
    (hplain : (w.cls cls).plainAccess (w.descriptor descId).fieldNames ≠ true)
    (hlawful : (w.cls cls).Lawful) (hwf : (w.descriptor descId).inner.WellFormed) :
    (∀ st, Decoded w descId st → ∃ fast general,
      (w.cls cls).assign [] (fastAttrs (w.descriptor descId).inner.fields st.values defaults)
        = .ok fast ∧
      generatedInit (w.cls cls) dc (messagePostInit (w.cls cls)) []
          (decodedKwargs (w.descriptor descId).inner.fields st.values) = .ok general ∧
      ReadsAlike w cls descId st.unknown fast general) ↔
      GeneratedUnobservable w cls descId defaults dc := by
  -- attribute access is opaque here: only the arguments of `__init__` are taken apart
  have hgenerated := fun st (hst : Decoded w descId st) {attrs : Attrs} =>
    @FastGuard.generatedInit_eq_ok w cls descId defaults dc h hlawful st (hst.ready hwf) attrs
  unfold GeneratedUnobservable
  rw [if_neg hplain]
  constructor
  · intro hpaths
    refine ⟨?_, fun f hf hclass st hst => ?_, fun st hst => ?_⟩
    · have hempty := decoded_init w descId
      obtain ⟨fast, general, -, hinit, -⟩ := hpaths _ hempty
      exact ((hgenerated _ hempty).mp hinit).1
    · obtain ⟨fast, general, -, hinit, -⟩ := hpaths st hst
      exact ((hgenerated st hst).mp hinit).2.1 f hf hclass
    · obtain ⟨fast, general, hassign, hinit, hreads⟩ := hpaths st hst
      obtain ⟨-, -, own, hown, hpost⟩ := (hgenerated st hst).mp hinit
      exact ⟨fast, own, general, hassign, hown, hpost, hreads⟩
  · rintro ⟨hinitVar, hnever, hpaths⟩ st hst
    obtain ⟨fast, own, general, hassign, hown, hpost, hreads⟩ := hpaths st hst
    exact ⟨fast, general, hassign, (hgenerated st hst).mpr
      ⟨hinitVar, fun f hf hclass => hnever f hf hclass st hst, own, hown, hpost⟩, hreads⟩

/-- **The two paths are equivalent iff running `__init__` cannot be observed.** -/
theorem FastGuard.equivalent_iff_unobservable
    (h : FastGuard (w.cls cls) (w.descriptor descId).inner defaults dc)
    (hlawful : (w.cls cls).Lawful) (hwf : (w.descriptor descId).inner.WellFormed) :
    FastEquivalent w cls descId defaults ↔ InitUnobservable w cls descId defaults := by
  unfold InitUnobservable
  -- under plain access the assignments are computed, otherwise they are left as they run
  by_cases hplain : (w.cls cls).plainAccess (w.descriptor descId).fieldNames = true
  · rw [h.equivalent_plain hplain hlawful hwf]
    refine and_congr_right fun _ => ?_
    cases hown : (w.cls cls).ownGenerated with
    | none =>
        dsimp only
        rw [WrittenUnobservable, if_pos hplain]
    | some dc' =>
        obtain ⟨rfl, hrun⟩ := h.runInit_eq hown
        dsimp only
        rw [← h.generated_plain hplain hlawful hwf, hrun]
  · rw [h.equivalent_iff]
    refine and_congr_right fun _ => ?_
    cases hown : (w.cls cls).ownGenerated with
    | none =>
        dsimp only
        rw [WrittenUnobservable, if_neg hplain]
    | some dc' =>
        obtain ⟨rfl, hrun⟩ := h.runInit_eq hown
        dsimp only
        rw [← h.generated_custom hplain hlawful hwf, hrun]

end Generated

/-! ## A dataclass with its own `__init__`

`M` with an `__init__` in the class body whose default for `a` is 7, not the 0 of the field:
`@dataclass` keeps it, and the guard does not look at it. -/

/-- The `__init__` of the class. -/
def observedInit (_ : Attrs) (kwargs : Kwargs) : PyResult Attrs :=
  .ok [("a", (kwargs.lookup "a").getD (.int 7)), ("e", (kwargs.lookup "e").getD (.member 1 0)),
    ("m", (kwargs.lookup "m").getD .pyNone), (unknownSlot, .bytes [])]

/-- The class as the user wrote it. -/
def observedClass : PyClass where
  mro := [{
    init := some observedInit
    dataclass := some { fields := [
      { name := "a", default := some (.int 0) },
      { name := "e", default := some (.member 1 0) },
      { name := "m", default := some .pyNone }] } }]
  fastproto := some 0

/-- The module of `M` with the class in its place. -/
def observedWorld : World where
  cls id := if id = 0 then observedClass else recursiveWorld.cls id
  descriptor := recursiveWorld.descriptor

/-- The class is one Python makes. -/
theorem lawful_observedClass : observedClass.Lawful := .of_single rfl rfl (by decide) rfl

section Generated

variable {w : World} {cls : ClassId} {descId : DescId} {defaults : List PyVal}

end Generated

end FastProto
