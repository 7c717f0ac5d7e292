import FastProto.DictConversion
import FastProto.Decode

/-! # When messages survive the conversion to a dict and back

`Holds` says that a value conforms to an annotation, to any depth. A hint fits an annotation when
`from_dict` rebuilds by it what `to_dict` made of a conforming value; `roundTrips_iff` reduces the
round trip of one instance to its fields. -/

namespace FastProto

open Lib

/-! ## Conforming values -/

/-- Whether a value has the Python type of a scalar. -/
def ScalarType.holds : ScalarType → PyVal → Bool
  | .double, .float _ | .double, .int _ | .float, .float _ | .float, .int _ => true
  | .bool, .bool _ => true
  | .string, .str _ => true
  | .bytes, .bytes _ => true
  | .int32, .int _ | .int64, .int _ | .uint32, .int _ | .uint64, .int _ | .sint32, .int _
  | .sint64, .int _ | .fixed32, .int _ | .fixed64, .int _ | .sfixed32, .int _
  | .sfixed64, .int _ => true
  | _, _ => false

/-- **A value conforms to an annotation**: recursively, with members or raw integers for enums. -/
inductive Holds (w : DictWorld) : TypeExpr → PyVal → Prop
  | scalar {scalar value} (h : scalar.holds value = true) : Holds w (.scalar scalar) value
  | datetime (d) : Holds w (.native .datetime) (.datetime d)
  | timedelta (d) : Holds w (.native .timedelta) (.timedelta d)
  | member {full qualified} (i) : Holds w (.named (.enum full) qualified) (.member (w.idOf full) i)
  | rawInt {full qualified} (i) : Holds w (.named (.enum full) qualified) (.int i)
  | message {full qualified attrs cls} (found : w.cls (w.idOf full) = some cls)
      (set : ∀ a ∈ cls.annots, ∃ value, attrs.lookup a.name = some value)
      (values : ∀ a ∈ cls.annots, ∀ value, attrs.lookup a.name = some value → Holds w a.annot value) :
      Holds w (.named (.message full) qualified) (.inst (w.idOf full) attrs)
  | absent (type) : Holds w (.optional type) .pyNone
  | present {type value} (h : Holds w type value) : Holds w (.optional type) value
  | list {element items} (h : ∀ value ∈ items, Holds w element value) :
      Holds w (.list element) (.list items)
  | dict {key value items} (keys : ∀ p ∈ items, Holds w key p.1)
      (values : ∀ p ∈ items, Holds w value p.2) : Holds w (.dict key value) (.dict items)

/-! ## Generated dataclasses -/

/-- A class as it is generated: one slotted dataclass whose fields are the annotated names. -/
structure DictClass.Plain (cls : DictClass) : Prop where
  dataclass : ∃ fields, cls.cls = slottedClass fields ∧ fields.map (·.name) = cls.annots.map (·.name) ∧
    ∀ f ∈ fields, f.init = true ∧ f.fieldType = .regular
  names : (cls.annots.map (·.name)).Nodup
  slot : unknownSlot ∉ cls.annots.map (·.name)

/-- The dataclass fields of a generated class are the annotated names. -/
theorem DictClass.Plain.fieldNames {cls : DictClass} (h : cls.Plain) :
    cls.fieldNames = cls.annots.map (·.name) := by
  obtain ⟨fields, hcls, hnames, -⟩ := h.dataclass
  rw [DictClass.fieldNames, hcls, ← hnames]
  rfl

/-- Assigning every field its keyword argument, where `setattr` stores what it is given. -/
theorem assignFields_eq {setattr : Attrs → String → PyVal → PyResult Attrs} {kwargs : Kwargs} :
    ∀ {fields : List DataField} {attrs rest : Kwargs}, fields.map (·.name) = rest.map Prod.fst →
      (∀ name ∈ fields.map (·.name), ∀ attrs value,
        setattr attrs name value = .ok (setAttr attrs name value)) →
      (∀ f ∈ fields, f.init = true ∧ f.fieldType = .regular) →
      (∀ kv ∈ rest, kwargs.lookup kv.1 = some kv.2) →
      fields.foldlM (DataField.assign setattr true kwargs) attrs
        = .ok (rest.foldl (fun acc kv => setAttr acc kv.1 kv.2) attrs)
  | [], attrs, [], _, _, _, _ => rfl
  | f :: fields, attrs, kv :: rest, hnames, hsetattr, hplain, hlookup => by
      obtain ⟨hhead, hnames⟩ := List.cons.inj hnames
      have hname : f.name = kv.1 := hhead
      obtain ⟨hinit, hregular⟩ := hplain f List.mem_cons_self
      have hstored : f.stored true kwargs = .ok (some kv.2) := by
        unfold DataField.stored
        rw [if_neg (by simp [hregular]), hinit, if_pos rfl, hname,
          hlookup kv List.mem_cons_self]
      rw [List.map_cons, List.forall_mem_cons] at hsetattr
      rw [List.foldlM_cons, DataField.assign, hstored, ok_bind]
      dsimp only
      rw [hsetattr.1, ok_bind, assignFields_eq hnames hsetattr.2
        (fun f hf => hplain f (List.mem_cons_of_mem _ hf))
        fun kv hkv => hlookup kv (List.mem_cons_of_mem _ hkv), hname]
      rfl

/-- `get_type_hints` resolves every annotation. -/
theorem DictClass.hints_total {cls : DictClass}
    (h : ∀ a ∈ cls.annots, ∃ hint, a.hint = .ok hint) : ∃ hints, cls.hints = .ok hints := by
  refine mapM_total fun a ha => ?_
  obtain ⟨hint, hhint⟩ := h a ha
  exact ⟨(a.name, hint), by rw [hhint]; rfl⟩

/-- The resolved hint of a field is found under its name. -/
theorem DictClass.Plain.lookup_hints {cls : DictClass} (h : cls.Plain)
    {hints : List (String × Hint)} (hhints : cls.hints = .ok hints) {a : FieldHint}
    (ha : a ∈ cls.annots) {hint : Hint} : hints.lookup a.name = some hint ↔ a.hint = .ok hint := by
  have hnames : hints.map Prod.fst = cls.annots.map (·.name) :=
    map_eq_of_mapM hhints fun a kv hkv => by
      obtain ⟨hint, -, rfl⟩ := map_eq_ok.mp hkv
      rfl
  have hkeys : (hints.map Prod.fst).Nodup := hnames ▸ h.names
  obtain ⟨kv, hkv, hof⟩ := exists_right_of_forall₂ (mapM_eq_ok.mp hhints) ha
  obtain ⟨found, hfound, rfl⟩ := map_eq_ok.mp hof
  rw [lookup_of_mem hkeys hkv, hfound, Option.some.injEq, Except.ok.injEq]

/-- **Calling a generated class with an argument for every field** stores the arguments and fills
the hidden slot. -/
theorem DictClass.Plain.call_eq {cls : DictClass} (h : cls.Plain) (id : ClassId) {kwargs : Kwargs}
    (hkwargs : kwargs.map Prod.fst = cls.annots.map (·.name)) :
    cls.cls.call id kwargs = .ok (.inst id (kwargs ++ [(unknownSlot, .bytes [])])) := by
  obtain ⟨fields, hcls, hnames, hplain⟩ := h.dataclass
  have hkeys : (kwargs.map Prod.fst).Nodup := hkwargs ▸ h.names
  have hparams : (kwargs.find? fun kw => !fields.any fun f => f.isParam && f.name == kw.1)
      = none := by
    rw [List.find?_eq_none]
    intro kv hkv
    have hmem : kv.1 ∈ fields.map (·.name) := by
      rw [hnames, ← hkwargs]
      exact List.mem_map_of_mem hkv
    obtain ⟨f, hf, hname⟩ := List.mem_map.mp hmem
    obtain ⟨hinit, hregular⟩ := hplain f hf
    have hany : (fields.any fun f => f.isParam && f.name == kv.1) = true :=
      List.any_eq_true.mpr ⟨f, hf, by simp [DataField.isParam, hinit, hregular, hname]⟩
    simp [hany]
  have hmro : (slottedClass fields).mro = [{ dataclass := some { slots := true, fields } }] := rfl
  have hregular := fun f hf => (hplain f hf).2
  -- the keywords name the fields in order, so `__init__` stores them as they are
  have hassign : assignFields (slottedClass fields) { slots := true, fields } kwargs []
      = .ok kwargs := by
    unfold assignFields
    rw [assignFields_eq (hnames.trans hkwargs.symm)
      (fun name hname => assignField_dataclass hmro hregular hname) hplain
      fun kv hkv => lookup_of_mem hkeys hkv]
    have hdistinct : ([] ++ kwargs).Pairwise fun (p q : String × PyVal) => (p.1 == q.1) = false := by
      rw [List.nil_append]
      exact (List.pairwise_map.mp hkeys).imp fun hne => by simpa using hne
    exact congrArg Except.ok (foldl_upsertBy [] hdistinct)
  have hinitVars : initVarArgs fields kwargs = .ok [] := by
    have hnone : fields.filter (fun f => decide (f.fieldType = .initVar)) = [] :=
      List.filter_eq_nil_iff.mpr fun f hf => by simp [(hplain f hf).2]
    unfold initVarArgs
    rw [hnone]
    rfl
  have hslot : setAttr kwargs unknownSlot (.bytes []) = kwargs ++ [(unknownSlot, .bytes [])] :=
    upsertBy_of_new _ fun kv hkv => by
      rw [beq_eq_false_iff_ne]
      intro hname
      exact h.slot (hkwargs ▸ hname ▸ List.mem_map_of_mem hkv)
  have hinit : generatedInit (slottedClass fields) { slots := true, fields }
      (messagePostInit (slottedClass fields)) [] kwargs
      = .ok (kwargs ++ [(unknownSlot, .bytes [])]) := by
    unfold generatedInit
    rw [hparams]
    dsimp only
    rw [hassign, ok_bind, hinitVars, ok_bind, messagePostInit,
      storeUnknown_dataclass hmro hregular fun _ => rfl, hslot]
  rw [hcls]
  show (generatedInit (slottedClass fields) { slots := true, fields }
    (messagePostInit (slottedClass fields)) [] kwargs >>= fun attrs =>
      (.ok (PyVal.inst id attrs) : PyResult PyVal)) = _
  rw [hinit, ok_bind]

/-- Calling a generated class makes an instance of it. -/
theorem DictClass.Plain.inst_of_call {cls : DictClass} (h : cls.Plain) {id : ClassId}
    {kwargs : Kwargs} {value : PyVal} (hcall : cls.call id kwargs = .ok value) :
    ∃ attrs, value = .inst id attrs := by
  obtain ⟨fields, hcls, -, -⟩ := h.dataclass
  unfold DictClass.call at hcall
  split at hcall
  · cases hcall
  · rw [hcls] at hcall
    obtain ⟨attrs, -, hvalue⟩ := bind_eq_ok (f := fun attrs => .ok (PyVal.inst id attrs)).mp hcall
    exact ⟨attrs, (Except.ok.inj hvalue).symm⟩

/-! ## The conversions part by part -/

/-- A value that neither conversion looks into. -/
def PyVal.isLeaf : PyVal → Bool
  | .pyNone | .list _ | .dict _ | .inst _ _ => false
  | _ => true

/-- Unfolding `T | None` twice is unfolding it once. -/
@[simp] theorem Hint.bare_bare (h : Hint) : h.bare.bare = h.bare := by
  induction h with
  | optional type ih => exact ih
  | annotated _ => rfl
  | plain _ => rfl
  | list _ _ => rfl
  | dict _ _ _ _ => rfl

namespace DictWorld

variable (w : DictWorld)

/-- The items of a list are converted one by one. -/
theorem toItems_eq (items : List PyVal) : w.toItems items = items.mapM w.toValue := by
  induction items with
  | nil => rfl
  | cons value rest ih => rw [toItems, List.mapM_cons, ih]; rfl

/-- The values of a dict are converted one by one. -/
theorem toPairs_eq (items : List (PyVal × PyVal)) :
    w.toPairs items = items.mapM fun p => (w.toValue p.2).map fun value => (p.1, value) := by
  induction items with
  | nil => rfl
  | cons p rest ih =>
      rw [toPairs, List.mapM_cons, ih]
      cases w.toValue p.2 <;> rfl

/-- An attribute is converted like any value. -/
theorem lookup_toAttrs (attrs : List (String × PyVal)) (name : String) :
    (w.toAttrs attrs).lookup name = (attrs.lookup name).map w.toValue := by
  have hmap : w.toAttrs attrs = attrs.map fun p => (p.1, w.toValue p.2) := by
    induction attrs with
    | nil => rfl
    | cons p rest ih => rw [toAttrs, ih]; rfl
  rw [hmap, lookup_map_snd]

/-- The items of a list are rebuilt one by one. -/
theorem fromItems_eq (element : Hint) (items : List PyVal) :
    w.fromItems element items = items.mapM (w.fromValue element) := by
  induction items with
  | nil => rfl
  | cons value rest ih => rw [fromItems, List.mapM_cons, ih]; rfl

/-- The values of a dict are rebuilt one by one. -/
theorem fromPairs_eq (hint : Hint) (items : List (PyVal × PyVal)) : w.fromPairs hint items
    = items.mapM fun p => (w.fromValue hint p.2).map fun value => (p.1, value) := by
  induction items with
  | nil => rfl
  | cons p rest ih =>
      rw [fromPairs, List.mapM_cons, ih]
      cases w.fromValue hint p.2 <;> rfl

/-- The items of a list are compared one by one. -/
theorem comparedItems_eq (items : List PyVal) : w.comparedItems items = items.map w.compared := by
  induction items with
  | nil => rfl
  | cons value rest ih => rw [comparedItems, ih]; rfl

/-- The values of a dict are compared one by one. -/
theorem comparedPairs_eq (items : List (PyVal × PyVal)) :
    w.comparedPairs items = items.map fun p => (p.1, w.compared p.2) := by
  induction items with
  | nil => rfl
  | cons p rest ih => rw [comparedPairs, ih]; rfl

/-- An attribute is compared like any value. -/
theorem lookup_comparedAttrs (attrs : List (String × PyVal)) (name : String) :
    (w.comparedAttrs attrs).lookup name = (attrs.lookup name).map w.compared := by
  have hmap : w.comparedAttrs attrs = attrs.map fun p => (p.1, w.compared p.2) := by
    induction attrs with
    | nil => rfl
    | cons p rest ih => rw [comparedAttrs, ih]; rfl
  rw [hmap, lookup_map_snd]

variable {w}

/-- A value is rebuilt by the unfolded hint. -/
theorem fromValue_bare (h : Hint) (value : PyVal) :
    w.fromValue h value = w.fromValue h.bare value := by
  cases value <;> simp only [fromValue, Hint.bare_bare]

/-- A leaf is kept by `to_dict`. -/
theorem toValue_leaf {value : PyVal} (h : value.isLeaf = true) : w.toValue value = .ok value := by
  cases value <;> first | rfl | cases h

/-- A leaf is rebuilt by the class its hint names, if any. -/
theorem fromValue_leaf {value : PyVal} (h : value.isLeaf = true) (hint : Hint) :
    w.fromValue hint value = w.fromLeaf hint.bare value := by
  cases value <;> first | rfl | cases h

/-! ## Values that survive -/

variable (w)

/-- **A value survives**: rebuilt by the hint from what `to_dict` made of it, it compares equal. -/
def Survives (hint : Hint) (value : PyVal) : Prop :=
  ∃ data rebuilt, w.toValue value = .ok data ∧ w.fromValue hint data = .ok rebuilt ∧
    w.compared rebuilt = w.compared value

/-- A hint that names an enum class names one that has members. -/
def LeafFits (hint : Hint) : Prop :=
  ∀ full, hint.bare = .plain (.obj (.enumClass full)) → w.members full ≠ []

variable {w}

/-- Surviving is up to the unfolded hint. -/
theorem survives_bare {hint : Hint} {value : PyVal} :
    w.Survives hint value ↔ w.Survives hint.bare value := by
  unfold Survives
  simp only [← fromValue_bare]

/-- `None` survives. -/
theorem survives_none (hint : Hint) : w.Survives hint .pyNone := ⟨_, _, rfl, rfl, rfl⟩

/-- A member compares equal to the integer it stands for. -/
theorem compared_member {value : PyVal} {i : Int} (h : value.shape.index = .ok i) (cls : ClassId) :
    w.compared (.member cls i) = w.compared value := by
  cases value with
  | int j => cases h; rfl
  | bool b => cases h; rfl
  | member _ j => cases h; rfl
  | _ => cases h

/-- A leaf is rebuilt to something that compares equal, when its hint fits. -/
theorem fromLeaf_agrees {hint : Hint} (h : w.LeafFits hint) (value : PyVal) :
    ∃ rebuilt, w.fromLeaf hint.bare value = .ok rebuilt ∧
      w.compared rebuilt = w.compared value := by
  unfold fromLeaf
  split
  · rename_i full hfull
    rw [coerce, if_neg (h full hfull)]
    split
    · rename_i i hindex
      split
      · exact ⟨_, rfl, compared_member hindex _⟩
      · exact ⟨_, rfl, rfl⟩
    · exact ⟨_, rfl, rfl⟩
  · exact ⟨_, rfl, rfl⟩

/-- **A leaf survives** unless its hint names an enum class without members. -/
theorem survives_leaf {hint : Hint} {value : PyVal} (h : value.isLeaf = true) :
    w.Survives hint value ↔ w.LeafFits hint := by
  constructor
  · rintro ⟨data, rebuilt, hdata, hrebuilt, -⟩ full hfull hmembers
    rw [toValue_leaf h, Except.ok.injEq] at hdata
    rw [← hdata, fromValue_leaf h, hfull, fromLeaf, coerce, if_pos hmembers] at hrebuilt
    cases hrebuilt
  · intro hfits
    obtain ⟨rebuilt, hrebuilt, hcompared⟩ := fromLeaf_agrees hfits value
    exact ⟨value, rebuilt, toValue_leaf h, (fromValue_leaf h hint).trans hrebuilt, hcompared⟩

/-- **A list survives** when its items do. -/
theorem survives_list {hint element : Hint} (hhint : hint.bare = .list element)
    {items : List PyVal} :
    w.Survives hint (.list items) ↔ ∀ value ∈ items, w.Survives element value := by
  unfold Survives
  rw [← mapM_mapM_agree]
  simp only [toValue, toItems_eq]
  constructor
  · rintro ⟨data, rebuilt, hdata, hrebuilt, hcompared⟩
    obtain ⟨mid, hmid, hdata⟩ := bind_eq_ok.mp hdata
    cases hdata
    rw [fromValue, hhint] at hrebuilt
    dsimp only at hrebuilt
    rw [fromItems_eq] at hrebuilt
    obtain ⟨out, hout, hrebuilt⟩ := bind_eq_ok.mp hrebuilt
    cases hrebuilt
    rw [compared, compared, comparedItems_eq, comparedItems_eq, PyVal.list.injEq] at hcompared
    exact ⟨mid, out, hmid, hout, hcompared⟩
  · rintro ⟨mid, out, hmid, hout, hmap⟩
    refine ⟨.list mid, .list out, by rw [hmid, ok_bind], ?_, ?_⟩
    · rw [fromValue, hhint]
      dsimp only
      rw [fromItems_eq, hout, ok_bind]
    · rw [compared, compared, comparedItems_eq, comparedItems_eq, hmap]

/-- **A dict survives** when its values do. -/
theorem survives_dict {hint key value : Hint} (hhint : hint.bare = .dict key value)
    {items : List (PyVal × PyVal)} :
    w.Survives hint (.dict items) ↔ ∀ p ∈ items, w.Survives value p.2 := by
  have hpair : ∀ p : PyVal × PyVal, w.Survives value p.2 ↔ ∃ (data rebuilt : PyVal × PyVal),
      (w.toValue p.2).map (fun v => (p.1, v)) = .ok data ∧
      (w.fromValue value data.2).map (fun v => (data.1, v)) = .ok rebuilt ∧
      (rebuilt.1, w.compared rebuilt.2) = (p.1, w.compared p.2) := by
    intro p
    unfold Survives
    constructor
    · rintro ⟨data, rebuilt, hdata, hrebuilt, hcompared⟩
      exact ⟨(p.1, data), (p.1, rebuilt), by rw [hdata]; rfl, by rw [hrebuilt]; rfl,
        by rw [hcompared]⟩
    · rintro ⟨data, rebuilt, hdata, hrebuilt, hcompared⟩
      obtain ⟨v, hv, rfl⟩ := map_eq_ok.mp hdata
      obtain ⟨v', hv', rfl⟩ := map_eq_ok.mp hrebuilt
      exact ⟨v, v', hv, hv', (Prod.mk.inj hcompared).2⟩
  simp only [hpair]
  rw [← mapM_mapM_agree]
  unfold Survives
  simp only [toValue, toPairs_eq]
  constructor
  · rintro ⟨data, rebuilt, hdata, hrebuilt, hcompared⟩
    obtain ⟨mid, hmid, hdata⟩ := bind_eq_ok.mp hdata
    cases hdata
    rw [fromValue, hhint] at hrebuilt
    dsimp only at hrebuilt
    rw [fromPairs_eq] at hrebuilt
    obtain ⟨out, hout, hrebuilt⟩ := bind_eq_ok.mp hrebuilt
    cases hrebuilt
    rw [compared, compared, comparedPairs_eq, comparedPairs_eq, PyVal.dict.injEq] at hcompared
    exact ⟨mid, out, hmid, hout, hcompared⟩
  · rintro ⟨mid, out, hmid, hout, hmap⟩
    refine ⟨.dict mid, .dict out, by rw [hmid, ok_bind], ?_, ?_⟩
    · rw [fromValue, hhint]
      dsimp only
      rw [fromPairs_eq, hout, ok_bind]
    · rw [compared, compared, comparedPairs_eq, comparedPairs_eq, hmap]

/-! ## Instances -/

variable (w)

/-- The attribute of an instance that `to_dict` reads for a field, converted. -/
def toItem (attrs : List (String × PyVal)) (name : String) : PyResult (PyVal × PyVal) :=
  match (w.toAttrs attrs).lookup name with
  | some value => do
      let value ← value
      .ok (.str name, value)
  | none => .error (.attributeError name)

/-- The keyword argument that `from_dict` makes of an item. -/
def fromItem (cls : DictClass) (hints : List (String × Hint)) (item : PyVal × PyVal) :
    PyResult (String × PyVal) :=
  match item.1 with
  | .str name =>
      if name ∈ cls.valid then
        match hints.lookup name with
        | none => .error (.lookupError name)
        | some hint => (w.fromValue hint item.2).map fun value => (name, value)
      else .error (w.unknownKey cls item.1)
  | _ => .error (w.unknownKey cls item.1)

/-- **The fields of an instance survive**: every hint evaluates, every name is a field name of the
descriptor, and every value survives. -/
def Rebuilds (cls : DictClass) (attrs : List (String × PyVal)) : Prop :=
  unknownSlot ∉ cls.nested ∧ ∀ a ∈ cls.annots, a.name ∈ cls.valid ∧
    ∃ hint, a.hint = .ok hint ∧ ∀ value, attrs.lookup a.name = some value → w.Survives hint value

/-- The items of `from_dict` are taken one by one. -/
theorem fromData_eq (cls : DictClass) (hints : List (String × Hint))
    (items : List (PyVal × PyVal)) :
    w.fromData cls hints items = items.mapM (w.fromItem cls hints) := by
  induction items with
  | nil => rfl
  | cons item rest ih =>
      obtain ⟨key, value⟩ := item
      rw [List.mapM_cons, ← ih]
      cases key with
      | str name =>
          rw [fromData, fromItem]
          dsimp only
          split
          · cases hints.lookup name with
            | none => rfl
            | some hint =>
                dsimp only
                cases w.fromValue hint value <;> rfl
          · rfl
      | _ => rfl

variable {w} {id : ClassId} {cls : DictClass} {attrs : List (String × PyVal)}

/-- `to_dict` of an instance reads its fields in order. -/
theorem toValue_inst (hcls : w.cls id = some cls) (hplain : cls.Plain) :
    w.toValue (.inst id attrs)
      = ((cls.annots.map (·.name)).mapM (w.toItem attrs)).map .dict := by
  rw [toValue, hcls]
  dsimp only
  rw [hplain.fieldNames]
  show (List.mapM (w.toItem attrs) _ >>= _) = _
  cases List.mapM (w.toItem attrs) (cls.annots.map (·.name)) <;> rfl

/-- What `==` compares of an instance. -/
theorem compared_inst (hcls : w.cls id = some cls) (hplain : cls.Plain) :
    w.compared (.inst id attrs) = .inst id ((cls.annots.map (·.name)).map fun name =>
      (name, ((attrs.lookup name).map w.compared).getD .other)) := by
  rw [compared, hcls]
  dsimp only
  rw [hplain.fieldNames]
  simp only [lookup_comparedAttrs]

/-- What `==` compares of a new instance: its keyword arguments. -/
theorem compared_call (hcls : w.cls id = some cls) (hplain : cls.Plain) {kwargs : Kwargs}
    (hkwargs : kwargs.map Prod.fst = cls.annots.map (·.name)) :
    w.compared (.inst id (kwargs ++ [(unknownSlot, .bytes [])]))
      = .inst id (kwargs.map fun kv => (kv.1, w.compared kv.2)) := by
  have hkeys : (kwargs.map Prod.fst).Nodup := hkwargs ▸ hplain.names
  rw [compared_inst hcls hplain, ← hkwargs, List.map_map]
  refine congrArg _ (List.map_congr_left fun kv hkv => ?_)
  show (kv.1, _) = (kv.1, _)
  rw [List.lookup_append, lookup_of_mem hkeys hkv]
  rfl

/-- One field survives, from the side of the keyword arguments. -/
theorem item_agrees {hints : List (String × Hint)} {name : String} {value : PyVal}
    (hvalue : attrs.lookup name = some value) :
    (∃ item kv, w.toItem attrs name = .ok item ∧ w.fromItem cls hints item = .ok kv ∧
        (kv.1, w.compared kv.2)
          = (name, ((attrs.lookup name).map w.compared).getD .other)) ↔
      name ∈ cls.valid ∧ ∃ hint, hints.lookup name = some hint ∧ w.Survives hint value := by
  have hto : w.toItem attrs name = (w.toValue value).map fun data => (.str name, data) := by
    unfold toItem
    rw [lookup_toAttrs, hvalue, Option.map_some]
    dsimp only
    cases w.toValue value <;> rfl
  rw [hvalue, hto]
  constructor
  · rintro ⟨item, kv, hitem, hkv, hcompared⟩
    obtain ⟨data, hdata, rfl⟩ := map_eq_ok.mp hitem
    unfold fromItem at hkv
    dsimp only at hkv
    split at hkv
    · rename_i hvalid
      split at hkv
      · cases hkv
      · rename_i hint hhint
        obtain ⟨rebuilt, hrebuilt, rfl⟩ := map_eq_ok.mp hkv
        exact ⟨hvalid, hint, hhint, data, rebuilt, hdata, hrebuilt, (Prod.mk.inj hcompared).2⟩
    · cases hkv
  · rintro ⟨hvalid, hint, hhint, data, rebuilt, hdata, hrebuilt, hcompared⟩
    refine ⟨(.str name, data), (name, rebuilt), by rw [hdata]; rfl, ?_, ?_⟩
    · unfold fromItem
      dsimp only
      rw [if_pos hvalid, hhint]
      dsimp only
      rw [hrebuilt]
      rfl
    · show (name, w.compared rebuilt) = (name, w.compared value)
      rw [hcompared]

/-- An item is kept under the name of its field. -/
theorem toItem_key {name : String} {item : PyVal × PyVal} (h : w.toItem attrs name = .ok item) :
    item.1 = .str name := by
  unfold toItem at h
  split at h
  · obtain ⟨value, -, h⟩ := bind_eq_ok.mp h
    cases h
    rfl
  · cases h

/-- A keyword argument has the name of its item. -/
theorem fromItem_key {hints : List (String × Hint)} {item : PyVal × PyVal} {kv : String × PyVal}
    (h : w.fromItem cls hints item = .ok kv) : .str kv.1 = item.1 := by
  unfold fromItem at h
  split at h
  · rename_i name hname
    split at h
    · split at h
      · cases h
      · obtain ⟨value, -, rfl⟩ := map_eq_ok.mp h
        exact hname.symm
    · cases h
  · cases h

/-- The keyword arguments of `from_dict` are the fields that `to_dict` reads. -/
theorem kwargs_names {hints : List (String × Hint)} {names : List String}
    {mid : List (PyVal × PyVal)} {out : Kwargs} (hmid : names.mapM (w.toItem attrs) = .ok mid)
    (hout : mid.mapM (w.fromItem cls hints) = .ok out) : out.map Prod.fst = names := by
  have hkeys : out.map (fun kv => PyVal.str kv.1) = mid.map Prod.fst :=
    map_eq_of_mapM hout fun _ _ h => fromItem_key h
  have hnames : mid.map Prod.fst = names.map PyVal.str :=
    map_eq_of_mapM hmid fun _ _ h => toItem_key h
  refine List.map_injective_iff.mpr (fun a b h => PyVal.str.inj h) ?_
  rw [List.map_map]
  exact hkeys.trans hnames

/-- The fields of an instance survive the hints that `get_type_hints` returns. -/
theorem rebuilds_hints (hplain : cls.Plain) : w.Rebuilds cls attrs ↔
    unknownSlot ∉ cls.nested ∧ ∃ hints, cls.hints = .ok hints ∧
      ∀ a ∈ cls.annots, a.name ∈ cls.valid ∧ ∃ hint, hints.lookup a.name = some hint ∧
        ∀ value, attrs.lookup a.name = some value → w.Survives hint value := by
  unfold Rebuilds
  refine and_congr_right fun _ => ⟨fun h => ?_, fun ⟨hints, hhints, h⟩ a ha => ?_⟩
  · obtain ⟨hints, hhints⟩ := DictClass.hints_total fun a ha => (h a ha).2.imp fun _ hh => hh.1
    refine ⟨hints, hhints, fun a ha => ?_⟩
    obtain ⟨hvalid, hint, hhint, hsurvives⟩ := h a ha
    exact ⟨hvalid, hint, (hplain.lookup_hints hhints ha).mpr hhint, hsurvives⟩
  · obtain ⟨hvalid, hint, hhint, hsurvives⟩ := h a ha
    exact ⟨hvalid, hint, (hplain.lookup_hints hhints ha).mp hhint, hsurvives⟩

/-- **Rebuilding an instance** works exactly when its fields survive. -/
theorem rebuilds_iff (hcls : w.cls id = some cls) (hplain : cls.Plain)
    (hset : ∀ a ∈ cls.annots, ∃ value, attrs.lookup a.name = some value) :
    (∃ data rebuilt, w.toValue (.inst id attrs) = .ok (.dict data) ∧
        w.fromDict id cls data = .ok rebuilt ∧
        w.compared rebuilt = w.compared (.inst id attrs)) ↔ w.Rebuilds cls attrs := by
  rw [toValue_inst hcls hplain]
  -- item by item: the conversion there and back agrees iff the value survives the hint
  have hfields : ∀ hints, (∀ a ∈ cls.annots, a.1 ∈ cls.valid ∧
        ∃ hint, hints.lookup a.1 = some hint ∧
          ∀ value, attrs.lookup a.name = some value → w.Survives hint value) ↔
      ∃ mid out, (cls.annots.map (·.name)).mapM (w.toItem attrs) = .ok mid ∧
        mid.mapM (w.fromItem cls hints) = .ok out ∧
        (out.map fun kv => (kv.1, w.compared kv.2)) = (cls.annots.map (·.name)).map fun name =>
          (name, ((attrs.lookup name).map w.compared).getD .other) := by
    intro hints
    rw [mapM_mapM_agree, List.forall_mem_map]
    refine forall₂_congr fun a ha => ?_
    obtain ⟨value, hvalue⟩ := hset a ha
    rw [item_agrees hvalue, hvalue]
    simp
  rw [rebuilds_hints hplain]
  simp only [hfields]
  constructor
  · rintro ⟨data, rebuilt, hdata, hrebuilt, hcompared⟩
    obtain ⟨mid, hmid, hdata⟩ := map_eq_ok.mp hdata
    cases hdata
    unfold fromDict at hrebuilt
    obtain ⟨hints, hhints, hrebuilt⟩ := bind_eq_ok.mp hrebuilt
    obtain ⟨out, hout, hrebuilt⟩ := bind_eq_ok.mp hrebuilt
    rw [fromData_eq] at hout
    unfold DictClass.call at hrebuilt
    split at hrebuilt
    · cases hrebuilt
    · rename_i hslot
      have hkwargs := kwargs_names hmid hout
      rw [hplain.call_eq id hkwargs] at hrebuilt
      cases hrebuilt
      rw [compared_call hcls hplain hkwargs, compared_inst hcls hplain] at hcompared
      exact ⟨hslot, hints, hhints, data, out, hmid, hout, (PyVal.inst.inj hcompared).2⟩
  · rintro ⟨hslot, hints, hhints, mid, out, hmid, hout, hmap⟩
    have hkwargs : out.map Prod.fst = cls.annots.map (·.name) := by
      have := congrArg (List.map Prod.fst) hmap
      simpa [Function.comp_def] using this
    refine ⟨mid, .inst id (out ++ [(unknownSlot, .bytes [])]), ?_, ?_, ?_⟩
    · rw [hmid]
      rfl
    · unfold fromDict DictClass.call
      rw [hhints, ok_bind, fromData_eq, hout, ok_bind, if_neg hslot, hplain.call_eq id hkwargs]
    · rw [compared_call hcls hplain hkwargs, compared_inst hcls hplain, hmap]

/-- **The round trip of an instance** works exactly when the conversions are not hidden by nested
types and its fields survive. -/
theorem roundTrips_iff (hcls : w.cls id = some cls) (hplain : cls.Plain)
    (hset : ∀ a ∈ cls.annots, ∃ value, attrs.lookup a.name = some value) :
    w.RoundTrips (.inst id attrs) ↔
      "to_dict" ∉ cls.nested ∧ "from_dict" ∉ cls.nested ∧ w.Rebuilds cls attrs := by
  rw [← rebuilds_iff hcls hplain hset]
  have hdict : ∀ data, w.toValue (.inst id attrs) = .ok data → ∃ items, data = .dict items := by
    intro data hdata
    rw [toValue_inst hcls hplain] at hdata
    obtain ⟨items, -, rfl⟩ := map_eq_ok.mp hdata
    exact ⟨items, rfl⟩
  unfold RoundTrips convert
  dsimp only
  rw [hcls]
  dsimp only
  unfold DictClass.method
  by_cases hto : "to_dict" ∈ cls.nested
  · rw [if_pos hto]
    refine ⟨fun ⟨_, hy, _⟩ => ?_, fun ⟨hnested, _⟩ => absurd hto hnested⟩
    cases hy
  by_cases hfrom : "from_dict" ∈ cls.nested
  · rw [if_neg hto, if_pos hfrom, ok_bind]
    refine ⟨fun ⟨_, hy, _⟩ => ?_, fun h => absurd hfrom h.2.1⟩
    obtain ⟨_, -, hy⟩ := bind_eq_ok.mp hy
    cases hy
  rw [if_neg hto, if_neg hfrom, ok_bind]
  constructor
  · rintro ⟨rebuilt, hrebuilt, hcompared⟩
    obtain ⟨data, hdata, hrebuilt⟩ := bind_eq_ok.mp hrebuilt
    obtain ⟨items, rfl⟩ := hdict data hdata
    exact ⟨hto, hfrom, items, rebuilt, hdata, hrebuilt, hcompared⟩
  · rintro ⟨-, -, items, rebuilt, hdata, hrebuilt, hcompared⟩
    exact ⟨rebuilt, by rw [hdata]; exact hrebuilt, hcompared⟩

/-- **A nested instance survives** a hint that names its class when its fields survive. -/
theorem survives_inst {hint : Hint} {full : String}
    (hhint : hint.bare = .plain (.obj (.messageClass full))) (hcls : w.cls (w.idOf full) = some cls)
    (hplain : cls.Plain) (hset : ∀ a ∈ cls.annots, ∃ value, attrs.lookup a.name = some value) :
    w.Survives hint (.inst (w.idOf full) attrs) ↔ w.Rebuilds cls attrs := by
  rw [← rebuilds_iff hcls hplain hset]
  have hfrom : ∀ items, w.fromValue hint (.dict items) = w.fromDict (w.idOf full) cls items := by
    intro items
    rw [fromValue, hhint]
    dsimp only
    rw [hcls]
    rfl
  constructor
  · rintro ⟨data, rebuilt, hdata, hrebuilt, hcompared⟩
    have hdict := hdata
    rw [toValue_inst hcls hplain] at hdict
    obtain ⟨items, -, rfl⟩ := map_eq_ok.mp hdict
    exact ⟨items, rebuilt, hdata, hfrom items ▸ hrebuilt, hcompared⟩
  · rintro ⟨items, rebuilt, hdata, hrebuilt, hcompared⟩
    exact ⟨.dict items, rebuilt, hdata, (hfrom items).trans hrebuilt, hcompared⟩

/-- A dict that no class rebuilds stays a dict. -/
theorem fromLeaf_dict {hint : Hint} {items : List (PyVal × PyVal)} {rebuilt : PyVal}
    (h : w.fromLeaf hint (.dict items) = .ok rebuilt) : rebuilt = .dict items := by
  unfold fromLeaf at h
  split at h
  · unfold coerce at h
    split at h
    · cases h
    · cases h
      rfl
  · cases h
    rfl

/-- **An instance that survives** is rebuilt by a hint that names its class. -/
theorem hint_of_survives_inst (hplain : ∀ id cls, w.cls id = some cls → cls.Plain) {hint : Hint}
    (hcls : w.cls id = some cls) (h : w.Survives hint (.inst id attrs)) :
    ∃ full, hint.bare = .plain (.obj (.messageClass full)) ∧ w.idOf full = id := by
  obtain ⟨data, rebuilt, hdata, hrebuilt, hcompared⟩ := h
  rw [toValue_inst hcls (hplain id cls hcls)] at hdata
  obtain ⟨items, -, rfl⟩ := map_eq_ok.mp hdata
  rw [compared_inst hcls (hplain id cls hcls)] at hcompared
  have hnotDict : ∀ items, rebuilt ≠ .dict items := by
    rintro items rfl
    rw [compared] at hcompared
    cases hcompared
  rw [fromValue] at hrebuilt
  split at hrebuilt
  · obtain ⟨out, -, hrebuilt⟩ := bind_eq_ok.mp hrebuilt
    cases hrebuilt
    exact absurd rfl (hnotDict out)
  · rename_i full hfull
    refine ⟨full, hfull, ?_⟩
    split at hrebuilt
    · cases hrebuilt
      exact absurd rfl (hnotDict items)
    · rename_i other hother
      obtain ⟨hints, -, hrebuilt⟩ := bind_eq_ok.mp hrebuilt
      obtain ⟨kwargs, -, hrebuilt⟩ := bind_eq_ok.mp hrebuilt
      obtain ⟨out, rfl⟩ := (hplain _ _ hother).inst_of_call hrebuilt
      rw [compared_inst hother (hplain _ _ hother)] at hcompared
      exact (PyVal.inst.inj hcompared).1
  · exact absurd (fromLeaf_dict hrebuilt) (hnotDict items)

end DictWorld

end FastProto
