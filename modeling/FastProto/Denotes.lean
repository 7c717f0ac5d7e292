import FastProto.DictRoundTrip

/-! # Annotations that denote what they name

`from_dict` rebuilds a message by what the names in its annotations are read as. `Denotes` asks of an
annotation that its names are read as the code generator means them, as far as values can tell:
`roundTrips_all_iff` shows that every instance survives exactly when all classes are `Faithful`. -/

namespace FastProto

open Lib

/-! ## Evaluating annotations -/

namespace Evaluator

variable {env : Evaluator} {hint : Hint}

/-- Reading a name. -/
theorem name_eq_ok {n : String} {denoted : Denoted} :
    env.name n = .ok denoted ↔ env.read n = some denoted := by
  unfold name
  cases env.read n <;> simp

/-- A scalar is evaluated through `Scalar`. -/
theorem eval_scalar {s : ScalarType} : env.eval (.scalar s) = .ok hint ↔
    env.read "Scalar" = some (.obj (.runtime "Scalar")) ∧ hint = .annotated s := by
  refine bind_eq_ok.trans ?_
  constructor
  · rintro ⟨denoted, hread, h⟩
    split at h
    · rename_i heq
      cases h
      exact ⟨heq ▸ name_eq_ok.mp hread, rfl⟩
    · cases h
  · rintro ⟨hread, rfl⟩
    exact ⟨_, name_eq_ok.mpr hread, if_pos rfl⟩

/-- A native type is evaluated by its name. -/
theorem eval_native {type : NativeType} : env.eval (.native type) = .ok hint ↔
    ∃ denoted, env.read type.name = some denoted ∧ hint = .plain denoted := by
  refine bind_eq_ok.trans ?_
  exact exists_congr fun denoted => and_congr name_eq_ok (by rw [Except.ok.injEq, eq_comm])

/-- A generated class is evaluated by its path. -/
theorem eval_named {type : ProtoType} {qualified : String} :
    env.eval (.named type qualified) = .ok hint ↔
      ∃ denoted, env.path qualified = .ok denoted ∧ hint = .plain denoted := by
  refine bind_eq_ok.trans ?_
  exact exists_congr fun denoted => and_congr Iff.rfl (by rw [Except.ok.injEq, eq_comm])

/-- A list is evaluated through `list`. -/
theorem eval_list {element : TypeExpr} : env.eval (.list element) = .ok hint ↔
    env.read "list" = some (.obj (.builtin "list")) ∧
      ∃ h, env.eval element = .ok h ∧ hint = .list h := by
  refine bind_eq_ok.trans ?_
  constructor
  · rintro ⟨denoted, hread, h⟩
    obtain ⟨inner, hinner, h⟩ := bind_eq_ok.mp h
    split at h
    · rename_i heq
      cases h
      exact ⟨heq ▸ name_eq_ok.mp hread, inner, hinner, rfl⟩
    · cases h
  · rintro ⟨hread, inner, hinner, rfl⟩
    exact ⟨_, name_eq_ok.mpr hread, by rw [hinner, ok_bind, if_pos rfl]⟩

/-- A dict is evaluated through `dict`. -/
theorem eval_dict {key value : TypeExpr} : env.eval (.dict key value) = .ok hint ↔
    env.read "dict" = some (.obj (.builtin "dict")) ∧
      ∃ k v, env.eval key = .ok k ∧ env.eval value = .ok v ∧ hint = .dict k v := by
  refine bind_eq_ok.trans ?_
  constructor
  · rintro ⟨denoted, hread, h⟩
    obtain ⟨k, hk, h⟩ := bind_eq_ok.mp h
    obtain ⟨v, hv, h⟩ := bind_eq_ok.mp h
    split at h
    · rename_i heq
      cases h
      exact ⟨heq ▸ name_eq_ok.mp hread, k, v, hk, hv, rfl⟩
    · cases h
  · rintro ⟨hread, k, v, hk, hv, rfl⟩
    exact ⟨_, name_eq_ok.mpr hread, by rw [hk, ok_bind, hv, ok_bind, if_pos rfl]⟩

/-- `T | None` is evaluated to a union where `T` supports it. -/
theorem eval_optional {type : TypeExpr} : env.eval (.optional type) = .ok hint ↔
    ∃ h, env.eval type = .ok h ∧ h.supportsOr = true ∧ hint = .optional h := by
  refine bind_eq_ok.trans ?_
  refine exists_congr fun h => and_congr_right fun _ => ?_
  split
  · rename_i hsupports
    rw [Except.ok.injEq, eq_comm]
    exact ⟨fun heq => ⟨hsupports, heq⟩, fun heq => heq.2⟩
  · rename_i hsupports
    exact ⟨fun h => (nomatch h), fun heq => absurd heq.1 hsupports⟩

end Evaluator

namespace DictWorld

variable (w : DictWorld)

/-! ## Denotations -/

/-- An object whose use as a hint keeps every leaf: no enum class without members. -/
def Harmless (denoted : Denoted) : Prop :=
  ∀ full, denoted = .obj (.enumClass full) → w.members full ≠ []

/-- **An annotation denotes what it names**: `Scalar`, `list` and `dict` are themselves, the path of
a message leads to its class, the other names to objects that keep every leaf, and what stands before
`| None` supports it. -/
def Denotes (env : Evaluator) : TypeExpr → Prop
  | .scalar _ => env.read "Scalar" = some (.obj (.runtime "Scalar"))
  | .native type => ∃ denoted, env.read type.name = some denoted ∧ w.Harmless denoted
  | .named (.message full) qualified => env.path qualified = .ok (.obj (.messageClass full))
  | .named (.enum _) qualified => ∃ denoted, env.path qualified = .ok denoted ∧ w.Harmless denoted
  | .named (.scalar _) qualified => ∃ denoted, env.path qualified = .ok denoted
  | .list element => env.read "list" = some (.obj (.builtin "list")) ∧ Denotes env element
  | .dict key value =>
      env.read "dict" = some (.obj (.builtin "dict")) ∧ (∃ hint, env.eval key = .ok hint) ∧
        Denotes env value
  | .optional type =>
      Denotes env type ∧ ∃ hint, env.eval type = .ok hint ∧ hint.supportsOr = true

/-- **A class is faithful** when no nested type hides what dict conversion uses, and every field is a
field of the descriptor, with an annotation that denotes what it names. -/
def Faithful (cls : DictClass) : Prop :=
  (∀ name ∈ ["to_dict", "from_dict", unknownSlot], name ∉ cls.nested) ∧
    ∀ a ∈ cls.annots, a.name ∈ cls.valid ∧ w.Denotes a.env a.annot

/-- Every type that an annotation names has values. -/
def Filled : TypeExpr → Prop
  | .list element => Filled element
  | .dict key value => Filled key ∧ Filled value
  | .optional type => Filled type
  | type => ∃ value, Holds w type value

/-- Classes as the code generator makes them. -/
structure Regular : Prop where
  plain : ∀ id cls, w.cls id = some cls → cls.Plain
  /-- Loaded classes have their identity for themselves. -/
  distinct : ∀ full full', (w.cls (w.idOf full)).isSome = true → w.idOf full' = w.idOf full →
    full' = full
  filled : ∀ id cls, w.cls id = some cls → ∀ a ∈ cls.annots, w.Filled a.annot

variable {w}

/-- An annotation that denotes what it names can be evaluated. -/
theorem eval_of_denotes {env : Evaluator} {annot : TypeExpr} (h : w.Denotes env annot) :
    ∃ hint, env.eval annot = .ok hint := by
  induction annot with
  | scalar s => exact ⟨_, Evaluator.eval_scalar.mpr ⟨h, rfl⟩⟩
  | native type =>
      obtain ⟨denoted, hread, -⟩ := h
      exact ⟨_, Evaluator.eval_native.mpr ⟨denoted, hread, rfl⟩⟩
  | named type qualified =>
      have hpath : ∃ denoted, env.path qualified = .ok denoted := by
        cases type with
        | scalar s => exact h
        | message full => exact ⟨_, h⟩
        | enum full => exact h.imp fun _ hd => hd.1
      obtain ⟨denoted, hpath⟩ := hpath
      exact ⟨_, Evaluator.eval_named.mpr ⟨denoted, hpath, rfl⟩⟩
  | list element ih =>
      obtain ⟨hint, hhint⟩ := ih h.2
      exact ⟨_, Evaluator.eval_list.mpr ⟨h.1, hint, hhint, rfl⟩⟩
  | dict key value _ ih =>
      obtain ⟨hread, ⟨k, hk⟩, hvalue⟩ := h
      obtain ⟨v, hv⟩ := ih hvalue
      exact ⟨_, Evaluator.eval_dict.mpr ⟨hread, k, v, hk, hv, rfl⟩⟩
  | optional type _ =>
      obtain ⟨-, hint, hhint, hsupports⟩ := h
      exact ⟨_, Evaluator.eval_optional.mpr ⟨hint, hhint, hsupports, rfl⟩⟩

/-- Harmless objects are the hints that fit leaves. -/
theorem leafFits_plain {denoted : Denoted} : w.LeafFits (.plain denoted) ↔ w.Harmless denoted :=
  forall_congr' fun full => by rw [Hint.bare, Hint.plain.injEq]

/-- An annotation whose types have values has a conforming value. -/
theorem exists_holds {annot : TypeExpr} (h : w.Filled annot) : ∃ value, Holds w annot value := by
  cases annot with
  | list element => exact ⟨.list [], .list fun _ hmem => absurd hmem List.not_mem_nil⟩
  | dict key value =>
      exact ⟨.dict [], .dict (fun _ hmem => absurd hmem List.not_mem_nil)
        fun _ hmem => absurd hmem List.not_mem_nil⟩
  | optional type => exact ⟨_, .absent type⟩
  | scalar s => exact h
  | native type => exact h
  | named type qualified => exact h

/-- `T | None` keeps what `T` keeps. -/
theorem survives_optional {hint : Hint} {value : PyVal} :
    w.Survives (.optional hint) value ↔ w.Survives hint value := by
  rw [survives_bare, Hint.bare, ← survives_bare]

/-! ## Sufficiency -/

/-- A value of a scalar is a leaf. -/
theorem isLeaf_of_holds {s : ScalarType} {value : PyVal} (h : s.holds value = true) :
    value.isLeaf = true := by
  cases value <;> first | rfl | (cases s <;> cases h)

/-- **Every conforming value survives** a hint that its annotation evaluates to, where the annotation
denotes what it names and all classes are faithful. The induction follows the value; the annotations
of its class continue it. -/
theorem survives_of_holds (hplain : ∀ id cls, w.cls id = some cls → cls.Plain)
    (hfaithful : ∀ full cls, w.cls (w.idOf full) = some cls → w.Faithful cls) {annot : TypeExpr} {value : PyVal}
    (h : Holds w annot value) : ∀ {env : Evaluator} {hint : Hint}, w.Denotes env annot →
      env.eval annot = .ok hint → w.Survives hint value := by
  induction h with
  | scalar h =>
      intro env hint _ heval
      obtain ⟨-, rfl⟩ := Evaluator.eval_scalar.mp heval
      exact (survives_leaf (isLeaf_of_holds h)).mpr fun full hfull => nomatch hfull
  | datetime d | timedelta d =>
      intro env hint ⟨denoted, hread, hharmless⟩ heval
      obtain ⟨other, hother, rfl⟩ := Evaluator.eval_native.mp heval
      obtain rfl := Option.some.inj (hread.symm.trans hother)
      exact (survives_leaf rfl).mpr (leafFits_plain.mpr hharmless)
  | member i | rawInt i =>
      intro env hint ⟨denoted, hpath, hharmless⟩ heval
      obtain ⟨other, hother, rfl⟩ := Evaluator.eval_named.mp heval
      obtain rfl := Except.ok.inj (hpath.symm.trans hother)
      exact (survives_leaf rfl).mpr (leafFits_plain.mpr hharmless)
  | message found set values ih =>
      intro env hint hpath heval
      obtain ⟨other, hother, rfl⟩ := Evaluator.eval_named.mp heval
      obtain rfl := Except.ok.inj (Eq.trans (Eq.symm hpath) hother)
      obtain ⟨hnested, hannots⟩ := hfaithful _ _ found
      refine (survives_inst rfl found (hplain _ _ found) set).mpr
        ⟨hnested _ (by simp), fun a ha => ?_⟩
      obtain ⟨hvalid, hdenotes⟩ := hannots a ha
      obtain ⟨hint, hhint⟩ := eval_of_denotes hdenotes
      exact ⟨hvalid, hint, hhint, fun value hvalue => ih a ha value hvalue hdenotes hhint⟩
  | absent type =>
      intro env hint _ _
      exact survives_none hint
  | present h ih =>
      intro env hint hdenotes heval
      obtain ⟨inner, hinner, -, rfl⟩ := Evaluator.eval_optional.mp heval
      exact survives_optional.mpr (ih hdenotes.1 hinner)
  | list h ih =>
      intro env hint hdenotes heval
      obtain ⟨-, inner, hinner, rfl⟩ := Evaluator.eval_list.mp heval
      exact (survives_list rfl).mpr fun value hvalue => ih value hvalue hdenotes.2 hinner
  | dict keys values ihKeys ihValues =>
      intro env hint hdenotes heval
      obtain ⟨-, k, v, -, hv, rfl⟩ := Evaluator.eval_dict.mp heval
      exact (survives_dict rfl).mpr fun p hp => ihValues p hp hdenotes.2.2 hv

/-! ## Necessity -/

/-- **An annotation whose conforming values all survive** denotes what it names. -/
theorem denotes_of_survives (hw : w.Regular) {annot : TypeExpr} {env : Evaluator} :
    ∀ {hint : Hint}, w.Filled annot → env.eval annot = .ok hint →
      (∀ value, Holds w annot value → w.Survives hint value) → w.Denotes env annot := by
  induction annot with
  | scalar s =>
      intro hint _ heval _
      exact (Evaluator.eval_scalar.mp heval).1
  | native type =>
      intro hint hfilled heval hall
      obtain ⟨denoted, hread, rfl⟩ := Evaluator.eval_native.mp heval
      obtain ⟨value, hvalue⟩ := hfilled
      have hleaf : value.isLeaf = true := by cases hvalue <;> rfl
      exact ⟨denoted, hread, leafFits_plain.mp ((survives_leaf hleaf).mp (hall value hvalue))⟩
  | named type qualified =>
      intro hint hfilled heval hall
      obtain ⟨denoted, hpath, rfl⟩ := Evaluator.eval_named.mp heval
      obtain ⟨value, hvalue⟩ := hfilled
      cases type with
      | scalar s => cases hvalue
      | enum full =>
          have hleaf : value.isLeaf = true := by cases hvalue <;> rfl
          exact ⟨denoted, hpath, leafFits_plain.mp ((survives_leaf hleaf).mp (hall value hvalue))⟩
      | message full =>
          have hsurvives := hall value hvalue
          cases hvalue with
          | message found set values =>
              obtain ⟨full', hbare, hid⟩ := hint_of_survives_inst hw.plain found hsurvives
              obtain rfl := hw.distinct full full' (by rw [found]; rfl) hid
              rw [Hint.bare, Hint.plain.injEq] at hbare
              rw [hbare] at hpath
              exact hpath
  | list element ih =>
      intro hint hfilled heval hall
      obtain ⟨hread, inner, hinner, rfl⟩ := Evaluator.eval_list.mp heval
      refine ⟨hread, ih hfilled hinner fun value hvalue => ?_⟩
      -- a list with the value as its only element
      have hsurvives := hall (.list [value]) (.list (by simpa using hvalue))
      exact (survives_list rfl).mp hsurvives value List.mem_cons_self
  | dict key value _ ih =>
      intro hint hfilled heval hall
      obtain ⟨hread, k, v, hk, hv, rfl⟩ := Evaluator.eval_dict.mp heval
      -- a dict needs some key to hold the value under
      obtain ⟨someKey, hkey⟩ := exists_holds hfilled.1
      refine ⟨hread, ⟨k, hk⟩, ih hfilled.2 hv fun value hvalue => ?_⟩
      have hsurvives := hall (.dict [(someKey, value)])
        (.dict (by simpa using hkey) (by simpa using hvalue))
      exact (survives_dict rfl).mp hsurvives (someKey, value) List.mem_cons_self
  | optional type ih =>
      intro hint hfilled heval hall
      obtain ⟨inner, hinner, hsupports, rfl⟩ := Evaluator.eval_optional.mp heval
      refine ⟨ih hfilled hinner fun value hvalue => ?_, inner, hinner, hsupports⟩
      exact survives_optional.mp (hall value (.present hvalue))

/-! ## All instances -/

/-- An instance made of a value for every field has that value. -/
theorem lookup_annots {cls : DictClass} (hplain : cls.Plain) {value : FieldHint → PyVal}
    {a : FieldHint} (ha : a ∈ cls.annots) :
    (cls.annots.map fun a => (a.name, value a)).lookup a.name = some (value a) := by
  refine lookup_of_mem ?_ (List.mem_map_of_mem ha)
  rw [List.map_map]
  exact hplain.names

/-- An instance with a conforming value for every field. -/
theorem holds_inst {full qualified : String} {cls : DictClass}
    (hcls : w.cls (w.idOf full) = some cls) (hplain : cls.Plain) {value : FieldHint → PyVal}
    (h : ∀ a ∈ cls.annots, Holds w a.annot (value a)) :
    Holds w (.named (.message full) qualified)
      (.inst (w.idOf full) (cls.annots.map fun a => (a.name, value a))) := by
  refine .message hcls (fun a ha => ⟨value a, lookup_annots hplain ha⟩) fun a ha v hv => ?_
  rw [lookup_annots hplain ha, Option.some.injEq] at hv
  exact hv ▸ h a ha

/-- **Every instance survives the conversion exactly when every class is faithful.** -/
theorem roundTrips_all_iff (hw : w.Regular) :
    (∀ full qualified x, Holds w (.named (.message full) qualified) x → w.RoundTrips x) ↔
      ∀ full cls, w.cls (w.idOf full) = some cls → w.Faithful cls := by
  constructor
  · intro hall full cls hcls
    have hplain := hw.plain _ _ hcls
    have : Nonempty PyVal := ⟨.pyNone⟩
    choose! value hvalue using fun a (ha : a ∈ cls.annots) =>
      exists_holds (hw.filled _ _ hcls a ha)
    have hrebuilds : ∀ value : FieldHint → PyVal,
        (∀ a ∈ cls.annots, Holds w a.annot (value a)) →
          "to_dict" ∉ cls.nested ∧ "from_dict" ∉ cls.nested ∧
            w.Rebuilds cls (cls.annots.map fun a => (a.name, value a)) := by
      intro value hvalue
      have hset : ∀ a ∈ cls.annots,
          ∃ v, (cls.annots.map fun a => (a.name, value a)).lookup a.name = some v :=
        fun a ha => ⟨value a, lookup_annots hplain ha⟩
      exact (roundTrips_iff hcls hplain hset).mp
        (hall full full _ (holds_inst hcls hplain hvalue))
    obtain ⟨hto, hfrom, hslot, hfields⟩ := hrebuilds value hvalue
    refine ⟨by simp [hto, hfrom, hslot], fun a ha => ?_⟩
    obtain ⟨hvalid, hint, hhint, -⟩ := hfields a ha
    refine ⟨hvalid, denotes_of_survives hw (hw.filled _ _ hcls a ha) hhint fun v hv => ?_⟩
    -- the field gets `v`, the other ones keep their values
    obtain ⟨-, -, -, hothers⟩ :=
      hrebuilds (fun b => if b.name = a.name then v else value b) fun b hb => by
        split
        · rename_i hname
          rw [List.inj_on_of_nodup_map hplain.names hb ha hname]
          exact hv
        · exact hvalue b hb
    obtain ⟨-, hint', hhint', hsurvives⟩ := hothers a ha
    obtain rfl := Except.ok.inj (hhint.symm.trans hhint')
    exact hsurvives v (by rw [lookup_annots hplain ha, if_pos rfl])
  · intro hfaithful full qualified x hx
    cases hx with
    | message found set values =>
        obtain ⟨hnested, hannots⟩ := hfaithful _ _ found
        refine (roundTrips_iff found (hw.plain _ _ found) set).mpr
          ⟨hnested _ (by simp), hnested _ (by simp), hnested _ (by simp), fun a ha => ?_⟩
        obtain ⟨hvalid, hdenotes⟩ := hannots a ha
        obtain ⟨hint, hhint⟩ := eval_of_denotes hdenotes
        exact ⟨hvalid, hint, hhint, fun value hvalue =>
          survives_of_holds hw.plain hfaithful (values a ha value hvalue) hdenotes hhint⟩

section Decide

variable (w : DictWorld) (env : Evaluator)

instance (denoted : Denoted) : Decidable (w.Harmless denoted) :=
  match denoted with
  | .obj (.enumClass full) =>
      decidable_of_iff (w.members full ≠ []) ⟨fun h _ heq => by cases heq; exact h, fun h => h _ rfl⟩
  | .obj (.builtin _) | .obj (.runtime _) | .obj (.messageClass _) | .obj (.descriptor _)
  | .obj .value | .coreDescriptor | .attribute => isTrue fun _ heq => nomatch heq

/-- Whether an annotation denotes what it names can be computed. -/
def decidableDenotes : (annot : TypeExpr) → Decidable (w.Denotes env annot)
  | .scalar _ => inferInstanceAs (Decidable (_ = _))
  | .native type =>
      inferInstanceAs (Decidable (∃ denoted, env.read type.name = some denoted ∧ w.Harmless denoted))
  | .named (.message _) _ => inferInstanceAs (Decidable (_ = _))
  | .named (.enum _) qualified =>
      inferInstanceAs (Decidable (∃ denoted, env.path qualified = .ok denoted ∧ w.Harmless denoted))
  | .named (.scalar _) qualified =>
      inferInstanceAs (Decidable (∃ denoted, env.path qualified = .ok denoted))
  | .list element =>
      have := decidableDenotes element
      inferInstanceAs (Decidable (_ = _ ∧ w.Denotes env element))
  | .dict key value =>
      have := decidableDenotes value
      inferInstanceAs
        (Decidable (_ = _ ∧ (∃ hint, env.eval key = .ok hint) ∧ w.Denotes env value))
  | .optional type =>
      have := decidableDenotes type
      inferInstanceAs
        (Decidable (w.Denotes env type ∧ ∃ hint, env.eval type = .ok hint ∧ hint.supportsOr = true))

instance (annot : TypeExpr) : Decidable (w.Denotes env annot) := decidableDenotes w env annot

instance (cls : DictClass) : Decidable (w.Faithful cls) := by
  unfold Faithful
  infer_instance

end Decide

end DictWorld

end FastProto
