import FastProto.Hygiene

/-! # Which modules are hygienic

The names of enums are read where a field line stands, or in a lambda once the module is finished.
Together with the reads of infrastructure this gives `hygienic_iff`: a module is hygienic exactly when
nothing in its file shadows what it reads. -/

namespace FastProto

open Lib

/-! ## Evaluating paths -/

/-- A path is evaluated by following its segments. -/
theorem Evaluator.path_eq_ok {env : Evaluator} {qualified : String} {denoted : Denoted} :
    env.path qualified = .ok denoted ↔
      follow env.read env.attr (segments qualified) = some denoted := by
  have hattrs : ∀ (rest : List String) (found : Denoted),
      rest.foldlM env.getattr found = .ok denoted ↔ rest.foldlM env.attr found = some denoted := by
    intro rest
    induction rest with
    | nil => intro found; simp [pure, Except.pure]
    | cons name rest ih =>
        intro found
        rw [List.foldlM_cons, List.foldlM_cons, bind_eq_ok, Option.bind_eq_bind,
          Option.bind_eq_some_iff]
        refine exists_congr fun next => and_congr ?_ (ih next)
        unfold getattr
        cases env.attr found name <;> simp
  unfold path
  cases segments qualified with
  | nil => simp [follow]
  | cons head rest =>
      rw [follow, Option.bind_eq_some_iff]
      dsimp only
      rw [bind_eq_ok]
      exact exists_congr fun found => and_congr name_eq_ok (hattrs rest found)

/-! ## The enum names of a field -/

section Names

variable {files : List FileDescriptorProto} {file other : FileDescriptorProto}
  {p : String × DescriptorProto} {enum : EnumDescriptorProto}

/-- The path of a top-level enum is its name. -/
theorem qualified_topEnum (hvalid : ProtocValid files) (hother : other ∈ files)
    (henum : enum ∈ other.enumType) :
    (TypeIndex.build files).qualified (other.scope ++ "." ++ enum.name) = enum.name := by
  have hget := TypeIndex.get_of_mem hvalid.typeNames (List.mem_flatMap.mpr
    ⟨other, hother, List.mem_append_left _ (List.mem_map_of_mem henum)⟩)
  rw [TypeIndex.qualified, hget]

/-- The path of a nested enum. -/
theorem qualified_nestedEnum (hvalid : ProtocValid files) (hother : other ∈ files)
    (hp : p ∈ other.messages) (henum : enum ∈ p.2.enumType) :
    (TypeIndex.build files).qualified (p.1 ++ "." ++ enum.name)
      = stripped (other.scope.length + 1) (p.1 ++ "." ++ enum.name) := by
  have hmem : (p.1 ++ "." ++ enum.name,
      (⟨other.name, stripped (other.scope.length + 1) (p.1 ++ "." ++ enum.name), none⟩ : TypeInfo))
      ∈ TypeIndex.build files := by
    refine List.mem_flatMap.mpr ⟨other, hother, List.mem_append_right _ ?_⟩
    rw [walkAll_eq]
    exact List.mem_flatMap.mpr ⟨p, hp, List.mem_cons_of_mem _ (List.mem_map_of_mem henum)⟩
  rw [TypeIndex.qualified, TypeIndex.get_of_mem hvalid.typeNames hmem]

/-- The path of a nested enum consists of the segments behind the scope, and leads into a class. -/
theorem path_nestedEnum (hvalid : ProtocValid files) (hother : other ∈ files)
    (hp : p ∈ other.messages) (henum : enum ∈ p.2.enumType) :
    segments ((TypeIndex.build files).qualified (p.1 ++ "." ++ enum.name))
        = pathFrom other.scope (p.1 ++ "." ++ enum.name) ∧
      isNestedPath ((TypeIndex.build files).qualified (p.1 ++ "." ++ enum.name)) = true := by
  obtain ⟨rest, hrest⟩ := below_scope hp
  rw [qualified_nestedEnum hvalid hother hp henum, hrest, String.append_assoc, String.append_assoc,
    pathFrom_append, stripped_append]
  refine ⟨rfl, ?_⟩
  rw [isNestedPath, List.contains_iff_mem, ← String.append_assoc, String.toList_append,
    String.toList_append]
  exact List.mem_append_left _ (List.mem_append_right _ (List.mem_singleton_self '.'))

/-- The name of a top-level enum leads into no class. -/
theorem isNestedPath_topEnum (hvalid : ProtocValid files) (hother : other ∈ files)
    (henum : enum ∈ other.enumType) : isNestedPath enum.name = false := by
  rw [isNestedPath, Bool.eq_false_iff, Ne, List.contains_iff_mem]
  exact no_dot_of_isIdentifier (hvalid.wellNamed.enumNames other hother enum henum)

/-- Where the annotation of a single element names an enum, it names a generated class. -/
theorem mem_enums_elementAnnot {index : TypeIndex} {type : ProtoType} {e : String × String} :
    e ∈ (elementAnnot index type).enums ↔
      ∃ full, type = .enum full ∧ nativeWkt full = none ∧ e = (full, index.qualified full) := by
  unfold elementAnnot
  cases type with
  | scalar s => simp [TypeExpr.enums]
  | message typeName | enum typeName =>
      dsimp only
      cases hnative : nativeWkt typeName <;> simp [TypeExpr.enums, hnative]

end Names

namespace ModuleSet

variable {M : ModuleSet} {file other : FileDescriptorProto}

section Lines

variable {p : String × DescriptorProto} {field : FieldDescriptorProto} {line : FieldLine}

/-- A field that is a map or repeated names no enum that is not quoted. -/
theorem enumReads_repeated (hvalid : ProtocValid M.files) (hfile : file ∈ M.files)
    (hp : p ∈ file.messages) (hfield : field ∈ p.2.field)
    (hline : renderField M.index field = some line) (hrep : field.repeated = true)
    (fr : Lib.Frame Obj) :
    (Stmt.field field line).enumReads fr = [] ∧ (Stmt.field field line).lambdaReads = [] := by
  -- an enum that an annotation reads is a type named by a generated class
  have hnamed : ∀ {type : ProtoType} {e}, e ∈ (elementAnnot M.index type).enums →
      type.isNamed = true := by
    intro type e he
    obtain ⟨full, rfl, hnative, -⟩ := mem_enums_elementAnnot.mp he
    rw [ProtoType.isNamed, ProtoType.typeName]
    exact Option.isNone_iff_eq_none.mpr hnative
  -- an annotation with a named type is quoted, and not evaluated
  have hunquoted : ∀ {types : List ProtoType} {annot : TypeExpr},
      annot.enums = types.flatMap (fun type => (elementAnnot M.index type).enums) →
      (∀ type ∈ types, type.isNamed = true → line.quoted = true) → line.annot = annot →
      (if line.quoted then [] else line.annot.enums) = [] := by
    intro types annot hannot hquoted heq
    split
    · rfl
    · rename_i hnot
      rw [heq, hannot, List.flatMap_eq_nil_iff]
      intro type htype
      refine List.eq_nil_iff_forall_not_mem.mpr fun e he => hnot ?_
      exact hquoted type htype (hnamed he)
  have hempty : (∀ qualified, line.default ≠ .enumZero qualified) →
      (∀ qualified, line.default ≠ .enumFactory qualified) →
      (if line.quoted then [] else line.annot.enums) = [] →
      (Stmt.field field line).enumReads fr = [] ∧ (Stmt.field field line).lambdaReads = [] := by
    intro hzero hfactory hannot
    unfold Stmt.enumReads Stmt.lambdaReads
    dsimp only
    refine ⟨?_, ?_⟩
    · split
      · rename_i hdefault
        exact absurd hdefault (hzero _)
      · split
        · rfl
        · rename_i hquoted
          rw [if_neg hquoted] at hannot
          rw [hannot]
          rfl
    · split
      · rename_i hdefault
        exact absurd hdefault (hfactory _)
      · rfl
  cases hentry : M.index.mapEntry field with
  | none =>
      rw [renderField_list hentry hrep] at hline
      cases hline
      refine hempty (by simp) (by simp) (@hunquoted [field.type] _ ?_ ?_ rfl)
      · rw [List.flatMap_singleton, TypeExpr.enums]
      · exact fun type htype h => List.mem_singleton.mp htype ▸ h
  | some entry =>
      unfold renderField at hline
      rw [hentry] at hline
      obtain ⟨key, hkey, hline⟩ := Option.bind_eq_some_iff.mp hline
      obtain ⟨value, -, hline⟩ := Option.bind_eq_some_iff.mp hline
      cases hline
      obtain ⟨s, hs⟩ := key_scalar hvalid hfile hp hfield hentry hkey
      refine hempty (by simp) (by simp) (@hunquoted [value.type] _ ?_ ?_ rfl)
      · rw [List.flatMap_singleton, TypeExpr.enums, hs]
        rfl
      · exact fun type htype h => List.mem_singleton.mp htype ▸ h

/-- **The enum names that a field line reads**: that of its own enum where it is singular, after its
name is bound, and before for the default; in a lambda if the enum is nested. -/
theorem mem_enumReads (hvalid : ProtocValid M.files) (hfile : file ∈ M.files)
    (hp : p ∈ file.messages) (hfield : field ∈ p.2.field)
    (hline : renderField M.index field = some line) (fr : Lib.Frame Obj) :
    (∀ r, r ∈ (Stmt.field field line).enumReads fr ↔ ∃ full, field.IsSingularEnum full ∧
      isNestedPath (M.index.qualified full) = false ∧
        (field.hasPresence = false ∧ r = (fr, full, M.index.qualified full) ∨
          r = (fr.bind (line.name, .value), full, M.index.qualified full))) ∧
    ∀ r, r ∈ (Stmt.field field line).lambdaReads ↔ ∃ full, field.IsSingularEnum full ∧
      isNestedPath (M.index.qualified full) = true ∧ field.hasPresence = false ∧
        r = (full, M.index.qualified full) := by
  cases hrep : field.repeated with
  | true =>
      obtain ⟨henum, hlambda⟩ := enumReads_repeated hvalid hfile hp hfield hline hrep fr
      have hnot : ∀ full, ¬ field.IsSingularEnum full := by
        rintro full ⟨hsingular, -⟩
        rw [hrep] at hsingular
        cases hsingular
      rw [henum, hlambda]
      exact ⟨fun r => ⟨fun h => absurd h List.not_mem_nil, fun ⟨full, h, _⟩ => absurd h (hnot full)⟩,
        fun r => ⟨fun h => absurd h List.not_mem_nil, fun ⟨full, h, _⟩ => absurd h (hnot full)⟩⟩
  | false =>
      rw [renderField_singular hrep] at hline
      cases hline
      unfold renderSingularField renderEnumField FieldDescriptorProto.IsSingularEnum
      cases htype : field.type with
      | scalar s =>
          cases hpresence : field.hasPresence <;>
            simp [ProtoType.typeName, Stmt.enumReads, Stmt.lambdaReads, TypeExpr.enums]
      | message typeName =>
          cases hnative : nativeWkt typeName <;>
            simp [ProtoType.typeName, Stmt.enumReads, Stmt.lambdaReads, TypeExpr.enums, hnative]
      | enum typeName =>
          cases hnative : nativeWkt typeName with
          | some native =>
              simp [ProtoType.typeName, Stmt.enumReads, Stmt.lambdaReads, TypeExpr.enums, hnative]
          | none =>
              cases hpresence : field.hasPresence <;>
                cases hnested : isNestedPath (M.index.qualified typeName) <;>
                  simp [ProtoType.typeName, Stmt.enumReads, Stmt.lambdaReads, TypeExpr.enums, hnative,
                    hnested, htype, ProtoType.enumName, hrep]

end Lines

/-! ## Enum names where they stand -/

/-- The enums of a file are indexed. -/
theorem enum_mem_index {e : String × EnumDescriptorProto} (he : e ∈ file.enums) :
    e.1 ∈ file.index.map Prod.fst := by
  obtain ⟨info, hinfo, -⟩ := enum_mem_build (List.mem_singleton_self file) he
  rw [TypeIndex.build, List.flatMap_singleton] at hinfo
  exact List.mem_map_of_mem (f := Prod.fst) hinfo

/-- A top-level enum is not nested. -/
theorem topEnum_ne_nested (hvalid : ProtocValid M.files) (hfile : file ∈ M.files)
    (hother : other ∈ M.files) {enum : EnumDescriptorProto} (henum : enum ∈ other.enumType)
    {p : String × DescriptorProto} (hp : p ∈ file.messages) :
    ∀ b ∈ nestedClasses p, b.2 ≠ .enumClass (other.scope ++ "." ++ enum.name) := by
  rintro ⟨inner, obj⟩ hb heq
  dsimp only at heq
  subst heq
  rcases mem_classesIn.mp hb with ⟨enum', henum', rfl, hobj⟩ | ⟨msg, -, -, -, hobj⟩
  · have hfull : other.scope ++ "." ++ enum.name = p.1 ++ "." ++ enum'.name :=
      Obj.enumClass.inj hobj
    have hindex := @enum_mem_index other (_, enum)
      (List.mem_append_left _ (List.mem_map_of_mem henum))
    have hindex' := @enum_mem_index file (_, enum')
      (List.mem_append_right _ (List.mem_flatMap.mpr ⟨p, hp, List.mem_map_of_mem henum'⟩))
    dsimp only at hindex hindex'
    rw [← hfull] at hindex'
    obtain rfl := file_unique hvalid hfile hother hindex' hindex
    have hdot := no_dot_of_isIdentifier (hvalid.wellNamed.enumNames file hfile enum henum)
    have hdot' := no_dot_of_mem_nestedClasses hvalid hfile hp hb
    exact scope_ne_message hp (eq_of_full_eq hdot hdot' hfull).1
  · cases hobj

section Visible

variable {place : FieldPlace} (hvalid : ProtocValid M.files) (hfile : file ∈ M.files)
  (hplace : place.In file) (hother : other ∈ M.files)

include hvalid hfile hplace hother

/-- The container of the enum of a field is the file's own, or imported. -/
theorem visible_of_enum {full name : String} (henum : place.field.IsSingularEnum full)
    (hcontains : Contains other name full) :
    other = file ∨ External M.files file ⟨other.name, name⟩ := by
  obtain ⟨-, htype, hnative⟩ := henum
  refine or_iff_not_imp_left.mpr fun hne => ⟨other, hother, rfl, fun hname => hne ?_, full, ?_,
    hcontains⟩
  · exact List.inj_on_of_nodup_map hvalid.fileNames hother hfile hname
  · refine ⟨hnative, place.outer, hplace.mem_allMessages, place.field, hplace.mem_field, .direct ?_ ?_⟩
    · rintro entry ⟨-, typeName, hmessage, -⟩
      rw [htype] at hmessage
      cases hmessage
    · rw [htype]
      rfl

/-- **The name of a top-level enum yields its class** at the place of a field exactly when it is not
rewritten, not bound in the class body so far, and kept by the module. -/
theorem eager_path_iff {imported : List (String × String)}
    (hok : file.externalImports M.index = .ok imported) {enum : EnumDescriptorProto}
    (henum : enum ∈ other.enumType)
    (hvisible : other = file ∨ External M.files file ⟨other.name, enum.name⟩)
    {fields : List FieldDescriptorProto}
    (hfields : ∀ field ∈ fields, field ∈ place.outer.2.field) :
    (M.eager (place.frame M file fields)).path enum.name
        = .ok (.obj (.enumClass (other.scope ++ "." ++ enum.name))) ↔
      mangle place.cls enum.name = enum.name ∧ enum.name ∉ place.bound fields ∧
        KeptBefore M.index file other (place.earlier ++ [place.root]) enum.name := by
  obtain ⟨later, hsplit⟩ := hplace.root
  have hmem := (FileDescriptorProto.mem_messages hplace.mem_allMessages).1
  have hdot := no_dot_of_isIdentifier (hvalid.wellNamed.enumNames other hother enum henum)
  have hbindings := bodyFront_bindings hvalid hfile hplace hfields
  -- nothing in the class body is the enum itself, so finding it means reading the globals
  have hvalues : ∀ b ∈ nestedClasses place.outer ++ fields.map fun field => (field.name, Obj.value),
      b.2 ≠ .enumClass (other.scope ++ "." ++ enum.name) := by
    intro b hb
    rcases List.mem_append.mp hb with hb | hb
    · exact topEnum_ne_nested hvalid hfile hother henum hmem b hb
    · obtain ⟨field, -, rfl⟩ := List.mem_map.mp hb
      simp
  have hbound : ∀ {found}, (∀ b ∈ nestedClasses place.outer
        ++ fields.map fun field => (field.name, Obj.value), mangle place.cls b.1 ≠ found) ↔
      found ∉ place.bound fields := by
    intro found
    have hnames : (nestedClasses place.outer
          ++ fields.map fun field => (field.name, Obj.value)).map Prod.fst
        = (nestedClasses place.outer).map Prod.fst ++ fields.map (·.name) := by
      rw [List.map_append, List.map_map]
      rfl
    rw [FieldPlace.bound, ← hnames, List.map_map, List.mem_map, not_exists]
    exact forall_congr' fun b => not_and.symm
  rw [Evaluator.path_eq_ok, segments_of_no_dot hdot, follow_singleton]
  have hread : (M.eager (place.frame M file fields)).read enum.name
        = some (.obj (.enumClass (other.scope ++ "." ++ enum.name))) ↔
      (place.frame M file fields).read pythonBuiltins enum.name
        = some (.enumClass (other.scope ++ "." ++ enum.name)) := by
    rw [eager, Option.map_eq_some_iff]
    simp only [Denoted.obj.injEq, exists_eq_right]
  rw [hread, FieldPlace.frame, scopeAfter, hbindings, Lib.Frame.read_bindAll_iff rfl hvalues,
    @or_builtin_eq _ _ (.enumClass _) (by simp)]
  have hglobals : (bodyStart (M.beforeRoot file place.earlier place.root).moduleScope
      place.outer).globals = (M.beforeRoot file place.earlier place.root).locals :=
    beforeRoot_moduleScope
  rw [hglobals, show (bodyStart (M.beforeRoot file place.earlier place.root).moduleScope
    place.outer).cls = place.cls from rfl,
    lookup_visible_before hvalid hfile hok hother hvisible henum rfl hsplit, hbound]
  constructor
  · rintro ⟨hfree, hname, hkept⟩
    rw [← hname] at hfree
    exact ⟨hname.symm, hfree, hkept⟩
  · rintro ⟨hname, hfree, hkept⟩
    rw [hname]
    exact ⟨hfree, rfl, hkept⟩

end Visible

/-! ## Enum names that are read at once -/

/-- The enum of a field is one of the set. -/
theorem mem_enumsOf_of_singular (hvalid : ProtocValid M.files) (hfile : file ∈ M.files)
    {place : FieldPlace} (hplace : place.In file) {full : String}
    (henum : place.field.IsSingularEnum full) : full ∈ (enumsOf M.files).map Prod.fst := by
  have hmem := (FileDescriptorProto.mem_messages hplace.mem_allMessages).1
  refine (hvalid.message hfile hmem).enumRefs place.field hplace.mem_field full ?_
  exact ProtoType.mem_enumName.mpr henum.2.1

section Reads

variable (hvalid : ProtocValid M.files) (hfile : file ∈ M.files)
  {imported : List (String × String)} (hok : file.externalImports M.index = .ok imported)

include hvalid hfile hok

/-- **Enum names are read right where they stand** exactly when nothing shadows them. -/
theorem enums_iff : (∀ e ∈ M.events file, ∀ r ∈ e.2.enumReads e.1,
      (M.eager r.1).path r.2.2 = .ok (.obj (.enumClass r.2.1))) ↔
    ∀ place : FieldPlace, place.In file → ∀ other ∈ M.files, ∀ enum ∈ other.enumType,
      place.field.IsSingularEnum (other.scope ++ "." ++ enum.name) →
        mangle place.cls enum.name = enum.name ∧
        enum.name ∉ place.bound (place.before ++ [place.field]) ∧
        KeptBefore M.index file other (place.earlier ++ [place.root]) enum.name := by
  have hown : ∀ {place : FieldPlace}, place.In file →
      ∀ field ∈ place.before ++ [place.field], field ∈ place.outer.2.field := by
    intro place hplace field hfield
    obtain ⟨after, hfields⟩ := hplace.field
    rw [hfields]
    rcases List.mem_append.mp hfield with hfield | hfield
    · exact List.mem_append_left _ hfield
    · rw [List.mem_singleton.mp hfield]
      simp
  constructor
  · intro h place hplace other hother enum henum hsingular
    have hmem := (FileDescriptorProto.mem_messages hplace.mem_allMessages).1
    obtain ⟨line, hline⟩ := exists_line hvalid hfile hmem hplace.mem_field
    have hevent := field_event_iff.mpr ⟨place, hplace, rfl, hline, rfl⟩
    have hname : M.index.qualified (other.scope ++ "." ++ enum.name) = enum.name :=
      qualified_topEnum hvalid hother henum
    have hflat : isNestedPath (M.index.qualified (other.scope ++ "." ++ enum.name)) = false := by
      rw [hname]
      exact isNestedPath_topEnum hvalid hother henum
    have hread := h _ hevent _ (((mem_enumReads hvalid hfile hmem hplace.mem_field hline _).1 _).mpr
      ⟨_, hsingular, hflat, .inr rfl⟩)
    dsimp only at hread
    rw [frame_concat hline, hname] at hread
    exact (eager_path_iff hvalid hfile hplace hother hok henum
      (visible_of_enum hvalid hfile hplace hother hsingular (.enum henum rfl)) (hown hplace)).mp hread
  · rintro h ⟨fr, s⟩ he r hr
    cases s with
    | constant const full => cases hr
    | enumClass full enum => cases hr
    | messageClass full const msg body => cases hr
    | field field line =>
        obtain ⟨place, hplace, rfl, hline, rfl⟩ := field_event_iff.mp he
        have hmem := (FileDescriptorProto.mem_messages hplace.mem_allMessages).1
        obtain ⟨full, hsingular, hflat, hr⟩ :=
          ((mem_enumReads hvalid hfile hmem hplace.mem_field hline _).1 r).mp hr
        obtain ⟨other, hother, ⟨enum, henum, rfl⟩ | ⟨root, hroot, p, hp, enum, henum, rfl⟩⟩ :=
          enum_site hvalid (mem_enumsOf_of_singular hvalid hfile hplace hsingular)
        · obtain ⟨hname, hfree, hkept⟩ := h place hplace other hother enum henum hsingular
          have hvisible :=
            visible_of_enum hvalid hfile hplace hother hsingular (Contains.enum henum rfl)
          have hqualified : M.index.qualified (other.scope ++ "." ++ enum.name) = enum.name :=
            qualified_topEnum hvalid hother henum
          rw [hqualified] at hr
          rcases hr with ⟨-, rfl⟩ | rfl
          · refine (eager_path_iff hvalid hfile hplace hother hok henum hvisible
              fun field hfield => hown hplace field (List.mem_append_left _ hfield)).mpr
              ⟨hname, fun hbound => hfree ?_, hkept⟩
            -- what is bound before the field is bound after it
            simp only [FieldPlace.bound, List.map_append, List.mem_append] at hbound ⊢
            exact hbound.imp_right .inl
          · dsimp only
            rw [frame_concat hline]
            exact (eager_path_iff hvalid hfile hplace hother hok henum hvisible
              (hown hplace)).mpr ⟨hname, hfree, hkept⟩
        · have hmem' := FileDescriptorProto.mem_messages
            (FileDescriptorProto.mem_allMessages_of_tree hroot hp)
          have hnested := (path_nestedEnum hvalid hother hmem'.1 henum).2
          rw [show M.index = TypeIndex.build M.files from rfl, hnested] at hflat
          cases hflat

end Reads

/-! ## Enum names in lambdas -/

/-- Attributes of classes are what their bodies bind, under rewritten names. -/
theorem readsClasses_deferred (hvalid : ProtocValid M.files) (cls : Option String) :
    M.ReadsClasses Denoted.obj (mangle cls) (M.deferred file cls).attr := by
  intro found name obj hclass
  change M.attr found (mangle cls name) = some (.obj obj) ↔ _
  constructor
  · intro h
    unfold attr at h
    split at h
    · rename_i full
      split at h
      · cases h
      · rename_i obj' _ hbody
        cases h
        obtain ⟨msg, hmsg, hlookup⟩ := Option.bind_eq_some_iff.mp hbody
        exact ⟨(full, msg), mem_of_lookup hmsg, rfl, hlookup⟩
      · split at h <;> cases h
    · split at h <;> cases h
    · split at h <;> cases h
    · cases h
  · rintro ⟨p, hp, rfl, hlookup⟩
    rw [attr, hvalid.lookup_messagesOf hp, Option.bind_some, hlookup]
    cases obj with
    | value => cases hclass
    | builtin _ | runtime _ | descriptor _ | enumClass _ | messageClass _ => rfl

section Lambdas

variable (hvalid : ProtocValid M.files) (hfile : file ∈ M.files)
  {imported : List (String × String)} (hok : file.externalImports M.index = .ok imported)

include hvalid hfile hok

/-- **The path to a nested enum leads to its class** in a lambda exactly when its container is kept
under the name the lambda reads, and every step is exposed. -/
theorem deferred_path_iff (hother : other ∈ M.files) {root : DescriptorProto}
    (hroot : root ∈ other.messageType)
    (hvisible : other = file ∨ External M.files file ⟨other.name, root.name⟩)
    {p : String × DescriptorProto} (hp : p ∈ root.tree DescriptorProto.isUserFacing other.scope)
    {enum : EnumDescriptorProto} (henum : enum ∈ p.2.enumType) (cls : Option String) :
    (M.deferred file cls).path (M.index.qualified (p.1 ++ "." ++ enum.name))
        = .ok (.obj (.enumClass (p.1 ++ "." ++ enum.name))) ↔
      mangle cls root.name = root.name ∧ Kept M.index file other root.name ∧
        Walkable other (mangle cls) (p.1 ++ "." ++ enum.name) := by
  have htop : (root.name, .messageClass (other.scope ++ "." ++ root.name)) ∈ other.topClasses :=
    mem_classesIn.mpr (.inr ⟨root, hroot, isUserFacing_of_tree hp, rfl, rfl⟩)
  have hdot := no_dot_of_isIdentifier (hvalid.wellNamed.messageNames other hother root hroot)
  have hmem := FileDescriptorProto.mem_allMessages_of_tree hroot hp
  have hwithin : Within other _ (.enumClass (p.1 ++ "." ++ enum.name)) :=
    .nested hmem (within_of_tree hroot hp) (mem_classesIn.mpr (.inl ⟨enum, henum, rfl, rfl⟩))
  have hpath := (path_nestedEnum hvalid hother (FileDescriptorProto.mem_messages hmem).1 henum).1
  have hread : (M.deferred file cls).read root.name
        = some (.obj (.messageClass (other.scope ++ "." ++ root.name))) ↔
      (M.moduleScope file).locals.lookup (mangle cls root.name)
        = some (.messageClass (other.scope ++ "." ++ root.name)) := by
    rw [deferred, Option.map_eq_some_iff, moduleScope, read_scopeAfter]
    simp only [Denoted.obj.injEq, exists_eq_right]
    exact or_builtin_eq (by simp)
  rw [Evaluator.path_eq_ok, show M.index = TypeIndex.build M.files from rfl, hpath,
    follow_iff_walkable hvalid hother (readsClasses_deferred hvalid cls) htop hdot hwithin rfl,
    hread, lookup_visible hvalid hfile hok hother hvisible htop, and_assoc, eq_comm]
  rfl

/-- **Enum names are read right in lambdas** exactly when nothing shadows their paths. -/
theorem lambdas_iff : (∀ e ∈ M.events file, ∀ r ∈ e.2.lambdaReads,
      (M.deferred file e.1.cls).path r.2 = .ok (.obj (.enumClass r.1))) ↔
    ∀ place : FieldPlace, place.In file → ∀ other ∈ M.files, ∀ root ∈ other.messageType,
      ∀ p ∈ root.tree DescriptorProto.isUserFacing other.scope, ∀ enum ∈ p.2.enumType,
        place.field.IsSingularEnum (p.1 ++ "." ++ enum.name) → place.field.hasPresence = false →
          mangle place.cls root.name = root.name ∧
          Kept M.index file other root.name ∧
          Walkable other (mangle place.cls) (p.1 ++ "." ++ enum.name) := by
  have hcls : ∀ place : FieldPlace, (place.frame M file place.before).cls = place.cls := by
    intro place
    rw [FieldPlace.frame, scopeAfter, Lib.Frame.bindAll_cls]
    rfl
  -- the module of the enum is this one or imported by it
  have hvisible : ∀ {place : FieldPlace} {other root p enum}, place.In file → other ∈ M.files →
      root ∈ other.messageType → p ∈ root.tree DescriptorProto.isUserFacing other.scope →
      enum ∈ p.2.enumType → place.field.IsSingularEnum (p.1 ++ "." ++ enum.name) →
      other = file ∨ External M.files file ⟨other.name, root.name⟩ := by
    intro place other root p enum hplace hother hroot hp henum hsingular
    refine visible_of_enum hvalid hfile hplace hother hsingular (.nestedEnum hroot rfl ?_ henum)
    exact (tree_sublist (fun _ _ => rfl) _ _).subset hp
  constructor
  · intro h place hplace other hother root hroot p hp enum henum hsingular hpresence
    have hmem := (FileDescriptorProto.mem_messages hplace.mem_allMessages).1
    obtain ⟨line, hline⟩ := exists_line hvalid hfile hmem hplace.mem_field
    have hevent := field_event_iff.mpr ⟨place, hplace, rfl, hline, rfl⟩
    have hpm := (FileDescriptorProto.mem_messages
      (FileDescriptorProto.mem_allMessages_of_tree hroot hp)).1
    have hread := h _ hevent _ (((mem_enumReads hvalid hfile hmem hplace.mem_field hline
      (place.frame M file place.before)).2 _).mpr
      ⟨_, hsingular, (path_nestedEnum hvalid hother hpm henum).2, hpresence, rfl⟩)
    dsimp only at hread
    rw [hcls] at hread
    exact (deferred_path_iff hvalid hfile hok hother hroot
      (hvisible hplace hother hroot hp henum hsingular) hp henum place.cls).mp hread
  · rintro h ⟨fr, s⟩ he r hr
    cases s with
    | constant const full => cases hr
    | enumClass full enum => cases hr
    | messageClass full const msg body => cases hr
    | field field line =>
        obtain ⟨place, hplace, rfl, hline, rfl⟩ := field_event_iff.mp he
        have hmem := (FileDescriptorProto.mem_messages hplace.mem_allMessages).1
        obtain ⟨full, hsingular, hnested, hpresence, rfl⟩ :=
          ((mem_enumReads hvalid hfile hmem hplace.mem_field hline
            (place.frame M file place.before)).2 r).mp hr
        obtain ⟨other, hother, ⟨enum, henum, rfl⟩ | ⟨root, hroot, p, hp, enum, henum, rfl⟩⟩ :=
          enum_site hvalid (mem_enumsOf_of_singular hvalid hfile hplace hsingular)
        · rw [show M.index = TypeIndex.build M.files from rfl,
            qualified_topEnum hvalid hother henum, isNestedPath_topEnum hvalid hother henum] at hnested
          cases hnested
        · dsimp only
          rw [hcls]
          exact (deferred_path_iff hvalid hfile hok hother hroot
            (hvisible hplace hother hroot hp henum hsingular) hp henum place.cls).mpr
            (h place hplace other hother root hroot p hp enum henum hsingular hpresence)

end Lambdas

/-! ## Hygienic modules -/

/-- Method names do not begin with an underscore, and no field of an accepted file has one. -/
theorem method_plain {name : String} (h : name ∈ messageMethods) :
    name.toList.head? ≠ some '_' ∧ name ∈ reservedFieldNames := by
  revert name
  decide

/-- **Methods survive** exactly when no nested type has the name of one. -/
theorem methods_iff (hvalid : ProtocValid M.files) (hfile : file ∈ M.files)
    (haccepted : SchemaValidator.validate file = .ok ()) :
    (∀ p ∈ file.allMessages, ∀ name ∈ messageMethods, (M.classScope p).lookup name = none) ↔
      ∀ p ∈ file.allMessages, ∀ name ∈ messageMethods, name ∉ (nestedClasses p).map Prod.fst := by
  obtain ⟨-, -, husable⟩ := SchemaValidator.validate_ok haccepted
  refine forall₂_congr fun p hp => forall₂_congr fun name hname => ?_
  obtain ⟨hhead, hreserved⟩ := method_plain hname
  have hfields : name ∉ p.2.field.map (·.name) := by
    intro hmem
    obtain ⟨field, hfield, rfl⟩ := List.mem_map.mp hmem
    exact ((husable p hp).fields field hfield).2 hreserved
  have hbound : name ∈ ((classBody M.index p).map Stmt.binding).map
        (fun b => mangle (some p.2.name) b.1) ↔
      name ∈ (nestedClasses p).map Prod.fst ∨ name ∈ p.2.field.map (·.name) := by
    rw [show M.index = TypeIndex.build M.files from rfl,
      classBody_bindings hvalid hfile (FileDescriptorProto.mem_messages hp).1]
    simp only [List.map_append, List.map_map, List.mem_append, List.mem_map, Function.comp_apply,
      mangle_eq_iff hhead]
  rw [classScope, scopeAfter, Lib.Frame.locals_bindAll, List.append_nil, lookup_eq_none_iff_not_mem,
    List.map_reverse, List.mem_reverse, List.map_map, show Prod.fst ∘ (fun b : String × Obj =>
      (mangle (some p.2.name) b.1, b.2)) = fun b => mangle (some p.2.name) b.1 from rfl, hbound,
    or_iff_left hfields]

/-- **A module is hygienic exactly when nothing in its file shadows what it reads**, for every file
that protoc and the validator accept and the renderer renders. -/
theorem hygienic_iff (hvalid : ProtocValid M.files) (hfile : file ∈ M.files)
    (haccepted : SchemaValidator.validate file = .ok ()) {imported : List (String × String)}
    (hrendered : file.externalImports M.index = .ok imported) :
    M.Hygienic file ↔ Unshadowed M.files file := by
  have hinfra := infra_iff hvalid hfile haccepted hrendered
  have henums := enums_iff hvalid hfile hrendered
  have hlambdas := lambdas_iff hvalid hfile hrendered
  have hmethods := methods_iff hvalid hfile haccepted
  constructor
  · intro h
    obtain ⟨hclasses, hintEnum, hfields⟩ := hinfra.mp h.infra
    exact ⟨hclasses, hintEnum, hfields, henums.mp h.enums, hlambdas.mp h.lambdas,
      hmethods.mp h.methods⟩
  · intro h
    exact ⟨hinfra.mpr ⟨h.classes, h.intEnum, h.fields⟩, henums.mpr h.enums, hlambdas.mpr h.lambdas,
      hmethods.mpr h.methods⟩

/-- `repeated int32 <name> = 1;`. -/
def numbersField (name : String) : FieldDescriptorProto where
  name := name
  number := 1
  repeated := true
  type := .scalar .int32

/-- `message M { repeated int32 <name> = 1; }`. -/
def numbersMessage (name : String) : DescriptorProto where
  name := "M"
  field := [numbersField name]

/-- A file with that message. -/
def numbersFile (name : String) : FileDescriptorProto where
  name := "numbers.proto"
  messageType := [numbersMessage name]

/-- The module of the file alone. -/
def numbersModule (name : String) : ModuleSet := ⟨[numbersFile name], [numbersFile name]⟩

/-- The messages of the file. -/
theorem tree_numbersMessage (name : String) :
    (numbersMessage name).tree DescriptorProto.isUserFacing (numbersFile name).scope
      = [(".M", numbersMessage name)] := by
  rfl

/-- The one place of a field in the file. -/
theorem place_of_numbers {name : String} {place : FieldPlace} (h : place.In (numbersFile name)) :
    place = ⟨[], numbersMessage name, (".M", numbersMessage name), [], numbersField name⟩ := by
  obtain ⟨earlier, root, outer, before, field⟩ := place
  obtain ⟨⟨later, hroot⟩, houter, after, hfield⟩ := h
  have hroots : [numbersMessage name] = earlier ++ root :: later := hroot
  obtain ⟨rfl, rfl, rfl⟩ : earlier = [] ∧ root = numbersMessage name ∧ later = [] := by
    cases earlier <;> simp_all
  rw [tree_numbersMessage, List.mem_singleton] at houter
  dsimp only at houter hfield
  subst houter
  have hfields : [numbersField name] = before ++ field :: after := hfield
  obtain ⟨rfl, rfl, rfl⟩ : before = [] ∧ field = numbersField name ∧ after = [] := by
    cases before <;> simp_all
  rfl

set_option maxRecDepth 20000 in
/-- With a harmless name the module is hygienic. -/
theorem hygienic_iff_values : ProtocValid (numbersModule "values").files ∧
    (numbersModule "values").Hygienic (numbersFile "values") := by
  have hvalid : ProtocValid (numbersModule "values").files := by decide
  have haccepted : SchemaValidator.validate (numbersFile "values") = .ok () := by decide
  have hrendered : (numbersFile "values").externalImports (numbersModule "values").index = .ok [] := by
    decide
  have hfile : numbersFile "values" ∈ (numbersModule "values").files := List.mem_cons_self
  have hnone : ∀ d, ¬ External (numbersModule "values").files (numbersFile "values") d := fun d h =>
    List.not_mem_nil ((mem_externalImports hvalid.wellNamed hfile hrendered).mpr h)
  have himports : ∀ name, ¬ ImportsName (numbersModule "values").files (numbersFile "values") name :=
    fun _ ⟨d, h, _⟩ => hnone d h
  have hplain : ∀ {place : FieldPlace}, place.In (numbersFile "values") →
      ∀ full, ¬ place.field.IsSingularEnum full := by
    intro place hplace full h
    rw [place_of_numbers hplace] at h
    cases h.1
  refine ⟨hvalid, (hygienic_iff hvalid hfile haccepted hrendered).mpr
    ⟨fun name _ => himports name, fun _ => himports _, fun place hplace => ?_,
      fun place hplace other _ enum _ h => absurd h (hplain hplace _),
      fun place hplace other _ root _ p _ enum _ h => absurd h (hplain hplace _), ?_⟩⟩
  · rw [place_of_numbers hplace]
    refine ⟨fun name hname => ⟨himports name, ?_⟩, fun name hname => ⟨himports name, ?_⟩⟩
    · revert name
      decide
    · revert name
      decide
  · decide

set_option maxRecDepth 20000 in
/-- **A field named `list` is not hygienic**: once it is bound, its own annotation finds it. -/
theorem not_hygienic_list : ProtocValid (numbersModule "list").files ∧
    SchemaValidator.validate (numbersFile "list") = .ok () ∧
    (numbersFile "list").externalImports (numbersModule "list").index = .ok [] ∧
    ¬ (numbersModule "list").Hygienic (numbersFile "list") := by
  have hvalid : ProtocValid (numbersModule "list").files := by decide
  have haccepted : SchemaValidator.validate (numbersFile "list") = .ok () := by decide
  have hrendered : (numbersFile "list").externalImports (numbersModule "list").index = .ok [] := by
    decide
  refine ⟨hvalid, haccepted, hrendered, fun h => ?_⟩
  let place : FieldPlace :=
    ⟨[], numbersMessage "list", (".M", numbersMessage "list"), [], numbersField "list"⟩
  have hplace : place.In (numbersFile "list") :=
    ⟨⟨[], rfl⟩, by rw [tree_numbersMessage]; exact List.mem_singleton_self _, ⟨[], rfl⟩⟩
  obtain ⟨-, -, hfields⟩ :=
    (infra_iff hvalid List.mem_cons_self haccepted hrendered).mp h.infra
  have hread : "list" ∈ place.field.annotInfra (numbersModule "list").index := by decide
  obtain ⟨-, -, -, hfree⟩ := (hfields place hplace).2 "list" hread
  -- the field is bound when its annotation `list[int]` is evaluated
  have hbound : "list" ∈ place.bound (place.before ++ [place.field]) := by decide
  exact hfree hbound

end ModuleSet

end FastProto
