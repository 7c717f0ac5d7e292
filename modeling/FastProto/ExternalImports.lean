import FastProto.Imports
import FastProto.Lib.Claims
import FastProto.Schema

/-! # Imports across files are unambiguous

A module refers to the types of other files by the name of their top-level container, so that two
containers of one name cannot both be imported. `External` says which containers a file needs, from
the fields of its messages and the definitions of the other files alone; `Visible` adds the file's
own top-level types. `_external_imports` refuses a file exactly when two visible definitions share a
name, and otherwise imports every needed container once, from the module of its file. -/

namespace FastProto

open Lib

variable {files : List FileDescriptorProto} {file : FileDescriptorProto}

/-! ## What a file needs -/

/-- **What `protoc` checks of the names in a set of files**, of any syntax. -/
structure WellNamed (files : List FileDescriptorProto) : Prop where
  fileNames : (files.map (·.name)).Nodup
  /-- Types have distinct full names. -/
  typeNames : ((TypeIndex.build files).map Prod.fst).Nodup
  enumNames : ∀ file ∈ files, ∀ enum ∈ file.enumType, isIdentifier enum.name = true
  messageNames : ∀ file ∈ files, ∀ msg ∈ file.messageType, isIdentifier msg.name = true
  /-- A map entry has a key and a value. -/
  entry : ∀ p ∈ messagesOf files, p.2.mapEntry = true → ∃ kv ∈ p.2.keyValue, IsKeyValue kv.1 kv.2
  /-- A field that refers to a map entry is repeated. -/
  entryFields : ∀ p ∈ messagesOf files, ∀ field ∈ p.2.field,
    ∀ typeName ∈ field.type.messageName,
      typeName ∈ ((messagesOf files).filter (·.2.mapEntry)).map Prod.fst → field.repeated = true

/-- The roots of a forest are messages of the file. -/
theorem FileDescriptorProto.root_mem {msg : DescriptorProto} (hmsg : msg ∈ file.messageType) :
    (file.scope ++ "." ++ msg.name, msg) ∈ file.messages :=
  mem_forest.mpr ⟨msg, hmsg, rfl, .inl rfl⟩

/-- What `protoc` accepts is well named. -/
theorem ProtocValid.wellNamed (hvalid : ProtocValid files) : WellNamed files where
  fileNames := hvalid.fileNames
  typeNames := hvalid.typeNames
  enumNames := fun file hfile enum henum =>
    (hvalid.enums (file.scope ++ "." ++ enum.name, enum)
      (List.mem_flatMap.mpr ⟨file, hfile, List.mem_append_left _
        (List.mem_map_of_mem henum)⟩)).name
  messageNames := fun file hfile _ hmsg => (hvalid.message hfile (file.root_mem hmsg)).name
  entry := fun p hp => (hvalid.messages p hp).entry
  entryFields := fun p hp field hfield typeName htype hentry =>
    ((hvalid.messages p hp).entryFields field hfield typeName htype hentry).1

/-- A field is a map with the given entry. -/
def MapOf (files : List FileDescriptorProto) (field : FieldDescriptorProto)
    (entry : DescriptorProto) : Prop :=
  entry.mapEntry = true ∧
    ∃ typeName, field.type = .message typeName ∧ (typeName, entry) ∈ messagesOf files

/-- **The type a field refers to**: its own, or that of its values if the field is a map. -/
inductive FieldRefers (files : List FileDescriptorProto) (field : FieldDescriptorProto)
    (typeName : String) : Prop
  | direct (hplain : ∀ entry, ¬ MapOf files field entry)
      (htype : field.type.typeName = some typeName) : FieldRefers files field typeName
  | mapValue {entry : DescriptorProto} {value : FieldDescriptorProto}
      (hmap : MapOf files field entry) (hvalue : value ∈ entry.field)
      (hnumber : value.number = 2) (htype : value.type.typeName = some typeName) :
      FieldRefers files field typeName

/-- A type that a field of a file refers to, at any nesting, and that is not native. -/
def Referenced (files : List FileDescriptorProto) (file : FileDescriptorProto)
    (typeName : String) : Prop :=
  nativeWkt typeName = none ∧
    ∃ p ∈ file.allMessages, ∃ field ∈ p.2.field, FieldRefers files field typeName

/-- **The types within a top-level definition of a file**: itself, and what is nested in it. -/
inductive Contains (file : FileDescriptorProto) (top : String) : String → Prop
  | enum {enum : EnumDescriptorProto} (henum : enum ∈ file.enumType) (htop : enum.name = top) :
      Contains file top (file.scope ++ "." ++ enum.name)
  | message {msg : DescriptorProto} {p : String × DescriptorProto}
      (hmsg : msg ∈ file.messageType) (htop : msg.name = top)
      (hp : p ∈ msg.tree (fun _ => true) file.scope) : Contains file top p.1
  | nestedEnum {msg : DescriptorProto} {p : String × DescriptorProto} {enum : EnumDescriptorProto}
      (hmsg : msg ∈ file.messageType) (htop : msg.name = top)
      (hp : p ∈ msg.tree (fun _ => true) file.scope) (henum : enum ∈ p.2.enumType) :
      Contains file top (p.1 ++ "." ++ enum.name)

/-- A top-level definition. -/
structure TopLevel where
  /-- The file it stands in. -/
  file : String
  name : String
  deriving DecidableEq, Repr

/-- **The containers a file needs from other files.** -/
def External (files : List FileDescriptorProto) (file : FileDescriptorProto) (d : TopLevel) :
    Prop :=
  ∃ other ∈ files, other.name = d.file ∧ other.name ≠ file.name ∧
    ∃ typeName, Referenced files file typeName ∧ Contains other d.name typeName

/-- The names of the top-level types of a file. -/
def FileDescriptorProto.topLevelNames (file : FileDescriptorProto) : List String :=
  file.enumType.map (·.name) ++ file.messageType.map (·.name)

/-- The top-level definitions that the module of a file refers to by name. -/
def Visible (files : List FileDescriptorProto) (file : FileDescriptorProto) (d : TopLevel) :
    Prop :=
  d.file = file.name ∧ d.name ∈ file.topLevelNames ∨ External files file d

/-! ## The site of a type -/

/-- A name at or below a full name. -/
def AtOrBelow (full name : String) : Prop := name = full ∨ ∃ rest, name = full ++ "." ++ rest

/-- What is below a name is below what that name is below. -/
theorem AtOrBelow.below {full name : String} (h : AtOrBelow full name) (inner : String) :
    AtOrBelow full (name ++ "." ++ inner) := by
  rcases h with rfl | ⟨rest, rfl⟩
  · exact .inr ⟨inner, rfl⟩
  · exact .inr ⟨rest ++ "." ++ inner, by simp only [String.append_assoc]⟩

/-- What is below a name below another is below the other. -/
theorem AtOrBelow.trans {full mid name : String} (h : AtOrBelow full mid)
    (h' : AtOrBelow mid name) : AtOrBelow full name := by
  rcases h' with rfl | ⟨rest, rfl⟩
  · exact h
  · exact h.below rest

/-- The messages of a forest have names below one of the roots. -/
theorem atOrBelow_of_mem_forest {keep : DescriptorProto → Bool} {scope : String}
    {msgs : List DescriptorProto} {p : String × DescriptorProto}
    (hp : p ∈ forest keep scope msgs) :
    ∃ msg ∈ msgs, AtOrBelow (scope ++ "." ++ msg.name) p.1 :=
  forest_induction
    (motive := fun scope msgs p => ∃ msg ∈ msgs, AtOrBelow (scope ++ "." ++ msg.name) p.1)
    (fun _ _ msg hmsg _ => ⟨msg, hmsg, .inl rfl⟩)
    (fun _ _ msg _ hmsg _ _ ⟨child, _, hchild⟩ =>
      ⟨msg, hmsg, AtOrBelow.trans (.inr ⟨child.name, rfl⟩) hchild⟩)
    scope msgs p hp

/-- The messages of a tree have names at or below that of its root. -/
theorem atOrBelow_of_mem_tree {keep : DescriptorProto → Bool} {scope : String}
    {msg : DescriptorProto} {p : String × DescriptorProto} (hp : p ∈ msg.tree keep scope) :
    AtOrBelow (scope ++ "." ++ msg.name) p.1 := by
  rw [DescriptorProto.tree_eq] at hp
  split at hp
  · rcases List.mem_cons.mp hp with rfl | hp
    · exact .inl rfl
    · obtain ⟨child, -, hchild⟩ := atOrBelow_of_mem_forest hp
      exact AtOrBelow.trans (.inr ⟨child.name, rfl⟩) hchild
  · cases hp

/-- Without its scope a full name is the path of the type. -/
theorem stripped_append (scope rest : String) :
    stripped (scope.length + 1) (scope ++ "." ++ rest) = rest := by
  have hlen : scope.length + 1 = (scope.toList ++ ".".toList).length := by
    simp [String.length]
  rw [stripped, String.toList_append, String.toList_append, hlen, List.drop_left,
    String.ofList_toList]

/-- **The path of a type within its module starts with its container.** -/
theorem head_stripped {scope top name : String} (hdot : '.' ∉ top.toList)
    (h : AtOrBelow (scope ++ "." ++ top) name) :
    (segments (stripped (scope.length + 1) name)).headD "" = top := by
  rcases h with rfl | ⟨rest, rfl⟩
  · rw [stripped_append, segments_of_no_dot hdot]
    rfl
  · rw [String.append_assoc, String.append_assoc, stripped_append, ← String.append_assoc,
      segments_append, segments_of_no_dot hdot]
    rfl

/-- The index has every type of a file, with its container in front of its path. -/
theorem indexed_of_contains (hvalid : WellNamed files) (hfile : file ∈ files)
    {top typeName : String} (h : Contains file top typeName) :
    ∃ info, (typeName, info) ∈ TypeIndex.build files ∧ info.file = file.name ∧
      (segments info.qualified).headD "" = top := by
  have hindex : ∀ {entry}, entry ∈ file.index → entry ∈ TypeIndex.build files :=
    fun hentry => List.mem_flatMap.mpr ⟨file, hfile, hentry⟩
  have hwalk : ∀ {msg p entry}, msg ∈ file.messageType →
      p ∈ msg.tree (fun _ => true) file.scope →
      entry ∈ walkEntries file.name (file.scope.length + 1) p → entry ∈ file.index := by
    intro msg p entry hmsg hp hentry
    refine List.mem_append_right _ ?_
    rw [walkAll_eq, forest_eq]
    exact List.mem_flatMap.mpr ⟨p, List.mem_flatMap.mpr ⟨msg, hmsg, hp⟩, hentry⟩
  cases h with
  | @enum enum henum htop =>
      refine ⟨_, hindex (List.mem_append_left _ (List.mem_map_of_mem henum)), rfl, ?_⟩
      rw [segments_of_no_dot (no_dot_of_isIdentifier (hvalid.enumNames file hfile enum henum))]
      exact htop
  | @message msg p hmsg htop hp =>
      have hdot := no_dot_of_isIdentifier (hvalid.messageNames file hfile msg hmsg)
      refine ⟨_, hindex (hwalk hmsg hp List.mem_cons_self), rfl, ?_⟩
      rw [← htop]
      exact head_stripped hdot (atOrBelow_of_mem_tree hp)
  | @nestedEnum msg p enum hmsg htop hp henum =>
      have hdot := no_dot_of_isIdentifier (hvalid.messageNames file hfile msg hmsg)
      refine ⟨_, hindex (hwalk hmsg hp (List.mem_cons_of_mem _ (List.mem_map_of_mem henum))), rfl,
        ?_⟩
      rw [← htop]
      exact head_stripped hdot ((atOrBelow_of_mem_tree hp).below enum.name)

/-- Whatever the index has is a type of a file of the set. -/
theorem contains_of_indexed {typeName : String} {info : TypeInfo}
    (h : (typeName, info) ∈ TypeIndex.build files) :
    ∃ file ∈ files, file.name = info.file ∧ ∃ top, Contains file top typeName := by
  obtain ⟨file, hfile, h⟩ := List.mem_flatMap.mp h
  rcases List.mem_append.mp h with h | h
  · obtain ⟨enum, henum, heq⟩ := List.mem_map.mp h
    cases heq
    exact ⟨file, hfile, rfl, enum.name, .enum henum rfl⟩
  · rw [walkAll_eq, forest_eq] at h
    obtain ⟨p, hp, h⟩ := List.mem_flatMap.mp h
    obtain ⟨msg, hmsg, hp⟩ := List.mem_flatMap.mp hp
    rcases List.mem_cons.mp h with heq | h
    · cases heq
      exact ⟨file, hfile, rfl, msg.name, .message hmsg rfl hp⟩
    · obtain ⟨enum, henum, heq⟩ := List.mem_map.mp h
      cases heq
      exact ⟨file, hfile, rfl, msg.name, .nestedEnum hmsg rfl hp henum⟩

/-- **What the index finds of a type** is the file that defines it, and the container there. -/
theorem get_iff_contains (hvalid : WellNamed files) {typeName : String} {d : TopLevel} :
    (∃ info, (TypeIndex.build files).get typeName = some info ∧ info.file = d.file ∧
        (segments info.qualified).headD "" = d.name) ↔
      ∃ other ∈ files, other.name = d.file ∧ Contains other d.name typeName := by
  constructor
  · rintro ⟨info, hget, hinfo, htop⟩
    obtain ⟨other, hother, hname, top, hcontains⟩ :=
      contains_of_indexed (TypeIndex.mem_of_get hget)
    obtain ⟨info', hmem, -, htop'⟩ := indexed_of_contains hvalid hother hcontains
    rw [TypeIndex.get_of_mem hvalid.typeNames hmem, Option.some.injEq] at hget
    subst hget
    exact ⟨other, hother, hname.trans hinfo, (htop'.symm.trans htop) ▸ hcontains⟩
  · rintro ⟨other, hother, hname, hcontains⟩
    obtain ⟨info, hmem, hinfo, htop⟩ := indexed_of_contains hvalid hother hcontains
    exact ⟨info, TypeIndex.get_of_mem hvalid.typeNames hmem, hinfo.trans hname, htop⟩

/-! ## The references -/

/-- **The index takes a field for a map** exactly when it is one. -/
theorem mapEntry_eq_some (hvalid : WellNamed files) {p : String × DescriptorProto}
    (hp : p ∈ messagesOf files) {field : FieldDescriptorProto} (hfield : field ∈ p.2.field)
    {entry : DescriptorProto} :
    (TypeIndex.build files).mapEntry field = some entry ↔ MapOf files field entry := by
  rw [TypeIndex.mapEntry_eq_some_iff]
  constructor
  · rintro ⟨-, hmap, typeName, htype, info, hget, hinfo⟩
    obtain ⟨other, hother, hq, -, -⟩ :=
      TypeIndex.message_of_mem_build (TypeIndex.mem_of_get hget) hinfo
    exact ⟨hmap, typeName, htype, List.mem_flatMap.mpr ⟨other, hother, hq⟩⟩
  · rintro ⟨hmap, typeName, htype, hentry⟩
    have hrep := hvalid.entryFields p hp field hfield typeName
      (ProtoType.mem_messageName.mpr htype)
      (List.mem_map.mpr ⟨(typeName, entry), List.mem_filter.mpr ⟨hentry, hmap⟩, rfl⟩)
    obtain ⟨other, hother, hq⟩ := List.mem_flatMap.mp hentry
    have hget := TypeIndex.get_of_mem hvalid.typeNames (TypeIndex.message_mem_build hother hq)
    exact ⟨hrep, hmap, typeName, htype, _, hget, rfl⟩

/-- The value field of a map entry is the one with the number 2. -/
theorem find?_value {entry : DescriptorProto} {kv : FieldDescriptorProto × FieldDescriptorProto}
    (hkv : kv ∈ entry.keyValue) (hpair : IsKeyValue kv.1 kv.2) {value : FieldDescriptorProto} :
    entry.field.find? (fun f => f.number == 2) = some value ↔
      value ∈ entry.field ∧ value.number = 2 := by
  have hfields := keyValue_of_mem hkv
  have hkey : (kv.1.number == 2) = false := by rw [hpair.keyNumber]; rfl
  have hfind : entry.field.find? (fun f => f.number == 2) = some kv.2 := by
    rw [hfields, List.find?_cons, hkey]
    simp [hpair.valueNumber]
  rw [hfind, Option.some.injEq]
  constructor
  · rintro rfl
    exact ⟨by simp [hfields], hpair.valueNumber⟩
  · rintro ⟨hmem, hnumber⟩
    rw [hfields, List.mem_cons, List.mem_singleton] at hmem
    rcases hmem with rfl | rfl
    · simp [hnumber] at hkey
    · rfl

/-- A type name that names a generated class. -/
theorem ProtoType.named_iff {type : ProtoType} {typeName : String} :
    (if type.isNamed then type.typeName else none) = some typeName ↔
      nativeWkt typeName = none ∧ type.typeName = some typeName := by
  unfold ProtoType.isNamed
  cases type.typeName with
  | none => simp
  | some name =>
      by_cases hnative : nativeWkt name = none
      · simp only [hnative, Option.isNone_none, if_true, Option.some.injEq]
        exact ⟨fun h => ⟨h ▸ hnative, h⟩, fun h => h.2⟩
      · have hnone : (nativeWkt name).isNone = false := by
          rwa [Bool.eq_false_iff, Ne, Option.isNone_iff_eq_none]
        simp only [hnone, Bool.false_eq_true, if_false, Option.some.injEq]
        exact ⟨fun h => absurd h (by simp), fun h => absurd (h.2 ▸ h.1) hnative⟩

/-- **What a field contributes to the references** is the type it refers to, unless it is native. -/
theorem reference_iff (hvalid : WellNamed files) {p : String × DescriptorProto}
    (hp : p ∈ messagesOf files) {field : FieldDescriptorProto} (hfield : field ∈ p.2.field)
    {typeName : String} :
    ((mapTarget (TypeIndex.build files) field).bind fun target =>
        if target.type.isNamed then target.type.typeName else none) = some typeName ↔
      nativeWkt typeName = none ∧ FieldRefers files field typeName := by
  rw [Option.bind_eq_some_iff]
  unfold mapTarget
  cases hentry : (TypeIndex.build files).mapEntry field with
  | none =>
      have hplain : ∀ entry, ¬ MapOf files field entry := by
        intro entry hmap
        rw [(mapEntry_eq_some hvalid hp hfield).mpr hmap] at hentry
        cases hentry
      constructor
      · rintro ⟨target, htarget, hnamed⟩
        cases htarget
        obtain ⟨hnative, htype⟩ := ProtoType.named_iff.mp hnamed
        exact ⟨hnative, .direct hplain htype⟩
      · rintro ⟨hnative, hrefers⟩
        cases hrefers with
        | direct _ htype => exact ⟨field, rfl, ProtoType.named_iff.mpr ⟨hnative, htype⟩⟩
        | mapValue hmap => exact absurd hmap (hplain _)
  | some entry =>
      have hmap := (mapEntry_eq_some hvalid hp hfield).mp hentry
      obtain ⟨hkeep, name, htype, hmem⟩ := hmap
      obtain ⟨kv, hkv, hpair⟩ := hvalid.entry _ hmem hkeep
      constructor
      · rintro ⟨target, htarget, hnamed⟩
        obtain ⟨hvalue, hnumber⟩ := (find?_value hkv hpair).mp htarget
        obtain ⟨hnative, hvalueType⟩ := ProtoType.named_iff.mp hnamed
        exact ⟨hnative, .mapValue ⟨hkeep, name, htype, hmem⟩ hvalue hnumber hvalueType⟩
      · rintro ⟨hnative, hrefers⟩
        cases hrefers with
        | direct hplain _ => exact absurd ⟨hkeep, name, htype, hmem⟩ (hplain entry)
        | mapValue hmap' hvalue hnumber hvalueType =>
            have hsame := (mapEntry_eq_some hvalid hp hfield).mpr hmap'
            rw [hentry, Option.some.injEq] at hsame
            subst hsame
            exact ⟨_, (find?_value hkv hpair).mpr ⟨hvalue, hnumber⟩,
              ProtoType.named_iff.mpr ⟨hnative, hvalueType⟩⟩

/-- **`_referenced_type_names` lists the types a file refers to.** -/
theorem mem_referencedTypeNames (hvalid : WellNamed files) (hfile : file ∈ files)
    {typeName : String} :
    typeName ∈ file.referencedTypeNames (TypeIndex.build files) ↔
      Referenced files file typeName := by
  have hmessage : ∀ p ∈ file.allMessages, p ∈ messagesOf files := fun p hp =>
    List.mem_flatMap.mpr ⟨file, hfile, (FileDescriptorProto.mem_messages hp).1⟩
  unfold FileDescriptorProto.referencedTypeNames FileDescriptorProto.userFields
  rw [List.mem_filterMap]
  constructor
  · rintro ⟨field, hfield, href⟩
    obtain ⟨p, hp, hfield⟩ := List.mem_flatMap.mp hfield
    obtain ⟨hnative, hrefers⟩ := (reference_iff hvalid (hmessage p hp) hfield).mp href
    exact ⟨hnative, p, hp, field, hfield, hrefers⟩
  · rintro ⟨hnative, p, hp, field, hfield, hrefers⟩
    exact ⟨field, List.mem_flatMap.mpr ⟨p, hp, hfield⟩,
      (reference_iff hvalid (hmessage p hp) hfield).mpr ⟨hnative, hrefers⟩⟩

/-! ## The table of owners -/

/-- The definition that a reference claims a name for; none within the file itself. -/
def claimed (index : TypeIndex) (file : FileDescriptorProto) (typeName : String) :
    Option TopLevel :=
  (index.get typeName).bind fun info =>
    if info.file = file.name then none else some ⟨info.file, (segments info.qualified).headD ""⟩

/-- How the table writes a definition. -/
def TopLevel.claim (d : TopLevel) : String × String := (d.name, d.file ++ ":" ++ d.name)

/-- How the imports write a definition. -/
def TopLevel.imported (d : TopLevel) : String × String := (d.name, d.file)

/-- **The references claim the containers that the file needs.** -/
theorem exists_claimed_iff (hvalid : WellNamed files) (hfile : file ∈ files) {refs : List String}
    (hrefs : ∀ t, t ∈ refs ↔ t ∈ file.referencedTypeNames (TypeIndex.build files))
    {d : TopLevel} :
    d ∈ refs.filterMap (claimed (TypeIndex.build files) file) ↔ External files file d := by
  have hclaimed : ∀ typeName, claimed (TypeIndex.build files) file typeName = some d ↔
      d.file ≠ file.name ∧
        ∃ other ∈ files, other.name = d.file ∧ Contains other d.name typeName := by
    intro typeName
    rw [← get_iff_contains hvalid, claimed, Option.bind_eq_some_iff]
    constructor
    · rintro ⟨info, hget, hsome⟩
      split at hsome
      · cases hsome
      · rename_i hne
        cases hsome
        exact ⟨hne, info, hget, rfl, rfl⟩
    · rintro ⟨hne, info, hget, hinfo, htop⟩
      refine ⟨info, hget, ?_⟩
      rw [if_neg (hinfo ▸ hne), hinfo, htop]
  rw [List.mem_filterMap]
  constructor
  · rintro ⟨typeName, href, hsome⟩
    obtain ⟨hne, other, hother, hname, hcontains⟩ := (hclaimed typeName).mp hsome
    have hreferenced := (mem_referencedTypeNames hvalid hfile).mp ((hrefs typeName).mp href)
    exact ⟨other, hother, hname, hname ▸ hne, typeName, hreferenced, hcontains⟩
  · rintro ⟨other, hother, hname, hne, typeName, hreferenced, hcontains⟩
    have href := (hrefs typeName).mpr ((mem_referencedTypeNames hvalid hfile).mpr hreferenced)
    exact ⟨typeName, href,
      (hclaimed typeName).mpr ⟨hname ▸ hne, other, hother, hname, hcontains⟩⟩

/-- The definitions claims are made for agree when no two of them share a name. -/
theorem concordant_claims_iff {ds : List TopLevel} : Concordant (ds.map TopLevel.claim) ↔
    ∀ d ∈ ds, ∀ d' ∈ ds, d.name = d'.name → d = d' := by
  constructor
  · intro h d hd d' hd' hname
    have howner := h _ (List.mem_map_of_mem hd) _ (List.mem_map_of_mem hd') hname
    obtain ⟨file, name⟩ := d
    obtain ⟨file', name'⟩ := d'
    dsimp only at hname
    subst hname
    rw [TopLevel.claim, TopLevel.claim, String.append_assoc, String.append_assoc,
      String.append_left_inj] at howner
    exact congrArg (TopLevel.mk · name) howner
  · intro h c hc c' hc' hname
    obtain ⟨d, hd, rfl⟩ := List.mem_map.mp hc
    obtain ⟨d', hd', rfl⟩ := List.mem_map.mp hc'
    rw [h d hd d' hd' hname]

/-- The table starts with the claims of the file's own types. -/
theorem initial_owner (file : FileDescriptorProto) : (ImportState.initial file).owner
    = (file.topLevelNames.map fun name => (⟨file.name, name⟩ : TopLevel)).map TopLevel.claim := by
  rw [List.map_map]
  rfl

/-- The claims of the file's own types are recorded. -/
theorem records_initial (file : FileDescriptorProto) :
    Records (ImportState.initial file).owner (ImportState.initial file).owner := by
  refine Concordant.records ?_
  rw [initial_owner, concordant_claims_iff]
  intro d hd d' hd' hname
  obtain ⟨name, -, rfl⟩ := List.mem_map.mp hd
  obtain ⟨name', -, rfl⟩ := List.mem_map.mp hd'
  rw [TopLevel.mk.injEq]
  exact ⟨rfl, hname⟩

section Run

variable {index : TypeIndex}

/-- A reference that claims nothing changes nothing. -/
theorem consider_of_none {st : ImportState} {typeName : String}
    (h : claimed index file typeName = none) :
    ImportState.consider index file st typeName = .ok st := by
  unfold claimed at h
  unfold ImportState.consider
  cases hget : index.get typeName with
  | none => rfl
  | some info =>
      rw [hget, Option.bind_some] at h
      split at h
      · rename_i hown
        dsimp only
        rw [if_pos hown]
      · cases h

/-- **A reference that claims a name** is refused when the table refuses it; otherwise the name is
imported. -/
theorem consider_of_some {st : ImportState} {typeName : String} {d : TopLevel}
    (h : claimed index file typeName = some d) :
    (∃ e, ImportState.consider index file st typeName = .error e) ∧ claim st.owner d.claim = none ∨
    ∃ owner, claim st.owner d.claim = some owner ∧
      ImportState.consider index file st typeName
        = .ok { owner := owner, imported := st.imported.insert d.imported } := by
  obtain ⟨info, hget, hsome⟩ := Option.bind_eq_some_iff.mp h
  split at hsome
  · cases hsome
  · rename_i hown
    cases hsome
    unfold ImportState.consider claim
    rw [hget]
    dsimp only [TopLevel.claim, TopLevel.imported]
    rw [if_neg hown]
    split
    · rename_i hheld
      exact .inl ⟨⟨_, rfl⟩, if_pos hheld⟩
    · rename_i hheld
      exact .inr ⟨_, if_neg hheld, rfl⟩

/-- **A run of references is a run of claims** on the table, and imports what is claimed. -/
theorem foldlM_consider (refs : List String) (st : ImportState) :
    (∀ e, refs.foldlM (ImportState.consider index file) st = .error e →
      ((refs.filterMap (claimed index file)).map TopLevel.claim).foldlM claim st.owner = none) ∧
    ∀ st', refs.foldlM (ImportState.consider index file) st = .ok st' →
      ((refs.filterMap (claimed index file)).map TopLevel.claim).foldlM claim st.owner
          = some st'.owner ∧
        ∀ q, q ∈ st'.imported ↔
          q ∈ st.imported ∨ q ∈ (refs.filterMap (claimed index file)).map TopLevel.imported := by
  induction refs generalizing st with
  | nil =>
      refine ⟨fun _ herr => absurd herr (by simp), fun st' hok => ?_⟩
      cases hok
      exact ⟨rfl, fun q => by simp⟩
  | cons typeName refs ih =>
      rw [List.foldlM_cons]
      cases hclaimed : claimed index file typeName with
      | none =>
          rw [consider_of_none hclaimed, ok_bind, List.filterMap_cons_none hclaimed]
          exact ih st
      | some d =>
          rw [List.filterMap_cons_some hclaimed, List.map_cons, List.foldlM_cons, List.map_cons]
          rcases @consider_of_some _ _ st _ _ hclaimed with ⟨⟨e, herr⟩, hnone⟩ |
            ⟨owner, hsome, hok⟩
          · rw [herr, hnone]
            exact ⟨fun _ _ => rfl, fun _ hok => nomatch hok⟩
          · rw [hok, hsome, ok_bind]
            obtain ⟨herr, hrun⟩ := ih { owner, imported := st.imported.insert d.imported }
            refine ⟨herr, fun st' hst' => ⟨(hrun st' hst').1, fun q => ?_⟩⟩
            rw [(hrun st' hst').2 q, List.mem_insert_iff, List.mem_cons]
            tauto

end Run

/-! ## The statements -/

/-- The names that statements bind, with what they are imported from. -/
def boundNames (statements : List ImportStatement) : List (ImportSource × String) :=
  statements.flatMap fun statement => statement.names.map fun name => (statement.source, name)

/-- A sorted set has the names it was made of. -/
theorem mem_sortedSet {names : List String} {name : String} :
    name ∈ sortedSet names ↔ name ∈ names := by
  rw [sortedSet, List.mem_insertionSort, List.mem_dedup]

/-- A sorted set has every name once. -/
theorem nodup_sortedSet (names : List String) : (sortedSet names).Nodup :=
  (List.perm_insertionSort _ _).nodup_iff.mpr (List.nodup_dedup names)

/-- The names imported from a source are those of the files that are imported from it. -/
theorem mem_namesFrom {imported : List (String × String)} {source : ImportSource} {name : String} :
    name ∈ namesFrom imported source ↔
      ∃ protoName, (name, protoName) ∈ imported ∧ importSource protoName = source := by
  rw [namesFrom, mem_sortedSet, List.mem_map]
  constructor
  · rintro ⟨q, hq, rfl⟩
    obtain ⟨hq, hsource⟩ := List.mem_filter.mp hq
    exact ⟨q.2, hq, by simpa using hsource⟩
  · rintro ⟨protoName, hq, hsource⟩
    exact ⟨(name, protoName), List.mem_filter.mpr ⟨hq, by simpa using hsource⟩, rfl⟩

/-- **The statements bind the collected names**, each from the source of its file. -/
theorem mem_boundNames {imported : List (String × String)} {source : ImportSource}
    {name : String} :
    (source, name) ∈ boundNames (importStatements imported) ↔
      ∃ protoName, (name, protoName) ∈ imported ∧ importSource protoName = source := by
  rw [← mem_namesFrom, boundNames, List.mem_flatMap]
  constructor
  · rintro ⟨statement, hstatement, hname⟩
    have hnames : statement.names = namesFrom imported statement.source := by
      rcases List.mem_append.mp hstatement with hwellknown | hmodule
      · split at hwellknown
        · cases hwellknown
        · rw [List.mem_singleton.mp hwellknown]
      · obtain ⟨module, -, rfl⟩ := List.mem_map.mp hmodule
        rfl
    obtain ⟨name', hname, heq⟩ := List.mem_map.mp hname
    cases heq
    rwa [← hnames]
  · intro hname
    refine ⟨⟨source, namesFrom imported source⟩, ?_, List.mem_map.mpr ⟨name, hname, rfl⟩⟩
    cases source with
    | wellknown =>
        refine List.mem_append_left _ ?_
        rw [if_neg (by simpa using List.ne_nil_of_mem hname)]
        exact List.mem_singleton_self _
    | generated module =>
        obtain ⟨protoName, hq, hsource⟩ := mem_namesFrom.mp hname
        refine List.mem_append_right _ (List.mem_map.mpr ⟨module, ?_, rfl⟩)
        exact mem_sortedSet.mpr (List.mem_filterMap.mpr ⟨_, hq, by rw [hsource]⟩)

/-- Every source has one statement. -/
theorem nodup_sources (imported : List (String × String)) :
    ((importStatements imported).map (·.source)).Nodup := by
  have hmodules : ((importedModules imported).map ImportSource.generated).Nodup :=
    (nodup_sortedSet _).map fun module module' h => ImportSource.generated.inj h
  unfold importStatements
  rw [List.map_append, List.map_map, List.nodup_append]
  refine ⟨by split <;> simp, hmodules, ?_⟩
  intro source hwellknown source' hmodule hsame
  obtain ⟨module, -, rfl⟩ := List.mem_map.mp hmodule
  subst hsame
  split at hwellknown
  · cases hwellknown
  · simp at hwellknown

/-- **No name is bound twice** when no name is collected for two files. -/
theorem nodup_boundNames {imported : List (String × String)}
    (hsingle : ∀ name protoName protoName', (name, protoName) ∈ imported →
      (name, protoName') ∈ imported → protoName = protoName') :
    ((boundNames (importStatements imported)).map Prod.snd).Nodup := by
  have hpairs : (boundNames (importStatements imported)).Nodup := by
    rw [boundNames, List.nodup_flatMap]
    constructor
    · intro statement hstatement
      have hnames : statement.names.Nodup := by
        rcases List.mem_append.mp hstatement with hwellknown | hmodule
        · split at hwellknown
          · cases hwellknown
          · rw [List.mem_singleton.mp hwellknown]
            exact nodup_sortedSet _
        · obtain ⟨module, -, rfl⟩ := List.mem_map.mp hmodule
          exact nodup_sortedSet _
      exact hnames.map fun name name' h => (Prod.mk.inj h).2
    · refine (List.pairwise_map.mp (nodup_sources imported)).imp ?_
      intro statement statement' hne p hp hp'
      obtain ⟨name, -, rfl⟩ := List.mem_map.mp hp
      obtain ⟨name', -, heq⟩ := List.mem_map.mp hp'
      exact hne (Prod.mk.inj heq).1.symm
  refine hpairs.map_on ?_
  rintro ⟨source, name⟩ hp ⟨source', name'⟩ hp' hname
  dsimp only at hname
  subst hname
  obtain ⟨protoName, hq, hsource⟩ := mem_boundNames.mp hp
  obtain ⟨protoName', hq', hsource'⟩ := mem_boundNames.mp hp'
  rw [← hsource, ← hsource', hsingle _ _ _ hq hq']

/-! ## Unambiguous imports -/

/-- Two definitions that a module would refer to by one name. -/
def Collides (files : List FileDescriptorProto) (file : FileDescriptorProto) : Prop :=
  ∃ d d', Visible files file d ∧ Visible files file d' ∧ d ≠ d' ∧ d.name = d'.name

/-- The claims of a file agree unless two visible definitions collide. -/
theorem concordant_iff_not_collides (hvalid : WellNamed files) (hfile : file ∈ files)
    {refs : List String}
    (hrefs : ∀ t, t ∈ refs ↔ t ∈ file.referencedTypeNames (TypeIndex.build files)) :
    Concordant ((ImportState.initial file).owner
        ++ (refs.filterMap (claimed (TypeIndex.build files) file)).map TopLevel.claim) ↔
      ¬ Collides files file := by
  have hvisible : ∀ d, d ∈ file.topLevelNames.map (fun name => (⟨file.name, name⟩ : TopLevel))
      ++ refs.filterMap (claimed (TypeIndex.build files) file) ↔ Visible files file d := by
    intro d
    rw [List.mem_append, exists_claimed_iff hvalid hfile hrefs, List.mem_map, Visible]
    refine or_congr_left ⟨?_, ?_⟩
    · rintro ⟨name, hname, rfl⟩
      exact ⟨rfl, hname⟩
    · rintro ⟨hname, hmem⟩
      exact ⟨d.name, hmem, by rw [← hname]⟩
  rw [initial_owner, ← List.map_append, concordant_claims_iff]
  constructor
  · rintro h ⟨d, d', hd, hd', hne, hname⟩
    exact hne (h d ((hvisible d).mpr hd) d' ((hvisible d').mpr hd') hname)
  · intro h d hd d' hd' hname
    by_contra hne
    exact h ⟨d, d', (hvisible d).mp hd, (hvisible d').mp hd', hne, hname⟩

/-- **A file is refused exactly when two visible definitions collide**, in whatever order and
however often its references come. -/
theorem consider_error_iff (hvalid : WellNamed files) (hfile : file ∈ files) {refs : List String}
    (hrefs : ∀ t, t ∈ refs ↔ t ∈ file.referencedTypeNames (TypeIndex.build files)) :
    (∃ e, refs.foldlM (ImportState.consider (TypeIndex.build files) file)
        (ImportState.initial file) = .error e) ↔ Collides files file := by
  obtain ⟨hrefused, hrun⟩ := @foldlM_consider file (TypeIndex.build files) refs
    (ImportState.initial file)
  have hclaims := (foldlM_claim (records_initial file)
    ((refs.filterMap (claimed (TypeIndex.build files) file)).map TopLevel.claim)).1
  rw [concordant_iff_not_collides hvalid hfile hrefs, not_not] at hclaims
  rw [← hclaims]
  constructor
  · rintro ⟨e, herr⟩
    exact hrefused e herr
  · intro hnone
    cases hfold : refs.foldlM (ImportState.consider (TypeIndex.build files) file)
        (ImportState.initial file) with
    | error e => exact ⟨e, rfl⟩
    | ok st' =>
        rw [(hrun st' hfold).1] at hnone
        cases hnone

/-- **What is imported is what the file needs** from other files. -/
theorem mem_externalImports (hvalid : WellNamed files) (hfile : file ∈ files)
    {imported : List (String × String)}
    (h : file.externalImports (TypeIndex.build files) = .ok imported) {name protoName : String} :
    (name, protoName) ∈ imported ↔ External files file ⟨protoName, name⟩ := by
  obtain ⟨st', hfold, hst'⟩ := bind_eq_ok.mp h
  cases hst'
  have hmem := ((foldlM_consider _ (ImportState.initial file)).2 st' hfold).2 (name, protoName)
  rw [hmem, ← exists_claimed_iff hvalid hfile (fun _ => Iff.rfl), List.mem_map]
  constructor
  · rintro (hinitial | ⟨d, hd, heq⟩)
    · cases hinitial
    · cases heq
      exact hd
  · exact fun hd => .inr ⟨_, hd, rfl⟩

/-- A file with `message User { map<string, pa.Shared.Kind> kinds = 1; }`, where a message nested in
`User` refers to `pa.Shared.Inner` and to a message of the package `pb`. -/
def userFile (other : String) : FileDescriptorProto where
  name := "user.proto"
  package := "user"
  messageType := [
    { name := "User"
      field := [
        { name := "kinds", number := 1, repeated := true
          type := .message ".user.User.KindsEntry" }]
      nestedType := [
        { name := "KindsEntry"
          field := [{ name := "key", number := 1, type := .scalar .string },
            { name := "value", number := 2, type := .enum ".pa.Shared.Kind" }]
          options := some { mapEntry := true } },
        { name := "Deep"
          field := [
            { name := "inner", number := 1, repeated := true, type := .message ".pa.Shared.Inner" },
            { name := "other", number := 2, type := .message (".pb." ++ other) }] }] }]

/-- The file with the two files it imports. -/
def userFiles (other : String) : List FileDescriptorProto :=
  [{ name := "a.proto"
     package := "pa"
     messageType := [
      { name := "Shared"
        nestedType := [{ name := "Inner" }]
        enumType := [{ name := "Kind", value := [{ name := "NONE", number := 0 }] }] }] },
   { name := "b.proto", package := "pb", messageType := [{ name := other }] },
   userFile other]

end FastProto
