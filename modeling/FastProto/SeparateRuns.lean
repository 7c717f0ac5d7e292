import FastProto.Plugin
import FastProto.GeneratedReads

/-! # Separate runs

A build calls `protoc` on some files at a time, and every call brings the files it needs. What is
generated for a file looks up nothing but the types that the file defines and those its fields name.
So the module of a file is the same in every run (`generated_independent`), and runs on parts of the
files give what one run on all of them gives (`generate_split`). -/

namespace FastProto

open Lib

/-! ## What is looked up -/

section Alike

variable {index index' : TypeIndex} {type : ProtoType} {field : FieldDescriptorProto}

/-- Two indexes that look a type up alike. -/
def LooksUpAlike (index index' : TypeIndex) (type : ProtoType) : Prop :=
  ∀ typeName, type.typeName = some typeName → index.get typeName = index'.get typeName

/-- Two indexes that are alike for a field: for its type, and for those of a map. -/
structure FieldAlike (index index' : TypeIndex) (field : FieldDescriptorProto) : Prop where
  type : LooksUpAlike index index' field.type
  entry : ∀ entry, index.mapEntry field = some entry →
    ∀ inner ∈ entry.field, LooksUpAlike index index' inner.type

/-- Paths of types looked up alike are the same. -/
theorem LooksUpAlike.qualified (h : LooksUpAlike index index' type) {typeName : String}
    (htype : type.typeName = some typeName) :
    index.qualified typeName = index'.qualified typeName := by
  unfold TypeIndex.qualified
  rw [h typeName htype]

/-- What a field is annotated with is the same. -/
theorem LooksUpAlike.elementAnnot (h : LooksUpAlike index index' type) :
    elementAnnot index type = elementAnnot index' type := by
  cases type with
  | scalar s => rfl
  | message typeName | enum typeName =>
      unfold FastProto.elementAnnot
      dsimp only
      rw [h.qualified rfl]

/-- Map entries are found alike. -/
theorem FieldAlike.mapEntry (h : FieldAlike index index' field) :
    index.mapEntry field = index'.mapEntry field := by
  unfold TypeIndex.mapEntry
  cases htype : field.type with
  | scalar s => rfl
  | enum typeName => rfl
  | message typeName =>
      have hget := h.type typeName (by rw [htype]; rfl)
      dsimp only
      rw [hget]

/-- Targets of maps are found alike, and looked up alike. -/
theorem FieldAlike.mapTarget (h : FieldAlike index index' field) :
    mapTarget index field = mapTarget index' field ∧
      ∀ target, mapTarget index field = some target → LooksUpAlike index index' target.type := by
  unfold FastProto.mapTarget
  rw [← h.mapEntry]
  cases hentry : index.mapEntry field with
  | none =>
      refine ⟨rfl, fun target htarget => ?_⟩
      cases htarget
      exact h.type
  | some entry =>
      exact ⟨rfl, fun target htarget =>
        h.entry entry hentry target (List.mem_of_find?_eq_some htarget)⟩

/-- The lines of a field that is not repeated are the same. -/
theorem FieldAlike.renderSingularField (h : FieldAlike index index' field) :
    renderSingularField index field = renderSingularField index' field := by
  unfold FastProto.renderSingularField renderEnumField
  cases htype : field.type with
  | scalar s => rfl
  | message typeName | enum typeName =>
      have hqualified := @LooksUpAlike.qualified _ _ _ h.type typeName (by rw [htype]; rfl)
      dsimp only
      rw [hqualified]

/-- **The line of a field** is the same. -/
theorem FieldAlike.renderField (h : FieldAlike index index' field) :
    renderField index field = renderField index' field := by
  unfold FastProto.renderField
  rw [← h.mapEntry]
  cases hentry : index.mapEntry field with
  | none =>
      dsimp only
      rw [h.type.elementAnnot, h.renderSingularField]
  | some entry =>
      dsimp only
      cases hkey : entry.field.find? fun f => f.number == 1 with
      | none => rfl
      | some key =>
          cases hvalue : entry.field.find? fun f => f.number == 2 with
          | none => rfl
          | some value =>
              have hkeyAlike := h.entry entry hentry key (List.mem_of_find?_eq_some hkey)
              have hvalueAlike := h.entry entry hentry value (List.mem_of_find?_eq_some hvalue)
              simp only [Option.bind_eq_bind, Option.bind_some, hkeyAlike.elementAnnot,
                hvalueAlike.elementAnnot]

end Alike

/-! ## Rendering a file -/

section Render

variable {index index' : TypeIndex} {file : FileDescriptorProto}

/-- Two indexes that are alike for a message. -/
structure MessageAlike (index index' : TypeIndex) (p : String × DescriptorProto) : Prop where
  name : index.get p.1 = index'.get p.1
  fields : ∀ field ∈ p.2.field, FieldAlike index index' field

/-- The path of a message is the same. -/
theorem MessageAlike.qualified {p : String × DescriptorProto} (h : MessageAlike index index' p) :
    index.qualified p.1 = index'.qualified p.1 := by
  unfold TypeIndex.qualified
  rw [h.name]

/-- The lines of fields are the same. -/
theorem fieldStmts_alike {fields : List FieldDescriptorProto}
    (h : ∀ field ∈ fields, FieldAlike index index' field) :
    fieldStmts index fields = fieldStmts index' fields :=
  List.filterMap_congr fun field hfield => by rw [(h field hfield).renderField]

mutual

/-- **The class of a message** is the same, with all that is nested in it. -/
theorem renderClass_alike (scope : String) : ∀ msg : DescriptorProto,
    (∀ p ∈ msg.tree (fun _ => true) scope, MessageAlike index index' p) →
      msg.renderClass index scope = msg.renderClass index' scope
  | ⟨name, field, nestedType, enumType, options, oneofDecl, others⟩, h => by
      rw [DescriptorProto.tree, if_pos rfl, List.forall_mem_cons] at h
      have hqualified : index.qualified (scope ++ "." ++ name)
          = index'.qualified (scope ++ "." ++ name) := h.1.qualified
      rw [DescriptorProto.renderClass, DescriptorProto.renderClass, hqualified,
        renderClasses_alike (scope ++ "." ++ name) nestedType h.2, fieldStmts_alike h.1.fields]

/-- The classes of messages are the same. -/
theorem renderClasses_alike (scope : String) : ∀ msgs : List DescriptorProto,
    (∀ p ∈ forest (fun _ => true) scope msgs, MessageAlike index index' p) →
      renderClasses index scope msgs = renderClasses index' scope msgs
  | [], _ => rfl
  | msg :: rest, h => by
      rw [forest, List.forall_mem_append] at h
      rw [renderClasses, renderClasses, renderClass_alike scope msg h.1,
        renderClasses_alike scope rest h.2]

end

/-- The constants of a message are the same. -/
theorem collectConstants_alike {scope : String} {msg : DescriptorProto}
    (h : ∀ p ∈ msg.tree (fun _ => true) scope, MessageAlike index index' p) :
    collectConstants index scope msg = collectConstants index' scope msg :=
  List.map_congr_left fun p hp => by
    rw [(h p ((tree_sublist (fun _ _ => rfl) scope msg).subset hp)).qualified]

/-- Two indexes that are alike for a file. -/
abbrev FileAlike (index index' : TypeIndex) (file : FileDescriptorProto) : Prop :=
  ∀ p ∈ file.messages, MessageAlike index index' p

/-- **The statements of a module** are the same. -/
theorem blocks_alike (h : FileAlike index index' file) : file.blocks index = file.blocks index' := by
  unfold FileDescriptorProto.blocks FileDescriptorProto.renderMessage
  congr 1
  refine List.flatMap_congr fun msg hmsg => ?_
  have htree : ∀ p ∈ msg.tree (fun _ => true) file.scope, MessageAlike index index' p := by
    intro p hp
    refine h p ?_
    rw [FileDescriptorProto.messages, forest_eq]
    exact List.mem_flatMap.mpr ⟨msg, List.mem_of_mem_filter hmsg, hp⟩
  rw [collectConstants_alike htree, renderClass_alike file.scope msg htree]

/-- Indexes are alike for the fields of a file. -/
theorem FileAlike.userField (h : FileAlike index index' file) {field : FieldDescriptorProto}
    (hfield : field ∈ file.userFields) : FieldAlike index index' field := by
  obtain ⟨p, hp, hfield⟩ := List.mem_flatMap.mp hfield
  exact (h p (FileDescriptorProto.mem_messages hp).1).fields field hfield

/-- **The names imported from the runtime** are the same. -/
theorem runtimeNames_alike (h : FileAlike index index' file) :
    file.runtimeNames index = file.runtimeNames index' := by
  have hneeds : file.needsField index = file.needsField index' := by
    unfold FileDescriptorProto.needsField
    rw [Bool.eq_iff_iff, List.any_eq_true, List.any_eq_true]
    refine exists_congr fun field => and_congr_right fun hfield => ?_
    cases htype : field.type with
    | scalar s => rfl
    | message typeName => rfl
    | enum typeName =>
        have hqualified := @LooksUpAlike.qualified _ _ _ (h.userField hfield).type typeName
          (by rw [htype]; rfl)
        dsimp only
        rw [hqualified]
  have hscalar : file.usesScalar index = file.usesScalar index' := by
    unfold FileDescriptorProto.usesScalar
    rw [Bool.eq_iff_iff, List.any_eq_true, List.any_eq_true]
    exact exists_congr fun field => and_congr_right fun hfield => by rw [(h.userField hfield).mapEntry]
  have hnative : file.nativeNames index = file.nativeNames index' := by
    have hnatives : file.userFields.filterMap (fun f => (mapTarget index f).bind fun target =>
        target.type.typeName.bind nativeWkt) = file.userFields.filterMap fun f =>
          (mapTarget index' f).bind fun target => target.type.typeName.bind nativeWkt :=
      List.filterMap_congr fun field hfield => by rw [(h.userField hfield).mapTarget.1]
    unfold FileDescriptorProto.nativeNames
    rw [hnatives]
  unfold FileDescriptorProto.runtimeNames
  rw [hneeds, hscalar, hnative]

/-- The references of a file are the same, and looked up alike. -/
theorem referencedTypeNames_alike (h : FileAlike index index' file) :
    file.referencedTypeNames index = file.referencedTypeNames index' ∧
      ∀ typeName ∈ file.referencedTypeNames index, index.get typeName = index'.get typeName := by
  constructor
  · exact List.filterMap_congr fun field hfield => by rw [(h.userField hfield).mapTarget.1]
  · intro typeName hname
    obtain ⟨field, hfield, hname⟩ := List.mem_filterMap.mp hname
    obtain ⟨target, htarget, hname⟩ := Option.bind_eq_some_iff.mp hname
    split at hname
    · exact (h.userField hfield).mapTarget.2 target htarget typeName hname
    · cases hname

/-- Collecting imports goes alike. -/
theorem foldlM_consider_alike : ∀ {names : List String} (st : ImportState),
    (∀ typeName ∈ names, index.get typeName = index'.get typeName) →
      names.foldlM (ImportState.consider index file) st
        = names.foldlM (ImportState.consider index' file) st
  | [], _, _ => rfl
  | typeName :: rest, st, h => by
      obtain ⟨hhead, hrest⟩ := List.forall_mem_cons.mp h
      have hstep : ImportState.consider index file st typeName
          = ImportState.consider index' file st typeName := by
        unfold ImportState.consider
        rw [hhead]
      rw [List.foldlM_cons, List.foldlM_cons, hstep]
      exact bind_congr fun st' => foldlM_consider_alike st' hrest

/-- **A module is the same** for indexes that are alike for its file. -/
theorem generated_alike (h : FileAlike index index' file) :
    file.generated index = file.generated index' := by
  obtain ⟨hnames, hget⟩ := referencedTypeNames_alike h
  have himports : file.externalStatements index = file.externalStatements index' := by
    unfold FileDescriptorProto.externalStatements FileDescriptorProto.externalImports
    rw [foldlM_consider_alike _ hget, hnames]
  unfold FileDescriptorProto.generated FileDescriptorProto.render
  rw [himports, runtimeNames_alike h, blocks_alike h]

end Render

/-! ## Sets of files -/

section Files

variable {files all : List FileDescriptorProto} {file : FileDescriptorProto}

/-- A type that a field refers to is indexed. -/
theorem mem_build_of_reference (hvalid : ProtocValid files) {p : String × DescriptorProto}
    (hp : p ∈ messagesOf files) {field : FieldDescriptorProto} (hfield : field ∈ p.2.field)
    {typeName : String} (htype : field.type.typeName = some typeName) :
    typeName ∈ (TypeIndex.build files).map Prod.fst := by
  cases hkind : field.type with
  | scalar s =>
      rw [hkind] at htype
      cases htype
  | message name =>
      rw [hkind] at htype
      cases htype
      obtain ⟨q, hq, rfl⟩ := List.mem_map.mp ((hvalid.messages p hp).messageRefs field hfield _
        (ProtoType.mem_messageName.mpr hkind))
      obtain ⟨other, hother, hq⟩ := List.mem_flatMap.mp hq
      exact List.mem_map_of_mem (TypeIndex.message_mem_build hother hq)
  | enum name =>
      rw [hkind] at htype
      cases htype
      obtain ⟨e, he, rfl⟩ := List.mem_map.mp ((hvalid.messages p hp).enumRefs field hfield _
        (ProtoType.mem_enumName.mpr hkind))
      obtain ⟨other, hother, he⟩ := List.mem_flatMap.mp he
      obtain ⟨info, hinfo, -⟩ := enum_mem_build hother he
      exact List.mem_map_of_mem hinfo

/-- **A valid set of files looks its types up** as every valid set does that has these files. -/
theorem fileAlike_of_subset (hvalid : ProtocValid files) (hall : ProtocValid all)
    (hsub : ∀ file ∈ files, file ∈ all) (hfile : file ∈ files) :
    FileAlike (TypeIndex.build files) (TypeIndex.build all) file := by
  have hget : ∀ typeName ∈ (TypeIndex.build files).map Prod.fst,
      (TypeIndex.build files).get typeName = (TypeIndex.build all).get typeName := by
    intro typeName hname
    obtain ⟨⟨typeName, info⟩, hinfo, rfl⟩ := List.mem_map.mp hname
    have hinfo' : (typeName, info) ∈ TypeIndex.build all := by
      obtain ⟨definer, hdefiner, hinfo⟩ := List.mem_flatMap.mp hinfo
      exact List.mem_flatMap.mpr ⟨definer, hsub definer hdefiner, hinfo⟩
    rw [TypeIndex.get_of_mem hvalid.typeNames hinfo, TypeIndex.get_of_mem hall.typeNames hinfo']
  have hlookup : ∀ p ∈ messagesOf files, ∀ field ∈ p.2.field,
      LooksUpAlike (TypeIndex.build files) (TypeIndex.build all) field.type :=
    fun p hp field hfield typeName htype =>
      hget typeName (mem_build_of_reference hvalid hp hfield htype)
  intro p hp
  have hmem : p ∈ messagesOf files := List.mem_flatMap.mpr ⟨file, hfile, hp⟩
  refine ⟨hget p.1 (List.mem_map_of_mem (TypeIndex.message_mem_build hfile hp)),
    fun field hfield => ⟨hlookup p hmem field hfield, fun entry hentry => ?_⟩⟩
  -- a map entry is a message of the set
  obtain ⟨-, -, typeName, -, info, hinfo, hmessage⟩ := TypeIndex.mapEntry_eq_some_iff.mp hentry
  obtain ⟨definer, hdefiner, hdefined, -⟩ :=
    TypeIndex.message_of_mem_build (TypeIndex.mem_of_get hinfo) hmessage
  exact hlookup (typeName, entry) (List.mem_flatMap.mpr ⟨definer, hdefiner, hdefined⟩)

/-- **What is generated for a file** does not depend on the files around it. -/
theorem generated_independent (hvalid : ProtocValid files) (hall : ProtocValid all)
    (hsub : ∀ file ∈ files, file ∈ all) (hfile : file ∈ files) :
    file.generated (TypeIndex.build files) = file.generated (TypeIndex.build all) :=
  generated_alike (fileAlike_of_subset hvalid hall hsub hfile)

end Files

/-! ## Runs one after the other -/

namespace CodeGeneratorResponse

/-- A response with more files in front. -/
def prepend (before : List OutputFile) (response : CodeGeneratorResponse) : CodeGeneratorResponse :=
  { response with file := before ++ response.file }

/-- What runs give together: all outputs up to the first error. -/
def joined : List CodeGeneratorResponse → CodeGeneratorResponse
  | [] => {}
  | response :: rest =>
      if response.error.isSome then response else (joined rest).prepend response.file

end CodeGeneratorResponse

namespace CodeGeneratorRequest

variable {request : CodeGeneratorRequest}

/-- The loop adds to the outputs so far. -/
theorem generateLoop_from (names : List String) : ∀ before : List OutputFile,
    request.generateLoop names { file := before }
      = (request.generateLoop names {}).map (·.prepend before) := by
  induction names with
  | nil =>
      intro before
      simp [generateLoop, CodeGeneratorResponse.prepend, Except.map]
  | cons protoName rest ih =>
      intro before
      rw [generateLoop, generateLoop]
      cases request.filesByName.lookup protoName with
      | none => rfl
      | some file =>
          dsimp only
          cases file.generated request.index with
          | error msg => simp [CodeGeneratorResponse.prepend, Except.map]
          | ok content =>
              dsimp only
              rw [ih, ih ([] ++ _)]
              cases request.generateLoop rest {} with
              | error e => rfl
              | ok response => simp [CodeGeneratorResponse.prepend, Except.map]

/-- **The loop over two lists**: the second one is reached without an error. -/
theorem generateLoop_append (names names' : List String) :
    request.generateLoop (names ++ names') {}
      = (request.generateLoop names {}).bind fun response =>
          if response.error.isSome then .ok response
          else (request.generateLoop names' {}).map (·.prepend response.file) := by
  induction names with
  | nil =>
      rw [List.nil_append, generateLoop]
      cases request.generateLoop names' {} <;> rfl
  | cons protoName rest ih =>
      rw [List.cons_append, generateLoop, generateLoop]
      cases request.filesByName.lookup protoName with
      | none => rfl
      | some file =>
          dsimp only
          cases file.generated request.index with
          | error msg => rfl
          | ok content =>
              dsimp only
              rw [generateLoop_from, generateLoop_from rest, ih]
              cases request.generateLoop rest {} with
              | error e => rfl
              | ok response =>
                  simp only [Except.map, Except.bind, CodeGeneratorResponse.prepend]
                  by_cases herror : response.error.isSome
                  · rw [if_pos herror, if_pos herror]
                  · rw [if_neg herror, if_neg herror]
                    cases request.generateLoop names' {} <;> simp

variable {all : List FileDescriptorProto}

/-- **A run on some files** goes as one among all files. -/
theorem generateLoop_all (hvalid : request.Valid) (hall : ProtocValid all)
    (hsub : ∀ file ∈ request.protoFile, file ∈ all) (requested : List String) {names : List String}
    (hnames : ∀ protoName ∈ names, ∃ file ∈ request.protoFile, file.name = protoName) :
    ∀ start, request.generateLoop names start
      = (⟨requested, all⟩ : CodeGeneratorRequest).generateLoop names start := by
  induction names with
  | nil => exact fun _ => rfl
  | cons protoName rest ih =>
      intro start
      obtain ⟨⟨file, hfile, rfl⟩, hrest⟩ := List.forall_mem_cons.mp hnames
      have hgenerated : file.generated request.index
          = file.generated (⟨requested, all⟩ : CodeGeneratorRequest).index :=
        generated_independent hvalid.files hall hsub hfile
      have hwhole : (⟨[], all⟩ : CodeGeneratorRequest).Valid := ⟨hall, nofun⟩
      have hlookup : (⟨requested, all⟩ : CodeGeneratorRequest).filesByName.lookup file.name
          = some file := lookup_filesByName hwhole (hsub file hfile)
      rw [generateLoop, generateLoop, lookup_filesByName hvalid hfile, hlookup]
      dsimp only
      rw [hgenerated]
      cases file.generated (⟨requested, all⟩ : CodeGeneratorRequest).index with
      | error msg => rfl
      | ok content => exact ih hrest _

/-- Runs one after the other, as one loop over all files. -/
theorem generateLoop_split (hall : ProtocValid all) (requested : List String) :
    ∀ requests : List CodeGeneratorRequest, (∀ request ∈ requests, request.Valid) →
      (∀ request ∈ requests, ∀ file ∈ request.protoFile, file ∈ all) →
      ∃ responses, List.Forall₂ (fun request response => request.generate = .ok response)
          requests responses ∧
        (⟨requested, all⟩ : CodeGeneratorRequest).generateLoop
          (requests.flatMap (·.fileToGenerate)) {} = .ok (.joined responses)
  | [], _, _ => ⟨[], .nil, rfl⟩
  | request :: rest, hvalid, hsub => by
      obtain ⟨hrequest, hvalid⟩ := List.forall_mem_cons.mp hvalid
      obtain ⟨hfiles, hsub⟩ := List.forall_mem_cons.mp hsub
      obtain ⟨responses, hresponses, hjoined⟩ :=
        generateLoop_split hall requested rest hvalid hsub
      obtain ⟨response, hresponse, -⟩ :=
        generateLoop_spec hrequest request.fileToGenerate hrequest.requested {} rfl
      refine ⟨response :: responses, .cons hresponse hresponses, ?_⟩
      rw [List.flatMap_cons, generateLoop_append,
        ← generateLoop_all hrequest hall hfiles requested hrequest.requested, hresponse, hjoined]
      simp only [Except.bind, Except.map, CodeGeneratorResponse.joined]
      split <;> rfl

/-- **Runs on parts give what one run gives.** Let the files of several valid requests be from one
valid set. The runs return responses, and a run on all that they ask for, with the whole set at hand,
returns their outputs one after the other, up to the first error. -/
theorem generate_split (hall : ProtocValid all) (requests : List CodeGeneratorRequest)
    (hvalid : ∀ request ∈ requests, request.Valid)
    (hsub : ∀ request ∈ requests, ∀ file ∈ request.protoFile, file ∈ all) :
    ∃ responses, List.Forall₂ (fun request response => request.generate = .ok response)
        requests responses ∧
      (⟨requests.flatMap (·.fileToGenerate), all⟩ : CodeGeneratorRequest).generate
        = .ok (.joined responses) :=
  generateLoop_split hall _ requests hvalid hsub

set_option maxRecDepth 20000 in
/-- An imported file and the importing one, in two runs. -/
theorem generate_split_user : ∃ first second,
    (⟨["b.proto"], (userFiles "Other").take 2⟩ : CodeGeneratorRequest).generate = .ok first ∧
    (userRequest "Other" ["user.proto"]).generate = .ok second ∧
    (userRequest "Other" ["b.proto", "user.proto"]).generate = .ok (.joined [first, second]) := by
  have hall : ProtocValid (userFiles "Other") := by decide
  have hfront : (⟨["b.proto"], (userFiles "Other").take 2⟩ : CodeGeneratorRequest).Valid :=
    ⟨by decide, by simp [userFiles]⟩
  have huser : (userRequest "Other" ["user.proto"]).Valid := userRequest_valid hall (by decide)
  obtain ⟨responses, hresponses, hjoined⟩ := generate_split hall
    [⟨["b.proto"], (userFiles "Other").take 2⟩, userRequest "Other" ["user.proto"]]
    (List.forall_mem_cons.mpr ⟨hfront, List.forall_mem_singleton.mpr huser⟩)
    (List.forall_mem_cons.mpr
      ⟨fun _ => List.mem_of_mem_take, List.forall_mem_singleton.mpr fun _ => id⟩)
  obtain _ | ⟨hfirst, _ | ⟨hsecond, _ | _⟩⟩ := hresponses
  exact ⟨_, _, hfirst, hsecond, hjoined⟩

end CodeGeneratorRequest

end FastProto
