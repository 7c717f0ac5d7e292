import FastProto.ExternalImports
import FastProto.Generated
import FastProto.Validate

/-! # The plugin (`plugin/__init__.py`)

`protoc` hands the plugin the files it was called on with everything they import, and gets one module
for each file to generate, or an error. `generate_spec` says when a run succeeds, what it returns, and
which file an error is about. -/

namespace FastProto

open Lib

/-! ## Modules -/

/-- The source of a generated module, up to its layout: the file named in the banner, what the header
imports, and the statements. -/
structure ModuleSource where
  source : String
  runtime : List String
  imports : List ImportStatement
  blocks : List Stmt

/-- `ModuleRenderer(file, index).render()`. -/
def FileDescriptorProto.render (index : TypeIndex) (file : FileDescriptorProto) :
    Except ShortNameCollisionError ModuleSource := do
  let imports ← file.externalStatements index
  .ok { source := file.name, runtime := file.runtimeNames index, imports, blocks := file.blocks index }

/-! ## Runs -/

/-- What the plugin reads of a `CodeGeneratorRequest`. -/
structure CodeGeneratorRequest where
  fileToGenerate : List String
  /-- The files to generate with everything they import. -/
  protoFile : List FileDescriptorProto

/-- A generated file. -/
structure OutputFile where
  name : String
  content : ModuleSource

/-- `CodeGeneratorResponse.FEATURE_PROTO3_OPTIONAL`. -/
def featureProto3Optional : Nat := 1

/-- What the plugin writes into a `CodeGeneratorResponse`. -/
structure CodeGeneratorResponse where
  supportedFeatures : Nat := featureProto3Optional
  error : Option String := none
  file : List OutputFile := []

/-- `_output_name`: `foo/bar.proto` -> `foo/bar_pb.py`. -/
def outputName (protoName : String) : String := removeSuffix ".proto" protoName ++ "_pb.py"

/-- The module of one file, or the text of the error that ends the run. -/
def FileDescriptorProto.generated (index : TypeIndex) (file : FileDescriptorProto) :
    Except String ModuleSource :=
  match SchemaValidator.validate file with
  | .error exc => .error exc.msg
  | .ok () =>
      match file.render index with
      | .error exc => .error exc.msg
      | .ok content => .ok content

namespace CodeGeneratorRequest

variable (request : CodeGeneratorRequest)

/-- `files_by_name`. -/
def filesByName : List (String × FileDescriptorProto) :=
  request.protoFile.foldl (fun acc file => upsertBy (· == ·) acc file.name file) []

/-- The index of all files. -/
def index : TypeIndex := TypeIndex.build request.protoFile

/-- The loop of `generate`, with the response so far. -/
def generateLoop : List String → CodeGeneratorResponse → PyResult CodeGeneratorResponse
  | [], response => .ok response
  | protoName :: rest, response =>
      match request.filesByName.lookup protoName with
      | none => .error (.lookupError protoName)
      | some file =>
          match file.generated request.index with
          | .error msg => .ok { response with error := some msg }
          | .ok content =>
              generateLoop rest
                { response with file := response.file ++ [⟨outputName protoName, content⟩] }

/-- `generate`. -/
def generate : PyResult CodeGeneratorResponse := request.generateLoop request.fileToGenerate {}

end CodeGeneratorRequest

/-! ## What the validator accepts -/

namespace SchemaValidator

variable {file : FileDescriptorProto}

/-- Messages are accepted exactly when every user-facing one at or below them has usable names. -/
theorem checkMessages_iff (scope : String) (msgs : List DescriptorProto) :
    checkMessages file msgs = .ok () ↔
      ∀ p ∈ forest DescriptorProto.isUserFacing scope msgs, UsableMessage p.2 := by
  refine ⟨fun h p hp => usable_of_checkMessages h hp, fun h => checkMessages_ok.mpr fun msg hmsg => ?_⟩
  refine (checkMessage_ok msg).mpr fun hkeep => ⟨h _ (mem_forest.mpr ⟨msg, hmsg, hkeep, .inl rfl⟩), ?_⟩
  -- by recursion on the nested types
  refine (checkMessages_iff (scope ++ "." ++ msg.name) msg.nestedType).mpr fun p hp => ?_
  exact h p (mem_forest.mpr ⟨msg, hmsg, hkeep, .inr hp⟩)
termination_by sizeOf msgs
decreasing_by exact sizeOf_nestedType_lt hmsg

variable (file) in
/-- **What the validator accepts**: proto3 files whose names are usable at every depth. -/
structure Accepts : Prop where
  proto3 : file.syntaxName = "proto3"
  enums : ∀ enum ∈ file.enumType, UsableEnum enum
  messages : ∀ p ∈ file.allMessages, UsableMessage p.2

/-- The validator passes exactly the files it accepts. -/
theorem validate_iff : validate file = .ok () ↔ Accepts file := by
  constructor
  · intro h
    obtain ⟨hproto3, henums, hmessages⟩ := validate_ok h
    exact ⟨hproto3, henums, hmessages⟩
  · intro h
    rw [validate, if_neg (not_not.mpr h.proto3), then_ok, forM_ok]
    exact ⟨fun enum henum => checkEnum_ok.mpr (h.enums enum henum),
      (checkMessages_iff file.scope file.messageType).mpr h.messages⟩

/-! ## Errors name the file -/

/-- The text of an error about a file. -/
def About (file : FileDescriptorProto) (msg : String) : Prop :=
  ∃ text, msg = "cannot generate " ++ file.name ++ ": " ++ text

variable (file) in
/-- A check whose errors are about the file. -/
abbrev Reports {α : Type} (check : Except InvalidSchemaError α) : Prop :=
  Raises (fun exc => About file exc.msg) check

/-- A check of one condition. -/
theorem reports_guard {c : Prop} [Decidable c] (text : String) :
    Reports file (if c then reject file text else .ok () : Except InvalidSchemaError Unit) := by
  split
  · exact Raises.error ⟨text, rfl⟩
  · exact Raises.ok ()

/-- The checks of the name of a type. -/
theorem reports_checkTypeName (name what : String) : Reports file (checkTypeName file name what) :=
  (reports_guard _).bind fun _ _ => reports_guard _

/-- The checks of an enum. -/
theorem reports_checkEnum (enum : EnumDescriptorProto) : Reports file (checkEnum file enum) :=
  (reports_checkTypeName _ _).bind fun _ _ => Raises.forM fun _ _ =>
    (reports_guard _).bind fun _ _ => reports_guard _

/-- The messages of a list are checked one after the other. -/
theorem reports_messages {msgs : List DescriptorProto}
    (h : ∀ msg ∈ msgs, Reports file (checkMessage file msg)) :
    Reports file (checkMessages file msgs) := by
  induction msgs with
  | nil => exact Raises.ok ()
  | cons msg rest ih =>
      rw [checkMessages]
      exact (h msg List.mem_cons_self).bind fun _ _ => ih fun m hm => h m (List.mem_cons_of_mem msg hm)

/-- The checks of messages. -/
theorem reports_checkMessages (msgs : List DescriptorProto) :
    Reports file (checkMessages file msgs) := by
  refine reports_messages fun msg hmsg => ?_
  obtain ⟨name, field, nestedType, enumType, options, oneofDecl, others⟩ := msg
  rw [checkMessage]
  split
  · exact Raises.ok ()
  · refine (reports_checkTypeName _ _).bind fun _ _ => Raises.bind ?_ fun _ _ => Raises.bind ?_ ?_
    · exact Raises.forM fun _ _ => (reports_guard _).bind fun _ _ => reports_guard _
    · exact Raises.forM fun enum _ => reports_checkEnum enum
    · exact fun _ _ => reports_checkMessages nestedType
termination_by sizeOf msgs
decreasing_by exact sizeOf_nestedType_lt hmsg

/-- **Every error of the validator is about the file.** -/
theorem reports_validate : Reports file (validate file) := by
  unfold validate
  split
  · exact Raises.error ⟨_, rfl⟩
  · exact (Raises.forM fun enum _ => reports_checkEnum enum).bind fun _ _ => reports_checkMessages _

end SchemaValidator

/-! ## One file -/

section File

variable {files : List FileDescriptorProto} {file : FileDescriptorProto}

/-- Rendering fails exactly where the imports would be ambiguous. -/
theorem render_error_iff (hvalid : WellNamed files) (hfile : file ∈ files) :
    (∃ exc, file.render (TypeIndex.build files) = .error exc) ↔ Collides files file := by
  rw [← consider_error_iff hvalid hfile fun t =>
    Iff.refl (t ∈ file.referencedTypeNames (TypeIndex.build files))]
  unfold FileDescriptorProto.render FileDescriptorProto.externalStatements
    FileDescriptorProto.externalImports
  cases (file.referencedTypeNames (TypeIndex.build files)).foldlM
      (ImportState.consider (TypeIndex.build files) file) (ImportState.initial file) with
  | error exc => exact ⟨fun _ => ⟨exc, rfl⟩, fun _ => ⟨exc, rfl⟩⟩
  | ok st => exact ⟨fun ⟨_, h⟩ => absurd h nofun, fun ⟨_, h⟩ => absurd h nofun⟩

/-- **A collision is reported as one of the file.** -/
theorem raises_render (index : TypeIndex) :
    Raises (fun exc => SchemaValidator.About file exc.msg) (file.render index) := by
  have hstep : ∀ st typeName, Raises (fun exc => SchemaValidator.About file exc.msg)
      (ImportState.consider index file st typeName) := by
    intro st typeName exc h
    unfold ImportState.consider at h
    split at h
    · cases h
    · split at h
      · cases h
      · dsimp only at h
        split at h
        · cases h
          have hcolon : ": two different types would both be imported"
              = ": " ++ "two different types would both be imported" := by decide
          simp only [SchemaValidator.About, hcolon, String.append_assoc]
          exact ⟨_, rfl⟩
        · cases h
  have hfold := (Raises.foldlM (l := file.referencedTypeNames index) (fun _ _ => True)
    (fun _ a _ s _ _ => ⟨hstep s a, fun _ _ => trivial⟩)
    (s := ImportState.initial file) trivial).1
  intro exc h
  unfold FileDescriptorProto.render FileDescriptorProto.externalStatements
    FileDescriptorProto.externalImports at h
  refine hfold exc ?_
  cases hresult : (file.referencedTypeNames index).foldlM (ImportState.consider index file)
      (ImportState.initial file) with
  | error exc' =>
      rw [hresult] at h
      cases h
      rfl
  | ok st =>
      rw [hresult] at h
      cases h

/-- **A file is generated** exactly when the validator accepts it and its imports do not collide. -/
theorem generated_ok_iff (hvalid : WellNamed files) (hfile : file ∈ files) :
    (∃ content, file.generated (TypeIndex.build files) = .ok content) ↔
      SchemaValidator.Accepts file ∧ ¬ Collides files file := by
  rw [← SchemaValidator.validate_iff, ← render_error_iff hvalid hfile]
  unfold FileDescriptorProto.generated
  cases SchemaValidator.validate file with
  | error exc => simp
  | ok _ => cases file.render (TypeIndex.build files) <;> simp

/-- The error of a file is about the file. -/
theorem about_of_generated {index : TypeIndex} {msg : String}
    (h : file.generated index = .error msg) : SchemaValidator.About file msg := by
  unfold FileDescriptorProto.generated at h
  split at h
  · rename_i exc hexc
    cases h
    exact SchemaValidator.reports_validate exc hexc
  · split at h
    · rename_i exc hexc
      cases h
      exact raises_render index exc hexc
    · cases h

end File

/-! ## Runs -/

namespace CodeGeneratorRequest

variable {request : CodeGeneratorRequest}

variable (request) in
/-- **What `protoc` guarantees of a request**: checked files, those to generate among them. -/
structure Valid : Prop where
  files : ProtocValid request.protoFile
  requested : ∀ protoName ∈ request.fileToGenerate, ∃ file ∈ request.protoFile, file.name = protoName

variable (request) in
/-- What is generated for a file: the module of this file alone. -/
def Outputs (protoName : String) (out : OutputFile) : Prop :=
  out.name = outputName protoName ∧ ∃ file ∈ request.protoFile, file.name = protoName ∧
    file.generated request.index = .ok out.content

/-- Files are found by their names. -/
theorem lookup_filesByName (hvalid : request.Valid) {file : FileDescriptorProto}
    (hfile : file ∈ request.protoFile) : request.filesByName.lookup file.name = some file := by
  have hkeys : ((request.protoFile.map fun file => (file.name, file)).map Prod.fst).Nodup := by
    rw [List.map_map]
    exact hvalid.files.fileNames
  have hfiles : request.filesByName = request.protoFile.map fun file => (file.name, file) := by
    rw [← foldl_upsert_nodup hkeys, List.foldl_map]
    rfl
  rw [hfiles]
  exact lookup_of_mem hkeys (List.mem_map_of_mem hfile)

/-- **The loop**: it generates file by file, and stops at the first one that cannot be generated. -/
theorem generateLoop_spec (hvalid : request.Valid) (names : List String)
    (hnames : ∀ protoName ∈ names, ∃ file ∈ request.protoFile, file.name = protoName)
    (start : CodeGeneratorResponse) (hstart : start.error = none) :
    ∃ response, request.generateLoop names start = .ok response ∧
      ((response.error = none ∧ ∃ outs, response.file = start.file ++ outs ∧
          List.Forall₂ request.Outputs names outs) ∨
        ∃ before file after outs msg, names = before ++ file.name :: after ∧
          file ∈ request.protoFile ∧ file.generated request.index = .error msg ∧
          response.error = some msg ∧ response.file = start.file ++ outs ∧
          List.Forall₂ request.Outputs before outs) := by
  induction names generalizing start with
  | nil => exact ⟨start, rfl, .inl ⟨hstart, [], (List.append_nil _).symm, .nil⟩⟩
  | cons protoName rest ih =>
      obtain ⟨file, hfile, rfl⟩ := hnames protoName List.mem_cons_self
      rw [generateLoop, lookup_filesByName hvalid hfile]
      dsimp only
      cases hgenerated : file.generated request.index with
      | error msg =>
          exact ⟨_, rfl, .inr ⟨[], file, rest, [], msg, rfl, hfile, hgenerated, rfl,
            (List.append_nil _).symm, .nil⟩⟩
      | ok content =>
          have hout : request.Outputs file.name ⟨outputName file.name, content⟩ :=
            ⟨rfl, file, hfile, rfl, hgenerated⟩
          obtain ⟨response, hloop, hresult⟩ := ih
            (fun name hname => hnames name (List.mem_cons_of_mem _ hname))
            { start with file := start.file ++ [⟨outputName file.name, content⟩] } hstart
          refine ⟨response, hloop, hresult.imp ?_ ?_⟩
          · rintro ⟨herror, outs, houts, hall⟩
            exact ⟨herror, _ :: outs, by rw [houts, List.append_assoc]; rfl, .cons hout hall⟩
          · rintro ⟨before, failed, after, outs, msg, rfl, hfailed, hmsg, herror, houts, hall⟩
            exact ⟨file.name :: before, failed, after, _ :: outs, msg, rfl, hfailed, hmsg, herror,
              by rw [houts, List.append_assoc]; rfl, .cons hout hall⟩

/-- **What a run of the plugin returns**: it always returns a response. There is no error exactly when
every file to generate is accepted and has unambiguous imports; then there is one output for each of
them, in order, and each is the module of its file alone. Otherwise the error is about the first file
that cannot be generated. -/
theorem generate_spec (hvalid : request.Valid) : ∃ response, request.generate = .ok response ∧
    (response.error = none ↔ ∀ file ∈ request.protoFile, file.name ∈ request.fileToGenerate →
      SchemaValidator.Accepts file ∧ ¬ Collides request.protoFile file) ∧
    (response.error = none →
      List.Forall₂ request.Outputs request.fileToGenerate response.file) ∧
    ∀ msg, response.error = some msg → ∃ before file after,
      request.fileToGenerate = before ++ file.name :: after ∧ file ∈ request.protoFile ∧
      List.Forall₂ request.Outputs before response.file ∧
      (¬ SchemaValidator.Accepts file ∨ Collides request.protoFile file) ∧
      SchemaValidator.About file msg := by
  obtain ⟨response, hgenerate, hresult⟩ :=
    generateLoop_spec hvalid request.fileToGenerate hvalid.requested {} rfl
  have hgenerated : ∀ file ∈ request.protoFile,
      (∃ content, file.generated request.index = .ok content) ↔
        SchemaValidator.Accepts file ∧ ¬ Collides request.protoFile file := fun file hfile =>
    generated_ok_iff hvalid.files.wellNamed hfile
  refine ⟨response, hgenerate, ?_⟩
  -- the loop has gone through all names, or has stopped at the first file that fails
  rcases hresult with ⟨herror, outs, houts, hall⟩ | hfailed
  · rw [List.nil_append] at houts
    subst houts
    refine ⟨⟨fun _ file hfile hname => ?_, fun _ => herror⟩, fun _ => hall, fun msg hmsg => ?_⟩
    · obtain ⟨out, -, -, file', hfile', hname', hout⟩ := exists_right_of_forall₂ hall hname
      obtain rfl := List.inj_on_of_nodup_map hvalid.files.fileNames hfile' hfile hname'
      exact (hgenerated file' hfile').mp ⟨_, hout⟩
    · rw [herror] at hmsg
      cases hmsg
  · obtain ⟨before, file, after, outs, msg, hnames, hfile, hmsg, herror, houts, hall⟩ := hfailed
    rw [List.nil_append] at houts
    subst houts
    have hnot : ¬ (SchemaValidator.Accepts file ∧ ¬ Collides request.protoFile file) := by
      rw [← hgenerated file hfile, hmsg]
      exact fun ⟨_, h⟩ => nomatch h
    refine ⟨⟨fun hnone => ?_, fun hgood => ?_⟩, fun hnone => ?_, fun msg' hmsg' => ?_⟩
    · rw [herror] at hnone
      cases hnone
    · exact absurd (hgood file hfile (by rw [hnames]; simp)) hnot
    · rw [herror] at hnone
      cases hnone
    · rw [herror, Option.some.injEq] at hmsg'
      subst hmsg'
      refine ⟨before, file, after, hnames, hfile, hall, ?_, about_of_generated hmsg⟩
      by_cases haccepts : SchemaValidator.Accepts file
      · exact .inr (not_not.mp fun hclean => hnot ⟨haccepts, hclean⟩)
      · exact .inl haccepts

/-- A request on three files, the last of which imports the others. -/
def userRequest (other : String) (fileToGenerate : List String) : CodeGeneratorRequest where
  fileToGenerate
  protoFile := userFiles other

/-- Such requests are valid when the files are. -/
theorem userRequest_valid {other : String} {names : List String} (h : ProtocValid (userFiles other))
    (hnames : ∀ name ∈ names, name ∈ ["a.proto", "b.proto", "user.proto"]) :
    (userRequest other names).Valid where
  files := h
  requested name hname := by
    have hmem : name ∈ (userFiles other).map (·.name) := hnames name hname
    exact List.mem_map.mp hmem

set_option maxRecDepth 20000 in
/-- A run on a file whose imports collide reports an error about this file. -/
theorem generate_spec_shared : ∃ response msg,
    (userRequest "Shared" ["user.proto"]).generate = .ok response ∧ response.error = some msg ∧
      SchemaValidator.About (userFile "Shared") msg := by
  have hfiles : ProtocValid (userFiles "Shared") := by decide
  have hvalid : (userRequest "Shared" ["user.proto"]).Valid := userRequest_valid hfiles (by decide)
  have hmem : userFile "Shared" ∈ userFiles "Shared" := by simp [userFiles]
  have hcollides : Collides (userFiles "Shared") (userFile "Shared") :=
    (render_error_iff hfiles.wellNamed hmem).mp ⟨_, rfl⟩
  obtain ⟨response, hgenerate, hnone, -, hfailed⟩ := generate_spec hvalid
  cases herror : response.error with
  | none => exact absurd hcollides (hnone.mp herror _ hmem (by decide)).2
  | some msg =>
      obtain ⟨before, file, after, hnames, hfile, -, -, habout⟩ := hfailed msg herror
      have hrequested : file.name ∈ (userRequest "Shared" ["user.proto"]).fileToGenerate := by
        rw [hnames]
        exact List.mem_append_right before List.mem_cons_self
      obtain rfl := List.inj_on_of_nodup_map hfiles.fileNames hfile hmem
        (List.mem_singleton.mp hrequested)
      exact ⟨response, msg, hgenerate, herror, habout⟩

end CodeGeneratorRequest

end FastProto
