import FastProto.Plugin
import FastProto.GeneratedReads

/-! # Where imports lead

A generated module imports the classes of another one twice: relative to its own package, and, where
that fails, from a top-level module. `importGenerated` is what Python makes of the two lines in a tree
of generated files, within a package or at the top of the import path. `importGenerated_iff` says when
the module of the right file is loaded; `imports_resolve` that after a run of the plugin on files with
such names every import leads to the output that defines the names. -/

namespace FastProto

open Lib

/-! ## Python's import system -/

/-- A part of a dotted name that Python can parse. File names are ASCII here. -/
abbrev UsablePart (part : String) : Prop := SchemaValidator.UsableName part

instance (name : String) : Decidable (SchemaValidator.UsableName name) :=
  inferInstanceAs (Decidable (isIdentifier name = true ∧ name ∉ pythonKeywords))

/-- What stands between `from` and `import`: the dots in front, and the parts of the name. None where
the line does not parse. -/
def parseModule (text : String) : Option (Nat × List String) :=
  let level := (text.toList.takeWhile (· == '.')).length
  let name := segments (String.ofList (text.toList.drop level))
  if ∀ part ∈ name, UsablePart part then some (level, name) else none

/-- The absolute name of a module: one dot stands for the package, each other one for the package
around it. None where there is no such package. -/
def resolveModule (package : List String) : Nat × List String → Option (List String)
  | (0, name) => some name
  | (level + 1, name) =>
      if package.length < level + 1 then none
      else some (package.take (package.length - level) ++ name)

/-- Whether the import system finds a module: the file is there, and no module on the way to it, for a
module that is no directory has no submodules. -/
def found (tree : List (List String)) (path : List String) : Bool :=
  tree.contains path && tree.all fun other => !other.isPrefixOf path || other == path

/-! ## Generated files -/

/-- The module that an output is, below the directory of the outputs. -/
def modulePath (output : String) : List String := parts '/' (removeSuffix ".py" output)

/-- The package of the module that an output is, in the package `root`. -/
def packageOf (root : List String) (output : String) : List String :=
  root ++ (modulePath output).dropLast

/-- `relative`: the module behind as many dots as lead out of the directories of the file. -/
def relativeModule (source module : String) : String :=
  String.ofList (List.replicate (1 + source.toList.count '/') '.') ++ module

/-- **What an import of a generated module loads**, in the module of the file `source`: the relative
import, or else the absolute one. -/
def importGenerated (tree : List (List String)) (package : List String) (source module : String) :
    Option (List String) :=
  match parseModule (relativeModule source module), parseModule module with
  | some relative, some absolute =>
      ((resolveModule package relative).filter (found tree)).or
        ((resolveModule package absolute).filter (found tree))
  | _, _ => none

/-- The two lines of an import statement name these modules. -/
theorem ImportStatement.lines_generated (file : FileDescriptorProto) (module : String)
    (names : List String) : ImportStatement.lines file ⟨.generated module, names⟩ =
      ["try:",
        "    from " ++ relativeModule file.name module ++ " import " ++ ", ".intercalate names,
        "except ImportError:  # generated modules used outside a package",
        "    from " ++ module ++ " import " ++ ", ".intercalate names] := rfl

/-! ## Names of files and modules -/

/-- What is left without an ending, with the ending is the text, if it had it. -/
theorem removeSuffix_cases (ending s : String) :
    removeSuffix ending s = s ∨ s = removeSuffix ending s ++ ending := by
  unfold removeSuffix
  split
  · rename_i h
    rw [endsIn, List.isSuffixOf_iff_suffix] at h
    obtain ⟨front, hfront⟩ := h
    right
    apply String.toList_inj.mp
    rw [String.toList_append, String.toList_ofList, ← hfront, ← String.length_toList, ← hfront,
      ← String.length_toList]
    simp
  · exact .inl rfl

/-- An ending that was put on comes off. -/
theorem removeSuffix_append (s ending : String) : removeSuffix ending (s ++ ending) = s := by
  have hends : endsIn ending (s ++ ending) = true := by
    rw [endsIn, List.isSuffixOf_iff_suffix, String.toList_append]
    exact List.suffix_append ..
  rw [removeSuffix, if_pos hends]
  apply String.toList_inj.mp
  rw [String.toList_ofList, String.toList_append, String.length_append, Nat.add_sub_cancel,
    ← String.length_toList, List.take_left]

/-- The module of the output of a file. -/
theorem modulePath_outputName (protoName : String) :
    modulePath (outputName protoName) = parts '/' (removeSuffix ".proto" protoName ++ "_pb") := by
  have hname : outputName protoName = removeSuffix ".proto" protoName ++ "_pb" ++ ".py" := by
    rw [outputName, String.append_assoc]
    rfl
  rw [modulePath, hname, removeSuffix_append]

/-- The module stands as deep as the file. -/
theorem length_modulePath (protoName : String) :
    (modulePath (outputName protoName)).length = protoName.toList.count '/' + 1 := by
  rw [modulePath_outputName, length_parts, String.toList_append, List.count_append]
  have hpb : "_pb".toList.count '/' = 0 := by decide
  have hproto : ".proto".toList.count '/' = 0 := by decide
  rcases removeSuffix_cases ".proto" protoName with h | h
  · rw [h, hpb, Nat.add_zero]
  · have hcount := congrArg (fun s : String => s.toList.count '/') h
    simp only [String.toList_append, List.count_append, hproto, Nat.add_zero] at hcount
    rw [hcount, hpb, Nat.add_zero]

/-- A usable part has no dot and is not empty. -/
theorem UsablePart.no_dot {part : String} (h : UsablePart part) : '.' ∉ part.toList :=
  no_dot_of_isIdentifier h.1

/-- **The dotted name of a module with usable parts** has these parts. -/
theorem segments_moduleOf {protoName : String}
    (h : ∀ part ∈ modulePath (outputName protoName), UsablePart part) :
    segments (moduleOf protoName) = modulePath (outputName protoName) := by
  rw [modulePath_outputName] at h ⊢
  refine segments_replace fun hdot => ?_
  obtain ⟨part, hpart, hmem⟩ := @exists_part_of_mem '/' _ _ hdot (by decide)
  exact (h part hpart).no_dot hmem

/-- Dots in front of a name with usable parts are its level. -/
theorem parseModule_dots (level : Nat) {module : String}
    (h : ∀ part ∈ segments module, UsablePart part) :
    parseModule (String.ofList (List.replicate level '.') ++ module)
      = some (level, segments module) := by
  -- the name itself does not begin with a dot
  have hfirst : module.toList.takeWhile (· == '.') = [] := by
    cases hlist : module.toList with
    | nil => rfl
    | cons c rest =>
        by_cases hc : c = '.'
        · have hempty : "" ∈ segments module := by
            rw [segments, hlist, splitOn_cons, if_pos hc]
            exact List.mem_cons_self
          exact absurd (h _ hempty).1 (by decide)
        · exact List.takeWhile_cons_of_neg (by simpa using hc)
  have hlevel : ((String.ofList (List.replicate level '.') ++ module).toList.takeWhile
      (· == '.')).length = level := by
    rw [String.toList_append, String.toList_ofList, List.takeWhile_append_of_pos
      (fun c hc => by rw [List.eq_of_mem_replicate hc]; rfl), hfirst, List.append_nil,
      List.length_replicate]
  have hrest : (String.ofList (List.replicate level '.') ++ module).toList.drop level
      = module.toList := by
    rw [String.toList_append, String.toList_ofList]
    simp
  unfold parseModule
  dsimp only
  rw [hlevel, hrest, String.ofList_toList, if_pos h]

/-- What parses has usable parts. -/
theorem usable_of_parseModule {text : String} {level : Nat} {name : List String}
    (h : parseModule text = some (level, name)) : ∀ part ∈ name, UsablePart part := by
  unfold parseModule at h
  dsimp only at h
  split at h
  · rename_i husable
    cases h
    exact husable
  · cases h

/-! ## What is loaded -/

/-- **A module that is found** is a file, and no module is in the way. -/
theorem found_iff {tree : List (List String)} {path : List String} : found tree path = true ↔
    path ∈ tree ∧ ∀ other ∈ tree, other <+: path → other = path := by
  simp only [found, Bool.and_eq_true, List.contains_iff_mem, List.all_eq_true, Bool.or_eq_true,
    Bool.not_eq_true', beq_iff_eq]
  refine and_congr_right fun _ => forall₂_congr fun other _ => ?_
  rw [← List.isPrefixOf_iff_prefix]
  cases other.isPrefixOf path <;> simp

/-- A resolved name is the name given, in a package around the one of the module or at the top. -/
theorem prefix_of_resolveModule {package path : List String} {parsed : Nat × List String}
    (h : resolveModule package parsed = some path) :
    ∃ base, base <+: package ∧ path = base ++ parsed.2 := by
  obtain ⟨level, name⟩ := parsed
  cases level with
  | zero =>
      cases h
      exact ⟨[], List.nil_prefix, rfl⟩
  | succ level =>
      simp only [resolveModule] at h
      split at h
      · cases h
      · cases h
        exact ⟨_, List.take_prefix .., rfl⟩

section Exact

variable {names : List String} {root : List String} {source other : String}

/-- The modules of the outputs for some files, in the package `root`. -/
def outputTree (root : List String) (outputs : List String) : List (List String) :=
  outputs.map fun output => root ++ modulePath output

/-- What is below the package of a module that can be imported has usable parts, if it was found by
parts that are usable. -/
theorem usable_of_loaded {package dirs path name base : List String}
    (hdirs : ∀ part ∈ dirs, UsablePart part) (hname : ∀ part ∈ name, UsablePart part)
    (hpackage : package = root ++ dirs) (hbase : base <+: package)
    (hpath : root ++ path = base ++ name) : ∀ part ∈ path, UsablePart part := by
  intro part hpart
  rcases List.append_eq_append_iff.mp hpath with ⟨inner, rfl, rfl⟩ | ⟨outer, -, rfl⟩
  · rw [hpackage] at hbase
    have hinner := (List.prefix_append_right_inj root).mp hbase
    rcases List.mem_append.mp hpart with hpart | hpart
    · exact hdirs part (hinner.subset hpart)
    · exact hname part hpart
  · exact hname part (List.mem_append_right _ hpart)

/-- The module of a file is found exactly when no generated module is on the way to it. -/
theorem found_output_iff (hother : other ∈ names) :
    found (outputTree root (names.map outputName)) (root ++ modulePath (outputName other)) = true ↔
      ∀ name ∈ names, modulePath (outputName name) <+: modulePath (outputName other) →
        modulePath (outputName name) = modulePath (outputName other) := by
  rw [found_iff, outputTree, List.map_map]
  simp only [List.mem_map, Function.comp_apply, forall_exists_index, and_imp,
    forall_apply_eq_imp_iff₂, List.prefix_append_right_inj, List.append_cancel_left_eq]
  exact and_iff_right ⟨other, hother, rfl⟩

/-- **A module with a usable name is loaded** where it is found: by the relative import within a
package, and by the absolute one at the top. -/
theorem importGenerated_of_found
    (husable : ∀ part ∈ modulePath (outputName other), UsablePart part)
    (hfound : found (outputTree root (names.map outputName))
      (root ++ modulePath (outputName other)) = true) :
    importGenerated (outputTree root (names.map outputName)) (packageOf root (outputName source))
      source (moduleOf other) = some (root ++ modulePath (outputName other)) := by
  have hsegments := segments_moduleOf husable
  have hparts : ∀ part ∈ segments (moduleOf other), UsablePart part := by
    rw [hsegments]
    exact husable
  have hrelative := parseModule_dots (1 + source.toList.count '/') hparts
  have habsolute : parseModule (moduleOf other) = some (0, segments (moduleOf other)) := by
    simpa using parseModule_dots 0 hparts
  have hlength : (packageOf root (outputName source)).length
      = root.length + source.toList.count '/' := by
    rw [packageOf, List.length_append, List.length_dropLast, length_modulePath, Nat.add_sub_cancel]
  rw [← relativeModule] at hrelative
  rw [importGenerated, hrelative, habsolute, hsegments]
  simp only [Nat.add_comm 1, resolveModule, hlength, Nat.add_sub_cancel_right]
  cases root with
  | nil =>
      -- no package is around the outputs: the absolute import is tried
      rw [List.nil_append] at hfound ⊢
      rw [if_pos (by simp), Option.filter_none, Option.none_or]
      exact Option.filter_eq_some_iff.mpr ⟨rfl, hfound⟩
  | cons first rest =>
      have htake : (packageOf (first :: rest) (outputName source)).take
          (first :: rest).length = first :: rest := List.take_left ..
      have hnear : ¬ (first :: rest).length + source.toList.count '/'
          < source.toList.count '/' + 1 := by
        simp only [List.length_cons]
        omega
      rw [if_neg hnear, htake, Option.filter_some, if_pos hfound, Option.some_or]

/-- What an import loads is found, under a name that parsed. -/
theorem exists_of_importGenerated {tree : List (List String)} {package path : List String}
    {module : String} (h : importGenerated tree package source module = some path) :
    ∃ text parsed, parseModule text = some parsed ∧ resolveModule package parsed = some path ∧
      found tree path = true := by
  unfold importGenerated at h
  split at h
  · rename_i relative absolute hrelative habsolute
    rcases Option.or_eq_some_iff.mp h with h | ⟨-, h⟩
    · obtain ⟨hresolved, hpath⟩ := Option.filter_eq_some_iff.mp h
      exact ⟨relativeModule source module, relative, hrelative, hresolved, hpath⟩
    · obtain ⟨hresolved, hpath⟩ := Option.filter_eq_some_iff.mp h
      exact ⟨module, absolute, habsolute, hresolved, hpath⟩
  · cases h

/-- **An import loads the module of the right file** exactly when Python can parse the parts of its
path, and no generated module stands where the path needs a directory. It does so within a package
and at the top of the import path alike. -/
theorem importGenerated_iff (hother : other ∈ names)
    (hsource : ∀ part ∈ (modulePath (outputName source)).dropLast, UsablePart part) :
    importGenerated (outputTree root (names.map outputName)) (packageOf root (outputName source))
        source (moduleOf other) = some (root ++ modulePath (outputName other)) ↔
      (∀ part ∈ modulePath (outputName other), UsablePart part) ∧
        ∀ name ∈ names, modulePath (outputName name) <+: modulePath (outputName other) →
          modulePath (outputName name) = modulePath (outputName other) := by
  -- the written path parses iff its parts are usable, and leads to the first module that is there
  constructor
  · intro h
    obtain ⟨text, parsed, hparsed, hresolved, hpath⟩ := exists_of_importGenerated h
    obtain ⟨base, hbase, heq⟩ := prefix_of_resolveModule hresolved
    exact ⟨usable_of_loaded hsource (usable_of_parseModule hparsed) rfl hbase heq,
      (found_output_iff hother).mp hpath⟩
  · rintro ⟨husable, hvisible⟩
    exact importGenerated_of_found husable ((found_output_iff hother).mpr hvisible)

set_option maxRecDepth 20000 in
/-- A module imports one of a directory beside it. -/
theorem importGenerated_iff_beside :
    importGenerated (outputTree ["gen"] (["a/x.proto", "a/b/y.proto"].map outputName))
        (packageOf ["gen"] (outputName "a/x.proto")) "a/x.proto" (moduleOf "a/b/y.proto")
      = some (["gen"] ++ modulePath (outputName "a/b/y.proto")) :=
  (importGenerated_iff (by decide) (by decide)).mpr (by decide)

end Exact

/-! ## Runs of the plugin -/

section Run

variable {files : List FileDescriptorProto} {file : FileDescriptorProto}

/-- What the module of a file consists of. -/
theorem parts_of_generated {index : TypeIndex} {content : ModuleSource}
    (h : file.generated index = .ok content) : content.source = file.name ∧
      file.externalStatements index = .ok content.imports ∧ content.blocks = file.blocks index := by
  unfold FileDescriptorProto.generated at h
  split at h
  · cases h
  · split at h
    · cases h
    · rename_i hrender
      cases h
      unfold FileDescriptorProto.render at hrender
      cases hstatements : file.externalStatements index with
      | error exc =>
          rw [hstatements] at hrender
          cases hrender
      | ok statements =>
          rw [hstatements] at hrender
          cases hrender
          exact ⟨rfl, rfl, rfl⟩

/-- **The import statements of a file** have the names of the definitions it needs from each source,
and no others. -/
theorem mem_statements_iff (hvalid : WellNamed files) (hfile : file ∈ files)
    {statements : List ImportStatement}
    (h : file.externalStatements (TypeIndex.build files) = .ok statements) {source : ImportSource}
    {name : String} :
    (∃ names, ⟨source, names⟩ ∈ statements ∧ name ∈ names) ↔
      ∃ protoName, External files file ⟨protoName, name⟩ ∧ importSource protoName = source := by
  unfold FileDescriptorProto.externalStatements at h
  cases himported : file.externalImports (TypeIndex.build files) with
  | error exc =>
      rw [himported] at h
      cases h
  | ok imported =>
      rw [himported] at h
      cases h
      have hbound : (∃ names, ⟨source, names⟩ ∈ importStatements imported ∧ name ∈ names) ↔
          (source, name) ∈ boundNames (importStatements imported) := by
        rw [boundNames, List.mem_flatMap]
        constructor
        · rintro ⟨names, hstatement, hname⟩
          exact ⟨_, hstatement, List.mem_map.mpr ⟨name, hname, rfl⟩⟩
        · rintro ⟨⟨source', names⟩, hstatement, hname⟩
          obtain ⟨name', hname', heq⟩ := List.mem_map.mp hname
          cases heq
          exact ⟨names, hstatement, hname'⟩
      rw [hbound, mem_boundNames]
      exact exists_congr fun protoName =>
        and_congr_left' (mem_externalImports hvalid hfile himported)

/-- No statement is empty. -/
theorem exists_name_of_statement {index : TypeIndex} {statements : List ImportStatement}
    (h : file.externalStatements index = .ok statements) {module : String} {names : List String}
    (hstatement : ⟨.generated module, names⟩ ∈ statements) : ∃ name, name ∈ names := by
  unfold FileDescriptorProto.externalStatements at h
  cases himported : file.externalImports index with
  | error exc =>
      rw [himported] at h
      cases h
  | ok imported =>
      rw [himported] at h
      cases h
      rcases List.mem_append.mp hstatement with hwellknown | hmodule
      · split at hwellknown
        · cases hwellknown
        · cases List.mem_singleton.mp hwellknown
      · obtain ⟨_, himport, heq⟩ := List.mem_map.mp hmodule
        cases heq
        obtain ⟨⟨name, protoName⟩, hpair, hsource⟩ :=
          List.mem_filterMap.mp (mem_sortedSet.mp himport)
        refine ⟨name, mem_namesFrom.mpr ⟨protoName, hpair, ?_⟩⟩
        dsimp only at hsource
        split at hsource
        · cases hsource
        · rename_i himport
          cases hsource
          exact himport

/-- An import of a generated module is one for a file outside of the runtime. -/
theorem importSource_eq_generated {protoName module : String} :
    importSource protoName = .generated module ↔
      importSource protoName ≠ .wellknown ∧ moduleOf protoName = module := by
  unfold importSource
  split <;> simp

end Run

namespace CodeGeneratorRequest

variable {request : CodeGeneratorRequest} {response : CodeGeneratorResponse}

variable (request) in
/-- **A request whose outputs can import each other**: Python can parse the names of their modules, no
module stands where another one needs a directory, and what they import from outside of the runtime is
generated with them. -/
structure Importable : Prop where
  usable : ∀ protoName ∈ request.fileToGenerate,
    ∀ part ∈ modulePath (outputName protoName), UsablePart part
  apart : ∀ protoName ∈ request.fileToGenerate, ∀ other ∈ request.fileToGenerate,
    modulePath (outputName protoName) <+: modulePath (outputName other) → protoName = other
  closed : ∀ file ∈ request.protoFile, file.name ∈ request.fileToGenerate →
    ∀ d, External request.protoFile file d → importSource d.file ≠ .wellknown →
      d.file ∈ request.fileToGenerate

/-- The outputs of a run without an error are those of the files, one by one. -/
theorem outputs_of_generate (hvalid : request.Valid) (hgenerate : request.generate = .ok response)
    (herror : response.error = none) :
    List.Forall₂ request.Outputs request.fileToGenerate response.file := by
  obtain ⟨response', hgenerate', hresult⟩ :=
    generateLoop_spec hvalid request.fileToGenerate hvalid.requested {} rfl
  obtain rfl := Except.ok.inj (hgenerate.symm.trans hgenerate')
  rcases hresult with ⟨-, outs, houts, hall⟩ | ⟨_, _, _, _, msg, -, -, -, hmsg, -, -⟩
  · rw [houts]
    exact hall
  · rw [herror] at hmsg
    cases hmsg

/-- Outputs are named after their files. -/
theorem names_of_outputs {names : List String} {outs : List OutputFile}
    (h : List.Forall₂ request.Outputs names outs) : outs.map (·.name) = names.map outputName := by
  induction h with
  | nil => rfl
  | cons hout _ ih => rw [List.map_cons, List.map_cons, hout.1, ih]

/-- Modules of one name are those of one file. -/
theorem Importable.moduleOf_inj (himportable : request.Importable) {protoName other : String}
    (hname : protoName ∈ request.fileToGenerate) (hother : other ∈ request.fileToGenerate)
    (h : moduleOf protoName = moduleOf other) : protoName = other := by
  refine himportable.apart _ hname _ hother ?_
  rw [← segments_moduleOf (himportable.usable _ hname), h,
    segments_moduleOf (himportable.usable _ hother)]

/-- **Generated modules find each other.** After a run of the plugin on files whose outputs can import
each other, an import in an output leads to the output for the file that defines the names, wherever
the outputs lie, and a class stands there under each of the names. All that the file of an output
needs from other files is imported. -/
theorem imports_resolve (hvalid : request.Valid) (himportable : request.Importable)
    (hgenerate : request.generate = .ok response) (herror : response.error = none)
    (root : List String) {out : OutputFile} (hout : out ∈ response.file) :
    ∃ file ∈ request.protoFile, file.name = out.content.source ∧
      (∀ module names, ⟨.generated module, names⟩ ∈ out.content.imports →
        ∃ target ∈ response.file,
          importGenerated (outputTree root (response.file.map (·.name))) (packageOf root out.name)
              out.content.source module = some (root ++ modulePath target.name) ∧
          ∀ name ∈ names, External request.protoFile file ⟨target.content.source, name⟩ ∧
            ∃ obj, (name, obj) ∈ target.content.blocks.map Stmt.binding ∧ obj.isClass = true) ∧
      ∀ d, External request.protoFile file d → importSource d.file ≠ .wellknown →
        ∃ names, ⟨.generated (moduleOf d.file), names⟩ ∈ out.content.imports ∧ d.name ∈ names := by
  have hall := outputs_of_generate hvalid hgenerate herror
  obtain ⟨_, hname, hnamed, file, hfile, rfl, hgenerated⟩ := exists_left_of_forall₂ hall hout
  obtain ⟨hsource, hstatements, -⟩ := parts_of_generated hgenerated
  have hwell := hvalid.files.wellNamed
  refine ⟨file, hfile, hsource.symm, fun module names hstatement => ?_, fun d hneeded hruntime => ?_⟩
  · -- one of the names gives the file, and all of them are from it
    obtain ⟨first, hfirst⟩ := exists_name_of_statement hstatements hstatement
    obtain ⟨protoName, hneeded, himport⟩ :=
      (mem_statements_iff hwell hfile hstatements).mp ⟨names, hstatement, hfirst⟩
    obtain ⟨hruntime, rfl⟩ := importSource_eq_generated.mp himport
    have htarget := himportable.closed file hfile hname _ hneeded hruntime
    obtain ⟨target, hmem, htargetName, other, hother, rfl, hcontent⟩ :=
      exists_right_of_forall₂ hall htarget
    obtain ⟨htargetSource, -, hblocks⟩ := parts_of_generated hcontent
    refine ⟨target, hmem, ?_, fun name hname' => ?_⟩
    · rw [names_of_outputs hall, hnamed, hsource, htargetName]
      refine importGenerated_of_found (himportable.usable _ htarget)
        ((found_output_iff htarget).mpr fun name hname hprefix => ?_)
      rw [himportable.apart _ hname _ htarget hprefix]
    · obtain ⟨protoName, hneeded', himport'⟩ :=
        (mem_statements_iff hwell hfile hstatements).mp ⟨names, hstatement, hname'⟩
      obtain ⟨hruntime', hmodule⟩ := importSource_eq_generated.mp himport'
      obtain rfl := himportable.moduleOf_inj
        (himportable.closed file hfile hname _ hneeded' hruntime') htarget hmodule
      rw [htargetSource, hblocks]
      refine ⟨hneeded', ?_⟩
      obtain ⟨other', hother', hsame, -, typeName, href, hcontains⟩ := hneeded'
      obtain rfl := List.inj_on_of_nodup_map hvalid.files.fileNames hother' hother hsame
      obtain ⟨obj, hobj⟩ := exists_topClass hvalid.files hfile hother' href hcontains
      rw [← @classes_of_blocks request.index, List.mem_filter] at hobj
      exact ⟨obj, hobj⟩
  · exact (mem_statements_iff hwell hfile hstatements).mpr
      ⟨d.file, hneeded, importSource_eq_generated.mpr ⟨hruntime, rfl⟩⟩

/-- The names of the three files. -/
def userNames : List String := ["a.proto", "b.proto", "user.proto"]

set_option maxRecDepth 20000 in
/-- The modules of the three files can import each other. -/
theorem importable_user : (userRequest "Other" userNames).Importable where
  usable := by decide
  apart := by decide
  closed file _ _ d hneeded _ := by
    have hnames : ∀ other ∈ userFiles "Other", other.name ∈ userNames := by decide
    obtain ⟨other, hother, hname, -⟩ := hneeded
    rw [← hname]
    exact hnames other hother

set_option maxRecDepth 20000 in
/-- The output of the last file loads that of the second one, in a package. -/
theorem imports_resolve_user : ∃ response, ∃ out ∈ response.file, ∃ target ∈ response.file,
    (userRequest "Other" userNames).generate = .ok response ∧
    importGenerated (outputTree ["gen"] (response.file.map (·.name))) (packageOf ["gen"] out.name)
        out.content.source "b_pb" = some (["gen"] ++ modulePath target.name) ∧
    ∃ obj, ("Other", obj) ∈ target.content.blocks.map Stmt.binding ∧ obj.isClass = true := by
  have hvalid : (userRequest "Other" userNames).Valid := userRequest_valid (by decide) (by decide)
  have hrun : (userRequest "Other" userNames).generate.map
      (fun response => (response.error, response.file.map (·.content.imports)))
        = .ok (none, [[], [],
          [⟨.generated "a_pb", ["Shared"]⟩, ⟨.generated "b_pb", ["Other"]⟩]]) := by
    decide +kernel
  cases hgenerate : (userRequest "Other" userNames).generate with
  | error e =>
      rw [hgenerate] at hrun
      cases hrun
  | ok response =>
      rw [hgenerate] at hrun
      obtain ⟨herror, himports⟩ := Prod.mk.inj (Except.ok.inj hrun)
      have hmem : [⟨.generated "a_pb", ["Shared"]⟩, ⟨.generated "b_pb", ["Other"]⟩]
          ∈ response.file.map (·.content.imports) := by
        rw [himports]
        simp
      obtain ⟨out, hout, hstatements⟩ := List.mem_map.mp hmem
      obtain ⟨_, -, -, hresolve, -⟩ :=
        imports_resolve hvalid importable_user hgenerate herror ["gen"] hout
      obtain ⟨target, htarget, hloads, hnames⟩ := hresolve "b_pb" ["Other"] (by
        rw [hstatements]
        simp)
      exact ⟨response, out, hout, target, htarget, rfl, hloads,
        (hnames "Other" (List.mem_singleton_self _)).2⟩

end CodeGeneratorRequest

end FastProto
