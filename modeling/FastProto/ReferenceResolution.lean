import FastProto.TypeResolution
import FastProto.ImportResolution

/-! # The references of a run

A run of the plugin generates the modules in whose namespaces `_resolve` looks the references of their
classes up. All of them lead to the class of their type exactly when every type referred to can be
resolved (`resolvesReferences_iff`): a class with the name of a package segment captures the lookup. -/

namespace FastProto

open Lib

namespace CodeGeneratorRequest

variable (request : CodeGeneratorRequest)

/-- The modules of the files of a request. -/
def modules : ModuleSet := ⟨request.protoFile, []⟩

/-- **References resolve to the class of their type**, in every generated module and for every
reference of its classes. -/
def ResolvesReferences (py : PythonNames) : Prop :=
  ∀ file ∈ request.protoFile, file.name ∈ request.fileToGenerate → ∀ p ∈ file.allMessages,
    ∀ desc, parseMessage p.2.bytes = .ok desc → ∀ reference ∈ desc.refFields,
      resolve (request.modules.getattr py) (request.modules.moduleVars py file) reference.2
        = .ok (.obj (request.modules.classFor ("." ++ reference.2)))

variable {request} {response : CodeGeneratorResponse}

/-- The imports of a generated file do not collide. -/
theorem externalImports_of_generate (hvalid : request.Valid)
    (hgenerate : request.generate = .ok response) (herror : response.error = none)
    {file : FileDescriptorProto} (hfile : file ∈ request.protoFile)
    (hname : file.name ∈ request.fileToGenerate) :
    ∃ imported, file.externalImports request.modules.index = .ok imported := by
  obtain ⟨out, -, -, other, hother, hsame, hgenerated⟩ :=
    exists_right_of_forall₂ (outputs_of_generate hvalid hgenerate herror) hname
  obtain rfl := List.inj_on_of_nodup_map hvalid.files.fileNames hother hfile hsame
  obtain ⟨-, hstatements, -⟩ := parts_of_generated hgenerated
  -- statements are generated only if the imports were collected
  cases hrendered : other.externalImports request.index with
  | ok imported => exact ⟨imported, hrendered⟩
  | error err =>
      unfold FileDescriptorProto.externalStatements at hstatements
      rw [hrendered] at hstatements
      cases hstatements

/-- **References resolve to the class of their type** exactly when every type referred to can be
resolved, after every run of the plugin without an error. -/
theorem resolvesReferences_iff (py : PythonNames) (hvalid : request.Valid)
    (hgenerate : request.generate = .ok response) (herror : response.error = none) :
    request.ResolvesReferences py ↔
      ∀ file ∈ request.protoFile, file.name ∈ request.fileToGenerate → ∀ p ∈ file.allMessages,
        ∀ reference ∈ p.2.compiled.refFields, request.modules.Resolvable py file reference.2 := by
  refine forall₂_congr fun file hfile => forall_congr' fun hname => forall₂_congr fun p hp => ?_
  obtain ⟨imported, hrendered⟩ :=
    externalImports_of_generate hvalid hgenerate herror hfile hname
  have hmem := (FileDescriptorProto.mem_messages hp).1
  have hsize := (hvalid.files.message hfile hmem).size
  have hparse := p.2.parseMessage_bytes (lt_trans hsize (by decide))
  -- reference by reference, in the namespace of the module
  have hreference : ∀ reference ∈ p.2.compiled.refFields,
      (resolve (request.modules.getattr py) (request.modules.moduleVars py file) reference.2
          = .ok (.obj (request.modules.classFor ("." ++ reference.2))) ↔
        request.modules.Resolvable py file reference.2) := fun reference href =>
    ModuleSet.resolve_refField_iff py hvalid.files hfile hrendered hmem href
  constructor
  · intro h reference href
    exact (hreference reference href).mp (h _ hparse reference href)
  · intro h desc hdesc reference href
    obtain rfl := Except.ok.inj (hparse.symm.trans hdesc)
    exact (hreference reference href).mpr (h reference href)

/-- A request on one file of package `pkg`. -/
def packageRequest (messages : List DescriptorProto) : CodeGeneratorRequest where
  fileToGenerate := ["package.proto"]
  protoFile := [{ ModuleSet.packageFile with messageType := messages }]

set_option maxRecDepth 20000 in
/-- With `Outer` alone every reference resolves. -/
theorem resolvesReferences_iff_package : ∃ response,
    (packageRequest [ModuleSet.outerMessage]).generate = .ok response ∧ response.error = none ∧
      (packageRequest [ModuleSet.outerMessage]).ResolvesReferences ModuleSet.cpython := by
  have hvalid : (packageRequest [ModuleSet.outerMessage]).Valid := ⟨by decide, by decide⟩
  have hrun : (packageRequest [ModuleSet.outerMessage]).generate.map (·.error) = .ok none := by
    decide +kernel
  cases hgenerate : (packageRequest [ModuleSet.outerMessage]).generate with
  | error e =>
      rw [hgenerate] at hrun
      cases hrun
  | ok response =>
      rw [hgenerate] at hrun
      have herror : response.error = none := Except.ok.inj hrun
      refine ⟨response, rfl, herror,
        (resolvesReferences_iff ModuleSet.cpython hvalid hgenerate herror).mpr ?_⟩
      intro file hfile _ p hp reference hreference
      obtain rfl := List.mem_singleton.mp hfile
      have hp : p ∈ (ModuleSet.packageWith ModuleSet.outerMessage.field).allMessages := hp
      rw [ModuleSet.allMessages_packageWith] at hp
      -- the nested message refers to nothing
      rcases List.mem_pair.mp hp with rfl | rfl
      · have hrefs : ModuleSet.outerMessage.compiled.refFields = [(1, "pkg.Outer.Inner")] := by decide
        replace hreference : reference ∈ ModuleSet.outerMessage.compiled.refFields := hreference
        rw [hrefs, List.mem_singleton] at hreference
        rw [hreference]
        exact @ModuleSet.resolvable_inner ModuleSet.outerMessage.field
          (by unfold KeepsName; decide) (by unfold Exposed; decide) (by decide)
      · cases hreference

/-- `message pkg { message Outer { message Inner {} } }`. -/
def pkgMessage : DescriptorProto where
  name := "pkg"
  nestedType := [{ name := "Outer", nestedType := [ModuleSet.innerMessage] }]

set_option maxRecDepth 20000 in
/-- **A class with the name of the package captures the lookup**: the reference of `Outer` to its
nested message leads to the class of another type. -/
theorem resolvesReferences_captured :
    let request := packageRequest [ModuleSet.outerMessage, pkgMessage]
    let file := { ModuleSet.packageFile with messageType := [ModuleSet.outerMessage, pkgMessage] }
    request.Valid ∧ request.generate.map (·.error) = .ok none ∧ file ∈ request.protoFile ∧
    (".pkg.Outer", ModuleSet.outerMessage) ∈ file.allMessages ∧
    (∃ desc, parseMessage ModuleSet.outerMessage.bytes = .ok desc ∧
      desc.refFields = [(1, "pkg.Outer.Inner")]) ∧
    request.modules.classFor ("." ++ "pkg.Outer.Inner") = .messageClass ".pkg.Outer.Inner" ∧
    resolve (request.modules.getattr ModuleSet.cpython)
        (request.modules.moduleVars ModuleSet.cpython file) "pkg.Outer.Inner"
      = .ok (.obj (.messageClass ".pkg.pkg.Outer.Inner")) ∧
    ¬ request.ResolvesReferences ModuleSet.cpython := by
  intro request file
  have hvalid : request.Valid := ⟨by decide, by decide⟩
  have hfile : file ∈ request.protoFile := List.mem_singleton_self _
  have hp : (".pkg.Outer", ModuleSet.outerMessage) ∈ file.allMessages := List.mem_cons_self
  have hparse : parseMessage ModuleSet.outerMessage.bytes = .ok ModuleSet.outerMessage.compiled :=
    ModuleSet.outerMessage.parseMessage_bytes (by decide)
  have hrefs : ModuleSet.outerMessage.compiled.refFields = [(1, "pkg.Outer.Inner")] := by decide
  have hclass : request.modules.classFor ("." ++ "pkg.Outer.Inner")
      = .messageClass ".pkg.Outer.Inner" := by decide
  -- `pkg` is a name of the module: the first suffix tried is the whole name
  have hresolve : resolve (request.modules.getattr ModuleSet.cpython)
      (request.modules.moduleVars ModuleSet.cpython file) "pkg.Outer.Inner"
        = .ok (.obj (.messageClass ".pkg.pkg.Outer.Inner")) := by decide
  refine ⟨hvalid, by decide +kernel, hfile, hp, ⟨_, hparse, hrefs⟩, hclass, hresolve, fun h => ?_⟩
  have hright := h file hfile (List.mem_singleton_self _) _ hp _ hparse (1, "pkg.Outer.Inner")
    (by rw [hrefs]; exact List.mem_singleton_self _)
  rw [hresolve, hclass] at hright
  exact absurd hright (by decide)

end CodeGeneratorRequest

end FastProto
