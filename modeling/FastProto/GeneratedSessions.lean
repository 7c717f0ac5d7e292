import FastProto.GeneratedFamily
import FastProto.LazyLinking
import FastProto.Codec

/-! # Using generated modules

From the schemas to the calls a program makes: the message classes of the loaded modules are linked
when they are first used, every call returns what the codec makes of the descriptors its schema
gives, and the bytes of a message, wherever and whenever they are decoded, give an equal message. -/

namespace FastProto

open Lib

namespace ModuleSet

variable {M : ModuleSet} {py : PythonNames} {ids : ObjectIds M} {file : FileDescriptorProto}
  {p : String × DescriptorProto}

/-- The loaded modules have finitely many message classes. -/
theorem finite_messageClass (M : ModuleSet) : {d | ∃ c, M.MessageClass c d}.Finite := by
  refine (List.finite_toSet
    (M.loaded.flatMap fun file => file.allMessages.map fun p => M.idOf p.1)).subset ?_
  rintro d ⟨c, rfl, file, hfile, p, hp, rfl⟩
  exact List.mem_flatMap.mpr ⟨file, hfile, List.mem_map_of_mem hp⟩

/-- The classes with a descriptor are the message classes of the loaded modules. -/
theorem messageClass_of_fastproto {c : ClassId} {d : DescId} (h : (M.pyClass c).fastproto = some d) :
    M.MessageClass c d := by
  unfold pyClass at h
  cases hfound : (M.loaded.flatMap M.moduleClasses).lookup c with
  | none => rw [hfound] at h; cases h
  | some cls =>
      rw [hfound] at h
      cases h
      obtain ⟨file, hfile, hcls⟩ := List.mem_flatMap.mp (mem_of_lookup hfound)
      obtain ⟨p, hp, fr, hid, -⟩ := exists_of_mem_moduleClasses hcls
      exact ⟨rfl, file, hfile, p, hp, hid⟩

/-- Every message of a loaded file has a class. -/
theorem messageClass_of_mem (hfile : file ∈ M.loaded) (hp : p ∈ file.allMessages) :
    M.MessageClass (M.idOf p.1) (M.idOf p.1) :=
  ⟨rfl, file, hfile, p, hp, rfl⟩

section Sessions

variable (hvalid : ProtocValid M.files) (hnumbers : ValidNumbers M.files) (hloaded : M.Loaded)
  (hsound : ∀ file ∈ M.loaded, M.Sound py file)
include hvalid hnumbers hloaded hsound

/-- The calls of a session return what they do with every class linked. -/
theorem outcomes_generated {calls : List (ClassId × Operation)}
    (hcalls : ∀ call ∈ calls, M.MessageClass call.1 call.1) {descs : Descriptors}
    {outcomes : List Outcome}
    (hrun : (M.program py ids).Session (M.program py ids).compiled calls descs outcomes) :
    outcomes = calls.map fun call => (M.linkedWorld py ids).outcome call.1 call.1 call.2 := by
  have hgraph : LinkGraph (M.program py ids) (M.linkedWorld py ids) M.MessageClass :=
    linkGraph_program hvalid hnumbers hloaded hsound
  obtain ⟨-, -, -, houtcomes⟩ := hgraph.session (fun _ _ => messageClass_of_fastproto)
    (fun call hcall => ⟨call.1, hcalls call hcall⟩) settled_compiled hrun
  have heq := (List.forall₂_and_left _ _).mpr ⟨hcalls, houtcomes⟩
  rw [← List.forall₂_eq_eq_eq, List.forall₂_map_right_iff]
  refine heq.flip.imp ?_
  rintro outcome call ⟨hcls, houtcome⟩
  exact houtcome call.1 hcls

/-- **Generated classes work from the first call on**: calls on message classes of the loaded modules,
made one after the other in any order, all end, and each returns what it does with every class linked
to the classes of its schema. -/
theorem sessions_generated {calls : List (ClassId × Operation)}
    (hcalls : ∀ call ∈ calls, M.MessageClass call.1 call.1) :
    (∃ descs outcomes,
      (M.program py ids).Session (M.program py ids).compiled calls descs outcomes) ∧
    ∀ descs outcomes, (M.program py ids).Session (M.program py ids).compiled calls descs outcomes →
      outcomes = calls.map fun call => (M.linkedWorld py ids).outcome call.1 call.1 call.2 := by
  have hgraph : LinkGraph (M.program py ids) (M.linkedWorld py ids) M.MessageClass :=
    linkGraph_program hvalid hnumbers hloaded hsound
  refine ⟨hgraph.exists_session (fun _ _ => messageClass_of_fastproto) M.finite_messageClass
    (fun call hcall => ⟨call.1, hcalls call hcall⟩) settled_compiled, fun descs outcomes hrun => ?_⟩
  exact outcomes_generated hvalid hnumbers hloaded hsound hcalls hrun

/-- **Round trips of generated messages**: a message that conforms to its schema has bytes that every
call of `to_bytes` on it returns, and wherever they are decoded, in this session or in another,
`from_bytes` returns an equal message. -/
theorem roundTrip_generated (hfile : file ∈ M.loaded) (hp : p ∈ file.allMessages) {x : PyVal}
    (hx : Conforms (M.linkedWorld py ids) messageLeaves (maxDepth + 1) (M.idOf p.1) (M.idOf p.1) x) :
    ∃ data : Bytes, ∀ calls : List (ClassId × Operation),
      (∀ call ∈ calls, M.MessageClass call.1 call.1) →
      ∀ (descs : Descriptors) (outcomes : List Outcome),
        (M.program py ids).Session (M.program py ids).compiled calls descs outcomes →
        ∀ place : Nat, (calls[place]? = some (M.idOf p.1, .toBytes x) →
            outcomes[place]? = some (.encoded (.ok data))) ∧
          (data.length ≤ isizeMax → calls[place]? = some (M.idOf p.1, .fromBytes data) →
            ∃ y, outcomes[place]? = some (.decoded (.ok y)) ∧ PyEq y x) := by
  have hgraph : LinkGraph (M.program py ids) (M.linkedWorld py ids) M.MessageClass :=
    linkGraph_program hvalid hnumbers hloaded hsound
  have hdom := messageClass_of_mem hfile hp
  -- the bytes and what they decode to, with every class linked
  obtain ⟨recs, unknown, hrecs⟩ := messageRecords_of_conforms hgraph.family
    (messageLeaves_enumsEncode _) (fun _ _ _ _ _ _ _ hd => hd) (maxDepth + 1) _ _ x hdom hx
  have hencode : encode (M.linkedWorld py ids).runtime (M.idOf p.1) x
      = .ok (recordsBytes recs ++ unknown) := encodeMessage_eq_ok.mpr ⟨recs, unknown, hrecs, rfl⟩
  refine ⟨recordsBytes recs ++ unknown, fun calls hcalls descs outcomes hrun place => ?_⟩
  have hreturned : ∀ {op : Operation}, calls[place]? = some (M.idOf p.1, op) →
      outcomes[place]? = some ((M.linkedWorld py ids).outcome (M.idOf p.1) (M.idOf p.1) op) := by
    intro op hcall
    rw [outcomes_generated hvalid hnumbers hloaded hsound hcalls hrun, List.getElem?_map, hcall]
    rfl
  refine ⟨fun hcall => ?_, fun hlen hcall => ?_⟩
  · rw [hreturned hcall, World.outcome, hencode]
  · obtain ⟨y, hdecode, heq⟩ := decodeMessage_of_conforms hgraph.family congruence_pyEq
      (messageLeaves_enumsDecode _) (maxDepth + 1) _ _ x recs unknown hdom hx hrecs
      (by unfold isizeMax at hlen; omega)
    refine ⟨y, ?_, heq⟩
    rw [hreturned hcall, World.outcome]
    exact congrArg (some <| Outcome.decoded ·) hdecode

end Sessions

/-! ## A package -/

/-- A file alone imports nothing from another one. -/
theorem not_importsName_alone {file : FileDescriptorProto} (name : String) :
    ¬ ImportsName [file] file name := by
  rintro ⟨d, ⟨other, hother, -, hne, -⟩, -⟩
  rw [List.mem_singleton.mp hother] at hne
  exact hne rfl

/-- **The fields disturb nothing**: the constants and the nested class keep their names, the fields
refer to `Inner` alone, and no name of the class body is one that a field line reads. -/
def Undisturbed (fields : List FieldDescriptorProto) : Prop :=
  KeepsName (packageModuleWith fields).index (packageWith fields) "Outer" ∧
  constName (packageModuleWith fields).index ".pkg.Outer.Inner"
    ≠ constName (packageModuleWith fields).index ".pkg.Outer" ∧
  mangle (some "Outer") (constName (packageModuleWith fields).index ".pkg.Outer.Inner")
    = constName (packageModuleWith fields).index ".pkg.Outer.Inner" ∧
  Exposed (outerWith fields) "Inner" "Inner" ∧
  ((packageModuleWith fields).moduleVars cpython (packageWith fields)).lookup "pkg" = none ∧
  (∀ reference ∈ (outerWith fields).compiled.refFields, reference.2 = "pkg.Outer.Inner") ∧
  ∀ field ∈ fields, field.type.enumName = none ∧ ¬ Swallowed (".pkg.Outer", outerWith fields) field ∧
    mangle (some "Outer") field.name = field.name ∧
    ∀ name ∈ field.defaultInfra (packageModuleWith fields).index
        ++ field.annotInfra (packageModuleWith fields).index,
      name ∉ ("Inner" :: fields.map (·.name)).map (mangle (some "Outer"))

instance (fields : List FieldDescriptorProto) : Decidable (Undisturbed fields) := by
  unfold Undisturbed KeepsName Exposed
  infer_instance

/-- **A version of the package**: its file is accepted, and its fields disturb nothing. -/
structure Version (fields : List FieldDescriptorProto) : Prop where
  undisturbed : Undisturbed fields
  valid : ProtocValid (packageModuleWith fields).files
  numbers : (fields.map (·.number)).Nodup ∧ ∀ field ∈ fields, ValidNumber field.number
  loads : (packageModuleWith fields).FileLoads (packageWith fields)

section Package

variable {fields : List FieldDescriptorProto}

/-- The one message of the file, with the message nested in it. -/
theorem tree_outerWith : (outerWith fields).tree DescriptorProto.isUserFacing packageFile.scope
    = [(".pkg.Outer", outerWith fields), (".pkg.Outer.Inner", innerMessage)] := by
  rfl

/-- The outer message is one of the file. -/
theorem outer_mem : (".pkg.Outer", outerWith fields) ∈ (packageWith fields).allMessages := by
  simp [allMessages_packageWith]

/-- So is the nested one. -/
theorem inner_mem : (".pkg.Outer.Inner", innerMessage) ∈ (packageWith fields).allMessages := by
  simp [allMessages_packageWith]

/-- The fields of the file stand in the outer message. -/
theorem place_of_package {place : FieldPlace} (h : place.In (packageWith fields)) :
    ∃ before field after, fields = before ++ field :: after ∧
      place = ⟨[], outerWith fields, (".pkg.Outer", outerWith fields), before, field⟩ := by
  obtain ⟨earlier, root, outer, before, field⟩ := place
  obtain ⟨⟨later, hroot⟩, houter, after, hfield⟩ := h
  have hroots : [outerWith fields] = earlier ++ root :: later := hroot
  obtain ⟨rfl, rfl, rfl⟩ : earlier = [] ∧ root = outerWith fields ∧ later = [] := by
    cases earlier <;> simp_all
  replace houter : outer ∈ (outerWith fields).tree DescriptorProto.isUserFacing packageFile.scope :=
    houter
  rw [tree_outerWith] at houter
  rcases List.mem_pair.mp houter with rfl | rfl
  · exact ⟨before, field, after, hfield, rfl⟩
  · have hfields : [] = before ++ field :: after := hfield
    simp at hfields

/-- Each of the two classes is bound to its own descriptor. -/
theorem bound_package (h : Undisturbed fields) : ∀ p ∈ (packageWith fields).allMessages,
    ¬ Overwritten (packageModuleWith fields).index (packageWith fields) p ∧
      ¬ Hidden (packageModuleWith fields).index (packageWith fields) p := by
  obtain ⟨-, hdiffer, hmangle, -⟩ := h
  intro p hp
  constructor
  · rintro ⟨root, hroot, -, before, after, hsplit, q, hq, hname⟩
    obtain rfl := List.mem_singleton.mp hroot
    replace hsplit := tree_outerWith.symm.trans hsplit
    -- only the outer message has a message behind it
    cases before with
    | nil =>
        cases hsplit
        obtain rfl := List.mem_singleton.mp hq
        exact hdiffer hname
    | cons _ before =>
        cases before with
        | nil => cases hsplit; cases hq
        | cons _ before => cases before <;> cases hsplit
  · rintro ⟨outer, houter, earlier, child, later, hnested, rfl, hhidden⟩
    rw [allMessages_packageWith] at houter
    rcases List.mem_pair.mp houter with rfl | rfl
    · have hchild : [innerMessage] = earlier ++ child :: later := hnested
      obtain ⟨rfl, rfl, rfl⟩ : earlier = [] ∧ child = innerMessage ∧ later = [] := by
        cases earlier <;> simp_all
      rcases hhidden with hhidden | ⟨name, hname, -⟩
      · exact hhidden hmangle
      · cases hname
    · have hnone : [] = earlier ++ child :: later := hnested
      simp at hnone

/-- Nothing is shadowed. -/
theorem unshadowed_package (h : Undisturbed fields) :
    Unshadowed (packageModuleWith fields).files (packageWith fields) := by
  obtain ⟨-, -, -, -, -, -, hfields⟩ := h
  have himports : ∀ name,
      ¬ ImportsName (packageModuleWith fields).files (packageWith fields) name :=
    not_importsName_alone
  -- no field of the package is an enum
  have hsingular : ∀ {place : FieldPlace} {full : String}, place.In (packageWith fields) →
      ¬ place.field.IsSingularEnum full := by
    rintro place full hplace ⟨-, htype, -⟩
    obtain ⟨before, field, after, hsplit, rfl⟩ := place_of_package hplace
    have hnone := (hfields field (by rw [hsplit]; simp)).1
    dsimp only at htype
    rw [htype] at hnone
    cases hnone
  refine ⟨fun name _ => himports name, fun _ => himports _, fun place hplace => ?_,
    fun place hplace _ _ _ _ h => absurd h (hsingular hplace),
    fun place hplace _ _ _ _ _ _ _ _ h => absurd h (hsingular hplace), ?_⟩
  · obtain ⟨before, field, after, hsplit, rfl⟩ := place_of_package hplace
    have hfree := (hfields field (by rw [hsplit]; simp)).2.2.2
    -- what a class body binds before a field is among its fields and `Inner`
    have hbound : ∀ {body : List FieldDescriptorProto} {name : String}, body.Sublist fields →
        name ∉ ("Inner" :: fields.map (·.name)).map (mangle (some "Outer")) →
        FieldPlace.Free ⟨[], outerWith fields, (".pkg.Outer", outerWith fields), before, field⟩
          (packageModuleWith fields).files (packageWith fields) body name := by
      intro body name hbody hname
      refine ⟨himports name, List.not_mem_nil, List.not_mem_nil, fun hmem => hname ?_⟩
      exact (((hbody.map _).cons_cons "Inner").map _).subset hmem
    have hbefore : before.Sublist fields := by
      rw [hsplit]
      exact List.sublist_append_left _ _
    have hbehind : (before ++ [field]).Sublist fields := by
      rw [hsplit, List.append_cons before field after]
      exact List.sublist_append_left _ _
    exact ⟨fun name hname => hbound hbefore (hfree name (List.mem_append_left _ hname)),
      fun name hname => hbound hbehind (hfree name (List.mem_append_right _ hname))⟩
  · intro p hp name hname hmem
    rw [allMessages_packageWith] at hp
    rcases List.mem_pair.mp hp with rfl | rfl
    · obtain rfl : name = "Inner" := List.mem_singleton.mp hmem
      revert hname
      decide
    · cases hmem

/-- **The module of a version is sound.** -/
theorem sound_package (h : Undisturbed fields) :
    (packageModuleWith fields).Sound cpython (packageWith fields) where
  bound := bound_package h
  unshadowed := unshadowed_package h
  resolvable := by
    obtain ⟨hkeeps, -, -, hexposed, hpkg, hrefs, -⟩ := h
    intro p hp reference hreference
    rw [allMessages_packageWith] at hp
    rcases List.mem_pair.mp hp with rfl | rfl
    · rw [hrefs reference hreference]
      exact resolvable_inner hkeeps hexposed hpkg
    · cases hreference
  alike := by
    obtain ⟨-, -, -, -, -, -, hfields⟩ := h
    intro p hp field hfield
    rw [allMessages_packageWith] at hp
    rcases List.mem_pair.mp hp with rfl | rfl
    · obtain ⟨hnone, hswallowed, -⟩ := hfields field hfield
      refine ⟨hswallowed, ?_⟩
      rintro ⟨-, -, typeName, htype, -⟩
      rw [hnone] at htype
      cases htype
    · cases hfield
  names := by
    obtain ⟨-, -, -, -, -, -, hfields⟩ := h
    intro p hp field hfield
    rw [allMessages_packageWith] at hp
    rcases List.mem_pair.mp hp with rfl | rfl
    · exact (hfields field hfield).2.2.1
    · cases hfield
  zeros := fun e he => absurd he List.not_mem_nil

/-- **What the results about generated code suppose** holds of a version of the package. -/
theorem package_valid (h : Version fields) : ProtocValid (packageModuleWith fields).files ∧
    ValidNumbers (packageModuleWith fields).files ∧ (packageModuleWith fields).Loaded ∧
    ∀ file ∈ (packageModuleWith fields).loaded,
      (packageModuleWith fields).Sound cpython file := by
  have hself : ∀ {file}, file ∈ (packageModuleWith fields).loaded → file = packageWith fields :=
    List.mem_singleton.mp
  refine ⟨h.valid, fun p hp => ?_,
    loaded_of_fileLoads _ (List.nodup_singleton _) (fun _ h => h) fun file hfile => ?_,
    fun file hfile => ?_⟩
  · have hmessages : messagesOf (packageModuleWith fields).files
        = [(".pkg.Outer", outerWith fields), (".pkg.Outer.Inner", innerMessage)] := by
      rfl
    rw [hmessages] at hp
    rcases List.mem_pair.mp hp with rfl | rfl
    · exact h.numbers
    · exact ⟨List.nodup_nil, fun field hfield => absurd hfield List.not_mem_nil⟩
  · rw [hself hfile]
    exact h.loads
  · rw [hself hfile]
    exact sound_package h.undisturbed

end Package

set_option maxRecDepth 20000 in
/-- The package as it stands is a version. -/
theorem version_package : Version outerMessage.field := ⟨by decide, by decide, by decide, by decide⟩

/-- The field as the parser returns it. -/
def innerField : FieldDescriptor where
  number := 1
  name := "inner"
  kind := .message
  label := .optional
  typeName := some "pkg.Outer.Inner"
  oneofIndex := none

/-- **A world with the two classes of the package**: what coding their messages reads of it. -/
structure PackageWorld (w : World) (dom : ClassId → DescId → Prop) (outer inner : ClassId)
    (fields : List FieldDescriptor) : Prop where
  family : Family w dom
  outerDom : dom outer outer
  innerDom : dom inner inner
  outerInner : (w.descriptor outer).inner = ⟨"Outer", fields, []⟩
  innerInner : (w.descriptor inner).inner = ⟨"Inner", [], []⟩
  ref : ∃ linked, (w.descriptor outer).ref innerField.number = some linked ∧ linked.cls = inner ∧
    linked.desc = some inner

/-- The descriptors of the linked classes. -/
theorem linkedWorld_descriptor (desc : DescId) :
    (M.linkedWorld py ids).descriptor desc = M.linkedDescriptors py ids desc := rfl

/-- The linked classes of a version are such a world. -/
theorem packageWorld {fields : List FieldDescriptorProto} (h : Version fields)
    {compiled : List FieldDescriptor} (hcompiled : (outerWith fields).compiled = ⟨"Outer", compiled, []⟩)
    (hinner : innerField ∈ compiled) (ids : ObjectIds (packageModuleWith fields)) :
    PackageWorld ((packageModuleWith fields).linkedWorld cpython ids)
      (packageModuleWith fields).MessageClass ((packageModuleWith fields).idOf ".pkg.Outer")
      ((packageModuleWith fields).idOf ".pkg.Outer.Inner") compiled := by
  obtain ⟨hvalid, hnumbers, hloaded, hsound⟩ := package_valid h
  have hfile : packageWith fields ∈ (packageModuleWith fields).loaded := List.mem_cons_self
  -- the executed modules bind each class to its own descriptor
  have hself : ∀ {p : String × DescriptorProto}, p ∈ (packageWith fields).allMessages →
      (((packageModuleWith fields).linkedWorld cpython ids).descriptor
        ((packageModuleWith fields).idOf p.1)).inner = p.2.compiled := fun {p} hp =>
    @inner_linked (packageModuleWith fields) cpython ids (packageWith fields) p hvalid hnumbers hloaded
      hfile (hsound _ hfile) hp
  have hfields : innerField ∈ (outerWith fields).compiled.fields := by
    rw [hcompiled]
    exact hinner
  have hempty : innerMessage.compiled = ⟨"Inner", [], []⟩ := by decide
  have hdot : "." ++ "pkg.Outer.Inner" = ".pkg.Outer.Inner" := by decide
  have href : ((packageModuleWith fields).linkedDescriptors cpython ids
        ((packageModuleWith fields).idOf ".pkg.Outer")).ref innerField.number
      = some (buildLinkedRef ((packageModuleWith fields).idOf ".pkg.Outer.Inner")
          ((packageModuleWith fields).pyClass
            ((packageModuleWith fields).idOf ".pkg.Outer.Inner"))) := by
    rw [← hdot]
    exact @ref_linked (packageModuleWith fields) cpython ids (packageWith fields)
      (".pkg.Outer", outerWith fields) hvalid hnumbers hloaded hfile (hsound _ hfile) outer_mem
      innerField hfields rfl _ rfl
  obtain ⟨fr, -, hcls⟩ := @exists_pyClass (packageModuleWith fields) (packageWith fields)
    (".pkg.Outer.Inner", innerMessage) hvalid hloaded hfile inner_mem
  -- the reference is to a message class, whose descriptor the link takes over
  have hdesc : (buildLinkedRef ((packageModuleWith fields).idOf ".pkg.Outer.Inner")
      ((packageModuleWith fields).pyClass ((packageModuleWith fields).idOf ".pkg.Outer.Inner"))).desc
        = some ((packageModuleWith fields).idOf ".pkg.Outer.Inner") := by
    rw [buildLinkedRef_desc, hcls]
  exact {
    family := family_linkedWorld hvalid hnumbers hloaded hsound
    outerDom := @messageClass_of_mem (packageModuleWith fields) (packageWith fields)
      (".pkg.Outer", outerWith fields) hfile outer_mem
    innerDom := @messageClass_of_mem (packageModuleWith fields) (packageWith fields)
      (".pkg.Outer.Inner", innerMessage) hfile inner_mem
    outerInner := (hself outer_mem).trans hcompiled
    innerInner := (hself inner_mem).trans hempty
    ref := by
      rw [linkedWorld_descriptor]
      exact ⟨_, href, buildLinkedRef_cls .., hdesc⟩ }

/-- A message whose field `inner` is set conforms to its schema. -/
theorem PackageWorld.conforms {w : World} {dom : ClassId → DescId → Prop} {outer inner : ClassId}
    (h : PackageWorld w dom outer inner [innerField]) :
    Conforms w messageLeaves (maxDepth + 1) outer outer
      (.inst outer [("inner", .inst inner [(unknownSlot, .bytes [])]), (unknownSlot, .bytes [])]) := by
  obtain ⟨linked, href, rfl, hdesc⟩ := h.ref
  have hnested : Conforms w messageLeaves maxDepth linked.cls linked.cls
      (.inst linked.cls [(unknownSlot, .bytes [])]) := by
    refine ⟨[], [], ?_, ⟨?_, ?_, [], .nil, nofun⟩⟩
    · rw [instanceOf, h.innerInner]
      rfl
    · rw [h.innerInner]
      exact .nil
    · rw [List.zip_nil_right]
      exact .nil
  refine ⟨[.inst linked.cls [(unknownSlot, .bytes [])]], [], ?_, ⟨?_, ?_, [], .nil, nofun⟩⟩
  · rw [instanceOf, h.outerInner]
    rfl
  · rw [h.outerInner]
    exact .cons (.inr ⟨linked, linked.cls, href, hdesc, hnested⟩) .nil
  · rw [h.outerInner]
    exact List.pairwise_singleton ..

/-- `Outer.Inner()`. -/
def innerValue : PyVal :=
  .inst (packageModule.idOf ".pkg.Outer.Inner") [(unknownSlot, .bytes [])]

/-- `Outer(inner=Outer.Inner())`. -/
def outerValue : PyVal :=
  .inst (packageModule.idOf ".pkg.Outer") [("inner", innerValue), (unknownSlot, .bytes [])]

/-- The message conforms to its schema. -/
theorem conforms_outerValue (ids : ObjectIds packageModule) :
    Conforms (packageModule.linkedWorld cpython ids) messageLeaves (maxDepth + 1)
      (packageModule.idOf ".pkg.Outer") (packageModule.idOf ".pkg.Outer") outerValue :=
  (packageWorld version_package (by decide) (List.mem_singleton_self _) ids).conforms

/-- The first call on a class of the package. -/
theorem sessions_generated_outer : ∃ ids : ObjectIds packageModule, ∃ descs outcome,
    (packageModule.program cpython ids).Session (packageModule.program cpython ids).compiled
      [(packageModule.idOf ".pkg.Outer", .fromBytes [0x0a, 0])] descs [outcome] ∧
    outcome = .decoded (decode (packageModule.linkedWorld cpython ids)
      (packageModule.idOf ".pkg.Outer") (packageModule.idOf ".pkg.Outer") [0x0a, 0]) := by
  obtain ⟨hvalid, hnumbers, hloaded, hsound⟩ := package_valid version_package
  obtain ⟨ids⟩ := nonempty_objectIds packageModule
  have houter : (".pkg.Outer", outerMessage) ∈ packageFile.allMessages := outer_mem
  have hcalls : ∀ call ∈ [(packageModule.idOf ".pkg.Outer", Operation.fromBytes [0x0a, 0])],
      packageModule.MessageClass call.1 call.1 := fun call hcall => by
    obtain rfl := List.mem_singleton.mp hcall
    exact messageClass_of_mem List.mem_cons_self houter
  obtain ⟨⟨descs, outcomes, hrun⟩, hreturned⟩ :=
    @sessions_generated _ cpython ids hvalid hnumbers hloaded hsound _ hcalls
  obtain rfl := hreturned descs outcomes hrun
  exact ⟨ids, descs, _, hrun, rfl⟩

/-- A session on the package: a message is encoded, and its bytes are decoded. -/
theorem roundTrip_generated_outer : ∃ (ids : ObjectIds packageModule) (data : Bytes),
    ∀ (descs : Descriptors) (outcomes : List Outcome),
      (packageModule.program cpython ids).Session (packageModule.program cpython ids).compiled
        [(packageModule.idOf ".pkg.Outer", .toBytes outerValue),
          (packageModule.idOf ".pkg.Outer", .fromBytes data)] descs outcomes →
      outcomes[0]? = some (.encoded (.ok data)) ∧ (data.length ≤ isizeMax →
        ∃ y, outcomes[1]? = some (.decoded (.ok y)) ∧ PyEq y outerValue) := by
  obtain ⟨hvalid, hnumbers, hloaded, hsound⟩ := package_valid version_package
  obtain ⟨ids⟩ := nonempty_objectIds packageModule
  have hfile : packageFile ∈ packageModule.loaded := List.mem_cons_self
  have houter : (".pkg.Outer", outerMessage) ∈ packageFile.allMessages := outer_mem
  obtain ⟨data, hdata⟩ := roundTrip_generated hvalid hnumbers hloaded hsound hfile houter
    (conforms_outerValue ids)
  refine ⟨ids, data, fun descs outcomes hrun => ?_⟩
  have hreturned := hdata _ (fun call hcall => by
    rcases List.mem_pair.mp hcall with rfl | rfl
    · exact messageClass_of_mem hfile houter
    · exact messageClass_of_mem hfile houter) descs outcomes hrun
  exact ⟨(hreturned 0).1 rfl, fun hlen => (hreturned 1).2 hlen rfl⟩

end ModuleSet

end FastProto
