import FastProto.LoadedClasses
import Mathlib.Data.List.Basic

/-! # Descriptor constants and the classes they are for

A class is bound to the descriptor that the constant in its decorator holds when the decorator runs.
The constants of a top-level message and of all messages nested in it are assigned before its class
statement, under names that are no longer distinct once dots are underscores and letters are
upper-case; the decorator of a nested class reads the name inside a class body. `bound_iff` says when
a class is bound to its own descriptor. -/

namespace FastProto

open Lib

/-- The constant of a message. -/
def constName (index : TypeIndex) (full : String) : String :=
  descriptorConstName (index.qualified full)

/-- **The constant of a message is overwritten**: a message behind it in the tree of its top-level
message has a constant of the same name. -/
def Overwritten (index : TypeIndex) (file : FileDescriptorProto) (p : String × DescriptorProto) :
    Prop :=
  ∃ root ∈ file.messageType, root.isUserFacing = true ∧ ∃ before after,
    root.tree DescriptorProto.isUserFacing file.scope = before ++ p :: after ∧
      ∃ q ∈ after, constName index q.1 = constName index p.1

/-- **The constant of a nested message is hidden** in the class body around its class: Python rewrites
the name there, or an enum or an earlier class of the body has it. -/
def Hidden (index : TypeIndex) (file : FileDescriptorProto) (p : String × DescriptorProto) : Prop :=
  ∃ outer ∈ file.allMessages, ∃ earlier child later,
    outer.2.nestedType.filter (·.isUserFacing) = earlier ++ child :: later ∧
    p = (outer.1 ++ "." ++ child.name, child) ∧
    (mangle (some outer.2.name) (constName index p.1) ≠ constName index p.1 ∨
      ∃ name ∈ outer.2.enumType.map (·.name) ++ earlier.map (·.name),
        mangle (some outer.2.name) name = constName index p.1)

/-! ## Names -/

/-- The last segment of a full name and what stands in front are determined. -/
theorem eq_of_full_eq {outer outer' name name' : String} (hname : '.' ∉ name.toList)
    (hname' : '.' ∉ name'.toList) (h : outer ++ "." ++ name = outer' ++ "." ++ name') :
    outer = outer' ∧ name = name' := by
  have hsegments := congrArg segments h
  rw [segments_append, segments_append, segments_of_no_dot hname, segments_of_no_dot hname']
    at hsegments
  obtain ⟨houter, hlast⟩ := List.append_inj' hsegments rfl
  exact ⟨segments_injective houter, (List.cons.inj hlast).1⟩

section Unique

variable {files : List FileDescriptorProto} {file : FileDescriptorProto}

/-- A message stands in the tree of one top-level message. -/
theorem root_unique (hvalid : ProtocValid files) (hfile : file ∈ files)
    {keep : DescriptorProto → Bool} {root root' : DescriptorProto} (hroot : root ∈ file.messageType)
    (hroot' : root' ∈ file.messageType) {p : String × DescriptorProto}
    (hp : p ∈ root.tree keep file.scope) (hp' : p ∈ root'.tree keep file.scope) : root = root' := by
  have hdot : ∀ {msg}, msg ∈ file.messageType → '.' ∉ msg.name.toList := fun hmsg =>
    no_dot_of_isIdentifier (hvalid.message hfile (file.root_mem hmsg)).name
  have hname : root.name = root'.name := by
    rw [← head_stripped (hdot hroot) (atOrBelow_of_mem_tree hp),
      head_stripped (hdot hroot') (atOrBelow_of_mem_tree hp')]
  exact hvalid.message_unique hfile hfile (file.root_mem hroot) (file.root_mem hroot')
    (by rw [hname])

/-- The messages of a tree have distinct full names. -/
theorem nodup_tree (hvalid : ProtocValid files) (hfile : file ∈ files) {root : DescriptorProto}
    (hroot : root ∈ file.messageType) :
    ((root.tree DescriptorProto.isUserFacing file.scope).map Prod.fst).Nodup := by
  have hall := hvalid.nodup_allMessages hfile
  rw [FileDescriptorProto.allMessages, forest_eq] at hall
  obtain ⟨before, after, hsplit⟩ := List.append_of_mem hroot
  rw [hsplit, List.flatMap_append, List.flatMap_cons, List.map_append, List.map_append] at hall
  exact (List.nodup_append.mp (List.nodup_append.mp hall).2.1).1

/-- A nested message is nested in one message. -/
theorem outer_unique (hvalid : ProtocValid files) (hfile : file ∈ files)
    {outer outer' : String × DescriptorProto} (houter : outer ∈ file.messages)
    (houter' : outer' ∈ file.messages) {child child' : DescriptorProto}
    (hchild : child ∈ outer.2.nestedType) (hchild' : child' ∈ outer'.2.nestedType)
    (h : outer.1 ++ "." ++ child.name = outer'.1 ++ "." ++ child'.name) : outer = outer' := by
  have hdot : ∀ {q}, q ∈ file.messages → '.' ∉ q.2.name.toList := fun hq =>
    no_dot_of_isIdentifier (hvalid.message hfile hq).name
  obtain ⟨hfull, -⟩ := eq_of_full_eq (hdot (file.nested_mem houter hchild))
    (hdot (file.nested_mem houter' hchild')) h
  exact Prod.ext hfull (hvalid.message_unique hfile hfile houter houter' hfull)

/-- The messages of a file stand below its scope. -/
theorem below_scope {p : String × DescriptorProto} (hp : p ∈ file.messages) :
    ∃ rest, p.1 = file.scope ++ "." ++ rest := by
  obtain ⟨msg, -, heq | ⟨rest, heq⟩⟩ := atOrBelow_of_mem_forest hp
  · exact ⟨msg.name, heq⟩
  · exact ⟨msg.name ++ "." ++ rest, by rw [heq]; simp only [String.append_assoc]⟩

/-- The scope of a file is no message of it. -/
theorem scope_ne_message {p : String × DescriptorProto} (hp : p ∈ file.messages) :
    file.scope ≠ p.1 := by
  obtain ⟨rest, hrest⟩ := below_scope hp
  intro heq
  have hlength := congrArg String.length (heq.trans hrest)
  rw [String.length_append, String.length_append, show ".".length = 1 from rfl] at hlength
  omega

/-- A top-level message is not nested. -/
theorem root_ne_nested (hvalid : ProtocValid files) (hfile : file ∈ files)
    {root child : DescriptorProto} (hroot : root ∈ file.messageType)
    {outer : String × DescriptorProto} (houter : outer ∈ file.messages)
    (hchild : child ∈ outer.2.nestedType) :
    file.scope ++ "." ++ root.name ≠ outer.1 ++ "." ++ child.name := by
  intro h
  have hdot : ∀ {q}, q ∈ file.messages → '.' ∉ q.2.name.toList := fun hq =>
    no_dot_of_isIdentifier (hvalid.message hfile hq).name
  obtain ⟨hscope, -⟩ := eq_of_full_eq (hdot (file.root_mem hroot))
    (hdot (file.nested_mem houter hchild)) h
  exact scope_ne_message houter hscope

end Unique

/-! ## The header -/

namespace ModuleSet

variable {M : ModuleSet} {file : FileDescriptorProto}

/-- The module level runs in no class. -/
@[simp] theorem header_cls (M : ModuleSet) (file : FileDescriptorProto) :
    (M.header file).cls = none := by
  rw [header, FileDescriptorProto.headerFrame, Lib.Frame.bindAll_cls]

/-- A descriptor that a module exports is that of one of its messages. -/
theorem descriptor_of_exported {other : FileDescriptorProto} {top full : String}
    (h : M.exported other top = some (.descriptor full)) :
    ∃ q ∈ other.allMessages, q.1 = full := by
  have hmem := mem_of_lookup h
  rw [scopeAfter, Lib.Frame.locals_bindAll, List.append_nil, List.mem_reverse, List.map_map] at hmem
  obtain ⟨s, hs, heq⟩ := List.mem_map.mp hmem
  rcases FileDescriptorProto.mem_blocks.mp hs with ⟨enum, -, rfl⟩ |
    ⟨root, hroot, -, ⟨q, hq, rfl⟩ | rfl⟩
  · cases (Prod.mk.inj heq).2
  · cases (Prod.mk.inj heq).2
    refine ⟨q, ?_, rfl⟩
    rw [FileDescriptorProto.allMessages, forest_eq]
    exact List.mem_flatMap.mpr ⟨root, hroot, hq⟩
  · cases (Prod.mk.inj heq).2

/-- **The header binds no descriptor of the file's own messages.** -/
theorem header_ne_descriptor (hvalid : ProtocValid M.files) (hfile : file ∈ M.files)
    {p : String × DescriptorProto} (hp : p ∈ file.messages) :
    ∀ b ∈ (M.header file).locals, b.2 ≠ .descriptor p.1 := by
  intro b hb heq
  rw [header, FileDescriptorProto.headerFrame, Lib.Frame.locals_bindAll, List.append_nil,
    List.mem_reverse] at hb
  obtain ⟨⟨name, obj⟩, hbinding, rfl⟩ := List.mem_map.mp hb
  dsimp only at heq
  subst heq
  rcases List.mem_append.mp hbinding with hruntime | himported
  · obtain ⟨runtime, -, hruntime⟩ := List.mem_map.mp hruntime
    cases (Prod.mk.inj hruntime).2
  · unfold imports at himported
    cases hexternal : file.externalImports M.index with
    | error e =>
        rw [hexternal] at himported
        cases himported
    | ok imported =>
        rw [hexternal] at himported
        obtain ⟨⟨top, protoName⟩, hi, hsome⟩ := List.mem_filterMap.mp himported
        obtain ⟨obj, hobj, heq⟩ := Option.map_eq_some_iff.mp hsome
        cases heq
        obtain ⟨other, hother, hexported⟩ := Option.bind_eq_some_iff.mp hobj
        obtain ⟨q, hq, hname⟩ := descriptor_of_exported hexported
        -- the other file has another name, so its messages have other full names
        have hotherName : other.name = protoName := by simpa using List.find?_some hother
        obtain ⟨definer, -, hdefiner, hne, -⟩ :=
          (mem_externalImports hvalid.wellNamed hfile hexternal).mp hi
        have hgetp := TypeIndex.get_of_mem hvalid.typeNames (TypeIndex.message_mem_build hfile hp)
        have hgetq := TypeIndex.get_of_mem hvalid.typeNames (TypeIndex.message_mem_build
          (List.mem_of_find?_eq_some hother) (FileDescriptorProto.mem_messages hq).1)
        rw [hname, hgetp, Option.some.injEq, TypeInfo.mk.injEq] at hgetq
        exact hne (hdefiner.trans (hotherName.symm.trans hgetq.1.symm))

/-! ## Reading a constant -/

section Read

variable {earlier later : List DescriptorProto} {root : DescriptorProto}

/-- The module when the class of a top-level message begins. -/
def beforeRoot (M : ModuleSet) (file : FileDescriptorProto) (earlier : List DescriptorProto)
    (root : DescriptorProto) : Lib.Frame Obj :=
  scopeAfter (M.header file) (file.beforeClass M.index earlier root)

@[simp] theorem beforeRoot_cls : (M.beforeRoot file earlier root).cls = none := by
  rw [beforeRoot, scopeAfter, Lib.Frame.bindAll_cls, header_cls]

/-- **A constant holds the descriptor of its message** when the class begins, unless a later message
of the tree has a constant of the same name. -/
theorem lookup_constName (hvalid : ProtocValid M.files) (hfile : file ∈ M.files)
    (hroot : root ∈ file.messageType) {before after : List (String × DescriptorProto)}
    {p : String × DescriptorProto}
    (htree : root.tree DescriptorProto.isUserFacing file.scope = before ++ p :: after) :
    (M.beforeRoot file earlier root).locals.lookup (constName M.index p.1)
        = some (.descriptor p.1) ↔
      ∀ q ∈ after, constName M.index q.1 ≠ constName M.index p.1 := by
  have hother : ∀ q ∈ after, q.1 ≠ p.1 := by
    have hnames := nodup_tree hvalid hfile hroot
    rw [htree, List.map_append, List.map_cons] at hnames
    intro q hq heq
    exact (List.nodup_cons.mp (List.nodup_append.mp hnames).2.1).1
      (heq ▸ List.mem_map_of_mem hq)
  let constant (q : String × DescriptorProto) : String × Obj :=
    (constName M.index q.1, .descriptor q.1)
  let front := (file.enumType.map (enumStmt file.scope)
    ++ earlier.flatMap (file.renderMessage M.index)).map Stmt.binding ++ before.map constant
  have hbindings : (file.beforeClass M.index earlier root).map Stmt.binding
      = front ++ constant p :: after.map constant := by
    have hconstants : (collectConstants M.index file.scope root).map Stmt.binding
        = before.map constant ++ constant p :: after.map constant := by
      rw [collectConstants, htree, List.map_map, ← List.map_cons, ← List.map_append]
      rfl
    rw [FileDescriptorProto.beforeClass, List.map_append, hconstants, ← List.append_assoc]
  have hafter : ∀ b ∈ after.map constant, b.2 ≠ .descriptor p.1 := by
    intro b hb
    obtain ⟨q, hq, rfl⟩ := List.mem_map.mp hb
    exact fun heq => hother q hq (Obj.descriptor.inj heq)
  have hlast := @Lib.Frame.lookup_bindAll_last _ (M.header file) front _ (constName M.index p.1) _
    hafter
  rw [header_cls, mangle_none] at hlast
  rw [beforeRoot, scopeAfter, hbindings, hlast]
  exact List.forall_mem_map

/-- Under another name no descriptor of the message is found. -/
theorem lookup_ne_descriptor (hvalid : ProtocValid M.files) (hfile : file ∈ M.files)
    (hsplit : file.messageType.filter (·.isUserFacing) = earlier ++ root :: later)
    {p : String × DescriptorProto} (hp : p ∈ file.messages) {name : String}
    (hname : name ≠ constName M.index p.1) :
    (M.beforeRoot file earlier root).locals.lookup name ≠ some (.descriptor p.1) := by
  intro hlookup
  have hmem := mem_of_lookup hlookup
  rw [beforeRoot, scopeAfter, Lib.Frame.locals_bindAll, header_cls, List.mem_append,
    List.mem_reverse, List.map_map] at hmem
  rcases hmem with hmem | hmem
  · obtain ⟨s, hs, heq⟩ := List.mem_map.mp hmem
    have hblock : s ∈ file.blocks M.index := by
      rw [FileDescriptorProto.blocks_split hsplit]
      exact List.mem_append_left _ hs
    rcases FileDescriptorProto.mem_blocks.mp hblock with ⟨enum, -, rfl⟩ |
      ⟨root', -, -, ⟨q, -, rfl⟩ | rfl⟩
    · cases (Prod.mk.inj heq).2
    · obtain ⟨hconst, hfull⟩ := Prod.mk.inj heq
      rw [← Obj.descriptor.inj hfull] at hname
      exact hname hconst.symm
    · cases (Prod.mk.inj heq).2
  · exact header_ne_descriptor hvalid hfile hp _ hmem rfl

/-- A constant is not overwritten when no later message of the tree has its name. -/
theorem not_overwritten_iff (hvalid : ProtocValid M.files) (hfile : file ∈ M.files)
    (hroot : root ∈ file.messageType) (hkeep : root.isUserFacing = true)
    {before after : List (String × DescriptorProto)} {p : String × DescriptorProto}
    (htree : root.tree DescriptorProto.isUserFacing file.scope = before ++ p :: after) :
    ¬ Overwritten M.index file p ↔
      ∀ q ∈ after, constName M.index q.1 ≠ constName M.index p.1 := by
  constructor
  · intro h q hq heq
    exact h ⟨root, hroot, hkeep, before, after, htree, q, hq, heq⟩
  · rintro h ⟨root', hroot', -, before', after', htree', q, hq, heq⟩
    have hmem : p ∈ root.tree DescriptorProto.isUserFacing file.scope := by rw [htree]; simp
    have hmem' : p ∈ root'.tree DescriptorProto.isUserFacing file.scope := by rw [htree']; simp
    obtain rfl := root_unique hvalid hfile hroot hroot' hmem hmem'
    -- the names of a tree are distinct, so the message stands at one place in it
    have hnodup := (nodup_tree hvalid hfile hroot).of_map
    rw [htree, List.nodup_append] at hnodup
    obtain ⟨-, hcons, hdisjoint⟩ := hnodup
    have hfront : p ∉ before := fun hp => hdisjoint p hp p List.mem_cons_self rfl
    rw [htree] at htree'
    obtain ⟨-, -, hafter⟩ :=
      (List.append_cons_inj_of_notMem hfront (List.nodup_cons.mp hcons).1).mp htree'
    exact h q (hafter ▸ hq) heq

/-- Only a builtin is found among the builtins. -/
theorem or_builtin_eq {found : Option Obj} {name : String} {obj : Obj}
    (hobj : ∀ name, obj ≠ .builtin name) :
    found.or (pythonBuiltins name) = some obj ↔ found = some obj := by
  have hbuiltin : pythonBuiltins name ≠ some obj := by
    unfold pythonBuiltins
    split
    · exact fun h => hobj name (Option.some.inj h).symm
    · exact nofun
  cases found with
  | none => simp [hbuiltin]
  | some obj' => simp

/-- The user-facing messages nested in a message are distinct. -/
theorem nodup_nested (hvalid : ProtocValid M.files) (hfile : file ∈ M.files)
    {outer : String × DescriptorProto} (houter : outer ∈ file.messages) :
    (outer.2.nestedType.filter (·.isUserFacing)).Nodup := by
  have hmembers := (hvalid.message hfile houter).members
  rw [DescriptorProto.memberNames, List.nodup_append] at hmembers
  exact (List.nodup_append.mp hmembers.1).2.1.of_map.filter _

/-- The constant of a nested message is hidden by what stands in front of its class. -/
theorem not_hidden_iff (hvalid : ProtocValid M.files) (hfile : file ∈ M.files)
    {outer : String × DescriptorProto} (houter : outer ∈ file.allMessages)
    {earlier later : List DescriptorProto} {child : DescriptorProto}
    (hnested : outer.2.nestedType.filter (·.isUserFacing) = earlier ++ child :: later) :
    ¬ Hidden M.index file (outer.1 ++ "." ++ child.name, child) ↔
      mangle (some outer.2.name) (constName M.index (outer.1 ++ "." ++ child.name))
          = constName M.index (outer.1 ++ "." ++ child.name) ∧
        ∀ name ∈ outer.2.enumType.map (·.name) ++ earlier.map (·.name),
          mangle (some outer.2.name) name ≠ constName M.index (outer.1 ++ "." ++ child.name) := by
  have hmem : ∀ {outer : String × DescriptorProto}, outer ∈ file.allMessages →
      outer ∈ file.messages := fun h => (FileDescriptorProto.mem_messages h).1
  have hchild : ∀ {outer : String × DescriptorProto} {earlier later child},
      outer.2.nestedType.filter (·.isUserFacing) = earlier ++ child :: later →
        child ∈ outer.2.nestedType := by
    intro outer earlier later child h
    exact List.mem_of_mem_filter (by rw [h]; simp)
  constructor
  · intro h
    refine ⟨?_, fun name hname heq => ?_⟩
    · by_contra hne
      exact h ⟨outer, houter, earlier, child, later, hnested, rfl, .inl hne⟩
    · exact h ⟨outer, houter, earlier, child, later, hnested, rfl, .inr ⟨name, hname, heq⟩⟩
  · rintro ⟨hplain, hfree⟩ ⟨outer', houter', earlier', child', later', hnested', heq, hcause⟩
    obtain ⟨hname, rfl⟩ := Prod.mk.inj heq
    obtain rfl := outer_unique hvalid hfile (hmem houter) (hmem houter') (hchild hnested)
      (hchild hnested') hname
    have hnodup := nodup_nested hvalid hfile (hmem houter)
    rw [hnested, List.nodup_append] at hnodup
    obtain ⟨-, hcons, hdisjoint⟩ := hnodup
    rw [hnested] at hnested'
    obtain ⟨rfl, -, -⟩ := (List.append_cons_inj_of_notMem
      (fun hin => hdisjoint child hin child List.mem_cons_self rfl)
      (List.nodup_cons.mp hcons).1).mp hnested'
    rcases hcause with hmangle | ⟨name, hname, hbound⟩
    · exact hmangle hplain
    · exact hfree name hname hbound

/-- What stands in front of the class of a nested message, in the body of the class around it: the
enums of the body, and the classes of earlier messages. -/
theorem eq_of_body (hvalid : ProtocValid M.files) (hfile : file ∈ M.files)
    {outer : String × DescriptorProto} (houter : outer ∈ file.messages)
    {before after : List Stmt} {earlier later : List DescriptorProto} {child : DescriptorProto}
    (hbody : classBody M.index outer
      = before ++ classStmt M.index (outer.1 ++ "." ++ child.name, child) :: after)
    (hnested : outer.2.nestedType.filter (·.isUserFacing) = earlier ++ child :: later) :
    before = outer.2.enumType.map (enumStmt outer.1)
      ++ earlier.map (·.renderClass M.index outer.1) := by
  have hnodup := nodup_nested hvalid hfile houter
  rw [hnested, List.nodup_append] at hnodup
  obtain ⟨-, hcons, hdisjoint⟩ := hnodup
  have hother : ∀ msgs : List DescriptorProto, child ∉ msgs →
      classStmt M.index (outer.1 ++ "." ++ child.name, child)
        ∉ msgs.map (·.renderClass M.index outer.1) := by
    intro msgs hmsgs hmem
    obtain ⟨msg, hmsg, heq⟩ := List.mem_map.mp hmem
    rw [DescriptorProto.renderClass_eq, classStmt, Stmt.messageClass.injEq] at heq
    have hsame : msg = child := heq.2.2.1
    exact hmsgs (hsame ▸ hmsg)
  rw [classBody, renderClasses_eq, hnested, List.map_append, List.map_cons,
    DescriptorProto.renderClass_eq, ← List.append_assoc, List.append_assoc _ (_ :: _),
    List.cons_append] at hbody
  refine ((List.append_cons_inj_of_notMem ?_ ?_).mp hbody).1.symm
  · rw [List.mem_append, not_or]
    refine ⟨fun hmem => ?_, hother earlier fun hin =>
      hdisjoint child hin child List.mem_cons_self rfl⟩
    obtain ⟨enum, -, heq⟩ := List.mem_map.mp hmem
    cases heq
  · rw [List.mem_append, not_or]
    refine ⟨hother later (List.nodup_cons.mp hcons).1, fun hmem => ?_⟩
    obtain ⟨field, -, hline⟩ := List.mem_filterMap.mp hmem
    obtain ⟨line, -, heq⟩ := Option.map_eq_some_iff.mp hline
    cases heq

/-- At module level a name is looked up in the module and then among the builtins. -/
theorem read_scopeAfter {front : List Stmt} {name : String} :
    (scopeAfter (M.header file) front).read pythonBuiltins name
      = ((scopeAfter (M.header file) front).locals.lookup name).or (pythonBuiltins name) := by
  have hcls : (scopeAfter (M.header file) front).cls = none := by
    rw [scopeAfter, Lib.Frame.bindAll_cls, header_cls]
  have hglobals : (scopeAfter (M.header file) front).globals = [] := by
    rw [scopeAfter, Lib.Frame.bindAll_eq, header, FileDescriptorProto.headerFrame,
      Lib.Frame.bindAll_eq]
  rw [Lib.Frame.read, hcls, hglobals, mangle_none, List.lookup_nil, Option.or_none]

/-- A top-level class reads its constant among the names of the module. -/
theorem read_beforeRoot {name full : String} :
    (M.beforeRoot file earlier root).read pythonBuiltins name = some (.descriptor full) ↔
      (M.beforeRoot file earlier root).locals.lookup name = some (.descriptor full) := by
  rw [beforeRoot, read_scopeAfter, @or_builtin_eq _ _ (.descriptor _) fun _ => nofun]

/-- A nested class reads its constant among the names of the module, unless it is hidden. -/
theorem read_nested (hvalid : ProtocValid M.files) (hfile : file ∈ M.files)
    (hsplit : file.messageType.filter (·.isUserFacing) = earlier ++ root :: later)
    {outer : String × DescriptorProto} (houter : outer ∈ file.allMessages)
    {before after : List Stmt} {child : DescriptorProto} (hchild : child ∈ outer.2.nestedType)
    (hkeep : child.isUserFacing = true)
    (hbody : classBody M.index outer
      = before ++ classStmt M.index (outer.1 ++ "." ++ child.name, child) :: after) :
    (scopeAfter (bodyStart (M.beforeRoot file earlier root).moduleScope outer) before).read
        pythonBuiltins (constName M.index (outer.1 ++ "." ++ child.name))
        = some (.descriptor (outer.1 ++ "." ++ child.name)) ↔
      (M.beforeRoot file earlier root).locals.lookup
          (constName M.index (outer.1 ++ "." ++ child.name))
          = some (.descriptor (outer.1 ++ "." ++ child.name)) ∧
        ¬ Hidden M.index file (outer.1 ++ "." ++ child.name, child) := by
  have hmem := (FileDescriptorProto.mem_messages houter).1
  obtain ⟨front, back, hnested⟩ := List.append_of_mem (List.mem_filter.mpr ⟨hchild, hkeep⟩)
  have hbefore := eq_of_body hvalid hfile hmem hbody hnested
  have hbindings : ∀ b ∈ before.map Stmt.binding,
      b.2 ≠ .descriptor (outer.1 ++ "." ++ child.name) := by
    intro b hb
    obtain ⟨s, hs, rfl⟩ := List.mem_map.mp hb
    rw [hbefore] at hs
    rcases List.mem_append.mp hs with hs | hs
    · obtain ⟨enum, -, rfl⟩ := List.mem_map.mp hs
      exact Obj.noConfusion
    · obtain ⟨msg, -, rfl⟩ := List.mem_map.mp hs
      rw [DescriptorProto.renderClass_eq]
      exact Obj.noConfusion
  have hnames : (before.map Stmt.binding).map Prod.fst
      = outer.2.enumType.map (·.name) ++ front.map (·.name) := by
    rw [hbefore, List.map_append, List.map_append, List.map_map, List.map_map, List.map_map,
      List.map_map]
    refine congrArg₂ _ rfl (List.map_congr_left fun msg _ => ?_)
    simp only [Function.comp_apply, DescriptorProto.renderClass_eq]
    rfl
  have hscope : (M.beforeRoot file earlier root).moduleScope
      = (M.beforeRoot file earlier root).locals := by
    rw [Lib.Frame.moduleScope, beforeRoot_cls]
  rw [scopeAfter, Lib.Frame.read_bindAll_iff rfl hbindings,
    @or_builtin_eq _ _ (.descriptor _) (by simp),
    not_hidden_iff hvalid hfile houter hnested, ← hnames]
  simp only [bodyStart, hscope, List.forall_mem_map]
  by_cases hmangle : mangle (some outer.2.name) (constName M.index (outer.1 ++ "." ++ child.name))
      = constName M.index (outer.1 ++ "." ++ child.name)
  · rw [hmangle, eq_self_iff_true, true_and, and_comm]
  · -- no other name of the module holds the descriptor
    have hlost := lookup_ne_descriptor hvalid hfile hsplit (file.nested_mem hmem hchild) hmangle
    exact ⟨fun h => absurd h.2 hlost, fun h => absurd h.2.1 hmangle⟩

/-- **A class is bound to its own descriptor** exactly when its constant is neither overwritten nor
hidden. -/
theorem read_constName (hvalid : ProtocValid M.files) (hfile : file ∈ M.files)
    {p : String × DescriptorProto} {fr : Lib.Frame Obj}
    (h : (fr, classStmt M.index p) ∈ M.events file) :
    fr.read pythonBuiltins (constName M.index p.1) = some (.descriptor p.1) ↔
      ¬ Overwritten M.index file p ∧ ¬ Hidden M.index file p := by
  rcases FileDescriptorProto.event_of_blocks h with ⟨hsimple, -⟩ |
    ⟨earlier, root, later, hsplit, hclass⟩
  · cases hsimple
  have hroot : root ∈ file.messageType.filter (·.isUserFacing) := by rw [hsplit]; simp
  obtain ⟨hroot, hkeep⟩ := List.mem_filter.mp hroot
  rcases hclass with heq | ⟨outer, houter, before, after, hbody, hfr⟩
  · -- a top-level class reads the name in the module
    obtain ⟨hfr, hstmt⟩ := Prod.mk.inj heq
    have hp : p = (file.scope ++ "." ++ root.name, root) :=
      Prod.ext (Stmt.messageClass.inj hstmt).1 (Stmt.messageClass.inj hstmt).2.2.1
    have htree : root.tree DescriptorProto.isUserFacing file.scope
        = [] ++ p :: forest DescriptorProto.isUserFacing (file.scope ++ "." ++ root.name)
          root.nestedType := by
      rw [DescriptorProto.tree_eq, if_pos hkeep, hp]
      rfl
    have hhidden : ¬ Hidden M.index file p := by
      rintro ⟨outer, houter, front, child, back, hnested, heq, -⟩
      have hchild : child ∈ outer.2.nestedType := List.mem_of_mem_filter (by rw [hnested]; simp)
      exact root_ne_nested hvalid hfile hroot (FileDescriptorProto.mem_messages houter).1 hchild
        (congrArg Prod.fst (hp.symm.trans heq))
    rw [hfr, show scopeAfter (M.header file) (file.beforeClass M.index earlier root)
      = M.beforeRoot file earlier root from rfl, read_beforeRoot,
      lookup_constName hvalid hfile hroot htree, not_overwritten_iff hvalid hfile hroot hkeep htree]
    exact (and_iff_left hhidden).symm
  · -- a nested class reads it in a class body
    have hmem : outer ∈ file.allMessages := by
      rw [FileDescriptorProto.allMessages, forest_eq]
      exact List.mem_flatMap.mpr ⟨root, hroot, houter⟩
    obtain ⟨child, hchild, hkeep', hstmt⟩ :=
      exists_child_of_mem (show classStmt M.index p ∈ classBody M.index outer by rw [hbody]; simp)
    have hp : p = (outer.1 ++ "." ++ child.name, child) :=
      Prod.ext (Stmt.messageClass.inj hstmt).1 (Stmt.messageClass.inj hstmt).2.2.1
    have htree : p ∈ root.tree DescriptorProto.isUserFacing file.scope := by
      rw [DescriptorProto.tree_eq, if_pos hkeep] at houter ⊢
      have hnested := @nested_mem_forest DescriptorProto.isUserFacing file.scope [root] outer (by
        rw [forest_eq, List.flatMap_singleton, DescriptorProto.tree_eq, if_pos hkeep]
        exact houter) child hchild hkeep'
      rw [forest_eq, List.flatMap_singleton, DescriptorProto.tree_eq, if_pos hkeep] at hnested
      rwa [hp]
    obtain ⟨front, back, htree⟩ := List.append_of_mem htree
    rw [not_overwritten_iff hvalid hfile hroot hkeep htree,
      ← @lookup_constName M file earlier root hvalid hfile hroot front back p htree]
    dsimp only at hfr
    subst hfr
    subst hp
    exact read_nested hvalid hfile hsplit hmem hchild hkeep' hbody

end Read

/-- **A message gets its own descriptor exactly when its constant is neither overwritten nor hidden**:
its class statement runs, and whenever it does, the constant in its decorator holds the descriptor of
this message iff no later message of the tree has a constant of that name, and the body around a
nested class reads the name as it is. -/
theorem bound_iff (hvalid : ProtocValid M.files) (hfile : file ∈ M.files)
    {p : String × DescriptorProto} (hp : p ∈ file.allMessages) :
    (∃ fr, (fr, classStmt M.index p) ∈ M.events file) ∧
    ((∀ fr, (fr, classStmt M.index p) ∈ M.events file →
        fr.read pythonBuiltins (constName M.index p.1) = some (.descriptor p.1)) ↔
      ¬ Overwritten M.index file p ∧ ¬ Hidden M.index file p) := by
  obtain ⟨fr, hevent⟩ := FileDescriptorProto.class_event_of_mem hp (M.header file)
  refine ⟨⟨fr, hevent⟩, fun h => (read_constName hvalid hfile hevent).mp (h fr hevent), ?_⟩
  exact fun h fr' hevent' => (read_constName hvalid hfile hevent').mpr h

/-- `message Foo { int32 a = 1; }`. -/
def upperFoo : DescriptorProto where
  name := "Foo"
  field := [{ name := "a", number := 1, type := .scalar .int32 }]

/-- `message foo { string b = 1; }`. -/
def lowerFoo : DescriptorProto where
  name := "foo"
  field := [{ name := "b", number := 1, type := .scalar .string }]

/-- `message Outer { message Foo { int32 a = 1; } message foo { string b = 1; } }`. -/
def fooOuter : DescriptorProto where
  name := "Outer"
  nestedType := [upperFoo, lowerFoo]

/-- A file with that message. -/
def fooFile : FileDescriptorProto where
  name := "foo.proto"
  messageType := [fooOuter]

/-- The module of the file alone. -/
def fooModule : ModuleSet := ⟨[fooFile], [fooFile]⟩

/-- The messages of the file, outermost first. -/
theorem tree_fooOuter : fooOuter.tree DescriptorProto.isUserFacing fooFile.scope
    = [(".Outer", fooOuter), (".Outer.Foo", upperFoo), (".Outer.foo", lowerFoo)] := by
  rfl

/-- They are user-facing messages. -/
theorem allMessages_fooFile : fooFile.allMessages
    = [(".Outer", fooOuter), (".Outer.Foo", upperFoo), (".Outer.foo", lowerFoo)] := by
  rw [FileDescriptorProto.allMessages, forest_eq]
  exact (List.flatMap_singleton _ _).trans tree_fooOuter

set_option maxRecDepth 20000 in
/-- The later of two messages with one constant is bound to its own descriptor. -/
theorem bound_iff_lowerFoo : ProtocValid fooModule.files ∧
    ∀ fr, (fr, classStmt fooModule.index (".Outer.foo", lowerFoo)) ∈ fooModule.events fooFile →
      fr.read pythonBuiltins (constName fooModule.index ".Outer.foo")
        = some (.descriptor ".Outer.foo") := by
  have hvalid : ProtocValid fooModule.files := by decide
  have hfile : fooFile ∈ fooModule.files := List.mem_cons_self
  have hp : (".Outer.foo", lowerFoo) ∈ fooFile.allMessages := by simp [allMessages_fooFile]
  have houter : (".Outer", fooOuter) ∈ fooFile.allMessages := by simp [allMessages_fooFile]
  have hlast : ¬ Overwritten fooModule.index fooFile (".Outer.foo", lowerFoo) :=
    (not_overwritten_iff hvalid hfile List.mem_cons_self rfl
      (show _ = [(".Outer", fooOuter), (".Outer.Foo", upperFoo)] ++ (".Outer.foo", lowerFoo) :: []
        from tree_fooOuter)).mpr fun q hq => absurd hq List.not_mem_nil
  have hnested : fooOuter.nestedType.filter (·.isUserFacing) = [upperFoo] ++ lowerFoo :: [] := rfl
  have hplain : ¬ Hidden fooModule.index fooFile (".Outer.foo", lowerFoo) :=
    (not_hidden_iff hvalid hfile houter hnested).mpr (by decide)
  exact ⟨hvalid, (bound_iff hvalid hfile hp).2.mpr ⟨hlast, hplain⟩⟩

set_option maxRecDepth 20000 in
/-- **The earlier of two messages with one constant is bound to the descriptor of the other**: names
that differ in case only have one constant. -/
theorem upperFoo_bound_to_other : ProtocValid fooModule.files ∧
    SchemaValidator.validate fooFile = .ok () ∧
    ∃ p ∈ fooFile.allMessages, ∃ fr, (fr, classStmt fooModule.index p) ∈ fooModule.events fooFile ∧
      fr.read pythonBuiltins (constName fooModule.index p.1) ≠ some (.descriptor p.1) := by
  have hvalid : ProtocValid fooModule.files := by decide
  have hfile : fooFile ∈ fooModule.files := List.mem_cons_self
  have hp : (".Outer.Foo", upperFoo) ∈ fooFile.allMessages := by simp [allMessages_fooFile]
  have htree : fooOuter.tree DescriptorProto.isUserFacing fooFile.scope
      = [(".Outer", fooOuter)] ++ (".Outer.Foo", upperFoo) :: [(".Outer.foo", lowerFoo)] :=
    tree_fooOuter
  -- both are `_OUTER_FOO_DESCRIPTOR`
  have hsame : constName fooModule.index (".Outer.foo", lowerFoo).1
      = constName fooModule.index (".Outer.Foo", upperFoo).1 := by decide +kernel
  have hover : Overwritten fooModule.index fooFile (".Outer.Foo", upperFoo) :=
    ⟨fooOuter, List.mem_cons_self, rfl, _, _, htree, _, List.mem_cons_self, hsame⟩
  have haccepted : SchemaValidator.validate fooFile = .ok () := by decide
  obtain ⟨fr, hevent⟩ := FileDescriptorProto.class_event_of_mem hp (fooModule.header fooFile)
  have hread := read_constName hvalid hfile hevent
  exact ⟨hvalid, haccepted, _, hp, fr, hevent, fun h => (hread.mp h).1 hover⟩

end ModuleSet

end FastProto
