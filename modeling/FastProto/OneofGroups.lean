import FastProto.DescriptorProto
import FastProto.Encode

/-! # The oneof groups a user sees (`Descriptor::oneofs`, `Message.which_oneof`)

The group table lists every oneof declaration of the message and collects the members from the
fields. `protoc` models a proto3 `optional` field by a declaration of its own, and the parser drops
that index on the side of the field only, so the table shows the user-written groups alone exactly
when no field is `optional`. -/

namespace FastProto

open Lib

/-! ## The group table -/

/-- The members of a group: the fields with its index, in declaration order. -/
def MessageDescriptor.memberNames (fields : List FieldDescriptor) (idx : Nat) : List String :=
  (fields.filter fun f => decide (f.oneofIndex.map UInt32.toNat = some idx)).map (·.name)

/-- One round of the loop that collects the members. -/
def addMember (groups : List (String × List String)) (field : FieldDescriptor) :
    PyResult (List (String × List String)) :=
  match field.oneofIndex with
  | none => .ok groups
  | some idx =>
      match groups[idx.toNat]? with
      | some (name, members) => .ok (groups.set idx.toNat (name, members ++ [field.name]))
      | none => .error (.panicked "index out of bounds")

/-- `Descriptor::oneofs`: every declared group with its members. -/
def Descriptor.oneofs (desc : Descriptor) : PyResult (List (String × List String)) :=
  desc.inner.fields.foldlM addMember (desc.inner.oneofs.map fun name => (name, []))

/-- The groups with the members found so far. -/
def groupsOf (oneofs : List String) (fields : List FieldDescriptor) :
    List (String × List String) :=
  oneofs.mapIdx fun idx name => (name, MessageDescriptor.memberNames fields idx)

/-- A field in no group changes none. -/
theorem memberNames_append_none {done : List FieldDescriptor} {field : FieldDescriptor} {idx : Nat}
    (h : field.oneofIndex.map UInt32.toNat ≠ some idx) :
    MessageDescriptor.memberNames (done ++ [field]) idx
      = MessageDescriptor.memberNames done idx := by
  unfold MessageDescriptor.memberNames
  rw [List.filter_append, List.filter_cons_of_neg (by simpa using h), List.filter_nil,
    List.append_nil]

/-- A field in a group is its last member. -/
theorem memberNames_append_some {done : List FieldDescriptor} {field : FieldDescriptor} {idx : Nat}
    (h : field.oneofIndex.map UInt32.toNat = some idx) :
    MessageDescriptor.memberNames (done ++ [field]) idx
      = MessageDescriptor.memberNames done idx ++ [field.name] := by
  unfold MessageDescriptor.memberNames
  rw [List.filter_append, List.filter_cons_of_pos (by simpa using h), List.filter_nil,
    List.map_append]
  rfl

/-- A group of the table. -/
theorem groupsOf_getElem? (oneofs : List String) (fields : List FieldDescriptor) (idx : Nat) :
    (groupsOf oneofs fields)[idx]?
      = oneofs[idx]?.map fun name => (name, MessageDescriptor.memberNames fields idx) := by
  unfold groupsOf
  rw [List.getElem?_mapIdx]

/-- A round of the loop adds the field to its group. -/
theorem addMember_groupsOf {oneofs : List String} {done : List FieldDescriptor}
    {field : FieldDescriptor}
    (hindex : ∀ idx, field.oneofIndex = some idx → idx.toNat < oneofs.length) :
    addMember (groupsOf oneofs done) field = .ok (groupsOf oneofs (done ++ [field])) := by
  have hother : ∀ i, field.oneofIndex.map UInt32.toNat ≠ some i →
      (groupsOf oneofs done)[i]? = (groupsOf oneofs (done ++ [field]))[i]? := by
    intro i hi
    rw [groupsOf_getElem?, groupsOf_getElem?, memberNames_append_none hi]
  unfold addMember
  cases hidx : field.oneofIndex with
  | none =>
      refine congrArg Except.ok (List.ext_getElem? fun i => hother i ?_)
      rw [hidx]
      exact nofun
  | some idx =>
      have hlt := hindex idx hidx
      have hget := groupsOf_getElem? oneofs done idx.toNat
      rw [List.getElem?_eq_getElem hlt, Option.map_some] at hget
      have hlen : idx.toNat < (groupsOf oneofs done).length :=
        (List.getElem?_eq_some_iff.mp hget).1
      dsimp only
      rw [hget]
      refine congrArg Except.ok (List.ext_getElem? fun i => ?_)
      by_cases hi : idx.toNat = i
      · subst hi
        rw [List.getElem?_set_self hlen, groupsOf_getElem?, List.getElem?_eq_getElem hlt,
          Option.map_some, memberNames_append_some (by rw [hidx]; rfl)]
      · rw [List.getElem?_set_ne hi]
        refine hother i ?_
        rw [hidx]
        exact fun h => hi (Option.some.inj h)

/-- **The group table**: every declared group, with the fields that have its index. -/
theorem Descriptor.oneofs_eq {desc : Descriptor}
    (hindex : ∀ field ∈ desc.inner.fields, ∀ idx, field.oneofIndex = some idx →
      idx.toNat < desc.inner.oneofs.length) :
    desc.oneofs = .ok (groupsOf desc.inner.oneofs desc.inner.fields) := by
  have hempty : (desc.inner.oneofs.map fun name => (name, ([] : List String)))
      = groupsOf desc.inner.oneofs [] := by
    refine List.ext_getElem? fun i => ?_
    rw [List.getElem?_map, groupsOf_getElem?]
    rfl
  obtain ⟨groups, hgroups, rfl⟩ := @foldlM_total _ _ _ addMember desc.inner.fields
    (fun done groups => groups = groupsOf desc.inner.oneofs done)
    (fun done field rest groups hl hgroups => by
      refine ⟨_, ?_, rfl⟩
      rw [hgroups]
      exact addMember_groupsOf (hindex field (by rw [← hl]; simp)))
    _ hempty
  exact hgroups

/-! ## `which_oneof` -/

/-- A character as `repr` writes it inside the quotes: what is not printable is escaped, by the
Unicode database of the interpreter. -/
def charRepr (printable : Char → Bool) (quote c : Char) : String :=
  let hex (width : Nat) : String :=
    let digits := Nat.toDigits 16 c.toNat
    String.ofList (List.replicate (width - digits.length) '0' ++ digits)
  if c = quote ∨ c.toNat = 92 then String.ofList [Char.ofNat 92, c]
  else if c.toNat = 9 then "\\t"
  else if c.toNat = 10 then "\\n"
  else if c.toNat = 13 then "\\r"
  else if printable c then String.ofList [c]
  else if c.toNat ≤ 0xff then "\\x" ++ hex 2
  else if c.toNat ≤ 0xffff then "\\u" ++ hex 4
  else "\\U" ++ hex 8

/-- `repr` of a `str`: in single quotes, or in double quotes when it has single ones only. -/
def strRepr (printable : Char → Bool) (s : String) : String :=
  let quote : Char := if s.toList.contains (Char.ofNat 39) && !s.toList.contains (Char.ofNat 34)
    then Char.ofNat 34 else Char.ofNat 39
  String.ofList [quote] ++ String.join (s.toList.map (charRepr printable quote))
    ++ String.ofList [quote]

/-- `next((m for m in members if getattr(self, m) is not None), None)`. -/
def firstSet {V : Type} (rt : Runtime V) (instance_ : V) : List String → PyResult (Option String)
  | [] => .ok none
  | m :: members => do
      let value ← rt.getattr instance_ m
      if (rt.view value).isNone then firstSet rt instance_ members else .ok (some m)

/-- `Message.which_oneof`, for an instance of the class called `clsName`. -/
def whichOneof {V : Type} (rt : Runtime V) (printable : Char → Bool) (desc : Descriptor)
    (clsName : String) (instance_ : V) (name : String) : PyResult (Option String) := do
  let groups ← desc.oneofs
  match groups.find? fun group => decide (group.1 = name) with
  | some (_, members) => firstSet rt instance_ members
  | none => do
      let available := groups.map (·.1)
      .error (.valueError (strRepr printable clsName ++ " has no oneof group "
        ++ strRepr printable name ++ "; got ["
        ++ ", ".intercalate (available.map (strRepr printable)) ++ "]"))

section FirstSet

variable {V : Type} {rt : Runtime V} {instance_ : V}

/-- No member is set. -/
theorem firstSet_none {members : List String}
    (h : ∀ m ∈ members, ∃ value, rt.getattr instance_ m = .ok value ∧
      (rt.view value).isNone = true) :
    firstSet rt instance_ members = .ok none := by
  induction members with
  | nil => rfl
  | cons m members ih =>
      obtain ⟨value, hget, hnone⟩ := h m List.mem_cons_self
      rw [firstSet, hget, ok_bind, if_pos hnone]
      exact ih fun m hm => h m (List.mem_cons_of_mem _ hm)

/-- The one member that is set is found. -/
theorem firstSet_some {members : List String} {m : String} (hm : m ∈ members) {value : V}
    (hget : rt.getattr instance_ m = .ok value) (hset : (rt.view value).isNone = false)
    (hothers : ∀ m' ∈ members, m' ≠ m → ∃ value, rt.getattr instance_ m' = .ok value ∧
      (rt.view value).isNone = true) :
    firstSet rt instance_ members = .ok (some m) := by
  induction members with
  | nil => cases hm
  | cons m' members ih =>
      by_cases hsame : m' = m
      · subst hsame
        rw [firstSet, hget, ok_bind, if_neg (by simp [hset])]
      · obtain ⟨value', hget', hnone⟩ := hothers m' List.mem_cons_self hsame
        rw [firstSet, hget', ok_bind, if_pos hnone]
        exact ih ((List.mem_cons.mp hm).resolve_left fun h => hsame h.symm)
          fun m'' hm'' => hothers m'' (List.mem_cons_of_mem _ hm'')

end FirstSet

/-! ## User-written groups -/

/-- **What `protoc` checks of the oneof declarations of a proto3 message**: every index points at a
declaration and every declaration has a member, members are not repeated, names are distinct, and an
`optional` field is the single member of a declaration of its own. -/
structure DescriptorProto.OneofsValid (proto : DescriptorProto) : Prop where
  index : ∀ field ∈ proto.field, ∀ idx, field.oneofIndex = some idx →
    idx.toNat < proto.oneofDecl.length
  inhabited : ∀ idx < proto.oneofDecl.length, ∃ field ∈ proto.field,
    field.oneofIndex.map UInt32.toNat = some idx
  singular : ∀ field ∈ proto.field, field.oneofIndex.isSome = true → field.repeated = false
  names : (proto.oneofDecl.map (·.name)).Nodup
  synthetic : ∀ field ∈ proto.field, field.proto3Optional = true →
    field.oneofIndex.isSome = true ∧
      ∀ other ∈ proto.field, other.oneofIndex = field.oneofIndex → other = field

namespace DescriptorProto

variable (proto : DescriptorProto)

/-- Whether a declaration is the synthetic one of an `optional` field. -/
def synthetic (idx : Nat) : Bool :=
  proto.field.any fun field =>
    field.proto3Optional && decide (field.oneofIndex.map UInt32.toNat = some idx)

/-- The members of a declaration, in the order of the fields. -/
def members (idx : Nat) : List String :=
  (proto.field.filter fun field =>
    decide (field.oneofIndex.map UInt32.toNat = some idx)).map (·.name)

/-- The user-written groups with their members. -/
def userGroups : List (String × List String) :=
  (proto.oneofDecl.zipIdx.filter fun p => !proto.synthetic p.2).map fun p =>
    (p.1.name, proto.members p.2)

end DescriptorProto

/-- **Only user-written groups are visible**: `oneofs` lists them with their members, `which_oneof`
rejects every other name, and finds the member of a group that is set. -/
structure OnlyUserGroups (proto : DescriptorProto) (desc : Descriptor) : Prop where
  groups : desc.oneofs = .ok proto.userGroups
  unknown : ∀ (V : Type) (rt : Runtime V) printable clsName instance_ name,
    name ∉ proto.userGroups.map Prod.fst →
    ∃ msg, whichOneof rt printable desc clsName instance_ name = .error (.valueError msg)
  unset : ∀ (V : Type) (rt : Runtime V) printable clsName instance_, ∀ group ∈ proto.userGroups,
    (∀ m ∈ group.2, ∃ value, rt.getattr instance_ m = .ok value ∧
      (rt.view value).isNone = true) →
    whichOneof rt printable desc clsName instance_ group.1 = .ok none
  set : ∀ (V : Type) (rt : Runtime V) printable clsName instance_, ∀ group ∈ proto.userGroups,
    ∀ m ∈ group.2, ∀ value, rt.getattr instance_ m = .ok value →
    (rt.view value).isNone = false →
    (∀ m' ∈ group.2, m' ≠ m → ∃ value, rt.getattr instance_ m' = .ok value ∧
      (rt.view value).isNone = true) →
    whichOneof rt printable desc clsName instance_ group.1 = .ok (some m)

section Compiled

variable {proto : DescriptorProto}

/-- A compiled field keeps its name, and its index when it is not `optional`. -/
theorem compile_clamped (hvalid : proto.OneofsValid) {field : FieldDescriptorProto}
    (hfield : field ∈ proto.field) (mapEntries : MapEntries) (msgName : String) :
    (clampOneof (proto.oneofDecl.map (·.name)) (field.compile mapEntries msgName)).name
        = field.name ∧
      (clampOneof (proto.oneofDecl.map (·.name)) (field.compile mapEntries msgName)).oneofIndex
        = field.realOneof := by
  have hname : (field.compile mapEntries msgName).name = field.name := by
    unfold FieldDescriptorProto.compile
    split <;> rfl
  have hindex : (field.compile mapEntries msgName).oneofIndex = field.realOneof := by
    unfold FieldDescriptorProto.compile
    split
    · -- a map is a repeated field, which is in no oneof
      rename_i entry hentry
      unfold FieldDescriptorProto.mapEntry at hentry
      split at hentry
      · rename_i hrepeated
        have hrepeated := (Bool.and_eq_true_iff.mp hrepeated).1
        have hnone : field.oneofIndex = none := by
          rw [← Option.not_isSome_iff_eq_none]
          intro hsome
          rw [hvalid.singular field hfield hsome] at hrepeated
          cases hrepeated
        rw [FieldDescriptorProto.realOneof, hnone, ite_self]
      · cases hentry
    · rfl
  unfold clampOneof
  rw [hindex]
  cases hreal : field.realOneof with
  | none => exact ⟨hname, hindex.trans hreal⟩
  | some idx =>
      have hsome : field.oneofIndex = some idx := by
        unfold FieldDescriptorProto.realOneof at hreal
        split at hreal
        · cases hreal
        · exact hreal
      have hlt := hvalid.index field hfield idx hsome
      dsimp only
      rw [List.length_map, if_neg (by omega)]
      exact ⟨hname, hindex.trans hreal⟩

/-- The members of the compiled message: none for a synthetic declaration. -/
theorem memberNames_compiled (hvalid : proto.OneofsValid) (idx : Nat) :
    MessageDescriptor.memberNames proto.compiled.fields idx
      = if proto.synthetic idx then [] else proto.members idx := by
  have hfields : MessageDescriptor.memberNames proto.compiled.fields idx
      = (proto.field.filter fun field =>
          decide (field.realOneof.map UInt32.toNat = some idx)).map (·.name) := by
    have hmap : ∀ fields : List FieldDescriptorProto, (∀ f ∈ fields, f ∈ proto.field) →
        MessageDescriptor.memberNames (fields.map fun field =>
          clampOneof (proto.oneofDecl.map (·.name))
            (field.compile proto.parts.mapEntries proto.name)) idx
        = (fields.filter fun field =>
            decide (field.realOneof.map UInt32.toNat = some idx)).map (·.name) := by
      intro fields
      induction fields with
      | nil => intro _; rfl
      | cons field fields ih =>
          intro hmem
          obtain ⟨hname, hindex⟩ := compile_clamped hvalid (hmem field List.mem_cons_self)
            proto.parts.mapEntries proto.name
          have hrest := ih fun f hf => hmem f (List.mem_cons_of_mem _ hf)
          unfold MessageDescriptor.memberNames at hrest ⊢
          rw [List.map_cons, List.filter_cons, List.filter_cons, hindex]
          split
          · rw [List.map_cons, List.map_cons, hrest, hname]
          · exact hrest
    exact hmap proto.field fun _ hf => hf
  rw [hfields]
  by_cases hsynthetic : proto.synthetic idx = true
  · -- the one member is `optional`, so it has no index any more
    rw [if_pos hsynthetic]
    obtain ⟨field, hfield, hoptional⟩ := List.any_eq_true.mp hsynthetic
    obtain ⟨hoptional, hidx⟩ := Bool.and_eq_true_iff.mp hoptional
    rw [List.filter_eq_nil_iff.mpr, List.map_nil]
    intro other hother
    rw [decide_eq_true_eq]
    intro hreal
    unfold FieldDescriptorProto.realOneof at hreal
    split at hreal
    · cases hreal
    · rename_i hnot
      have hsame : other.oneofIndex = field.oneofIndex := by
        rw [← of_decide_eq_true hidx] at hreal
        exact Option.map_injective (fun a b h => UInt32.toNat_inj.mp h) hreal
      rw [(hvalid.synthetic field hfield hoptional).2 other hother hsame] at hnot
      exact hnot hoptional
  · rw [if_neg hsynthetic, DescriptorProto.members]
    refine congrArg (List.map _) (List.filter_congr fun field hfield => ?_)
    by_cases hoptional : field.proto3Optional = true
    · -- an `optional` member would make the declaration synthetic
      have hnot : field.oneofIndex.map UInt32.toNat ≠ some idx := fun hidx =>
        hsynthetic (List.any_eq_true.mpr ⟨field, hfield, by simp [hoptional, hidx]⟩)
      rw [FieldDescriptorProto.realOneof, if_pos hoptional]
      simp [hnot]
    · rw [FieldDescriptorProto.realOneof, if_neg hoptional]

/-- **What `oneofs` lists**: every declaration, the synthetic ones without members. -/
theorem oneofs_compiled (hvalid : proto.OneofsValid) {desc : Descriptor}
    (hdesc : desc.inner = proto.compiled) :
    desc.oneofs = .ok (proto.oneofDecl.mapIdx fun idx decl =>
      (decl.name, if proto.synthetic idx then [] else proto.members idx)) := by
  rw [Descriptor.oneofs_eq]
  · rw [hdesc]
    refine congrArg Except.ok (List.ext_getElem? fun idx => ?_)
    rw [groupsOf_getElem?, List.getElem?_mapIdx, memberNames_compiled hvalid, DescriptorProto.compiled,
      List.getElem?_map, Option.map_map]
    rfl
  · rw [hdesc]
    intro field hfield idx hidx
    obtain ⟨proto', hproto, rfl⟩ := List.mem_map.mp hfield
    rw [(compile_clamped hvalid hproto _ _).2] at hidx
    have hsome : proto'.oneofIndex = some idx := by
      unfold FieldDescriptorProto.realOneof at hidx
      split at hidx
      · cases hidx
      · exact hidx
    rw [DescriptorProto.compiled, List.length_map]
    exact hvalid.index proto' hproto idx hsome

/-- The declarations that are not synthetic. -/
theorem userGroups_of_none (h : ∀ idx < proto.oneofDecl.length, proto.synthetic idx = false) :
    proto.userGroups = proto.oneofDecl.mapIdx fun idx decl => (decl.name, proto.members idx) := by
  unfold DescriptorProto.userGroups
  rw [List.filter_eq_self.mpr, List.mapIdx_eq_zipIdx_map]
  rintro ⟨decl, idx⟩ hmem
  obtain ⟨hlt, -⟩ := List.getElem?_eq_some_iff.mp (List.mem_zipIdx_iff_getElem?.mp hmem)
  simp [h idx hlt]

/-- No `optional` field, no synthetic declaration. -/
theorem synthetic_eq_false (h : ∀ field ∈ proto.field, field.proto3Optional = false) (idx : Nat) :
    proto.synthetic idx = false := by
  rw [DescriptorProto.synthetic, List.any_eq_false]
  intro field hfield
  simp [h field hfield]

/-- The table is the user-written groups exactly when no field is `optional`. -/
theorem oneofs_eq_userGroups_iff (hvalid : proto.OneofsValid) {desc : Descriptor}
    (hdesc : desc.inner = proto.compiled) :
    desc.oneofs = .ok proto.userGroups ↔ ∀ field ∈ proto.field, field.proto3Optional = false := by
  rw [oneofs_compiled hvalid hdesc]
  constructor
  · intro h field hfield
    by_contra hoptional
    have hoptional : field.proto3Optional = true := by simpa using hoptional
    -- the table has a group for each declaration, the user-written ones are fewer
    have hlen := congrArg List.length (Except.ok.inj h)
    rw [List.length_mapIdx, DescriptorProto.userGroups, List.length_map] at hlen
    obtain ⟨idx, hidx⟩ := Option.isSome_iff_exists.mp (hvalid.synthetic field hfield hoptional).1
    have hlt := hvalid.index field hfield idx hidx
    have hall := List.length_filter_eq_length_iff.mp (hlen.symm.trans List.length_zipIdx.symm)
      (proto.oneofDecl[idx.toNat], idx.toNat)
      (List.mem_zipIdx_iff_getElem?.mpr (List.getElem?_eq_getElem hlt))
    have hsynthetic : proto.synthetic idx.toNat = true :=
      List.any_eq_true.mpr ⟨field, hfield, by simp [hoptional, hidx]⟩
    rw [hsynthetic] at hall
    cases hall
  · intro h
    rw [userGroups_of_none fun idx _ => synthetic_eq_false h idx]
    simp only [synthetic_eq_false h]
    rfl

end Compiled

section Which

variable {desc : Descriptor} {groups : List (String × List String)}

/-- A name that is no group is rejected. -/
theorem whichOneof_unknown (hgroups : desc.oneofs = .ok groups) {name : String}
    (hname : name ∉ groups.map Prod.fst) {V : Type} (rt : Runtime V) (printable : Char → Bool)
    (clsName : String) (instance_ : V) :
    ∃ msg, whichOneof rt printable desc clsName instance_ name = .error (.valueError msg) := by
  have hfind : (groups.find? fun group => decide (group.1 = name)) = none := by
    rw [List.find?_eq_none]
    intro group hgroup hsame
    exact hname (List.mem_map.mpr ⟨group, hgroup, of_decide_eq_true hsame⟩)
  unfold whichOneof
  rw [hgroups, ok_bind, hfind]
  exact ⟨_, rfl⟩

/-- A group is found by its name. -/
theorem whichOneof_group (hgroups : desc.oneofs = .ok groups)
    (hnames : (groups.map Prod.fst).Nodup) {group : String × List String} (hgroup : group ∈ groups)
    {V : Type} (rt : Runtime V) (printable : Char → Bool) (clsName : String) (instance_ : V) :
    whichOneof rt printable desc clsName instance_ group.1 = firstSet rt instance_ group.2 := by
  have hfind : (groups.find? fun other => decide (other.1 = group.1)) = some group := by
    cases hfound : groups.find? fun other => decide (other.1 = group.1) with
    | none => exact absurd (decide_eq_true rfl) (List.find?_eq_none.mp hfound group hgroup)
    | some other =>
        have hsame : other.1 = group.1 := by
          have := List.find?_some hfound
          exact of_decide_eq_true this
        rw [List.inj_on_of_nodup_map hnames (List.mem_of_find?_eq_some hfound) hgroup hsame]
  unfold whichOneof
  rw [hgroups, ok_bind, hfind]

end Which

/-- User-written groups have distinct names. -/
theorem userGroups_nodup {proto : DescriptorProto} (hvalid : proto.OneofsValid) :
    (proto.userGroups.map Prod.fst).Nodup := by
  unfold DescriptorProto.userGroups
  rw [List.map_map]
  have hsub := (List.filter_sublist (p := fun p : OneofDescriptorProto × Nat =>
    !proto.synthetic p.2) (l := proto.oneofDecl.zipIdx)).map fun p => p.1.name
  refine hsub.nodup ?_
  have hnames : (proto.oneofDecl.zipIdx.map fun p => p.1.name)
      = proto.oneofDecl.map (·.name) := by
    refine Eq.trans ?_ (congrArg (List.map (·.name)) (List.zipIdx_map_fst 0 proto.oneofDecl))
    rw [List.map_map]
    rfl
  rw [hnames]
  exact hvalid.names

/-- **Only user-written oneof groups are visible exactly when no field is proto3 `optional`.** -/
theorem onlyUserGroups_iff {proto : DescriptorProto} (hvalid : proto.OneofsValid)
    (hlen : proto.bytes.length ≤ isizeMax) {desc : Descriptor}
    (hparse : parseMessage proto.bytes = .ok desc.inner) :
    OnlyUserGroups proto desc ↔ ∀ field ∈ proto.field, field.proto3Optional = false := by
  have hdesc : desc.inner = proto.compiled := by
    rw [proto.parseMessage_bytes (by unfold isizeMax at hlen; omega)] at hparse
    exact (Except.ok.inj hparse).symm
  have hgroups := oneofs_eq_userGroups_iff hvalid hdesc
  -- with the synthetic groups out of the way, the lookups go through the same table
  constructor
  · exact fun h => hgroups.mp h.groups
  · intro h
    have htable := hgroups.mpr h
    have hnodup := userGroups_nodup hvalid
    refine ⟨htable, fun V rt printable clsName instance_ name hname =>
      whichOneof_unknown htable hname rt printable clsName instance_,
      fun V rt printable clsName instance_ group hgroup hnone => ?_,
      fun V rt printable clsName instance_ group hgroup m hm value hget hset hothers => ?_⟩
    · rw [whichOneof_group htable hnodup hgroup]
      exact firstSet_none hnone
    · rw [whichOneof_group htable hnodup hgroup]
      exact firstSet_some hm hget hset hothers

/-- `message C { oneof choice { int32 a = 1; string b = 2; } }`. -/
def choiceProto : DescriptorProto where
  name := "C"
  field := [
    { name := "a", number := 1, type := .scalar .int32, oneofIndex := some 0 },
    { name := "b", number := 2, type := .scalar .string, oneofIndex := some 0 }]
  oneofDecl := [{ name := "choice" }]

/-- The groups of a message without `optional` fields. -/
theorem onlyUserGroups_choiceProto :
    choiceProto.userGroups = [("choice", ["a", "b"])] ∧
      OnlyUserGroups choiceProto { inner := choiceProto.compiled } := by
  have hnone : ∀ field ∈ choiceProto.field, field.proto3Optional = false := by decide
  have hvalid : choiceProto.OneofsValid := by
    refine ⟨fun field hfield idx hidx => ?_, ?_, by decide, by decide,
      fun field hfield hoptional => ?_⟩
    · have hfirst : ∀ field ∈ choiceProto.field, field.oneofIndex = some 0 := by decide
      rw [hfirst field hfield] at hidx
      cases hidx
      decide
    · intro idx hidx
      have hzero : idx = 0 := by
        have : idx < 1 := hidx
        omega
      exact ⟨_, List.mem_cons_self, by rw [hzero]; rfl⟩
    · rw [hnone field hfield] at hoptional
      cases hoptional
  refine ⟨rfl, (@onlyUserGroups_iff choiceProto hvalid (by decide) { inner := choiceProto.compiled }
    (choiceProto.parseMessage_bytes (by decide))).mpr hnone⟩

/-- `message M { optional int32 x = 1; }`, as `protoc` describes it. -/
def optionalProto : DescriptorProto where
  name := "M"
  field := [
    { name := "x", number := 1, type := .scalar .int32, oneofIndex := some 0,
      proto3Optional := true }]
  oneofDecl := [{ name := "_x" }]

/-- **The synthetic declaration of an `optional` field is visible**: `oneofs` lists it, and
`which_oneof` accepts its name. -/
theorem optionalProto_synthetic_visible :
    optionalProto.OneofsValid ∧ parseMessage optionalProto.bytes = .ok optionalProto.compiled ∧
      optionalProto.userGroups = [] ∧
      ({ inner := optionalProto.compiled } : Descriptor).oneofs = .ok [("_x", [])] ∧
      ¬ OnlyUserGroups optionalProto { inner := optionalProto.compiled } := by
  -- the synthetic group of `optional int32 x` is listed, without members
  have honeofs : ({ inner := optionalProto.compiled } : Descriptor).oneofs = .ok [("_x", [])] := rfl
  refine ⟨⟨fun field hfield idx hidx => ?_, ?_, by decide, by decide, ?_⟩,
    optionalProto.parseMessage_bytes (by decide), rfl, honeofs, fun h => ?_⟩
  · cases List.mem_singleton.mp hfield
    cases hidx
    decide
  · intro idx hidx
    have hzero : idx = 0 := by
      have : idx < 1 := hidx
      omega
    exact ⟨_, List.mem_cons_self, by rw [hzero]; rfl⟩
  · intro field hfield hoptional
    refine ⟨?_, fun other hother _ => ?_⟩
    · cases List.mem_singleton.mp hfield
      rfl
    · rw [List.mem_singleton.mp hfield, List.mem_singleton.mp hother]
  · have hgroups := h.groups
    rw [honeofs] at hgroups
    cases hgroups

end FastProto
