import FastProto.Decode
import FastProto.FastInit
import FastProto.Lib.Dotted
import FastProto.Lib.Threads

/-! # Linking (`_resolve`, `_ensure_linked`)

Descriptors are linked on first use: the references of a class are resolved in the namespace of its
module and stored on the descriptor, then the classes found are linked in turn. Calls of `to_bytes`
and `from_bytes` run as threads over the shared descriptors. An atomic step reads `is_linked`, makes
the native `link` call, enters the recursive call for the next referenced class, or runs the codec. -/

namespace FastProto

open Lib

/-! ## Resolving a name -/

section Resolve

variable {Obj : Type} (getattr : Obj → String → Option Obj) (namespace_ : List (String × Obj))

/-- The object a chain of names leads to: a module-level name, then attributes. -/
def chainAt : List String → Option Obj
  | [] => none
  | part :: attrs => (namespace_.lookup part).bind fun obj => attrs.foldlM getattr obj

/-- The first suffix of the segments whose chain resolves. -/
def resolveParts : List String → Option Obj
  | [] => none
  | part :: rest =>
      match chainAt getattr namespace_ (part :: rest) with
      | some obj => some obj
      | none => resolveParts rest

/-- `_resolve`: look up a (possibly nested) type by its qualified proto name. -/
def resolve (qualified : String) : PyResult Obj :=
  match resolveParts getattr namespace_ (segments qualified) with
  | some obj => .ok obj
  | none => .error (.lookupError ("cannot resolve referenced type '" ++ qualified ++ "'"))

/-- **Where a name leads**: the chain of one of its suffixes leads to the object, and no longer suffix
has a chain. -/
def LeadsTo (parts : List String) (obj : Obj) : Prop :=
  ∃ start, chainAt getattr namespace_ (parts.drop start) = some obj ∧
    ∀ earlier < start, chainAt getattr namespace_ (parts.drop earlier) = none

variable {getattr namespace_}

/-- The search over the suffixes finds the object that the name leads to. -/
theorem resolveParts_eq_some {parts : List String} {obj : Obj} :
    resolveParts getattr namespace_ parts = some obj ↔ LeadsTo getattr namespace_ parts obj := by
  induction parts with
  | nil =>
      refine ⟨nofun, ?_⟩
      rintro ⟨start, hchain, -⟩
      rw [List.drop_nil] at hchain
      cases hchain
  | cons part rest ih =>
      unfold resolveParts
      cases hchain : chainAt getattr namespace_ (part :: rest) with
      | some obj' =>
          dsimp only
          constructor
          · intro h
            cases h
            exact ⟨0, hchain, fun _ h => absurd h (Nat.not_lt_zero _)⟩
          · rintro ⟨start, hsuffix, hearlier⟩
            cases start with
            | zero => rwa [List.drop_zero, hchain] at hsuffix
            | succ start =>
                have hnone := hearlier 0 (Nat.succ_pos _)
                rw [List.drop_zero, hchain] at hnone
                cases hnone
      | none =>
          dsimp only
          rw [ih]
          constructor
          · rintro ⟨start, hsuffix, hearlier⟩
            refine ⟨start + 1, hsuffix, fun earlier hlt => ?_⟩
            cases earlier with
            | zero => exact hchain
            | succ earlier => exact hearlier earlier (Nat.lt_of_succ_lt_succ hlt)
          · rintro ⟨start, hsuffix, hearlier⟩
            cases start with
            | zero => rw [List.drop_zero, hchain] at hsuffix; cases hsuffix
            | succ start =>
                exact ⟨start, hsuffix, fun earlier hlt =>
                  hearlier (earlier + 1) (Nat.succ_lt_succ hlt)⟩

/-- `_resolve` returns the object that the name leads to. -/
theorem resolve_eq_ok {qualified : String} {obj : Obj} :
    resolve getattr namespace_ qualified = .ok obj ↔
      LeadsTo getattr namespace_ (segments qualified) obj := by
  rw [← resolveParts_eq_some]
  unfold resolve
  cases resolveParts getattr namespace_ (segments qualified) with
  | none => exact ⟨nofun, nofun⟩
  | some obj' => simp

end Resolve

/-! ## The program being linked -/

/-- The Python side of a running program: its classes, the parsed descriptors, the namespaces of the
modules and the attributes of objects. Classes and the other objects met on the way are told apart by
their identity. -/
structure Program where
  cls : ClassId → PyClass
  inner : DescId → MessageDescriptor
  /-- `vars(sys.modules[cls.__module__])`. -/
  moduleVars : ClassId → List (String × ClassId)
  getattr : ClassId → String → Option ClassId

/-- The compiled descriptors, as far as linking has got. -/
abbrev Descriptors := DescId → Descriptor

/-- A method call that links on first use. -/
inductive Operation where
  | toBytes (instance_ : PyVal)
  | fromBytes (data : Bytes)

/-- What a method call returns or raises. -/
inductive Outcome where
  | encoded (result : PyResult Bytes)
  | decoded (result : PyResult PyVal)
  /-- Linking raised. -/
  | raised (err : PyErr)

namespace Program

variable (p : Program)

/-- The descriptors as `compile_descriptor` leaves them. -/
def compiled : Descriptors := fun desc => { inner := p.inner desc }

/-- The codec's view of the program. -/
def world (descs : Descriptors) : World := { cls := p.cls, descriptor := descs }

/-- `{number: _resolve(namespace, name) for number, name in references}`. -/
def resolved (cls : ClassId) (references : List (UInt32 × String)) :
    PyResult (List (UInt32 × ClassId)) :=
  references.foldlM
    (fun acc (number, name) => do
      let target ← resolve p.getattr (p.moduleVars cls) name
      .ok (upsertBy (· == ·) acc number target))
    []

/-- The `fast_init` argument of the `link` call. -/
def fastInit (cls : ClassId) (inner : MessageDescriptor) : Option FastInit :=
  (fastInitDefaults (p.cls cls) inner).map fun defaults => { cls, defaults }

/-- What the native `link` makes of the mapping. -/
def linkRefs (refs : List (UInt32 × ClassId)) : Refs :=
  refs.map fun ref => (ref.1, buildLinkedRef ref.2 (p.cls ref.2))

/-- What `_ensure_linked` does once it found the flag unset, up to its loop: the linked descriptor and
the classes to go on with. -/
def linkOwn (cls : ClassId) (desc : Descriptor) : PyResult (Descriptor × List ClassId) := do
  let refs ← p.resolved cls desc.inner.refFields
  let desc ← desc.link (p.linkRefs refs) (p.fastInit cls desc.inner)
  .ok (desc, refs.map (·.2))

/-- Run the codec once the descriptor is linked. -/
def run (descs : Descriptors) (cls : ClassId) (desc : DescId) : Operation → Outcome
  | .toBytes instance_ => .encoded (encode (p.world descs).runtime desc instance_)
  | .fromBytes data => .decoded (decode (p.world descs) desc cls data)

end Program

/-! ## Threads -/

/-- An activation of `_ensure_linked`. -/
inductive Frame where
  /-- Entered; the flag was not read yet. -/
  | enter (cls : ClassId)
  /-- The flag was not set. -/
  | link (cls : ClassId)
  /-- Linked; the referenced classes still to be entered. -/
  | loop (targets : List ClassId)

/-- A thread that runs one method of a message class. -/
inductive Thread where
  /-- Called; the flag was not read yet. -/
  | call (cls : ClassId) (op : Operation)
  /-- Inside `_ensure_linked`, the innermost activation first. -/
  | linking (cls : ClassId) (op : Operation) (stack : List Frame)
  /-- About to run the codec. -/
  | ready (cls : ClassId) (op : Operation)
  | done (cls : ClassId) (op : Operation) (outcome : Outcome)

/-- Go on after an activation has returned. -/
def Thread.resume (cls : ClassId) (op : Operation) : List Frame → Thread
  | [] => .ready cls op
  | stack => .linking cls op stack

/-- Raised when `__fastproto__` is read off an object that has none. -/
def noDescriptor : PyErr := .attributeError "__fastproto__"

namespace Program

variable (p : Program)

/-- One step of the innermost activation of `_ensure_linked`. -/
def frameStep (descs : Descriptors) (cls : ClassId) (op : Operation) (frame : Frame)
    (stack : List Frame) : Descriptors × Thread :=
  match frame with
  | .enter c =>
      match (p.cls c).fastproto with
      | none => (descs, .done cls op (.raised noDescriptor))
      | some d =>
          if (descs d).linked then (descs, .resume cls op stack)
          else (descs, .linking cls op (.link c :: stack))
  | .link c =>
      match (p.cls c).fastproto with
      | none => (descs, .done cls op (.raised noDescriptor))
      | some d =>
          match p.linkOwn c (descs d) with
          | .ok (desc, targets) =>
              (Function.update descs d desc, .linking cls op (.loop targets :: stack))
          | .error err => (descs, .done cls op (.raised err))
  | .loop [] => (descs, .resume cls op stack)
  | .loop (target :: targets) =>
      if (p.cls target).fastproto.isSome then
        (descs, .linking cls op (.enter target :: .loop targets :: stack))
      else (descs, .linking cls op (.loop targets :: stack))

/-- **The step of a thread**; none once it is done. -/
def threadStep (descs : Descriptors) : Thread → Option (Descriptors × Thread)
  | .call cls op =>
      match (p.cls cls).fastproto with
      | none => some (descs, .done cls op (.raised noDescriptor))
      | some d =>
          if (descs d).linked then some (descs, .ready cls op)
          else some (descs, .linking cls op [.enter cls])
  | .linking cls op [] => some (descs, .ready cls op)
  | .linking cls op (frame :: stack) => some (p.frameStep descs cls op frame stack)
  | .ready cls op =>
      match (p.cls cls).fastproto with
      | none => some (descs, .done cls op (.raised noDescriptor))
      | some d => some (descs, .done cls op (p.run descs cls d op))
  | .done _ _ _ => none

end Program

/-! ## What linking a class does -/

/-- **Linking with the guard's defaults succeeds**: references stored before stay. -/
theorem Program.link_fastInit (p : Program) (cls : ClassId) (desc : Descriptor) (refs : Refs) :
    desc.link refs (p.fastInit cls desc.inner) = .ok { desc with
      refs := desc.refs.or (some refs)
      linked := true
      fastInit := desc.fastInit.or (p.fastInit cls desc.inner) } := by
  unfold Descriptor.link Program.fastInit
  cases hdefaults : fastInitDefaults (p.cls cls) desc.inner with
  | none => rfl
  | some defaults =>
      dsimp only [Option.map_some]
      rw [if_neg (by simpa using length_fastInitDefaults hdefaults)]

/-- **What linking a class does**: it stores the references it resolved, unless there are some, and
sets the flag. -/
theorem Program.linkOwn_eq_ok {p : Program} {cls : ClassId} {desc desc' : Descriptor}
    {targets : List ClassId} : p.linkOwn cls desc = .ok (desc', targets) ↔
      ∃ refs, p.resolved cls desc.inner.refFields = .ok refs ∧ targets = refs.map (·.2) ∧
        desc' = { desc with
          refs := desc.refs.or (some (p.linkRefs refs))
          linked := true
          fastInit := desc.fastInit.or (p.fastInit cls desc.inner) } := by
  unfold Program.linkOwn
  rw [bind_eq_ok]
  refine exists_congr fun refs => and_congr_right fun _ => ?_
  rw [p.link_fastInit, ok_bind]
  constructor
  · intro h
    cases h
    exact ⟨rfl, rfl⟩
  · rintro ⟨rfl, rfl⟩
    rfl

/-- The numbers of the references of a message with distinct field numbers are distinct. -/
theorem nodup_refFields {inner : MessageDescriptor}
    (h : (inner.fields.map (·.number)).Nodup) : (inner.refFields.map (·.1)).Nodup := by
  have hsub : ∀ fields : List FieldDescriptor, ((fields.filterMap fun f =>
      if f.kind.needsRef then f.typeName.map fun name => (f.number, name) else none).map
        (·.1)).Sublist (fields.map (·.number)) := by
    intro fields
    induction fields with
    | nil => exact .slnil
    | cons f fields ih =>
        rw [List.filterMap_cons]
        split
        · rename_i hnone
          exact ih.cons _
        · rename_i r hsome
          rw [List.map_cons, List.map_cons]
          split at hsome
          · obtain ⟨name, -, rfl⟩ := Option.map_eq_some_iff.mp hsome
            exact ih.cons_cons _
          · cases hsome
  exact h.sublist (hsub inner.fields)

/-- A reference belongs to a field that needs one. -/
theorem mem_refFields {inner : MessageDescriptor} {number : UInt32} {name : String}
    (h : (number, name) ∈ inner.refFields) :
    ∃ field ∈ inner.fields, field.number = number ∧ field.kind.needsRef = true := by
  obtain ⟨field, hfield, hsome⟩ := List.mem_filterMap.mp h
  split at hsome
  · rename_i hneeds
    obtain ⟨name', -, hpair⟩ := Option.map_eq_some_iff.mp hsome
    cases hpair
    exact ⟨field, hfield, rfl, hneeds⟩
  · cases hsome

/-- The references stored under a number. -/
theorem Program.lookup_linkRefs (p : Program) (refs : List (UInt32 × ClassId)) (number : UInt32) :
    (p.linkRefs refs).lookup number
      = (refs.lookup number).map fun target => buildLinkedRef target (p.cls target) :=
  lookup_map_snd (fun target => buildLinkedRef target (p.cls target)) refs number

/-- What is resolved one by one keeps the numbers. -/
theorem map_fst_of_resolved {R : UInt32 × String → UInt32 × ClassId → Prop}
    {references : List (UInt32 × String)} {refs : List (UInt32 × ClassId)}
    (h : List.Forall₂ (fun reference ref => ref.1 = reference.1 ∧ R reference ref) references refs) :
    refs.map (·.1) = references.map (·.1) := by
  induction h with
  | nil => rfl
  | cons hr _ ih => rw [List.map_cons, List.map_cons, hr.1, ih]

/-- **With distinct numbers, the references are resolved one by one.** -/
theorem Program.resolved_eq_ok {p : Program} {cls : ClassId} {references : List (UInt32 × String)}
    (hnodup : (references.map (·.1)).Nodup) {refs : List (UInt32 × ClassId)} :
    p.resolved cls references = .ok refs ↔
      List.Forall₂ (fun reference ref => ref.1 = reference.1 ∧
        resolve p.getattr (p.moduleVars cls) reference.2 = .ok ref.2) references refs := by
  -- the references are resolved in order; a number that comes again would replace the earlier one
  have hrun : ∀ (references : List (UInt32 × String)) (acc : List (UInt32 × ClassId)),
      (acc.map Prod.fst ++ references.map Prod.fst).Nodup → ∀ refs,
        (references.foldlM (fun acc (r : UInt32 × String) => do
          let target ← resolve p.getattr (p.moduleVars cls) r.2
          .ok (upsertBy (· == ·) acc r.1 target)) acc : PyResult _) = .ok refs ↔
        ∃ rest, refs = acc ++ rest ∧ List.Forall₂ (fun reference ref => ref.1 = reference.1 ∧
          resolve p.getattr (p.moduleVars cls) reference.2 = .ok ref.2) references rest := by
    intro references
    induction references with
    | nil =>
        intro acc _ refs
        constructor
        · intro h
          cases h
          exact ⟨[], (List.append_nil _).symm, .nil⟩
        · rintro ⟨rest, rfl, hrel⟩
          cases hrel
          rw [List.append_nil]
          rfl
    | cons r references ih =>
        intro acc hnodup refs
        have hnew : ∀ q ∈ acc, (q.1 == r.1) = false := by
          intro q hq
          rw [beq_eq_false_iff_ne]
          intro heq
          refine (List.nodup_append.mp hnodup).2.2 q.1 (List.mem_map_of_mem hq) r.1 ?_ heq
          simp
        have hnext : ∀ target : ClassId, ((acc ++ [(r.1, target)]).map Prod.fst
            ++ references.map Prod.fst).Nodup := by
          intro target
          simpa using hnodup
        rw [List.foldlM_cons, bind_eq_ok]
        constructor
        · rintro ⟨acc', hstep, hfold⟩
          obtain ⟨target, htarget, hstep⟩ := bind_eq_ok.mp hstep
          cases hstep
          rw [upsertBy_of_new target hnew] at hfold
          obtain ⟨rest, rfl, hrel⟩ := (ih _ (hnext target) refs).mp hfold
          exact ⟨(r.1, target) :: rest, by rw [List.append_assoc]; rfl, .cons ⟨rfl, htarget⟩ hrel⟩
        · rintro ⟨rest, rfl, hrel⟩
          cases hrel with
          | @cons _ ref _ rest hr hrel =>
              obtain ⟨number, target⟩ := ref
              obtain ⟨hnumber, htarget⟩ := hr
              dsimp only at hnumber htarget
              subst hnumber
              refine ⟨acc ++ [(r.1, target)], ?_, (ih _ (hnext target) _).mpr
                ⟨rest, by rw [List.append_assoc]; rfl, hrel⟩⟩
              rw [htarget, ok_bind, upsertBy_of_new target hnew]
  unfold Program.resolved
  rw [hrun references [] (by simpa using hnodup) refs]
  simp

end FastProto
