import FastProto.Lib.Assoc
import Mathlib.Data.List.Basic

/-! # Name scopes of Python

Python runs a class body in a scope of its own: a name read there is looked up among the names bound
so far in that body, then in the module, then among the builtins, and never in an enclosing class
body. A name with two underscores in front is rewritten inside a class. `Frame` is the state of such
a body, `Frame.read` and `Frame.bind` are what statements do to it. -/

namespace Lib

/-! ## Name mangling -/

/-- `s.startswith(start)`. -/
def beginsWith (start s : String) : Bool := start.toList.isPrefixOf s.toList

/-- `s.endswith(ending)`. -/
def endsIn (ending s : String) : Bool := ending.toList.isSuffixOf s.toList

/-- Whether a class body rewrites a name: two underscores in front, and not two at the end. -/
def isPrivate (name : String) : Bool := beginsWith "__" name && !endsIn "__" name

/-- The name a class is known by in rewritten names: without leading underscores. -/
def privateOwner (cls : String) : List Char := cls.toList.dropWhile (· == '_')

/-- The name that stands for `name` in the body of a class, or at module level. -/
def mangle (cls : Option String) (name : String) : String :=
  match cls with
  | none => name
  | some cls =>
      if isPrivate name && !(privateOwner cls).isEmpty then
        String.ofList ('_' :: privateOwner cls ++ name.toList)
      else name

/-- At module level names stay. -/
@[simp] theorem mangle_none (name : String) : mangle none name = name := rfl

/-! ## Frames -/

universe u

variable {α : Type u}

/-- Names with what they are bound to, the latest binding in front. -/
abbrev Scope (α : Type u) := List (String × α)

/-- The state of a module or of a class body while its statements run. -/
structure Frame (α : Type u) where
  /-- The class whose body it is; none at module level. -/
  cls : Option String := none
  /-- The names bound so far in this body. -/
  locals : Scope α
  /-- The names of the module, for a class body. -/
  globals : Scope α := []

namespace Frame

variable (fr : Frame α)

/-- Bind a name in the body. -/
def bind (binding : String × α) : Frame α :=
  { fr with locals := (mangle fr.cls binding.1, binding.2) :: fr.locals }

/-- Bind names one after the other. -/
def bindAll (bindings : List (String × α)) : Frame α := bindings.foldl bind fr

/-- The names of the module that the body belongs to. -/
def moduleScope : Scope α :=
  match fr.cls with
  | none => fr.locals
  | some _ => fr.globals

/-- Start the body of a class statement. -/
def enter (cls : String) : Frame α :=
  { cls := some cls, locals := [], globals := fr.moduleScope }

/-- What a name means in the body: its own names first, then those of the module, then the
builtins. -/
def read (builtins : String → Option α) (name : String) : Option α :=
  ((fr.locals.lookup (mangle fr.cls name)).or (fr.globals.lookup (mangle fr.cls name))).or
    (builtins (mangle fr.cls name))

@[simp] theorem bind_cls (binding : String × α) : (fr.bind binding).cls = fr.cls := rfl

@[simp] theorem bind_globals (binding : String × α) : (fr.bind binding).globals = fr.globals := rfl

/-- Binding names leaves the class and the module alone, and puts the names in front. -/
theorem bindAll_eq (bindings : List (String × α)) : fr.bindAll bindings =
    { fr with
      locals := (bindings.map fun b => (mangle fr.cls b.1, b.2)).reverse ++ fr.locals } := by
  induction bindings generalizing fr with
  | nil => rfl
  | cons b rest ih =>
      show (fr.bind b).bindAll rest = _
      rw [ih]
      simp [bind]

@[simp] theorem bindAll_cls (bindings : List (String × α)) :
    (fr.bindAll bindings).cls = fr.cls := by
  rw [bindAll_eq]

/-- Binding one list of names after another. -/
theorem bindAll_append (first second : List (String × α)) :
    fr.bindAll (first ++ second) = (fr.bindAll first).bindAll second :=
  List.foldl_append

variable {fr} {builtins : String → Option α}

/-- The names bound in a body, the latest in front. -/
theorem locals_bindAll (bindings : List (String × α)) : (fr.bindAll bindings).locals
    = (bindings.map fun b => (mangle fr.cls b.1, b.2)).reverse ++ fr.locals := by
  rw [bindAll_eq]

/-- **A name keeps its binding** exactly while nothing else is bound under it. -/
theorem lookup_bindAll_last {before after : List (String × α)} {name : String} {value : α}
    (hafter : ∀ b ∈ after, b.2 ≠ value) :
    (fr.bindAll (before ++ (name, value) :: after)).locals.lookup (mangle fr.cls name)
        = some value ↔
      ∀ b ∈ after, mangle fr.cls b.1 ≠ mangle fr.cls name := by
  have hvalue : (mangle fr.cls name, value) ∉ after.map fun b => (mangle fr.cls b.1, b.2) := by
    intro hmem
    obtain ⟨b, hb, heq⟩ := List.mem_map.mp hmem
    exact hafter b hb (Prod.mk.inj heq).2
  have hlast := lookup_reverse_append (l := before.map fun b => (mangle fr.cls b.1, b.2)) hvalue
  have hsome : ∃ found, ((before.map fun b => (mangle fr.cls b.1, b.2))
      ++ (mangle fr.cls name, value) :: after.map fun b => (mangle fr.cls b.1, b.2)).reverse.lookup
        (mangle fr.cls name) = some found := by
    rw [← Option.ne_none_iff_exists', Ne, lookup_eq_none_iff_not_mem]
    simp
  obtain ⟨found, hfound⟩ := hsome
  rw [locals_bindAll, List.map_append, List.map_cons, List.lookup_append, hfound, Option.some_or,
    ← hfound, hlast, List.map_map]
  exact ⟨fun h b hb heq => h (List.mem_map.mpr ⟨b, hb, heq⟩), fun h hmem => by
    obtain ⟨b, hb, heq⟩ := List.mem_map.mp hmem
    exact h b hb heq⟩

/-- **What is bound once is found under its name only**, and there while nothing else is bound. -/
theorem lookup_bindAll_iff {before after : List (String × α)} {name found : String} {value : α}
    (hlocals : ∀ b ∈ fr.locals, b.2 ≠ value) (hbefore : ∀ b ∈ before, b.2 ≠ value)
    (hafter : ∀ b ∈ after, b.2 ≠ value) :
    (fr.bindAll (before ++ (name, value) :: after)).locals.lookup found = some value ↔
      mangle fr.cls name = found ∧ ∀ b ∈ after, mangle fr.cls b.1 ≠ found := by
  by_cases hfound : mangle fr.cls name = found
  · subst hfound
    rw [lookup_bindAll_last hafter, and_iff_right rfl]
  · refine ⟨fun h => absurd ?_ hfound, fun h => absurd h.1 hfound⟩
    -- only one binding has the value
    have hmem := mem_of_lookup h
    rw [locals_bindAll, List.mem_append, List.mem_reverse, List.mem_map] at hmem
    rcases hmem with ⟨b, hb, heq⟩ | hmem
    · obtain ⟨hname, hvalue⟩ := Prod.mk.inj heq
      rcases List.mem_append.mp hb with hb | hb
      · exact absurd hvalue (hbefore b hb)
      · rcases List.mem_cons.mp hb with rfl | hb
        · exact hname
        · exact absurd hvalue (hafter b hb)
    · exact absurd rfl (hlocals _ hmem)

/-- **A name of the module or a builtin is read in a class body** exactly while the body does not
bind the name, where the body binds other objects only. -/
theorem read_bindAll_iff (hlocals : fr.locals = []) {bindings : List (String × α)} {name : String}
    {value : α} (hbindings : ∀ b ∈ bindings, b.2 ≠ value) :
    (fr.bindAll bindings).read builtins name = some value ↔
      (∀ b ∈ bindings, mangle fr.cls b.1 ≠ mangle fr.cls name) ∧
        (fr.globals.lookup (mangle fr.cls name)).or (builtins (mangle fr.cls name))
          = some value := by
  have hlookup : (fr.bindAll bindings).locals.lookup (mangle fr.cls name) = none ↔
      ∀ b ∈ bindings, mangle fr.cls b.1 ≠ mangle fr.cls name := by
    rw [locals_bindAll, hlocals, List.append_nil, lookup_eq_none_iff_not_mem, List.map_reverse,
      List.mem_reverse, List.map_map]
    exact ⟨fun h b hb heq => h (List.mem_map.mpr ⟨b, hb, heq⟩), fun h hmem => by
      obtain ⟨b, hb, heq⟩ := List.mem_map.mp hmem
      exact h b hb heq⟩
  rw [← hlookup, read, bindAll_cls, Option.or_assoc]
  have hglobals : (fr.bindAll bindings).globals = fr.globals := by rw [bindAll_eq]
  rw [hglobals]
  cases hfound : (fr.bindAll bindings).locals.lookup (mangle fr.cls name) with
  | none => simp
  | some other =>
      have hother : other ≠ value := by
        rw [locals_bindAll, hlocals, List.append_nil] at hfound
        obtain ⟨b, hb, heq⟩ := List.mem_map.mp (List.mem_reverse.mp (mem_of_lookup hfound))
        exact (Prod.mk.inj heq).2 ▸ hbindings b hb
      simp [hother]

end Frame

end Lib
