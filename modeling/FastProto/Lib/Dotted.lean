import Mathlib.Data.List.Basic

/-! # Dotted names

A dotted name read as the list of the segments between its dots. `follow` looks the first segment up
and reads the others as attributes. -/

namespace Lib

/-- The segments of a dotted name: what `split('.')` yields. -/
def segments (s : String) : List String := (s.toList.splitOn '.').map String.ofList

/-- There is always at least one segment. -/
theorem segments_ne_nil (s : String) : segments s ≠ [] := by
  rw [segments, Ne, List.map_eq_nil_iff]
  exact List.splitOn_ne_nil _ _

/-- A name without dots is its only segment. -/
theorem segments_of_no_dot {s : String} (h : '.' ∉ s.toList) : segments s = [s] := by
  rw [segments, List.splitOn_eq_singleton h, List.map_singleton, String.ofList_toList]

/-- Joining two names by a dot joins their segments. -/
theorem segments_append (s t : String) : segments (s ++ "." ++ t) = segments s ++ segments t := by
  rw [segments, String.toList_append, String.toList_append, List.append_assoc,
    show (".".toList ++ t.toList) = '.' :: t.toList from rfl, List.splitOn_append_cons_self,
    List.map_append]
  rfl

/-- Segments have no dots, and joining them gives the name back: names with the same segments are
equal. -/
theorem segments_injective {s t : String} (h : segments s = segments t) : s = t := by
  have hinj : Function.Injective (List.map String.ofList) :=
    List.map_injective_iff.mpr fun a b hab => by simpa using congrArg String.toList hab
  have hsplit := hinj h
  have := congrArg (List.intercalate ['.']) hsplit
  rw [List.intercalate_splitOn, List.intercalate_splitOn] at this
  exact String.toList_inj.mp this

/-- Joining two lists of segments joins the names. -/
theorem intercalate_append {l l' : List (List Char)} (hl : l ≠ []) (hl' : l' ≠ []) :
    List.intercalate ['.'] (l ++ l')
      = List.intercalate ['.'] l ++ '.' :: List.intercalate ['.'] l' := by
  induction l with
  | nil => exact absurd rfl hl
  | cons s rest ih =>
      cases rest with
      | nil =>
          rw [List.singleton_append, List.intercalate_cons_of_ne_nil hl',
            List.intercalate_singleton]
          simp
      | cons s' rest =>
          rw [List.cons_append, List.intercalate_cons_of_ne_nil (by simp),
            List.intercalate_cons_of_ne_nil (by simp), ih (by simp)]
          simp

/-- **The segments of a name start with those of another** exactly when it stands at or below the
other. -/
theorem segments_prefix_iff {s t : String} :
    segments s <+: segments t ↔ t = s ∨ ∃ rest, t = s ++ "." ++ rest := by
  constructor
  · rintro ⟨tail, htail⟩
    rw [segments, segments] at htail
    obtain ⟨front, back, hsplit, hfront, rfl⟩ := List.map_eq_append_iff.mp htail.symm
    have hinj : Function.Injective (List.map String.ofList) :=
      List.map_injective_iff.mpr fun a b hab => by simpa using congrArg String.toList hab
    have hname := congrArg (List.intercalate ['.']) hsplit
    rw [List.intercalate_splitOn, hinj hfront] at hname
    rcases List.eq_nil_or_concat' back with rfl | ⟨_, _, hback⟩
    · rw [List.append_nil, List.intercalate_splitOn] at hname
      exact .inl (String.toList_inj.mp hname)
    · rw [intercalate_append (List.splitOn_ne_nil _ _) (by rw [hback]; simp),
        List.intercalate_splitOn] at hname
      refine .inr ⟨String.ofList (List.intercalate ['.'] back), String.toList_inj.mp ?_⟩
      simp [hname]
  · rintro (rfl | ⟨rest, rfl⟩)
    · exact List.prefix_refl _
    · rw [segments_append]
      exact List.prefix_append _ _

/-! ## Other separators -/

/-- What `split(sep)` yields. -/
def parts (sep : Char) (s : String) : List String := (s.toList.splitOn sep).map String.ofList

/-- A separator ends a part, another character goes to the first one. -/
theorem splitOn_cons (sep c : Char) (l : List Char) : (c :: l).splitOn sep
    = if c = sep then [] :: l.splitOn sep else (l.splitOn sep).modifyHead (c :: ·) := by
  rw [List.splitOn, List.splitOnP_cons_eq_if_modifyHead]
  simp only [beq_iff_eq]
  rfl

/-- There is one part more than separators. -/
theorem length_parts (sep : Char) (s : String) : (parts sep s).length = s.toList.count sep + 1 := by
  rw [parts, List.length_map]
  induction s.toList with
  | nil => rfl
  | cons c l ih =>
      rw [splitOn_cons]
      by_cases hc : c = sep
      · rw [if_pos hc, List.length_cons, ih, hc, List.count_cons_self]
      · rw [if_neg hc, List.length_modifyHead, ih, List.count_cons_of_ne hc]

/-- A character other than the separator stands in some part. -/
theorem exists_part_of_mem {sep c : Char} {s : String} (h : c ∈ s.toList) (hne : c ≠ sep) :
    ∃ part ∈ parts sep s, c ∈ part.toList := by
  obtain ⟨part, hpart, hc⟩ : ∃ part ∈ s.toList.splitOn sep, c ∈ part := by
    generalize s.toList = l at h
    induction l with
    | nil => cases h
    | cons d l ih =>
        rw [splitOn_cons]
        obtain ⟨first, rest, hsplit⟩ := List.exists_cons_of_ne_nil (List.splitOn_ne_nil sep l)
        rcases List.mem_cons.mp h with rfl | h
        · rw [if_neg hne, hsplit]
          exact ⟨c :: first, List.mem_cons_self, List.mem_cons_self⟩
        · obtain ⟨part, hpart, hc⟩ := ih h
          split
          · exact ⟨part, List.mem_cons_of_mem _ hpart, hc⟩
          · rw [hsplit] at hpart ⊢
            rcases List.mem_cons.mp hpart with rfl | hpart
            · exact ⟨d :: part, List.mem_cons_self, List.mem_cons_of_mem d hc⟩
            · exact ⟨part, List.mem_cons_of_mem _ hpart, hc⟩
  exact ⟨String.ofList part, List.mem_map_of_mem hpart, by rwa [String.toList_ofList]⟩

/-- **Another separator written for the first one** splits at the same places. -/
theorem segments_replace {sep : Char} {s : String} (h : '.' ∉ s.toList) :
    segments (String.ofList (s.toList.map fun c => if c == sep then '.' else c)) = parts sep s := by
  rw [segments, parts, String.toList_ofList]
  congr 1
  generalize s.toList = l at h
  induction l with
  | nil => rfl
  | cons c l ih =>
      rw [List.mem_cons, not_or] at h
      rw [List.map_cons, splitOn_cons, splitOn_cons, ih h.2]
      by_cases hc : c = sep
      · rw [if_pos hc, if_pos (by simp [hc])]
      · rw [if_neg hc, if_neg (by simpa [hc] using Ne.symm h.1)]
        simp [hc]

/-! ## Following a path -/

universe u

variable {α : Type u}

/-- What a path leads to: its first segment looked up, the others read as attributes. -/
def follow (look : String → Option α) (attr : α → String → Option α) : List String → Option α
  | [] => none
  | head :: rest => (look head).bind fun found => rest.foldlM attr found

variable {look : String → Option α} {attr : α → String → Option α}

/-- A path of one segment. -/
@[simp] theorem follow_singleton (name : String) : follow look attr [name] = look name := by
  rw [follow]
  exact Option.bind_fun_some _

/-- **One segment more** is one attribute more. -/
theorem follow_concat {path : List String} (hpath : path ≠ []) (name : String) :
    follow look attr (path ++ [name]) = (follow look attr path).bind fun found => attr found name := by
  cases path with
  | nil => exact absurd rfl hpath
  | cons head rest =>
      rw [List.cons_append, follow, follow, Option.bind_assoc]
      refine Option.bind_congr fun found _ => ?_
      rw [List.foldlM_append]
      refine Option.bind_congr fun found' _ => ?_
      exact (List.foldlM_cons ..).trans (Option.bind_fun_some _)

end Lib
