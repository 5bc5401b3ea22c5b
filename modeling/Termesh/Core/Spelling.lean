import Mathlib.Data.List.Basic
import Termesh.Core.Path

/-!
# The spelling of paths

Which lists of components a text can spell, and that these are read back from the text they are shown
as.

* `IsName`: a name between separators;
* `Path.Proper`, `proper_ofString`: the root and `.` stand only in front;
* `Path.normals`, `Proper.eq_normals`: an absolute path without `..` is its names;
* **`ofString_display_of_proper`**: a path is spelled by its display, `ofString_display`: so is a path
  of names.
-/

namespace Termesh

/-- A name between separators: neither empty nor a dot component. -/
def IsName (s : String) : Prop := s ≠ "" ∧ s ≠ "." ∧ s ≠ ".." ∧ '/' ∉ s.toList

/-- A component behind the first one. -/
def Component.Inner : Component → Prop
  | .parentDir => True
  | .normal s => IsName s
  | _ => False

namespace Path

/-- A path as `components` yields it. -/
def Proper : Path → Prop
  | [] => True
  | c :: cs => (c = .rootDir ∨ c = .curDir ∨ c.Inner) ∧ ∀ d ∈ cs, d.Inner

/-- The names of a path, in order. -/
def normals (p : Path) : List String :=
  p.filterMap fun
    | .normal s => some s
    | _ => none

theorem splitSlash_eq (cs : List Char) : splitSlash cs = cs.splitOn '/' := by
  induction cs with
  | nil => rfl
  | cons c cs ih =>
    rw [splitSlash, List.splitOn_cons_eq_if_modifyHead, ih]
    by_cases hc : c = '/'
    · simp [hc]
    · rw [if_neg hc, if_neg (by simpa using hc)]
      cases h : cs.splitOn '/' with
      | nil => exact absurd h (List.splitOn_ne_nil '/' cs)
      | cons piece pieces => rfl

theorem slash_not_mem {cs piece : List Char} (h : piece ∈ splitSlash cs) : '/' ∉ piece := by
  induction cs generalizing piece with
  | nil =>
    rw [splitSlash, List.mem_singleton] at h
    simp [h]
  | cons c cs ih =>
    rw [splitSlash] at h
    split at h
    · rcases List.mem_cons.1 h with rfl | h
      · simp
      · exact ih h
    · cases hs : splitSlash cs with
      | nil =>
        rw [hs, List.mem_singleton] at h
        simpa [h] using Ne.symm ‹¬c = '/'›
      | cons first rest =>
        rw [hs] at h ih
        rcases List.mem_cons.1 h with rfl | h
        · have := ih List.mem_cons_self
          simpa [this] using Ne.symm ‹¬c = '/'›
        · exact ih (List.mem_cons_of_mem first h)

theorem inner_component {piece : List Char} (h : '/' ∉ piece) {c : Component}
    (hc : component piece = some c) : c.Inner := by
  unfold component at hc
  split at hc
  · cases hc
  · rename_i hdot
    split at hc
    · cases hc
      trivial
    · rename_i hdots
      cases hc
      have hl : (String.ofList piece).toList = piece := String.toList_ofList
      refine ⟨fun hs => hdot (.inl ?_), fun hs => hdot (.inr ?_), fun hs => hdots ?_, ?_⟩
      · rw [← hl, hs]; rfl
      · rw [← hl, hs]; rfl
      · rw [← hl, hs]; rfl
      · rwa [hl]

theorem inner_pieces {pieces : List (List Char)} (h : ∀ piece ∈ pieces, '/' ∉ piece) :
    ∀ c ∈ pieces.filterMap component, c.Inner := by
  intro c hc
  rw [List.mem_filterMap] at hc
  exact inner_component (h _ hc.choose_spec.1) hc.choose_spec.2

theorem proper_of_inner {p : Path} (h : ∀ c ∈ p, c.Inner) : p.Proper := by
  cases p with
  | nil => trivial
  | cons c cs => exact ⟨.inr (.inr (h c List.mem_cons_self)), fun d hd => h d (.tail c hd)⟩

/-- Every text spells a proper path. -/
theorem proper_ofString (s : String) : (ofString s).Proper := by
  have hs : ∀ piece ∈ splitSlash s.toList, '/' ∉ piece := fun piece h => slash_not_mem h
  unfold ofString
  split
  · trivial
  · rename_i pieces hp
    rw [hp] at hs
    split
    · trivial
    · exact ⟨.inl rfl, inner_pieces fun piece h => hs piece (.tail _ h)⟩
  · rename_i pieces hp
    rw [hp] at hs
    exact ⟨.inr (.inl rfl), inner_pieces fun piece h => hs piece (.tail _ h)⟩
  · exact proper_of_inner (inner_pieces hs)

theorem eq_normals_of_inner {p : Path} (h : ∀ c ∈ p, c.Inner) (hdots : .parentDir ∉ p) :
    p = p.normals.map .normal := by
  induction p with
  | nil => rfl
  | cons c cs ih =>
    have hcs := ih (fun d hd => h d (.tail c hd)) fun hd => hdots (.tail c hd)
    have hc := h c List.mem_cons_self
    cases c with
    | normal s =>
      show Component.normal s :: cs = .normal s :: (normals cs).map .normal
      rw [← hcs]
    | parentDir => exact absurd List.mem_cons_self hdots
    | rootDir => exact hc.elim
    | curDir => exact hc.elim

/-- An absolute path without `..` is the root and its names. -/
theorem Proper.eq_normals {p : Path} (h : p.Proper) (ha : p.isAbsolute)
    (hdots : .parentDir ∉ p) : p = .rootDir :: p.normals.map .normal := by
  cases p with
  | nil => cases ha
  | cons c cs =>
    have hc : c = .rootDir := by simpa [isAbsolute] using ha
    subst c
    have hcs := eq_normals_of_inner h.2 fun hd => hdots (.tail _ hd)
    exact congrArg (Component.rootDir :: ·) hcs

/-! ## Reading a display back -/

theorem component_name {s : String} (h : IsName s) : component s.toList = some (.normal s) := by
  unfold component
  rw [if_neg, if_neg, String.ofList_toList]
  · intro hs
    exact h.2.2.1 (String.toList_injective hs)
  · intro hs
    rcases hs with hs | hs
    · exact h.1 (String.toList_injective hs)
    · exact h.2.1 (String.toList_injective hs)

theorem component_display {c : Component} (h : c.Inner) :
    component (Component.display c).toList = some c := by
  cases c with
  | rootDir => cases h
  | curDir => cases h
  | parentDir => rfl
  | normal s => exact component_name h

theorem filterMap_component {cs : Path} (h : ∀ c ∈ cs, c.Inner) :
    (cs.map fun c => (Component.display c).toList).filterMap component = cs := by
  induction cs with
  | nil => rfl
  | cons c cs ih =>
    rw [List.map_cons, List.filterMap_cons_some (component_display (h c List.mem_cons_self)),
      ih fun d hd => h d (.tail c hd)]

theorem slash_notMem_display {c : Component} (h : c = .rootDir ∨ c = .curDir ∨ c.Inner) :
    '/' ∉ (Component.display c).toList := by
  obtain rfl | rfl | h := h
  · simp [Component.display]
  · simp [Component.display]
  · cases c with
    | rootDir => cases h
    | curDir => cases h
    | parentDir => simp [Component.display]
    | normal s => exact h.2.2.2

theorem splitSlash_display {p : Path} (h : p.Proper) (hne : p ≠ []) (hroot : p ≠ [.rootDir]) :
    splitSlash p.display.toList = p.map fun c => (Component.display c).toList := by
  have hd : p.display = String.intercalate "/" (p.map Component.display) := by
    unfold display
    split
    · exact absurd rfl hroot
    · rfl
  rw [hd, splitSlash_eq, String.toList_intercalate, List.map_map]
  refine List.splitOn_intercalate '/' (fun l hl => ?_) (by simpa using hne)
  obtain ⟨c, hc, rfl⟩ := List.mem_map.mp hl
  cases p with
  | nil => exact absurd rfl hne
  | cons d cs =>
    obtain rfl | hc := List.mem_cons.mp hc
    · exact slash_notMem_display h.1
    · exact slash_notMem_display (.inr (.inr (h.2 c hc)))

/-- **A path is spelled by its display.** -/
theorem ofString_display_of_proper {p : Path} (h : p.Proper) : ofString p.display = p := by
  by_cases hne : p = []
  · rw [hne]
    rfl
  by_cases hroot : p = [.rootDir]
  · rw [hroot]
    rfl
  have hp := splitSlash_display h hne hroot
  obtain ⟨c, cs, rfl⟩ := List.exists_cons_of_ne_nil hne
  have hcs := filterMap_component h.2
  rw [ofString, hp, List.map_cons]
  obtain rfl | rfl | hc := h.1
  · have hmore : cs.map (fun c => (Component.display c).toList) ≠ [] := by
      simpa using fun hnil => hroot (by rw [hnil])
    change (if cs.map _ = [] then [] else .rootDir :: (cs.map _).filterMap component) = _
    rw [if_neg hmore, hcs]
  · change .curDir :: (cs.map _).filterMap component = _
    rw [hcs]
  · have hall : component (Component.display c).toList = some c := component_display hc
    split
    · contradiction
    · rename_i hcons
      rw [(List.cons.inj hcons).1] at hall
      cases hall
    · rename_i hcons
      rw [(List.cons.inj hcons).1] at hall
      cases hall
    · rw [List.filterMap_cons_some hall, hcs]

/-- A path of names is spelled by its display. -/
theorem ofString_display {names : List String} (h : ∀ s ∈ names, IsName s) :
    ofString (display (names.map .normal)) = names.map .normal := by
  refine ofString_display_of_proper (proper_of_inner fun c hc => ?_)
  obtain ⟨s, hs, rfl⟩ := List.mem_map.mp hc
  exact h s hs

end Path

end Termesh
