import Termesh.Editor.Change

/-!
# Cursors and selections

A cursor is a zero-width `Range`. A `Selection` is a non-empty list of ranges with a primary one;
the index of the primary range is valid by construction.
-/

namespace Termesh

/-- A selection with a fixed `anchor` and a moving `head`. `head < anchor` is legal. -/
structure Range where
  anchor : ℕ
  head : ℕ
deriving DecidableEq, Repr

namespace Range

/-- A zero-width range. -/
def point (pos : ℕ) : Range := ⟨pos, pos⟩

def isEmpty (r : Range) : Bool := r.anchor == r.head

/-- The smaller bound. -/
def start (r : Range) : ℕ := min r.anchor r.head

/-- The larger bound. -/
def stop (r : Range) : ℕ := max r.anchor r.head

/-- Carry this range through a change made elsewhere in the document. -/
def map (r : Range) (changes : ChangeSet) : Range :=
  ⟨changes.mapPos r.anchor .after, changes.mapPos r.head .after⟩

end Range

/-- The ranges owned by a buffer. -/
structure Selection where
  ranges : List Range
  primaryIndex : ℕ
  valid : primaryIndex < ranges.length
deriving DecidableEq

namespace Selection

def single (range : Range) : Selection := ⟨[range], 0, Nat.one_pos⟩

def point (pos : ℕ) : Selection := single (.point pos)

/-- The range that drives scrolling and single-cursor operations. -/
def primary (s : Selection) : Range := s.ranges.get ⟨s.primaryIndex, s.valid⟩

/-- Carry every range through a change. -/
def map (s : Selection) (changes : ChangeSet) : Selection where
  ranges := s.ranges.map (·.map changes)
  primaryIndex := s.primaryIndex
  valid := by simpa using s.valid

/-- Every anchor and head lies in a document of `len` characters. -/
def Within (s : Selection) (len : ℕ) : Prop := ∀ r ∈ s.ranges, r.anchor ≤ len ∧ r.head ≤ len

instance (s : Selection) (len : ℕ) : Decidable (s.Within len) :=
  inferInstanceAs (Decidable (∀ r ∈ s.ranges, _))

theorem Within.primary {s : Selection} {len : ℕ} (h : s.Within len) :
    s.primary.anchor ≤ len ∧ s.primary.head ≤ len := h _ (List.get_mem _ _)

theorem within_point {pos len : ℕ} (h : pos ≤ len) : (point pos).Within len := by
  intro r hr
  obtain rfl : r = .point pos := by simpa [point, single] using hr
  exact ⟨h, h⟩

end Selection

end Termesh
