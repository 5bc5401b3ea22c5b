import Mathlib.Data.List.Basic

/-!
# Lines of a stream

A stream is cut behind each separator. What arrives in chunks is kept until its line is complete.

* `takeLines`: the complete lines in front, and what is behind them; `takeLines_open`;
* **`takeLines_append`**: cutting a longer stream goes on with what was behind the lines;
* `allLines`: the lines, with the one that no separator ends; `allLines_append`.
-/

namespace Lines

variable {α : Type*} [DecidableEq α] (separator : α)

/-- The complete lines in front of a stream, each with its separator, and what is behind them. -/
@[simp] def takeLines : List α → List (List α) × List α
  | [] => ([], [])
  | a :: l =>
    if a = separator then ([a] :: (takeLines l).1, (takeLines l).2)
    else
      match (takeLines l).1 with
      | [] => ([], a :: (takeLines l).2)
      | line :: lines => ((a :: line) :: lines, (takeLines l).2)

/-- The lines of a stream, with the last one when no separator ends it. -/
def allLines (l : List α) : List (List α) :=
  if (takeLines separator l).2 = [] then (takeLines separator l).1
  else (takeLines separator l).1 ++ [(takeLines separator l).2]

variable {separator}

theorem takeLines_open {l : List α} (h : separator ∉ l) : takeLines separator l = ([], l) := by
  induction l with
  | nil => rfl
  | cons a l ih =>
    simp only [List.mem_cons, not_or] at h
    rw [takeLines, ih h.2, if_neg (Ne.symm h.1)]

/-- **Cutting a longer stream goes on with what was behind the lines.** -/
theorem takeLines_append (l l' : List α) :
    takeLines separator (l ++ l') =
      ((takeLines separator l).1 ++
          (takeLines separator ((takeLines separator l).2 ++ l')).1,
        (takeLines separator ((takeLines separator l).2 ++ l')).2) := by
  induction l with
  | nil => rfl
  | cons a l ih =>
    rw [List.cons_append, takeLines, takeLines, ih]
    by_cases ha : a = separator
    · rw [if_pos ha, if_pos ha]
      rfl
    · rw [if_neg ha, if_neg ha]
      cases hlines : (takeLines separator l).1 with
      | nil => simp only [List.nil_append, List.cons_append, takeLines, if_neg ha]
      | cons line lines => rfl

theorem notMem_takeLines (l : List α) : separator ∉ (takeLines separator l).2 := by
  induction l with
  | nil => simp [takeLines]
  | cons a l ih =>
    rw [takeLines]
    by_cases ha : a = separator
    · rwa [if_pos ha]
    · rw [if_neg ha]
      cases (takeLines separator l).1 with
      | nil => simp [Ne.symm ha, ih]
      | cons line lines => exact ih

/-- The lines of a longer stream: those in front, and those of what was behind them. -/
theorem allLines_append (l l' : List α) :
    allLines separator (l ++ l') =
      (takeLines separator l).1 ++ allLines separator ((takeLines separator l).2 ++ l') := by
  rw [allLines, allLines, takeLines_append]
  split_ifs
  · rfl
  · rw [List.append_assoc]

end Lines
