import Mathlib.Tactic.Common

/-!
# Computations that ask questions

A computation asks questions one after another and may fail; an answer may depend on what was asked
before it.

* `Asking`, `ask`, `fail`: the monad;
* `Asks`: the questions a computation asks from a log on, and what holds of its result;
* `Answered`: a question of a log, with its answer;
* **`Asks.bind`**, `Asks.pure`, `Asks.fail`, `Asks.ask`, `Asks.mono`: its rules.
-/

/-- How questions are answered, given those asked before. -/
abbrev Oracle (κ ρ : Type) := List κ → κ → ρ

/-- A computation with questions in `κ`, answers in `ρ` and errors in `ε`. -/
def Asking (κ ρ ε α : Type) := Oracle κ ρ → List κ → Except ε α × List κ

namespace Asking

variable {κ ρ ε α β : Type}

instance : Monad (Asking κ ρ ε) where
  pure a := fun _ log => (.ok a, log)
  bind m f := fun o log =>
    match m o log with
    | (.ok a, log) => f a o log
    | (.error e, log) => (.error e, log)

/-- One question. -/
def ask (k : κ) : Asking κ ρ ε ρ := fun o log => (.ok (o log k), log ++ [k])

/-- An error, and no question. -/
def fail (e : ε) : Asking κ ρ ε α := fun _ log => (.error e, log)

/-- A result that may be an error. -/
def ofExcept : Except ε α → Asking κ ρ ε α
  | .ok a => pure a
  | .error e => fail e

/-- From a log on, only questions that meet `P` are asked, and a result meets `post` with the log
then. -/
def Asks (P : κ → Prop) (o : Oracle κ ρ) (log : List κ) (m : Asking κ ρ ε α)
    (post : List κ → α → Prop) : Prop :=
  ∃ asked, (m o log).2 = log ++ asked ∧ (∀ k ∈ asked, P k) ∧
    ∀ a, (m o log).1 = .ok a → post (log ++ asked) a

/-- Behind `start`, the log has the question with this answer. -/
def Answered (o : Oracle κ ρ) (start log : List κ) (k : κ) (r : ρ) : Prop :=
  ∃ front, start <+: front ∧ front ++ [k] <+: log ∧ o front k = r

variable {P : κ → Prop} {o : Oracle κ ρ} {start log : List κ} {m : Asking κ ρ ε α}
  {post post' : List κ → α → Prop}

theorem Answered.here (h : start <+: log) (k : κ) : Answered o start (log ++ [k]) k (o log k) :=
  ⟨log, h, List.prefix_rfl, rfl⟩

theorem Answered.mono {log' : List κ} {k : κ} {r : ρ} (h : Answered o start log k r)
    (hlog : log <+: log') : Answered o start log' k r := by
  obtain ⟨front, hstart, hfront, hr⟩ := h
  exact ⟨front, hstart, hfront.trans hlog, hr⟩

theorem Asks.asked (h : Asks P o log m post) :
    ∃ asked, (m o log).2 = log ++ asked ∧ ∀ k ∈ asked, P k := by
  obtain ⟨asked, hlog, hasked, -⟩ := h
  exact ⟨asked, hlog, hasked⟩

theorem Asks.pure {a : α} (h : post log a) : Asks P o log (pure a : Asking κ ρ ε α) post :=
  ⟨[], by simp [Pure.pure], by simp, fun b hb => by cases hb; simpa using h⟩

theorem Asks.fail {e : ε} : Asks P o log (fail e : Asking κ ρ ε α) post :=
  ⟨[], by simp [Asking.fail], by simp, by simp [Asking.fail]⟩

theorem Asks.ofExcept {x : Except ε α} (h : ∀ a, x = .ok a → post log a) :
    Asks P o log (ofExcept x) post := by
  cases x with
  | ok a => exact .pure (h a rfl)
  | error e => exact .fail

theorem Asks.ask {k : κ} {post : List κ → ρ → Prop} (hk : P k) (h : post (log ++ [k]) (o log k)) :
    Asks P o log (ask k : Asking κ ρ ε ρ) post :=
  ⟨[k], rfl, by simpa using hk, fun a ha => by cases ha; exact h⟩

theorem Asks.ofExcept_true {x : Except ε α} :
    Asks P o log (Asking.ofExcept x) fun _ _ => True := .ofExcept fun _ _ => trivial

theorem Asks.mono (hm : Asks P o log m post)
    (h : ∀ log' a, log <+: log' → post log' a → post' log' a) : Asks P o log m post' := by
  obtain ⟨asked, hlog, hasked, hpost⟩ := hm
  exact ⟨asked, hlog, hasked, fun a ha => h _ a (List.prefix_append _ _) (hpost a ha)⟩

@[simp] theorem log_ofExcept (x : Except ε α) : ((ofExcept x : Asking κ ρ ε α) o log).2 = log := by
  cases x <;> rfl

theorem bind_of_error {f : α → Asking κ ρ ε β} {e : ε} (h : (m o log).1 = .error e) :
    (m >>= f) o log = (.error e, (m o log).2) := by
  simp only [Bind.bind]
  split
  · rename_i a log' heq
    simp [heq] at h
  · rename_i e' log' heq
    obtain rfl : e' = e := by simpa [heq] using h
    rw [heq]

theorem bind_of_ok {f : α → Asking κ ρ ε β} {a : α} (h : (m o log).1 = .ok a) :
    (m >>= f) o log = f a o (m o log).2 := by
  simp only [Bind.bind]
  split
  · rename_i a' log' heq
    obtain rfl : a' = a := by simpa [heq] using h
    rw [heq]
  · rename_i e log' heq
    simp [heq] at h

/-- **One after the other.** -/
theorem Asks.bind {f : α → Asking κ ρ ε β} {post' : List κ → β → Prop} (hm : Asks P o log m post)
    (hf : ∀ log' a, log <+: log' → post log' a → Asks P o log' (f a) post') :
    Asks P o log (m >>= f) post' := by
  obtain ⟨asked, hlog, hasked, hpost⟩ := hm
  cases hres : (m o log).1 with
  | error e =>
    have hbind := bind_of_error (f := f) hres
    exact ⟨asked, by rw [hbind, hlog], hasked, by simp [hbind]⟩
  | ok a =>
    have hbind := bind_of_ok (f := f) hres
    rw [hlog] at hbind
    obtain ⟨more, hlog', hmore, hpost'⟩ :=
      hf (log ++ asked) a (List.prefix_append _ _) (hpost a hres)
    refine ⟨asked ++ more, by rw [hbind, hlog', List.append_assoc], fun k hk => ?_, fun b hb => ?_⟩
    · rcases List.mem_append.mp hk with hk | hk
      · exact hasked k hk
      · exact hmore k hk
    · rw [hbind] at hb
      rw [← List.append_assoc]
      exact hpost' b hb

end Asking
