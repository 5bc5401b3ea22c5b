import Termesh.App.QuickOpen
import Termesh.Lib.OrderedSet
import Termesh.Lib.Run

/-!
# Batches of changed paths

The watch thread gathers raw events for a window, and hands them on as one batch. Its clock is read
in ticks.

* `Coalescer`: the paths of the open batch, and when it opened;
* `WatchThread`, `Turn`, `turn`: the thread's loop, one pass at a time;
* `OnTime`: what the clock reads during a pass, with what a pass may overrun;
* `Gathered`: what holds of the open batch;
* **`watch_coalesces`**: what a run hands on, and when.

A stop drops the open batch; a watcher that is gone has it handed on at once.
-/

namespace Termesh

namespace Filesystem

/-- How paths compare: component by component. -/
def pathKey (p : Path) : List (ℕ ×ₗ List Char) := p.map App.componentKey

/-- `BTreeSet<PathBuf>`. -/
abbrev PathSet := OrderedSet pathKey

/-- The paths of an open batch, and since when it is open. -/
structure Coalescer where
  window : ℕ
  pending : PathSet
  openedAt : Option ℕ

namespace Coalescer

/-- No batch is open. -/
def new (window : ℕ) : Coalescer := ⟨window, .empty, none⟩

/-- The window starts on the first path of a batch. -/
def push (c : Coalescer) (path : Path) (now : ℕ) : Coalescer :=
  { c with
    openedAt := if c.pending.toList = [] then some now else c.openedAt
    pending := c.pending.insert path }

/-- The time until the open batch is due. -/
def timeRemaining (c : Coalescer) (now : ℕ) : Option ℕ :=
  c.openedAt.map fun opened => c.window - (now - opened)

/-- The open batch, taken out. -/
def take (c : Coalescer) : Coalescer × List Path :=
  ({ c with openedAt := none, pending := .empty }, c.pending.toList)

/-- The batch, once its window is over. -/
def takeIfReady (c : Coalescer) (now : ℕ) : Coalescer × Option (List Path) :=
  match c.openedAt with
  | none => (c, none)
  | some opened => if now - opened < c.window then (c, none) else c.take.map id some

end Coalescer

/-! ## The thread -/

/-- How far the watcher is. -/
inductive WatchStatus where
  | running
  | stopped
  /-- The watcher is gone. -/
  | flushed
deriving DecidableEq, Repr

/-- A batch that the sink got, when it opened and when it was handed on. -/
structure Batch where
  opened : ℕ
  sent : ℕ
  paths : List Path

/-- The thread, what its sink got, and what it let into a batch. -/
structure WatchThread where
  status : WatchStatus
  coalescer : Coalescer
  /-- The clock, as it was read last. -/
  clock : ℕ
  accepted : List (Path × ℕ)
  batches : List Batch

/-- One pass of the loop: what woke it, and what the clock read on the way. -/
inductive Turn where
  | stop
  | path (began : ℕ) (path : Path) (pushed ended : ℕ)
  | timeout (began ended : ℕ)
  | disconnected (began ended : ℕ)

/-- The event of a pass that the filter lets through. -/
def Turn.event (accepts : Path → Bool) : Turn → Option (Path × ℕ)
  | .path _ p pushed _ => if accepts p then some (p, pushed) else none
  | _ => none

namespace WatchThread

/-- A watcher just started. -/
def start (window now : ℕ) : WatchThread := ⟨.running, .new window, now, [], []⟩

/-- A path is taken into the batch. -/
def push (t : WatchThread) (path : Path) (now : ℕ) : WatchThread :=
  { t with
    coalescer := t.coalescer.push path now, clock := now, accepted := (path, now) :: t.accepted }

/-- Hand a batch on, unless it is empty. -/
def send (t : WatchThread) (now : ℕ) (batch : List Path) : WatchThread :=
  if batch = [] then t
  else { t with batches := ⟨t.coalescer.openedAt.getD now, now, batch⟩ :: t.batches }

/-- The batch goes out if it is due. -/
def release (t : WatchThread) (now : ℕ) : WatchThread :=
  match t.coalescer.takeIfReady now with
  | (_, none) => { t with clock := now }
  | (c, some batch) => { t.send now batch with coalescer := c, clock := now }

/-- The batch goes out in the end. -/
def flush (t : WatchThread) (now : ℕ) : WatchThread :=
  { t.send now t.coalescer.take.2 with
    coalescer := t.coalescer.take.1, clock := now, status := .flushed }

/-- One pass of the loop. -/
def turn (accepts : Path → Bool) (t : WatchThread) (turn : Turn) : Option WatchThread :=
  if t.status ≠ .running then none
  else
    match turn with
    | .stop => some { t with status := .stopped }
    | .path _ path pushed ended =>
      some ((if accepts path then t.push path pushed else t).release ended)
    | .timeout _ ended => some (t.release ended)
    | .disconnected _ ended => some (t.flush ended)

/-- How long a pass waits for an event. -/
def wait (t : WatchThread) (began : ℕ) : ℕ :=
  (t.coalescer.timeRemaining began).getD t.coalescer.window

/-- The clock runs forward, a pass that times out has waited, and none takes longer than its wait by
more than the slack. -/
def OnTime (slack : ℕ) (t : WatchThread) : Turn → Prop
  | .stop => True
  | .path began _ pushed ended =>
    t.clock ≤ began ∧ began ≤ pushed ∧ pushed ≤ ended ∧ ended ≤ t.clock + t.wait began + slack
  | .timeout began ended =>
    t.clock ≤ began ∧ began + t.wait began ≤ ended ∧ ended ≤ t.clock + t.wait began + slack
  | .disconnected began ended =>
    t.clock ≤ began ∧ began ≤ ended ∧ ended ≤ t.clock + t.wait began + slack

instance (slack : ℕ) (t : WatchThread) (pass : Turn) : Decidable (t.OnTime slack pass) := by
  cases pass <;> unfold OnTime <;> infer_instance

end WatchThread

/-! ## What the open batch holds -/

theorem componentKey_injective : Function.Injective App.componentKey := by
  intro a b h
  cases a <;> cases b <;> simp_all [App.componentKey, String.toList_inj]

theorem pathKey_injective : Function.Injective pathKey :=
  List.map_injective_iff.mpr componentKey_injective

/-- What was accepted is in a batch, sent in time, or in the open one; and batches hold nothing
else. -/
structure Gathered (accepts : Path → Bool) (window slack : ℕ) (t : WatchThread) : Prop where
  windowed : t.coalescer.window = window
  /-- A batch is open when it holds a path. -/
  closed : t.coalescer.openedAt = none ↔ t.coalescer.pending.toList = []
  opened : ∀ o, t.coalescer.openedAt = some o → o ≤ t.clock ∧ ∀ b ∈ t.batches, b.sent ≤ o
  pending : ∀ p ∈ t.coalescer.pending.toList, ∃ o at', t.coalescer.openedAt = some o ∧
    (p, at') ∈ t.accepted ∧ o ≤ at' ∧ at' ≤ t.clock
  accepted : ∀ p at', (p, at') ∈ t.accepted → accepts p = true ∧
    ((∃ b ∈ t.batches, p ∈ b.paths ∧ at' ≤ b.sent ∧ b.sent ≤ at' + window + slack) ∨
      ∃ o, t.coalescer.openedAt = some o ∧ o ≤ at' ∧ at' ≤ t.clock ∧
        p ∈ t.coalescer.pending.toList)
  batches : ∀ b ∈ t.batches, b.sent ≤ t.clock ∧ b.paths ≠ [] ∧
    (b.paths.Pairwise fun p q => pathKey p < pathKey q) ∧
    ∀ p ∈ b.paths, ∃ at', (p, at') ∈ t.accepted ∧ b.opened ≤ at' ∧ at' ≤ b.sent
  spaced : t.batches.Pairwise fun later earlier => earlier.sent ≤ later.opened
  full : ∀ b ∈ t.batches, b.opened + window ≤ b.sent ∨
    t.status = .flushed ∧ t.batches.head? = some b

namespace Gathered

variable {accepts : Path → Bool} {window slack : ℕ} {t : WatchThread} {now : ℕ}

theorem start : Gathered accepts window slack (.start window now) := by
  constructor <;> simp [WatchThread.start, Coalescer.new]

theorem ne_nil_of_opened (h : Gathered accepts window slack t) {o : ℕ}
    (ho : t.coalescer.openedAt = some o) : t.coalescer.pending.toList ≠ [] := by
  intro hnil
  simp [h.closed.mpr hnil] at ho

theorem exists_opened (h : Gathered accepts window slack t) (hclock : t.clock ≤ now) (p : Path) :
    ∃ o, (t.push p now).coalescer.openedAt = some o ∧ o ≤ now ∧ (∀ b ∈ t.batches, b.sent ≤ o) ∧
      (∀ o', t.coalescer.openedAt = some o' → o' = o) ∧
      (t.coalescer.openedAt = none → o = now) := by
  cases ho : t.coalescer.openedAt with
  | none =>
    refine ⟨now, ?_, le_rfl, fun b hb => (h.batches b hb).1.trans hclock, by simp, by simp⟩
    simp [WatchThread.push, Coalescer.push, h.closed.mp ho]
  | some o =>
    obtain ⟨hle, hb⟩ := h.opened o ho
    refine ⟨o, ?_, hle.trans hclock, hb, fun o' ho' => (Option.some.inj ho').symm, by simp⟩
    simp [WatchThread.push, Coalescer.push, h.ne_nil_of_opened ho, ho]

theorem push {p : Path} (h : Gathered accepts window slack t) (hclock : t.clock ≤ now)
    (hp : accepts p = true) : Gathered accepts window slack (t.push p now) := by
  obtain ⟨o, ho, hle, hbefore, hsame, -⟩ := h.exists_opened hclock p
  have hmem : ∀ q, q ∈ (t.push p now).coalescer.pending.toList ↔
      q = p ∨ q ∈ t.coalescer.pending.toList := fun q => OrderedSet.mem_insert pathKey_injective
  refine ⟨h.windowed, ?_, ?_, ?_, ?_, ?_, h.spaced, h.full⟩
  · simp only [ho, reduceCtorEq, false_iff]
    exact OrderedSet.insert_ne_nil
  · intro o' ho'
    obtain rfl := Option.some.inj (ho.symm.trans ho')
    exact ⟨hle, hbefore⟩
  · intro q hq
    rcases (hmem q).mp hq with rfl | hq
    · exact ⟨o, now, ho, List.mem_cons_self, hle, le_rfl⟩
    · obtain ⟨o', at', ho', hacc, hge, hat⟩ := h.pending q hq
      obtain rfl := hsame o' ho'
      exact ⟨o', at', ho, List.mem_cons_of_mem _ hacc, hge, hat.trans hclock⟩
  · intro q at' hacc
    rcases List.mem_cons.mp hacc with heq | hacc
    · obtain ⟨rfl, rfl⟩ := Prod.mk.inj heq
      exact ⟨hp, .inr ⟨o, ho, hle, le_rfl, (hmem q).mpr (.inl rfl)⟩⟩
    · obtain ⟨hq, hsent | ⟨o', ho', hge, hat, hpend⟩⟩ := h.accepted q at' hacc
      · exact ⟨hq, .inl hsent⟩
      · obtain rfl := hsame o' ho'
        exact ⟨hq, .inr ⟨o', ho, hge, hat.trans hclock, (hmem q).mpr (.inr hpend)⟩⟩
  · intro b hb
    obtain ⟨hclk, hne, hord, hfrom⟩ := h.batches b hb
    refine ⟨hclk.trans hclock, hne, hord, fun q hq => ?_⟩
    obtain ⟨at', hacc, hat⟩ := hfrom q hq
    exact ⟨at', List.mem_cons_of_mem _ hacc, hat⟩

theorem tick (h : Gathered accepts window slack t) (hclock : t.clock ≤ now) :
    Gathered accepts window slack { t with clock := now } where
  windowed := h.windowed
  closed := h.closed
  opened o ho := ⟨(h.opened o ho).1.trans hclock, (h.opened o ho).2⟩
  pending p hp := by
    obtain ⟨o, at', ho, hacc, hge, hat⟩ := h.pending p hp
    exact ⟨o, at', ho, hacc, hge, hat.trans hclock⟩
  accepted p at' hacc := by
    refine (h.accepted p at' hacc).imp_right (Or.imp_right ?_)
    rintro ⟨o, ho, hge, hat, hpend⟩
    exact ⟨o, ho, hge, hat.trans hclock, hpend⟩
  batches b hb := ⟨(h.batches b hb).1.trans hclock, (h.batches b hb).2⟩
  spaced := h.spaced
  full := h.full

/-- The thread with no batch open, after a batch or none at all went out. -/
def emptied (t : WatchThread) (status : WatchStatus) (now : ℕ) (batches : List Batch) :
    WatchThread :=
  ⟨status, ⟨t.coalescer.window, .empty, none⟩, now, t.accepted, batches⟩

theorem emptied_none {status : WatchStatus} (h : Gathered accepts window slack t)
    (hrun : t.status = .running) (hclock : t.clock ≤ now) (ho : t.coalescer.openedAt = none) :
    Gathered accepts window slack (emptied t status now t.batches) where
  windowed := h.windowed
  closed := by simp [emptied]
  opened o ho := by simp [emptied] at ho
  pending p hp := by simp [emptied] at hp
  accepted p at' hacc := by
    refine (h.accepted p at' hacc).imp_right (Or.imp_right ?_)
    rintro ⟨o, ho', -⟩
    simp [ho] at ho'
  batches b hb := ⟨(h.batches b hb).1.trans hclock, (h.batches b hb).2⟩
  spaced := h.spaced
  full b hb := .inl ((h.full b hb).resolve_right fun hf => by simp [hrun] at hf)

/-- The open batch goes out: its window is over, or the watcher is gone. -/
theorem emptied_some {status : WatchStatus} {o : ℕ} (h : Gathered accepts window slack t)
    (hrun : t.status = .running) (hclock : t.clock ≤ now) (ho : t.coalescer.openedAt = some o)
    (hdue : now ≤ o + window + slack) (hfull : o + window ≤ now ∨ status = .flushed) :
    Gathered accepts window slack
      (emptied t status now (⟨o, now, t.coalescer.pending.toList⟩ :: t.batches)) where
  windowed := h.windowed
  closed := by simp [emptied]
  opened o ho := by simp [emptied] at ho
  pending p hp := by simp [emptied] at hp
  accepted p at' hacc := by
    obtain ⟨hp, ⟨b, hb, hin⟩ | ⟨o', ho', hge, hat, hpend⟩⟩ := h.accepted p at' hacc
    · exact ⟨hp, .inl ⟨b, List.mem_cons_of_mem _ hb, hin⟩⟩
    · obtain rfl := Option.some.inj (ho.symm.trans ho')
      refine ⟨hp, .inl ⟨_, List.mem_cons_self, hpend, hat.trans hclock, ?_⟩⟩
      show now ≤ at' + window + slack
      omega
  batches b hb := by
    rcases List.mem_cons.mp hb with rfl | hb
    · refine ⟨le_rfl, h.ne_nil_of_opened ho, t.coalescer.pending.ordered, fun p hp => ?_⟩
      obtain ⟨o', at', ho', hacc, hge, hat⟩ := h.pending p hp
      obtain rfl := Option.some.inj (ho.symm.trans ho')
      exact ⟨at', hacc, hge, hat.trans hclock⟩
    · exact ⟨(h.batches b hb).1.trans hclock, (h.batches b hb).2⟩
  spaced := List.pairwise_cons.mpr ⟨(h.opened o ho).2, h.spaced⟩
  full b hb := by
    rcases List.mem_cons.mp hb with rfl | hb
    · exact hfull.imp_right fun hs => ⟨hs, rfl⟩
    · exact .inl ((h.full b hb).resolve_right fun hf => by simp [hrun] at hf)

end Gathered

/-! ## The run -/

namespace WatchThread

variable {accepts : Path → Bool} {window slack : ℕ} {t t' : WatchThread} {now : ℕ}

theorem flush_of_closed (h : Gathered accepts window slack t)
    (ho : t.coalescer.openedAt = none) :
    t.flush now = Gathered.emptied t .flushed now t.batches := by
  simp [flush, send, Coalescer.take, Gathered.emptied, h.closed.mp ho]

theorem flush_of_opened (h : Gathered accepts window slack t) {o : ℕ}
    (ho : t.coalescer.openedAt = some o) :
    t.flush now = Gathered.emptied t .flushed now
      (⟨o, now, t.coalescer.pending.toList⟩ :: t.batches) := by
  simp [flush, send, Coalescer.take, Gathered.emptied, h.ne_nil_of_opened ho, ho]

theorem release_of_ready (h : Gathered accepts window slack t) {o : ℕ}
    (ho : t.coalescer.openedAt = some o) (hready : ¬ now - o < t.coalescer.window) :
    t.release now = Gathered.emptied t t.status now
      (⟨o, now, t.coalescer.pending.toList⟩ :: t.batches) := by
  simp [release, Coalescer.takeIfReady, send, Coalescer.take, Gathered.emptied,
    h.ne_nil_of_opened ho, ho, hready]

theorem release_of_waiting
    (hwait : ∀ o, t.coalescer.openedAt = some o → now - o < t.coalescer.window) :
    t.release now = { t with clock := now } := by
  unfold release Coalescer.takeIfReady
  cases ho : t.coalescer.openedAt with
  | none => simp
  | some o => simp [hwait o ho]

theorem accepted_release (t : WatchThread) (now : ℕ) : (t.release now).accepted = t.accepted := by
  unfold release
  split
  · rfl
  · unfold send
    split_ifs <;> rfl

theorem accepted_flush (t : WatchThread) (now : ℕ) : (t.flush now).accepted = t.accepted := by
  unfold flush send
  split_ifs <;> rfl

/-- A pass records the event that the filter lets through, and nothing else. -/
theorem accepted_turn {pass : Turn} (hs : t.turn accepts pass = some t') :
    t'.accepted = (pass.event accepts).toList ++ t.accepted := by
  unfold turn at hs
  split_ifs at hs
  cases pass with
  | stop => exact Option.some.inj hs ▸ rfl
  | path began p pushed ended =>
    obtain rfl := Option.some.inj hs
    rw [accepted_release, Turn.event]
    split_ifs <;> rfl
  | timeout began ended => exact Option.some.inj hs ▸ accepted_release t ended
  | disconnected began ended => exact Option.some.inj hs ▸ accepted_flush t ended

/-- Between passes: an open batch is younger than its window, and none is open at the end. -/
def Settled (accepts : Path → Bool) (window slack : ℕ) (t : WatchThread) : Prop :=
  Gathered accepts window slack t ∧
    (∀ o, t.coalescer.openedAt = some o → t.clock < o + window) ∧
      (t.status = .flushed → t.coalescer.openedAt = none)

theorem settled_release (h : Gathered accepts window slack t) (hrun : t.status = .running)
    (hclock : t.clock ≤ now)
    (hdue : ∀ o, t.coalescer.openedAt = some o → now ≤ o + window + slack) :
    Settled accepts window slack (t.release now) := by
  by_cases hready : ∃ o, t.coalescer.openedAt = some o ∧ ¬ now - o < t.coalescer.window
  · obtain ⟨o, ho, hready⟩ := hready
    rw [release_of_ready h ho hready]
    have hfull : o + window ≤ now := by
      have := (h.opened o ho).1
      have := h.windowed
      omega
    exact ⟨h.emptied_some hrun hclock ho (hdue o ho) (.inl hfull), by simp [Gathered.emptied],
      fun _ => rfl⟩
  · push Not at hready
    rw [release_of_waiting hready]
    refine ⟨h.tick hclock, fun o ho => ?_, by simp [hrun]⟩
    have hopened := (h.opened o ho).1
    have hyoung := hready o ho
    have hwindow := h.windowed
    simp only
    omega

theorem due_of_wait (h : Settled accepts window slack t) {began ended o : ℕ}
    (hbegan : t.clock ≤ began) (hended : ended ≤ t.clock + t.wait began + slack)
    (ho : t.coalescer.openedAt = some o) : ended ≤ o + window + slack := by
  have hyoung := h.2.1 o ho
  have hwindow := h.1.windowed
  simp only [wait, Coalescer.timeRemaining, ho, Option.map_some, Option.getD_some] at hended
  omega

theorem wait_le (h : Settled accepts window slack t) (began : ℕ) : t.wait began ≤ window := by
  have hwindow := h.1.windowed
  unfold wait Coalescer.timeRemaining
  cases t.coalescer.openedAt <;> simp [hwindow]

theorem settled_turn (h : Settled accepts window slack t) {pass : Turn}
    (htime : t.OnTime slack pass) (hs : t.turn accepts pass = some t') :
    Settled accepts window slack t' := by
  unfold turn at hs
  split_ifs at hs with hstatus
  have hrun : t.status = .running := not_not.mp hstatus
  cases pass with
  | stop =>
    cases hs
    refine ⟨⟨h.1.windowed, h.1.closed, h.1.opened, h.1.pending, h.1.accepted, h.1.batches,
      h.1.spaced, fun b hb => .inl ?_⟩, h.2.1, by simp⟩
    exact (h.1.full b hb).resolve_right fun hf => by simp [hrun] at hf
  | path began p pushed ended =>
    cases hs
    obtain ⟨hbegan, hpushed, hended, hslack⟩ := htime
    split_ifs with hp
    · obtain ⟨o, ho, -, -, hsame, hnew⟩ := h.1.exists_opened (hbegan.trans hpushed) p
      refine settled_release (h.1.push (hbegan.trans hpushed) hp) hrun hended fun o' ho' => ?_
      obtain rfl := Option.some.inj (ho.symm.trans ho')
      cases hold : t.coalescer.openedAt with
      | none =>
        have hwait := wait_le h began
        have := hnew hold
        omega
      | some o' =>
        obtain rfl := hsame o' hold
        exact due_of_wait h hbegan hslack hold
    · exact settled_release h.1 hrun (hbegan.trans (hpushed.trans hended)) fun o ho =>
        due_of_wait h hbegan hslack ho
  | timeout began ended =>
    cases hs
    obtain ⟨hbegan, hwaited, hslack⟩ := htime
    exact settled_release h.1 hrun (by omega) fun o ho => due_of_wait h hbegan hslack ho
  | disconnected began ended =>
    cases hs
    obtain ⟨hbegan, hended, hslack⟩ := htime
    have hclock := hbegan.trans hended
    cases ho : t.coalescer.openedAt with
    | none =>
      rw [flush_of_closed h.1 ho]
      exact ⟨h.1.emptied_none hrun hclock ho, by simp [Gathered.emptied], fun _ => rfl⟩
    | some o =>
      rw [flush_of_opened h.1 ho]
      exact ⟨h.1.emptied_some hrun hclock ho (due_of_wait h hbegan hslack ho) (.inr rfl),
        by simp [Gathered.emptied], fun _ => rfl⟩

end WatchThread

/-- **What a watch hands on.** In a run whose passes are on time, every path that the filter lets
through is recorded with its event, and it is in a batch sent within the window of that event, or in
the open one, which is not overdue. A batch holds accepted paths, each once and in order; it opens
after the one before it went out, and is open for the whole window unless the watcher is gone. -/
theorem watch_coalesces (accepts : Path → Bool) (window slack : ℕ) (t : WatchThread)
    (h : Runs.Reach (WatchThread.turn accepts) (fun t => t.OnTime slack)
      (fun t => ∃ now, t = .start window now) t) :
    (∀ p now, (p, now) ∈ t.accepted → accepts p = true ∧
      ((∃ b ∈ t.batches, p ∈ b.paths ∧ now ≤ b.sent ∧ b.sent ≤ now + window + slack) ∨
        (t.status ≠ .flushed ∧ p ∈ t.coalescer.pending.toList ∧ t.clock < now + window))) ∧
    (∀ b ∈ t.batches, b.paths ≠ [] ∧ (b.paths.Pairwise fun p q => pathKey p < pathKey q) ∧
      (∀ p ∈ b.paths, ∃ now, (p, now) ∈ t.accepted ∧ b.opened ≤ now ∧ now ≤ b.sent) ∧
      (b.opened + window ≤ b.sent ∨ t.status = .flushed ∧ t.batches.head? = some b)) ∧
    (t.batches.Pairwise fun later earlier => earlier.sent ≤ later.opened) ∧
    ∀ pass t', t.turn accepts pass = some t' →
      t'.accepted = (pass.event accepts).toList ++ t.accepted := by
  obtain ⟨hg, hyoung, hend⟩ : t.Settled accepts window slack := by
    refine h.inv (I := WatchThread.Settled accepts window slack) ?_ fun t pass t' ht hok hs =>
      WatchThread.settled_turn ht hok hs
    rintro _ ⟨now, rfl⟩
    exact ⟨.start, by simp [WatchThread.start, Coalescer.new], fun _ => rfl⟩
  refine ⟨fun p now hacc => ?_, fun b hb => ?_, hg.spaced,
    fun _ _ hs => t.accepted_turn hs⟩
  · refine (hg.accepted p now hacc).imp_right (Or.imp_right ?_)
    rintro ⟨o, ho, hge, -, hpend⟩
    have hclock := hyoung o ho
    exact ⟨fun hf => by simp [hend hf] at ho, hpend, by omega⟩
  · obtain ⟨-, hne, hord, hfrom⟩ := hg.batches b hb
    exact ⟨hne, hord, hfrom, hg.full b hb⟩

/-- Two saves in one window, and one whose window the end of the watch cuts short. -/
def saves : List Turn :=
  [.path 0 [.rootDir, .normal "b"] 10 11, .path 11 [.rootDir, .normal "a"] 40 41,
    .path 41 [.rootDir, .normal "b"] 60 61, .timeout 61 110,
    .path 111 [.rootDir, .normal "b"] 150 151, .disconnected 151 170]

theorem watch_coalesces_saves : ∃ t,
    Runs.checkedRun (WatchThread.turn fun _ => true) (fun t pass => t.OnTime 5 pass)
      (.start 100 0) saves = some t ∧
    t.batches.map Batch.paths = [[[.rootDir, .normal "b"]],
      [[.rootDir, .normal "a"], [.rootDir, .normal "b"]]] ∧
    t.batches.Pairwise fun later earlier => earlier.sent ≤ later.opened := by
  have hrun : (Runs.checkedRun (WatchThread.turn fun _ => true) (fun t pass => t.OnTime 5 pass)
      (.start 100 0) saves).map (fun t => t.batches.map Batch.paths) =
        some [[[.rootDir, .normal "b"]], [[.rootDir, .normal "a"], [.rootDir, .normal "b"]]] := by
    decide +kernel
  obtain ⟨t, ht, hpaths⟩ := Option.map_eq_some_iff.mp hrun
  exact ⟨t, ht, hpaths, (watch_coalesces (fun _ => true) 100 5 t (.of_checkedRun
    (fun s a h => by simpa using h) saves (.start ⟨0, rfl⟩) ht)).2.2.1⟩

end Filesystem

end Termesh
