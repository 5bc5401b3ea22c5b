import Termesh.App.OnDisk
import Termesh.Lib.First

/-!
# The echo of a save

The watcher reports a file that was just saved like any other change, and a clean buffer is read
again. What comes back then is what was written, and the buffer starts over without its history.

* `Trail`: the text, the selection and the undo and redo stacks of a buffer;
* `World.echoes`: an answer that brings back what is known to be on disk;
* `Vigil`: a world together with the trails there were as the saves were confirmed;
* **`undo_survives`**: an echo keeps the trail just when there is nothing to undo or redo;
* **`undo_lost`**: a note that is edited and saved cannot be undone any more.
-/

namespace Termesh

/-- What saving should not cost a buffer. -/
structure Trail where
  text : Text
  selection : Selection
  applied : List Entry
  undone : List Entry
deriving DecidableEq

def Buffer.trail (b : Buffer) : Trail :=
  ⟨b.text, b.selection, b.history.applied, b.history.undone⟩

namespace App

open Buffer

namespace Model

variable {h : Host} {m m' : Model}

def trail (m : Model) (id : BufferId) : Option Trail :=
  (m.buffers.find? (·.id = id)).map Buffer.trail

theorem trail_docs (m : Model) (id : BufferId) :
    m.trail id = (m.docs.find? (·.id = id)).map Buffer.trail := by
  rw [trail, docs, List.find?_map, Option.map_map]
  rfl

theorem trail_of_docs (hd : m'.docs = m.docs) (id : BufferId) : m'.trail id = m.trail id := by
  rw [trail_docs, trail_docs, hd]

theorem trail_of_buffers (hb : m'.buffers = m.buffers) (id : BufferId) :
    m'.trail id = m.trail id := by rw [trail, trail, hb]

/-- The edit that is pending waits for another file than this one. -/
def elsewhere (m : Model) (id : BufferId) : Bool :=
  m.pendingWorkspaceEdit.all fun p => p.waiting.any (·.1 ≠ id)

theorem stopWaiting_waits {id : BufferId} (he : m.elsewhere id = true) :
    ∀ p, (m.stopWaiting id).pendingWorkspaceEdit = some p → p.waiting ≠ [] := by
  intro p hp hnil
  obtain ⟨p₀, hp₀, rfl⟩ := Option.map_eq_some_iff.mp hp
  rw [elsewhere, hp₀, Option.all_some, List.any_eq_true] at he
  obtain ⟨o, ho, hne⟩ := he
  have hmem : o ∈ p₀.waiting.filter (·.1 ≠ id) := List.mem_filter.mpr ⟨ho, hne⟩
  exact List.ne_nil_of_mem hmem hnil

theorem reloadBuffer_trail {i : ℕ} {old : Buffer} {id : BufferId} {path : Path} {text : Text}
    (hi : m.buffers.findIdx? (·.id = id) = some i) (he : m.elsewhere id = true)
    (hr : m.reloadBuffer h i old id path text = some m') :
    m'.trail id = some ⟨normalizeNewlines text, old.selection, [], []⟩ := by
  unfold reloadBuffer at hr
  obtain ⟨m₁, h₁, hr⟩ := Option.bind_eq_some_iff.mp hr
  have hedit : m₁.pendingWorkspaceEdit = m.pendingWorkspaceEdit :=
    show m₁.aloof.pendingWorkspaceEdit = m.aloof.pendingWorkspaceEdit by
      rw [aloof_of_outline (syncAll_outline h₁)]
      rfl
  have helse : m₁.elsewhere id = true := by rwa [elsewhere, hedit]
  rw [finish_waiting (stopWaiting_waits helse) hr]
  have hsynced : (m₁.stopWaiting id).trail id = m₁.trail id := rfl
  rw [hsynced, trail_of_docs (syncAll_docs h₁)]
  have hfirst : (m.buffers.set i (reloaded id path text old)).find? (·.id = id) =
      some (reloaded id path text old) :=
    Firsts.find?_set_first hi (decide_eq_true rfl)
  exact congrArg (Option.map Buffer.trail) hfirst

theorem fileLoaded_trail {id : BufferId} {path : Path} {text : Text} {t : Trail}
    (ht : m.trail id = some t) (he : m.elsewhere id = true)
    (hs : m.fileLoaded h id path (some text) = some m') :
    m'.trail id =
      some (if m.ForBuffer id then ⟨normalizeNewlines text, t.selection, [], []⟩ else t) := by
  split_ifs with hr
  · obtain ⟨b, hb, rfl⟩ := Option.map_eq_some_iff.mp ht
    rw [fileLoaded, hr.1, hr.2] at hs
    dsimp only at hs
    obtain ⟨i, hi, hget⟩ :
        ∃ i, m.buffers.findIdx? (·.id = id) = some i ∧ m.buffers[i]? = some b := by
      obtain ⟨hid, i, hlt, hget, hbefore⟩ := List.find?_eq_some_iff_getElem.mp hb
      refine ⟨i, List.findIdx?_eq_some_iff_getElem.mpr ⟨hlt, ?_, fun j hj => ?_⟩, ?_⟩
      · rwa [hget]
      · simpa using hbefore j hj
      · rw [List.getElem?_eq_getElem hlt, hget]
    rw [hi, Option.bind_some, hget] at hs
    exact reloadBuffer_trail (m := { m with opening := m.opening.filter (·.1 ≠ id) }) hi he hs
  · rw [trail_of_buffers (fileLoaded_still hr hs).1, ht]

end Model

/-! ## Runs -/

namespace World

/-- The deed confirms the save of a buffer. -/
def confirms (w : World) (id : BufferId) : Deed → Bool
  | .answer (some (.fileSaved buffer _)) =>
    buffer = id ∧ w.model.pendingDraftWrites.find? (·.1 = buffer) = none
  | _ => false

/-- The deed brings back what was last written, or absorbed, and is nothing to a pending edit. -/
def echoes (w : World) (id : BufferId) : Deed → Bool
  | .answer (some (.fileLoaded buffer _ (some contents))) =>
    buffer = id ∧ w.onDisk id = some contents ∧ w.model.elsewhere id
  | _ => false

end World

/-- A world, and what the buffers were as their saves were confirmed, as far as nothing but echoes
has touched them since. -/
structure Vigil where
  world : World
  since : BufferId → Option Trail := fun _ => none

namespace Vigil

variable {h : Host} {v v' : Vigil} {d : Deed}

def step (h : Host) (v : Vigil) (d : Deed) : Option Vigil :=
  (v.world.step h d).map fun world => {
    world
    since := fun id =>
      if v.world.confirms id d then world.model.trail id
      else if v.world.echoes id d ∨ world.model.trail id = v.world.model.trail id then v.since id
      else none }

def Fresh (v : Vigil) : Prop := v.world.Fresh ∧ ∀ id, v.since id = none

/-- **Saving costs nothing.** -/
def Kept (v : Vigil) : Prop := ∀ id t, v.since id = some t → v.world.model.trail id = some t

/-- What the deed brings back to a buffer is its text, and there is nothing to undo or redo. -/
def Harmless (v : Vigil) (d : Deed) : Prop :=
  ∀ id t, v.world.echoes id d = true → v.world.model.ForBuffer id → v.since id = some t →
    (v.world.onDisk id).map normalizeNewlines = some t.text ∧ t.applied = [] ∧ t.undone = []

/-- What an echo leaves of a trail. -/
theorem echo_trail {w w' : World} {id : BufferId} {t : Trail} (he : w.echoes id d = true)
    (ht : w.model.trail id = some t) (hs : w.step h d = some w') :
    ∃ contents, w.onDisk id = some contents ∧ w'.model.trail id = some
      (if w.model.ForBuffer id then ⟨normalizeNewlines contents, t.selection, [], []⟩ else t) := by
  unfold World.echoes at he
  split at he
  · rename_i buffer path contents
    obtain ⟨rfl, hdisk, helse⟩ := of_decide_eq_true he
    refine ⟨contents, hdisk, ?_⟩
    unfold World.step at hs
    dsimp only at hs
    split at hs
    · cases hs
    · split_ifs at hs
      obtain ⟨m', hm, rfl⟩ := Option.map_eq_some_iff.mp hs
      exact Model.fileLoaded_trail ht helse hm
  · cases he

/-- **One step**: an echo is all that can cost something. -/
theorem step_kept (hk : v.Kept) (hs : v.step h d = some v') : v'.Kept ↔ v.Harmless d := by
  obtain ⟨w, hw, rfl⟩ := Option.map_eq_some_iff.mp hs
  constructor
  · intro hkept id t he hr ht
    have hnot : v.world.confirms id d = false := by
      unfold World.echoes at he
      split at he
      · rfl
      · cases he
    have hsince := hkept id t (by dsimp only; rw [hnot, if_neg (by simp), if_pos (.inl he), ht])
    obtain ⟨contents, hdisk, htrail⟩ := echo_trail he (hk id t ht) hw
    rw [if_pos hr] at htrail
    have heq : t = ⟨normalizeNewlines contents, t.selection, [], []⟩ :=
      Option.some.inj (hsince.symm.trans htrail)
    rw [hdisk, heq]
    exact ⟨rfl, rfl, rfl⟩
  · intro hh id t ht
    dsimp only at ht ⊢
    split_ifs at ht with hc he
    · exact ht
    · have hbefore := hk id t ht
      by_cases hecho : v.world.echoes id d = true
      · obtain ⟨contents, hdisk, htrail⟩ := echo_trail hecho hbefore hw
        rw [htrail]
        split_ifs with hr
        · obtain ⟨htext, happlied, hundone⟩ := hh id t hecho hr ht
          rw [hdisk] at htext
          rw [Option.some.inj htext, ← happlied]
          nth_rewrite 2 [happlied]
          rw [← hundone]
        · rfl
      · rw [he.resolve_left hecho, hbefore]

/-- **When the history survives a save.** In every run whose echoes are harmless the buffers are
what they were as their saves were confirmed, and a further step leaves them so just when it is
harmless too. -/
theorem undo_survives (h : Host) (hr : Runs.Reach (step h) Harmless Fresh v) :
    v.Kept ∧ ∀ d v', v.step h d = some v' → (v'.Kept ↔ v.Harmless d) := by
  have hk : v.Kept := hr.inv (fun v hf id t ht => by rw [hf.2 id] at ht; cases ht)
    fun _ _ _ hk hh hs => (step_kept hk hs).mpr hh
  exact ⟨hk, fun d v' hs => step_kept hk hs⟩

/-! ## A note that is saved -/

/-- The note is edited, saved and the save confirmed; then the watcher reports it. -/
def reporting : List Deed := World.saving ++ [.event (.fs (.changed [World.notePath])), .take]

/-- What the note was written with. -/
def echo : Deed := .answer (some (.fileLoaded ⟨1⟩ World.notePath (some ['x', 'a'])))

/-- No file is read for a buffer whose save was confirmed. -/
def unheard (v : Vigil) : Deed → Bool
  | .answer (some (.fileLoaded buffer _ _)) => (v.since buffer).isNone
  | _ => true

theorem harmless_of_unheard (v : Vigil) (d : Deed) (hu : v.unheard d = true) : v.Harmless d := by
  intro id t he _ ht
  unfold World.echoes at he
  split at he
  · rename_i buffer path contents
    obtain ⟨rfl, -, -⟩ := of_decide_eq_true he
    have hnone : v.since buffer = none := Option.isNone_iff_eq_none.mp hu
    rw [hnone] at ht
    cases ht
  · cases he

def quiet : Vigil := ⟨World.desktop, fun _ => none⟩

theorem fresh_quiet : quiet.Fresh := ⟨⟨rfl, rfl, rfl⟩, fun _ => rfl⟩

/-- The note, which is to be read again. -/
def reportedNote : Vigil :=
  (Runs.checkedRun (step Host.plain) unheard quiet reporting).get (by decide)

theorem undo_survives_note : (reportedNote.since ⟨1⟩).isSome = true ∧ reportedNote.Kept := by
  have hrun : Runs.checkedRun (step Host.plain) unheard quiet reporting = some reportedNote :=
    (Option.some_get _).symm
  have hreach : Runs.Reach (step Host.plain) Harmless Fresh reportedNote :=
    .of_checkedRun harmless_of_unheard reporting (.start fresh_quiet) hrun
  exact ⟨by decide, (undo_survives Host.plain hreach).1⟩

/-- The note once it is read again. -/
def echoedNote : Vigil := (reportedNote.step Host.plain echo).get (by decide)

/-- **A save that costs the history.** The note comes back as it was written, and what was typed
cannot be undone any more. -/
theorem undo_lost :
    ¬ ∀ (h : Host) (v : Vigil), Runs.Reach (step h) (fun _ _ => True) Fresh v → v.Kept := by
  intro hall
  have hrun : Runs.checkedRun (step Host.plain) unheard quiet reporting = some reportedNote :=
    (Option.some_get _).symm
  have hreported : Runs.Reach (step Host.plain) (fun _ _ => True) Fresh reportedNote :=
    .of_checkedRun (fun _ _ _ => trivial) reporting (.start fresh_quiet) hrun
  have hreach : Runs.Reach (step Host.plain) (fun _ _ => True) Fresh echoedNote :=
    .next hreported (a := echo) trivial (Option.some_get _).symm
  have hsome : (echoedNote.since ⟨1⟩).isSome = true := by decide
  obtain ⟨t, ht⟩ := Option.isSome_iff_exists.mp hsome
  have hbefore : (echoedNote.since ⟨1⟩).map (·.applied.length) = some 1 := by decide
  have hafter : (echoedNote.world.model.trail ⟨1⟩).map (·.applied.length) = some 0 := by decide
  rw [hall _ _ hreach ⟨1⟩ t ht, ← ht, hbefore] at hafter
  cases hafter

end Vigil

end App

end Termesh
