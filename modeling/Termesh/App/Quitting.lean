import Termesh.App.Recovery
import Termesh.App.Rereads
import Termesh.App.Tabs

/-!
# Quitting with unsaved work

The loop hands the worker what the model asks for at the top of every turn, drafts that are due
included, and ends when the human quits. What comes after the loop is nothing to the worker.

* `FsRequest.Hands`: the requests that write a text to a file, or to the file's draft;
* `Stage`: whether a buffer's text was asked to be written since it last changed, and handed over;
* `Watch`: a world together with all it ever handed over and the stages of its buffers;
* `Backed`, `step_backed`: what a stage says of the requests;
* **`quit_keeps_work`**: a quit that finds every dirty buffer's text handed over loses nothing;
* **`quit_loses_work`**: a quit before the draft is due.
-/

namespace Termesh

namespace App

open Buffer

/-- The request writes the text to the file, or to its draft. -/
def Hands (h : Host) (path : Path) (text : Text) : FsRequest → Prop
  | .writeFile _ file contents _ =>
    file = path ∧ contents = text ∨ ∃ dir, h.draftsDir = some dir ∧
      file = dir.join (h.draftFileName path) ∧ h.encodeDraft ⟨path, text⟩ file = .ok contents
  | _ => False

/-- How far the text of a buffer got since it last changed. -/
inductive Stage where
  /-- Nothing was asked. -/
  | loose
  /-- A write is in the queue. -/
  | queued
  /-- The loop handed the write over. -/
  | handed
deriving DecidableEq

/-- A draft of the buffer can be written. -/
def Host.drafts (h : Host) (b : Buffer) : Bool :=
  b.path.any fun path => h.draftsDir.any fun dir =>
    (h.encodeDraft ⟨path, b.toDiskString⟩ (dir.join (h.draftFileName path))).isOk

namespace Model

variable {h : Host} {m m' : Model}

/-- The file of a buffer and what would be written to it. -/
def sheet (m : Model) (id : BufferId) : Option (Option Path × Text) :=
  (m.buffers.find? (·.id = id)).map fun b => (b.path, b.toDiskString)

/-- The deed asks for the text of a buffer, or a draft of it, to be written. -/
def asksFor (h : Host) (m : Model) (id : BufferId) : Deed → Bool
  | .event (.dispatch .save) => m.active.any fun b => b.id = id && b.isDirty
  | .event (.tick seconds) =>
    m.draftDeadline.any (· ≤ m.clock + seconds) &&
      m.buffers.any fun b => b.id = id && b.isDirty && h.drafts b
  | _ => false

theorem sheet_of_mem (hids : (m.buffers.map (·.id)).Nodup) {b : Buffer} (hb : b ∈ m.buffers) :
    m.sheet b.id = some (b.path, b.toDiskString) := by
  rw [sheet, World.find?_id hids hb]
  rfl

theorem dispatch_save_asks {b : Buffer} {path : Path} (hb : m.active = some b)
    (hd : b.isDirty = true) (hp : b.path = some path) (hs : m.dispatch h .save = some m') :
    .writeFile b.id path b.toDiskString b.version ∈ m'.outbox := by
  obtain ⟨m₁, h₁, hs⟩ := Option.bind_eq_some_iff.mp hs
  obtain rfl : saveActiveBuffer { m with notification := none } = m₁ := Option.some.inj h₁
  have hmail := mail_of_outline (syncAll_outline hs)
  have hactive : ({ m with notification := none } : Model).active = some b := hb
  rw [show m'.outbox = _ from congrArg Mail.outbox hmail]
  simp only [saveActiveBuffer, hactive, hp, hd]
  exact List.mem_append_right _ List.mem_cons_self

theorem drafts_spec {b : Buffer} {path : Path} (hp : b.path = some path) (hd : h.drafts b = true) :
    ∃ dir contents, h.draftsDir = some dir ∧
      h.encodeDraft ⟨path, b.toDiskString⟩ (dir.join (h.draftFileName path)) = .ok contents := by
  rw [Host.drafts, hp, Option.any_some] at hd
  obtain ⟨dir, hdir, hok⟩ := (Option.any_eq_true _ _).mp hd
  cases he : h.encodeDraft ⟨path, b.toDiskString⟩ (dir.join (h.draftFileName path)) with
  | error e =>
    rw [he] at hok
    cases hok
  | ok contents => exact ⟨dir, contents, hdir, he⟩

theorem asksFor_hands {ev : Event} {b : Buffer} {path : Path}
    (hids : (m.buffers.map (·.id)).Nodup) (hb : b ∈ m.buffers) (hp : b.path = some path)
    (ha : m.asksFor h b.id (.event ev) = true) (hs : m.step h ev = some m') :
    ∃ r ∈ m'.outbox, Hands h path b.toDiskString r := by
  unfold asksFor at ha
  split at ha
  · rename_i hev
    obtain rfl := Deed.event.inj hev
    obtain ⟨b', hactive, hb'⟩ := (Option.any_eq_true _ _).mp ha
    obtain ⟨hid, hdirty⟩ : b'.id = b.id ∧ b'.isDirty = true := by simpa using hb'
    have hmem : b' ∈ m.buffers := by
      obtain ⟨i, -, hi⟩ := Option.bind_eq_some_iff.mp hactive
      exact List.mem_of_getElem? hi
    obtain rfl := eq_of_id hids hmem hb hid
    exact ⟨_, dispatch_save_asks hactive hdirty hp hs, .inl ⟨rfl, rfl⟩⟩
  · rename_i seconds hev
    obtain rfl := Deed.event.inj hev
    obtain ⟨hdue, hany⟩ := Bool.and_eq_true_iff.mp ha
    obtain ⟨deadline, hdl, hdue⟩ := (Option.any_eq_true _ _).mp hdue
    obtain ⟨b', hmem, hb'⟩ := List.any_eq_true.mp hany
    obtain ⟨⟨hid, hdirty⟩, hdrafts⟩ : (b'.id = b.id ∧ b'.isDirty = true) ∧ h.drafts b' = true := by
      simpa using hb'
    obtain rfl := eq_of_id hids hmem hb hid
    obtain ⟨dir, contents, hdir, he⟩ := drafts_spec hp hdrafts
    obtain ⟨buffer, hqueued⟩ := queued_draft (m := { m with clock := m.clock + seconds })
      hmem hdirty hp hdl (of_decide_eq_true hdue) hdir he
    refine ⟨_, Option.some.inj hs ▸ hqueued, ?_⟩
    exact Or.inr ⟨dir, hdir, rfl, he⟩
  · cases ha

end Model

namespace World

variable {h : Host} {w w' : World} {d : Deed}

theorem step_outbox (hs : w.step h d = some w') :
    d = .take ∧ w'.model.outbox = [] ∨ w.model.outbox <+: w'.model.outbox := by
  have hgrow : ∀ {ev : Event} {m' : Model}, w.model.step h ev = some m' → ev ≠ .takeFsRequests →
      w.model.outbox <+: m'.outbox := by
    intro ev m' hm ht
    obtain ⟨rs, ho, -⟩ := (Model.step_asks hm ht).outbox (fun _ _ => trivial) fun _ _ _ _ => trivial
    exact ⟨rs, ho.symm⟩
  cases d with
  | event ev =>
    rw [step] at hs
    split_ifs at hs with hworker
    obtain ⟨m', hm, rfl⟩ := Option.map_eq_some_iff.mp hs
    refine .inr (hgrow hm ?_)
    rintro rfl
    exact hworker rfl
  | take =>
    rw [← Option.some.inj hs]
    exact .inl ⟨rfl, rfl⟩
  | answer reply =>
    unfold step at hs
    dsimp only at hs
    split at hs
    · cases hs
    · split_ifs at hs
      obtain ⟨m', hm, rfl⟩ := Option.map_eq_some_iff.mp hs
      cases reply with
      | none =>
        obtain rfl : w.model = m' := Option.some.inj hm
        exact .inr List.prefix_rfl
      | some e => exact .inr (hgrow hm (by simp))

theorem step_ids (hs : w.step h d = some w') (hids : (w.model.buffers.map (·.id)).Nodup) :
    (w'.model.buffers.map (·.id)).Nodup := by
  cases d with
  | event ev =>
    rw [step] at hs
    split_ifs at hs
    obtain ⟨m', hm, rfl⟩ := Option.map_eq_some_iff.mp hs
    exact Model.step_nodup hm hids
  | take =>
    rw [← Option.some.inj hs]
    exact hids
  | answer reply =>
    unfold step at hs
    dsimp only at hs
    split at hs
    · cases hs
    · split_ifs at hs
      obtain ⟨m', hm, rfl⟩ := Option.map_eq_some_iff.mp hs
      cases reply with
      | none => exact Option.some.inj hm ▸ hids
      | some e => exact Model.step_nodup hm hids

end World

/-! ## What was handed over -/

/-- A world with all that the worker was ever handed, and how far the text of each buffer got. -/
structure Watch where
  world : World
  handed : List FsRequest := []
  stage : BufferId → Stage := fun _ => .loose

/-- The stage of a text that stays as it is. -/
def Stage.next (asked : Bool) : Deed → Stage → Stage
  | .take, queued => handed
  | _, loose => if asked then queued else loose
  | _, s => s

namespace Watch

variable {h : Host} {w w' : Watch} {d : Deed}

def step (h : Host) (w : Watch) (d : Deed) : Option Watch :=
  (w.world.step h d).map fun world => {
    world
    handed := match d with
      | .take => w.handed ++ w.world.model.outbox
      | _ => w.handed
    stage := fun id =>
      if world.model.sheet id = w.world.model.sheet id then
        (w.stage id).next (w.world.model.asksFor h id d) d
      else .loose }

/-- The top of a turn of the loop: drafts that are due, then the queue. -/
def top (seconds : ℕ) : List Deed := [.event (.tick seconds), .take]

/-- The human quits, and the exit path takes what is queued for the agent and for the terminals. -/
def leaving : List Event :=
  [.dispatch .quit, .shutdownTerminals, .takeAgentRequests, .takePtyRequests]

def quit (h : Host) (w : Watch) : Option Watch := Runs.run (step h) w (leaving.map .event)

def Fresh (w : Watch) : Prop := w.world.Fresh ∧ w.handed = [] ∧ ∀ id, w.stage id = .loose

/-- The worker was handed the text of every dirty buffer with a file. -/
def Kept (h : Host) (w : Watch) : Prop :=
  ∀ b ∈ w.world.model.buffers, b.isDirty = true → ∀ path, b.path = some path →
    ∃ r ∈ w.handed, Hands h path b.toDiskString r

/-- Every dirty buffer with a file was saved, or its draft fell due, since its text last changed,
and the loop has turned since. -/
def Ready (w : Watch) : Prop :=
  ∀ b ∈ w.world.model.buffers, b.isDirty = true → b.path ≠ none → w.stage b.id = .handed

/-- What the stages say. -/
structure Backed (h : Host) (w : Watch) : Prop where
  ids : (w.world.model.buffers.map (·.id)).Nodup
  queued : ∀ b ∈ w.world.model.buffers, w.stage b.id = .queued → ∀ path, b.path = some path →
    ∃ r ∈ w.handed ++ w.world.model.outbox, Hands h path b.toDiskString r
  handed : ∀ b ∈ w.world.model.buffers, w.stage b.id = .handed → ∀ path, b.path = some path →
    ∃ r ∈ w.handed, Hands h path b.toDiskString r

theorem Fresh.backed (hf : w.Fresh) : w.Backed h := by
  obtain ⟨⟨hb, -, -⟩, -, hstage⟩ := hf
  exact ⟨by simp [hb], by simp [hb], by simp [hb]⟩

theorem step_asked (hs : w.step h d = some w') :
    w.handed ++ w.world.model.outbox ⊆ w'.handed ++ w'.world.model.outbox := by
  obtain ⟨world, hw, rfl⟩ := Option.map_eq_some_iff.mp hs
  rcases World.step_outbox hw with ⟨rfl, -⟩ | hgrow
  · exact List.subset_append_left _ _
  · refine List.append_subset.mpr ⟨fun r hr => List.mem_append_left _ ?_,
      fun r hr => List.mem_append_right _ (hgrow.subset hr)⟩
    dsimp only
    split
    · exact List.mem_append_left _ hr
    · exact hr

theorem step_handed (hs : w.step h d = some w') : w.handed ⊆ w'.handed := by
  obtain ⟨world, -, rfl⟩ := Option.map_eq_some_iff.mp hs
  dsimp only
  split
  · exact List.subset_append_left _ _
  · exact List.Subset.refl _

theorem next_queued {asked : Bool} {s : Stage} (hn : s.next asked d = .queued) :
    s = .queued ∨ asked = true := by
  cases s with
  | loose =>
    cases d <;> cases asked <;> simp_all [Stage.next]
  | queued => exact .inl rfl
  | handed => cases d <;> cases hn

theorem next_handed {asked : Bool} {s : Stage} (hn : s.next asked d = .handed) :
    s = .handed ∨ s = .queued ∧ d = .take := by
  cases s with
  | loose => cases d <;> cases asked <;> cases hn
  | queued =>
    cases d with
    | take => exact .inr ⟨rfl, rfl⟩
    | event | answer => cases hn
  | handed => exact .inl rfl

theorem stage_sheet (hids : (w'.world.model.buffers.map (·.id)).Nodup)
    (hs : w.step h d = some w') {b' : Buffer} (hb' : b' ∈ w'.world.model.buffers)
    (hne : w'.stage b'.id ≠ .loose) :
    ∃ b ∈ w.world.model.buffers, b.id = b'.id ∧ b.path = b'.path ∧
      b.toDiskString = b'.toDiskString ∧
      w'.stage b'.id = (w.stage b'.id).next (w.world.model.asksFor h b'.id d) d := by
  obtain ⟨world, hw, rfl⟩ := Option.map_eq_some_iff.mp hs
  dsimp only at hne hids hb' ⊢
  by_cases hsame : world.model.sheet b'.id = w.world.model.sheet b'.id
  · rw [if_pos hsame]
    rw [Model.sheet_of_mem hids hb'] at hsame
    obtain ⟨b, hfind, hsheet⟩ := Option.map_eq_some_iff.mp hsame.symm
    obtain ⟨hpath, htext⟩ := Prod.mk.inj hsheet
    have hid : b.id = b'.id := by simpa using List.find?_some hfind
    exact ⟨b, List.mem_of_find?_eq_some hfind, hid, hpath, htext, rfl⟩
  · rw [if_neg hsame] at hne
    exact absurd rfl hne

theorem step_asks {b : Buffer} {path : Path} (hids : (w.world.model.buffers.map (·.id)).Nodup)
    (hs : w.step h d = some w') (hb : b ∈ w.world.model.buffers) (hp : b.path = some path)
    (ha : w.world.model.asksFor h b.id d = true) :
    ∃ r ∈ w'.world.model.outbox, Hands h path b.toDiskString r := by
  obtain ⟨world, hw, rfl⟩ := Option.map_eq_some_iff.mp hs
  cases d with
  | event ev =>
    rw [World.step] at hw
    split_ifs at hw
    obtain ⟨m', hm, rfl⟩ := Option.map_eq_some_iff.mp hw
    exact Model.asksFor_hands hids hb hp ha hm
  | take | answer => cases ha

/-- **One step.** -/
theorem step_backed (hi : w.Backed h) (hs : w.step h d = some w') : w'.Backed h := by
  have hids : (w'.world.model.buffers.map (·.id)).Nodup := by
    obtain ⟨world, hw, rfl⟩ := Option.map_eq_some_iff.mp hs
    exact World.step_ids hw hi.ids
  refine ⟨hids, fun b' hb' hstage path hp => ?_, fun b' hb' hstage path hp => ?_⟩
  · obtain ⟨b, hb, hid, hpath, htext, hnext⟩ :=
      stage_sheet hids hs hb' (by rw [hstage]; exact Stage.noConfusion)
    rw [← hpath] at hp
    rw [← htext]
    rw [hstage, ← hid] at hnext
    rcases next_queued hnext.symm with hqueued | hasked
    · obtain ⟨r, hr, hhands⟩ := hi.queued b hb hqueued path hp
      exact ⟨r, step_asked hs hr, hhands⟩
    · obtain ⟨r, hr, hhands⟩ := step_asks hi.ids hs hb hp hasked
      exact ⟨r, List.mem_append_right _ hr, hhands⟩
  · obtain ⟨b, hb, hid, hpath, htext, hnext⟩ :=
      stage_sheet hids hs hb' (by rw [hstage]; exact Stage.noConfusion)
    rw [← hpath] at hp
    rw [← htext]
    rw [hstage, ← hid] at hnext
    rcases next_handed hnext.symm with hhanded | ⟨hqueued, rfl⟩
    · obtain ⟨r, hr, hhands⟩ := hi.handed b hb hhanded path hp
      exact ⟨r, step_handed hs hr, hhands⟩
    · obtain ⟨r, hr, hhands⟩ := hi.queued b hb hqueued path hp
      obtain ⟨world, -, rfl⟩ := Option.map_eq_some_iff.mp hs
      exact ⟨r, hr, hhands⟩

/-! ## Quitting -/

theorem leaving_documents {ev : Event} (hev : ev ∈ leaving) {m m' : Model}
    (hs : m.step h ev = some m') : m'.documents = m.documents := by
  have hdesk : m'.desk = m.desk → m'.documents = m.documents := fun hd =>
    Model.documents_of_buffers (Model.buffers_of_desk hd)
  simp only [leaving, List.mem_cons, List.not_mem_nil, or_false] at hev
  rcases hev with rfl | rfl | rfl | rfl
  · have hsync : ({ m with notification := none, running := false } : Model).syncAll h =
        some m' := hs
    exact (Model.syncAll_worked (T := False) (P := fun _ _ => False) hsync).documents
  all_goals exact hdesk (Model.step_desk hs trivial)

theorem run_documents {evs : List Event} (hevs : ∀ ev ∈ evs, ev ∈ leaving)
    (hr : Runs.run (step h) w (evs.map .event) = some w') :
    w'.world.model.documents = w.world.model.documents ∧ w.handed ⊆ w'.handed := by
  induction evs generalizing w with
  | nil =>
    obtain rfl : w = w' := Option.some.inj hr
    exact ⟨rfl, List.Subset.refl _⟩
  | cons ev evs ih =>
    obtain ⟨w₁, hs, hr⟩ := Option.bind_eq_some_iff.mp hr
    obtain ⟨hdocs, hhanded⟩ := ih (fun ev' hev' => hevs ev' (List.mem_cons_of_mem _ hev')) hr
    refine ⟨?_, fun r hmem => hhanded (step_handed hs hmem)⟩
    obtain ⟨world, hw, rfl⟩ := Option.map_eq_some_iff.mp hs
    rw [World.step] at hw
    split_ifs at hw
    obtain ⟨m', hm, rfl⟩ := Option.map_eq_some_iff.mp hw
    rw [hdocs]
    exact leaving_documents (hevs ev List.mem_cons_self) hm

/-- **A quit that keeps unsaved work.** In every run, if every dirty buffer with a file was saved or
drafted since its text last changed, and the loop has turned since, then the worker was handed the
text of all of them by the time it is dropped. -/
theorem quit_keeps_work (h : Host) (hr : Runs.Reach (step h) (fun _ _ => True) Fresh w)
    (hready : w.Ready) (hq : w.quit h = some w') : w'.Kept h := by
  have hi : w.Backed h := hr.inv (fun _ => Fresh.backed) fun _ _ _ hi _ hs => step_backed hi hs
  obtain ⟨hdocs, hhanded⟩ := run_documents (fun _ hev => hev) hq
  intro b' hb' hdirty path hp
  have hmem : b'.document ∈ w.world.model.documents := by
    rw [← hdocs]
    exact List.mem_map_of_mem hb'
  obtain ⟨b, hb, heq⟩ := List.mem_map.mp hmem
  have hlater := later_of_document heq
  have hversion : b.version = b'.version := congrArg Document.version heq
  have hpath : b.path = b'.path := congrArg Document.path heq
  rw [← hlater.isDirty hversion] at hdirty
  rw [← hpath] at hp
  rw [← hlater.toDiskString hversion]
  obtain ⟨r, hmem, hhands⟩ := hi.handed b hb (hready b hb hdirty (by simp [hp])) path hp
  exact ⟨r, hhanded hmem, hhands⟩

/-! ## A note that is typed and left -/

/-- A host that keeps drafts. -/
def keeper : Host := { Host.plain with draftsDir := some [.rootDir, .normal "drafts"] }

/-- The note is opened and a character typed, in the order of the loop. -/
def typing : List Deed :=
  [.event (.openFile World.notePath)] ++ top 0 ++
    [.answer (some (.fileLoaded ⟨1⟩ World.notePath (some ['a'])))] ++ top 0 ++
    [.event (.typeChar 'x')] ++ top 1

/-- The debounce runs out. -/
def pausing : List Deed := typing ++ top 1

def emptyDesk : Watch := ⟨World.desktop, [], fun _ => .loose⟩

theorem fresh_emptyDesk : emptyDesk.Fresh := ⟨⟨rfl, rfl, rfl⟩, rfl, fun _ => rfl⟩

def typedNote : Watch := (Runs.run (step keeper) emptyDesk typing).get (by decide)

def pausedNote : Watch := (Runs.run (step keeper) emptyDesk pausing).get (by decide)

/-- The two notes once the human has quit. -/
def typedLeft : Watch := (typedNote.quit keeper).get (by decide)

def pausedLeft : Watch := (pausedNote.quit keeper).get (by decide)

theorem quit_keeps_work_note : pausedLeft.Kept keeper := by
  have hrun : Runs.run (step keeper) emptyDesk pausing = some pausedNote :=
    (Option.some_get _).symm
  have hreach : Runs.Reach (step keeper) (fun _ _ => True) Fresh pausedNote :=
    .of_run (fun _ _ => trivial) pausing (.start fresh_emptyDesk) hrun
  have hready : pausedNote.Ready := by
    intro b hb _ _
    have hall : pausedNote.world.model.buffers.all
        (fun b => pausedNote.stage b.id = .handed) = true := by decide
    simpa using List.all_eq_true.mp hall b hb
  exact quit_keeps_work keeper hreach hready (Option.some_get _).symm

/-- **Work that is lost.** The human quits within the debounce, and nothing was written. -/
theorem quit_loses_work :
    ¬ ∀ (h : Host) (w w' : Watch), h.draftsDir.isSome → w.world.model.autosave.isSome →
      Runs.Reach (step h) (fun _ _ => True) Fresh w → w.quit h = some w' → w'.Kept h := by
  intro hall
  have hrun : Runs.run (step keeper) emptyDesk typing = some typedNote := (Option.some_get _).symm
  have hreach : Runs.Reach (step keeper) (fun _ _ => True) Fresh typedNote :=
    .of_run (fun _ _ => trivial) typing (.start fresh_emptyDesk) hrun
  have hkept := hall keeper typedNote typedLeft rfl (by decide) hreach (Option.some_get _).symm
  have hdirty : typedLeft.world.model.buffers.any
      (fun b => b.isDirty && b.path == some World.notePath) = true := by decide
  obtain ⟨b, hb, hd⟩ := List.any_eq_true.mp hdirty
  obtain ⟨hd, hp⟩ := Bool.and_eq_true_iff.mp hd
  obtain ⟨r, hr, hhands⟩ := hkept b hb hd World.notePath (by simpa using hp)
  have hhanded : typedLeft.handed = [.readFile ⟨1⟩ World.notePath] := by decide
  rw [hhanded, List.mem_singleton] at hr
  subst hr
  exact hhands

end Watch

end App

end Termesh
