import Termesh.App.GitState
import Termesh.Lib.Run

/-!
# The selection of the Git status

A status overlay shows the rows of the snapshot it was built from. When a snapshot is absorbed, only
the overlay on top is rebuilt.

* `GitStatusOverlay.Follows`: a status overlay before and after a snapshot;
* **`reanchored_follows`**: a rebuilt overlay keeps its group and path;
* `Restacked`, `Calm`, `step_calm`: what else happens to the stack of overlays;
* `GitDesk.absorbed`, `GitDesk.Uncovered`: the snapshot an event brings, and when it finds every
  status overlay on top;
* **`selection_follows`**: runs in which it always does.
-/

namespace Termesh

namespace App

/-- What the selection is anchored on. -/
def GitStatusRow.key (r : GitStatusRow) : GitGroup × Path := (r.group, r.path)

namespace GitStatusOverlay

/-- The rows are those of the snapshot, and the cursor is where it was if that is still a row. -/
structure Follows (o o' : GitStatusOverlay) (s : GitRepositorySnapshot) : Prop where
  rows : o'.rows = statusRows s
  selected : ∀ row, o.row = some row → (∃ r ∈ statusRows s, r.key = row.key) →
    ∃ r, o'.row = some r ∧ r.key = row.key

theorem Follows.refl {o : GitStatusOverlay} {s : GitRepositorySnapshot}
    (h : o.rows = statusRows s) : o.Follows o s :=
  ⟨h, fun row hr _ => ⟨row, hr, rfl⟩⟩

end GitStatusOverlay

open GitStatusOverlay

namespace GitDesk

/-- **A rebuilt overlay keeps its group and path.** -/
theorem reanchored_follows (o : GitStatusOverlay) (s : GitRepositorySnapshot) :
    o.Follows (reanchored o s) s := by
  refine ⟨rfl, fun row hr ⟨r, hmem, hkey⟩ => ?_⟩
  obtain ⟨hgroup, hpath⟩ := Prod.mk.inj hkey
  have hsome : ((statusRows s).findIdx? fun r => r.group = row.group ∧ r.path = row.path).isSome := by
    rw [List.findIdx?_isSome, List.any_eq_true]
    exact ⟨r, hmem, decide_eq_true ⟨hgroup, hpath⟩⟩
  obtain ⟨i, hi⟩ := Option.isSome_iff_exists.mp hsome
  have hanchor : (reanchored o s).selected = i := by
    rw [reanchored, hr]
    show (((statusRows s).findIdx? _).getD _) = i
    rw [hi]
    rfl
  obtain ⟨hlt, hfound, -⟩ := List.findIdx?_eq_some_iff_getElem.mp hi
  refine ⟨(statusRows s)[i], ?_, ?_⟩
  · show (statusRows s)[(reanchored o s).selected]? = _
    rw [hanchor, List.getElem?_eq_getElem hlt]
  · obtain ⟨hg, hp⟩ := of_decide_eq_true hfound
    exact Prod.ext hg hp

end GitDesk

/-! ## What happens to the stack -/

/-- The status overlays of a stack show the rows of what is known. -/
def ShowsRows (snapshot : Option GitRepositorySnapshot) (overlays : List Surface) : Prop :=
  ∀ status, .gitStatus status ∈ overlays →
    ∃ s, snapshot = some s ∧ status.rows = statusRows s

/-- A stack before and after something that absorbs no snapshot. The cursor of the status overlay on
top may have been moved, if `moves`. -/
inductive Restacked (snapshot : Option GitRepositorySnapshot) (moves : Bool) :
    List Surface → List Surface → Prop where
  | same (os : List Surface) : Restacked snapshot moves os os
  | closed (os : List Surface) : Restacked snapshot moves os os.dropLast
  | opened (os : List Surface) (o : Surface) (h : ∀ status, o ≠ .gitStatus status) :
      Restacked snapshot moves os (os ++ [o])
  | shown (os : List Surface) (s : GitRepositorySnapshot) (focus : Pane)
      (h : snapshot = some s) : Restacked snapshot moves os (os ++ [.gitStatus (ofSnapshot s focus)])
  | redrawn (os : List Surface) (o o' : Surface) (h : ∀ status, o ≠ .gitStatus status)
      (h' : ∀ status, o' ≠ .gitStatus status) : Restacked snapshot moves (os ++ [o]) (os ++ [o'])
  | moved (os : List Surface) (status : GitStatusOverlay) (selected : ℕ) (h : moves = true) :
      Restacked snapshot moves (os ++ [.gitStatus status])
        (os ++ [.gitStatus { status with selected }])

namespace Restacked

variable {snapshot : Option GitRepositorySnapshot} {moves : Bool} {os os' : List Surface}

theorem shows (hr : Restacked snapshot moves os os') (h : ShowsRows snapshot os) :
    ShowsRows snapshot os' := by
  cases hr with
  | same => exact h
  | closed => exact fun status hm => h status (List.dropLast_subset os hm)
  | opened _ o ho =>
    intro status hm
    rcases List.mem_append.mp hm with hm | hm
    · exact h status hm
    · exact absurd (List.mem_singleton.mp hm).symm (ho status)
  | shown _ s focus hs =>
    intro status hm
    rcases List.mem_append.mp hm with hm | hm
    · exact h status hm
    · obtain rfl := Surface.gitStatus.inj (List.mem_singleton.mp hm)
      exact ⟨s, hs, rfl⟩
  | redrawn os o o' ho ho' =>
    intro status hm
    rcases List.mem_append.mp hm with hm | hm
    · exact h status (List.mem_append_left _ hm)
    · exact absurd (List.mem_singleton.mp hm).symm (ho' status)
  | moved os status selected _ =>
    intro status' hm
    rcases List.mem_append.mp hm with hm | hm
    · exact h status' (List.mem_append_left _ hm)
    · obtain rfl := Surface.gitStatus.inj (List.mem_singleton.mp hm)
      exact h status (List.mem_append_right _ List.mem_cons_self)

/-- A status overlay that is still there is the same, unless its cursor was moved. -/
theorem keeps (hr : Restacked snapshot false os os') {i : ℕ} {status : GitStatusOverlay}
    (hi : os[i]? = some (.gitStatus status)) (hlt : i < os'.length) :
    os'[i]? = some (.gitStatus status) := by
  have hlast : ∀ (os : List Surface) (o : Surface), (∀ status, o ≠ .gitStatus status) →
      (os ++ [o])[i]? = some (.gitStatus status) → os[i]? = some (.gitStatus status) := by
    intro os o ho hget
    rcases Nat.lt_or_ge i os.length with hlt | hge
    · rwa [List.getElem?_append_left hlt] at hget
    · rw [List.getElem?_append_right hge] at hget
      have hmem := List.mem_of_getElem? hget
      exact absurd (List.mem_singleton.mp hmem).symm (ho status)
  have hold : ∀ (os tail : List Surface), os[i]? = some (.gitStatus status) →
      (os ++ tail)[i]? = some (.gitStatus status) := by
    intro os tail hget
    rw [List.getElem?_append_left (List.getElem?_eq_some_iff.mp hget).1, hget]
  cases hr with
  | same => exact hi
  | closed =>
    rw [List.length_dropLast] at hlt
    rw [List.getElem?_dropLast, if_pos hlt, hi]
  | opened _ o _ => exact hold _ _ hi
  | shown _ s focus _ => exact hold _ _ hi
  | redrawn os o o' ho _ => exact hold _ _ (hlast os o ho hi)
  | moved _ _ _ hm => cases hm

end Restacked

namespace GitDesk

/-- The snapshot that is taken over. -/
def absorbed (d : GitDesk) : GitDeed → Option GitRepositorySnapshot
  | .event event => d.takes event
  | _ => none

/-- A snapshot finds every status overlay on top, or with its rows already; and a workspace is opened
without a status overlay. -/
def Uncovered (d : GitDesk) (deed : GitDeed) : Prop :=
  (∀ s, d.absorbed deed = some s →
    ∀ status, .gitStatus status ∈ d.overlays.dropLast → status.rows = statusRows s) ∧
  ∀ root, deed = .openWorkspace root → ∀ status, .gitStatus status ∉ d.overlays

/-- What a deed does that absorbs nothing and opens no workspace. -/
def Calm (moves : Bool) (d d' : GitDesk) : Prop :=
  d'.git.snapshot = d.git.snapshot ∧ Restacked d.git.snapshot moves d.overlays d'.overlays

variable {d d' d₁ : GitDesk} {moves : Bool}

theorem Calm.of_same (hs : d'.git.snapshot = d.git.snapshot) (ho : d'.overlays = d.overlays) :
    Calm moves d d' := ⟨hs, ho ▸ .same _⟩

theorem getLast?_some {os : List Surface} {o : Surface} (h : os.getLast? = some o) :
    os = os.dropLast ++ [o] := by
  obtain ⟨front, rfl⟩ := List.getLast?_eq_some_iff.mp h
  rw [List.dropLast_concat]

theorem Calm.of_setTop {o p : Surface} (htop : d.overlays.getLast? = some o)
    (h : ∀ status, o ≠ .gitStatus status) (h' : ∀ status, p ≠ .gitStatus status) :
    Calm moves d (d.setTop p) := by
  refine ⟨rfl, ?_⟩
  have hr : Restacked d.git.snapshot moves (d.overlays.dropLast ++ [o])
      (d.overlays.dropLast ++ [p]) := .redrawn _ _ _ h h'
  rwa [← getLast?_some htop] at hr

theorem showGitStatus_calm (d : GitDesk) : Calm moves d d.showGitStatus := by
  have hs := d.requestGitRefresh_snapshot
  have ho := d.requestGitRefresh_overlays
  unfold showGitStatus
  dsimp only
  split
  · exact .of_same hs ho
  · split
    · exact .of_same hs ho
    · rename_i s hsome
      refine ⟨hs, ?_⟩
      show Restacked _ _ _ (d.requestGitRefresh.overlays ++ _)
      rw [ho]
      exact .shown _ _ _ (hs.symm.trans hsome)

theorem openSelectedGitDiff_calm (d : GitDesk) : Calm moves d d.openSelectedGitDiff := by
  unfold openSelectedGitDiff
  split
  · exact .of_same rfl rfl
  · split
    · exact .of_same rfl rfl
    · split
      · exact .of_same rfl rfl
      · split
        · exact ⟨rfl, .opened _ _ (by simp)⟩
        · exact ⟨rfl, .opened _ _ (by simp)⟩

theorem requestGitBranches_calm (d : GitDesk) : Calm moves d d.requestGitBranches := by
  unfold requestGitBranches
  split
  · exact .of_same rfl rfl
  · split
    · exact .of_same rfl rfl
    · split <;> exact .of_same rfl rfl

theorem promptGitCommit_calm (d : GitDesk) : Calm moves d d.promptGitCommit := by
  unfold promptGitCommit
  dsimp only
  split
  · exact .of_same rfl rfl
  · split
    · exact .of_same rfl rfl
    · split
      · exact .of_same rfl rfl
      · exact ⟨rfl, .opened _ _ (by simp)⟩

theorem queueGitOperation_calm (d : GitDesk) (operation : GitOperation) :
    Calm moves d (d.queueGitOperation operation) :=
  .of_same (d.queueGitOperation_snapshot operation) (d.queueGitOperation_overlays operation)

theorem stageSelectedGitRow_calm (d : GitDesk) : Calm moves d d.stageSelectedGitRow := by
  unfold stageSelectedGitRow
  split
  · dsimp only
    split
    · exact d.showGitStatus_calm
    · exact d.showGitStatus_calm
  · split
    · exact .of_same rfl rfl
    · exact d.queueGitOperation_calm _

theorem unstageSelectedGitRow_calm (d : GitDesk) : Calm moves d d.unstageSelectedGitRow := by
  unfold unstageSelectedGitRow
  split
  · exact .of_same rfl rfl
  · split
    · exact .of_same rfl rfl
    · exact d.queueGitOperation_calm _

theorem Calm.of_dropLast (operation : GitOperation) :
    Calm moves d ({ d with overlays := d.overlays.dropLast }.queueGitOperation operation) := by
  refine ⟨queueGitOperation_snapshot _ _, ?_⟩
  rw [queueGitOperation_overlays]
  exact .closed _

theorem checkoutSelected_calm (d : GitDesk) : Calm moves d d.checkoutSelected := by
  unfold checkoutSelected
  split
  · split
    · exact .of_dropLast _
    · exact .of_same rfl rfl
  · exact .of_same rfl rfl

theorem confirmCommit_calm (d : GitDesk) (name : String) : Calm moves d (d.confirmCommit name) := by
  unfold confirmCommit
  split
  · dsimp only
    split
    · exact ⟨rfl, .closed _⟩
    · exact .of_dropLast _
  · exact .of_same rfl rfl

theorem close_calm (d : GitDesk) : Calm moves d d.close := by
  unfold close
  split <;> exact ⟨rfl, .closed _⟩

theorem move_calm (d : GitDesk) (down : Bool) : Calm true d (d.move down) := by
  unfold move
  split
  · rename_i o htop
    have hcursor : ∃ selected, (if down then o.moveDown else o.moveUp) = { o with selected } := by
      unfold moveDown moveUp
      split <;> split <;> exact ⟨_, rfl⟩
    obtain ⟨selected, hcursor⟩ := hcursor
    refine ⟨rfl, ?_⟩
    have hr : Restacked d.git.snapshot true (d.overlays.dropLast ++ [.gitStatus o])
        (d.overlays.dropLast ++ [.gitStatus { o with selected }]) := .moved _ _ _ rfl
    rw [hcursor]
    rwa [← getLast?_some htop] at hr
  · rename_i o htop
    exact .of_setTop htop (by simp) (by simp)
  · exact .of_same rfl rfl

theorem onGitFailed_calm (d : GitDesk) (id : GitRequestId) (applied : Bool) (failure : GitFailure) :
    Calm moves d (d.onGitFailed id applied failure) := by
  unfold onGitFailed
  split
  · dsimp only
    split
    · exact .of_same (finishGitRefresh_snapshot _) (finishGitRefresh_overlays _)
    · exact .of_same (finishGitRefresh_snapshot _) (finishGitRefresh_overlays _)
  · split
    · dsimp only
      split
      · rename_i o htop
        exact Calm.of_setTop (d := d) (p := .gitDiff _) htop (by simp) (by simp)
      · exact .of_same rfl rfl
    · split
      · exact .of_same rfl rfl
      · split
        · split <;> exact .of_same rfl rfl
        · exact .of_same rfl rfl

theorem onGitEvent_calm {event : GitEvent} (ha : d.absorbed (.event event) = none) :
    Calm moves d (d.onGitEvent event) := by
  cases event with
  | started => exact .of_same rfl rfl
  | snapshotLoaded id s =>
    have hid : d.git.activeRefresh ≠ some id := by simpa [absorbed, takes] using ha
    rw [onGitEvent, if_pos hid]
    exact .of_same rfl rfl
  | operationFinished id operation message s =>
    have hid : d.git.activeOperation.map Prod.fst ≠ some id := by
      intro hid
      rw [absorbed, takes, if_pos hid] at ha
      cases ha
    rw [onGitEvent, if_pos hid]
    exact .of_same rfl rfl
  | diffLoaded id diff =>
    unfold onGitEvent
    dsimp only
    split
    · exact .of_same rfl rfl
    · split
      · rename_i o htop
        split
        · exact Calm.of_setTop (d := d) (p := .gitDiff _) htop (by simp) (by simp)
        · exact .of_same rfl rfl
      · exact .of_same rfl rfl
  | branchesLoaded id branches =>
    unfold onGitEvent
    dsimp only
    split
    · exact .of_same rfl rfl
    · split
      · exact .of_same rfl rfl
      · exact ⟨rfl, .opened _ _ (by simp)⟩
  | failed id applied failure => exact d.onGitFailed_calm id applied failure

/-- **What a deed does that absorbs nothing and opens no workspace.** -/
theorem step_calm {deed : GitDeed} (ha : d.absorbed deed = none)
    (hw : ∀ root, deed ≠ .openWorkspace root) (hm : ∀ down, deed = .move down → moves = true) :
    Calm moves d (d.step deed) := by
  cases deed with
  | event event => exact onGitEvent_calm ha
  | trigger => exact .of_same d.requestGitRefresh_snapshot d.requestGitRefresh_overlays
  | openWorkspace root => exact absurd rfl (hw root)
  | «show» => exact d.showGitStatus_calm
  | stage => exact d.stageSelectedGitRow_calm
  | unstage => exact d.unstageSelectedGitRow_calm
  | commit => exact d.promptGitCommit_calm
  | branches => exact d.requestGitBranches_calm
  | operation operation => exact d.queueGitOperation_calm operation
  | openDiff => exact d.openSelectedGitDiff_calm
  | close => exact d.close_calm
  | move down => exact hm down rfl ▸ d.move_calm down
  | checkoutSelected => exact d.checkoutSelected_calm
  | confirmCommit name => exact d.confirmCommit_calm name
  | pushOther => exact ⟨rfl, .opened _ _ (by simp)⟩
  | setFocus => exact .of_same rfl rfl
  | take => exact .of_same rfl rfl

/-! ## A snapshot -/

theorem step_absorbs {deed : GitDeed} {s : GitRepositorySnapshot} (ha : d.absorbed deed = some s) :
    (d.step deed).git.snapshot = some s ∧
      (d.step deed).overlays = (d.refreshGitStatusOverlay s).overlays := by
  cases deed with
  | event event =>
    cases event with
    | snapshotLoaded id s' =>
      rw [absorbed, takes, Option.ite_none_right_eq_some] at ha
      obtain ⟨hid, hs⟩ := ha
      obtain rfl := Option.some.inj hs
      show (d.onGitEvent _).git.snapshot = _ ∧ (d.onGitEvent _).overlays = _
      rw [onGitEvent, if_neg (not_not.mpr hid)]
      exact ⟨finishGitRefresh_snapshot _, finishGitRefresh_overlays _⟩
    | operationFinished id operation message s' =>
      rw [absorbed, takes, Option.ite_none_right_eq_some] at ha
      obtain ⟨hid, hs⟩ := ha
      obtain rfl := Option.some.inj hs
      show (d.onGitEvent _).git.snapshot = _ ∧ (d.onGitEvent _).overlays = _
      rw [onGitEvent, if_neg (not_not.mpr hid)]
      refine ⟨rfl, ?_⟩
      show (refreshGitStatusOverlay _ s').overlays = _
      unfold refreshGitStatusOverlay
      dsimp only
      split <;> rfl
    | _ => cases ha
  | _ => cases ha

theorem mem_overlays {o : Surface} (hm : o ∈ d.overlays) :
    o ∈ d.overlays.dropLast ∨ d.overlays.getLast? = some o := by
  cases hlast : d.overlays.getLast? with
  | none =>
    rw [List.getLast?_eq_none_iff.mp hlast] at hm
    cases hm
  | some top =>
    rw [getLast?_some hlast] at hm
    rcases List.mem_append.mp hm with hm | hm
    · exact .inl hm
    · exact .inr (congrArg some (List.mem_singleton.mp hm).symm)

/-- The overlays under the one on top are left alone, and a status overlay on top is rebuilt. -/
theorem refreshGitStatusOverlay_overlays (d : GitDesk) (s : GitRepositorySnapshot) :
    (∃ status, d.overlays.getLast? = some (.gitStatus status) ∧
      (d.refreshGitStatusOverlay s).overlays =
        d.overlays.dropLast ++ [.gitStatus (reanchored status s)]) ∨
    d.statusOnTop = none ∧ (d.refreshGitStatusOverlay s).overlays = d.overlays := by
  unfold refreshGitStatusOverlay statusOnTop
  split
  · rename_i status htop
    exact .inl ⟨status, htop, rfl⟩
  · rename_i htop
    exact .inr ⟨rfl, rfl⟩

theorem statusOnTop_eq {status : GitStatusOverlay} :
    d.statusOnTop = some status ↔ d.overlays.getLast? = some (.gitStatus status) := by
  unfold statusOnTop
  split
  · rename_i o htop
    rw [htop]
    exact ⟨fun h => by rw [Option.some.inj h], fun h => by rw [Surface.gitStatus.inj (Option.some.inj h)]⟩
  · rename_i htop
    exact ⟨fun h => (by cases h), fun h => absurd h (htop status)⟩

/-- **Every status overlay follows a snapshot just when those that are covered have its rows.** -/
theorem follows_iff {deed : GitDeed} {s : GitRepositorySnapshot} (ha : d.absorbed deed = some s) :
    (∀ (i : ℕ) (o : GitStatusOverlay), d.overlays[i]? = some (.gitStatus o) →
      ∃ o', (d.step deed).overlays[i]? = some (.gitStatus o') ∧ o.Follows o' s) ↔
      d.Uncovered deed := by
  have hworkspace : ∀ root, deed ≠ .openWorkspace root := by
    rintro root rfl
    cases ha
  obtain ⟨-, hoverlays⟩ := step_absorbs ha
  have hunder : ∀ (i : ℕ) (o : Surface), d.overlays.dropLast[i]? = some o →
      d.overlays[i]? = some o ∧ (d.step deed).overlays[i]? = some o := by
    intro i o hget
    have hlt := (List.getElem?_eq_some_iff.mp hget).1
    have hbefore : d.overlays[i]? = some o := by
      rw [List.length_dropLast] at hlt
      rwa [List.getElem?_dropLast, if_pos hlt] at hget
    rw [hoverlays]
    rcases d.refreshGitStatusOverlay_overlays s with ⟨top, -, heq⟩ | ⟨-, heq⟩
    · rw [heq, List.getElem?_append_left hlt]
      exact ⟨hbefore, hget⟩
    · rw [heq]
      exact ⟨hbefore, hbefore⟩
  constructor
  · intro hall
    refine ⟨fun s' hs o hm => ?_, fun root hroot => absurd hroot (hworkspace root)⟩
    obtain rfl := Option.some.inj (ha.symm.trans hs)
    obtain ⟨i, hi⟩ := List.mem_iff_getElem?.mp hm
    obtain ⟨hbefore, hafter⟩ := hunder i _ hi
    obtain ⟨o', ho', hfollows⟩ := hall i o hbefore
    obtain rfl := Surface.gitStatus.inj (Option.some.inj (hafter.symm.trans ho'))
    exact hfollows.rows
  · rintro ⟨hcovered, -⟩ i o hi
    rcases Nat.lt_or_ge i d.overlays.dropLast.length with hlt | hge
    · have hget : d.overlays.dropLast[i]? = some (.gitStatus o) := by
        rw [List.getElem?_dropLast, if_pos (by rwa [List.length_dropLast] at hlt), hi]
      exact ⟨o, (hunder i _ hget).2, .refl (hcovered s ha o (List.mem_of_getElem? hget))⟩
    · have htop : d.overlays.getLast? = some (.gitStatus o) := by
        have hlen := (List.getElem?_eq_some_iff.mp hi).1
        rw [List.length_dropLast] at hge
        rw [List.getLast?_eq_getElem?, ← hi, show d.overlays.length - 1 = i by omega]
      rcases d.refreshGitStatusOverlay_overlays s with ⟨top, hlast, heq⟩ | ⟨hnone, -⟩
      · obtain rfl := Surface.gitStatus.inj (Option.some.inj (htop.symm.trans hlast))
        refine ⟨reanchored o s, ?_, reanchored_follows o s⟩
        have hlen := (List.getElem?_eq_some_iff.mp hi).1
        rw [List.length_dropLast] at hge
        rw [hoverlays, heq, List.getElem?_append_right (by rw [List.length_dropLast]; omega),
          List.length_dropLast, show i - (d.overlays.length - 1) = 0 by omega]
        rfl
      · rw [statusOnTop_eq.mpr htop] at hnone
        cases hnone

/-! ## Runs -/

/-- Nothing is open and nothing is known. -/
def Fresh (d : GitDesk) : Prop := d = {}

/-- Every status overlay shows the snapshot that is known. -/
def Shown (d : GitDesk) : Prop := ShowsRows d.git.snapshot d.overlays

theorem step_shown {deed : GitDeed} (hi : d.Shown) (hok : d.Uncovered deed) :
    (d.step deed).Shown := by
  cases ha : d.absorbed deed with
  | some s =>
    obtain ⟨hsnapshot, hoverlays⟩ := step_absorbs ha
    intro status hm
    have hcovered := hok.1 s ha
    refine ⟨s, hsnapshot, ?_⟩
    rw [hoverlays] at hm
    rcases d.refreshGitStatusOverlay_overlays s with ⟨top, -, heq⟩ | ⟨hnone, heq⟩
    · rw [heq] at hm
      rcases List.mem_append.mp hm with hm | hm
      · exact hcovered status hm
      · obtain rfl := Surface.gitStatus.inj (List.mem_singleton.mp hm)
        exact (reanchored_follows top s).rows
    · rw [heq] at hm
      rcases mem_overlays hm with hm | htop
      · exact hcovered status hm
      · rw [statusOnTop_eq.mpr htop] at hnone
        cases hnone
  | none =>
    by_cases hw : ∃ root, deed = .openWorkspace root
    · obtain ⟨root, rfl⟩ := hw
      intro status hm
      have ho : (d.openWorkspace root).overlays = d.overlays := requestGitRefresh_overlays _
      exact absurd (ho ▸ hm) (hok.2 root rfl status)
    · have hcalm : Calm true d (d.step deed) :=
        step_calm ha (fun root he => hw ⟨root, he⟩) fun _ _ => rfl
      obtain ⟨hs, hr⟩ := hcalm
      unfold Shown
      rw [hs]
      exact hr.shows hi

/-- The operation a deed asks for on a row. -/
def Acts (row : GitStatusRow) : GitDeed → GitOperation → Prop
  | .stage, operation => operation = .stage row.path ∧ row.target = .worktree
  | .unstage, operation => operation = .unstage row.path ∧ row.target = .index
  | _, _ => False

theorem queueGitOperation_mem {operation other : GitOperation} {id : GitRequestId} {root : Path}
    (hm : .execute id root other ∈ (d.queueGitOperation operation).outbox) :
    .execute id root other ∈ d.outbox ∨ other = operation := by
  unfold queueGitOperation at hm
  split at hm
  · exact .inl hm
  · split at hm
    · exact .inl hm
    · rcases List.mem_append.mp hm with hm | hm
      · exact .inl hm
      · cases List.mem_singleton.mp hm
        exact .inr rfl

theorem requestGitRefresh_mem {operation : GitOperation} {id : GitRequestId} {root : Path}
    (hm : .execute id root operation ∈ d.requestGitRefresh.outbox) :
    .execute id root operation ∈ d.outbox := by
  unfold requestGitRefresh at hm
  split at hm
  · exact hm
  · split at hm
    · exact hm
    · rcases List.mem_append.mp hm with hm | hm
      · exact hm
      · cases List.mem_singleton.mp hm

theorem showGitStatus_outbox : d.showGitStatus.outbox = d.requestGitRefresh.outbox := by
  unfold showGitStatus
  dsimp only
  split
  · rfl
  · split <;> rfl

theorem stage_acts {deed : GitDeed} (hd : deed = .stage ∨ deed = .unstage) {id : GitRequestId}
    {root : Path} {operation : GitOperation}
    (hm : .execute id root operation ∈ (d.step deed).outbox) :
    .execute id root operation ∈ d.outbox ∨
      ∃ row, d.selectedGitStatusRow = some row ∧ Acts row deed operation := by
  rcases hd with rfl | rfl
  · replace hm : .execute id root operation ∈ d.stageSelectedGitRow.outbox := hm
    unfold stageSelectedGitRow at hm
    split at hm
    · have hshow : .execute id root operation ∈ d.showGitStatus.outbox := by
        dsimp only at hm
        split at hm <;> exact hm
      rw [showGitStatus_outbox] at hshow
      exact .inl (requestGitRefresh_mem hshow)
    · rename_i row hrow
      split at hm
      · exact .inl hm
      · rename_i htarget
        refine (queueGitOperation_mem hm).imp_right fun ho => ⟨row, hrow, ho, ?_⟩
        exact not_not.mp htarget
  · replace hm : .execute id root operation ∈ d.unstageSelectedGitRow.outbox := hm
    unfold unstageSelectedGitRow at hm
    split at hm
    · exact .inl hm
    · rename_i row hrow
      split at hm
      · exact .inl hm
      · rename_i htarget
        refine (queueGitOperation_mem hm).imp_right fun ho => ⟨row, hrow, ho, ?_⟩
        exact not_not.mp htarget

theorem Shown.selected (hi : d.Shown) {row : GitStatusRow}
    (hr : d.selectedGitStatusRow = some row) :
    ∃ s, d.git.snapshot = some s ∧ row ∈ statusRows s := by
  obtain ⟨status, hstatus, hrow⟩ := Option.bind_eq_some_iff.mp hr
  have hmem := List.mem_of_getLast? (statusOnTop_eq.mp hstatus)
  obtain ⟨s, hs, hrows⟩ := hi status hmem
  exact ⟨s, hs, hrows ▸ List.mem_of_getElem? hrow⟩

/-- The deeds as a system that never crashes. -/
def total (d : GitDesk) (deed : GitDeed) : Option GitDesk := some (d.step deed)

/-- **The selection follows its file.** In runs in which every snapshot finds the status overlays on
top, each of them shows the rows of the snapshot that is known; a snapshot is followed by all of
them just when it does so too; nothing but the arrows moves a cursor in between; and staging acts on
a row of that snapshot, the one under the cursor. -/
theorem selection_follows {d : GitDesk} (hr : Runs.Reach total Uncovered Fresh d)
    (deed : GitDeed) :
    d.Shown ∧
    (∀ s, d.absorbed deed = some s →
      ((∀ (i : ℕ) (o : GitStatusOverlay), d.overlays[i]? = some (.gitStatus o) →
        ∃ o', (d.step deed).overlays[i]? = some (.gitStatus o') ∧ o.Follows o' s) ↔
        d.Uncovered deed)) ∧
    (d.absorbed deed = none → (∀ down, deed ≠ .move down) →
      ∀ (i : ℕ) (o : GitStatusOverlay), d.overlays[i]? = some (.gitStatus o) →
        i < (d.step deed).overlays.length → (d.step deed).overlays[i]? = some (.gitStatus o)) ∧
    (deed = .stage ∨ deed = .unstage → ∀ id root operation,
      .execute id root operation ∈ (d.step deed).outbox → .execute id root operation ∉ d.outbox →
        ∃ row s, d.selectedGitStatusRow = some row ∧ d.git.snapshot = some s ∧
          row ∈ statusRows s ∧ Acts row deed operation) := by
  have hshown : d.Shown := by
    refine hr.inv (I := Shown) (fun d hfresh => ?_) fun d deed d' hi hok hs => ?_
    · obtain rfl : d = {} := hfresh
      exact fun status hm => (by cases hm)
    · obtain rfl := Option.some.inj hs
      exact step_shown hi hok
  refine ⟨hshown, fun s ha => follows_iff ha, fun ha hm i o hi hlt => ?_, ?_⟩
  · by_cases hw : ∃ root, deed = .openWorkspace root
    · obtain ⟨root, rfl⟩ := hw
      have ho : (d.openWorkspace root).overlays = d.overlays := requestGitRefresh_overlays _
      show (d.openWorkspace root).overlays[i]? = _
      rw [ho, hi]
    · have hcalm : Calm false d (d.step deed) :=
        step_calm ha (fun root he => hw ⟨root, he⟩) fun down he => absurd he (hm down)
      exact hcalm.2.keeps hi hlt
  · intro hd id root operation hmem hnew
    obtain ⟨row, hrow, hacts⟩ := (stage_acts hd hmem).resolve_left hnew
    obtain ⟨s, hs, hin⟩ := hshown.selected hrow
    exact ⟨row, s, hrow, hs, hin, hacts⟩

/-! ## Two files -/

theorem uncovered_of_empty {deed : GitDeed} (h : d.overlays = []) : d.Uncovered deed := by
  constructor
  · intro s _ status hm
    rw [h] at hm
    cases hm
  · intro root _ status hm
    rw [h] at hm
    cases hm

theorem uncovered_of_calm {deed : GitDeed} (ha : d.absorbed deed = none)
    (hw : ∀ root, deed ≠ .openWorkspace root) : d.Uncovered deed := by
  constructor
  · intro s hs
    rw [ha] at hs
    cases hs
  · exact fun root he => absurd he (hw root)

def gitRoot : Path := [.rootDir, .normal "w"]

/-- A snapshot in which files with these names were modified. -/
def changed (names : List String) : GitRepositorySnapshot :=
  ⟨gitRoot, gitRoot, names.map fun name => ⟨[.normal name], none, some .modified⟩⟩

/-- Two files are changed. -/
def loadedSecond : GitDesk :=
  (({} : GitDesk).openWorkspace gitRoot).onGitEvent (.snapshotLoaded ⟨1⟩ (changed ["b", "c"]))

/-- The status is open, and the cursor is on the second one. -/
def onSecond : GitDesk := loadedSecond.showGitStatus.move true

/-- A third one is changed, which is listed first. -/
def thirdChanged : GitDeed := .event (.snapshotLoaded ⟨2⟩ (changed ["a", "b", "c"]))

example : onSecond.selectedGitStatusRow.map (·.path) = some [.normal "c"] := by decide +kernel

theorem selection_follows_third :
    onSecond.Shown ∧ ∀ (i : ℕ) (o : GitStatusOverlay),
      onSecond.overlays[i]? = some (.gitStatus o) →
        ∃ o', (onSecond.step thirdChanged).overlays[i]? = some (.gitStatus o') ∧
          o.Follows o' (changed ["a", "b", "c"]) := by
  have hreach : Runs.Reach total Uncovered Fresh onSecond := by
    have hloaded : Runs.Reach total Uncovered Fresh loadedSecond :=
      .next (a := .event (.snapshotLoaded ⟨1⟩ (changed ["b", "c"])))
        (.next (a := .openWorkspace gitRoot) (.start rfl) (uncovered_of_empty rfl) rfl)
        (uncovered_of_empty rfl) rfl
    refine .next (a := .move true) (.next (a := .show) hloaded (uncovered_of_empty rfl) rfl) ?_ rfl
    exact uncovered_of_calm rfl fun root he => by cases he
  obtain ⟨hshown, hfollows, -⟩ := selection_follows hreach thirdChanged
  refine ⟨hshown, (hfollows _ rfl).mpr ⟨fun s _ status hm => ?_, fun root he => by cases he⟩⟩
  have hone : onSecond.overlays.dropLast = [] := rfl
  rw [hone] at hm
  cases hm

/-- The diff of the second file is open over the status. -/
def diffOpen : GitDesk := onSecond.step .openDiff

/-- The second file is no longer changed. -/
def secondReverted : GitDeed := .event (.snapshotLoaded ⟨2⟩ (changed ["b"]))

/-- The covered status keeps the rows of an older snapshot; staging acts on a file that is not
changed. -/
theorem selection_stale :
    ¬ ∀ d : GitDesk, Runs.Reach total (fun _ _ => True) Fresh d →
      (∀ deed s, d.absorbed deed = some s → ∀ (i : ℕ) (o : GitStatusOverlay),
        d.overlays[i]? = some (.gitStatus o) →
          ∃ o', (d.step deed).overlays[i]? = some (.gitStatus o') ∧ o.Follows o' s) ∧
      (∀ id root operation, .execute id root operation ∈ (d.step .stage).outbox →
        .execute id root operation ∉ d.outbox → ∃ row s, d.selectedGitStatusRow = some row ∧
          d.git.snapshot = some s ∧ row ∈ statusRows s ∧ Acts row .stage operation) := by
  intro hall
  have hreach : Runs.Reach total (fun _ _ => True) Fresh diffOpen :=
    .of_run (fun _ _ => trivial) [.openWorkspace gitRoot,
      .event (.snapshotLoaded ⟨1⟩ (changed ["b", "c"])), .show, .move true, .openDiff]
      (.start rfl) rfl
  obtain ⟨o', ho', hfollows⟩ := (hall diffOpen hreach).1 secondReverted (changed ["b"]) rfl 0
    ⟨statusRows (changed ["b", "c"]), 1, .project⟩ (by decide +kernel)
  have hkept : (diffOpen.step secondReverted).overlays[0]? =
      some (.gitStatus ⟨statusRows (changed ["b", "c"]), 1, .project⟩) := by decide +kernel
  obtain rfl := Surface.gitStatus.inj (Option.some.inj (hkept.symm.trans ho'))
  exact absurd hfollows.rows (by decide +kernel)

end GitDesk

end App

end Termesh
