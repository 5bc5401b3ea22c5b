import Termesh.App.GitStatus

/-!
# Refreshing the Git snapshot

The Git part of the model together with the worker that serves its requests one by one, the oldest
first, and the channel on which the results come back.

* `GitWorld`, `GitTurn`, `GitWorld.step`: a deed of the model, handing over, a request served, a
  result delivered;
* `Refreshes`, `step_asks`: what a deed does to the refresh in flight;
* `GitWorld.unanswered`: the requests without a result, in order;
* `GitWorld.Sound`, **`step_sound`**: the refresh in flight is the last one of them;
* **`refresh_coalesced`**: no request for a refresh is lost, and snapshots only get newer.
-/

namespace Termesh

/-- The ids of the refreshes among requests. -/
def refreshIds (rs : List GitRequest) : List GitRequestId :=
  rs.filterMap fun
    | .refresh id _ => some id
    | _ => none

theorem refreshIds_append (rs rs' : List GitRequest) :
    refreshIds (rs ++ rs') = refreshIds rs ++ refreshIds rs' := List.filterMap_append

theorem mem_refreshIds {rs : List GitRequest} {id : GitRequestId} (h : id ∈ refreshIds rs) :
    ∃ r ∈ rs, r.id = id := by
  obtain ⟨r, hr, he⟩ := List.mem_filterMap.mp h
  cases r with
  | refresh => exact ⟨_, hr, Option.some.inj he⟩
  | _ => cases he

namespace App

/-! ## What a deed asks for -/

/-- What refreshing reads and changes. -/
structure Refreshing where
  active : Option GitRequestId
  pending : Bool
  outbox : List GitRequest
  next : ℕ
  root : Option Path

def GitDesk.refreshing (d : GitDesk) : Refreshing :=
  ⟨d.git.activeRefresh, d.git.pendingRefresh, d.outbox, d.nextRequestId, d.root⟩

/-- `request_git_refresh`. -/
def Refreshing.request (p : Refreshing) : Refreshing :=
  match p.root with
  | none => p
  | some root =>
    if p.active.isSome then { p with pending := true }
    else
      { p with active := some ⟨p.next + 1⟩
               outbox := p.outbox ++ [.refresh ⟨p.next + 1⟩ root]
               next := p.next + 1 }

/-- `finish_git_refresh`. -/
def Refreshing.finish (p : Refreshing) : Refreshing :=
  if p.pending then { p with active := none, pending := false }.request
  else { p with active := none, pending := false }

/-- What a deed does to the refresh in flight that does not end it. -/
inductive Refreshes (p p' : Refreshing) : Prop where
  | quiet (h : p' = p)
  | asked (r : GitRequest) (id : r.id = ⟨p.next + 1⟩) (apart : refreshIds [r] = [])
      (h : p' = { p with outbox := p.outbox ++ [r], next := p.next + 1 })
  | requested (h : p' = p.request)

namespace GitDesk

variable {d d' : GitDesk}

theorem requestGitRefresh_refreshing (d : GitDesk) :
    d.requestGitRefresh.refreshing = d.refreshing.request := by
  unfold requestGitRefresh Refreshing.request
  cases hroot : d.root with
  | none =>
    have h : d.refreshing.root = none := hroot
    rw [h]
  | some root =>
    have h : d.refreshing.root = some root := hroot
    rw [h]
    dsimp only
    by_cases ha : d.git.activeRefresh.isSome
    · rw [if_pos ha, if_pos (show d.refreshing.active.isSome from ha)]
      rfl
    · rw [if_neg ha, if_neg (show ¬ d.refreshing.active.isSome from ha)]
      rfl

theorem finishGitRefresh_refreshing (d : GitDesk) :
    d.finishGitRefresh.refreshing = d.refreshing.finish := by
  unfold finishGitRefresh Refreshing.finish
  dsimp only
  by_cases hp : d.git.pendingRefresh
  · rw [if_pos hp, if_pos (show d.refreshing.pending = true from hp),
      requestGitRefresh_refreshing]
    rfl
  · rw [if_neg hp, if_neg (show ¬ d.refreshing.pending = true from hp)]
    rfl

theorem requestGitRefresh_asks (d : GitDesk) :
    Refreshes d.refreshing d.requestGitRefresh.refreshing :=
  .requested d.requestGitRefresh_refreshing

theorem queueGitOperation_asks (d : GitDesk) (operation : GitOperation) :
    Refreshes d.refreshing (d.queueGitOperation operation).refreshing := by
  unfold queueGitOperation
  split
  · exact .quiet rfl
  · split
    · exact .quiet rfl
    · exact .asked _ rfl rfl rfl

theorem showGitStatus_refreshing (d : GitDesk) :
    d.showGitStatus.refreshing = d.requestGitRefresh.refreshing := by
  unfold showGitStatus
  dsimp only
  split
  · rfl
  · split <;> rfl

theorem showGitStatus_asks (d : GitDesk) : Refreshes d.refreshing d.showGitStatus.refreshing :=
  d.showGitStatus_refreshing ▸ d.requestGitRefresh_asks

theorem openSelectedGitDiff_asks (d : GitDesk) :
    Refreshes d.refreshing d.openSelectedGitDiff.refreshing := by
  unfold openSelectedGitDiff
  split
  · exact .quiet rfl
  · split
    · exact .quiet rfl
    · split
      · exact .quiet rfl
      · split
        · exact .quiet rfl
        · exact .asked _ rfl rfl rfl

theorem requestGitBranches_asks (d : GitDesk) :
    Refreshes d.refreshing d.requestGitBranches.refreshing := by
  unfold requestGitBranches
  split
  · exact .quiet rfl
  · split
    · exact .quiet rfl
    · split
      · exact .quiet rfl
      · exact .asked _ rfl rfl rfl

theorem promptGitCommit_refreshing (d : GitDesk) : d.promptGitCommit.refreshing = d.refreshing := by
  unfold promptGitCommit
  dsimp only
  split
  · rfl
  · split
    · rfl
    · split <;> rfl

theorem stageSelectedGitRow_asks (d : GitDesk) :
    Refreshes d.refreshing d.stageSelectedGitRow.refreshing := by
  unfold stageSelectedGitRow
  split
  · dsimp only
    split <;> exact d.showGitStatus_asks
  · split
    · exact .quiet rfl
    · exact d.queueGitOperation_asks _

theorem unstageSelectedGitRow_asks (d : GitDesk) :
    Refreshes d.refreshing d.unstageSelectedGitRow.refreshing := by
  unfold unstageSelectedGitRow
  split
  · exact .quiet rfl
  · split
    · exact .quiet rfl
    · exact d.queueGitOperation_asks _

theorem checkoutSelected_asks (d : GitDesk) :
    Refreshes d.refreshing d.checkoutSelected.refreshing := by
  unfold checkoutSelected
  split
  · split
    · exact queueGitOperation_asks { d with overlays := d.overlays.dropLast } _
    · exact .quiet rfl
  · exact .quiet rfl

theorem confirmCommit_asks (d : GitDesk) (name : String) :
    Refreshes d.refreshing (d.confirmCommit name).refreshing := by
  unfold confirmCommit
  split
  · dsimp only
    split
    · exact .quiet rfl
    · exact queueGitOperation_asks { d with overlays := d.overlays.dropLast } _
  · exact .quiet rfl

theorem close_refreshing (d : GitDesk) : d.close.refreshing = d.refreshing := by
  unfold close
  split <;> rfl

theorem move_refreshing (d : GitDesk) (down : Bool) :
    (d.move down).refreshing = d.refreshing := by
  unfold move
  split <;> rfl

/-! ## What an event does -/

theorem refreshGitStatusOverlay_refreshing (d : GitDesk) (s : GitRepositorySnapshot) :
    (d.refreshGitStatusOverlay s).refreshing = d.refreshing := by
  obtain ⟨overlays, ho⟩ := d.refreshGitStatusOverlay_eq s
  rw [ho]
  rfl

/-- The id of the refresh that an event would end. -/
def settles : GitEvent → Option GitRequestId
  | .snapshotLoaded id _ => some id
  | .failed id _ _ => some id
  | _ => none

theorem onGitEvent_finishes {event : GitEvent} {id : GitRequestId} (hs : settles event = some id)
    (ha : d.git.activeRefresh = some id) :
    (d.onGitEvent event).refreshing = d.refreshing.finish := by
  cases event with
  | snapshotLoaded id' s =>
    obtain rfl := Option.some.inj hs
    rw [onGitEvent, if_neg (not_not.mpr ha)]
    dsimp only
    rw [finishGitRefresh_refreshing]
    exact congrArg Refreshing.finish (d.refreshGitStatusOverlay_refreshing s)
  | failed id' applied failure =>
    obtain rfl := Option.some.inj hs
    rw [onGitEvent, onGitFailed, if_pos ha]
    dsimp only
    rw [finishGitRefresh_refreshing]
    split <;> rfl
  | _ => cases hs

theorem onGitEvent_quiet {event : GitEvent}
    (hs : ∀ id, settles event = some id → d.git.activeRefresh ≠ some id) :
    (d.onGitEvent event).refreshing = d.refreshing := by
  cases event with
  | started => rfl
  | snapshotLoaded id s => rw [onGitEvent, if_pos (hs id rfl)]
  | diffLoaded id diff =>
    unfold onGitEvent
    dsimp only
    split
    · rfl
    · split
      · split <;> rfl
      · rfl
  | branchesLoaded id branches =>
    unfold onGitEvent
    dsimp only
    split
    · rfl
    · split <;> rfl
  | operationFinished id operation message s =>
    unfold onGitEvent
    dsimp only
    split
    · rfl
    · exact refreshGitStatusOverlay_refreshing _ s
  | failed id applied failure =>
    rw [onGitEvent, onGitFailed, if_neg (hs id rfl)]
    split
    · dsimp only
      split <;> rfl
    · split
      · rfl
      · split
        · split <;> rfl
        · rfl

end GitDesk

/-! ## Requests in order -/

/-- The ids of the refreshes that were asked for between two states. -/
def newRefreshes (p p' : Refreshing) : List GitRequestId :=
  (refreshIds p'.outbox).filter fun id => p.next < id.val

/-- Behind the requests in `front`: requests are numbered in order, the refresh in flight is the
last one of them, and it is the last one that was asked for. -/
structure Sequenced (front : List GitRequest) (p : Refreshing) (last : Option GitRequestId) :
    Prop where
  sorted : ((front ++ p.outbox).map (·.id.val)).Pairwise (· < ·)
  bounded : ∀ r ∈ front ++ p.outbox, r.id.val ≤ p.next
  active : p.active = (refreshIds (front ++ p.outbox)).getLast?
  pending : p.pending = true → p.active.isSome
  rooted : p.active.isSome → p.root.isSome
  last : ∀ id, p.active = some id → last = some id

namespace Sequenced

variable {front : List GitRequest} {p p' : Refreshing} {last : Option GitRequestId}
  {r : GitRequest}

theorem sorted_push (hi : Sequenced front p last) (hid : r.id = ⟨p.next + 1⟩) :
    ((front ++ (p.outbox ++ [r])).map (·.id.val)).Pairwise (· < ·) := by
  rw [← List.append_assoc, List.map_append, List.pairwise_append]
  refine ⟨hi.sorted, List.pairwise_singleton _ _, fun n hn m hm => ?_⟩
  obtain ⟨other, hother, rfl⟩ := List.mem_map.mp hn
  obtain ⟨new, hnew, rfl⟩ := List.mem_map.mp hm
  rw [List.mem_singleton.mp hnew, hid]
  exact Nat.lt_succ_of_le (hi.bounded other hother)

theorem bounded_push (hi : Sequenced front p last) (hid : r.id = ⟨p.next + 1⟩) :
    ∀ other ∈ front ++ (p.outbox ++ [r]), other.id.val ≤ p.next + 1 := by
  intro other hm
  rw [← List.append_assoc] at hm
  rcases List.mem_append.mp hm with hm | hm
  · exact Nat.le_succ_of_le (hi.bounded other hm)
  · rw [List.mem_singleton.mp hm, hid]

theorem newRefreshes_old (hi : Sequenced front p last) (ho : p'.outbox = p.outbox) :
    newRefreshes p p' = [] := by
  rw [newRefreshes, ho, List.filter_eq_nil_iff]
  intro id hid
  obtain ⟨r, hr, rfl⟩ := mem_refreshIds hid
  have := hi.bounded r (List.mem_append_right _ hr)
  simpa using this

theorem newRefreshes_push (hi : Sequenced front p last) (hid : r.id = ⟨p.next + 1⟩)
    (ho : p'.outbox = p.outbox ++ [r]) : newRefreshes p p' = refreshIds [r] := by
  have hold : (refreshIds p.outbox).filter (fun id => p.next < id.val) = [] :=
    newRefreshes_old hi rfl
  have hnew : (refreshIds [r]).filter (fun id => p.next < id.val) = refreshIds [r] := by
    rw [List.filter_eq_self]
    intro id hm
    obtain ⟨other, hother, rfl⟩ := mem_refreshIds hm
    rw [List.mem_singleton.mp hother, hid]
    simp
  rw [newRefreshes, ho, refreshIds_append, List.filter_append, hold, hnew, List.nil_append]

theorem push_refresh (hi : Sequenced front p last) {root : Path} (hroot : p.root = some root)
    (hp : p' = { p with active := some ⟨p.next + 1⟩
                        outbox := p.outbox ++ [.refresh ⟨p.next + 1⟩ root]
                        next := p.next + 1 }) :
    Sequenced front p' ((newRefreshes p p').getLast? <|> last) := by
  subst hp
  refine ⟨hi.sorted_push rfl, hi.bounded_push rfl, ?_, fun _ => rfl, fun _ => by rw [hroot]; rfl,
    fun id he => ?_⟩
  · show some _ = (refreshIds (front ++ (p.outbox ++ [_]))).getLast?
    rw [← List.append_assoc, refreshIds_append]
    exact List.getLast?_concat.symm
  · rw [hi.newRefreshes_push (r := .refresh ⟨p.next + 1⟩ root) rfl rfl]
    exact he

theorem request (hi : Sequenced front p last) :
    Sequenced front p.request ((newRefreshes p p.request).getLast? <|> last) := by
  have hsame : p.request.outbox = p.outbox →
      ((newRefreshes p p.request).getLast? <|> last) = last := by
    intro ho
    rw [hi.newRefreshes_old ho]
    rfl
  cases hroot : p.root with
  | none =>
    have hrequest : p.request = p := by rw [Refreshing.request, hroot]
    rw [hsame (by rw [hrequest]), hrequest]
    exact hi
  | some root =>
    by_cases ha : p.active.isSome
    · have hrequest : p.request = { p with pending := true } := by
        rw [Refreshing.request, hroot]
        exact if_pos ha
      rw [hsame (by rw [hrequest]), hrequest]
      exact ⟨hi.sorted, hi.bounded, hi.active, fun _ => ha, hi.rooted, hi.last⟩
    · refine hi.push_refresh hroot ?_
      rw [Refreshing.request, hroot]
      exact if_neg ha

theorem asks (hi : Sequenced front p last) (ha : Refreshes p p') :
    Sequenced front p' ((newRefreshes p p').getLast? <|> last) := by
  cases ha with
  | quiet h =>
    rw [h, hi.newRefreshes_old rfl]
    exact hi
  | asked r hid hapart h =>
    subst h
    rw [hi.newRefreshes_push hid rfl, hapart]
    refine ⟨hi.sorted_push hid, hi.bounded_push hid, ?_, hi.pending, hi.rooted, hi.last⟩
    show p.active = (refreshIds (front ++ (p.outbox ++ [r]))).getLast?
    rw [← List.append_assoc, refreshIds_append, hapart, List.append_nil]
    exact hi.active
  | requested h =>
    subst h
    exact hi.request

theorem opened (hi : Sequenced front p last) (root : Path)
    (hp : p' = { active := some ⟨p.next + 1⟩, pending := false, next := p.next + 1
                 outbox := [.refresh ⟨p.next + 1⟩ root], root := some root }) :
    Sequenced front p' ((newRefreshes p p').getLast? <|> last) := by
  subst hp
  have hsub : front.Sublist (front ++ p.outbox) := List.sublist_append_left _ _
  refine ⟨?_, ?_, ?_, fun h => (by cases h), fun _ => rfl, fun id he => ?_⟩
  · show ((front ++ [_]).map fun r : GitRequest => r.id.val).Pairwise (· < ·)
    rw [List.map_append, List.pairwise_append]
    refine ⟨hi.sorted.sublist (hsub.map _), List.pairwise_singleton _ _, fun n hn m hm => ?_⟩
    obtain ⟨other, hother, rfl⟩ := List.mem_map.mp hn
    rw [List.mem_singleton.mp hm]
    exact Nat.lt_succ_of_le (hi.bounded other (hsub.subset hother))
  · intro other hm
    rcases List.mem_append.mp hm with hm | hm
    · exact Nat.le_succ_of_le (hi.bounded other (hsub.subset hm))
    · rw [List.mem_singleton.mp hm]
      exact le_refl (p.next + 1)
  · show some _ = (refreshIds (front ++ [_])).getLast?
    rw [refreshIds_append]
    exact List.getLast?_concat.symm
  · obtain rfl := Option.some.inj he
    have hnew : newRefreshes p ⟨some ⟨p.next + 1⟩, false, [.refresh ⟨p.next + 1⟩ root], p.next + 1,
        some root⟩ = [⟨p.next + 1⟩] := by
      simp [newRefreshes, refreshIds]
    rw [hnew]
    rfl

theorem refreshIds_cons (r : GitRequest) (rs : List GitRequest) :
    refreshIds (r :: rs) = refreshIds [r] ++ refreshIds rs := refreshIds_append [r] rs

theorem refreshIds_single (r : GitRequest) : refreshIds [r] = [] ∨ refreshIds [r] = [r.id] := by
  cases r with
  | refresh => exact .inr rfl
  | _ => exact .inl rfl

theorem tail_sorted (hi : Sequenced (r :: front) p last) :
    ((front ++ p.outbox).map (·.id.val)).Pairwise (· < ·) ∧
      ∀ id ∈ refreshIds (front ++ p.outbox), r.id.val < id.val := by
  have hsorted := hi.sorted
  rw [List.cons_append, List.map_cons, List.pairwise_cons] at hsorted
  refine ⟨hsorted.2, fun id hid => ?_⟩
  obtain ⟨other, hother, rfl⟩ := mem_refreshIds hid
  exact hsorted.1 _ (List.mem_map_of_mem hother)

/-- The oldest request is answered, and it is not the refresh in flight. -/
theorem pop (hi : Sequenced (r :: front) p last) (ha : p.active ≠ some r.id) :
    Sequenced front p last := by
  refine ⟨hi.tail_sorted.1, fun other hm => hi.bounded other (List.mem_cons_of_mem r hm), ?_,
    hi.pending, hi.rooted, hi.last⟩
  have hactive := hi.active
  rw [List.cons_append, refreshIds_cons] at hactive
  rcases refreshIds_single r with hnone | hself
  · rwa [hnone, List.nil_append] at hactive
  · rw [hself] at hactive
    cases hrest : refreshIds (front ++ p.outbox) with
    | nil =>
      rw [hrest] at hactive
      exact absurd hactive ha
    | cons id ids =>
      rw [hactive, hrest, List.singleton_append, List.getLast?_cons_cons]

/-- The oldest request is answered, and it is the refresh in flight. -/
theorem pop_finish (hi : Sequenced (r :: front) p last) (ha : p.active = some r.id) :
    Sequenced front p.finish ((newRefreshes p p.finish).getLast? <|> last) := by
  obtain ⟨hsorted, hafter⟩ := hi.tail_sorted
  -- a later refresh would be the one in flight
  have hnone : refreshIds (front ++ p.outbox) = [] := by
    have hactive := hi.active
    rw [List.cons_append, refreshIds_cons] at hactive
    by_contra hsome
    rw [List.getLast?_append_of_ne_nil _ hsome, ha] at hactive
    exact absurd (hafter r.id (List.mem_of_getLast? hactive.symm)) (lt_irrefl _)
  have hidle : Sequenced front { p with active := none, pending := false } last :=
    ⟨hsorted, fun other hm => hi.bounded other (List.mem_cons_of_mem r hm),
      by rw [hnone]; rfl, fun h => (by cases h), fun h => (by cases h), fun id h => (by cases h)⟩
  rw [Refreshing.finish]
  split
  · exact hidle.request
  · have hold : newRefreshes p { p with active := none, pending := false } = [] :=
      hi.newRefreshes_old rfl
    rw [hold]
    exact hidle

/-- The refresh in flight is the oldest request only if that is a refresh. -/
theorem head_refresh (hi : Sequenced (r :: front) p last) (ha : p.active = some r.id) :
    refreshIds [r] = [r.id] := by
  refine (refreshIds_single r).resolve_left fun hnone => ?_
  have hactive := hi.active
  rw [List.cons_append, refreshIds_cons, hnone, List.nil_append, ha] at hactive
  exact absurd (hi.tail_sorted.2 r.id (List.mem_of_getLast? hactive.symm)) (lt_irrefl _)

theorem take (hi : Sequenced front p last) :
    Sequenced (front ++ p.outbox) { p with outbox := [] } last := by
  refine ⟨?_, ?_, ?_, hi.pending, hi.rooted, hi.last⟩
  · rw [List.append_nil]
    exact hi.sorted
  · rw [List.append_nil]
    exact hi.bounded
  · rw [List.append_nil]
    exact hi.active

end Sequenced

/-! ## Results -/

theorem settles_outcome {r : GitRequest} {a : GitAnswers} {id : GitRequestId}
    (h : GitDesk.settles (r.outcome a) = some id) : id = r.id := by
  unfold GitRequest.outcome at h
  cases r with
  | execute id' root operation =>
    dsimp only at h
    split at h
    · split at h
      · cases h
      · exact (Option.some.inj h).symm
    · exact (Option.some.inj h).symm
  | refresh =>
    dsimp only at h
    split at h <;> exact (Option.some.inj h).symm
  | diff | branches =>
    dsimp only at h
    split at h
    · cases h
    · exact (Option.some.inj h).symm

theorem settles_refresh {r : GitRequest} {a : GitAnswers} (h : refreshIds [r] = [r.id]) :
    GitDesk.settles (r.outcome a) = some r.id := by
  cases r with
  | refresh id root =>
    unfold GitRequest.outcome
    dsimp only
    split <;> rfl
  | _ => cases h

/-! ## The worker -/

/-- The deeds that are not the worker's. -/
def GitDeed.ofModel : GitDeed → Bool
  | .event _ | .take => false
  | _ => true

/-- The calls of `request_git_refresh` that a deed makes, besides those that end a refresh. -/
def GitDesk.calls (d : GitDesk) : GitDeed → Bool
  | .trigger | .openWorkspace _ | .show => true
  | .stage => d.selectedGitStatusRow.isNone
  | _ => false

/-- A result on its way: of which request, and when the worker served it. -/
structure Published where
  time : ℕ
  request : GitRequest
  event : GitEvent
deriving DecidableEq

/-- The event that ends a request. -/
def Published.ends (p : Published) : Bool :=
  match p.event with
  | .started _ => false
  | _ => true

/-- The desk, and what is between it and the worker. -/
structure GitWorld where
  desk : GitDesk := {}
  /-- The requests handed over and not served, the oldest first. -/
  inFlight : List GitRequest := []
  /-- The results not delivered, the oldest first. -/
  channel : List Published := []
  /-- How many requests were served. -/
  clock : ℕ := 0
  /-- When the last snapshot that was taken over was made. -/
  shownAt : Option ℕ := none
  /-- The last refresh that was asked for. -/
  lastRefresh : Option GitRequestId := none
deriving DecidableEq

/-- A deed, or a step outside of the desk. -/
inductive GitTurn where
  | deed (deed : GitDeed)
  /-- The loop hands the requests over. -/
  | take
  /-- The worker serves the oldest request. -/
  | work (answers : GitAnswers)
  /-- The oldest result is absorbed. -/
  | deliver

namespace GitWorld

/-- The world once the model has become `d'`. -/
def become (w : GitWorld) (d' : GitDesk) : GitWorld :=
  { w with desk := d'
           lastRefresh := (newRefreshes w.desk.refreshing d'.refreshing).getLast? <|> w.lastRefresh }

def step (w : GitWorld) : GitTurn → Option GitWorld
  | .deed deed => if deed.ofModel then some (w.become (w.desk.step deed)) else none
  | .take =>
    some { w with desk := w.desk.step .take, inFlight := w.inFlight ++ w.desk.outbox }
  | .work answers =>
    match w.inFlight with
    | [] => none
    | r :: rest =>
      some { w with inFlight := rest, clock := w.clock + 1
                    channel := w.channel ++ (r.run answers).map (Published.mk (w.clock + 1) r) }
  | .deliver =>
    match w.channel with
    | [] => none
    | p :: rest =>
      some { w.become (w.desk.onGitEvent p.event) with
        channel := rest
        shownAt := if (w.desk.takes p.event).isSome then some p.time else w.shownAt }

/-- The requests that were handed over and whose last event has not been delivered. -/
def front (w : GitWorld) : List GitRequest :=
  (w.channel.filter Published.ends).map Published.request ++ w.inFlight

/-- The requests that are not answered, the oldest first. -/
def unanswered (w : GitWorld) : List GitRequest := w.front ++ w.desk.outbox

/-- Results come back in the order of the requests, and snapshots in the order of time. -/
structure Sound (w : GitWorld) : Prop where
  order : Sequenced w.front w.desk.refreshing w.lastRefresh
  outcome : ∀ p ∈ w.channel, p.ends → ∃ a, p.event = p.request.outcome a
  times : (w.channel.filter Published.ends).Pairwise (·.time < ·.time)
  served : ∀ p ∈ w.channel, p.time ≤ w.clock
  shown : ∀ t, w.shownAt = some t → t ≤ w.clock ∧ ∀ p ∈ w.channel, p.ends → t < p.time

variable {w w' : GitWorld}

theorem ends_outcome (time : ℕ) (r : GitRequest) (a : GitAnswers) :
    (Published.mk time r (r.outcome a)).ends = true := by
  unfold Published.ends
  dsimp only
  split
  · rename_i id he
    unfold GitRequest.outcome at he
    cases r with
    | execute =>
      dsimp only at he
      split at he
      · split at he <;> cases he
      · cases he
    | refresh | diff | branches =>
      dsimp only at he
      split at he <;> cases he
  · rfl

theorem Sound.become {d' : GitDesk} (hi : w.Sound)
    (ho : Sequenced w.front d'.refreshing
      ((newRefreshes w.desk.refreshing d'.refreshing).getLast? <|> w.lastRefresh)) :
    (w.become d').Sound :=
  ⟨ho, hi.outcome, hi.times, hi.served, hi.shown⟩

theorem step_deed {d : GitDesk} {deed : GitDeed} (hd : deed.ofModel = true) :
    Refreshes d.refreshing (d.step deed).refreshing ∨ ∃ root, deed = .openWorkspace root := by
  cases deed with
  | event => cases hd
  | take => cases hd
  | openWorkspace root => exact .inr ⟨root, rfl⟩
  | trigger => exact .inl d.requestGitRefresh_asks
  | «show» => exact .inl d.showGitStatus_asks
  | stage => exact .inl d.stageSelectedGitRow_asks
  | unstage => exact .inl d.unstageSelectedGitRow_asks
  | commit => exact .inl (.quiet d.promptGitCommit_refreshing)
  | branches => exact .inl d.requestGitBranches_asks
  | operation operation => exact .inl (d.queueGitOperation_asks operation)
  | openDiff => exact .inl d.openSelectedGitDiff_asks
  | close => exact .inl (.quiet d.close_refreshing)
  | move down => exact .inl (.quiet (d.move_refreshing down))
  | checkoutSelected => exact .inl d.checkoutSelected_asks
  | confirmCommit name => exact .inl (d.confirmCommit_asks name)
  | pushOther => exact .inl (.quiet rfl)
  | setFocus => exact .inl (.quiet rfl)

theorem filter_run (channel : List Published) (time : ℕ) (r : GitRequest) (a : GitAnswers) :
    (channel ++ (r.run a).map (Published.mk time r)).filter Published.ends =
      channel.filter Published.ends ++ [⟨time, r, r.outcome a⟩] := by
  rw [List.filter_append]
  congr 1
  show List.filter Published.ends [⟨time, r, .started r.id⟩, ⟨time, r, r.outcome a⟩] = _
  rw [List.filter_cons_of_neg (by simp [Published.ends]),
    List.filter_cons_of_pos (ends_outcome time r a), List.filter_nil]

theorem step_work {answers : GitAnswers} {r : GitRequest} {rest : List GitRequest} (hi : w.Sound)
    (hf : w.inFlight = r :: rest) :
    Sound { w with inFlight := rest, clock := w.clock + 1
                   channel := w.channel ++ (r.run answers).map (Published.mk (w.clock + 1) r) } := by
  have hnew : ∀ p ∈ w.channel ++ (r.run answers).map (Published.mk (w.clock + 1) r),
      p ∈ w.channel ∨ p.time = w.clock + 1 ∧ p.request = r ∧ p.event ∈ r.run answers := by
    intro p hp
    rcases List.mem_append.mp hp with hp | hp
    · exact .inl hp
    · obtain ⟨event, he, rfl⟩ := List.mem_map.mp hp
      exact .inr ⟨rfl, rfl, he⟩
  refine ⟨?_, fun p hp hends => ?_, ?_, fun p hp => ?_, fun t ht => ?_⟩
  · have hfront : ((w.channel ++ (r.run answers).map (Published.mk (w.clock + 1) r)).filter
        Published.ends).map Published.request ++ rest = w.front := by
      rw [filter_run, front, hf, List.map_append, List.append_assoc]
      rfl
    show Sequenced (_ ++ rest) _ _
    rw [hfront]
    exact hi.order
  · rcases hnew p hp with hold | ⟨-, hr, he⟩
    · exact hi.outcome p hold hends
    · rcases List.mem_cons.mp he with hstart | he
      · rw [Published.ends, hstart] at hends
        cases hends
      · exact ⟨answers, hr ▸ List.mem_singleton.mp he⟩
  · show List.Pairwise _ ((w.channel ++ _).filter _)
    rw [filter_run, List.pairwise_append]
    refine ⟨hi.times, List.pairwise_singleton _ _, fun p hp q hq => ?_⟩
    rw [List.mem_singleton.mp hq]
    exact Nat.lt_succ_of_le (hi.served p (List.mem_of_mem_filter hp))
  · rcases hnew p hp with hold | ⟨htime, -, -⟩
    · exact Nat.le_succ_of_le (hi.served p hold)
    · exact htime.le
  · obtain ⟨hle, hlater⟩ := hi.shown t ht
    refine ⟨Nat.le_succ_of_le hle, fun p hp hends => ?_⟩
    rcases hnew p hp with hold | ⟨htime, -, -⟩
    · exact hlater p hold hends
    · rw [htime]
      exact Nat.lt_succ_of_le hle

theorem ends_of_takes {p : Published} (h : (w.desk.takes p.event).isSome) : p.ends = true := by
  unfold Published.ends
  split
  · rename_i id he
    rw [he] at h
    cases h
  · rfl

theorem deliver_order {p : Published} {rest : List Published} (hi : w.Sound)
    (hc : w.channel = p :: rest) :
    Sequenced ((rest.filter Published.ends).map Published.request ++ w.inFlight)
      (w.desk.onGitEvent p.event).refreshing
      ((newRefreshes w.desk.refreshing (w.desk.onGitEvent p.event).refreshing).getLast? <|>
        w.lastRefresh) := by
  have ho := hi.order
  rw [front, hc] at ho
  by_cases hends : p.ends = true
  · rw [List.filter_cons_of_pos hends, List.map_cons, List.cons_append] at ho
    obtain ⟨a, ha⟩ := hi.outcome p (hc ▸ List.mem_cons_self) hends
    by_cases hactive : w.desk.git.activeRefresh = some p.request.id
    · have hsettles : GitDesk.settles p.event = some p.request.id :=
        ha ▸ settles_refresh (ho.head_refresh hactive)
      rw [GitDesk.onGitEvent_finishes hsettles hactive]
      exact ho.pop_finish hactive
    · have hquiet : (w.desk.onGitEvent p.event).refreshing = w.desk.refreshing := by
        refine GitDesk.onGitEvent_quiet fun id hs he => hactive ?_
        rw [ha] at hs
        rw [he, settles_outcome hs]
      rw [hquiet, ho.newRefreshes_old rfl]
      exact ho.pop hactive
  · rw [List.filter_cons_of_neg hends] at ho
    have hquiet : (w.desk.onGitEvent p.event).refreshing = w.desk.refreshing := by
      unfold Published.ends at hends
      split at hends
      · rename_i id he
        rw [he]
        rfl
      · exact absurd rfl hends
    rw [hquiet, ho.newRefreshes_old rfl]
    exact ho

theorem step_deliver {p : Published} {rest : List Published} (hi : w.Sound)
    (hc : w.channel = p :: rest) :
    Sound { w.become (w.desk.onGitEvent p.event) with
      channel := rest
      shownAt := if (w.desk.takes p.event).isSome then some p.time else w.shownAt } := by
  have hold : ∀ q ∈ rest, q ∈ w.channel := fun q hq => hc ▸ List.mem_cons_of_mem p hq
  have htimes := hi.times
  rw [hc] at htimes
  refine ⟨deliver_order hi hc, fun q hq => hi.outcome q (hold q hq), ?_,
    fun q hq => hi.served q (hold q hq), fun t ht => ?_⟩
  · exact htimes.sublist ((List.sublist_cons_self p rest).filter _)
  · replace ht : (if (w.desk.takes p.event).isSome then some p.time else w.shownAt) = some t := ht
    split at ht
    · rename_i htakes
      obtain rfl := Option.some.inj ht
      have hends := ends_of_takes htakes
      rw [List.filter_cons_of_pos hends, List.pairwise_cons] at htimes
      exact ⟨hi.served p (hc ▸ List.mem_cons_self),
        fun q hq he => htimes.1 q (List.mem_filter.mpr ⟨hq, he⟩)⟩
    · obtain ⟨hle, hlater⟩ := hi.shown t ht
      exact ⟨hle, fun q hq => hlater q (hold q hq)⟩

theorem step_sound {turn : GitTurn} (hi : w.Sound) (hs : w.step turn = some w') : w'.Sound := by
  cases turn with
  | deed deed =>
    rw [step, Option.ite_none_right_eq_some] at hs
    obtain ⟨hd, hs⟩ := hs
    obtain rfl := Option.some.inj hs
    rcases step_deed (d := w.desk) hd with hasks | ⟨root, rfl⟩
    · exact hi.become (hi.order.asks hasks)
    · refine hi.become (hi.order.opened root ?_)
      show (GitDesk.requestGitRefresh _).refreshing = _
      rw [GitDesk.requestGitRefresh_refreshing]
      rfl
  | take =>
    obtain rfl := Option.some.inj hs
    refine ⟨?_, hi.outcome, hi.times, hi.served, hi.shown⟩
    have ho := hi.order.take
    rw [front, List.append_assoc] at ho
    exact ho
  | work answers =>
    cases hf : w.inFlight with
    | nil =>
      rw [step, hf] at hs
      cases hs
    | cons r rest =>
      rw [step, hf] at hs
      obtain rfl := Option.some.inj hs
      exact step_work hi hf
  | deliver =>
    cases hc : w.channel with
    | nil =>
      rw [step, hc] at hs
      cases hs
    | cons p rest =>
      rw [step, hc] at hs
      obtain rfl := Option.some.inj hs
      exact step_deliver hi hc

/-! ## Runs -/

/-- Nothing has been asked for. -/
def Fresh (w : GitWorld) : Prop := w = {}

theorem fresh_sound {w : GitWorld} (h : w.Fresh) : w.Sound := by
  obtain rfl : w = {} := h
  refine ⟨⟨List.Pairwise.nil, by simp [front, GitDesk.refreshing], rfl, fun h => (by cases h),
    fun h => (by cases h), fun id h => (by cases h)⟩, by simp, List.Pairwise.nil, by simp, by simp⟩

/-- A refresh is asked for between two states. -/
def Pushes (d d' : GitDesk) : Prop := newRefreshes d.refreshing d'.refreshing ≠ []

theorem newRefreshes_ne_nil {p p' : Refreshing} {r : Path}
    (h : .refresh ⟨p.next + 1⟩ r ∈ p'.outbox) : newRefreshes p p' ≠ [] := by
  have hid : (⟨p.next + 1⟩ : GitRequestId) ∈ refreshIds p'.outbox :=
    List.mem_filterMap.mpr ⟨_, h, rfl⟩
  exact List.ne_nil_of_mem (List.mem_filter.mpr ⟨hid, by simp⟩)

theorem request_kept {p : Refreshing} (hroot : p.root.isSome) :
    p.request.pending = true ∨ newRefreshes p p.request ≠ [] := by
  obtain ⟨root, hroot⟩ := Option.isSome_iff_exists.mp hroot
  rw [Refreshing.request, hroot]
  dsimp only
  split
  · exact .inl rfl
  · exact .inr (newRefreshes_ne_nil (r := root)
      (List.mem_append_right _ (List.mem_singleton.mpr rfl)))

theorem request_pending {p : Refreshing} (hp : p.pending = true) : p.request.pending = true := by
  unfold Refreshing.request
  split
  · exact hp
  · split
    · rfl
    · exact hp

theorem asks_pending {p p' : Refreshing} (ha : Refreshes p p') (hp : p.pending = true) :
    p'.pending = true := by
  cases ha with
  | quiet h => rwa [h]
  | asked r _ _ h => rwa [h]
  | requested h => exact h ▸ request_pending hp

theorem openWorkspace_pushes (d : GitDesk) (root : Path) : Pushes d (d.openWorkspace root) := by
  refine newRefreshes_ne_nil (r := root) ?_
  show _ ∈ (GitDesk.requestGitRefresh _).refreshing.outbox
  rw [GitDesk.requestGitRefresh_refreshing]
  exact List.mem_singleton.mpr rfl

theorem calls_kept {d : GitDesk} {deed : GitDeed} (hc : d.calls deed = true)
    (hroot : d.root.isSome ∨ ∃ root, deed = .openWorkspace root) :
    (d.step deed).git.pendingRefresh = true ∨ Pushes d (d.step deed) := by
  have hrequest : (d.step deed).refreshing = d.refreshing.request → d.root.isSome →
      (d.step deed).git.pendingRefresh = true ∨ Pushes d (d.step deed) := by
    intro he hr
    have hkept := request_kept (p := d.refreshing) hr
    rwa [← he] at hkept
  cases deed with
  | openWorkspace root => exact .inr (openWorkspace_pushes d root)
  | trigger =>
    exact hrequest d.requestGitRefresh_refreshing
      (hroot.resolve_right fun ⟨_, he⟩ => by cases he)
  | «show» =>
    refine hrequest ?_ (hroot.resolve_right fun ⟨_, he⟩ => by cases he)
    exact d.showGitStatus_refreshing.trans d.requestGitRefresh_refreshing
  | stage =>
    refine hrequest ?_ (hroot.resolve_right fun ⟨_, he⟩ => by cases he)
    have hnone : d.selectedGitStatusRow = none := Option.isNone_iff_eq_none.mp hc
    show d.stageSelectedGitRow.refreshing = _
    rw [GitDesk.stageSelectedGitRow, hnone]
    dsimp only
    rw [← d.requestGitRefresh_refreshing, ← d.showGitStatus_refreshing]
    split <;> rfl
  | _ => cases hc

theorem step_pending {turn : GitTurn} (hi : w.Sound) (hs : w.step turn = some w')
    (hp : w.desk.git.pendingRefresh = true) :
    w'.desk.git.pendingRefresh = true ∨ Pushes w.desk w'.desk := by
  cases turn with
  | deed deed =>
    rw [step, Option.ite_none_right_eq_some] at hs
    obtain ⟨hd, hs⟩ := hs
    obtain rfl := Option.some.inj hs
    rcases step_deed (d := w.desk) hd with hasks | ⟨root, rfl⟩
    · exact .inl (asks_pending hasks hp)
    · exact .inr (openWorkspace_pushes w.desk root)
  | take =>
    obtain rfl := Option.some.inj hs
    exact .inl hp
  | work answers =>
    cases hf : w.inFlight with
    | nil =>
      rw [step, hf] at hs
      cases hs
    | cons r rest =>
      rw [step, hf] at hs
      obtain rfl := Option.some.inj hs
      exact .inl hp
  | deliver =>
    cases hc : w.channel with
    | nil =>
      rw [step, hc] at hs
      cases hs
    | cons p rest =>
      rw [step, hc] at hs
      obtain rfl := Option.some.inj hs
      show (w.desk.onGitEvent p.event).refreshing.pending = true ∨ newRefreshes _
        (w.desk.onGitEvent p.event).refreshing ≠ []
      by_cases hsettles : ∃ id, GitDesk.settles p.event = some id ∧
          w.desk.git.activeRefresh = some id
      · obtain ⟨id, hsettles, hactive⟩ := hsettles
        rw [GitDesk.onGitEvent_finishes hsettles hactive]
        have hpending : w.desk.refreshing.pending = true := hp
        have hroot : w.desk.refreshing.root.isSome := hi.order.rooted (hi.order.pending hp)
        obtain ⟨root, hroot⟩ := Option.isSome_iff_exists.mp hroot
        refine .inr (newRefreshes_ne_nil (r := root) ?_)
        rw [Refreshing.finish, if_pos hpending, Refreshing.request]
        dsimp only
        rw [hroot]
        exact List.mem_append_right _ (List.mem_singleton.mpr rfl)
      · rw [GitDesk.onGitEvent_quiet fun id hs ha => hsettles ⟨id, hs, ha⟩]
        exact .inl hp

theorem step_snapshot {turn : GitTurn} (hi : w.Sound) (hs : w.step turn = some w') :
    (w'.desk.git.snapshot = w.desk.git.snapshot ∧ w'.shownAt = w.shownAt) ∨
    (∃ root, turn = .deed (.openWorkspace root) ∧ w'.desk.git.snapshot = none ∧
      w'.shownAt = w.shownAt) ∨
    ∃ p rest s, turn = .deliver ∧ w.channel = p :: rest ∧ w.desk.takes p.event = some s ∧
      w'.desk.git.snapshot = some s ∧ w'.shownAt = some p.time ∧
        ∀ t, w.shownAt = some t → t < p.time := by
  cases turn with
  | deed deed =>
    rw [step, Option.ite_none_right_eq_some] at hs
    obtain ⟨hd, hs⟩ := hs
    obtain rfl := Option.some.inj hs
    by_cases hw : ∃ root, deed = .openWorkspace root
    · obtain ⟨root, rfl⟩ := hw
      refine .inr (.inl ⟨root, rfl, ?_, rfl⟩)
      exact GitDesk.requestGitRefresh_snapshot _
    · have hnone : w.desk.absorbed deed = none := by
        cases deed with
        | event => cases hd
        | _ => rfl
      have hcalm : GitDesk.Calm true w.desk (w.desk.step deed) :=
        GitDesk.step_calm hnone (fun root he => hw ⟨root, he⟩) fun _ _ => rfl
      exact .inl ⟨hcalm.1, rfl⟩
  | take =>
    obtain rfl := Option.some.inj hs
    exact .inl ⟨rfl, rfl⟩
  | work answers =>
    cases hf : w.inFlight with
    | nil =>
      rw [step, hf] at hs
      cases hs
    | cons r rest =>
      rw [step, hf] at hs
      obtain rfl := Option.some.inj hs
      exact .inl ⟨rfl, rfl⟩
  | deliver =>
    cases hc : w.channel with
    | nil =>
      rw [step, hc] at hs
      cases hs
    | cons p rest =>
      rw [step, hc] at hs
      obtain rfl := Option.some.inj hs
      cases ht : w.desk.takes p.event with
      | none =>
        have hcalm : GitDesk.Calm true w.desk (w.desk.onGitEvent p.event) :=
          GitDesk.onGitEvent_calm ht
        exact .inl ⟨hcalm.1, rfl⟩
      | some s =>
        have hends := ends_of_takes (w := w) (p := p) (by rw [ht]; rfl)
        have hshown : (w.desk.step (.event p.event)).git.snapshot = some s ∧ _ :=
          GitDesk.step_absorbs ht
        refine .inr (.inr ⟨p, rest, s, rfl, rfl, ht, hshown.1, rfl, fun t hshow => ?_⟩)
        exact (hi.shown t hshow).2 p (hc ▸ List.mem_cons_self) hends

/-- **Coalescing loses no refresh.** In every run, a pending refresh waits for one in flight; the
refresh in flight is the last one that was asked for, if that is not answered; a call with a
workspace open asks for a refresh or leaves one pending, and it stays pending until a refresh is
asked for; and a snapshot gives way only to one that the worker took later. -/
theorem refresh_coalesced {w : GitWorld} (hr : Runs.Reach step (fun _ _ => True) Fresh w) :
    (w.desk.git.pendingRefresh = true → w.desk.git.activeRefresh.isSome) ∧
    (∀ id, w.desk.git.activeRefresh = some id ↔
      w.lastRefresh = some id ∧ id ∈ refreshIds w.unanswered) ∧
    ∀ turn w', w.step turn = some w' →
      (∀ deed, turn = .deed deed → w.desk.calls deed = true →
        w.desk.root.isSome ∨ (∃ root, deed = .openWorkspace root) →
          w'.desk.git.pendingRefresh = true ∨ Pushes w.desk w'.desk) ∧
      (w.desk.git.pendingRefresh = true →
        w'.desk.git.pendingRefresh = true ∨ Pushes w.desk w'.desk) ∧
      ((w'.desk.git.snapshot = w.desk.git.snapshot ∧ w'.shownAt = w.shownAt) ∨
        (∃ root, turn = .deed (.openWorkspace root) ∧ w'.desk.git.snapshot = none ∧
          w'.shownAt = w.shownAt) ∨
        ∃ p rest s, turn = .deliver ∧ w.channel = p :: rest ∧ w.desk.takes p.event = some s ∧
          w'.desk.git.snapshot = some s ∧ w'.shownAt = some p.time ∧
            ∀ t, w.shownAt = some t → t < p.time) := by
  have hi : w.Sound := hr.inv (I := Sound) (fun _ h => fresh_sound h)
    fun _ _ _ hi _ hs => step_sound hi hs
  have hactive : w.desk.git.activeRefresh = (refreshIds w.unanswered).getLast? := hi.order.active
  refine ⟨hi.order.pending, fun id => ⟨fun ha => ⟨hi.order.last id ha, ?_⟩, fun ⟨hl, hm⟩ => ?_⟩,
    fun turn w' hs => ⟨fun deed ht hc hroot => ?_, step_pending hi hs, step_snapshot hi hs⟩⟩
  · exact List.mem_of_getLast? (hactive.symm.trans ha)
  · cases hsome : w.desk.git.activeRefresh with
    | none =>
      rw [hsome, eq_comm, List.getLast?_eq_none_iff] at hactive
      rw [hactive] at hm
      cases hm
    | some id' =>
      rw [← hi.order.last id' hsome, hl]
  · subst ht
    rw [step, Option.ite_none_right_eq_some] at hs
    obtain ⟨-, hs⟩ := hs
    obtain rfl := Option.some.inj hs
    exact calls_kept hc hroot

/-! ## A change while the first refresh runs -/

/-- The worker finds one changed file. -/
def oneChanged : GitAnswers where
  snapshot := .ok (GitDesk.changed ["a"])
  diff := .error ⟨.command, ""⟩
  branches := .error ⟨.command, ""⟩
  execute := .error ⟨.command, ""⟩

/-- A workspace is opened; while the worker reads it, a file changes. -/
def changedMeanwhile : List GitTurn :=
  [.deed (.openWorkspace GitDesk.gitRoot), .take, .work oneChanged, .deed .trigger, .deliver]

/-- The change has not been asked about yet. -/
def askingAgain : GitWorld := (Runs.run step {} changedMeanwhile).get (by decide)

/-- The first snapshot is absorbed. -/
def askedAgain : GitWorld := (askingAgain.step .deliver).get (by decide)

theorem refresh_coalesced_again :
    askedAgain.desk.git.pendingRefresh = true ∨ Pushes askingAgain.desk askedAgain.desk := by
  have hrun : Runs.run step {} changedMeanwhile = some askingAgain := (Option.some_get _).symm
  have hreach : Runs.Reach step (fun _ _ => True) Fresh askingAgain :=
    .of_run (fun _ _ => trivial) changedMeanwhile (.start rfl) hrun
  have hstep : askingAgain.step .deliver = some askedAgain := (Option.some_get _).symm
  exact ((refresh_coalesced hreach).2.2 .deliver askedAgain hstep).2.1 rfl

end GitWorld

end App

end Termesh
