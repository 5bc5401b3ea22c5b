import Termesh.Agent.Accounting

/-!
# No launch without an approval

A `terminal/create` that finds an allow-once grant for its command is preauthorized, and takes the
grant. A log beside the translator keeps what the agent was asked, allowed and started, and when a
turn ended.

* `Deed`, `Translator.sent`, `Translator.heard`: what goes into the log;
* `Backs`, `Approved`: a launch has an approval of its own, given for a request of the same turn;
* `Accounted`: the grants are approvals not yet used;
* `Shift`, `encode_shift`, `onRequest_shift`: all that a step can do to requests and grants;
* **`launches_approved`**: when no command is allowed after the turn it was asked in;
* **`not_approved_late`**: a grant given late survives into the next turn.
-/

namespace Termesh

open Tables

/-- What happens to approvals. -/
inductive Deed where
  | requested (request : PermissionRequestId) (session : SessionId) (spec : Option TerminalSpec)
  /-- An allow option was sent for a request. -/
  | allowed (request : PermissionRequestId)
  /-- A turn ended: a prompt was answered or refused, or `session/cancel` was sent. -/
  | ended (session : SessionId)
  /-- A preauthorized `terminal/create`. -/
  | launched (session : SessionId) (spec : TerminalSpec)
deriving DecidableEq, Repr

/-- What an event says of permissions and turns. -/
def Deed.ofEvent : AgentEvent → Option Deed
  | .permissionRequested session request _ _ spec _ => some (.requested request session spec)
  | .terminalRequest session _ (.create spec _ true) => some (.launched session spec)
  | _ => none

namespace Translator

/-- What encoding a request does to approvals. -/
def sent (t : Translator) : AgentRequest → List Deed
  | .permission request decision =>
    match t.permissions.lookup request with
    | none => []
    | some pending =>
      if (chooseOption pending.options decision).isSome && decision.allows then [.allowed request]
      else []
  | .cancel session => if (t.wireSession session).isSome then [.ended session] else []
  | _ => []

/-- What is sent for a queue. -/
def sentAll (t : Translator) : List AgentRequest → List Deed
  | [] => []
  | r :: rs => t.sent r ++ (t.encode r).1.sentAll rs

/-- What absorbing a message does to approvals. -/
def heard (t : Translator) : Message → List Deed
  | .response id _ =>
    match t.pending.lookup id with
    | some (.prompt session) => [.ended session]
    | some .initializing =>
      sentAll { t with pending := t.pending.erase id, ready := true, queued := [] } t.queued
    | _ => []
  | .error id _ _ =>
    match t.pending.lookup id with
    | some (.prompt session) => [.ended session]
    | _ => []
  | m => (t.incoming m).2.1.filterMap Deed.ofEvent

end Translator

/-- The translator with the log of what happened to approvals. -/
structure Record where
  translator : Translator
  log : List Deed := []

namespace Record

/-- A request held until the handshake is done does nothing yet. -/
def sends (t : Translator) (r : AgentRequest) : List Deed :=
  if !t.ready && r != .shutdown then [] else t.sent r

/-- The record after one act. -/
def next (c : Record) : LineAct → Record
  | .incoming m => ⟨(c.translator.incoming m).1, c.log ++ c.translator.heard m⟩
  | .outgoing r => ⟨(c.translator.outgoing r).1, c.log ++ sends c.translator r⟩

/-- One act. -/
def step (c : Record) (a : LineAct) : Option Record := some (c.next a)

/-- The handshake was sent and nothing else happened. -/
def Start (c : Record) : Prop :=
  ∃ capabilities, c = { translator := (Translator.initializeWith {} capabilities).1 }

/-- The model allows a command after the turn it was asked in. -/
def Late (c : Record) : LineAct → Prop
  | .outgoing (.permission request decision) =>
    ∃ pending, c.translator.permissions.lookup request = some pending ∧ decision.allows = true ∧
      (chooseOption pending.options decision).isSome = true ∧ pending.terminalSpec.isSome = true ∧
      ∃ j k : ℕ, j < k ∧
        c.log[j]? = some (.requested request pending.session pending.terminalSpec) ∧
        c.log[k]? = some (.ended pending.session)
  | _ => False

end Record

/-! ## Approvals in the log -/

/-- The approval at `p` is for that command in that session, and the turn it was asked in lasts up
to `i`. -/
def Backs (log : List Deed) (p i : ℕ) (s : SessionId) (spec : TerminalSpec) : Prop :=
  ∃ r j, j < p ∧ p < i ∧ log[p]? = some (.allowed r) ∧
    log[j]? = some (.requested r s (some spec)) ∧ ∀ k, j < k → k < i → log[k]? ≠ some (.ended s)

/-- Every launch has an approval of its own. -/
def Approved (log : List Deed) : Prop :=
  ∃ f : ℕ → ℕ, (∀ i i' s s' spec spec', log[i]? = some (.launched s spec) →
      log[i']? = some (.launched s' spec') → f i = f i' → i = i') ∧
    ∀ i s spec, log[i]? = some (.launched s spec) → Backs log (f i) i s spec

theorem Backs.append {log : List Deed} {p i : ℕ} {s : SessionId} {spec : TerminalSpec}
    (h : Backs log p i s spec) (hi : i ≤ log.length) (ds : List Deed) :
    Backs (log ++ ds) p i s spec := by
  obtain ⟨r, j, hj, hp, hallow, hreq, hend⟩ := h
  refine ⟨r, j, hj, hp, ?_, ?_, fun k hjk hki => ?_⟩
  · rw [List.getElem?_append_left (by omega), hallow]
  · rw [List.getElem?_append_left (by omega), hreq]
  · rw [List.getElem?_append_left (by omega)]
    exact hend k hjk hki

theorem Backs.extend {log : List Deed} {p : ℕ} {s : SessionId} {spec : TerminalSpec}
    (h : Backs log p log.length s spec) {ds : List Deed} (hds : .ended s ∉ ds) :
    Backs (log ++ ds) p (log ++ ds).length s spec := by
  obtain ⟨r, j, hj, hp, hallow, hreq, hend⟩ := h
  refine ⟨r, j, hj, ?_, ?_, ?_, fun k hjk hki => ?_⟩
  · rw [List.length_append]
    omega
  · rw [List.getElem?_append_left hp, hallow]
  · rw [List.getElem?_append_left (by omega), hreq]
  · by_cases hk : k < log.length
    · rw [List.getElem?_append_left hk]
      exact hend k hjk hk
    · rw [List.getElem?_append_right (by omega)]
      exact fun hmem => hds (List.mem_of_getElem? hmem)

/-- Grants and launches with their approvals: `free` pairs the grants with the approvals not used,
`spent` the launches with those used. -/
structure Paired (log : List Deed) (grants : List (SessionId × TerminalSpec))
    (spent : List (ℕ × ℕ)) (free : List ((SessionId × TerminalSpec) × ℕ)) : Prop where
  grants : free.map Prod.fst = grants
  apart : (spent.map Prod.snd ++ free.map Prod.snd).Nodup
  past : ∀ x ∈ spent, x.2 < log.length
  free : ∀ x ∈ free, Backs log x.2 log.length x.1.1 x.1.2
  launched : ∀ i s spec, log[i]? = some (.launched s spec) →
    ∃ p, (i, p) ∈ spent ∧ Backs log p i s spec

/-- The grants are approvals not yet used. -/
def Accounted (log : List Deed) (grants : List (SessionId × TerminalSpec)) : Prop :=
  ∃ spent free, Paired log grants spent free

variable {log : List Deed} {grants : List (SessionId × TerminalSpec)}

theorem Accounted.approved (h : Accounted log grants) : Approved log := by
  obtain ⟨spent, free, hp⟩ := h
  classical
  let f (i : ℕ) : ℕ := if hi : ∃ p s spec, (i, p) ∈ spent ∧ Backs log p i s spec ∧
    log[i]? = some (.launched s spec) then hi.choose else 0
  have hf : ∀ i s spec, log[i]? = some (.launched s spec) →
      (i, f i) ∈ spent ∧ Backs log (f i) i s spec := by
    intro i s spec hl
    obtain ⟨p, hmem, hb⟩ := hp.launched i s spec hl
    have hi : ∃ p s spec, (i, p) ∈ spent ∧ Backs log p i s spec ∧
        log[i]? = some (.launched s spec) := ⟨p, s, spec, hmem, hb, hl⟩
    have hfi : f i = hi.choose := dif_pos hi
    obtain ⟨s', spec', hmem', hb', hl'⟩ := hi.choose_spec
    obtain ⟨rfl, rfl⟩ := Deed.launched.inj (Option.some.inj (hl.symm.trans hl'))
    rw [hfi]
    exact ⟨hmem', hb'⟩
  refine ⟨f, fun i i' s s' spec spec' hl hl' heq => ?_, fun i s spec hl => (hf i s spec hl).2⟩
  have hnodup : (spent.map Prod.snd).Nodup := (List.nodup_append.mp hp.apart).1
  have := List.inj_on_of_nodup_map hnodup (hf i s spec hl).1 (hf i' s' spec' hl').1 heq
  exact (Prod.mk.inj this).1

theorem Accounted.filter (h : Accounted log grants) (keep : SessionId × TerminalSpec → Bool)
    {ds : List Deed} (hlaunch : ∀ s spec, .launched s spec ∉ ds)
    (hend : ∀ g, keep g = true → .ended g.1 ∉ ds) :
    Accounted (log ++ ds) (grants.filter keep) := by
  obtain ⟨spent, free, hp⟩ := h
  refine ⟨spent, free.filter (keep ∘ Prod.fst), ?_, ?_, fun x hx => ?_, fun x hx => ?_,
    fun i s spec hl => ?_⟩
  · rw [← hp.grants, List.filter_map]
  · refine hp.apart.sublist ?_
    exact (List.Sublist.refl _).append (List.filter_sublist.map _)
  · rw [List.length_append]
    exact Nat.lt_add_right _ (hp.past x hx)
  · obtain ⟨hmem, hkeep⟩ := List.mem_filter.mp hx
    exact (hp.free x hmem).extend (hend x.1 hkeep)
  · by_cases hi : i < log.length
    · rw [List.getElem?_append_left hi] at hl
      obtain ⟨p, hmem, hb⟩ := hp.launched i s spec hl
      exact ⟨p, hmem, hb.append (by omega) ds⟩
    · rw [List.getElem?_append_right (by omega)] at hl
      exact absurd (List.mem_of_getElem? hl) (hlaunch s spec)

theorem Accounted.allow (h : Accounted log grants) {r : PermissionRequestId} {s : SessionId}
    {spec : TerminalSpec} {j : ℕ} (hj : log[j]? = some (.requested r s (some spec)))
    (hend : ∀ k, j < k → log[k]? ≠ some (.ended s)) :
    Accounted (log ++ [.allowed r]) (grants ++ [(s, spec)]) := by
  have hjlt : j < log.length := (List.getElem?_eq_some_iff.mp hj).1
  obtain ⟨spent, free, hp⟩ := h
  refine ⟨spent, free ++ [((s, spec), log.length)], ?_, ?_, fun x hx => ?_, fun x hx => ?_,
    fun i s' spec' hl => ?_⟩
  · rw [List.map_append, hp.grants]
    rfl
  · rw [List.map_append, ← List.append_assoc, List.nodup_append]
    refine ⟨hp.apart, List.nodup_singleton _, fun a ha b hb heq => ?_⟩
    have hlt : a < log.length := by
      rcases List.mem_append.mp ha with ha | ha
      · obtain ⟨x, hx, rfl⟩ := List.mem_map.mp ha
        exact hp.past x hx
      · obtain ⟨x, hx, rfl⟩ := List.mem_map.mp ha
        obtain ⟨_, _, _, hlt, -⟩ := hp.free x hx
        exact hlt
    rw [heq, List.mem_singleton.mp hb] at hlt
    exact absurd hlt (Nat.lt_irrefl _)
  · rw [List.length_append]
    exact Nat.lt_add_right _ (hp.past x hx)
  · rcases List.mem_append.mp hx with hx | hx
    · exact (hp.free x hx).extend (by simp)
    · rw [List.mem_singleton.mp hx]
      refine ⟨r, j, hjlt, by simp, by simp, ?_, fun k hjk hk => ?_⟩
      · rw [List.getElem?_append_left hjlt, hj]
      · by_cases hklt : k < log.length
        · rw [List.getElem?_append_left hklt]
          exact hend k hjk
        · rw [List.getElem?_append_right (by omega)]
          intro hmem
          exact absurd (List.mem_of_getElem? hmem) (by simp)
  · by_cases hi : i < log.length
    · rw [List.getElem?_append_left hi] at hl
      obtain ⟨p, hmem, hb⟩ := hp.launched i s' spec' hl
      exact ⟨p, hmem, hb.append (by omega) _⟩
    · rw [List.getElem?_append_right (by omega)] at hl
      exact absurd (List.mem_of_getElem? hl) (by simp)

theorem Accounted.launch (h : Accounted log grants) {s : SessionId} {spec : TerminalSpec}
    (hg : (s, spec) ∈ grants) :
    Accounted (log ++ [.launched s spec])
      (grants.eraseP fun g => g.1 == s && g.2 == spec) := by
  obtain ⟨spent, free, hp⟩ := h
  let taken (x : (SessionId × TerminalSpec) × ℕ) : Bool := x.1.1 == s && x.1.2 == spec
  obtain ⟨x, hx, hxs⟩ : ∃ x ∈ free, x.1 = (s, spec) := by
    rw [← hp.grants] at hg
    exact List.mem_map.mp hg
  obtain ⟨a, l₁, l₂, -, ha, hfree, herase⟩ := List.exists_of_eraseP hx
    (show taken x = true by simp [taken, hxs])
  have has : a.1 = (s, spec) := by
    refine Prod.ext ?_ ?_
    · exact eq_of_beq (Bool.and_eq_true_iff.mp ha).1
    · exact eq_of_beq (Bool.and_eq_true_iff.mp ha).2
  have hback := hp.free a (by rw [hfree]; simp)
  rw [has] at hback
  have hsub : (l₁ ++ l₂).Sublist free := by
    rw [hfree]
    exact (List.Sublist.refl _).append (List.sublist_cons_self _ _)
  refine ⟨spent ++ [(log.length, a.2)], l₁ ++ l₂, ?_, ?_, fun y hy => ?_, fun y hy => ?_,
    fun i s' spec' hl => ?_⟩
  · rw [← hp.grants, ← herase, List.eraseP_map]
    rfl
  · have hperm : (spent.map Prod.snd ++ free.map Prod.snd).Perm
        ((spent ++ [(log.length, a.2)]).map Prod.snd ++ (l₁ ++ l₂).map Prod.snd) := by
      rw [hfree]
      simp only [List.map_append, List.map_cons, List.map_nil, List.append_assoc,
        List.singleton_append]
      exact List.perm_middle.append_left _
    exact hperm.nodup_iff.mp hp.apart
  · rw [List.length_append]
    rcases List.mem_append.mp hy with hy | hy
    · exact Nat.lt_add_right _ (hp.past y hy)
    · rw [List.mem_singleton.mp hy]
      obtain ⟨_, _, _, hlt, -⟩ := hback
      exact Nat.lt_add_right _ hlt
  · exact (hp.free y (hsub.subset hy)).extend (by simp)
  · by_cases hi : i < log.length
    · rw [List.getElem?_append_left hi] at hl
      obtain ⟨p, hmem, hb⟩ := hp.launched i s' spec' hl
      exact ⟨p, List.mem_append_left _ hmem, hb.append (by omega) _⟩
    · have hieq : i = log.length := by
        have := (List.getElem?_eq_some_iff.mp hl).1
        rw [List.length_append, List.length_singleton] at this
        omega
      subst hieq
      rw [List.getElem?_append_right (Nat.le_refl _)] at hl
      obtain ⟨rfl, rfl⟩ : s = s' ∧ spec = spec' := by simpa using hl
      exact ⟨a.2, List.mem_append_right _ (List.mem_singleton.mpr rfl),
        hback.append (Nat.le_refl _) _⟩

/-! ## Steps -/

namespace Translator

/-- All that a step can do to permission requests and grants, with its log. -/
inductive Shift (t t' : Translator) : List Deed → Prop
  | quiet (hp : ∀ r p, t'.permissions.lookup r = some p → t.permissions.lookup r = some p)
      (keep : SessionId × TerminalSpec → Bool)
      (hg : t'.oneShotTerminalGrants = t.oneShotTerminalGrants.filter keep) : Shift t t' []
  | requested (r : PermissionRequestId) (p : PendingPermission)
      (hp : t'.permissions = t.permissions.insert r p)
      (hg : t'.oneShotTerminalGrants = t.oneShotTerminalGrants) :
      Shift t t' [.requested r p.session p.terminalSpec]
  | allowed (r : PermissionRequestId) (p : PendingPermission)
      (hr : t.permissions.lookup r = some p) (hp : t'.permissions = t.permissions.erase r)
      (hg : t'.oneShotTerminalGrants = t.oneShotTerminalGrants ++
        (p.terminalSpec.map fun spec => (p.session, spec)).toList) : Shift t t' [.allowed r]
  | ended (s : SessionId) (hp : t'.permissions = t.permissions)
      (hg : t'.oneShotTerminalGrants = t.oneShotTerminalGrants.filter (·.1 != s)) :
      Shift t t' [.ended s]
  | launched (s : SessionId) (spec : TerminalSpec) (hp : t'.permissions = t.permissions)
      (hmem : (s, spec) ∈ t.oneShotTerminalGrants)
      (hg : t'.oneShotTerminalGrants =
        t.oneShotTerminalGrants.eraseP fun g => g.1 == s && g.2 == spec) :
      Shift t t' [.launched s spec]

variable {t t' : Translator}

theorem Shift.same (hp : t'.permissions = t.permissions)
    (hg : t'.oneShotTerminalGrants = t.oneShotTerminalGrants) : Shift t t' [] := by
  refine .quiet (fun r p hr => hp ▸ hr) (fun _ => true) ?_
  rw [hg, List.filter_true]

theorem lookup_erase_of_some {κ ν : Type} [DecidableEq κ] {m : Table κ ν} {k k' : κ} {v : ν}
    (h : (m.erase k).lookup k' = some v) : m.lookup k' = some v := by
  by_cases hk : k' = k
  · rw [hk, AList.lookup_erase] at h
    cases h
  · rwa [AList.lookup_erase_ne hk] at h

theorem terminalResult_grants (t : Translator) (p : PendingTerminalRpc)
    (response : AgentTerminalResponse) :
    (t.terminalResult p response).1.permissions = t.permissions ∧
      (t.terminalResult p response).1.oneShotTerminalGrants = t.oneShotTerminalGrants := by
  unfold terminalResult
  split
  · exact ⟨rfl, rfl⟩
  · split
    · split_ifs <;> exact ⟨rfl, rfl⟩
    all_goals exact ⟨rfl, rfl⟩

/-- Encoding a request. -/
theorem encode_shift (t : Translator) (r : AgentRequest) : Shift t (t.encode r).1 (t.sent r) := by
  cases r with
  | newSession | shutdown => exact .same rfl rfl
  | setMode | prompt =>
    simp only [encode, sent]
    split <;> exact .same rfl rfl
  | fileContents =>
    simp only [encode, sent]
    split <;> exact .same rfl rfl
  | permission request decision =>
    simp only [encode, sent]
    cases hp : t.permissions.lookup request with
    | none => exact .same rfl rfl
    | some pending =>
      dsimp only
      split_ifs with ha
      · refine .allowed request pending hp rfl ?_
        cases pending.terminalSpec with
        | none => exact (List.append_nil _).symm
        | some spec => rfl
      · refine .quiet (fun _ _ hr => lookup_erase_of_some hr) (fun _ => true) ?_
        rw [List.filter_true]
  | permissionCancelled request =>
    simp only [encode, sent]
    split
    · exact .same rfl rfl
    · refine .quiet (fun _ _ hr => lookup_erase_of_some hr) (fun _ => true) ?_
      rw [List.filter_true]
  | terminalResponse request response =>
    simp only [encode, sent, encodeTerminalResponse]
    split
    · exact .same rfl rfl
    · rename_i p _
      obtain ⟨hp, hg⟩ := terminalResult_grants
        { t with terminalRpcs := t.terminalRpcs.erase request } p response
      exact .same hp hg
  | cancel session =>
    simp only [encode, sent]
    have hwire : (t.expireTerminalGrants session).wireSession session = t.wireSession session := rfl
    rw [hwire]
    cases t.wireSession session with
    | none => exact .quiet (fun _ _ hr => hr) _ rfl
    | some wire => exact .ended session rfl rfl

theorem requestPermission_shift (t : Translator) (id : ℕ) (session : SessionId) (params : Value) :
    Shift t (t.requestPermission id session params).1
      ((t.requestPermission id session params).2.1.filterMap Deed.ofEvent) := by
  let pending : PendingPermission :=
    { wireRequest := id, session, options := permissionOptions params
      terminalSpec := terminalSpecOfPermission (params.get "toolCall") }
  exact Shift.requested (t := t) ⟨t.nextId + 1⟩ pending rfl rfl

/-- A call from the agent. -/
theorem onRequest_shift (t : Translator) (id : ℕ) (method : String) (params : Value) :
    Shift t (t.onRequest id method params).1
      ((t.onRequest id method params).2.1.filterMap Deed.ofEvent) := by
  have hcall : ∀ session kind (operation : TerminalId → AgentTerminalOperation),
      (∀ x spec n, operation x ≠ .create spec n true) →
      Shift t (t.terminalCall id session method params kind operation).1
        ((t.terminalCall id session method params kind operation).2.1.filterMap Deed.ofEvent) := by
    intro session kind operation hop
    unfold terminalCall
    split_ifs
    · exact .same rfl rfl
    · split
      · exact .same rfl rfl
      · split
        · exact .same rfl rfl
        · rename_i terminal _
          have hnone : Deed.ofEvent (.terminalRequest session ⟨t.nextId + 1⟩ (operation terminal)) =
              none := by
            unfold Deed.ofEvent
            split
            · rename_i heq
              cases heq
            · rename_i spec n heq
              exact absurd (AgentEvent.terminalRequest.inj heq).2.2 (hop terminal spec n)
            · rfl
          simp only [allocateTerminalRequest, List.filterMap_cons, hnone, List.filterMap_nil]
          exact .same rfl rfl
  unfold onRequest
  dsimp only
  split
  · unfold readTextFile
    split <;> exact .same rfl rfl
  · unfold writeTextFile
    split <;> exact .same rfl rfl
  · exact requestPermission_shift ..
  · unfold terminalCreate
    split_ifs
    · exact .same rfl rfl
    · split
      · exact .same rfl rfl
      · exact .same rfl rfl
      · rename_i spec limit _ _
        dsimp only
        by_cases hany : t.oneShotTerminalGrants.any fun g =>
            g.1 == ((params.getStr "sessionId").bind t.ourSession).getD ⟨0⟩ && g.2 == spec
        · rw [hany]
          refine .launched _ spec rfl ?_ rfl
          obtain ⟨g, hg, hgs⟩ := List.any_eq_true.mp hany
          obtain ⟨h₁, h₂⟩ := Bool.and_eq_true_iff.mp hgs
          rwa [← eq_of_beq h₁, ← eq_of_beq h₂]
        · have hfalse := Bool.not_eq_true _ ▸ hany
          rw [hfalse]
          refine .same rfl ?_
          exact List.eraseP_of_forall_not fun g hg => List.any_eq_false.mp hfalse g hg
  · exact hcall _ _ _ (by simp)
  · exact hcall _ _ _ (by simp)
  · exact hcall _ _ _ (by simp)
  · exact hcall _ _ _ (by simp)
  · exact .same rfl rfl

theorem toolCallEvents_shift (t : Translator) (session : SessionId) (contents : List Value) :
    (t.toolCallEvents session contents).1.permissions = t.permissions ∧
      (t.toolCallEvents session contents).1.oneShotTerminalGrants = t.oneShotTerminalGrants ∧
      (t.toolCallEvents session contents).2.filterMap Deed.ofEvent = [] := by
  induction contents generalizing t with
  | nil => exact ⟨rfl, rfl, rfl⟩
  | cons content contents ih =>
    unfold toolCallEvents
    split
    · split
      · obtain ⟨hp, hg, he⟩ := ih { t with nextId := t.nextId + 1 }
        exact ⟨hp, hg, he⟩
      · exact ih t
    · split
      · obtain ⟨hp, hg, he⟩ := ih t
        exact ⟨hp, hg, he⟩
      · exact ih t
    · exact ih t

theorem onNotification_shift (t : Translator) (method : String) (params : Value) :
    Shift t (t.onNotification method params).1
      ((t.onNotification method params).2.filterMap Deed.ofEvent) := by
  have hnone : ∀ {α : Type} (o : Option α) (f : α → AgentEvent), (∀ a, Deed.ofEvent (f a) = none) →
      ((o.map f).toList).filterMap Deed.ofEvent = [] := by
    intro α o f hf
    cases o with
    | none => rfl
    | some a => simp [hf]
  unfold onNotification
  split_ifs
  · exact .same rfl rfl
  · split
    · split
      · rw [hnone _ _ fun _ => rfl]
        exact .same rfl rfl
      · rw [hnone _ _ fun _ => rfl]
        exact .same rfl rfl
      · obtain ⟨hp, hg, he⟩ := toolCallEvents_shift t _ _
        rw [he]
        exact .same hp hg
      · obtain ⟨hp, hg, he⟩ := toolCallEvents_shift t _ _
        rw [he]
        exact .same hp hg
      · rw [hnone _ _ fun _ => rfl]
        exact .same rfl rfl
      · exact .same rfl rfl
    · exact .same rfl rfl

/-! ## The handshake -/

/-- The handshake, the sessions and our own requests. -/
def link (t : Translator) : Bool × List (SessionId × String) × Table ℕ Pending :=
  (t.ready, t.sessions, t.pending)

/-- Before the handshake is done there is no session and no request but the handshake. -/
structure Opening (t : Translator) : Prop where
  sessions : t.ready = false → t.sessions = []
  pending : t.ready = false → ∀ id p, t.pending.lookup id = some p → p = .initializing
  once : ∀ id, t.pending.lookup id = some .initializing → id = 1 ∧ t.ready = false

theorem Opening.of_link (h : t.Opening) (hl : t'.link = t.link) : t'.Opening := by
  have hr : t'.ready = t.ready := congrArg Prod.fst hl
  have hs : t'.sessions = t.sessions := congrArg (·.2.1) hl
  have hp : t'.pending = t.pending := congrArg (·.2.2) hl
  refine ⟨?_, ?_, ?_⟩
  · rw [hr, hs]
    exact h.sessions
  · rw [hr, hp]
    exact h.pending
  · rw [hr, hp]
    exact h.once

theorem onRequest_link (t : Translator) (id : ℕ) (method : String) (params : Value) :
    (t.onRequest id method params).1.link = t.link := by
  have hcall : ∀ session kind operation,
      (t.terminalCall id session method params kind operation).1.link = t.link := by
    intro session kind operation
    unfold terminalCall
    split_ifs
    · rfl
    · split
      · rfl
      · split <;> rfl
  unfold onRequest
  dsimp only
  split
  · unfold readTextFile
    split <;> rfl
  · unfold writeTextFile
    split <;> rfl
  · rfl
  · unfold terminalCreate
    split_ifs
    · rfl
    · split <;> rfl
  · exact hcall _ _ _
  · exact hcall _ _ _
  · exact hcall _ _ _
  · exact hcall _ _ _
  · rfl

theorem toolCallEvents_link (t : Translator) (session : SessionId) (contents : List Value) :
    (t.toolCallEvents session contents).1.link = t.link := by
  induction contents generalizing t with
  | nil => rfl
  | cons content contents ih =>
    unfold toolCallEvents
    split
    · split
      · exact (ih _).trans rfl
      · exact ih t
    · split
      · exact ih t
      · exact ih t
    · exact ih t

theorem onNotification_link (t : Translator) (method : String) (params : Value) :
    (t.onNotification method params).1.link = t.link := by
  unfold onNotification
  split_ifs
  · rfl
  · split
    · split
      · rfl
      · rfl
      · exact toolCallEvents_link t _ _
      · exact toolCallEvents_link t _ _
      · rfl
      · rfl
    · rfl

theorem terminalResult_link (t : Translator) (p : PendingTerminalRpc)
    (response : AgentTerminalResponse) : (t.terminalResult p response).1.link = t.link := by
  unfold terminalResult
  split
  · rfl
  · split
    · split_ifs <;> rfl
    all_goals rfl

theorem lookup_insert_initializing {m : Table ℕ Pending} {k id : ℕ} {p : Pending}
    (hp : p ≠ .initializing) (h : (m.insert k p).lookup id = some .initializing) :
    m.lookup id = some .initializing := by
  by_cases hk : id = k
  · rw [hk, AList.lookup_insert] at h
    exact absurd (Option.some.inj h) hp
  · rwa [AList.lookup_insert_ne hk] at h

theorem encode_link (t : Translator) (r : AgentRequest) :
    (t.encode r).1.sessions = t.sessions ∧ ∀ id,
      (t.encode r).1.pending.lookup id = some .initializing →
        t.pending.lookup id = some .initializing := by
  cases r with
  | newSession =>
    exact ⟨rfl, fun id hid => lookup_insert_initializing (p := .newSession) (by simp) hid⟩
  | setMode session mode =>
    simp only [encode]
    split
    · exact ⟨rfl, fun _ => id⟩
    · exact ⟨rfl, fun id hid => lookup_insert_initializing (p := .setMode session mode) (by simp)
        hid⟩
  | prompt session =>
    simp only [encode]
    split
    · exact ⟨rfl, fun _ => id⟩
    · exact ⟨rfl, fun id hid => lookup_insert_initializing (p := .prompt session) (by simp) hid⟩
  | fileContents | permission | permissionCancelled | cancel =>
    simp only [encode]
    split <;> exact ⟨rfl, fun _ => id⟩
  | terminalResponse request response =>
    simp only [encode, encodeTerminalResponse]
    split
    · exact ⟨rfl, fun _ => id⟩
    · rename_i p _
      have hl := terminalResult_link { t with terminalRpcs := t.terminalRpcs.erase request } p response
      refine ⟨congrArg (·.2.1) hl, fun id hid => ?_⟩
      have hp := congrArg (·.2.2) hl
      dsimp only [link] at hp
      rwa [hp] at hid
  | shutdown => exact ⟨rfl, fun _ => id⟩

theorem sent_no_end {r : AgentRequest} (hs : t.sessions = []) (s : SessionId) :
    .ended s ∉ t.sent r := by
  cases r with
  | permission request decision =>
    simp only [sent]
    split
    · exact List.not_mem_nil
    · split_ifs
      · simp
      · exact List.not_mem_nil
  | cancel session =>
    have hnone : t.wireSession session = none := by rw [wireSession, hs]; rfl
    simp only [sent, hnone]
    exact List.not_mem_nil
  | _ => exact List.not_mem_nil

theorem sent_allowed {r : AgentRequest} {request : PermissionRequestId}
    (hr : .allowed request ∈ t.sent r) :
    ∃ decision pending, r = .permission request decision ∧
      t.permissions.lookup request = some pending ∧ decision.allows = true ∧
      (chooseOption pending.options decision).isSome = true := by
  cases r with
  | permission request' decision =>
    simp only [sent] at hr
    split at hr
    · cases hr
    · rename_i pending hp
      split_ifs at hr with ha
      · obtain rfl : request = request' := by simpa using hr
        obtain ⟨ho, hd⟩ := Bool.and_eq_true_iff.mp ha
        exact ⟨decision, pending, rfl, hp, hd, ho⟩
      · cases hr
  | cancel session =>
    simp only [sent] at hr
    split_ifs at hr
    · simp at hr
    · cases hr
  | _ => cases hr

end Translator

/-! ## Runs -/

namespace Record

/-- Waiting requests are in the log, and grants are approvals not yet used. -/
structure Kept (t : Translator) (log : List Deed) : Prop where
  requests : ∀ r p, t.permissions.lookup r = some p →
    ∃ j : ℕ, log[j]? = some (.requested r p.session p.terminalSpec)
  accounted : Accounted log t.oneShotTerminalGrants

/-- Every allowed command was asked for in the turn that still lasts. -/
def Prompt (t : Translator) (log ds : List Deed) : Prop :=
  ∀ r p, .allowed r ∈ ds → t.permissions.lookup r = some p → p.terminalSpec.isSome = true →
    ∀ j k : ℕ, j < k → log[j]? = some (.requested r p.session p.terminalSpec) →
      log[k]? ≠ some (.ended p.session)

variable {t t' : Translator} {log ds : List Deed}

/-- **A shift keeps the account.** -/
theorem shift_kept (hi : Kept t log) (hp : Prompt t log ds) (hs : Translator.Shift t t' ds) :
    Kept t' (log ++ ds) := by
  have hold : ∀ r (p : PendingPermission),
      (∃ j : ℕ, log[j]? = some (Deed.requested r p.session p.terminalSpec)) →
      ∃ j : ℕ, (log ++ ds)[j]? = some (Deed.requested r p.session p.terminalSpec) := by
    rintro r p ⟨j, hj⟩
    exact ⟨j, by rw [List.getElem?_append_left (List.getElem?_eq_some_iff.mp hj).1, hj]⟩
  cases hs with
  | quiet hsub keep hg =>
    refine ⟨fun r p hr => hold r p (hi.requests r p (hsub r p hr)), ?_⟩
    rw [hg]
    exact hi.accounted.filter keep (fun _ _ => List.not_mem_nil) fun _ _ => List.not_mem_nil
  | requested r p hperm hg =>
    refine ⟨fun r' p' hr => ?_, ?_⟩
    · rw [hperm] at hr
      by_cases hrr : r' = r
      · rw [hrr, AList.lookup_insert] at hr
        rw [hrr, ← Option.some.inj hr]
        exact ⟨log.length, by simp⟩
      · rw [AList.lookup_insert_ne hrr] at hr
        exact hold r' p' (hi.requests r' p' hr)
    · rw [hg, ← List.filter_true t.oneShotTerminalGrants]
      exact hi.accounted.filter _ (by simp) (by simp)
  | allowed r p hr hperm hg =>
    refine ⟨fun r' p' hr' => hold r' p' (hi.requests r' p' ?_), ?_⟩
    · rw [hperm] at hr'
      exact Translator.lookup_erase_of_some hr'
    · rw [hg]
      obtain ⟨j, hj⟩ := hi.requests r p hr
      cases hspec : p.terminalSpec with
      | none =>
        rw [Option.map_none, Option.toList_none, List.append_nil,
          ← List.filter_true t.oneShotTerminalGrants]
        exact hi.accounted.filter _ (by simp) (by simp)
      | some spec =>
        rw [hspec] at hj
        refine hi.accounted.allow hj fun k hk => ?_
        refine hp r p (List.mem_singleton.mpr rfl) hr (by rw [hspec]; rfl) j k hk ?_
        rw [hspec, hj]
  | ended s hperm hg =>
    refine ⟨fun r p hr => hold r p (hi.requests r p (hperm ▸ hr)), ?_⟩
    rw [hg]
    refine hi.accounted.filter _ (by simp) fun g hg hend => ?_
    have hne : g.1 ≠ s := by simpa using hg
    exact hne (by simpa using hend)
  | launched s spec hperm hmem hg =>
    refine ⟨fun r p hr => hold r p (hi.requests r p (hperm ▸ hr)), ?_⟩
    rw [hg]
    exact hi.accounted.launch hmem

theorem prompt_events (t : Translator) (log : List Deed) (es : List AgentEvent) :
    Prompt t log (es.filterMap Deed.ofEvent) := by
  intro r p hr
  obtain ⟨e, -, he⟩ := List.mem_filterMap.mp hr
  unfold Deed.ofEvent at he
  split at he <;> cases he

theorem sentAll_kept {rs : List AgentRequest} (hi : Kept t log) (hs : t.sessions = [])
    (hend : ∀ s, .ended s ∉ log) : Kept (t.encodeAll rs).1 (log ++ t.sentAll rs) := by
  induction rs generalizing t log with
  | nil =>
    rw [Translator.sentAll, List.append_nil]
    exact hi
  | cons r rs ih =>
    have hp : Prompt t log (t.sent r) := fun _ p _ _ _ _ k _ _ hk =>
      hend p.session (List.mem_of_getElem? hk)
    rw [Translator.sentAll, ← List.append_assoc]
    refine ih (shift_kept hi hp (t.encode_shift r)) ((t.encode_link r).1.trans hs) fun s hmem => ?_
    rcases List.mem_append.mp hmem with hmem | hmem
    · exact hend s hmem
    · exact Translator.sent_no_end hs s hmem

/-- What holds of the record at all times. -/
structure Inv (c : Record) : Prop where
  kept : Kept c.translator c.log
  opening : c.translator.Opening
  early : c.translator.ready = false → ∀ s, .ended s ∉ c.log

theorem inv_start {c : Record} (h : Start c) : c.Inv := by
  obtain ⟨capabilities, rfl⟩ := h
  refine ⟨⟨fun r p hr => ?_, [], [], rfl, List.nodup_nil, ?_, ?_, ?_⟩, ⟨fun _ => rfl, ?_, ?_⟩, ?_⟩
  · exact absurd hr (by simp [Translator.initializeWith])
  · exact fun x hx => absurd hx List.not_mem_nil
  · exact fun x hx => absurd hx List.not_mem_nil
  · exact fun i s spec hl => absurd hl (by simp)
  · intro _ id p hp
    have hp : (AList.insert 1 Pending.initializing (∅ : Table ℕ Pending)).lookup id = some p := hp
    by_cases hid : id = 1
    · rw [hid, AList.lookup_insert] at hp
      exact (Option.some.inj hp).symm
    · rw [AList.lookup_insert_ne hid] at hp
      cases hp
  · intro id hp
    have hp : (AList.insert 1 Pending.initializing (∅ : Table ℕ Pending)).lookup id =
        some Pending.initializing := hp
    refine ⟨?_, rfl⟩
    by_contra hid
    rw [AList.lookup_insert_ne hid] at hp
    cases hp
  · exact fun _ s => List.not_mem_nil

theorem Opening.erase {t t' : Translator} (h : t.Opening) (id : ℕ) (hr : t'.ready = t.ready)
    (hs : t.ready = false → t'.sessions = t.sessions)
    (hp : t'.pending = t.pending.erase id) : t'.Opening := by
  refine ⟨fun hf => ?_, fun hf id' p hid => ?_, fun id' hid => ?_⟩
  · rw [hr] at hf
    rw [hs hf, h.sessions hf]
  · rw [hp] at hid
    exact h.pending (hr ▸ hf) id' p (Translator.lookup_erase_of_some hid)
  · rw [hp] at hid
    rw [hr]
    exact h.once id' (Translator.lookup_erase_of_some hid)

theorem inv_response {t : Translator} {log : List Deed} (h : Inv ⟨t, log⟩) (id : ℕ) (result : Value) :
    Inv ⟨(t.onResponse id result).1, log ++ t.heard (.response id result)⟩ := by
  obtain ⟨hkept, hopen, hearly⟩ := h
  -- apart from the handshake, only a started session has requests of ours to answer
  have hstarted : ∀ p, t.pending.lookup id = some p → p ≠ .initializing → t.ready = true := by
    intro p hp hne
    by_contra hr
    exact hne (hopen.pending (Bool.eq_false_iff.mpr hr) id p hp)
  have hquiet : ∀ t' : Translator, t'.permissions = t.permissions →
      t'.oneShotTerminalGrants = t.oneShotTerminalGrants → t'.ready = t.ready →
      (t.ready = false → t'.sessions = t.sessions) → t'.pending = t.pending.erase id →
      Inv ⟨t', log ++ []⟩ := by
    intro t' hp hg hr hs hpend
    refine ⟨shift_kept hkept (fun _ _ hr => absurd hr List.not_mem_nil) (.same hp hg),
      Opening.erase hopen id hr hs hpend, fun hf s hmem => ?_⟩
    rw [List.append_nil] at hmem
    exact hearly (hr ▸ hf) s hmem
  cases hp : t.pending.lookup id with
  | none =>
    simp only [Translator.onResponse, Translator.heard, hp, List.append_nil]
    exact ⟨hkept, hopen, hearly⟩
  | some pending =>
    simp only [Translator.onResponse, Translator.heard, hp]
    cases pending with
    | initializing =>
      obtain ⟨hid, hfalse⟩ := hopen.once id hp
      let t₁ : Translator :=
        { t with pending := t.pending.erase id, ready := true, queued := [] }
      have hready : (t₁.encodeAll t.queued).1.ready = true := by
        have : ∀ (rs : List AgentRequest) (t : Translator), (t.encodeAll rs).1.ready = t.ready := by
          intro rs
          induction rs with
          | nil => intro t; rfl
          | cons r rs ih => intro t; exact (ih _).trans (t.encode_frame r).1
        exact this _ _
      have hpending : ∀ (rs : List AgentRequest) (t : Translator) (k : ℕ),
          (t.encodeAll rs).1.pending.lookup k = some .initializing →
            t.pending.lookup k = some .initializing := by
        intro rs
        induction rs with
        | nil => intro t k hk; exact hk
        | cons r rs ih => intro t k hk; exact (t.encode_link r).2 k (ih _ k hk)
      have hkept₁ : Kept t₁ log := ⟨hkept.requests, hkept.accounted⟩
      refine ⟨sentAll_kept hkept₁ (hopen.sessions hfalse) (hearly hfalse), ⟨fun hf => ?_,
        fun hf => ?_, fun k hk => ?_⟩, fun hf => ?_⟩
      · exact absurd (hready.symm.trans hf) (by simp)
      · exact absurd (hready.symm.trans hf) (by simp)
      · -- the handshake was the only one
        have hk₁ : (t.pending.erase id).lookup k = some .initializing := hpending _ t₁ k hk
        have hkid : k = id := (hopen.once k (Translator.lookup_erase_of_some hk₁)).1.trans hid.symm
        rw [hkid, AList.lookup_erase] at hk₁
        cases hk₁
      · exact absurd (hready.symm.trans hf) (by simp)
    | newSession =>
      have hr := hstarted _ hp (by simp)
      have hno : t.ready = false → ∀ l : List (SessionId × String), l = t.sessions := by
        intro hf
        rw [hr] at hf
        cases hf
      dsimp only
      split
      · exact hquiet _ rfl rfl rfl (fun hf => hno hf _) rfl
      · exact hquiet _ rfl rfl rfl (fun hf => hno hf _) rfl
    | prompt session =>
      have hr := hstarted _ hp (by simp)
      refine ⟨shift_kept hkept (fun r p hmem => ?_) (.ended session rfl rfl),
        Opening.erase hopen id rfl (fun _ => rfl) rfl, fun hf => ?_⟩
      · simp at hmem
      · exact absurd (hr.symm.trans hf) (by simp)
    | setMode session mode => exact hquiet _ rfl rfl rfl (fun _ => rfl) rfl

theorem inv_error {t : Translator} {log : List Deed} (h : Inv ⟨t, log⟩) (id : ℕ) (code : ℤ)
    (message : String) :
    Inv ⟨(t.onError id message).1, log ++ t.heard (.error id code message)⟩ := by
  obtain ⟨hkept, hopen, hearly⟩ := h
  have hexpire : ∀ session : SessionId, Inv ⟨Translator.expireTerminalGrants
      { t with pending := t.pending.erase id } session, log ++ []⟩ := by
    intro session
    refine ⟨shift_kept hkept (fun _ _ hr => absurd hr List.not_mem_nil)
      (.quiet (fun _ _ hr => hr) _ rfl), Opening.erase hopen id rfl (fun _ => rfl) rfl, ?_⟩
    rw [List.append_nil]
    exact hearly
  cases hp : t.pending.lookup id with
  | none =>
    simp only [Translator.onError, Translator.heard, hp]
    exact hexpire ⟨0⟩
  | some pending =>
    simp only [Translator.onError, Translator.heard, hp]
    cases pending with
    | initializing | newSession => exact hexpire ⟨0⟩
    | setMode session mode => exact hexpire session
    | prompt session =>
      have hr : t.ready = true := by
        by_contra hr
        cases hopen.pending (Bool.eq_false_iff.mpr hr) id _ hp
      refine ⟨shift_kept hkept (fun r p hmem => ?_) (.ended session rfl rfl),
        Opening.erase hopen id rfl (fun _ => rfl) rfl, fun hf => ?_⟩
      · simp at hmem
      · exact absurd (hr.symm.trans hf) (by simp)

/-- **Every step keeps the account.** -/
theorem inv_step {c c' : Record} {a : LineAct} (h : c.Inv) (ha : ¬ c.Late a)
    (hs : c.step a = some c') : c'.Inv := by
  obtain ⟨t, log⟩ := c
  have hevents : ∀ (t' : Translator) (es : List AgentEvent), t'.link = t.link →
      Translator.Shift t t' (es.filterMap Deed.ofEvent) →
      Inv ⟨t', log ++ es.filterMap Deed.ofEvent⟩ := by
    intro t' es hlink hshift
    refine ⟨shift_kept h.kept (prompt_events t log es) hshift, h.opening.of_link hlink,
      fun hf s hmem => ?_⟩
    have hready : t'.ready = t.ready := congrArg Prod.fst hlink
    rcases List.mem_append.mp hmem with hmem | hmem
    · exact h.early (hready ▸ hf) s hmem
    · obtain ⟨e, -, he⟩ := List.mem_filterMap.mp hmem
      unfold Deed.ofEvent at he
      split at he <;> cases he
  cases a with
  | incoming m =>
    rw [← Option.some.inj hs]
    cases m with
    | request id method params =>
      exact hevents _ _ (t.onRequest_link id method params) (t.onRequest_shift id method params)
    | notification method params =>
      exact hevents _ _ (t.onNotification_link method params) (t.onNotification_shift method params)
    | response id result => exact inv_response h id result
    | error id code message => exact inv_error h id code message
  | outgoing r =>
    rw [← Option.some.inj hs]
    by_cases hq : (!t.ready && r != .shutdown) = true
    · -- held until the handshake is done
      rw [next, Translator.outgoing, if_pos hq, sends, if_pos hq, List.append_nil]
      exact ⟨⟨h.kept.requests, h.kept.accounted⟩, ⟨h.opening.sessions, h.opening.pending,
        h.opening.once⟩, h.early⟩
    · rw [next, Translator.outgoing, if_neg hq, sends, if_neg hq]
      have hprompt : Prompt t log (t.sent r) := by
        intro request p hmem hlookup hspec j k hjk hreq hend
        obtain ⟨decision, pending, rfl, hp, hd, ho⟩ := Translator.sent_allowed hmem
        obtain rfl := Option.some.inj (hlookup.symm.trans hp)
        exact ha ⟨p, hp, hd, ho, hspec, j, k, hjk, hreq, hend⟩
      obtain ⟨hready, -⟩ := t.encode_frame r
      obtain ⟨hsessions, hpending⟩ := t.encode_link r
      refine ⟨shift_kept h.kept hprompt (t.encode_shift r), ?_, fun hf s hmem => ?_⟩
      · by_cases hr : t.ready = true
        · refine ⟨fun hf => ?_, fun hf => ?_, fun k hk => ?_⟩
          · exact absurd (hr.symm.trans (hready.symm.trans hf)) (by simp)
          · exact absurd (hr.symm.trans (hready.symm.trans hf)) (by simp)
          · exact absurd (hr.symm.trans (h.opening.once k (hpending k hk)).2) (by simp)
        · -- before the handshake is done only a shutdown passes
          obtain rfl : r = .shutdown := by simpa [hr] using hq
          exact h.opening
      · rcases List.mem_append.mp hmem with hmem | hmem
        · exact h.early (hready ▸ hf) s hmem
        · exact Translator.sent_no_end (h.opening.sessions (hready ▸ hf)) s hmem

/-- **Every launch was approved.** In every run in which no command is allowed after the turn it was
asked in, each preauthorized `terminal/create` has an allow answer of its own, to a request of its
session for exactly its command, and no turn of the session ends between the request and it. -/
theorem launches_approved {c : Record}
    (hr : Runs.Reach step (fun c a => ¬ c.Late a) Start c) : Approved c.log :=
  (hr.inv (fun _ => inv_start) fun _ _ _ h ha hs => inv_step h ha hs).kept.accounted.approved

def install : TerminalSpec := ⟨"npm", ["install"], [.rootDir], []⟩

/-- The translator with a session that has a prompt under way. -/
def prompted : Record :=
  ((((Record.mk (Translator.initializeWith {} {}).1 []).next
    (.incoming (.response 1 (.object [])))).next (.outgoing (.newSession [.rootDir]))).next
      (.incoming (.response 2 (.object [("sessionId", .string "s")])))).next
        (.outgoing (.prompt ⟨1⟩ "go" ""))

/-- The agent asks whether it may install. -/
def asksInstall : LineAct :=
  .incoming (.request 8 "session/request_permission" (.object [("sessionId", .string "s"),
    ("toolCall", .object [("rawInput", .object [
      ("command", .array [.string "npm", .string "install"]), ("cwd", .string "/"),
      ("env", .array [])])]),
    ("options", .array [.object [("optionId", .string "yes"), ("kind", .string "allow_once")]])]))

def allowsInstall : LineAct := .outgoing (.permission ⟨1⟩ .allowOnce)

def endsPrompt : LineAct := .incoming (.response 3 (.object [("stopReason", .string "end_turn")]))

/-- The agent installs. -/
def installs : LineAct :=
  .incoming (.request 9 "terminal/create" (.object [("sessionId", .string "s"),
    ("command", .string "npm"), ("args", .array [.string "install"]), ("cwd", .string "/"),
    ("env", .array [])]))

theorem launches_approved_install :
    (((prompted.next asksInstall).next allowsInstall).next installs).log =
      [.requested ⟨1⟩ ⟨1⟩ (some install), .allowed ⟨1⟩, .launched ⟨1⟩ install] ∧
    Approved (((prompted.next asksInstall).next allowsInstall).next installs).log := by
  have h₀ : Runs.Reach step (fun c a => ¬ c.Late a) Start prompted :=
    .next (a := .outgoing _) (.next (a := .incoming _) (.next (a := .outgoing _)
      (.next (a := .incoming _) (.start ⟨{}, rfl⟩) id rfl) id rfl) id rfl) id rfl
  have h₁ : Runs.Reach step (fun c a => ¬ c.Late a) Start (prompted.next asksInstall) :=
    .next (a := asksInstall) h₀ id rfl
  have htimely : ¬ (prompted.next asksInstall).Late allowsInstall := by
    have hlog : (prompted.next asksInstall).log = [.requested ⟨1⟩ ⟨1⟩ (some install)] := by decide
    rintro ⟨_, -, -, -, -, j, k, hjk, -, hend⟩
    rw [hlog] at hend
    have hk := (List.getElem?_eq_some_iff.mp hend).1
    rw [List.length_singleton] at hk
    omega
  exact ⟨by decide, launches_approved (.next (a := installs) (.next (a := allowsInstall) h₁
    htimely rfl) id rfl)⟩

/-- **Allowed too late.** The prompt is answered while the human decides; the grant given afterwards
is for a turn that is over, and preauthorizes a launch in the next one. -/
theorem not_approved_late :
    ¬ Approved ((((prompted.next asksInstall).next endsPrompt).next allowsInstall).next
      installs).log := by
  have hlog : ((((prompted.next asksInstall).next endsPrompt).next allowsInstall).next
      installs).log = [.requested ⟨1⟩ ⟨1⟩ (some install), .ended ⟨1⟩, .allowed ⟨1⟩,
        .launched ⟨1⟩ install] := by decide
  rw [hlog]
  rintro ⟨f, -, hf⟩
  obtain ⟨r, j, hj, hp, hallow, hreq, hend⟩ := hf 3 ⟨1⟩ install rfl
  have hj0 : j = 0 := by
    have : j = 0 ∨ j = 1 := by omega
    rcases this with rfl | rfl
    · rfl
    · cases hreq
  exact hend 1 (by omega) (by omega) rfl

end Record

end Termesh
