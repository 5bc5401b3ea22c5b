import Mathlib.Tactic.Abel
import Termesh.Agent.Protocol
import Termesh.Lib.Run

/-!
# Every call of the agent is answered once

A call is answered at once or held in one table of the translator, with an event that asks the model
for the answer. `held` collects the wire ids in the tables, `keys` the identifiers they wait under.

* `Moves`: what a step does to both, and that identifiers stay fresh;
* `Line`: the translator between an agent and a model that answers what it is asked;
* `Line.Inv`, **`Line.inv_step`**: calls are replies and held ids, and the tables wait for what the
  model owes or has in the queue;
* **`answered_once`**: in every reachable state.
-/

namespace Termesh

open Tables Runs

/-- A call waiting for the model. -/
inductive CallKey where
  | read (request : ReadRequestId)
  | permission (request : PermissionRequestId)
  | terminal (request : AgentTerminalRequestId)
deriving DecidableEq, Repr

/-- The call a request of the model answers. -/
def AgentRequest.answers : AgentRequest → Option CallKey
  | .fileContents _ request _ _ => some (.read request)
  | .permission request _ => some (.permission request)
  | .permissionCancelled request => some (.permission request)
  | .terminalResponse request _ => some (.terminal request)
  | _ => none

/-- The call an event asks the model to answer. -/
def AgentEvent.asks : AgentEvent → Option CallKey
  | .readFileRequested _ request _ => some (.read request)
  | .permissionRequested _ request _ _ _ _ => some (.permission request)
  | .terminalRequest _ request _ => some (.terminal request)
  | _ => none

/-- The call a wire message makes. -/
def Message.call : Message → Option ℕ
  | .request id _ _ => some id
  | _ => none

/-- Zero or one as a multiset. -/
def single {α : Type*} (o : Option α) : Multiset α := o.toList

@[simp] theorem single_none {α : Type*} : single (none : Option α) = 0 := rfl

@[simp] theorem single_some {α : Type*} (a : α) : single (some a) = {a} := rfl

/-- The wire ids answered by messages. -/
def replied (ms : List Message) : Multiset ℕ := ms.filterMap Message.answers

/-- The calls events ask about. -/
def asked (es : List AgentEvent) : Multiset CallKey := es.filterMap AgentEvent.asks

@[simp] theorem replied_nil : replied [] = 0 := rfl

@[simp] theorem asked_nil : asked [] = 0 := rfl

theorem asked_cons (e : AgentEvent) (es : List AgentEvent) :
    asked (e :: es) = single e.asks + asked es := by
  cases h : e.asks <;> simp [asked, h]

theorem replied_append (ms ms' : List Message) : replied (ms ++ ms') = replied ms + replied ms' := by
  simp [replied]

namespace Translator

/-- The wire ids held in the three tables. -/
def held (t : Translator) : Multiset ℕ :=
  Table.vals t.reads + (Table.vals t.permissions).map (·.wireRequest) +
    (Table.vals t.terminalRpcs).map (·.wireRequest)

/-- The identifiers the three tables wait under. -/
def keys (t : Translator) : Multiset CallKey :=
  (Table.names t.reads).map .read + (Table.names t.permissions).map .permission +
    (Table.names t.terminalRpcs).map .terminal

/-- Identifiers in use come from the counter. -/
structure Fresh (t : Translator) : Prop where
  reads : ∀ k ∈ t.reads, k.val ≤ t.nextId
  permissions : ∀ k ∈ t.permissions, k.val ≤ t.nextId
  terminals : ∀ k ∈ t.terminalRpcs, k.val ≤ t.nextId

/-- A step takes the calls `calls` in and replies to `sent`; `ask` are the identifiers it begins to
wait under and `gone` those it no longer waits under. -/
structure Moves (t t' : Translator) (calls : Multiset ℕ) (ask gone : Multiset CallKey)
    (sent : Multiset ℕ) : Prop where
  held : calls + t.held = sent + t'.held
  keys : ask + t.keys = gone + t'.keys
  fresh : t'.Fresh

variable {t : Translator}

theorem Fresh.next_reads (h : t.Fresh) : (⟨t.nextId + 1⟩ : ReadRequestId) ∉ t.reads :=
  fun hk => absurd (h.reads _ hk) (Nat.not_succ_le_self _)

theorem Fresh.next_permissions (h : t.Fresh) :
    (⟨t.nextId + 1⟩ : PermissionRequestId) ∉ t.permissions :=
  fun hk => absurd (h.permissions _ hk) (Nat.not_succ_le_self _)

theorem Fresh.next_terminals (h : t.Fresh) :
    (⟨t.nextId + 1⟩ : AgentTerminalRequestId) ∉ t.terminalRpcs :=
  fun hk => absurd (h.terminals _ hk) (Nat.not_succ_le_self _)

theorem Fresh.of_eq {t' : Translator} (h : t.Fresh) (hr : t'.reads = t.reads)
    (hp : t'.permissions = t.permissions) (ht : t'.terminalRpcs = t.terminalRpcs)
    (hn : t.nextId ≤ t'.nextId) : t'.Fresh := by
  refine ⟨?_, ?_, ?_⟩
  · rw [hr]; exact fun k hk => Nat.le_trans (h.reads k hk) hn
  · rw [hp]; exact fun k hk => Nat.le_trans (h.permissions k hk) hn
  · rw [ht]; exact fun k hk => Nat.le_trans (h.terminals k hk) hn

theorem held_congr {t' : Translator} (hr : t'.reads = t.reads) (hp : t'.permissions = t.permissions)
    (ht : t'.terminalRpcs = t.terminalRpcs) : t'.held = t.held ∧ t'.keys = t.keys := by
  rw [held, held, keys, keys, hr, hp, ht]
  exact ⟨rfl, rfl⟩

theorem Moves.same (t' : Translator) (h : t.Fresh) (hr : t'.reads = t.reads)
    (hp : t'.permissions = t.permissions) (ht : t'.terminalRpcs = t.terminalRpcs)
    (hn : t.nextId ≤ t'.nextId) (calls : Multiset ℕ) : Moves t t' calls 0 0 calls := by
  obtain ⟨h1, h2⟩ := held_congr hr hp ht
  exact ⟨by rw [h1], by rw [h2], h.of_eq hr hp ht hn⟩

/-! ## Calls from the agent -/

theorem readTextFile_moves (h : t.Fresh) (id : ℕ) (session : SessionId) (params : Value) :
    Moves t (t.readTextFile id session params).1 {id} (asked (t.readTextFile id session params).2.1) 0
      (replied (t.readTextFile id session params).2.2) := by
  unfold readTextFile
  split
  · exact .same t h rfl rfl rfl (Nat.le_refl _) _
  · refine ⟨?_, ?_, ?_, ?_, ?_⟩
    · simp only [held, replied_nil]
      rw [Table.vals_insert _ _ h.next_reads]
      abel
    · simp only [keys, asked_cons, AgentEvent.asks, asked_nil, single_some]
      rw [Table.names_insert _ _ h.next_reads, Multiset.map_add, Multiset.map_singleton]
      abel
    · intro k hk
      rcases (AList.mem_insert _).mp hk with rfl | hk
      · exact Nat.le_refl _
      · exact Nat.le_succ_of_le (h.reads k hk)
    · exact fun k hk => Nat.le_succ_of_le (h.permissions k hk)
    · exact fun k hk => Nat.le_succ_of_le (h.terminals k hk)

theorem writeTextFile_moves (h : t.Fresh) (id : ℕ) (session : SessionId) (params : Value) :
    Moves t (t.writeTextFile id session params).1 {id}
      (asked (t.writeTextFile id session params).2.1) 0
      (replied (t.writeTextFile id session params).2.2) := by
  unfold writeTextFile
  split
  · exact .same { t with nextId := t.nextId + 1 } h rfl rfl rfl (Nat.le_succ _) _
  · exact .same t h rfl rfl rfl (Nat.le_refl _) _

theorem requestPermission_moves (h : t.Fresh) (id : ℕ) (session : SessionId) (params : Value) :
    Moves t (t.requestPermission id session params).1 {id}
      (asked (t.requestPermission id session params).2.1) 0
      (replied (t.requestPermission id session params).2.2) := by
  refine ⟨?_, ?_, ?_, ?_, ?_⟩
  · simp only [requestPermission, held, replied_nil]
    rw [Table.vals_insert _ _ h.next_permissions, Multiset.map_add, Multiset.map_singleton]
    abel
  · simp only [requestPermission, keys, asked_cons, AgentEvent.asks, asked_nil, single_some]
    rw [Table.names_insert _ _ h.next_permissions, Multiset.map_add, Multiset.map_singleton]
    abel
  · exact fun k hk => Nat.le_succ_of_le (h.reads k hk)
  · intro k hk
    rcases (AList.mem_insert _).mp hk with rfl | hk
    · exact Nat.le_refl _
    · exact Nat.le_succ_of_le (h.permissions k hk)
  · exact fun k hk => Nat.le_succ_of_le (h.terminals k hk)

theorem allocateTerminalRequest_moves (h : t.Fresh) (id : ℕ) (session : SessionId)
    (kind : TerminalRpcKind) (operation : AgentTerminalOperation) :
    Moves t (t.allocateTerminalRequest id session kind operation).1 {id}
      (asked (t.allocateTerminalRequest id session kind operation).2.1) 0
      (replied (t.allocateTerminalRequest id session kind operation).2.2) := by
  refine ⟨?_, ?_, ?_, ?_, ?_⟩
  · simp only [allocateTerminalRequest, held, replied_nil]
    rw [Table.vals_insert _ _ h.next_terminals, Multiset.map_add, Multiset.map_singleton]
    abel
  · simp only [allocateTerminalRequest, keys, asked_cons, AgentEvent.asks, asked_nil, single_some]
    rw [Table.names_insert _ _ h.next_terminals, Multiset.map_add, Multiset.map_singleton]
    abel
  · exact fun k hk => Nat.le_succ_of_le (h.reads k hk)
  · exact fun k hk => Nat.le_succ_of_le (h.permissions k hk)
  · intro k hk
    rcases (AList.mem_insert _).mp hk with rfl | hk
    · exact Nat.le_refl _
    · exact Nat.le_succ_of_le (h.terminals k hk)

theorem invalidParams_moves (h : t.Fresh) (id : ℕ) (message : String) :
    Moves t (t.invalidParams id message).1 {id} (asked (t.invalidParams id message).2.1) 0
      (replied (t.invalidParams id message).2.2) := by
  exact .same t h rfl rfl rfl (Nat.le_refl _) _

theorem grants_moves (h : t.Fresh) (grants : List (SessionId × TerminalSpec)) (id : ℕ)
    (session : SessionId) (kind : TerminalRpcKind) (operation : AgentTerminalOperation) :
    let s := { t with oneShotTerminalGrants := grants }
    Moves t (s.allocateTerminalRequest id session kind operation).1 {id}
      (asked (s.allocateTerminalRequest id session kind operation).2.1) 0
      (replied (s.allocateTerminalRequest id session kind operation).2.2) := by
  intro s
  have hs : s.Fresh := h.of_eq rfl rfl rfl (Nat.le_refl _)
  have hm := allocateTerminalRequest_moves hs id session kind operation
  exact ⟨hm.held, hm.keys, hm.fresh⟩

theorem terminalCreate_moves (h : t.Fresh) (id : ℕ) (session : SessionId) (params : Value) :
    Moves t (t.terminalCreate id session params).1 {id}
      (asked (t.terminalCreate id session params).2.1) 0
      (replied (t.terminalCreate id session params).2.2) := by
  unfold terminalCreate
  split_ifs
  · exact invalidParams_moves h _ _
  · split
    · exact invalidParams_moves h _ _
    · exact invalidParams_moves h _ _
    · exact grants_moves h _ _ _ _ _

theorem terminalCall_moves (h : t.Fresh) (id : ℕ) (session : SessionId) (method : String)
    (params : Value) (kind : TerminalId → TerminalRpcKind)
    (operation : TerminalId → AgentTerminalOperation) :
    Moves t (t.terminalCall id session method params kind operation).1 {id}
      (asked (t.terminalCall id session method params kind operation).2.1) 0
      (replied (t.terminalCall id session method params kind operation).2.2) := by
  unfold terminalCall
  split_ifs
  · exact invalidParams_moves h _ _
  · split
    · exact invalidParams_moves h _ _
    · split
      · exact invalidParams_moves h _ _
      · exact allocateTerminalRequest_moves h _ _ _ _

/-- **A call is answered at once or held under a fresh identifier.** -/
theorem onRequest_moves (h : t.Fresh) (id : ℕ) (method : String) (params : Value) :
    Moves t (t.onRequest id method params).1 {id} (asked (t.onRequest id method params).2.1) 0
      (replied (t.onRequest id method params).2.2) := by
  unfold onRequest
  dsimp only
  split
  · exact readTextFile_moves h _ _ _
  · exact writeTextFile_moves h _ _ _
  · exact requestPermission_moves h _ _ _
  · exact terminalCreate_moves h _ _ _
  · exact terminalCall_moves h _ _ _ _ _ _
  · exact terminalCall_moves h _ _ _ _ _ _
  · exact terminalCall_moves h _ _ _ _ _ _
  · exact terminalCall_moves h _ _ _ _ _ _
  · exact .same t h rfl rfl rfl (Nat.le_refl _) _

/-! ## Answers of the model -/

theorem mem_keys_read {r : ReadRequestId} : .read r ∈ t.keys ↔ r ∈ t.reads := by
  simp [keys, Table.mem_names]

theorem mem_keys_permission {r : PermissionRequestId} : .permission r ∈ t.keys ↔ r ∈ t.permissions := by
  simp [keys, Table.mem_names]

theorem mem_keys_terminal {r : AgentTerminalRequestId} : .terminal r ∈ t.keys ↔ r ∈ t.terminalRpcs := by
  simp [keys, Table.mem_names]

theorem erase_read_moves (h : t.Fresh) {r : ReadRequestId} {w : ℕ} (hl : t.reads.lookup r = some w) :
    Moves t { t with reads := t.reads.erase r } 0 0 {.read r} {w} := by
  refine ⟨?_, ?_, ?_, h.permissions, h.terminals⟩
  · simp only [held]
    rw [Table.vals_erase _ hl]
    abel
  · simp only [keys]
    rw [Table.names_erase _ hl, Multiset.map_add, Multiset.map_singleton]
    abel
  · exact fun k hk => h.reads k (AList.mem_erase.mp hk).2

theorem erase_permission_moves (h : t.Fresh) {r : PermissionRequestId} {p : PendingPermission}
    (hl : t.permissions.lookup r = some p) (grants : List (SessionId × TerminalSpec)) :
    Moves t { t with permissions := t.permissions.erase r, oneShotTerminalGrants := grants } 0 0
      {.permission r} {p.wireRequest} := by
  refine ⟨?_, ?_, h.reads, ?_, h.terminals⟩
  · simp only [held]
    rw [Table.vals_erase _ hl, Multiset.map_add, Multiset.map_singleton]
    abel
  · simp only [keys]
    rw [Table.names_erase _ hl, Multiset.map_add, Multiset.map_singleton]
    abel
  · exact fun k hk => h.permissions k (AList.mem_erase.mp hk).2

theorem erase_terminal_moves (h : t.Fresh) {r : AgentTerminalRequestId} {p : PendingTerminalRpc}
    (hl : t.terminalRpcs.lookup r = some p) :
    Moves t { t with terminalRpcs := t.terminalRpcs.erase r } 0 0 {.terminal r} {p.wireRequest} := by
  refine ⟨?_, ?_, h.reads, h.permissions, ?_⟩
  · simp only [held]
    rw [Table.vals_erase _ hl, Multiset.map_add, Multiset.map_singleton]
    abel
  · simp only [keys]
    rw [Table.names_erase _ hl, Multiset.map_add, Multiset.map_singleton]
    abel
  · exact fun k hk => h.terminals k (AList.mem_erase.mp hk).2

/-- The reply to a terminal call carries its wire id, whatever the model answered. -/
theorem terminalResult_spec (t : Translator) (p : PendingTerminalRpc) (r : AgentTerminalResponse) :
    (t.terminalResult p r).2.answers = some p.wireRequest ∧
      (t.terminalResult p r).1.reads = t.reads ∧
      (t.terminalResult p r).1.permissions = t.permissions ∧
      (t.terminalResult p r).1.terminalRpcs = t.terminalRpcs ∧
      (t.terminalResult p r).1.nextId = t.nextId ∧ (t.terminalResult p r).1.ready = t.ready ∧
      (t.terminalResult p r).1.queued = t.queued := by
  unfold terminalResult
  split
  · exact ⟨rfl, rfl, rfl, rfl, rfl, rfl, rfl⟩
  · split
    · dsimp only
      split_ifs <;> exact ⟨rfl, rfl, rfl, rfl, rfl, rfl, rfl⟩
    all_goals exact ⟨rfl, rfl, rfl, rfl, rfl, rfl, rfl⟩

theorem encode_frame (t : Translator) (r : AgentRequest) :
    (t.encode r).1.ready = t.ready ∧ (t.encode r).1.queued = t.queued := by
  cases r with
  | newSession | shutdown => exact ⟨rfl, rfl⟩
  | setMode | prompt | permissionCancelled | cancel =>
    simp only [encode]
    split <;> exact ⟨rfl, rfl⟩
  | fileContents session r path contents =>
    simp only [encode]
    split <;> exact ⟨rfl, rfl⟩
  | permission r decision =>
    simp only [encode]
    split <;> exact ⟨rfl, rfl⟩
  | terminalResponse r response =>
    simp only [encode, encodeTerminalResponse]
    split
    · exact ⟨rfl, rfl⟩
    · next p hp => exact ⟨(terminalResult_spec _ p response).2.2.2.2.2.1,
        (terminalResult_spec _ p response).2.2.2.2.2.2⟩

/-- **A request that answers no call moves nothing.** -/
theorem encode_other (h : t.Fresh) {r : AgentRequest} (hr : r.answers = none) :
    Moves t (t.encode r).1 0 0 0 (replied (t.encode r).2.toList) := by
  cases r with
  | newSession cwd => exact .same (t.ask _ _ _).1 h rfl rfl rfl (Nat.le_refl _) 0
  | setMode session mode | prompt session text context =>
    simp only [encode]
    split
    · exact .same t h rfl rfl rfl (Nat.le_refl _) 0
    · exact .same (t.ask _ _ _).1 h rfl rfl rfl (Nat.le_refl _) 0
  | cancel session =>
    simp only [encode]
    split
    · exact .same (t.expireTerminalGrants session) h rfl rfl rfl (Nat.le_refl _) 0
    · exact .same (t.expireTerminalGrants session) h rfl rfl rfl (Nat.le_refl _) 0
  | shutdown => exact .same t h rfl rfl rfl (Nat.le_refl _) 0
  | fileContents | permission | permissionCancelled | terminalResponse => cases hr

/-- **An answer to a waiting call becomes its one reply.** -/
theorem encode_answer (h : t.Fresh) {r : AgentRequest} {k : CallKey} (hr : r.answers = some k)
    (hk : k ∈ t.keys) : Moves t (t.encode r).1 0 0 {k} (replied (t.encode r).2.toList) := by
  cases r with
  | newSession | setMode | prompt | cancel | shutdown => cases hr
  | fileContents session r path contents =>
    obtain rfl : .read r = k := by simpa [AgentRequest.answers] using hr
    obtain ⟨w, hw⟩ := Option.isSome_iff_exists.mp (AList.lookup_isSome.mpr (mem_keys_read.mp hk))
    simp only [encode, hw]
    cases contents <;> exact erase_read_moves h hw
  | permission r decision =>
    obtain rfl : .permission r = k := by simpa [AgentRequest.answers] using hr
    obtain ⟨p, hp⟩ := Option.isSome_iff_exists.mp
      (AList.lookup_isSome.mpr (mem_keys_permission.mp hk))
    simp only [encode, hp]
    exact erase_permission_moves h hp _
  | permissionCancelled r =>
    obtain rfl : .permission r = k := by simpa [AgentRequest.answers] using hr
    obtain ⟨p, hp⟩ := Option.isSome_iff_exists.mp
      (AList.lookup_isSome.mpr (mem_keys_permission.mp hk))
    simp only [encode, hp]
    exact erase_permission_moves h hp _
  | terminalResponse r response =>
    obtain rfl : .terminal r = k := by simpa [AgentRequest.answers] using hr
    obtain ⟨p, hp⟩ := Option.isSome_iff_exists.mp
      (AList.lookup_isSome.mpr (mem_keys_terminal.mp hk))
    simp only [encode, encodeTerminalResponse, hp]
    have hm := erase_terminal_moves h hp
    obtain ⟨h1, h2, h3, h4, h5, -⟩ :=
      terminalResult_spec { t with terminalRpcs := t.terminalRpcs.erase r } p response
    have hs := Moves.same _ hm.fresh h2 h3 h4 (Nat.le_of_eq h5.symm) 0
    have hrep : replied (some (terminalResult { t with terminalRpcs := t.terminalRpcs.erase r } p
        response).2).toList = {p.wireRequest} := by
      simp [replied, h1]
    rw [hrep]
    exact ⟨hm.held.trans (congrArg ({p.wireRequest} + ·) (by simpa using hs.held)),
      hm.keys.trans (congrArg ({CallKey.terminal r} + ·) (by simpa using hs.keys)), hs.fresh⟩

/-- Several answers in a row, each to a waiting call. -/
theorem encodeAll_moves (h : t.Fresh) (rs : List AgentRequest) {rest : Multiset CallKey}
    (hk : t.keys = ↑(rs.filterMap AgentRequest.answers) + rest) :
    (t.encodeAll rs).1.Fresh ∧ (t.encodeAll rs).1.keys = rest ∧
      t.held = replied (t.encodeAll rs).2 + (t.encodeAll rs).1.held ∧
      (t.encodeAll rs).1.ready = t.ready ∧ (t.encodeAll rs).1.queued = t.queued := by
  induction rs generalizing t with
  | nil => exact ⟨h, by simpa [encodeAll] using hk, by simp [encodeAll], rfl, rfl⟩
  | cons r rs ih =>
    obtain ⟨hf1, hf2⟩ := t.encode_frame r
    have hm : Moves t (t.encode r).1 0 0 (single r.answers) (replied (t.encode r).2.toList) := by
      cases hr : r.answers with
      | none => exact encode_other h hr
      | some k =>
        refine encode_answer h hr ?_
        rw [hk]
        simp [hr]
    have hk' : (t.encode r).1.keys = ↑(rs.filterMap AgentRequest.answers) + rest := by
      have := hm.keys
      rw [hk] at this
      cases hr : r.answers with
      | none => simpa [hr] using this.symm
      | some k =>
        simp only [hr, List.filterMap_cons, single_some, zero_add, ← Multiset.cons_coe,
          Multiset.singleton_add, Multiset.cons_add, Multiset.cons_inj_right] at this
        exact this.symm
    obtain ⟨h1, h2, h3, h4, h5⟩ := ih hm.fresh hk'
    refine ⟨h1, h2, ?_, h4.trans hf1, h5.trans hf2⟩
    have := hm.held
    rw [zero_add, h3, ← add_assoc, ← replied_append] at this
    exact this

end Translator

/-! ## Notifications, responses and errors -/

namespace Translator

variable {t : Translator}

/-- The tables stay, the counter does not fall, and no call is asked about. -/
structure Quiet (t t' : Translator) (es : List AgentEvent) : Prop where
  reads : t'.reads = t.reads
  permissions : t'.permissions = t.permissions
  terminals : t'.terminalRpcs = t.terminalRpcs
  nextId : t.nextId ≤ t'.nextId
  ready : t'.ready = t.ready
  queued : t'.queued = t.queued
  asks : asked es = 0

theorem toolCallEvents_quiet (t : Translator) (session : SessionId) (contents : List Value) :
    Quiet t (t.toolCallEvents session contents).1 (t.toolCallEvents session contents).2 := by
  induction contents generalizing t with
  | nil => exact ⟨rfl, rfl, rfl, Nat.le_refl _, rfl, rfl, rfl⟩
  | cons content contents ih =>
    rw [toolCallEvents]
    split
    · split
      · next path newText _ _ =>
        have h := ih { t with nextId := t.nextId + 1 }
        exact ⟨h.reads, h.permissions, h.terminals, Nat.le_of_succ_le h.nextId, h.ready, h.queued,
          by rw [asked_cons, h.asks]; rfl⟩
      · exact ih t
    · split
      · have h := ih t
        exact ⟨h.reads, h.permissions, h.terminals, h.nextId, h.ready, h.queued,
          by rw [asked_cons, h.asks]; rfl⟩
      · exact ih t
    · exact ih t

theorem asked_map_toList {α : Type*} (o : Option α) (f : α → AgentEvent)
    (h : ∀ a, (f a).asks = none) : asked (o.map f).toList = 0 := by
  cases o with
  | none => rfl
  | some a => simp [asked, h a]

theorem onNotification_quiet (t : Translator) (method : String) (params : Value) :
    Quiet t (t.onNotification method params).1 (t.onNotification method params).2 := by
  have hsame : ∀ es, asked es = 0 → Quiet t t es := fun es h =>
    ⟨rfl, rfl, rfl, Nat.le_refl _, rfl, rfl, h⟩
  unfold onNotification
  split_ifs
  · exact hsame _ rfl
  · split
    · split
      · exact hsame _ (asked_map_toList _ _ fun _ => rfl)
      · exact hsame _ (asked_map_toList _ _ fun _ => rfl)
      · exact toolCallEvents_quiet t _ _
      · exact toolCallEvents_quiet t _ _
      · exact hsame _ (asked_map_toList _ _ fun _ => rfl)
      · exact hsame _ rfl
    · exact hsame _ rfl

theorem onError_quiet (t : Translator) (id : ℕ) (message : String) :
    Quiet t (t.onError id message).1 (t.onError id message).2.1 :=
  ⟨rfl, rfl, rfl, Nat.le_refl _, rfl, rfl, rfl⟩

theorem asked_parseSessionModes (session : SessionId) (modes : Option Value) :
    asked (parseSessionModes session modes).toList = 0 := by
  unfold parseSessionModes
  cases modes with
  | none => rfl
  | some modes =>
    simp only [Option.bind_some]
    cases modes.getStr "currentModeId" with
    | none => rfl
    | some current =>
      simp only [Option.bind_some]
      cases (modes.get "availableModes").bind Value.asArray with
      | none => rfl
      | some list =>
        simp only [Option.bind_some]
        split_ifs <;> rfl

theorem onResponse_quiet (t : Translator) (id : ℕ) (result : Value)
    (h : t.pending.lookup id ≠ some .initializing) :
    Quiet t (t.onResponse id result).1 (t.onResponse id result).2.1 ∧
      (t.onResponse id result).2.2 = [] := by
  unfold onResponse
  split
  · exact ⟨⟨rfl, rfl, rfl, Nat.le_refl _, rfl, rfl, rfl⟩, rfl⟩
  · next pending hp =>
    cases pending with
    | initializing => exact absurd hp h
    | newSession =>
      dsimp only
      split
      · exact ⟨⟨rfl, rfl, rfl, Nat.le_refl _, rfl, rfl, rfl⟩, rfl⟩
      · refine ⟨⟨rfl, rfl, rfl, Nat.le_refl _, rfl, rfl, ?_⟩, rfl⟩
        rw [asked_cons, asked_parseSessionModes]
        rfl
    | prompt session => exact ⟨⟨rfl, rfl, rfl, Nat.le_refl _, rfl, rfl, rfl⟩, rfl⟩
    | setMode session mode => exact ⟨⟨rfl, rfl, rfl, Nat.le_refl _, rfl, rfl, rfl⟩, rfl⟩

theorem onRequest_frame (t : Translator) (id : ℕ) (method : String) (params : Value) :
    (t.onRequest id method params).1.ready = t.ready ∧
      (t.onRequest id method params).1.queued = t.queued := by
  have hcall : ∀ session kind operation,
      (t.terminalCall id session method params kind operation).1.ready = t.ready ∧
        (t.terminalCall id session method params kind operation).1.queued = t.queued := by
    intro session kind operation
    unfold terminalCall
    split_ifs
    · exact ⟨rfl, rfl⟩
    · split
      · exact ⟨rfl, rfl⟩
      · split <;> exact ⟨rfl, rfl⟩
  unfold onRequest
  dsimp only
  split
  · unfold readTextFile; split <;> exact ⟨rfl, rfl⟩
  · unfold writeTextFile; split <;> exact ⟨rfl, rfl⟩
  · exact ⟨rfl, rfl⟩
  · unfold terminalCreate
    split_ifs
    · exact ⟨rfl, rfl⟩
    · split <;> exact ⟨rfl, rfl⟩
  · exact hcall _ _ _
  · exact hcall _ _ _
  · exact hcall _ _ _
  · exact hcall _ _ _
  · exact ⟨rfl, rfl⟩

end Translator

/-! ## Runs -/

/-- The translator between the agent and the model. `calls` and `replies` are the wire ids of the
calls received and of the answers sent; `owed` are the calls the model was asked about and has not
answered. -/
structure Line where
  translator : Translator
  calls : Multiset ℕ := 0
  replies : Multiset ℕ := 0
  owed : Multiset CallKey := 0

/-- A wire message arrives, or the model sends a request. -/
inductive LineAct where
  | incoming (m : Message)
  | outgoing (r : AgentRequest)

namespace Line

/-- A wire message arrives. -/
def hear (l : Line) (m : Message) : Line where
  translator := (l.translator.incoming m).1
  calls := single m.call + l.calls
  replies := replied (l.translator.incoming m).2.2 + l.replies
  owed := asked (l.translator.incoming m).2.1 + l.owed

/-- The model sends a request. -/
def send (l : Line) (r : AgentRequest) : Line where
  translator := (l.translator.outgoing r).1
  calls := l.calls
  replies := replied (l.translator.outgoing r).2 + l.replies
  owed := l.owed - single r.answers

/-- One act. -/
def step (l : Line) : LineAct → Option Line
  | .incoming m => some (l.hear m)
  | .outgoing r => some (l.send r)

/-- The model answers only what it was asked and has not answered yet. -/
def AnswersOnce (l : Line) : LineAct → Prop
  | .incoming _ => True
  | .outgoing r => ∀ k, r.answers = some k → k ∈ l.owed

/-- The handshake was sent and nothing else happened. -/
def Start (l : Line) : Prop :=
  ∃ capabilities, l = { translator := (Translator.initializeWith {} capabilities).1 }

/-- Answers waiting for the handshake. -/
def waiting (t : Translator) : Multiset CallKey := ↑(t.queued.filterMap AgentRequest.answers)

/-- What holds of the line at all times. -/
structure Inv (l : Line) : Prop where
  calls : l.calls = l.replies + l.translator.held
  keys : l.translator.keys = waiting l.translator + l.owed
  fresh : l.translator.Fresh
  queue : l.translator.ready = true → l.translator.queued = []

variable {l : Line}

theorem inv_start (h : Start l) : l.Inv := by
  obtain ⟨capabilities, rfl⟩ := h
  exact ⟨rfl, rfl, ⟨by simp [Translator.initializeWith], by simp [Translator.initializeWith],
    by simp [Translator.initializeWith]⟩, by simp [Translator.initializeWith]⟩

theorem Inv.quiet (h : l.Inv) {t' : Translator} {es : List AgentEvent}
    (hq : Translator.Quiet l.translator t' es) :
    Inv { translator := t', calls := 0 + l.calls, replies := 0 + l.replies,
          owed := asked es + l.owed } := by
  obtain ⟨h1, h2⟩ := Translator.held_congr hq.reads hq.permissions hq.terminals
  refine ⟨?_, ?_, h.fresh.of_eq hq.reads hq.permissions hq.terminals hq.nextId, ?_⟩
  · simp only [zero_add, h1]
    exact h.calls
  · simp only [hq.asks, zero_add, h2, waiting, hq.queued]
    exact h.keys
  · simp only [hq.ready, hq.queued]
    exact h.queue

theorem inv_hear (h : l.Inv) (m : Message) : (l.hear m).Inv := by
  cases m with
  | error id code message => exact h.quiet (Translator.onError_quiet l.translator id message)
  | notification method params =>
    exact h.quiet (Translator.onNotification_quiet l.translator method params)
  | request id method params =>
    have hm := Translator.onRequest_moves h.fresh id method params
    obtain ⟨hf1, hf2⟩ := l.translator.onRequest_frame id method params
    refine ⟨?_, ?_, hm.fresh, ?_⟩
    · simp only [hear, Translator.incoming, Message.call, single_some]
      rw [h.calls, add_left_comm, hm.held]
      abel
    · simp only [hear, Translator.incoming, waiting, hf2]
      have := hm.keys
      rw [h.keys, zero_add] at this
      rw [← this, waiting]
      abel
    · simp only [hear, Translator.incoming, hf1, hf2]
      exact h.queue
  | response id result =>
    by_cases hp : l.translator.pending.lookup id = some .initializing
    · -- the handshake is done: the queue goes out
      set t : Translator := { l.translator with pending := l.translator.pending.erase id,
                                                ready := true, queued := [] } with ht
      have hfresh : t.Fresh := h.fresh.of_eq rfl rfl rfl (Nat.le_refl _)
      obtain ⟨h1, h2, h3, h4, h5⟩ := Translator.encodeAll_moves hfresh l.translator.queued
        (show t.keys = _ + l.owed from h.keys)
      have hin : l.translator.incoming (.response id result) =
          ((t.encodeAll l.translator.queued).1, [.ready (parseAgentCapabilities result)],
            (t.encodeAll l.translator.queued).2) := by
        rw [Translator.incoming, Translator.onResponse, hp]
      refine ⟨?_, ?_, ?_, ?_⟩
      · have : l.translator.held = t.held := rfl
        simp only [hear, hin, Message.call, single_none, h.calls, this, h3]
        abel
      · simp only [hear, hin, waiting, h5, h2, asked_cons, AgentEvent.asks, asked_nil, single_none]
        simp [ht]
      · simp only [hear, hin]
        exact h1
      · simp only [hear, hin]
        exact fun _ => h5
    · obtain ⟨hq, hm⟩ := Translator.onResponse_quiet l.translator id result hp
      have := h.quiet hq
      simpa only [hear, Translator.incoming, hm, replied_nil, Message.call, single_none] using this

theorem inv_send (h : l.Inv) (r : AgentRequest) (hok : ∀ k, r.answers = some k → k ∈ l.owed) :
    (l.send r).Inv := by
  have howed : single r.answers + (l.owed - single r.answers) = l.owed := by
    rw [add_comm]
    refine Multiset.sub_add_cancel ?_
    cases hr : r.answers with
    | none => exact Multiset.zero_le _
    | some k => exact Multiset.singleton_le.mpr (hok k hr)
  by_cases hq : (!l.translator.ready && r != .shutdown) = true
  · -- held until the handshake is done
    have hout : l.translator.outgoing r =
        ({ l.translator with queued := l.translator.queued ++ [r] }, []) := by
      rw [Translator.outgoing, if_pos hq]
    refine ⟨?_, ?_, ?_, ?_⟩
    · simp only [send, hout, replied_nil, zero_add]
      exact h.calls
    · have hw : waiting { l.translator with queued := l.translator.queued ++ [r] } =
          waiting l.translator + single r.answers := by
        cases hr : r.answers <;> simp [waiting, hr, ← Multiset.coe_add]
      simp only [send, hout]
      rw [hw, add_assoc, howed]
      exact h.keys
    · simp only [send, hout]
      exact Translator.Fresh.of_eq h.fresh rfl rfl rfl (Nat.le_refl l.translator.nextId)
    · simp only [send, hout]
      intro hr
      rw [hr] at hq
      simp at hq
  · have hout : l.translator.outgoing r =
        ((l.translator.encode r).1, (l.translator.encode r).2.toList) := by
      rw [Translator.outgoing, if_neg hq]
    obtain ⟨hf1, hf2⟩ := l.translator.encode_frame r
    have hm : Translator.Moves l.translator (l.translator.encode r).1 0 0 (single r.answers)
        (replied (l.translator.encode r).2.toList) := by
      cases hr : r.answers with
      | none => exact Translator.encode_other h.fresh hr
      | some k =>
        refine Translator.encode_answer h.fresh hr ?_
        rw [h.keys]
        exact Multiset.mem_add.mpr (.inr (hok k hr))
    refine ⟨?_, ?_, ?_, ?_⟩
    · have := hm.held
      rw [zero_add] at this
      simp only [send, hout, h.calls, this]
      abel
    · have := hm.keys
      rw [zero_add, h.keys, ← howed, add_left_comm] at this
      simp only [send, hout, waiting, hf2]
      exact (add_left_cancel this).symm
    · simp only [send, hout]
      exact hm.fresh
    · simp only [send, hout, hf1, hf2]
      exact h.queue

/-- **Every step keeps the accounts.** -/
theorem inv_step (l : Line) (a : LineAct) (l' : Line) (h : l.Inv) (hok : l.AnswersOnce a)
    (hs : l.step a = some l') : l'.Inv := by
  cases a with
  | incoming m => rw [← Option.some.inj hs]; exact inv_hear h m
  | outgoing r => rw [← Option.some.inj hs]; exact inv_send h r hok

theorem inv_reach (h : Reach step AnswersOnce Start l) : l.Inv := h.inv (fun _ => inv_start) inv_step

theorem held_eq_zero {t : Translator} (h : t.keys = 0) : t.held = 0 := by
  have hc := congrArg Multiset.card h
  simp only [Translator.keys, Multiset.card_add, Multiset.card_map, Multiset.card_zero] at hc
  have h1 : Table.names t.reads = 0 := Multiset.card_eq_zero.mp (by omega)
  have h2 : Table.names t.permissions = 0 := Multiset.card_eq_zero.mp (by omega)
  have h3 : Table.names t.terminalRpcs = 0 := Multiset.card_eq_zero.mp (by omega)
  rw [Translator.held, Table.vals_of_names h1, Table.vals_of_names h2, Table.vals_of_names h3]
  rfl

/-- **Every call of the agent is answered exactly once.** At any time the calls received are the
replies sent and the wire ids in the tables; and when the model owes nothing, they are the replies. -/
theorem answered_once (h : Reach step AnswersOnce Start l) :
    l.calls = l.replies + l.translator.held ∧
      (l.translator.ready = true → l.owed = 0 → l.calls = l.replies) := by
  have hi := inv_reach h
  refine ⟨hi.calls, fun hr ho => ?_⟩
  -- nothing is owed and the queue is empty, so the tables are
  have hk : l.translator.keys = 0 := by rw [hi.keys, ho, waiting, hi.queue hr]; rfl
  rw [hi.calls, held_eq_zero hk, add_zero]

/-- A handshake, one read and its refusal. -/
theorem answered_once_read :
    let l₀ : Line := { translator := (Translator.initializeWith {} {}).1 }
    let l₁ := l₀.hear (.response 1 (.object []))
    let l₂ := l₁.hear (.request 7 "fs/read_text_file" (.object [("path", .string "/a")]))
    let l₃ := l₂.send (.fileContents ⟨0⟩ ⟨1⟩ [.rootDir, .normal "a"] none)
    l₃.calls = l₃.replies ∧ l₃.calls = {7} := by
  intro l₀ l₁ l₂ l₃
  have h₁ : Reach step AnswersOnce Start l₁ :=
    .next (a := .incoming _) (.start ⟨{}, rfl⟩) trivial rfl
  have h₂ : Reach step AnswersOnce Start l₂ := .next (a := .incoming _) h₁ trivial rfl
  have howed : l₂.owed = {.read ⟨1⟩} := by decide
  have h₃ : Reach step AnswersOnce Start l₃ := by
    refine .next (a := .outgoing (.fileContents ⟨0⟩ ⟨1⟩ [.rootDir, .normal "a"] none)) h₂ ?_ rfl
    intro k hk
    rw [howed]
    exact Multiset.mem_singleton.mpr (Option.some.inj hk).symm
  exact ⟨(answered_once h₃).2 (by decide) (by decide), by decide⟩

end Line

end Termesh
