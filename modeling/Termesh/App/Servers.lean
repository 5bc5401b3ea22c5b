import Termesh.App.Talking
import Termesh.Lib.Run
import Termesh.Lsp.Orderly

/-!
# The main loop and its language servers

The main loop takes what the model has queued and forwards it, a request at a time, to the thread of
the server it is for. `Start` replaces that thread. The threads run beside it and publish on one
channel; a process that goes away is started again by its thread, which the model only hears of.

* `LspThread`, `LspDesk`: the model, the threads there have been, and the routes to them;
* `LspDesk.stop`, `LspDesk.forward`: the arms of the forwarding loop;
* `LspTurn`, `LspDesk.step`: what any of them comes to next;
* `LspDesk.Reopens`: what waits for the next process opens every document its session holds open;
* `LspDesk.WellTold`, `LspDesk.Mirrored`: what processes are written, and what they hold;
* `Docs.Within`: two processes told the same, of which one holds less;
* `Aligned`, **`Act.aligned`**: a start is routed to the server it names.
-/

namespace Termesh

open Tables Lsp

namespace App

/-! ## The loop -/

/-- The thread of a session, and the server it speaks for. -/
structure LspThread where
  server : LspServerId
  session : Lsp.Session

/-- The model, what the main loop has taken off it and not forwarded yet, every thread there has
been, the thread the requests to a server go to, and the events not handled yet. -/
structure LspDesk where
  model : Model
  taken : List (LspServerId × LspRequest) := []
  threads : List LspThread := []
  routes : Table LspServerId ℕ := ∅
  channel : List (LspServerId × LspEvent) := []

/-- What comes next, of the main loop or of a thread. -/
inductive LspTurn where
  /-- Anything that happens to the model, but for what servers say. -/
  | event (e : Event)
  /-- The loop takes what is queued. -/
  | take
  /-- It forwards a request; a process may not be there to start. -/
  | send (refusal : Option LspFailure)
  | act (i : ℕ) (deed : Lsp.Deed)
  /-- The loop handles what a server said. -/
  | handle

/-- What is not an event of its own here. -/
def Event.ofServers : Event → Bool
  | .lsp .. | .takeLspRequests => true
  | _ => false

namespace LspDesk

def setThread (d : LspDesk) (i : ℕ) (t : LspThread) : LspDesk :=
  { d with threads := d.threads.set i t }

/-- The thread, once it is sent something. -/
def sent (t : LspThread) (rs : List LspRequest) : LspThread :=
  { t with session := { t.session with inbox := t.session.inbox ++ rs } }

/-- Send something to the thread that a server's requests go to. -/
def post (d : LspDesk) (server : LspServerId) (rs : List LspRequest) : LspDesk :=
  match (d.routes.lookup server).bind fun i => (d.threads[i]?).map (i, ·) with
  | some (i, t) => d.setThread i (sent t rs)
  | none => d

/-- Stop that thread. Its session is told so, and once more when it is dropped. -/
def stop (d : LspDesk) (server : LspServerId) : LspDesk :=
  { d.post server [.shutdown, .shutdown] with routes := d.routes.erase server }

/-- Forward one request. -/
def forward (h : Host) (d : LspDesk) (server : LspServerId) (r : LspRequest)
    (refusal : Option LspFailure) : Option LspDesk :=
  match r with
  | .start server root _ _ initializationOptions =>
    let d := d.stop server
    match refusal with
    | none => some { d with
        threads := d.threads ++ [⟨server, { root, initializationOptions }⟩]
        routes := d.routes.insert server d.threads.length }
    | some failure =>
      (d.model.onLspEvent h server (.failed none failure)).map fun model => { d with model }
  | .shutdown => some (d.stop server)
  | r => some (d.post server [r])

/-- One turn. `none` where it is not this one's turn. -/
def step (h : Host) (j : Json) (d : LspDesk) : LspTurn → Option LspDesk
  | .event e =>
    if d.taken = [] ∧ e.ofServers = false then
      (d.model.step h e).map fun model => { d with model }
    else none
  | .take =>
    if d.taken = [] then
      (d.model.step h .takeLspRequests).map fun model =>
        { d with model, taken := d.model.lsp.outbox }
    else none
  | .send refusal =>
    match d.taken with
    | (server, r) :: taken => { d with taken }.forward h server r refusal
    | [] => none
  | .act i deed =>
    (d.threads[i]?).bind fun t =>
      (t.session.step j deed).map fun (session, events) =>
        { d.setThread i { t with session } with
          channel := d.channel ++ events.map (t.server, ·) }
  | .handle =>
    match d.taken, d.channel with
    | [], (server, e) :: channel =>
      (d.model.onLspEvent h server e).map fun model => { d with model, channel }
    | _, _ => none

/-! ## What is asked of it -/

/-- What is queued in the main loop, taken or not. -/
def queue (d : LspDesk) : List (LspServerId × LspRequest) := d.taken ++ d.model.lsp.outbox

/-- Every document is changed and closed only where it is open, in every process there has been. -/
def WellTold (d : LspDesk) : Prop :=
  ∀ t ∈ d.threads, ∀ p, p ∈ t.session.past ∨ t.session.stage = .running p → WellFormed p.sent

/-- The live process of a session, once it is told what is under way to it, holds every document
that the session holds open, with the text the session remembers. -/
def Mirrored (d : LspDesk) : Prop :=
  ∀ s ∈ d.model.lsp.sessions, ∀ i t p, d.routes.lookup s.server = some i →
    d.threads[i]? = some t → t.session.stage = .running p →
      ∃ held y,
        Docs.nothing.replay (requests p.sent ++ p.translator.queued ++ t.session.inbox) =
          some held ∧
        feedAll (some held) (addressed d.queue s.server) = some y ∧
        ∀ docs, y = some docs → ∀ path, (s.openDocs.lookup path).isSome →
          ∃ text, s.syncedDocs.lookup path = some text ∧ docs path = some text

/-- What waits for the next process of a thread changes and closes only documents that it opens, and
opens every document that the session behind it holds open. -/
def Reopens (d : LspDesk) (i : ℕ) : Prop :=
  ∀ t, d.threads[i]? = some t → ∃ held, Docs.nothing.replay t.session.inbox = some held ∧
    (d.routes.lookup t.server = some i →
      ∃ y, feedAll (some held) (addressed d.queue t.server) = some y ∧
        ∀ docs, y = some docs → ∀ s ∈ d.model.lsp.sessions, s.server = t.server →
          ∀ path, (s.openDocs.lookup path).isSome → (docs path).isSome)

/-- No process is started again unless its documents are opened again. -/
def Reopening (d : LspDesk) (turn : LspTurn) : Prop :=
  ∀ i, turn = .act i (.respawn none) → d.Reopens i

/-- No server has been launched yet. -/
def Start (d : LspDesk) : Prop :=
  d.model.lsp = {} ∧ d.taken = [] ∧ d.threads = [] ∧ d.routes = ∅

end LspDesk

/-! ## Two processes told the same -/

/-- What the one holds, the other holds with the same text. -/
def Docs.Within (d d' : Docs) : Prop := ∀ path, d path = d' path ∨ d path = none

theorem Docs.Within.tell {d d' e e' : Docs} (h : Docs.Within d d') {r : LspRequest}
    (hd : d.tell r = some e) (hd' : d'.tell r = some e') : Docs.Within e e' := by
  have hupdate : ∀ (p : Path) (v : Option Text),
      Docs.Within (Function.update d p v) (Function.update d' p v) := by
    intro p v path
    by_cases hp : path = p
    · subst hp
      exact .inl (by rw [Function.update_self, Function.update_self])
    · rw [Function.update_of_ne hp, Function.update_of_ne hp]
      exact h path
  cases r with
  | didOpen path language version text =>
    obtain rfl := Option.some.inj hd
    obtain rfl := Option.some.inj hd'
    exact hupdate path _
  | didChange path version range new =>
    obtain ⟨old, hold, rfl⟩ := Option.map_eq_some_iff.mp hd
    obtain ⟨old', hold', rfl⟩ := Option.map_eq_some_iff.mp hd'
    have hsame : old = old' := by
      rcases h path with heq | hnone
      · exact Option.some.inj (hold.symm.trans (heq.trans hold'))
      · rw [hold] at hnone
        cases hnone
    subst hsame
    exact hupdate path _
  | didClose path =>
    obtain ⟨old, -, rfl⟩ := Option.map_eq_some_iff.mp hd
    obtain ⟨old', -, rfl⟩ := Option.map_eq_some_iff.mp hd'
    exact hupdate path _
  | _ =>
    obtain rfl := Option.some.inj hd
    obtain rfl := Option.some.inj hd'
    exact h

theorem Docs.Within.replay {d d' e e' : Docs} (h : Docs.Within d d') {rs : List LspRequest}
    (hd : d.replay rs = some e) (hd' : d'.replay rs = some e') : Docs.Within e e' := by
  induction rs generalizing d d' with
  | nil =>
    obtain rfl := Option.some.inj hd
    obtain rfl := Option.some.inj hd'
    exact h
  | cons r rs ih =>
    obtain ⟨d₁, h₁, hd⟩ := Option.bind_eq_some_iff.mp hd
    obtain ⟨d₁', h₁', hd'⟩ := Option.bind_eq_some_iff.mp hd'
    exact ih (h.tell h₁ h₁') hd hd'

theorem Docs.Within.feedAll {d d' : Docs} (h : Docs.Within d d') {rs : List LspRequest}
    {y y' : Option Docs} (hd : feedAll (some d) rs = some y) (hd' : feedAll (some d') rs = some y') :
    y = y' ∨ ∃ e e', y = some e ∧ y' = some e' ∧ Docs.Within e e' := by
  induction rs generalizing d d' with
  | nil => exact .inr ⟨d, d', (Option.some.inj hd).symm, (Option.some.inj hd').symm, h⟩
  | cons r rs ih =>
    obtain ⟨x, hx, hrest⟩ := Option.bind_eq_some_iff.mp hd
    obtain ⟨x', hx', hrest'⟩ := Option.bind_eq_some_iff.mp hd'
    by_cases hr : Lasting r
    · rw [feed_some hr] at hx hx'
      obtain ⟨e, he, rfl⟩ := Option.map_eq_some_iff.mp hx
      obtain ⟨e', he', rfl⟩ := Option.map_eq_some_iff.mp hx'
      exact ih (h.tell he he') hrest hrest'
    · have hsame : x = x' := by
        cases r with
        | start | shutdown => exact Option.some.inj (hx.symm.trans hx')
        | _ => exact absurd trivial hr
      subst hsame
      exact .inl (Option.some.inj (hrest.symm.trans hrest'))

/-! ## What is told, told on -/

section Told

variable {l l' : LspState} {x x' : LspServerId → Option Docs}

/-- Where the process behind a server is no longer minded, nothing is asked of it. -/
theorem LspState.Told.forget (h : l.Told x) (hx : ∀ server, x' server = x server ∨ x' server = none) :
    l.Told x' := by
  intro server
  rcases hx server with heq | hnone
  · rw [heq]
    exact h server
  · obtain ⟨y, hy, hm⟩ := h server
    rw [hnone]
    cases hxs : x server with
    | none =>
      rw [hxs] at hy
      exact ⟨y, hy, hm⟩
    | some d =>
      rw [hxs] at hy
      obtain ⟨y', hy', hor⟩ := feedAll_forget hy
      refine ⟨y', hy', fun s hs hserver e he => ?_⟩
      rcases hor with rfl | rfl
      · cases he
      · exact hm s hs hserver e he

/-- The first request that is queued reaches its process. -/
theorem LspState.Told.sent {server : LspServerId} {r : LspRequest}
    {rest : List (LspServerId × LspRequest)} (h : l.Told x) (ho : l.outbox = (server, r) :: rest)
    (hs : l'.sessions = l.sessions) (ho' : l'.outbox = rest) :
    ∃ x₁, feed (x server) r = some x₁ ∧ l'.Told (Function.update x server x₁) := by
  obtain ⟨y, hy, hm⟩ := h server
  rw [ho, addressed_cons_self, feedAll_cons] at hy
  obtain ⟨x₁, hx₁, hy⟩ := Option.bind_eq_some_iff.mp hy
  refine ⟨x₁, hx₁, fun server' => ?_⟩
  rw [ho', hs]
  by_cases hserver : server' = server
  · subst hserver
    rw [Function.update_self]
    exact ⟨y, hy, hm⟩
  · obtain ⟨y', hy', hm'⟩ := h server'
    rw [ho, addressed_cons_ne _ (Ne.symm hserver)] at hy'
    rw [Function.update_of_ne hserver]
    exact ⟨y', hy', hm'⟩

end Told

/-! ## Starts are for the server they name -/

/-- A request to start a server is routed to that server. -/
def Aligned : LspServerId × LspRequest → Prop
  | (server, .start server' ..) => server' = server
  | _ => True

theorem aligned_of_lasting {r : LspServerId × LspRequest} (h : Lasting r.2) : Aligned r := by
  obtain ⟨server, r⟩ := r
  cases r with
  | start => exact h.elim
  | _ => trivial

theorem lasting_sendChanges (path : Path) (pending : List ChangeSet) (s : LspSessionState)
    (shadow : Text) : ∀ r ∈ (LspState.sendChanges path pending s shadow).2.1, Lasting r := by
  induction pending generalizing s shadow with
  | nil => exact List.forall_mem_nil _
  | cons changes rest ih =>
    unfold LspState.sendChanges
    split_ifs
    · exact List.forall_mem_nil _
    · split
      · exact ih s shadow
      · exact List.forall_mem_cons.mpr ⟨trivial, ih _ _⟩

theorem lasting_syncWith (s : LspSessionState) (path : Path) (text : Text)
    (pending : List ChangeSet) :
    ∀ r ∈ (LspState.syncWith s path text pending).2, Lasting r := by
  unfold LspState.syncWith
  split
  · exact fun r hr => List.mem_singleton.mp hr ▸ trivial
  · have hsent := lasting_sendChanges path pending s ((s.syncedDocs.lookup path).getD text)
    dsimp only
    split_ifs
    · intro r hr
      rcases List.mem_append.mp hr with hr | hr
      · exact hsent r hr
      · simp only [List.mem_cons, List.not_mem_nil, or_false] at hr
        rcases hr with rfl | rfl <;> trivial
    · exact hsent

theorem launchFor_aligned {l l' : LspState} {path : Path} {server : LspServerId}
    (hl : l.launchFor path = some (server, l')) (h : ∀ r ∈ l.outbox, Aligned r) :
    ∀ r ∈ l'.outbox, Aligned r := by
  obtain ⟨i, -, hl⟩ := Option.bind_eq_some_iff.mp hl
  obtain ⟨recipe, -, hl⟩ := Option.map_eq_some_iff.mp hl
  obtain ⟨rfl, rfl⟩ := Prod.mk.inj hl
  intro r hr
  rcases List.mem_append.mp hr with hr | hr
  · exact h r hr
  · exact List.mem_singleton.mp hr ▸ rfl

theorem syncDocument_aligned {l : LspState} (h : ∀ r ∈ l.outbox, Aligned r) (path : Path)
    (text : Text) (pending : List ChangeSet) :
    ∀ r ∈ (l.syncDocument path text pending).outbox, Aligned r := by
  refine syncDocument_rule (P := fun l => ∀ r ∈ l.outbox, Aligned r) (fun _ _ h => h)
    (fun _ _ _ h hl => launchFor_aligned hl h) (fun l s h _ r hr => ?_) h
  rcases List.mem_append.mp hr with hr | hr
  · exact h r hr
  · obtain ⟨message, hm, rfl⟩ := List.mem_map.mp hr
    exact aligned_of_lasting (lasting_syncWith s path text pending message hm)

/-- Whatever is queued by a change starts the server it is for. -/
theorem LspState.Act.aligned {D : LspState.Deed → Prop} {l l' : LspState} (ha : l.Act D l')
    (h : ∀ r ∈ l.outbox, Aligned r) : ∀ r ∈ l'.outbox, Aligned r := by
  have happend : ∀ {l₁ : LspState} (rs : List (LspServerId × LspRequest)),
      (∀ r ∈ l₁.outbox, Aligned r) → (∀ r ∈ rs, Aligned r) → ∀ r ∈ l₁.outbox ++ rs, Aligned r :=
    fun rs h₁ hrs r hr => (List.mem_append.mp hr).elim (h₁ r) (hrs r)
  cases ha with
  | sync path text pending => exact syncDocument_aligned h path text pending
  | close path =>
    unfold LspState.closeDocument
    split
    · exact h
    · dsimp only
      split_ifs
      · exact happend [_] h fun r hr => List.mem_singleton.mp hr ▸ trivial
      · exact h
  | restart =>
    refine happend _ h fun r hr => ?_
    obtain ⟨s, -, rfl⟩ := List.mem_map.mp hr
    rfl
  | request server kind params =>
    rcases request_spec l server kind params with ⟨-, heq⟩ | ⟨s, -, heq⟩
    · rw [heq]
      exact h
    · rw [heq]
      refine happend _ h fun r hr => ?_
      obtain ⟨asked, hasked, rfl⟩ := List.mem_map.mp hr
      refine aligned_of_lasting ?_
      rcases List.mem_append.mp hasked with hmem | hmem
      · obtain ⟨id, -, rfl⟩ := List.mem_map.mp hmem
        trivial
      · exact List.mem_singleton.mp hmem ▸ trivial
  | tell rs hrs =>
    refine happend rs h fun r hr => aligned_of_lasting ?_
    have hnotice := hrs r hr
    cases hr' : r.2 <;> rw [hr'] at hnotice <;> trivial
  | settle hs hsettled hss ho => exact ho ▸ h
  | idle hs ho => exact ho ▸ h
  | reopen configured =>
    refine happend _ h fun r hr => ?_
    obtain ⟨s, -, rfl⟩ := List.mem_map.mp hr
    trivial

theorem LspState.Course.aligned {D : LspState.Deed → Prop} {l l' : LspState} (hc : l.Course D l')
    (h : ∀ r ∈ l.outbox, Aligned r) : ∀ r ∈ l'.outbox, Aligned r := by
  induction hc with
  | refl => exact h
  | tail _ ha ih => exact ha.aligned ih

end App

end Termesh
