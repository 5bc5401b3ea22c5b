import Termesh.App.Servers

/-!
# The document streams of server processes

A session remembers which documents it has told its server of, over every process that its thread
starts. So a process that is started again is told of changes in documents it never opened, unless
what waits for it opens them.

* `LspDesk.behind`, `LspDesk.Inv`: what is queued, told to the processes behind it, makes them hold
  what the sessions were told;
* **`Inv.course`**, **`Inv.act`**, **`Inv.forward`**, **`step_inv`**: the model, a thread and the
  forwarding loop keep that;
* **`streams_kept`**: processes that are started again with their documents are told no nonsense;
* **`stream_broken`**: a document is open when its server's process exits, and changed afterwards.
-/

namespace Termesh

open Tables Lsp

namespace App

namespace LspDesk

variable {h : Host} {j : Json} {d d' : LspDesk}

/-- The servers' state, with everything that is still in the main loop queued. -/
def lsp (d : LspDesk) : LspState := { d.model.lsp with outbox := d.queue }

/-- The documents that the thread of a server's requests is to make its process hold. -/
def behind (d : LspDesk) (server : LspServerId) : Option Docs :=
  (d.routes.lookup server).bind fun i =>
    (d.threads[i]?).bind fun t => t.session.backlog.bind Docs.nothing.replay

/-- The threads are orderly, and requests are routed to the threads of their servers. -/
structure Routing (d : LspDesk) : Prop where
  orderly : ∀ t ∈ d.threads, t.session.Orderly
  routed : ∀ server i, d.routes.lookup server = some i →
    ∃ t, d.threads[i]? = some t ∧ t.server = server

/-- What is queued makes the processes hold what the sessions were told. -/
structure Inv (d : LspDesk) : Prop where
  sane : d.lsp.Sane
  aligned : ∀ r ∈ d.queue, Aligned r
  routing : d.Routing
  told : d.lsp.Told d.behind

theorem inv_start (hd : d.Start) : d.Inv := by
  obtain ⟨hlsp, htaken, hthreads, hroutes⟩ := hd
  have hqueue : d.queue = [] := by rw [queue, htaken, hlsp]; rfl
  have hsessions : d.lsp.sessions = [] := by rw [lsp, hlsp]
  refine ⟨⟨?_, fun s hs => ?_, fun s hs => ?_⟩, ?_, ⟨?_, fun server i hi => ?_⟩, fun server => ?_⟩
  · rw [hsessions]
    exact List.nodup_nil
  · rw [hsessions] at hs
    cases hs
  · rw [hsessions] at hs
    cases hs
  · rw [hqueue]
    exact List.forall_mem_nil _
  · rw [hthreads]
    exact List.forall_mem_nil _
  · rw [hroutes] at hi
    cases hi
  · refine ⟨d.behind server, ?_, fun s hs => ?_⟩
    · show feedAll _ (addressed d.queue server) = _
      rw [hqueue]
      rfl
    · rw [hsessions] at hs
      cases hs

/-! ### The model moves -/

/-- The main loop has nothing in its hands, and the model changes. -/
theorem Inv.course (hi : d.Inv) (htaken : d.taken = []) {model : Model}
    {D : LspState.Deed → Prop} (hc : d.model.lsp.Course D model.lsp) : Inv { d with model } := by
  have hlsp : d.lsp = d.model.lsp := by rw [lsp, queue, htaken]; rfl
  have hlsp' : lsp { d with model } = model.lsp := by rw [lsp, queue, htaken]; rfl
  have hqueue : ∀ {m : Model}, queue { d with model := m } = m.lsp.outbox := by
    intro m
    rw [queue, htaken]
    rfl
  have hsane := hlsp ▸ hi.sane
  obtain ⟨hsane', htold'⟩ := hc.told hsane (hlsp ▸ hi.told)
  refine ⟨hlsp' ▸ hsane', ?_, ⟨hi.routing.orderly, hi.routing.routed⟩, ?_⟩
  · rw [hqueue]
    exact hc.aligned fun r hr => hi.aligned r (by rw [queue, htaken]; exact hr)
  · rw [hlsp']
    exact htold'

theorem Inv.take (hi : d.Inv) (htaken : d.taken = []) :
    Inv { d with
      model := { d.model with lsp := { d.model.lsp with outbox := [] } }
      taken := d.model.lsp.outbox } := by
  have hqueue : d.model.lsp.outbox ++ [] = d.queue := by rw [queue, htaken, List.append_nil]; rfl
  refine ⟨hi.sane.mono rfl (Nat.le_refl _), ?_, ⟨hi.routing.orderly, hi.routing.routed⟩, ?_⟩
  · show ∀ r ∈ d.model.lsp.outbox ++ [], Aligned r
    rw [hqueue]
    exact hi.aligned
  · intro server
    show ∃ y, feedAll _ (addressed (d.model.lsp.outbox ++ []) server) = some y ∧ _
    rw [hqueue]
    exact hi.told server

/-! ### A thread moves -/

theorem backlog_sent (t : LspThread) (rs : List LspRequest) :
    (sent t rs).session.backlog = t.session.backlog.map (· ++ rs) := by
  unfold Session.backlog sent
  dsimp only
  cases t.session.stage with
  | spawned => rfl
  | running p => simp
  | down => simp
  | ended => rfl

theorem orderly_sent {t : LspThread} (ht : t.session.Orderly) {rs : List LspRequest}
    (hr : ∀ waiting, t.session.backlog = some waiting →
      (Docs.nothing.replay (waiting ++ rs)).isSome) : (sent t rs).session.Orderly where
  past := ht.past
  running := ht.running
  sound waiting hw := by
    rw [backlog_sent] at hw
    obtain ⟨before, hb, rfl⟩ := Option.map_eq_some_iff.mp hw
    exact hr before hb

/-- The documents behind a server, when the thread its requests go to moves, or any other. -/
theorem behind_setThread {i : ℕ} {t t' : LspThread} (ht : d.threads[i]? = some t)
    (server : LspServerId) : (d.setThread i t').behind server =
      if d.routes.lookup server = some i then t'.session.backlog.bind Docs.nothing.replay
      else d.behind server := by
  obtain ⟨hlt, -⟩ := List.getElem?_eq_some_iff.mp ht
  unfold behind setThread
  dsimp only
  cases hroute : d.routes.lookup server with
  | none => rfl
  | some k =>
    by_cases hk : k = i
    · subst hk
      simp [hlt]
    · have hne : ¬ (some k = some i) := fun h => hk (Option.some.inj h)
      rw [if_neg hne, Option.bind_some, Option.bind_some, List.getElem?_set_ne (Ne.symm hk)]

theorem Routing.setThread (hr : d.Routing) {i : ℕ} {t : LspThread} (ht : d.threads[i]? = some t)
    (t' : LspThread) (hserver : t'.server = t.server) (ht' : t'.session.Orderly) :
    (d.setThread i t').Routing where
  orderly t₁ ht₁ := by
    rcases List.mem_or_eq_of_mem_set ht₁ with hmem | rfl
    · exact hr.orderly t₁ hmem
    · exact ht'
  routed server k hk := by
    obtain ⟨t₁, ht₁, hs₁⟩ := hr.routed server k hk
    obtain ⟨hlt, -⟩ := List.getElem?_eq_some_iff.mp ht
    by_cases hki : k = i
    · subst hki
      obtain rfl := Option.some.inj (ht.symm.trans ht₁)
      exact ⟨t', by simp [LspDesk.setThread, hlt], hserver.trans hs₁⟩
    · exact ⟨t₁, by rw [LspDesk.setThread, List.getElem?_set_ne (Ne.symm hki)]; exact ht₁, hs₁⟩

/-- A process that is started again holds nothing that the one before it would not hold. -/
theorem reopened_within {s : Session} (hdown : s.stage = .down) (hs : s.Orderly) {held : Docs}
    (hheld : Docs.nothing.replay s.inbox = some held) {rs : List LspRequest} {y y₀ : Option Docs}
    (hy : feedAll (some held) rs = some y)
    (hy₀ : feedAll (s.backlog.bind Docs.nothing.replay) rs = some y₀) :
    y = y₀ ∨ ∃ e e₀, y = some e ∧ y₀ = some e₀ ∧ Docs.Within e e₀ := by
  have hbacklog : s.backlog = some ((s.past.getLast?.elim [] fun p =>
      requests p.sent ++ p.translator.queued) ++ s.inbox) := by
    rw [Session.backlog, hdown]
  obtain ⟨d₀, hd₀⟩ := Option.isSome_iff_exists.mp (hs.sound _ hbacklog)
  rw [hbacklog, Option.bind_some, hd₀] at hy₀
  obtain ⟨e₀, -, hinbox⟩ := Docs.replay_prefix hd₀
  have hnothing : Docs.Within Docs.nothing e₀ := fun _ => .inr rfl
  exact (hnothing.replay hheld hinbox).feedAll hy hy₀

/-- A thread that is told nothing new: its documents are kept, no longer minded, or opened again. -/
theorem Inv.act (hi : d.Inv) {i : ℕ} {t : LspThread} (ht : d.threads[i]? = some t)
    {deed : Lsp.Deed} {session : Session} {events : List LspEvent}
    (hs : t.session.step j deed = some (session, events))
    (hok : deed = .respawn none → d.Reopens i) :
    Inv (d.setThread i { t with session }) := by
  have hinbox : deed = .respawn none → (Docs.nothing.replay t.session.inbox).isSome := by
    intro hdeed
    obtain ⟨held, hheld, -⟩ := hok hdeed t ht
    rw [hheld]
    rfl
  obtain ⟨horderly, hkept⟩ := step_orderly (hi.routing.orderly t (List.mem_of_getElem? ht)) hinbox hs
  refine ⟨hi.sane, hi.aligned, hi.routing.setThread ht _ rfl horderly, ?_⟩
  have hbehind : ∀ server, d.routes.lookup server = some i →
      d.behind server = t.session.backlog.bind Docs.nothing.replay := by
    intro server hroute
    rw [behind, hroute, Option.bind_some, ht]
    rfl
  rcases hkept with hnone | ⟨rs, rs', hrs, hrs', hsame⟩ | ⟨hdown, hspawned, hsame⟩
  · -- the process is given up
    refine hi.told.forget fun server => ?_
    rw [behind_setThread ht]
    split_ifs
    · exact .inr (by dsimp only; rw [hnone]; rfl)
    · exact .inl rfl
  · refine hi.told.forget fun server => .inl ?_
    rw [behind_setThread ht]
    split_ifs with hroute
    · dsimp only
      rw [hbehind server hroute, hrs, hrs']
      exact hsame
    · rfl
  · -- another process is started, with what waits for it
    obtain ⟨held, hheld, hopens⟩ := hok (respawn_of_down hs hdown hspawned) t ht
    intro server
    rw [behind_setThread ht]
    split_ifs with hroute
    · have hbacklog : session.backlog = some t.session.inbox := by
        rw [Session.backlog, hspawned, hsame]
      have hserver : server = t.server := by
        obtain ⟨t₁, ht₁, hs₁⟩ := hi.routing.routed server i hroute
        obtain rfl := Option.some.inj (ht.symm.trans ht₁)
        exact hs₁.symm
      subst hserver
      obtain ⟨y, hy, hheldopen⟩ := hopens hroute
      obtain ⟨y₀, hy₀, hm⟩ := hi.told t.server
      dsimp only
      rw [hbacklog, Option.bind_some, hheld]
      have hsame := reopened_within hdown (hi.routing.orderly t (List.mem_of_getElem? ht)) hheld hy
        (hbehind _ hroute ▸ hy₀)
      refine ⟨y, hy, fun s hmem hserver e he path => ?_⟩
      have hbooked := hi.sane.booked s hmem path
      rcases hsame with rfl | ⟨e', e₀, rfl, rfl, hwithin⟩
      · exact hm s hmem hserver e he path
      · obtain rfl := Option.some.inj he
        rw [← hm s hmem hserver e₀ rfl path]
        rcases hwithin path with heq | hnone
        · exact heq
        · -- what is not open any more is not remembered either
          by_cases hopen : (s.openDocs.lookup path).isSome
          · have hheld := hheldopen e' rfl s hmem hserver path hopen
            rw [hnone] at hheld
            cases hheld
          · rw [hbooked, ← hm s hmem hserver e₀ rfl path] at hopen
            rw [hnone, Option.not_isSome_iff_eq_none.mp hopen]
    · exact hi.told server

/-! ### The loop forwards a request -/

/-- What is sent to the thread of a server becomes of its documents what it says. -/
theorem Routing.post (hr : d.Routing) {server : LspServerId} {rs : List LspRequest}
    (hx : ∀ held, d.behind server = some held → (held.replay rs).isSome) :
    (d.post server rs).Routing ∧ (d.post server rs).behind =
      Function.update d.behind server ((d.behind server).bind (·.replay rs)) := by
  unfold LspDesk.post
  cases hroute : d.routes.lookup server with
  | none =>
    have hnone : d.behind server = none := by rw [behind, hroute]; rfl
    have hsame : (d.behind server).bind (·.replay rs) = d.behind server := by
      rw [hnone]
      rfl
    refine ⟨hr, ?_⟩
    rw [hsame, Function.update_eq_self]
    rfl
  | some i =>
    obtain ⟨t, ht, hserver⟩ := hr.routed server i hroute
    have hbehind : d.behind server = t.session.backlog.bind Docs.nothing.replay := by
      rw [behind, hroute, Option.bind_some, ht]
      rfl
    rw [Option.bind_some, ht]
    dsimp only [Option.map_some]
    refine ⟨hr.setThread ht _ rfl ?_, ?_⟩
    · refine orderly_sent (hr.orderly t (List.mem_of_getElem? ht)) fun waiting hw => ?_
      obtain ⟨held, hheld⟩ := Option.isSome_iff_exists.mp
        ((hr.orderly t (List.mem_of_getElem? ht)).sound waiting hw)
      rw [Docs.replay_append, hheld]
      exact hx held (by rw [hbehind, hw]; exact hheld)
    · funext server'
      rw [behind_setThread ht]
      by_cases hs : server' = server
      · subst hs
        rw [if_pos hroute, Function.update_self, backlog_sent, hbehind]
        cases t.session.backlog with
        | none => rfl
        | some waiting => exact Docs.replay_append ..
      · rw [Function.update_of_ne hs, if_neg]
        intro hsame
        obtain ⟨t', ht', hserver'⟩ := hr.routed server' i hsame
        obtain rfl := Option.some.inj (ht.symm.trans ht')
        exact hs (hserver'.symm.trans hserver)

theorem Routing.stop (hr : d.Routing) (server : LspServerId) :
    (d.stop server).Routing ∧ (d.stop server).behind = Function.update d.behind server none := by
  have hsome : ∀ held, d.behind server = some held →
      (held.replay [.shutdown, .shutdown]).isSome := fun _ _ => rfl
  obtain ⟨hpost, hbehind⟩ := hr.post hsome
  have hroutes : (d.post server [.shutdown, .shutdown]).routes = d.routes := by
    unfold LspDesk.post
    split <;> rfl
  refine ⟨⟨hpost.orderly, fun server' i hi => ?_⟩, ?_⟩
  · by_cases hs : server' = server
    · subst hs
      have hnone : (d.stop server').routes.lookup server' = none := AList.lookup_erase ..
      rw [hnone] at hi
      cases hi
    · refine hpost.routed server' i ?_
      rw [hroutes, ← AList.lookup_erase_ne hs]
      exact hi
  · funext server'
    by_cases hs : server' = server
    · subst hs
      rw [Function.update_self]
      unfold behind LspDesk.stop
      dsimp only
      rw [AList.lookup_erase]
      rfl
    · rw [Function.update_of_ne hs]
      have hother : (d.stop server).behind server' =
          (d.post server [.shutdown, .shutdown]).behind server' := by
        unfold behind LspDesk.stop
        dsimp only
        rw [AList.lookup_erase_ne hs, hroutes]
      rw [hother, hbehind, Function.update_of_ne hs]

theorem Routing.launch (hr : d.Routing) (server : LspServerId) (root : Path)
    (initializationOptions : Option String) :
    Routing { d with
        threads := d.threads ++ [⟨server, { root, initializationOptions }⟩]
        routes := d.routes.insert server d.threads.length } ∧
      behind { d with
        threads := d.threads ++ [⟨server, { root, initializationOptions }⟩]
        routes := d.routes.insert server d.threads.length } =
        Function.update d.behind server (some Docs.nothing) := by
  have hold : ∀ {server' : LspServerId} {i : ℕ}, d.routes.lookup server' = some i →
      ∃ t, d.threads[i]? = some t ∧ t.server = server' ∧
        (d.threads ++ [⟨server, { root, initializationOptions }⟩])[i]? = some t := by
    intro server' i hi
    obtain ⟨t, ht, hs⟩ := hr.routed server' i hi
    obtain ⟨hlt, -⟩ := List.getElem?_eq_some_iff.mp ht
    exact ⟨t, ht, hs, by rw [List.getElem?_append_left hlt]; exact ht⟩
  refine ⟨⟨fun t ht => ?_, fun server' i hi => ?_⟩, ?_⟩
  · rcases List.mem_append.mp ht with ht | ht
    · exact hr.orderly t ht
    · rw [List.mem_singleton.mp ht]
      refine ⟨List.forall_mem_nil _, (fun p hp => nomatch hp), fun rs hrs => ?_⟩
      obtain rfl := Option.some.inj hrs
      rfl
  · dsimp only at hi ⊢
    by_cases hs : server' = server
    · subst hs
      rw [AList.lookup_insert] at hi
      obtain rfl := Option.some.inj hi
      exact ⟨⟨server', { root, initializationOptions }⟩, by simp, rfl⟩
    · rw [AList.lookup_insert_ne hs] at hi
      obtain ⟨t, -, hserver, ht⟩ := hold hi
      exact ⟨t, ht, hserver⟩
  · funext server'
    unfold behind
    dsimp only
    by_cases hs : server' = server
    · subst hs
      rw [Function.update_self, AList.lookup_insert]
      simp [Session.backlog]
    · rw [Function.update_of_ne hs, AList.lookup_insert_ne hs]
      cases hroute : d.routes.lookup server' with
      | none => rfl
      | some i =>
        obtain ⟨t, ht, -, ht'⟩ := hold hroute
        rw [Option.bind_some, Option.bind_some, ht, ht']

/-- A server that could not be started is shown so, if its session is there. -/
theorem failed_lsp {m m' : Model} {server : LspServerId} {failure : LspFailure}
    (hm : m.onLspEvent h server (.failed none failure) = some m') :
    m'.lsp = m.lsp ∨ ∃ s, m.lsp.session server = some s ∧
      m'.lsp = m.lsp.setSession { s with load := .unavailable failure } := by
  unfold Model.onLspEvent at hm
  split at hm
  · exact .inl (Option.some.inj hm ▸ rfl)
  · rename_i s hs
    refine .inr ⟨s, hs, ?_⟩
    rw [← Option.some.inj hm]
    exact setSession_setSession m.lsp s _ rfl

@[simp] theorem post_model (d : LspDesk) (server : LspServerId) (rs : List LspRequest) :
    (d.post server rs).model = d.model := by
  unfold post
  split <;> rfl

@[simp] theorem post_taken (d : LspDesk) (server : LspServerId) (rs : List LspRequest) :
    (d.post server rs).taken = d.taken := by
  unfold post
  split <;> rfl

theorem post_lsp (d : LspDesk) (server : LspServerId) (rs : List LspRequest) :
    (d.post server rs).queue = d.queue ∧ (d.post server rs).lsp = d.lsp := by
  simp [lsp, queue]

theorem stop_lsp (d : LspDesk) (server : LspServerId) :
    (d.stop server).queue = d.queue ∧ (d.stop server).lsp = d.lsp := post_lsp d server _

section Send

variable {server : LspServerId} {x₁ : Option Docs}

/-- The desk behind a request that is on its way to a process. -/
structure Sending (d : LspDesk) (server : LspServerId) (x₁ : Option Docs) : Prop where
  sane : d.lsp.Sane
  aligned : ∀ r ∈ d.queue, Aligned r
  routing : d.Routing
  told : d.lsp.Told (Function.update d.behind server x₁)

theorem Inv.sending (hi : d.Inv) {r : LspRequest} {rest : List (LspServerId × LspRequest)}
    (htaken : d.taken = (server, r) :: rest) :
    ∃ x₁, feed (d.behind server) r = some x₁ ∧ Sending { d with taken := rest } server x₁ := by
  have hqueue : d.queue = (server, r) :: (rest ++ d.model.lsp.outbox) := by
    rw [queue, htaken]
    rfl
  have hsent : ∃ x₁, feed (d.behind server) r = some x₁ ∧
      (lsp { d with taken := rest }).Told (Function.update d.behind server x₁) :=
    hi.told.sent hqueue rfl rfl
  obtain ⟨x₁, hx₁, htold⟩ := hsent
  refine ⟨x₁, hx₁, hi.sane.mono rfl (Nat.le_refl _), fun q hq => ?_,
    ⟨hi.routing.orderly, hi.routing.routed⟩, htold⟩
  exact hi.aligned q (by rw [hqueue]; exact List.mem_cons_of_mem _ hq)

theorem Sending.post (hd : d.Sending server x₁) {r : LspRequest} (hr : Lasting r)
    (hx₁ : feed (d.behind server) r = some x₁) : (d.post server [r]).Inv := by
  have hone : (d.behind server).bind (·.replay [r]) = x₁ := by
    cases hheld : d.behind server with
    | none =>
      rw [hheld, feed_none hr] at hx₁
      exact Option.some.inj hx₁
    | some held =>
      rw [hheld, feed_some hr] at hx₁
      obtain ⟨held', htell, hsome⟩ := Option.map_eq_some_iff.mp hx₁
      rw [Option.bind_some, Docs.replay_cons, htell, ← hsome]
      rfl
  have hsome : ∀ held, d.behind server = some held → (held.replay [r]).isSome := by
    intro held hheld
    rw [hheld, feed_some hr] at hx₁
    obtain ⟨held', htell, -⟩ := Option.map_eq_some_iff.mp hx₁
    rw [Docs.replay_cons, htell]
    rfl
  obtain ⟨hrouting, hbehind⟩ := hd.routing.post hsome
  obtain ⟨hqueue, hlsp⟩ := post_lsp d server [r]
  refine ⟨hlsp ▸ hd.sane, hqueue ▸ hd.aligned, hrouting, ?_⟩
  rw [hlsp, hbehind, hone]
  exact hd.told

theorem Sending.stop (hd : d.Sending server x₁) : (d.stop server).Inv := by
  obtain ⟨hrouting, hbehind⟩ := hd.routing.stop server
  obtain ⟨hqueue, hlsp⟩ := stop_lsp d server
  refine ⟨hlsp ▸ hd.sane, hqueue ▸ hd.aligned, hrouting, ?_⟩
  rw [hlsp, hbehind]
  refine hd.told.forget fun server' => ?_
  by_cases hs : server' = server
  · subst hs
    exact .inr (Function.update_self ..)
  · exact .inl (by rw [Function.update_of_ne hs, Function.update_of_ne hs])

theorem Sending.start (hd : d.Sending server (some Docs.nothing)) (root : Path)
    (initializationOptions : Option String) :
    Inv { d.stop server with
      threads := (d.stop server).threads ++ [⟨server, { root, initializationOptions }⟩]
      routes := (d.stop server).routes.insert server (d.stop server).threads.length } := by
  obtain ⟨hrouting, hbehind⟩ := hd.routing.stop server
  obtain ⟨hqueue, hlsp⟩ := stop_lsp d server
  obtain ⟨hrouting', hbehind'⟩ := hrouting.launch server root initializationOptions
  have hsane : (d.stop server).lsp.Sane := hlsp ▸ hd.sane
  have haligned : ∀ r ∈ (d.stop server).queue, Aligned r := hqueue ▸ hd.aligned
  refine ⟨hsane, haligned, hrouting', ?_⟩
  rw [hbehind', hbehind, Function.update_idem]
  have htold : (d.stop server).lsp.Told _ := hlsp ▸ hd.told
  exact htold

theorem Inv.refused (hi : d.Inv) {failure : LspFailure} {model : Model}
    (hm : d.model.onLspEvent h server (.failed none failure) = some model) :
    Inv { d with model } := by
  have hact : d.lsp.Course (fun _ => True) (lsp { d with model }) := by
    rcases failed_lsp hm with heq | ⟨s, hs, heq⟩
    · have hsame : lsp { d with model } = d.lsp := by
        unfold lsp queue
        rw [heq]
      rw [hsame]
    · refine .single (.settle hs (s.settled_load (.unavailable failure)) ?_ ?_ ?_ ?_)
      · show model.lsp.sessions = _
        rw [heq]
        rfl
      · show d.taken ++ model.lsp.outbox = _
        rw [heq]
        rfl
      · show model.lsp.nextRequestId = _
        rw [heq]
        rfl
      · show model.lsp.nextServerId = _
        rw [heq]
        rfl
  obtain ⟨hsane, htold⟩ := hact.told hi.sane hi.told
  exact ⟨hsane, hact.aligned hi.aligned, ⟨hi.routing.orderly, hi.routing.routed⟩, htold⟩

end Send

/-- The head of the queue is forwarded. -/
theorem Inv.forward (hi : d.Inv) {server : LspServerId} {r : LspRequest}
    {rest : List (LspServerId × LspRequest)} (htaken : d.taken = (server, r) :: rest)
    {refusal : Option LspFailure}
    (hf : LspDesk.forward h { d with taken := rest } server r refusal = some d') : d'.Inv := by
  obtain ⟨x₁, hx₁, hd⟩ := hi.sending htaken
  have hpost : Lasting r → (LspDesk.post { d with taken := rest } server [r]).Inv :=
    fun hr => hd.post hr hx₁
  cases r with
  | start server' root command language options =>
    have hhead : (server, LspRequest.start server' root command language options) ∈ d.queue := by
      rw [queue, htaken]
      exact List.mem_cons_self
    have hserver : server' = server := hi.aligned _ hhead
    subst hserver
    obtain rfl := Option.some.inj hx₁
    cases refusal with
    | none =>
      obtain rfl := Option.some.inj hf
      exact hd.start root options
    | some failure =>
      obtain ⟨model, hm, rfl⟩ := Option.map_eq_some_iff.mp hf
      exact hd.stop.refused hm
  | shutdown =>
    obtain rfl := Option.some.inj hf
    exact hd.stop
  | _ =>
    obtain rfl := Option.some.inj hf
    exact hpost trivial

/-- **Every turn keeps the invariant**, if what is started again is told of its documents again. -/
theorem step_inv {turn : LspTurn} (hi : d.Inv) (hok : d.Reopening turn)
    (hs : d.step h j turn = some d') : d'.Inv := by
  cases turn with
  | event e =>
    rw [step] at hs
    split_ifs at hs with hturn
    obtain ⟨model, hm, rfl⟩ := Option.map_eq_some_iff.mp hs
    have hne : e ≠ .takeLspRequests := by
      rintro rfl
      exact absurd hturn.2 (by decide)
    exact hi.course hturn.1 (Model.step_speaks hne hm)
  | take =>
    rw [step] at hs
    split_ifs at hs with htaken
    obtain rfl := Option.some.inj hs
    exact hi.take htaken
  | send refusal =>
    rw [step] at hs
    split at hs
    · rename_i htaken
      exact hi.forward htaken hs
    · cases hs
  | act i deed =>
    obtain ⟨t, ht, hs⟩ := Option.bind_eq_some_iff.mp hs
    obtain ⟨⟨session, events⟩, hdeed, rfl⟩ := Option.map_eq_some_iff.mp hs
    have hact := hi.act ht hdeed fun hrespawn => hok i (by rw [hrespawn])
    exact ⟨hact.sane, hact.aligned, ⟨hact.routing.orderly, hact.routing.routed⟩, hact.told⟩
  | handle =>
    rw [step] at hs
    split at hs
    · rename_i htaken _
      obtain ⟨model, hm, rfl⟩ := Option.map_eq_some_iff.mp hs
      have hspeaks := Model.step_speaks (Event.noConfusion : Event.lsp .. ≠ .takeLspRequests) hm
      have hinv := hi.course htaken hspeaks
      exact ⟨hinv.sane, hinv.aligned, ⟨hinv.routing.orderly, hinv.routing.routed⟩, hinv.told⟩
    · cases hs

/-! ## Every run -/

theorem Inv.wellTold (hi : d.Inv) : d.WellTold := by
  intro t ht p hp
  have ho := hi.routing.orderly t ht
  rcases hp with hpast | hrunning
  · exact ho.past p hpast
  · exact (ho.running p hrunning).written (ho.after hrunning)

theorem Inv.mirrored (hi : d.Inv) : d.Mirrored := by
  intro s hs i t p hroute ht hrunning
  have ho := hi.routing.orderly t (List.mem_of_getElem? ht)
  obtain ⟨held, hheld⟩ := Option.isSome_iff_exists.mp (ho.after hrunning)
  have hbehind : d.behind s.server = some held := by
    rw [behind, hroute, Option.bind_some, ht, Option.bind_some, backlog_running hrunning]
    exact hheld
  obtain ⟨y, hy, hm⟩ := hi.told s.server
  rw [hbehind] at hy
  refine ⟨held, y, hheld, hy, fun docs hdocs path hopen => ?_⟩
  rw [hi.sane.booked s hs path] at hopen
  obtain ⟨text, htext⟩ := Option.isSome_iff_exists.mp hopen
  exact ⟨text, htext, (hm s hs rfl docs hdocs path).trans htext⟩

/-- Once nothing is under way to a live process, what its session holds open was opened in it, and
has there the text that the session remembers. -/
theorem Mirrored.opened (hd : d.Mirrored) {s : LspSessionState} (hs : s ∈ d.model.lsp.sessions)
    {i : ℕ} {t : LspThread} {p : Lsp.Process} (hroute : d.routes.lookup s.server = some i)
    (ht : d.threads[i]? = some t) (hrunning : t.session.stage = .running p)
    (hqueued : p.translator.queued = []) (hinbox : t.session.inbox = [])
    (hqueue : addressed d.queue s.server = []) {path : Path}
    (hopen : (s.openDocs.lookup path).isSome) :
    OpenIn path (requests p.sent) ∧ ∃ docs, Docs.nothing.replay (requests p.sent) = some docs ∧
      docs path = s.syncedDocs.lookup path := by
  obtain ⟨held, y, hheld, hy, hdocs⟩ := hd s hs i t p hroute ht hrunning
  rw [hqueued, hinbox, List.append_nil, List.append_nil] at hheld
  rw [hqueue] at hy
  obtain ⟨text, htext, hpath⟩ := hdocs held (Option.some.inj hy).symm path hopen
  refine ⟨(isSome_replay hheld path).mp (by rw [hpath]; rfl), held, hheld, ?_⟩
  rw [hpath, htext]

/-- **Whatever the main loop, the threads and the processes do, in whatever order**: as long as no
process is started again without its documents, every process is told of changes in documents it has
open only, and the live ones hold what their sessions remember. -/
theorem streams_kept (h : Host) (j : Json) {d : LspDesk}
    (hr : Runs.Reach (step h j) Reopening Start d) : d.WellTold ∧ d.Mirrored := by
  have hinv : d.Inv := hr.inv (fun _ => inv_start) fun _ _ _ hi hok hs => step_inv hi hok hs
  exact ⟨hinv.wellTold, hinv.mirrored⟩

/-! ### A process that exits before it is told anything -/

def workspace : Path := [.rootDir, .normal "w"]

def source : Path := [.rootDir, .normal "w", .normal "a.rs"]

/-- A document is opened, and its server is launched and told of it. -/
def launched : List LspTurn :=
  [.event (.openWorkspace workspace [⟨"rust", ["rs"], ⟨workspace, ["rust-analyzer"], none⟩, .idle⟩]),
    .event (.openFile source), .event (.fs (.fileLoaded ⟨1⟩ source (some ['x']))),
    .take, .send none, .send none]

/-- The thread greets its process, which answers. -/
def greeted : List LspTurn :=
  [.act 0 (.connect true none), .act 0 (.message (.response 1 .null) true none)]

/-- A character is typed, and the process told of it. -/
def typed : List LspTurn := [.event (.typeChar 'y'), .take, .send none, .act 0 (.request true none)]

/-- Not a process that is started again. -/
def calm : LspTurn → Bool
  | .act _ (.respawn _) => false
  | _ => true

theorem reopening_of_calm (d : LspDesk) (turn : LspTurn) (hc : calm turn = true) :
    d.Reopening turn := by
  rintro i rfl
  cases hc

/-- The process is gone, and the document waits for the next one. -/
def lost : LspDesk :=
  (Runs.checkedRun (step Host.plain bareJson) (fun _ turn => calm turn) { model := {} }
    (launched ++ [.act 0 (.connect true none), .act 0 (.disconnected none)])).get (by decide +kernel)

def respawned : LspDesk :=
  (lost.step Host.plain bareJson (.act 0 (.respawn none))).get (by decide +kernel)

/-- The next process is told of the document, and of a change in it. -/
def resumed : LspDesk :=
  (Runs.checkedRun (step Host.plain bareJson) (fun _ turn => calm turn) respawned
    (greeted ++ [.act 0 (.request true none)] ++ typed)).get (by decide +kernel)

theorem lost_reopens : lost.Reopens 0 := by
  intro t ht
  have hinbox : t.session.inbox = [.didOpen source "rust" 1 ['x']] := by
    have hall : lost.threads.map (·.session.inbox) = [[.didOpen source "rust" 1 ['x']]] := by
      decide +kernel
    have hfirst := congrArg (·[0]?) hall
    rw [List.getElem?_map, ht] at hfirst
    exact Option.some.inj hfirst
  have hqueue : lost.queue = [] := by decide +kernel
  rw [hinbox, hqueue]
  refine ⟨Function.update Docs.nothing source (some ['x']), rfl, fun _ => ⟨_, rfl, ?_⟩⟩
  intro docs hdocs s hs _ path hopen
  obtain rfl := Option.some.inj hdocs
  have hall : (lost.model.lsp.sessions.all fun s => s.openDocs.keys == [source]) = true := by
    decide +kernel
  have hkeys := List.all_eq_true.mp hall s hs
  have hpath : path ∈ s.openDocs.keys := AList.lookup_isSome.mp hopen
  rw [eq_of_beq hkeys] at hpath
  rw [List.mem_singleton.mp hpath, Function.update_self]
  rfl

theorem streams_kept_resumed : resumed.WellTold ∧ resumed.Mirrored := by
  have hlost : Runs.checkedRun (step Host.plain bareJson) (fun _ turn => calm turn) { model := {} }
      (launched ++ [.act 0 (.connect true none), .act 0 (.disconnected none)]) = some lost :=
    (Option.some_get _).symm
  have hreach : Runs.Reach (step Host.plain bareJson) Reopening Start lost :=
    .of_checkedRun reopening_of_calm _ (.start ⟨rfl, rfl, rfl, rfl⟩) hlost
  have hrespawned : Runs.Reach (step Host.plain bareJson) Reopening Start respawned := by
    refine .next hreach (a := .act 0 (.respawn none)) (fun i hi => ?_) (Option.some_get _).symm
    have hi : 0 = i := (LspTurn.act.inj hi).1
    exact hi ▸ lost_reopens
  exact streams_kept Host.plain bareJson
    (.of_checkedRun reopening_of_calm _ hrespawned (Option.some_get _).symm)

/-! ### A process that exits when a document is open -/

/-- A process whose first request about a document is no `didOpen` is told nonsense. -/
theorem not_wellFormed {sent : List (Option LspRequest × Message)} {r : LspRequest}
    {rest : List LspRequest} {path : Path} (hsent : requests sent = r :: rest)
    (hr : touched r = some path) : ¬ WellFormed sent := by
  intro hwell
  obtain ⟨before, ⟨asked, message⟩, after, rfl, hbefore, hasked, -⟩ :=
    List.filterMap_eq_cons_iff.mp hsent
  obtain rfl : asked = some r := hasked
  obtain ⟨greeting, told, rfl, hopen⟩ := hwell before after r message path rfl hr
  have htold : requests told = [] := List.filterMap_eq_nil_iff.mpr fun letter hl =>
    hbefore letter (List.mem_append_right _ (List.mem_cons_of_mem _ hl))
  rw [htold] at hopen
  exact not_openIn_nil path hopen

/-- The process exits once it has opened the document, and the next one is told of a change. -/
def broken : LspDesk :=
  (Runs.run (step Host.plain bareJson) { model := {} }
    (launched ++ greeted ++ [.act 0 (.request true none), .act 0 (.disconnected none),
      .act 0 (.respawn none)] ++ greeted ++ typed)).get (by decide +kernel)

/-- What the running process of a thread was told. -/
def toldOf (t : LspThread) : List LspRequest :=
  match t.session.stage with
  | .running p => requests p.sent
  | _ => []

theorem stream_broken :
    ¬ ∀ (h : Host) (j : Json) (d : LspDesk), Runs.Reach (step h j) (fun _ _ => True) Start d →
      d.WellTold ∧ d.Mirrored := by
  intro hall
  have hreach : Runs.Reach (step Host.plain bareJson) (fun _ _ => True) Start broken :=
    .of_run (fun _ _ => trivial) _ (.start ⟨rfl, rfl, rfl, rfl⟩) (Option.some_get _).symm
  have hchanged : (broken.threads.any fun t =>
      toldOf t == [.didChange source 2 (some ⟨⟨0, 0⟩, ⟨0, 0⟩⟩) ['y']]) = true := by
    decide +kernel
  obtain ⟨t, ht, hchanged⟩ := List.any_eq_true.mp hchanged
  obtain ⟨htold, -⟩ := hall Host.plain bareJson broken hreach
  have hchanged := eq_of_beq hchanged
  unfold toldOf at hchanged
  split at hchanged
  · rename_i p hrunning
    exact not_wellFormed hchanged rfl (htold t ht p (.inr hrunning))
  · cases hchanged

end LspDesk

end App

end Termesh
