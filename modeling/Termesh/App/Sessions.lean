import Termesh.App.LspState

/-!
# Sessions and their queues

What is queued for a server reaches the process behind it. A change of the sessions is sound when
what it queues leaves each process as its session takes it to be, whatever is meant by that.

* `addressed`: what is queued for a server;
* `Booked`, `Sane`: the books of one session, and of all;
* `Posted`: what is queued leaves every process as its session takes it to be;
* **`syncDocument_cases`**: what a document that is told can do;
* **`syncDocument_posted`**, **`closeDocument_posted`**, **`restart_posted`**: every change is sound
  if its requests are.
-/

namespace Termesh

open Tables

namespace App

/-! ## What is queued -/

/-- What is queued for a server. -/
def addressed (outbox : List (LspServerId × LspRequest)) (server : LspServerId) :
    List LspRequest :=
  (outbox.filter (·.1 = server)).map Prod.snd

section Queue

variable {rs rs' : List (LspServerId × LspRequest)} {server server' : LspServerId}

theorem addressed_append : addressed (rs ++ rs') server =
    addressed rs server ++ addressed rs' server := by
  rw [addressed, List.filter_append, List.map_append]
  rfl

theorem addressed_cons_self (r : LspRequest) :
    addressed ((server, r) :: rs) server = r :: addressed rs server := by
  simp [addressed]

theorem addressed_cons_ne (r : LspRequest) (h : server' ≠ server) :
    addressed ((server', r) :: rs) server = addressed rs server := by
  simp [addressed, h]

theorem addressed_map_self (messages : List LspRequest) :
    addressed (messages.map (server, ·)) server = messages := by
  induction messages with
  | nil => rfl
  | cons r messages ih => rw [List.map_cons, addressed_cons_self, ih]

theorem addressed_map_ne (messages : List LspRequest) (h : server' ≠ server) :
    addressed (messages.map (server', ·)) server = [] := by
  induction messages with
  | nil => rfl
  | cons r messages ih => rw [List.map_cons, addressed_cons_ne r h, ih]

theorem mem_addressed {r : LspRequest} : r ∈ addressed rs server ↔ (server, r) ∈ rs := by
  simp [addressed]

end Queue

/-! ## One session -/

/-- A session remembers a text for exactly the documents it holds open. -/
def LspSessionState.Booked (s : LspSessionState) : Prop :=
  ∀ path, (s.openDocs.lookup path).isSome = (s.syncedDocs.lookup path).isSome

/-- A session that has spent versions on documents it holds open. -/
structure LspSessionState.Spent (s s' : LspSessionState) : Prop where
  server : s'.server = s.server
  syncedDocs : s'.syncedDocs = s.syncedDocs
  openDocs : ∀ p, (s'.openDocs.lookup p).isSome = (s.openDocs.lookup p).isSome

theorem isSome_lookup_insert {ν : Type*} (t : Table Path ν) (path p : Path) (v : ν) :
    ((t.insert path v).lookup p).isSome = (decide (p = path) || (t.lookup p).isSome) := by
  by_cases hp : p = path
  · rw [hp, AList.lookup_insert]
    simp
  · rw [AList.lookup_insert_ne hp]
    simp [hp]

theorem isSome_lookup_erase {ν : Type*} (t : Table Path ν) (path p : Path) :
    ((t.erase path).lookup p).isSome = (!decide (p = path) && (t.lookup p).isSome) := by
  by_cases hp : p = path
  · rw [hp, AList.lookup_erase]
    simp
  · rw [AList.lookup_erase_ne hp]
    simp [hp]

theorem spent_bump {path : Path} {s : LspSessionState} (h : (s.openDocs.lookup path).isSome) :
    s.Spent (s.bump path) where
  server := rfl
  syncedDocs := rfl
  openDocs p := by
    rw [LspSessionState.bump, isSome_lookup_insert]
    by_cases hp : p = path
    · subst hp
      simp [h]
    · simp [hp]

theorem sendChanges_spent (path : Path) (pending : List ChangeSet) (s : LspSessionState)
    (shadow : Text) (h : (s.openDocs.lookup path).isSome) :
    s.Spent (LspState.sendChanges path pending s shadow).1 := by
  induction pending generalizing s shadow with
  | nil => exact ⟨rfl, rfl, fun _ => rfl⟩
  | cons changes rest ih =>
    unfold LspState.sendChanges
    split_ifs
    · exact ⟨rfl, rfl, fun _ => rfl⟩
    · cases changes.changedSpan with
      | none => exact ih s shadow h
      | some span =>
        have hbump := spent_bump h
        obtain ⟨hserver, hsynced, hopen⟩ := ih (s.bump path) (changes.apply shadow)
          ((hbump.openDocs path).trans h)
        exact ⟨hserver, hsynced, fun p => (hopen p).trans (hbump.openDocs p)⟩

theorem sendChanges_extensions (path : Path) (pending : List ChangeSet) (s : LspSessionState)
    (shadow : Text) : (LspState.sendChanges path pending s shadow).1.extensions = s.extensions := by
  induction pending generalizing s shadow with
  | nil => rfl
  | cons changes rest ih =>
    unfold LspState.sendChanges
    split_ifs
    · rfl
    · cases changes.changedSpan with
      | none => exact ih s shadow
      | some span => exact ih (s.bump path) (changes.apply shadow)

/-- **A session that is told of a document remembers its text.** -/
theorem syncWith_books (s : LspSessionState) (path : Path) (text : Text) (pending : List ChangeSet)
    (h : s.Booked) :
    (LspState.syncWith s path text pending).1.server = s.server ∧
      (LspState.syncWith s path text pending).1.extensions = s.extensions ∧
      (LspState.syncWith s path text pending).1.syncedDocs = s.syncedDocs.insert path text ∧
      (LspState.syncWith s path text pending).1.Booked := by
  unfold LspState.syncWith
  cases hopen : s.openDocs.lookup path with
  | none =>
    refine ⟨rfl, rfl, rfl, fun p => ?_⟩
    dsimp only [LspSessionState.bump]
    rw [isSome_lookup_insert, isSome_lookup_insert, h p]
  | some version =>
    have hsome : (s.openDocs.lookup path).isSome := by rw [hopen]; rfl
    dsimp only
    generalize (s.syncedDocs.lookup path).getD text = shadow
    have hspent := sendChanges_spent path pending s shadow hsome
    have hext := sendChanges_extensions path pending s shadow
    generalize LspState.sendChanges path pending s shadow = sent at hspent hext
    obtain ⟨s', messages, shadow', lost⟩ := sent
    dsimp only at hspent hext ⊢
    split_ifs with hlost
    · refine ⟨hspent.server, hext, ?_, fun p => ?_⟩
      · dsimp only [LspSessionState.bump]
        rw [hspent.syncedDocs]
      · dsimp only [LspSessionState.bump]
        rw [isSome_lookup_insert, isSome_lookup_insert, hspent.openDocs, hspent.syncedDocs, h p]
    · obtain ⟨-, htext⟩ := not_or.mp hlost
      refine ⟨hspent.server, hext, ?_, fun p => ?_⟩
      · dsimp only
        rw [hspent.syncedDocs, not_not.mp htext]
      · dsimp only
        rw [isSome_lookup_insert, hspent.openDocs, hspent.syncedDocs, h p]
        by_cases hp : p = path
        · subst hp
          rw [← h p, hsome, Bool.or_true]
        · simp [hp]

/-! ## All sessions -/

/-- Servers have ids of their own, given out in order. -/
structure LspState.Sane (l : LspState) : Prop where
  nodup : (l.sessions.map (·.server)).Nodup
  below : ∀ s ∈ l.sessions, s.server.val ≤ l.nextServerId
  booked : ∀ s ∈ l.sessions, s.Booked

/-- What is queued can be told to the processes there are, and leaves each as its session takes it
to be. -/
def LspState.Posted {X : Type*} (l : LspState) (f : X → LspRequest → Option X)
    (R : LspSessionState → X → Prop) (x : LspServerId → X) : Prop :=
  ∀ server, ∃ y, (addressed l.outbox server).foldlM f (x server) = some y ∧
    ∀ s ∈ l.sessions, s.server = server → R s y

theorem mem_setSession {l : LspState} {s t : LspSessionState}
    (ht : t ∈ (l.setSession s).sessions) : t = s ∨ t ∈ l.sessions ∧ t.server ≠ s.server := by
  obtain ⟨t₀, hmem, rfl⟩ := List.mem_map.mp ht
  split_ifs with hserver
  · exact .inl rfl
  · exact .inr ⟨hmem, hserver⟩

theorem session_spec {l : LspState} {server : LspServerId} {s : LspSessionState}
    (h : l.session server = some s) : s ∈ l.sessions ∧ s.server = server := by
  have hserver := List.find?_some h
  exact ⟨List.mem_of_find?_eq_some h, by simpa using hserver⟩

section Processes

variable {X : Type*} {f : X → LspRequest → Option X} {R : LspSessionState → X → Prop}
  {l l' : LspState} {x : LspServerId → X}

theorem LspState.Posted.extend (h : l.Posted f R x) (rs : List (LspServerId × LspRequest))
    (hq : l'.outbox = l.outbox ++ rs)
    (hstep : ∀ server y, (∀ s ∈ l.sessions, s.server = server → R s y) →
      ∃ y', (addressed rs server).foldlM f y = some y' ∧
        ∀ s ∈ l'.sessions, s.server = server → R s y') : l'.Posted f R x := by
  intro server
  obtain ⟨y, hy, hm⟩ := h server
  obtain ⟨y', hy', hm'⟩ := hstep server y hm
  refine ⟨y', ?_, hm'⟩
  rw [hq, addressed_append, List.foldlM_append, hy]
  exact hy'

theorem LspState.Posted.same (h : l.Posted f R x) (hs : l'.sessions = l.sessions)
    (ho : l'.outbox = l.outbox) : l'.Posted f R x := by
  intro server
  rw [hs, ho]
  exact h server

theorem LspState.Posted.one (h : l.Posted f R x) {s s' : LspSessionState} (hs : s ∈ l.sessions)
    (hserver : s'.server = s.server) {messages : List LspRequest}
    (ht : ∀ y, R s y → ∃ y', messages.foldlM f y = some y' ∧ R s' y')
    (ho : l'.outbox = l.outbox ++ messages.map (s.server, ·))
    (hss : l'.sessions = (l.setSession s').sessions) : l'.Posted f R x := by
  refine h.extend _ ho fun server y hm => ?_
  by_cases hmine : server = s.server
  · subst hmine
    rw [addressed_map_self]
    obtain ⟨y', hy', hm'⟩ := ht y (hm s hs rfl)
    refine ⟨y', hy', fun t hmem hts => ?_⟩
    rw [hss] at hmem
    rcases mem_setSession hmem with rfl | ⟨-, hne⟩
    · exact hm'
    · exact absurd (hts.trans hserver.symm) hne
  · rw [addressed_map_ne _ (Ne.symm hmine)]
    refine ⟨y, rfl, fun t hmem hts => ?_⟩
    rw [hss] at hmem
    rcases mem_setSession hmem with rfl | ⟨hmem, -⟩
    · exact absurd (hts.symm.trans hserver) hmine
    · exact hm t hmem hts

end Processes

section Sanity

variable {l l' : LspState}

theorem LspState.Sane.mono (h : l.Sane) (hs : l'.sessions = l.sessions)
    (hn : l.nextServerId ≤ l'.nextServerId) : l'.Sane where
  nodup := by
    rw [hs]
    exact h.nodup
  below s hmem := (h.below s (hs ▸ hmem)).trans hn
  booked s hmem := h.booked s (hs ▸ hmem)

theorem servers_setSession (l : LspState) (s : LspSessionState) :
    (l.setSession s).sessions.map (·.server) = l.sessions.map (·.server) := by
  rw [LspState.setSession, List.map_map]
  refine List.map_congr_left fun t _ => ?_
  by_cases h : t.server = s.server
  · simp [h]
  · simp [h]

theorem LspState.session_of_mem (h : (l.sessions.map (·.server)).Nodup) {s : LspSessionState}
    (hs : s ∈ l.sessions) : l.session s.server = some s := by
  have hsome : (l.session s.server).isSome := by
    rw [session, List.find?_isSome]
    exact ⟨s, hs, by simp⟩
  obtain ⟨t, ht⟩ := Option.isSome_iff_exists.mp hsome
  obtain ⟨hmem, hserver⟩ := session_spec ht
  exact List.inj_on_of_nodup_map h hmem hs hserver ▸ ht

theorem LspState.session_setSession {server : LspServerId} {s s' : LspSessionState}
    (hs : l.session server = some s) (hserver : s'.server = s.server) (server' : LspServerId) :
    (l.setSession s').session server' =
      if server' = server then some s' else l.session server' := by
  obtain ⟨-, rfl⟩ := session_spec hs
  rw [session, setSession, List.find?_map]
  have hsame : (fun t : LspSessionState => decide (t.server = server')) ∘
      (fun t => if t.server = s'.server then s' else t) = fun t => decide (t.server = server') := by
    funext t
    dsimp only [Function.comp]
    split_ifs with ht
    · rw [ht]
    · rfl
  rw [hsame]
  split_ifs with hmine
  · subst hmine
    rw [show List.find? _ l.sessions = some s from hs, Option.map_some, if_pos hserver.symm]
  · cases hfound : l.session server' with
    | none =>
      rw [show List.find? _ l.sessions = none from hfound]
      rfl
    | some t =>
      have ht := (session_spec hfound).2
      rw [show List.find? _ l.sessions = some t from hfound, Option.map_some,
        if_neg (by rw [ht, hserver]; exact hmine)]

theorem LspState.serverFor_of_roster (h : l'.sessions.map (fun s => (s.server, s.extensions)) =
    l.sessions.map fun s => (s.server, s.extensions)) (path : Path) :
    l'.serverFor path = l.serverFor path := by
  have hroster : ∀ l : LspState, l.serverFor path =
      ((l.sessions.map fun s => (s.server, s.extensions)).find? fun e => claims e.2 path).map
        Prod.fst := fun l => by
    rw [serverFor, List.find?_map, Option.map_map]
    rfl
  rw [hroster, hroster, h]

theorem LspState.serverFor_setSession (h : (l.sessions.map (·.server)).Nodup)
    {s s' : LspSessionState} (hs : s ∈ l.sessions) (hserver : s'.server = s.server)
    (hext : s'.extensions = s.extensions) (path : Path) :
    (l.setSession s').serverFor path = l.serverFor path := by
  refine serverFor_of_roster ?_ path
  rw [setSession, List.map_map]
  refine List.map_congr_left fun t ht => ?_
  dsimp only [Function.comp]
  split_ifs with hmine
  · rw [← List.inj_on_of_nodup_map h hs ht (hserver.symm.trans hmine.symm), hserver, hext]
  · rfl

theorem LspState.Sane.set (h : l.Sane) {s s' : LspSessionState} (hs : s ∈ l.sessions)
    (hserver : s'.server = s.server) (hb : s'.Booked)
    (hss : l'.sessions = (l.setSession s').sessions) (hn : l'.nextServerId = l.nextServerId) :
    l'.Sane where
  nodup := by
    rw [hss, servers_setSession]
    exact h.nodup
  below t ht := by
    rw [hn]
    rw [hss] at ht
    rcases mem_setSession ht with rfl | ⟨ht, -⟩
    · rw [hserver]
      exact h.below s hs
    · exact h.below t ht
  booked t ht := by
    rw [hss] at ht
    rcases mem_setSession ht with rfl | ⟨ht, -⟩
    · exact hb
    · exact h.booked t ht

end Sanity

/-! ## Each change -/

section Posting

variable {X : Type*} {f : X → LspRequest → Option X} {R : LspSessionState → X → Prop}
  {l l' : LspState} {x : LspServerId → X}

theorem launchFor_spec {path : Path} {server : LspServerId} (hl : l.launchFor path = some (server, l')) :
    ∃ recipe ∈ l.configured, recipe.load = .idle ∧ claims recipe.extensions path = true ∧
      server = ⟨l.nextServerId + 1⟩ ∧ l'.nextServerId = l.nextServerId + 1 ∧
      l'.configured.Sublist l.configured ∧ ∃ s : LspSessionState, s.server = server ∧
        s.extensions = recipe.extensions ∧ s.openDocs = ∅ ∧ s.syncedDocs = ∅ ∧
        s.nextDocVersion = 0 ∧ l'.sessions = l.sessions ++ [s] ∧
        l'.outbox = l.outbox ++ [(server, LspState.startRequest s)] := by
  obtain ⟨i, hi, hl⟩ := Option.bind_eq_some_iff.mp hl
  obtain ⟨recipe, hrecipe, hl⟩ := Option.map_eq_some_iff.mp hl
  obtain ⟨rfl, rfl⟩ := Prod.mk.inj hl
  obtain ⟨hlt, hfound, -⟩ := List.findIdx?_eq_some_iff_getElem.mp hi
  obtain ⟨-, rfl⟩ := List.getElem?_eq_some_iff.mp hrecipe
  obtain ⟨hidle, hclaims⟩ := Bool.and_eq_true_iff.mp hfound
  exact ⟨_, List.getElem_mem hlt, eq_of_beq hidle, hclaims, rfl, rfl, List.eraseIdx_sublist _ _,
    _, rfl, rfl, rfl, rfl, rfl, rfl, rfl⟩

theorem launchFor_posted (hsane : l.Sane) (h : l.Posted f R x)
    (hstart : ∀ s, s.syncedDocs = ∅ → s.nextDocVersion = 0 → ∀ y,
      ∃ y', f y (LspState.startRequest s) = some y' ∧ R s y') {path : Path} {server : LspServerId}
    (hl : l.launchFor path = some (server, l')) : l'.Sane ∧ l'.Posted f R x := by
  obtain ⟨recipe, -, -, -, rfl, hnext, -, s₁, hid, -, hopen, hsynced, hversion, hss, ho⟩ :=
    launchFor_spec hl
  have hfresh : ∀ s ∈ l.sessions, s.server ≠ ⟨l.nextServerId + 1⟩ := fun s hs heq => by
    have hbelow := hsane.below s hs
    rw [heq] at hbelow
    exact Nat.not_succ_le_self _ hbelow
  have hmem : ∀ s ∈ l'.sessions, s ∈ l.sessions ∨ s = s₁ := fun s hs => by
    rw [hss] at hs
    exact (List.mem_append.mp hs).imp_right List.mem_singleton.mp
  refine ⟨⟨?_, fun s hs => ?_, fun s hs => ?_⟩, h.extend _ ho fun server y hm => ?_⟩
  · rw [hss, List.map_append, List.map_singleton, ← List.concat_eq_append, List.nodup_concat]
    refine ⟨fun hold => ?_, hsane.nodup⟩
    obtain ⟨s, hs, heq⟩ := List.mem_map.mp hold
    exact hfresh s hs (heq.trans hid)
  · rw [hnext]
    rcases hmem s hs with hs | rfl
    · exact Nat.le_succ_of_le (hsane.below s hs)
    · rw [hid]
  · rcases hmem s hs with hs | rfl
    · exact hsane.booked s hs
    · intro p
      rw [hopen, hsynced]
      rfl
  · by_cases hnew : server = ⟨l.nextServerId + 1⟩
    · subst hnew
      rw [addressed_cons_self]
      obtain ⟨y', hy', hm'⟩ := hstart s₁ hsynced hversion y
      refine ⟨y', by rw [List.foldlM_cons, hy']; rfl, fun s hs hserver => ?_⟩
      rcases hmem s hs with hs | rfl
      · exact absurd hserver (hfresh s hs)
      · exact hm'
    · refine ⟨y, by rw [addressed_cons_ne _ (Ne.symm hnew)]; rfl, fun s hs hserver => ?_⟩
      rcases hmem s hs with hs | rfl
      · exact hm s hs hserver
      · exact absurd (hserver.symm.trans hid) hnew

theorem session_of_serverFor {path : Path} {server : LspServerId}
    (h : l.serverFor path = some server) : ∃ s ∈ l.sessions, l.session server = some s := by
  obtain ⟨s, hs, rfl⟩ := Option.map_eq_some_iff.mp h
  have hmem := List.mem_of_find?_eq_some hs
  have hsome : (l.session s.server).isSome := by
    rw [LspState.session, List.find?_isSome]
    exact ⟨s, hmem, by simp⟩
  obtain ⟨t, ht⟩ := Option.isSome_iff_exists.mp hsome
  exact ⟨t, (session_spec ht).1, ht⟩

theorem launchFor_serverFor {path : Path} {server : LspServerId} (hfor : l.serverFor path = none)
    (hl : l.launchFor path = some (server, l')) : l'.serverFor path = some server := by
  obtain ⟨recipe, -, -, hclaims, -, -, -, s, hid, hext, -, -, -, hss, -⟩ := launchFor_spec hl
  rw [LspState.serverFor, hss, List.find?_append, Option.map_eq_none_iff.mp hfor, Option.none_or,
    List.find?_singleton, hext, hclaims]
  exact congrArg some hid

/-- **What a document that is told can do**: what was published is put aside, a server is launched if
none claims the document, and the session that claims it is told. -/
theorem syncDocument_cases (l : LspState) (path : Path) (text : Text) (pending : List ChangeSet) :
    ∃ diagnostics l₁, (l₁ = { l with diagnostics } ∨ l.serverFor path = none ∧
      ∃ server, { l with diagnostics }.launchFor path = some (server, l₁)) ∧
      (l.syncDocument path text pending = l₁ ∧ l₁.serverFor path = none ∧
          l₁.launchFor path = none ∨
        ∃ s ∈ l₁.sessions, l₁.serverFor path = some s.server ∧
          l.syncDocument path text pending =
            { l₁.setSession (LspState.syncWith s path text pending).1 with
              outbox := l₁.outbox ++
                (LspState.syncWith s path text pending).2.map (s.server, ·) }) := by
  obtain ⟨diagnostics, hcleared⟩ : ∃ diagnostics, (if pending.isEmpty then l else
      { l with diagnostics := l.diagnostics.erase path }) = { l with diagnostics } := by
    split_ifs
    · exact ⟨l.diagnostics, rfl⟩
    · exact ⟨_, rfl⟩
  have htell : ∀ l₁ server, LspState.serverFor l₁ path = some server → ∃ s ∈ l₁.sessions,
      l₁.serverFor path = some s.server ∧ l₁.session server = some s := by
    intro l₁ server hfor
    obtain ⟨s, hs, hsession⟩ := session_of_serverFor hfor
    exact ⟨s, hs, (session_spec hsession).2 ▸ hfor, hsession⟩
  unfold LspState.syncDocument
  dsimp only
  rw [hcleared]
  have hsame : LspState.serverFor { l with diagnostics } path = l.serverFor path := rfl
  cases hfor : l.serverFor path with
  | some server =>
    obtain ⟨s, hs, hserves, hsession⟩ := htell { l with diagnostics } server (hsame.trans hfor)
    refine ⟨diagnostics, { l with diagnostics }, .inl rfl, .inr ⟨s, hs, hserves, ?_⟩⟩
    rw [hsame, hfor, Option.map_some]
    dsimp only [HOrElse.hOrElse, OrElse.orElse, Option.orElse]
    rw [hsession, (session_spec hsession).2]
  | none =>
    rw [hsame, hfor, Option.map_none]
    dsimp only [HOrElse.hOrElse, OrElse.orElse, Option.orElse]
    cases hlaunch : LspState.launchFor { l with diagnostics } path with
    | none => exact ⟨diagnostics, _, .inl rfl, .inl ⟨rfl, hsame.trans hfor, hlaunch⟩⟩
    | some r =>
      obtain ⟨server, l₁⟩ := r
      obtain ⟨s, hs, hserves, hsession⟩ :=
        htell l₁ server (launchFor_serverFor (hsame.trans hfor) hlaunch)
      refine ⟨diagnostics, l₁, .inr ⟨rfl, server, hlaunch⟩, .inr ⟨s, hs, hserves, ?_⟩⟩
      dsimp only
      rw [hsession, (session_spec hsession).2]

/-- The session without a document. -/
def LspSessionState.without (s : LspSessionState) (path : Path) : LspSessionState :=
  { s with openDocs := s.openDocs.erase path, syncedDocs := s.syncedDocs.erase path }

theorem without_booked {s : LspSessionState} (h : s.Booked) (path : Path) :
    (s.without path).Booked := fun p => by
  dsimp only [LspSessionState.without]
  rw [isSome_lookup_erase, isSome_lookup_erase, h p]

theorem closeDocument_posted (hsane : l.Sane) (h : l.Posted f R x) (path : Path)
    (hclose : ∀ s ∈ l.sessions, (s.openDocs.lookup path).isSome → ∀ y, R s y →
      ∃ y', f y (.didClose path) = some y' ∧ R (s.without path) y') :
    (l.closeDocument path).Sane ∧ (l.closeDocument path).Posted f R x := by
  unfold LspState.closeDocument
  split
  · exact ⟨hsane, h⟩
  · rename_i s hs
    obtain ⟨server, -, hs⟩ := Option.bind_eq_some_iff.mp hs
    obtain ⟨hmem, rfl⟩ := session_spec hs
    by_cases hopen : (s.openDocs.lookup path).isSome
    · rw [if_pos hopen]
      have hserver : (s.without path).server = s.server := rfl
      have hbooked := without_booked (hsane.booked s hmem) path
      have htold : ∀ y, R s y → ∃ y', [LspRequest.didClose path].foldlM f y = some y' ∧
          R (s.without path) y' := fun y hy => by
        obtain ⟨y', hy', hm'⟩ := hclose s hmem hopen y hy
        exact ⟨y', by rw [List.foldlM_cons, hy']; rfl, hm'⟩
      exact ⟨hsane.set hmem hserver hbooked rfl rfl, h.one hmem hserver htold rfl rfl⟩
    · rw [if_neg hopen]
      exact ⟨hsane.mono rfl (Nat.le_refl _), h.same rfl rfl⟩

theorem addressed_each {ss : List LspSessionState} (hnd : (ss.map (·.server)).Nodup)
    (request : LspSessionState → LspRequest) (server : LspServerId) :
    (∃ s ∈ ss, s.server = server ∧
        addressed (ss.map fun s => (s.server, request s)) server = [request s]) ∨
      (∀ s ∈ ss, s.server ≠ server) ∧
        addressed (ss.map fun s => (s.server, request s)) server = [] := by
  induction ss with
  | nil => exact .inr ⟨List.forall_mem_nil _, rfl⟩
  | cons s ss ih =>
    obtain ⟨hnot, hnd⟩ := List.nodup_cons.mp hnd
    rw [List.map_cons]
    by_cases hs : s.server = server
    · subst hs
      have hrest : ∀ t ∈ ss, t.server ≠ s.server := fun t ht heq =>
        hnot (List.mem_map.mpr ⟨t, ht, heq⟩)
      rcases ih hnd with ⟨t, ht, heq, -⟩ | ⟨-, hnone⟩
      · exact absurd heq (hrest t ht)
      · refine .inl ⟨s, List.mem_cons_self, rfl, ?_⟩
        rw [addressed_cons_self, hnone]
    · rw [addressed_cons_ne _ hs]
      rcases ih hnd with ⟨t, ht, heq, hone⟩ | ⟨hall, hnone⟩
      · exact .inl ⟨t, List.mem_cons_of_mem s ht, heq, hone⟩
      · exact .inr ⟨List.forall_mem_cons.mpr ⟨hs, hall⟩, hnone⟩

theorem restart_posted (hsane : l.Sane) (h : l.Posted f R x)
    (hstart : ∀ s, s.syncedDocs = ∅ → s.nextDocVersion = 0 → ∀ y,
      ∃ y', f y (LspState.startRequest s) = some y' ∧ R s y') :
    l.restart.Sane ∧ l.restart.Posted f R x := by
  have hservers : l.restart.sessions.map (·.server) = l.sessions.map (·.server) :=
    List.map_map.trans rfl
  refine ⟨⟨hservers ▸ hsane.nodup, fun s hs => ?_, fun s hs => ?_⟩,
    h.extend _ rfl fun server y _ => ?_⟩
  · obtain ⟨s₀, hs₀, rfl⟩ := List.mem_map.mp hs
    exact hsane.below s₀ hs₀
  · obtain ⟨s₀, -, rfl⟩ := List.mem_map.mp hs
    exact fun _ => rfl
  · rcases addressed_each hsane.nodup LspState.startRequest server with
      ⟨s, hs, rfl, hone⟩ | ⟨hall, hnone⟩
    · obtain ⟨y', hy', hm'⟩ := hstart s.resetForRestart rfl rfl y
      have hy' : f y (LspState.startRequest s) = some y' := hy'
      refine ⟨y', by rw [hone, List.foldlM_cons, hy']; rfl, fun t ht hserver => ?_⟩
      obtain ⟨t₀, ht₀, rfl⟩ := List.mem_map.mp ht
      obtain rfl := List.inj_on_of_nodup_map hsane.nodup ht₀ hs hserver
      exact hm'
    · refine ⟨y, by rw [hnone]; rfl, fun t ht hserver => ?_⟩
      obtain ⟨t₀, ht₀, rfl⟩ := List.mem_map.mp ht
      exact absurd hserver (hall t₀ ht₀)

/-- **What a document that is told can do**: what was published is put aside, a server is launched,
and a session is told. -/
theorem syncDocument_rule {P : LspState → Prop} {path : Path} {text : Text}
    {pending : List ChangeSet} (hidle : ∀ l diagnostics, P l → P { l with diagnostics })
    (hlaunch : ∀ l l' server, P l → l.launchFor path = some (server, l') → P l')
    (htell : ∀ l s, P l → s ∈ l.sessions → P
      { l.setSession (LspState.syncWith s path text pending).1 with
        outbox := l.outbox ++
          (LspState.syncWith s path text pending).2.map (s.server, ·) }) (h : P l) :
    P (l.syncDocument path text pending) := by
  obtain ⟨diagnostics, l₁, hl₁, hcase⟩ := syncDocument_cases l path text pending
  have h₁ : P l₁ := by
    rcases hl₁ with rfl | ⟨-, server, hl₁⟩
    · exact hidle l diagnostics h
    · exact hlaunch _ _ server (hidle l diagnostics h) hl₁
  rcases hcase with ⟨heq, -⟩ | ⟨s, hs, -, heq⟩
  · rwa [heq]
  · rw [heq]
    exact htell l₁ s h₁ hs

theorem syncDocument_posted (hsane : l.Sane) (h : l.Posted f R x) (path : Path) (text : Text)
    (pending : List ChangeSet)
    (hstart : ∀ s, s.syncedDocs = ∅ → s.nextDocVersion = 0 → ∀ y,
      ∃ y', f y (LspState.startRequest s) = some y' ∧ R s y')
    (htell : ∀ s, s ∈ l.sessions ∨ s.syncedDocs = ∅ → s.Booked → ∀ y, R s y →
      ∃ y', (LspState.syncWith s path text pending).2.foldlM f y = some y' ∧
        R (LspState.syncWith s path text pending).1 y') :
    (l.syncDocument path text pending).Sane ∧ (l.syncDocument path text pending).Posted f R x := by
  obtain ⟨diagnostics, l₁, hl₁, hcase⟩ := syncDocument_cases l path text pending
  have hsane₀ : LspState.Sane { l with diagnostics } := hsane.mono rfl (Nat.le_refl _)
  have hposted₀ : LspState.Posted { l with diagnostics } f R x := h.same rfl rfl
  obtain ⟨hsane₁, hposted₁, hmem₁⟩ : l₁.Sane ∧ l₁.Posted f R x ∧
      ∀ s ∈ l₁.sessions, s ∈ l.sessions ∨ s.syncedDocs = ∅ := by
    rcases hl₁ with rfl | ⟨-, server, hl₁⟩
    · exact ⟨hsane₀, hposted₀, fun s hs => .inl hs⟩
    · obtain ⟨-, -, -, -, -, -, -, s₁, -, -, -, hsynced, -, hss, -⟩ := launchFor_spec hl₁
      obtain ⟨hsane₁, hposted₁⟩ := launchFor_posted hsane₀ hposted₀ hstart hl₁
      refine ⟨hsane₁, hposted₁, fun s hs => ?_⟩
      rw [hss] at hs
      rcases List.mem_append.mp hs with hs | hs
      · exact .inl hs
      · exact .inr (List.mem_singleton.mp hs ▸ hsynced)
  rcases hcase with ⟨heq, -⟩ | ⟨s, hs, -, heq⟩
  · rw [heq]
    exact ⟨hsane₁, hposted₁⟩
  · have hb := hsane₁.booked s hs
    obtain ⟨hserver, -, -, hbooked⟩ := syncWith_books s path text pending hb
    rw [heq]
    exact ⟨hsane₁.set hs hserver hbooked rfl rfl,
      hposted₁.one hs hserver (htell s (hmem₁ s hs) hb) rfl rfl⟩

end Posting

end App

end Termesh
