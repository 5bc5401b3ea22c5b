import Mathlib.Logic.Relation
import Termesh.App.Sessions
import Termesh.Lsp.Stream

/-!
# What becomes of the language servers' state

The model changes the state of its language servers in few ways. After any of them, what is queued
for a server, told to it on top of what it holds, makes it hold what its session last told it.

* `LspState.Deed`, `LspState.Act`, `LspState.Course`: what is done about documents, one change, and
  any number of them;
* `feed`, `feedAll`: the documents of the process behind it, over starts and stops;
* `Mirrors`, `Told`: the state agrees with what the processes will hold;
* **`syncWith_told`**, **`Act.told`**: every change keeps that agreement.
-/

namespace Termesh

open Tables Lsp

namespace App

/-! ## Changes -/

/-- A session that has settled something with its server: its documents are untouched, and it waits
for no more answers. -/
structure LspSessionState.Settled (s s' : LspSessionState) : Prop where
  server : s'.server = s.server
  launch : LspState.startRequest s' = LspState.startRequest s
  extensions : s'.extensions = s.extensions
  openDocs : s'.openDocs = s.openDocs
  syncedDocs : s'.syncedDocs = s.syncedDocs
  nextDocVersion : s'.nextDocVersion = s.nextDocVersion
  active : ∀ kind id, s'.active.lookup kind = some id → s.active.lookup kind = some id

/-- A request that is about no document and awaits no answer. -/
def Notice : LspRequest → Prop
  | .didSave _ | .watchedFilesChanged _ | .reloadProject _ => True
  | _ => False

namespace LspState

/-- What is done about documents. -/
inductive Deed where
  | sync (path : Path) (text : Text) (pending : List ChangeSet)
  | close (path : Path)
  | restart
  | reopen

/-- The model's changes to the state of its language servers, the deeds among them in `D`. -/
inductive Act (D : Deed → Prop) (l : LspState) : LspState → Prop
  | sync (path : Path) (text : Text) (pending : List ChangeSet)
    (hd : D (.sync path text pending)) : Act D l (l.syncDocument path text pending)
  | close (path : Path) (hd : D (.close path)) : Act D l (l.closeDocument path)
  | restart (hd : D .restart) : Act D l l.restart
  | request (server : LspServerId) (kind : LspCall) (params : LspParams) :
    Act D l (l.request server kind params)
  | tell (rs : List (LspServerId × LspRequest)) (hrs : ∀ r ∈ rs, Notice r.2) :
    Act D l { l with outbox := l.outbox ++ rs }
  | settle {l' : LspState} {server : LspServerId} {s s' : LspSessionState}
    (hs : l.session server = some s) (hsettled : s.Settled s')
    (hss : l'.sessions = (l.setSession s').sessions) (ho : l'.outbox = l.outbox)
    (hr : l'.nextRequestId = l.nextRequestId) (hn : l'.nextServerId = l.nextServerId) : Act D l l'
  /-- What was published is put aside, or kept. -/
  | idle {l' : LspState} (hs : l'.sessions = l.sessions) (ho : l'.outbox = l.outbox)
    (hr : l'.nextRequestId = l.nextRequestId) (hn : l'.nextServerId = l.nextServerId) : Act D l l'
  /-- Another workspace: every session is stopped. -/
  | reopen (configured : List ConfiguredRecipe) (hd : D .reopen) :
    Act D l { configured, documentSymbols := l.documentSymbols
              outbox := l.outbox ++ l.sessions.map fun s => (s.server, .shutdown)
              nextRequestId := l.nextRequestId, nextServerId := l.nextServerId }

/-- Any number of changes. -/
abbrev Course (D : Deed → Prop) : LspState → LspState → Prop := Relation.ReflTransGen (Act D)

end LspState

/-! ## The process behind a server -/

/-- The documents behind a server, if it has a process, after a request to it. -/
def feed : Option Docs → LspRequest → Option (Option Docs)
  | _, .start .. => some (some Docs.nothing)
  | _, .shutdown => some none
  | none, _ => some none
  | some d, r => (d.tell r).map some

def feedAll (x : Option Docs) (rs : List LspRequest) : Option (Option Docs) := rs.foldlM feed x

@[simp] theorem feedAll_nil (x : Option Docs) : feedAll x [] = some x := rfl

theorem feedAll_cons (x : Option Docs) (r : LspRequest) (rs : List LspRequest) :
    feedAll x (r :: rs) = (feed x r).bind fun y => feedAll y rs := rfl

/-- A request that neither starts a process nor stops one. -/
def Lasting : LspRequest → Prop
  | .start .. | .shutdown => False
  | _ => True

theorem feed_none {r : LspRequest} (h : Lasting r) : feed none r = some none := by
  cases r <;> first | rfl | exact h.elim

theorem feed_some {r : LspRequest} (h : Lasting r) (d : Docs) :
    feed (some d) r = (d.tell r).map some := by
  cases r <;> first | rfl | exact h.elim

theorem feedAll_none {rs : List LspRequest} (h : ∀ r ∈ rs, Lasting r) :
    feedAll none rs = some none := by
  induction rs with
  | nil => rfl
  | cons r rs ih =>
    rw [feedAll_cons, feed_none (h r List.mem_cons_self)]
    exact ih fun r' hr' => h r' (List.mem_cons_of_mem r hr')

theorem feedAll_some {rs : List LspRequest} (h : ∀ r ∈ rs, Lasting r) (d : Docs) :
    feedAll (some d) rs = (d.replay rs).map some := by
  induction rs generalizing d with
  | nil => rfl
  | cons r rs ih =>
    rw [feedAll_cons, feed_some (h r List.mem_cons_self), Docs.replay_cons]
    cases d.tell r with
    | none => rfl
    | some d' => exact ih (fun r' hr' => h r' (List.mem_cons_of_mem r hr')) d'

theorem feedAll_forget {d : Docs} {rs : List LspRequest} {y : Option Docs}
    (h : feedAll (some d) rs = some y) :
    ∃ y', feedAll none rs = some y' ∧ (y' = none ∨ y' = y) := by
  induction rs generalizing d with
  | nil => exact ⟨none, rfl, .inl rfl⟩
  | cons r rs ih =>
    rw [feedAll_cons] at h
    obtain ⟨x, hx, hrest⟩ := Option.bind_eq_some_iff.mp h
    by_cases hr : Lasting r
    · rw [feed_some hr] at hx
      obtain ⟨d', -, rfl⟩ := Option.map_eq_some_iff.mp hx
      obtain ⟨y', hy', hor⟩ := ih hrest
      exact ⟨y', by rw [feedAll_cons, feed_none hr]; exact hy', hor⟩
    · cases r with
      | start =>
        obtain rfl := Option.some.inj hx
        exact ⟨y, hrest, .inr rfl⟩
      | shutdown =>
        obtain rfl := Option.some.inj hx
        exact ⟨y, hrest, .inr rfl⟩
      | _ => exact absurd trivial hr

/-! ## Agreement -/

/-- A session and the documents of its process are the same. -/
def Mirrors (s : LspSessionState) (d : Docs) : Prop := ∀ path, d path = s.syncedDocs.lookup path

/-- What is queued can be told to the processes there are, and makes each hold what its session last
told it. -/
def LspState.Told (l : LspState) (x : LspServerId → Option Docs) : Prop :=
  ∀ server, ∃ y, feedAll (x server) (addressed l.outbox server) = some y ∧
    ∀ s ∈ l.sessions, s.server = server → ∀ d, y = some d → Mirrors s d

/-! ## One document -/

theorem mirrors_update {s : LspSessionState} {d : Docs} (h : Mirrors s d) (path : Path)
    (text : Text) {s' : LspSessionState} (hs : s'.syncedDocs = s.syncedDocs.insert path text) :
    Mirrors s' (Function.update d path (some text)) := by
  intro p
  rw [hs]
  by_cases hp : p = path
  · rw [hp, Function.update_self, AList.lookup_insert]
  · rw [Function.update_of_ne hp, AList.lookup_insert_ne hp]
    exact h p

theorem update_of_held {d : Docs} {path : Path} {text : Text} (hd : d path = some text) :
    Docs.replay d [] = some (Function.update d path (some text)) := by
  rw [← hd, Function.update_eq_self]
  rfl

/-- What changed since the session last heard of a document, told to a process that holds it. -/
theorem sendChanges_told (path : Path) (pending : List ChangeSet) (s : LspSessionState)
    (shadow : Text) :
    (∀ r ∈ (LspState.sendChanges path pending s shadow).2.1, Lasting r) ∧
      ∀ d : Docs, d path = some shadow →
        d.replay (LspState.sendChanges path pending s shadow).2.1 = some (Function.update d path
          (some (LspState.sendChanges path pending s shadow).2.2.1)) := by
  induction pending generalizing s shadow with
  | nil => exact ⟨List.forall_mem_nil _, fun d => update_of_held⟩
  | cons changes rest ih =>
    unfold LspState.sendChanges
    split_ifs with hlen
    · exact ⟨List.forall_mem_nil _, fun d => update_of_held⟩
    · have hlen := not_not.mp hlen
      cases hspan : changes.changedSpan with
      | none => exact ih s shadow
      | some span =>
        obtain ⟨hlast, htold⟩ := ih (s.bump path) (changes.apply shadow)
        refine ⟨List.forall_mem_cons.mpr ⟨trivial, hlast⟩, fun d hd => ?_⟩
        have hchange := splice_changedSpan changes hlen hspan
        dsimp only
        rw [Docs.replay_cons, Docs.tell, hd]
        dsimp only [Option.map_some, Option.bind_some]
        rw [hchange, htold _ (Function.update_self ..), Function.update_idem]

/-- A document that is told to its session is then the same for its process. -/
theorem syncWith_told (s : LspSessionState) (path : Path) (text : Text) (pending : List ChangeSet)
    (h : s.Booked) :
    (∀ r ∈ (LspState.syncWith s path text pending).2, Lasting r) ∧
      ∀ d, Mirrors s d → ∃ d', d.replay (LspState.syncWith s path text pending).2 = some d' ∧
        Mirrors (LspState.syncWith s path text pending).1 d' := by
  obtain ⟨-, -, hsynced, -⟩ := syncWith_books s path text pending h
  suffices hsent : (∀ r ∈ (LspState.syncWith s path text pending).2, Lasting r) ∧
      ∀ d, Mirrors s d → d.replay (LspState.syncWith s path text pending).2 =
        some (Function.update d path (some text)) from
    ⟨hsent.1, fun d hd => ⟨_, hsent.2 d hd, mirrors_update hd path text hsynced⟩⟩
  unfold LspState.syncWith
  cases hopen : s.openDocs.lookup path with
  | none => exact ⟨fun r hr => List.mem_singleton.mp hr ▸ trivial, fun d _ => rfl⟩
  | some version =>
    have hsome : (s.openDocs.lookup path).isSome := by rw [hopen]; rfl
    obtain ⟨shadow, hshadow⟩ := Option.isSome_iff_exists.mp ((h path).symm.trans hsome)
    obtain ⟨hlast, htold⟩ := sendChanges_told path pending s shadow
    dsimp only
    rw [hshadow, Option.getD_some]
    generalize LspState.sendChanges path pending s shadow = sent at hlast htold
    obtain ⟨s', messages, shadow', lost⟩ := sent
    dsimp only at hlast htold ⊢
    split_ifs with hlost
    · refine ⟨fun r hr => ?_, fun d hd => ?_⟩
      · rcases List.mem_append.mp hr with hr | hr
        · exact hlast r hr
        · simp only [List.mem_cons, List.not_mem_nil, or_false] at hr
          rcases hr with rfl | rfl <;> trivial
      · rw [Docs.replay_append, htold d ((hd path).trans hshadow), Option.bind_some,
          Docs.replay_cons, Docs.tell, Function.update_self]
        dsimp only [Option.map_some, Option.bind_some]
        rw [Docs.replay_cons, Docs.tell, Option.bind_some, Function.update_idem,
          Function.update_idem]
        rfl
    · obtain ⟨-, htext⟩ := not_or.mp hlost
      refine ⟨hlast, fun d hd => ?_⟩
      rw [htold d ((hd path).trans hshadow), not_not.mp htext]

theorem feedAll_plain {messages : List LspRequest} (h : ∀ r ∈ messages, Plain r)
    (y : Option Docs) : feedAll y messages = some y := by
  induction messages with
  | nil => rfl
  | cons r messages ih =>
    have hr := h r List.mem_cons_self
    have hlasting : Lasting r := by cases r <;> trivial
    have hone : feed y r = some y := by
      cases y with
      | none => exact feed_none hlasting
      | some d => rw [feed_some hlasting, hr.tell]; rfl
    rw [feedAll_cons, hone]
    exact ih fun r' hr' => h r' (List.mem_cons_of_mem r hr')

/-! ## Documents told -/

section Telling

variable {D : LspState.Deed → Prop} {l l' : LspState} {x : LspServerId → Option Docs}

theorem LspState.Told.plain (h : l.Told x) (rs : List (LspServerId × LspRequest))
    (hq : l'.outbox = l.outbox ++ rs) (hrs : ∀ r ∈ rs, Plain r.2)
    (hs : ∀ s' ∈ l'.sessions, ∃ s ∈ l.sessions, s'.server = s.server ∧
      s'.syncedDocs = s.syncedDocs) : l'.Told x := by
  refine LspState.Posted.extend h rs hq fun server y hm =>
    ⟨y, feedAll_plain (fun r hr => hrs _ (mem_addressed.mp hr)) y, ?_⟩
  intro s' hs' hserver d hd path
  obtain ⟨s, hmem, hsame, hdocs⟩ := hs s' hs'
  rw [hdocs]
  exact hm s hmem (hsame.symm.trans hserver) d hd path

theorem feed_start (s : LspSessionState) (hs : s.syncedDocs = ∅) (_ : s.nextDocVersion = 0)
    (y : Option Docs) : ∃ y', feed y (LspState.startRequest s) = some y' ∧
      ∀ d, y' = some d → Mirrors s d := by
  refine ⟨some Docs.nothing, rfl, fun d hd path => ?_⟩
  rw [← Option.some.inj hd, hs]
  rfl

theorem feedAll_lasting {s s' : LspSessionState} {messages : List LspRequest}
    (hl : ∀ r ∈ messages, Lasting r)
    (ht : ∀ d, Mirrors s d → ∃ d', d.replay messages = some d' ∧ Mirrors s' d') (y : Option Docs)
    (hy : ∀ d, y = some d → Mirrors s d) :
    ∃ y', feedAll y messages = some y' ∧ ∀ d, y' = some d → Mirrors s' d := by
  cases y with
  | none => exact ⟨none, feedAll_none hl, fun d hd => by cases hd⟩
  | some d =>
    obtain ⟨d', hd', hm'⟩ := ht d (hy d rfl)
    refine ⟨some d', by rw [feedAll_some hl, hd']; rfl, fun e he => ?_⟩
    rw [← Option.some.inj he]
    exact hm'

theorem syncDocument_told (hsane : l.Sane) (h : l.Told x) (path : Path) (text : Text)
    (pending : List ChangeSet) :
    (l.syncDocument path text pending).Sane ∧ (l.syncDocument path text pending).Told x := by
  refine syncDocument_posted hsane h path text pending feed_start fun s _ hb y hy => ?_
  obtain ⟨hl, ht⟩ := syncWith_told s path text pending hb
  exact feedAll_lasting hl ht y hy

theorem mirrors_without {s : LspSessionState} {d : Docs} (h : Mirrors s d) (path : Path) :
    Mirrors (s.without path) (Function.update d path none) := by
  intro p
  dsimp only [LspSessionState.without]
  by_cases hp : p = path
  · rw [hp, Function.update_self, AList.lookup_erase]
  · rw [Function.update_of_ne hp, h p, AList.lookup_erase_ne hp]

theorem without_told {s : LspSessionState} {path : Path} (hs : (s.syncedDocs.lookup path).isSome)
    {d : Docs} (hd : Mirrors s d) :
    ∃ d', d.replay [.didClose path] = some d' ∧ Mirrors (s.without path) d' := by
  obtain ⟨text, htext⟩ := Option.isSome_iff_exists.mp hs
  refine ⟨Function.update d path none, ?_, mirrors_without hd path⟩
  rw [Docs.replay_cons, Docs.tell, hd path, htext]
  rfl

theorem closeDocument_told (hsane : l.Sane) (h : l.Told x) (path : Path) :
    (l.closeDocument path).Sane ∧ (l.closeDocument path).Told x := by
  refine closeDocument_posted hsane h path fun s hs hopen y hy => ?_
  have hsynced := (hsane.booked s hs path).symm.trans hopen
  have hlasting : ∀ r ∈ [LspRequest.didClose path], Lasting r :=
    fun r hr => List.mem_singleton.mp hr ▸ trivial
  obtain ⟨y', hy', hm'⟩ := feedAll_lasting hlasting (fun d => without_told hsynced) y hy
  refine ⟨y', ?_, hm'⟩
  rw [feedAll_cons] at hy'
  obtain ⟨y₁, hy₁, hnil⟩ := Option.bind_eq_some_iff.mp hy'
  rwa [← Option.some.inj hnil]

theorem restart_told (hsane : l.Sane) (h : l.Told x) : l.restart.Sane ∧ l.restart.Told x :=
  restart_posted hsane h feed_start

/-- The session, with a new newest request of a kind. -/
def LspSessionState.asking (s : LspSessionState) (kind : LspCall) (id : LspRequestId) :
    LspSessionState := { s with active := s.active.insert kind id }

theorem request_spec (l : LspState) (server : LspServerId) (kind : LspCall) (params : LspParams) :
    l.session server = none ∧
      l.request server kind params = { l with nextRequestId := l.nextRequestId + 1 } ∨
    ∃ s, l.session server = some s ∧ l.request server kind params =
      { l.setSession (s.asking kind ⟨l.nextRequestId + 1⟩) with
        nextRequestId := l.nextRequestId + 1
        outbox := l.outbox ++ ((s.active.lookup kind).toList.map LspRequest.cancel ++
          [LspRequest.call kind ⟨l.nextRequestId + 1⟩ params]).map (server, ·) } := by
  have hsame : LspState.session { l with nextRequestId := l.nextRequestId + 1 } server =
      l.session server := rfl
  unfold LspState.request
  dsimp only
  rw [hsame]
  cases hs : l.session server with
  | none => exact .inl ⟨rfl, rfl⟩
  | some s =>
    refine .inr ⟨s, rfl, ?_⟩
    dsimp only
    cases s.active.lookup kind with
    | none => rfl
    | some previous =>
      simp only [LspState.push, Option.toList_some, List.map_cons, List.map_nil, List.map_append,
        List.append_assoc]
      rfl

theorem request_told (hsane : l.Sane) (h : l.Told x) (server : LspServerId) (kind : LspCall)
    (params : LspParams) :
    (l.request server kind params).Sane ∧ (l.request server kind params).Told x := by
  rcases request_spec l server kind params with ⟨-, heq⟩ | ⟨s, hs, heq⟩
  · rw [heq]
    exact ⟨hsane.mono rfl (Nat.le_refl _), h.plain [] (List.append_nil _).symm
      (List.forall_mem_nil _) fun s hs => ⟨s, hs, rfl, rfl⟩⟩
  · obtain ⟨hmem, rfl⟩ := session_spec hs
    have hserver : (s.asking kind ⟨l.nextRequestId + 1⟩).server = s.server := rfl
    have hbooked : (s.asking kind ⟨l.nextRequestId + 1⟩).Booked := hsane.booked s hmem
    rw [heq]
    refine ⟨hsane.set hmem hserver hbooked rfl rfl, h.plain _ rfl (fun r hr => ?_) fun t ht => ?_⟩
    · obtain ⟨asked, hasked, rfl⟩ := List.mem_map.mp hr
      rcases List.mem_append.mp hasked with hmem | hmem
      · obtain ⟨id, -, rfl⟩ := List.mem_map.mp hmem
        trivial
      · exact List.mem_singleton.mp hmem ▸ trivial
    · rcases mem_setSession ht with rfl | ⟨ht, -⟩
      · exact ⟨s, hmem, rfl, rfl⟩
      · exact ⟨t, ht, rfl, rfl⟩

theorem feedAll_shutdowns (ss : List LspSessionState) (y : Option Docs) (server : LspServerId) :
    ∃ y', feedAll y (addressed (ss.map fun s => (s.server, .shutdown)) server) = some y' := by
  induction ss generalizing y with
  | nil => exact ⟨y, rfl⟩
  | cons s ss ih =>
    rw [List.map_cons]
    by_cases hs : s.server = server
    · subst hs
      rw [addressed_cons_self]
      exact ih none
    · rw [addressed_cons_ne _ hs]
      exact ih y

/-- **Every change keeps the sessions sane, and what is queued in agreement with them.** -/
theorem LspState.Act.told (ha : l.Act D l') (hsane : l.Sane) (h : l.Told x) :
    l'.Sane ∧ l'.Told x := by
  cases ha with
  | sync path text pending => exact syncDocument_told hsane h path text pending
  | close path => exact closeDocument_told hsane h path
  | restart => exact restart_told hsane h
  | request server kind params => exact request_told hsane h server kind params
  | tell rs hrs =>
    refine ⟨hsane.mono rfl (Nat.le_refl _), h.plain rs rfl (fun r hr => ?_)
      fun s hs => ⟨s, hs, rfl, rfl⟩⟩
    have hnotice := hrs r hr
    cases hr' : r.2 <;> rw [hr'] at hnotice <;> trivial
  | settle hs hsettled hss ho hr hn =>
    rename_i server s s'
    obtain ⟨hmem, rfl⟩ := session_spec hs
    refine ⟨hsane.set hmem hsettled.server (fun p => ?_) hss hn,
      h.plain [] (ho.trans (List.append_nil _).symm) (List.forall_mem_nil _) fun t ht => ?_⟩
    · rw [hsettled.openDocs, hsettled.syncedDocs]
      exact hsane.booked s hmem p
    · rw [hss] at ht
      rcases mem_setSession ht with rfl | ⟨ht, -⟩
      · exact ⟨s, hmem, hsettled.server, hsettled.syncedDocs⟩
      · exact ⟨t, ht, rfl, rfl⟩
  | idle hs ho hr hn =>
    refine ⟨hsane.mono hs (Nat.le_of_eq hn.symm),
      h.plain [] (ho.trans (List.append_nil _).symm) (List.forall_mem_nil _) fun t ht => ?_⟩
    exact ⟨t, hs ▸ ht, rfl, rfl⟩
  | reopen configured =>
    refine ⟨⟨List.nodup_nil, fun s hs => ?_, fun s hs => ?_⟩,
      LspState.Posted.extend h _ rfl fun server y _ => ?_⟩
    · cases hs
    · cases hs
    · obtain ⟨y', hy'⟩ := feedAll_shutdowns l.sessions y server
      exact ⟨y', hy', fun s hs => by cases hs⟩

/-- **Any number of changes.** -/
theorem LspState.Course.told (hc : l.Course D l') (hsane : l.Sane) (h : l.Told x) :
    l'.Sane ∧ l'.Told x := by
  induction hc with
  | refl => exact ⟨hsane, h⟩
  | tail _ ha ih => exact ha.told ih.1 ih.2

end Telling

end App

end Termesh
