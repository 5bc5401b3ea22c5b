import Termesh.App.Courses
import Termesh.Lsp.Replica

/-!
# What sessions remember

A session remembers the text it last told its server of a document. The server holds that text, as
long as the changes it was told are at positions it reads as the editor does.

* `Readable`: the changes of one document are at such positions;
* `Serves`, **`syncWith_heard`**: a session and its server stay the same;
* `copy`, `InStep`: what is remembered, by the session that claims the document only;
* **`syncDocument_inStep`**, **`syncDocument_copy`**, `closeDocument_copy`, `restart_copy`: what
  every change makes of it;
* `Unclaimed`, **`syncDocument_unclaimed`**: a document is claimed as soon as it can be.
-/

namespace Termesh

open Tables Lsp

/-- The changes of a document, told one after another, are at positions the protocol reads as the
editor does. -/
def Readable : List ChangeSet → Text → Prop
  | [], _ => True
  | changes :: rest, shadow =>
    changes.lenBefore = shadow.length →
      match changes.changedSpan with
      | none => Readable rest shadow
      | some span => Legible shadow span.beforeStart ∧ Legible shadow span.beforeEnd ∧
        Readable rest (changes.apply shadow)

namespace App

/-! ## One session -/

/-- A server that runs holds what its session remembers, and was told no version to come. -/
def Serves (s : LspSessionState) (x : Option Replica) : Prop :=
  ∃ r, x = some r ∧ Mirrors s r.docs ∧ r.version ≤ s.nextDocVersion

theorem serves_start (s : LspSessionState) (hs : s.syncedDocs = ∅) (_ : s.nextDocVersion = 0)
    (x : Option Replica) : ∃ y, hear x (LspState.startRequest s) = some y ∧ Serves s y := by
  refine ⟨some ⟨Docs.nothing, 0⟩, by cases x <;> rfl, _, rfl, fun path => ?_, Nat.zero_le _⟩
  rw [hs]
  rfl

/-- What changed since the session last heard of a document, told to a server that holds it. -/
theorem sendChanges_heard (path : Path) (pending : List ChangeSet) (s : LspSessionState)
    (shadow : Text) (hread : Readable pending shadow) {r : Replica}
    (hd : r.docs path = some shadow) (hv : r.version ≤ s.nextDocVersion) :
    ∃ v, hearAll (some r) (LspState.sendChanges path pending s shadow).2.1 =
        some (some ⟨Function.update r.docs path
          (some (LspState.sendChanges path pending s shadow).2.2.1), v⟩) ∧
      v ≤ (LspState.sendChanges path pending s shadow).1.nextDocVersion := by
  induction pending generalizing s shadow r with
  | nil => exact ⟨r.version, by rw [LspState.sendChanges, ← hd, Function.update_eq_self]; rfl, hv⟩
  | cons changes rest ih =>
    unfold LspState.sendChanges
    split_ifs with hlen
    · exact ⟨r.version, by dsimp only; rw [← hd, Function.update_eq_self]; rfl, hv⟩
    · have hlen := not_not.mp hlen
      have hread := hread hlen
      cases hspan : changes.changedSpan with
      | none =>
        rw [hspan] at hread
        exact ih s shadow hread hd hv
      | some span =>
        rw [hspan] at hread
        obtain ⟨hstart, hstop, hrest⟩ := hread
        obtain ⟨h1, h2, -⟩ := changedSpan_spec changes hlen hspan
        have hchange := splice_changedSpan changes hlen hspan
        rw [← lspSplice_eq (h1.trans h2) h2 hstart hstop] at hchange
        obtain ⟨v, hheard, hle⟩ := ih (s.bump path) (changes.apply shadow) hrest
          (r := ⟨Function.update r.docs path (some (changes.apply shadow)),
            (s.bump path).nextDocVersion⟩) (Function.update_self ..) (Nat.le_refl _)
        have hnewer : r.version < (s.bump path).nextDocVersion := Nat.lt_succ_of_le hv
        refine ⟨v, ?_, hle⟩
        rw [hearAll_cons, hear_didChange hnewer hd, Option.bind_some]
        dsimp only [patched]
        rw [hchange, hheard, Function.update_idem]

/-- **A document that is told to its session is then the same for its server.** -/
theorem syncWith_heard (s : LspSessionState) (path : Path) (text : Text) (pending : List ChangeSet)
    (h : s.Booked) (hread : ∀ shadow, s.syncedDocs.lookup path = some shadow →
      Readable pending shadow) {x : Option Replica} (hx : Serves s x) :
    ∃ y, hearAll x (LspState.syncWith s path text pending).2 = some y ∧
      Serves (LspState.syncWith s path text pending).1 y := by
  obtain ⟨r, rfl, hdocs, hv⟩ := hx
  obtain ⟨-, -, hsynced, -⟩ := syncWith_books s path text pending h
  suffices hsent : ∃ v, hearAll (some r) (LspState.syncWith s path text pending).2 =
      some (some ⟨Function.update r.docs path (some text), v⟩) ∧
        v ≤ (LspState.syncWith s path text pending).1.nextDocVersion by
    obtain ⟨v, hheard, hle⟩ := hsent
    exact ⟨_, hheard, _, rfl, mirrors_update hdocs path text hsynced, hle⟩
  unfold LspState.syncWith
  have hbooks := h path
  cases hopen : s.openDocs.lookup path with
  | none =>
    have hnone : r.docs path = none := by
      rw [hopen] at hbooks
      rw [hdocs path]
      exact Option.not_isSome_iff_eq_none.mp fun hsome => by
        rw [hsome] at hbooks
        cases hbooks
    refine ⟨s.nextDocVersion + 1, ?_, Nat.le_refl _⟩
    show hearAll (some r) [.didOpen path s.language (s.nextDocVersion + 1) text] = _
    rw [hearAll_cons, hear_didOpen (Nat.lt_succ_of_le hv) hnone]
    rfl
  | some version =>
    rw [hopen] at hbooks
    obtain ⟨shadow, hshadow⟩ := Option.isSome_iff_exists.mp hbooks.symm
    obtain ⟨v, hheard, hle⟩ := sendChanges_heard path pending s shadow (hread shadow hshadow)
      ((hdocs path).trans hshadow) hv
    dsimp only
    rw [hshadow, Option.getD_some]
    generalize LspState.sendChanges path pending s shadow = sent at hheard hle
    obtain ⟨s', messages, shadow', lost⟩ := sent
    dsimp only at hheard hle ⊢
    split_ifs with hlost
    · refine ⟨s'.nextDocVersion + 1, ?_, Nat.le_refl _⟩
      show hearAll (some r) (messages ++ [.didClose path,
        .didOpen path s'.language (s'.nextDocVersion + 1) text]) = _
      rw [hearAll_append, hheard, Option.bind_some, hearAll_cons,
        hear_didClose (Function.update_self ..), Option.bind_some, hearAll_cons,
        hear_didOpen (Nat.lt_succ_of_le hle) (Function.update_self ..), Option.bind_some]
      dsimp only
      rw [Function.update_idem, Function.update_idem]
      rfl
    · obtain ⟨-, htext⟩ := not_or.mp hlost
      exact ⟨v, by rw [hheard, not_not.mp htext], hle⟩

theorem without_heard {s : LspSessionState} {path : Path} (hs : (s.syncedDocs.lookup path).isSome)
    {x : Option Replica} (hx : Serves s x) :
    ∃ y, hear x (.didClose path) = some y ∧ Serves (s.without path) y := by
  obtain ⟨r, rfl, hdocs, hv⟩ := hx
  obtain ⟨text, htext⟩ := Option.isSome_iff_exists.mp hs
  exact ⟨_, hear_didClose ((hdocs path).trans htext), _, rfl, mirrors_without hdocs path, hv⟩

/-! ## All sessions -/

namespace LspState

/-- The text a session remembers of a document. -/
def copy (l : LspState) (server : LspServerId) (path : Path) : Option Text :=
  (l.session server).bind fun s => s.syncedDocs.lookup path

/-- What is queued is heard, and leaves every server with what its session remembers; a document is
remembered by the session that claims it only. -/
structure InStep (l : LspState) : Prop where
  sane : l.Sane
  posted : l.Posted hear Serves fun _ => none
  owned : ∀ server path, (l.copy server path).isSome → l.serverFor path = some server

variable {l l' : LspState}

theorem copy_setSession (h : l.Sane) {s s' : LspSessionState} (hs : s ∈ l.sessions)
    (hserver : s'.server = s.server) (server : LspServerId) (path : Path) :
    (l.setSession s').copy server path =
      if server = s.server then s'.syncedDocs.lookup path else l.copy server path := by
  rw [copy, session_setSession (session_of_mem h.nodup hs) hserver]
  split_ifs <;> rfl

theorem InStep.held (h : l.InStep) {s : LspSessionState} (hs : s ∈ l.sessions) (path : Path) :
    l.copy s.server path = s.syncedDocs.lookup path := by
  rw [copy, session_of_mem h.sane.nodup hs]
  rfl

theorem InStep.copy_unowned (h : l.InStep) {server : LspServerId} {path : Path}
    (hne : l.serverFor path ≠ some server) : l.copy server path = none :=
  Option.not_isSome_iff_eq_none.mp fun hsome => hne (h.owned server path hsome)

/-- A session that is launched remembers nothing, and takes no path from another. -/
theorem launchFor_copy {path : Path} {server : LspServerId}
    (hl : l.launchFor path = some (server, l')) :
    (∀ server p, l'.copy server p = l.copy server p) ∧
      ∀ server p, l.serverFor p = some server → l'.serverFor p = some server := by
  obtain ⟨-, -, -, -, -, -, -, s₁, -, -, -, hsynced, -, hss, -⟩ := launchFor_spec hl
  refine ⟨fun server p => ?_, fun server p hp => ?_⟩
  · have hsession : l'.session server =
        (l.session server).or ([s₁].find? fun s => s.server = server) := by
      rw [session, hss, List.find?_append]
      rfl
    rw [copy, hsession, copy]
    cases l.session server with
    | some s => rfl
    | none =>
      rw [Option.none_or, Option.bind_none]
      cases hfound : [s₁].find? fun s => s.server = server with
      | none => rfl
      | some s =>
        rw [List.mem_singleton.mp (List.mem_of_find?_eq_some hfound), Option.bind_some, hsynced]
        rfl
  · obtain ⟨s, hs, rfl⟩ := Option.map_eq_some_iff.mp hp
    rw [serverFor, hss, List.find?_append, hs]
    rfl

/-- No session claims the path, and none that could be launched. -/
def Unclaimed (l : LspState) (path : Path) : Prop :=
  l.serverFor path = none ∧ ∀ recipe ∈ l.configured, recipe.load = .idle →
    claims recipe.extensions path = false

theorem launchFor_unclaimed {path p : Path} {server : LspServerId} (h : l.Unclaimed p)
    (hl : l.launchFor path = some (server, l')) : l'.Unclaimed p := by
  obtain ⟨recipe, hmem, hidle, -, -, -, hsub, s₁, -, hext, -, -, -, hss, -⟩ := launchFor_spec hl
  refine ⟨?_, fun r hr => h.2 r (hsub.subset hr)⟩
  rw [serverFor, hss, List.find?_append, Option.map_eq_none_iff.mp h.1, Option.none_or,
    List.find?_singleton, hext, h.2 recipe hmem hidle]
  rfl

theorem unclaimed_of_launchFor {path : Path} (hfor : l.serverFor path = none)
    (hl : l.launchFor path = none) : l.Unclaimed path := by
  refine ⟨hfor, fun recipe hmem hidle => ?_⟩
  cases hi : l.recipeForPath path with
  | some i =>
    rw [launchFor, hi, Option.bind_some, Option.map_eq_none_iff] at hl
    obtain ⟨hlt, -⟩ := List.findIdx?_eq_some_iff_getElem.mp hi
    exact absurd hl (by rw [List.getElem?_eq_getElem hlt]; exact Option.some_ne_none _)
  | none =>
    have hnot := List.findIdx?_eq_none_iff.mp hi recipe hmem
    rwa [hidle, beq_self_eq_true, Bool.true_and] at hnot

theorem syncDocument_stage (h : l.InStep) (path : Path) (text : Text) (pending : List ChangeSet) :
    ∃ l₁, (∀ server p, l₁.copy server p = l.copy server p) ∧
      (∀ server p, l.serverFor p = some server → l₁.serverFor p = some server) ∧
      (∀ p, l.Unclaimed p → l₁.Unclaimed p) ∧
      (l.syncDocument path text pending = l₁ ∧ l₁.Unclaimed path ∨
        ∃ server, l₁.serverFor path = some server ∧
          (l.syncDocument path text pending).configured = l₁.configured ∧
          (∀ p, (l.syncDocument path text pending).serverFor p = l₁.serverFor p) ∧
          ∀ server' p, (l.syncDocument path text pending).copy server' p =
            if p = path ∧ server = server' then some text else l₁.copy server' p) := by
  obtain ⟨diagnostics, l₁, hl₁, hcase⟩ := syncDocument_cases l path text pending
  have hsane : LspState.Sane { l with diagnostics } := h.sane.mono rfl (Nat.le_refl _)
  have hposted : LspState.Posted { l with diagnostics } hear Serves fun _ => none :=
    h.posted.same rfl rfl
  obtain ⟨hsane₁, hcopy₁, hfor₁, hunclaimed₁⟩ : l₁.Sane ∧
      (∀ server p, l₁.copy server p = l.copy server p) ∧
      (∀ server p, l.serverFor p = some server → l₁.serverFor p = some server) ∧
      ∀ p, l.Unclaimed p → l₁.Unclaimed p := by
    rcases hl₁ with rfl | ⟨-, server, hl₁⟩
    · exact ⟨hsane, fun _ _ => rfl, fun _ _ hp => hp, fun _ hp => hp⟩
    · obtain ⟨hcopy₁, hfor₁⟩ := launchFor_copy hl₁
      exact ⟨(launchFor_posted hsane hposted serves_start hl₁).1, hcopy₁, hfor₁,
        fun p hp => launchFor_unclaimed (l := { l with diagnostics }) hp hl₁⟩
  refine ⟨l₁, hcopy₁, hfor₁, hunclaimed₁, ?_⟩
  rcases hcase with ⟨heq, hnone, hlaunch⟩ | ⟨s, hs, hserves, heq⟩
  · exact .inl ⟨heq, unclaimed_of_launchFor hnone hlaunch⟩
  · obtain ⟨hserver, hext, hsynced, -⟩ := syncWith_books s path text pending (hsane₁.booked s hs)
    refine .inr ⟨s.server, hserves, ?_, fun p => ?_, fun server' p => ?_⟩
    · rw [heq]
      rfl
    · rw [heq]
      exact serverFor_setSession hsane₁.nodup hs hserver hext p
    · have hcopy : (l.syncDocument path text pending).copy server' p =
          if server' = s.server then (LspState.syncWith s path text pending).1.syncedDocs.lookup p
          else l₁.copy server' p := by
        rw [heq]
        exact copy_setSession hsane₁ hs hserver server' p
      rw [hcopy]
      by_cases hmine : server' = s.server
      · rw [if_pos hmine, hsynced, hmine, copy, session_of_mem hsane₁.nodup hs, Option.bind_some]
        by_cases hp : p = path
        · rw [hp, AList.lookup_insert, if_pos ⟨rfl, rfl⟩]
        · rw [AList.lookup_insert_ne hp, if_neg fun hc => hp hc.1]
      · rw [if_neg hmine, if_neg fun hc => hmine hc.2.symm]

/-- **What a document that is told leaves**: its session remembers its text, all else stays, and no
path is taken from a session. -/
theorem syncDocument_copy (h : l.InStep) (path : Path) (text : Text) (pending : List ChangeSet) :
    (∀ server p, (l.syncDocument path text pending).copy server p =
      if p = path ∧ (l.syncDocument path text pending).serverFor path = some server then some text
      else l.copy server p) ∧
    (∀ server p, l.serverFor p = some server →
      (l.syncDocument path text pending).serverFor p = some server) := by
  obtain ⟨l₁, hcopy, hfor, -, hcase⟩ := syncDocument_stage h path text pending
  rcases hcase with ⟨heq, hnone, -⟩ | ⟨server, hserves, -, hfor', hcopy'⟩
  · rw [heq]
    refine ⟨fun server p => ?_, hfor⟩
    rw [hnone, if_neg (by simp), hcopy]
  · refine ⟨fun server' p => ?_, fun server' p hp => (hfor' p).trans (hfor server' p hp)⟩
    rw [hcopy', hfor', hserves, hcopy]
    simp only [Option.some_inj]

/-- **A document that is told is claimed then, or cannot be.** -/
theorem syncDocument_unclaimed (h : l.InStep) (path : Path) (text : Text)
    (pending : List ChangeSet) :
    (∀ p, l.Unclaimed p → (l.syncDocument path text pending).Unclaimed p) ∧
      ((l.syncDocument path text pending).serverFor path = none →
        (l.syncDocument path text pending).Unclaimed path) := by
  obtain ⟨l₁, -, -, hunclaimed, hcase⟩ := syncDocument_stage h path text pending
  rcases hcase with ⟨heq, hnone⟩ | ⟨server, hserves, hconfigured, hfor, -⟩
  · rw [heq]
    exact ⟨hunclaimed, fun _ => hnone⟩
  · refine ⟨fun p hp => ⟨(hfor p).trans (hunclaimed p hp).1, ?_⟩, fun hnone => ?_⟩
    · rw [hconfigured]
      exact (hunclaimed p hp).2
    · rw [hfor, hserves] at hnone
      cases hnone

theorem syncDocument_inStep (h : l.InStep) {path : Path} (text : Text) {pending : List ChangeSet}
    (hread : ∀ server shadow, l.copy server path = some shadow → Readable pending shadow) :
    (l.syncDocument path text pending).InStep := by
  have hreads : ∀ s, s ∈ l.sessions ∨ s.syncedDocs = ∅ → ∀ shadow,
      s.syncedDocs.lookup path = some shadow → Readable pending shadow := by
    rintro s (hs | hs) shadow hshadow
    · exact hread s.server shadow ((h.held hs path).trans hshadow)
    · rw [hs] at hshadow
      cases hshadow
  have hposted := syncDocument_posted h.sane h.posted path text pending serves_start
    fun s hs hb y hy => syncWith_heard s path text pending hb (hreads s hs) hy
  obtain ⟨hcopy, hfor⟩ := syncDocument_copy h path text pending
  refine ⟨hposted.1, hposted.2, fun server p hp => ?_⟩
  rw [hcopy] at hp
  split_ifs at hp with hmine
  · rw [hmine.1]
    exact hmine.2
  · exact hfor server p (h.owned server p hp)

theorem closeDocument_copy (h : l.InStep) (path : Path) :
    (l.closeDocument path).InStep ∧ ∀ server p, (l.closeDocument path).copy server p =
      if p = path then none else l.copy server p := by
  have hposted := closeDocument_posted h.sane h.posted path fun s hs hopen y hy =>
    without_heard ((h.sane.booked s hs path).symm.trans hopen) hy
  suffices hcopy : (∀ p, (l.closeDocument path).serverFor p = l.serverFor p) ∧
      ∀ server p, (l.closeDocument path).copy server p =
        if p = path then none else l.copy server p by
    refine ⟨⟨hposted.1, hposted.2, fun server p hp => ?_⟩, hcopy.2⟩
    rw [hcopy.2] at hp
    split_ifs at hp
    · cases hp
    · exact (hcopy.1 p).trans (h.owned server p hp)
  cases hs : (l.serverFor path).bind l.session with
  | none =>
    have hclosed : l.closeDocument path = l := by rw [closeDocument, hs]
    rw [hclosed]
    refine ⟨fun _ => rfl, fun server p => ?_⟩
    split_ifs with hp
    · refine hp ▸ h.copy_unowned fun hfor => ?_
      obtain ⟨s, -, hsession⟩ := session_of_serverFor hfor
      rw [hfor, Option.bind_some, hsession] at hs
      cases hs
    · rfl
  | some s =>
    obtain ⟨server, hfor, hsession⟩ := Option.bind_eq_some_iff.mp hs
    obtain ⟨hmem, rfl⟩ := session_spec hsession
    have hothers : ∀ server, server ≠ s.server → l.copy server path = none := fun server hne =>
      h.copy_unowned fun hother => hne (Option.some.inj (hother.symm.trans hfor))
    rw [closeDocument, hs]
    dsimp only
    by_cases hopen : (s.openDocs.lookup path).isSome
    · rw [if_pos hopen]
      have hserver : (s.without path).server = s.server := rfl
      refine ⟨fun p => serverFor_setSession h.sane.nodup hmem hserver rfl p, fun server p => ?_⟩
      refine Eq.trans (copy_setSession h.sane hmem hserver server p) ?_
      by_cases hmine : server = s.server
      · rw [if_pos hmine, hmine, h.held hmem]
        dsimp only [LspSessionState.without]
        by_cases hp : p = path
        · rw [hp, AList.lookup_erase, if_pos rfl]
        · rw [AList.lookup_erase_ne hp, if_neg hp]
      · rw [if_neg hmine]
        split_ifs with hp
        · exact hp ▸ hothers server hmine
        · rfl
    · rw [if_neg hopen]
      refine ⟨fun _ => rfl, fun server p => ?_⟩
      by_cases hp : p = path
      · rw [if_pos hp]
        by_cases hmine : server = s.server
        · have hbooks := (h.sane.booked s hmem path).symm.trans (Bool.not_eq_true _ ▸ hopen)
          rw [← h.held hmem] at hbooks
          rw [hp, hmine]
          exact Option.not_isSome_iff_eq_none.mp (Bool.not_eq_true _ ▸ hbooks)
        · exact hp ▸ hothers server hmine
      · rw [if_neg hp]
        rfl

theorem restart_copy (h : l.InStep) :
    l.restart.InStep ∧ ∀ server p, l.restart.copy server p = none := by
  have hposted := restart_posted h.sane h.posted serves_start
  have hcopy : ∀ server p, l.restart.copy server p = none := by
    intro server p
    cases hs : l.restart.session server with
    | none => rw [copy, hs, Option.bind_none]
    | some s =>
      obtain ⟨s₀, -, rfl⟩ := List.mem_map.mp (session_spec hs).1
      rw [copy, hs]
      rfl
  refine ⟨⟨hposted.1, hposted.2, fun server p hp => ?_⟩, hcopy⟩
  rw [hcopy] at hp
  cases hp

end LspState

end App

end Termesh
