import Termesh.App.Copies

/-!
# The version a server knows of a document

A document that is open under a server keeps its version as long as nothing new is told of it.

* `claiming`, `Holds`: the session that claims a document has it open at a version, with a text;
* `Bypasses`: the deeds that say nothing new of a document;
* `Act.sane`, **`Act.holds`**: a document that is spared keeps its version and its text.
-/

namespace Termesh

open Tables

namespace App

/-! ## One session -/

section Sessions

variable {s : LspSessionState} {path p : Path} {text : Text}

theorem openDocs_bump (hp : p ≠ path) (s : LspSessionState) :
    (s.bump path).openDocs.lookup p = s.openDocs.lookup p :=
  AList.lookup_insert_ne hp

theorem openDocs_sendChanges (hp : p ≠ path) (pending : List ChangeSet) (s : LspSessionState)
    (shadow : Text) :
    (LspState.sendChanges path pending s shadow).1.openDocs.lookup p = s.openDocs.lookup p := by
  induction pending generalizing s shadow with
  | nil => rfl
  | cons changes rest ih =>
    unfold LspState.sendChanges
    split_ifs
    · rfl
    · cases changes.changedSpan with
      | none => exact ih s shadow
      | some span => exact (ih (s.bump path) _).trans (openDocs_bump hp s)

/-- A session that is told of a document knows the versions it knew of the others. -/
theorem openDocs_syncWith (hp : p ≠ path) (s : LspSessionState) (text : Text)
    (pending : List ChangeSet) :
    (LspState.syncWith s path text pending).1.openDocs.lookup p = s.openDocs.lookup p := by
  have hsent := openDocs_sendChanges hp pending s ((s.syncedDocs.lookup path).getD text)
  unfold LspState.syncWith
  split
  · exact openDocs_bump hp s
  · dsimp only
    split_ifs
    · exact (openDocs_bump hp _).trans hsent
    · exact hsent

theorem syncWith_known {version : ℕ} (hopen : s.openDocs.lookup path = some version)
    (hsynced : s.syncedDocs.lookup path = some text) :
    (LspState.syncWith s path text []).1.openDocs = s.openDocs := by
  rw [LspState.syncWith, hopen, hsynced]
  dsimp only [LspState.sendChanges, Option.getD_some]
  rw [if_neg (by simp)]

end Sessions

namespace LspState

variable {D : Deed → Prop} {l l' : LspState} {path : Path} {version : ℕ} {text : Text}

/-! ## The session that claims a document -/

def claiming (l : LspState) (path : Path) : Option LspSessionState :=
  (l.serverFor path).bind l.session

/-- The session that claims a document has it open at a version, and told the text last. -/
def Holds (l : LspState) (path : Path) (version : ℕ) (text : Text) : Prop :=
  ∃ s, l.claiming path = some s ∧ s.openDocs.lookup path = some version ∧
    s.syncedDocs.lookup path = some text

theorem claiming_mem {s : LspSessionState} (hs : l.claiming path = some s) : s ∈ l.sessions := by
  obtain ⟨server, -, hs⟩ := Option.bind_eq_some_iff.mp hs
  exact (session_spec hs).1

theorem Holds.mono (h : l.Holds path version text) (hs : l'.sessions = l.sessions) :
    l'.Holds path version text := by
  obtain ⟨s, hclaims, hheld⟩ := h
  refine ⟨s, ?_, hheld⟩
  have hfor : l'.serverFor path = l.serverFor path := serverFor_of_roster (by rw [hs]) path
  have hsession : l'.session = l.session := by
    funext server
    rw [session, session, hs]
  rw [claiming, hfor, hsession]
  exact hclaims

theorem Holds.set (h : l.Holds path version text) (hsane : l.Sane) {s s' : LspSessionState}
    (hs : s ∈ l.sessions) (hserver : s'.server = s.server) (hext : s'.extensions = s.extensions)
    (hopen : l.claiming path = some s → s'.openDocs.lookup path = s.openDocs.lookup path)
    (hsynced : l.claiming path = some s → s'.syncedDocs.lookup path = s.syncedDocs.lookup path) :
    (l.setSession s').Holds path version text := by
  obtain ⟨t, hclaims, hversion, htext⟩ := h
  obtain ⟨server, hfor, ht⟩ := Option.bind_eq_some_iff.mp hclaims
  have hclaims' : (l.setSession s').claiming path =
      if server = s.server then some s' else l.session server := by
    rw [claiming, serverFor_setSession hsane.nodup hs hserver hext, hfor, Option.bind_some,
      session_setSession (session_of_mem hsane.nodup hs) hserver]
  by_cases hmine : server = s.server
  · obtain rfl : s = t := Option.some.inj ((session_of_mem hsane.nodup hs).symm.trans (hmine ▸ ht))
    rw [if_pos hmine] at hclaims'
    exact ⟨s', hclaims', (hopen hclaims).trans hversion, (hsynced hclaims).trans htext⟩
  · rw [if_neg hmine, ht] at hclaims'
    exact ⟨t, hclaims', hversion, htext⟩

theorem Holds.launch (h : l.Holds path version text) {path' : Path} {server : LspServerId}
    (hl : l.launchFor path' = some (server, l')) : l'.Holds path version text := by
  obtain ⟨t, hclaims, hheld⟩ := h
  obtain ⟨server', hfor, ht⟩ := Option.bind_eq_some_iff.mp hclaims
  obtain ⟨-, -, -, -, -, -, -, s₁, -, -, -, -, -, hss, -⟩ := launchFor_spec hl
  refine ⟨t, ?_, hheld⟩
  rw [claiming, (launchFor_copy hl).2 server' path hfor, Option.bind_some, session, hss,
    List.find?_append]
  rw [session] at ht
  rw [ht]
  rfl

/-! ## Sane sessions -/

theorem posted_anything (l : LspState) :
    l.Posted (fun (_ : Unit) _ => some ()) (fun _ _ => True) fun _ => () := by
  intro server
  refine ⟨(), ?_, fun _ _ _ => trivial⟩
  induction addressed l.outbox server with
  | nil => rfl
  | cons r rs ih => exact ih

theorem launchFor_sane (hsane : l.Sane) {p : Path} {server : LspServerId}
    (hl : l.launchFor p = some (server, l')) : l'.Sane :=
  (launchFor_posted hsane l.posted_anything (fun _ _ _ _ => ⟨(), rfl, trivial⟩) hl).1

/-- Every change keeps the sessions sane. -/
theorem Act.sane (ha : l.Act D l') (hsane : l.Sane) : l'.Sane := by
  cases ha with
  | sync path text pending =>
    exact (syncDocument_posted hsane l.posted_anything path text pending
      (fun _ _ _ _ => ⟨(), rfl, trivial⟩) fun s _ _ _ _ => ⟨(), by
        induction (LspState.syncWith s path text pending).2 with
        | nil => rfl
        | cons r rs ih => exact ih, trivial⟩).1
  | close path =>
    exact (closeDocument_posted hsane l.posted_anything path
      fun _ _ _ _ _ => ⟨(), rfl, trivial⟩).1
  | restart =>
    exact (restart_posted hsane l.posted_anything fun _ _ _ _ => ⟨(), rfl, trivial⟩).1
  | request server kind params =>
    rcases request_spec l server kind params with ⟨-, heq⟩ | ⟨s, hs, heq⟩
    · exact heq ▸ hsane.mono rfl (Nat.le_refl _)
    · obtain ⟨hmem, rfl⟩ := session_spec hs
      have hserver : (s.asking kind ⟨l.nextRequestId + 1⟩).server = s.server := rfl
      have hbooked : (s.asking kind ⟨l.nextRequestId + 1⟩).Booked := hsane.booked s hmem
      exact heq ▸ hsane.set hmem hserver hbooked rfl rfl
  | tell rs hrs => exact hsane.mono rfl (Nat.le_refl _)
  | settle hs hsettled hss ho hr hn =>
    rename_i server s s'
    obtain ⟨hmem, rfl⟩ := session_spec hs
    refine hsane.set hmem hsettled.server (fun p => ?_) hss hn
    rw [hsettled.openDocs, hsettled.syncedDocs]
    exact hsane.booked s hmem p
  | idle hs ho hr hn => exact hsane.mono hs (Nat.le_of_eq hn.symm)
  | reopen configured => exact ⟨List.nodup_nil, List.forall_mem_nil _, List.forall_mem_nil _⟩

/-! ## Deeds that say nothing new -/

/-- The deed has nothing new to tell of the document. -/
def Bypasses (path : Path) (text : Text) : Deed → Prop
  | .sync p t pending => p = path → t = text ∧ pending = []
  | .close p => p ≠ path
  | .restart | .reopen => False

theorem syncDocument_holds (hsane : l.Sane) (h : l.Holds path version text) {p : Path} {t : Text}
    {pending : List ChangeSet} (hd : Bypasses path text (.sync p t pending)) :
    (l.syncDocument p t pending).Holds path version text := by
  obtain ⟨diagnostics, l₁, hl₁, hcase⟩ := syncDocument_cases l p t pending
  have hsane₀ : LspState.Sane { l with diagnostics } := hsane.mono rfl (Nat.le_refl _)
  have hholds₀ : LspState.Holds { l with diagnostics } path version text := h.mono rfl
  obtain ⟨hsane₁, hholds₁⟩ : l₁.Sane ∧ l₁.Holds path version text := by
    rcases hl₁ with rfl | ⟨-, server, hl₁⟩
    · exact ⟨hsane₀, hholds₀⟩
    · exact ⟨launchFor_sane hsane₀ hl₁, hholds₀.launch hl₁⟩
  rcases hcase with ⟨heq, -⟩ | ⟨s, hs, -, heq⟩
  · rwa [heq]
  · obtain ⟨hserver, hext, hsynced, -⟩ := syncWith_books s p t pending (hsane₁.booked s hs)
    rw [heq]
    refine Holds.mono (hholds₁.set hsane₁ hs hserver hext (fun hmine => ?_) fun hmine => ?_) rfl
    all_goals obtain ⟨s', hclaims, hversion, htext⟩ := hholds₁
    all_goals obtain rfl : s = s' := Option.some.inj (hmine.symm.trans hclaims)
    · by_cases hp : p = path
      · obtain ⟨rfl, rfl⟩ := hd hp
        subst hp
        rw [syncWith_known hversion htext]
      · exact openDocs_syncWith (Ne.symm hp) s t pending
    · rw [hsynced]
      by_cases hp : p = path
      · subst hp
        rw [AList.lookup_insert, htext, (hd rfl).1]
      · rw [AList.lookup_insert_ne (Ne.symm hp)]

theorem closeDocument_holds (hsane : l.Sane) (h : l.Holds path version text) {p : Path}
    (hp : p ≠ path) : (l.closeDocument p).Holds path version text := by
  unfold closeDocument
  split
  · exact h
  · rename_i s hs
    obtain ⟨hmem, -⟩ := session_spec (Option.bind_eq_some_iff.mp hs).choose_spec.2
    dsimp only
    split_ifs
    · have hset : (l.setSession (s.without p)).Holds path version text :=
        h.set hsane hmem rfl rfl (fun _ => AList.lookup_erase_ne (Ne.symm hp))
          fun _ => AList.lookup_erase_ne (Ne.symm hp)
      exact hset.mono rfl
    · exact h.mono rfl

/-! ## Every change -/

/-- **A document that is spared keeps its version**, and the text that was told of it. -/
theorem Act.holds (ha : l.Act (Bypasses path text) l') (hsane : l.Sane)
    (h : l.Holds path version text) : l'.Holds path version text := by
  cases ha with
  | sync p t pending hd => exact syncDocument_holds hsane h hd
  | close p hd => exact closeDocument_holds hsane h hd
  | restart hd => exact hd.elim
  | request server kind params =>
    rcases request_spec l server kind params with ⟨-, heq⟩ | ⟨s, hs, heq⟩
    · exact heq ▸ h.mono rfl
    · obtain ⟨hmem, -⟩ := session_spec hs
      rw [heq]
      have hset : (l.setSession (s.asking kind ⟨l.nextRequestId + 1⟩)).Holds path version text :=
        h.set hsane hmem rfl rfl (fun _ => rfl) fun _ => rfl
      exact hset.mono rfl
  | tell rs hrs => exact h.mono rfl
  | settle hs hsettled hss ho hr hn =>
    obtain ⟨hmem, -⟩ := session_spec hs
    have hset := h.set hsane hmem hsettled.server hsettled.extensions
      (fun _ => by rw [hsettled.openDocs]) fun _ => by rw [hsettled.syncedDocs]
    exact hset.mono hss
  | idle hs ho hr hn => exact h.mono hs
  | reopen configured hd => exact hd.elim

/-- **Any number of changes.** -/
theorem Course.holds (hc : l.Course (Bypasses path text) l') (hsane : l.Sane)
    (h : l.Holds path version text) : l'.Holds path version text := by
  have hkept : l'.Sane ∧ l'.Holds path version text := by
    induction hc with
    | refl => exact ⟨hsane, h⟩
    | tail _ ha ih => exact ⟨ha.sane ih.1, ha.holds ih.1 ih.2⟩
  exact hkept.2

theorem Course.sane (hc : l.Course D l') (hsane : l.Sane) : l'.Sane := by
  induction hc with
  | refl => exact hsane
  | tail _ ha ih => exact ha.sane ih

end LspState

end App

end Termesh
