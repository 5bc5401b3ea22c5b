import Termesh.App.Copies
import Termesh.App.Documents
import Termesh.App.Files
import Termesh.Editor.UndoRedo
import Termesh.Lib.First
import Termesh.Lib.Run

/-!
# The servers' documents are the buffers

Buffers are edited, reloaded and closed, servers are restarted, and now and then every buffer is
told to the server that claims it. A server of the protocol then holds the text of every buffer, as
long as what it is told is at positions it reads as the editor does.

* **`drainInto_copy`**: every buffer is told;
* `Labour`, `labour`, `Level`, **`labour_level`**: the runs, and what every step keeps;
* **`replicas_agree`**: what every server holds in every run;
* **`replica_astray`**: a line separator in front of an edit.
-/

namespace Termesh

open Lsp Firsts

namespace App

/-! ## Every buffer -/

namespace Model

open LspState

/-- The paths of the open buffers. -/
def paths (bs : List Buffer) : List Path := bs.filterMap (·.path)

/-- What every buffer has to tell is told at positions the protocol reads as the editor does. -/
def Readable (m : Model) : Prop :=
  ∀ b ∈ m.buffers, ∀ path, b.path = some path → ∀ server shadow,
    m.lsp.copy server path = some shadow → Termesh.Readable b.pendingChanges shadow

theorem drainInto_first (b : Buffer) (bs : List Buffer) {l : LspState} (h : l.InStep)
    (hread : ∀ path, b.path = some path → ∀ server shadow, l.copy server path = some shadow →
      Termesh.Readable b.pendingChanges shadow) :
    ∃ l₁, (drainInto (b :: bs) l).2 = (drainInto bs l₁).2 ∧ l₁.InStep ∧
      (∀ server p, l.serverFor p = some server → l₁.serverFor p = some server) ∧
      (∀ p, l.Unclaimed p → l₁.Unclaimed p) ∧
      (∀ server p, b.path ≠ some p → l₁.copy server p = l.copy server p) ∧
      ∀ path, b.path = some path → (l₁.serverFor path = none → l₁.Unclaimed path) ∧
        ∀ server, l₁.copy server path =
          if l₁.serverFor path = some server then some b.text else none := by
  cases hb : b.path with
  | none =>
    refine ⟨l, by rw [drainInto, hb], h, fun _ _ hp => hp, fun _ hp => hp, fun _ _ _ => rfl, ?_⟩
    intro path hpath
    cases hpath
  | some path =>
    obtain ⟨hcopy, hfor⟩ := syncDocument_copy h path b.text b.pendingChanges
    obtain ⟨hunclaimed, hnone⟩ := syncDocument_unclaimed h path b.text b.pendingChanges
    have hinstep := syncDocument_inStep h b.text (hread path hb)
    refine ⟨l.syncDocument path b.text b.pendingChanges, by rw [drainInto, hb]; rfl, hinstep, hfor,
      hunclaimed, fun server p hp => ?_, fun path' hpath' => ?_⟩
    · rw [hcopy, if_neg fun hc => hp (congrArg some hc.1.symm)]
    · obtain rfl := Option.some.inj hpath'
      refine ⟨hnone, fun server => ?_⟩
      by_cases hmine : (l.syncDocument path b.text b.pendingChanges).serverFor path = some server
      · rw [hcopy, if_pos ⟨rfl, hmine⟩, if_pos hmine]
      · rw [if_neg hmine]
        exact hinstep.copy_unowned hmine

theorem paths_cons (b : Buffer) (bs : List Buffer) :
    paths (b :: bs) = b.path.toList ++ paths bs := by
  rw [paths, List.filterMap_cons]
  cases b.path <;> rfl

/-- **Every buffer is told**: the session that claims it remembers its text. -/
theorem drainInto_copy (bs : List Buffer) {l : LspState} (h : l.InStep) (hnd : (paths bs).Nodup)
    (hread : ∀ b ∈ bs, ∀ path, b.path = some path → ∀ server shadow,
      l.copy server path = some shadow → Termesh.Readable b.pendingChanges shadow) :
    (drainInto bs l).2.InStep ∧
      (∀ server p, l.serverFor p = some server → (drainInto bs l).2.serverFor p = some server) ∧
      (∀ p, l.Unclaimed p → (drainInto bs l).2.Unclaimed p) ∧
      (∀ server p, p ∉ paths bs → (drainInto bs l).2.copy server p = l.copy server p) ∧
      ∀ b ∈ bs, ∀ path, b.path = some path → ∀ server, (drainInto bs l).2.copy server path =
        if (drainInto bs l).2.serverFor path = some server then some b.text else none := by
  induction bs generalizing l with
  | nil => exact ⟨h, fun _ _ hp => hp, fun _ hp => hp, fun _ _ _ => rfl, List.forall_mem_nil _⟩
  | cons b bs ih =>
    obtain ⟨hread₀, hreads⟩ := List.forall_mem_cons.mp hread
    obtain ⟨l₁, heq, hinstep, hfor, hunclaimed, hothers, hown⟩ := drainInto_first b bs h hread₀
    rw [paths_cons] at hnd
    obtain ⟨-, hnd, hdisjoint⟩ := List.nodup_append.mp hnd
    have hapart : ∀ path ∈ paths bs, b.path ≠ some path := fun path hpath hb =>
      hdisjoint path (by rw [hb]; exact List.mem_singleton_self path) path hpath rfl
    obtain ⟨hinstep', hfor', hunclaimed', hothers', hown'⟩ := ih hinstep hnd
      fun b' hb' path hpath server shadow hshadow => by
        rw [hothers server path (hapart path (List.mem_filterMap.mpr ⟨b', hb', hpath⟩))] at hshadow
        exact hreads b' hb' path hpath server shadow hshadow
    rw [heq]
    refine ⟨hinstep', fun server p hp => hfor' server p (hfor server p hp),
      fun p hp => hunclaimed' p (hunclaimed p hp), fun server p hp => ?_, ?_⟩
    · rw [paths_cons, List.mem_append, not_or] at hp
      rw [hothers' server p hp.2]
      exact hothers server p fun hb => hp.1 (by rw [hb]; exact List.mem_singleton_self p)
    · refine List.forall_mem_cons.mpr ⟨fun path hpath server => ?_, hown'⟩
      obtain ⟨hnone, hcopy⟩ := hown path hpath
      rw [hothers' server path fun hmem => hapart path hmem hpath, hcopy]
      -- the session that claims the path now claims it to the end
      cases hclaimed : l₁.serverFor path with
      | none => rw [(hunclaimed' path (hnone hclaimed)).1]
      | some server' => rw [hfor' server' path hclaimed]

end Model

/-! ## Runs -/

/-- What is done with the open buffers and their servers. -/
inductive Labour where
  /-- An edit, an undo, a redo and whatever else becomes of one buffer. -/
  | buffer (i : ℕ) (op : BufferOp)
  | load (buffer : BufferId) (path : Path) (text : Text)
  | reload (i : ℕ) (text : Text)
  | close (buffer : BufferId)
  | restart
  | sync

namespace Model

open LspState

/-- One step. Nothing takes the requests off the queue, so that it records them all. A file that is
open already is not loaded again. -/
def labour (m : Model) : Labour → Option Model
  | .buffer i op => (m.buffers[i]?).bind fun b => (b.step op).map (m.setBuffer i)
  | .load buffer path text =>
    some (if path ∈ paths m.buffers then m
      else { m with buffers := m.buffers ++ [Buffer.fromText buffer (some path) text] })
  | .reload i text =>
    (m.buffers[i]?).map fun old =>
      match old.path with
      | none => m
      | some path =>
        { m with lsp := m.lsp.closeDocument path }.setBuffer i (reloaded old.id path text old)
  | .close buffer => some (m.discardBuffer buffer)
  | .restart => some m.restartLanguageServers
  | .sync => some m.syncLspDocuments

/-- No server runs yet, and no file is open twice. -/
def Unserved (m : Model) : Prop :=
  m.lsp.sessions = [] ∧ m.lsp.outbox = [] ∧ (paths m.buffers).Nodup

/-- What is told is told at positions the protocol reads as the editor does. -/
def Readably (m : Model) (a : Labour) : Prop := a = .sync → m.Readable

/-- The servers are in step, and hold nothing but open files. -/
structure Level (m : Model) : Prop where
  instep : m.lsp.InStep
  nodup : (paths m.buffers).Nodup
  listed : ∀ server path, (m.lsp.copy server path).isSome → path ∈ paths m.buffers

variable {m m' : Model}

theorem mem_paths {bs : List Buffer} {path : Path} :
    path ∈ paths bs ↔ ∃ b ∈ bs, b.path = some path := List.mem_filterMap

theorem paths_of_map {bs bs' : List Buffer} (h : bs'.map (·.path) = bs.map (·.path)) :
    paths bs' = paths bs := by
  have hpaths : ∀ bs : List Buffer, paths bs = (bs.map (·.path)).filterMap id := fun bs => by
    rw [List.filterMap_map]
    rfl
  rw [hpaths, hpaths, h]

theorem Level.of_eq (h : m.Level) (hl : m'.lsp = m.lsp) (hp : paths m'.buffers = paths m.buffers) :
    m'.Level := by
  refine ⟨hl ▸ h.instep, hp ▸ h.nodup, ?_⟩
  rw [hl, hp]
  exact h.listed

theorem level_of_unserved (h : m.Unserved) : m.Level := by
  obtain ⟨hs, ho, hnd⟩ := h
  have hcopy : ∀ server path, m.lsp.copy server path = none := fun server path => by
    rw [copy, session, hs]
    rfl
  refine ⟨⟨⟨?_, ?_, ?_⟩, fun server => ⟨none, ?_, ?_⟩, fun server path hp => ?_⟩, hnd,
    fun server path hp => ?_⟩
  · rw [hs]
    exact List.nodup_nil
  · rw [hs]
    exact List.forall_mem_nil _
  · rw [hs]
    exact List.forall_mem_nil _
  · rw [ho]
    rfl
  · rw [hs]
    exact List.forall_mem_nil _
  · rw [hcopy] at hp
    cases hp
  · rw [hcopy] at hp
    cases hp

theorem step_path {b b' : Buffer} {op : BufferOp} (h : b.step op = some b') : b'.path = b.path := by
  cases op with
  | groupFor source =>
    obtain rfl := Option.some.inj h
    rfl
  | apply t =>
    obtain ⟨⟨b₁, r⟩, happly, rfl⟩ := Option.map_eq_some_iff.mp h
    cases Buffer.applied_of_apply happly <;> rfl
  | setSelection s =>
    obtain rfl := Option.some.inj h
    rfl
  | markSaved v =>
    obtain rfl := Option.some.inj h
    rfl
  | undo =>
    obtain ⟨⟨b₁, did⟩, hundo, rfl⟩ := Option.map_eq_some_iff.mp h
    exact (Buffer.undo_moves (P := fun _ _ => True) hundo).keeps.2.1
  | redo =>
    obtain ⟨⟨b₁, did⟩, hredo, rfl⟩ := Option.map_eq_some_iff.mp h
    exact (Buffer.redo_moves (P := fun _ _ => True) hredo).keeps.2.1

theorem mem_paths_eraseIdx {bs : List Buffer} {i : ℕ} {path : Path} (h : path ∈ paths bs) :
    path ∈ paths (bs.eraseIdx i) ∨ (bs[i]?).bind (·.path) = some path := by
  obtain ⟨b, hb, hpath⟩ := mem_paths.mp h
  obtain ⟨j, hj, rfl⟩ := List.mem_iff_getElem.mp hb
  by_cases hij : j = i
  · subst hij
    exact .inr (by rw [List.getElem?_eq_getElem hj, Option.bind_some, hpath])
  · exact .inl (mem_paths.mpr ⟨bs[j],
      List.mem_eraseIdx_iff_getElem.mpr ⟨j, hj, hij, rfl⟩, hpath⟩)

theorem discardBuffer_level (h : m.Level) (id : BufferId) : (m.discardBuffer id).Level := by
  unfold discardBuffer
  split
  · exact h
  · rename_i index hindex
    have hnd : (paths (m.buffers.eraseIdx index)).Nodup :=
      h.nodup.sublist ((List.eraseIdx_sublist _ _).filterMap _)
    dsimp only
    cases hpath : (m.buffers[index]?).bind (·.path) with
    | none =>
      refine ⟨h.instep, hnd, fun server p hp => ?_⟩
      rcases mem_paths_eraseIdx (i := index) (h.listed server p hp) with hmem | hgone
      · exact hmem
      · rw [hpath] at hgone
        cases hgone
    | some path =>
      obtain ⟨hinstep, hcopy⟩ := closeDocument_copy h.instep path
      refine ⟨hinstep, hnd, fun server p hp => ?_⟩
      have hp : ((m.lsp.closeDocument path).copy server p).isSome := hp
      rw [hcopy] at hp
      split_ifs at hp with hclosed
      · cases hp
      · rcases mem_paths_eraseIdx (i := index) (h.listed server p hp) with hmem | hgone
        · exact hmem
        · exact absurd (Option.some.inj (hgone.symm.trans hpath)) hclosed

theorem restartLanguageServers_level (h : m.Level) : m.restartLanguageServers.Level := by
  unfold restartLanguageServers
  split
  · exact h.of_eq rfl rfl
  · obtain ⟨hinstep, hcopy⟩ := restart_copy h.instep
    have hpaths : paths (m.buffers.map fun b =>
        { b with decorations := b.decorations.clearDiagnostics }) = paths m.buffers :=
      paths_of_map (by rw [List.map_map]; rfl)
    refine ⟨hinstep, hpaths.symm ▸ h.nodup, fun server p hp => ?_⟩
    have hp : (m.lsp.restart.copy server p).isSome := hp
    rw [hcopy] at hp
    cases hp

theorem paths_drainInto (bs : List Buffer) (l : LspState) : paths (drainInto bs l).1 = paths bs := by
  have hpaths : ∀ bs : List Buffer, bs.map (·.path) = (bs.map Buffer.bare).map (·.path) :=
    fun bs => by
      rw [List.map_map]
      rfl
  refine paths_of_map ?_
  rw [hpaths, drainInto_fst, ← hpaths]

theorem paths_syncLspDocuments (m : Model) :
    paths m.syncLspDocuments.buffers = paths m.buffers := by
  refine Eq.trans ?_ (paths_drainInto m.buffers m.lsp)
  unfold syncLspDocuments syncDrafts
  dsimp only
  split <;> rfl

theorem syncLspDocuments_level (h : m.Level) (hread : m.Readable) : m.syncLspDocuments.Level := by
  obtain ⟨hinstep, -, -, hothers, -⟩ := drainInto_copy m.buffers h.instep h.nodup hread
  have hlsp : m.syncLspDocuments.lsp = (drainInto m.buffers m.lsp).2 := syncDrafts_lsp _
  refine ⟨hlsp ▸ hinstep, (paths_syncLspDocuments m).symm ▸ h.nodup, fun server p hp => ?_⟩
  rw [hlsp] at hp
  rw [paths_syncLspDocuments]
  by_contra hnot
  rw [hothers server p hnot] at hp
  exact hnot (h.listed server p hp)

/-- **Every step keeps the servers in step.** -/
theorem labour_level {a : Labour} (h : m.Level) (hok : m.Readably a) (hs : m.labour a = some m') :
    m'.Level := by
  cases a with
  | buffer i op =>
    obtain ⟨b, hb, hs⟩ := Option.bind_eq_some_iff.mp hs
    obtain ⟨b', hstep, rfl⟩ := Option.map_eq_some_iff.mp hs
    exact h.of_eq rfl (paths_of_map (map_set_of_eq hb (step_path hstep)))
  | load buffer path text =>
    obtain rfl := Option.some.inj hs
    split_ifs with hopen
    · exact h
    · have hpaths : paths (m.buffers ++ [Buffer.fromText buffer (some path) text]) =
          paths m.buffers ++ [path] := List.filterMap_append
      refine ⟨h.instep, ?_, fun server p hp => ?_⟩
      · rw [hpaths, ← List.concat_eq_append, List.nodup_concat]
        exact ⟨hopen, h.nodup⟩
      · rw [hpaths]
        exact List.mem_append_left _ (h.listed server p hp)
  | reload i text =>
    obtain ⟨old, hold, rfl⟩ := Option.map_eq_some_iff.mp hs
    cases hpath : old.path with
    | none => exact h
    | some path =>
      obtain ⟨hinstep, hcopy⟩ := closeDocument_copy h.instep path
      have hpaths : paths (m.buffers.set i (reloaded old.id path text old)) = paths m.buffers :=
        paths_of_map (map_set_of_eq hold hpath.symm)
      refine ⟨hinstep, hpaths.symm ▸ h.nodup, fun server p hp => ?_⟩
      have hp : ((m.lsp.closeDocument path).copy server p).isSome := hp
      rw [hcopy] at hp
      split_ifs at hp
      · cases hp
      · exact hpaths.symm ▸ h.listed server p hp
  | close buffer =>
    obtain rfl := Option.some.inj hs
    exact discardBuffer_level h buffer
  | restart =>
    obtain rfl := Option.some.inj hs
    exact restartLanguageServers_level h
  | sync =>
    obtain rfl := Option.some.inj hs
    exact syncLspDocuments_level h (hok rfl)

/-- Every server that was started holds the documents it claims, with the texts they have in the
editor, and no other. -/
def Matched (m : Model) : Prop :=
  ∀ s ∈ m.lsp.sessions, ∃ r, hearAll none (addressed m.lsp.outbox s.server) = some (some r) ∧
    ∀ path text, r.docs path = some text ↔ m.lsp.serverFor path = some s.server ∧
      ∃ b ∈ m.buffers, b.path = some path ∧ b.text = text

theorem open_iff {path : Path} {text : Text} :
    (∃ b ∈ m.buffers, b.path = some path ∧ b.text = text) ↔ (some path, text) ∈ m.pages := by
  simp only [pages, List.mem_map, Prod.mk.injEq]

/-- **After a sync every server holds the buffers it claims.** -/
theorem syncLspDocuments_matched (h : m.Level) (hread : m.Readable) :
    m.syncLspDocuments.Matched := by
  have hlevel := syncLspDocuments_level h hread
  obtain ⟨-, -, -, -, hown⟩ := drainInto_copy m.buffers h.instep h.nodup hread
  have hlsp : m.syncLspDocuments.lsp = (drainInto m.buffers m.lsp).2 := syncDrafts_lsp _
  have hpages : m.syncLspDocuments.pages = m.pages :=
    pages_of_documents (documents_of_bare (syncLspDocuments_bare m))
  rw [← hlsp] at hown
  intro s hs
  obtain ⟨y, hy, hserves⟩ := hlevel.instep.posted s.server
  obtain ⟨r, rfl, hdocs, -⟩ := hserves s hs rfl
  refine ⟨r, hy, fun path text => ?_⟩
  rw [open_iff, hpages, ← open_iff, hdocs path, ← hlevel.instep.held hs]
  constructor
  · intro hcopy
    have hlisted := hlevel.listed s.server path (by rw [hcopy]; rfl)
    rw [paths_syncLspDocuments] at hlisted
    obtain ⟨b, hb, hpath⟩ := mem_paths.mp hlisted
    rw [hown b hb path hpath] at hcopy
    split_ifs at hcopy with hfor
    exact ⟨hfor, b, hb, hpath, Option.some.inj hcopy⟩
  · rintro ⟨hfor, b, hb, hpath, rfl⟩
    rw [hown b hb path hpath, if_pos hfor]

/-- **The servers' documents are the buffers**, in every run that tells them nothing at a position
they read elsewhere. No document is changed or closed that its server does not have open, versions
increase from start to start, and after a sync every server holds what the buffers hold. -/
theorem replicas_agree (h : Runs.Reach labour Readably Unserved m) :
    (∀ server, (hearAll none (addressed m.lsp.outbox server)).isSome) ∧
      (∀ server before between after,
        addressed m.lsp.outbox server = before ++ between ++ after → (∀ r ∈ between, ¬ Starts r) →
          (between.filterMap wireVersion).Pairwise (· < ·)) ∧
      ∀ m', m.labour .sync = some m' → m.Readable → m'.Matched := by
  have hlevel : m.Level := h.inv (fun _ => level_of_unserved) fun _ _ _ => labour_level
  have hheard : ∀ server, (hearAll none (addressed m.lsp.outbox server)).isSome := fun server => by
    obtain ⟨y, hy, -⟩ := hlevel.instep.posted server
    exact Option.isSome_iff_exists.mpr ⟨y, hy⟩
  refine ⟨hheard, fun server before between after heq hno => ?_, fun m' hs hread => ?_⟩
  · obtain ⟨y, hy⟩ := Option.isSome_iff_exists.mp (hheard server)
    rw [heq, hearAll_append, hearAll_append] at hy
    obtain ⟨x₂, hx, -⟩ := Option.bind_eq_some_iff.mp hy
    obtain ⟨x₁, -, hx⟩ := Option.bind_eq_some_iff.mp hx
    exact (versions_increase hx hno).1
  · obtain rfl := Option.some.inj hs
    exact syncLspDocuments_matched hlevel hread

def listing : Path := [.rootDir, .normal "w", .normal "a.rs"]

/-- A listing is open, and a server for it can be launched. -/
def opened (text : Text) : Model :=
  { buffers := [Buffer.fromText ⟨1⟩ (some listing) text]
    lsp := { configured :=
      [⟨"rust", ["rs"], ⟨[.rootDir, .normal "w"], ["rust-analyzer"], none⟩, .idle⟩] } }

/-- An `x` in front of the third of three characters. -/
def typedX (text : Text) : EditTransaction :=
  ((Buffer.fromText ⟨1⟩ (some listing) text).transaction
    ((ChangeSet.replace 3 2 2 ['x']).get (by decide)) .keyboard).2

theorem opened_reach {ok : Model → Labour → Prop} (text : Text)
    (hok : ok (opened text) .sync ∧ ∀ m, ok m (.buffer 0 (.apply (typedX text))))
    (hs : Runs.run labour (opened text) [.sync, .buffer 0 (.apply (typedX text))] = some m) :
    Runs.Reach labour ok Unserved m := by
  obtain ⟨m₁, h₁, hs⟩ := Option.bind_eq_some_iff.mp hs
  obtain ⟨m₂, h₂, hs⟩ := Option.bind_eq_some_iff.mp hs
  obtain rfl := Option.some.inj hs
  have hstart : Runs.Reach labour ok Unserved (opened text) :=
    .start ⟨rfl, rfl, List.nodup_singleton listing⟩
  exact .next (.next hstart hok.1 h₁) (hok.2 m₁) h₂

/-- The listing is told to its server and typed into. -/
def typed : Model :=
  (Runs.run labour (opened ['v', 'a', 'b'])
    [.sync, .buffer 0 (.apply (typedX ['v', 'a', 'b']))]).get (by decide +kernel)

theorem typed_readable : typed.Readable := by
  intro b hb path hpath server shadow hshadow
  have hpending : ∀ b ∈ typed.buffers, b.pendingChanges = [(typedX ['v', 'a', 'b']).changes] ∧
      b.path = some listing := by decide +kernel
  have hsynced : ∀ s ∈ typed.lsp.sessions, s.syncedDocs.lookup listing = some ['v', 'a', 'b'] := by
    decide +kernel
  obtain ⟨s, hs, hlookup⟩ := Option.bind_eq_some_iff.mp hshadow
  obtain rfl := Option.some.inj (hpath.symm.trans (hpending b hb).2)
  obtain rfl := Option.some.inj (hlookup.symm.trans (hsynced s (session_spec hs).1))
  have hspan : (typedX ['v', 'a', 'b']).changes.changedSpan = some ⟨2, 2, 2, 3⟩ := by decide
  rw [(hpending b hb).1]
  intro _
  rw [hspan]
  exact ⟨by decide, by decide, trivial⟩

theorem replicas_agree_typed : typed.syncLspDocuments.Matched := by
  have hopened : (opened ['v', 'a', 'b']).Readable := fun _ _ _ _ _ _ hcopy => (nomatch hcopy)
  have hreach : Runs.Reach labour Readably Unserved typed :=
    opened_reach _ ⟨fun _ => hopened, fun _ ha => (nomatch ha)⟩ (Option.some_get _).symm
  exact (replicas_agree hreach).2.2 _ rfl typed_readable

/-- The first character is a line separator. -/
def typedBehind : Model :=
  (Runs.run labour (opened ['\u2028', 'a', 'b'])
    [.sync, .buffer 0 (.apply (typedX ['\u2028', 'a', 'b']))]).get (by decide +kernel)

/-- **A line separator leads the server astray**: it reads the change on a line it does not have, and
puts the character at the end of its document. -/
theorem replica_astray : ¬ ∀ m, Runs.Reach labour (fun _ _ => True) Unserved m →
    ∀ m', m.labour .sync = some m' → m'.Matched := by
  intro hall
  have hreach : Runs.Reach labour (fun _ _ => True) Unserved typedBehind :=
    opened_reach _ ⟨trivial, fun _ => trivial⟩ (Option.some_get _).symm
  have hmatched := hall _ hreach _ rfl
  obtain ⟨s, hs, hserver⟩ : ∃ s ∈ typedBehind.syncLspDocuments.lsp.sessions, s.server = ⟨1⟩ := by
    decide +kernel
  obtain ⟨r, hheard, hdocs⟩ := hmatched s hs
  have hheld : r.docs listing = some ['\u2028', 'a', 'b', 'x'] := by
    have hread : ((hearAll none (addressed typedBehind.syncLspDocuments.lsp.outbox ⟨1⟩)).map
        fun x => x.map fun r => r.docs listing) =
          some (some (some ['\u2028', 'a', 'b', 'x'])) := by decide +kernel
    rw [← hserver, hheard] at hread
    exact Option.some.inj (Option.some.inj hread)
  obtain ⟨-, b, hb, -, htext⟩ := (hdocs _ _).mp hheld
  have htexts : ∀ b ∈ typedBehind.syncLspDocuments.buffers, b.text = ['\u2028', 'a', 'x', 'b'] := by
    decide +kernel
  rw [htexts b hb] at htext
  exact absurd htext (by decide)

end Model

end App

end Termesh
