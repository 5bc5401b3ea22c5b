import Termesh.App.Frames
import Termesh.Core.Lexical

/-!
# Reads on behalf of the agent and of language servers

`starts_with` compares components and keeps `..`, so a path may start with the root and lead out of
it. A read is confined exactly when the path enters again what it climbs over.

* `queued`, `Confined`: what a step asks of the filesystem worker;
* `wouldRead`: a path that is neither open nor being opened;
* **`reads_confined_iff`**: when each of them is confined.
-/

namespace Termesh

namespace App.Model

/-- What a step queued for the filesystem worker. -/
def queued (m m' : Model) : List FsRequest := m'.outbox.drop m.outbox.length

/-- Every read a step queued names a path at or below the root. -/
def Confined (root : Path) (m m' : Model) : Prop :=
  ∀ b p, .readFile b p ∈ m.queued m' → p.Under root

/-- Neither open nor being opened. -/
def wouldRead (m : Model) (path : Path) : Bool :=
  (m.indexOf path).isNone && !m.opening.any fun o => o.2 = path

theorem queued_append {m m' : Model} {new : List FsRequest} (h : m'.outbox = m.outbox ++ new) :
    m.queued m' = new := by rw [queued, h, List.drop_left]

theorem outbox_of_shell {m m' : Model} (h : m'.shell = m.shell) : m'.outbox = m.outbox :=
  show m'.shell.outbox = m.shell.outbox by rw [h]

theorem confined_nil {root : Path} {m m' : Model} (h : m.queued m' = []) : Confined root m m' := by
  intro b p hp
  rw [h] at hp
  simp at hp

theorem confined_read {root path : Path} {m m' : Model} {b : BufferId}
    (h : m.queued m' = [.readFile b path]) : Confined root m m' ↔ path.Under root := by
  rw [Confined, h]
  constructor
  · intro hc
    exact hc b path List.mem_cons_self
  · intro hu b' p hp
    rw [List.mem_singleton, FsRequest.readFile.injEq] at hp
    rw [hp.2]
    exact hu

/-- A path that starts with the root leads into it exactly when it enters again what it climbs
over. -/
theorem under_iff {root path : Path} (h : path.startsWith root = true) :
    path.Under root ↔ root.Reenters (path.drop root.length) := by
  obtain ⟨tail, rfl⟩ := List.isPrefixOf_iff_prefix.mp h
  rw [List.drop_left]
  exact Path.under_append_iff root tail

/-! ## The three entry points -/

theorem queued_serveRead {m : Model} {root : Path} (hr : m.root = some root) (session : SessionId)
    (request : ReadRequestId) {path : Path} (hb : m.bufferAt path = none) :
    if path.startsWith root then
      m.queued (m.serveRead session request path) = [.readFile ⟨m.nextBufferId + 1⟩ path]
    else
      m.queued (m.serveRead session request path) = [] ∧
        (m.serveRead session request path).agentOutbox =
          m.agentOutbox ++ [.fileContents session request path none] := by
  by_cases hs : path.startsWith root = true
  · rw [if_pos hs]
    refine queued_append ?_
    rw [serveRead, hb, hr]
    simp only [Option.any_some, if_pos hs]
    rfl
  · rw [if_neg hs]
    constructor
    · refine queued_append ?_
      rw [serveRead, hb, hr]
      simp only [Option.any_some, if_neg hs]
      exact (List.append_nil _).symm
    · rw [serveRead, hb, hr]
      simp only [Option.any_some, if_neg hs]
      rfl

theorem queued_openFile (m : Model) (path : Path) :
    m.queued (m.openFile path) =
      if m.wouldRead path then [.readFile ⟨m.nextBufferId + 1⟩ path] else [] := by
  unfold openFile wouldRead
  cases hi : m.indexOf path with
  | some i => exact queued_append (List.append_nil _).symm
  | none =>
    simp only [Option.isNone_none, Bool.true_and, Bool.not_eq_true']
    by_cases ho : (m.opening.any fun o => o.2 = path) = true
    · rw [if_pos ho, if_neg (by simp [ho])]
      exact queued_append (List.append_nil _).symm
    · rw [if_neg ho, if_pos (Bool.eq_false_iff.mpr ho)]
      exact queued_append rfl

theorem located_isNone (m : Model) (path : Path) :
    (m.located path).isNone = (m.indexOf path).isNone := by
  unfold located
  cases hi : m.indexOf path with
  | none => rfl
  | some i =>
    obtain ⟨hlt, -⟩ := List.findIdx?_eq_some_iff_getElem.mp hi
    simp [List.getElem?_eq_getElem hlt]

theorem queued_openFileAt (m : Model) (path : Path) (line column : ℕ) :
    m.queued (m.openFileAt path line column) =
      if m.wouldRead path then [.readFile ⟨m.nextBufferId + 1⟩ path] else [] := by
  unfold openFileAt positionOpenBuffer
  cases hl : m.located path with
  | some t =>
    have hi : (m.indexOf path).isNone = false := by rw [← located_isNone, hl]; rfl
    rw [wouldRead, hi]
    exact queued_append (List.append_nil _).symm
  | none =>
    exact queued_openFile { m with pendingOpenLocation := some (path, line, column) } path

theorem queued_openLspLocation {m : Model} {root : Path} (hr : m.root = some root)
    (location : Location) :
    m.queued (m.openLspLocation location) =
      if location.path.startsWith root ∧ m.wouldRead location.path then
        [.readFile ⟨m.nextBufferId + 1⟩ location.path]
      else [] := by
  rw [openLspLocation, hr, Option.any_some]
  by_cases hs : location.path.startsWith root = true
  · rw [if_pos hs, queued_openFileAt]
    simp only [hs, true_and]
  · rw [if_neg hs, if_neg (fun h => hs h.1)]
    exact queued_append (List.append_nil _).symm

/-- The reads of `queueTargets` are for the paths that are neither open nor being opened. -/
theorem reads_queueTargets (m : Model) (paths : List Path) :
    ∃ new, (m.queueTargets paths).1.outbox = m.outbox ++ new ∧
      ∀ p, (∃ b, .readFile b p ∈ new) ↔ p ∈ paths ∧ m.wouldRead p = true := by
  induction paths generalizing m with
  | nil => exact ⟨[], (List.append_nil _).symm, by simp⟩
  | cons path rest ih =>
    unfold queueTargets
    by_cases hi : (m.indexOf path).isSome = true
    · -- already open
      rw [if_pos hi]
      obtain ⟨new, h1, h2⟩ := ih m
      refine ⟨new, h1, fun p => (h2 p).trans ⟨fun h => ⟨List.mem_cons_of_mem _ h.1, h.2⟩, ?_⟩⟩
      rintro ⟨hm, hw⟩
      rcases List.mem_cons.mp hm with rfl | hm
      · simp [wouldRead, Option.isSome_iff_ne_none.mp hi] at hw
      · exact ⟨hm, hw⟩
    · rw [if_neg hi]
      cases hf : m.opening.find? fun o => o.2 = path with
      | some o =>
        -- already being opened
        obtain ⟨new, h1, h2⟩ := ih m
        have ho := List.find?_some hf
        have hany : (m.opening.any fun o => o.2 = path) = true :=
          List.any_eq_true.mpr ⟨o, List.mem_of_find?_eq_some hf, ho⟩
        refine ⟨new, h1, fun p => (h2 p).trans ⟨fun h => ⟨List.mem_cons_of_mem _ h.1, h.2⟩, ?_⟩⟩
        rintro ⟨hm, hw⟩
        rcases List.mem_cons.mp hm with rfl | hm
        · rw [wouldRead, hany] at hw
          simp at hw
        · exact ⟨hm, hw⟩
      | none =>
        let m₁ : Model := { (m.queueRead path).2 with
          opening := m.opening ++ [((m.queueRead path).1, path)] }
        obtain ⟨new, h1, h2⟩ := ih m₁
        have hpath : m.wouldRead path = true := by
          rw [wouldRead, Option.not_isSome_iff_eq_none.mp hi]
          simpa using List.find?_eq_none.mp hf
        have hw₁ : ∀ p, m₁.wouldRead p = (m.wouldRead p && p ≠ path) := by
          intro p
          simp only [wouldRead, m₁, List.any_append, List.any_cons, List.any_nil, Bool.or_false,
            Bool.not_or, Bool.and_assoc]
          congr 2
          simp [eq_comm]
        refine ⟨.readFile (m.queueRead path).1 path :: new, ?_, fun p => ?_⟩
        · exact h1.trans (List.append_assoc _ _ _)
        · by_cases hp : p = path
          · subst hp
            exact iff_of_true ⟨_, List.mem_cons_self⟩ ⟨List.mem_cons_self, hpath⟩
          · simp only [List.mem_cons, FsRequest.readFile.injEq, hp, and_false, false_or, h2, hw₁,
              ne_eq, not_false_eq_true, decide_true, Bool.and_true]

/-- Whether a workspace edit passes the checks in front of its reads. -/
def Takes (m : Model) (root : Path) (edit : WorkspaceEdit) : Prop :=
  m.pendingWorkspaceEdit = none ∧ edit.edits ≠ [] ∧
    (∀ e ∈ edit.edits, e.path.startsWith root = true) ∧
    ∀ v ∈ edit.versions,
      ((m.lsp.serverFor v.1).bind m.lsp.session).bind (·.openDocs.lookup v.1) = some v.2

theorem mem_sortPaths {ps : List Path} {p : Path} : p ∈ sortPaths ps ↔ p ∈ ps := by
  rw [sortPaths, (List.perm_insertionSort _ _).mem_iff, List.mem_dedup]

/-- The reads of a workspace edit are for those of its files that are neither open nor being
opened, once it passes the checks. -/
theorem reads_applyWorkspaceEdit {h : Host} {m m' : Model} {root : Path} (hr : m.root = some root)
    {edit : WorkspaceEdit} (ha : m.applyWorkspaceEdit h edit = some m') (p : Path) :
    (∃ b, .readFile b p ∈ m.queued m') ↔
      m.Takes root edit ∧ (∃ e ∈ edit.edits, e.path = p) ∧ m.wouldRead p = true := by
  have hnone : m'.shell = m.shell → ¬ m.Takes root edit →
      ((∃ b, .readFile b p ∈ m.queued m') ↔
        m.Takes root edit ∧ (∃ e ∈ edit.edits, e.path = p) ∧ m.wouldRead p = true) := by
    intro hs ht
    rw [queued_append (by rw [outbox_of_shell hs, List.append_nil] : m'.outbox = m.outbox ++ [])]
    exact iff_of_false (by simp) fun hc => ht hc.1
  unfold applyWorkspaceEdit at ha
  split_ifs at ha with h1 h2
  · refine hnone (by rw [← Option.some.inj ha]; rfl) fun ht => ?_
    rw [ht.1] at h1
    simp at h1
  · exact hnone (by rw [← Option.some.inj ha]; rfl) fun ht => ht.2.1 h2
  · rw [hr] at ha
    dsimp only at ha
    cases h3 : (sortPaths (edit.edits.map (·.path))).find? fun path => !path.startsWith root with
    | some path =>
      rw [h3] at ha
      refine hnone (by rw [← Option.some.inj ha]; rfl) fun ht => ?_
      obtain ⟨e, he, rfl⟩ := List.mem_map.mp (mem_sortPaths.mp (List.mem_of_find?_eq_some h3))
      have := List.find?_some h3
      rw [ht.2.2.1 e he] at this
      simp at this
    | none =>
      rw [h3] at ha
      dsimp only at ha
      split at ha
      · rename_i v h4
        refine hnone (by rw [← Option.some.inj ha]; rfl) fun ht => ?_
        have := List.find?_some h4
        rw [ht.2.2.2 v (List.mem_of_find?_eq_some h4)] at this
        simp at this
      · rename_i h4
        have ht : m.Takes root edit := by
          refine ⟨by simpa using h1, h2, fun e he => ?_, fun v hv => ?_⟩
          · have := List.find?_eq_none.mp h3 e.path
              (mem_sortPaths.mpr (List.mem_map_of_mem he))
            simpa using this
          · simpa using List.find?_eq_none.mp h4 v hv
        obtain ⟨new, hn, hnew⟩ := m.reads_queueTargets (sortPaths (edit.edits.map (·.path)))
        have ho := outbox_of_shell (finishPendingWorkspaceEdit_shell ha)
        rw [queued_append (ho.trans hn), hnew, mem_sortPaths, List.mem_map]
        exact ⟨fun hc => ⟨ht, hc⟩, fun hc => hc.2⟩

/-- `serve_read` reads inside the workspace, and answers nothing for every other path. -/
def ServesInside (root : Path) (m : Model) (session : SessionId) (request : ReadRequestId)
    (path : Path) : Prop :=
  Confined root m (m.serveRead session request path) ∧
    (m.queued (m.serveRead session request path) = [] →
      (m.serveRead session request path).agentOutbox =
        m.agentOutbox ++ [.fileContents session request path none])

/-- **When reads stay inside the workspace**: a path of the agent, the files of a server edit and a
location of a server are confined exactly when those that start with the root, and would be read,
enter again what they climb over. -/
theorem reads_confined_iff (h : Host) {m : Model} {root : Path} (hr : m.root = some root) :
    (∀ session request path, m.bufferAt path = none →
      (ServesInside root m session request path ↔
        (path.startsWith root = true → root.Reenters (path.drop root.length)))) ∧
    (∀ edit m', m.applyWorkspaceEdit h edit = some m' →
      (Confined root m m' ↔
        (m.Takes root edit → ∀ e ∈ edit.edits, m.wouldRead e.path = true →
          root.Reenters (e.path.drop root.length)))) ∧
    (∀ location : Location,
      (Confined root m (m.openLspLocation location) ↔
        (location.path.startsWith root = true → m.wouldRead location.path = true →
          root.Reenters (location.path.drop root.length)))) := by
  refine ⟨fun session request path hb => ?_, fun edit m' ha => ?_, fun location => ?_⟩
  · have hq := queued_serveRead hr session request hb
    by_cases hs : path.startsWith root = true
    · rw [if_pos hs] at hq
      rw [ServesInside, confined_read hq, under_iff hs, hq]
      simp [hs]
    · rw [if_neg hs] at hq
      exact iff_of_true ⟨confined_nil hq.1, fun _ => hq.2⟩ fun hc => absurd hc hs
  · have hreads := reads_applyWorkspaceEdit hr ha
    constructor
    · intro hc ht e he hw
      obtain ⟨b, hb⟩ := (hreads e.path).mpr ⟨ht, ⟨e, he, rfl⟩, hw⟩
      exact (under_iff (ht.2.2.1 e he)).mp (hc b _ hb)
    · intro hc b p hp
      obtain ⟨ht, ⟨e, he, rfl⟩, hw⟩ := (hreads p).mp ⟨b, hp⟩
      exact (under_iff (ht.2.2.1 e he)).mpr (hc ht e he hw)
  · have hq := queued_openLspLocation hr location
    by_cases hs : location.path.startsWith root = true
    · by_cases hw : m.wouldRead location.path = true
      · rw [if_pos ⟨hs, hw⟩] at hq
        rw [confined_read hq, under_iff hs]
        simp [hs, hw]
      · rw [if_neg fun hc => hw hc.2] at hq
        exact iff_of_true (confined_nil hq) fun _ hc => absurd hc hw
    · rw [if_neg fun hc => hs hc.1] at hq
      exact iff_of_true (confined_nil hq) fun hc => absurd hc hs

/-- Two paths of the agent in the workspace `/w`: one stays inside, one leads out of it. -/
theorem reads_confined_iff_dots :
    let root : Path := [.rootDir, .normal "w"]
    let m : Model := { root := some root }
    ServesInside root m ⟨0⟩ ⟨1⟩ [.rootDir, .normal "w", .normal "src", .parentDir, .normal "a"] ∧
      ¬ ServesInside root m ⟨0⟩ ⟨1⟩ [.rootDir, .normal "w", .parentDir, .normal "etc"] := by
  intro root m
  have hr : m.root = some root := rfl
  have h := (reads_confined_iff Host.plain hr).1 ⟨0⟩ ⟨1⟩
  constructor
  · exact (h _ rfl).mpr fun _ => by decide
  · exact fun hs => absurd ((h _ rfl).mp hs (by decide)) (by decide)

/-- **A read outside the workspace.** In the workspace `/w` the agent asks for `/w/../etc`, and the
worker is told to read it. -/
theorem not_confined_dots :
    let root : Path := [.rootDir, .normal "w"]
    let path : Path := [.rootDir, .normal "w", .parentDir, .normal "etc"]
    let m : Model := { root := some root }
    FsRequest.readFile ⟨1⟩ path ∈ (m.serveRead ⟨0⟩ ⟨1⟩ path).outbox ∧
      path.normalise = [.rootDir, .normal "etc"] ∧ ¬ path.Under root := by
  intro root path m
  refine ⟨by decide, by decide, fun hu => ?_⟩
  exact absurd ((under_iff (by decide)).mp hu) (by decide)

end App.Model

end Termesh
