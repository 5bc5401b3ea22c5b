import Termesh.App.Documents
import Termesh.App.Talking
import Termesh.Lib.Run
import Termesh.Lsp.Correlation

/-!
# Events of a server that was replaced

A restarted server keeps its id, so the model cannot tell what the old process said late from what
the new one says. Answers are refused, for no session waits for a request from before the restart;
nothing else is.

* `LspState.Renewed`, **`restart_renewed`**, **`step_renewed`**: what sessions wait for was asked
  after the restart;
* `Model.Unmoved`: nothing that a server may speak of has changed;
* `Model.Ignored`: when an event that answers no request changes nothing;
* **`late_ignored_iff`**: exactly then is a late event without effect;
* **`late_diagnostics`**: the old process publishes into the new one's session.
-/

namespace Termesh

open Tables Lsp

namespace App

/-! ## Requests of before and after -/

section Renewed

variable {l l' : LspState} {n : ℕ}

/-- No session waits for an answer to a request up to number `n`. -/
structure LspState.Renewed (l : LspState) (n : ℕ) : Prop where
  issued : n ≤ l.nextRequestId
  later : ∀ s ∈ l.sessions, ∀ kind id, s.active.lookup kind = some id → n < id.val

theorem LspState.Renewed.mono (h : l.Renewed n) (hn : l'.nextRequestId = l.nextRequestId)
    (hs : ∀ s' ∈ l'.sessions, s'.active = ∅ ∨ ∃ s ∈ l.sessions, ∀ kind id,
      s'.active.lookup kind = some id → s.active.lookup kind = some id) : l'.Renewed n where
  issued := hn ▸ h.issued
  later s' hs' kind id hid := by
    rcases hs s' hs' with hnone | ⟨s, hmem, hsame⟩
    · rw [hnone] at hid
      cases hid
    · exact h.later s hmem kind id (hsame kind id hid)

theorem LspState.Renewed.set (h : l.Renewed n) {s s' : LspSessionState} (hmem : s ∈ l.sessions)
    (ha : ∀ kind id, s'.active.lookup kind = some id → s.active.lookup kind = some id)
    (hss : l'.sessions = (l.setSession s').sessions) (hn : l'.nextRequestId = l.nextRequestId) :
    l'.Renewed n := by
  refine h.mono hn fun t ht => .inr ?_
  rw [hss] at ht
  rcases mem_setSession ht with rfl | ⟨ht, -⟩
  · exact ⟨s, hmem, ha⟩
  · exact ⟨t, ht, fun _ _ h => h⟩

theorem active_sendChanges (path : Path) (pending : List ChangeSet) (s : LspSessionState)
    (shadow : Text) : (LspState.sendChanges path pending s shadow).1.active = s.active := by
  induction pending generalizing s shadow with
  | nil => rfl
  | cons changes rest ih =>
    unfold LspState.sendChanges
    split_ifs
    · rfl
    · split
      · exact ih s shadow
      · exact ih (s.bump path) _

theorem active_syncWith (s : LspSessionState) (path : Path) (text : Text)
    (pending : List ChangeSet) : (LspState.syncWith s path text pending).1.active = s.active := by
  have hsent := active_sendChanges path pending s ((s.syncedDocs.lookup path).getD text)
  unfold LspState.syncWith
  split
  · rfl
  · dsimp only
    split_ifs
    · exact hsent
    · exact hsent

/-- **Whatever becomes of the servers, old requests stay unawaited.** -/
theorem LspState.Act.renewed {D : LspState.Deed → Prop} (ha : l.Act D l') (h : l.Renewed n) :
    l'.Renewed n := by
  cases ha with
  | sync path text pending =>
    refine syncDocument_rule (P := fun l => l.Renewed n)
      (fun l _ h => h.mono rfl fun s hs => .inr ⟨s, hs, fun _ _ h => h⟩)
      (fun l l' server h hl => ?_) (fun l s h hmem => ?_) h
    · obtain ⟨i, -, hl⟩ := Option.bind_eq_some_iff.mp hl
      obtain ⟨recipe, -, hl⟩ := Option.map_eq_some_iff.mp hl
      obtain ⟨-, rfl⟩ := Prod.mk.inj hl
      refine h.mono rfl fun s hs => ?_
      rcases List.mem_append.mp hs with hs | hs
      · exact .inr ⟨s, hs, fun _ _ h => h⟩
      · exact .inl (by rw [List.mem_singleton.mp hs])
    · refine h.set hmem (fun kind id hid => ?_) rfl rfl
      rw [active_syncWith] at hid
      exact hid
  | close path =>
    unfold LspState.closeDocument
    split
    · exact h
    · rename_i s hs
      obtain ⟨server, -, hs⟩ := Option.bind_eq_some_iff.mp hs
      obtain ⟨hmem, rfl⟩ := session_spec hs
      dsimp only
      split_ifs
      · have hactive : ∀ kind id, (s.without path).active.lookup kind = some id →
            s.active.lookup kind = some id := fun _ _ h => h
        exact h.set hmem hactive rfl rfl
      · exact h.mono rfl fun s hs => .inr ⟨s, hs, fun _ _ h => h⟩
  | restart =>
    refine h.mono rfl fun s hs => .inl ?_
    obtain ⟨s₀, -, rfl⟩ := List.mem_map.mp hs
    rfl
  | request server kind params =>
    rcases request_spec l server kind params with ⟨-, heq⟩ | ⟨s, hs, heq⟩
    · rw [heq]
      exact ⟨Nat.le_succ_of_le h.issued, h.later⟩
    · obtain ⟨hmem, rfl⟩ := session_spec hs
      rw [heq]
      refine ⟨Nat.le_succ_of_le h.issued, fun t ht kind' id hid => ?_⟩
      rcases mem_setSession ht with rfl | ⟨ht, -⟩
      · by_cases hk : kind' = kind
        · subst hk
          rw [LspSessionState.asking, AList.lookup_insert] at hid
          obtain rfl := Option.some.inj hid
          exact Nat.lt_succ_of_le h.issued
        · rw [LspSessionState.asking, AList.lookup_insert_ne hk] at hid
          exact h.later s hmem kind' id hid
      · exact h.later t ht kind' id hid
  | tell rs hrs => exact ⟨h.issued, h.later⟩
  | settle hs hsettled hss ho hr hn =>
    obtain ⟨hmem, rfl⟩ := session_spec hs
    exact h.set hmem hsettled.active hss hr
  | idle hs ho hr hn =>
    exact h.mono hr fun s hmem => .inr ⟨s, hs ▸ hmem, fun _ _ h => h⟩
  | reopen configured => exact ⟨h.issued, fun s hs => by cases hs⟩

theorem LspState.Course.renewed {D : LspState.Deed → Prop} (hc : l.Course D l')
    (h : l.Renewed n) : l'.Renewed n := by
  induction hc with
  | refl => exact h
  | tail _ ha ih => exact ha.renewed ih

end Renewed

namespace Model

variable {h : Host} {m m' : Model}

/-- **After a restart, no session waits for what was asked before.** -/
theorem restart_renewed (hs : m.step h (.dispatch .lspRestart) = some m') :
    m'.lsp.Renewed m.lsp.nextRequestId := by
  have hsync : syncAll h { m with notification := none }.restartLanguageServers = some m' := hs
  refine (syncAll_speaks (tells_any _) hsync).renewed ?_
  unfold restartLanguageServers
  by_cases hnone : m.lsp.sessions.isEmpty = true
  · rw [if_pos hnone]
    refine ⟨Nat.le_refl _, fun s hs => ?_⟩
    have hs : s ∈ m.lsp.sessions := hs
    rw [List.isEmpty_iff.mp hnone] at hs
    cases hs
  · rw [if_neg hnone]
    refine ⟨Nat.le_refl _, fun s hs kind id hid => ?_⟩
    obtain ⟨s₀, -, rfl⟩ := List.mem_map.mp hs
    cases hid

theorem step_renewed {n : ℕ} {ev : Event} (hr : m.lsp.Renewed n) (hs : m.step h ev = some m') :
    m'.lsp.Renewed n := by
  by_cases htake : ev = .takeLspRequests
  · subst htake
    obtain rfl := Option.some.inj hs
    exact ⟨hr.issued, hr.later⟩
  · exact (step_speaks htake hs).renewed hr

theorem run_renewed {n : ℕ} {es : List Event} (hr : m.lsp.Renewed n)
    (hs : Runs.run (step h) m es = some m') : m'.lsp.Renewed n := by
  induction es generalizing m with
  | nil => exact Option.some.inj hs ▸ hr
  | cons e es ih =>
    obtain ⟨m₁, h₁, hs⟩ := Option.bind_eq_some_iff.mp hs
    exact ih (step_renewed hr h₁) hs

/-! ## What an event may change -/

/-- The same buffer, its decorations in any order. -/
def Alike (b b' : Buffer) : Prop :=
  b'.decorations.Perm b.decorations ∧ b' = { b with decorations := b'.decorations }

/-- Nothing that a server may speak of has changed: no session's load state nor the requests it waits
for, no diagnostics, no symbols, no buffer and no decoration. -/
structure Unmoved (m m' : Model) : Prop where
  sessions : ∀ server, m'.lsp.session server = m.lsp.session server
  diagnostics : ∀ path, m'.lsp.diagnostics.lookup path = m.lsp.diagnostics.lookup path
  documentSymbols : ∀ path,
    m'.lsp.documentSymbols.lookup path = m.lsp.documentSymbols.lookup path
  buffers : List.Forall₂ Alike m.buffers m'.buffers

/-- How diagnostics are drawn in a buffer. -/
def marksOf (b : Buffer) (items : List Diagnostic) : List Decoration :=
  items.map fun d =>
    Decoration.mk (offsetFromUtf16 b.text d.range.start.line d.range.start.character)
      (offsetFromUtf16 b.text d.range.stop.line d.range.stop.character)
      (.diagnostic (Severity.ofDiagnostic d.severity))

/-- Whether a decoration is a diagnostic. -/
def isDiagnostic (d : Decoration) : Bool := match d.cls with | .diagnostic _ => true | _ => false

/-- The buffer of a path shows just these diagnostics. -/
def Shows (m : Model) (path : Path) (items : List Diagnostic) : Prop :=
  ∀ i b, m.located path = some (i, b) →
    (marksOf b items).Perm (b.decorations.filter isDiagnostic)

/-- What an event that answers no request says is known, or of another version of the document than
the one its session has open. -/
def Ignored (m : Model) (server : LspServerId) (e : LspEvent) : Prop :=
  ∀ s, m.lsp.session server = some s →
    match e with
    | .started => s.load = .starting
    | .ready => s.load = .ready
    | .indexing message percent => s.load = .indexing message percent
    | .diagnostics path version items =>
      (∃ v, version = some v ∧ s.openDocs.lookup path ≠ some v) ∨
        m.lsp.diagnostics.lookup path = some items ∧ m.Shows path items
    | .failed none failure => s.load = .unavailable failure
    | .unavailable message => s.load = .unavailable ⟨.transport, message⟩
    | .exited code => s.load = .stale ⟨.server, match code with
        | some code => "language server exited with status " ++ Int.repr code
        | none => "language server exited"⟩
    | _ => True

theorem Alike.refl (b : Buffer) : Alike b b := ⟨.refl _, rfl⟩

theorem Unmoved.refl (m : Model) : Unmoved m m :=
  ⟨fun _ => rfl, fun _ => rfl, fun _ => rfl, List.forall₂_same.mpr fun b _ => .refl b⟩

theorem unmoved_load {server : LspServerId} {s : LspSessionState} {load : LspLoadState}
    (hs : m.lsp.session server = some s) (hl : m'.lsp = m.lsp.setSession { s with load })
    (hb : m'.buffers = m.buffers) : Unmoved m m' ↔ s.load = load := by
  have hserver : ({ s with load } : LspSessionState).server = s.server := rfl
  have hsession := LspState.session_setSession hs hserver
  constructor
  · intro hm
    have hsame := hm.sessions server
    rw [hl, hsession, if_pos rfl, hs] at hsame
    exact (congrArg LspSessionState.load (Option.some.inj hsame)).symm
  · rintro rfl
    refine ⟨fun server' => ?_, fun path => ?_, fun path => ?_, ?_⟩
    · rw [hl, hsession]
      split_ifs with hserver
      · rw [hserver, hs]
      · rfl
    · rw [hl]
      rfl
    · rw [hl]
      rfl
    · rw [hb]
      exact List.forall₂_same.mpr fun b _ => .refl b

theorem perm_drawn {ds drawn : List Decoration} :
    (DecorationSet.clearDiagnostics ds ++ drawn).Perm ds ↔ drawn.Perm (ds.filter isDiagnostic) := by
  have hsplit : (DecorationSet.clearDiagnostics ds ++ ds.filter isDiagnostic).Perm ds := by
    have hnot : DecorationSet.clearDiagnostics ds = ds.filter fun d => !isDiagnostic d := by
      refine List.filter_congr fun d _ => ?_
      unfold isDiagnostic
      cases d.cls <;> rfl
    rw [hnot]
    exact (List.perm_append_comm).trans (List.filter_append_perm isDiagnostic ds)
  constructor
  · intro hp
    exact (List.perm_append_left_iff _).mp (hp.trans hsplit.symm)
  · intro hp
    exact ((List.perm_append_left_iff _).mpr hp).trans hsplit

theorem alike_set {bs : List Buffer} {i : ℕ} {b b' : Buffer} (hb : bs[i]? = some b) :
    List.Forall₂ Alike bs (bs.set i b') ↔ Alike b b' := by
  obtain ⟨hlt, rfl⟩ := List.getElem?_eq_some_iff.mp hb
  rw [List.forall₂_iff_get]
  constructor
  · rintro ⟨-, hall⟩
    have hone := hall i hlt (by simpa using hlt)
    simpa using hone
  · intro hone
    refine ⟨by simp, fun k hk hk' => ?_⟩
    by_cases hki : i = k
    · subst hki
      simpa using hone
    · simpa [List.getElem_set_ne hki] using Alike.refl bs[k]

theorem unmoved_diagnostics {path : Path} {items : List Diagnostic} :
    Unmoved m ({ m with
      lsp := { m.lsp with
        diagnostics := m.lsp.diagnostics.insert path items } }.syncLspDiagnostics path) ↔
      m.lsp.diagnostics.lookup path = some items ∧ m.Shows path items := by
  have hlsp := syncLspDiagnostics_lsp { m with
    lsp := { m.lsp with diagnostics := m.lsp.diagnostics.insert path items } } path
  have hbuffers : List.Forall₂ Alike m.buffers ({ m with
      lsp := { m.lsp with
        diagnostics := m.lsp.diagnostics.insert path items } }.syncLspDiagnostics path).buffers ↔
        m.Shows path items := by
    cases hl : m.located path with
    | none =>
      have hl' : located { m with lsp := { m.lsp with
        diagnostics := m.lsp.diagnostics.insert path items } } path = none := hl
      unfold syncLspDiagnostics
      rw [hl']
      refine ⟨fun _ i b hb => ?_, fun _ => List.forall₂_same.mpr fun b _ => .refl b⟩
      rw [hl] at hb
      cases hb
    | some found =>
      obtain ⟨i, b⟩ := found
      have hl' : located { m with lsp := { m.lsp with
        diagnostics := m.lsp.diagnostics.insert path items } } path = some (i, b) := hl
      unfold syncLspDiagnostics
      rw [hl']
      dsimp only [setBuffer]
      rw [alike_set (located_some hl).1, AList.lookup_insert, Option.getD_some]
      constructor
      · rintro ⟨hp, -⟩ i' b' hb'
        rw [hl] at hb'
        obtain ⟨rfl, rfl⟩ := Prod.mk.inj (Option.some.inj hb')
        exact perm_drawn.mp hp
      · intro hshows
        exact ⟨perm_drawn.mpr (hshows i b hl), rfl⟩
  constructor
  · intro hm
    refine ⟨?_, hbuffers.mp hm.buffers⟩
    rw [← hm.diagnostics path, hlsp]
    exact AList.lookup_insert _
  · rintro ⟨hknown, hshows⟩
    refine ⟨fun server => by rw [hlsp]; rfl, fun path' => ?_, fun _ => by rw [hlsp],
      hbuffers.mpr hshows⟩
    rw [hlsp]
    by_cases hp : path' = path
    · subst hp
      rw [AList.lookup_insert, hknown]
    · rw [AList.lookup_insert_ne hp]

/-! ## Late events -/

/-- A session that waits for no such answer keeps its requests, and knows nothing of the answer. -/
theorem clearRequest_none {s : LspSessionState} {id : LspRequestId}
    (h : ∀ kind, s.active.lookup kind ≠ some id) : s.clearRequest id = (s, false) := by
  have hcalls : (s.active.entries.filterMap fun e => if e.2 = id then some e.1 else none) = [] := by
    refine List.filterMap_eq_nil_iff.mpr fun e he => if_neg fun heq => h e.1 ?_
    rw [← heq]
    exact AList.mem_lookup_iff.mpr he
  unfold LspSessionState.clearRequest
  rw [hcalls, if_neg (h .documentSymbols)]
  rfl

/-- **A late event changes nothing exactly when it says what is known, or of another version.** -/
theorem handle_iff {n : ℕ} {server : LspServerId} {e : LspEvent} (hr : m.lsp.Renewed n)
    (hlate : ∀ id, requestIdOf e = some id → id.val ≤ n)
    (hs : m.onLspEvent h server e = some m') : Unmoved m m' ↔ m.Ignored server e := by
  unfold Ignored
  unfold onLspEvent at hs
  cases hsession : m.lsp.session server with
  | none =>
    rw [hsession] at hs
    obtain rfl := Option.some.inj hs
    exact ⟨(fun _ s hs => nomatch hs), fun _ => .refl m⟩
  | some s =>
    rw [hsession] at hs
    have hone : ∀ P : LspSessionState → Prop, (∀ s', some s = some s' → P s') ↔ P s := fun P =>
      ⟨fun h => h s rfl, fun h s' hs' => Option.some.inj hs' ▸ h⟩
    rw [hone]
    have hwaits : ∀ id, requestIdOf e = some id → ∀ kind, s.active.lookup kind ≠ some id := by
      intro id hid kind hk
      have hold := hlate id hid
      have hnew := hr.later s (session_spec hsession).1 kind id hk
      omega
    have htake : ∀ {id : LspRequestId} (kind : LspCall), requestIdOf e = some id →
        m.takeCall s kind id = none := fun kind hid => if_neg (hwaits _ hid kind)
    cases e with
    | started | ready | indexing | unavailable | exited =>
      obtain rfl := Option.some.inj hs
      exact unmoved_load hsession rfl rfl
    | diagnostics path version items =>
      dsimp only at hs ⊢
      by_cases hversion : (version.any fun v => s.openDocs.lookup path ≠ some v) = true
      · rw [if_pos hversion] at hs
        obtain rfl := Option.some.inj hs
        refine ⟨fun _ => .inl ?_, fun _ => .refl m⟩
        cases version with
        | none => cases hversion
        | some v => exact ⟨v, rfl, by simpa using hversion⟩
      · rw [if_neg hversion] at hs
        obtain rfl := Option.some.inj hs
        rw [unmoved_diagnostics]
        refine ⟨.inr, fun hor => hor.resolve_left ?_⟩
        rintro ⟨v, rfl, hne⟩
        exact hversion (by simpa using hne)
    | definition id | hover id | completion id | references id | codeActions id | workspaceSymbols id
      | documentSymbols id =>
      dsimp only at hs
      rw [htake _ rfl] at hs
      obtain rfl := Option.some.inj hs
      exact ⟨fun _ => trivial, fun _ => .refl m⟩
    | rename id | formatting id =>
      dsimp only at hs
      rw [htake _ rfl] at hs
      obtain rfl := Option.some.inj hs
      exact ⟨fun _ => trivial, fun _ => .refl m⟩
    | failed id failure =>
      cases id with
      | none =>
        obtain rfl := Option.some.inj hs
        exact unmoved_load hsession (setSession_setSession _ s _ rfl) rfl
      | some id =>
        have hnone := clearRequest_none (hwaits id rfl)
        have hunknown : (!(s.clearRequest id).2) = true := by rw [hnone]; rfl
        dsimp only at hs
        rw [if_pos hunknown] at hs
        obtain rfl := Option.some.inj hs
        refine ⟨fun _ => trivial, fun _ => ?_⟩
        have hquiet : m.lsp.setSession (s.clearRequest id).1 =
            m.lsp.setSession { s with load := s.load } := by rw [hnone]
        have hiff : Unmoved m { m with lsp := m.lsp.setSession (s.clearRequest id).1 } ↔
            s.load = s.load := unmoved_load hsession hquiet rfl
        exact hiff.mpr rfl

/-- **Whatever happens between a restart and an event of the process that was replaced**, the event
changes neither a session, nor what is published, nor a buffer exactly when it answers a request, or
says what is known already, or is about a version that is not open. -/
theorem late_ignored_iff (h : Host) {m₀ m₁ m m' : Model}
    (hrestart : m₀.step h (.dispatch .lspRestart) = some m₁) (es : List Event)
    (hrun : Runs.run (step h) m₁ es = some m) (server : LspServerId) (e : LspEvent)
    (hlate : ∀ id, requestIdOf e = some id → id.val ≤ m₀.lsp.nextRequestId)
    (hs : m.step h (.lsp server e) = some m') : Unmoved m m' ↔ m.Ignored server e :=
  handle_iff (run_renewed (restart_renewed hrestart) hrun) hlate hs

def crate : Path := [.rootDir, .normal "w"]

def library : Path := [.rootDir, .normal "w", .normal "lib.rs"]

/-- A document is open, and its server is asked what stands at the cursor. -/
def hovering : Model :=
  (Runs.run (step Host.plain) {}
    [.openWorkspace crate [⟨"rust", ["rs"], ⟨crate, ["rust-analyzer"], none⟩, .idle⟩],
      .openFile library, .fs (.fileLoaded ⟨1⟩ library (some ['x'])),
      .dispatch (.lspAtCursor .hover)]).get (by decide +kernel)

/-- The server is replaced. -/
def restarted : Model :=
  (hovering.step Host.plain (.dispatch .lspRestart)).get (by decide +kernel)

/-- The old process answers. -/
def lateHover : Model :=
  (restarted.step Host.plain (.lsp ⟨1⟩ (.hover ⟨1⟩ true))).get (by decide +kernel)

theorem late_ignored_iff_hover : Unmoved restarted lateHover :=
  (late_ignored_iff Host.plain (Option.some_get _).symm [] rfl ⟨1⟩ (.hover ⟨1⟩ true)
    (fun id hid => by
      obtain rfl := Option.some.inj hid
      decide +kernel)
    (Option.some_get _).symm).mpr fun _ _ => trivial

def lateItem : Diagnostic := ⟨⟨⟨0, 0⟩, ⟨0, 1⟩⟩, .error⟩

/-- The old process publishes what it found in the first version of the document. -/
def latePublished : Model :=
  (restarted.step Host.plain (.lsp ⟨1⟩ (.diagnostics library (some 1) [lateItem]))).get
    (by decide +kernel)

/-- The new process has been told of a first version as well. -/
theorem late_diagnostics :
    ¬ ∀ (h : Host) (m₀ m₁ m m' : Model) (es : List Event) (server : LspServerId) (e : LspEvent),
      m₀.step h (.dispatch .lspRestart) = some m₁ → Runs.run (step h) m₁ es = some m →
        (∀ id, requestIdOf e = some id → id.val ≤ m₀.lsp.nextRequestId) →
          m.step h (.lsp server e) = some m' → Unmoved m m' := by
  intro hall
  have hunmoved := hall Host.plain hovering restarted restarted latePublished [] ⟨1⟩
    (.diagnostics library (some 1) [lateItem]) (Option.some_get _).symm rfl
    (fun id hid => nomatch hid) (Option.some_get _).symm
  have hsame := hunmoved.diagnostics library
  have hbefore : restarted.lsp.diagnostics.lookup library = none := by decide +kernel
  have hafter : latePublished.lsp.diagnostics.lookup library = some [lateItem] := by decide +kernel
  rw [hbefore, hafter] at hsame
  cases hsame

end Model

end App

end Termesh
