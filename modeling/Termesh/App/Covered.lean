import Termesh.App.Accounts
import Termesh.App.Quitting

/-!
# Covering unsaved work with drafts

As long as a deadline is set, a draft will be written. Without one, the draft of a dirty buffer must
be the last thing the worker was asked to do to its file, and be a draft of the text as it stands.

* `FsRequest.touches`, `lastTouch`: what is asked of a file last;
* `Drafted`, `Watch.Covered`: a dirty buffer that has its draft, and all of them covered;
* `orders`: the requests of an event that change files;
* `astray`: an edit without a refresh, a save that is confirmed too late, a draft that is
  overwritten or cannot be written;
* **`drafts_cover`**: in every run in which no step goes astray, unsaved work is covered;
* **`late_save_uncovers`**: a save that is confirmed behind a newer edit removes its draft.
-/

namespace Termesh

/-- Carried out, the request may change the file. To create something changes nothing that is
there. -/
def FsRequest.touches (file : Path) : FsRequest → Bool
  | writeFile _ path _ _ => path = file
  | remove path _ => file.startsWith path
  | rename source target => file.startsWith source || file.startsWith target
  | _ => false

/-- The last request that may change the file. -/
def lastTouch (asked : List FsRequest) (file : Path) : Option FsRequest :=
  (asked.filter (·.touches file)).getLast?

section LastTouch

variable {asked rs : List FsRequest} {r : FsRequest} {file : Path}

theorem lastTouch_append (hrs : ∀ r ∈ rs, r.touches file = false) :
    lastTouch (asked ++ rs) file = lastTouch asked file := by
  have hnone : rs.filter (·.touches file) = [] :=
    List.filter_eq_nil_iff.mpr fun r hr => by rw [hrs r hr]; exact Bool.false_ne_true
  rw [lastTouch, List.filter_append, hnone, List.append_nil, lastTouch]

theorem lastTouch_concat (hr : r.touches file = true) : lastTouch (asked ++ [r]) file = some r := by
  simp [lastTouch, List.filter_append, hr]

end LastTouch

namespace App

open Buffer Tables

/-- The file of a buffer's draft. -/
def Host.draftFile (h : Host) (b : Buffer) : Option Path :=
  b.path.bind fun path => h.draftsDir.map fun dir => dir.join (h.draftFileName path)

/-- The last request that may change the buffer's draft writes a draft of the buffer as it stands. -/
def Drafted (h : Host) (asked : List FsRequest) (b : Buffer) : Prop :=
  ∃ path file id contents, b.path = some path ∧ h.draftFile b = some file ∧
    h.encodeDraft ⟨path, b.toDiskString⟩ file = .ok contents ∧
    lastTouch asked file = some (.writeFile id file contents b.version)

variable {h : Host} {asked rs : List FsRequest} {b b' : Buffer}

theorem Drafted.append (hd : Drafted h asked b)
    (hrs : ∀ file, h.draftFile b = some file → ∀ r ∈ rs, r.touches file = false) :
    Drafted h (asked ++ rs) b := by
  obtain ⟨path, file, id, contents, hp, hfile, hencode, hlast⟩ := hd
  exact ⟨path, file, id, contents, hp, hfile, hencode,
    (lastTouch_append (hrs file hfile)).trans hlast⟩

theorem draftFile_of_path (hp : b'.path = b.path) : h.draftFile b' = h.draftFile b := by
  rw [Host.draftFile, hp, Host.draftFile]

theorem Drafted.same (hd : Drafted h asked b) (hp : b'.path = b.path)
    (hv : b'.version = b.version) (ht : b'.toDiskString = b.toDiskString) : Drafted h asked b' := by
  obtain ⟨path, file, id, contents, hpath, hfile, hencode, hlast⟩ := hd
  refine ⟨path, file, id, contents, hp.trans hpath, ?_, ?_, ?_⟩
  · rw [draftFile_of_path hp, hfile]
  · rw [ht, hencode]
  · rw [hv, hlast]

namespace Model

variable {m m' m₁ : Model}

/-! ## Requests that change files -/

/-- The step adds requests that meet `A` to the queue. -/
def Adds (A : FsRequest → Prop) (m m' : Model) : Prop :=
  ∃ rs, m'.outbox = m.outbox ++ rs ∧ ∀ r ∈ rs, A r

variable {A : FsRequest → Prop}

theorem Adds.of_outbox (ho : m'.outbox = m.outbox) : Adds A m m' :=
  ⟨[], by rw [ho, List.append_nil], by simp⟩

theorem Adds.send {r : FsRequest} (hr : A r) (ho : m'.outbox = m.outbox ++ [r]) : Adds A m m' :=
  ⟨[r], ho, List.forall_mem_singleton.mpr hr⟩

theorem Adds.trans (ha : Adds A m m₁) (ha' : Adds A m₁ m') : Adds A m m' := by
  obtain ⟨rs, ho, hrs⟩ := ha
  obtain ⟨rs', ho', hrs'⟩ := ha'
  refine ⟨rs ++ rs', by rw [ho', ho, List.append_assoc], fun r hr => ?_⟩
  exact (List.mem_append.mp hr).elim (hrs r) (hrs' r)

theorem adds_foldl {α : Type*} {f : Model → α → Model} {l : List α}
    (hf : ∀ m, ∀ a ∈ l, Adds A m (f m a)) (m : Model) : Adds A m (l.foldl f m) := by
  induction l generalizing m with
  | nil => exact .of_outbox rfl
  | cons a l ih =>
    exact (hf m a List.mem_cons_self).trans (ih (fun m b hb => hf m b (List.mem_cons_of_mem _ hb)) _)

theorem Queues.adds (hread : ∀ buffer path, A (.readFile buffer path)) (hq : Queues A m m') :
    Adds A m m' := by
  obtain ⟨rs, hasks, ho⟩ := hq
  exact ⟨rs, ho, hasks.all hread⟩

theorem Posts.adds (hread : ∀ buffer path, A (.readFile buffer path))
    (hplain : ∀ r : FsRequest, r.Plain → A r) (hp : Posts m m') : Adds A m m' := by
  obtain ⟨rs, hasks, hm⟩ := hp
  exact ⟨rs, congrArg Mail.outbox hm, (hasks.mono hplain).all hread⟩

/-! ## Drafts that fall due -/

theorem queueDraft_adds (h : Host) {dir : Path} (hdir : h.draftsDir = some dir) (m : Model)
    {b : Buffer} {file : Path} (hfile : h.draftFile b = some file) :
    Adds (fun r => ∃ id contents, r = .writeFile id file contents b.version) m
      (m.queueDraft h dir b) := by
  obtain ⟨path, hp, hdraft⟩ := Option.bind_eq_some_iff.mp hfile
  rw [hdir] at hdraft
  obtain rfl := Option.some.inj hdraft
  unfold queueDraft
  dsimp only
  split
  · exact .of_outbox (outbox_of_desk (desk_appendNotification ..))
  · rename_i contents _
    refine .send ⟨⟨m.nextBufferId + 1⟩, contents, ?_⟩ rfl
    rw [hp, Option.getD_some]

/-- **Every draft that is due is the last word on its file**, if each has a file of its own. -/
theorem queueDrafts_drafted (h : Host) {dir : Path} (hdir : h.draftsDir = some dir)
    (asked : List FsRequest) {bs : List Buffer} (hok : ∀ b ∈ bs, h.drafts b = true)
    (hfiles : (bs.map h.draftFile).Nodup) (m : Model) :
    ∀ b ∈ bs, Drafted h (asked ++ (bs.foldl (queueDraft h dir) m).outbox) b := by
  have hpath : ∀ b ∈ bs, ∃ path, b.path = some path := fun b hb =>
    Option.isSome_iff_exists.mp (Option.isSome_of_any (hok b hb))
  have hfile : ∀ b ∈ bs, ∃ file, h.draftFile b = some file := by
    intro b hb
    obtain ⟨path, hp⟩ := hpath b hb
    exact ⟨dir.join (h.draftFileName path), by rw [Host.draftFile, hp, hdir]; rfl⟩
  induction bs generalizing m with
  | nil => simp
  | cons a bs ih =>
    obtain ⟨hfresh, hfiles⟩ := List.nodup_cons.mp hfiles
    intro b hb
    rcases List.mem_cons.mp hb with rfl | hb
    · obtain ⟨file, hf⟩ := hfile b List.mem_cons_self
      obtain ⟨path, hp⟩ := hpath b List.mem_cons_self
      obtain ⟨dir', contents, hdir', hencode⟩ := drafts_spec hp (hok b List.mem_cons_self)
      obtain rfl : dir = dir' := Option.some.inj (hdir.symm.trans hdir')
      have hf' : dir.join (h.draftFileName path) = file := by
        rw [Host.draftFile, hp, hdir] at hf
        exact Option.some.inj hf
      rw [hf'] at hencode
      -- what comes behind writes other files
      obtain ⟨rs, ho, hrs⟩ := adds_foldl (A := fun r => r.touches file = false)
        (f := queueDraft h dir) (l := bs) (fun m c hc => by
          obtain ⟨other, hother⟩ := hfile c (List.mem_cons_of_mem _ hc)
          obtain ⟨rs, ho, hrs⟩ := queueDraft_adds h hdir m hother
          refine ⟨rs, ho, fun r hr => ?_⟩
          obtain ⟨id, contents, rfl⟩ := hrs r hr
          refine decide_eq_false ?_
          rintro rfl
          exact hfresh (List.mem_map.mpr ⟨c, hc, hother.trans hf.symm⟩)) (m.queueDraft h dir b)
      have hwrite : (m.queueDraft h dir b).outbox =
          m.outbox ++ [.writeFile ⟨m.nextBufferId + 1⟩ file contents b.version] := by
        unfold queueDraft
        simp only [hp, Option.getD_some, hf', hencode]
        rfl
      refine ⟨path, file, ⟨m.nextBufferId + 1⟩, contents, hp, hf, hencode, ?_⟩
      rw [List.foldl_cons, ho, hwrite, ← List.append_assoc, ← List.append_assoc,
        lastTouch_append hrs]
      exact lastTouch_concat (decide_eq_true rfl)
    · exact ih (fun c hc => hok c (List.mem_cons_of_mem _ hc)) hfiles _
        (fun c hc => hpath c (List.mem_cons_of_mem _ hc))
        (fun c hc => hfile c (List.mem_cons_of_mem _ hc)) b hb

/-! ## What goes astray -/

/-- The event confirms a save of the buffer. -/
def confirms (m : Model) (id : BufferId) : Event → Bool
  | .fs (.fileSaved buffer _) =>
    decide (buffer = id) && (m.pendingDraftWrites.find? (·.1 = buffer)).isNone
  | _ => false

/-- The requests of an event that change files, but for drafts that are due. -/
def orders (h : Host) (m : Model) : Event → List FsRequest
  | .dispatch .save =>
    (m.active.filter (·.isDirty)).toList.flatMap fun b =>
      b.path.toList.map fun path => .writeFile b.id path b.toDiskString b.version
  | .confirmPrompt prompt =>
    let name := trim prompt.input
    match prompt.kind with
    | .rename target =>
      if name = "" ∨ name.contains '/' ∨ name.contains '\\' ∨ name = ".." ∨ name = "." then []
      else target.parent.toList.map fun parent => .rename target (parent.join name)
    | .confirmDelete target isDir => [.remove target isDir]
    | _ => []
  | .discardRecoveryDrafts =>
    match m.overlays.getLast?, h.draftsDir with
    | some (.draftRecovery drafts _), some dir =>
      drafts.map fun d => .remove (dir.join (h.draftFileName d.1.path)) false
    | _, _ => []
  | .fs (.fileSaved buffer version) =>
    (m.buffers.filter fun b => m.confirms b.id (.fs (.fileSaved buffer version)) &&
      b.path.any m.knownDrafts.contains).flatMap fun b =>
        (h.draftFile b).toList.map fun file => .remove file false
  | _ => []

/-- Some other buffer has the path of a dirty one. -/
def doubled (m : Model) : Bool :=
  m.buffers.any fun b => b.isDirty && b.path.isSome &&
    m.buffers.any fun c => decide (c.path = b.path) && decide (b.id ≠ c.id)

/-- A file arrives for a tab, and the buffer of another is dirty under the same path. -/
def intrudes (m : Model) : Event → Bool
  | .fs (.fileLoaded buffer path (some _)) => decide (m.ForBuffer buffer) &&
      m.buffers.any fun b => b.isDirty && decide (b.path = some path) && decide (b.id ≠ buffer)
  | _ => false

/-- A save is confirmed behind a newer edit, and its draft goes or there was none. -/
def outrun (m : Model) : Event → Bool
  | .fs (.fileSaved buffer version) => m.buffers.any fun b =>
      m.confirms b.id (.fs (.fileSaved buffer version)) && b.path.isSome &&
        decide (b.version ≠ version) && !(b.isDirty && !b.path.any m.knownDrafts.contains)
  | _ => false

/-- A request changes the draft of a dirty buffer. -/
def overwrites (h : Host) (m : Model) (ev : Event) : Bool :=
  m.buffers.any fun b => b.isDirty && !m.confirms b.id ev &&
    (h.draftFile b).any fun file => (m.orders h ev).any (·.touches file)

/-- The dirty buffers with a path. -/
def unsaved (m : Model) : List Buffer := m.buffers.filter fun b => b.isDirty && b.path.isSome

/-- The debounce runs out, and a draft cannot be written or two go to one file. -/
def undrafted (h : Host) (m : Model) : Event → Bool
  | .tick seconds => m.draftDeadline.any (· ≤ m.clock + seconds) &&
      !(m.unsaved.all h.drafts && decide (m.unsaved.map h.draftFile).Nodup)
  | _ => false

/-- The event may leave a dirty buffer without its draft. -/
def astray (h : Host) (m : Model) (ev : Event) : Bool :=
  m.doubled || m.intrudes ev || m.undrafted h ev ||
    m.draftDeadline.isNone && (m.slips ev || m.outrun ev || m.overwrites h ev)

/-! ## What an event orders -/

/-- The request changes nothing, or the event orders it. -/
def Ordered (h : Host) (m : Model) (ev : Event) (r : FsRequest) : Prop :=
  (∀ file, r.touches file = false) ∨ r ∈ m.orders h ev

variable {ev : Event}

theorem ordered_of_plain (r : FsRequest) (hr : r.Plain) : Ordered h m ev r := by
  cases r with
  | resolvePath => exact .inl fun _ => rfl
  | readFile | writeFile | watch | createFile | createDir | rename | remove | shutdown =>
    exact hr.elim

theorem Posts.ordered (hp : Posts m m') : Adds (Ordered h m₁ ev) m m' :=
  hp.adds (fun _ _ => .inl fun _ => rfl) fun r hr => ordered_of_plain r hr

theorem dispatch_save_ordered (hd : m.dispatch h .save = some m') :
    Adds (Ordered h m (.dispatch .save)) m m' := by
  obtain ⟨m₁, h₁, hs⟩ := Option.bind_eq_some_iff.mp hd
  obtain rfl : saveActiveBuffer { m with notification := none } = m₁ := Option.some.inj h₁
  have ho : m'.outbox = (saveActiveBuffer { m with notification := none }).outbox :=
    congrArg Mail.outbox (mail_of_outline (syncAll_outline hs))
  rcases saveActiveBuffer_mail { m with notification := none } with
    hsave | ⟨b, path, hactive, hp, hdirty, hsave⟩
  · exact .of_outbox (ho.trans (congrArg Mail.outbox hsave))
  · refine .send (.inr ?_) (ho.trans (congrArg Mail.outbox hsave))
    have hactive : m.active = some b := hactive
    simp [orders, hactive, hdirty, hp, Option.filter]

theorem confirmFile_ordered {prompt : Prompt} :
    Adds (Ordered h m (.confirmPrompt prompt)) m (m.confirmFile prompt (trim prompt.input)) := by
  unfold confirmFile
  split_ifs with hempty hbad
  · exact .of_outbox rfl
  · exact .of_outbox rfl
  · split
    · exact .send (.inl fun _ => rfl) rfl
    · exact .send (.inl fun _ => rfl) rfl
    · rename_i target hk
      have htakes : prompt.takesInput = true := by rw [Prompt.takesInput, hk]
      have hgood : ¬ (trim prompt.input = "" ∨ (trim prompt.input).contains '/' ∨
          (trim prompt.input).contains '\\' ∨ trim prompt.input = ".." ∨ trim prompt.input = ".") := by
        rintro (hname | hname)
        · exact hempty ⟨htakes, hname⟩
        · exact hbad ⟨htakes, hname⟩
      split
      · rename_i parent hparent
        refine .send (.inr ?_) rfl
        simp only [orders, hk, if_neg hgood, hparent]
        exact List.mem_singleton.mpr rfl
      · exact .of_outbox rfl
    · rename_i target isDir hk
      refine .send (.inr ?_) rfl
      simp only [orders, hk]
      exact List.mem_singleton.mpr rfl
    · exact .of_outbox rfl

theorem discardRecoveryDrafts_ordered (h : Host) (m : Model) :
    Adds (Ordered h m .discardRecoveryDrafts) m (m.discardRecoveryDrafts h) := by
  unfold discardRecoveryDrafts
  split
  · rename_i drafts focus hlast
    dsimp only
    split
    · exact .of_outbox rfl
    · rename_i dir hdir
      refine Adds.trans (.of_outbox rfl) (adds_foldl (fun m₁ d hd => ?_)
        { m with overlays := m.overlays.dropLast, focus := focus })
      refine .send (.inr ?_) rfl
      simp only [orders, hlast, hdir]
      exact List.mem_map_of_mem hd
  · exact .of_outbox rfl

theorem changed_ordered (m : Model) (paths : List Path) :
    Adds (Ordered h m₁ ev) m (if (m.notifyLspWatchedFiles paths).root.isSome then
      (m.notifyLspWatchedFiles paths).reloadChangedBuffers paths
        else m.notifyLspWatchedFiles paths) := by
  have htold : Adds (Ordered h m₁ ev) m (m.notifyLspWatchedFiles paths) :=
    .of_outbox (congrArg Mail.outbox (notifyLspWatchedFiles_mail m paths))
  split_ifs
  · obtain ⟨rs, hm, hrs⟩ := reloadChangedBuffers_mail (m.notifyLspWatchedFiles paths) paths
    refine htold.trans ⟨rs, congrArg Mail.outbox hm, fun r hr => ?_⟩
    obtain ⟨b, -, path, rfl, -⟩ := hrs r hr
    exact .inl fun _ => rfl
  · exact htold

/-- **What an event asks of files**, but for saves that are confirmed and drafts that are due. -/
theorem step_ordered (hs : m.step h ev = some m')
    (hsaved : ∀ buffer version, ev ≠ .fs (.fileSaved buffer version))
    (htick : ∀ seconds, ev ≠ .tick seconds) (htake : ev ≠ .takeFsRequests) :
    Adds (Ordered h m ev) m m' := by
  by_cases hw : ev.Writes
  · cases ev with
    | dispatch cmd =>
      cases cmd with
      | save => exact dispatch_save_ordered hs
      | _ => exact hw.elim
    | openWorkspace root configured =>
      exact Option.some.inj hs ▸ .send (r := .watch root) (.inl fun _ => rfl) rfl
    | restoreSession session =>
      have hopen : Adds (Ordered h m (.restoreSession session)) m
          (m.openWorkspace session.root session.configured) :=
        .send (r := .watch session.root) (.inl fun _ => rfl) rfl
      exact Option.some.inj hs ▸ hopen.trans (reopen_posts h _ session).ordered
    | discardRecoveryDrafts => exact Option.some.inj hs ▸ discardRecoveryDrafts_ordered h m
    | tick seconds => exact absurd rfl (htick seconds)
    | takeFsRequests => exact absurd rfl htake
    | confirmPrompt prompt =>
      cases hk : prompt.kind with
      | newFile | newDir | rename | confirmDelete =>
        rw [step, confirmPrompt, hk] at hs
        exact Option.some.inj hs ▸ confirmFile_ordered
      | agentPrompt | find | replace | confirmCloseBuffer | terminalRun | gitCommit | lspRename
      | confirmCloseTerminal =>
        simp only [Event.Writes, hk] at hw
    | fs e =>
      cases e with
      | changed paths => exact Option.some.inj hs ▸ changed_ordered m paths
      | fileSaved buffer version => exact absurd rfl (hsaved buffer version)
      | fileFailed buffer error =>
        exact Option.some.inj hs ▸ (fileFailed_queues h m buffer error).adds
          fun _ _ => .inl fun _ => rfl
      | fileLoaded | pathResolved | pathResolveFailed | mutationFailed => exact hw.elim
    | typeChar | openFile | openFileAt | navigateProblem | setOverlays
    | acceptSelectedRecoveryDrafts | acceptCompletion | acceptCodeAction | openLspLocation
    | applyTextEdits | applyWorkspaceEdit | setAgentMode | decidePermission | typeTerminal
    | setTerminalSize | agent | pty | lsp | shutdownTerminals | takeAgentRequests
    | takePtyRequests | takeLspRequests => exact hw.elim
  · exact (step_posts hs hw).ordered

/-! ## One event -/

/-- What an event keeps: a dirty buffer that no deadline waits for has its draft. -/
structure Secure (h : Host) (asked : List FsRequest) (m : Model) : Prop where
  ids : (m.buffers.map (·.id)).Nodup
  recorded : Sole m.buffers → m.Recorded
  drafted : m.draftDeadline = none → ∀ b ∈ m.buffers, b.isDirty = true → b.path ≠ none →
    Drafted h (asked ++ m.outbox) b

theorem sole_of_doubled (hd : m.doubled = false) : Sole m.buffers := by
  intro b hb hdirty c hc p hbp hcp
  by_contra hne
  have hno := List.any_eq_false.mp hd b hb
  rw [hdirty, hbp] at hno
  refine hno (Bool.and_eq_true_iff.mpr ⟨rfl, List.any_eq_true.mpr ⟨c, hc, ?_⟩⟩)
  simp [hcp, hne]

theorem untouched (ho : m.overwrites h ev = false) {r : FsRequest} (hr : Ordered h m ev r)
    {b : Buffer} (hb : b ∈ m.buffers) (hdirty : b.isDirty = true) (hc : m.confirms b.id ev = false)
    {file : Path} (hf : h.draftFile b = some file) : r.touches file = false := by
  rcases hr with hr | hr
  · exact hr file
  · have hno := List.any_eq_false.mp ho b hb
    rw [hdirty, hc, hf, Option.any_some] at hno
    have hfalse : (m.orders h ev).any (·.touches file) = false := by simpa using hno
    simpa using List.any_eq_false.mp hfalse r hr

theorem secure_of_accounts (hk : Secure h asked m) (hauto : m.autosave.isSome = true)
    (hsole : Sole m.buffers) (hids : (m'.buffers.map (·.id)).Nodup) (ha : Accounts m m')
    (hadds : Adds (Ordered h m ev) m m') (hc : ∀ id, m.confirms id ev = false)
    (ho : m.draftDeadline = none → m.overwrites h ev = false) : Secure h asked m' := by
  obtain ⟨hrecorded, hinherits⟩ := ha hauto hsole hids (hk.recorded hsole)
  refine ⟨hids, hrecorded, fun hnone b' hb' hdirty hpath => ?_⟩
  obtain ⟨p, hp⟩ := Option.ne_none_iff_exists'.mp hpath
  obtain ⟨hwas, b, hb, hd, hbp, hv, ht⟩ := hinherits hnone b' hb' hdirty p hp
  obtain ⟨rs, hout, hrs⟩ := hadds
  have hbefore := hk.drafted hwas b hb hd (by rw [hbp]; exact Option.some_ne_none p)
  have hafter : Drafted h ((asked ++ m.outbox) ++ rs) b := hbefore.append fun file hf r hr =>
    untouched (ho hwas) (hrs r hr) hb hd (hc b.id) hf
  rw [hout, ← List.append_assoc]
  exact hafter.same (hp.trans hbp.symm) hv.symm ht.symm

theorem fileSaved_cases (h : Host) (m : Model) (buffer : BufferId) (version : Version) :
    ((m.fileSaved h buffer version).buffers = m.buffers ∧
      (m.fileSaved h buffer version).debounce = m.debounce ∧
        (m.fileSaved h buffer version).outbox = m.outbox) ∨
    ∃ i b, m.buffers[i]? = some b ∧ b.id = buffer ∧
      m.confirms b.id (.fs (.fileSaved buffer version)) = true ∧
      (m.fileSaved h buffer version).buffers = m.buffers.set i (b.markSaved version) ∧
      (m.fileSaved h buffer version).draftDeadline = m.draftDeadline ∧
      (∀ p v, (m.fileSaved h buffer version).draftVersions.lookup p = some v →
        b.path ≠ some p ∧ m.draftVersions.lookup p = some v) ∧
      ((m.fileSaved h buffer version).outbox = m.outbox ∨
        b.path.any m.knownDrafts.contains = true ∧ ∃ file, h.draftFile b = some file ∧
          (m.fileSaved h buffer version).outbox = m.outbox ++ [.remove file false]) := by
  unfold fileSaved
  split
  · exact .inl ⟨rfl, rfl, rfl⟩
  · rename_i hdraft
    split
    · exact .inl ⟨rfl, rfl, rfl⟩
    · rename_i i b hidx
      obtain ⟨j, hj, hidx⟩ := Option.bind_eq_some_iff.mp hidx
      obtain ⟨b', hb, hx⟩ := Option.map_eq_some_iff.mp hidx
      obtain ⟨rfl, rfl⟩ := Prod.mk.inj hx
      have hid := id_of_findIdx hj hb
      have hconfirms : m.confirms b'.id (.fs (.fileSaved buffer version)) = true := by
        simp [confirms, hid, hdraft]
      refine .inr ⟨j, b', hb, hid, hconfirms, ?_⟩
      dsimp only
      split
      · rename_i hnone
        have hother : ∀ p, b'.path ≠ some p := by simp [hnone]
        exact ⟨rfl, rfl, fun p v hv => ⟨hother p, hv⟩, .inl rfl⟩
      · rename_i path hpath
        have herased : ∀ p v, (m.draftVersions.erase path).lookup p = some v →
            b'.path ≠ some p ∧ m.draftVersions.lookup p = some v := by
          intro p v hv
          by_cases hp : p = path
          · rw [hp, AList.lookup_erase] at hv
            cases hv
          · rw [AList.lookup_erase_ne hp] at hv
            exact ⟨by rw [hpath]; exact fun he => hp (Option.some.inj he).symm, hv⟩
        split
        · rename_i dir hdir
          split_ifs with hknown
          · refine ⟨rfl, rfl, herased, .inr ⟨by rw [hpath]; exact hknown, _, ?_, rfl⟩⟩
            rw [Host.draftFile, hpath, hdir]
            rfl
          · exact ⟨rfl, rfl, herased, .inl rfl⟩
        · exact ⟨rfl, rfl, herased, .inl rfl⟩

/-- **A save that is confirmed** settles its buffer, or leaves it with the draft it had. -/
theorem secure_of_fileSaved {buffer : BufferId} {version : Version} (hk : Secure h asked m)
    (hids : ((m.fileSaved h buffer version).buffers.map (·.id)).Nodup) (hsole : Sole m.buffers)
    (hrun : m.draftDeadline = none → m.outrun (.fs (.fileSaved buffer version)) = false)
    (ho : m.draftDeadline = none → m.overwrites h (.fs (.fileSaved buffer version)) = false) :
    Secure h asked (m.fileSaved h buffer version) := by
  rcases fileSaved_cases h m buffer version with
    ⟨hb, hdebounce, hout⟩ | ⟨i, b, hi, hid, hconfirms, hbuffers, hdeadline, hversions, hout⟩
  · have hsame : (m.fileSaved h buffer version).draftVersions = m.draftVersions :=
      congrArg Debounce.versions hdebounce
    refine ⟨hids, fun hs => ?_, fun hnone => ?_⟩
    · exact recorded_of_grows hsame (idles_of_subset (hb ▸ List.Subset.refl _)).grows
        (hk.recorded (hb ▸ hs))
    · rw [hb, hout]
      exact hk.drafted ((congrArg Debounce.deadline hdebounce).symm.trans hnone)
  · have hmem := List.mem_of_getElem? hi
    have hset : ∀ c ∈ (m.fileSaved h buffer version).buffers,
        c ∈ m.buffers ∨ c = b.markSaved version := fun c hc =>
      List.mem_or_eq_of_mem_set (hbuffers ▸ hc)
    refine ⟨hids, fun _ p v hv c hc hp => ?_, fun hnone c hc hdirty hpath => ?_⟩
    · obtain ⟨hne, hv⟩ := hversions p v hv
      rcases hset c hc with hc | rfl
      · exact hk.recorded hsole p v hv c hc hp
      · exact absurd hp hne
    · rw [hdeadline] at hnone
      by_cases hcid : c.id = buffer
      · -- the buffer itself is dirty still: it was before, and its draft is not known
        have hmarked : b.markSaved version ∈ (m.fileSaved h buffer version).buffers := by
          rw [hbuffers]
          obtain ⟨hlt, -⟩ := List.getElem?_eq_some_iff.mp hi
          exact List.mem_set hlt _
        obtain rfl : c = b.markSaved version :=
          List.inj_on_of_nodup_map hids hc hmarked (hcid.trans hid.symm)
        have hno := List.any_eq_false.mp (hrun hnone) b hmem
        have hstale : b.version ≠ version := by
          intro he
          have hclean : (b.markSaved version).isDirty = false := by
            simp [Buffer.isDirty, Buffer.markSaved, he]
          rw [hclean] at hdirty
          cases hdirty
        have hsome : b.path.isSome = true := Option.isSome_iff_ne_none.mpr hpath
        rw [hconfirms, hsome, decide_eq_true hstale] at hno
        obtain ⟨hwas, hunknown⟩ : b.isDirty = true ∧ b.path.any m.knownDrafts.contains = false := by
          simpa using hno
        rcases hout with hout | ⟨hknown, -⟩
        · rw [hout]
          exact (hk.drafted hnone b hmem hwas hpath).same rfl rfl rfl
        · rw [hunknown] at hknown
          cases hknown
      · rcases hset c hc with hc | rfl
        · have hbefore := hk.drafted hnone c hc hdirty hpath
          rcases hout with hout | ⟨hknown, file, hfile, hout⟩
          · rw [hout]
            exact hbefore
          · rw [hout, ← List.append_assoc]
            refine hbefore.append fun other hother r hr => ?_
            rw [List.mem_singleton.mp hr]
            have hother' : m.confirms c.id (.fs (.fileSaved buffer version)) = false := by
              simp [confirms, Ne.symm hcid]
            refine untouched (ho hnone) (.inr ?_) hc hdirty hother' hother
            refine List.mem_flatMap.mpr ⟨b, List.mem_filter.mpr ⟨hmem, ?_⟩, by simp [hfile]⟩
            rw [hconfirms, hknown]
            rfl
        · exact absurd hid hcid

theorem queueDraft_still (h : Host) (dir : Path) (m : Model) (b : Buffer) :
    Still m (m.queueDraft h dir b) := by
  unfold queueDraft
  dsimp only
  split
  · exact still_appendNotification ..
  · exact ⟨rfl, rfl, rfl⟩

theorem queueDraft_debounce (h : Host) (dir : Path) (m : Model) (b : Buffer) :
    (m.queueDraft h dir b).debounce = m.debounce := by
  unfold queueDraft
  dsimp only
  split
  · exact debounce_appendNotification ..
  · rfl

/-- **Time passes**: nothing is due, or every dirty buffer gets its draft. -/
theorem secure_of_tick {seconds : ℕ} (hk : Secure h asked m) (hsole : Sole m.buffers)
    (hdir : h.draftsDir.isSome = true) (hdue : m.undrafted h (.tick seconds) = false) :
    Secure h asked ({ m with clock := m.clock + seconds }.queueDueDrafts h) := by
  obtain ⟨dir, hdir⟩ := Option.isSome_iff_exists.mp hdir
  have hsame : Secure h asked { m with clock := m.clock + seconds } :=
    ⟨hk.ids, hk.recorded, hk.drafted⟩
  unfold queueDueDrafts
  split
  · exact hsame
  · rename_i deadline hdeadline
    have hdeadline : m.draftDeadline = some deadline := hdeadline
    split_ifs with hearly
    · exact hsame
    · have hearly : ¬ m.clock + seconds < deadline := hearly
      rw [undrafted, hdeadline, Option.any_some, decide_eq_true (Nat.not_lt.mp hearly)] at hdue
      obtain ⟨hall, hfiles⟩ : (∀ b ∈ m.unsaved, h.drafts b = true) ∧
          (m.unsaved.map h.draftFile).Nodup := by
        simpa using hdue
      have hunsaved : ∀ b ∈ m.buffers, b.isDirty = true → b.path ≠ none → b ∈ m.unsaved :=
        fun b hb hdirty hpath => List.mem_filter.mpr
          ⟨hb, by rw [hdirty, Option.isSome_iff_ne_none.mpr hpath]; rfl⟩
      dsimp only
      rw [hdir]
      dsimp only
      split_ifs with hnone
      · refine ⟨hk.ids, hk.recorded, fun _ b hb hdirty hpath => ?_⟩
        have hmem : b ∈ m.unsaved := hunsaved b hb hdirty hpath
        rw [show m.unsaved = [] from hnone] at hmem
        cases hmem
      · let start : Model := { m with clock := m.clock + seconds, draftDeadline := none }.send
          (.createDir dir)
        have hdrafts := queueDrafts_drafted h hdir asked hall hfiles start
        have hbuffers : (m.unsaved.foldl (queueDraft h dir) start).buffers = m.buffers :=
          (still_foldl (fun m b => queueDraft_still h dir m b) m.unsaved start).1
        have hdebounce : (m.unsaved.foldl (queueDraft h dir) start).debounce = start.debounce :=
          debounce_foldl (queueDraft_debounce h dir) m.unsaved start
        have hsecure : Secure h asked (m.unsaved.foldl (queueDraft h dir) start) := by
          refine ⟨by rw [hbuffers]; exact hk.ids, fun _ => ?_, fun _ b hb hdirty hpath => ?_⟩
          · have hversions : (m.unsaved.foldl (queueDraft h dir) start).draftVersions =
                m.draftVersions := congrArg Debounce.versions hdebounce
            exact recorded_of_grows hversions
              (idles_of_subset (hbuffers ▸ List.Subset.refl _)).grows (hk.recorded hsole)
          · rw [hbuffers] at hb
            exact hdrafts b (hunsaved b hb hdirty hpath)
        exact hsecure

/-- **What one event keeps.** -/
theorem step_secure (hk : Secure h asked m) (hdir : h.draftsDir.isSome = true)
    (hauto : m.autosave.isSome = true) (hok : m.astray h ev = false) (htake : ev ≠ .takeFsRequests)
    (hs : m.step h ev = some m') : Secure h asked m' := by
  obtain ⟨⟨⟨hdoubled, hintrudes⟩, hdue⟩, hquiet⟩ : ((m.doubled = false ∧ m.intrudes ev = false) ∧
      m.undrafted h ev = false) ∧ (m.draftDeadline = none →
        m.slips ev = false ∧ m.outrun ev = false ∧ m.overwrites h ev = false) := by
    simpa [astray, and_assoc] using hok
  have hids := step_nodup hs hk.ids
  have hsole := sole_of_doubled hdoubled
  have hover := fun hnone => (hquiet hnone).2.2
  have haside : (∀ buffer version, ev ≠ .fs (.fileSaved buffer version)) →
      (∀ seconds, ev ≠ .tick seconds) → Secure h asked m' := by
    intro hsaved htick
    have hload : ∀ buffer path text, ev = .fs (.fileLoaded buffer path (some text)) →
        m.ForBuffer buffer → m.Welcome buffer path := by
      rintro buffer path text rfl hr b hb hdirty hp
      rw [intrudes, decide_eq_true hr, Bool.true_and] at hintrudes
      simpa [hdirty, hp] using List.any_eq_false.mp hintrudes b hb
    have haccounts := step_accounts hs hsaved htick hload fun hnone => (hquiet hnone).1
    refine secure_of_accounts hk hauto hsole hids haccounts (step_ordered hs hsaved htick htake)
      (fun id => ?_) hover
    cases ev with
    | fs e =>
      cases e with
      | fileSaved buffer version => exact absurd rfl (hsaved buffer version)
      | _ => rfl
    | _ => rfl
  cases ev with
  | tick seconds => exact Option.some.inj hs ▸ secure_of_tick hk hsole hdir hdue
  | fs e =>
    cases e with
    | fileSaved buffer version =>
      obtain rfl : m.fileSaved h buffer version = m' := Option.some.inj hs
      exact secure_of_fileSaved hk hids hsole (fun hnone => (hquiet hnone).2.1) hover
    | _ => exact haside (by simp) (by simp)
  | _ => exact haside (by simp) (by simp)

end Model

/-! ## Runs -/

/-- The event of a deed. -/
def Deed.occurs : Deed → Option Event
  | event ev => some ev
  | take => none
  | answer reply => reply.map .fs

namespace Watch

variable {w w' : Watch} {d : Deed}

/-- Unsaved work is covered: a deadline is set, or the draft is the last that was asked for. -/
def Covered (h : Host) (w : Watch) : Prop :=
  ∀ b ∈ w.world.model.buffers, b.isDirty = true → b.path ≠ none →
    w.world.model.draftDeadline.isSome = true ∨ Drafted h (w.handed ++ w.world.model.outbox) b

/-- Autosave is on, and the step does not go astray. -/
def spares (h : Host) (w : Watch) (d : Deed) : Bool :=
  w.world.model.autosave.isSome && !d.occurs.any (w.world.model.astray h)

theorem step_keeps (hk : w.world.model.Secure h w.handed) (hdir : h.draftsDir.isSome = true)
    (hok : w.spares h d = true) (hs : w.step h d = some w') :
    w'.world.model.Secure h w'.handed := by
  obtain ⟨hauto, hok⟩ := Bool.and_eq_true_iff.mp hok
  obtain ⟨world, hw, rfl⟩ := Option.map_eq_some_iff.mp hs
  cases d with
  | event ev =>
    rw [World.step] at hw
    split_ifs at hw with hworker
    obtain ⟨m', hm, rfl⟩ := Option.map_eq_some_iff.mp hw
    refine Model.step_secure hk hdir hauto (by simpa [Deed.occurs] using hok) ?_ hm
    rintro rfl
    exact hworker rfl
  | take =>
    rw [← Option.some.inj hw]
    refine ⟨hk.ids, hk.recorded, fun hnone b hb hdirty hpath => ?_⟩
    rw [List.append_nil]
    exact hk.drafted hnone b hb hdirty hpath
  | answer reply =>
    unfold World.step at hw
    dsimp only at hw
    split at hw
    · cases hw
    · split_ifs at hw
      obtain ⟨m', hm, rfl⟩ := Option.map_eq_some_iff.mp hw
      cases reply with
      | none =>
        rw [← Option.some.inj hm]
        exact hk
      | some e =>
        exact Model.step_secure hk hdir hauto (by simpa [Deed.occurs] using hok) (by simp) hm

/-- **Unsaved work is covered by drafts**, in every run in which autosave is on and no step goes
astray. -/
theorem drafts_cover (h : Host) (hdir : h.draftsDir.isSome = true)
    (hr : Runs.Reach (step h) (fun w d => w.spares h d = true) Fresh w) : w.Covered h := by
  have hk : w.world.model.Secure h w.handed :=
    hr.inv (fun w hf => by
        obtain ⟨⟨hb, -, -⟩, -⟩ := hf
        exact ⟨by simp [hb], by simp [hb, Model.Recorded], by simp [hb]⟩)
      fun _ _ _ hk hok hs => step_keeps hk hdir hok hs
  intro b hb hdirty hpath
  cases hdeadline : w.world.model.draftDeadline with
  | some deadline => exact .inl rfl
  | none => exact .inr (hk.drafted hdeadline b hb hdirty hpath)

/-! ## A note that is saved and edited -/

/-- The note whose debounce ran out, in a run that spares it. -/
def sparedNote : Watch :=
  (Runs.checkedRun (step keeper) (spares keeper) emptyDesk pausing).get (by decide)

theorem drafts_cover_note : sparedNote.Covered keeper :=
  drafts_cover keeper rfl (.of_checkedRun (fun _ _ hok => hok) pausing (.start fresh_emptyDesk)
    (Option.some_get _).symm)

/-- The draft is written, the note saved and edited again, and the edit drafted before the save is
confirmed. -/
def lateSave : List Deed :=
  pausing ++
    [.answer (some (.changed [[.rootDir, .normal "drafts"]])), .answer (some (.fileSaved ⟨2⟩ 1)),
      .event (.dispatch .save)] ++ top 0 ++ [.event (.typeChar 'y')] ++ top 2 ++
    [.answer (some (.fileSaved ⟨1⟩ 1))]

/-- Autosave is on, and the worker fails nothing. -/
def smooth (w : Watch) : Deed → Bool
  | .answer (some (.fileFailed ..)) => false
  | _ => w.world.model.autosave.isSome

def lateSavedNote : Watch :=
  (Runs.checkedRun (step keeper) smooth emptyDesk lateSave).get (by decide)

/-- **A save that is confirmed late.** It removes the draft of the newer edit. -/
theorem late_save_uncovers :
    ¬ ∀ (h : Host) (w : Watch), h.draftsDir.isSome = true →
      Runs.Reach (step h) (fun w d => w.smooth d = true) Fresh w → w.Covered h := by
  intro hall
  have hcovered := hall keeper lateSavedNote rfl (.of_checkedRun (fun _ _ hok => hok) lateSave
    (.start fresh_emptyDesk) (Option.some_get _).symm)
  have hdirty : lateSavedNote.world.model.buffers.any
      (fun b => b.isDirty && b.path == some World.notePath) = true := by decide
  obtain ⟨b, hb, hd⟩ := List.any_eq_true.mp hdirty
  obtain ⟨hd, hp⟩ := Bool.and_eq_true_iff.mp hd
  have hp : b.path = some World.notePath := by simpa using hp
  have hfile : keeper.draftFile b = some [.rootDir, .normal "drafts", .normal "draft"] := by
    rw [Host.draftFile, hp]
    rfl
  rcases hcovered b hb hd (by rw [hp]; exact Option.some_ne_none _) with hdeadline | hdrafted
  · have hnone : lateSavedNote.world.model.draftDeadline = none := by decide
    rw [hnone] at hdeadline
    cases hdeadline
  · obtain ⟨path, file, id, contents, -, hfile', -, hlast⟩ := hdrafted
    obtain rfl := Option.some.inj (hfile.symm.trans hfile')
    have hremoved : lastTouch (lateSavedNote.handed ++ lateSavedNote.world.model.outbox)
        [.rootDir, .normal "drafts", .normal "draft"] =
          some (.remove [.rootDir, .normal "drafts", .normal "draft"] false) := by decide
    rw [hremoved] at hlast
    cases hlast

end Watch

end App

end Termesh
