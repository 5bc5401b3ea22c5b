import Termesh.App.Moves
import Termesh.Editor.UndoRedo

/-!
# Recovery drafts

A draft is what a dirty buffer would write to disk. A new process reads the file again and, when the
human accepts the draft, replaces the whole text by it. TOML is a parameter.

* `StoredDraft`, `encodeDraft`, `parseDraft`: the file of a draft;
* `Offers`, **`recovered_text`**: accepting a draft puts its text into the buffer as it stands;
* **`draft_restores_iff`**: that is the text the draft was made of unless line breaks are CRLF;
* **`not_restored_crlf`**.
-/

namespace Termesh

/-! ## Whole texts -/

theorem ChangeSet.replace_whole (old new : Text) :
    ∃ changes, ChangeSet.replace old.length 0 old.length new = some changes ∧
      changes.lenBefore = old.length ∧ changes.apply old = new := by
  have hnot : ¬ old.length < 0 := Nat.not_lt_zero _
  obtain ⟨changes, hc, hl, ht⟩ := ChangeSetBuilder.build_some
    (b := (((builder old.length).retain 0).delete (old.length - 0)).insert new)
    (show 0 + 0 + (old.length - 0) ≤ old.length by omega)
  have hlen : old.length = changes.lenBefore := hl.symm
  refine ⟨changes, by rw [replace, if_neg hnot]; exact hc, hl, ?_⟩
  have htoks : changes.toks = EditScript.nf (EditScript.keeps 0 ++ (EditScript.drops old.length ++
      (EditScript.adds new ++ EditScript.keeps 0))) := by
    show Termesh.toks changes.ops = _
    have hrest : old.length - (0 + 0 + (old.length - 0)) = 0 := by omega
    rw [ht, ChangeSetBuilder.nf_insert_append, ChangeSetBuilder.nf_delete_append,
      ChangeSetBuilder.nf_retain_append]
    show EditScript.nf (EditScript.keeps 0 ++ (EditScript.drops (old.length - 0) ++
      (EditScript.adds new ++ EditScript.keeps (old.length - (0 + 0 + (old.length - 0)))))) = _
    rw [hrest, Nat.sub_zero]
  have hd := EditScript.app_drops (EditScript.adds new ++ EditScript.keeps 0) old []
  rw [List.append_nil] at hd
  rw [changes.apply_eq old hlen, htoks, EditScript.app_nf _ _ (by simp)]
  show EditScript.app (EditScript.drops old.length ++ _) old = new
  rw [hd, EditScript.app_adds]
  simp [EditScript.app]

theorem length_expandNewlines (t : Text) :
    (expandNewlines t).length = t.length + t.count '\n' := by
  induction t with
  | nil => rfl
  | cons c t ih =>
    have hcons : expandNewlines (c :: t) =
        (if c = '\n' then ['\r', '\n'] else [c]) ++ expandNewlines t := rfl
    rw [hcons, List.length_append, ih, List.length_cons, List.count_cons]
    by_cases hc : c = '\n'
    · subst hc
      simp
      omega
    · rw [if_neg hc, if_neg (by simpa using hc)]
      simp
      omega

theorem expandNewlines_eq_self (t : Text) : expandNewlines t = t ↔ '\n' ∉ t := by
  constructor
  · intro h
    have hlen := length_expandNewlines t
    rw [h] at hlen
    exact List.count_eq_zero.mp (by omega)
  · intro h
    induction t with
    | nil => rfl
    | cons c t ih =>
      rw [List.mem_cons, not_or] at h
      obtain ⟨hc, ht⟩ := h
      show (if c = '\n' then ['\r', '\n'] else [c]) ++ expandNewlines t = c :: t
      rw [ih ht, if_neg (Ne.symm hc)]
      rfl

namespace Buffer

theorem step_keeps {b b' : Buffer} {op : BufferOp} (hs : b.step op = some b') :
    b'.lineEnding = b.lineEnding ∧ b'.path = b.path := by
  have hreplay : ∀ {b b' : Buffer} {p : History × Option ChangeSet} {r : Bool},
      b.replayed p = some (b', r) → b'.lineEnding = b.lineEnding ∧ b'.path = b.path := by
    intro b b' p r h
    obtain ⟨history, c⟩ := p
    cases c with
    | none =>
      rw [← (Prod.mk.inj (Option.some.inj h)).1]
      exact ⟨rfl, rfl⟩
    | some c =>
      obtain ⟨b₁, h₁, hx⟩ := Option.map_eq_some_iff.mp h
      unfold replay at h₁
      split_ifs at h₁
      rw [← (Prod.mk.inj hx).1, ← Option.some.inj h₁]
      exact ⟨rfl, rfl⟩
  cases op with
  | groupFor | setSelection | markSaved =>
    rw [← Option.some.inj hs]
    exact ⟨rfl, rfl⟩
  | apply t =>
    obtain ⟨⟨b₁, r⟩, ha, rfl⟩ := Option.map_eq_some_iff.mp hs
    cases applied_of_apply ha with
    | refused | empty | changed => exact ⟨rfl, rfl⟩
  | undo | redo =>
    obtain ⟨⟨b₁, r⟩, hu, rfl⟩ := Option.map_eq_some_iff.mp hs
    obtain ⟨p, -, hr⟩ := Option.bind_eq_some_iff.mp hu
    exact hreplay hr

theorem run_keeps {b b' : Buffer} (ops : List BufferOp) (hr : Runs.run Buffer.step b ops = some b') :
    b'.lineEnding = b.lineEnding ∧ b'.path = b.path := by
  induction ops generalizing b with
  | nil =>
    rw [← Option.some.inj hr]
    exact ⟨rfl, rfl⟩
  | cons op ops ih =>
    obtain ⟨b₁, hs, hr⟩ := Option.bind_eq_some_iff.mp hr
    obtain ⟨hl, hp⟩ := ih hr
    obtain ⟨hl₁, hp₁⟩ := step_keeps hs
    exact ⟨hl.trans hl₁, hp.trans hp₁⟩

end Buffer

namespace App

/-! ## The file of a draft -/

/-- What the file of a draft holds. -/
structure StoredDraft where
  version : ℕ
  path : Path
  savedAtUnixSeconds : ℕ
  text : Text
deriving DecidableEq, Repr

/-- `toml::to_string_pretty` and `toml::from_str`. -/
structure Toml where
  render : StoredDraft → Except String Text
  parse : Text → Except String StoredDraft

/-- The version of the draft files. -/
def draftVersion : ℕ := 1

/-- `encode_draft`, at a time given in seconds since the epoch; there is none before it. -/
def encodeDraft (toml : Toml) (savedAt : Option ℕ) (draft : Draft) (_file : Path) :
    Except String Text :=
  match savedAt with
  | none => .error "second time provided was later than self"
  | some seconds => toml.render ⟨draftVersion, draft.path, seconds, draft.text⟩

/-- A draft is read from its file. -/
def parseDraft (toml : Toml) (contents : Text) (_file : Path) : Except String Draft :=
  match toml.parse contents with
  | .error e => .error e
  | .ok stored =>
    if stored.version > draftVersion then
      .error ("draft version " ++ Nat.repr stored.version ++ " is newer than this build understands")
    else .ok ⟨stored.path, stored.text⟩

/-- What TOML renders, it reads back. -/
def Toml.Faithful (toml : Toml) : Prop :=
  ∀ stored contents, toml.render stored = .ok contents → toml.parse contents = .ok stored

theorem parse_encode {toml : Toml} (ht : toml.Faithful) {savedAt : Option ℕ} {draft : Draft}
    {file : Path} {contents : Text} (he : encodeDraft toml savedAt draft file = .ok contents) :
    parseDraft toml contents file = .ok draft := by
  cases savedAt with
  | none => cases he
  | some seconds =>
    rw [parseDraft, ht _ _ he]
    exact if_neg (Nat.lt_irrefl _)

namespace Model

/-! ## Writing -/

/-- The request that writes one draft, behind what is already queued. -/
def queueDraft (h : Host) (dir : Path) (m : Model) (b : Buffer) : Model :=
  let source := b.path.getD []
  let file := dir.join (h.draftFileName source)
  match h.encodeDraft ⟨source, b.toDiskString⟩ file with
  | .error e => m.appendNotification ("could not encode recovery draft: " ++ e)
  | .ok contents =>
    let buffer : BufferId := ⟨m.nextBufferId + 1⟩
    { m with
      nextBufferId := m.nextBufferId + 1
      pendingDraftWrites := m.pendingDraftWrites ++ [(buffer, source)] }.send
      (.writeFile buffer file contents b.version)

theorem queueDraft_outbox (h : Host) (dir : Path) (m : Model) (b : Buffer) :
    m.outbox <+: (m.queueDraft h dir b).outbox := by
  unfold queueDraft
  dsimp only
  split
  · refine ⟨[], ?_⟩
    rw [List.append_nil]
    exact (outbox_of_desk (desk_appendNotification ..)).symm
  · exact List.prefix_append _ _

theorem queueDrafts_outbox (h : Host) (dir : Path) (bs : List Buffer) (m : Model) :
    m.outbox <+: (bs.foldl (queueDraft h dir) m).outbox := by
  induction bs generalizing m with
  | nil => exact List.prefix_refl _
  | cons b bs ih => exact (queueDraft_outbox h dir m b).trans (ih _)

theorem mem_queueDrafts {h : Host} {dir : Path} {bs : List Buffer} {b : Buffer} {p : Path}
    {contents : Text} (hb : b ∈ bs) (hp : b.path = some p)
    (he : h.encodeDraft ⟨p, b.toDiskString⟩ (dir.join (h.draftFileName p)) = .ok contents)
    (m : Model) :
    ∃ buffer, FsRequest.writeFile buffer (dir.join (h.draftFileName p)) contents b.version ∈
      (bs.foldl (queueDraft h dir) m).outbox := by
  induction bs generalizing m with
  | nil => cases hb
  | cons a bs ih =>
    rcases List.mem_cons.mp hb with rfl | hb
    · refine ⟨⟨m.nextBufferId + 1⟩, (queueDrafts_outbox h dir bs _).subset ?_⟩
      unfold queueDraft
      simp only [hp, Option.getD_some, he]
      exact List.mem_append_right _ List.mem_cons_self
    · exact ih hb _

/-- **An expired debounce queues the draft of every dirty buffer** that can be encoded. -/
theorem queued_draft {h : Host} {m : Model} {b : Buffer} {p dir : Path} {deadline : ℕ}
    {contents : Text} (hb : b ∈ m.buffers) (hd : b.isDirty = true) (hp : b.path = some p)
    (hdl : m.draftDeadline = some deadline) (hdue : deadline ≤ m.clock)
    (hdir : h.draftsDir = some dir)
    (he : h.encodeDraft ⟨p, b.toDiskString⟩ (dir.join (h.draftFileName p)) = .ok contents) :
    ∃ buffer, FsRequest.writeFile buffer (dir.join (h.draftFileName p)) contents b.version ∈
      (m.queueDueDrafts h).outbox := by
  have hmem : b ∈ m.buffers.filter fun b => b.isDirty && b.path.isSome :=
    List.mem_filter.mpr ⟨hb, by rw [hd, hp]; rfl⟩
  have hne : (m.buffers.filter fun b => b.isDirty && b.path.isSome) ≠ [] :=
    List.ne_nil_of_mem hmem
  unfold queueDueDrafts
  simp only [hdl, hdir, if_neg (Nat.not_lt.mpr hdue), if_neg hne]
  exact mem_queueDrafts hmem hp he _

/-! ## Accepting -/

theorem bufferAt_of_buffers {m m' : Model} (hb : m'.buffers = m.buffers) (p : Path) :
    m'.bufferAt p = m.bufferAt p := by rw [bufferAt, bufferAt, hb]

/-- One draft replaces the text of the first buffer of its path, and no other text. -/
theorem applyDraft_spec (m : Model) (d : Draft) :
    ∃ m', m.applyDraft d = some m' ∧ ∀ p b, m.bufferAt p = some b →
      ∃ b', m'.bufferAt p = some b' ∧ b'.lineEnding = b.lineEnding ∧
        b'.text = if d.path = p then d.text else b.text := by
  unfold applyDraft
  cases hl : m.located d.path with
  | none =>
    refine ⟨_, rfl, fun p b hb => ?_⟩
    have hne : d.path ≠ p := by
      rintro rfl
      obtain ⟨i, hi⟩ := located_of_bufferAt hb
      rw [hl] at hi
      cases hi
    rw [bufferAt_of_buffers (still_appendNotification m _).1, if_neg hne]
    exact ⟨b, hb, rfl, rfl⟩
  | some at_ =>
    obtain ⟨i, b₀⟩ := at_
    obtain ⟨hat, hpath, hfirst, hset⟩ := located_some hl
    obtain ⟨changes, hc, hlen, happly⟩ := ChangeSet.replace_whole b₀.text d.text
    obtain ⟨b₁, ha, happlied⟩ := Buffer.apply_ok (b := (b₀.transaction changes .replace).1)
      (t := (b₀.transaction changes .replace).2) rfl hlen
    have hb₁ : b₁.path = b₀.path ∧ b₁.lineEnding = b₀.lineEnding ∧ b₁.text = d.text := by
      cases happlied with
      | empty hv hle hempty =>
        refine ⟨rfl, rfl, ?_⟩
        -- an empty change: the texts are the same already
        show b₀.text = d.text
        rw [← happly]
        exact (changes.apply_of_isIdentity hempty b₀.text hlen.symm).symm
      | changed => exact ⟨rfl, rfl, happly⟩
    have htransact : m.transact i changes .replace = some (m.setBuffer i b₁, .ok ()) := by
      rw [transact, hat, Option.bind_some]
      dsimp only
      rw [ha]
      rfl
    refine ⟨m.setBuffer i b₁, ?_, fun p b hb => ?_⟩
    · dsimp only
      rw [hc, Option.bind_some, htransact]
      rfl
    · by_cases hp : d.path = p
      · rw [← hp] at hb ⊢
        rw [if_pos rfl]
        obtain rfl : b₀ = b := Option.some.inj (hfirst.symm.trans hb)
        exact ⟨b₁, hset b₁ (hb₁.1.trans hpath), hb₁.2.1, hb₁.2.2⟩
      · rw [if_neg hp]
        have hother : ∀ b : Buffer, b.path = some d.path → decide (b.path = some p) = false := by
          intro b hb
          rw [hb]
          simpa using hp
        refine ⟨b, ?_, rfl, rfl⟩
        rw [← hb]
        exact Firsts.find?_set hat (hother b₀ hpath) (hother b₁ (hb₁.1.trans hpath))

/-- **Accepting drafts**: the last one of a path is the text of its first buffer. -/
theorem applyDrafts_spec (m : Model) (ds : List Draft) :
    ∃ m', m.applyDrafts ds = some m' ∧ ∀ p b, m.bufferAt p = some b →
      ∃ b', m'.bufferAt p = some b' ∧ b'.lineEnding = b.lineEnding ∧
        (∀ before d after, ds = before ++ d :: after → d.path = p → (∀ d' ∈ after, d'.path ≠ p) →
          b'.text = d.text) ∧
        ((∀ d ∈ ds, d.path ≠ p) → b'.text = b.text) := by
  induction ds generalizing m with
  | nil =>
    refine ⟨m, rfl, fun p b hb => ⟨b, hb, rfl, fun before d after hds => ?_, fun _ => rfl⟩⟩
    cases before <;> cases hds
  | cons d₀ ds ih =>
    obtain ⟨m₁, h₁, hone⟩ := applyDraft_spec m d₀
    obtain ⟨m', h', hrest⟩ := ih m₁
    refine ⟨m', by rw [applyDrafts, h₁]; exact h', fun p b hb => ?_⟩
    obtain ⟨b₁, hb₁, hending₁, htext₁⟩ := hone p b hb
    obtain ⟨b', hb', hending', hlast, hkeep⟩ := hrest p b₁ hb₁
    refine ⟨b', hb', hending'.trans hending₁, fun before d after hds hp hafter => ?_, fun hnone => ?_⟩
    · cases before with
      | nil =>
        obtain ⟨rfl, rfl⟩ := List.cons.inj hds
        rw [hkeep hafter, htext₁, if_pos hp]
      | cons d₁ before => exact hlast before d after (List.cons.inj hds).2 hp hafter
    · rw [hkeep fun d hd => hnone d (List.mem_cons_of_mem _ hd), htext₁,
        if_neg (hnone d₀ List.mem_cons_self)]

/-- A process that read the file of `p`, which reads `text`, and offers `draft` for it, the last one
of that path on the list. -/
structure Offers (m : Model) (p : Path) (text : Text) (draft : Draft) (selectedOnly : Bool) :
    Prop where
  loaded : ∃ id, m.bufferAt p = some (Buffer.fromText id (some p) text)
  offered : ∃ before chosen after focus, m.overlays.getLast? =
    some (.draftRecovery (before ++ (draft, chosen) :: after) focus) ∧
      (selectedOnly = true → chosen = true) ∧ ∀ d ∈ after, d.1.path ≠ p
  path : draft.path = p

/-- **Accepting a draft** puts its text into the buffer as it stands. -/
theorem recovered_text {m : Model} {p : Path} {text : Text} {draft : Draft} {selectedOnly : Bool}
    (ho : m.Offers p text draft selectedOnly) :
    ∃ m' b', m.applyRecoveryDrafts selectedOnly = some m' ∧ m'.bufferAt p = some b' ∧
      b'.lineEnding = LineEnding.detect text ∧ b'.text = draft.text := by
  obtain ⟨id, hloaded⟩ := ho.loaded
  obtain ⟨before, chosen, after, focus, hlast, hchosen, hafter⟩ := ho.offered
  unfold applyRecoveryDrafts
  rw [hlast]
  dsimp only
  obtain ⟨m', h', hspec⟩ := applyDrafts_spec
    { m with overlays := m.overlays.dropLast, focus := focus }
    (((before ++ (draft, chosen) :: after).filter fun d => !selectedOnly || d.2).map Prod.fst)
  obtain ⟨b', hb', hending, htext, -⟩ := hspec p _ hloaded
  refine ⟨m', b', h', hb', hending, ?_⟩
  have hpick : (!selectedOnly || chosen) = true := by
    cases selectedOnly with
    | false => rfl
    | true => exact hchosen rfl
  refine htext ((before.filter fun d => !selectedOnly || d.2).map Prod.fst) draft
    ((after.filter fun d => !selectedOnly || d.2).map Prod.fst) ?_ ho.path ?_
  · rw [List.filter_append, List.map_append, List.filter_cons_of_pos
      (p := fun d : Draft × Bool => !selectedOnly || d.2) (a := (draft, chosen)) hpick, List.map_cons]
  · intro d hd
    obtain ⟨e, he, rfl⟩ := List.mem_map.mp hd
    exact hafter e (List.mem_filter.mp he).1

/-! ## The round trip -/

/-- What a buffer is to its reader: its text, and what it would write. -/
def Same (b b' : Buffer) : Prop := b'.text = b.text ∧ b'.toDiskString = b.toDiskString

/-- A text that was made to look like a file comes back as it was unless its lines end in CRLF. -/
theorem same_iff {b b' : Buffer} (hending : b'.lineEnding = b.lineEnding)
    (htext : b'.text = b.toDiskString) :
    Same b b' ↔ b.lineEnding = .lf ∨ '\n' ∉ b.text := by
  unfold Same Buffer.toDiskString at *
  rw [hending]
  cases hb : b.lineEnding with
  | lf =>
    rw [hb] at htext
    simp [htext]
  | crlf =>
    rw [hb] at htext
    dsimp only at htext ⊢
    rw [htext, expandNewlines_eq_self]
    constructor
    · exact fun hs => .inr hs.1
    · rintro (h | h)
      · cases h
      · have hself := (expandNewlines_eq_self _).mpr h
        exact ⟨h, by rw [hself, hself]⟩

/-- **Crash drafts restore what was typed** exactly when the file's lines end in LF, or no line ends:
the file `text` was read and edited, the draft is queued, and a new process that reads the same file
accepts what the draft's file holds. -/
theorem draft_restores_iff {toml : Toml} (ht : toml.Faithful) {h : Host}
    {p dir : Path} {text contents : Text} {id : BufferId} {ops : List BufferOp} {b : Buffer}
    {m m' : Model} {deadline : ℕ} {selectedOnly : Bool}
    (hrun : Runs.run Buffer.step (Buffer.fromText id (some p) text) ops = some b)
    (hdirty : b.isDirty = true) (hb : b ∈ m.buffers) (hdl : m.draftDeadline = some deadline)
    (hdue : deadline ≤ m.clock) (hdir : h.draftsDir = some dir)
    (hcode : ∀ draft file, ∃ savedAt, h.encodeDraft draft file = encodeDraft toml savedAt draft file)
    (he : h.encodeDraft ⟨p, b.toDiskString⟩ (dir.join (h.draftFileName p)) = .ok contents)
    (ho : ∀ draft, parseDraft toml contents (dir.join (h.draftFileName p)) = .ok draft →
      m'.Offers p text draft selectedOnly) :
    (∃ buffer, FsRequest.writeFile buffer (dir.join (h.draftFileName p)) contents b.version ∈
        (m.queueDueDrafts h).outbox) ∧
      ∃ m₁ b₁, m'.applyRecoveryDrafts selectedOnly = some m₁ ∧ m₁.bufferAt p = some b₁ ∧
        (Same b b₁ ↔ LineEnding.detect text = .lf ∨ '\n' ∉ b.text) := by
  obtain ⟨hending, hpath⟩ := Buffer.run_keeps ops hrun
  refine ⟨queued_draft hb hdirty hpath hdl hdue hdir he, ?_⟩
  have hparse : parseDraft toml contents (dir.join (h.draftFileName p)) =
      .ok ⟨p, b.toDiskString⟩ := by
    obtain ⟨savedAt, hcode⟩ := hcode ⟨p, b.toDiskString⟩ (dir.join (h.draftFileName p))
    rw [hcode] at he
    exact parse_encode ht he
  obtain ⟨m₁, b₁, happly, hat, hending₁, htext₁⟩ := recovered_text (ho _ hparse)
  have hsame : b₁.lineEnding = b.lineEnding := hending₁.trans hending.symm
  refine ⟨m₁, b₁, happly, hat, (same_iff hsame htext₁).trans ?_⟩
  rw [hending]
  rfl

/-- TOML, as far as one draft needs it. -/
def oneDraft (stored : StoredDraft) (contents : Text) : Toml where
  render s := if s = stored then .ok contents else .error "not the draft"
  parse c := if c = contents then .ok stored else .error "not the draft"

theorem oneDraft_faithful (stored : StoredDraft) (contents : Text) :
    (oneDraft stored contents).Faithful := by
  intro s c h
  simp only [oneDraft] at h ⊢
  split_ifs at h with hs
  obtain rfl : contents = c := by simpa using h
  rw [if_pos rfl, hs]

theorem oneDraft_encode (path : Path) (savedAt : ℕ) (text contents : Text) (file : Path) :
    encodeDraft (oneDraft ⟨draftVersion, path, savedAt, text⟩ contents) (some savedAt) ⟨path, text⟩
      file = .ok contents := if_pos rfl

/-- A note of one line. -/
def draftedNote : Path := [.rootDir, .normal "w", .normal "n.md"]

/-- The note as it was read, in LF or CRLF. -/
def noteLoaded (text : Text) : Buffer := .fromText ⟨1⟩ (some draftedNote) text

/-- A character is typed in front of a text of two characters. -/
def typedInFront : ChangeSet := (ChangeSet.replace 2 0 0 ['x']).get (by decide)

def noteTypes (text : Text) : List BufferOp :=
  [.groupFor .keyboard, .apply ((noteLoaded text).transaction typedInFront .keyboard).2]

def noteAhead (text : Text) : Option Buffer := Runs.run Buffer.step (noteLoaded text) (noteTypes text)

/-- A host that keeps drafts. -/
def drafting (toml : Toml) : Host :=
  { Host.plain with
    draftsDir := some [.rootDir, .normal "drafts"], encodeDraft := encodeDraft toml (some 0) }

/-- The debounce of an edited note expires. -/
def noteDue (b : Buffer) : Model := { buffers := [b], draftDeadline := some 0 }

/-- The next process. -/
def noteOffered (text disk : Text) : Model :=
  { buffers := [noteLoaded text], overlays := [.draftRecovery [(⟨draftedNote, disk⟩, true)] .editor] }

/-- The two drafts as they are stored. -/
def unixFile : Text :=
  ("version = 1\npath = \"/w/n.md\"\nsaved_at_unix_seconds = 0\n" ++
    "text = \"\"\"\nxa\n\"\"\"\n").toList

def dosFile : Text :=
  ("version = 1\npath = \"/w/n.md\"\nsaved_at_unix_seconds = 0\n" ++
    "text = \"\"\"\nxa\\r\n\"\"\"\n").toList

def unixToml : Toml := oneDraft ⟨1, draftedNote, 0, "xa\n".toList⟩ unixFile

def dosToml : Toml := oneDraft ⟨1, draftedNote, 0, "xa\r\n".toList⟩ dosFile

def unixNote : Buffer := (noteAhead "a\n".toList).get (by decide)

def dosNote : Buffer := (noteAhead "a\r\n".toList).get (by decide)

theorem draft_restores_iff_note :
    (∃ buffer, FsRequest.writeFile buffer [.rootDir, .normal "drafts", .normal "draft"] unixFile
        unixNote.version ∈ ((noteDue unixNote).queueDueDrafts (drafting unixToml)).outbox) ∧
      ∃ m₁ b₁, (noteOffered "a\n".toList "xa\n".toList).applyRecoveryDrafts true = some m₁ ∧
        m₁.bufferAt draftedNote = some b₁ ∧
        (Same unixNote b₁ ↔ LineEnding.detect "a\n".toList = .lf ∨ '\n' ∉ unixNote.text) := by
  have hrun : Runs.run Buffer.step (noteLoaded "a\n".toList) (noteTypes "a\n".toList) =
      some unixNote := Option.eq_some_of_isSome (by decide)
  have hdisk : unixNote.toDiskString = "xa\n".toList := by decide
  have hencode : encodeDraft unixToml (some 0) ⟨draftedNote, unixNote.toDiskString⟩
      [.rootDir, .normal "drafts", .normal "draft"] = .ok unixFile := by
    rw [hdisk]
    exact oneDraft_encode draftedNote 0 _ _ _
  have hparse : parseDraft unixToml unixFile [.rootDir, .normal "drafts", .normal "draft"] =
      .ok ⟨draftedNote, "xa\n".toList⟩ := by
    rw [← hdisk]
    exact parse_encode (oneDraft_faithful _ _) hencode
  have hoffers : ∀ draft,
      parseDraft unixToml unixFile [.rootDir, .normal "drafts", .normal "draft"] = .ok draft →
        (noteOffered "a\n".toList "xa\n".toList).Offers draftedNote "a\n".toList draft true := by
    intro draft hd
    rw [hparse] at hd
    rw [← Except.ok.inj hd]
    exact ⟨⟨⟨1⟩, by decide⟩, ⟨[], true, [], .editor, rfl, fun _ => rfl, fun _ h => by cases h⟩, rfl⟩
  exact draft_restores_iff (oneDraft_faithful _ _) (h := drafting unixToml) hrun (by decide)
    List.mem_cons_self rfl (Nat.le_refl 0) rfl (fun _ _ => ⟨some 0, rfl⟩) hencode hoffers

/-- **A draft that comes back changed.** The note's line ends in CRLF; its draft is spliced in as it
was written, and saving it would end the line in CR CR LF. -/
theorem not_restored_crlf :
    dosNote.isDirty = true ∧ dosNote.text = "xa\n".toList ∧ dosNote.toDiskString = "xa\r\n".toList ∧
      (drafting dosToml).encodeDraft ⟨draftedNote, dosNote.toDiskString⟩
        [.rootDir, .normal "drafts", .normal "draft"] = .ok dosFile ∧
      parseDraft dosToml dosFile [.rootDir, .normal "drafts", .normal "draft"] =
        .ok ⟨draftedNote, "xa\r\n".toList⟩ ∧
      (((noteOffered "a\r\n".toList "xa\r\n".toList).applyRecoveryDrafts true).bind fun m =>
        (m.bufferAt draftedNote).map fun b => (b.text, b.toDiskString)) =
          some ("xa\r\n".toList, "xa\r\r\n".toList) := by
  have hdisk : dosNote.toDiskString = "xa\r\n".toList := by decide
  have hencode : encodeDraft dosToml (some 0) ⟨draftedNote, dosNote.toDiskString⟩
      [.rootDir, .normal "drafts", .normal "draft"] = .ok dosFile := by
    rw [hdisk]
    exact oneDraft_encode draftedNote 0 _ _ _
  refine ⟨by decide, by decide, hdisk, hencode, ?_, by decide⟩
  rw [← hdisk]
  exact parse_encode (oneDraft_faithful _ _) hencode

end Model

end App

end Termesh
