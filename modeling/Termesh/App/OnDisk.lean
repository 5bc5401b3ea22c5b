import Termesh.App.Worker

/-!
# Clean means on disk

A buffer is clean when its revision is the one last confirmed. Revisions start again at 0 when a
file is read into the buffer, so a confirmation of an earlier incarnation must not be outstanding
then.

* `Fits`, `Kept`: what holds between buffers, unanswered requests and what is known of the files;
* `World.clear`: no file is read into a buffer while a write of it is unanswered;
* **`clean_on_disk`**: then the text of a clean buffer is the one last confirmed or absorbed.
-/

namespace Termesh

theorem normalize_expandNewlines (t : Text) : normalizeNewlines (expandNewlines t) = t := by
  induction t with
  | nil => rfl
  | cons c t ih =>
    by_cases hc : c = '\n'
    · subst hc
      show normalizeNewlines ('\r' :: '\n' :: expandNewlines t) = '\n' :: t
      rw [normalizeNewlines, ih]
    · have hexpand : expandNewlines (c :: t) = c :: expandNewlines t := by
        rw [expandNewlines, List.flatMap_cons, if_neg hc]
        rfl
      rw [hexpand, normalizeNewlines, ih]
      -- a carriage return of the text itself is followed by another one, or by no line end
      rintro u rfl hu
      cases t with
      | nil => cases hu
      | cons d t =>
        by_cases hd : d = '\n'
        · subst hd
          cases hu
        · rw [expandNewlines, List.flatMap_cons, if_neg hd] at hu
          exact hd (List.cons.inj hu).1

/-- Both are writes under one id: the later one is of a later revision. -/
def FsRequest.InOrder : FsRequest → FsRequest → Prop
  | writeFile buffer _ _ version, writeFile buffer' _ _ version' =>
    buffer = buffer' → version ≤ version'
  | _, _ => True

/-- A request under an id. -/
def FsRequest.names (id : BufferId) (r : FsRequest) : Bool := r.reads id || r.writes id

theorem FsRequest.names_write (id : BufferId) (file : Path) (contents : Text) (version : Version) :
    (writeFile id file contents version).names id = true := by simp [names, reads, writes]

theorem FsRequest.names_read (id : BufferId) (path : Path) : (readFile id path).names id = true := by
  simp [names, reads]

namespace Buffer

/-- The text is that of a file, up to its line endings. -/
def Holds (b : Buffer) (contents : Text) : Prop :=
  contents = b.text ∨ normalizeNewlines contents = b.text

theorem holds_toDiskString (b : Buffer) : b.Holds b.toDiskString := by
  unfold Holds toDiskString
  cases b.lineEnding with
  | lf => exact .inl rfl
  | crlf => exact .inr (normalize_expandNewlines b.text)

/-- What an unanswered write of a buffer carries. -/
structure Carries (b : Buffer) (contents : Text) (version : Version) : Prop where
  le : version ≤ b.version
  clean : b.isDirty = false → version = b.version
  current : version = b.version → contents = b.toDiskString

/-- What holds between a buffer, the unanswered requests and what is known of the files. -/
structure Fits (rs : List FsRequest) (disk : BufferId → Option Text) (b : Buffer) : Prop where
  saved_le : ∀ v, b.savedVersion = some v → v ≤ b.version
  writes : ∀ file contents version, .writeFile b.id file contents version ∈ rs →
    b.Carries contents version
  onDisk : b.isDirty = false → ∃ contents, disk b.id = some contents ∧ b.Holds contents

variable {rs rs' : List FsRequest} {disk disk' : BufferId → Option Text} {b b' : Buffer}

theorem isDirty_eq_false {b : Buffer} : b.isDirty = false ↔ b.savedVersion = some b.version := by
  simp [isDirty]

theorem Fits.version_eq (hf : Fits rs disk b) (hl : Later b b') (hclean : b'.isDirty = false) :
    b'.version = b.version := by
  rw [isDirty_eq_false, hl.savedVersion] at hclean
  exact Nat.le_antisymm (hf.saved_le _ hclean) hl.version

/-- Works keep what fits. -/
theorem Fits.later (hf : Fits rs disk b) (hl : Later b b') : Fits rs disk b' := by
  constructor
  · intro v hv
    rw [hl.savedVersion] at hv
    exact Nat.le_trans (hf.saved_le v hv) hl.version
  · intro file contents version hw
    rw [hl.id] at hw
    have hc := hf.writes file contents version hw
    refine ⟨Nat.le_trans hc.le hl.version, fun hclean => ?_, fun hv => ?_⟩
    · have hversion := hf.version_eq hl hclean
      rw [hversion]
      exact hc.clean (by rw [← hl.isDirty hversion, hclean])
    · have hversion : b'.version = b.version := Nat.le_antisymm (hv ▸ hc.le) hl.version
      rw [hl.toDiskString hversion]
      exact hc.current (hv.trans hversion)
  · intro hclean
    have hversion := hf.version_eq hl hclean
    obtain ⟨contents, hdisk, hholds⟩ := hf.onDisk (by rw [← hl.isDirty hversion, hclean])
    refine ⟨contents, by rw [hl.id, hdisk], ?_⟩
    rw [Holds, hl.text hversion]
    exact hholds

theorem Fits.mono (hf : Fits rs disk b)
    (hrs : ∀ r ∈ rs', r.writes b.id = true → r ∈ rs) (hd : disk' b.id = disk b.id) :
    Fits rs' disk' b := by
  refine ⟨hf.saved_le, fun file contents version hw => ?_, fun hclean => ?_⟩
  · exact hf.writes file contents version (hrs _ hw (decide_eq_true rfl))
  · rw [hd]
    exact hf.onDisk hclean

/-- A buffer whose file was just read, with no write outstanding. -/
theorem Fits.loaded {text : Text} (hv : b.version = 0) (hs : b.savedVersion = some 0)
    (ht : b.text = normalizeNewlines text) (hno : ∀ r ∈ rs, r.writes b.id = false)
    (hd : disk b.id = some text) : Fits rs disk b := by
  refine ⟨fun v hv' => ?_, fun file contents version hw => ?_, fun _ => ⟨text, hd, .inr ht.symm⟩⟩
  · rw [hs] at hv'
    rw [← Option.some.inj hv', hv]
  · have hwrites := hno _ hw
    simp [FsRequest.writes] at hwrites

/-- A buffer whose oldest write was just confirmed. -/
theorem Fits.saved {file : Path} {contents : Text} {version : Version}
    (hf : Fits (.writeFile b.id file contents version :: rs) disk b)
    (ho : ∀ r ∈ rs, FsRequest.InOrder (.writeFile b.id file contents version) r)
    (hd : disk' b.id = some contents) : Fits rs disk' (b.markSaved version) := by
  have hc := hf.writes file contents version List.mem_cons_self
  have hcurrent : (b.markSaved version).isDirty = false → version = b.version := fun hclean =>
    Option.some.inj (isDirty_eq_false.mp hclean)
  refine ⟨fun v hv => ?_, fun file' contents' version' hw => ?_, fun hclean => ?_⟩
  · rw [← Option.some.inj hv]
    exact hc.le
  · have hc' := hf.writes file' contents' version' (List.mem_cons_of_mem _ hw)
    refine ⟨hc'.le, fun hclean => ?_, hc'.current⟩
    -- it is behind the one just confirmed, which was current
    have hle : version ≤ version' := ho _ hw rfl
    exact Nat.le_antisymm hc'.le (hcurrent hclean ▸ hle)
  · refine ⟨contents, hd, ?_⟩
    rw [hc.current (hcurrent hclean)]
    exact b.holds_toDiskString

theorem Fits.confirmed {file : Path} {contents : Text} {version : Version}
    (hf : Fits (.writeFile b.id file contents version :: rs) disk b)
    (hd : disk' b.id = some contents) : Fits rs disk' b := by
  have hc := hf.writes file contents version List.mem_cons_self
  refine ⟨hf.saved_le, fun file' contents' version' hw =>
    hf.writes file' contents' version' (List.mem_cons_of_mem _ hw), fun hclean => ?_⟩
  refine ⟨contents, hd, ?_⟩
  rw [hc.current (hc.clean hclean)]
  exact b.holds_toDiskString

end Buffer

namespace App

open Buffer

/-! ## Requests under an id -/

theorem Asks.names {A : FsRequest → Prop} {n k : ℕ} {rs : List FsRequest} (h : Asks A n rs k)
    {r : FsRequest} (hr : r ∈ rs) {id : BufferId} (hid : r.names id = true) :
    n < id.val ∧ id.val ≤ k := by
  have hown : ∀ {m k : ℕ} {r : FsRequest} {rs : List FsRequest}, Asks A (m + 1) rs k →
      (r.names id = true → id = ⟨m + 1⟩) → r.names id = true → m < id.val ∧ id.val ≤ k := by
    intro m k r rs hrest hr hid
    rw [hr hid]
    exact ⟨Nat.lt_succ_self m, hrest.le⟩
  induction h with
  | nil => cases hr
  | @read n k rs path hrest ih =>
    rcases List.mem_cons.mp hr with rfl | hr
    · refine hown hrest (fun hid => ?_) hid
      simpa [FsRequest.names, FsRequest.reads, FsRequest.writes, eq_comm] using hid
    · have hin := ih hr
      exact ⟨Nat.lt_of_succ_lt hin.1, hin.2⟩
  | @write n k rs file contents version hA hrest ih =>
    rcases List.mem_cons.mp hr with rfl | hr
    · refine hown hrest (fun hid => ?_) hid
      simpa [FsRequest.names, FsRequest.reads, FsRequest.writes, eq_comm] using hid
    · have hin := ih hr
      exact ⟨Nat.lt_of_succ_lt hin.1, hin.2⟩
  | @nameless n k rs r hn hA hrest ih =>
    rcases List.mem_cons.mp hr with rfl | hr
    · cases r <;> first | exact hn.elim | cases hid
    · exact ih hr

theorem Asks.apart {A : FsRequest → Prop} {n k : ℕ} {rs : List FsRequest} (h : Asks A n rs k) :
    rs.Pairwise fun r r' => ∀ id, r.names id = true → r'.names id = false := by
  have hnew : ∀ {m k : ℕ} {r : FsRequest} {rs : List FsRequest}, Asks A (m + 1) rs k →
      (∀ id, r.names id = true → id = ⟨m + 1⟩) → ∀ r' ∈ rs, ∀ id, r.names id = true →
        r'.names id = false := by
    intro m k r rs hrest hr r' hr' id hid
    by_contra hne
    have hin := hrest.names hr' (by simpa using hne)
    rw [hr id hid] at hin
    exact Nat.lt_irrefl _ hin.1
  induction h with
  | nil => exact .nil
  | @read n k rs path hrest ih =>
    refine .cons (hnew hrest fun id hid => ?_) ih
    simpa [FsRequest.names, FsRequest.reads, FsRequest.writes, eq_comm] using hid
  | @write n k rs file contents version hA hrest ih =>
    refine .cons (hnew hrest fun id hid => ?_) ih
    simpa [FsRequest.names, FsRequest.reads, FsRequest.writes, eq_comm] using hid
  | @nameless n k rs r hn hA hrest ih =>
    refine .cons (fun r' hr' id hid => ?_) ih
    cases r <;> first | exact hn.elim | cases hid

theorem inOrder_of_apart {r r' : FsRequest}
    (h : ∀ id, r.names id = true → r'.names id = false) : r.InOrder r' := by
  unfold FsRequest.InOrder
  split
  · rename_i buffer file contents version buffer' file' contents' version'
    rintro rfl
    have hno := h buffer (FsRequest.names_write ..)
    rw [FsRequest.names_write] at hno
    cases hno
  · trivial

/-! ## The invariant -/

/-- What holds between the open buffers, the unanswered requests, the newest id and what is known of
the files. -/
structure Kept (bs : List Buffer) (rs : List FsRequest) (n : ℕ) (disk : BufferId → Option Text) :
    Prop where
  ids : (bs.map (·.id)).Nodup
  open_le : ∀ b ∈ bs, b.id.val ≤ n
  named_le : ∀ r ∈ rs, ∀ id, r.names id = true → id.val ≤ n
  ordered : rs.Pairwise FsRequest.InOrder
  fits : ∀ b ∈ bs, b.Fits rs disk

variable {bs bs' : List Buffer} {rs rs' : List FsRequest} {r : FsRequest} {n n' : ℕ}
  {disk disk' : BufferId → Option Text}

theorem eq_of_id (hids : (bs.map (·.id)).Nodup) {b b' : Buffer} (hb : b ∈ bs) (hb' : b' ∈ bs)
    (h : b.id = b'.id) : b = b' := List.inj_on_of_nodup_map hids hb hb' h

theorem map_id_set_id {i : ℕ} {old b : Buffer} (hi : bs[i]? = some old) (hid : b.id = old.id) :
    (bs.set i b).map (·.id) = bs.map (·.id) := Firsts.map_set_of_eq hi hid

theorem mem_set_id (hids : (bs.map (·.id)).Nodup) {i : ℕ} {old b : Buffer}
    (hi : bs[i]? = some old) (hid : b.id = old.id) {b' : Buffer} (hb' : b' ∈ bs.set i b) :
    b' = b ∨ b' ∈ bs ∧ b'.id ≠ b.id := by
  have hsame := map_id_set_id hi hid
  obtain ⟨hlt, -⟩ := List.getElem?_eq_some_iff.mp hi
  have hmem : b ∈ bs.set i b := List.mem_set hlt b
  by_cases heq : b' = b
  · exact .inl heq
  · rcases List.mem_or_eq_of_mem_set hb' with hb | hb
    · exact .inr ⟨hb, fun h => heq (eq_of_id (hsame ▸ hids) hb' hmem h)⟩
    · exact absurd hb heq

theorem Kept.later (hk : Kept bs rs n disk) (h : List.Forall₂ Later bs bs') :
    Kept bs' rs n disk := by
  refine ⟨by rw [map_id_later h]; exact hk.ids, fun b' hb' => ?_, hk.named_le, hk.ordered,
    fun b' hb' => ?_⟩
  · obtain ⟨b, hb, hl⟩ := mem_later h hb'
    rw [hl.id]
    exact hk.open_le b hb
  · obtain ⟨b, hb, hl⟩ := mem_later h hb'
    exact (hk.fits b hb).later hl

theorem Kept.subperm (hk : Kept bs rs n disk) (h : bs'.Subperm bs) : Kept bs' rs n disk := by
  refine ⟨?_, fun b hb => hk.open_le b (h.subset hb), hk.named_le, hk.ordered,
    fun b hb => hk.fits b (h.subset hb)⟩
  obtain ⟨l, hperm, hsub⟩ := h
  exact (hperm.map _).nodup_iff.mp ((hsub.map _).nodup hk.ids)

theorem Kept.drop (hk : Kept bs (rs' ++ rs) n disk) : Kept bs rs n disk := by
  refine ⟨hk.ids, hk.open_le, fun r hr => hk.named_le r (List.mem_append_right _ hr),
    (List.pairwise_append.mp hk.ordered).2.1, fun b hb => ?_⟩
  exact (hk.fits b hb).mono (fun r hr _ => List.mem_append_right _ hr) rfl

/-- Requests under new ids. -/
theorem Kept.asks {A : FsRequest → Prop} (hk : Kept bs rs n disk) (ha : Asks A n rs' n') :
    Kept bs (rs ++ rs') n' disk := by
  have hold : ∀ r ∈ rs, ∀ r' ∈ rs', ∀ id, r.names id = true → r'.names id = false := by
    intro r hr r' hr' id hid
    by_contra hne
    have hin := ha.names hr' (by simpa using hne)
    exact absurd (hk.named_le r hr id hid) (Nat.not_le.mpr hin.1)
  refine ⟨hk.ids, fun b hb => Nat.le_trans (hk.open_le b hb) ha.le, fun r hr id hid => ?_, ?_,
    fun b hb => ?_⟩
  · rcases List.mem_append.mp hr with hr | hr
    · exact Nat.le_trans (hk.named_le r hr id hid) ha.le
    · exact (ha.names hr hid).2
  · refine List.pairwise_append.mpr ⟨hk.ordered, ?_, fun r hr r' hr' => ?_⟩
    · exact ha.apart.imp inOrder_of_apart
    · exact inOrder_of_apart (hold r hr r' hr')
  · refine (hk.fits b hb).mono (fun r hr hw => ?_) rfl
    rcases List.mem_append.mp hr with hr | hr
    · exact hr
    · have hnames : r.names b.id = true := by rw [FsRequest.names, hw, Bool.or_true]
      exact absurd (hk.open_le b hb) (Nat.not_le.mpr (ha.names hr hnames).1)

/-- A dirty buffer is saved. -/
theorem Kept.save (hk : Kept bs rs n disk) {b : Buffer} (hb : b ∈ bs) (path : Path) :
    Kept bs (rs ++ [.writeFile b.id path b.toDiskString b.version]) n disk := by
  refine ⟨hk.ids, hk.open_le, fun r hr id hid => ?_, ?_, fun b' hb' => ?_⟩
  · rcases List.mem_append.mp hr with hr | hr
    · exact hk.named_le r hr id hid
    · rw [List.mem_singleton.mp hr] at hid
      obtain rfl : b.id = id := by
        simpa [FsRequest.names, FsRequest.reads, FsRequest.writes] using hid
      exact hk.open_le b hb
  · refine List.pairwise_append.mpr ⟨hk.ordered, List.pairwise_singleton _ _, fun r hr r' hr' => ?_⟩
    rw [List.mem_singleton.mp hr']
    cases r with
    | writeFile id file contents version =>
      rintro rfl
      exact ((hk.fits b hb).writes file contents version hr).le
    | readFile | resolvePath | watch | createFile | createDir | rename | remove | shutdown => trivial
  · have hf := hk.fits b' hb'
    refine ⟨hf.saved_le, fun file contents version hw => ?_, hf.onDisk⟩
    rcases List.mem_append.mp hw with hw | hw
    · exact hf.writes file contents version hw
    · obtain ⟨hid, -, rfl, rfl⟩ := FsRequest.writeFile.inj (List.mem_singleton.mp hw)
      obtain rfl := eq_of_id hk.ids hb' hb hid
      exact ⟨Nat.le_refl _, fun _ => rfl, fun _ => rfl⟩

theorem Kept.again (hk : Kept bs rs n disk)
    (hrs : ∀ r ∈ rs', ∃ b ∈ bs, ∃ path, r = .readFile b.id path) :
    Kept bs (rs ++ rs') n disk := by
  have hread : ∀ r ∈ rs', ∀ id, r.writes id = false := by
    intro r hr id
    obtain ⟨b, -, path, rfl⟩ := hrs r hr
    rfl
  refine ⟨hk.ids, hk.open_le, fun r hr id hid => ?_, ?_, fun b hb => ?_⟩
  · rcases List.mem_append.mp hr with hr | hr
    · exact hk.named_le r hr id hid
    · obtain ⟨b, hb, path, rfl⟩ := hrs r hr
      obtain rfl : b.id = id := by
        simpa [FsRequest.names, FsRequest.reads, FsRequest.writes] using hid
      exact hk.open_le b hb
  · have htrivial : ∀ (r r' : FsRequest), r' ∈ rs' → r.InOrder r' := by
      intro r r' hr'
      obtain ⟨b, -, path, rfl⟩ := hrs r' hr'
      cases r <;> trivial
    refine List.pairwise_append.mpr ⟨hk.ordered, ?_, fun r _ r' hr' => htrivial r r' hr'⟩
    exact List.pairwise_of_forall_mem_list fun r _ r' hr' => htrivial r r' hr'
  · refine (hk.fits b hb).mono (fun r hr hw => ?_) rfl
    rcases List.mem_append.mp hr with hr | hr
    · exact hr
    · rw [hread r hr] at hw
      cases hw

theorem Kept.place (hk : Kept bs (r :: rs) n disk) {id : BufferId} (hn : id.val ≤ n)
    (hids : (bs'.map (·.id)).Nodup) (hdisk : ∀ id', id' ≠ id → disk' id' = disk id')
    (hbs : ∀ b' ∈ bs', (b' ∈ bs ∧ b'.id ≠ id) ∨ b'.id = id ∧ b'.Fits rs disk') :
    Kept bs' rs n disk' := by
  refine ⟨hids, fun b' hb' => ?_, fun r' hr' => hk.named_le r' (List.mem_cons_of_mem _ hr'),
    hk.ordered.of_cons, fun b' hb' => ?_⟩
  · rcases hbs b' hb' with ⟨hb, -⟩ | ⟨hid, -⟩
    · exact hk.open_le b' hb
    · rw [hid]
      exact hn
  · rcases hbs b' hb' with ⟨hb, hne⟩ | ⟨-, hf⟩
    · exact (hk.fits b' hb).mono (fun r' hr' _ => List.mem_cons_of_mem _ hr') (hdisk _ hne)
    · exact hf

theorem Kept.requested {m m' : Model} (hk : Kept bs (rs ++ m.outbox) m.nextBufferId disk)
    (hl : List.Forall₂ Later bs m'.buffers) (hr : m.Requested (fun _ => True) m') :
    Kept m'.buffers (rs ++ m'.outbox) m'.nextBufferId disk := by
  have hlater := hk.later hl
  cases hr with
  | new hq =>
    obtain ⟨rs', ha, ho⟩ := hq
    rw [ho, ← List.append_assoc]
    exact hlater.asks ha
  | save b path hb hd hn ho =>
    rw [ho, hn, ← List.append_assoc]
    exact hlater.save hb path
  | again rs' hn ho hrs =>
    rw [ho, hn, ← List.append_assoc]
    refine hlater.again fun r hr => ?_
    obtain ⟨b, hb, path, rfl, -⟩ := hrs r hr
    exact ⟨b, hb, path, rfl⟩

/-! ## Steps -/

/-- What is put in place of a buffer whose file was read. -/
theorem Kept.loaded {m : Model} {buffer : BufferId} {path : Path} {text : Text}
    (hk : Kept m.buffers (.readFile buffer path :: rs) n disk)
    (hno : ∀ r ∈ rs, r.writes buffer = false)
    (hbs : (∃ i old, m.buffers[i]? = some old ∧ old.id = buffer ∧
        bs = m.buffers.set i (Model.reloaded buffer path text old)) ∨
      (∀ b ∈ m.buffers, b.id ≠ buffer) ∧
        bs.Perm (m.buffers ++ [fromText buffer (some path) text])) :
    Kept bs rs n (Function.update disk buffer (some text)) := by
  have hn : buffer.val ≤ n := hk.named_le _ List.mem_cons_self _ (FsRequest.names_read ..)
  have hfits : ∀ b : Buffer, b.id = buffer → b.version = 0 → b.savedVersion = some 0 →
      b.text = normalizeNewlines text →
        b.Fits rs (Function.update disk buffer (some text)) := by
    intro b hid hv hsaved htext
    refine .loaded hv hsaved htext ?_ ?_
    · rw [hid]
      exact hno
    · rw [hid, Function.update_self]
  rcases hbs with ⟨i, old, hold, hbuffer, rfl⟩ | ⟨hnew, hperm⟩
  · have hid : (Model.reloaded buffer path text old).id = old.id := hbuffer.symm
    refine hk.place hn ?_ (fun id' hne => Function.update_of_ne hne _ _) fun b' hb' => ?_
    · rw [map_id_set_id hold hid]
      exact hk.ids
    · rcases mem_set_id hk.ids hold hid hb' with rfl | ⟨hb, hne⟩
      · exact .inr ⟨rfl, hfits _ rfl rfl rfl rfl⟩
      · exact .inl ⟨hb, hne⟩
  · refine hk.place hn ?_ (fun id' hne => Function.update_of_ne hne _ _) fun b' hb' => ?_
    · refine ((hperm.map _).nodup_iff).mpr ?_
      rw [List.map_append, List.nodup_append]
      refine ⟨hk.ids, List.nodup_singleton _, fun id hid id' hid' => ?_⟩
      obtain ⟨b, hb, rfl⟩ := List.mem_map.mp hid
      rw [List.mem_singleton.mp hid']
      exact hnew b hb
    · rcases List.mem_append.mp (hperm.subset hb') with hb | hb
      · exact .inl ⟨hb, hnew b' hb⟩
      · rw [List.mem_singleton.mp hb]
        exact .inr ⟨rfl, hfits _ rfl rfl rfl rfl⟩

/-- What is put in place of a buffer whose write was confirmed. -/
theorem Kept.saved {m : Model} {buffer : BufferId} {file : Path} {contents : Text}
    {version : Version} (hk : Kept m.buffers (.writeFile buffer file contents version :: rs) n disk)
    (hbs : bs.Subperm m.buffers ∨ ∃ i old, m.buffers[i]? = some old ∧ old.id = buffer ∧
      bs = m.buffers.set i (old.markSaved version)) :
    Kept bs rs n (Function.update disk buffer (some contents)) := by
  have hn : buffer.val ≤ n := hk.named_le _ List.mem_cons_self _ (FsRequest.names_write ..)
  have hordered := List.pairwise_cons.mp hk.ordered
  rcases hbs with hsub | ⟨i, old, hold, hbuffer, rfl⟩
  · suffices hplaced : Kept m.buffers rs n (Function.update disk buffer (some contents)) from
      hplaced.subperm hsub
    refine hk.place hn hk.ids (fun id' hne => Function.update_of_ne hne _ _) fun b hb => ?_
    by_cases hid : b.id = buffer
    · have hf := hk.fits b hb
      rw [← hid] at hf
      refine .inr ⟨hid, hf.confirmed ?_⟩
      rw [hid, Function.update_self]
    · exact .inl ⟨hb, hid⟩
  · have hid : (old.markSaved version).id = old.id := rfl
    refine hk.place hn ?_ (fun id' hne => Function.update_of_ne hne _ _) fun b' hb' => ?_
    · rw [map_id_set_id hold hid]
      exact hk.ids
    · rcases mem_set_id hk.ids hold hid hb' with rfl | ⟨hb, hne⟩
      · have hf := hk.fits old (List.mem_of_getElem? hold)
        rw [← hbuffer] at hf
        refine .inr ⟨hbuffer, hf.saved ?_ ?_⟩
        · rw [hbuffer]
          exact hordered.1
        · rw [hbuffer, Function.update_self]
      · exact .inl ⟨hb, fun hid' => hne (hid'.trans hbuffer.symm)⟩

namespace World

variable {h : Host} {w w' : World} {d : Deed}

/-- No file is read into a buffer while a write of it is unanswered. -/
def clear (w : World) (d : Deed) : Bool :=
  match w.loads d with
  | some buffer => w.unanswered.all fun r => !r.writes buffer
  | none => true

/-- The invariant of a world. -/
def Settled (w : World) : Prop :=
  Kept w.model.buffers w.unanswered w.model.nextBufferId w.onDisk

theorem Fresh.settled (hf : w.Fresh) : w.Settled := by
  obtain ⟨hb, ho, hi⟩ := hf
  unfold Settled unanswered
  rw [hb, ho, hi]
  exact ⟨.nil, by simp, by simp, .nil, by simp⟩

theorem unanswered_of_flight (rs : List FsRequest) (hf : w.inFlight = rs ++ w'.inFlight) :
    w.unanswered = rs ++ (w'.inFlight ++ w.model.outbox) := by
  rw [unanswered, hf, List.append_assoc]

theorem Settled.tail {r : FsRequest} (hk : w.Settled) (hf : w.inFlight = r :: w'.inFlight) :
    Kept w.model.buffers (r :: (w'.inFlight ++ w.model.outbox)) w.model.nextBufferId w.onDisk := by
  rw [Settled, unanswered_of_flight [r] hf] at hk
  exact hk

/-- **Every deed settles what was settled**, if it reads no file into a buffer that is being
written. -/
theorem step_settled (hk : w.Settled) (hc : w.clear d = true) (ht : Turn w d w') :
    w'.Settled := by
  cases ht with
  | take hb hn hu hd hdisk =>
    unfold Settled
    rw [hb, hn, hu, hdisk]
    exact hk
  | event rs bs hf hsub hl hr hd hdisk =>
    rw [Settled, unanswered_of_flight rs hf] at hk
    rw [Settled, hdisk]
    exact (hk.drop.subperm hsub).requested hl hr
  | loaded buffer path text bs hanswer hf hbs hl hr hd hdisk =>
    rw [Settled, hdisk]
    refine (Kept.loaded (hk.tail hf) (fun r hmem => ?_) hbs).requested hl hr
    have hmem : r ∈ w.unanswered := by
      rw [unanswered_of_flight [_] hf]
      exact List.mem_cons_of_mem _ hmem
    rw [clear, hd] at hc
    have hno := List.all_eq_true.mp hc r hmem
    simpa using hno
  | saved buffer file contents version bs hanswer hf hbs hl hr hd hdisk =>
    rw [Settled, hdisk]
    exact (Kept.saved (hk.tail hf) hbs).requested hl hr

/-- **Clean means on disk**: in every run of a model with its worker in which no file is read into a
buffer while a write of it is unanswered, the text of a clean buffer is the one last confirmed or
absorbed, up to line endings. -/
theorem clean_on_disk (h : Host) {w : World} 
    (hr : Runs.Reach (World.step h) (fun w d => w.clear d = true) Fresh w) :
    ∀ b ∈ w.model.buffers, b.isDirty = false →
      ∃ contents, w.onDisk b.id = some contents ∧ b.Holds contents := by
  have hsettled : w.Settled :=
    hr.inv (fun _ => Fresh.settled) fun _ _ _ hi hc hs =>
      step_settled hi hc (turn_of_step hs)
  exact fun b hb => (hsettled.fits b hb).onDisk

/-! ## A note that is saved and read again -/

def notePath : Path := [.rootDir, .normal "w", .normal "n.md"]

/-- A workspace with nothing open. -/
def desktop : World := { model := { root := some [.rootDir, .normal "w"] } }

/-- The note is opened, and the worker has read it. -/
def opening : List Deed :=
  [.event (.openFile notePath), .take, .answer (some (.fileLoaded ⟨1⟩ notePath (some ['a'])))]

/-- It is edited, saved and the save confirmed. -/
def saving : List Deed :=
  opening ++ [.event (.typeChar 'x'), .event (.dispatch .save), .take,
    .answer (some (.fileSaved ⟨1⟩ 1))]

/-- It changes on disk and is edited and saved before it is read again; then it is edited once more
before the save is confirmed. -/
def crossing : List Deed :=
  opening ++ [.event (.fs (.changed [notePath])), .event (.typeChar 'x'), .event (.dispatch .save),
    .take, .answer (some (.fileLoaded ⟨1⟩ notePath (some ['a']))), .event (.typeChar 'y'),
    .answer (some (.fileSaved ⟨1⟩ 1))]

def savedNote : World := (Runs.checkedRun (step Host.plain) clear desktop saving).get (by decide)

def crossedNote : World := (Runs.run (step Host.plain) desktop crossing).get (by decide)

/-- Its buffer. -/
def savedOpen : Buffer := savedNote.model.buffers[0]?.get (by decide)

theorem clean_on_disk_note :
    ∃ contents, savedNote.onDisk savedOpen.id = some contents ∧ savedOpen.Holds contents :=
  clean_on_disk Host.plain (.of_checkedRun (fun _ _ h => h) saving (.start ⟨rfl, rfl, rfl⟩)
    (Option.some_get _).symm) savedOpen (List.mem_of_getElem? (Option.some_get _).symm) (by decide)

/-- **A clean buffer that is not on disk.** The confirmation is that of the incarnation before. -/
theorem clean_not_on_disk :
    ¬ ∀ (h : Host) (w : World), Runs.Reach (step h) (fun _ _ => True) Fresh w →
      ∀ b ∈ w.model.buffers, b.isDirty = false →
        ∃ contents, w.onDisk b.id = some contents ∧ b.Holds contents := by
  intro hall
  have hreach : Runs.Reach (step Host.plain) (fun _ _ => True) Fresh crossedNote :=
    .of_run (fun _ _ => trivial) crossing (.start ⟨rfl, rfl, rfl⟩) (Option.some_get _).symm
  have hdisk : crossedNote.onDisk ⟨1⟩ = some ['x', 'a'] := by decide
  have hopen : crossedNote.model.buffers.map (fun b => (b.id, b.text, b.isDirty)) =
      [(⟨1⟩, ['a', 'y'], false)] := by decide
  obtain ⟨b, hb, hx⟩ : ∃ b ∈ crossedNote.model.buffers, (b.id, b.text, b.isDirty) =
      ((⟨1⟩, ['a', 'y'], false) : BufferId × Text × Bool) := by
    rw [← List.mem_map, hopen]
    exact List.mem_cons_self
  simp only [Prod.mk.injEq] at hx
  obtain ⟨contents, hc, hholds⟩ := hall _ _ hreach b hb hx.2.2
  rw [hx.1, hdisk] at hc
  rw [← Option.some.inj hc, Buffer.Holds, hx.2.1] at hholds
  revert hholds
  decide

end World

end App

end Termesh
