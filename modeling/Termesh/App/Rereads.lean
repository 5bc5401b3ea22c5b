import Termesh.App.OnDisk

/-!
# Files read again

A file that changed on disk is read again if its buffer is clean, and the answer replaces the buffer
whatever it has become in the meantime. So the buffer must not be edited before the answer is there.

* `Awaiting`: a buffer whose file is to be read again is clean, and is not saved behind that read;
* `World.revision`, `World.unedited`: no buffer whose file is to be read again is edited;
* **`reread_clean`**: then no answer finds its buffer dirty.
-/

namespace Termesh

namespace App

open Buffer

/-- What holds between the open buffers and the reads that are unanswered. -/
structure Awaiting (bs : List Buffer) (rs : List FsRequest) : Prop where
  fresh : rs.Pairwise fun r r' => ∀ id, r.reads id = true → r'.writes id = false
  clean : ∀ b ∈ bs, ∀ r ∈ rs, r.reads b.id = true → b.isDirty = false

variable {bs : List Buffer} {rs : List FsRequest} {n : ℕ} {disk : BufferId → Option Text}
  {m m' : Model}

theorem names_of_reads {r : FsRequest} {id : BufferId} (h : r.reads id = true) :
    r.names id = true := by rw [FsRequest.names, h, Bool.true_or]

theorem names_of_writes {r : FsRequest} {id : BufferId} (h : r.writes id = true) :
    r.names id = true := by rw [FsRequest.names, h, Bool.or_true]

/-- A step that works on the buffers `bs` and asks what a step may ask. The buffers whose files are
to be read again start clean and are not edited. -/
theorem Awaiting.step (revision : BufferId → Option Version)
    (hk : Kept bs (rs ++ m.outbox) m.nextBufferId disk)
    (hk' : Kept m'.buffers (rs ++ m'.outbox) m'.nextBufferId disk)
    (hfresh : (rs ++ m.outbox).Pairwise fun r r' => ∀ id, r.reads id = true → r'.writes id = false)
    (hstart : ∀ b ∈ bs, ∀ r ∈ rs ++ m.outbox, r.reads b.id = true →
      b.isDirty = false ∧ revision b.id = some b.version)
    (hl : List.Forall₂ Later bs m'.buffers) (hr : m.Requested (fun _ => True) m')
    (hguard : ∀ b ∈ m'.buffers, ∀ r ∈ rs ++ m'.outbox, r.reads b.id = true →
      revision b.id = some b.version) :
    Awaiting m'.buffers (rs ++ m'.outbox) := by
  obtain ⟨new, ho⟩ : ∃ new, m'.outbox = m.outbox ++ new := by
    cases hr with
    | new hq => exact ⟨_, hq.choose_spec.2⟩
    | save b path _ _ _ ho => exact ⟨_, ho⟩
    | again rs _ ho => exact ⟨_, ho⟩
  have hsplit : rs ++ m'.outbox = (rs ++ m.outbox) ++ new := by rw [ho, List.append_assoc]
  -- what was to be read before the step
  have hclean : ∀ b' ∈ m'.buffers, ∀ r ∈ rs ++ m.outbox, r.reads b'.id = true →
      b'.isDirty = false := by
    intro b' hb' r hr hreads
    obtain ⟨b, hb, hlater⟩ := mem_later hl hb'
    have hguard' : revision b'.id = some b'.version := by
      refine hguard b' hb' r ?_ hreads
      rw [hsplit]
      exact List.mem_append_left _ hr
    rw [hlater.id] at hreads hguard'
    obtain ⟨hdirty, hrevision⟩ := hstart b hb r hr hreads
    have hversion : b'.version = b.version :=
      Option.some.inj (hguard'.symm.trans hrevision)
    rw [hlater.isDirty hversion, hdirty]
  have hopen : ∀ b' ∈ m'.buffers, b'.id.val ≤ m.nextBufferId := by
    intro b' hb'
    obtain ⟨b, hb, hlater⟩ := mem_later hl hb'
    rw [hlater.id]
    exact hk.open_le b hb
  have hold : ∀ r ∈ rs ++ m.outbox, ∀ id, r.reads id = true → id.val ≤ m.nextBufferId :=
    fun r hr id hid => hk.named_le r hr id (names_of_reads hid)
  have hrest : (new.Pairwise fun r r' => ∀ id, r.reads id = true → r'.writes id = false) ∧
      (∀ r ∈ rs ++ m.outbox, ∀ r' ∈ new, ∀ id, r.reads id = true → r'.writes id = false) ∧
      ∀ b' ∈ m'.buffers, ∀ r ∈ new, r.reads b'.id = true → b'.isDirty = false := by
    cases hr with
    | new hq =>
      obtain ⟨asked, ha, ho'⟩ := hq
      obtain rfl : new = asked := List.append_cancel_left (ho.symm.trans ho')
      refine ⟨ha.apart.imp fun hno id hreads => ?_, fun r hr r' hr' id hreads => ?_,
        fun b' hb' r hr hreads => ?_⟩
      · have hnot := hno id (names_of_reads hreads)
        rw [FsRequest.names, Bool.or_eq_false_iff] at hnot
        exact hnot.2
      · by_contra hwrites
        have hin := ha.names hr' (names_of_writes (by simpa using hwrites))
        exact absurd (hold r hr id hreads) (Nat.not_le.mpr hin.1)
      · exact absurd (hopen b' hb') (Nat.not_le.mpr (ha.names hr (names_of_reads hreads)).1)
    | save b path hb hd _ ho' =>
      obtain rfl : new = [.writeFile b.id path b.toDiskString b.version] :=
        List.append_cancel_left (ho.symm.trans ho')
      refine ⟨List.pairwise_singleton _ _, fun r hr r' hr' id hreads => ?_,
        fun b' _ r hr hreads => ?_⟩
      · rw [List.mem_singleton.mp hr']
        by_contra hwrites
        obtain rfl : b.id = id := by simpa [FsRequest.writes] using hwrites
        -- the buffer would be clean
        rw [hclean b hb r hr hreads] at hd
        cases hd
      · rw [List.mem_singleton.mp hr] at hreads
        cases hreads
    | again reads _ ho' hreads' =>
      obtain rfl : new = reads := List.append_cancel_left (ho.symm.trans ho')
      have hno : ∀ r ∈ new, ∀ id, r.writes id = false := by
        intro r hr id
        obtain ⟨b, -, path, rfl, -⟩ := hreads' r hr
        rfl
      refine ⟨List.pairwise_of_forall_mem_list fun r _ r' hr' id _ => hno r' hr' id,
        fun r _ r' hr' id _ => hno r' hr' id, fun b' hb' r hr hreads => ?_⟩
      obtain ⟨b, hb, path, rfl, hd⟩ := hreads' r hr
      have hid : b.id = b'.id := by simpa [FsRequest.reads] using hreads
      obtain rfl := eq_of_id hk'.ids hb hb' hid
      exact hd
  rw [hsplit]
  refine ⟨List.pairwise_append.mpr ⟨hfresh, hrest.1, hrest.2.1⟩, fun b' hb' r hr hreads => ?_⟩
  rcases List.mem_append.mp hr with hr | hr
  · exact hclean b' hb' r hr hreads
  · exact hrest.2.2 b' hb' r hr hreads

namespace World

variable {h : Host} {w w' : World} {d : Deed}

/-- The revision a buffer has before a deed edits it: that of the file just read into it, or its
own. -/
def revision (w : World) (d : Deed) (id : BufferId) : Option Version :=
  if w.loads d = some id then some 0 else (w.model.buffers.find? (·.id = id)).map (·.version)

/-- The deed edits no buffer whose file is to be read again. -/
def unedited (h : Host) (w : World) (d : Deed) : Bool :=
  match w.step h d with
  | none => true
  | some w' => w'.model.buffers.all fun b =>
    !(w'.unanswered.any fun r => r.reads b.id) || w.revision d b.id == some b.version

theorem unedited_spec (hu : unedited h w d = true) (hs : w.step h d = some w') :
    ∀ b ∈ w'.model.buffers, ∀ r ∈ w'.unanswered, r.reads b.id = true →
      w.revision d b.id = some b.version := by
  intro b hb r hr hreads
  rw [unedited, hs] at hu
  have hb := List.all_eq_true.mp hu b hb
  have hany : (w'.unanswered.any fun r => r.reads b.id) = true := List.any_eq_true.mpr ⟨r, hr, hreads⟩
  rw [hany] at hb
  simpa using hb

theorem find?_id {bs : List Buffer} (hids : (bs.map (·.id)).Nodup) {b : Buffer} (hb : b ∈ bs) :
    bs.find? (·.id = b.id) = some b := by
  cases hf : bs.find? (·.id = b.id) with
  | none => exact absurd (decide_eq_true rfl) (List.find?_eq_none.mp hf b hb)
  | some b' =>
    have hid : b'.id = b.id := by simpa using List.find?_some hf
    rw [eq_of_id hids (List.mem_of_find?_eq_some hf) hb hid]

theorem revision_of_mem (hids : (w.model.buffers.map (·.id)).Nodup) {b : Buffer}
    (hb : b ∈ w.model.buffers) (hne : w.loads d ≠ some b.id) :
    w.revision d b.id = some b.version := by
  rw [revision, if_neg hne, find?_id hids hb]
  rfl

/-- The invariant of a world whose buffers wait for files to be read again. -/
def Awaited (w : World) : Prop := Awaiting w.model.buffers w.unanswered

theorem Fresh.awaited (hf : w.Fresh) : w.Awaited := by
  obtain ⟨hb, ho, hi⟩ := hf
  unfold Awaited unanswered
  rw [hb, ho, hi]
  exact ⟨.nil, by simp⟩

theorem Awaited.clear (ha : w.Awaited) (ht : Turn w d w') : w.clear d = true := by
  unfold World.clear
  cases ht with
  | take _ _ _ hd => rw [hd]
  | event _ _ _ _ _ _ hd => rw [hd]
  | saved _ _ _ _ _ _ _ _ _ _ hd => rw [hd]
  | loaded buffer path text bs _ hf _ _ _ hd =>
    rw [hd]
    refine List.all_eq_true.mpr fun r hr => ?_
    have hfresh := ha.fresh
    rw [unanswered_of_flight [_] hf] at hr hfresh
    rcases List.mem_cons.mp hr with rfl | hr
    · rfl
    · have hno := (List.pairwise_cons.mp hfresh).1 r hr buffer (decide_eq_true rfl)
      rw [hno]
      rfl

/-- **Every deed keeps the buffers clean that wait for a file**, if it edits none of them. -/
theorem step_awaited (hk : w.Settled) (ha : w.Awaited) (hu : unedited h w d = true)
    (hs : w.step h d = some w') : w'.Awaited := by
  have ht := turn_of_step hs
  have hk' := step_settled hk (ha.clear ht) ht
  have hguard := unedited_spec hu hs
  have hids := hk.ids
  cases ht with
  | take hb _ hunanswered _ _ =>
    unfold Awaited
    rw [hb, hunanswered]
    exact ha
  | event rs bs hf hsub hl hr hd hdisk =>
    have hunanswered := unanswered_of_flight rs hf
    have hkept : Kept bs (w'.inFlight ++ w.model.outbox) w.model.nextBufferId w'.onDisk := by
      rw [Settled, hunanswered] at hk
      rw [hdisk]
      exact hk.drop.subperm hsub
    refine Awaiting.step (w.revision d) hkept hk' ?_ (fun b hb r hr' hreads => ?_) hl hr
      hguard
    · have hfresh := ha.fresh
      rw [hunanswered] at hfresh
      exact (List.pairwise_append.mp hfresh).2.1
    · have hmem : r ∈ w.unanswered := by
        rw [hunanswered]
        exact List.mem_append_right _ hr'
      refine ⟨ha.clean b (hsub.subset hb) r hmem hreads, ?_⟩
      exact revision_of_mem hids (hsub.subset hb) (by rw [hd]; simp)
  | loaded buffer path text bs hanswer hf hbs hl hr hd hdisk =>
    have hunanswered := unanswered_of_flight [_] hf
    have hclear := ha.clear (.loaded buffer path text bs hanswer hf hbs hl hr hd hdisk)
    have hno : ∀ r ∈ w'.inFlight ++ w.model.outbox, r.writes buffer = false := by
      intro r hmem
      have hmem : r ∈ w.unanswered := by
        rw [hunanswered]
        exact List.mem_cons_of_mem _ hmem
      rw [World.clear, hd] at hclear
      have hno := List.all_eq_true.mp hclear r hmem
      simpa using hno
    have hkept : Kept bs (w'.inFlight ++ w.model.outbox) w.model.nextBufferId w'.onDisk := by
      rw [hdisk]
      exact Kept.loaded (hk.tail hf) hno hbs
    refine Awaiting.step (w.revision d) hkept hk' ?_ (fun b hb r hr' hreads => ?_) hl hr
      hguard
    · have hfresh := ha.fresh
      rw [hunanswered] at hfresh
      exact (List.pairwise_append.mp hfresh).2.1
    · have hold : b ∈ w.model.buffers → b.id ≠ buffer →
          b.isDirty = false ∧ w.revision d b.id = some b.version := by
        intro hb hne
        refine ⟨ha.clean b hb r ?_ hreads, revision_of_mem hids hb ?_⟩
        · rw [hunanswered]
          exact List.mem_cons_of_mem _ hr'
        · rw [hd]
          exact fun he => hne (Option.some.inj he).symm
      have hnew : b.id = buffer → b.isDirty = false → b.version = 0 →
          b.isDirty = false ∧ w.revision d b.id = some b.version := by
        intro hid hclean hversion
        refine ⟨hclean, ?_⟩
        rw [revision, if_pos (by rw [hd, hid]), hversion]
      rcases hbs with ⟨i, old, hold', hbuffer, rfl⟩ | ⟨hfresh, hperm⟩
      · have hid : (Model.reloaded buffer path text old).id = old.id := hbuffer.symm
        rcases mem_set_id hids hold' hid hb with rfl | ⟨hb, hne⟩
        · exact hnew rfl rfl rfl
        · exact hold hb hne
      · rcases List.mem_append.mp (hperm.subset hb) with hb | hb
        · exact hold hb (hfresh b hb)
        · obtain rfl := List.mem_singleton.mp hb
          exact hnew rfl rfl rfl
  | saved buffer file contents version bs hanswer hf hbs hl hr hd hdisk =>
    have hunanswered := unanswered_of_flight [_] hf
    have hkept : Kept bs (w'.inFlight ++ w.model.outbox) w.model.nextBufferId w'.onDisk := by
      rw [hdisk]
      exact Kept.saved (hk.tail hf) hbs
    refine Awaiting.step (w.revision d) hkept hk' ?_ (fun b hb r hr' hreads => ?_) hl hr
      hguard
    · have hfresh := ha.fresh
      rw [hunanswered] at hfresh
      exact (List.pairwise_append.mp hfresh).2.1
    · have hmem : r ∈ w.unanswered := by
        rw [hunanswered]
        exact List.mem_cons_of_mem _ hr'
      have hold : ∀ b ∈ w.model.buffers, r.reads b.id = true →
          b.isDirty = false ∧ w.revision d b.id = some b.version := fun b hb hreads =>
        ⟨ha.clean b hb r hmem hreads, revision_of_mem hids hb (by rw [hd]; simp)⟩
      rcases hbs with hsub | ⟨i, old, hold', hbuffer, rfl⟩
      · exact hold b (hsub.subset hb) hreads
      · rcases mem_set_id hids hold' (b := old.markSaved version) rfl hb with rfl | ⟨hb, -⟩
        · have hwas := hold old (List.mem_of_getElem? hold') hreads
          refine ⟨?_, hwas.2⟩
          -- the confirmed revision is the one the clean buffer has
          have hcarries := (hk.fits old (List.mem_of_getElem? hold')).writes file contents version
            (by rw [hunanswered, hbuffer]; exact List.mem_cons_self)
          have hcurrent : version = old.version := hcarries.clean hwas.1
          rw [hcurrent]
          exact isDirty_eq_false.mpr rfl
        · exact hold b hb hreads

/-- **Reading a file again destroys no unsaved work**: in every run of a model with its worker whose
steps edit no buffer between the change on disk and the answer, the answer finds the buffer clean. -/
theorem reread_clean (h : Host) {w w' : World}
    (hr : Runs.Reach (World.step h) (fun w d => unedited h w d = true) Fresh w)
    {buffer : BufferId} {path : Path} {contents : Option Text}
    (hs : w.step h (.answer (some (.fileLoaded buffer path contents))) = some w') :
    ∀ b ∈ w.model.buffers, b.id = buffer → b.isDirty = false := by
  have hinv : w.Settled ∧ w.Awaited := by
    refine hr.inv (I := fun w => w.Settled ∧ w.Awaited) (fun w hf => ⟨hf.settled, hf.awaited⟩) ?_
    intro w d w' hi hu hs
    have ht := turn_of_step hs
    exact ⟨step_settled hi.1 (hi.2.clear ht) ht, step_awaited hi.1 hi.2 hu hs⟩
  intro b hb hid
  obtain ⟨r, hmem, hreads⟩ : ∃ r ∈ w.unanswered, r.reads buffer = true := by
    unfold step at hs
    dsimp only at hs
    split at hs
    · cases hs
    · rename_i r rest hflight
      split_ifs at hs with hanswered
      refine ⟨r, by rw [unanswered, hflight]; exact List.mem_cons_self, ?_⟩
      cases r with
      | readFile id file =>
        have hboth : buffer = id ∧ path = file := by
          simpa [FsRequest.answeredBy] using hanswered
        exact decide_eq_true hboth.1.symm
      | writeFile | resolvePath | watch | createFile | createDir | rename | remove | shutdown =>
        cases hanswered
  exact hinv.2.clean b hb r hmem (by rw [hid]; exact hreads)

/-! ## A note that changes on disk -/

/-- The worker is asked for the note again. -/
def asking : List Deed := opening ++ [.event (.fs (.changed [notePath])), .take]

/-- The note is edited before the worker is asked. -/
def overtaking : List Deed :=
  opening ++ [.event (.fs (.changed [notePath])), .event (.typeChar 'x'), .take]

/-- The answer. -/
def reread : Deed := .answer (some (.fileLoaded ⟨1⟩ notePath (some ['b'])))

def askedNote : World :=
  (Runs.checkedRun (step Host.plain) (unedited Host.plain) desktop asking).get (by decide)

def overtakenNote : World := (Runs.run (step Host.plain) desktop overtaking).get (by decide)

/-- Its buffer. -/
def askedOpen : Buffer := askedNote.model.buffers[0]?.get (by decide)

theorem reread_clean_note : askedOpen.isDirty = false := by
  have hreach : Runs.Reach (step Host.plain) (fun w d => unedited Host.plain w d = true) Fresh
      askedNote :=
    .of_checkedRun (fun _ _ h => h) asking (.start ⟨rfl, rfl, rfl⟩) (Option.some_get _).symm
  have hanswer : askedNote.step Host.plain
      (.answer (some (.fileLoaded ⟨1⟩ notePath (some ['b'])))) =
        some ((askedNote.step Host.plain reread).get (by decide)) := (Option.some_get _).symm
  exact reread_clean Host.plain hreach hanswer askedOpen
    (List.mem_of_getElem? (Option.some_get _).symm) (by decide)

/-- **An edit that is lost.** The note was dirty when the answer came. -/
theorem edit_lost :
    Runs.Reach (step Host.plain) (fun _ _ => True) Fresh overtakenNote ∧
      overtakenNote.model.buffers.map (fun b => (b.id, b.text, b.isDirty)) =
        [(⟨1⟩, ['x', 'a'], true)] ∧
      (overtakenNote.step Host.plain reread).map
        (fun w => w.model.buffers.map fun b => (b.id, b.text, b.isDirty)) =
          some [(⟨1⟩, ['b'], false)] :=
  ⟨.of_run (fun _ _ => trivial) overtaking (.start ⟨rfl, rfl, rfl⟩) (Option.some_get _).symm,
    by decide, by decide⟩

end World

end App

end Termesh
