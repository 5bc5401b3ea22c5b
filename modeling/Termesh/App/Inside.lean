import Termesh.App.Sources

/-!
# Cursors inside their documents

Every editing function carries selections along with the text, and cursor commands stay inside it. A
selection can leave the text where an offset of another text is taken over: from the matches of a
find, or from the buffer a reload replaces.

* `Contained`: every selection lies in its text;
* `Overruns`: the steps that take over an offset outside the text;
* **`step_contained`**, **`cursor_inside`**: every other step keeps cursors inside;
* **`not_contained_reload`**: a reload of a shorter file does not.
-/

namespace Termesh

namespace Range

theorem start_le_stop (r : Range) : r.start ≤ r.stop := min_le_max

theorem stop_le {r : Range} {len : ℕ} (h : r.anchor ≤ len ∧ r.head ≤ len) : r.stop ≤ len :=
  Nat.max_le.mpr h

end Range

namespace Buffer

theorem edit_isSome (b : Buffer) {start stop : ℕ} (text : Text) (source : EditSource)
    (h : start ≤ stop) (hs : stop ≤ b.text.length) : (b.edit start stop text source).isSome := by
  obtain ⟨-, b', r, -, -, he, -⟩ := b.edit_spec text source h hs
  rw [he]
  rfl

/-- **Typing at a cursor inside does not panic.** -/
theorem insert_isSome {b : Buffer} (hb : b.document.Inside) (text : Text) (source : EditSource) :
    (b.insert text source).isSome :=
  edit_isSome { b with goalColumn := none } text source (Range.start_le_stop _)
    (Range.stop_le hb.primary)

theorem deleteBackward_isSome {b : Buffer} (hb : b.document.Inside) : b.deleteBackward.isSome := by
  have hhead : b.selection.primary.head ≤ b.text.length := hb.primary.2
  unfold deleteBackward
  dsimp only
  split_ifs
  · exact edit_isSome { b with goalColumn := none } _ _ (Range.start_le_stop _)
      (Range.stop_le hb.primary)
  · rfl
  · exact edit_isSome { b with goalColumn := none } _ _ (Nat.sub_le _ _) hhead

theorem deleteForward_isSome {b : Buffer} (hb : b.document.Inside) : b.deleteForward.isSome := by
  unfold deleteForward
  dsimp only
  split_ifs with h1 h2
  · exact edit_isSome { b with goalColumn := none } _ _ (Range.start_le_stop _)
      (Range.stop_le hb.primary)
  · rfl
  · exact edit_isSome { b with goalColumn := none } _ _ (Nat.le_succ _) (Nat.lt_of_not_le h2)

end Buffer

namespace App.Model

open Document

variable {h : Host} {m m' : Model} {ev : Event}

/-- Every selection lies in its text. -/
def Contained (m : Model) : Prop := ∀ b ∈ m.buffers, b.selection.Within b.text.length

/-- The steps that take over an offset outside the text: a match that is selected does not lie in the
text on screen, or a selection not in the file that replaces its text. -/
def Overruns (h : Host) (m : Model) (ev : Event) : Prop :=
  (∃ b s, m.Focuses h ev b s ∧ ¬ s.Within b.text.length) ∨
    ∃ buffer path text old, ev = .fs (.fileLoaded buffer path (some text)) ∧
      m.ForBuffer buffer ∧ old ∈ m.buffers ∧ old.id = buffer ∧
      ¬ old.selection.Within (normalizeNewlines text).length

/-- **Every step that takes over no offset outside a text keeps cursors inside.** -/
theorem step_contained (hi : m.Contained) (hn : ¬ m.Overruns h ev)
    (hs : m.step h ev = some m') : m'.Contained := by
  have hfocus : ∀ b s, m.Focuses h ev b s → Stays b.document s := by
    intro b s hf _
    by_contra hout
    exact hn (.inl ⟨b, s, hf, hout⟩)
  have hwork : ∀ b b' : Buffer, Buffer.Work True Stays b b' → b.document.Inside →
      b'.document.Inside := fun b b' hw hb => (Buffer.Works.single hw).moves.inside hb
  have hfiles : FilesKeep (fun b => b.document.Inside) m ev := by
    refine ⟨fun _ _ _ _ => Selection.within_point (Nat.zero_le _), ?_, fun _ _ _ _ _ _ hb => hb⟩
    intro buffer path text old he hr hold hid _
    by_contra hout
    exact hn (.inr ⟨buffer, path, text, old, he, hr, hold, hid, hout⟩)
  exact step_everywhere (fun _ _ hs => hs) hfocus hwork hfiles hs hi

/-- **After every run that takes over no offset outside a text**, every selection lies in its text,
and editing there does not panic. -/
theorem cursor_inside (h : Host) {m : Model}
    (hr : Runs.Reach (step h) (fun m ev => ¬ m.Overruns h ev) (fun m => m.buffers = []) m) :
    ∀ b ∈ m.buffers, (∀ r ∈ b.selection.ranges, r.anchor ≤ b.text.length ∧ r.head ≤ b.text.length) ∧
      (∀ text source, (b.insert text source).isSome) ∧ b.deleteBackward.isSome ∧
      b.deleteForward.isSome := by
  have hi : m.Contained := by
    refine hr.inv (fun s hs b hb => ?_) fun s ev s' hi hn hs => step_contained hi hn hs
    rw [hs] at hb
    cases hb
  intro b hb
  have hin : b.document.Inside := hi b hb
  exact ⟨hin, Buffer.insert_isSome hin, Buffer.deleteBackward_isSome hin,
    Buffer.deleteForward_isSome hin⟩

/-- A note, asked for and read. -/
def shortNote : Path := [.rootDir, .normal "w", .normal "n.md"]

def noteWanted : Model := ({} : Model).openFile shortNote

def noteRead : Event := .fs (.fileLoaded ⟨1⟩ shortNote (some ['a', 'b', '\n']))

def noteShort : Model := (noteWanted.step Host.plain noteRead).get (by decide)

/-- Its buffer. -/
def shortOpen : Buffer := noteShort.buffers[0]?.get (by decide)

theorem cursor_inside_note :
    (∀ r ∈ shortOpen.selection.ranges,
      r.anchor ≤ shortOpen.text.length ∧ r.head ≤ shortOpen.text.length) ∧
      (∀ text source, (shortOpen.insert text source).isSome) ∧ shortOpen.deleteBackward.isSome ∧
      shortOpen.deleteForward.isSome := by
  have hopen : ({} : Model).step Host.plain (.openFile shortNote) = some noteWanted := rfl
  have hread : noteWanted.step Host.plain noteRead = some noteShort :=
    Option.eq_some_of_isSome (by decide)
  have hempty : ∀ (m : Model) ev, m.buffers = [] → ¬ m.Overruns Host.plain ev := by
    rintro m ev hb (⟨b, s, ⟨i, k, t, hon, -⟩, -⟩ | ⟨buffer, path, text, old, -, -, hold, -⟩)
    · have hat := (onScreen_some hon).2
      rw [hb] at hat
      cases hat
    · rw [hb] at hold
      cases hold
  exact cursor_inside Host.plain
    (.next (.next (.start rfl) (hempty {} _ rfl) hopen) (hempty noteWanted _ rfl) hread) shortOpen
    (List.mem_of_getElem? (Option.some_get _).symm)

/-- The cursor goes to the end of the line, and the file on disk is emptied. -/
def noteEmptied : List Event :=
  [.openWorkspace [.rootDir, .normal "w"] [], .openFile shortNote, noteRead,
    .dispatch (.cursor .lineEnd), .fs (.changed [shortNote]),
    .fs (.fileLoaded ⟨1⟩ shortNote (some []))]

/-- **A cursor outside.** The reload keeps a selection of the text it replaces, and the next key
panics. -/
theorem not_contained_reload :
    ∃ m, Runs.run (step Host.plain) {} noteEmptied = some m ∧
      m.buffers.map (fun b => (b.text, b.selection)) = [([], .point 2)] ∧
      m.step Host.plain (.typeChar 'x') = none := by
  obtain ⟨m, hm⟩ : ∃ m, Runs.run (step Host.plain) {} noteEmptied = some m :=
    Option.isSome_iff_exists.mp (by decide)
  have hview : (Runs.run (step Host.plain) {} noteEmptied).map (fun m =>
      (m.buffers.map (fun b => (b.text, b.selection)), (m.step Host.plain (.typeChar 'x')).isSome)) =
        some ([([], .point 2)], false) := by decide
  rw [hm] at hview
  obtain ⟨hbuffers, hpanic⟩ := Prod.mk.inj (Option.some.inj hview)
  exact ⟨m, hm, hbuffers, Option.isSome_eq_false_iff.mp hpanic |> Option.isNone_iff_eq_none.mp⟩

end App.Model

end Termesh
