import Mathlib.Data.List.ReduceOption
import Termesh.App.QuickOpen
import Termesh.Search.Literal

/-!
# Search overlays over a run

The search thread reports in batches, the user goes on typing, and other overlays come and go.

* `OpenSearch`: an overlay, its request and its preview;
* `Searching`, `SearchStep`, `step`: the overlays, the requests queued, and what happens to them;
* `kept`: everything that was found for a query, up to the limit;
* `Shows`: an overlay shows what was kept, as if it had come at once;
* `SearchTrace`, `Recorded`: what a run brought for each request, and that the overlays have it;
* **`search_shows`**: so it is in every run, for the query of the request, with the preview of the
  match that is selected.
-/

namespace Termesh

namespace App

open Search Sorting

/-- How far the search of an overlay is. -/
inductive SearchStatus where
  | waiting
  | searching
  | finished
  | cancelled
  | failed (message : String)
deriving DecidableEq

/-- Open buffers: the path of each as it is spelled, and its text. -/
abbrev OpenTexts := List (Option String × Text)

/-- An overlay with the fields that `SearchOverlay` leaves out. The last two are recorded only. -/
structure OpenSearch extends SearchOverlay where
  request : SearchRequestId
  root : Path
  status : SearchStatus
  truncated : Bool
  excludedPaths : List Path
  previewRequest : Option ℕ
  previewPath : Option String
  previewLine : ℕ
  previewStartLine : ℕ
  previewText : Option Text
  /-- The buffers that were searched for the query. -/
  searched : OpenTexts
  /-- What came for the request. -/
  arrived : List OverlayMatch

/-- The most files that are listed. -/
def fileCandidateLimit : ℕ := 20000

/-- The most matches that are listed. -/
def textMatchLimit : ℕ := 1000

/-- The most results of a mode. -/
def resultLimit : SearchMode → ℕ
  | .files => fileCandidateLimit
  | .text => textMatchLimit

namespace OpenSearch

variable (T : CaseTable)

/-- A new overlay for files. -/
def files (request : SearchRequestId) (root : Path) : OpenSearch where
  mode := .files
  query := []
  found := []
  visible := []
  selected := 0
  request := request
  root := root
  status := .waiting
  truncated := false
  excludedPaths := []
  previewRequest := none
  previewPath := none
  previewLine := 1
  previewStartLine := 1
  previewText := none
  searched := []
  arrived := []

/-- A new overlay for text. -/
def text (request : SearchRequestId) (root : Path) : OpenSearch :=
  { files request root with mode := .text }

/-- The visible results are made anew. -/
def refilter (o : OpenSearch) : OpenSearch :=
  { o with toSearchOverlay := o.toSearchOverlay.refilter T }

/-- A character is typed into the query. -/
def pushChar (o : OpenSearch) (value : Char) : OpenSearch :=
  { o with query := o.query ++ [value] }.refilter T

/-- The last character of the query goes. -/
def popChar (o : OpenSearch) : OpenSearch := { o with query := o.query.dropLast }.refilter T

/-- One result down, from the last to the first. -/
def moveDown (o : OpenSearch) : OpenSearch :=
  if o.visible = [] then o else { o with selected := (o.selected + 1) % o.visible.length }

/-- One result up, from the first to the last. -/
def moveUp (o : OpenSearch) : OpenSearch :=
  if o.visible = [] then o
  else { o with selected := (o.selected + o.visible.length - 1) % o.visible.length }

/-- `SearchOverlay::selected`. -/
def selectedMatch (o : OpenSearch) : Option OverlayMatch :=
  o.visible[o.selected]?.bind (o.found[·]?)

/-- No preview. -/
def clearPreview (o : OpenSearch) : OpenSearch :=
  { o with previewRequest := none, previewPath := none, previewLine := 1, previewText := none,
           previewStartLine := 1 }

/-- Results in place of those before. -/
def replaceResults (o : OpenSearch) (found : List OverlayMatch) : OpenSearch :=
  { o with found := found.take (resultLimit o.mode), arrived := [] }.clearPreview.refilter T

/-- Further results, but for files that are searched here, up to the limit. -/
def appendResults (o : OpenSearch) (found : List OverlayMatch) : OpenSearch :=
  let remaining := resultLimit o.mode - o.found.length
  let fresh := found.filter fun m => Path.ofString m.path ∉ o.excludedPaths
  { o with found := o.found ++ fresh.take remaining, arrived := o.arrived ++ found }.refilter T

/-- The results of the open buffers, which the worker's leave out. -/
def setLiveResults (o : OpenSearch) (found : List OverlayMatch) (paths : List Path) : OpenSearch :=
  { o with excludedPaths := paths }.replaceResults T found

/-- A preview is waited for. -/
def awaitPreview (o : OpenSearch) (request : ℕ) (path : String) (line : ℕ) : OpenSearch :=
  { o with previewRequest := some request, previewPath := some path, previewLine := line,
           previewText := none }

/-- A preview has come. -/
def setPreview (o : OpenSearch) (path : String) (line startLine : ℕ) (text : Text) : OpenSearch :=
  { o with previewRequest := none, previewPath := some path, previewLine := line,
           previewStartLine := startLine, previewText := some text }

/-- `preview_key`. -/
def previewKey (o : OpenSearch) : Option (Path × ℕ) :=
  o.previewPath.map fun path => (Path.ofString path, o.previewLine)

end OpenSearch

/-! ## The overlays in the model -/

/-- `FsRequest::ReadPreview`. -/
structure ReadPreview where
  request : ℕ
  path : String
  line : ℕ
  context : ℕ

/-- What was queued since the start. -/
structure SearchQueues where
  nextSearchRequest : ℕ
  nextPreviewRequest : ℕ
  outbox : List SearchRequest
  previews : List ReadPreview

/-- What the model holds of searches. The top overlay is the first; one of another kind is none. -/
structure Searching extends SearchQueues where
  root : Option Path
  buffers : OpenTexts
  overlays : List (Option OpenSearch)
  cancel : Bool

/-- A search event, but for its id. -/
inductive SearchNews where
  | started
  | batch (found : List OverlayMatch)
  | finished (truncated : Bool)
  | cancelled
  | failed (message : String)

/-- What happens to the search. -/
inductive SearchStep where
  | openWorkspace (root : Path)
  /-- Buffers are opened, closed or edited. -/
  | setBuffers (buffers : OpenTexts)
  | openQuickOpen
  | openWorkspaceSearch
  /-- An overlay of another kind is put on top. -/
  | cover
  /-- The top overlay goes. -/
  | close
  | char (value : Char)
  | backspace
  | up
  | down
  | event (id : SearchRequestId) (news : SearchNews)
  /-- The answer to a preview request: a window of the file, or the text of an error. -/
  | preview (request startLine : ℕ) (text : Text)

/-- Lines around one, and the number of the first. -/
def previewWindow (contents : Text) (line context : ℕ) : ℕ × Text :=
  let lines := splitInclusive contents
  let target := min (line - 1) (lines.length - 1)
  let start := target - context
  let stop := min (target + context + 1) lines.length
  (start + 1, ((lines.take stop).drop start).flatten)

/-- The matches in open buffers. -/
def liveMatches (T : CaseTable) (buffers : OpenTexts) (query : Text) : List OverlayMatch :=
  if query = [] then []
  else buffers.flatMap fun b =>
    match b.1 with
    | none => []
    | some path => (literalMatches T (Path.ofString path) b.2 query).map fun m =>
        ⟨path, m.line, m.column, m.text⟩

/-- The paths of open buffers. -/
def livePaths (buffers : OpenTexts) (query : Text) : List Path :=
  if query = [] then [] else buffers.filterMap fun b => b.1.map Path.ofString

namespace Searching

variable (T : CaseTable)

/-- Nothing is open yet. -/
def start : Searching := ⟨⟨0, 0, [], []⟩, none, [], [], false⟩

/-- The overlay for files is opened. -/
def openQuickOpen (s : Searching) : Searching :=
  match s.root with
  | none => s
  | some root =>
    let id : SearchRequestId := ⟨s.nextSearchRequest + 1⟩
    { s with
      nextSearchRequest := s.nextSearchRequest + 1
      overlays := some (.files id root) :: s.overlays
      outbox := s.outbox ++ [⟨id, root, .files, "", 20000⟩] }

/-- The overlay for text is opened. -/
def openWorkspaceSearch (s : Searching) : Searching :=
  match s.root with
  | none => s
  | some root =>
    { s with
      nextSearchRequest := s.nextSearchRequest + 1
      overlays := some (.text ⟨s.nextSearchRequest + 1⟩ root) :: s.overlays }

/-- The top overlay asks for the preview of its selection, or takes it from an open buffer. -/
def requestSelectedPreview (s : Searching) : Searching :=
  match s.overlays with
  | some o :: rest =>
    match o.mode, o.selectedMatch with
    | .text, some m =>
      let line := m.line.getD 1
      if o.previewKey = some (Path.ofString m.path, line) then s
      else
        match s.buffers.find? (fun b => b.1.map Path.ofString = some (Path.ofString m.path)) with
        | some b =>
          let window := previewWindow b.2 line 10
          { s with overlays := some (o.setPreview m.path line window.1 window.2) :: rest }
        | none =>
          { s with
            nextPreviewRequest := s.nextPreviewRequest + 1
            overlays := some (o.awaitPreview (s.nextPreviewRequest + 1) m.path line) :: rest
            previews := s.previews ++ [⟨s.nextPreviewRequest + 1, m.path, line, 10⟩] }
    | _, _ => s
  | _ => s

/-- The query was edited: a new request, and the open buffers searched at once. -/
def searchQueryChanged (s : Searching) : Searching :=
  match s.overlays with
  | some o :: rest =>
    match o.mode with
    | .files => s
    | .text =>
      let id : SearchRequestId := ⟨s.nextSearchRequest + 1⟩
      let o' := { o with request := id, status := .waiting, truncated := false,
                         searched := s.buffers }.setLiveResults T (liveMatches T s.buffers o.query)
                           (livePaths s.buffers o.query)
      let s' := { s with nextSearchRequest := s.nextSearchRequest + 1, overlays := some o' :: rest }
      if o.query = [] then { s' with cancel := true }
      else
        let request : SearchRequest := ⟨id, o.root, .text, String.ofList o.query, 1000⟩
        { s' with outbox := s.outbox ++ [request] }.requestSelectedPreview
  | _ => s

/-- News of the search of the overlay on top. -/
def onSearchNews (s : Searching) (o : OpenSearch) (rest : List (Option OpenSearch)) :
    SearchNews → Searching
  | .started =>
    let o := if o.mode = .files then o.replaceResults T [] else o
    { s with overlays := some { o with status := .searching } :: rest }
  | .batch found =>
    let s := { s with overlays := some (o.appendResults T found) :: rest }
    if o.mode = .text then s.requestSelectedPreview else s
  | .finished truncated =>
    { s with overlays := some { o with status := .finished, truncated := truncated } :: rest }
  | .cancelled => { s with overlays := some { o with status := .cancelled } :: rest }
  | .failed message => { s with overlays := some { o with status := .failed message } :: rest }

/-- Events of another request, or under another overlay, are dropped. -/
def onSearchEvent (s : Searching) (id : SearchRequestId) (news : SearchNews) : Searching :=
  match s.overlays with
  | some o :: rest => if o.request = id then s.onSearchNews T o rest news else s
  | _ => s

/-- The answer to a preview request. -/
def onPreview (s : Searching) (request : ℕ) (path : String) (startLine : ℕ) (text : Text) :
    Searching :=
  match s.overlays with
  | some o :: rest =>
    if o.previewRequest = some request then
      let line := (o.selectedMatch.bind OverlayMatch.line).getD 1
      { s with overlays := some (o.setPreview path line startLine text) :: rest }
    else s
  | _ => s

/-- A change of the top overlay. -/
def edit (s : Searching) (f : OpenSearch → OpenSearch) : Searching :=
  match s.overlays with
  | some o :: rest => { s with overlays := some (f o) :: rest }
  | _ => s

/-- One step. -/
def step (s : Searching) : SearchStep → Searching
  | .openWorkspace root => { s with root := some root }
  | .setBuffers buffers => { s with buffers }
  | .openQuickOpen => s.openQuickOpen
  | .openWorkspaceSearch => s.openWorkspaceSearch
  | .cover => { s with overlays := none :: s.overlays }
  | .close => { s with overlays := s.overlays.tail, cancel := true }
  | .char value => (s.edit (·.pushChar T value)).searchQueryChanged T
  | .backspace => (s.edit (·.popChar T)).searchQueryChanged T
  | .up => (s.edit OpenSearch.moveUp).requestSelectedPreview
  | .down => (s.edit OpenSearch.moveDown).requestSelectedPreview
  | .event id news => s.onSearchEvent T id news
  | .preview request startLine text =>
    match s.previews.find? (·.request = request) with
    | none => s
    | some read => s.onPreview request read.path startLine text

end Searching

/-! ## What an overlay shows -/

/-- Everything found for a query, in the order it came: the open buffers first, then the files that
are not open. -/
def kept (T : CaseTable) (o : OpenSearch) : List OverlayMatch :=
  (liveMatches T o.searched o.query ++
    o.arrived.filter fun m => Path.ofString m.path ∉ livePaths o.searched o.query).take
      (resultLimit o.mode)

/-- The rows that `refilter` makes of matches. -/
def rows (T : CaseTable) (mode : SearchMode) (query : Text) (found : List OverlayMatch) : List ℕ :=
  match mode with
  | .text => List.range (min found.length visibleLimit)
  | .files =>
    ((rankFiles T (found.map OverlayMatch.path) query).filterMap (byPath · 0 found)).take
      visibleLimit

/-- What was kept is shown, and a row of it is selected. -/
structure Shows (T : CaseTable) (o : OpenSearch) : Prop where
  found : o.found = if o.mode = .text then sortBy OverlayMatch.key (kept T o) else kept T o
  visible : o.visible = rows T o.mode o.query o.found
  selected : o.selected < o.visible.length ∨ o.visible = [] ∧ o.selected = 0

namespace OpenSearch

variable {T : CaseTable} {o : OpenSearch}

@[simp] theorem refilter_mode : (o.refilter T).mode = o.mode := by
  simp only [refilter, SearchOverlay.refilter, SearchOverlay.clampSelected]
  split <;> split_ifs <;> simp_all

@[simp] theorem refilter_query : (o.refilter T).query = o.query := by
  simp only [refilter, SearchOverlay.refilter, SearchOverlay.clampSelected]
  split <;> split_ifs <;> rfl

theorem refilter_found : (o.refilter T).found =
    if o.mode = .text then sortBy OverlayMatch.key o.found else o.found := by
  simp only [refilter, SearchOverlay.refilter, SearchOverlay.clampSelected]
  split <;> split_ifs <;> simp_all

theorem refilter_visible :
    (o.refilter T).visible = rows T o.mode o.query (o.refilter T).found := by
  simp only [refilter, SearchOverlay.refilter, SearchOverlay.clampSelected]
  split <;> split_ifs <;> simp_all [rows]

theorem refilter_selected : (o.refilter T).selected < (o.refilter T).visible.length ∨
    (o.refilter T).visible = [] ∧ (o.refilter T).selected = 0 := by
  have hclamp : ∀ v : SearchOverlay, v.clampSelected.selected < v.clampSelected.visible.length ∨
      v.clampSelected.visible = [] ∧ v.clampSelected.selected = 0 := by
    intro v
    rw [SearchOverlay.clampSelected]
    split_ifs with hle
    · rcases v.visible.eq_nil_or_concat with hnil | ⟨l, a, hl⟩
      · simp [hnil]
      · simp [hl]
    · exact .inl (not_le.mp hle)
  simp only [refilter, SearchOverlay.refilter]
  split <;> exact hclamp _

@[simp] theorem kept_refilter : kept T (o.refilter T) = kept T o := by
  simp only [kept, refilter_mode, refilter_query]
  rfl

theorem shows_refilter
    (h : (if o.mode = .text then sortBy OverlayMatch.key o.found else o.found) =
      if o.mode = .text then sortBy OverlayMatch.key (kept T o) else kept T o) :
    Shows T (o.refilter T) where
  found := by rw [refilter_found, h, refilter_mode, kept_refilter]
  visible := by rw [refilter_visible, refilter_mode, refilter_query]
  selected := refilter_selected

end OpenSearch

/-! ## What the operations keep -/

/-- An overlay in its model: it shows what was kept, its request is queued for its query, and the
preview it waits for is queued. -/
structure Sound (T : CaseTable) (s : SearchQueues) (o : OpenSearch) : Prop where
  shows : Shows T o
  excluded : o.excludedPaths = livePaths o.searched o.query
  files : o.mode = .files → o.searched = []
  fresh : o.request.val ≤ s.nextSearchRequest
  asked : ∀ r ∈ s.outbox, r.id = o.request →
    r.mode = o.mode ∧ r.root = o.root ∧ (o.mode = .text → r.query = String.ofList o.query)
  awaited : ∀ request, o.previewRequest = some request → ∃ read,
    s.previews.find? (·.request = request) = some read ∧ o.previewPath = some read.path

/-- The preview is that of the match that is selected. -/
def Previewed (o : OpenSearch) : Prop := o.mode = .text → ∀ m, o.selectedMatch = some m →
  o.previewKey = some (Path.ofString m.path, m.line.getD 1)

variable {T : CaseTable} {q q' : SearchQueues} {s : Searching} {o : OpenSearch}

theorem Sound.mono (h : Sound T q o) (hnext : q.nextSearchRequest ≤ q'.nextSearchRequest)
    (hout : ∀ r ∈ q'.outbox, r ∈ q.outbox ∨ q.nextSearchRequest < r.id.val)
    (hmore : ∃ more, q'.previews = q.previews ++ more) : Sound T q' o where
  shows := h.shows
  excluded := h.excluded
  files := h.files
  fresh := h.fresh.trans hnext
  asked r hr hid := by
    rcases hout r hr with hr | hlt
    · exact h.asked r hr hid
    · have := h.fresh
      rw [hid] at hlt
      omega
  awaited request hreq := by
    obtain ⟨read, hfind, hpath⟩ := h.awaited request hreq
    obtain ⟨more, hmore⟩ := hmore
    exact ⟨read, by rw [hmore, List.find?_append, hfind, Option.some_or], hpath⟩

namespace OpenSearch

theorem kept_of_searched (hmode : o.mode = .files) (h : o.searched = []) :
    kept T o = o.arrived.take fileCandidateLimit := by
  simp [kept, h, liveMatches, livePaths, hmode, resultLimit]

theorem take_append_rest {α : Type} (l l' : List α) (n : ℕ) :
    l.take n ++ l'.take (n - (l.take n).length) = (l ++ l').take n := by
  rw [List.take_append, List.length_take]
  congr 2
  omega

/-- **Batches add up.** -/
theorem shows_appendResults (h : Shows T o)
    (hexcluded : o.excludedPaths = livePaths o.searched o.query) (found : List OverlayMatch) :
    Shows T (o.appendResults T found) := by
  refine shows_refilter ?_
  have hlength : o.found.length = (kept T o).length := by
    rw [h.found]
    split_ifs
    · exact length_sortBy _ _
    · rfl
  have hkept : kept T o ++ (found.filter fun m => Path.ofString m.path ∉ o.excludedPaths).take
      (resultLimit o.mode - o.found.length) =
        kept T { o with
          found := o.found ++ (found.filter fun m => Path.ofString m.path ∉ o.excludedPaths).take
            (resultLimit o.mode - o.found.length)
          arrived := o.arrived ++ found } := by
    rw [hlength]
    simp only [kept, hexcluded, List.filter_append, ← List.append_assoc]
    exact take_append_rest _ _ _
  simp only [← hkept]
  rw [h.found]
  split_ifs
  · exact sortBy_append_sortBy _ _ _
  · rfl

theorem shows_files {request : SearchRequestId} {root : Path} : Shows T (files request root) where
  found := by simp [kept, files, liveMatches]
  visible := by
    have hnone : rankFiles T [] [] = [] := rfl
    simp [files, rows, hnone]
  selected := .inr ⟨rfl, rfl⟩

theorem shows_text {request : SearchRequestId} {root : Path} : Shows T (text request root) where
  found := by simp [kept, text, files, liveMatches, sortBy]
  visible := by simp [text, files, rows]
  selected := .inr ⟨rfl, rfl⟩

theorem shows_setLiveResults (hmode : o.mode = .text) :
    Shows T (({ o with searched := buffers }).setLiveResults T (liveMatches T buffers o.query)
      (livePaths buffers o.query)) := by
  refine shows_refilter ?_
  simp [kept, clearPreview, hmode]

theorem shows_query (h : Shows T o) (hmode : o.mode = .files) (hnone : o.searched = [])
    (query : Text) : Shows T ({ o with query := query }.refilter T) := by
  refine shows_refilter ?_
  have hkept : kept T { o with query := query } = kept T o :=
    (kept_of_searched (o := { o with query := query }) hmode hnone).trans
      (kept_of_searched hmode hnone).symm
  have hnot : o.mode ≠ .text := by simp [hmode]
  have hfound := h.found
  rw [if_neg hnot] at hfound
  show (if o.mode = .text then sortBy OverlayMatch.key o.found else o.found) =
    if o.mode = .text then _ else _
  rw [if_neg hnot, if_neg hnot]
  exact hfound.trans hkept.symm

theorem shows_moveDown (h : Shows T o) : Shows T o.moveDown := by
  rw [moveDown]
  split_ifs with hnil
  · exact h
  · exact ⟨h.found, h.visible, .inl (Nat.mod_lt _ (List.length_pos_iff.mpr hnil))⟩

theorem shows_moveUp (h : Shows T o) : Shows T o.moveUp := by
  rw [moveUp]
  split_ifs with hnil
  · exact h
  · exact ⟨h.found, h.visible, .inl (Nat.mod_lt _ (List.length_pos_iff.mpr hnil))⟩

end OpenSearch

theorem Sound.of_refilter (hshows : Shows T (o.refilter T))
    (hexcluded : o.excludedPaths = livePaths o.searched o.query)
    (hfiles : o.mode = .files → o.searched = []) (hfresh : o.request.val ≤ q.nextSearchRequest)
    (hasked : ∀ r ∈ q.outbox, r.id = o.request →
      r.mode = o.mode ∧ r.root = o.root ∧ (o.mode = .text → r.query = String.ofList o.query))
    (hawaited : ∀ request, o.previewRequest = some request → ∃ read,
      q.previews.find? (·.request = request) = some read ∧ o.previewPath = some read.path) :
    Sound T q (o.refilter T) where
  shows := hshows
  excluded := by
    rw [OpenSearch.refilter_query]
    exact hexcluded
  files hmode := hfiles (by simpa using hmode)
  fresh := hfresh
  asked r hr hid := by
    rw [OpenSearch.refilter_mode, OpenSearch.refilter_query]
    exact hasked r hr hid
  awaited := hawaited

theorem Sound.appendResults (h : Sound T q o) (found : List OverlayMatch) :
    Sound T q (o.appendResults T found) :=
  .of_refilter (OpenSearch.shows_appendResults h.shows h.excluded found) h.excluded h.files h.fresh
    h.asked h.awaited

theorem Sound.query (h : Sound T q o) (hmode : o.mode = .files) (query : Text) :
    Sound T q ({ o with query := query }.refilter T) := by
  have hnone := h.files hmode
  refine .of_refilter (OpenSearch.shows_query h.shows hmode hnone query) ?_ h.files h.fresh
    (fun r hr hid => ?_) h.awaited
  · have hexcluded := h.excluded
    simpa [livePaths, hnone] using hexcluded
  · obtain ⟨hm, hroot, -⟩ := h.asked r hr hid
    exact ⟨hm, hroot, fun htext => by simp [hmode] at htext⟩

theorem Sound.replaceResults (h : Sound T q o) (hmode : o.mode = .files) :
    Sound T q (o.replaceResults T []) := by
  have hnone := h.files hmode
  refine .of_refilter (OpenSearch.shows_refilter ?_) h.excluded h.files h.fresh h.asked ?_
  · simp [kept, OpenSearch.clearPreview, hmode, hnone, liveMatches]
  · simp [OpenSearch.clearPreview]

theorem Sound.setLiveResults (hmode : o.mode = .text) (hfresh : o.request.val ≤ q.nextSearchRequest)
    (hasked : ∀ r ∈ q.outbox, r.id = o.request →
      r.mode = .text ∧ r.root = o.root ∧ r.query = String.ofList o.query) (buffers : OpenTexts) :
    Sound T q (({ o with searched := buffers }).setLiveResults T (liveMatches T buffers o.query)
      (livePaths buffers o.query)) := by
  refine .of_refilter (OpenSearch.shows_setLiveResults hmode) rfl (fun hfiles => ?_) hfresh
    (fun r hr hid => ?_) ?_
  · have htext : (SearchMode.files : SearchMode) = .text := hfiles.symm.trans hmode
    cases htext
  · obtain ⟨hm, hroot, hquery⟩ := hasked r hr hid
    exact ⟨hm.trans hmode.symm, hroot, fun _ => hquery⟩
  · simp [OpenSearch.clearPreview]

theorem Sound.status (h : Sound T q o) (status : SearchStatus) (truncated : Bool) :
    Sound T q { o with status := status, truncated := truncated } where
  shows := ⟨h.shows.found, h.shows.visible, h.shows.selected⟩
  excluded := h.excluded
  files := h.files
  fresh := h.fresh
  asked := h.asked
  awaited := h.awaited

theorem Sound.select (h : Sound T q o) {selected : ℕ}
    (hshows : Shows T { o with selected := selected }) :
    Sound T q { o with selected := selected } :=
  ⟨hshows, h.excluded, h.files, h.fresh, h.asked, h.awaited⟩

theorem Sound.moveDown (h : Sound T q o) : Sound T q o.moveDown := by
  have hshows := OpenSearch.shows_moveDown h.shows
  unfold OpenSearch.moveDown at hshows ⊢
  split_ifs at hshows ⊢
  · exact h
  · exact h.select hshows

theorem Sound.moveUp (h : Sound T q o) : Sound T q o.moveUp := by
  have hshows := OpenSearch.shows_moveUp h.shows
  unfold OpenSearch.moveUp at hshows ⊢
  split_ifs at hshows ⊢
  · exact h
  · exact h.select hshows

theorem Sound.setPreview (h : Sound T q o) {path : String} {line startLine : ℕ} {text : Text} :
    Sound T q (o.setPreview path line startLine text) where
  shows := ⟨h.shows.found, h.shows.visible, h.shows.selected⟩
  excluded := h.excluded
  files := h.files
  fresh := h.fresh
  asked := h.asked
  awaited _ hreq := by simp [OpenSearch.setPreview] at hreq

/-! ## Every step -/

/-- Requests are numbered as they are queued, and every overlay is sound. -/
structure Numbered (s : SearchQueues) : Prop where
  outbox : ∀ r ∈ s.outbox, r.id.val ≤ s.nextSearchRequest
  previews : ∀ read ∈ s.previews, read.request ≤ s.nextPreviewRequest

/-- What holds between steps. -/
structure Coherent (T : CaseTable) (s : Searching) : Prop where
  numbered : Numbered s.toSearchQueues
  sound : ∀ o, some o ∈ s.overlays → Sound T s.toSearchQueues o ∧ Previewed o

theorem coherent_start : Coherent T .start :=
  ⟨⟨by simp [Searching.start], by simp [Searching.start]⟩, by simp [Searching.start]⟩

theorem coherent_cons {top : OpenSearch} {rest : List (Option OpenSearch)}
    (hs : s.overlays = some top :: rest) (hn : Numbered s.toSearchQueues)
    (htop : Sound T s.toSearchQueues top) (hp : Previewed top)
    (hrest : ∀ o, some o ∈ rest → Sound T s.toSearchQueues o ∧ Previewed o) : Coherent T s := by
  refine ⟨hn, fun o ho => ?_⟩
  rw [hs] at ho
  rcases List.mem_cons.mp ho with heq | ho
  · obtain rfl := Option.some.inj heq
    exact ⟨htop, hp⟩
  · exact hrest o ho

theorem coherent_requestSelectedPreview {rest : List (Option OpenSearch)}
    (hs : s.overlays = some o :: rest) (hn : Numbered s.toSearchQueues)
    (ho : Sound T s.toSearchQueues o)
    (hrest : ∀ o', some o' ∈ rest → Sound T s.toSearchQueues o' ∧ Previewed o') :
    Coherent T s.requestSelectedPreview := by
  unfold Searching.requestSelectedPreview
  rw [hs]
  dsimp only
  split
  · rename_i m hmode hm
    split_ifs with hkey
    · refine coherent_cons hs hn ho (fun _ m' hm' => ?_) hrest
      obtain rfl := Option.some.inj (hm.symm.trans hm')
      exact hkey
    · split
      · refine coherent_cons rfl hn ho.setPreview (fun _ m' hm' => ?_) hrest
        obtain rfl := Option.some.inj (hm.symm.trans hm')
        rfl
      · have hlater : ∀ read ∈ s.previews, read.request ≠ s.nextPreviewRequest + 1 := fun read hr =>
          (Nat.lt_succ_of_le (hn.previews read hr)).ne
        refine coherent_cons rfl ⟨hn.outbox, fun read hread => ?_⟩
          ⟨⟨ho.shows.found, ho.shows.visible, ho.shows.selected⟩, ho.excluded, ho.files, ho.fresh,
            ho.asked, fun request hreq => ?_⟩ (fun _ m' hm' => ?_) fun o' ho' =>
              ⟨(hrest o' ho').1.mono le_rfl (fun _ => .inl) ⟨_, rfl⟩, (hrest o' ho').2⟩
        · rcases List.mem_append.mp hread with hread | hread
          · exact Nat.le_succ_of_le (hn.previews read hread)
          · simp [List.mem_singleton.mp hread]
        · obtain rfl := Option.some.inj hreq
          refine ⟨⟨s.nextPreviewRequest + 1, m.path, m.line.getD 1, 10⟩, ?_, rfl⟩
          show (s.previews ++ [_]).find? _ = _
          rw [List.find?_append, List.find?_eq_none.mpr (by simpa using hlater)]
          simp
        · obtain rfl := Option.some.inj (hm.symm.trans hm')
          rfl
  · rename_i hno
    exact coherent_cons hs hn ho (fun hmode m hm => (hno m hmode hm).elim) hrest

theorem selectedMatch_empty (h : Shows T o) (hquery : o.query = []) (hmode : o.mode = .text)
    (harrived : o.arrived = []) : o.selectedMatch = none := by
  have hfound : o.found = [] := by
    rw [h.found, if_pos hmode]
    simp [kept, hquery, harrived, liveMatches, sortBy]
  have hvisible : o.visible = [] := by
    rw [h.visible, hmode, hfound]
    simp [rows]
  simp [OpenSearch.selectedMatch, hvisible]

/-- The query of the top overlay was edited. In text mode nothing is left of what was shown. -/
theorem coherent_searchQueryChanged {rest : List (Option OpenSearch)}
    (hs : s.overlays = some o :: rest) (hn : Numbered s.toSearchQueues)
    (hfiles : o.mode = .files → Sound T s.toSearchQueues o)
    (hrest : ∀ o', some o' ∈ rest → Sound T s.toSearchQueues o' ∧ Previewed o') :
    Coherent T (s.searchQueryChanged T) := by
  unfold Searching.searchQueryChanged
  rw [hs]
  dsimp only
  cases hmode : o.mode with
  | files =>
    refine coherent_cons hs hn (hfiles hmode) (fun htext => ?_) hrest
    simp [hmode] at htext
  | text =>
    dsimp only
    have hnew : ∀ r ∈ s.outbox, r.id ≠ ⟨s.nextSearchRequest + 1⟩ := fun r hr hid => by
      have := hn.outbox r hr
      rw [hid] at this
      exact absurd this (Nat.not_succ_le_self _)
    have hlater : ∀ r ∈ s.outbox, r.id.val ≤ s.nextSearchRequest + 1 := fun r hr =>
      Nat.le_succ_of_le (hn.outbox r hr)
    let asking : OpenSearch :=
      { o with request := ⟨s.nextSearchRequest + 1⟩, status := .waiting, truncated := false }
    split_ifs with hquery
    · have hsound := Sound.setLiveResults (T := T) (o := asking)
        (q := { s.toSearchQueues with nextSearchRequest := s.nextSearchRequest + 1 })
        hmode le_rfl (fun r hr hid => absurd hid (hnew r hr)) s.buffers
      refine coherent_cons rfl ⟨hlater, hn.previews⟩ hsound (fun htext m hm => ?_) fun o' ho' =>
        ⟨(hrest o' ho').1.mono (Nat.le_succ _) (fun _ => .inl) ⟨[], by simp⟩, (hrest o' ho').2⟩
      have hnone := selectedMatch_empty hsound.shows (by
        rw [OpenSearch.setLiveResults, OpenSearch.replaceResults, OpenSearch.refilter_query]
        exact hquery) htext rfl
      cases hnone.symm.trans hm
    · refine coherent_requestSelectedPreview rfl ⟨fun r hr => ?_, hn.previews⟩
        (Sound.setLiveResults (o := asking) hmode le_rfl (fun r hr hid => ?_) s.buffers)
        fun o' ho' => ⟨(hrest o' ho').1.mono (Nat.le_succ _) (fun r hr => ?_) ⟨[], by simp⟩,
          (hrest o' ho').2⟩
      · rcases List.mem_append.mp hr with hr | hr
        · exact hlater r hr
        · obtain rfl := List.mem_singleton.mp hr
          exact le_rfl
      · rcases List.mem_append.mp hr with hr | hr
        · exact absurd hid (hnew r hr)
        · obtain rfl := List.mem_singleton.mp hr
          exact ⟨rfl, rfl, rfl⟩
      · rcases List.mem_append.mp hr with hr | hr
        · exact .inl hr
        · obtain rfl := List.mem_singleton.mp hr
          exact .inr (Nat.lt_succ_self _)

theorem coherent_onSearchEvent (h : Coherent T s) (id : SearchRequestId) (news : SearchNews) :
    Coherent T (s.onSearchEvent T id news) := by
  unfold Searching.onSearchEvent
  split
  · rename_i o rest hs
    split_ifs
    · have ho := h.sound o (hs ▸ List.mem_cons_self)
      have hrest : ∀ o', some o' ∈ rest → Sound T s.toSearchQueues o' ∧ Previewed o' :=
        fun o' ho' => h.sound o' (hs ▸ List.mem_cons_of_mem _ ho')
      cases news with
      | started =>
        show Coherent T { s with overlays := some { (if o.mode = .files then o.replaceResults T []
          else o) with status := .searching } :: rest }
        split_ifs with hmode
        · refine coherent_cons rfl h.numbered ((ho.1.replaceResults hmode).status .searching _)
            (fun htext => ?_) hrest
          have hfiles : (o.replaceResults T []).mode = .files := by
            rw [OpenSearch.replaceResults, OpenSearch.refilter_mode]
            exact hmode
          exact absurd (hfiles.symm.trans htext) (by simp)
        · exact coherent_cons rfl h.numbered (ho.1.status .searching o.truncated) ho.2 hrest
      | batch found =>
        show Coherent T (if o.mode = .text then _ else _)
        split_ifs with hmode
        · exact coherent_requestSelectedPreview rfl h.numbered (ho.1.appendResults found) hrest
        · refine coherent_cons rfl h.numbered (ho.1.appendResults found) (fun htext => ?_) hrest
          rw [OpenSearch.appendResults, OpenSearch.refilter_mode] at htext
          exact absurd htext hmode
      | finished truncated => exact coherent_cons rfl h.numbered (ho.1.status _ _) ho.2 hrest
      | cancelled => exact coherent_cons rfl h.numbered (ho.1.status _ o.truncated) ho.2 hrest
      | failed message => exact coherent_cons rfl h.numbered (ho.1.status _ o.truncated) ho.2 hrest
    · exact h
  · exact h

theorem coherent_onPreview (h : Coherent T s) {request startLine : ℕ} {text : Text}
    {read : ReadPreview} (hread : s.previews.find? (·.request = request) = some read) :
    Coherent T (s.onPreview request read.path startLine text) := by
  unfold Searching.onPreview
  split
  · rename_i o rest hs
    split_ifs with hreq
    · obtain ⟨ho, hp⟩ := h.sound o (hs ▸ List.mem_cons_self)
      refine coherent_cons rfl h.numbered ho.setPreview (fun htext m hm => ?_) fun o' ho' =>
        h.sound o' (hs ▸ List.mem_cons_of_mem _ ho')
      obtain ⟨read', hread', hpath⟩ := ho.awaited request hreq
      obtain rfl := Option.some.inj (hread.symm.trans hread')
      have hm' : o.selectedMatch = some m := hm
      have hkey := hp htext m hm
      simp only [OpenSearch.previewKey, hpath, Option.map_some, Option.some.injEq,
        Prod.mk.injEq] at hkey
      simp [OpenSearch.previewKey, OpenSearch.setPreview, hm', hkey.1]
    · exact h
  · exact h

theorem coherent_open (h : Coherent T s) {requests : List SearchRequest} (hshows : Shows T o)
    (ho : o.request = ⟨s.nextSearchRequest + 1⟩)
    (hempty : o.excludedPaths = [] ∧ o.searched = [] ∧ o.previewRequest = none ∧ o.visible = [])
    (hrequests : ∀ r ∈ requests, r.id = o.request ∧ r.mode = o.mode ∧ r.root = o.root ∧
      (o.mode = .text → r.query = String.ofList o.query)) :
    Coherent T { s with nextSearchRequest := s.nextSearchRequest + 1,
                        overlays := some o :: s.overlays, outbox := s.outbox ++ requests } := by
  obtain ⟨hexcluded, hsearched, hpreview, hvisible⟩ := hempty
  refine coherent_cons rfl ⟨fun r hr => ?_, h.numbered.previews⟩
    ⟨hshows, ?_, fun _ => hsearched, by simp [ho], fun r hr hid => ?_, by simp [hpreview]⟩
    (fun _ m hm => by simp [OpenSearch.selectedMatch, hvisible] at hm) fun o' ho' => ?_
  · rcases List.mem_append.mp hr with hr | hr
    · exact Nat.le_succ_of_le (h.numbered.outbox r hr)
    · simp [(hrequests r hr).1, ho]
  · simp [hexcluded, hsearched, livePaths]
  · rcases List.mem_append.mp hr with hr | hr
    · have hle := h.numbered.outbox r hr
      rw [hid, ho] at hle
      exact absurd hle (Nat.not_succ_le_self _)
    · exact (hrequests r hr).2
  · refine ⟨(h.sound o' ho').1.mono (Nat.le_succ _) (fun r hr => ?_) ⟨[], by simp⟩,
      (h.sound o' ho').2⟩
    rcases List.mem_append.mp hr with hr | hr
    · exact .inl hr
    · exact .inr (by simp [(hrequests r hr).1, ho])

theorem coherent_edit_query (h : Coherent T s) {f : OpenSearch → OpenSearch}
    (hmode : ∀ o, (f o).mode = o.mode)
    (hfiles : ∀ o, Sound T s.toSearchQueues o → o.mode = .files → Sound T s.toSearchQueues (f o)) :
    Coherent T ((s.edit f).searchQueryChanged T) := by
  unfold Searching.edit
  split
  · rename_i o rest hs
    refine coherent_searchQueryChanged rfl h.numbered (fun hm => ?_) fun o' ho' =>
      h.sound o' (hs ▸ List.mem_cons_of_mem _ ho')
    exact hfiles o (h.sound o (hs ▸ List.mem_cons_self)).1 ((hmode o).symm.trans hm)
  · rename_i hnone
    unfold Searching.searchQueryChanged
    split
    · rename_i o rest hs
      exact (hnone o rest hs).elim
    · exact h

theorem coherent_edit_selection (h : Coherent T s) {f : OpenSearch → OpenSearch}
    (hf : ∀ o, Sound T s.toSearchQueues o → Sound T s.toSearchQueues (f o)) :
    Coherent T (s.edit f).requestSelectedPreview := by
  unfold Searching.edit
  split
  · rename_i o rest hs
    exact coherent_requestSelectedPreview rfl h.numbered
      (hf o (h.sound o (hs ▸ List.mem_cons_self)).1) fun o' ho' =>
        h.sound o' (hs ▸ List.mem_cons_of_mem _ ho')
  · rename_i hnone
    unfold Searching.requestSelectedPreview
    split
    · rename_i o rest hs
      exact (hnone o rest hs).elim
    · exact h

theorem coherent_step (h : Coherent T s) (step : SearchStep) : Coherent T (s.step T step) := by
  cases step with
  | openWorkspace root => exact ⟨h.numbered, h.sound⟩
  | setBuffers buffers => exact ⟨h.numbered, h.sound⟩
  | openQuickOpen =>
    show Coherent T s.openQuickOpen
    unfold Searching.openQuickOpen
    split
    · exact h
    · rename_i root hroot
      exact coherent_open (o := .files ⟨s.nextSearchRequest + 1⟩ root) h OpenSearch.shows_files rfl
        ⟨rfl, rfl, rfl, rfl⟩ (by simp [OpenSearch.files])
  | openWorkspaceSearch =>
    show Coherent T s.openWorkspaceSearch
    unfold Searching.openWorkspaceSearch
    split
    · exact h
    · rename_i root hroot
      have hopen := coherent_open (o := .text ⟨s.nextSearchRequest + 1⟩ root) h
        OpenSearch.shows_text rfl ⟨rfl, rfl, rfl, rfl⟩ (List.forall_mem_nil _)
      rwa [List.append_nil] at hopen
  | cover => exact ⟨h.numbered, fun o ho => h.sound o (by simpa [Searching.step] using ho)⟩
  | close => exact ⟨h.numbered, fun o ho => h.sound o (List.mem_of_mem_tail ho)⟩
  | char value =>
    exact coherent_edit_query h (fun o => OpenSearch.refilter_mode) fun o ho hmode =>
      ho.query hmode _
  | backspace =>
    exact coherent_edit_query h (fun o => OpenSearch.refilter_mode) fun o ho hmode =>
      ho.query hmode _
  | up => exact coherent_edit_selection h fun o ho => ho.moveUp
  | down => exact coherent_edit_selection h fun o ho => ho.moveDown
  | event id news => exact coherent_onSearchEvent h id news
  | preview request startLine text =>
    show Coherent T (match s.previews.find? (·.request = request) with
      | none => s
      | some read => s.onPreview request read.path startLine text)
    cases hread : s.previews.find? (·.request = request) with
    | none => exact h
    | some read => exact coherent_onPreview h hread

/-! ## What came for a request -/

/-- What came for a request with this step: the matches of its events while its overlay is on top. A
search for files begins anew when it is started. -/
def came (s : Searching) (id : SearchRequestId) (before : List OverlayMatch) :
    SearchStep → List OverlayMatch
  | .event id' news =>
    match s.overlays with
    | some o :: _ =>
      if o.request = id ∧ id' = id then
        match news with
        | .batch found => before ++ found
        | .started => if o.mode = .files then [] else before
        | _ => before
      else before
    | _ => before
  | _ => before

/-- The buffers that are open when a query is typed: the step that numbers its request. -/
def typedOver (s : Searching) (id : SearchRequestId) (before : OpenTexts) : SearchStep → OpenTexts
  | .char _ | .backspace =>
    match s.overlays with
    | some o :: _ =>
      if o.mode = .text ∧ id = ⟨s.nextSearchRequest + 1⟩ then s.buffers else before
    | _ => before
  | _ => before

/-- A run with its events: what came for each request, and the buffers it was typed over. -/
structure SearchTrace where
  state : Searching
  arrivals : SearchRequestId → List OverlayMatch
  texts : SearchRequestId → OpenTexts

namespace SearchTrace

def start : SearchTrace := ⟨.start, fun _ => [], fun _ => []⟩

def step (T : CaseTable) (w : SearchTrace) (step : SearchStep) : SearchTrace where
  state := w.state.step T step
  arrivals id := came w.state id (w.arrivals id) step
  texts id := typedOver w.state id (w.texts id) step

/-- A run of steps from the start. -/
def run (T : CaseTable) (steps : List SearchStep) : SearchTrace := steps.foldl (step T) start

end SearchTrace

/-- Every overlay has a request of its own, and what came for it; a request for a query is queued. -/
structure Recorded (s : Searching) (arrivals : SearchRequestId → List OverlayMatch)
    (texts : SearchRequestId → OpenTexts) : Prop where
  apart : (s.overlays.reduceOption.map (·.request)).Nodup
  issued : ∀ o ∈ s.overlays.reduceOption, o.request.val ≤ s.nextSearchRequest
  fresh : ∀ id : SearchRequestId, s.nextSearchRequest < id.val → arrivals id = [] ∧ texts id = []
  same : ∀ o ∈ s.overlays.reduceOption, o.arrived = arrivals o.request ∧
    o.searched = texts o.request
  posted : ∀ o ∈ s.overlays.reduceOption, o.mode = .files ∨ o.query ≠ [] →
    ∃ r ∈ s.outbox, r.id = o.request

/-- What is recorded of an overlay. -/
def OpenSearch.trail (o : OpenSearch) :
    SearchRequestId × List OverlayMatch × OpenTexts × SearchMode × Text :=
  (o.request, o.arrived, o.searched, o.mode, o.query)

section Recorded

variable {arrivals arrivals' : SearchRequestId → List OverlayMatch}
  {texts texts' : SearchRequestId → OpenTexts} {s' : Searching} {p : OpenSearch}
  {rest : List (Option OpenSearch)}

theorem Recorded.start : Recorded .start (fun _ => []) fun _ => [] := by
  constructor <;> simp [Searching.start]

theorem Recorded.frame (h : Recorded s arrivals texts)
    (hnext : s'.nextSearchRequest = s.nextSearchRequest) (hout : s'.outbox = s.outbox)
    (htrail : s'.overlays.reduceOption.map (·.trail) = s.overlays.reduceOption.map (·.trail)) :
    Recorded s' arrivals texts := by
  have hof : ∀ o ∈ s'.overlays.reduceOption, ∃ q ∈ s.overlays.reduceOption, q.trail = o.trail :=
    fun o ho => List.mem_map.mp (htrail ▸ List.mem_map_of_mem ho)
  constructor
  case apart =>
    have hids := congrArg (List.map Prod.fst) htrail
    simp only [List.map_map] at hids
    exact Eq.mpr (congrArg List.Nodup hids) h.apart
  case issued =>
    intro o ho
    obtain ⟨q, hq, htr⟩ := hof o ho
    simp only [OpenSearch.trail, Prod.mk.injEq] at htr
    rw [hnext, ← htr.1]
    exact h.issued q hq
  case fresh =>
    rw [hnext]
    exact h.fresh
  case same =>
    intro o ho
    obtain ⟨q, hq, htr⟩ := hof o ho
    simp only [OpenSearch.trail, Prod.mk.injEq] at htr
    rw [← htr.1, ← htr.2.1, ← htr.2.2.1]
    exact h.same q hq
  case posted =>
    intro o ho hasks
    obtain ⟨q, hq, htr⟩ := hof o ho
    simp only [OpenSearch.trail, Prod.mk.injEq] at htr
    rw [← htr.2.2.2.1, ← htr.2.2.2.2] at hasks
    rw [hout, ← htr.1]
    exact h.posted q hq hasks

theorem Recorded.retop (h : Recorded s arrivals texts) (hs : s.overlays = some o :: rest)
    (hs' : s'.overlays = some p :: rest) (hnext : s'.nextSearchRequest = s.nextSearchRequest)
    (hout : s'.outbox = s.outbox) (hrequest : p.request = o.request)
    (hsearched : p.searched = o.searched) (harrived : p.arrived = arrivals' o.request)
    (hothers : ∀ id, id ≠ o.request → arrivals' id = arrivals id)
    (hasks : p.mode = .files ∨ p.query ≠ [] → o.mode = .files ∨ o.query ≠ []) :
    Recorded s' arrivals' texts := by
  have htop : o ∈ s.overlays.reduceOption := by simp [hs]
  have hrest : ∀ q ∈ rest.reduceOption, q ∈ s.overlays.reduceOption := by simp_all
  have hapart := h.apart
  simp only [hs, List.reduceOption_cons_of_some, List.map_cons, List.nodup_cons] at hapart
  have hne : ∀ q ∈ rest.reduceOption, q.request ≠ o.request := fun q hq heq =>
    hapart.1 (List.mem_map.mpr ⟨q, hq, heq⟩)
  constructor
  case apart =>
    simp only [hs', List.reduceOption_cons_of_some, List.map_cons, hrequest]
    exact List.nodup_cons.mpr hapart
  case fresh =>
    rw [hnext]
    intro id hid
    have hle := h.issued o htop
    rw [hothers id (by rintro rfl; omega)]
    exact h.fresh id hid
  all_goals
    simp only [hs', List.reduceOption_cons_of_some, List.forall_mem_cons, hnext, hout, hrequest]
  case issued => exact ⟨h.issued o htop, fun q hq => h.issued q (hrest q hq)⟩
  case same =>
    refine ⟨⟨harrived, hsearched.trans (h.same o htop).2⟩, fun q hq => ?_⟩
    rw [hothers _ (hne q hq)]
    exact h.same q (hrest q hq)
  case posted => exact ⟨fun hask => h.posted o htop (hasks hask), fun q hq => h.posted q (hrest q hq)⟩

theorem Recorded.push (h : Recorded s arrivals texts) (hrest : rest.Sublist s.overlays)
    (hs' : s'.overlays = some p :: rest) (hnext : s'.nextSearchRequest = s.nextSearchRequest + 1)
    (hout : ∀ r ∈ s.outbox, r ∈ s'.outbox) (hrequest : p.request = ⟨s.nextSearchRequest + 1⟩)
    (harrived : p.arrived = []) (hsearched : p.searched = texts' p.request)
    (hothers : ∀ id, id ≠ p.request → texts' id = texts id)
    (hasks : p.mode = .files ∨ p.query ≠ [] → ∃ r ∈ s'.outbox, r.id = p.request) :
    Recorded s' arrivals texts' := by
  have hsub : (rest.reduceOption).Sublist s.overlays.reduceOption := hrest.filterMap id
  have hold : ∀ q ∈ rest.reduceOption, q.request ≠ p.request := by
    intro q hq heq
    have hle := h.issued q (hsub.subset hq)
    rw [heq, hrequest] at hle
    exact absurd hle (Nat.not_succ_le_self _)
  constructor
  case apart =>
    simp only [hs', List.reduceOption_cons_of_some, List.map_cons, List.nodup_cons]
    refine ⟨fun hmem => ?_, h.apart.sublist (hsub.map _)⟩
    obtain ⟨q, hq, heq⟩ := List.mem_map.mp hmem
    exact hold q hq heq
  case fresh =>
    rw [hnext]
    intro id hid
    rw [hothers id (by rintro rfl; rw [hrequest] at hid; exact lt_irrefl _ hid)]
    exact h.fresh id (by omega)
  all_goals
    simp only [hs', List.reduceOption_cons_of_some, List.forall_mem_cons, hnext]
  case issued =>
    exact ⟨by rw [hrequest], fun q hq => Nat.le_succ_of_le (h.issued q (hsub.subset hq))⟩
  case same =>
    refine ⟨⟨?_, hsearched⟩, fun q hq => ?_⟩
    · rw [harrived, (h.fresh p.request (by rw [hrequest]; exact Nat.lt_succ_self _)).1]
    · rw [hothers _ (hold q hq)]
      exact h.same q (hsub.subset hq)
  case posted =>
    refine ⟨hasks, fun q hq hask => ?_⟩
    obtain ⟨r, hr, hid⟩ := h.posted q (hsub.subset hq) hask
    exact ⟨r, hout r hr, hid⟩

theorem Recorded.requestSelectedPreview (h : Recorded s arrivals texts) :
    Recorded s.requestSelectedPreview arrivals texts := by
  unfold Searching.requestSelectedPreview
  split
  · rename_i o rest hs
    split
    · dsimp only
      split_ifs
      · exact h
      · split
        all_goals exact h.frame rfl rfl (by rw [hs]; rfl)
    · exact h
  · exact h

theorem Recorded.searchQueryChanged {f : OpenSearch → OpenSearch} (h : Recorded s arrivals texts)
    (hf : ∀ o, (f o).request = o.request ∧ (f o).arrived = o.arrived ∧
      (f o).searched = o.searched ∧ (f o).mode = o.mode)
    (htexts : ∀ id, texts' id = typedOver s id (texts id) .backspace) :
    Recorded ((s.edit f).searchQueryChanged T) arrivals texts' := by
  unfold Searching.edit Searching.searchQueryChanged
  cases hs : s.overlays with
  | nil =>
    have heq : texts' = texts := funext fun id => by simp [htexts, typedOver, hs]
    simp only [hs, heq]
    exact h
  | cons top rest =>
    cases top with
    | none =>
      have heq : texts' = texts := funext fun id => by simp [htexts, typedOver, hs]
      simp only [hs, heq]
      exact h
    | some o =>
      obtain ⟨hrequest, harrived, hsearched, hmode⟩ := hf o
      have hsame := h.same o (by simp [hs])
      dsimp only
      cases hm : (f o).mode with
      | files =>
        have heq : texts' = texts := funext fun id => by
          simp [htexts, typedOver, hs, hmode.symm.trans hm]
        rw [heq]
        exact h.retop hs rfl rfl rfl hrequest hsearched (harrived.trans hsame.1)
          (fun _ _ => rfl) fun _ => .inl (hmode.symm.trans hm)
      | text =>
        have htext : ∀ id, texts' id = if id = ⟨s.nextSearchRequest + 1⟩ then s.buffers
            else texts id := fun id => by simp [htexts, typedOver, hs, hmode.symm.trans hm]
        have hnew : texts' ⟨s.nextSearchRequest + 1⟩ = s.buffers := by rw [htext, if_pos rfl]
        have hold : ∀ id, id ≠ ⟨s.nextSearchRequest + 1⟩ → texts' id = texts id :=
          fun id hid => by rw [htext, if_neg hid]
        have hsub : rest.Sublist s.overlays := hs ▸ List.sublist_cons_self _ _
        dsimp only
        split_ifs with hquery
        · refine h.push hsub rfl rfl (fun r hr => hr) rfl rfl hnew.symm hold ?_
          · rintro (hfiles | hne)
            · rw [OpenSearch.setLiveResults, OpenSearch.replaceResults,
                OpenSearch.refilter_mode] at hfiles
              exact absurd (hfiles.symm.trans hm) (by simp)
            · rw [OpenSearch.setLiveResults, OpenSearch.replaceResults,
                OpenSearch.refilter_query] at hne
              exact absurd hquery hne
        · exact Recorded.requestSelectedPreview (h.push hsub rfl rfl
            (fun r hr => List.mem_append_left _ hr) rfl rfl hnew.symm hold
            fun _ => ⟨_, List.mem_append_right _ (List.mem_singleton_self _), rfl⟩)

theorem Recorded.select {f : OpenSearch → OpenSearch} (h : Recorded s arrivals texts)
    (hf : ∀ o, (f o).trail = o.trail) : Recorded (s.edit f).requestSelectedPreview arrivals texts := by
  refine Recorded.requestSelectedPreview ?_
  unfold Searching.edit
  split
  · rename_i o rest hs
    exact h.frame rfl rfl (by simp [hs, hf])
  · exact h

theorem Recorded.onSearchEvent {id : SearchRequestId} {news : SearchNews}
    (h : Recorded s arrivals texts) : Recorded (s.onSearchEvent T id news)
      (fun id' => came s id' (arrivals id') (.event id news)) texts := by
  unfold Searching.onSearchEvent
  cases hs : s.overlays with
  | nil => simpa [came, hs] using h
  | cons top rest =>
    cases top with
    | none => simpa [came, hs] using h
    | some o =>
      dsimp only
      have hsame := h.same o (by simp [hs])
      by_cases hid : o.request = id
      · rw [if_pos hid]
        have hothers : ∀ id', id' ≠ o.request →
            came s id' (arrivals id') (.event id news) = arrivals id' := fun id' hne => by
          simp [came, hs, hne.symm]
        cases news with
        | batch found =>
          have hbatch : Recorded { s with overlays := some (o.appendResults T found) :: rest }
              (fun id' => came s id' (arrivals id') (.event id (.batch found))) texts := by
            refine h.retop hs rfl rfl rfl rfl rfl ?_ hothers fun hasks => ?_
            · simp only [came, hs, hid, and_self, if_true]
              rw [← hid, ← hsame.1]
              rfl
            · rwa [OpenSearch.appendResults, OpenSearch.refilter_mode,
                OpenSearch.refilter_query] at hasks
          show Recorded (if o.mode = .text then _ else _) _ _
          split_ifs
          · exact hbatch.requestSelectedPreview
          · exact hbatch
        | started =>
          by_cases hmode : o.mode = .files
          · refine h.retop (p := { (if o.mode = .files then o.replaceResults T [] else o) with
              status := .searching }) hs rfl rfl rfl ?_ ?_ ?_ hothers fun _ => .inl hmode
            · rw [if_pos hmode]
              rfl
            · rw [if_pos hmode]
              rfl
            · simp only [came, hs, hid, hmode, and_self, if_true]
              rfl
          · refine h.retop (p := { (if o.mode = .files then o.replaceResults T [] else o) with
              status := .searching }) hs rfl rfl rfl ?_ ?_ ?_ hothers ?_
            · rw [if_neg hmode]
            · rw [if_neg hmode]
            · rw [if_neg hmode]
              simp only [came, hs, hid, and_self, if_true, if_neg hmode]
              rw [← hid, ← hsame.1]
            · rw [if_neg hmode]
              exact fun hasks => hasks
        | finished | cancelled | failed =>
          refine h.retop hs rfl rfl rfl rfl rfl ?_ hothers fun hasks => hasks
          simp only [came, hs, hid, and_self, if_true]
          rw [← hid, ← hsame.1]
      · rw [if_neg hid]
        have heq : (fun id' => came s id' (arrivals id') (.event id news)) = arrivals :=
          funext fun id' => by
            simp only [came, hs]
            rw [if_neg fun hboth => hid (hboth.1.trans hboth.2.symm)]
        rw [heq]
        exact h

/-- **What is recorded of the overlays is what the run brought.** -/
theorem Recorded.step (h : Recorded s arrivals texts) (step : SearchStep) :
    Recorded (s.step T step) (fun id => came s id (arrivals id) step)
      fun id => typedOver s id (texts id) step := by
  cases step with
  | openWorkspace root => exact h.frame rfl rfl rfl
  | setBuffers buffers => exact h.frame rfl rfl rfl
  | openQuickOpen =>
    show Recorded s.openQuickOpen arrivals texts
    unfold Searching.openQuickOpen
    split
    · exact h
    · rename_i root hroot
      have hnone := (h.fresh ⟨s.nextSearchRequest + 1⟩ (Nat.lt_succ_self _)).2
      exact h.push (List.Sublist.refl _) rfl rfl (fun r hr => List.mem_append_left _ hr) rfl rfl
        hnone.symm (fun _ _ => rfl)
        fun _ => ⟨_, List.mem_append_right _ (List.mem_singleton_self _), rfl⟩
  | openWorkspaceSearch =>
    show Recorded s.openWorkspaceSearch arrivals texts
    unfold Searching.openWorkspaceSearch
    split
    · exact h
    · rename_i root hroot
      have hnone := (h.fresh ⟨s.nextSearchRequest + 1⟩ (Nat.lt_succ_self _)).2
      refine h.push (List.Sublist.refl _) rfl rfl (fun r hr => hr) rfl rfl hnone.symm
        (fun _ _ => rfl) ?_
      rintro (hfiles | hquery)
      · cases hfiles
      · exact absurd rfl hquery
  | cover => exact h.frame rfl rfl (by rw [Searching.step, List.reduceOption_cons_of_none])
  | close =>
    have hsub : (s.overlays.tail.reduceOption).Sublist s.overlays.reduceOption :=
      (List.tail_sublist _).filterMap id
    exact ⟨h.apart.sublist (hsub.map _), fun o ho => h.issued o (hsub.subset ho), h.fresh,
      fun o ho => h.same o (hsub.subset ho), fun o ho => h.posted o (hsub.subset ho)⟩
  | char value =>
    exact h.searchQueryChanged (fun o => ⟨rfl, rfl, rfl, OpenSearch.refilter_mode⟩) fun id => rfl
  | backspace =>
    exact h.searchQueryChanged (fun o => ⟨rfl, rfl, rfl, OpenSearch.refilter_mode⟩) fun id => rfl
  | up =>
    refine h.select fun o => ?_
    unfold OpenSearch.moveUp
    split_ifs <;> rfl
  | down =>
    refine h.select fun o => ?_
    unfold OpenSearch.moveDown
    split_ifs <;> rfl
  | event id news => exact h.onSearchEvent
  | preview request startLine text =>
    show Recorded (match s.previews.find? (·.request = request) with
      | none => s
      | some read => s.onPreview request read.path startLine text) arrivals texts
    split
    · exact h
    · unfold Searching.onPreview
      split
      · rename_i o rest hs
        split_ifs
        · exact h.frame rfl rfl (by rw [hs]; rfl)
        · exact h
      · exact h

end Recorded

/-- **What a search shows.** However the matches are split into batches, and whatever is typed,
edited or opened in between, an overlay shows what one sort of all that was kept would give: the
matches in the buffers open when the query was typed, then those of other files that came for its
request, up to the limit. That request is for its query, a row that exists is selected, and the
preview is of the match on it. -/
theorem search_shows (T : CaseTable) (steps : List SearchStep) (o : OpenSearch)
    (ho : some o ∈ (SearchTrace.run T steps).state.overlays) :
    o.arrived = (SearchTrace.run T steps).arrivals o.request ∧
    o.searched = (SearchTrace.run T steps).texts o.request ∧
    (o.found = if o.mode = .text then sortBy OverlayMatch.key (kept T o) else kept T o) ∧
    o.visible = rows T o.mode o.query o.found ∧
    (o.selected < o.visible.length ∨ o.visible = [] ∧ o.selected = 0) ∧
    (o.mode = .files ∨ o.query ≠ [] →
      ∃ r ∈ (SearchTrace.run T steps).state.outbox, r.id = o.request) ∧
    (∀ r ∈ (SearchTrace.run T steps).state.outbox, r.id = o.request →
      r.mode = o.mode ∧ r.root = o.root ∧ (o.mode = .text → r.query = String.ofList o.query)) ∧
    (o.mode = .text → ∀ m, o.selectedMatch = some m →
      o.previewKey = some (Path.ofString m.path, m.line.getD 1)) := by
  have hrun : Coherent T (SearchTrace.run T steps).state ∧ Recorded (SearchTrace.run T steps).state
      (SearchTrace.run T steps).arrivals (SearchTrace.run T steps).texts :=
    List.foldlRecOn (motive := fun w => Coherent T w.state ∧ Recorded w.state w.arrivals w.texts)
      steps (SearchTrace.step T) ⟨coherent_start, .start⟩
      fun _ h step _ => ⟨coherent_step h.1 step, h.2.step step⟩
  obtain ⟨hsound, hpreviewed⟩ := hrun.1.sound o ho
  have hmem : o ∈ (SearchTrace.run T steps).state.overlays.reduceOption :=
    List.reduceOption_mem_iff.mpr ho
  exact ⟨(hrun.2.same o hmem).1, (hrun.2.same o hmem).2, hsound.shows.found, hsound.shows.visible,
    hsound.shows.selected, hrun.2.posted o hmem, hsound.asked, hpreviewed⟩

/-- A query with one buffer open. A match in its file and a late one of another request are not
shown. -/
def typedQuery : List SearchStep :=
  [.openWorkspace [.rootDir], .setBuffers [(some "/a", [])], .openWorkspaceSearch, .char 'x',
    .event ⟨2⟩ (.batch [⟨"/b", some 9, some 1, none⟩, ⟨"/a", some 1, some 1, none⟩]),
    .event ⟨1⟩ (.batch [⟨"/d", some 1, some 1, none⟩]),
    .event ⟨2⟩ (.batch [⟨"/b", some 3, some 1, none⟩]), .down]

theorem search_shows_typed : ∃ o,
    (SearchTrace.run .dotted typedQuery).state.overlays = [some o] ∧
    o.found.map (fun m => (m.path, m.line)) = [("/b", some 3), ("/b", some 9)] ∧
    (o.selected < o.visible.length ∨ o.visible = [] ∧ o.selected = 0) := by
  have hrun : (SearchTrace.run .dotted typedQuery).state.overlays.map
      (Option.map fun o => o.found.map fun m => (m.path, m.line)) =
        [some [("/b", some 3), ("/b", some 9)]] := by decide +kernel
  obtain ⟨top, hs, htop⟩ := List.map_eq_singleton_iff.mp hrun
  obtain ⟨o, rfl, hfound⟩ := Option.map_eq_some_iff.mp htop
  exact ⟨o, hs, hfound,
    (search_shows .dotted typedQuery o (hs ▸ List.mem_singleton_self _)).2.2.2.2.1⟩

end App

end Termesh
