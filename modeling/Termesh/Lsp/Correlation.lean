import Termesh.Lsp.Translator

/-!
# Correlation of language requests

What one translator has been asked to send, what became of it, and what the server's messages made
of it, over a run in which both sides speak in any order.

* `Turn`, `World.turn`: a request of the model, or any message of the server;
* `Books`: which request every pending entry stands for, and what has been answered;
* **`correlated`**: requests and events correspond one to one, whatever the order.
-/

namespace Termesh

open Tables

namespace Lsp

/-- The request an event answers. -/
def requestIdOf : LspEvent → Option LspRequestId
  | .definition id _ | .hover id _ | .completion id _ | .references id _ | .documentSymbols id _
  | .workspaceSymbols id _ | .rename id _ | .codeActions id _ | .formatting id _ => some id
  | .failed id _ => id
  | _ => none

/-- The call an event is the answer of. -/
def callOf : LspEvent → Option LspCall
  | .definition .. => some .definition
  | .hover .. => some .hover
  | .completion .. => some .completion
  | .references .. => some .references
  | .documentSymbols .. => some .documentSymbols
  | .workspaceSymbols .. => some .workspaceSymbols
  | .rename .. => some .rename
  | .codeActions .. => some .codeActions
  | .formatting .. => some .formatting
  | _ => none

/-- A failure, or an answer of this kind. -/
def Fits (kind : LspCall) (event : LspEvent) : Prop :=
  callOf event = some kind ∨ ∃ id failure, event = .failed id failure

/-- The id of a tracked request. -/
def trackedId : LspRequest → Option LspRequestId
  | .call _ id _ => some id
  | _ => none

/-- What happens to a translator. -/
inductive Turn where
  | outgoing (request : LspRequest)
  | incoming (message : Message)

/-- What went through the encoder, with the messages it became. -/
abbrev Encoded := List (LspRequest × List Message)

/-- The server's messages with the events they became. -/
abbrev Heard := List (Message × List LspEvent)

/-- The translator, and what went in and came out of it. -/
structure World where
  translator : Translator
  /-- What the model asked for, oldest first. -/
  asked : List LspRequest := []
  encoded : Encoded := []
  /-- The messages written since `initialize`. -/
  sent : List Message := []
  heard : Heard := []

/-- The requests a message sets free, with the messages they become. -/
def Translator.released (t : Translator) : Message → Encoded
  | .response id _ =>
    if t.state = .initializing id then
      t.queued.zip ({ t with state := .ready, queued := [] }.flush t.queued).2
    else []
  | _ => []

/-- One turn. -/
def World.turn (j : Json) (w : World) : Turn → World
  | .outgoing request =>
    let (t, messages) := w.translator.outgoing request
    { w with
      translator := t
      asked := w.asked ++ [request]
      encoded := if w.translator.state = .ready then w.encoded ++ [(request, messages)]
        else w.encoded
      sent := w.sent ++ messages }
  | .incoming message =>
    let (t, events, messages) := w.translator.incoming j message
    { w with
      translator := t
      encoded := w.encoded ++ w.translator.released message
      sent := w.sent ++ messages
      heard := w.heard ++ [(message, events)] }

/-- Some turns. -/
def World.run (j : Json) (w : World) (turns : List Turn) : World := turns.foldl (World.turn j) w

/-- The ids of the tracked requests among these. -/
def trackedIds (requests : List LspRequest) : List LspRequestId := requests.filterMap trackedId

/-- The events so far that answer this request. -/
def answersTo (heard : Heard) (id : LspRequestId) : List LspEvent :=
  (heard.flatMap Prod.snd).filter fun event => requestIdOf event = some id

/-- The request was cancelled, and the server was told. -/
def Dropped (encoded : Encoded) (id : LspRequestId) : Prop :=
  ∃ messages, messages ≠ [] ∧ (LspRequest.cancel id, messages) ∈ encoded

/-- An event answers the request that was sent under the wire id of the message it came from. -/
def Owned (encoded : Encoded) (message : Message) (event : LspEvent) (id : LspRequestId) : Prop :=
  ∃ wire kind params, message.answers = some wire ∧
    (LspRequest.call kind id params,
      [Message.request wire (methodOf kind) (paramsJson kind params)]) ∈ encoded ∧ Fits kind event

/-- **Language requests are correlated exactly.** -/
structure Correlated (j : Json) (w : World) : Prop where
  /-- At most one event answers a request. -/
  once : ∀ id, (answersTo w.heard id).length ≤ 1
  /-- An event carries the id of the request it answers, and is a failure or of its kind. -/
  own : ∀ pair ∈ w.heard, ∀ event ∈ pair.2, ∀ id, requestIdOf event = some id →
    Owned w.encoded pair.1 event id
  /-- Until the handshake is over, nothing of what was asked is sent. -/
  held : w.translator.state ≠ .ready → w.translator.queued = w.asked ∧ w.encoded = [] ∧
    ∀ message ∈ w.sent, message.answers.isSome
  /-- When it is over, what was asked is sent in order, right behind `initialized`. -/
  opened : ∀ id result, w.translator.state = .initializing id →
    let w' := w.turn j (.incoming (.response id result))
    w'.sent = w.sent ++ .notification "initialized" (.object []) :: w'.encoded.flatMap Prod.snd ∧
      w'.encoded.map Prod.fst = w.asked
  /-- From then on every request has been sent exactly once, in order. -/
  emitted : w.translator.state = .ready →
    w.translator.queued = [] ∧ w.encoded.map Prod.fst = w.asked
  inverse : ∀ id wire, w.translator.externalToWire.lookup id = some wire ↔
    ∃ kind, w.translator.pending.lookup wire = some ⟨some id, kind⟩
  cancelled : ∀ wire ∈ w.translator.cancelled, wire ∈ w.translator.pending

/-- Which request every pending entry stands for, and what has been answered. -/
structure Books (t : Translator) (encoded : Encoded) (heard : Heard) : Prop where
  waits : ∀ wire id kind, t.pending.lookup wire = some ⟨some id, kind⟩ →
    ∃ call params, kind = pendingKind call params ∧
      (LspRequest.call call id params,
        [Message.request wire (methodOf call) (paramsJson call params)]) ∈ encoded
  inverse : ∀ id wire, t.externalToWire.lookup id = some wire ↔
    ∃ kind, t.pending.lookup wire = some ⟨some id, kind⟩
  bound : ∀ wire ∈ t.pending, wire ≤ t.ids
  cancelled : ∀ wire ∈ t.cancelled, wire ∈ t.pending
  dropped : ∀ id, Dropped encoded id → id ∈ trackedIds (encoded.map Prod.fst) ∧
    ∀ wire, t.externalToWire.lookup id = some wire → wire ∈ t.cancelled
  own : ∀ pair ∈ heard, ∀ event ∈ pair.2, ∀ id, requestIdOf event = some id →
    Owned encoded pair.1 event id ∧ t.externalToWire.lookup id = none
  once : ∀ id, (answersTo heard id).length ≤ 1

theorem trackedIds_append (rs rs' : List LspRequest) :
    trackedIds (rs ++ rs') = trackedIds rs ++ trackedIds rs' := List.filterMap_append

theorem mem_trackedIds {encoded : Encoded} {kind : LspCall} {id : LspRequestId} {params : LspParams}
    {messages : List Message} (h : (LspRequest.call kind id params, messages) ∈ encoded) :
    id ∈ trackedIds (encoded.map Prod.fst) :=
  List.mem_filterMap.2 ⟨_, List.mem_map_of_mem h, rfl⟩

variable {t t' : Translator} {encoded : Encoded} {heard : Heard}

theorem Books.tracked (h : Books t encoded heard) {id : LspRequestId} {wire : ℕ}
    (hw : t.externalToWire.lookup id = some wire) : id ∈ trackedIds (encoded.map Prod.fst) := by
  obtain ⟨kind, hk⟩ := (h.inverse id wire).1 hw
  obtain ⟨call, params, _, hm⟩ := h.waits wire id kind hk
  exact mem_trackedIds hm

theorem Owned.mono {encoded' : Encoded} {message : Message} {event : LspEvent} {id : LspRequestId}
    (h : Owned encoded message event id) (hsub : encoded ⊆ encoded') :
    Owned encoded' message event id := by
  obtain ⟨wire, kind, params, ha, hm, hf⟩ := h
  exact ⟨wire, kind, params, ha, hsub hm, hf⟩

/-- The tables stay, and something is sent that is no call; a cancellation is only for a request
that is no longer known. -/
theorem Books.plain (h : Books t encoded heard) (hp : t'.pending = t.pending)
    (he : t'.externalToWire = t.externalToWire) (hc : t'.cancelled = t.cancelled)
    (hn : t'.ids = t.ids) {request : LspRequest} {messages : List Message}
    (hr : ∀ id, request = .cancel id → messages = []) :
    Books t' (encoded ++ [(request, messages)]) heard := by
  have hsub : encoded ⊆ encoded ++ [(request, messages)] := List.subset_append_left _ _
  refine ⟨?_, ?_, ?_, ?_, ?_, ?_, h.once⟩
  · rw [hp]
    intro wire id kind hw
    obtain ⟨call, params, hk, hm⟩ := h.waits wire id kind hw
    exact ⟨call, params, hk, hsub hm⟩
  · rw [hp, he]
    exact h.inverse
  · rw [hp, hn]
    exact h.bound
  · rw [hp, hc]
    exact h.cancelled
  · rw [he, hc]
    rintro id ⟨ms, hne, hm⟩
    rcases List.mem_append.1 hm with hm | hm
    · have hd := h.dropped id ⟨ms, hne, hm⟩
      refine ⟨?_, hd.2⟩
      rw [List.map_append, trackedIds_append]
      exact List.mem_append_left _ hd.1
    · cases List.mem_singleton.1 hm
      exact absurd (hr id rfl) hne
  · rw [he]
    intro pair hpair event hev id hid
    have ho := h.own pair hpair event hev id hid
    exact ⟨ho.1.mono hsub, ho.2⟩

theorem Books.call (h : Books t encoded heard) (kind : LspCall) (id : LspRequestId)
    (params : LspParams) (hnew : id ∉ trackedIds (encoded.map Prod.fst))
    (hquiet : answersTo heard id = []) :
    let sent := t.trackedRequest id (pendingKind kind params) (methodOf kind)
      (paramsJson kind params)
    Books sent.1 (encoded ++ [(.call kind id params, [sent.2])]) heard := by
  intro sent
  have hsub : encoded ⊆ encoded ++ [(.call kind id params, [sent.2])] :=
    List.subset_append_left _ _
  have hfresh : t.ids + 1 ∉ t.pending := fun hm => absurd (h.bound _ hm) (by omega)
  have hne : ∀ wire, t.externalToWire.lookup id ≠ some wire := fun wire hw =>
    hnew (h.tracked hw)
  refine ⟨?_, ?_, ?_, ?_, ?_, ?_, h.once⟩
  · intro wire id' kind' hw
    by_cases hwire : wire = t.ids + 1
    · subst hwire
      have : some (⟨some id, pendingKind kind params⟩ : Pending) = some ⟨some id', kind'⟩ :=
        (AList.lookup_insert t.pending).symm.trans hw
      cases this
      exact ⟨kind, params, rfl, List.mem_append_right _ (List.mem_singleton.2 rfl)⟩
    · have hw : t.pending.lookup wire = some ⟨some id', kind'⟩ :=
        (AList.lookup_insert_ne hwire).symm.trans hw
      obtain ⟨call, ps, hk, hm⟩ := h.waits wire id' kind' hw
      exact ⟨call, ps, hk, hsub hm⟩
  · intro id' wire
    show (t.externalToWire.insert id (t.ids + 1)).lookup id' = some wire ↔
      ∃ k, (t.pending.insert (t.ids + 1) ⟨some id, pendingKind kind params⟩).lookup wire =
        some ⟨some id', k⟩
    by_cases hid : id' = id
    · subst hid
      rw [AList.lookup_insert]
      by_cases hwire : wire = t.ids + 1
      · subst hwire
        rw [AList.lookup_insert]
        simp
      · rw [AList.lookup_insert_ne hwire]
        refine ⟨fun he => absurd (Option.some.inj he).symm hwire, fun hk => ?_⟩
        exact absurd ((h.inverse id' wire).2 hk) (hne wire)
    · rw [AList.lookup_insert_ne hid]
      by_cases hwire : wire = t.ids + 1
      · subst hwire
        rw [AList.lookup_insert]
        refine ⟨fun he => ?_, fun ⟨k, hk⟩ => ?_⟩
        · obtain ⟨k, hk⟩ := (h.inverse id' _).1 he
          exact absurd (Table.mem_of_lookup hk) hfresh
        · cases hk
          exact absurd rfl hid
      · rw [AList.lookup_insert_ne hwire]
        exact h.inverse id' wire
  · intro wire hm
    show wire ≤ t.ids + 1
    rcases (AList.mem_insert t.pending).1 hm with hw | hw
    · exact hw.le
    · exact Nat.le_succ_of_le (h.bound wire hw)
  · intro wire hm
    exact (AList.mem_insert t.pending).2 (.inr (h.cancelled wire hm))
  · rintro id' ⟨ms, hms, hm⟩
    rcases List.mem_append.1 hm with hm | hm
    · have hd := h.dropped id' ⟨ms, hms, hm⟩
      have hid : id' ≠ id := fun he => hnew (he ▸ hd.1)
      refine ⟨?_, fun wire hw => hd.2 wire ((AList.lookup_insert_ne hid).symm.trans hw)⟩
      rw [List.map_append, trackedIds_append]
      exact List.mem_append_left _ hd.1
    · cases List.mem_singleton.1 hm
  · intro pair hpair event hev id' hid'
    have ho := h.own pair hpair event hev id' hid'
    have hid : id' ≠ id := by
      rintro rfl
      have : event ∈ answersTo heard id' :=
        List.mem_filter.2 ⟨List.mem_flatMap.2 ⟨pair, hpair, hev⟩, by simpa using hid'⟩
      rw [hquiet] at this
      cases this
    exact ⟨ho.1.mono hsub, (AList.lookup_insert_ne hid).trans ho.2⟩

theorem Books.quiet (h : Books t encoded heard) {id : LspRequestId}
    (hnew : id ∉ trackedIds (encoded.map Prod.fst)) : answersTo heard id = [] := by
  rw [List.eq_nil_iff_forall_not_mem]
  intro event hev
  obtain ⟨hm, hid⟩ := List.mem_filter.1 hev
  obtain ⟨pair, hpair, hin⟩ := List.mem_flatMap.1 hm
  obtain ⟨wire, kind, params, _, hsent, _⟩ := (h.own pair hpair event hin id (by simpa using hid)).1
  exact hnew (mem_trackedIds hsent)

theorem Books.cancel (h : Books t encoded heard) {id : LspRequestId} {wire : ℕ}
    (hw : t.externalToWire.lookup id = some wire) (messages : List Message) :
    Books { t with cancelled := insert wire t.cancelled }
      (encoded ++ [(.cancel id, messages)]) heard := by
  have hsub : encoded ⊆ encoded ++ [(.cancel id, messages)] := List.subset_append_left _ _
  refine ⟨?_, h.inverse, h.bound, ?_, ?_, ?_, h.once⟩
  · intro wire' id' kind hp
    obtain ⟨call, params, hk, hm⟩ := h.waits wire' id' kind hp
    exact ⟨call, params, hk, hsub hm⟩
  · intro wire' hm
    rcases Finset.mem_insert.1 hm with rfl | hm
    · obtain ⟨kind, hk⟩ := (h.inverse id wire').1 hw
      exact Table.mem_of_lookup hk
    · exact h.cancelled wire' hm
  · rintro id' ⟨ms, hms, hm⟩
    rw [List.map_append, trackedIds_append]
    rcases List.mem_append.1 hm with hm | hm
    · have hd := h.dropped id' ⟨ms, hms, hm⟩
      exact ⟨List.mem_append_left _ hd.1, fun wire' hw' =>
        Finset.mem_insert_of_mem (hd.2 wire' hw')⟩
    · cases List.mem_singleton.1 hm
      refine ⟨List.mem_append_left _ (h.tracked hw), fun wire' hw' => ?_⟩
      have : wire' = wire := Option.some.inj (hw'.symm.trans hw)
      rw [this]
      exact Finset.mem_insert_self wire t.cancelled
  · intro pair hpair event hev id' hid'
    have ho := h.own pair hpair event hev id' hid'
    exact ⟨ho.1.mono hsub, ho.2⟩

theorem Books.shutdown (h : Books t encoded heard) (messages : List Message) :
    Books { t with ids := t.ids + 1, pending := t.pending.insert (t.ids + 1) ⟨none, .shutdown⟩ }
      (encoded ++ [(.shutdown, messages)]) heard := by
  have hplain : Books t (encoded ++ [(.shutdown, messages)]) heard :=
    h.plain rfl rfl rfl rfl (by intro id hid; cases hid)
  have hfresh : t.ids + 1 ∉ t.pending := fun hm => absurd (h.bound _ hm) (by omega)
  have hlookup : ∀ wire id kind,
      (t.pending.insert (t.ids + 1) ⟨none, .shutdown⟩).lookup wire = some ⟨some id, kind⟩ ↔
        t.pending.lookup wire = some ⟨some id, kind⟩ := by
    intro wire id kind
    by_cases hwire : wire = t.ids + 1
    · subst hwire
      rw [AList.lookup_insert]
      refine ⟨nofun, fun he => ?_⟩
      exact absurd (Table.mem_of_lookup he) hfresh
    · rw [AList.lookup_insert_ne hwire]
  refine ⟨?_, ?_, ?_, ?_, hplain.dropped, hplain.own, hplain.once⟩
  · intro wire id kind hw
    exact hplain.waits wire id kind ((hlookup wire id kind).1 hw)
  · intro id wire
    rw [hplain.inverse id wire]
    exact exists_congr fun kind => (hlookup wire id kind).symm
  · intro wire hm
    show wire ≤ t.ids + 1
    rcases (AList.mem_insert t.pending).1 hm with hw | hw
    · exact hw.le
    · exact Nat.le_succ_of_le (h.bound wire hw)
  · intro wire hm
    exact (AList.mem_insert t.pending).2 (.inr (h.cancelled wire hm))

/-! ## Sending and absorbing -/

/-- **Sending keeps the books.** -/
theorem books_outgoing (h : Books t encoded heard) (hready : t.state = .ready)
    (request : LspRequest)
    (hd : (trackedIds (encoded.map Prod.fst ++ [request])).Nodup) :
    Books (t.outgoing request).1 (encoded ++ [(request, (t.outgoing request).2)]) heard ∧
      (t.outgoing request).1.state = .ready ∧ (t.outgoing request).1.queued = t.queued := by
  unfold Translator.outgoing
  rw [if_neg (by simp [hready])]
  cases request with
  | call kind id params =>
    have hnew : id ∉ trackedIds (encoded.map Prod.fst) := by
      rw [trackedIds_append] at hd
      exact fun hm => (List.nodup_append.1 hd).2.2 id hm id (by simp [trackedIds, trackedId]) rfl
    exact ⟨h.call kind id params hnew (h.quiet hnew), hready, rfl⟩
  | cancel id =>
    cases hw : t.externalToWire.lookup id with
    | none =>
      simp only [Translator.encodeRequest, hw]
      exact ⟨h.plain rfl rfl rfl rfl fun _ _ => rfl, hready, trivial⟩
    | some wire =>
      simp only [Translator.encodeRequest, hw]
      exact ⟨h.cancel hw _, hready, trivial⟩
  | shutdown => exact ⟨h.shutdown _, hready, rfl⟩
  | _ => exact ⟨h.plain rfl rfl rfl rfl (fun _ hc => nomatch hc), hready, rfl⟩

theorem books_flush (h : Books t encoded heard) (hready : t.state = .ready)
    (requests : List LspRequest)
    (hd : (trackedIds (encoded.map Prod.fst ++ requests)).Nodup) :
    Books (t.flush requests).1 (encoded ++ requests.zip (t.flush requests).2) heard ∧
      (t.flush requests).1.state = .ready ∧ (t.flush requests).1.queued = t.queued ∧
        (t.flush requests).2.length = requests.length := by
  induction requests generalizing t encoded with
  | nil => simpa [Translator.flush] using ⟨h, hready⟩
  | cons request requests ih =>
    have hsplit : encoded.map Prod.fst ++ request :: requests =
        (encoded.map Prod.fst ++ [request]) ++ requests := by simp
    rw [hsplit] at hd
    have hone := books_outgoing h hready request
      ((trackedIds_append _ requests ▸ hd).sublist (List.sublist_append_left _ _))
    have hrest := ih hone.1 hone.2.1 (by simpa using hd)
    have hzip : encoded ++ (request :: requests).zip (t.flush (request :: requests)).2 =
        (encoded ++ [(request, (t.outgoing request).2)]) ++
          requests.zip ((t.outgoing request).1.flush requests).2 := by
      simp [Translator.flush]
    rw [hzip]
    refine ⟨hrest.1, hrest.2.1, hrest.2.2.1.trans hone.2.2, ?_⟩
    show (((t.outgoing request).1.flush requests).2).length + 1 = requests.length + 1
    rw [hrest.2.2.2]

/-- An answer becomes at most one event, which carries the id of the request and fits its kind. -/
theorem events_answered (t : Translator) (pending : Pending) (id : ℕ)
    (answer : Except (Int × String) Value) :
    (t.answered pending id answer).2 = [] ∨ ∃ external event,
      id ∉ t.cancelled ∧ pending.externalId = some external ∧
        (t.answered pending id answer).2 = [event] ∧ requestIdOf event = some external ∧
          ∀ call params, pending.kind = pendingKind call params → Fits call event := by
  unfold Translator.answered
  by_cases hc : id ∈ t.cancelled
  · exact .inl (by rw [if_pos hc])
  · rw [if_neg hc]
    cases he : pending.externalId with
    | none => exact .inl rfl
    | some external =>
      cases answer with
      | error failure =>
        exact .inr ⟨external, _, hc, rfl, rfl, rfl, fun _ _ _ => .inr ⟨_, _, rfl⟩⟩
      | ok result =>
        dsimp only
        cases hk : pending.kind with
        | shutdown => exact .inl rfl
        | _ =>
          refine .inr ⟨external, _, hc, rfl, rfl, rfl, fun call params hcall => .inl ?_⟩
          cases call <;> first | rfl | cases hcall

theorem tables_answered (t : Translator) (pending : Pending) (id : ℕ)
    (answer : Except (Int × String) Value) :
    (t.answered pending id answer).1.pending = t.pending.erase id ∧
      (t.answered pending id answer).1.externalToWire =
        (match pending.externalId with
          | some external => t.externalToWire.erase external
          | none => t.externalToWire) ∧
      (t.answered pending id answer).1.cancelled = t.cancelled.erase id ∧
      (t.answered pending id answer).1.ids = t.ids ∧
      (t.answered pending id answer).1.state = t.state ∧
      (t.answered pending id answer).1.queued = t.queued := by
  unfold Translator.answered
  dsimp only
  by_cases hc : id ∈ t.cancelled
  · rw [if_pos hc]
    exact ⟨rfl, rfl, rfl, rfl, rfl, rfl⟩
  · rw [if_neg hc]
    cases he : pending.externalId with
    | none => exact ⟨rfl, rfl, rfl, rfl, rfl, rfl⟩
    | some external =>
      cases answer <;> exact ⟨rfl, rfl, rfl, rfl, rfl, rfl⟩

theorem Books.erase (h : Books t encoded heard) {pending : Pending} {id : ℕ}
    (hl : t.pending.lookup id = some pending) (hp : t'.pending = t.pending.erase id)
    (he : t'.externalToWire = match pending.externalId with
      | some external => t.externalToWire.erase external
      | none => t.externalToWire)
    (hc : t'.cancelled = t.cancelled.erase id) (hn : t'.ids = t.ids) :
    Books t' encoded heard ∧ ∀ external, pending.externalId = some external →
      t'.externalToWire.lookup external = none := by
  have hgone : ∀ external, pending.externalId = some external →
      t'.externalToWire.lookup external = none := by
    intro external hx
    rw [he, hx]
    exact AList.lookup_erase external t.externalToWire
  have hsub : ∀ x wire, t'.externalToWire.lookup x = some wire →
      t.externalToWire.lookup x = some wire ∧ wire ≠ id := by
    intro x wire hw
    cases hx : pending.externalId with
    | none =>
      rw [he, hx] at hw
      refine ⟨hw, ?_⟩
      rintro rfl
      obtain ⟨kind, hk⟩ := (h.inverse x wire).1 hw
      rw [hl] at hk
      cases hk
      cases hx
    | some external =>
      have hne : x ≠ external := by
        rintro rfl
        rw [hgone x hx] at hw
        cases hw
      rw [he, hx] at hw
      dsimp only at hw
      rw [AList.lookup_erase_ne hne] at hw
      refine ⟨hw, ?_⟩
      rintro rfl
      obtain ⟨kind, hk⟩ := (h.inverse x wire).1 hw
      rw [hl] at hk
      cases hk
      exact hne (Option.some.inj hx)
  refine ⟨⟨?_, ?_, ?_, ?_, ?_, ?_, h.once⟩, hgone⟩
  · intro wire x kind hw
    rw [hp] at hw
    by_cases hwire : wire = id
    · rw [hwire, AList.lookup_erase] at hw
      cases hw
    · rw [AList.lookup_erase_ne hwire] at hw
      exact h.waits wire x kind hw
  · intro x wire
    rw [hp]
    constructor
    · intro hw
      obtain ⟨hw, hne⟩ := hsub x wire hw
      rw [AList.lookup_erase_ne hne]
      exact (h.inverse x wire).1 hw
    · rintro ⟨kind, hk⟩
      by_cases hwire : wire = id
      · rw [hwire, AList.lookup_erase] at hk
        cases hk
      · rw [AList.lookup_erase_ne hwire] at hk
        have hw := (h.inverse x wire).2 ⟨kind, hk⟩
        rw [he]
        cases hx : pending.externalId with
        | none => exact hw
        | some external =>
          have hne : x ≠ external := by
            rintro rfl
            obtain ⟨p, kind'⟩ := pending
            cases hx
            have := (h.inverse x id).2 ⟨kind', hl⟩
            rw [hw] at this
            exact hwire (Option.some.inj this)
          exact (AList.lookup_erase_ne hne).trans hw
  · rw [hp, hn]
    exact fun wire hm => h.bound wire (AList.mem_erase.1 hm).2
  · rw [hp, hc]
    intro wire hm
    obtain ⟨hne, hm⟩ := Finset.mem_erase.1 hm
    exact AList.mem_erase.2 ⟨hne, h.cancelled wire hm⟩
  · intro x hx
    have hd := h.dropped x hx
    refine ⟨hd.1, fun wire hw => ?_⟩
    obtain ⟨hw, hne⟩ := hsub x wire hw
    rw [hc]
    exact Finset.mem_erase.2 ⟨hne, hd.2 wire hw⟩
  · intro pair hpair event hev x hx
    have ho := h.own pair hpair event hev x hx
    refine ⟨ho.1, ?_⟩
    cases hw : t'.externalToWire.lookup x with
    | none => rfl
    | some wire =>
      rw [(hsub x wire hw).1] at ho
      cases ho.2

theorem answersTo_append (heard : Heard) (message : Message) (events : List LspEvent)
    (id : LspRequestId) :
    answersTo (heard ++ [(message, events)]) id =
      answersTo heard id ++ events.filter fun event => requestIdOf event = some id := by
  simp [answersTo]

theorem Books.hear (h : Books t encoded heard) (message : Message) {events : List LspEvent}
    (he : ∀ event ∈ events, requestIdOf event = none) :
    Books t encoded (heard ++ [(message, events)]) := by
  refine { h with own := ?_, once := ?_ }
  · intro pair hpair event hev id hid
    rcases List.mem_append.1 hpair with hpair | hpair
    · exact h.own pair hpair event hev id hid
    · rw [List.mem_singleton.1 hpair] at hev
      rw [he event hev] at hid
      cases hid
  · intro id
    rw [answersTo_append, List.filter_eq_nil_iff.2 fun event hev => by simp [he event hev],
      List.append_nil]
    exact h.once id

/-- **Absorbing an answer keeps the books**: it is dropped when its request was cancelled, and it is
the only one its request gets. -/
theorem books_answered (h : Books t encoded heard) {pending : Pending} {id : ℕ}
    (hl : t.pending.lookup id = some pending) (answer : Except (Int × String) Value)
    {message : Message} (hm : message.answers = some id) :
    Books (t.answered pending id answer).1 encoded
        (heard ++ [(message, (t.answered pending id answer).2)]) ∧
      ∀ external, Dropped encoded external → ∀ event ∈ (t.answered pending id answer).2,
        requestIdOf event ≠ some external := by
  obtain ⟨hp, he, hc, hn, -, -⟩ := tables_answered t pending id answer
  obtain ⟨hbooks, hgone⟩ := h.erase hl hp he hc hn
  rcases events_answered t pending id answer with hnil | ⟨external, event, hcan, hx, hone, hid, hfits⟩
  · rw [hnil]
    exact ⟨hbooks.hear message (by simp), by simp⟩
  · rw [hone]
    obtain ⟨x, kind⟩ := pending
    cases hx
    have hknown : t.externalToWire.lookup external = some id :=
      (h.inverse external id).2 ⟨kind, hl⟩
    have hfirst : answersTo heard external = [] := by
      rw [List.eq_nil_iff_forall_not_mem]
      intro other hother
      obtain ⟨hin, ho⟩ := List.mem_filter.1 hother
      obtain ⟨pair, hpair, hev⟩ := List.mem_flatMap.1 hin
      have := (h.own pair hpair other hev external (by simpa using ho)).2
      rw [hknown] at this
      cases this
    refine ⟨{ hbooks with own := ?_, once := ?_ }, ?_⟩
    · intro pair hpair other hev x hxid
      rcases List.mem_append.1 hpair with hpair | hpair
      · exact hbooks.own pair hpair other hev x hxid
      · rw [List.mem_singleton.1 hpair] at hev ⊢
        rw [List.mem_singleton.1 hev] at hxid ⊢
        rw [hid] at hxid
        cases hxid
        obtain ⟨call, params, hk, hsent⟩ := h.waits id external kind hl
        exact ⟨⟨id, call, params, hm, hsent, hfits call params hk⟩, hgone external rfl⟩
    · intro x
      rw [answersTo_append]
      by_cases hxe : x = external
      · rw [hxe, hfirst]
        simp [hid]
      · rw [List.filter_eq_nil_iff.2 fun other ho => ?_, List.append_nil]
        · exact h.once x
        · rw [List.mem_singleton.1 ho, hid]
          simpa using fun hex => hxe hex.symm
    · intro other hdrop ev hev hevid
      rw [List.mem_singleton.1 hev, hid] at hevid
      cases hevid
      exact hcan ((h.dropped external hdrop).2 id hknown)

/-! ## Runs -/

/-- The tables, and what was sent and asked, stay; the events answer no request. -/
structure Aside (t : Translator) (absorbed : Translator.Absorbed) : Prop where
  pending : absorbed.1.pending = t.pending
  external : absorbed.1.externalToWire = t.externalToWire
  cancelled : absorbed.1.cancelled = t.cancelled
  ids : absorbed.1.ids = t.ids
  queued : absorbed.1.queued = t.queued
  ready : absorbed.1.state = .ready ↔ t.state = .ready
  events : ∀ event ∈ absorbed.2.1, requestIdOf event = none
  messages : ∀ message ∈ absorbed.2.2, message.answers.isSome

theorem requestIdOf_diagnostics (params : Value) :
    ∀ event ∈ (parseDiagnostics params).toList, requestIdOf event = none := by
  intro event hev
  simp only [parseDiagnostics, Option.mem_toList, Option.bind_eq_some_iff,
    Option.map_eq_some_iff] at hev
  obtain ⟨path, _, items, _, rfl⟩ := hev
  rfl

theorem requestIdOf_progress {params : Value} {event : LspEvent}
    (h : parseProgress params = some event) : requestIdOf event = none := by
  simp only [parseProgress, Option.map_eq_some_iff] at h
  obtain ⟨value, _, rfl⟩ := h
  rfl

theorem aside_notification (j : Json) (t : Translator) (method : String) (params : Value) :
    Aside t (t.incoming j (.notification method params)) := by
  unfold Translator.incoming Translator.notificationEvents
  dsimp only
  split
  · exact ⟨rfl, rfl, rfl, rfl, rfl, Iff.rfl, requestIdOf_diagnostics params, by simp⟩
  · unfold Translator.progressEvents
    cases hp : parseProgress params with
    | none => exact ⟨rfl, rfl, rfl, rfl, rfl, Iff.rfl, by simp, by simp⟩
    | some indexing =>
      have hi := requestIdOf_progress hp
      cases ht : progressToken j params with
      | none => exact ⟨rfl, rfl, rfl, rfl, rfl, Iff.rfl, by simpa using hi, by simp⟩
      | some token =>
        dsimp only
        split_ifs with hend hlast
        · exact ⟨rfl, rfl, rfl, rfl, rfl, Iff.rfl, by simp [requestIdOf], by simp⟩
        · exact ⟨rfl, rfl, rfl, rfl, rfl, Iff.rfl, by simp, by simp⟩
        · exact ⟨rfl, rfl, rfl, rfl, rfl, Iff.rfl, by simpa using hi, by simp⟩
  · refine ⟨rfl, rfl, rfl, rfl, rfl, Iff.rfl, ?_, by simp⟩
    intro event hev
    rw [List.mem_singleton.1 hev]
    unfold parseJdtLanguageStatus
    split <;> rfl
  · exact ⟨rfl, rfl, rfl, rfl, rfl, Iff.rfl, by simp, by simp⟩

theorem answers_answerClientRequest (id : ℕ) (method : String) (params : Value) :
    (answerClientRequest id method params).answers = some id := by
  unfold answerClientRequest
  split <;> rfl

theorem response_cases (t : Translator) (id : ℕ) (answer : Except (Int × String) Value) :
    (t.state = .initializing id ∧ ∃ result, answer = .ok result) ∨
    (∃ pending, t.state ≠ .initializing id ∧ t.pending.lookup id = some pending ∧
      t.response id answer =
        ((t.answered pending id answer).1, (t.answered pending id answer).2, [])) ∨
    (¬(t.state = .initializing id ∧ ∃ result, answer = .ok result) ∧
      Aside t (t.response id answer)) := by
  unfold Translator.response
  by_cases hs : t.state = .initializing id
  · cases answer with
    | ok result => exact .inl ⟨hs, result, rfl⟩
    | error failure =>
      rw [if_pos hs]
      refine .inr (.inr ⟨by simp, ?_⟩)
      exact ⟨rfl, rfl, rfl, rfl, rfl, by simp [hs], by simp [requestIdOf], by simp⟩
  · rw [if_neg hs]
    cases hl : t.pending.lookup id with
    | some pending => exact .inr (.inl ⟨pending, hs, rfl, rfl⟩)
    | none =>
      refine .inr (.inr ⟨fun h => hs h.1, ?_⟩)
      exact ⟨rfl, rfl, rfl, rfl, rfl, Iff.rfl, by simp, by simp⟩

/-- What a message of the server can lead to: the requests that waited are sent, a pending request
is answered, or the tables stay. -/
theorem incoming_cases (j : Json) (t : Translator) (message : Message) :
    (∃ id result, message = .response id result ∧ t.state = .initializing id) ∨
    (∃ id pending answer, message.answers = some id ∧ t.state ≠ .initializing id ∧
      t.pending.lookup id = some pending ∧ t.incoming j message =
        ((t.answered pending id answer).1, (t.answered pending id answer).2, [])) ∨
    (t.released message = [] ∧ Aside t (t.incoming j message)) := by
  cases message with
  | request id method params =>
    refine .inr (.inr ⟨rfl, rfl, rfl, rfl, rfl, rfl, Iff.rfl, by simp [Translator.incoming], ?_⟩)
    intro out hout
    rw [List.mem_singleton.1 hout, answers_answerClientRequest]
    rfl
  | notification method params => exact .inr (.inr ⟨rfl, aside_notification j t method params⟩)
  | response id result =>
    rcases response_cases t id (.ok result) with h | ⟨pending, hs, hl, he⟩ | ⟨hs, ha⟩
    · exact .inl ⟨id, result, rfl, h.1⟩
    · exact .inr (.inl ⟨id, pending, _, rfl, hs, hl, he⟩)
    · refine .inr (.inr ⟨?_, ha⟩)
      exact if_neg fun h => hs ⟨h, result, rfl⟩
  | error id code message =>
    rcases response_cases t id (.error (code, message)) with h | ⟨pending, hs, hl, he⟩ | ⟨hs, ha⟩
    · exact nomatch h.2.choose_spec
    · exact .inr (.inl ⟨id, pending, _, rfl, hs, hl, he⟩)
    · exact .inr (.inr ⟨rfl, ha⟩)

/-- What holds between a translator and what has gone through it. -/
structure Inv (w : World) : Prop where
  books : Books w.translator w.encoded w.heard
  held : w.translator.state ≠ .ready → w.translator.queued = w.asked ∧ w.encoded = [] ∧
    ∀ message ∈ w.sent, message.answers.isSome
  emitted : w.translator.state = .ready →
    w.translator.queued = [] ∧ w.encoded.map Prod.fst = w.asked

theorem Books.of_aside (h : Books t encoded heard) {absorbed : Translator.Absorbed}
    (ha : Aside t absorbed) (message : Message) :
    Books absorbed.1 encoded (heard ++ [(message, absorbed.2.1)]) := by
  have hbooks : Books absorbed.1 encoded heard := by
    refine ⟨?_, ?_, ?_, ?_, ?_, ?_, h.once⟩
    · rw [ha.pending]
      exact h.waits
    · rw [ha.pending, ha.external]
      exact h.inverse
    · rw [ha.pending, ha.ids]
      exact h.bound
    · rw [ha.pending, ha.cancelled]
      exact h.cancelled
    · rw [ha.external, ha.cancelled]
      exact h.dropped
    · rw [ha.external]
      exact h.own
  exact hbooks.hear message ha.events

/-- The handshake ends: what waited is sent, right behind `initialized`. -/
theorem opened {j : Json} {w : World} (h : Inv w) {id : ℕ} (result : Value)
    (hs : w.translator.state = .initializing id) (hd : (trackedIds w.asked).Nodup) :
    let w' := w.turn j (.incoming (.response id result))
    Inv w' ∧ w'.heard = w.heard ++ [(.response id result, [.ready])] ∧
      w'.sent = w.sent ++ .notification "initialized" (.object []) :: w'.encoded.flatMap Prod.snd ∧
        w'.encoded.map Prod.fst = w.asked := by
  intro w'
  have hne : w.translator.state ≠ .ready := by simp [hs]
  obtain ⟨hq, henc, -⟩ := h.held hne
  have hbooks : Books { w.translator with state := .ready, queued := [] } [] w.heard := by
    have := h.books
    rw [henc] at this
    exact { this with }
  obtain ⟨hflush, hready, hqueued, hlen⟩ := books_flush hbooks rfl w.asked (by simpa using hd)
  have henc' : w'.encoded = w.asked.zip
      ({ w.translator with state := .ready, queued := [] }.flush w.asked).2 := by
    show w.encoded ++ w.translator.released (.response id result) = _
    rw [henc, List.nil_append, Translator.released, if_pos hs, hq]
  have ht : w'.translator =
      ({ w.translator with state := .ready, queued := [] }.flush w.asked).1 := by
    show (w.translator.incoming j (.response id result)).1 = _
    simp only [Translator.incoming, Translator.response, if_pos hs, hq]
  have hheard : w'.heard = w.heard ++ [(.response id result, [.ready])] := by
    show w.heard ++ [(_, (w.translator.incoming j (.response id result)).2.1)] = _
    simp only [Translator.incoming, Translator.response, if_pos hs]
  have hsent : w'.sent = w.sent ++ .notification "initialized" (.object []) ::
      ({ w.translator with state := .ready, queued := [] }.flush w.asked).2.flatten := by
    show w.sent ++ (w.translator.incoming j (.response id result)).2.2 = _
    simp only [Translator.incoming, Translator.response, if_pos hs, hq]
  have hmap : w'.encoded.map Prod.fst = w.asked := by
    rw [henc']
    exact List.map_fst_zip hlen.ge
  refine ⟨⟨?_, ?_, ?_⟩, hheard, ?_, hmap⟩
  · rw [ht, henc', hheard]
    exact hflush.hear _ (by simp [requestIdOf])
  · intro hn
    rw [ht] at hn
    exact absurd hready hn
  · intro _
    rw [ht]
    exact ⟨hqueued, hmap⟩
  · rw [hsent, henc', List.flatMap_def, List.map_snd_zip hlen.le]

/-- **Every turn keeps the books**, and a cancelled request hears nothing more. -/
theorem turn_inv (j : Json) {w : World} (h : Inv w) (turn : Turn)
    (hd : (trackedIds (w.turn j turn).asked).Nodup) :
    Inv (w.turn j turn) ∧ w.encoded ⊆ (w.turn j turn).encoded ∧
      ∃ new, (w.turn j turn).heard = w.heard ++ new ∧ ∀ id, Dropped w.encoded id →
        ∀ pair ∈ new, ∀ event ∈ pair.2, requestIdOf event ≠ some id := by
  cases turn with
  | outgoing request =>
    by_cases hr : w.translator.state = .ready
    · obtain ⟨hq, hmap⟩ := h.emitted hr
      have henc : (w.turn j (.outgoing request)).encoded =
          w.encoded ++ [(request, (w.translator.outgoing request).2)] := if_pos hr
      have hd' : (trackedIds (w.encoded.map Prod.fst ++ [request])).Nodup := hmap ▸ hd
      obtain ⟨hbooks, hready, hqueued⟩ := books_outgoing h.books hr request hd'
      refine ⟨⟨?_, fun hn => absurd hready hn, fun _ => ⟨hqueued.trans hq, ?_⟩⟩, ?_, [], ?_⟩
      · rw [henc]
        exact hbooks
      · rw [henc, List.map_append, hmap]
        rfl
      · rw [henc]
        exact List.subset_append_left _ _
      · exact ⟨(List.append_nil _).symm, by simp⟩
    · obtain ⟨hq, henc, hsent⟩ := h.held hr
      have ht : w.translator.outgoing request =
          ({ w.translator with queued := w.translator.queued ++ [request] }, []) := if_pos hr
      have hturn : w.turn j (.outgoing request) =
          { w with
            translator := { w.translator with queued := w.translator.queued ++ [request] }
            asked := w.asked ++ [request] } := by
        simp only [World.turn, ht, if_neg hr, List.append_nil]
      rw [hturn]
      refine ⟨⟨{ h.books with }, fun _ => ⟨by rw [hq], henc, hsent⟩, fun hn => absurd hn hr⟩,
        List.Subset.refl _, [], (List.append_nil _).symm, by simp⟩
  | incoming message =>
    rcases incoming_cases j w.translator message with
      ⟨id, result, rfl, hs⟩ | ⟨id, pending, answer, hm, hs, hl, he⟩ | ⟨hrel, ha⟩
    · obtain ⟨hinv, hheard, -, -⟩ := opened (j := j) h result hs hd
      refine ⟨hinv, List.subset_append_left _ _, _, hheard, ?_⟩
      intro id' _ pair hpair event hev
      rw [List.mem_singleton.1 hpair] at hev
      rw [List.mem_singleton.1 hev]
      simp [requestIdOf]
    · obtain ⟨hbooks, hquiet⟩ := books_answered h.books hl answer hm
      obtain ⟨-, -, -, -, hstate, hqueued⟩ := tables_answered w.translator pending id answer
      have hrel : w.translator.released message = [] := by
        cases message with
        | response id' result =>
          cases hm
          exact if_neg hs
        | _ => rfl
      have hturn : w.turn j (.incoming message) =
          { w with
            translator := (w.translator.answered pending id answer).1
            heard := w.heard ++ [(message, (w.translator.answered pending id answer).2)] } := by
        simp only [World.turn, he, hrel, List.append_nil]
      rw [hturn]
      refine ⟨⟨hbooks, fun hn => ?_, fun hr => ?_⟩, List.Subset.refl _, _, rfl, ?_⟩
      · have := h.held (hstate ▸ hn)
        exact ⟨hqueued.trans this.1, this.2⟩
      · have := h.emitted (hstate ▸ hr)
        exact ⟨hqueued.trans this.1, this.2⟩
      · intro id' hdrop pair hpair event hev
        rw [List.mem_singleton.1 hpair] at hev
        exact hquiet id' hdrop event hev
    · have hturn : (w.turn j (.incoming message)).encoded = w.encoded := by
        show w.encoded ++ w.translator.released message = w.encoded
        rw [hrel, List.append_nil]
      refine ⟨⟨?_, fun hn => ?_, fun hr => ?_⟩, ?_, _, rfl, ?_⟩
      · rw [hturn]
        exact h.books.of_aside ha message
      · obtain ⟨hq, henc, hsent⟩ := h.held fun hr => hn (ha.ready.2 hr)
        refine ⟨ha.queued.trans hq, hturn.trans henc, fun out hout => ?_⟩
        rcases List.mem_append.1 hout with hout | hout
        · exact hsent out hout
        · exact ha.messages out hout
      · obtain ⟨hq, hmap⟩ := h.emitted (ha.ready.1 hr)
        rw [hturn]
        exact ⟨ha.queued.trans hq, hmap⟩
      · rw [hturn]
        exact List.Subset.refl _
      · intro id' _ pair hpair event hev
        rw [List.mem_singleton.1 hpair] at hev
        rw [ha.events event hev]
        simp

theorem asked_turn (j : Json) (w : World) (turn : Turn) :
    w.asked <+: (w.turn j turn).asked := by
  cases turn with
  | outgoing request => exact List.prefix_append _ _
  | incoming message => exact List.prefix_refl _

theorem asked_run (j : Json) (w : World) (turns : List Turn) :
    w.asked <+: (w.run j turns).asked := by
  induction turns generalizing w with
  | nil => exact List.prefix_refl _
  | cons turn turns ih => exact (asked_turn j w turn).trans (ih (w.turn j turn))

theorem nodup_of_prefix {rs rs' : List LspRequest} (h : rs <+: rs')
    (hd : (trackedIds rs').Nodup) : (trackedIds rs).Nodup :=
  hd.sublist (h.sublist.filterMap trackedId)

theorem run_inv (j : Json) {w : World} (h : Inv w) (turns : List Turn)
    (hd : (trackedIds (w.run j turns).asked).Nodup) :
    Inv (w.run j turns) ∧ ∃ new, (w.run j turns).heard = w.heard ++ new ∧
      ∀ id, Dropped w.encoded id → ∀ pair ∈ new, ∀ event ∈ pair.2, requestIdOf event ≠ some id := by
  induction turns generalizing w with
  | nil => exact ⟨h, [], (List.append_nil _).symm, by simp⟩
  | cons turn turns ih =>
    have hd' := nodup_of_prefix (asked_run j (w.turn j turn) turns) hd
    obtain ⟨hturn, hsub, new, hnew, hquiet⟩ := turn_inv j h turn hd'
    obtain ⟨hrun, later, hlater, hlaterQuiet⟩ := ih hturn hd
    refine ⟨hrun, new ++ later, ?_, ?_⟩
    · show ((w.turn j turn).run j turns).heard = w.heard ++ (new ++ later)
      rw [hlater, hnew, List.append_assoc]
    · rintro id hdrop pair hpair
      rcases List.mem_append.1 hpair with hpair | hpair
      · exact hquiet id hdrop pair hpair
      · obtain ⟨messages, hne, hm⟩ := hdrop
        exact hlaterQuiet id ⟨messages, hne, hsub hm⟩ pair hpair

theorem correlated_of_inv {j : Json} {w : World} (h : Inv w) (hd : (trackedIds w.asked).Nodup) :
    Correlated j w where
  once := h.books.once
  own pair hpair event hev id hid := (h.books.own pair hpair event hev id hid).1
  held := h.held
  opened _ result hs := (opened h result hs hd).2.2
  emitted := h.emitted
  inverse := h.books.inverse
  cancelled := h.books.cancelled

theorem inv_start {j : Json} {root : Path} {options : Option String} {t : Translator}
    {message : Message} (h : ({} : Translator).initializeWith j root options = .ok (t, message)) :
    Inv { translator := t } := by
  unfold Translator.initializeWith at h
  split at h
  · cases h
  · cases h
    refine ⟨⟨?_, ?_, ?_, ?_, ?_, ?_, ?_⟩, ?_, ?_⟩
    · intro wire id kind hw
      cases hw
    · intro id wire
      exact ⟨nofun, fun ⟨_, hk⟩ => nomatch hk⟩
    · intro wire hm
      cases hm
    · intro wire hm
      cases hm
    · rintro id ⟨messages, _, hm⟩
      cases hm
    · intro pair hpair
      cases hpair
    · exact fun _ => Nat.zero_le 1
    · exact fun _ => ⟨rfl, rfl, by simp⟩
    · exact nofun

/-- No options are parsed and no fraction is written below. -/
def bareJson : Json := ⟨fun _ => .error "EOF while parsing a value", fun _ => "0.5"⟩

/-- A definition is asked for before the handshake is over, a hover behind it; the hover is
cancelled, and the server answers both, the hover twice. -/
def crossing : List Turn :=
  [.outgoing (.call .definition ⟨7⟩ (.at [.rootDir, .normal "a.rs"] ⟨0, 3⟩)),
    .incoming (.response 1 .null),
    .outgoing (.call .hover ⟨8⟩ (.at [.rootDir, .normal "a.rs"] ⟨0, 3⟩)),
    .outgoing (.cancel ⟨8⟩),
    .incoming (.response 3 .null),
    .incoming (.response 2 (.array [])),
    .incoming (.response 3 .null)]

end Lsp

end Termesh
