import Termesh.Workspace.Session

/-!
# Session files of a newer build

A document of a newer build is one of a session of this build, with keys that this build does not
know at any level and with a later version. Reading it, recording a workspace and writing it again
keeps those keys where the records carry them.

* `Session.Shown`: what a document of a session holds, whatever else it holds;
* `Carried`: every key not known, with its value, at its place;
* **`newer_survives_iff`**: the documents that survive.
-/

namespace Termesh

namespace Workspace

open Toml (Fields Unknown TextFormat)

/-! ## The documents -/

/-- A table holds what this build writes of a line. -/
structure AgentHistoryLine.Shown (line : AgentHistoryLine) (t : Fields) : Prop where
  speaker : t.get "speaker" = some (.string line.speaker.name)
  text : t.get "text" = some (.string line.text)

structure PaneGeometry.Shown (g : PaneGeometry) (t : Fields) : Prop where
  sidebarPct : t.get "sidebar_pct" = some (.integer g.sidebarPct.toNat)
  bottomPct : t.get "bottom_pct" = some (.integer g.bottomPct.toNat)
  agentPct : t.get "agent_pct" = some (.integer g.agentPct.toNat)

structure RestoredWorkspace.Shown (w : RestoredWorkspace) (t : Fields) : Prop where
  root : t.get "root" = some (.string w.root)
  open_ : t.get "open" = some (strings w.open_)
  active : t.get "active" = w.active.map .string
  layout : ∃ l, t.get "layout" = some (.table l) ∧ w.layout.Shown l
  terminals : t.get "terminals" = some (strings w.terminals)
  agentHistory : ∃ items, t.get "agent_history" = some (.array items) ∧
    List.Forall₂ (fun line item => ∃ l, item = .table l ∧ line.Shown l) w.agentHistory items

/-- A document holds what this build writes of a session, but for a version that may be later. -/
structure Session.Shown (s : Session) (doc : Fields) : Prop where
  version : ∃ n : ℤ, doc.get "version" = some (.integer n) ∧ Session.currentVersion.toNat ≤ n
  recent : doc.get "recent" = some (strings s.recent)
  workspace : (s.workspace = none ∧ doc.get "workspace" = none) ∨
    ∃ w t, s.workspace = some w ∧ doc.get "workspace" = some (.table t) ∧ w.Shown t

def PaneGeometry.forget (g : PaneGeometry) : PaneGeometry := { g with unknown := .none }

def RestoredWorkspace.forget (w : RestoredWorkspace) : RestoredWorkspace :=
  { w with layout := w.layout.forget, unknown := .none }

/-- A session without the keys it does not know. -/
def Session.forget (s : Session) : Session :=
  { s with workspace := s.workspace.map (·.forget), unknown := .none }

/-- Every key that is not known, with its value. -/
def CarriedBesides (known : List String) (t u : Fields) : Prop :=
  ∀ key ∉ known, ∀ v, t.get key = some v → ∃ v', u.get key = some v' ∧ Toml.Value.Same v v'

/-- A key that holds a table in one document holds a table in the other one. -/
def CarriedAt (key : String) (t u : Fields) (p : Fields → Fields → Prop) : Prop :=
  ∀ inner, t.get key = some (.table inner) →
    ∃ inner', u.get key = some (.table inner') ∧ p inner inner'

/-- The elements of one list of tables, one by one. -/
def CarriedLines (t u : Fields) : Prop :=
  ∀ items, t.get "agent_history" = some (.array items) →
    ∃ items', u.get "agent_history" = some (.array items') ∧
      List.Forall₂ (fun x y => ∀ l, x = .table l →
        ∃ l', y = .table l' ∧ CarriedBesides lineKeys l l') items items'

/-- Every key that is not known, with its value, at its place: in the document, in the workspace, in
its layout, and in each line of the agent's history. -/
def Carried (doc u : Fields) : Prop :=
  CarriedBesides sessionKeys doc u ∧ CarriedAt "workspace" doc u fun t t' =>
    CarriedBesides workspaceKeys t t' ∧ CarriedAt "layout" t t' (CarriedBesides layoutKeys) ∧
      CarriedLines t t'

/-- The session read from a text and then saved, after a workspace was recorded if one was. -/
def resaved (f : TextFormat) (text : String) (opened : Option String) : Session :=
  match opened with
  | none => (Session.parse f text).1
  | some root => (Session.parse f text).1.record root

/-- A text of a document survives: what this build knows of it is read as it stands, and what is
saved holds every key that is not known. -/
structure Survives (f : TextFormat) (s : Session) (doc : Fields) (text : String)
    (opened : Option String) : Prop where
  version : doc.get "version" = some (.integer (Session.parse f text).1.version.toNat)
  known : { (Session.parse f text).1.forget with version := s.version } = s.forget
  carried : ∃ u, f.parse ((resaved f text opened).save f) = some u ∧ Carried doc u

/-- A version that this build can hold, and no other key in a line of the agent's history. -/
def Understood (doc : Fields) : Prop :=
  (∀ n, doc.get "version" = some (.integer n) → n < 2 ^ 32) ∧
    ∀ (t l : Fields) (items : List Toml.Value), doc.get "workspace" = some (.table t) →
      t.get "agent_history" = some (.array items) → .table l ∈ items →
      ∀ key ∉ lineKeys, l.get key = none

/-! ## Reading such a document -/

theorem asU16_toNat (n : UInt16) : asU16 (.integer n.toNat) = some n := by
  have hn := n.toNat_lt
  rw [asU16, if_pos ⟨by omega, by omega⟩, Int.toNat_natCast, UInt16.ofNat_toNat]

theorem asU32_of_lt {n : ℤ} (hn : 0 ≤ n) (hlt : n < 2 ^ 32) :
    ∃ v : UInt32, asU32 (.integer n) = some v ∧ (v.toNat : ℤ) = n := by
  refine ⟨UInt32.ofNat n.toNat, if_pos ⟨hn, hlt⟩, ?_⟩
  rw [UInt32.toNat_ofNat_of_lt' (by simp [UInt32.size]; omega)]
  omega

theorem asVec_strings (l : List String) : asVec asString (strings l) = some l := by
  induction l with
  | nil => rfl
  | cons s l ih =>
    have ih : (l.map Toml.Value.string).mapM asString = some l := ih
    show (Toml.Value.string s :: l.map .string).mapM asString = some (s :: l)
    rw [List.mapM_cons, ih]
    rfl

theorem fieldOr_some {α : Type} {t : Fields} {key : String} {v : Toml.Value} {default : α}
    {read : Toml.Value → Option α} (h : t.get key = some v) : fieldOr t key default read = read v := by
  rw [fieldOr, h]

theorem fieldOr_none {α : Type} {t : Fields} {key : String} {default : α}
    {read : Toml.Value → Option α} (h : t.get key = none) :
    fieldOr t key default read = some default := by
  rw [fieldOr, h]

theorem AgentHistoryLine.deserialize_shown {line : AgentHistoryLine} {t : Fields}
    (h : line.Shown t) : deserialize (.table t) = some line := by
  rw [deserialize, h.speaker, h.text]
  obtain ⟨speaker, text⟩ := line
  cases speaker <;> rfl

theorem PaneGeometry.deserialize_shown {g : PaneGeometry} {t : Fields} (h : g.Shown t) :
    deserialize (.table t) = some { g with unknown := .rest layoutKeys t } := by
  rw [deserialize, fieldOr_some h.sidebarPct, fieldOr_some h.bottomPct, fieldOr_some h.agentPct,
    asU16_toNat, asU16_toNat, asU16_toNat]
  rfl

theorem mapM_lines {lines : List AgentHistoryLine} {items : List Toml.Value}
    (h : List.Forall₂ (fun line item => ∃ l, item = .table l ∧ line.Shown l) lines items) :
    items.mapM AgentHistoryLine.deserialize = some lines := by
  induction h with
  | nil => rfl
  | cons hline _ ih =>
    obtain ⟨l, rfl, hl⟩ := hline
    rw [List.mapM_cons, AgentHistoryLine.deserialize_shown hl, ih]
    rfl

/-- A workspace, with the keys of its table and of its layout's that are not known. -/
def RestoredWorkspace.reread (w : RestoredWorkspace) (t l : Fields) : RestoredWorkspace :=
  { w with
    layout := { w.layout with unknown := .rest layoutKeys l }
    unknown := .rest workspaceKeys t }

/-- **A workspace is read as it was**, with the keys of its tables that are not known. -/
theorem RestoredWorkspace.deserialize_shown {w : RestoredWorkspace} {t : Fields} (h : w.Shown t) :
    ∃ l, t.get "layout" = some (.table l) ∧ deserialize (.table t) = some (w.reread t l) := by
  obtain ⟨l, hl, hlayout⟩ := h.layout
  obtain ⟨items, hitems, hlines⟩ := h.agentHistory
  refine ⟨l, hl, ?_⟩
  have hactive : fieldOr t "active" default.active (fun v => (asString v).map some) =
      some w.active := by
    cases hw : w.active with
    | none => exact fieldOr_none (by rw [h.active, hw]; rfl)
    | some path => exact fieldOr_some (v := .string path) (by rw [h.active, hw]; rfl)
  rw [deserialize, fieldOr_some h.root, fieldOr_some h.open_, hactive, fieldOr_some hl,
    fieldOr_some h.terminals, fieldOr_some hitems, asVec_strings, asVec_strings,
    PaneGeometry.deserialize_shown hlayout, asVec, mapM_lines hlines]
  rfl

/-- A session read from a document of another session. -/
structure Session.Read (s : Session) (doc : Fields) (t : Session) : Prop where
  version : doc.get "version" = some (.integer t.version.toNat)
  current : ¬ t.version < currentVersion
  recent : t.recent = s.recent
  unknown : t.unknown = .rest sessionKeys doc
  workspace : (s.workspace = none ∧ doc.get "workspace" = none ∧ t.workspace = none) ∨
    ∃ (w : RestoredWorkspace) (tw l : Fields), s.workspace = some w ∧
      doc.get "workspace" = some (.table tw) ∧ w.Shown tw ∧ tw.get "layout" = some (.table l) ∧
      t.workspace = some (w.reread tw l)

/-- **A session is read as it was**, with the keys that are not known. -/
theorem Session.deserialize_shown {s : Session} {doc : Fields} (h : s.Shown doc)
    (hv : ∀ n, doc.get "version" = some (.integer n) → n < 2 ^ 32) :
    ∃ t, deserialize doc = some t ∧ s.Read doc t := by
  obtain ⟨n, hn, hcurrent⟩ := h.version
  obtain ⟨v, hv, hvn⟩ := asU32_of_lt (by omega) (hv n hn)
  have hversion : doc.get "version" = some (.integer v.toNat) := by rw [hvn, hn]
  have hnotlt : ¬ v < currentVersion := by
    rw [UInt32.lt_iff_toNat_lt]
    omega
  rcases h.workspace with ⟨hs, hdoc⟩ | ⟨w, tw, hs, hdoc, hshown⟩
  · refine ⟨{ version := v, recent := s.recent, workspace := none, unknown := .rest sessionKeys doc },
      ?_, hversion, hnotlt, rfl, rfl, .inl ⟨hs, hdoc, rfl⟩⟩
    rw [deserialize, fieldOr_some hn, hv, fieldOr_some h.recent, asVec_strings, fieldOr_none hdoc]
    rfl
  · obtain ⟨l, hl, hw⟩ := RestoredWorkspace.deserialize_shown hshown
    refine ⟨{ version := v, recent := s.recent, workspace := _, unknown := .rest sessionKeys doc },
      ?_, hversion, hnotlt, rfl, rfl, .inr ⟨w, tw, l, hs, hdoc, hshown, hl, rfl⟩⟩
    rw [deserialize, fieldOr_some hn, hv, fieldOr_some h.recent, asVec_strings, fieldOr_some hdoc,
      hw]
    rfl

/-- A session that was read is what was written, but for its version and the keys not known. -/
theorem Session.Read.forget {s t : Session} {doc : Fields} (h : s.Read doc t) :
    { t.forget with version := s.version } = s.forget := by
  rcases h.workspace with ⟨hs, -, ht⟩ | ⟨w, tw, l, hs, -, -, -, ht⟩ <;>
    simp [Session.forget, RestoredWorkspace.forget, RestoredWorkspace.reread, PaneGeometry.forget,
      hs, ht, h.recent]

/-! ## Writing what was read -/

theorem carriedBesides_of_same {known : List String} {t a u : Fields}
    (ha : ∀ key ∉ known, a.get key = t.get key) (h : Toml.Value.Same (.table a) (.table u)) :
    CarriedBesides known t u := by
  intro key hkey v hv
  exact h.get_some ((ha key hkey).trans hv)

theorem carriedLines_iff {lines : List AgentHistoryLine} {items items' : List Toml.Value}
    (h : List.Forall₂ (fun line item => ∃ l, item = .table l ∧ line.Shown l) lines items)
    (h' : List.Forall₂ Toml.Value.Same (lines.map (·.serialize)) items') :
    List.Forall₂ (fun x y => ∀ l, x = .table l →
        ∃ l', y = .table l' ∧ CarriedBesides lineKeys l l') items items' ↔
      ∀ l : Fields, .table l ∈ items → ∀ key ∉ lineKeys, l.get key = none := by
  induction h generalizing items' with
  | nil =>
    cases h'
    simp
  | @cons line item lines items hline _ ih =>
    obtain ⟨l, rfl, -⟩ := hline
    cases h' with
    | @cons _ y _ items' hy hrest =>
      obtain ⟨u, rfl, hu⟩ := hy.of_table
      have hnone : ∀ key ∉ lineKeys, Fields.get u key = none := by
        intro key hkey
        refine hu.get_none (Fields.get_eq_none fun field hf hk => hkey ?_)
        rw [← hk]
        rcases List.mem_cons.mp hf with rfl | hf
        · exact List.mem_cons_self
        · rw [List.mem_singleton.mp hf]
          exact List.mem_cons_of_mem _ List.mem_cons_self
      rw [List.forall₂_cons, ih hrest]
      constructor
      · rintro ⟨hl, hlines⟩ l' hl' key hkey
        rcases List.mem_cons.mp hl' with heq | hl'
        · obtain rfl := Toml.Value.table.inj heq
          obtain ⟨u', hu', hcarried⟩ := hl _ rfl
          obtain rfl := Toml.Value.table.inj hu'
          cases hv : Fields.get _ key with
          | none => rfl
          | some v =>
            obtain ⟨v', hv', -⟩ := hcarried key hkey v hv
            rw [hnone key hkey] at hv'
            cases hv'
        · exact hlines l' hl' key hkey
      · intro hclean
        refine ⟨?_, fun l' hl' => hclean l' (List.mem_cons_of_mem _ hl')⟩
        rintro l' heq
        obtain rfl := Toml.Value.table.inj heq
        refine ⟨u, rfl, fun key hkey v hv => ?_⟩
        rw [hclean _ List.mem_cons_self key hkey] at hv
        cases hv

theorem PaneGeometry.serialize_carries {g : PaneGeometry} {l : Fields} {v : Toml.Value}
    (hg : g.unknown = .rest layoutKeys l) (h : Toml.Value.Same g.serialize v) :
    ∃ l', v = .table l' ∧ CarriedBesides layoutKeys l l' := by
  obtain ⟨l', rfl, hl⟩ := Toml.Value.Same.of_table h
  refine ⟨l', rfl, carriedBesides_of_same (fun key hkey => ?_) hl⟩
  have hfields : ∀ field ∈ g.fields, field.1 ∈ layoutKeys := by simp [fields, layoutKeys]
  rw [Unknown.get_append_of_notMem hfields _ hkey, hg, Unknown.get_rest l hkey]

/-- **A workspace is written with the keys it was read with**, but for those of the lines. -/
theorem RestoredWorkspace.serialize_carries {w : RestoredWorkspace} {tw l tw' : Fields}
    (hshown : w.Shown tw) (hl : tw.get "layout" = some (.table l))
    (h : Toml.Value.Same (w.reread tw l).serialize (.table tw')) :
    CarriedBesides workspaceKeys tw tw' ∧ CarriedAt "layout" tw tw' (CarriedBesides layoutKeys) ∧
      (CarriedLines tw tw' ↔ ∀ (l : Fields) (items : List Toml.Value),
        tw.get "agent_history" = some (.array items) → .table l ∈ items →
          ∀ key ∉ lineKeys, l.get key = none) := by
  have hactive : (w.reread tw l).active = w.active := rfl
  have hkeys : ∀ field ∈ (w.reread tw l).fields, field.1 ∈ workspaceKeys := by
    cases hw : w.active <;> simp [fields, hactive, hw, workspaceKeys]
  have hknown : ∀ key ∈ workspaceKeys, ∀ v, (w.reread tw l).fields.get key = some v →
      ∃ v', tw'.get key = some v' ∧ Toml.Value.Same v v' := by
    intro key hkey v hv
    exact h.get_some ((Unknown.get_append_of_mem _ _ hkey).trans hv)
  refine ⟨carriedBesides_of_same (fun key hkey => ?_) h, ?_, ?_⟩
  · rw [Unknown.get_append_of_notMem hkeys _ hkey]
    exact Unknown.get_rest tw hkey
  · intro inner hinner
    obtain rfl : l = inner := Toml.Value.table.inj (Option.some.inj (hl.symm.trans hinner))
    obtain ⟨v, hv, hsame⟩ := hknown "layout" (by decide)
      (w.reread tw l).layout.serialize
      (by cases hw : w.active <;> simp [fields, hactive, hw, Fields.get_cons])
    obtain ⟨l', rfl, hl'⟩ := PaneGeometry.serialize_carries rfl hsame
    exact ⟨l', hv, hl'⟩
  · obtain ⟨items, hitems, hlines⟩ := hshown.agentHistory
    obtain ⟨v, hv, hsame⟩ := hknown "agent_history" (by decide)
      (.array (w.agentHistory.map (·.serialize)))
      (by cases hw : w.active <;> simp [fields, reread, hw, Fields.get_cons])
    obtain ⟨items', rfl, hsame'⟩ := hsame.of_array
    have hiff := carriedLines_iff hlines hsame'
    constructor
    · intro hcarried l items₁ hitems₁
      obtain rfl : items = items₁ :=
        Toml.Value.array.inj (Option.some.inj (hitems.symm.trans hitems₁))
      obtain ⟨items₂, hitems₂, hcarried⟩ := hcarried items hitems
      obtain rfl : items' = items₂ :=
        Toml.Value.array.inj (Option.some.inj (hv.symm.trans hitems₂))
      exact hiff.mp hcarried l
    · intro hclean items₁ hitems₁
      obtain rfl : items = items₁ :=
        Toml.Value.array.inj (Option.some.inj (hitems.symm.trans hitems₁))
      exact ⟨items', hv, hiff.mpr fun l hl => hclean l items hitems hl⟩

/-- **A session is written with the keys it was read with**, but for those of the lines. -/
theorem Session.Read.carried_iff {s t t' : Session} {doc u : Fields} (h : s.Read doc t)
    (hworkspace : t'.workspace = t.workspace) (hunknown : t'.unknown = t.unknown)
    (hu : Toml.Value.Same (.table t'.serialize) (.table u)) :
    Carried doc u ↔ ∀ (tw l : Fields) (items : List Toml.Value),
      doc.get "workspace" = some (.table tw) → tw.get "agent_history" = some (.array items) →
        .table l ∈ items → ∀ key ∉ lineKeys, l.get key = none := by
  have hkeys : ∀ field ∈ t'.fields, field.1 ∈ sessionKeys := by
    cases hw : t'.workspace <;> simp [fields, hw, sessionKeys]
  have htop : CarriedBesides sessionKeys doc u := by
    refine carriedBesides_of_same (fun key hkey => ?_) hu
    rw [serialize, Unknown.get_append_of_notMem hkeys _ hkey, hunknown, h.unknown,
      Unknown.get_rest doc hkey]
  rcases h.workspace with ⟨-, hdoc, -⟩ | ⟨w, tw, l, -, hdoc, hshown, hl, hw⟩
  · refine iff_of_true ⟨htop, fun tw htw => ?_⟩ fun tw l items htw => ?_
    · rw [hdoc] at htw
      cases htw
    · rw [hdoc] at htw
      cases htw
  · rw [hw] at hworkspace
    have hfield : t'.serialize.get "workspace" = some (w.reread tw l).serialize := by
      refine (Unknown.get_append_of_mem t'.fields t'.unknown (by decide)).trans ?_
      simp [fields, hworkspace, Fields.get_cons]
    obtain ⟨v, hv, hsame⟩ := hu.get_some hfield
    obtain ⟨tw', rfl, hsame'⟩ := Toml.Value.Same.of_table hsame
    obtain ⟨hbesides, hlayout, hlines⟩ := RestoredWorkspace.serialize_carries hshown hl hsame'
    constructor
    · rintro ⟨-, hcarried⟩ tw₁ l₁ items htw₁ hitems
      obtain ⟨tw₂, htw₂, -, -, hcarried⟩ := hcarried tw₁ htw₁
      obtain rfl : tw = tw₁ := Toml.Value.table.inj (Option.some.inj (hdoc.symm.trans htw₁))
      obtain rfl : tw' = tw₂ := Toml.Value.table.inj (Option.some.inj (hv.symm.trans htw₂))
      exact hlines.mp hcarried l₁ items hitems
    · intro hclean
      refine ⟨htop, fun tw₁ htw₁ => ?_⟩
      obtain rfl : tw = tw₁ := Toml.Value.table.inj (Option.some.inj (hdoc.symm.trans htw₁))
      exact ⟨tw', hv, hbesides, hlayout, hlines.mpr fun l items => hclean tw l items hdoc⟩

/-! ## What survives -/

variable {f : TextFormat} {s : Session} {doc : Fields} {text : String}

theorem Session.parse_eq {t : Session} (hp : f.parse text = some doc)
    (ht : deserialize doc = some t) (hcurrent : ¬ t.version < currentVersion) :
    (parse f text).1 = t := by
  have hbind : (f.parse text).bind deserialize = some t := by
    rw [hp]
    exact ht
  rw [parse, hbind]
  dsimp only
  rw [if_neg hcurrent]

theorem resaved_eq (f : TextFormat) (text : String) (opened : Option String) :
    (resaved f text opened).workspace = (Session.parse f text).1.workspace ∧
      (resaved f text opened).unknown = (Session.parse f text).1.unknown := by
  cases opened <;> exact ⟨rfl, rfl⟩

theorem read_of_shown (hdoc : s.Shown doc) (hp : f.parse text = some doc)
    (hv : ∀ n, doc.get "version" = some (.integer n) → n < 2 ^ 32) :
    s.Read doc (Session.parse f text).1 := by
  obtain ⟨t, ht, hread⟩ := Session.deserialize_shown hdoc hv
  rw [Session.parse_eq hp ht hread.current]
  exact hread

theorem understood_of_survives {opened : Option String} (hdoc : s.Shown doc)
    (hp : f.parse text = some doc) (hf : f.Preserves (resaved f text opened).serialize)
    (h : Survives f s doc text opened) : Understood doc := by
  obtain ⟨hworkspace, hunknown⟩ := resaved_eq f text opened
  have hv : ∀ n, doc.get "version" = some (.integer n) → n < 2 ^ 32 := by
    intro n hn
    have hlt := (Session.parse f text).1.version.toNat_lt
    rw [h.version] at hn
    obtain rfl := Toml.Value.integer.inj (Option.some.inj hn)
    omega
  obtain ⟨u, hparse, hu⟩ := hf
  obtain ⟨u', hparse', hcarried⟩ := h.carried
  obtain rfl : u = u' := Option.some.inj (hparse.symm.trans hparse')
  exact ⟨hv, ((read_of_shown hdoc hp hv).carried_iff hworkspace hunknown hu).mp hcarried⟩

theorem survives_of_understood {opened : Option String} (hdoc : s.Shown doc)
    (hp : f.parse text = some doc) (hf : f.Preserves (resaved f text opened).serialize)
    (h : Understood doc) : Survives f s doc text opened := by
  obtain ⟨hworkspace, hunknown⟩ := resaved_eq f text opened
  obtain ⟨hv, hclean⟩ := h
  obtain ⟨u, hparse, hu⟩ := hf
  have hread := read_of_shown hdoc hp hv
  exact ⟨hread.version, hread.forget, u, hparse,
    (hread.carried_iff hworkspace hunknown hu).mpr hclean⟩

/-- **The documents of a newer build that survive** are those whose version this build can hold, and
whose lines of the agent's history have no key that this build does not know. -/
theorem newer_survives_iff (opened : Option String) (hdoc : s.Shown doc) (hp : f.parse text = some doc)
    (hf : f.Preserves (resaved f text opened).serialize) :
    Survives f s doc text opened ↔ Understood doc :=
  ⟨understood_of_survives hdoc hp hf, survives_of_understood hdoc hp hf⟩

/-- A later version and a key at the top. -/
theorem newer_survives_iff_top :
    let text := "version = 2\nrecent = []\nfuture_layout = \"keep me\"\n"
    let doc : Fields := [("version", .integer 2), ("recent", .array []),
      ("future_layout", .string "keep me")]
    let f : TextFormat :=
      { parse := fun t => if t = text then some doc else none
        error := fun _ => "expected an equals sign", print := fun _ => text }
    Survives f .default doc text none ↔ Understood doc := by
  refine newer_survives_iff none ⟨⟨2, rfl, by decide⟩, rfl, .inl ⟨rfl, rfl⟩⟩ (by simp) ?_
  exact ⟨_, rfl, .refl _⟩

/-- A line of the agent's history with a key that this build does not know. -/
theorem not_survives_line :
    let text := "version = 2\nrecent = []\n\n[workspace]\nroot = \"/proj\"\nopen = []\n" ++
      "terminals = []\n\n[workspace.layout]\nsidebar_pct = 22\nbottom_pct = 32\nagent_pct = 26\n\n" ++
      "[[workspace.agent_history]]\nspeaker = \"agent\"\ntext = \"Prior answer\"\n"
    let line : AgentHistoryLine := { speaker := .agent, text := "Prior answer" }
    let workspace (line : Fields) : Fields := [("root", .string "/proj"), ("open", .array []),
      ("layout", PaneGeometry.default.serialize), ("terminals", .array []),
      ("agent_history", .array [.table line])]
    let doc (line : Fields) : Fields := [("version", .integer 2), ("recent", .array []),
      ("workspace", .table (workspace line))]
    let s : Session := { Session.default with
      workspace := some { RestoredWorkspace.default with root := "/proj", agentHistory := [line] } }
    let newer := line.fields ++ [("model", .string "m")]
    let f : TextFormat :=
      { parse := fun t => if t = text then some (doc line.fields) else some (doc newer)
        error := fun _ => "expected an equals sign", print := fun _ => text }
    s.Shown (doc newer) ∧ f.parse (text ++ "model = \"m\"\n") = some (doc newer) ∧
      f.Preserves (resaved f (text ++ "model = \"m\"\n") none).serialize ∧
      ¬ Survives f s (doc newer) (text ++ "model = \"m\"\n") none := by
  intro text line workspace doc s newer f
  have hshown : s.Shown (doc newer) := by
    refine ⟨⟨2, rfl, by decide⟩, rfl, .inr ⟨_, _, rfl, rfl, ?_⟩⟩
    refine ⟨rfl, rfl, rfl, ⟨_, rfl, rfl, rfl, rfl⟩, rfl, _, rfl, ?_⟩
    exact .cons ⟨newer, rfl, rfl, rfl⟩ .nil
  have hne : text ++ "model = \"m\"\n" ≠ text := by
    intro heq
    have hlen := congrArg String.length heq
    have hmodel : "model = \"m\"\n".length = 12 := rfl
    rw [String.length_append] at hlen
    omega
  have hparse : f.parse (text ++ "model = \"m\"\n") = some (doc newer) := by
    simp only [f, if_neg hne]
  have hread := Session.parse_eq (f := f) hparse rfl (by decide)
  have hsaved : f.Preserves (resaved f (text ++ "model = \"m\"\n") none).serialize := by
    rw [resaved, hread]
    exact ⟨doc line.fields, by simp only [f, if_true], .refl _⟩
  refine ⟨hshown, hparse, hsaved, fun h => ?_⟩
  have hclean := (understood_of_survives hshown hparse hsaved h).2 (workspace newer) newer _ rfl rfl
    List.mem_cons_self "model" (by decide)
  cases hclean

end Workspace

end Termesh
