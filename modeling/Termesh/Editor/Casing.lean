import Mathlib.Data.List.Infix
import Termesh.Editor.Search
import Termesh.Lib.Leftmost

/-!
# Searching without case

A search without case looks at a lowered copy of the text and reports the copy's offsets. They are
offsets of the text as long as lowering is done character by character; it is not where a character
lowers to several, and where the form of a capital sigma depends on its neighbours.

* `CaseTable`, `CaseTable.toLowercase`: `str::to_lowercase`, with its one contextual rule;
* `Reported`: matches as a search should report them; `places_matchIndices`: those it finds;
* `InStep`: nothing in front of the query's places shifts them; `Unmistakable`: a query that is not
  met again inside itself;
* **`reported_iff`**: the matches reported are matches of the text when the query is in step, and for
  an unmistakable one exactly then.
-/

namespace Termesh

open Leftmost

/-! ## Lowering -/

/-- The Unicode data that lowering reads. -/
structure CaseTable where
  toLower : Char → Text
  isUppercase : Char → Bool
  isCased : Char → Bool
  isCaseIgnorable : Char → Bool
  toLower_ne_nil : ∀ c, toLower c ≠ []

namespace CaseTable

variable (T : CaseTable)

/-- The first character that counts is a letter with case. -/
def caseIgnorableThenCased (t : Text) : Bool :=
  match t.dropWhile T.isCaseIgnorable with
  | [] => false
  | c :: _ => T.isCased c

/-- The form of a capital sigma: another one at the end of a word. What stands in front is read
backwards. -/
def mapUppercaseSigma (front behind : Text) : Char :=
  if T.caseIgnorableThenCased front && !T.caseIgnorableThenCased behind then 'ς' else 'σ'

/-- One character, between what stands in front of it and what stands behind it. -/
def lowerOne (front : Text) (c : Char) (behind : Text) : Text :=
  if c = 'Σ' then [T.mapUppercaseSigma front behind] else T.toLower c

/-- A stretch of text, between what stands in front of it and what stands behind it. -/
@[simp] def lowerIn : Text → Text → Text → Text
  | _, [], _ => []
  | front, c :: t, behind =>
    T.lowerOne front c (t ++ behind) ++ lowerIn (c :: front) t behind

/-- `str::to_lowercase`. -/
def toLowercase (t : Text) : Text := T.lowerIn [] t []

/-- The folding a search uses. -/
def folding : Folding := ⟨T.toLowercase, T.isUppercase⟩

end CaseTable

/-! ## The search -/

/-- Matches as a search should report them: stretches of the text, one after the other, that read as
the query. -/
structure Reported (mode : CaseMode) (f : Folding) (text needle : Text) (found : List Match) :
    Prop where
  inside : ∀ m ∈ found, m.1 < m.2 ∧ m.2 ≤ text.length
  apart : found.Pairwise fun a b => a.2 ≤ b.1
  reads : ∀ m ∈ found,
    mode.folded f needle ((text.drop m.1).take (m.2 - m.1)) = mode.folded f needle needle

instance {mode : CaseMode} {f : Folding} {text needle : Text} {found : List Match} :
    Decidable (Reported mode f text needle found) :=
  decidable_of_iff ((∀ m ∈ found, m.1 < m.2 ∧ m.2 ≤ text.length) ∧
      (found.Pairwise fun a b => a.2 ≤ b.1) ∧ ∀ m ∈ found,
        mode.folded f needle ((text.drop m.1).take (m.2 - m.1)) = mode.folded f needle needle)
    ⟨fun ⟨h₁, h₂, h₃⟩ => ⟨h₁, h₂, h₃⟩, fun ⟨h₁, h₂, h₃⟩ => ⟨h₁, h₂, h₃⟩⟩

theorem places_behind {needle whole : Text} (hn : needle ≠ []) (t : Text) {pos : ℕ} (skip : ℕ)
    (ht : whole.drop pos = t) : Places (fun k => needle <+: whole.drop k) needle.length (pos + skip)
      (matchIndices needle t pos skip) := by
  have hlen := List.length_pos_iff.mpr hn
  induction t generalizing pos skip with
  | nil =>
    refine .none fun k hk hp => hn ?_
    rw [List.drop_eq_nil_iff] at ht
    rw [List.drop_eq_nil_of_le (by omega)] at hp
    exact List.prefix_nil.mp hp
  | cons c t ih =>
    have hnext : whole.drop (pos + 1) = t := by rw [← List.tail_drop, ht, List.tail_cons]
    cases skip with
    | succ skip =>
      have hlater := ih skip hnext
      rwa [Nat.add_assoc, Nat.add_comm 1 skip] at hlater
    | zero =>
      rw [matchIndices, ← ht]
      by_cases hp : needle <+: whole.drop pos
      · rw [if_pos (List.isPrefixOf_iff_prefix.mpr hp)]
        refine .take hp ?_
        have hlater := ih (needle.length - 1) hnext
        rwa [show pos + 1 + (needle.length - 1) = pos + 0 + needle.length by omega] at hlater
      · rw [if_neg (mt List.isPrefixOf_iff_prefix.mp hp)]
        exact .skip hp (ih 0 hnext)

/-- **The search finds the places** at which the needle stands, from the left, none in another. -/
theorem places_matchIndices {needle : Text} (hn : needle ≠ []) (whole : Text) :
    Places (fun k => needle <+: whole.drop k) needle.length 0 (matchIndices needle whole 0 0) :=
  places_behind hn whole 0 List.drop_zero

/-! ## Stretches that lower alike -/

namespace CaseTable

variable (T : CaseTable)

theorem lowerOne_ne_nil (front : Text) (c : Char) (behind : Text) :
    T.lowerOne front c behind ≠ [] := by
  rw [lowerOne]
  split_ifs
  · simp
  · exact T.toLower_ne_nil c

theorem toLowercase_ne_nil {t : Text} (h : t ≠ []) : T.toLowercase t ≠ [] := by
  cases t with
  | nil => exact absurd rfl h
  | cons c t =>
    rw [toLowercase, lowerIn]
    exact fun he => T.lowerOne_ne_nil _ _ _ (List.append_eq_nil_iff.mp he).1

theorem lowerIn_append (front s t behind : Text) :
    T.lowerIn front (s ++ t) behind =
      T.lowerIn front s (t ++ behind) ++ T.lowerIn (s.reverse ++ front) t behind := by
  induction s generalizing front with
  | nil => rfl
  | cons c s ih => simp [lowerIn, ih]

/-- The capital sigmas of a stretch have one form, whether it stands alone or in a text. -/
def SameSigmas (front s behind : Text) : Prop :=
  ∀ u w, s = u ++ 'Σ' :: w → T.mapUppercaseSigma (u.reverse ++ front) (w ++ behind) =
    T.mapUppercaseSigma u.reverse w

/-- **A stretch lowers in a text as it does alone** exactly when its capital sigmas do. -/
theorem lowerIn_eq_iff (front s behind : Text) :
    T.lowerIn front s behind = T.toLowercase s ↔ T.SameSigmas front s behind := by
  have hgen : ∀ s v, T.lowerIn (v ++ front) s behind = T.lowerIn v s [] ↔
      ∀ u w, s = u ++ 'Σ' :: w → T.mapUppercaseSigma (u.reverse ++ (v ++ front)) (w ++ behind) =
        T.mapUppercaseSigma (u.reverse ++ v) w := by
    intro s
    induction s with
    | nil => simp [lowerIn]
    | cons c s ih =>
      intro v
      have hlen : (T.lowerOne (v ++ front) c (s ++ behind)).length =
          (T.lowerOne v c (s ++ [])).length := by
        rw [lowerOne, lowerOne]
        split_ifs <;> rfl
      rw [lowerIn, lowerIn, ← List.cons_append]
      constructor
      · intro h u w hs
        obtain ⟨hone, hrest⟩ := List.append_inj h hlen
        cases u with
        | nil =>
          obtain ⟨rfl, rfl⟩ := List.cons.inj hs
          rw [lowerOne, lowerOne, if_pos rfl, if_pos rfl, List.append_nil] at hone
          simpa using (List.cons.inj hone).1
        | cons x u =>
          obtain ⟨rfl, hs'⟩ := List.cons.inj hs
          have := (ih (c :: v)).mp hrest u w hs'
          simpa using this
      · intro h
        have hone : T.lowerOne (v ++ front) c (s ++ behind) = T.lowerOne v c (s ++ []) := by
          rw [lowerOne, lowerOne]
          split_ifs with hc
          · have := h [] s (by rw [hc]; rfl)
            rw [List.append_nil]
            simpa using this
          · rfl
        rw [hone, (ih (c :: v)).mpr]
        intro u w hs
        have := h (c :: u) w (by rw [hs]; rfl)
        simpa using this
  simpa [SameSigmas, toLowercase] using hgen s []

/-- The characters in front of an offset lower to one character each. -/
def Narrow (t : Text) (n : ℕ) : Prop :=
  ∀ c ∈ t.take n, c = 'Σ' ∨ (T.toLower c).length = 1

theorem length_lowerIn {front s behind : Text}
    (h : ∀ c ∈ s, c = 'Σ' ∨ (T.toLower c).length = 1) :
    (T.lowerIn front s behind).length = s.length := by
  induction s generalizing front with
  | nil => rfl
  | cons c s ih =>
    have hone : (T.lowerOne front c (s ++ behind)).length = 1 := by
      rw [lowerOne]
      split_ifs with hc
      · rfl
      · exact (h c List.mem_cons_self).resolve_left hc
    rw [lowerIn, List.length_append, hone, ih fun c hc => h c (List.mem_cons_of_mem _ hc),
      List.length_cons, Nat.add_comm]

/-- Behind characters that lower to one each, the lowered text has the offsets of the text. -/
theorem drop_toLowercase {t : Text} {p n : ℕ} (hn : T.Narrow t (p + n))
    (hlen : p + n ≤ (T.toLowercase t).length) :
    p + n ≤ t.length ∧ ((T.toLowercase t).drop p).take n =
      T.lowerIn (t.take p).reverse ((t.drop p).take n) (t.drop (p + n)) := by
  have hle : p + n ≤ t.length := by
    by_contra hlt
    have hall : t.take (p + n) = t := List.take_of_length_le (by omega)
    have hlow : (T.toLowercase t).length = t.length := T.length_lowerIn (by rwa [Narrow, hall] at hn)
    omega
  have hsplit : t = t.take p ++ ((t.drop p).take n ++ t.drop (p + n)) := by
    rw [← List.drop_drop, List.take_append_drop, List.take_append_drop]
  have hfront : (t.take p).length = p := List.length_take_of_le (by omega)
  have hmid : ((t.drop p).take n).length = n := by
    rw [List.length_take, List.length_drop]
    omega
  have htake : t.take (p + n) = t.take p ++ (t.drop p).take n := List.take_add
  have hlow : T.toLowercase t = T.lowerIn [] (t.take p) ((t.drop p).take n ++ t.drop (p + n)) ++
      (T.lowerIn (t.take p).reverse ((t.drop p).take n) (t.drop (p + n)) ++
        T.lowerIn (((t.drop p).take n).reverse ++ (t.take p).reverse) (t.drop (p + n)) []) := by
    conv_lhs => rw [toLowercase, hsplit]
    rw [lowerIn_append, lowerIn_append]
    simp only [List.append_nil]
  have hfront' : (T.lowerIn [] (t.take p) ((t.drop p).take n ++ t.drop (p + n))).length = p := by
    rw [T.length_lowerIn, hfront]
    exact fun c hc => hn c (by rw [htake]; exact List.mem_append_left _ hc)
  have hmid' :
      (T.lowerIn (t.take p).reverse ((t.drop p).take n) (t.drop (p + n))).length = n := by
    rw [T.length_lowerIn, hmid]
    exact fun c hc => hn c (by rw [htake]; exact List.mem_append_right _ hc)
  refine ⟨hle, ?_⟩
  rw [hlow, List.drop_left' hfront', List.take_left' hmid']

/-- Lowering never takes characters away, and where it adds none every character lowers to one. -/
theorem le_length_lowerIn (front s behind : Text) :
    s.length ≤ (T.lowerIn front s behind).length ∧
      ((T.lowerIn front s behind).length ≤ s.length →
        ∀ c ∈ s, c = 'Σ' ∨ (T.toLower c).length = 1) := by
  induction s generalizing front with
  | nil => simp
  | cons c s ih =>
    obtain ⟨hle, hone⟩ := ih (c :: front)
    have hpos := List.length_pos_iff.mpr (T.lowerOne_ne_nil front c (s ++ behind))
    rw [lowerIn, List.length_append, List.length_cons]
    refine ⟨by omega, fun h => List.forall_mem_cons.mpr ⟨?_, hone (by omega)⟩⟩
    by_cases hc : c = 'Σ'
    · exact .inl hc
    · rw [lowerOne, if_neg hc] at h hpos
      exact .inr (by omega)

theorem sigma_mem_lowerIn {front s behind : Text} (h : 'Σ' ∈ s) :
    'σ' ∈ T.lowerIn front s behind ∨ 'ς' ∈ T.lowerIn front s behind := by
  induction s generalizing front with
  | nil => cases h
  | cons c s ih =>
    rw [lowerIn, List.mem_append, List.mem_append]
    rcases List.mem_cons.mp h with rfl | h
    · rw [lowerOne, if_pos rfl, mapUppercaseSigma]
      split_ifs
      · exact .inr (.inl (by simp))
      · exact .inl (.inl (by simp))
    · exact (ih h).imp .inr .inr

/-! ## The matches reported -/

/-- The lowered query stands in the lowered text behind `k` characters. -/
def ShowsAt (text needle : Text) (k : ℕ) : Prop :=
  T.toLowercase needle <+: (T.toLowercase text).drop k

/-- Nothing shifts the places of a query, taken from the left and none in another: no character in
front of the end of one lowers to several, and the capital sigmas at one do not look beyond it. -/
def InStep (text needle : Text) : Prop :=
  ∀ places, Places (T.ShowsAt text needle) (T.toLowercase needle).length 0 places → ∀ p ∈ places,
    T.Narrow text (p + (T.toLowercase needle).length) ∧
      T.SameSigmas (text.take p).reverse ((text.drop p).take (T.toLowercase needle).length)
        (text.drop (p + (T.toLowercase needle).length))

/-- A query, lowered, that does not begin again inside itself and holds no small sigma. -/
structure Unmistakable (query : Text) : Prop where
  apart : ∀ i, 0 < i → i < query.length → ¬query.drop i <+: query
  sigma : 'σ' ∉ query ∧ 'ς' ∉ query

/-- A stretch of the text that reads as the query. -/
def ReadsAt (text needle : Text) (p : ℕ) : Prop :=
  p + (T.toLowercase needle).length ≤ text.length ∧
    T.toLowercase ((text.drop p).take (T.toLowercase needle).length) = T.toLowercase needle

theorem readsAt_of_narrow {text needle : Text} {p : ℕ} (hempty : needle ≠ [])
    (h : T.ShowsAt text needle p) (hn : T.Narrow text (p + (T.toLowercase needle).length))
    (hsigmas : T.SameSigmas (text.take p).reverse
      ((text.drop p).take (T.toLowercase needle).length)
      (text.drop (p + (T.toLowercase needle).length))) : T.ReadsAt text needle p := by
  have hlen := h.length_le
  have hpos := List.length_pos_iff.mpr (T.toLowercase_ne_nil hempty)
  rw [List.length_drop] at hlen
  obtain ⟨hle, hmid⟩ := T.drop_toLowercase hn (by omega)
  refine ⟨hle, ?_⟩
  rw [← (T.lowerIn_eq_iff _ _ _).mpr hsigmas, ← hmid]
  exact (List.prefix_iff_eq_take.mp h).symm

/-- The stretches of an unmistakable query keep their number of characters and hold no capital
sigma. -/
theorem ReadsAt.narrow {text needle : Text} {p : ℕ} (h : T.ReadsAt text needle p)
    (hq : Unmistakable (T.toLowercase needle)) :
    (∀ c ∈ (text.drop p).take (T.toLowercase needle).length,
        c = 'Σ' ∨ (T.toLower c).length = 1) ∧
      'Σ' ∉ (text.drop p).take (T.toLowercase needle).length := by
  obtain ⟨hle, hreads⟩ := h
  have hlen : ((text.drop p).take (T.toLowercase needle).length).length =
      (T.toLowercase needle).length := by
    rw [List.length_take, List.length_drop]
    omega
  refine ⟨(T.le_length_lowerIn [] _ []).2 ?_, fun hmem => ?_⟩
  · rw [hlen, ← toLowercase, hreads]
  · have hsigma : 'σ' ∈ T.lowerIn [] _ [] ∨ 'ς' ∈ T.lowerIn [] _ [] := T.sigma_mem_lowerIn hmem
    rw [← toLowercase, hreads] at hsigma
    exact hsigma.elim hq.sigma.1 hq.sigma.2

/-- **The last place of an unmistakable query** that reads as it: nothing in front lowers to more
than one character, or the query would stand again, further on. -/
theorem narrow_of_last {text needle : Text} {places : List ℕ} {p : ℕ}
    (hplaces : Places (T.ShowsAt text needle) (T.toLowercase needle).length 0 (places ++ [p]))
    (h : T.ReadsAt text needle p) (hq : Unmistakable (T.toLowercase needle)) :
    T.Narrow text (p + (T.toLowercase needle).length) := by
  obtain ⟨hnarrow, hsigma⟩ := h.narrow T hq
  obtain ⟨hle, hreads⟩ := h
  have hshown := hplaces.holds (List.mem_append_right _ (List.mem_singleton.mpr rfl))
  have hfront : (text.take p).length = p := List.length_take_of_le (by omega)
  obtain ⟨hgrow, hone⟩ := T.le_length_lowerIn [] (text.take p) (text.drop p)
  rw [hfront] at hgrow hone
  -- where the stretch stands in the lowered text
  have hsplit : T.toLowercase text = T.lowerIn [] (text.take p) (text.drop p) ++
      (T.toLowercase needle ++ T.lowerIn (((text.drop p).take
        (T.toLowercase needle).length).reverse ++ (text.take p).reverse)
          ((text.drop p).drop (T.toLowercase needle).length) []) := by
    have hsame : T.lowerIn (text.take p).reverse
        ((text.drop p).take (T.toLowercase needle).length)
        ((text.drop p).drop (T.toLowercase needle).length) = T.toLowercase needle := by
      refine ((T.lowerIn_eq_iff _ _ _).mpr fun u w hu => ?_).trans hreads
      exact absurd (hu ▸ List.mem_append_right u List.mem_cons_self) hsigma
    conv_lhs => rw [toLowercase, ← List.take_append_drop p text, lowerIn_append]
    conv_lhs =>
      rw [← List.take_append_drop (T.toLowercase needle).length (text.drop p), lowerIn_append]
    simp only [List.append_nil, List.take_append_drop]
    rw [hsame]
  have hthere : T.ShowsAt text needle (T.lowerIn [] (text.take p) (text.drop p)).length := by
    rw [ShowsAt, hsplit, List.drop_left]
    exact List.prefix_append _ _
  -- it is the place itself: one behind it would be another, and one inside it begins again
  have hsame : (T.lowerIn [] (text.take p) (text.drop p)).length ≤ p := by
    by_contra hshift
    refine hplaces.none_behind (Nat.le_of_not_lt fun hinside => ?_) hthere
    refine hq.apart ((T.lowerIn [] (text.take p) (text.drop p)).length - p) (by omega) (by omega) ?_
    refine List.prefix_of_prefix_length_le ?_ hthere (by rw [List.length_drop]; omega)
    have hdrop := List.IsPrefix.drop hshown
      ((T.lowerIn [] (text.take p) (text.drop p)).length - p)
    rwa [List.drop_drop, Nat.add_sub_cancel' (by omega)] at hdrop
  rw [Narrow, List.take_add]
  exact List.forall_mem_append.mpr ⟨hone hsame, hnarrow⟩

/-- **The places of an unmistakable query read as it** exactly when it is in step. -/
theorem readsAt_iff_inStep {text needle : Text} (hempty : needle ≠ []) {places : List ℕ}
    (hplaces : Places (T.ShowsAt text needle) (T.toLowercase needle).length 0 places)
    (hq : Unmistakable (T.toLowercase needle)) :
    (∀ p ∈ places, T.ReadsAt text needle p) ↔ T.InStep text needle := by
  constructor
  · intro h places' hplaces'
    obtain rfl := hplaces'.unique hplaces
    rcases List.eq_nil_or_concat' places' with rfl | ⟨front, last, rfl⟩
    · exact fun p hp => absurd hp List.not_mem_nil
    intro p hp
    have hlast := T.narrow_of_last hplaces (h last (by simp)) hq
    have hle : p ≤ last := by
      rcases List.mem_append.mp hp with hp | hp
      · have happart := (List.pairwise_append.mp hplaces.apart).2.2 p hp last (by simp)
        omega
      · exact (List.mem_singleton.mp hp).le
    refine ⟨fun c hc => hlast c ?_, fun u w hu => ?_⟩
    · exact (List.take_prefix_take_left (by omega)).subset hc
    · exact absurd (hu ▸ List.mem_append_right u List.mem_cons_self) ((h p hp).narrow T hq).2
  · intro h p hp
    obtain ⟨hn, hsigmas⟩ := h places hplaces p hp
    exact T.readsAt_of_narrow hempty (hplaces.holds hp) hn hsigmas

/-- What a search without case reports are stretches that read as the query. -/
theorem reported_iff_readsAt {mode : CaseMode} {text needle : Text} (hempty : needle ≠ [])
    (hmode : mode.sensitiveFor T.folding needle ≠ true) :
    Reported mode T.folding text needle (findAllIn mode T.folding text needle) ↔
      ∀ p ∈ matchIndices (T.toLowercase needle) (T.toLowercase text) 0 0,
        T.ReadsAt text needle p := by
  have hlower : mode.folded T.folding needle = T.toLowercase := by
    funext t
    exact if_neg hmode
  have hpos := List.length_pos_iff.mpr (T.toLowercase_ne_nil hempty)
  rw [findAllIn, if_neg hempty]
  constructor
  · rintro ⟨hin, -, hreads⟩ p hp
    have hm := List.mem_map_of_mem (f := fun start =>
      (start, start + (T.toLowercase needle).length)) hp
    rw [hlower] at hin hreads
    have hread := hreads _ hm
    rw [Nat.add_sub_cancel_left] at hread
    exact ⟨(hin _ hm).2, hread⟩
  · intro h
    refine ⟨fun m hm => ?_, ?_, fun m hm => ?_⟩
    · rw [hlower] at hm
      obtain ⟨p, hp, rfl⟩ := List.mem_map.mp hm
      exact ⟨Nat.lt_add_of_pos_right hpos, (h p hp).1⟩
    · rw [hlower]
      exact List.pairwise_map.mpr
        (places_matchIndices (T.toLowercase_ne_nil hempty) _).apart
    · rw [hlower] at hm ⊢
      obtain ⟨p, hp, rfl⟩ := List.mem_map.mp hm
      rw [Nat.add_sub_cancel_left]
      exact (h p hp).2

theorem reported_sensitive {mode : CaseMode} {text needle : Text} (hempty : needle ≠ [])
    (hmode : mode.sensitiveFor T.folding needle = true) :
    Reported mode T.folding text needle (findAllIn mode T.folding text needle) := by
  have hsame : mode.folded T.folding needle = id := by
    funext t
    exact if_pos hmode
  have hplaces := places_matchIndices hempty text
  have hpos := List.length_pos_iff.mpr hempty
  have hshown {p : ℕ} (hp : p ∈ matchIndices needle text 0 0) : needle <+: text.drop p :=
    hplaces.holds hp
  rw [findAllIn, if_neg hempty, hsame]
  refine ⟨fun m hm => ?_, List.pairwise_map.mpr hplaces.apart, fun m hm => ?_⟩
  · obtain ⟨p, hp, rfl⟩ := List.mem_map.mp hm
    have hlen := (hshown hp).length_le
    rw [List.length_drop] at hlen
    exact ⟨Nat.lt_add_of_pos_right hpos, by simp only [id]; omega⟩
  · obtain ⟨p, hp, rfl⟩ := List.mem_map.mp hm
    rw [hsame]
    simp only [id, Nat.add_sub_cancel_left]
    exact (List.prefix_iff_eq_take.mp (hshown hp)).symm

/-- **The matches reported are matches of the text** when the search minds case or the query is in
step; and for an unmistakable query only then. -/
theorem reported_iff (mode : CaseMode) (text needle : Text) :
    (needle = [] ∨ mode.sensitiveFor T.folding needle = true ∨ T.InStep text needle →
      Reported mode T.folding text needle (findAllIn mode T.folding text needle)) ∧
    (Unmistakable (T.toLowercase needle) →
      (Reported mode T.folding text needle (findAllIn mode T.folding text needle) ↔
        needle = [] ∨ mode.sensitiveFor T.folding needle = true ∨ T.InStep text needle)) := by
  by_cases hempty : needle = []
  · have hnone : Reported mode T.folding text needle (findAllIn mode T.folding text needle) := by
      rw [findAllIn, if_pos hempty]
      exact ⟨fun _ h => absurd h List.not_mem_nil, .nil, fun _ h => absurd h List.not_mem_nil⟩
    exact ⟨fun _ => hnone, fun _ => iff_of_true hnone (.inl hempty)⟩
  by_cases hmode : mode.sensitiveFor T.folding needle = true
  · have hall : Reported mode T.folding text needle (findAllIn mode T.folding text needle) :=
      T.reported_sensitive hempty hmode
    exact ⟨fun _ => hall, fun _ => iff_of_true hall (.inr (.inl hmode))⟩
  have hplaces : Places (T.ShowsAt text needle) (T.toLowercase needle).length 0
      (matchIndices (T.toLowercase needle) (T.toLowercase text) 0 0) :=
    places_matchIndices (T.toLowercase_ne_nil hempty) _
  rw [T.reported_iff_readsAt hempty hmode, or_iff_right hempty, or_iff_right hmode]
  refine ⟨fun h p hp => ?_, fun hq => T.readsAt_iff_inStep hempty hplaces hq⟩
  obtain ⟨hn, hsigmas⟩ := h _ hplaces p hp
  exact T.readsAt_of_narrow hempty (hplaces.holds hp) hn hsigmas

/-- The letters of ASCII and a capital I with its dot, which lowers to two characters. -/
def dotted : CaseTable where
  toLower c := if c = 'İ' then ['i', '\u0307'] else [c.toLower]
  isUppercase c := c = 'İ' || c.isUpper
  isCased c := c = 'İ' || c.isAlpha
  isCaseIgnorable c := c = '\u0307'
  toLower_ne_nil c := by split_ifs <;> simp

/-- A query that begins again inside itself may be met, shifted, by chance. -/
example : Reported .smart dotted.folding ['İ', 'a', 'a', 'a'] ['a', 'a']
    (findAllIn .smart dotted.folding ['İ', 'a', 'a', 'a'] ['a', 'a']) := by
  decide

/-- In "İa" the "a" is reported behind the end of the text. -/
theorem not_reported_dotted : ¬∀ (mode : CaseMode) (text needle : Text),
    Reported mode dotted.folding text needle (findAllIn mode dotted.folding text needle) := by
  intro h
  exact absurd (h .smart ['İ', 'a'] ['a']) (by decide)

end CaseTable

end Termesh
