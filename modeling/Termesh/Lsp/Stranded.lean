import Termesh.Lsp.Framing

/-!
# Behind a malformed header

A header block without a length is dropped, and the body it belonged to is read as the start of the
next header. What a compact value leaves in front of a length line hides that line, so one frame
drags the next one down with it.

* `JsonCodec.Compact`: what the JSON crate writes;
* **`reads_stray`**: nothing is read behind stray bytes;
* **`recovers_iff`**: exactly when the frames behind a malformed header are read.
-/

namespace Termesh

namespace Lsp

open Utf8

variable {V : Type} {codec : JsonCodec V}

/-- What the JSON crate writes: one line, and nothing but white space may follow it. -/
structure JsonCodec.Compact (codec : JsonCodec V) : Prop where
  ne_nil : ∀ v, codec.toVec v ≠ []
  oneLine : ∀ v, (13 : UInt8) ∉ codec.toVec v ∧ (10 : UInt8) ∉ codec.toVec v
  closed : ∀ v rest, codec.fromSlice (codec.toVec v ++ 67 :: rest) = none

/-! ## Length lines that are none -/

theorem mem_trim {c : Char} {t : List Char} (hc : isWhitespace c = false) (h : c ∈ t) :
    c ∈ (trim (String.ofList t)).toList := by
  have hdrop : ∀ t : List Char, c ∈ t → c ∈ t.dropWhile isWhitespace := by
    intro t
    induction t with
    | nil => exact id
    | cons d t ih =>
      intro h
      by_cases hd : isWhitespace d = true
      · rw [List.dropWhile_cons_of_pos hd]
        rcases List.mem_cons.mp h with rfl | h
        · rw [hc] at hd
          cases hd
        · exact ih h
      · rw [List.dropWhile_cons_of_neg hd]
        exact h
  rw [trim, String.toList_ofList, String.toList_ofList, List.mem_reverse]
  exact hdrop _ (List.mem_reverse.mpr (hdrop t h))

theorem parseUsize_colon {t : List Char} (h : ':' ∈ t) : parseUsize t = none := by
  have hdigits : ∀ ds : List Char, ':' ∈ ds → (ds.isEmpty || !ds.all Char.isDigit) = true := by
    intro ds hds
    have hall : ds.all Char.isDigit = false := by
      rw [List.all_eq_false]
      exact ⟨':', hds, by decide⟩
    rw [hall]
    simp
  unfold parseUsize
  dsimp only
  split
  · rename_i ds
    rw [if_pos (hdigits ds ((List.mem_cons.mp h).resolve_left (by decide)))]
  · rw [if_pos (hdigits t h)]

theorem lineLength_some {line : List Char} {n : ℕ} (h : lineLength line = some n) :
    ∃ name value, line = name ++ ':' :: value ∧ name.map Char.toLower = lengthName ∧
      ':' ∉ value := by
  obtain ⟨⟨name, value⟩, hsplit, h⟩ := Option.bind_eq_some_iff.mp h
  dsimp only at h
  split_ifs at h with hname
  refine ⟨name, value, ?_, hname, fun hcolon => ?_⟩
  · rw [splitColon] at hsplit
    cases hdrop : line.dropWhile (· != ':') with
    | nil =>
      rw [hdrop] at hsplit
      cases hsplit
    | cons c rest =>
      rw [hdrop] at hsplit
      obtain ⟨rfl, rfl⟩ := Prod.mk.inj (Option.some.inj hsplit)
      have hc : c = ':' := by
        have hhead := List.head?_dropWhile_not (· != ':') line
        rw [hdrop] at hhead
        simpa using hhead
      rw [hc] at hdrop
      rw [← hdrop, List.takeWhile_append_dropWhile]
  · rw [parseUsize_colon (mem_trim (by decide) hcolon)] at h
    cases h

theorem toNat_lt_of_lengthName {name : List Char} (h : name.map Char.toLower = lengthName) :
    (∀ c ∈ name, c.toNat < 128) ∧ name.length = 14 := by
  constructor
  · intro c hc
    have hlower : c.toLower ∈ lengthName := h ▸ List.mem_map_of_mem hc
    have hall : lengthName.all (fun d => decide (d.toNat < 128)) = true := rfl
    have hplain : ∀ d ∈ lengthName, d.toNat < 128 := fun d hd =>
      of_decide_eq_true (List.all_eq_true.mp hall d hd)
    unfold Char.toLower at hlower
    split_ifs at hlower with hupper
    · have hz : c.val.toNat ≤ 'Z'.val.toNat := hupper.2
      exact Nat.lt_of_le_of_lt hz (by decide)
    · exact hplain c hlower
  · have hlen := congrArg List.length h
    rw [List.length_map, lengthName_eq] at hlen
    exact hlen

theorem mem_of_append_cons {α : Type*} {a a' b b' : List α} {x y : α}
    (h : a ++ x :: b = a' ++ y :: b') (hlt : a.length < a'.length) : y ∈ b := by
  have hat : (a ++ x :: b)[a'.length]? = some y := by
    rw [h, List.getElem?_append_right (Nat.le_refl _), Nat.sub_self]
    rfl
  obtain ⟨n, hn⟩ : ∃ n, a'.length = a.length + (n + 1) :=
    ⟨a'.length - a.length - 1, by omega⟩
  rw [hn, List.getElem?_append_right (Nat.le_add_right _ _), Nat.add_sub_cancel_left,
    List.getElem?_cons_succ] at hat
  exact List.mem_of_getElem? hat

theorem toNat_lt_of_mem_lengthLine {n : ℕ} : ∀ c ∈ lengthLine n, c.toNat < 128 := by
  intro c hc
  rw [lengthLine_eq] at hc
  have hname : ∀ d ∈ ['C', 'o', 'n', 't', 'e', 'n', 't', '-', 'L', 'e', 'n', 'g', 't', 'h'],
      d.toNat < 128 := by simp
  rcases List.mem_append.mp hc with hc | hc
  · exact hname c hc
  · rcases List.mem_cons.mp hc with rfl | hc
    · decide
    rcases List.mem_cons.mp hc with rfl | hc
    · decide
    have hdigit := Nat.isDigit_of_mem_toDigits (by decide) (by decide) hc
    rw [Char.isDigit, Bool.and_eq_true, decide_eq_true_eq, decide_eq_true_eq] at hdigit
    have hle : c.val.toNat ≤ 57 := hdigit.2
    exact Nat.lt_of_le_of_lt hle (by decide)

theorem contentLength_cases (b : Bytes) : (∃ t, b = utf8 t) ∨ contentLength b = none := by
  cases hs : String.fromUTF8? ⟨b.toArray⟩ with
  | none => exact .inr (by rw [contentLength, hs]; rfl)
  | some s => exact .inl ⟨s.toList, eq_utf8_of_fromUTF8? hs⟩

theorem contentLength_lf {b : Bytes} (h : contentLength b = none) :
    contentLength (10 :: b) = none := by
  rcases contentLength_cases (10 :: b) with ⟨t, ht⟩ | hnone
  · obtain ⟨s, rfl, rfl⟩ := utf8_eq_cons (c := '\n') (by decide) ht.symm
    rw [contentLength_utf8] at h
    rw [ht, contentLength_utf8]
    exact h
  · exact hnone

theorem contentLength_crlf {b : Bytes} (h : contentLength b = none) :
    contentLength (13 :: 10 :: b) = none := by
  rcases contentLength_cases (13 :: 10 :: b) with ⟨t, ht⟩ | hnone
  · obtain ⟨t', rfl, ht'⟩ := utf8_eq_cons (c := '\r') (by decide) ht.symm
    obtain ⟨s, rfl, rfl⟩ := utf8_eq_cons (c := '\n') (by decide) ht'
    rw [contentLength_utf8] at h
    rw [ht, contentLength_utf8]
    exact h
  · exact hnone

theorem contentLength_line {t : List Char} (hne : t ≠ []) (hcr : '\r' ∉ t) (hlf : '\n' ∉ t) :
    contentLength (utf8 t) = lineLength t := by
  rw [contentLength_utf8, textLines_line hne hcr hlf, List.findSome?_cons, List.findSome?_nil]
  cases lineLength t <;> rfl

/-- **A length line behind something else** on its line gives no length. -/
theorem contentLength_glued {s : Bytes} (hne : s ≠ []) (hcr : 13 ∉ s) (hlf : 10 ∉ s) (n : ℕ) :
    contentLength (s ++ utf8 (lengthLine n)) = none := by
  obtain ⟨-, hcr', hlf'⟩ := headerLine_lengthLine n
  rcases contentLength_cases (s ++ utf8 (lengthLine n)) with ⟨t, ht⟩ | hnone
  · have htcr : '\r' ∉ t := by
      intro hm
      have hbyte := (mem_utf8_iff (c := '\r') (by decide)).mpr hm
      rw [← ht] at hbyte
      exact (List.mem_append.mp hbyte).elim hcr (not_mem_utf8_cr hcr')
    have htlf : '\n' ∉ t := by
      intro hm
      have hbyte := (mem_utf8_iff (c := '\n') (by decide)).mpr hm
      rw [← ht] at hbyte
      exact (List.mem_append.mp hbyte).elim hlf fun hb =>
        hlf' ((mem_utf8_iff (c := '\n') (by decide)).mp hb)
    have htne : t ≠ [] := by
      rintro rfl
      exact hne (List.append_eq_nil_iff.mp ht).1
    rw [ht, contentLength_line htne htcr htlf]
    by_contra hsome
    obtain ⟨m, hm⟩ := Option.ne_none_iff_exists'.mp hsome
    obtain ⟨name, value, rfl, hname, hcolon⟩ := lineLength_some hm
    obtain ⟨hplain, hlen⟩ := toNat_lt_of_lengthName hname
    -- the colon of the length line stands behind the one in front of the number
    have hcut : utf8 name ++ 58 :: utf8 value = (s ++ utf8 ['C', 'o', 'n', 't', 'e', 'n', 't', '-',
        'L', 'e', 'n', 'g', 't', 'h']) ++ 58 :: utf8 (' ' :: Nat.toDigits 10 n) := by
      have hbyte : ∀ r, utf8 (':' :: r) = 58 :: utf8 r := fun r => by
        rw [utf8_cons, utf8EncodeChar_of_lt (by decide)]
        rfl
      rw [lengthLine_eq, utf8_append, utf8_append, hbyte, hbyte] at ht
      rw [List.append_assoc]
      exact ht.symm
    have hin := mem_of_append_cons hcut (by
      rw [length_utf8 hplain, hlen, List.length_append, length_utf8 (by simp)]
      exact Nat.lt_add_of_pos_left (List.length_pos_iff.mpr hne))
    exact hcolon ((mem_utf8_iff (c := ':') (by decide)).mp hin)
  · exact hnone

/-- **A length line cut short** gives no length. -/
theorem contentLength_cut (n i : ℕ) :
    contentLength (utf8 ((lengthLine n).drop (i + 1))) = none := by
  obtain ⟨-, hcr, hlf⟩ := headerLine_lengthLine n
  by_cases hne : (lengthLine n).drop (i + 1) = []
  · rw [hne, contentLength_utf8]
    rfl
  rw [contentLength_line hne (fun h => hcr (List.mem_of_mem_drop h))
    fun h => hlf (List.mem_of_mem_drop h)]
  by_contra hsome
  obtain ⟨m, hm⟩ := Option.ne_none_iff_exists'.mp hsome
  obtain ⟨name, value, hline, hname, -⟩ := lineLength_some hm
  have hlen := (toNat_lt_of_lengthName hname).2
  -- its colon would be a second one of the whole line
  have hcut : ['C', 'o', 'n', 't', 'e', 'n', 't', '-', 'L', 'e', 'n', 'g', 't', 'h'] ++
      ':' :: ' ' :: Nat.toDigits 10 n = ((lengthLine n).take (i + 1) ++ name) ++ ':' :: value := by
    rw [← lengthLine_eq, List.append_assoc, ← hline, List.take_append_drop]
  have hlong : i + 1 ≤ (lengthLine n).length := by
    by_contra hshort
    exact hne (List.drop_eq_nil_iff.mpr (by omega))
  have hin := mem_of_append_cons hcut (by
    rw [List.length_append, hlen, List.length_take_of_le hlong]
    exact Nat.lt_add_of_pos_left (Nat.succ_pos i))
  rcases List.mem_cons.mp hin with hspace | hdigit
  · cases hspace
  · cases Nat.isDigit_of_mem_toDigits (by decide) (by decide) hdigit

/-! ## Stray bytes -/

/-- Frames one after the other. -/
def encodeFrames (codec : JsonCodec V) (vs : List V) : Bytes := vs.flatMap (encodeFrame codec)

theorem encodeFrame_eq (v : V) : encodeFrame codec v =
    utf8 (lengthLine (codec.toVec v).length) ++ (headerEnd ++ codec.toVec v) := by
  rw [encodeFrame, utf8_append, List.append_assoc]
  rfl

theorem encodeFrames_cons (v : V) (vs : List V) : ∃ r, encodeFrames codec (v :: vs) = 67 :: r := by
  rw [encodeFrames, List.flatMap_cons, encodeFrame_eq, lengthLine_eq, List.cons_append, utf8_cons,
    utf8EncodeChar_of_lt (by decide)]
  exact ⟨_, rfl⟩

theorem reads_encodeFrames {vs : List V} (hfits : (encodeFrames codec vs).length < 2 ^ 64) :
    Reads codec (encodeFrames codec vs) vs [] := by
  induction vs with
  | nil => exact .wait rfl
  | cons v vs ih =>
    rw [encodeFrames, List.flatMap_cons, List.length_append] at hfits
    obtain ⟨f, hf, hp⟩ := @Frame.encoded _ codec v (by omega)
    have hstep := frameStep_frame f (encodeFrames codec vs)
    rw [hf, hp] at hstep
    refine .value hstep (ih ?_)
    rw [encodeFrames]
    omega

theorem frameStep_dropped {head : Bytes} (hend : findHeaderEnd (head ++ headerEnd) = some head.length)
    (hnone : contentLength head = none) (rest : Bytes) :
    frameStep codec (head ++ (headerEnd ++ rest)) = .again rest := by
  have hfind := findHeaderEnd_append hend rest
  rw [List.append_assoc] at hfind
  have hrest : (head ++ (headerEnd ++ rest)).drop (head.length + 4) = rest := by
    rw [← List.append_assoc, List.drop_left']
    exact List.length_append
  unfold frameStep
  rw [hfind]
  dsimp only
  rw [List.take_left, hnone, hrest]

/-- Behind bytes that end no block, a block ends where the next length line does. -/
theorem ended_behind {b : Bytes} (h : findHeaderEnd b = none) (n : ℕ) :
    findHeaderEnd (b ++ utf8 (lengthLine n) ++ headerEnd) =
      some (b ++ utf8 (lengthLine n)).length := by
  obtain ⟨r, hr⟩ : ∃ r, utf8 (lengthLine n) = 67 :: r := ⟨_, by
    rw [lengthLine_eq, List.cons_append, utf8_cons, utf8EncodeChar_of_lt (by decide)]
    rfl⟩
  induction b with
  | nil =>
    rw [List.nil_append, findHeaderEnd_skip (not_mem_utf8_cr (headerLine_lengthLine n).2.1)]
    show (some 0).map _ = _
    simp
  | cons x b ih =>
    rw [findHeaderEnd] at h
    split_ifs at h with hp
    have hb : findHeaderEnd b = none := Option.map_eq_none_iff.mp h
    have hp' : ¬headerEnd.isPrefixOf (x :: (b ++ utf8 (lengthLine n) ++ headerEnd)) = true := by
      intro hp'
      have hprefix : headerEnd <+: (x :: b) ++ (67 :: r ++ headerEnd) := by
        have := List.isPrefixOf_iff_prefix.mp hp'
        rwa [hr, List.append_assoc] at this
      have hfirst : x :: b ++ [67] <+: (x :: b) ++ (67 :: r ++ headerEnd) :=
        ⟨r ++ headerEnd, by simp⟩
      -- the first letter of a length line stands in no block end
      have hletter : (67 : UInt8) ∉ headerEnd := by decide
      rcases List.prefix_or_prefix_of_prefix hprefix hfirst with hin | hin
      · rcases List.prefix_concat_iff.mp hin with he | hin
        · exact hletter (by rw [he]; simp)
        · exact hp (List.isPrefixOf_iff_prefix.mpr hin)
      · exact hletter (hin.subset (by simp))
    rw [List.cons_append, List.cons_append, findHeaderEnd, if_neg hp', ih hb]
    rfl

/-- Bytes behind which no length line is read. -/
structure Stray (b : Bytes) : Prop where
  open_ : findHeaderEnd b = none
  hides : ∀ n, contentLength (b ++ utf8 (lengthLine n)) = none

theorem Stray.line {b : Bytes} (hne : b ≠ []) (hcr : 13 ∉ b) (hlf : 10 ∉ b) : Stray b where
  open_ := by
    have hskip := findHeaderEnd_skip hcr []
    rwa [List.append_nil] at hskip
  hides := contentLength_glued hne hcr hlf

theorem Stray.lf {b : Bytes} (h : Stray b) : Stray (10 :: b) where
  open_ := by
    have hp : ¬headerEnd.isPrefixOf (10 :: b) = true := by simp [headerEnd, List.isPrefixOf]
    rw [findHeaderEnd, if_neg hp, h.open_]
    rfl
  hides n := contentLength_lf (h.hides n)

theorem Stray.crlf {x : UInt8} {b : Bytes} (hx : x ≠ 13) (h : Stray (x :: b)) :
    Stray (13 :: 10 :: x :: b) where
  open_ := by
    rw [findHeaderEnd_break hx, h.open_]
    rfl
  hides n := contentLength_crlf (h.hides n)

variable (hc : codec.Compact)

include hc

theorem stray_toVec (v : V) : Stray (codec.toVec v) :=
  .line (hc.ne_nil v) (hc.oneLine v).1 (hc.oneLine v).2

theorem stray_drop (v : V) {n : ℕ} (h : n < (codec.toVec v).length) :
    Stray ((codec.toVec v).drop n) := by
  refine .line (fun he => ?_) (fun hm => (hc.oneLine v).1 (List.mem_of_mem_drop hm))
    fun hm => (hc.oneLine v).2 (List.mem_of_mem_drop hm)
  have hshort := List.drop_eq_nil_iff.mp he
  omega

/-- **Nothing is read behind stray bytes**: each frame leaves its body behind as stray bytes. -/
theorem reads_stray {b : Bytes} (hb : Stray b) (vs : List V) :
    ∃ r, Reads codec (b ++ encodeFrames codec vs) [] r := by
  induction vs generalizing b with
  | nil =>
    have hwait : frameStep codec (b ++ []) = .wait := by
      unfold frameStep
      rw [List.append_nil, hb.open_]
    exact ⟨_, .wait hwait⟩
  | cons v vs ih =>
    obtain ⟨r, hr⟩ := ih (stray_toVec hc v)
    have hbytes : b ++ encodeFrames codec (v :: vs) =
        (b ++ utf8 (lengthLine (codec.toVec v).length)) ++
          (headerEnd ++ (codec.toVec v ++ encodeFrames codec vs)) := by
      rw [encodeFrames, List.flatMap_cons, encodeFrame_eq]
      simp [encodeFrames]
    rw [hbytes]
    exact ⟨r, .again (frameStep_dropped (ended_behind hb.open_ _) (hb.hides _) _) hr⟩

/-- What is left of a frame that is cut in front is stray, or a length line cut short. -/
theorem reads_cut (v : V) (vs : List V) {j : ℕ} (hj : 0 < j)
    (hlt : j < (encodeFrame codec v).length) :
    ∃ r, Reads codec ((encodeFrame codec v).drop j ++ encodeFrames codec vs) [] r := by
  have hline := headerLine_lengthLine (codec.toVec v).length
  rw [encodeFrame_eq] at hlt ⊢
  by_cases hcut : j ≤ (utf8 (lengthLine (codec.toVec v).length)).length
  · -- inside the length line
    obtain ⟨i, rfl⟩ : ∃ i, j = i + 1 := ⟨j - 1, by omega⟩
    have hcr : '\r' ∉ (lengthLine (codec.toVec v).length).drop (i + 1) := fun h =>
      hline.2.1 (List.mem_of_mem_drop h)
    have hend := findHeaderEnd_skip (not_mem_utf8_cr hcr) headerEnd
    have hzero : findHeaderEnd headerEnd = some 0 := by decide
    rw [hzero, Option.map_some, Nat.zero_add] at hend
    obtain ⟨r, hr⟩ := reads_stray hc (stray_toVec hc v) vs
    rw [List.drop_append_of_le_length hcut, drop_utf8 toNat_lt_of_mem_lengthLine,
      List.append_assoc, List.append_assoc]
    exact ⟨r, .again (frameStep_dropped hend (contentLength_cut _ i) _) hr⟩
  · -- inside the block end or the body
    obtain ⟨i, hi⟩ : ∃ i, j = (utf8 (lengthLine (codec.toVec v).length)).length + (i + 1) :=
      ⟨j - (utf8 (lengthLine (codec.toVec v).length)).length - 1, by omega⟩
    rw [List.length_append, List.length_append, hi] at hlt
    rw [hi, List.drop_length_add_append]
    refine reads_stray hc ?_ vs
    have hbody := stray_toVec hc v
    have hcr := (hc.oneLine v).1
    obtain ⟨x, r, hv⟩ := List.exists_cons_of_ne_nil (hc.ne_nil v)
    have hx : x ≠ 13 := by
      rintro rfl
      rw [hv] at hcr
      exact hcr List.mem_cons_self
    match i with
    | 0 =>
      show Stray (10 :: 13 :: 10 :: codec.toVec v)
      rw [hv] at hbody ⊢
      exact (hbody.crlf hx).lf
    | 1 =>
      show Stray (13 :: 10 :: codec.toVec v)
      rw [hv] at hbody ⊢
      exact hbody.crlf hx
    | 2 => exact hbody.lf
    | k + 3 =>
      show Stray ((codec.toVec v).drop k)
      have hfour : headerEnd.length = 4 := rfl
      exact stray_drop hc v (by omega)

/-- **Frames cut in front** are not all read. -/
theorem reads_drop {vs : List V} (hfits : (encodeFrames codec vs).length < 2 ^ 64) {j : ℕ}
    (hj : 0 < j) (hle : j ≤ (encodeFrames codec vs).length) :
    ∃ ws r, Reads codec ((encodeFrames codec vs).drop j) ws r ∧ ws.length < vs.length := by
  induction vs generalizing j with
  | nil =>
    have : j ≤ 0 := hle
    omega
  | cons v vs ih =>
    have hcons : encodeFrames codec (v :: vs) = encodeFrame codec v ++ encodeFrames codec vs := rfl
    rw [hcons, List.length_append] at hfits hle
    rw [hcons]
    by_cases hcut : j < (encodeFrame codec v).length
    · obtain ⟨r, hr⟩ := reads_cut hc v vs hj hcut
      rw [List.drop_append_of_le_length (Nat.le_of_lt hcut)]
      exact ⟨[], r, hr, Nat.succ_pos _⟩
    · obtain ⟨i, rfl⟩ : ∃ i, j = (encodeFrame codec v).length + i :=
        ⟨j - (encodeFrame codec v).length, by omega⟩
      rw [List.drop_length_add_append]
      by_cases hi : i = 0
      · rw [hi, List.drop_zero]
        exact ⟨vs, [], reads_encodeFrames (by omega), Nat.lt_succ_self _⟩
      · obtain ⟨ws, r, hr, hlen⟩ := ih (by omega) (Nat.pos_of_ne_zero hi) (by omega)
        exact ⟨ws, r, hr, Nat.lt_succ_of_lt hlen⟩

/-! ## Recovery -/

/-- A malformed header block with its body, and frames behind it. -/
def malformed (codec : JsonCodec V) (head body : Bytes) (vs : List V) : Bytes :=
  head ++ (headerEnd ++ (body ++ encodeFrames codec vs))

/-- The length that is read for the first frame behind a malformed header. -/
def firstLength (codec : JsonCodec V) (body : Bytes) (v : V) : Option ℕ :=
  contentLength (body ++ utf8 (lengthLine (codec.toVec v).length))

/-- **Behind a malformed header** all frames but the first are read, in any chunks, exactly when there
are no others, when the body does not spoil the length line behind it, or when by coincidence a
shorter length cuts the second of two values out of the first. -/
theorem recovers_iff {head body : Bytes} {vs : List V}
    (hhead : findHeaderEnd (head ++ headerEnd) = some head.length)
    (hnone : contentLength head = none) (hbody : findHeaderEnd body = none)
    (hfits : (malformed codec head body vs).length < 2 ^ 64) :
    (∀ chunks : List Bytes, chunks.flatten = malformed codec head body vs →
        vs.tail.Sublist (feed codec [] chunks).1) ↔
      vs.length ≤ 1 ∨ ∃ v rest, vs = v :: rest ∧
        (firstLength codec body v = some (codec.toVec v).length ∨
          ∃ n w, n < (codec.toVec v).length ∧ firstLength codec body v = some n ∧ rest = [w] ∧
            codec.fromSlice ((codec.toVec v).take n) = some w) := by
  have hskip : frameStep codec (malformed codec head body vs) =
      .again (body ++ encodeFrames codec vs) := frameStep_dropped hhead hnone _
  -- the second block, up to the first frame's length line
  have hsplit : ∀ v rest, body ++ encodeFrames codec (v :: rest) =
      (body ++ utf8 (lengthLine (codec.toVec v).length)) ++
        (headerEnd ++ (codec.toVec v ++ encodeFrames codec rest)) := by
    intro v rest
    rw [encodeFrames, List.flatMap_cons, encodeFrame_eq]
    simp [encodeFrames]
  have hfeed : (feed codec [] [malformed codec head body vs]).1 =
      (drain codec (body ++ encodeFrames codec vs)).1 := by
    rw [feed, List.nil_append, drain_again hskip]
    exact List.append_nil _
  constructor
  · intro h
    have h := h [malformed codec head body vs] (List.flatten_singleton)
    rw [hfeed] at h
    by_cases hone : vs.length ≤ 1
    · exact .inl hone
    cases vs with
    | nil => exact absurd (Nat.zero_le 1) hone
    | cons v rest =>
      have hrest : rest ≠ [] := by
        rintro rfl
        exact hone (Nat.le_refl 1)
      refine .inr ⟨v, rest, rfl, ?_⟩
      have hend := ended_behind hbody (codec.toVec v).length
      rw [List.tail_cons, hsplit v rest] at h
      cases hlen : firstLength codec body v with
      | none =>
        obtain ⟨r, hr⟩ := reads_stray hc (stray_toVec hc v) rest
        rw [drain_again (frameStep_dropped hend hlen _), hr.drain] at h
        exact absurd (List.sublist_nil.mp h) hrest
      | some n =>
        have hstep := @frameStep_head _ codec _ _ hend hlen
          (codec.toVec v ++ encodeFrames codec rest)
        by_cases hn : n = (codec.toVec v).length
        · exact .inl (by rw [hn])
        by_cases hbig : 2 ^ 64 ≤
            (body ++ utf8 (lengthLine (codec.toVec v).length)).length + 4 + n
        · rw [if_pos hbig] at hstep
          rw [drain_cleared hstep] at h
          exact absurd (List.sublist_nil.mp h) hrest
        rw [if_neg hbig] at hstep
        by_cases hshort : (codec.toVec v ++ encodeFrames codec rest).length < n
        · rw [if_pos hshort] at hstep
          rw [drain_wait hstep] at h
          exact absurd (List.sublist_nil.mp h) hrest
        rw [if_neg hshort] at hstep
        by_cases hlt : n < (codec.toVec v).length
        · -- a part of the first body is read, and the rest of it is stray
          rw [List.take_append_of_le_length (Nat.le_of_lt hlt),
            List.drop_append_of_le_length (Nat.le_of_lt hlt)] at hstep
          obtain ⟨r, hr⟩ := reads_stray hc (stray_drop hc v hlt) rest
          cases hv : codec.fromSlice ((codec.toVec v).take n) with
          | none =>
            rw [hv] at hstep
            rw [drain_again hstep, hr.drain] at h
            exact absurd (List.sublist_nil.mp h) hrest
          | some w =>
            rw [hv] at hstep
            rw [drain_value hstep, hr.drain] at h
            refine .inr ⟨n, w, hlt, rfl, ?_, hv⟩
            exact h.eq_of_length_le (List.length_pos_iff.mpr hrest)
        · -- the length reaches into the second frame
          obtain ⟨j, rfl⟩ : ∃ j, n = (codec.toVec v).length + j :=
            ⟨n - (codec.toVec v).length, by omega⟩
          obtain ⟨w, ws, rfl⟩ := List.exists_cons_of_ne_nil hrest
          have hnot : codec.fromSlice ((codec.toVec v ++ encodeFrames codec (w :: ws)).take
              ((codec.toVec v).length + j)) = none := by
            obtain ⟨i, rfl⟩ : ∃ i, j = i + 1 := ⟨j - 1, by omega⟩
            obtain ⟨r, hr⟩ := @encodeFrames_cons _ codec w ws
            rw [List.take_length_add_append, hr, List.take_succ_cons]
            exact hc.closed v _
          rw [hnot, List.drop_length_add_append] at hstep
          rw [List.length_append] at hshort
          have hfits' : (encodeFrames codec (w :: ws)).length < 2 ^ 64 := by
            rw [malformed, encodeFrames, List.flatMap_cons, ← encodeFrames] at hfits
            simp only [List.length_append] at hfits
            omega
          obtain ⟨us, r, hr, hus⟩ := reads_drop hc hfits' (j := j) (by omega) (by omega)
          rw [drain_again hstep, hr.drain] at h
          exact absurd h.length_le (Nat.not_le.mpr hus)
  · rintro (hone | ⟨v, rest, rfl, hcases⟩) chunks hchunks
    · have htail : vs.tail = [] := List.length_eq_zero_iff.mp (by rw [List.length_tail]; omega)
      rw [htail]
      exact List.nil_sublist _
    have hend := ended_behind hbody (codec.toVec v).length
    have hlong : (malformed codec head body (v :: rest)).length =
        head.length + 4 + (body ++ utf8 (lengthLine (codec.toVec v).length)).length + 4 +
          (codec.toVec v).length + (encodeFrames codec rest).length := by
      rw [malformed, hsplit]
      have hfour : headerEnd.length = 4 := rfl
      simp only [List.length_append]
      omega
    have hall : ∀ us r, Reads codec (body ++ encodeFrames codec (v :: rest)) us r →
        (feed codec [] chunks).1 = us := by
      intro us r hr
      have hreads := Reads.again hskip hr
      rw [← hchunks] at hreads
      rw [Reads.feed rfl hreads]
    rcases hcases with hlen | ⟨n, w, hlt, hlen, rfl, hw⟩
    · have hstep := @frameStep_head _ codec _ _ hend hlen
        (codec.toVec v ++ encodeFrames codec rest)
      rw [if_neg (by omega), if_neg (by rw [List.length_append]; omega), List.take_left,
        List.drop_left, codec.fromSlice_toVec, ← hsplit] at hstep
      rw [hall _ _ (.value hstep (reads_encodeFrames (by omega)))]
      exact List.sublist_cons_self v rest
    · have hstep := @frameStep_head _ codec _ _ hend hlen
        (codec.toVec v ++ encodeFrames codec [w])
      obtain ⟨r, hr⟩ := reads_stray hc (stray_drop hc v hlt) [w]
      rw [if_neg (by omega), if_neg (by rw [List.length_append]; omega),
        List.take_append_of_le_length (Nat.le_of_lt hlt),
        List.drop_append_of_le_length (Nat.le_of_lt hlt), hw, ← hsplit] at hstep
      rw [hall _ _ (.value hstep hr)]
      exact List.Sublist.refl _

omit hc

theorem booleans_compact : booleans.Compact where
  ne_nil v := by cases v <;> decide
  oneLine v := by cases v <;> decide
  closed v rest := by cases v <;> simp [booleans]

/-- A body that ends its last line does not spoil the length line behind it. -/
theorem recovers_behind_line :
    firstLength booleans [123, 125, 10] true = some 4 ∧ ∀ chunks : List Bytes,
      chunks.flatten = malformed booleans [88] [123, 125, 10] [true, false] →
        [false].Sublist (feed booleans [] chunks).1 :=
  ⟨by decide +kernel, (recovers_iff booleans_compact (by decide) (by decide +kernel) (by decide)
    (by decide +kernel)).mpr (.inr ⟨true, [false], rfl, .inl (by decide +kernel)⟩)⟩

/-- Behind "{}" on the line of the next length, no frame is read. -/
theorem not_recovers_glued : ¬∀ (head body : Bytes) (vs : List Bool) (chunks : List Bytes),
    findHeaderEnd (head ++ headerEnd) = some head.length → contentLength head = none →
      body ≠ [] → findHeaderEnd body = none →
        chunks.flatten = malformed booleans head body vs →
          vs.tail.Sublist (feed booleans [] chunks).1 := by
  intro h
  have hend : findHeaderEnd ([88] ++ headerEnd) = some 1 := by decide
  have hnone : contentLength [88] = none := by decide +kernel
  have hbody : Stray [123, 125] := .line (by decide) (by decide) (by decide)
  obtain ⟨r, hr⟩ := reads_stray booleans_compact hbody [true, true]
  have hread := h [88] [123, 125] [true, true] [malformed booleans [88] [123, 125] [true, true]]
    hend hnone (by decide) (by decide) List.flatten_singleton
  have hskip : frameStep booleans (malformed booleans [88] [123, 125] [true, true]) =
      .again ([123, 125] ++ encodeFrames booleans [true, true]) := frameStep_dropped hend hnone _
  rw [feed, List.nil_append, drain_again hskip, hr.drain] at hread
  cases hread

end Lsp

end Termesh
