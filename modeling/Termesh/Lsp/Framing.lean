import Mathlib.Algebra.GroupWithZero.Nat
import Termesh.Core.Trim
import Termesh.Lib.Utf8

/-!
# Length-prefixed framing

The bytes of a language server arrive in any chunks. The reader collects them and takes frames off
the front: a header block that CRLFCRLF ends and that gives a length, and a body of that length.

* `JsonCodec`, `encodeFrame`, `frameStep`, `nextFrame`, `drain`, `feed`;
* `Reads`: what a buffer gives when nothing clears it, `Reads.split`, **`Reads.feed`**: and what it
  gives in any chunks;
* `Frame`: a header block that gives the length of its body;
* **`feed_frames`**: frames are read in order, however they are cut;
* `Frame.ofLines`, `Frame.encoded`: extra header lines, and what `encode_frame` writes.
-/

namespace Termesh

namespace Lsp

open Utf8

abbrev Bytes := List UInt8

/-- The JSON crate: a value written and read back is that value. -/
structure JsonCodec (V : Type) where
  toVec : V → Bytes
  fromSlice : Bytes → Option V
  fromSlice_toVec : ∀ v, fromSlice (toVec v) = some v

/-! ## Header blocks -/

/-- `HEADER_END`. -/
def headerEnd : Bytes := [13, 10, 13, 10]

/-- Where the first header block ends. -/
def findHeaderEnd : Bytes → Option ℕ
  | [] => none
  | b :: bs =>
    if headerEnd.isPrefixOf (b :: bs) then some 0 else (findHeaderEnd bs).map (· + 1)

/-- `parse::<usize>`: decimal digits, behind a plus sign at most. -/
def parseUsize (t : List Char) : Option ℕ :=
  let digits := match t with
    | '+' :: digits => digits
    | digits => digits
  if digits.isEmpty || !digits.all Char.isDigit then none
  else
    let n := Nat.ofDigitChars 10 digits 0
    if n < 2 ^ 64 then some n else none

/-- `split_once(':')`. -/
def splitColon (line : List Char) : Option (List Char × List Char) :=
  match line.dropWhile (· != ':') with
  | [] => none
  | _ :: value => some (line.takeWhile (· != ':'), value)

def lengthName : List Char := "content-length".toList

/-- The length that a header line gives. -/
def lineLength (line : List Char) : Option ℕ :=
  (splitColon line).bind fun (name, value) =>
    if name.map Char.toLower = lengthName then parseUsize (trim (String.ofList value)).toList
    else none

/-- The length that a header block gives: that of its first line that gives one. -/
def contentLength (head : Bytes) : Option ℕ :=
  (String.fromUTF8? ⟨head.toArray⟩).bind fun headers =>
    (textLines headers.toList).findSome? lineLength

/-! ## The reader -/

/-- What one pass of the reader's loop comes to. -/
inductive FrameStep (V : Type)
  | wait
  | cleared
  | again (rest : Bytes)
  | value (v : V) (rest : Bytes)
deriving DecidableEq

section Reader

variable {V : Type} (codec : JsonCodec V)

/-- One pass of the loop of `next_frame`. -/
def frameStep (buffer : Bytes) : FrameStep V :=
  match findHeaderEnd buffer with
  | none => .wait
  | some headerEnd =>
    let bodyStart := headerEnd + 4
    match contentLength (buffer.take headerEnd) with
    | none => .again (buffer.drop bodyStart)
    | some n =>
      -- `checked_add`
      if 2 ^ 64 ≤ bodyStart + n then .cleared
      else if buffer.length < bodyStart + n then .wait
      else
        match codec.fromSlice ((buffer.drop bodyStart).take n) with
        | some v => .value v (buffer.drop (bodyStart + n))
        | none => .again (buffer.drop (bodyStart + n))

theorem findHeaderEnd_le {buffer : Bytes} {i : ℕ} (h : findHeaderEnd buffer = some i) :
    i + 4 ≤ buffer.length := by
  induction buffer generalizing i with
  | nil => cases h
  | cons b bs ih =>
    rw [findHeaderEnd] at h
    split_ifs at h with hp
    · obtain rfl := Option.some.inj h
      have hlen := (List.isPrefixOf_iff_prefix.mp hp).length_le
      exact Nat.le_trans (Nat.le_refl _) hlen
    · obtain ⟨j, hj, rfl⟩ := Option.map_eq_some_iff.mp h
      have := ih hj
      rw [List.length_cons]
      omega

theorem frameStep_lt {buffer rest : Bytes}
    (h : frameStep codec buffer = .again rest ∨ ∃ v, frameStep codec buffer = .value v rest) :
    rest.length < buffer.length := by
  have hdrop : ∀ i n, findHeaderEnd buffer = some i →
      (buffer.drop (i + 4 + n)).length < buffer.length := by
    intro i n hi
    have := findHeaderEnd_le hi
    rw [List.length_drop]
    omega
  unfold frameStep at h
  cases hend : findHeaderEnd buffer with
  | none =>
    rw [hend] at h
    rcases h with h | ⟨v, h⟩ <;> cases h
  | some i =>
    rw [hend] at h
    dsimp only at h
    cases hlen : contentLength (buffer.take i) with
    | none =>
      rw [hlen] at h
      rcases h with h | ⟨v, h⟩
      · cases h
        exact hdrop i 0 hend
      · cases h
    | some n =>
      rw [hlen] at h
      dsimp only at h
      split_ifs at h
      · rcases h with h | ⟨v, h⟩ <;> cases h
      · rcases h with h | ⟨v, h⟩ <;> cases h
      · cases hv : codec.fromSlice ((buffer.drop (i + 4)).take n) with
        | none =>
          rw [hv] at h
          rcases h with h | ⟨v, h⟩
          · cases h
            exact hdrop i n hend
          · cases h
        | some w =>
          rw [hv] at h
          rcases h with h | ⟨v, h⟩
          · cases h
          · cases h
            exact hdrop i n hend

/-- `next_frame`: a value, if there is one, and the buffer it leaves. -/
def nextFrame (buffer : Bytes) : Option V × Bytes :=
  match _h : frameStep codec buffer with
  | .wait => (none, buffer)
  | .cleared => (none, [])
  | .again rest => nextFrame rest
  | .value v rest => (some v, rest)
termination_by buffer.length
decreasing_by exact frameStep_lt codec (.inl _h)

theorem nextFrame_lt {buffer rest : Bytes} {v : V} (h : nextFrame codec buffer = (some v, rest)) :
    rest.length < buffer.length := by
  induction buffer using nextFrame.induct codec with
  | case1 buffer hs => rw [nextFrame, hs] at h; cases h
  | case2 buffer hs => rw [nextFrame, hs] at h; cases h
  | case3 buffer next hs ih =>
    rw [nextFrame, hs] at h
    exact Nat.lt_trans (ih h) (frameStep_lt codec (.inl hs))
  | case4 buffer w next hs =>
    rw [nextFrame, hs] at h
    cases h
    exact frameStep_lt codec (.inr ⟨_, hs⟩)

/-- Every value that `next_frame` gives until it gives none. -/
def drain (buffer : Bytes) : List V × Bytes :=
  match _h : nextFrame codec buffer with
  | (none, rest) => ([], rest)
  | (some v, rest) => (v :: (drain rest).1, (drain rest).2)
termination_by buffer.length
decreasing_by all_goals exact nextFrame_lt codec _h

/-- Chunks pushed in order, with the values drained after each push. -/
def feed : Bytes → List Bytes → List V × Bytes
  | buffer, [] => ([], buffer)
  | buffer, chunk :: chunks =>
    let drained := drain codec (buffer ++ chunk)
    let fed := feed drained.2 chunks
    (drained.1 ++ fed.1, fed.2)

/-! ## What a buffer gives -/

/-- The values of a buffer, and what is left of it, when nothing in it clears the reader. -/
inductive Reads : Bytes → List V → Bytes → Prop
  | wait {b : Bytes} (h : frameStep codec b = .wait) : Reads b [] b
  | again {b b' r : Bytes} {vs : List V} (h : frameStep codec b = .again b') (hr : Reads b' vs r) :
      Reads b vs r
  | value {b b' r : Bytes} {v : V} {vs : List V} (h : frameStep codec b = .value v b')
      (hr : Reads b' vs r) : Reads b (v :: vs) r

variable {codec}

theorem drain_wait {b : Bytes} (h : frameStep codec b = .wait) : drain codec b = ([], b) := by
  have hnext : nextFrame codec b = (none, b) := by rw [nextFrame, h]
  rw [drain, hnext]

theorem drain_cleared {b : Bytes} (h : frameStep codec b = .cleared) :
    drain codec b = ([], []) := by
  have hnext : nextFrame codec b = (none, []) := by rw [nextFrame, h]
  rw [drain, hnext]

theorem drain_again {b b' : Bytes} (h : frameStep codec b = .again b') :
    drain codec b = drain codec b' := by
  have hnext : nextFrame codec b = nextFrame codec b' := by rw [nextFrame, h]
  rw [drain, hnext]
  conv_rhs => rw [drain]

theorem drain_value {b b' : Bytes} {v : V} (h : frameStep codec b = .value v b') :
    drain codec b = (v :: (drain codec b').1, (drain codec b').2) := by
  have hnext : nextFrame codec b = (some v, b') := by rw [nextFrame, h]
  rw [drain, hnext]

theorem Reads.drain {b r : Bytes} {vs : List V} (h : Reads codec b vs r) :
    drain codec b = (vs, r) := by
  induction h with
  | wait h => exact drain_wait h
  | again h _ ih => rw [drain_again h, ih]
  | value h _ ih => rw [drain_value h, ih]

theorem Reads.waits {b r : Bytes} {vs : List V} (h : Reads codec b vs r) :
    frameStep codec r = .wait := by
  induction h with
  | wait h => exact h
  | again _ _ ih | value _ _ ih => exact ih

theorem findHeaderEnd_append {a : Bytes} {i : ℕ} (h : findHeaderEnd a = some i) (b : Bytes) :
    findHeaderEnd (a ++ b) = some i := by
  induction a generalizing i with
  | nil => cases h
  | cons x a ih =>
    rw [findHeaderEnd] at h
    rw [List.cons_append, findHeaderEnd]
    split_ifs at h with hp
    · have hp' : headerEnd.isPrefixOf (x :: (a ++ b)) = true :=
        List.isPrefixOf_iff_prefix.mpr
          ((List.isPrefixOf_iff_prefix.mp hp).trans (List.prefix_append (x :: a) b))
      rw [if_pos hp', h]
    · obtain ⟨j, hj, rfl⟩ := Option.map_eq_some_iff.mp h
      have hlong := findHeaderEnd_le hj
      have hp' : ¬headerEnd.isPrefixOf (x :: (a ++ b)) = true := by
        intro hp'
        refine hp (List.isPrefixOf_iff_prefix.mpr ?_)
        refine List.prefix_of_prefix_length_le (List.isPrefixOf_iff_prefix.mp hp')
          (List.prefix_append (x :: a) b) ?_
        rw [List.length_cons]
        show 4 ≤ a.length + 1
        omega
      rw [if_neg hp', ih hj]
      rfl

theorem frameStep_append {a : Bytes} (b : Bytes) (h : frameStep codec a ≠ .wait) :
    frameStep codec (a ++ b) = match frameStep codec a with
      | .wait => .wait
      | .cleared => .cleared
      | .again rest => .again (rest ++ b)
      | .value v rest => .value v (rest ++ b) := by
  unfold frameStep at h ⊢
  cases hend : findHeaderEnd a with
  | none =>
    rw [hend] at h
    exact absurd rfl h
  | some i =>
    have hle := findHeaderEnd_le hend
    rw [hend] at h
    rw [findHeaderEnd_append hend]
    have htake : (a ++ b).take i = a.take i := List.take_append_of_le_length (by omega)
    have hdrop : ∀ n, n ≤ a.length → (a ++ b).drop n = a.drop n ++ b := fun n hn =>
      List.drop_append_of_le_length hn
    dsimp only at h ⊢
    rw [htake]
    cases hlen : contentLength (a.take i) with
    | none => exact congrArg _ (hdrop _ hle)
    | some n =>
      rw [hlen] at h
      dsimp only at h ⊢
      by_cases hbig : 2 ^ 64 ≤ i + 4 + n
      · rw [if_pos hbig, if_pos hbig]
      · rw [if_neg hbig] at h ⊢
        rw [if_neg hbig]
        by_cases hshort : a.length < i + 4 + n
        · rw [if_pos hshort] at h
          exact absurd rfl h
        · have hshort' : ¬(a ++ b).length < i + 4 + n := by
            rw [List.length_append]
            omega
          have hbody : ((a ++ b).drop (i + 4)).take n = (a.drop (i + 4)).take n := by
            rw [hdrop _ hle, List.take_append_of_le_length]
            rw [List.length_drop]
            omega
          rw [if_neg hshort, if_neg hshort', hbody, hdrop _ (Nat.not_lt.mp hshort)]
          cases codec.fromSlice ((a.drop (i + 4)).take n) <;> rfl

/-- **A buffer may be read in two parts.** -/
theorem Reads.split {a b r : Bytes} {vs : List V} (h : Reads codec (a ++ b) vs r) :
    ∃ us s ws, Reads codec a us s ∧ Reads codec (s ++ b) ws r ∧ vs = us ++ ws := by
  generalize hab : a ++ b = ab at h
  induction h generalizing a with
  | wait hs =>
    subst hab
    by_cases ha : frameStep codec a = .wait
    · exact ⟨[], a, [], .wait ha, .wait hs, rfl⟩
    · have happ := frameStep_append b ha
      rw [hs] at happ
      cases hstep : frameStep codec a with
      | wait => exact absurd hstep ha
      | cleared | again | value => rw [hstep] at happ; cases happ
  | @again ab ab' r vs hs hr ih =>
    subst hab
    by_cases ha : frameStep codec a = .wait
    · exact ⟨[], a, vs, .wait ha, .again hs hr, rfl⟩
    · have happ := frameStep_append b ha
      rw [hs] at happ
      cases hstep : frameStep codec a with
      | wait => exact absurd hstep ha
      | cleared | value => rw [hstep] at happ; cases happ
      | again rest =>
        rw [hstep] at happ
        obtain ⟨us, s, ws, hu, hw, rfl⟩ := ih (FrameStep.again.inj happ).symm
        exact ⟨us, s, ws, .again hstep hu, hw, rfl⟩
  | @value ab ab' r v vs hs hr ih =>
    subst hab
    by_cases ha : frameStep codec a = .wait
    · exact ⟨[], a, v :: vs, .wait ha, .value hs hr, rfl⟩
    · have happ := frameStep_append b ha
      rw [hs] at happ
      cases hstep : frameStep codec a with
      | wait => exact absurd hstep ha
      | cleared | again => rw [hstep] at happ; cases happ
      | value w rest =>
        rw [hstep] at happ
        obtain ⟨rfl, hrest⟩ := FrameStep.value.inj happ
        obtain ⟨us, s, ws, hu, hw, rfl⟩ := ih hrest.symm
        exact ⟨v :: us, s, ws, .value hstep hu, hw, rfl⟩

/-- **A buffer gives the same in any chunks.** -/
theorem Reads.feed {b r : Bytes} {chunks : List Bytes} {vs : List V}
    (hb : frameStep codec b = .wait) (h : Reads codec (b ++ chunks.flatten) vs r) :
    feed codec b chunks = (vs, r) := by
  induction chunks generalizing b vs with
  | nil =>
    rw [List.flatten_nil, List.append_nil] at h
    have hdrain := h.drain
    rw [drain_wait hb] at hdrain
    exact hdrain
  | cons chunk chunks ih =>
    rw [List.flatten_cons, ← List.append_assoc] at h
    obtain ⟨us, s, ws, hu, hw, rfl⟩ := h.split
    rw [Lsp.feed, hu.drain]
    dsimp only
    rw [ih hu.waits hw]

end Reader

/-! ## Length lines -/

/-- The header line that `encode_frame` writes. -/
def lengthLine (n : ℕ) : List Char := ("Content-Length: " ++ toString n).toList

theorem lengthLine_eq (n : ℕ) : lengthLine n =
    ['C', 'o', 'n', 't', 'e', 'n', 't', '-', 'L', 'e', 'n', 'g', 't', 'h'] ++
      ':' :: ' ' :: Nat.toDigits 10 n := by
  simp only [lengthLine, String.toList_append, Nat.toString_eq_ofList_toDigits,
    String.toList_ofList]
  rfl

theorem lengthName_eq : lengthName =
    ['c', 'o', 'n', 't', 'e', 'n', 't', '-', 'l', 'e', 'n', 'g', 't', 'h'] := by decide

theorem splitColon_append {name value : List Char} (h : ':' ∉ name) :
    splitColon (name ++ ':' :: value) = some (name, value) := by
  have hname : ∀ c ∈ name, (c != ':') = true := fun c hc => bne_iff_ne.mpr fun he => h (he ▸ hc)
  rw [splitColon, List.dropWhile_append_of_pos hname, List.takeWhile_append_of_pos hname]
  simp

theorem not_isWhitespace_of_isDigit {c : Char} (h : c.isDigit = true) : isWhitespace c = false := by
  rw [Char.isDigit, Bool.and_eq_true, decide_eq_true_eq, decide_eq_true_eq] at h
  have h₁ : 48 ≤ c.val.toNat := h.1
  have h₂ : c.val.toNat ≤ 57 := h.2
  rw [isWhitespace]
  simp only [Bool.or_eq_false_iff, Bool.and_eq_false_iff, decide_eq_false_iff_not,
    beq_eq_false_iff_ne, ne_eq, UInt32.le_iff_toNat_le, ← UInt32.toNat_inj, UInt32.reduceToNat]
  omega

theorem trim_digits {ds : List Char} (h : ∀ c ∈ ds, c.isDigit = true) :
    (trim (String.ofList (' ' :: ds))).toList = ds := by
  have hkept : ∀ ds : List Char, (∀ c ∈ ds, c.isDigit = true) → ds.dropWhile isWhitespace = ds := by
    intro ds h
    cases ds with
    | nil => rfl
    | cons d ds =>
      rw [List.dropWhile_cons_of_neg]
      rw [not_isWhitespace_of_isDigit (h d List.mem_cons_self)]
      exact Bool.false_ne_true
  have hspace : (' ' :: ds).dropWhile isWhitespace = ds := by
    rw [List.dropWhile_cons_of_pos (by decide), hkept ds h]
  rw [trim, String.toList_ofList, String.toList_ofList, hspace,
    hkept ds.reverse fun c hc => h c (List.mem_reverse.mp hc), List.reverse_reverse]

theorem parseUsize_toDigits {n : ℕ} (h : n < 2 ^ 64) : parseUsize (Nat.toDigits 10 n) = some n := by
  have hdigits : ∀ c ∈ Nat.toDigits 10 n, c.isDigit = true := fun c hc =>
    Nat.isDigit_of_mem_toDigits (by decide) (by decide) hc
  have hplain : (match Nat.toDigits 10 n with
      | '+' :: digits => digits
      | digits => digits) = Nat.toDigits 10 n := by
    split
    · rename_i ds heq
      have hplus := hdigits '+' (by rw [heq]; exact List.mem_cons_self)
      cases hplus
    · rfl
  have hall : ((Nat.toDigits 10 n).isEmpty || !(Nat.toDigits 10 n).all Char.isDigit) = false := by
    rw [Bool.or_eq_false_iff, List.isEmpty_eq_false_iff, Bool.not_eq_false', List.all_eq_true]
    exact ⟨Nat.toDigits_ne_nil, hdigits⟩
  unfold parseUsize
  dsimp only
  rw [hplain, hall, if_neg Bool.false_ne_true, Nat.ofDigitChars_ten_toDigits, if_pos h]

/-- **The length that is written is the length that is read.** -/
theorem lineLength_lengthLine {n : ℕ} (h : n < 2 ^ 64) : lineLength (lengthLine n) = some n := by
  have hdigits : ∀ c ∈ Nat.toDigits 10 n, c.isDigit = true := fun c hc =>
    Nat.isDigit_of_mem_toDigits (by decide) (by decide) hc
  rw [lineLength, lengthLine_eq, splitColon_append (by decide), Option.bind_some]
  dsimp only
  rw [lengthName_eq, if_pos (by decide), trim_digits hdigits, parseUsize_toDigits h]

/-! ## Frames -/

section Frames

variable {V : Type} {codec : JsonCodec V}

theorem frameStep_head {head : Bytes} {n : ℕ}
    (hend : findHeaderEnd (head ++ headerEnd) = some head.length)
    (hn : contentLength head = some n) (rest : Bytes) :
    frameStep codec (head ++ (headerEnd ++ rest)) =
      if 2 ^ 64 ≤ head.length + 4 + n then .cleared
      else if rest.length < n then .wait
      else match codec.fromSlice (rest.take n) with
        | some v => .value v (rest.drop n)
        | none => .again (rest.drop n) := by
  have hfind := findHeaderEnd_append hend rest
  rw [List.append_assoc] at hfind
  have hrest : (head ++ (headerEnd ++ rest)).drop (head.length + 4) = rest := by
    rw [← List.append_assoc, List.drop_left']
    exact List.length_append
  have hshort : (head ++ (headerEnd ++ rest)).length < head.length + 4 + n ↔ rest.length < n := by
    have hfour : headerEnd.length = 4 := rfl
    rw [List.length_append, List.length_append]
    omega
  unfold frameStep
  rw [hfind]
  dsimp only
  rw [List.take_left, hn]
  dsimp only
  rw [hrest, ← List.drop_drop, hrest]
  refine if_congr Iff.rfl rfl (if_congr hshort rfl ?_)
  cases codec.fromSlice (rest.take n) <;> rfl

/-- What a frame carries: a value, or bytes that are none. -/
inductive Payload (codec : JsonCodec V)
  | json (v : V)
  | other (body : Bytes) (h : codec.fromSlice body = none)

def Payload.body : Payload codec → Bytes
  | .json v => codec.toVec v
  | .other body _ => body

def Payload.value : Payload codec → Option V
  | .json v => some v
  | .other _ _ => none

theorem Payload.fromSlice_body (p : Payload codec) : codec.fromSlice p.body = p.value := by
  cases p with
  | json v => exact codec.fromSlice_toVec v
  | other body h => exact h

/-- A frame whose header block gives the length of its body, and that a vector holds. -/
structure Frame (codec : JsonCodec V) where
  head : Bytes
  payload : Payload codec
  ended : findHeaderEnd (head ++ headerEnd) = some head.length
  length_eq : contentLength head = some payload.body.length
  fits : head.length + 4 + payload.body.length < 2 ^ 64

def Frame.bytes (f : Frame codec) : Bytes := f.head ++ (headerEnd ++ f.payload.body)

theorem frameStep_frame (f : Frame codec) (rest : Bytes) :
    frameStep codec (f.bytes ++ rest) = match f.payload.value with
      | some v => .value v rest
      | none => .again rest := by
  have hbytes : f.bytes ++ rest = f.head ++ (headerEnd ++ (f.payload.body ++ rest)) := by
    simp [Frame.bytes]
  have hshort : ¬(f.payload.body ++ rest).length < f.payload.body.length := by
    rw [List.length_append]
    omega
  rw [hbytes, frameStep_head f.ended f.length_eq, if_neg (Nat.not_le.mpr f.fits), if_neg hshort,
    List.take_left, List.drop_left, f.payload.fromSlice_body]

theorem reads_frames (fs : List (Frame codec)) :
    Reads codec (fs.flatMap Frame.bytes) (fs.filterMap (·.payload.value)) [] := by
  induction fs with
  | nil => exact .wait rfl
  | cons f fs ih =>
    have hstep := frameStep_frame f (fs.flatMap Frame.bytes)
    rw [List.flatMap_cons, List.filterMap_cons]
    cases hv : f.payload.value with
    | none =>
      rw [hv] at hstep
      exact .again hstep ih
    | some v =>
      rw [hv] at hstep
      exact .value hstep ih

/-- **Frames are read in order, however they are cut**, and nothing is left over. -/
theorem feed_frames (fs : List (Frame codec)) (chunks : List Bytes)
    (h : chunks.flatten = fs.flatMap Frame.bytes) :
    feed codec [] chunks = (fs.filterMap (·.payload.value), []) := by
  have hreads := reads_frames fs
  rw [← h] at hreads
  exact Reads.feed rfl hreads

/-! ## Header lines -/

/-- Lines with CRLF between them. -/
def joinLines : List (List Char) → List Char
  | [] => []
  | [line] => line
  | line :: next :: lines => line ++ '\r' :: '\n' :: joinLines (next :: lines)

/-- A header line: something without CR or LF. -/
def HeaderLine (line : List Char) : Prop := line ≠ [] ∧ '\r' ∉ line ∧ '\n' ∉ line

theorem textLines_cons {c : Char} (cs : List Char) (h : c ≠ '\n') (h' : c ≠ '\r') :
    textLines (c :: cs) = match textLines cs with
      | [] => [[c]]
      | line :: lines => (c :: line) :: lines :=
  textLines.eq_4 c cs h fun _ hc _ => h' hc

theorem textLines_line {line : List Char} (hne : line ≠ []) (hcr : '\r' ∉ line)
    (hlf : '\n' ∉ line) : textLines line = [line] := by
  induction line with
  | nil => exact absurd rfl hne
  | cons c cs ih =>
    obtain ⟨hc, hcr⟩ := not_or.mp (mt List.mem_cons.mpr hcr)
    obtain ⟨hc', hlf⟩ := not_or.mp (mt List.mem_cons.mpr hlf)
    rw [textLines_cons cs (Ne.symm hc') (Ne.symm hc)]
    cases cs with
    | nil => rfl
    | cons d ds => rw [ih (List.cons_ne_nil d ds) hcr hlf]

theorem textLines_crlf {line : List Char} (hcr : '\r' ∉ line) (hlf : '\n' ∉ line)
    (t : List Char) : textLines (line ++ '\r' :: '\n' :: t) = line :: textLines t := by
  induction line with
  | nil => rfl
  | cons c cs ih =>
    obtain ⟨hc, hcr⟩ := not_or.mp (mt List.mem_cons.mpr hcr)
    obtain ⟨hc', hlf⟩ := not_or.mp (mt List.mem_cons.mpr hlf)
    rw [List.cons_append, textLines_cons _ (Ne.symm hc') (Ne.symm hc), ih hcr hlf]

theorem textLines_joinLines {lines : List (List Char)} (h : ∀ line ∈ lines, HeaderLine line) :
    textLines (joinLines lines) = lines := by
  induction lines with
  | nil => rfl
  | cons line lines ih =>
    obtain ⟨hne, hcr, hlf⟩ := h line List.mem_cons_self
    cases lines with
    | nil => exact textLines_line hne hcr hlf
    | cons next lines =>
      rw [joinLines, textLines_crlf hcr hlf, ih fun l hl => h l (List.mem_cons_of_mem _ hl)]

theorem findHeaderEnd_skip {a : Bytes} (h : 13 ∉ a) (b : Bytes) :
    findHeaderEnd (a ++ b) = (findHeaderEnd b).map (· + a.length) := by
  induction a with
  | nil => simp
  | cons x a ih =>
    obtain ⟨hx, ha⟩ := not_or.mp (mt List.mem_cons.mpr h)
    have hnot : ¬headerEnd.isPrefixOf (x :: (a ++ b)) = true := by
      intro hp
      exact hx ((List.cons_prefix_cons.mp (List.isPrefixOf_iff_prefix.mp hp)).1)
    rw [List.cons_append, findHeaderEnd, if_neg hnot, ih ha, Option.map_map]
    rfl

theorem findHeaderEnd_break {x : UInt8} (hx : x ≠ 13) (b : Bytes) :
    findHeaderEnd (13 :: 10 :: x :: b) = (findHeaderEnd (x :: b)).map (· + 2) := by
  have hcr : ¬headerEnd.isPrefixOf (13 :: 10 :: x :: b) = true := by
    simp [headerEnd, List.isPrefixOf, Ne.symm hx]
  have hlf : ¬headerEnd.isPrefixOf (10 :: x :: b) = true := by
    simp [headerEnd, List.isPrefixOf]
  rw [findHeaderEnd, if_neg hcr, findHeaderEnd, if_neg hlf, Option.map_map]
  rfl

theorem not_mem_utf8_cr {line : List Char} (h : '\r' ∉ line) : (13 : UInt8) ∉ utf8 line :=
  fun hm => h ((mem_utf8_iff (c := '\r') (by decide)).mp hm)

theorem findHeaderEnd_joinLines {lines : List (List Char)} (hne : lines ≠ [])
    (h : ∀ line ∈ lines, HeaderLine line) :
    findHeaderEnd (utf8 (joinLines lines) ++ headerEnd) =
      some (utf8 (joinLines lines)).length := by
  induction lines with
  | nil => exact absurd rfl hne
  | cons line lines ih =>
    have hline := h line List.mem_cons_self
    cases lines with
    | nil =>
      rw [joinLines, findHeaderEnd_skip (not_mem_utf8_cr hline.2.1)]
      show (some 0).map _ = _
      simp
    | cons next lines =>
      have hnext := h next (List.mem_cons_of_mem _ List.mem_cons_self)
      have ih := ih (List.cons_ne_nil _ _) fun l hl => h l (List.mem_cons_of_mem _ hl)
      have hbytes : utf8 (joinLines (line :: next :: lines)) ++ headerEnd =
          utf8 line ++ 13 :: 10 :: (utf8 (joinLines (next :: lines)) ++ headerEnd) := by
        rw [joinLines, utf8_append, List.append_assoc]
        rfl
      -- the next line starts with a byte that is no CR
      obtain ⟨x, b, hxb, hx⟩ : ∃ x b, utf8 (joinLines (next :: lines)) ++ headerEnd = x :: b ∧
          x ≠ 13 := by
        have hstart : ∃ r, joinLines (next :: lines) = next ++ r := by
          cases lines with
          | nil => exact ⟨[], (List.append_nil next).symm⟩
          | cons _ _ => exact ⟨_, rfl⟩
        obtain ⟨r, hr⟩ := hstart
        obtain ⟨x, b, hxb⟩ := List.exists_cons_of_ne_nil (utf8_ne_nil hnext.1)
        refine ⟨x, b ++ (utf8 r ++ headerEnd), by rw [hr, utf8_append, hxb]; simp, fun hx => ?_⟩
        refine not_mem_utf8_cr hnext.2.1 ?_
        rw [hxb, hx]
        exact List.mem_cons_self
      rw [hbytes, findHeaderEnd_skip (not_mem_utf8_cr hline.2.1), hxb, findHeaderEnd_break hx,
        ← hxb, ih, joinLines, utf8_append]
      simp [utf8, String.utf8EncodeChar]
      omega

theorem headerLine_lengthLine (n : ℕ) : HeaderLine (lengthLine n) := by
  have hdigits : ∀ c ∈ Nat.toDigits 10 n, c.isDigit = true := fun c hc =>
    Nat.isDigit_of_mem_toDigits (by decide) (by decide) hc
  have hcr : '\r' ∉ Nat.toDigits 10 n := fun h => nomatch hdigits _ h
  have hlf : '\n' ∉ Nat.toDigits 10 n := fun h => nomatch hdigits _ h
  rw [lengthLine_eq]
  exact ⟨by simp, by simp [hcr], by simp [hlf]⟩

theorem headerLine_around {front behind : List (List Char)} {n : ℕ}
    (hfront : ∀ line ∈ front, HeaderLine line ∧ lineLength line = none)
    (hbehind : ∀ line ∈ behind, HeaderLine line) :
    ∀ line ∈ front ++ lengthLine n :: behind, HeaderLine line := by
  intro line hl
  rcases List.mem_append.mp hl with hl | hl
  · exact (hfront line hl).1
  · rcases List.mem_cons.mp hl with rfl | hl
    · exact headerLine_lengthLine n
    · exact hbehind line hl

theorem contentLength_utf8 (t : List Char) :
    contentLength (utf8 t) = (textLines t).findSome? lineLength := by
  rw [contentLength, fromUTF8?_utf8, Option.bind_some, String.toList_ofList]

/-- The bytes of header lines around the length line. -/
def headBytes (front behind : List (List Char)) (n : ℕ) : Bytes :=
  utf8 (joinLines (front ++ lengthLine n :: behind))

/-- **Extra header lines** leave the frame a frame, when none in front of the length line gives a
length itself. -/
def Frame.ofLines (front behind : List (List Char)) (payload : Payload codec)
    (hfront : ∀ line ∈ front, HeaderLine line ∧ lineLength line = none)
    (hbehind : ∀ line ∈ behind, HeaderLine line)
    (hfits : (headBytes front behind payload.body.length).length + 4 + payload.body.length < 2 ^ 64) :
    Frame codec where
  head := headBytes front behind payload.body.length
  payload
  ended := findHeaderEnd_joinLines (by simp) (headerLine_around hfront hbehind)
  length_eq := by
    have hn : payload.body.length < 2 ^ 64 := by omega
    have hnone : front.findSome? lineLength = none :=
      List.findSome?_eq_none_iff.mpr fun line hl => (hfront line hl).2
    rw [headBytes, contentLength_utf8, textLines_joinLines (headerLine_around hfront hbehind),
      List.findSome?_append, hnone, Option.none_or, List.findSome?_cons, lineLength_lengthLine hn]
  fits := hfits

/-- `encode_frame`. -/
def encodeFrame (codec : JsonCodec V) (body : V) : Bytes :=
  utf8 (lengthLine (codec.toVec body).length ++ ['\r', '\n', '\r', '\n']) ++ codec.toVec body

/-- **What `encode_frame` writes is a frame.** -/
theorem Frame.encoded (v : V) (hfits : (encodeFrame codec v).length < 2 ^ 64) :
    ∃ f : Frame codec, f.bytes = encodeFrame codec v ∧ f.payload = .json v := by
  have hhead : headBytes [] [] (codec.toVec v).length = utf8 (lengthLine (codec.toVec v).length) :=
    rfl
  have hbytes : encodeFrame codec v =
      utf8 (lengthLine (codec.toVec v).length) ++ (headerEnd ++ codec.toVec v) := by
    rw [encodeFrame, utf8_append, List.append_assoc]
    rfl
  have hlen : (encodeFrame codec v).length =
      (utf8 (lengthLine (codec.toVec v).length)).length + 4 + (codec.toVec v).length := by
    rw [hbytes, List.length_append, List.length_append, Nat.add_assoc]
    rfl
  refine ⟨Frame.ofLines [] [] (.json v) (fun _ h => nomatch h) (fun _ h => nomatch h) ?_, ?_, rfl⟩
  · rw [hlen] at hfits
    exact hfits
  · exact hbytes.symm

end Frames

/-! ## Two booleans on the wire -/

/-- The JSON crate on booleans. -/
def booleans : JsonCodec Bool where
  toVec
    | true => [116, 114, 117, 101]
    | false => [102, 97, 108, 115, 101]
  fromSlice b :=
    if b = [116, 114, 117, 101] then some true
    else if b = [102, 97, 108, 115, 101] then some false
    else none
  fromSlice_toVec v := by cases v <;> rfl

/-- A frame in two chunks, cut inside its header. -/
theorem feed_frames_cut :
    feed booleans [] [(encodeFrame booleans true).take 8, (encodeFrame booleans true).drop 8] =
      ([true], []) := by
  obtain ⟨f, hf, hp⟩ := @Frame.encoded _ booleans true (by decide +kernel)
  have hfed := feed_frames [f] [(encodeFrame booleans true).take 8,
    (encodeFrame booleans true).drop 8] (by simp [hf])
  rw [hfed]
  simp [hp, Payload.value]

/-- A header line that is no text hides the length behind it. -/
theorem not_feed_strayHeader : ¬∀ (extra : Bytes) (v : Bool), findHeaderEnd extra = none →
    feed booleans [] [extra ++ 13 :: 10 :: encodeFrame booleans v] = ([v], []) := by
  intro h
  have hfed := h [255] true (by decide)
  have hstep : frameStep booleans ([255] ++ 13 :: 10 :: encodeFrame booleans true) =
      .again [116, 114, 117, 101] := by decide +kernel
  have hreads : Reads booleans ([255] ++ 13 :: 10 :: encodeFrame booleans true) []
      [116, 114, 117, 101] := .again hstep (.wait (by decide))
  rw [feed, List.nil_append, hreads.drain] at hfed
  cases hfed

end Lsp

end Termesh
