import Termesh.Editor.Change
import Termesh.Lib.WellFormed

/-!
# Captured output

The bounded text kept of what a process wrote, decoded chunk by chunk and trimmed in front.

* `CapturedOutput`: `push`, `finish`, `enforceLimit`; `decodeCompletePrefix`: the decoding loop;
* `Captured`: what a capture holds of a stream; `Captured.push`, `Captured.pushAll`;
* **`captured_tail`**: in the end it holds the end of the decoded stream, however it was cut up.
-/

namespace Termesh

open Decoding Utf8

/-- The most bytes that are kept. -/
def maxCaptureLimit : ℕ := 8388608

/-- The replacement character. -/
def replacement : Char := '\ufffd'

/-- `String::len`, in bytes. -/
def byteLen (t : Text) : ℕ := size Char.utf8Size t

theorem drained_lt {pending : List UInt8} {e : Utf8Error} {len : ℕ}
    (he : fromUtf8 pending = .error e) (hlen : e.errorLen = some len) :
    ((pending.drop e.validUpTo).drop len).length < pending.length := by
  obtain ⟨t, rest, rfl, hne, -, ⟨n, hn, hsome⟩ | ⟨-, hnone⟩⟩ := fromUtf8_error he
  · have hfits := leading_fits rest
    rw [hn] at hfits
    obtain rfl : n = len := Option.some.inj (hsome.symm.trans hlen)
    have hpos := hfits.1
    have hrest := List.length_pos_iff.mpr hne
    rw [List.length_drop, List.length_drop, List.length_append]
    omega
  · rw [hnone] at hlen
    cases hlen

/-- The loop of `decode_complete_prefix`: the text, and what stays pending. `none` is its `expect`. -/
def decodeCompletePrefix (finish : Bool) (text : Text) (pending : List UInt8) :
    Option (Text × List UInt8) :=
  match _he : fromUtf8 pending with
  | .ok valid => some (text ++ valid, [])
  | .error e =>
    match fromUtf8 (pending.take e.validUpTo) with
    | .error _ => none
    | .ok valid =>
      match _hlen : e.errorLen with
      | some len =>
        decodeCompletePrefix finish (text ++ valid ++ [replacement])
          ((pending.drop e.validUpTo).drop len)
      | none =>
        if finish then some (text ++ valid ++ [replacement], [])
        else some (text ++ valid, pending.drop e.validUpTo)
termination_by pending.length
decreasing_by exact drained_lt _he _hlen

/-- `drain(..remove)`, with `remove` moved up to the next character boundary. -/
def dropFront : Text → ℕ → Text
  | [], _ => []
  | c :: t, remove => if remove = 0 then c :: t else dropFront t (remove - c.utf8Size)

/-- The end of an output. -/
structure CapturedOutput where
  text : Text
  pendingUtf8 : List UInt8
  limit : ℕ
  truncated : Bool

namespace CapturedOutput

/-- Nothing is captured yet. -/
def new (requested : ℕ) : CapturedOutput where
  text := []
  pendingUtf8 := []
  limit := min requested maxCaptureLimit
  truncated := false

/-- What is kept. -/
def asStr (c : CapturedOutput) : Text := c.text

/-- What is too much goes from the front. -/
def enforceLimit (c : CapturedOutput) : CapturedOutput :=
  if byteLen c.text ≤ c.limit then c
  else { c with text := dropFront c.text (byteLen c.text - c.limit), truncated := true }

/-- `decode_complete_prefix`. -/
def decode (c : CapturedOutput) (finish : Bool) : Option CapturedOutput :=
  (decodeCompletePrefix finish c.text c.pendingUtf8).map fun (text, pendingUtf8) =>
    { c with text, pendingUtf8 }

/-- Append one chunk. -/
def push (c : CapturedOutput) (bytes : List UInt8) : Option CapturedOutput :=
  ({ c with pendingUtf8 := c.pendingUtf8 ++ bytes }.decode false).map enforceLimit

/-- Flush an incomplete final sequence. -/
def finish (c : CapturedOutput) : Option CapturedOutput := (c.decode true).map enforceLimit

/-- Chunks pushed in order. -/
def pushAll (c : CapturedOutput) : List (List UInt8) → Option CapturedOutput
  | [] => some c
  | bytes :: chunks => (c.push bytes).bind (pushAll · chunks)

end CapturedOutput

/-! ## One call -/

/-- **What one call decodes**, and the incomplete sequence it leaves pending, or replaces in the
end. -/
theorem decodeCompletePrefix_spec (finish : Bool) (text : Text) (pending : List UInt8) :
    ∃ u rest, SoFar String.utf8EncodeChar replacement pending rest u ∧
      Incomplete String.utf8EncodeChar rest ∧
      decodeCompletePrefix finish text pending =
        if finish then some (text ++ if rest = [] then u else u ++ [replacement], [])
        else some (text ++ u, rest) := by
  induction hn : pending.length using Nat.strong_induction_on generalizing text pending with
  | _ n ih =>
    unfold decodeCompletePrefix
    split
    · rename_i valid he
      have hread : SoFar String.utf8EncodeChar replacement pending [] valid := by
        have hwords : SoFar String.utf8EncodeChar replacement (utf8 valid ++ []) [] valid :=
          SoFar.words valid []
        rw [List.append_nil] at hwords
        rwa [eq_utf8_of_fromUtf8 he]
      refine ⟨valid, [], hread, leading_fits [], ?_⟩
      rw [if_pos rfl, ite_self]
    · rename_i e he
      obtain ⟨t, rest, heq, hne, hvalid, hcase⟩ := fromUtf8_error he
      have htake : pending.take e.validUpTo = utf8 t := by rw [heq, hvalid, List.take_left]
      have hdrop : pending.drop e.validUpTo = rest := by rw [heq, hvalid, List.drop_left]
      have hread : SoFar String.utf8EncodeChar replacement pending rest t := by
        rw [heq]
        exact SoFar.words t rest
      rw [htake, fromUtf8_utf8]
      dsimp only
      have hfits := leading_fits rest
      split
      · rename_i len hlen
        rcases hcase with ⟨m, hm, hsome⟩ | ⟨-, hnone⟩
        · obtain rfl : m = len := Option.some.inj (hsome.symm.trans hlen)
          rw [hm] at hfits
          have hless := drained_lt he hlen
          rw [hdrop] at hless ⊢
          obtain ⟨u, rest', hsofar, hcut, hdecode⟩ :=
            ih _ (hn ▸ hless) (text ++ t ++ [replacement]) (rest.drop m) rfl
          have hstep : SoFar String.utf8EncodeChar replacement rest (rest.drop m) [replacement] :=
            SoFar.invalid hfits.2.2.1 hfits.2.2.2
          refine ⟨t ++ ([replacement] ++ u), rest', hread.trans (hstep.trans hsofar), hcut, ?_⟩
          rw [hdecode]
          cases finish with
          | false => simp
          | true =>
            by_cases hnil : rest' = [] <;> simp [hnil]
        · rw [hnone] at hlen
          cases hlen
      · rename_i hlen
        rcases hcase with ⟨m, -, hsome⟩ | ⟨hcut, -⟩
        · rw [hsome] at hlen
          cases hlen
        · rw [hcut] at hfits
          refine ⟨t, rest, hread, hfits, ?_⟩
          rw [hdrop, if_neg hne, List.append_assoc]

theorem dropFront_isTail (t : Text) {remove limit : ℕ} (h : byteLen t = remove + limit) :
    IsTail Char.utf8Size limit t (dropFront t remove) := by
  induction t generalizing remove with
  | nil => exact .self (Nat.zero_le _)
  | cons c t ih =>
    rw [dropFront]
    have hcons : byteLen (c :: t) = c.utf8Size + byteLen t := rfl
    split_ifs with hzero
    · refine .self (Nat.le_of_eq ?_)
      rw [hzero, Nat.zero_add] at h
      exact h
    · have hbig : limit < size Char.utf8Size (c :: t) := by
        have hsize : size Char.utf8Size (c :: t) = remove + limit := h
        omega
      refine IsTail.cons ?_ hbig
      by_cases hc : c.utf8Size ≤ remove
      · exact ih (by omega)
      · -- the boundary is behind this character
        have hrest : remove - c.utf8Size = 0 := by omega
        have hkept : dropFront t 0 = t := by cases t <;> rfl
        rw [hrest, hkept]
        refine .self ?_
        show byteLen t ≤ limit
        omega

/-! ## A run -/

/-- What a capture holds of a stream that was read up to here. -/
structure Captured (c : CapturedOutput) (read : List UInt8) (whole : Text) : Prop where
  tail : IsTail Char.utf8Size c.limit whole c.text
  cut : c.truncated = true ↔ c.text ≠ whole
  soFar : SoFar String.utf8EncodeChar replacement read c.pendingUtf8 whole
  pending : Incomplete String.utf8EncodeChar c.pendingUtf8

namespace Captured

variable {c : CapturedOutput} {read : List UInt8} {whole u : Text}

theorem enforceLimit_tail (htail : IsTail Char.utf8Size c.limit whole c.text)
    (hcut : c.truncated = true ↔ c.text ≠ whole) (pending : List UInt8) :
    IsTail Char.utf8Size c.limit (whole ++ u)
        ({ c with text := c.text ++ u, pendingUtf8 := pending } : CapturedOutput).enforceLimit.text ∧
      (({ c with text := c.text ++ u, pendingUtf8 := pending } :
          CapturedOutput).enforceLimit.truncated = true ↔
        ({ c with text := c.text ++ u, pendingUtf8 := pending } :
          CapturedOutput).enforceLimit.text ≠ whole ++ u) := by
  unfold CapturedOutput.enforceLimit
  dsimp only
  split_ifs with hfits
  · have hend : IsTail Char.utf8Size c.limit (c.text ++ u) (c.text ++ u) := .self hfits
    refine ⟨htail.append hend, ?_⟩
    rw [htail.ne_iff hend]
    show c.truncated = true ↔ _
    rw [hcut]
    simp
  · have hremove : byteLen (c.text ++ u) = byteLen (c.text ++ u) - c.limit + c.limit := by omega
    have hend := dropFront_isTail (c.text ++ u) hremove
    refine ⟨htail.append hend, iff_of_true rfl ?_⟩
    refine (htail.ne_iff hend).mpr (.inr fun heq => hfits ?_)
    have hsize := hend.fits
    rw [heq] at hsize
    exact hsize

/-- **A chunk is pushed.** -/
theorem push (h : Captured c read whole) (bytes : List UInt8) :
    ∃ c' whole', c.push bytes = some c' ∧ c'.limit = c.limit ∧
      Captured c' (read ++ bytes) whole' := by
  obtain ⟨u, rest, hsofar, hcut, hdecode⟩ :=
    decodeCompletePrefix_spec false c.text (c.pendingUtf8 ++ bytes)
  rw [if_neg (by decide)] at hdecode
  have hstep : c.push bytes =
      some ({ c with text := c.text ++ u, pendingUtf8 := rest } : CapturedOutput).enforceLimit := by
    rw [CapturedOutput.push, CapturedOutput.decode]
    dsimp only
    rw [hdecode]
    rfl
  obtain ⟨htail, htrunc⟩ := enforceLimit_tail (u := u) h.tail h.cut rest
  have hkept : ∀ c' : CapturedOutput, c'.enforceLimit.limit = c'.limit ∧
      c'.enforceLimit.pendingUtf8 = c'.pendingUtf8 := by
    intro c'
    unfold CapturedOutput.enforceLimit
    split_ifs <;> exact ⟨rfl, rfl⟩
  refine ⟨_, whole ++ u, hstep, (hkept _).1, ?_, htrunc, ?_, ?_⟩
  · rw [(hkept _).1]
    exact htail
  · rw [(hkept _).2]
    exact (h.soFar.feed bytes).trans hsofar
  · rw [(hkept _).2]
    exact hcut

/-- **Chunks are pushed in order.** -/
theorem pushAll (h : Captured c read whole) (chunks : List (List UInt8)) :
    ∃ c' whole', c.pushAll chunks = some c' ∧ c'.limit = c.limit ∧
      Captured c' (read ++ chunks.flatten) whole' := by
  induction chunks generalizing c read whole with
  | nil => exact ⟨c, whole, rfl, rfl, by rwa [List.flatten_nil, List.append_nil]⟩
  | cons bytes chunks ih =>
    obtain ⟨c₁, whole₁, hpush, hlimit, h₁⟩ := h.push bytes
    obtain ⟨c₂, whole₂, hrest, hlimit₂, h₂⟩ := ih h₁
    refine ⟨c₂, whole₂, ?_, hlimit₂.trans hlimit, ?_⟩
    · rw [CapturedOutput.pushAll, hpush, Option.bind_some, hrest]
    · rwa [List.flatten_cons, ← List.append_assoc]

/-- **The capture is finished.** -/
theorem finish (h : Captured c read whole) :
    ∃ c' whole', c.finish = some c' ∧ Lossy String.utf8EncodeChar replacement read whole' ∧
      IsTail Char.utf8Size c.limit whole' c'.text ∧
      (c'.truncated = true ↔ c'.text ≠ whole') := by
  obtain ⟨u, rest, hsofar, hcut, hdecode⟩ := decodeCompletePrefix_spec true c.text c.pendingUtf8
  rw [if_pos rfl] at hdecode
  generalize hlast : (if rest = [] then u else u ++ [replacement]) = last at hdecode
  have hstep : c.finish =
      some ({ c with text := c.text ++ last, pendingUtf8 := [] } : CapturedOutput).enforceLimit := by
    rw [CapturedOutput.finish, CapturedOutput.decode, hdecode]
    rfl
  have hall := (h.soFar.trans hsofar).finish hcut
  have hwhole : (if rest = [] then whole ++ u else whole ++ u ++ [replacement]) =
      whole ++ last := by
    rw [← hlast]
    split_ifs
    · rfl
    · exact List.append_assoc _ _ _
  rw [hwhole] at hall
  obtain ⟨htail, htrunc⟩ := enforceLimit_tail (u := last) h.tail h.cut []
  exact ⟨_, whole ++ last, hstep, hall, htail, htrunc⟩

end Captured

theorem captured_new (requested : ℕ) : Captured (.new requested) [] [] where
  tail := .self (Nat.zero_le _)
  cut := by simp [CapturedOutput.new]
  soFar := .refl []
  pending := leading_fits []

/-- **Captured output is the exact end of the stream**: however the stream is cut up, the capture is
finished with the longest end of its lossy decoding within the limit, and says whether that is all. -/
theorem captured_tail (requested : ℕ) (chunks : List (List UInt8)) :
    ∃ c whole, ((CapturedOutput.new requested).pushAll chunks).bind CapturedOutput.finish = some c ∧
      Lossy String.utf8EncodeChar replacement chunks.flatten whole ∧
      (∀ w, Lossy String.utf8EncodeChar replacement chunks.flatten w → w = whole) ∧
      IsTail Char.utf8Size (min requested maxCaptureLimit) whole c.asStr ∧
      (c.truncated = true ↔ c.asStr.length < whole.length) := by
  obtain ⟨c₁, whole₁, hpush, hlimit, h₁⟩ := (captured_new requested).pushAll chunks
  rw [List.nil_append] at h₁
  obtain ⟨c, whole, hfinish, hall, htail, hcut⟩ := h₁.finish
  rw [hlimit] at htail
  refine ⟨c, whole, by rw [hpush, Option.bind_some, hfinish], hall,
    fun w hw => hw.unique prefixCode hall, htail, ?_⟩
  rw [hcut]
  have hle := htail.suffix.length_le
  constructor
  · intro hne
    exact Nat.lt_of_le_of_ne hle fun heq => hne (htail.suffix.eq_of_length heq)
  · intro hlt heq
    rw [CapturedOutput.asStr, heq] at hlt
    exact Nat.lt_irrefl _ hlt

end Termesh
