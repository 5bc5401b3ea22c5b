import Termesh.App.LspState
import Termesh.Editor.Decoration
import Termesh.Lib.Decoding

/-!
# Highlighting

The parser reports captures in bytes, nested; the editor paints spans of characters.

* `Language`, `captures`, `kindOf`: what is highlighted, and as what;
* `ByteToChar`: the table of character offsets; **`get_new`**: what it says of any byte;
* `HighlightEvent`, `highlight`, `highlightFile`: the spans of a text;
* `Covers`: what a parser reports of a text;
* `innermost`, `painted`: the capture around a byte, and the span around a character;
* `Reports`: what the parser of a file says of it;
* **`highlight_faithful`**: every character is painted as the innermost capture around it.
-/

namespace Termesh

namespace Syntax

open Decoding (size)

/-- The languages with a grammar. -/
inductive Language where
  | rust
deriving DecidableEq, Repr

/-- The language of a file. -/
def Language.fromPath (path : Path) : Option Language :=
  match path.extension with
  | some "rs" => some .rust
  | _ => none

/-- `CAPTURES`. -/
def captures : List (String × SyntaxKind) :=
  [("keyword", .keyword), ("string", .stringLit), ("comment", .comment), ("number", .number),
    ("type", .type), ("function", .function), ("constructor", .type), ("type.builtin", .type),
    ("function.method", .function), ("function.macro", .function), ("constant", .number),
    ("constant.builtin", .number), ("escape", .stringLit)]

/-- The kind of a capture. -/
def kindOf (highlight : ℕ) : Option SyntaxKind := captures[highlight]?.map Prod.snd

/-! ## Bytes and characters -/

/-- The table with the number of each character at its first byte, and zeros elsewhere. -/
@[simp] def marks : ℕ → Text → List ℕ
  | _, [] => [0]
  | count, c :: t => count :: (List.replicate (c.utf8Size - 1) 0 ++ marks (count + 1) t)

/-- The loop over the table that carries the last number on. -/
@[simp] def carry : ℕ → List ℕ → List ℕ
  | _, [] => []
  | last, slot :: slots =>
    if slot = 0 ∧ last ≠ 0 then last :: carry last slots else slot :: carry slot slots

/-- Byte offset to character offset, precomputed. -/
structure ByteToChar where
  chars : List ℕ

namespace ByteToChar

/-- The table of a text. -/
def new (text : Text) : ByteToChar :=
  ⟨(carry 0 (marks 0 text)).set (size Char.utf8Size text) text.length⟩

/-- The character a byte belongs to. -/
def get (table : ByteToChar) (byte : ℕ) : ℕ :=
  table.chars[byte]?.getD (table.chars.getLast?.getD 0)

end ByteToChar

/-! ## Spans -/

/-- What a parser reports. -/
inductive HighlightEvent where
  | highlightStart (highlight : ℕ)
  | highlightEnd
  | source (start stop : ℕ)
deriving DecidableEq, Repr

/-- The loop of `highlight` over the events, with the captures that are open. -/
def spansFrom (charAt : ByteToChar) : List ℕ → List HighlightEvent → List (ℕ × ℕ × SyntaxKind)
  | _, [] => []
  | stack, .highlightStart highlight :: events => spansFrom charAt (highlight :: stack) events
  | stack, .highlightEnd :: events => spansFrom charAt stack.tail events
  | stack, .source start stop :: events =>
    match stack.head?.bind kindOf with
    | some kind =>
      if start < stop then
        (charAt.get start, charAt.get stop, kind) :: spansFrom charAt stack events
      else spansFrom charAt stack events
    | none => spansFrom charAt stack events

/-- A parser: nothing at all when it cannot parse, and events that may be errors. -/
abbrev Parser := Text → Option (List (Option HighlightEvent))

/-- `Highlighter::highlight`. -/
def highlight (parse : Parser) (text : Text) : List (ℕ × ℕ × SyntaxKind) :=
  match parse text with
  | none => []
  | some events => spansFrom (.new text) [] events.reduceOption

/-- `HIGHLIGHT_LIMIT`. -/
def highlightLimit : ℕ := 262144

/-- The spans of a file, as `sync_syntax` asks for them: none to paint where there is no language or
too much text, and no answer where there is no parser. -/
def highlightFile (parser : Language → Option Parser) (path : Path) (text : Text) :
    Option (List (ℕ × ℕ × SyntaxKind)) :=
  match Language.fromPath path with
  | none => some []
  | some language =>
    if highlightLimit < size Char.utf8Size text then some []
    else (parser language).map fun parse => highlight parse text

/-! ## The table -/

/-- The characters that end at a byte or in front of it. -/
@[simp] def charsBefore : Text → ℕ → ℕ
  | [], _ => 0
  | c :: t, byte => if c.utf8Size ≤ byte then charsBefore t (byte - c.utf8Size) + 1 else 0

theorem charsBefore_all {t : Text} {byte : ℕ} (h : size Char.utf8Size t ≤ byte) :
    charsBefore t byte = t.length := by
  induction t generalizing byte with
  | nil => rfl
  | cons c t ih =>
    rw [Decoding.size_cons] at h
    rw [charsBefore, if_pos (by omega), ih (by omega), List.length_cons]

theorem carry_replicate (count n : ℕ) (slots : List ℕ) :
    carry count (List.replicate n 0 ++ slots) = List.replicate n count ++ carry count slots := by
  induction n with
  | zero => rfl
  | succ n ih =>
    rw [List.replicate_succ, List.cons_append, carry, List.replicate_succ, List.cons_append]
    by_cases hcount : count = 0
    · subst hcount
      simpa using ih
    · rw [if_pos ⟨rfl, hcount⟩, ih]

theorem carry_marks_cons {last count : ℕ} (h : last ≠ 0 → count ≠ 0) (c : Char) (t : Text) :
    carry last (marks count (c :: t)) =
      List.replicate c.utf8Size count ++ carry count (marks (count + 1) t) := by
  have hsize : c.utf8Size = c.utf8Size - 1 + 1 := by
    have := c.utf8Size_pos
    omega
  have hif : ¬(count = 0 ∧ last ≠ 0) := fun hboth => h hboth.2 hboth.1
  rw [marks, carry, if_neg hif, carry_replicate, hsize, List.replicate_succ, List.cons_append]
  simp

theorem carry_marks (last count : ℕ) (h : last ≠ 0 → count ≠ 0) (t : Text) :
    (carry last (marks count t)).length = size Char.utf8Size t + 1 ∧
    ∀ byte < size Char.utf8Size t,
      (carry last (marks count t))[byte]? = some (count + charsBefore t byte) := by
  induction t generalizing last count with
  | nil => by_cases hlast : last = 0 <;> simp [hlast]
  | cons c t ih =>
    obtain ⟨hlen, hget⟩ := ih count (count + 1) (by simp)
    rw [carry_marks_cons h, Decoding.size_cons]
    refine ⟨by rw [List.length_append, List.length_replicate, hlen]; omega, fun byte hbyte => ?_⟩
    by_cases hin : byte < c.utf8Size
    · rw [List.getElem?_append_left (by simpa using hin), List.getElem?_replicate_of_lt hin,
        charsBefore, if_neg (by omega), Nat.add_zero]
    · rw [List.getElem?_append_right (by simpa using hin), List.length_replicate,
        hget _ (by omega), charsBefore, if_pos (by omega)]
      congr 1
      omega

/-- **The table counts the characters in front of a byte.** -/
theorem get_new (t : Text) (byte : ℕ) : (ByteToChar.new t).get byte = charsBefore t byte := by
  obtain ⟨hlen, hget⟩ := carry_marks 0 0 (by simp) t
  unfold ByteToChar.get ByteToChar.new
  rcases Nat.lt_trichotomy byte (size Char.utf8Size t) with hlt | heq | hgt
  · rw [List.getElem?_set_ne (by omega), hget byte hlt, Option.getD_some, Nat.zero_add]
  · subst heq
    rw [List.getElem?_set_self (by rw [hlen]; omega), Option.getD_some,
      charsBefore_all (Nat.le_refl _)]
  · have hlast : ((carry 0 (marks 0 t)).set (size Char.utf8Size t) t.length).getLast? =
        some t.length := by
      rw [List.getLast?_eq_getElem?, List.length_set, hlen, Nat.add_sub_cancel,
        List.getElem?_set_self (by rw [hlen]; omega)]
    rw [List.getElem?_eq_none (by rw [List.length_set, hlen]; omega), hlast, Option.getD_none,
      Option.getD_some, charsBefore_all hgt.le]

/-! ## What is painted -/

/-- Where a character starts, in bytes. -/
def byteAt (t : Text) (i : ℕ) : ℕ := size Char.utf8Size (t.take i)

/-- The pieces that a parser reports from a character on: each follows the one before it, and ends
where a character ends. -/
@[simp] def Covers (t : Text) : ℕ → List HighlightEvent → Prop
  | _, [] => True
  | i, .source start stop :: events =>
    start = byteAt t i ∧ ∃ j, i ≤ j ∧ j ≤ t.length ∧ stop = byteAt t j ∧ Covers t j events
  | i, _ :: events => Covers t i events

/-- The innermost capture around a byte. -/
@[simp] def innermost : List ℕ → List HighlightEvent → ℕ → Option SyntaxKind
  | _, [], _ => none
  | stack, .highlightStart highlight :: events, byte => innermost (highlight :: stack) events byte
  | stack, .highlightEnd :: events, byte => innermost stack.tail events byte
  | stack, .source start stop :: events, byte =>
    if start ≤ byte ∧ byte < stop then stack.head?.bind kindOf else innermost stack events byte

/-- The span around a character. -/
def painted (spans : List (ℕ × ℕ × SyntaxKind)) (i : ℕ) : Option SyntaxKind :=
  (spans.find? fun span => span.1 ≤ i ∧ i < span.2.1).map (·.2.2)

section

variable {t : Text} {i j : ℕ} {stack : List ℕ} {events : List HighlightEvent}

theorem charsBefore_byteAt (h : i ≤ t.length) : charsBefore t (byteAt t i) = i := by
  induction t generalizing i with
  | nil =>
    obtain rfl := Nat.le_zero.mp h
    rfl
  | cons c t ih =>
    cases i with
    | zero =>
      have hpos := c.utf8Size_pos
      rw [byteAt, List.take_zero, Decoding.size_nil, charsBefore, if_neg (by omega)]
    | succ i =>
      rw [byteAt, List.take_succ_cons, Decoding.size_cons, charsBefore, if_pos (by omega),
        Nat.add_sub_cancel_left]
      exact congrArg (· + 1) (ih (Nat.le_of_succ_le_succ h))

theorem byteAt_lt (hij : i < j) (hj : j ≤ t.length) : byteAt t i < byteAt t j := by
  induction t generalizing i j with
  | nil =>
    rw [List.length_nil] at hj
    omega
  | cons c t ih =>
    cases j with
    | zero => omega
    | succ j =>
      have hpos := c.utf8Size_pos
      cases i with
      | zero =>
        rw [byteAt, byteAt, List.take_zero, List.take_succ_cons, Decoding.size_cons]
        exact Nat.add_pos_left hpos _
      | succ i =>
        have hlt := ih (Nat.lt_of_succ_lt_succ hij) (Nat.le_of_succ_le_succ hj)
        simpa [byteAt] using hlt

theorem byteAt_le (hij : i ≤ j) (hj : j ≤ t.length) : byteAt t i ≤ byteAt t j := by
  rcases Nat.lt_or_eq_of_le hij with hlt | rfl
  · exact (byteAt_lt hlt hj).le
  · exact Nat.le_refl _

theorem painted_cons (span : ℕ × ℕ × SyntaxKind) (spans : List (ℕ × ℕ × SyntaxKind)) (k : ℕ) :
    painted (span :: spans) k =
      if span.1 ≤ k ∧ k < span.2.1 then some span.2.2 else painted spans k := by
  unfold painted
  rw [List.find?_cons]
  split_ifs with h <;> simp [h]

theorem painted_of_lt {spans : List (ℕ × ℕ × SyntaxKind)} {k : ℕ}
    (h : ∀ span ∈ spans, j ≤ span.1) (hk : k < j) : painted spans k = none := by
  rw [painted, List.find?_eq_none.mpr fun span hspan => ?_, Option.map_none]
  have := h span hspan
  simp
  omega

theorem piece_spec {spans : List (ℕ × ℕ × SyntaxKind)} {kind : Option SyntaxKind}
    (hj : j ≤ t.length)
    (hspans : ∀ span ∈ spans, j ≤ span.1 ∧ span.1 < span.2.1 ∧ span.2.1 ≤ t.length)
    (hpainted : ∀ k < t.length, j ≤ k → painted spans k = innermost stack events (byteAt t k))
    (hkind : stack.head?.bind kindOf = kind) {k : ℕ} (hk : k < t.length) (hik : i ≤ k) :
    painted (if i < j then kind.elim spans fun kind => (i, j, kind) :: spans else spans) k =
      innermost stack (.source (byteAt t i) (byteAt t j) :: events) (byteAt t k) := by
  rw [innermost, hkind]
  by_cases hkj : k < j
  · have hrest := painted_of_lt (fun span hspan => (hspans span hspan).1) hkj
    have hin : byteAt t i ≤ byteAt t k ∧ byteAt t k < byteAt t j :=
      ⟨byteAt_le hik hk.le, byteAt_lt hkj hj⟩
    rw [if_pos (hik.trans_lt hkj), if_pos hin]
    cases kind with
    | none => exact hrest
    | some kind =>
      rw [Option.elim_some, painted_cons, if_pos ⟨hik, hkj⟩]
  · have hjk := not_lt.mp hkj
    have hout : ¬(byteAt t i ≤ byteAt t k ∧ byteAt t k < byteAt t j) := fun hin =>
      absurd hin.2 (not_lt.mpr (byteAt_le hjk hk.le))
    rw [if_neg hout, ← hpainted k hk hjk]
    split_ifs
    · cases kind with
      | none => rfl
      | some kind =>
        rw [Option.elim_some, painted_cons, if_neg fun hin => hkj hin.2]
    · rfl

theorem spansFrom_source (hij : i ≤ j) (hj : j ≤ t.length) :
    spansFrom (.new t) stack (.source (byteAt t i) (byteAt t j) :: events) =
      if i < j then (stack.head?.bind kindOf).elim (spansFrom (.new t) stack events)
        fun kind => (i, j, kind) :: spansFrom (.new t) stack events
      else spansFrom (.new t) stack events := by
  have hlt : byteAt t i < byteAt t j ↔ i < j := by
    refine ⟨fun h => ?_, fun h => byteAt_lt h hj⟩
    rcases Nat.lt_or_eq_of_le hij with hlt | rfl
    · exact hlt
    · exact absurd h (lt_irrefl _)
  rw [spansFrom]
  cases stack.head?.bind kindOf with
  | none => simp
  | some kind =>
    simp only [get_new, hlt, charsBefore_byteAt hj, charsBefore_byteAt (hij.trans hj),
      Option.elim_some]

theorem spansFrom_spec (stack : List ℕ) (h : Covers t i events) (hi : i ≤ t.length) :
    (spansFrom (.new t) stack events).Pairwise (fun a b => a.2.1 ≤ b.1) ∧
    (∀ span ∈ spansFrom (.new t) stack events, i ≤ span.1 ∧ span.1 < span.2.1 ∧
      span.2.1 ≤ t.length) ∧
    ∀ k < t.length, i ≤ k →
      painted (spansFrom (.new t) stack events) k = innermost stack events (byteAt t k) := by
  induction events generalizing i stack with
  | nil => simp [spansFrom, painted]
  | cons event events ih =>
    cases event with
    | highlightStart highlight => exact ih _ h hi
    | highlightEnd => exact ih _ h hi
    | source start stop =>
      obtain ⟨rfl, j, hij, hj, rfl, hrest⟩ := h
      obtain ⟨hordered, hinside, hpainted⟩ := ih stack hrest hj
      rw [spansFrom_source hij hj]
      refine ⟨?_, fun span hmem => ?_, fun k hk hik =>
        piece_spec hj hinside hpainted rfl hk hik⟩
      · split_ifs
        · cases stack.head?.bind kindOf with
          | none => exact hordered
          | some kind => exact List.pairwise_cons.mpr ⟨fun b hb => (hinside b hb).1, hordered⟩
        · exact hordered
      · have hlater : ∀ span ∈ spansFrom (.new t) stack events,
            i ≤ span.1 ∧ span.1 < span.2.1 ∧ span.2.1 ≤ t.length := fun span hin =>
          ⟨hij.trans (hinside span hin).1, (hinside span hin).2⟩
        split_ifs at hmem with hlt
        · cases hkind : stack.head?.bind kindOf with
          | none =>
            rw [hkind] at hmem
            exact hlater span hmem
          | some kind =>
            rw [hkind] at hmem
            rcases List.mem_cons.mp hmem with rfl | hin
            · exact ⟨Nat.le_refl _, hlt, hj⟩
            · exact hlater span hin
        · exact hlater span hmem

theorem highlight_spec {parse : Parser} {events : List (Option HighlightEvent)}
    (hparse : parse t = some events) (hcovers : Covers t 0 events.reduceOption) :
    (highlight parse t).Pairwise (fun a b => a.2.1 ≤ b.1) ∧
    (∀ span ∈ highlight parse t, span.1 < span.2.1 ∧ span.2.1 ≤ t.length) ∧
    ∀ k < t.length,
      painted (highlight parse t) k = innermost [] events.reduceOption (byteAt t k) := by
  have hspans : highlight parse t = spansFrom (.new t) [] events.reduceOption := by
    rw [highlight, hparse]
  obtain ⟨hordered, hinside, hpainted⟩ := spansFrom_spec [] hcovers (Nat.zero_le _)
  rw [hspans]
  exact ⟨hordered, fun span hspan => (hinside span hspan).2,
    fun k hk => hpainted k hk (Nat.zero_le _)⟩

end

/-- What the parser of a file's language reports of it, where the file is not too long. -/
def Reports (parser : Language → Option Parser) (path : Path) (t : Text)
    (events : List (Option HighlightEvent)) : Prop :=
  ∃ language parse, Language.fromPath path = some language ∧
    size Char.utf8Size t ≤ highlightLimit ∧ parser language = some parse ∧ parse t = some events

/-- **Highlighting is faithful.** With parsers that report the pieces of a text one after the other,
the spans of a file are in order, disjoint and inside the text, and each character is in a span of
the kind of the innermost capture around its first byte, or in none where that capture has no kind.
A file that no parser reports on has no spans, and only one whose parser is missing no answer. -/
theorem highlight_faithful (parser : Language → Option Parser)
    (hreports : ∀ language parse, parser language = some parse → ∀ text events,
      parse text = some events → Covers text 0 events.reduceOption)
    (path : Path) (t : Text) :
    (highlightFile parser path t = none ↔ ∃ language, Language.fromPath path = some language ∧
      size Char.utf8Size t ≤ highlightLimit ∧ parser language = none) ∧
    ∀ spans, highlightFile parser path t = some spans →
      spans.Pairwise (fun a b => a.2.1 ≤ b.1) ∧
      (∀ span ∈ spans, span.1 < span.2.1 ∧ span.2.1 ≤ t.length) ∧
      (∀ events, Reports parser path t events → ∀ k < t.length,
        painted spans k = innermost [] events.reduceOption (byteAt t k)) ∧
      ((¬∃ events, Reports parser path t events) → spans = []) := by
  cases hlanguage : Language.fromPath path with
  | none => simp [highlightFile, hlanguage, Reports]
  | some language =>
    by_cases hlong : highlightLimit < size Char.utf8Size t
    · simp [highlightFile, hlanguage, hlong, Reports, not_le.mpr hlong]
    · have hshort := not_lt.mp hlong
      cases hparser : parser language with
      | none =>
        have hspans : highlightFile parser path t = none := by
          simp [highlightFile, hlanguage, hlong, hparser]
        refine ⟨iff_of_true hspans ⟨language, rfl, hshort, hparser⟩, fun spans h => ?_⟩
        exact absurd (hspans.symm.trans h) (Option.some_ne_none spans).symm
      | some parse =>
        have hspans : highlightFile parser path t = some (highlight parse t) := by
          simp [highlightFile, hlanguage, hlong, hparser]
        have hsaid : ∀ events, Reports parser path t events ↔ parse t = some events := by
          refine fun events => ⟨?_, fun h => ⟨language, parse, hlanguage, hshort, hparser, h⟩⟩
          rintro ⟨l, p, hl, -, hp, h⟩
          obtain rfl := Option.some.inj (hlanguage.symm.trans hl)
          obtain rfl := Option.some.inj (hparser.symm.trans hp)
          exact h
        refine ⟨by simp [hspans, hparser], fun spans h => ?_⟩
        obtain rfl := Option.some.inj (hspans.symm.trans h)
        cases hparse : parse t with
        | none => simp [highlight, hparse, hsaid]
        | some events =>
          obtain ⟨hordered, hinside, hpainted⟩ :=
            highlight_spec hparse (hreports language parse hparser t events hparse)
          refine ⟨hordered, hinside, fun events' hevents' => ?_, fun hno => ?_⟩
          · obtain rfl := Option.some.inj (hparse.symm.trans ((hsaid events').mp hevents'))
            exact hpainted
          · exact absurd ⟨events, (hsaid events).mpr hparse⟩ hno

/-- A parser of one text: a keyword inside a comment, behind a character of two bytes. -/
def keywordInComment : Parser := fun t =>
  if t = ['é', 'f', 'n', ' '] then
    some [some (.highlightStart 2), some (.source 0 2), none, some (.highlightStart 0),
      some (.source 2 4), some .highlightEnd, some (.source 4 5), some .highlightEnd]
  else none

theorem highlight_faithful_comment :
    highlightFile (fun _ => some keywordInComment) [.normal "a.rs"] ['é', 'f', 'n', ' '] =
      some [(0, 1, .comment), (1, 3, .keyword), (3, 4, .comment)] ∧
    ∀ events, Reports (fun _ => some keywordInComment) [.normal "a.rs"] ['é', 'f', 'n', ' '] events →
      ∀ k < 4, painted [(0, 1, .comment), (1, 3, .keyword), (3, 4, .comment)] k =
        innermost [] events.reduceOption (byteAt ['é', 'f', 'n', ' '] k) := by
  have hreports : ∀ text events, keywordInComment text = some events →
      Covers text 0 events.reduceOption := by
    intro text events h
    unfold keywordInComment at h
    split_ifs at h with htext
    cases h
    subst htext
    exact ⟨by decide, 1, by decide, by decide, by decide, by decide, 3, by decide, by decide,
      by decide, by decide, 4, by decide, by decide, by decide, trivial⟩
  have hspans : highlightFile (fun _ => some keywordInComment) [.normal "a.rs"]
      ['é', 'f', 'n', ' '] = some [(0, 1, .comment), (1, 3, .keyword), (3, 4, .comment)] := by
    decide +kernel
  refine ⟨hspans, ((highlight_faithful (fun _ => some keywordInComment) (fun _ parse hp => ?_)
    [.normal "a.rs"] _).2 _ hspans).2.2.1⟩
  obtain rfl := Option.some.inj hp
  exact hreports

end Syntax

end Termesh
