import NotaryModel.Guest.Http

open Text

namespace Guest

-- The size and what follows of a first line, if it is the line of a whole chunk.
def nextChunk (s : Bytes) : Option (Nat × Bytes) :=
  match splitOnce crlf s with
  | none              => none
  | some (line, rest) =>
    match chunkLen line with
    | none   => none
    | some n => if 0 < n ∧ n ≤ rest.length then some (n, rest) else none

def StartsWithChunk (s : Bytes) : Prop :=
  (nextChunk s).isSome

-- Read as chunks, one of the chunks ends inside a character.
inductive CutsCharacter : Bytes → Prop
  | here (h : nextChunk s = some (n, rest)) (hb : isCharBoundary rest n = false) : CutsCharacter s
  | there (h : nextChunk s = some (n, rest)) (hc : CutsCharacter (stripCrlf (rest.drop n))) :
    CutsCharacter s

-- The size of a chunk in hexadecimal, and extensions that may follow it.
structure SizeLine (line : Bytes) (n : Nat) : Prop where
  noLf : 0x0a ∉ line
  size : ∃ digits ext, line = digits ++ ext ∧ IsHex digits ∧ digits ≠ [] ∧ hexValue digits = n ∧
    (ext = [] ∨ ext.head? = some 0x3b)

structure Chunk where
  line : Bytes
  data : Bytes
  size : SizeLine line data.length
  ne   : data ≠ []
  fits : data.length < 2 ^ 64

def Chunk.bytes (c : Chunk) : Bytes :=
  c.line ++ crlf ++ c.data ++ crlf

-- The body of a response, as is or in chunks.
inductive Body
  | asIs (text : Bytes)
  | chunked (chunks : List Chunk) (last : Bytes) (h : SizeLine last 0)

namespace Body

def text : Body → Bytes
  | asIs b         => b
  | chunked cs _ _ => cs.flatMap Chunk.data

def bytes : Body → Bytes
  | asIs b            => b
  | chunked cs last _ => cs.flatMap Chunk.bytes ++ last ++ blankLine

-- All chunks, of which there is one, are in the first `m` bytes.
def ChunksWithin (m : Nat) : Body → Prop
  | asIs _         => False
  | chunked cs _ _ => cs ≠ [] ∧ (cs.flatMap Chunk.bytes).length ≤ m + 2

end Body

structure Response where
  head    : Bytes
  body    : Body
  noBlank : ¬blankLine <:+: head ++ blankLine.dropLast

namespace Response

def bytes (r : Response) : Bytes :=
  r.head ++ blankLine ++ r.body.bytes

-- What the first `n` bytes hold of the body, up to a blank line.
def segment (r : Response) (n : Nat) : Bytes :=
  upTo blankLine (r.body.bytes.take (n - (r.head.length + 4)))

end Response

theorem loop_eq (s out : Bytes) : unchunk.loop s out =
    match nextChunk s with
    | none           => pure out
    | some (n, rest) =>
      sliceTo rest n >>= fun chunk => unchunk.loop (stripCrlf (rest.drop n)) (out ++ chunk) := by
  rw [unchunk.loop, nextChunk]
  split
  case h_1 h => rw [h]
  case h_2 line rest h =>
    rw [h]
    dsimp only
    cases chunkLen line
    case none   => rfl
    case some n =>
      dsimp only
      by_cases hn : n = 0
      · rw [if_pos hn, if_neg (by omega)]
      · by_cases hl : rest.length < n
        · rw [if_neg hn, if_pos hl, if_neg (by omega)]
        · rw [if_neg hn, if_neg hl, if_pos ⟨by omega, by omega⟩]

theorem nextChunk_length (h : nextChunk s = some (n, rest)) :
    0 < n ∧ n ≤ rest.length ∧ rest.length < s.length := by
  rw [nextChunk] at h
  split at h
  case h_1 => cases h
  case h_2 hs =>
    split at h
    case h_1 => cases h
    case h_2 =>
      split_ifs at h with hn
      cases h
      exact ⟨hn.1, hn.2, length_lt_of_splitOnce hs⟩

theorem sliceTo_eq_ok (h : isCharBoundary s n = true) : sliceTo s n = .ok (s.take n) := by
  simp [sliceTo, Exec.assert, h, pure, Except.pure]

theorem loop_none (h : nextChunk s = none) : unchunk.loop s out = .ok out := by
  rw [loop_eq, h]
  rfl

theorem loop_some (h : nextChunk s = some (n, rest)) (hb : isCharBoundary rest n = true) :
    unchunk.loop s out = unchunk.loop (stripCrlf (rest.drop n)) (out ++ rest.take n) := by
  rw [loop_eq, h]
  simp only [sliceTo_eq_ok hb, Exec.ok_bind]

theorem loop_cutsCharacter (h : CutsCharacter s) : unchunk.loop s out ≠ .ok t := by
  induction h generalizing out
  case here h hb =>
    rw [loop_eq, h]
    simp [sliceTo, Exec.assert, hb, Exec.abort, bind, Except.bind]
  case there s n rest h hc hi =>
    cases hb : isCharBoundary rest n
    case false =>
      rw [loop_eq, h]
      simp [sliceTo, Exec.assert, hb, Exec.abort, bind, Except.bind]
    case true =>
      rw [loop_some h hb]
      exact hi

-- What is read as chunks is shorter than what it is read from.
theorem loop_ok (s out : Bytes) (h : ¬CutsCharacter s) :
    ∃ more, unchunk.loop s out = .ok (out ++ more) ∧ (StartsWithChunk s ↔ more ≠ []) ∧
      more.length ≤ s.length ∧ (more ≠ [] → more.length < s.length) := by
  induction hl : s.length using Nat.strong_induction_on generalizing s out
  case h l hi =>
    cases hn : nextChunk s
    case none =>
      refine ⟨[], by rw [loop_none hn, List.append_nil], ?_, Nat.zero_le _, fun h => absurd rfl h⟩
      simp [StartsWithChunk, hn]
    case some c =>
      obtain ⟨n, rest⟩ := c
      have ⟨hp, hle, hlt⟩ := nextChunk_length hn
      have hb : isCharBoundary rest n = true := by
        by_contra hb
        exact h (.here hn (Bool.eq_false_iff.mpr hb))
      have hs := length_stripCrlf_le (rest.drop n)
      rw [List.length_drop] at hs
      have ⟨more, hm, _, hml, _⟩ := hi _ (by omega) (stripCrlf (rest.drop n)) (out ++ rest.take n)
        (fun hc => h (.there hn hc)) rfl
      have ht : (rest.take n ++ more).length < s.length := by
        rw [List.length_append, List.length_take]
        omega
      refine ⟨rest.take n ++ more, ?_, ?_, by omega, fun _ => by omega⟩
      · rw [loop_some hn hb, hm, List.append_assoc]
      · have hr : rest.take n ≠ [] := by
          rw [←List.length_pos_iff, List.length_take]
          omega
        simp [StartsWithChunk, hn, hr]

theorem chunkLen_append (hd : IsHex digits) (hne : digits ≠ [])
    (hext : ext = [] ∨ ext.head? = some 0x3b) (hn : hexValue digits < 2 ^ 64) :
    chunkLen (digits ++ ext) = some (hexValue digits) := by
  have hs : 0x3b ∉ digits := fun hm => absurd (hd _ hm) (by decide)
  have hu : upTo [0x3b] (digits ++ ext) = digits := by
    have hi : ¬[0x3b] <:+: digits ++ ([0x3b] : Bytes).dropLast := by
      rw [List.dropLast_singleton, List.append_nil]
      exact fun h => hs (h.subset (List.mem_singleton_self _))
    obtain rfl | hext := hext
    case inl =>
      rw [List.append_nil, upTo, splitOnce_eq_none (by simpa using hi)]
      rfl
    case inr =>
      obtain ⟨e, rfl⟩ := List.head?_eq_some_iff.mp hext
      have hc := splitOnce_append (y := e) (List.cons_ne_nil _ _) hi
      rw [List.append_assoc, List.singleton_append] at hc
      rw [upTo, hc]
      rfl
  rw [chunkLen, headD_split, hu, trim_eq hd, fromStrRadix16_eq hd hne hn]

theorem SizeLine.chunkLen_eq (h : SizeLine line n) (hn : n < 2 ^ 64) : chunkLen line = some n := by
  obtain ⟨digits, ext, rfl, hd, hne, rfl, hext⟩ := h.size
  exact chunkLen_append hd hne hext hn

theorem crlf_not_isInfix (h : 0x0a ∉ s) : ¬crlf <:+: s :=
  fun hi => h (hi.subset (by decide))

theorem splitOnce_line (h : 0x0a ∉ line) : splitOnce crlf (line ++ crlf ++ s) = some (line, s) := by
  refine splitOnce_append (by decide) (crlf_not_isInfix fun hm => ?_)
  obtain hm | hm := List.mem_append.mp hm
  · exact h hm
  · exact absurd hm (by decide)

-- A line that is cut off is no line.
theorem nextChunk_cut (h : 0x0a ∉ line) (hm : m < line.length + 2) :
    nextChunk ((line ++ crlf ++ s).take m) = none := by
  have ht : (line ++ crlf ++ s).take m = (line ++ [0x0d]).take m := by
    have hs : line ++ crlf ++ s = (line ++ [0x0d]) ++ (0x0a :: s) := by simp [crlf]
    rw [hs, List.take_append_of_le_length (by simp; omega)]
  have hn : 0x0a ∉ (line ++ [0x0d]).take m := by
    intro hm
    obtain hm | hm := List.mem_append.mp (List.mem_of_mem_take hm)
    · exact h hm
    · exact absurd hm (by decide)
  rw [ht, nextChunk, splitOnce_eq_none (crlf_not_isInfix hn)]

theorem nextChunk_line (h : SizeLine line n) (hn : n < 2 ^ 64) (hm : line.length + 2 ≤ m) :
    nextChunk ((line ++ crlf ++ s).take m) =
    if 0 < n ∧ n ≤ (s.take (m - (line.length + 2))).length then
      some (n, s.take (m - (line.length + 2)))
    else
      none := by
  have hl : (line ++ crlf).length = line.length + 2 := List.length_append
  rw [List.take_append, List.take_of_length_le (hl ▸ hm), hl, nextChunk, splitOnce_line h.noLf]
  simp only [h.chunkLen_eq hn]

theorem isCharBoundary_append (h : t.head? = none ∨ t.head? = some 0x0d) :
    isCharBoundary (s ++ t) s.length = true := by
  unfold isCharBoundary
  rw [List.getElem?_append_right le_rfl, Nat.sub_self, ←List.head?_eq_getElem?]
  obtain h | h := h
  · simp [List.head?_eq_none_iff.mp h]
  · simp [h]

-- The data of the chunks that are whole in the first `m` bytes.
def received : List Chunk → Nat → Bytes
  | [], _      => []
  | c :: cs, m =>
    if c.line.length + 2 + c.data.length ≤ m then
      c.data ++ received cs (m - c.bytes.length)
    else
      []

theorem length_bytes (c : Chunk) : c.bytes.length = c.line.length + 2 + c.data.length + 2 := by
  simp [Chunk.bytes, crlf]
  omega

theorem received_zero (cs : List Chunk) : received cs 0 = [] := by
  cases cs
  case nil => rfl
  case cons c cs => rw [received, if_neg (by omega)]

theorem stripCrlf_take (h : 2 ≤ k) : stripCrlf ((crlf ++ s).take k) = s.take (k - 2) := by
  have hl : crlf.length = 2 := rfl
  have hp : crlf.isPrefixOf (crlf ++ s.take (k - 2)) = true :=
    List.isPrefixOf_iff_prefix.mpr (List.prefix_append _ _)
  rw [List.take_append, List.take_of_length_le h, hl, stripCrlf, if_pos hp, ←hl, List.drop_left]

theorem nextChunk_stripCrlf_cut (h : k < 2) : nextChunk (stripCrlf ((crlf ++ s).take k)) = none := by
  interval_cases k <;> rfl

theorem loop_take (hl : SizeLine last 0) :
    unchunk.loop ((cs.flatMap Chunk.bytes ++ last ++ blankLine).take m) out =
    .ok (out ++ received cs m) := by
  induction cs generalizing m out
  case nil =>
    rw [received, List.append_nil]
    refine loop_none ?_
    have hb : last ++ blankLine = last ++ crlf ++ crlf := by simp [blankLine, crlf]
    rw [List.flatMap_nil, List.nil_append, hb]
    by_cases hm : m < last.length + 2
    · exact nextChunk_cut hl.noLf hm
    · rw [nextChunk_line hl (by decide) (Nat.not_lt.mp hm), if_neg (by simp)]
  case cons c cs hi =>
    have hp := List.length_pos_iff.mpr c.ne
    have hw : (c :: cs).flatMap Chunk.bytes ++ last ++ blankLine =
        c.line ++ crlf ++ (c.data ++ (crlf ++ (cs.flatMap Chunk.bytes ++ last ++ blankLine))) := by
      simp [Chunk.bytes]
    rw [hw, received, length_bytes]
    generalize cs.flatMap Chunk.bytes ++ last ++ blankLine = w at hi
    by_cases hm : m < c.line.length + 2
    · rw [loop_none (nextChunk_cut c.size.noLf hm), if_neg (by omega), List.append_nil]
    have hn := nextChunk_line (s := c.data ++ (crlf ++ w)) c.size c.fits (Nat.not_lt.mp hm)
    by_cases hd : c.line.length + 2 + c.data.length ≤ m
    · obtain ⟨k, hk⟩ : ∃ k, m - (c.line.length + 2) = c.data.length + k :=
        ⟨_, (Nat.add_sub_cancel' (by omega)).symm⟩
      have ht : (c.data ++ (crlf ++ w)).take (c.data.length + k) = c.data ++ (crlf ++ w).take k :=
        List.take_length_add_append _
      have hb : isCharBoundary (c.data ++ (crlf ++ w).take k) c.data.length = true := by
        refine isCharBoundary_append ?_
        cases k
        case zero   => exact .inl rfl
        case succ k => exact .inr rfl
      have hz : m - (c.line.length + 2 + c.data.length + 2) = k - 2 := by omega
      rw [hk, ht, if_pos ⟨hp, by simp⟩] at hn
      rw [loop_some hn hb, List.drop_left, List.take_left, if_pos hd, hz]
      by_cases hc : k < 2
      · have hk₀ : k - 2 = 0 := by omega
        rw [loop_none (nextChunk_stripCrlf_cut hc), hk₀, received_zero, List.append_nil]
      · rw [stripCrlf_take (Nat.not_lt.mp hc), hi, List.append_assoc]
    · rw [if_neg fun h => hd (by simp at h; omega)] at hn
      rw [loop_none hn, if_neg hd, List.append_nil]

-- All data is received when the line break behind the last chunk is all that is left out.
theorem received_eq_iff : received cs m = cs.flatMap Chunk.data ↔
    cs = [] ∨ (cs.flatMap Chunk.bytes).length ≤ m + 2 := by
  induction cs generalizing m
  case nil => simp [received]
  case cons c cs hi =>
    have hp := List.length_pos_iff.mpr c.ne
    have hl := length_bytes c
    simp only [List.cons_ne_nil, false_or]
    rw [received, List.flatMap_cons, List.flatMap_cons, List.length_append]
    split
    case isTrue h =>
      rw [List.append_cancel_left_eq, hi]
      cases cs
      case nil => simp; omega
      case cons c' cs =>
        have hp := List.length_pos_iff.mpr c'.ne
        have hl := length_bytes c'
        simp only [List.cons_ne_nil, false_or, List.flatMap_cons, List.length_append]
        omega
    case isFalse h =>
      refine iff_of_false (fun h => ?_) (by omega)
      have hl := congrArg List.length h
      rw [List.length_append, List.length_nil] at hl
      omega

theorem unchunk_cutsCharacter (h : CutsCharacter s) : unchunk s ≠ .ok t := by
  intro hu
  have ⟨_, hl, _⟩ := Exec.bind_eq_ok_iff.mp hu
  exact loop_cutsCharacter h hl

theorem unchunk_of_not_startsWithChunk (h : ¬StartsWithChunk s) : unchunk s = .ok s := by
  have hn : nextChunk s = none := Option.not_isSome_iff_eq_none.mp h
  rw [unchunk, loop_none hn]
  rfl

theorem unchunk_of_startsWithChunk (hc : ¬CutsCharacter s) (h : StartsWithChunk s) :
    ∃ t, unchunk s = .ok t ∧ unchunk.loop s [] = .ok t ∧ t.length < s.length ∧ t ≠ [] := by
  have ⟨t, hl, hs, _, ht⟩ := loop_ok s [] hc
  have hne := hs.mp h
  refine ⟨t, ?_, hl, ht hne, hne⟩
  rw [unchunk, hl, Exec.ok_bind, List.nil_append, if_neg hne]
  rfl

theorem fromUtf8_eq_some (h : fromUtf8 bs = some s) : s = bs := by
  unfold fromUtf8 at h
  split_ifs at h
  exact (Option.some.inj h).symm

namespace Response

variable {r : Response} {n : Nat}

theorem rawBody_eq (r : Response) (n : Nat) :
    ((split blankLine (r.bytes.take n))[1]?).getD [] = r.segment n := by
  have hb : (r.head ++ blankLine).length = r.head.length + 4 := List.length_append
  rw [getElem?_one_split, segment, bytes, List.take_append, hb]
  by_cases h : r.head.length + 4 ≤ n
  · rw [List.take_of_length_le (hb ▸ h), splitOnce_append (by decide) r.noBlank]
    rfl
  · have hz : n - (r.head.length + 4) = 0 := by omega
    have hp : (r.head ++ blankLine).take n <+: r.head ++ blankLine.dropLast := by
      have he : r.head ++ blankLine = r.head ++ blankLine.dropLast ++ [0x0a] := by simp [blankLine]
      rw [he, List.take_append_of_le_length (by simp [blankLine]; omega)]
      exact List.take_prefix _ _
    rw [hz, List.take_zero, List.append_nil,
      splitOnce_eq_none fun hi => r.noBlank (hi.trans hp.isInfix)]
    rfl

theorem responseBody_eq_ok_iff : responseBody msg (r.bytes.take n) = .ok t ↔
    fromUtf8 (r.bytes.take n) ≠ none ∧ unchunk (r.segment n) = .ok t := by
  rw [responseBody]
  cases h : fromUtf8 (r.bytes.take n)
  case none   => simp [Exec.expect, Exec.abort, bind, Except.bind]
  case some s => simp [fromUtf8_eq_some h, rawBody_eq]

theorem segment_isPrefix : r.segment n <+: r.body.bytes :=
  (upTo_isPrefix (by decide)).trans (List.take_prefix _ _)

theorem loop_segment (h : r.body = .chunked cs last hl) :
    unchunk.loop (r.segment n) [] = .ok (received cs (r.segment n).length) := by
  have hs : r.segment n = (cs.flatMap Chunk.bytes ++ last ++ blankLine).take (r.segment n).length := by
    have hp := List.prefix_iff_eq_take.mp (segment_isPrefix (r := r) (n := n))
    rwa [h] at hp
  conv_lhs => rw [hs]
  rw [loop_take hl, List.nil_append]

theorem startsWithChunk_of_chunksWithin (h : r.body.ChunksWithin (r.segment n).length) :
    StartsWithChunk (r.segment n) := by
  cases hb : r.body
  case asIs => simp [hb, Body.ChunksWithin] at h
  case chunked cs last hl =>
    rw [hb] at h
    have he := received_eq_iff.mpr (.inr h.2)
    have hls := loop_segment (n := n) hb
    by_contra hs
    rw [loop_none (Option.not_isSome_iff_eq_none.mp hs), he] at hls
    cases cs
    case nil => exact h.1 rfl
    case cons c cs =>
      have hd := Except.ok.inj hls
      rw [List.flatMap_cons, List.nil_eq, List.append_eq_nil_iff] at hd
      exact c.ne hd.1

theorem hands_text_iff (hc : ¬CutsCharacter (r.segment n)) :
    unchunk (r.segment n) = .ok r.body.text ↔
    r.segment n = r.body.text ∧ ¬StartsWithChunk (r.segment n) ∨
    r.body.ChunksWithin (r.segment n).length := by
  by_cases hs : StartsWithChunk (r.segment n)
  case neg =>
    have hw := mt startsWithChunk_of_chunksWithin hs
    simp [unchunk_of_not_startsWithChunk hs, hs, hw]
  case pos =>
    have ⟨t, hu, hl, hlt, hne⟩ := unchunk_of_startsWithChunk hc hs
    simp only [hu, hs, not_true_eq_false, and_false, false_or, Except.ok.injEq]
    cases hb : r.body
    case asIs b =>
      refine iff_of_false (fun ht => ?_) id
      have hp := (segment_isPrefix (r := r) (n := n)).length_le
      rw [hb, Body.bytes] at hp
      rw [ht, Body.text] at hlt
      omega
    case chunked cs last h =>
      have ht := Except.ok.inj ((loop_segment (n := n) hb).symm.trans hl)
      rw [←ht] at hne ⊢
      rw [Body.text, received_eq_iff, Body.ChunksWithin]
      refine or_iff_right_of_imp ?_ |>.trans ?_
      · rintro rfl
        exact absurd rfl hne
      · refine ⟨fun h => ⟨?_, h⟩, And.right⟩
        rintro rfl
        exact hne rfl

-- The prefix of a response is rejected, or its whole body is handed on.
theorem responseBody_iff (r : Response) (n : Nat) (msg : String) :
    (∀ t, responseBody msg (r.bytes.take n) = .ok t → t = r.body.text) ↔
    fromUtf8 (r.bytes.take n) = none ∨ CutsCharacter (r.segment n) ∨
    r.segment n = r.body.text ∧ ¬StartsWithChunk (r.segment n) ∨
    r.body.ChunksWithin (r.segment n).length := by
  simp only [responseBody_eq_ok_iff]
  by_cases hu : fromUtf8 (r.bytes.take n) = none
  · simp [hu]
  by_cases hc : CutsCharacter (r.segment n)
  · simp [hc, unchunk_cutsCharacter hc]
  simp only [hu, hc, false_or, ←hands_text_iff hc, ne_eq, not_false_eq_true, true_and]
  have ⟨t, ht⟩ : ∃ t, unchunk (r.segment n) = .ok t := by
    by_cases hs : StartsWithChunk (r.segment n)
    · have ⟨t, ht, _⟩ := unchunk_of_startsWithChunk hc hs
      exact ⟨t, ht⟩
    · exact ⟨_, unchunk_of_not_startsWithChunk hs⟩
  rw [ht]
  simp

-- A response in no chunks but the last one, whose size is taken for the body.
def noChunks : Response where
  head    := Bytes.ofString "HTTP/1.1 200 OK\r\nTransfer-Encoding: chunked"
  body    := .chunked [] [0x30] ⟨by decide, [0x30], [], rfl, by decide +kernel, by decide, rfl, .inl rfl⟩
  noBlank := by decide +kernel

theorem not_hands_text :
    ¬∀ (r : Response) (n : Nat) (msg : String) (t : Bytes),
      responseBody msg (r.bytes.take n) = .ok t → t = r.body.text := by
  intro h
  have hs : noChunks.segment 100 = [0x30] := by decide +kernel
  have hu : unchunk (noChunks.segment 100) = .ok [0x30] := by
    rw [hs]
    exact unchunk_of_not_startsWithChunk (by simp [StartsWithChunk, nextChunk, splitOnce, crlf])
  have hr := h noChunks 100 "" [0x30] (responseBody_eq_ok_iff.mpr ⟨by decide +kernel, hu⟩)
  exact absurd hr (by decide)

end Response

end Guest
