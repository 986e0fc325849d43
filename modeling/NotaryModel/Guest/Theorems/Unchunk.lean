import NotaryModel.Guest.Theorems.Http

open Text

namespace Guest

-- The line in front of a chunk of `n` bytes: the size in hexadecimal, and an extension that may
-- follow it.
inductive ChunkHeader : Bytes → Nat → Prop
  | bare {digits : Bytes} : IsHex digits → digits ≠ [] → ChunkHeader digits (hexValue digits)
  | extended {digits ext : Bytes} : IsHex digits → digits ≠ [] → ¬crlf <:+: ext →
    ChunkHeader (digits ++ 0x3b :: ext) (hexValue digits)

-- The length of a text is a `usize`.
structure TextChunk where
  header : Bytes
  text   : Bytes
  size   : ChunkHeader header text.length
  ne     : text ≠ []
  fits   : text.length < 2 ^ 64

def TextChunk.bytes (c : TextChunk) : Bytes :=
  c.header ++ crlf ++ c.text ++ crlf

-- What follows the chunks: nothing, or a chunk without text. Behind the header of the latter there
-- is nothing, or there are a line break, trailers and the end.
inductive Ending : Bytes → Prop
  | nothing : Ending []
  | last {header : Bytes} : ChunkHeader header 0 → Ending header
  | trailers {header rest : Bytes} : ChunkHeader header 0 → Ending (header ++ crlf ++ rest)

theorem crlf_not_isInfix_append (hs : 0x0d ∉ s) (ht : ¬crlf <:+: t) : ¬crlf <:+: s ++ t := by
  induction s
  case nil => exact ht
  case cons b s hi =>
    obtain ⟨hb, hs⟩ := not_or.mp (mt List.mem_cons.mpr hs)
    rw [List.cons_append, List.infix_cons_iff, not_or]
    exact ⟨fun h => hb (List.cons_prefix_cons.mp h).left, hi hs⟩

theorem crlf_not_isInfix_concat (h : ¬crlf <:+: s) : ¬crlf <:+: s ++ [0x0d] := by
  rw [List.infix_concat_iff, not_or]
  refine ⟨?_, h⟩
  rintro ⟨t, ht⟩
  have hl := congrArg List.getLast? ht
  rw [List.getLast?_concat, List.getLast?_append] at hl
  simp [crlf] at hl

namespace ChunkHeader

theorem not_mem_cr (h : IsHex digits) : 0x0d ∉ digits :=
  fun hm => absurd (h _ hm) (by decide)

theorem noCrlf (h : ChunkHeader header n) : ¬crlf <:+: header := by
  cases h
  case bare hd _ =>
    intro hi
    exact not_mem_cr hd (hi.subset (by decide))
  case extended hd _ he =>
    refine crlf_not_isInfix_append (not_mem_cr hd) ?_
    exact crlf_not_isInfix_append (s := [0x3b]) (by decide) he

theorem chunkLen_eq (h : ChunkHeader header n) (hn : n < 2 ^ 64) : chunkLen header = some n := by
  cases h
  case bare hd hne =>
    have hc := chunkLen_append hd hne (.inl rfl) hn
    rwa [List.append_nil] at hc
  case extended hd hne _ =>
    exact chunkLen_append hd hne (.inr rfl) hn

theorem nextChunk_eq (h : ChunkHeader header n) (hn : n < 2 ^ 64) :
    nextChunk (header ++ crlf ++ s) = if 0 < n ∧ n ≤ s.length then some (n, s) else none := by
  rw [nextChunk, splitOnce_append (by decide) (crlf_not_isInfix_concat h.noCrlf)]
  simp only [h.chunkLen_eq hn]

end ChunkHeader

theorem Ending.nextChunk_eq_none (h : Ending s) : nextChunk s = none := by
  cases h
  case nothing => rfl
  case last hh => rw [nextChunk, splitOnce_eq_none hh.noCrlf]
  case trailers hh => rw [hh.nextChunk_eq (by decide), if_neg fun h => Nat.lt_irrefl 0 h.left]

-- The text is cut off by its length alone, so that nothing in it is taken for a header.
theorem loop_textChunk (c : TextChunk) :
    unchunk.loop (c.bytes ++ s) out = unchunk.loop s (out ++ c.text) := by
  have hp := List.length_pos_iff.mpr c.ne
  have hw : c.bytes ++ s = c.header ++ crlf ++ (c.text ++ (crlf ++ s)) := by simp [TextChunk.bytes]
  have hn := c.size.nextChunk_eq (s := c.text ++ (crlf ++ s)) c.fits
  rw [if_pos ⟨hp, by simp⟩] at hn
  rw [hw, loop_some hn (isCharBoundary_append (.inr rfl)), List.drop_left, List.take_left]
  have hs : stripCrlf (crlf ++ s) = s := by
    rw [stripCrlf, if_pos (List.isPrefixOf_iff_prefix.mpr (List.prefix_append ..))]
    rfl
  rw [hs]

theorem loop_textChunks (chunks : List TextChunk) (he : Ending ending) :
    unchunk.loop (chunks.flatMap TextChunk.bytes ++ ending) out =
    .ok (out ++ chunks.flatMap TextChunk.text) := by
  induction chunks generalizing out
  case nil =>
    rw [List.flatMap_nil, List.nil_append, loop_none he.nextChunk_eq_none, List.flatMap_nil,
      List.append_nil]
  case cons c cs hi =>
    rw [List.flatMap_cons, List.append_assoc, loop_textChunk, hi, List.flatMap_cons,
      List.append_assoc]

theorem unchunk_textChunks (hc : chunks ≠ []) (he : Ending ending) :
    unchunk (chunks.flatMap TextChunk.bytes ++ ending) = .ok (chunks.flatMap TextChunk.text) := by
  obtain ⟨c, cs, rfl⟩ := List.exists_cons_of_ne_nil hc
  have hne : (c :: cs).flatMap TextChunk.text ≠ [] := by
    rw [List.flatMap_cons]
    exact List.append_ne_nil_of_left_ne_nil c.ne _
  rw [unchunk, loop_textChunks _ he, Exec.ok_bind, List.nil_append, if_neg hne]
  rfl

-- A text that looks like the end of a body and another chunk.
def lookalike : TextChunk where
  header := [0x30, 0x30, 0x44] ++ 0x3b :: [0x61, 0x0a, 0x0d]
  text   := [0x30, 0x0d, 0x0a, 0x0d, 0x0a, 0x35, 0x0d, 0x0a, 0x61, 0x62, 0x63, 0x64, 0x65]
  size   := .extended (by decide +kernel) (by decide) (by decide)
  ne     := by decide
  fits   := by decide

theorem unchunk_lookalike :
    unchunk (lookalike.bytes ++ ([0x30] ++ crlf ++ crlf)) = .ok lookalike.text := by
  have hz : ChunkHeader [0x30] 0 := .bare (by decide +kernel) (by decide)
  have he : Ending ([0x30] ++ crlf ++ crlf) := .trailers hz
  have h := unchunk_textChunks (List.cons_ne_nil lookalike []) he
  rwa [List.flatMap_singleton, List.flatMap_singleton] at h

end Guest
