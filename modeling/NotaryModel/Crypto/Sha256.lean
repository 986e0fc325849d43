import NotaryModel.Primitives.Bytes

-- SHA-256 and the constructions over it, for any compression function `compress`.
namespace Sha256

variable (compress : Arr 32 → Arr 64 → Arr 32)

def iv : Arr 32 :=
  #v[0x6a, 0x09, 0xe6, 0x67, 0xbb, 0x67, 0xae, 0x85, 0x3c, 0x6e, 0xf3, 0x72, 0xa5, 0x4f, 0xf5, 0x3a,
     0x51, 0x0e, 0x52, 0x7f, 0x9b, 0x05, 0x68, 0x8c, 0x1f, 0x83, 0xd9, 0xab, 0x5b, 0xe0, 0xcd, 0x19]

-- A message, a one bit, and its length in bits at the end of a block.
def pad (msg : Bytes) : Bytes :=
  msg ++ 0x80 :: List.replicate ((119 - msg.length % 64) % 64) 0 ++ Bytes.be 8 (msg.length * 8)

def digest (msg : Bytes) : Arr 32 :=
  (List.range ((pad msg).length / 64)).foldl
    (fun h i => compress h (.ofBytes 64 ((pad msg).drop (64 * i)))) iv

def ipad : Byte := 0x36
def opad : Byte := 0x5c

def hmacKey (key : Bytes) : Arr 64 :=
  .ofBytes 64 (if key.length > 64 then (digest compress key).toList else key)

def hmac (key msg : Bytes) : Arr 32 :=
  let k := hmacKey compress key
  let inner := digest compress ((k ^^^ Arr.fill 64 ipad).toList ++ msg)
  digest compress ((k ^^^ Arr.fill 64 opad).toList ++ inner.toList)

-- The second and last block of a message of one whole block and the bytes `msg`.
def lastBlock (msg : Bytes) : Arr 64 :=
  .ofBytes 64 (msg ++ 0x80 :: List.replicate (55 - msg.length) 0 ++ Bytes.be 8 ((64 + msg.length) * 8))

variable {compress}

theorem getElem_lastBlock (h : msg.length ≤ 55) (hi : i < 64) :
    (lastBlock msg)[i] =
    if i < msg.length then msg.getD i 0
    else if i = msg.length then 0x80
    else if 56 ≤ i then (Bytes.be 8 ((64 + msg.length) * 8)).getD (i - 56) 0
    else 0 := by
  simp only [lastBlock, Arr.getElem_ofBytes, List.append_assoc, List.cons_append,
    List.getD_eq_getElem?_getD, List.getElem?_append, List.getElem?_cons, List.length_replicate,
    List.getElem?_replicate]
  have hj : i - msg.length - 1 - (55 - msg.length) = i - 56 := by omega
  split_ifs <;> first | rfl | omega | rw [hj]

-- A message that fits in one block.
theorem digest_of_length_le (h : msg.length ≤ 55) :
    digest compress msg = compress iv (.ofBytes 64 (pad msg)) := by
  have hl : (pad msg).length / 64 = 1 := by
    simp only [pad, List.length_append, List.length_cons, List.length_replicate, Bytes.length_be]
    omega
  simp [digest, hl]

theorem digest_block_append (b : Arr 64) (h : msg.length ≤ 55) :
    digest compress (b.toList ++ msg) = compress (compress iv b) (lastBlock msg) := by
  have hz : (119 - msg.length % 64) % 64 = 55 - msg.length := by omega
  have hp : pad (b.toList ++ msg) = b.toList ++
      (msg ++ 0x80 :: List.replicate (55 - msg.length) 0 ++ Bytes.be 8 ((64 + msg.length) * 8)) := by
    simp [pad, hz]
  have hl : (pad (b.toList ++ msg)).length / 64 = 2 := by
    rw [hp]
    simp
    omega
  have hb : Arr.ofBytes 64 (pad (b.toList ++ msg)) = b := by
    ext i hi
    simp [hp, hi, List.getD_eq_getElem?_getD, List.getElem?_append_left]
  simp only [digest, hl, List.range_succ_eq_map, List.range_zero, List.foldl_cons, List.foldl_nil,
    List.map_cons, List.map_nil, Nat.mul_zero, List.drop_zero, hb]
  rw [hp, List.drop_left' (by simp), lastBlock]

-- HMAC with a key of at most one block and a message that fits in one block takes four rounds.
theorem hmac_eq (hk : key.length ≤ 64) (hm : msg.length ≤ 55) :
    hmac compress key msg =
    compress (compress iv (.ofBytes 64 key ^^^ .fill 64 opad))
      (lastBlock (compress (compress iv (.ofBytes 64 key ^^^ .fill 64 ipad)) (lastBlock msg)).toList) := by
  have hkey : hmacKey compress key = .ofBytes 64 key := by
    simp [hmacKey, Nat.not_lt.mpr hk]
  simp only [hmac, hkey]
  rw [digest_block_append _ (by simp), digest_block_append _ hm]

theorem length_pad (msg : Bytes) : ∃ n, (pad msg).length = 64 * (n + 1) := by
  refine ⟨(msg.length + 8) / 64, ?_⟩
  simp only [pad, List.length_append, List.length_cons, List.length_replicate, Bytes.length_be]
  omega

-- A compression function that keeps the end of the block, and with it the length of the message.
def keepEnd : Arr 32 → Arr 64 → Arr 32 :=
  fun _ block => .ofBytes 32 (block.toList.drop 32)

theorem drop_digest_keepEnd (msg : Bytes) :
    (digest keepEnd msg).toList.drop 24 = Bytes.be 8 (msg.length * 8) := by
  obtain ⟨n, hn⟩ := length_pad msg
  obtain ⟨front, hf⟩ : ∃ front, pad msg = front ++ Bytes.be 8 (msg.length * 8) := ⟨_, rfl⟩
  have hl : front.length = 64 * n + 56 := by
    rw [hf, List.length_append, Bytes.length_be] at hn
    omega
  have hb : ((pad msg).drop (64 * n)).length = 64 := by
    rw [List.length_drop]
    omega
  have hd : digest keepEnd msg = .ofBytes 32 (((pad msg).drop (64 * n)).drop 32) := by
    rw [digest, hn, Nat.mul_div_cancel_left _ (by decide), List.range_succ, List.foldl_append,
      List.foldl_cons, List.foldl_nil, keepEnd, Arr.toList_ofBytes hb]
  rw [hd, Arr.toList_ofBytes (by rw [List.length_drop, hb]), hf, List.drop_drop, List.drop_drop,
    List.drop_left' (by rw [hl])]

-- Messages of two lengths have two digests then.
theorem length_eq_of_digest_keepEnd (hx : x.length < 2 ^ 61) (hy : y.length < 2 ^ 61)
    (h : digest keepEnd x = digest keepEnd y) : x.length = y.length := by
  have hb : Bytes.be 8 (x.length * 8) = Bytes.be 8 (y.length * 8) := by
    rw [←drop_digest_keepEnd, h, drop_digest_keepEnd]
  have he := Bytes.be_inj_of_lt (by omega) (by omega) hb
  omega

end Sha256
