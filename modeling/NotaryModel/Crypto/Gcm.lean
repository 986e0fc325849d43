import NotaryModel.Primitives.Bytes

namespace Bytes

-- The number of 16-byte blocks that `n` bytes take.
def blockCount (n : Nat) : Nat :=
  (n + 15) / 16

-- How many of `n` bytes lie in block `i`.
def validBytes (n i : Nat) : Nat :=
  min 16 (n - 16 * i)

-- Block `i` of `bs`, where the last block is zero padded.
def block (bs : Bytes) (i : Nat) : Arr 16 :=
  .ofFn fun j => bs.getD (16 * i + j) 0

def blocks (bs : Bytes) : List (Arr 16) :=
  (List.range (blockCount bs.length)).map bs.block

@[simp]
theorem getElem_block (h : j < 16) : (block bs i)[j] = bs.getD (16 * i + j) 0 := by
  simp [block]

@[simp]
theorem length_blocks : (blocks bs).length = blockCount bs.length := by
  simp [blocks]

-- Blocks that are cut to their valid bytes are the bytes of a text, one after another.
theorem flatMap_take_validBytes (f : Nat → Arr 16) (n : Nat) :
    (List.range (blockCount n)).flatMap (fun i => (f i).toList.take (validBytes n i)) =
    (List.range n).map fun j => (f (j / 16))[Fin.ofNat 16 j] := by
  suffices h : ∀ m, (List.range m).flatMap (fun i => (f i).toList.take (validBytes n i)) =
      (List.range (min (16 * m) n)).map fun j => (f (j / 16))[Fin.ofNat 16 j] by
    rw [h, Nat.min_eq_right (by simp [blockCount]; omega)]
  intro m
  induction m
  case zero => simp
  case succ m hi =>
    have hn : min (16 * (m + 1)) n = min (16 * m) n + validBytes n m := by
      simp only [validBytes]
      omega
    rw [List.range_succ, List.flatMap_append, hi, hn, List.range_add, List.map_append]
    congr 1
    apply List.ext_getElem
    · simp [validBytes]
    · intro j h₁ h₂
      simp only [List.map_map, List.length_map, List.length_range] at h₂
      have hj : j < 16 ∧ 16 * m + j < n := by simp only [validBytes] at h₂; omega
      have hm : min (16 * m) n = 16 * m := by omega
      have hd : (16 * m + j) / 16 = m := by omega
      have hr : (16 * m + j) % 16 = j := by omega
      simp [hm, hd, hr]

end Bytes

-- The AES-128-GCM mode over a block cipher `E` (key first) and the multiplication `mul` of
-- GF(2^128).
namespace Gcm

variable (E : Arr 16 → Arr 16 → Arr 16) (mul : Arr 16 → Arr 16 → Arr 16)

def counterBlock (nonce : Arr 12) (ctr : Nat) : Arr 16 :=
  .ofBytes 16 (nonce.toList ++ Bytes.be 4 ctr)

-- Block `i` of the keystream: counter 1 is the tag's, so that the text starts at counter 2.
def keystream (k : Arr 16) (nonce : Arr 12) (i : Nat) : Arr 16 :=
  E k (counterBlock nonce (i + 2))

-- Counter mode, which is both encryption and decryption.
def crypt (k : Arr 16) (nonce : Arr 12) (bs : Bytes) : Bytes :=
  bs.mapIdx fun j b => b ^^^ (keystream E k nonce (j / 16))[Fin.ofNat 16 j]

def ghash (h : Arr 16) (blocks : List (Arr 16)) : Arr 16 :=
  blocks.foldl (fun acc b => mul (acc ^^^ b) h) 0

def lenBlock (aadLen textLen : Nat) : Arr 16 :=
  .ofBytes 16 (Bytes.be 8 (aadLen * 8) ++ Bytes.be 8 (textLen * 8))

def tag (k : Arr 16) (nonce : Arr 12) (aad ciphertext : Bytes) : Arr 16 :=
  ghash mul (E k 0)
    (aad.blocks ++ (ciphertext.blocks ++ [lenBlock aad.length ciphertext.length])) ^^^
  E k (counterBlock nonce 1)

def encrypt (k : Arr 16) (nonce : Arr 12) (aad plaintext : Bytes) : Bytes × Arr 16 :=
  let ciphertext := crypt E k nonce plaintext
  (ciphertext, tag E mul k nonce aad ciphertext)

def decrypt (k : Arr 16) (nonce : Arr 12) (aad ciphertext : Bytes) (t : Arr 16) : Option Bytes :=
  if t = tag E mul k nonce aad ciphertext then some (crypt E k nonce ciphertext) else none

-- Decryption of a ciphertext with a detached tag, as programs get it from a library.
abbrev Open :=
  (k : Arr 16) → (nonce : Arr 12) → (aad ciphertext : Bytes) → (t : Arr 16) → Option Bytes

abbrev Seal :=
  (k : Arr 16) → (nonce : Arr 12) → (aad plaintext : Bytes) → Bytes × Arr 16

-- A sealed text is as long as the plaintext, and it can be opened.
structure Correct (enc : Seal) (gcm : Open) : Prop where
  length : ∀ k nonce aad pt, (enc k nonce aad pt).1.length = pt.length
  opens  : ∀ k nonce aad pt,
    gcm k nonce aad (enc k nonce aad pt).1 (enc k nonce aad pt).2 = some pt

variable {E mul}

@[simp]
theorem length_crypt : (crypt E k nonce bs).length = bs.length := by
  simp [crypt]

@[simp]
theorem getElem?_crypt : (crypt E k nonce bs)[j]? =
    bs[j]?.map (· ^^^ (keystream E k nonce (j / 16))[Fin.ofNat 16 j]) := by
  simp [crypt]

@[simp]
theorem crypt_crypt : crypt E k nonce (crypt E k nonce bs) = bs := by
  ext1 j
  simp [Function.comp_def]

theorem crypt_inj : crypt E k nonce bs = crypt E k nonce bs' ↔ bs = bs' where
  mp h  := by by_contra hb; exact hb (by simpa using congrArg (crypt E k nonce) h)
  mpr h := h ▸ rfl

theorem decrypt_encrypt (k : Arr 16) (nonce : Arr 12) (aad plaintext : Bytes) :
    decrypt E mul k nonce aad (encrypt E mul k nonce aad plaintext).1
      (encrypt E mul k nonce aad plaintext).2 = some plaintext := by
  simp [decrypt, encrypt]

theorem encrypt_correct : Correct (encrypt E mul) (decrypt E mul) where
  length _ _ _ _ := length_crypt
  opens          := decrypt_encrypt

-- Counter mode block by block, as it is computed on a text that arrives in blocks.
theorem crypt_eq_flatMap : crypt E k nonce bs =
    (List.range (Bytes.blockCount bs.length)).flatMap fun i =>
      (bs.block i ^^^ keystream E k nonce i).toList.take (Bytes.validBytes bs.length i) := by
  rw [Bytes.flatMap_take_validBytes fun i => bs.block i ^^^ keystream E k nonce i]
  apply List.ext_getElem
  · simp
  · intro j h₁ h₂
    have hj : 16 * (j / 16) + j % 16 = j := Nat.div_add_mod ..
    have hb : j < bs.length := by simpa using h₁
    simp [crypt, hj, hb]

end Gcm
