import NotaryModel.Notary.Theorems.Aes

open Relation

namespace Notary

open Bytes (blockCount)

variable (aes : Arr 16 → Arr 16 → Arr 16) (compress : Arr 32 → Arr 64 → Arr 32)

theorem range_blockCount (h : n ≠ 0) :
    ∃ l, List.range (blockCount n) = 0 :: l := by
  obtain ⟨m, hm⟩ : ∃ m, blockCount n = m + 1 := ⟨blockCount n - 1, by simp only [blockCount]; omega⟩
  exact ⟨_, hm ▸ List.range_succ_eq_map⟩

-- An empty record consists of three sessions and the tag.
theorem encryptGcm_nil_meets (kN kC : Arr 16) (nonce : Arr 12) (aad : Bytes) :
    Meets (circuits aes compress) 3 (notaryEncryptGcm kN nonce aad 0)
      (clientEncryptGcm kC [] aad nonce) fun _ r => r.1 = [] := by
  unfold notaryEncryptGcm clientEncryptGcm
  refine .bind (k := 1) (j := 2) aesBlockWrk17_meets fun _ _ _ => ?_
  refine .bind (k := 1) (j := 1) aesBlockWrk17_meets fun _ _ _ => ?_
  simp only [blockCount, List.length_nil, Nat.zero_add, Nat.reduceDiv, List.range_zero,
    List.mapM_nil, LawfulMonad.pure_bind]
  refine .bind (j := 0) (ghashChainWrk17_meets (by simp)) fun _ _ _ => ?_
  rw [←Prog.bind_pure (write .tag _)]
  exact .bind (k := 0) (.send_recv (Φ := fun _ _ => True) trivial) fun _ _ _ => .pure (by simp)

theorem encryptGcm_nil_inStep (kN kC : Arr 16) (nonce : Arr 12) (aad : Bytes) :
    InStep (circuits aes compress) (notaryEncryptGcm kN nonce aad 0)
      (clientEncryptGcm kC [] aad nonce) :=
  Completes.of_meets (encryptGcm_nil_meets aes compress kN kC nonce aad) |>.inStep

theorem decryptGcm_nil_inStep (kN kC : Arr 16) (nonce : Arr 12) (aad : Bytes) (tag : Arr 16) :
    InStep (circuits aes compress) (notaryDecryptGcm kN nonce aad.length 0)
      (clientDecryptGcm2pc kC [] aad tag nonce) := by
  apply Completes.inStep
  unfold notaryDecryptGcm clientDecryptGcm2pc
  refine .bind aesBlockWrk17_meets fun _ _ _ => .bind aesBlockWrk17_meets fun _ _ _ => ?_
  simp only [blockCount, List.length_nil, Nat.zero_add, Nat.reduceDiv, List.range_zero,
    List.mapM_nil, LawfulMonad.pure_bind]
  refine .bind (ghashChainWrk17_meets (by simp)) fun _ _ _ => .send_recv ?_
  split
  case isTrue  => exact .fail
  case isFalse => exact .pure

-- In the first round of an encryption the notary is in its session while the host waits for the
-- keystream share that the notary sends after it.
theorem encryptGcm_not_inStep (kN kC : Arr 16) (nonce : Arr 12) (aad plaintext : Bytes)
    (h : plaintext.length ≠ 0) :
    ¬InStep (circuits aes compress) (notaryEncryptGcm kN nonce aad plaintext.length)
      (clientEncryptGcm kC plaintext aad nonce) := by
  obtain ⟨l, hl⟩ := range_blockCount h
  apply Deadlocks.not_inStep
  unfold notaryEncryptGcm clientEncryptGcm
  refine .bind aesBlockWrk17_meets fun _ _ _ => .bind aesBlockWrk17_meets fun _ _ _ => ?_
  simp only [hl, List.mapM_cons, bind_assoc]
  exact .session_read (by decide)

-- In the first round of a decryption the host has sent the ciphertext block when it enters its
-- session, but the notary reads it only after its own session.
theorem decryptGcm_not_inStep (kN kC : Arr 16) (nonce : Arr 12) (aad ciphertext : Bytes)
    (tag : Arr 16) (h : ciphertext.length ≠ 0) :
    ¬InStep (circuits aes compress) (notaryDecryptGcm kN nonce aad.length ciphertext.length)
      (clientDecryptGcm2pc kC ciphertext aad tag nonce) := by
  obtain ⟨l, hl⟩ := range_blockCount h
  apply Deadlocks.not_inStep
  unfold notaryDecryptGcm clientDecryptGcm2pc
  refine .bind aesBlockWrk17_meets fun _ _ _ => .bind aesBlockWrk17_meets fun _ _ _ => ?_
  simp only [hl, List.mapM_cons, bind_assoc]
  exact .session_write (by simp)

-- Only empty records are processed in step, for each length of the associated data.
theorem recordGcm_inStep_iff (kN kC : Arr 16) (nonce : Arr 12) (aad text : Bytes) (tag : Arr 16) :
    (InStep (circuits aes compress) (notaryEncryptGcm kN nonce aad text.length)
      (clientEncryptGcm kC text aad nonce) ↔ text.length = 0) ∧
    (InStep (circuits aes compress) (notaryDecryptGcm kN nonce aad.length text.length)
      (clientDecryptGcm2pc kC text aad tag nonce) ↔ text.length = 0) := by
  constructor <;> constructor
  · exact fun h => by_contra (encryptGcm_not_inStep aes compress kN kC nonce aad text · h)
  · intro h
    obtain rfl := List.length_eq_zero_iff.mp h
    exact encryptGcm_nil_inStep aes compress kN kC nonce aad
  · exact fun h => by_contra (decryptGcm_not_inStep aes compress kN kC nonce aad text tag · h)
  · intro h
    obtain rfl := List.length_eq_zero_iff.mp h
    exact decryptGcm_nil_inStep aes compress kN kC nonce aad tag

theorem not_inStep_of_one_byte :
    (¬∃ aes compress, InStep (circuits aes compress) (notaryEncryptGcm 0 0 [] 1)
      (clientEncryptGcm 0 [1] [] 0)) ∧
    (¬∃ aes compress, InStep (circuits aes compress) (notaryDecryptGcm 0 0 0 1)
      (clientDecryptGcm2pc 0 [1] [] 0 0)) where
  left  := fun ⟨_, _, h⟩ => encryptGcm_not_inStep _ _ 0 0 0 [] [1] (by decide) h
  right := fun ⟨_, _, h⟩ => decryptGcm_not_inStep _ _ 0 0 0 [] [1] 0 (by decide) h

end Notary
