import NotaryModel.Notary.Theorems.Aes

namespace Notary

open Bytes (blockCount validBytes)

theorem makeNonceCtr_eq : makeNonceCtr = Gcm.counterBlock :=
  rfl

theorem evLenBlock_eq : evLenBlock = Gcm.lenBlock :=
  rfl

theorem block_crypt {E : Arr 16 → Arr 16 → Arr 16} (blk : Nat) :
    (Gcm.crypt E k nonce bs).block blk =
    zeroPadBlock (bs.block blk ^^^ Gcm.keystream E k nonce blk) (validBytes bs.length blk) := by
  ext j h
  have hd : (16 * blk + j) / 16 = blk := by omega
  have hr : (16 * blk + j) % 16 = j := by omega
  by_cases hj : 16 * blk + j < bs.length
  · have hv : j < validBytes bs.length blk := by simp [validBytes]; omega
    simp [Gcm.crypt, hj, hv, hd, hr, List.getD_eq_getElem?_getD]
  · have hv : ¬j < validBytes bs.length blk := by simp [validBytes]; omega
    simp [hj, hv, List.getD_eq_getElem?_getD]

theorem zeroPadBlock_block (bs : Bytes) (blk : Nat) :
    zeroPadBlock (bs.block blk) (validBytes bs.length blk) = bs.block blk := by
  ext j h
  by_cases hj : 16 * blk + j < bs.length
  · have hv : j < validBytes bs.length blk := by simp [validBytes]; omega
    simp [hv]
  · have hv : ¬j < validBytes bs.length blk := by simp [validBytes]; omega
    simp [hj, hv, List.getD_eq_getElem?_getD]

section

variable {aes : Arr 16 → Arr 16 → Arr 16} {compress : Arr 32 → Arr 64 → Arr 32} {kN kC : Arr 16}

-- The notary's shares of a record determine everything that the client is given.
theorem matched_events_iff {rN : Nat → X → List (Event wrk17)} {rC : Nat → Y → List (Event wrk17)}
    {i : NotaryInputs X} {j : ClientInputs Y}
    (hr : ∀ blk, SameShape (rN blk (i.round blk)) (rC blk (j.round blk))) :
    Matched (circuits aes compress) (notaryEvents kN nonce n rN bN i) (clientEvents kC n rC bC j) ↔
    aes (kN ^^^ kC) 0 ^^^ i.h = j.h ∧
    aes (kN ^^^ kC) (Gcm.counterBlock nonce 1) ^^^ i.s = j.s ∧
    (∀ blk < blockCount n,
      Matched (circuits aes compress) (rN blk (i.round blk)) (rC blk (j.round blk))) ∧
    (bN i.round).length = (bC j.round).length ∧
    ghashChainReference (i.h ^^^ j.h) (List.zipWith (· ^^^ ·) (bN i.round) (bC j.round)) ^^^ i.x = j.x ∧
    i.x ^^^ i.s = j.tag := by
  have hs : SameShape (I := wrk17)
      ([.session (.aes 0 kN) i.h, .session (.aes (makeNonceCtr nonce 1) kN) i.s])
      ([.session (.aes 0 kC) j.h, .session (.aes 0 kC) j.s]) := ⟨rfl, rfl, rfl⟩
  have hl : SameShape ((List.range (blockCount n)).flatMap fun blk => rN blk (i.round blk))
      ((List.range (blockCount n)).flatMap fun blk => rC blk (j.round blk)) := .flatMap hr
  unfold notaryEvents clientEvents
  rw [Matched.append_iff hs, Matched.append_iff hl, Matched.flatMap_range_iff hr]
  simp [makeNonceCtr_eq, Vector.toList_inj, and_assoc]

theorem encrypt_round_iff {ks : Arr 16} {j : Arr 16 × Arr 16} :
    Matched (circuits aes compress) (notaryEncryptGcm.roundEvents kN nonce blk ks)
      (clientEncryptGcm.roundEvents kC blk j) ↔
    ks = j.1 ∧ Gcm.keystream aes (kN ^^^ kC) nonce blk ^^^ ks = j.2 := by
  simp [matched_iff, notaryEncryptGcm.roundEvents, clientEncryptGcm.roundEvents, circuits,
    makeNonceCtr_eq, Gcm.keystream, Vector.toList_inj]

theorem decrypt_round_iff {i j : Arr 16 × Arr 16} :
    Matched (circuits aes compress) (notaryDecryptGcm.roundEvents kN nonce blk i)
      (clientDecryptGcm2pc.roundEvents kC ciphertext blk j) ↔
    i.2 ^^^ i.1 = j.2 ∧ i.2 = paddedBlock ciphertext blk ∧
    Gcm.keystream aes (kN ^^^ kC) nonce blk ^^^ i.1 = j.1 := by
  simp [matched_iff, notaryDecryptGcm.roundEvents, clientDecryptGcm2pc.roundEvents, circuits,
    makeNonceCtr_eq, Gcm.keystream, Vector.toList_inj]

-- The two parties' GHASH inputs are shares of the input of the mode.
theorem encrypt_blocks_eq {ks : Nat → Arr 16} {j : Nat → Arr 16 × Arr 16}
    (h : ∀ blk < blockCount plaintext.length,
      ks blk = (j blk).1 ∧ Gcm.keystream aes k nonce blk ^^^ ks blk = (j blk).2) :
    List.zipWith (· ^^^ ·) (notaryEncryptGcm.blocks aad plaintext.length ks)
      (clientEncryptGcm.blocks plaintext aad j) =
    aad.blocks ++ ((Gcm.crypt aes k nonce plaintext).blocks ++
      [Gcm.lenBlock aad.length plaintext.length]) := by
  unfold notaryEncryptGcm.blocks clientEncryptGcm.blocks
  rw [List.zipWith_append (by simp), List.zipWith_append (by simp)]
  congr 2
  · apply List.ext_getElem <;> simp [Bytes.blocks, paddedBlock_eq]
  · apply List.ext_getElem
    · simp
    · intro blk _ hb
      have hb : blk < blockCount plaintext.length := by simpa using hb
      simp [Bytes.blocks, block_crypt, ←zeroPadBlock_xor, blockBytes_eq hb, paddedBlock_eq,
        ←(h blk hb).2, Arr.xor_left_comm (ks blk)]
  · simp [evLenBlock_eq]

theorem decrypt_blocks_eq (i j : Nat → Arr 16 × Arr 16) :
    List.zipWith (· ^^^ ·) (notaryDecryptGcm.blocks aad.length ciphertext.length i)
      (clientDecryptGcm2pc.blocks ciphertext aad j) =
    aad.blocks ++ (ciphertext.blocks ++ [Gcm.lenBlock aad.length ciphertext.length]) := by
  unfold notaryDecryptGcm.blocks clientDecryptGcm2pc.blocks
  rw [List.zipWith_append (by simp), List.zipWith_append (by simp)]
  congr 2
  · apply List.ext_getElem <;> simp [Bytes.blocks, paddedBlock_eq]
  · apply List.ext_getElem
    · simp
    · intro blk _ hb
      have hb : blk < blockCount ciphertext.length := by simpa using hb
      simp [Bytes.blocks, blockBytes_eq hb, paddedBlock_eq, zeroPadBlock_block]
  · simp [evLenBlock_eq]

theorem ciphertext_eq {ks : Nat → Arr 16} {j : Nat → Arr 16 × Arr 16}
    (h : ∀ blk < blockCount plaintext.length,
      ks blk = (j blk).1 ∧ Gcm.keystream aes k nonce blk ^^^ ks blk = (j blk).2) :
    clientEncryptGcm.ciphertext plaintext j = Gcm.crypt aes k nonce plaintext := by
  rw [Gcm.crypt_eq_flatMap, clientEncryptGcm.ciphertext]
  refine List.flatMap_congr fun blk hb => ?_
  have hb := List.mem_range.mp hb
  obtain ⟨hk, hj⟩ := h blk hb
  simp [←hj, ←hk, blockBytes_eq hb, paddedBlock_eq, Arr.xor_assoc]

-- The ciphertext is in both shares of the plaintext, so that it cancels out.
theorem plaintext_eq {i j : Nat → Arr 16 × Arr 16}
    (h : ∀ blk < blockCount ciphertext.length, (i blk).2 ^^^ (i blk).1 = (j blk).2 ∧
      (i blk).2 = paddedBlock ciphertext blk ∧
      Gcm.keystream aes k nonce blk ^^^ (i blk).1 = (j blk).1) :
    clientDecryptGcm2pc.plaintext ciphertext j =
    Gcm.crypt aes k nonce (List.replicate ciphertext.length 0) := by
  rw [Gcm.crypt_eq_flatMap, clientDecryptGcm2pc.plaintext, List.length_replicate]
  refine List.flatMap_congr fun blk hb => ?_
  have hb := List.mem_range.mp hb
  have hz : Bytes.block (List.replicate ciphertext.length 0) blk = 0 := by
    ext
    simp only [Bytes.getElem_block, List.getD_eq_getElem?_getD, List.getElem?_replicate]
    split <;> simp
  obtain ⟨hp, hc, hk⟩ := h blk hb
  rw [←hp, ←hk, ←hc, hz, blockBytes_eq hb]
  simp [Arr.xor_comm, Arr.xor_left_comm]

-- The shares of the GHASH value and of the tag's keystream block add up to the tag.
theorem tag_eq {xN xC sN sC g e : Arr 16} (hx : g ^^^ xN = xC) (hs : e ^^^ sN = sC) :
    xN ^^^ sN ^^^ (xC ^^^ sC) = g ^^^ e := by
  subst hx hs
  simp [Arr.xor_comm, Arr.xor_left_comm]

theorem encrypt_matched_iff {i : NotaryInputs (Arr 16)} {j : ClientInputs (Arr 16 × Arr 16)} :
    Matched (circuits aes compress)
      (notaryEncryptGcm.events kN nonce aad plaintext.length i)
      (clientEncryptGcm.events kC plaintext aad j) ↔
    aes (kN ^^^ kC) 0 ^^^ i.h = j.h ∧
    aes (kN ^^^ kC) (Gcm.counterBlock nonce 1) ^^^ i.s = j.s ∧
    (∀ blk < blockCount plaintext.length, i.round blk = (j.round blk).1 ∧
      Gcm.keystream aes (kN ^^^ kC) nonce blk ^^^ i.round blk = (j.round blk).2) ∧
    Gcm.ghash ghashMulReference (aes (kN ^^^ kC) 0)
      (aad.blocks ++ ((Gcm.crypt aes (kN ^^^ kC) nonce plaintext).blocks ++
        [Gcm.lenBlock aad.length plaintext.length])) ^^^ i.x = j.x ∧
    i.x ^^^ i.s = j.tag := by
  have hs (blk : Nat) : SameShape (notaryEncryptGcm.roundEvents kN nonce blk (i.round blk))
      (clientEncryptGcm.roundEvents kC blk (j.round blk)) := ⟨rfl, rfl, rfl⟩
  rw [matched_events_iff hs]
  simp only [encrypt_round_iff]
  refine and_congr_right fun hh => and_congr_right fun _ => and_congr_right fun hr => ?_
  rw [encrypt_blocks_eq hr, ←hh, Arr.xor_comm _ i.h, Arr.xor_xor_cancel_left, ghashChainReference_eq]
  simp [notaryEncryptGcm.blocks, clientEncryptGcm.blocks]

theorem decrypt_matched_iff {i : NotaryInputs (Arr 16 × Arr 16)} {j : ClientInputs (Arr 16 × Arr 16)} :
    Matched (circuits aes compress)
      (notaryDecryptGcm.events kN nonce aad.length ciphertext.length i)
      (clientDecryptGcm2pc.events kC ciphertext aad j) ↔
    aes (kN ^^^ kC) 0 ^^^ i.h = j.h ∧
    aes (kN ^^^ kC) (Gcm.counterBlock nonce 1) ^^^ i.s = j.s ∧
    (∀ blk < blockCount ciphertext.length, (i.round blk).2 ^^^ (i.round blk).1 = (j.round blk).2 ∧
      (i.round blk).2 = paddedBlock ciphertext blk ∧
      Gcm.keystream aes (kN ^^^ kC) nonce blk ^^^ (i.round blk).1 = (j.round blk).1) ∧
    Gcm.ghash ghashMulReference (aes (kN ^^^ kC) 0)
      (aad.blocks ++ (ciphertext.blocks ++ [Gcm.lenBlock aad.length ciphertext.length])) ^^^ i.x = j.x ∧
    i.x ^^^ i.s = j.tag := by
  have hs (blk : Nat) : SameShape (notaryDecryptGcm.roundEvents kN nonce blk (i.round blk))
      (clientDecryptGcm2pc.roundEvents kC ciphertext blk (j.round blk)) := by
    constructor <;> simp [notaryDecryptGcm.roundEvents, clientDecryptGcm2pc.roundEvents]
  rw [matched_events_iff hs]
  simp only [decrypt_round_iff]
  refine and_congr_right fun hh => and_congr_right fun _ => and_congr_right fun hr => ?_
  rw [decrypt_blocks_eq, ←hh, Arr.xor_comm _ i.h, Arr.xor_xor_cancel_left, ghashChainReference_eq]
  simp [notaryDecryptGcm.blocks, clientDecryptGcm2pc.blocks]

end

-- For all masks there are inputs of the notary, whose rounds can be built from the masks by `x`.
theorem exists_answers (rN : Nat → X → List (Event wrk17)) (bN : (Nat → X) → List (Arr 16))
    (x : Nat → Arr 16 → X)
    (hr : ∀ blk y, Event.sessions (rN blk (x blk y)) = [⟨.aes (makeNonceCtr nonce (blk + 2)) k, y⟩])
    (n : Nat) (m : Masks wrk17) (i : Nat) :
    ∃ h s, ∃ y : Nat → Arr 16, ∃ z, m.Answers i <| Event.sessions <|
      notaryEvents k nonce n rN bN ⟨h, s, fun blk => x blk (y blk), z⟩ := by
  let y blk : Arr 16 := m (i + 1 + 1 + blk) (.aes (makeNonceCtr nonce (blk + 2)) k)
  have hl : m.Answers (i + 1 + 1) ((List.range (blockCount n)).flatMap fun blk =>
      [⟨.aes (makeNonceCtr nonce (blk + 2)) k, y blk⟩]) :=
    Masks.Answers.flatMap_range_iff.mpr fun _ _ => rfl
  refine ⟨m i (.aes 0 k), m (i + 1) (.aes (makeNonceCtr nonce 1) k), y,
    m (i + 1 + 1 + blockCount n) (.ghash (bN fun blk => x blk (y blk)) (m i (.aes 0 k))), ?_⟩
  simp [notaryEvents, hr, Masks.Answers.nil_iff (I := wrk17), Masks.Answers.cons_iff (I := wrk17),
    Masks.Answers.append_iff (I := wrk17), hl]

section

variable (aes : Arr 16 → Arr 16 → Arr 16) (compress : Arr 32 → Arr 64 → Arr 32)

theorem encrypt_result_eq {i : NotaryInputs (Arr 16)} {j : ClientInputs (Arr 16 × Arr 16)}
    (h : Matched (circuits aes compress) (notaryEncryptGcm.events kN nonce aad plaintext.length i)
      (clientEncryptGcm.events kC plaintext aad j)) :
    (clientEncryptGcm.ciphertext plaintext j.round, j.tag ^^^ (j.x ^^^ j.s)) =
    Gcm.encrypt aes ghashMulReference (kN ^^^ kC) nonce aad plaintext := by
  obtain ⟨-, hs, hr, hx, ht⟩ := encrypt_matched_iff.mp h
  rw [ciphertext_eq hr, ←ht, tag_eq hx hs]
  simp [Gcm.encrypt, Gcm.tag]

-- Whatever masks the notary draws, there is a run.
theorem exists_encrypt_matched (kN kC : Arr 16) (nonce : Arr 12) (aad plaintext : Bytes)
    (m : Masks wrk17) (n : Nat) : ∃ i j,
    m.Answers n (Event.sessions (notaryEncryptGcm.events kN nonce aad plaintext.length i)) ∧
    Matched (circuits aes compress) (notaryEncryptGcm.events kN nonce aad plaintext.length i)
      (clientEncryptGcm.events kC plaintext aad j) := by
  obtain ⟨h, s, y, z, ha⟩ := exists_answers (notaryEncryptGcm.roundEvents kN nonce)
    (notaryEncryptGcm.blocks aad plaintext.length) (fun _ y => y) (fun _ _ => rfl)
    plaintext.length m n
  exact ⟨⟨h, s, y, z⟩,
    ⟨⟨_, _, fun blk => (y blk, Gcm.keystream aes (kN ^^^ kC) nonce blk ^^^ y blk), _⟩, _⟩, ha,
    encrypt_matched_iff.mpr ⟨rfl, rfl, fun _ _ => ⟨rfl, rfl⟩, rfl, rfl⟩⟩

-- Two-party encryption is the mode's encryption: whatever masks the notary draws, there is a run,
-- and all runs have the same results.
theorem encryptGcm_matchedRun_iff (kN kC : Arr 16) (nonce : Arr 12) (aad plaintext : Bytes)
    (m : Masks wrk17) (r : Except Err Unit) (r' : Except Err (Bytes × Arr 16)) :
    MatchedRun (circuits aes compress) m (notaryEncryptGcm kN nonce aad plaintext.length)
      (clientEncryptGcm kC plaintext aad nonce) r r' ↔
    r = .ok () ∧
    r' = .ok (Gcm.encrypt aes ghashMulReference (kN ^^^ kC) nonce aad plaintext) := by
  rw [matchedRun_iff]
  constructor
  · rintro ⟨_, _, hn, hc, hm, -⟩
    obtain ⟨i, rfl, rfl⟩ := notaryEncryptGcm.denotes _ _ _ _ _ _ |>.mp hn
    obtain ⟨j, rfl, rfl⟩ := clientEncryptGcm.denotes _ _ _ _ _ _ |>.mp hc
    exact ⟨rfl, congrArg _ (encrypt_result_eq aes compress hm)⟩
  · rintro ⟨rfl, rfl⟩
    obtain ⟨i, j, ha, hm⟩ := exists_encrypt_matched aes compress kN kC nonce aad plaintext m 0
    refine ⟨_, _, notaryEncryptGcm.denotes _ _ _ _ |>.run _, ?_, hm, ha⟩
    rw [←encrypt_result_eq aes compress hm]
    exact clientEncryptGcm.denotes _ _ _ _ |>.run j

-- What two-party decryption returns.
def decryptOutcome (k : Arr 16) (nonce : Arr 12) (aad ciphertext : Bytes) (tag : Arr 16) :
    Except Err Bytes :=
  if Gcm.tag aes ghashMulReference k nonce aad ciphertext = tag then
    .ok (Gcm.crypt aes k nonce (List.replicate ciphertext.length 0))
  else
    .error (.other "AES-GCM authentication failed")

theorem decrypt_result_eq {i : NotaryInputs (Arr 16 × Arr 16)}
    {j : ClientInputs (Arr 16 × Arr 16)}
    (h : Matched (circuits aes compress)
      (notaryDecryptGcm.events kN nonce aad.length ciphertext.length i)
      (clientDecryptGcm2pc.events kC ciphertext aad j)) :
    clientDecryptGcm2pc.result ciphertext tag j =
    decryptOutcome aes (kN ^^^ kC) nonce aad ciphertext tag := by
  obtain ⟨-, hs, hr, hx, ht⟩ := decrypt_matched_iff.mp h
  rw [clientDecryptGcm2pc.result, plaintext_eq hr, ←ht, tag_eq hx hs, decryptOutcome, Gcm.tag]

theorem exists_decrypt_matched (kN kC : Arr 16) (nonce : Arr 12) (aad ciphertext : Bytes)
    (m : Masks wrk17) (n : Nat) : ∃ i j,
    m.Answers n (Event.sessions
      (notaryDecryptGcm.events kN nonce aad.length ciphertext.length i)) ∧
    Matched (circuits aes compress)
      (notaryDecryptGcm.events kN nonce aad.length ciphertext.length i)
      (clientDecryptGcm2pc.events kC ciphertext aad j) := by
  obtain ⟨h, s, y, z, ha⟩ := exists_answers (notaryDecryptGcm.roundEvents kN nonce)
    (notaryDecryptGcm.blocks aad.length ciphertext.length)
    (fun blk y => (y, paddedBlock ciphertext blk)) (fun _ _ => rfl) ciphertext.length m n
  exact ⟨⟨h, s, fun blk => (y blk, paddedBlock ciphertext blk), z⟩,
    ⟨⟨_, _, fun blk => (Gcm.keystream aes (kN ^^^ kC) nonce blk ^^^ y blk,
      paddedBlock ciphertext blk ^^^ y blk), _⟩, _⟩, ha,
    decrypt_matched_iff.mpr ⟨rfl, rfl, fun _ _ => ⟨rfl, rfl, rfl⟩, rfl, rfl⟩⟩

-- Two-party decryption checks the tag as the mode does, but it returns the keystream in place of
-- the plaintext.
theorem decryptGcm_matchedRun_iff (kN kC : Arr 16) (nonce : Arr 12) (aad ciphertext : Bytes)
    (tag : Arr 16) (m : Masks wrk17) (r : Except Err Unit) (r' : Except Err Bytes) :
    MatchedRun (circuits aes compress) m (notaryDecryptGcm kN nonce aad.length ciphertext.length)
      (clientDecryptGcm2pc kC ciphertext aad tag nonce) r r' ↔
    r = .ok () ∧ r' = decryptOutcome aes (kN ^^^ kC) nonce aad ciphertext tag := by
  rw [matchedRun_iff]
  constructor
  · rintro ⟨_, _, hn, hc, hm, -⟩
    obtain ⟨i, rfl, rfl⟩ := notaryDecryptGcm.denotes _ _ _ _ _ _ |>.mp hn
    obtain ⟨j, rfl, rfl⟩ := clientDecryptGcm2pc.run_iff.mp hc
    exact ⟨rfl, decrypt_result_eq aes compress hm⟩
  · rintro ⟨rfl, rfl⟩
    obtain ⟨i, j, ha, hm⟩ := exists_decrypt_matched aes compress kN kC nonce aad ciphertext m 0
    refine ⟨_, _, notaryDecryptGcm.denotes _ _ _ _ |>.run _, ?_, hm, ha⟩
    exact clientDecryptGcm2pc.run_iff.mpr ⟨j, (decrypt_result_eq aes compress hm).symm, rfl⟩

-- What two-party decryption is for: it accepts what the mode accepts, and returns its plaintext.
def DecryptsAsGcm (kN kC : Arr 16) (nonce : Arr 12) (aad ciphertext : Bytes) (tag : Arr 16) : Prop :=
  ∀ m r r', MatchedRun (circuits aes compress) m
      (notaryDecryptGcm kN nonce aad.length ciphertext.length)
      (clientDecryptGcm2pc kC ciphertext aad tag nonce) r r' →
    r'.toOption = Gcm.decrypt aes ghashMulReference (kN ^^^ kC) nonce aad ciphertext tag

theorem decryptsAsGcm_iff_outcome : DecryptsAsGcm aes compress kN kC nonce aad ciphertext tag ↔
    (decryptOutcome aes (kN ^^^ kC) nonce aad ciphertext tag).toOption =
    Gcm.decrypt aes ghashMulReference (kN ^^^ kC) nonce aad ciphertext tag := by
  simp only [DecryptsAsGcm, decryptGcm_matchedRun_iff]
  exact ⟨fun h => h default _ _ ⟨rfl, rfl⟩, fun h _ _ _ ⟨_, hr⟩ => hr ▸ h⟩

theorem decryptsAsGcm_iff (kN kC : Arr 16) (nonce : Arr 12) (aad ciphertext : Bytes)
    (tag : Arr 16) :
    DecryptsAsGcm aes compress kN kC nonce aad ciphertext tag ↔
    tag ≠ Gcm.tag aes ghashMulReference (kN ^^^ kC) nonce aad ciphertext ∨
    ∀ b ∈ ciphertext, b = 0 := by
  rw [decryptsAsGcm_iff_outcome, decryptOutcome, Gcm.decrypt]
  by_cases ht : tag = Gcm.tag aes ghashMulReference (kN ^^^ kC) nonce aad ciphertext
  · simp [ht, Except.toOption, Gcm.crypt_inj, eq_comm, List.eq_replicate_iff]
  · simp [ht, Ne.symm ht, Except.toOption]

theorem not_decryptsAsGcm : ¬∃ aes compress, DecryptsAsGcm aes compress 0 0 0 [] [1]
    (Gcm.tag aes ghashMulReference 0 0 [] [1]) := by
  rintro ⟨aes, compress, h⟩
  rw [decryptsAsGcm_iff_outcome, decryptOutcome, Gcm.decrypt] at h
  simp [Except.toOption, Gcm.crypt_inj] at h

end

end Notary
