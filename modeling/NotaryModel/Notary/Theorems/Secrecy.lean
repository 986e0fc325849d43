import NotaryModel.Notary.Theorems.Gcm

namespace Notary

open Bytes (blockCount)

section

variable (aes : Arr 16 → Arr 16 → Arr 16) (compress : Arr 32 → Arr 64 → Arr 32) (m : Masks wrk17)
variable (kN kC : Arr 16) (nonce : Arr 12)

-- What the notary reads, outside the joint sessions, in a two-party decryption with its masks `m`.
def NotaryReads (aad ciphertext : Bytes) (tag : Arr 16) (view : List (Label × Bytes)) : Prop :=
  ∃ es es' r r', Run False (notaryDecryptGcm kN nonce aad.length ciphertext.length) es r ∧
    Run False (clientDecryptGcm2pc kC ciphertext aad tag nonce) es' r' ∧
    Matched (circuits aes compress) es es' ∧ m.Answers 0 (Event.sessions es) ∧
    view = Event.reads es

-- The notary cannot tell the two inputs of the client apart by what it reads.
def SameView (aad ciphertext : Bytes) (tag : Arr 16) (aad' ciphertext' : Bytes) (tag' : Arr 16) :
    Prop :=
  ∀ view view', NotaryReads aes compress m kN kC nonce aad ciphertext tag view →
    NotaryReads aes compress m kN kC nonce aad' ciphertext' tag' view' → view = view'

end

variable {aes : Arr 16 → Arr 16 → Arr 16} {compress : Arr 32 → Arr 64 → Arr 32} {m : Masks wrk17}
variable {kN kC : Arr 16} {nonce : Arr 12} {aad ciphertext aad' ciphertext' : Bytes}

-- The messages that carry the ciphertext.
def ciphertextMessages (ciphertext : Bytes) : List (Label × Bytes) :=
  (List.range (blockCount ciphertext.length)).map fun blk =>
    (.ciphertext blk, (ciphertext.block blk).toList)

theorem notaryReads_iff : NotaryReads aes compress m kN kC nonce aad ciphertext tag view ↔
    view = ciphertextMessages ciphertext := by
  have view_eq {i j} (h : Matched (circuits aes compress)
      (notaryDecryptGcm.events kN nonce aad.length ciphertext.length i)
      (clientDecryptGcm2pc.events kC ciphertext aad j)) :
      Event.reads (notaryDecryptGcm.events kN nonce aad.length ciphertext.length i) =
      ciphertextMessages ciphertext := by
    have ⟨_, _, hr, _⟩ := decrypt_matched_iff.mp h
    rw [reads_notaryDecryptGcm]
    refine List.map_congr_left fun blk hb => ?_
    rw [(hr blk (List.mem_range.mp hb)).right.left, paddedBlock_eq]
  constructor
  · rintro ⟨_, _, _, _, hn, hc, hm, -, rfl⟩
    obtain ⟨i, -, rfl⟩ := notaryDecryptGcm.denotes _ _ _ _ _ _ |>.mp hn
    obtain ⟨j, -, rfl⟩ := clientDecryptGcm2pc.run_iff.mp hc
    exact view_eq hm
  · rintro rfl
    obtain ⟨i, j, ha, hm⟩ := exists_decrypt_matched aes compress kN kC nonce aad ciphertext m 0
    exact ⟨_, _, _, _, notaryDecryptGcm.denotes _ _ _ _ |>.run _,
      clientDecryptGcm2pc.run_iff.mpr ⟨j, rfl, rfl⟩, hm, ha, (view_eq hm).symm⟩

theorem ciphertextMessages_inj (hl : ciphertext.length = ciphertext'.length)
    (h : ciphertextMessages ciphertext = ciphertextMessages ciphertext') :
    ciphertext = ciphertext' := by
  refine List.ext_getElem hl fun i h₁ h₂ => ?_
  have hb : i / 16 < blockCount ciphertext.length := by
    unfold blockCount
    omega
  have hd : 16 * (i / 16) + i % 16 = i := Nat.div_add_mod i 16
  have hm : i % 16 < 16 := Nat.mod_lt i (by decide)
  rw [ciphertextMessages, ciphertextMessages, ←hl] at h
  have he := List.map_inj_left.mp h (i / 16) (List.mem_range.mpr hb)
  have he := Arr.toList_inj (Prod.mk.inj he).right
  have he : (ciphertext.block (i / 16))[i % 16] = (ciphertext'.block (i / 16))[i % 16] := by rw [he]
  simpa [hd, h₁, h₂, List.getD_eq_getElem?_getD] using he

-- The blocks of the ciphertext are sent in the clear, so that only the associated data stays hidden.
theorem sameView_iff (hc : ciphertext.length = ciphertext'.length) :
    SameView aes compress m kN kC nonce aad ciphertext tag aad' ciphertext' tag' ↔
    ciphertext = ciphertext' := by
  simp only [SameView, notaryReads_iff]
  constructor
  · exact fun h => ciphertextMessages_inj hc (h _ _ rfl rfl)
  · rintro rfl _ _ rfl rfl
    rfl

theorem sameView_iff_of_associated_data :
    SameView (fun _ _ => 0) (fun _ _ => 0) default 0 0 0 [1] [3] 0 [2] [3] 0 ↔
    ([3] : Bytes) = [3] :=
  sameView_iff rfl

theorem not_sameView :
    ¬∀ (aes : Arr 16 → Arr 16 → Arr 16) (compress : Arr 32 → Arr 64 → Arr 32) (m : Masks wrk17)
      (kN kC : Arr 16) (nonce : Arr 12) (aad ciphertext aad' ciphertext' : Bytes)
      (tag tag' : Arr 16), aad.length = aad'.length → ciphertext.length = ciphertext'.length →
      SameView aes compress m kN kC nonce aad ciphertext tag aad' ciphertext' tag' := by
  intro h
  have hs := h (fun _ _ => 0) (fun _ _ => 0) default 0 0 0 [] [1] [] [2] 0 0 rfl rfl
  have hv : ciphertextMessages [1] = ciphertextMessages [2] :=
    hs _ _ (notaryReads_iff.mpr rfl) (notaryReads_iff.mpr rfl)
  have he : ([1] : Bytes) = [2] := ciphertextMessages_inj rfl hv
  exact absurd he (by decide)

end Notary
