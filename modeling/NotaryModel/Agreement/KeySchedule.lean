import NotaryModel.Agreement.Session

namespace Agreement

variable {compress : Arr 32 → Arr 64 → Arr 32}

-- Of HKDF-Expand only the first block is asked for, which is the HMAC that the notary computes.
theorem expandLabel_eq_reference (compress : Arr 32 → Arr 64 → Arr 32) (prk : Arr 32)
    (label : String) (context : Bytes) (h : len ≤ 32) :
    Guest.expandLabel compress prk.toList label context len =
    .ok ((Notary.referenceHkdfExpandLabel compress prk label context len).toList.take len) := by
  by_cases h₀ : len = 0
  case pos =>
    subst h₀
    have hp : Exec.assert (32 ≤ prk.toList.length) "valid PRK" = .ok () := if_pos (by simp)
    simp only [Guest.expandLabel, hp, Exec.ok_bind, Hkdf.expand, Nat.zero_le, if_true,
      List.take_zero, Exec.expect_some]
  case neg => rw [Guest.expandLabel_eq h₀ h, labelBlock_eq]

-- The secret that follows the application data in the guest's key schedule.
theorem masterSecret_eq (h : Guest.main.keySchedule compress ecdh afterSh = .ok secrets) :
    secrets.masterSecret =
      let early := Notary.referenceHkdfExtract compress 0 (0 : Arr 32).toList
      let empty := (Notary.referenceEmptyHash compress).toList
      let derived1 := Notary.referenceHkdfExpandLabel compress early "derived" empty 32
      let hs := Notary.referenceHkdfExtract compress derived1 ecdh.toList
      let derived2 := Notary.referenceHkdfExpandLabel compress hs "derived" empty 32
      Notary.referenceHkdfExtract compress derived2 (0 : Arr 32).toList := by
  simp only [Guest.main.keySchedule, Guest.expandLabel_block, Exec.ok_bind, Guest.recordKeys_eq] at h
  rw [←Except.ok.inj h]
  rfl

-- The guest derives the handshake keys and the application keys of the server as the notary does.
theorem keySchedules_agree (compress : Arr 32 → Arr 64 → Arr 32) (ecdh afterSh afterSf : Arr 32) :
    (∃ secrets serverAppSecret,
      Guest.main.keySchedule compress ecdh afterSh = .ok secrets ∧
      (secrets.hsKey, secrets.hsIv) = Notary.referenceServerHsKeys compress ecdh afterSh ∧
      Guest.expandLabel compress secrets.masterSecret.toList "s ap traffic" afterSf.toList 32 =
        .ok serverAppSecret ∧
      Guest.main.recordKeys compress serverAppSecret =
        .ok ((Notary.referenceTls13ClientTraffic compress ecdh afterSh afterSf).rxKey,
          (Notary.referenceTls13ClientTraffic compress ecdh afterSh afterSf).rxIv)) ∧
    ∀ (prk : Arr 32) (label : String) (context : Bytes) (len : Nat),
      (Bytes.ofString label).length ≤ 249 → context.length ≤ 255 → len ≤ 32 →
      Guest.expandLabel compress prk.toList label context len =
        .ok ((Notary.referenceHkdfExpandLabel compress prk label context len).toList.take len) := by
  refine ⟨?keys, fun prk label context len _ _ h => expandLabel_eq_reference compress prk label context h⟩
  obtain ⟨secrets, hs, hk⟩ := keySchedule_eq compress ecdh afterSh
  refine ⟨secrets, _, hs, hk.symm, Guest.expandLabel_block, ?_⟩
  rw [Guest.recordKeys_eq, masterSecret_eq hs]
  rfl

theorem keySchedules_agree_of_iv :
    Guest.expandLabel (fun _ _ => 0) (0 : Arr 32).toList "iv" [] 12 =
      .ok ((Notary.referenceHkdfExpandLabel (fun _ _ => 0) 0 "iv" [] 12).toList.take 12) :=
  (keySchedules_agree (fun _ _ => 0) 0 0 0).right 0 "iv" [] 12 (by decide +kernel) (by decide)
    (by decide)

end Agreement
