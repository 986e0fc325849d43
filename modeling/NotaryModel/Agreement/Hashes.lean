import NotaryModel.Agreement.Binding
import NotaryModel.Agreement.Certificates

open Common Notary Tls

namespace Agreement

variable {compress : Arr 32 → Arr 64 → Arr 32} {files : Circuits} {gcm : Gcm.Open}

-- What the hash of a chain is that of.
def chainBytes (certs : List Bytes) : Bytes :=
  certs.flatMap fun der => Bytes.be 4 der.length ++ der

theorem der_selfDelimiting : SelfDelimiting (fun der : Bytes => der.length < 256 ^ 4)
    fun der => Bytes.be 4 der.length ++ der := by
  intro a b t u ha hb h
  simp only [List.append_assoc] at h
  exact SelfDelimiting.lengthPrefixed_inj ha hb h

-- The chain has no count and no end marker: the induction over both lists is that of `flatMap_inj`.
theorem chainBytes_inj (h : ∀ der ∈ certs, der.length < 256 ^ 4)
    (h' : ∀ der ∈ certs', der.length < 256 ^ 4) (he : chainBytes certs = chainBytes certs') :
    certs = certs' := by
  have hn (der : Bytes) : Bytes.be 4 der.length ++ der ≠ [] := by
    intro hd
    have hl := congrArg List.length hd
    simp at hl
  have he : chainBytes certs ++ [] = chainBytes certs' ++ [] := by rw [he]
  exact (der_selfDelimiting.flatMap_inj hn h h' rfl he).left

theorem framed_inj (ho : out.length < 256 ^ 8) (ho' : out'.length < 256 ^ 8)
    (hi : inp.length < 256 ^ 8) (hi' : inp'.length < 256 ^ 8)
    (he : framed out inp = framed out' inp') : out = out' ∧ inp = inp' := by
  simp only [framed, List.append_assoc] at he
  obtain ⟨hout, he⟩ := SelfDelimiting.lengthPrefixed_inj ho ho' he
  have he : Bytes.be 8 inp.length ++ (inp ++ []) = Bytes.be 8 inp'.length ++ (inp' ++ []) := by
    simpa using he
  exact ⟨hout, (SelfDelimiting.lengthPrefixed_inj hi hi' he).left⟩

-- The lengths of the certificates that the notary parses have three bytes.

theorem certs_short (h : Notary.parseCertMessage.certs bytes = some certs) :
    ∀ der ∈ certs, der.length < 256 ^ 3 := by
  induction bytes using Notary.parseCertMessage.certs.induct generalizing certs
  case case1 =>
    rw [Notary.parseCertMessage.certs] at h
    cases h
    simp
  case case2 l₀ l₁ l₂ list certLen hl =>
    rw [Notary.parseCertMessage.certs, if_pos hl] at h
    cases h
  case case3 l₀ l₁ l₂ list certLen hl e₀ e₁ rest hd hi =>
    rw [Notary.parseCertMessage.certs, if_neg hl] at h
    split at h
    case h_2 => cases h
    case h_1 hr =>
      rw [hd] at hr
      cases hr
      obtain ⟨certs', hc, rfl⟩ := Option.map_eq_some_iff.mp h
      have hb : Bytes.ofBe [l₀, l₁, l₂] < 256 ^ 3 := Bytes.ofBe_lt [l₀, l₁, l₂]
      refine List.forall_mem_cons.mpr ⟨?_, hi hc⟩
      rw [List.length_take]
      omega
  case case4 l₀ l₁ l₂ list certLen hl hd =>
    rw [Notary.parseCertMessage.certs, if_neg hl] at h
    split at h
    case h_1 hr => exact absurd hr (hd _ _ _)
    case h_2    => cases h
  case case5 bytes h₁ h₂ =>
    rw [Notary.parseCertMessage.certs] at h
    case _ => cases h
    case _ => exact h₁
    case _ => exact h₂

theorem parseCertMessage_short (h : Notary.parseCertMessage body = some certs) :
    ∀ der ∈ certs, der.length < 256 ^ 3 := by
  unfold Notary.parseCertMessage at h
  obtain ⟨_, -, h⟩ := Option.bind_eq_some_iff.mp h
  obtain ⟨_, -, h⟩ := Option.bind_eq_some_iff.mp h
  obtain ⟨_, -, h⟩ := Option.bind_eq_some_iff.mp h
  exact certs_short h

theorem search_short (h : certChainDersFromHandshake.search gcm key iv rs seq = some certs) :
    ∀ der ∈ certs, der.length < 256 ^ 3 := by
  induction rs generalizing seq
  case nil          => cases h
  case cons r rs hi =>
    unfold certChainDersFromHandshake.search at h
    split at h
    case isTrue  => exact hi h
    case isFalse =>
      obtain ⟨⟨plain, innerCt⟩, -, h⟩ := Option.bind_eq_some_iff.mp h
      dsimp only at h
      split at h
      case isTrue  => exact hi h
      case isFalse =>
        obtain ⟨_, -, h⟩ := Option.bind_eq_some_iff.mp h
        split at h
        case h_1 => exact parseCertMessage_short h
        case h_2 => exact hi h

theorem certChainDers_short
    (h : certChainDersFromHandshake compress gcm out inp ikm = some certs) :
    ∀ der ∈ certs, der.length < 256 ^ 4 := by
  unfold certChainDersFromHandshake at h
  obtain ⟨_, -, h⟩ := Option.bind_eq_some_iff.mp h
  obtain ⟨_, -, h⟩ := Option.bind_eq_some_iff.mp h
  exact fun der hd => Nat.lt_trans (search_short h der hd) (by decide)

-- The notary compares the hash of the chain that it has parsed with the one that the host claims.
theorem verifyHandshakeCapture_chain
    (h : verifyHandshakeCapture files compress gcm cap ikm = .ok verified) :
    ∃ certs, certChainDersFromHandshake compress gcm cap.outbound cap.inbound ikm = some certs ∧
      certChainHash compress certs = cap.certChainHash ∧
      verified.binding.certChainHash = cap.certChainHash := by
  unfold verifyHandshakeCapture at h
  split at h
  case h_2 => cases h
  case h_1 =>
    split at h
    case isTrue  => cases h
    case isFalse =>
      split at h
      case h_2 => cases h
      case h_1 certs hc =>
        simp only at h
        split at h
        case isTrue     => cases h
        case isFalse hn =>
          have hn := not_not.mp hn
          split at h
          case h_2 => cases h
          case h_1 =>
            cases h
            exact ⟨certs, hc, hn, hn⟩

-- What both hashes pin: as long as SHA-256 does not collide on the strings that are compared, the
-- chain and the bytes of both directions.
theorem hashes_pin (compress : Arr 32 → Arr 64 → Arr 32) (gcm : Gcm.Open) (files : Circuits) :
    (∀ certs certs' : List Bytes,
      (∀ der ∈ certs, der.length < 2 ^ 32) → (∀ der ∈ certs', der.length < 2 ^ 32) →
      Separates compress (chainBytes certs) (chainBytes certs') →
      certChainHash compress certs = certChainHash compress certs' → certs = certs') ∧
    (∀ out inp out' inp' : Bytes,
      out.length < 2 ^ 64 → inp.length < 2 ^ 64 → out'.length < 2 ^ 64 → inp'.length < 2 ^ 64 →
      Separates compress (framed out inp) (framed out' inp') →
      handshakeTranscriptHash compress out inp = handshakeTranscriptHash compress out' inp' →
      out = out' ∧ inp = inp') ∧
    ∀ (cap : HandshakeCapture) (ikm : Arr 32) (verified : VerifiedHandshake),
      verifyHandshakeCapture files compress gcm cap ikm = .ok verified →
      (∃ chain, certChainDersFromHandshake compress gcm cap.outbound cap.inbound ikm = some chain ∧
        ∀ certs : List Bytes, (∀ der ∈ certs, der.length < 2 ^ 32) →
          Separates compress (chainBytes certs) (chainBytes chain) →
          certChainHash compress certs = verified.binding.certChainHash → certs = chain) ∧
      ∀ (witness : TlsWitness) (b : NotaryBundle),
        NotaryBundle.bundleVersionBinding ≤ b.bundleVersion → b.binding = verified.binding →
        witness.rawOutbound.length < 2 ^ 64 → witness.rawInbound.length < 2 ^ 64 →
        cap.outbound.length < 2 ^ 64 → cap.inbound.length < 2 ^ 64 →
        Separates compress (framed witness.rawOutbound witness.rawInbound)
          (framed cap.outbound cap.inbound) →
        Guest.runNotaryPath.checkBinding compress witness b = .ok () →
        witness.rawOutbound = cap.outbound ∧ witness.rawInbound = cap.inbound := by
  refine ⟨?chain, ?transcript, fun cap ikm verified h => ⟨?parsed, ?raw⟩⟩
  case chain =>
    intro certs certs' h h' hc he
    exact chainBytes_inj h h' (hc he)
  case transcript =>
    intro out inp out' inp' ho hi ho' hi' hc he
    exact framed_inj ho ho' hi hi' (hc he)
  case parsed =>
    obtain ⟨chain, hp, hn, hb⟩ := verifyHandshakeCapture_chain h
    refine ⟨chain, hp, fun certs hl hc he => ?_⟩
    exact chainBytes_inj hl (certChainDers_short hp) (hc (he.trans (hb.trans hn.symm)))
  case raw =>
    intro witness b hv hb ho hi ho' hi' hc hg
    have hd := (checkBinding_ok hv hg).left
    rw [hb, (verifyHandshakeCapture_ok h).right.right] at hd
    exact framed_inj ho ho' hi hi' (hc hd)

-- Chains and transcripts that the hash separates, and a capture that passes both checks.
theorem hashes_pin_of_sharingSession :
    let cap : HandshakeCapture := {
      serverEpk     := 0
      certChainHash := certChainHash Sha256.keepEnd (sampleFlight.entries.map CertificateEntry.der)
      outbound      := sharingSession.rawOutbound
      inbound       := sharingSession.rawInbound
    }
    certChainHash Sha256.keepEnd [[0x30, 0], [7]] ≠ certChainHash Sha256.keepEnd [[0x30, 0]] ∧
    handshakeTranscriptHash Sha256.keepEnd [1] [2] ≠
      handshakeTranscriptHash Sha256.keepEnd [1, 2, 3] [] ∧
    ∃ (verified : VerifiedHandshake) (witness : TlsWitness) (b : NotaryBundle),
      verifyHandshakeCapture ⟨0, 0⟩ Sha256.keepEnd Guest.trivialOpen cap 0 = .ok verified ∧
      certChainDersFromHandshake Sha256.keepEnd Guest.trivialOpen cap.outbound cap.inbound 0 =
        some (sampleFlight.entries.map CertificateEntry.der) ∧
      b.binding = verified.binding ∧
      Guest.runNotaryPath.checkBinding Sha256.keepEnd witness b = .ok () ∧
      witness.rawOutbound = cap.outbound ∧ witness.rawInbound = cap.inbound := by
  intro cap
  obtain ⟨hcerts, htranscripts, hcap⟩ := hashes_pin Sha256.keepEnd Guest.trivialOpen ⟨0, 0⟩
  refine ⟨fun h => ?certs, fun h => ?transcripts, ?_⟩
  case certs =>
    have he := hcerts _ _ (by simp) (by simp) (keepEnd_separates (by decide) (by decide) (by decide)) h
    cases he
  case transcripts =>
    have he := htranscripts _ _ _ _ (by decide) (by decide) (by decide) (by decide)
      (keepEnd_separates (by decide) (by decide) (by decide)) h
    cases he.left
  obtain ⟨verified, hv⟩ := (sharingSession_standard _ _).verifies Sha256.keepEnd ⟨0, 0⟩ 0
    Guest.trivialSeal_correct rfl parseServerHelloKeyShare_sharingSession
  have hp : certChainDersFromHandshake Sha256.keepEnd Guest.trivialOpen cap.outbound cap.inbound 0 =
      some (sampleFlight.entries.map CertificateEntry.der) :=
    (sharingSession_standard _ _).certChainDersFromHandshake_eq Guest.trivialSeal_correct rfl
  obtain ⟨-, hw⟩ := hcap cap 0 verified hv
  let witness : TlsWitness := ⟨0, cap.inbound, cap.outbound, "", none⟩
  let b : NotaryBundle := { bundleOf "" "" [] with binding := verified.binding }
  have hk := parseServerHelloKeyShare_eq_key ⟨by decide, by decide⟩ rfl
    (sharingSession_standard 0 0).inp rfl rfl
  have hg : Guest.runNotaryPath.checkBinding Sha256.keepEnd witness b = .ok () := by
    obtain ⟨-, he, ht⟩ := verifyHandshakeCapture_ok hv
    have ht : Sha256.digest Sha256.keepEnd (framed cap.outbound cap.inbound) =
        b.binding.handshakeTranscriptHash := ht.symm
    have he : (0 : Arr 32) = b.binding.serverEpk := he.symm
    have hl : NotaryBundle.bundleVersionBinding ≤ b.bundleVersion := UInt8.le_refl _
    unfold Guest.runNotaryPath.checkBinding
    rw [if_pos hl]
    refine Exec.bind_eq_ok_iff.mpr ⟨(), Exec.assert_eq_ok_iff.mpr ht, ?_⟩
    refine Exec.bind_eq_ok_iff.mpr ⟨some 0, hk.left, ?_⟩
    exact Exec.bind_eq_ok_iff.mpr ⟨0, rfl, Exec.assert_eq_ok_iff.mpr he⟩
  have hl : cap.outbound.length < 2 ^ 64 ∧ cap.inbound.length < 2 ^ 64 := by decide +kernel
  exact ⟨verified, witness, b, hv, hp, rfl, hg,
    hw witness b (UInt8.le_refl _) rfl hl.left hl.right hl.left hl.right (fun _ => rfl) hg⟩

end Agreement
