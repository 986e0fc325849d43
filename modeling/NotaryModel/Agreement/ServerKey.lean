import NotaryModel.Agreement.ServerHello
import NotaryModel.Agreement.Session
import NotaryModel.Guest.Theorems.Transcripts
import NotaryModel.Notary.Theorems.ServerKey

open Notary Tls

namespace Agreement

theorem Session.Standard.transcriptHashes_eq {s : Session} {enc : Gcm.Seal} {gcm : Gcm.Open}
    (compress : Arr 32 → Arr 64 → Arr 32) (ikm : Arr 32) (hg : Gcm.Correct enc gcm)
    (h : s.Standard enc key iv)
    (hk : referenceServerHsKeys compress ikm (s.afterSh compress) = (key, iv)) :
    transcriptHashesWithIkm compress gcm s.rawOutbound s.rawInbound ikm =
      some (s.afterSh compress, Sha256.digest compress s.messages.flatten) := by
  simp [transcriptHashesWithIkm, h.transcriptAfterServerHello_eq,
    h.transcriptAfterServerFinished_eq hg hk]

-- The capture of a standard session passes the check of the notary.
theorem Session.Standard.verifies {s : Session} {enc : Gcm.Seal} {gcm : Gcm.Open}
    (compress : Arr 32 → Arr 64 → Arr 32) (files : Circuits) (ikm : Arr 32)
    (hg : Gcm.Correct enc gcm) (h : s.Standard enc key iv)
    (hk : referenceServerHsKeys compress ikm (s.afterSh compress) = (key, iv))
    (hp : parseServerHelloKeyShare s.rawInbound = some epk) :
    ∃ verified, verifyHandshakeCapture files compress gcm {
      serverEpk     := epk
      certChainHash := certChainHash compress (s.flight.entries.map CertificateEntry.der)
      outbound      := s.rawOutbound
      inbound       := s.rawInbound
    } ikm = .ok verified := by
  simp only [verifyHandshakeCapture, hp, h.certChainDersFromHandshake_eq hg hk,
    h.transcriptHashes_eq compress ikm hg hk, ne_eq, not_true_eq_false, if_false]
  exact ⟨_, rfl⟩

-- The group of the integers modulo a prime with its discrete logarithms in the open.
def additiveCurve : Curve25519 where
  Scalar              := Nat
  Point               := Nat
  fromBytesModOrder b := Bytes.ofBe b.toList % (2 ^ 255 - 19)
  toBytes s           := .ofBytes 32 (Bytes.be 32 s)
  addScalar s t       := (s + t) % (2 ^ 255 - 19)
  toEdwards b         := some (Bytes.ofBe b.toList % (2 ^ 255 - 19))
  mul s P             := s * P % (2 ^ 255 - 19)
  add P Q             := (P + Q) % (2 ^ 255 - 19)
  toMontgomery P      := .ofBytes 32 (Bytes.be 32 P)
  compress P          := .ofBytes 32 (Bytes.be 32 P)
  decompress b        := some (Bytes.ofBe b.toList % (2 ^ 255 - 19))

-- A session of a server with the key 0.
def sharingSession : Session where
  out         := [
    { contentType := 22, legacyVersion := 0x0301, payload := HandshakeMsg.toBytes ⟨1, [7]⟩ }
  ]
  inp         :=
    { contentType := 22, legacyVersion := 0x0303, payload := sharingHello.msg.toBytes } ::
    Tls.flight Guest.trivialSeal 0 0 0 [sampleFlight.messages]
  clientHello := [7]
  serverHello := sharingHello.body
  flight      := sampleFlight
  groups      := [sampleFlight.messages]
  later       := []

theorem sampleFlight_fits : sampleFlight.Fits where
  messages := by
    simp [sampleFlight, ServerFlight.messages, HandshakeMsg.Fits]
    decide
  context  := Nat.zero_lt_succ 255
  entries  := by simp [sampleFlight, CertificateEntry.fits_iff]

theorem sharingSession_standard (key : Arr 16) (iv : Arr 12) :
    sharingSession.Standard Guest.trivialSeal key iv where
  out    := by decide
  inp    := by decide +kernel
  client := rfl
  server := rfl
  fits   := sampleFlight_fits
  groups := ⟨rfl, by decide⟩
  sealed := rfl

theorem parseServerHelloKeyShare_sharingSession :
    parseServerHelloKeyShare sharingSession.rawInbound = some 0 :=
  have h := parseServerHelloKeyShare_eq_key ⟨by decide, by decide⟩ rfl
    (sharingSession_standard 0 0).inp rfl rfl
  h.right

def otherEpk : Arr 32 :=
  .ofBytes 32 (Bytes.be 32 1)

def sharingRandom : ProxyRandom :=
  ⟨0, 0, 0, 0, ⟨0, 0⟩⟩

-- A host whose share is 0 uses the key 1 in the ECDH round. It knows the resulting IKM, so that the
-- flight may be its own.
theorem readSetupFrame_otherEpk : ∃ es setup,
    Run False (readSetupFrame additiveCurve (fun _ _ => 0) Guest.trivialOpen ⟨0, 0⟩ sharingRandom
      "host") es (.ok (.twoPcPending setup)) ∧
    (.hostShare, (0 : Arr 32).toList) ∈ Event.reads es ∧
    referenceIkm (shareFromBytes additiveCurve 0) (generateShare additiveCurve 0) otherEpk =
      some setup.ikmFull ∧
    setup.binding.serverEpk = 0 := by
  obtain ⟨ikm, hi⟩ : ∃ ikm, referenceIkm (shareFromBytes additiveCurve 0)
    (generateShare additiveCurve 0) otherEpk = some ikm := ⟨_, rfl⟩
  have ⟨verified, hv⟩ := (sharingSession_standard _ _).verifies (fun _ _ => 0) ⟨0, 0⟩ ikm
    Guest.trivialSeal_correct rfl parseServerHelloKeyShare_sharingSession
  obtain ⟨es, setup, h, hh, rfl, hb⟩ := readSetupFrame_run sharingRandom "host" 0
    (by decide +kernel) (by decide +kernel) rfl hi hv
  exact ⟨es, setup, h, hh, hi, hb ▸ (verifyHandshakeCapture_ok hv).right.left⟩

theorem ikm_of_binding_iff_of_otherEpk :
    let host := shareFromBytes additiveCurve
    let notary := generateShare additiveCurve 0
    ∃ (es : List (Event wrk17)) (setup : TwoPcTrafficSetup),
      Run False (readSetupFrame additiveCurve (fun _ _ => 0) Guest.trivialOpen ⟨0, 0⟩ sharingRandom
        "host") es (.ok (.twoPcPending setup)) ∧
      ∃ (cap : HandshakeCapture) (flag : Byte) (epk h : Arr 32) (rest : List (Label × Bytes)),
        Event.reads es =
          (.setupMode, [setup2pcTrafficKeys]) :: cap.reads ++ ecdhReads flag epk h ++ rest ∧
        parseServerHelloKeyShare cap.inbound = some cap.serverEpk ∧
        setup.binding.serverEpk = cap.serverEpk ∧
        (referenceIkm (host h) notary setup.binding.serverEpk = some setup.ikmFull ↔
          referenceIkm (host h) notary epk = referenceIkm (host h) notary cap.serverEpk) :=
  have ⟨es, setup, h, _⟩ := readSetupFrame_otherEpk
  ⟨es, setup, h, ikm_of_binding_iff additiveCurve (fun _ _ => 0) Guest.trivialOpen ⟨0, 0⟩
    sharingRandom "host" h⟩

-- The binding names the key 0 of the capture, and the IKM is that of the key 1.
theorem not_ikm_of_binding :
    ¬∀ (curve : Curve25519) (compress : Arr 32 → Arr 64 → Arr 32) (gcm : Gcm.Open)
      (files : Circuits) (rng : ProxyRandom) (peer : String) (es : List (Event wrk17))
      (setup : TwoPcTrafficSetup),
      Run False (readSetupFrame curve compress gcm files rng peer) es
        (.ok (.twoPcPending setup)) →
      ∀ host : Arr 32, (.hostShare, host.toList) ∈ Event.reads es →
        referenceIkm (shareFromBytes curve host) (generateShare curve rng.ecdhShare)
          setup.binding.serverEpk = some setup.ikmFull := by
  intro hc
  have ⟨es, setup, h, hh, hi, hb⟩ := readSetupFrame_otherEpk
  have hk := hc _ _ _ _ _ _ _ _ h _ hh
  rw [hb, ←hi] at hk
  exact absurd hk (by decide +kernel)

end Agreement
