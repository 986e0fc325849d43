import NotaryModel.Guest.Theorems.Handshake
import NotaryModel.Guest.Theorems.KeySchedule
import NotaryModel.Notary.Theorems.Transcript

open Tls

namespace Agreement

theorem labelBlock_eq : Guest.labelBlock = Notary.referenceHkdfExpandLabel :=
  rfl

-- The guest and the notary derive the same handshake keys of the server.
theorem keySchedule_eq (compress : Arr 32 → Arr 64 → Arr 32) (ikm afterSh : Arr 32) :
    ∃ secrets, Guest.main.keySchedule compress ikm afterSh = .ok secrets ∧
      Notary.referenceServerHsKeys compress ikm afterSh = (secrets.hsKey, secrets.hsIv) := by
  have ⟨secrets, hs, hk, _⟩ := Guest.keySchedule_ok compress ikm afterSh
  rw [Guest.recordKeys_eq] at hk
  exact ⟨secrets, hs, Except.ok.inj hk⟩

theorem dropLast_of_flatten {gs : List (List α)} (h : gs.flatten = as ++ [a])
    (hn : ∀ g ∈ gs, g ≠ []) : ∀ g ∈ gs.dropLast, ∀ b ∈ g, b ∈ as := by
  have hgs : gs ≠ [] := by
    rintro rfl
    cases as <;> cases h
  have hlast := List.dropLast_append_getLast (hn _ (List.getLast_mem hgs))
  rw [←List.dropLast_append_getLast hgs, List.flatten_append, List.flatten_singleton, ←hlast,
    ←List.append_assoc] at h
  have has := List.append_inj_left' h rfl
  intro g hg b hb
  rw [←has]
  exact List.mem_append_left _ (List.mem_flatten_of_mem hg hb)

-- The records of both directions of a connection, with the messages that they are made of.
structure Session where
  out         : List RawRecord
  inp         : List RawRecord
  clientHello : Bytes
  serverHello : Bytes
  flight      : ServerFlight
  groups      : List (List HandshakeMsg)
  later       : List RawRecord

namespace Session

variable (s : Session)

def rawOutbound : Bytes :=
  s.out.flatMap RawRecord.toBytes

def rawInbound : Bytes :=
  s.inp.flatMap RawRecord.toBytes

def clientHelloMsg : HandshakeMsg where
  msgType := 1
  body    := s.clientHello

def serverHelloMsg : HandshakeMsg where
  msgType := 2
  body    := s.serverHello

def messages : List Bytes :=
  (s.clientHelloMsg :: s.serverHelloMsg :: s.flight.messages).map HandshakeMsg.toBytes

def afterSh (compress : Arr 32 → Arr 64 → Arr 32) : Arr 32 :=
  Sha256.digest compress (s.clientHelloMsg.toBytes ++ s.serverHelloMsg.toBytes)

-- The first handshake record of each direction is a hello message. The protected records of the
-- server are its flight, cut between messages in any way, and later ones.
structure Standard (enc : Gcm.Seal) (key : Arr 16) (iv : Arr 12) : Prop where
  out    : Guest.Fit s.out
  inp    : Guest.Fit s.inp
  client : (s.out.find? (·.contentType == 22)).map RawRecord.payload = some s.clientHelloMsg.toBytes
  server : (s.inp.find? (·.contentType == 22)).map RawRecord.payload = some s.serverHelloMsg.toBytes
  fits   : s.flight.Fits
  groups : s.groups.flatten = s.flight.messages ∧ ∀ g ∈ s.groups, g ≠ []
  sealed : s.inp.filter (·.contentType == 23) = Tls.flight enc key iv 0 s.groups ++ s.later

-- What the guest's loop over the handshake records is to end with.
def handshake : Guest.Handshake where
  handshakeMessages   := s.messages
  certChainDer        := s.flight.entries.map CertificateEntry.der
  certVerifyMsg       := s.flight.certificateVerify
  serverFinishedBody  := s.flight.finished
  encryptedAppRecords := s.later.map Guest.recordToBytes

variable {s} {enc : Gcm.Seal} {gcm : Gcm.Open} {key : Arr 16} {iv : Arr 12}

theorem Standard.not_finished (h : s.Standard enc key iv) :
    ∀ g ∈ s.groups.dropLast, ∀ m ∈ g, m.msgType ≠ 20 := by
  intro g hg m hm
  have hmem : m ∈ s.flight.messages.dropLast :=
    dropLast_of_flatten h.groups.left h.groups.right g hg m hm
  simp only [ServerFlight.messages, List.dropLast_cons_cons, List.dropLast_singleton, List.mem_cons,
    List.not_mem_nil, or_false] at hmem
  rcases hmem with rfl | rfl | rfl <;> simp

theorem Standard.flatten_fits (h : s.Standard enc key iv) : ∀ m ∈ s.groups.flatten, m.Fits :=
  h.groups.left ▸ h.fits.messages

theorem Standard.parse_out (h : s.Standard enc key iv) :
    RawRecord.parse s.rawOutbound = some s.out := by
  simpa [rawOutbound, RawRecord.parse] using RawRecord.parse_flatMap_append h.out []

theorem Standard.parse_inp (h : s.Standard enc key iv) :
    RawRecord.parse s.rawInbound = some s.inp := by
  simpa [rawInbound, RawRecord.parse] using RawRecord.parse_flatMap_append h.inp []

theorem Standard.find_clientHello (h : s.Standard enc key iv) :
    ∃ ch, s.out.find? (·.contentType == 22) = some ch ∧ ch.payload = s.clientHelloMsg.toBytes :=
  Option.map_eq_some_iff.mp h.client

theorem Standard.find_serverHello (h : s.Standard enc key iv) :
    ∃ sh, s.inp.find? (·.contentType == 22) = some sh ∧ sh.payload = s.serverHelloMsg.toBytes :=
  Option.map_eq_some_iff.mp h.server

theorem Standard.later_protected (h : s.Standard enc key iv) :
    ∀ r ∈ s.later, r.contentType = 23 := by
  intro r hr
  have hm : r ∈ s.inp.filter (·.contentType == 23) := h.sealed ▸ List.mem_append_right _ hr
  simpa using List.of_mem_filter hm

section

open Guest

theorem foldlM_messages {f : ServerFlight} (hf : f.Fits) (v : HsLoop) :
    f.messages.foldlM main.handshakeMessage v = .ok { v with
      handshakeMessages  := v.handshakeMessages ++ f.messages.map HandshakeMsg.toBytes
      certChainDer       := some (f.entries.map CertificateEntry.der)
      certVerifyMsg      := some f.certificateVerify
      serverFinishedBody := some f.finished
      handshakeDone      := true
    } := by
  have hc := parseCertMessage_certificateBody hf.context hf.entries hf.list
  simp [ServerFlight.messages, main.handshakeMessage, hsCertificate, hsCertificateVerify,
    hsFinished, hc, Except.toOption, hsHeader, HandshakeMsg.toBytes, pure, Except.pure]

theorem Standard.handshake_eq (hg : Gcm.Correct enc gcm) (h : s.Standard enc key iv) :
    main.handshake gcm key iv s.rawOutbound s.rawInbound = .ok s.handshake := by
  have ⟨ch, hch, hcp⟩ := h.find_clientHello
  have ⟨sh, hsh, hsp⟩ := h.find_serverHello
  have hout : parseRecords s.rawOutbound = .ok s.out := parseRecords_flatMap h.out
  have hinp : parseRecords s.rawInbound = .ok s.inp := parseRecords_flatMap h.inp
  rw [Guest.handshake_eq hout hinp hch hsh, foldlM_handshakeRecord_filter, h.sealed, List.foldlM_append,
    foldlM_flight hg rfl rfl h.flatten_fits h.not_finished, h.groups.left, foldlM_messages h.fits]
  simp only [Functor.map, Except.map, Exec.ok_bind]
  rw [foldlM_handshakeRecord_done h.later_protected rfl]
  simp [HsLoop.finish, HsLoop.start, handshake, messages, ServerFlight.messages, hcp, hsp,
    Exec.assert, pure, Except.pure]

theorem Standard.transcriptAfterSh_eq (h : s.Standard enc key iv)
    (compress : Arr 32 → Arr 64 → Arr 32) :
    main.transcriptAfterSh compress s.rawOutbound s.rawInbound = .ok (s.afterSh compress) := by
  have ⟨ch, hch, hcp⟩ := h.find_clientHello
  have ⟨sh, hsh, hsp⟩ := h.find_serverHello
  simp [main.transcriptAfterSh, parseRecords, h.parse_out, h.parse_inp, hch, hsh, hcp, hsp, afterSh,
    pure, Except.pure]

end

section

open Notary

theorem Standard.transcriptAfterServerHello_eq (h : s.Standard enc key iv)
    (compress : Arr 32 → Arr 64 → Arr 32) :
    transcriptAfterServerHello compress s.rawOutbound s.rawInbound = some (s.afterSh compress) := by
  have ⟨ch, hch, hcp⟩ := h.find_clientHello
  have ⟨sh, hsh, hsp⟩ := h.find_serverHello
  simp [transcriptAfterServerHello, parseRecords, h.parse_out, h.parse_inp, hch, hsh, hcp, hsp,
    afterSh]

theorem Standard.transcriptAfterServerFinished_eq {compress : Arr 32 → Arr 64 → Arr 32}
    (hg : Gcm.Correct enc gcm) (h : s.Standard enc key iv)
    (hk : referenceServerHsKeys compress ikm (s.afterSh compress) = (key, iv)) :
    transcriptAfterServerFinished compress gcm s.rawOutbound s.rawInbound ikm =
    some (Sha256.digest compress s.messages.flatten) := by
  have ⟨ch, hch, hcp⟩ := h.find_clientHello
  have ⟨sh, hsh, hsp⟩ := h.find_serverHello
  have hfin : s.flight.messages.any (·.msgType == 20) = true := rfl
  simp only [transcriptAfterServerFinished, h.transcriptAfterServerHello_eq, hk, parseRecords,
    h.parse_out, h.parse_inp, hch, hsh, Option.bind_eq_bind, Option.bind_some]
  rw [foldlM_round_filter, h.sealed, List.foldlM_append,
    foldlM_round_flight hg rfl rfl h.flatten_fits h.not_finished, h.groups.left, hfin]
  simp only [Option.bind_eq_bind, Option.bind_some]
  rw [foldlM_round_done _ rfl]
  simp [messages, ServerFlight.messages, hcp, hsp]

theorem Standard.certChainDersFromHandshake_eq {compress : Arr 32 → Arr 64 → Arr 32}
    (hg : Gcm.Correct enc gcm) (h : s.Standard enc key iv)
    (hk : referenceServerHsKeys compress ikm (s.afterSh compress) = (key, iv)) :
    certChainDersFromHandshake compress gcm s.rawOutbound s.rawInbound ikm =
    some (s.flight.entries.map CertificateEntry.der) := by
  have hcert : s.flight.messages.find? (·.msgType == 11) =
      some { msgType := 11, body := certificateBody s.flight.context s.flight.entries } := rfl
  simp only [certChainDersFromHandshake, h.transcriptAfterServerHello_eq, hk, parseRecords,
    h.parse_inp, Option.bind_eq_bind, Option.bind_some]
  have hs := search_flight 0 hg key iv h.flatten_fits s.later
  rw [h.groups.left, hcert] at hs
  rw [search_filter, h.sealed]
  exact hs.trans (parseCertMessage_certificateBody h.fits.context h.fits.entries h.fits.list)

end

-- The six messages are the transcript of both programs.
theorem handshake_agrees {compress : Arr 32 → Arr 64 → Arr 32} (hg : Gcm.Correct enc gcm)
    (hk : Notary.referenceServerHsKeys compress ikm (s.afterSh compress) = (key, iv))
    (h : s.Standard enc key iv) :
    Guest.main.transcriptAfterSh compress s.rawOutbound s.rawInbound = .ok (s.afterSh compress) ∧
    (∃ secrets, Guest.main.keySchedule compress ikm (s.afterSh compress) = .ok secrets ∧
      Guest.main.handshake gcm secrets.hsKey secrets.hsIv s.rawOutbound s.rawInbound =
        .ok s.handshake) ∧
    Notary.transcriptAfterServerFinished compress gcm s.rawOutbound s.rawInbound ikm =
      some (Sha256.digest compress s.messages.flatten) ∧
    (Guest.main.transcripts compress s.handshake.handshakeMessages).afterFinished =
      Sha256.digest compress s.messages.flatten ∧
    Notary.certChainDersFromHandshake compress gcm s.rawOutbound s.rawInbound ikm =
      some s.handshake.certChainDer := by
  have ⟨secrets, hs, hkeys⟩ := keySchedule_eq compress ikm (s.afterSh compress)
  have ⟨hkey, hiv⟩ : key = secrets.hsKey ∧ iv = secrets.hsIv :=
    Prod.mk.inj (hk.symm.trans hkeys)
  refine ⟨h.transcriptAfterSh_eq compress, ⟨secrets, hs, ?_⟩,
    h.transcriptAfterServerFinished_eq hg hk, ?_, h.certChainDersFromHandshake_eq hg hk⟩
  · rw [←hkey, ←hiv]
    exact h.handshake_eq hg
  · have ht : s.handshake.handshakeMessages.take 6 = s.messages :=
      List.take_of_length_le (Nat.le_refl 6)
    rw [Guest.main.transcripts, ht]

end Session

theorem fit_fragments (hg : Gcm.Correct enc gcm) {ps : List Bytes} (n : Nat)
    (h : ps.flatten.length + 17 < 256 ^ 2) : Guest.Fit (fragments enc key iv n ps) := by
  induction ps generalizing n
  case nil => exact fun _ hr => nomatch hr
  case cons p ps hi =>
    rw [List.flatten_cons, List.length_append] at h
    refine List.forall_mem_cons.mpr ⟨?_, hi (n + 1) (by omega)⟩
    rw [length_sealRecord hg, List.length_append, List.length_singleton]
    omega

theorem fit_flight (hg : Gcm.Correct enc gcm) {gs : List (List HandshakeMsg)} (n : Nat)
    (h : (gs.flatten.flatMap HandshakeMsg.toBytes).length + 17 < 256 ^ 2) :
    Guest.Fit (Tls.flight enc key iv n gs) := by
  rw [flight_eq_fragments]
  refine fit_fragments hg n ?_
  rwa [←List.flatMap_def, ←List.flatMap_assoc, List.flatMap_id']

def sampleFlight : ServerFlight where
  encryptedExtensions := [0, 0]
  context             := []
  entries             := [{ der := [0x30, 0], extensions := [] }]
  certificateVerify   := [4, 3, 0, 0]
  finished            := [1]

def sampleHello : List RawRecord := [
  { contentType := 22, legacyVersion := 0x0303, payload := HandshakeMsg.toBytes ⟨2, [9]⟩ },
  { contentType := 20, legacyVersion := 0x0303, payload := [1] }
]

def sampleLater : List RawRecord := [
  { contentType := 23, legacyVersion := 0x0303, payload := [1, 2, 3] }
]

-- A flight between a ChangeCipherSpec record and one of application data.
def sampleSession (enc : Gcm.Seal) (key : Arr 16) (iv : Arr 12) (groups : List (List HandshakeMsg)) :
    Session where
  out         := [
    { contentType := 22, legacyVersion := 0x0301, payload := HandshakeMsg.toBytes ⟨1, [7]⟩ }
  ]
  inp         := sampleHello ++ Tls.flight enc key iv 0 groups ++ sampleLater
  clientHello := [7]
  serverHello := [9]
  flight      := sampleFlight
  groups
  later       := sampleLater

theorem sampleSession_standard (hg : Gcm.Correct enc gcm)
    (hgs : groups.flatten = sampleFlight.messages) (hn : ∀ g ∈ groups, g ≠ []) :
    (sampleSession enc key iv groups).Standard enc key iv where
  out    := by
    simp [sampleSession, Guest.Fit]
    decide
  inp    := by
    have hh : ∀ r ∈ sampleHello, r.payload.length < 256 ^ 2 := by decide
    have hl : ∀ r ∈ sampleLater, r.payload.length < 256 ^ 2 := by decide
    have hf : Guest.Fit (Tls.flight enc key iv 0 groups) := fit_flight hg 0 (hgs ▸ by decide)
    exact List.forall_mem_append.mpr ⟨List.forall_mem_append.mpr ⟨hh, hf⟩, hl⟩
  client := rfl
  server := rfl
  fits   := {
    messages := by
      simp [sampleSession, sampleFlight, ServerFlight.messages, HandshakeMsg.Fits]
      decide
    context  := Nat.zero_lt_succ 255
    entries  := by simp [sampleSession, sampleFlight, CertificateEntry.fits_iff]
  }
  groups := ⟨hgs, hn⟩
  sealed := by
    change (sampleHello ++ Tls.flight enc key iv 0 groups ++ sampleLater).filter _ =
      Tls.flight enc key iv 0 groups ++ sampleLater
    rw [flight_eq_fragments, List.filter_append, List.filter_append, filter_fragments]
    rfl

def sampleKeys : Arr 16 × Arr 12 :=
  Notary.referenceServerHsKeys (fun _ _ => 0) 0
    ((sampleSession (fun _ _ _ _ => ([], 0)) 0 0 []).afterSh fun _ _ => 0)

theorem sampleKeys_eq (enc : Gcm.Seal) (key : Arr 16) (iv : Arr 12)
    (groups : List (List HandshakeMsg)) :
    Notary.referenceServerHsKeys (fun _ _ => 0) 0
      ((sampleSession enc key iv groups).afterSh fun _ _ => 0) =
    (sampleKeys.1, sampleKeys.2) :=
  rfl

theorem handshake_agrees_of_sample :
    let compress : Arr 32 → Arr 64 → Arr 32 := fun _ _ => 0
    let gcm := Gcm.decrypt (fun _ _ => 0) (fun _ _ => 0)
    let groups := [sampleFlight.messages.take 2, sampleFlight.messages.drop 2]
    let s :=
      sampleSession (Gcm.encrypt (fun _ _ => 0) (fun _ _ => 0)) sampleKeys.1 sampleKeys.2 groups
    Guest.main.transcriptAfterSh compress s.rawOutbound s.rawInbound = .ok (s.afterSh compress) ∧
    (∃ secrets, Guest.main.keySchedule compress 0 (s.afterSh compress) = .ok secrets ∧
      Guest.main.handshake gcm secrets.hsKey secrets.hsIv s.rawOutbound s.rawInbound =
        .ok s.handshake) ∧
    Notary.transcriptAfterServerFinished compress gcm s.rawOutbound s.rawInbound 0 =
      some (Sha256.digest compress s.messages.flatten) ∧
    (Guest.main.transcripts compress s.handshake.handshakeMessages).afterFinished =
      Sha256.digest compress s.messages.flatten ∧
    Notary.certChainDersFromHandshake compress gcm s.rawOutbound s.rawInbound 0 =
      some s.handshake.certChainDer :=
  Session.handshake_agrees Gcm.encrypt_correct (sampleKeys_eq ..)
    (sampleSession_standard Gcm.encrypt_correct rfl (by decide))

end Agreement
