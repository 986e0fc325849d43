import NotaryModel.Agreement.TwoPcSession
import NotaryModel.Guest.NotaryPath
import NotaryModel.Notary.Theorems.Binding
import NotaryModel.Notary.Theorems.Jobs

open Common Notary Tls Exchange

namespace Agreement

variable {compress : Arr 32 → Arr 64 → Arr 32}

-- Two strings that do not collide.
def Separates (compress : Arr 32 → Arr 64 → Arr 32) (a b : Bytes) : Prop :=
  Sha256.digest compress a = Sha256.digest compress b → a = b

theorem keepEnd_separates (ha : a.length < 2 ^ 61) (hb : b.length < 2 ^ 61)
    (h : a.length ≠ b.length) : Separates Sha256.keepEnd a b :=
  fun hd => absurd (Sha256.length_eq_of_digest_keepEnd ha hb hd) h

-- What the hash of a binding is that of.
def framed (outbound inbound : Bytes) : Bytes :=
  Bytes.be 8 outbound.length ++ outbound ++ Bytes.be 8 inbound.length ++ inbound

theorem framed_ne (h : out.length < out'.length) (hi : inp.length ≤ inp'.length) :
    framed out' inp' ≠ framed out inp := by
  intro hf
  have hl := congrArg List.length hf
  simp only [framed, List.length_append, Bytes.length_be] at hl
  omega

theorem checkBinding_ok {witness : TlsWitness} {b : NotaryBundle}
    (hv : NotaryBundle.bundleVersionBinding ≤ b.bundleVersion)
    (h : Guest.runNotaryPath.checkBinding compress witness b = .ok ()) :
    Sha256.digest compress (framed witness.rawOutbound witness.rawInbound) =
      b.binding.handshakeTranscriptHash ∧
    Guest.parseServerHelloKeyShare witness.rawInbound = .ok (some b.binding.serverEpk) := by
  unfold Guest.runNotaryPath.checkBinding at h
  rw [if_pos hv] at h
  obtain ⟨_, ht, h⟩ := Exec.bind_eq_ok_iff.mp h
  obtain ⟨epk?, hp, h⟩ := Exec.bind_eq_ok_iff.mp h
  obtain ⟨epk, he, h⟩ := Exec.bind_eq_ok_iff.mp h
  refine ⟨Exec.assert_eq_ok_iff.mp ht, ?_⟩
  rw [hp, Exec.expect_eq_ok_iff.mp he, Exec.assert_eq_ok_iff.mp h]

-- In modes 0 and 1 the binding has nothing of the handshake.
theorem legacyDemo_binding
    (hs : Run eof (readSetupFrame curve compress gcm files rng peer) es (.ok keys))
    (hh : Run eof' (notaryDemo curve compress gcm false bincode args rng' h) es' (.ok out))
    (hm : Event.reads es <+: Event.writes es') :
    keys.binding files = productionSessionBinding files := by
  obtain ⟨hb, -⟩ | ⟨cap, rest, hr, -⟩ := readSetupFrame_binding hs
  case inl => exact hb
  case inr =>
    obtain ⟨m, rest', hne, hw⟩ := runLegacyDemo_writes hh
    rw [hr, hw, List.cons_append, List.cons_prefix_cons] at hm
    injection hm.left with _ hm
    injection hm with hm
    exact absurd hm.symm hne

-- In mode 2 its hash is that of the capture.
theorem runTwoPcTrafficDemo_binding
    (hs : Run eof (readSetupFrame curve compress gcm files rng peer) es (.ok keys))
    (hh : Run eof' (notaryDemo curve compress gcm true bincode args rng' h) es' (.ok out))
    (hm : Event.reads es <+: Event.writes es') :
    (keys.binding files).handshakeTranscriptHash =
      Sha256.digest compress (framed h.rawOutbound h.rawInbound) := by
  obtain ⟨cap', rest', hw, hout, hinp⟩ := runTwoPcTrafficDemo_writes hh
  obtain ⟨-, m, rest, hne, hr⟩ | ⟨cap, rest, hr, ht⟩ := readSetupFrame_binding hs
  case inl =>
    rw [hr, hw, List.cons_append, List.cons_prefix_cons] at hm
    injection hm.left with _ hm
    injection hm with hm
    exact absurd hm hne
  case inr =>
    rw [hr, hw] at hm
    simp only [HandshakeCapture.reads, List.cons_append, List.nil_append, List.cons_prefix_cons,
      Prod.mk.injEq, true_and] at hm
    obtain ⟨-, -, -, ho, -, hi, -⟩ := hm
    rw [ht, ho, hi, hout, hinp]
    rfl

-- No session passes the binding check, if the setup of the notary has read what the host has written:
-- the binding has no key at all, or its hash is that of the capture alone, to which the host has
-- appended the request.
theorem not_binds (curve : Curve25519) (compress : Arr 32 → Arr 64 → Arr 32) (gcm : Gcm.Open)
    (files : Circuits) (ed : Ed25519) (bincode : Bincode) (rng : ProxyRandom) (peer : String)
    (sk : ed.SigningKey) (now : UInt64) (fuel : Nat) (twoPcTrafficKeys : Bool) (args : Args)
    (rng' : HostRandom) (h : Handshaken)
    (hs : Run False (readSetupFrame curve compress gcm files rng peer) es (.ok keys))
    (hn : Run False (handle.worker compress files ed bincode sk now fuel keys) es₂ (.ok (some b)))
    (hh : Run False (notaryDemo curve compress gcm twoPcTrafficKeys bincode args rng' h) es'
      (.ok out))
    (hm : Event.reads es <+: Event.writes es')
    (hk : twoPcTrafficKeys = false →
      Guest.parseServerHelloKeyShare out.rawInbound ≠ .ok (some 0))
    (hc : twoPcTrafficKeys = true →
      Separates compress (framed out.rawOutbound out.rawInbound)
        (framed h.rawOutbound h.rawInbound)) :
    Guest.runNotaryPath.checkBinding compress (out.witness h.host) b ≠ .ok () := by
  intro hb
  obtain ⟨hv, he⟩ := handle.worker_binding _ _ _ hn b rfl
  obtain ⟨hd, hp⟩ := checkBinding_ok (hv ▸ UInt8.le_refl _) hb
  rw [he] at hd hp
  cases twoPcTrafficKeys
  case false =>
    rw [legacyDemo_binding hs hh hm] at hp
    exact hk rfl hp
  case true  =>
    obtain ⟨⟨req, hreq, ho⟩, raw, hi⟩ := notaryDemo_raw _ _ _ hh
    have ht := runTwoPcTrafficDemo_binding hs hh hm
    refine framed_ne ?_ ?_ (hc rfl (hd.trans ht))
    · rw [ho, List.length_append]
      omega
    · rw [hi, List.length_append]
      omega

-- A run in mode 0 with a request and no response.
section

variable {aes : Arr 16 → Arr 16 → Arr 16} {curve : Curve25519} {gcm : Gcm.Open} {files : Circuits}
variable {args : Args} {rng : ProxyRandom} {rng' : HostRandom} {h : Handshaken}

theorem legacySetup_scheduled (ha : args.legacyHostXorMasks = true) (peer : String) :
    Scheduled (circuits aes compress) (readSetupFrame curve compress gcm files rng peer)
      (runLegacyDemo.setup curve args rng' h) fun keys _ =>
        ∃ kNTx ivTx kNRx ivRx, keys = .preSplit kNTx ivTx kNRx ivRx := by
  unfold readSetupFrame runLegacyDemo.setup runLegacyDemo.phase0
  simp only [ha, if_true, Prog.pure_eq, Prog.pure_bind]
  refine .bind (.recv_send (Φ := fun v _ => v = #v[setupLegacyHostMasks]) rfl) ?_
  rintro _ _ rfl
  exact .bind (.recv_send (Φ := fun _ _ => True) trivial) fun _ _ _ => .pure ⟨_, _, _, _, rfl⟩

-- A record of the response as a job.
abbrev decryptJob (r : TlsRecord) (seq : UInt64) : ClientJob :=
  let tagStart := r.payload.length - 16
  .decrypt (r.payload.take tagStart) (.ofBytes 16 (r.payload.drop tagStart))
    (tls13Aad r.payload.length) seq

-- A record of the response that the host decrypts and goes on after.
structure Answers (aes : Arr 16 → Arr 16 → Arr 16) (w : Worker ed) (c : ClientWorker)
    (seq : UInt64) (r : TlsRecord) : Prop where
  type    : r.ct = 0x17
  length  : 16 ≤ r.payload.length
  fits    : (decryptJob r seq).Fits
  auth    : c.Authenticates aes w (decryptJob r seq)
  content : ∃ ty, ((c.result aes w (decryptJob r seq)).rdropWhile (· == 0)).getLast? = some ty ∧
    ty ≠ 0x15

def AllAnswer (aes : Arr 16 → Arr 16 → Arr 16) (w : Worker ed) (c : ClientWorker) :
    List TlsRecord → UInt64 → Prop
  | [], _        => True
  | r :: rs, seq => Answers aes w c seq r ∧ AllAnswer aes w c rs (seq + 1)

section

variable {ed : Ed25519} {w : Worker ed} {c : ClientWorker} {bincode : Bincode}

theorem readResponse_cons {c : ClientWorker} (h : Answers aes w c seq r) :
    readResponse c.kCRx c.ivRx stopAtAlert (r :: rs) seq =
    c.perform (decryptJob r seq) >>= fun plain =>
      let buf := plain.rdropWhile (· == 0)
      match buf.getLast? with
      | none         => .fail (.other "empty decrypted record")
      | some innerCt =>
        if stopAtAlert && innerCt == 0x15 then
          .pure ([], r.raw)
        else
          readResponse c.kCRx c.ivRx stopAtAlert rs (seq + 1) >>= fun x =>
            .pure ((if innerCt = 0x17 then buf.dropLast else []) ++ x.1, r.raw ++ x.2) := by
  rw [readResponse, if_neg (not_not.mpr h.type), if_neg (Nat.not_lt.mpr h.length)]
  rfl

-- The induction is on the records; each takes the notary one round.
theorem readResponse_scheduled {rs : List TlsRecord} {g : Bytes × Bytes → Wrk17 β}
    {Φ : Option NotaryBundle → β → Prop} (h : AllAnswer aes w c rs seq)
    (hg : ∀ full log, Scheduled (circuits aes compress)
      (runNotaryWorkerInner compress bincode w fuel log) (g (full, rs.flatMap TlsRecord.raw)) Φ) :
    Scheduled (circuits aes compress)
      (runNotaryWorkerInner compress bincode w (fuel + rs.length) log)
      (readResponse c.kCRx c.ivRx stopAtAlert rs seq >>= g) Φ := by
  induction rs generalizing seq log g
  case nil => exact hg [] log
  case cons r rs hi =>
    obtain ⟨ha, h⟩ := h
    obtain ⟨ty, ht, hty⟩ := ha.content
    rw [readResponse_cons ha, bind_assoc]
    refine ClientWorker.perform_scheduled ha.fits ha.auth ?_
    have hs : (stopAtAlert && ty == 0x15) = false := by simp [hty]
    simp only [ht, hs, Bool.false_eq_true, if_false]
    rw [bind_assoc]
    refine hi h fun full log => ?_
    rw [Prog.pure_bind]
    exact hg _ log

-- What is appended to the captured bytes: one request record and the records of the response.
structure Requested (t : Takeover) (rs : List TlsRecord) (out : DemoOutput) : Prop where
  inbound  : out.rawInbound = t.rawInbound ++ rs.flatMap TlsRecord.raw
  outbound : out.rawOutbound.length = t.rawOutbound.length + t.httpRequest.length + 22

theorem takeOver_scheduled {sk : ed.SigningKey} {t : Takeover} {rs : List TlsRecord}
    (hk : w.signingKey = some sk) (ht : readTlsRecords t.tcp = rs)
    (hr : ∀ c, AllAnswer aes w c rs rxSeq) (hl : t.httpRequest.length + 1 < 2 ^ 32)
    (hsid : (Bytes.ofString ("demo-" ++ t.host ++ "-" ++ toString t.now)).length < 256 ^ 2)
    (hsn : (Bytes.ofString t.host).length < 256 ^ 2) (b : NotaryBundle) :
    Scheduled (circuits aes compress)
      (runNotaryWorkerInner compress ⟨fun _ => .ok [], fun _ => .ok b⟩ w (2 + rs.length) [])
      (takeOver ⟨fun _ => .ok [], fun _ => .ok b⟩ t kCTx txIv kCRx rxIv txSeq rxSeq stopAtAlert)
      fun r out => (∃ b, r = some b) ∧ Requested t rs out := by
  let c : ClientWorker := ⟨kCTx, txIv, kCRx, rxIv⟩
  let inner := t.httpRequest ++ [0x17]
  have hf : (ClientJob.encrypt inner (tls13Aad (inner.length + 16)) txSeq).Fits := {
    aad  := by simp [ClientJob.header, tls13Aad]
    text := by simpa [ClientJob.text, inner] using hl
  }
  have hn : 2 + rs.length = 1 + rs.length + 1 := by omega
  unfold takeOver
  rw [hn, ht]
  refine ClientWorker.perform_scheduled (c := c) hf trivial ?_
  have hct : (c.result aes w (.encrypt inner (tls13Aad (inner.length + 16)) txSeq)).1.length =
      inner.length := Gcm.length_crypt
  generalize [] ++ [(c.done aes w _).commit compress] = log
  generalize c.result aes w _ = r at hct
  obtain ⟨ct, tag⟩ := r
  refine readResponse_scheduled (c := c) (hr c) fun full log => ?_
  rw [←Prog.bind_pure (runNotaryWorkerInner ..)]
  refine .bind (ClientWorker.finish_scheduled hk hsid hsn rfl rfl (Nat.zero_le _) rfl) ?_
  rintro _ _ ⟨rfl, rfl⟩
  refine .pure ⟨⟨_, rfl⟩, rfl, ?_⟩
  simp only [buildTlsRecord, List.length_append, List.length_cons, List.length_nil, Bytes.length_be,
    Vector.length_toList, hct, inner]
  omega

end

variable (aes compress curve gcm files args rng rng' h) in
theorem legacyDemo_scheduled {rs : List TlsRecord} (ed : Ed25519)
    (ha : args.legacyHostXorMasks = true) (peer : String) (sk : ed.SigningKey) (now : UInt64)
    (ht : readTlsRecords h.tcp = rs)
    (hr : ∀ (w : Worker ed) (c : ClientWorker), AllAnswer aes w c rs h.rxSeq)
    (hl : h.httpRequest.length + 1 < 2 ^ 32)
    (hsid : (Bytes.ofString ("demo-" ++ h.host ++ "-" ++ toString h.now)).length < 256 ^ 2)
    (hsn : (Bytes.ofString h.host).length < 256 ^ 2) (b : NotaryBundle) :
    Scheduled (circuits aes compress)
      (handle curve compress gcm files ed ⟨fun _ => .ok [], fun _ => .ok b⟩ rng peer sk now
        (2 + rs.length))
      (notaryDemo curve compress gcm false ⟨fun _ => .ok [], fun _ => .ok b⟩ args rng' h)
      fun r out => (∃ b, r = some b) ∧ Requested h.toTakeover rs out := by
  refine .bind (legacySetup_scheduled ha peer) ?_
  rintro _ keys ⟨_, _, _, _, rfl⟩
  refine .bind (Φ := fun _ _ => True) (.session fun _ => ⟨(), rfl, trivial⟩) fun _ _ _ => ?_
  exact takeOver_scheduled rfl ht (hr _) hl hsid hsn b

-- A run in mode 2 with a request and no response. The setups are run against each other. After that
-- the notary gets a header that the host does not write, and each end has a run of its own.
theorem twoPcDemo_run {ed : Ed25519} {sk : ed.SigningKey} {peer : String}
    (hs : Scheduled (circuits aes compress) (readSetupFrame curve compress gcm files rng peer)
      (runTwoPcTrafficDemo.setup curve compress gcm args rng' h) fun keys _ =>
        ∃ setup, keys = .twoPcPending setup)
    (ht : readTlsRecords h.tcp = []) (hl : h.httpRequest.length + 1 < 2 ^ 32)
    (hsid : (Bytes.ofString ("demo-" ++ h.host ++ "-" ++ toString h.now)).length < 256 ^ 2)
    (hsn : (Bytes.ofString h.host).length < 256 ^ 2) (b : NotaryBundle) (now : UInt64) :
    ∃ es keys es₂ b' es' out,
      Run False (readSetupFrame curve compress gcm files rng peer) es (.ok keys) ∧
      Run False (handle.worker compress files ed ⟨fun _ => .ok [], fun _ => .ok b⟩ sk now 2 keys) es₂
        (.ok (some b')) ∧
      Run False (notaryDemo curve compress gcm true ⟨fun _ => .ok [], fun _ => .ok b⟩ args rng' h)
        es' (.ok out) ∧
      Event.reads es <+: Event.writes es' ∧ Requested h.toTakeover [] out := by
  obtain ⟨_, host, es, es₁', ⟨setup, rfl⟩, hs, hh, hsch, -⟩ := hs default 0
  obtain ⟨⟨esN, n, hn⟩, -⟩ :=
    tls13ClientTraffic_run compress setup.ikmN setup.afterSh setup.afterSf
  obtain ⟨-, esC, c, hc⟩ :=
    tls13ClientTraffic_run compress host.hostIkmShare host.afterSh host.afterSf
  let keys := referenceTls13ClientTraffic compress setup.ikmFull setup.afterSh setup.afterSf
  let w : Worker ed := ⟨some sk, n.kNTx, keys.txIv, n.kNRx, keys.rxIv, setup.binding, now⟩
  have hto : Scheduled (circuits aes compress)
      (runNotaryWorkerInner compress ⟨fun _ => .ok [], fun _ => .ok b⟩ w 2 [])
      (takeOver ⟨fun _ => .ok [], fun _ => .ok b⟩ h.toTakeover c.kCTx host.txIv c.kCRx host.rxIv 0 0
        false) _ :=
    takeOver_scheduled rfl ht (fun _ => trivial) hl hsid hsn b
  obtain ⟨_, out, es₂, es₂', ⟨⟨b', rfl⟩, hr⟩, hw, ht, -⟩ := hto default 0
  have hheader : Run False readHeader _ _ := readHeader_run ⟨op2pcHkdf, 0, [], 0⟩ (by decide)
  refine ⟨es, .twoPcPending setup, _, b', _, out, hs,
    hheader.bind_ok (.session () (hn.bind_ok hw)), hh.bind_ok (.session () (hc.bind_ok ht)), ?_, hr⟩
  rw [Event.writes_append, hsch.matched.toLeft]
  exact List.prefix_append ..

end

def keyedHello : ServerHello :=
  { sharingHello with extensions := [⟨43, [3, 4]⟩, .serverShare otherEpk] }

-- A session of a server with the key 1.
def keyedSession : Session where
  out         := sharingSession.out
  inp         :=
    { contentType := 22, legacyVersion := 0x0303, payload := keyedHello.msg.toBytes } ::
    Tls.flight Guest.trivialSeal 0 0 0 [sampleFlight.messages]
  clientHello := [7]
  serverHello := keyedHello.body
  flight      := sampleFlight
  groups      := [sampleFlight.messages]
  later       := []

theorem keyedSession_standard (key : Arr 16) (iv : Arr 12) :
    keyedSession.Standard Guest.trivialSeal key iv where
  out    := by decide
  inp    := by decide +kernel
  client := rfl
  server := by decide +kernel
  fits   := sampleFlight_fits
  groups := ⟨rfl, by decide⟩
  sealed := rfl

def keyedHost : Handshaken where
  host             := "example.com"
  queryPath        := "/"
  tcp              := []
  rawInbound       := keyedSession.rawInbound
  rawOutbound      := keyedSession.rawOutbound
  now              := 0
  peerCertificates := none
  txSeq            := 0
  rxSeq            := 0
  txKey            := 0
  txIv             := 0
  rxKey            := 0
  rxIv             := 0

theorem readTlsRecords_nil : readTlsRecords [] = [] := by
  rw [readTlsRecords]
  rfl

-- The request is in the one string and not in the other, which have different lengths then.
theorem framed_separates {h : Takeover} (hr : Requested h [] out) (hi : h.rawInbound.length < 2 ^ 58)
    (ho : h.rawOutbound.length < 2 ^ 58) (hl : h.httpRequest.length < 2 ^ 58) :
    Separates Sha256.keepEnd (framed out.rawOutbound out.rawInbound)
      (framed h.rawOutbound h.rawInbound) := by
  have hin : out.rawInbound = h.rawInbound := by simpa using hr.inbound
  have hout := hr.outbound
  have hf (u v : Bytes) : (framed u v).length = u.length + v.length + 16 := by
    simp only [framed, List.length_append, Bytes.length_be]
    omega
  refine keepEnd_separates ?_ ?_ ?_ <;>
    simp only [hf, hin, hout] <;> omega

def sampleBincode : Bincode :=
  ⟨fun _ => .ok [], fun _ => .ok (bundleOf "" "" [])⟩

theorem keyedHost_run : ∃ es keys es₂ b es' out,
    Run False (readSetupFrame additiveCurve Sha256.keepEnd Guest.trivialOpen ⟨0, 0⟩ sharingRandom
      "host") es (.ok keys) ∧
    Run False (handle.worker Sha256.keepEnd ⟨0, 0⟩ echoScheme sampleBincode () 0 2 keys) es₂
      (.ok (some b)) ∧
    Run False (notaryDemo additiveCurve Sha256.keepEnd Guest.trivialOpen false sampleBincode
      ⟨true, false, false, false⟩ ⟨0, 0, 0⟩ keyedHost) es' (.ok out) ∧
    Matched (circuits (fun _ _ => 0) Sha256.keepEnd) (es ++ es₂) es' ∧
    Requested keyedHost.toTakeover [] out ∧
    Guest.parseServerHelloKeyShare out.rawInbound = .ok (some otherEpk) := by
  obtain ⟨_, out, _, es', ⟨⟨b, rfl⟩, hr⟩, hn, hh, hs, -⟩ :=
    legacyDemo_scheduled Sha256.keepEnd (fun _ _ => 0) additiveCurve Guest.trivialOpen ⟨0, 0⟩
      ⟨true, false, false, false⟩ sharingRandom ⟨0, 0, 0⟩ keyedHost echoScheme rfl "host" () 0
      readTlsRecords_nil (fun _ _ => trivial) (by decide +kernel) (by decide +kernel)
      (by decide +kernel) (bundleOf "" "" []) default 0
  obtain ⟨keys, es, es₂, h₁, h₂, rfl⟩ := Run.bind_ok_iff.mp hn
  refine ⟨es, keys, es₂, b, es', out, h₁, h₂, hh, hs.matched, hr, ?_⟩
  rw [hr.inbound, List.flatMap_nil, List.append_nil]
  have hk := parseServerHelloKeyShare_eq_key ⟨by decide +kernel, by decide +kernel⟩ rfl
    (keyedSession_standard 0 0).inp rfl rfl
  exact hk.left

-- The same host with the certificates of the server, in mode 2.
def pinnedHost : Handshaken :=
  { keyedHost with peerCertificates := some (sampleFlight.entries.map CertificateEntry.der) }

theorem pinnedHost_run : ∃ es keys es₂ b es' out,
    Run False (readSetupFrame cyclicCurve Sha256.keepEnd Guest.trivialOpen ⟨0, 0⟩ sharingRandom
      "host") es (.ok keys) ∧
    Run False (handle.worker Sha256.keepEnd ⟨0, 0⟩ echoScheme sampleBincode () 0 2 keys) es₂
      (.ok (some b)) ∧
    Run False (notaryDemo cyclicCurve Sha256.keepEnd Guest.trivialOpen true sampleBincode
      ⟨false, false, false, false⟩ ⟨0, 0, 0⟩ pinnedHost) es' (.ok out) ∧
    Event.reads es <+: Event.writes es' ∧ Requested pinnedHost.toTakeover [] out := by
  have hp := parseServerHelloKeyShare_eq_key ⟨by decide +kernel, by decide +kernel⟩ rfl
    (keyedSession_standard 0 0).inp rfl rfl
  obtain ⟨ikm, hi⟩ : ∃ ikm, referenceIkm (generateShare cyclicCurve 0)
    (generateShare cyclicCurve 0) otherEpk = some ikm := ⟨_, rfl⟩
  have hs := twoPcSetup_scheduled Sha256.keepEnd (fun _ _ => 0) ⟨0, 0⟩ ⟨false, false, false, false⟩
    sharingRandom ⟨0, 0, 0⟩ pinnedHost "host" cyclicCurve_lawful Guest.trivialSeal_correct
    (keyedSession_standard _ _) rfl hp.right rfl hi rfl rfl rfl rfl (by decide +kernel)
    (by decide +kernel)
  exact twoPcDemo_run (hs.mono fun _ _ ⟨setup, h, _⟩ => ⟨setup, h⟩) readTlsRecords_nil
    (by decide +kernel) (by decide +kernel) (by decide +kernel) (bundleOf "" "" []) 0

theorem not_binds_of_keyed_host :
    (∃ es keys es₂ b es' out,
      Run False (readSetupFrame additiveCurve Sha256.keepEnd Guest.trivialOpen ⟨0, 0⟩ sharingRandom
        "host") es (.ok keys) ∧
      Run False (handle.worker Sha256.keepEnd ⟨0, 0⟩ echoScheme sampleBincode () 0 2 keys) es₂
        (.ok (some b)) ∧
      Run False (notaryDemo additiveCurve Sha256.keepEnd Guest.trivialOpen false sampleBincode
        ⟨true, false, false, false⟩ ⟨0, 0, 0⟩ keyedHost) es' (.ok out) ∧
      Guest.runNotaryPath.checkBinding Sha256.keepEnd (out.witness "example.com") b ≠ .ok ()) ∧
    ∃ es keys es₂ b es' out,
      Run False (readSetupFrame cyclicCurve Sha256.keepEnd Guest.trivialOpen ⟨0, 0⟩ sharingRandom
        "host") es (.ok keys) ∧
      Run False (handle.worker Sha256.keepEnd ⟨0, 0⟩ echoScheme sampleBincode () 0 2 keys) es₂
        (.ok (some b)) ∧
      Run False (notaryDemo cyclicCurve Sha256.keepEnd Guest.trivialOpen true sampleBincode
        ⟨false, false, false, false⟩ ⟨0, 0, 0⟩ pinnedHost) es' (.ok out) ∧
      Guest.runNotaryPath.checkBinding Sha256.keepEnd (out.witness "example.com") b ≠ .ok () := by
  constructor
  case left =>
    obtain ⟨es, keys, es₂, b, es', out, hs, hn, hh, hm, hr, hk⟩ := keyedHost_run
    have hp : Event.reads es <+: Event.writes es' := by
      rw [←hm.toLeft, Event.reads_append]
      exact List.prefix_append ..
    have hne : Guest.parseServerHelloKeyShare out.rawInbound ≠ .ok (some 0) := by
      rw [hk]
      decide +kernel
    exact ⟨es, keys, es₂, b, es', out, hs, hn, hh,
      not_binds _ _ _ _ _ _ _ _ _ _ _ _ _ _ keyedHost hs hn hh hp (fun _ => hne) nofun⟩
  case right =>
    obtain ⟨es, keys, es₂, b, es', out, hs, hn, hh, hp, hr⟩ := pinnedHost_run
    have hc := framed_separates hr (by decide +kernel) (by decide +kernel) (by decide +kernel)
    exact ⟨es, keys, es₂, b, es', out, hs, hn, hh,
      not_binds _ _ _ _ _ _ _ _ _ _ _ _ _ _ pinnedHost hs hn hh hp nofun fun _ => hc⟩

theorem not_all_bind :
    ¬∀ (curve : Curve25519) (aes : Arr 16 → Arr 16 → Arr 16) (compress : Arr 32 → Arr 64 → Arr 32)
      (enc : Gcm.Seal) (gcm : Gcm.Open) (files : Circuits) (ed : Ed25519) (bincode : Bincode)
      (rng : ProxyRandom) (peer : String) (sk : ed.SigningKey) (now : UInt64) (fuel : Nat)
      (twoPcTrafficKeys : Bool) (args : Args) (rng' : HostRandom) (h : Handshaken) (s : Session)
      (key : Arr 16) (iv : Arr 12) (es es' : List (Event wrk17)) (b : NotaryBundle)
      (out : DemoOutput),
      Gcm.Correct enc gcm → s.Standard enc key iv → h.rawInbound = s.rawInbound →
      h.rawOutbound = s.rawOutbound →
      Run False (handle curve compress gcm files ed bincode rng peer sk now fuel) es
        (.ok (some b)) →
      Run False (notaryDemo curve compress gcm twoPcTrafficKeys bincode args rng' h) es' (.ok out) →
      Matched (circuits aes compress) es es' →
      Separates compress (framed out.rawOutbound out.rawInbound)
        (framed h.rawOutbound h.rawInbound) →
      Guest.runNotaryPath.checkBinding compress (out.witness h.host) b = .ok () := by
  intro hc
  obtain ⟨es, keys, es₂, b, es', out, hs, hn, hh, hm, hr, hk⟩ := keyedHost_run
  have hsep := framed_separates hr (by decide +kernel) (by decide +kernel) (by decide +kernel)
  have hb := hc _ _ _ Guest.trivialSeal _ _ _ _ _ _ _ _ _ _ _ _ keyedHost keyedSession 0 0 _ _ _ _
    Guest.trivialSeal_correct (keyedSession_standard 0 0) rfl rfl (hs.bind_ok hn) hh hm hsep
  have hp : Event.reads es <+: Event.writes es' := by
    rw [←hm.toLeft, Event.reads_append]
    exact List.prefix_append ..
  obtain ⟨hv, he⟩ := handle.worker_binding _ _ _ hn b rfl
  obtain ⟨-, hg⟩ := checkBinding_ok (hv ▸ UInt8.le_refl _) hb
  rw [he, legacyDemo_binding hs hh hp] at hg
  have hz : Guest.parseServerHelloKeyShare out.rawInbound = .ok (some 0) := hg
  exact absurd (hk.symm.trans hz) (by decide +kernel)

end Agreement
