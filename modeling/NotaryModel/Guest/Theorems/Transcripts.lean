import NotaryModel.Guest.Theorems.Certificate
import NotaryModel.Guest.Theorems.Handshake
import NotaryModel.Guest.Theorems.KeySchedule

open Common

namespace Guest

open Exec (bind_eq_ok_iff)
open Tls

-- The handshake messages in protected records, up to the record with a Finished message or the
-- first one with application data. The next record has sequence number `n`.
inductive Flow (gcm : Gcm.Open) (key : Arr 16) (iv : Arr 12) :
    UInt64 → List RawRecord → List HandshakeMsg → Prop
  | nil : Flow gcm key iv n [] []
  | skip : r.contentType ≠ 23 → Flow gcm key iv n rs msgs → Flow gcm key iv n (r :: rs) msgs
  | appData : r.contentType = 23 → Opens gcm key iv n r (pt ++ [23]) →
    Flow gcm key iv n (r :: rs) []
  | finished : r.contentType = 23 → Opens gcm key iv n r (pt ++ [ty]) → ty ≠ 23 →
    parseHandshakeMessages pt = .ok ms → ms.any (·.msgType == 20) = true →
    Flow gcm key iv n (r :: rs) ms
  | messages : r.contentType = 23 → Opens gcm key iv n r (pt ++ [ty]) → ty ≠ 23 →
    parseHandshakeMessages pt = .ok ms → ms.any (·.msgType == 20) = false →
    Flow gcm key iv (n + 1) rs msgs → Flow gcm key iv n (r :: rs) (ms ++ msgs)

-- The last message of type `ty` stands at position `i`.
def Last (ty : Byte) (msgs : List HandshakeMsg) (i : Nat) (m : HandshakeMsg) : Prop :=
  ∃ pre post, msgs = pre ++ m :: post ∧ pre.length = i ∧ m.msgType = ty ∧
    ∀ m ∈ post, m.msgType ≠ ty

theorem Last.lt_length (h : Last ty msgs i m) : i < msgs.length := by
  obtain ⟨pre, post, rfl, rfl, _⟩ := h
  simp

section

variable {gcm : Gcm.Open} {key : Arr 16} {iv : Arr 12} {rs : List RawRecord}
variable {msgs : List HandshakeMsg} {s s' : HsLoop}

-- The variables that the messages determine.
structure HsLoop.Agrees (s s' : HsLoop) : Prop where
  messages : s.handshakeMessages = s'.handshakeMessages
  cert     : s.certChainDer = s'.certChainDer
  cv       : s.certVerifyMsg = s'.certVerifyMsg
  finished : s.serverFinishedBody = s'.serverFinishedBody

theorem HsLoop.Agrees.trans {s₁ s₂ s₃ : HsLoop} (h : s₁.Agrees s₂) (h' : s₂.Agrees s₃) :
    s₁.Agrees s₃ :=
  ⟨h.messages.trans h'.messages, h.cert.trans h'.cert, h.cv.trans h'.cv,
    h.finished.trans h'.finished⟩

-- What one record does, before the handshake is done.
theorem handshakeRecord_cases (h : main.handshakeRecord gcm key iv s r = .ok s')
    (hr : r.contentType = 23) (hs : s.handshakeDone = false) :
    (∃ pt, Opens gcm key iv s.hsSeq r (pt ++ [23]) ∧ s'.Agrees s ∧ s'.handshakeDone = true) ∨
    ∃ pt ty ms, Opens gcm key iv s.hsSeq r (pt ++ [ty]) ∧ ty ≠ 23 ∧
      parseHandshakeMessages pt = .ok ms ∧
      ms.foldlM main.handshakeMessage { s with hsSeq := s.hsSeq + 1 } = .ok s' := by
  rw [main.handshakeRecord, if_neg (not_not.mpr hr), if_neg (by simp [hs])] at h
  simp only [bind_eq_ok_iff, Exec.expect_eq_ok_iff] at h
  obtain ⟨⟨pt, ty⟩, hd, h⟩ := h
  have ho : Opens gcm key iv s.hsSeq r (pt ++ [ty]) := by
    rw [←decryptRecord_eq_ok_iff]
    cases hdec : decryptRecord gcm key iv s.hsSeq r <;> rw [hdec] at hd <;> cases hd
    rfl
  dsimp only at h
  split_ifs at h with hty
  case pos =>
    subst hty
    cases h
    exact .inl ⟨pt, ho, ⟨rfl, rfl, rfl, rfl⟩, rfl⟩
  case neg =>
    rw [bind_eq_ok_iff] at h
    obtain ⟨ms, hms, h⟩ := h
    refine .inr ⟨pt, ty, ms, ho, hty, ?_, h⟩
    rw [Exec.expect_eq_ok_iff] at hms
    cases hp : parseHandshakeMessages pt <;> rw [hp] at hms <;> cases hms
    rfl

theorem foldlM_handshakeRecord_agrees (h : rs.foldlM (main.handshakeRecord gcm key iv) s = .ok s')
    (hs : s.handshakeDone = true) : s'.Agrees s := by
  induction rs generalizing s
  case nil =>
    cases h
    exact ⟨rfl, rfl, rfl, rfl⟩
  case cons r rs hi =>
    rw [List.foldlM_cons, bind_eq_ok_iff] at h
    have ⟨s₁, h₁, h⟩ := h
    rw [main.handshakeRecord] at h₁
    split_ifs at h₁
    all_goals
      cases h₁
      exact (hi h hs).trans ⟨rfl, rfl, rfl, rfl⟩

-- The loop over the records is a loop over the messages that flow.
theorem foldlM_handshakeRecord_flow (h : rs.foldlM (main.handshakeRecord gcm key iv) s = .ok s')
    (hs : s.handshakeDone = false) :
    ∃ msgs s₁, Flow gcm key iv s.hsSeq rs msgs ∧ msgs.foldlM main.handshakeMessage s = .ok s₁ ∧
      s'.Agrees s₁ := by
  induction rs generalizing s
  case nil =>
    cases h
    exact ⟨[], _, .nil, rfl, ⟨rfl, rfl, rfl, rfl⟩⟩
  case cons r rs hi =>
    rw [List.foldlM_cons, bind_eq_ok_iff] at h
    have ⟨s₁, h₁, h⟩ := h
    by_cases hr : r.contentType = 23
    case neg =>
      rw [handshakeRecord_skip hr] at h₁
      cases h₁
      have ⟨msgs, s₂, hf, hm, ha⟩ := hi h hs
      exact ⟨msgs, s₂, .skip hr hf, hm, ha⟩
    case pos =>
      obtain ⟨pt, ho, ha, hd⟩ | ⟨pt, ty, ms, ho, hty, hp, hm⟩ := handshakeRecord_cases h₁ hr hs
      case inl =>
        exact ⟨[], s, .appData hr ho, rfl, (foldlM_handshakeRecord_agrees h hd).trans ha⟩
      case inr =>
        rw [foldlM_handshakeMessage_hsSeq] at hm
        cases hms : ms.foldlM main.handshakeMessage s <;> rw [hms] at hm <;> cases hm
        rename_i s₂
        have hd := foldlM_handshakeMessage_done hms
        cases hfin : ms.any (·.msgType == 20) <;> rw [hs, hfin] at hd
        case true =>
          have ha := foldlM_handshakeRecord_agrees h hd
          exact ⟨ms, s₂, .finished hr ho hty hp hfin, hms, ha.trans ⟨rfl, rfl, rfl, rfl⟩⟩
        case false =>
          have ⟨msgs, s₃, hf, hm, ha⟩ := hi h hd
          rw [foldlM_handshakeMessage_hsSeq] at hm
          cases hms' : msgs.foldlM main.handshakeMessage s₂ <;> rw [hms'] at hm <;> cases hm
          rename_i s₄
          refine ⟨ms ++ msgs, s₄, .messages hr ho hty hp hfin hf, ?_, ha.trans ⟨rfl, rfl, rfl, rfl⟩⟩
          rw [List.foldlM_append, hms]
          exact hms'

-- The last message of its type determines a variable.
theorem foldlM_handshakeMessage_last (ty : Byte) (field : HsLoop → Option α)
    (val : HandshakeMsg → α → Prop)
    (hm : ∀ {s s' : HsLoop} {m}, s.Reads m s' → m.msgType = ty → ∃ a, field s' = some a ∧ val m a)
    (hn : ∀ {s s' : HsLoop} {m}, s.Reads m s' → m.msgType ≠ ty → field s' = field s)
    (h : msgs.foldlM main.handshakeMessage s = .ok s') (ha : field s' = some a) :
    (∃ i m, Last ty msgs i m ∧ val m a) ∨ (∀ m ∈ msgs, m.msgType ≠ ty) ∧ field s = some a := by
  induction msgs generalizing s
  case nil =>
    cases h
    exact .inr ⟨fun _ hm => (nomatch hm), ha⟩
  case cons m msgs hi =>
    rw [List.foldlM_cons, bind_eq_ok_iff] at h
    have ⟨s₁, h₁, h⟩ := h
    have hr := handshakeMessage_reads h₁
    obtain ⟨i, m', ⟨pre, post, rfl, rfl, hl⟩, hv⟩ | ⟨hno, hf⟩ := hi h
    case inl => exact .inl ⟨_, m', ⟨m :: pre, post, rfl, rfl, hl⟩, hv⟩
    case inr =>
      by_cases hty : m.msgType = ty
      case pos =>
        have ⟨b, hb, hv⟩ := hm hr hty
        cases hb.symm.trans hf
        exact .inl ⟨0, m, ⟨[], msgs, rfl, rfl, hty, hno⟩, hv⟩
      case neg => exact .inr ⟨List.forall_mem_cons.mpr ⟨hty, hno⟩, (hn hr hty).symm.trans hf⟩

theorem foldlM_handshakeMessage_messages (h : msgs.foldlM main.handshakeMessage s = .ok s') :
    s'.handshakeMessages = s.handshakeMessages ++ msgs.map HandshakeMsg.toBytes := by
  induction msgs generalizing s
  case nil =>
    cases h
    simp
  case cons m msgs hi =>
    rw [List.foldlM_cons, bind_eq_ok_iff] at h
    have ⟨s₁, h₁, h⟩ := h
    rw [hi h, (handshakeMessage_reads h₁).messages]
    simp

end

-- The messages of a handshake, and which of the server's messages the guest takes the certificates,
-- the signature and the MAC from.
structure Accepted (gcm : Gcm.Open) (key : Arr 16) (iv : Arr 12) (out inp : List RawRecord)
    (h : Handshake) (msgs : List HandshakeMsg) (cert cv fin : Nat) : Prop where
  flow     : Flow gcm key iv 0 inp msgs
  messages : ∃ ch sh, out.find? (·.contentType == 22) = some ch ∧
    inp.find? (·.contentType == 22) = some sh ∧
    h.handshakeMessages = ch.payload :: sh.payload :: msgs.map HandshakeMsg.toBytes
  length   : 6 ≤ h.handshakeMessages.length
  cert     : ∃ m, Last 11 msgs cert m ∧ parseCertMessage m.body = .ok (.ok h.certChainDer)
  cv       : ∃ m, Last 15 msgs cv m ∧ m.body = h.certVerifyMsg
  fin      : ∃ m, Last 20 msgs fin m ∧ m.body = h.serverFinishedBody

theorem handshake_accepted {gcm : Gcm.Open} {key : Arr 16} {iv : Arr 12} {out inp : List RawRecord}
    (hout : parseRecords rawOutbound = .ok out) (hinp : parseRecords rawInbound = .ok inp)
    (h : main.handshake gcm key iv rawOutbound rawInbound = .ok hs) :
    ∃ msgs cert cv fin, Accepted gcm key iv out inp hs msgs cert cv fin := by
  simp only [main.handshake, hout, hinp, Exec.ok_bind, bind_eq_ok_iff, Exec.expect_eq_ok_iff,
    Exec.assert_eq_ok_iff] at h
  obtain ⟨ch, hch, sh, hsh, s, hs, _, hlen, certs, hcert, cv, hcv, fin, hfin, h⟩ := h
  have ⟨msgs, s', hflow, hm, ha⟩ := foldlM_handshakeRecord_flow hs rfl
  have hmsgs := ha.messages.trans (foldlM_handshakeMessage_messages hm)
  rw [ha.cert] at hcert
  rw [ha.cv] at hcv
  rw [ha.finished] at hfin
  have hcert := foldlM_handshakeMessage_last 11 HsLoop.certChainDer
    (fun m certs => parseCertMessage m.body = .ok (.ok certs)) (fun hr ht => by
      have ⟨certs, hp, hc⟩ := hr.cert ht
      exact ⟨certs, hc, hp⟩) (fun hr ht => hr.noCert ht) hm hcert
  have hcv := foldlM_handshakeMessage_last 15 HsLoop.certVerifyMsg (fun m body => m.body = body)
    (fun hr ht => ⟨_, by rw [hr.cv, if_pos ht], rfl⟩) (fun hr ht => by rw [hr.cv, if_neg ht]) hm hcv
  have hfin := foldlM_handshakeMessage_last 20 HsLoop.serverFinishedBody
    (fun m body => m.body = body) (fun hr ht => ⟨_, by rw [hr.finished, if_pos ht], rfl⟩)
    (fun hr ht => by rw [hr.finished, if_neg ht]) hm hfin
  cases h
  obtain ⟨i, m, hcert⟩ | ⟨_, ⟨⟩⟩ := hcert
  obtain ⟨j, m', hcv⟩ | ⟨_, ⟨⟩⟩ := hcv
  obtain ⟨k, m'', hfin⟩ | ⟨_, ⟨⟩⟩ := hfin
  exact ⟨msgs, i, j, k, hflow, ⟨ch, sh, hch, hsh, hmsgs⟩, hlen, ⟨m, hcert⟩, ⟨m', hcv⟩, ⟨m'', hfin⟩⟩

section

variable {x25519 : X25519} {compress : Arr 32 → Arr 64 → Arr 32} {gcm : Gcm.Open} {pki : Pkix}
variable {witness : TlsWitness} {p : SelfProved}

-- A run of the self-proving path: the signature is that of the message at position `cv`, it is
-- checked with the leaf of the chain at position `cert`, and the MAC is that at position `fin`.
structure Accepts (compress : Arr 32 → Arr 64 → Arr 32) (gcm : Gcm.Open) (pki : Pkix)
    (witness : TlsWitness) (p : SelfProved) (msgs : List HandshakeMsg) (cert cv fin : Nat) :
    Prop where
  handshake   : ∃ out inp afterSh ecdh secrets, parseRecords witness.rawOutbound = .ok out ∧
    parseRecords witness.rawInbound = .ok inp ∧
    main.transcriptAfterSh compress witness.rawOutbound witness.rawInbound = .ok afterSh ∧
    main.keySchedule compress ecdh afterSh = .ok secrets ∧
    Accepted gcm secrets.hsKey secrets.hsIv out inp p.handshake msgs cert cv fin ∧
    main.verifyFinished compress secrets.serverHsSecret p.transcripts.beforeFinished
      p.handshake.serverFinishedBody = .ok ()
  signature   : ∃ leafDer leaf, p.handshake.certChainDer[0]? = some leafDer ∧
    pki.certificateFromDer leafDer = some leaf ∧
    certificateVerify pki (pki.subjectPublicKeyInfo leaf) p.handshake.certVerifyMsg
      p.transcripts.beforeCv = .ok ()
  transcripts : p.transcripts = main.transcripts compress p.handshake.handshakeMessages

theorem parseRecords_of_transcriptAfterSh
    (h : main.transcriptAfterSh compress rawOutbound rawInbound = .ok afterSh) :
    ∃ out inp, parseRecords rawOutbound = .ok out ∧ parseRecords rawInbound = .ok inp := by
  simp only [main.transcriptAfterSh, bind_eq_ok_iff] at h
  have ⟨out, hout, inp, hinp, _⟩ := h
  exact ⟨out, inp, hout, hinp⟩

theorem selfProve_accepts (h : main.selfProve x25519 compress gcm pki witness = .ok p) :
    ∃ msgs cert cv fin, Accepts compress gcm pki witness p msgs cert cv fin := by
  simp only [main.selfProve, bind_eq_ok_iff, Exec.expect_eq_ok_iff, Exec.index_eq_ok_iff] at h
  obtain ⟨_, _, epk, _, _, _, _, _, epkServer, _, afterSh, hsh, secrets, hk, hs, hhs, _, hfin, _, _,
    leafDer, hder, leaf, hleaf, _, _, _, hcv, _, _, _, _, _, _, h⟩ := h
  cases h
  obtain ⟨out, inp, hout, hinp⟩ := parseRecords_of_transcriptAfterSh hsh
  obtain ⟨msgs, cert, cv, fin, ha⟩ := handshake_accepted hout hinp hhs
  exact ⟨msgs, cert, cv, fin, ⟨out, inp, afterSh, _, secrets, hout, hinp, hsh, hk, ha, hfin⟩,
    ⟨leafDer, leaf, hder, hleaf, hcv⟩, rfl⟩

-- The transcript hashes are those of the messages before the signature, of the messages before the
-- MAC and of the messages up to it. The certificates are among the signed messages.
structure Covers (compress : Arr 32 → Arr 64 → Arr 32) (p : SelfProved) (cert cv fin : Nat) :
    Prop where
  beforeCv       : p.transcripts.beforeCv =
    Sha256.digest compress (p.handshake.handshakeMessages.take (2 + cv)).flatten
  cert           : cert < cv
  beforeFinished : p.transcripts.beforeFinished =
    Sha256.digest compress (p.handshake.handshakeMessages.take (2 + fin)).flatten
  afterFinished  : p.transcripts.afterFinished =
    Sha256.digest compress (p.handshake.handshakeMessages.take (2 + fin + 1)).flatten

-- No two prefixes of the messages collide.
def PrefixesDiffer (compress : Arr 32 → Arr 64 → Arr 32) (messages : List Bytes) : Prop :=
  ∀ i j, Sha256.digest compress (messages.take i).flatten =
      Sha256.digest compress (messages.take j).flatten →
    (messages.take i).flatten = (messages.take j).flatten

theorem length_flatten_take_lt {l : List Bytes} (hab : a < b) (hb : b ≤ l.length)
    (hne : [] ∉ l.drop a) : (l.take a).flatten.length < (l.take b).flatten.length := by
  obtain ⟨k, rfl⟩ := Nat.exists_eq_add_of_lt hab
  rw [Nat.add_assoc, List.take_add, List.flatten_append, List.length_append]
  refine Nat.lt_add_of_pos_right (List.length_pos_iff.mpr fun h => ?_)
  rw [List.flatten_eq_nil_iff] at h
  cases hd : l.drop a
  case nil => rw [List.drop_eq_nil_iff] at hd; omega
  case cons m ms =>
    rw [hd, List.take_succ_cons] at h
    exact hne (hd ▸ h m (.head _) ▸ .head _)

theorem take_flatten_inj {hello : List Bytes} {msgs : List HandshakeMsg} (hl : hello.length = 2)
    (ha : a ≤ msgs.length) (hb : b ≤ msgs.length)
    (h : ((hello ++ msgs.map HandshakeMsg.toBytes).take (2 + a)).flatten =
      ((hello ++ msgs.map HandshakeMsg.toBytes).take (2 + b)).flatten) : a = b := by
  have hne (c : Nat) : [] ∉ (hello ++ msgs.map HandshakeMsg.toBytes).drop (2 + c) := by
    rw [←hl, List.drop_append, List.drop_of_length_le (by omega)]
    intro hm
    have hm := List.mem_of_mem_drop hm
    obtain ⟨m, _, hm⟩ := List.mem_map.mp hm
    exact m.toBytes_ne_nil hm
  have hlen : (hello ++ msgs.map HandshakeMsg.toBytes).length = 2 + msgs.length := by simp [hl]
  have hlt {a b : Nat} (hab : a < b) (hb : b ≤ msgs.length) :=
    length_flatten_take_lt (Nat.add_lt_add_left hab 2) (hlen ▸ Nat.add_le_add_left hb 2) (hne a)
  rcases Nat.lt_trichotomy a b with hab | hab | hab
  · exact absurd (congrArg List.length h) (Nat.ne_of_lt (hlt hab hb))
  · exact hab
  · exact absurd (congrArg List.length h) (Nat.ne_of_gt (hlt hab ha))

theorem Accepts.positions (ha : Accepts compress gcm pki witness p msgs cert cv fin)
    (hd : PrefixesDiffer compress p.handshake.handshakeMessages)
    (hc : Covers compress p cert cv fin) :
    cert < 2 ∧ cv = 2 ∧ fin = 3 := by
  obtain ⟨out, inp, _, _, _, _, _, _, _, hacc, _⟩ := ha.handshake
  obtain ⟨ch, sh, _, _, hm⟩ := hacc.messages
  obtain ⟨m, hcv, _⟩ := hacc.cv
  obtain ⟨m', hfin, _⟩ := hacc.fin
  have hm : p.handshake.handshakeMessages =
      [ch.payload, sh.payload] ++ msgs.map HandshakeMsg.toBytes := hm
  have hinj {a b : Nat} (ha : a ≤ msgs.length) (hb : b ≤ msgs.length)
      (he : Sha256.digest compress (p.handshake.handshakeMessages.take (2 + a)).flatten =
        Sha256.digest compress (p.handshake.handshakeMessages.take (2 + b)).flatten) : a = b :=
    take_flatten_inj rfl ha hb (hm ▸ hd _ _ he)
  have hlen := hacc.length
  rw [hm] at hlen
  simp only [List.length_append, List.length_map, List.length_cons, List.length_nil] at hlen
  have h₁ := hc.beforeCv
  have h₂ := hc.beforeFinished
  rw [ha.transcripts] at h₁ h₂
  have h₁ := hinj (a := 2) (by omega) (Nat.le_of_lt hcv.lt_length) h₁
  have h₂ := hinj (a := 3) (by omega) (Nat.le_of_lt hfin.lt_length) h₂
  have h₃ := hc.cert
  omega

-- The hashes are of four, five and six messages, whichever messages these are.
theorem covers_iff (h : main.selfProve x25519 compress gcm pki witness = .ok p)
    (hd : PrefixesDiffer compress p.handshake.handshakeMessages) :
    (∃ msgs cert cv fin, Accepts compress gcm pki witness p msgs cert cv fin) ∧
    ∀ msgs cert cv fin, Accepts compress gcm pki witness p msgs cert cv fin →
      (Covers compress p cert cv fin ↔ cert < 2 ∧ cv = 2 ∧ fin = 3) := by
  refine ⟨selfProve_accepts h, fun msgs cert cv fin ha => ⟨ha.positions hd, ?_⟩⟩
  rintro ⟨hcert, rfl, rfl⟩
  exact {
    beforeCv       := congrArg Transcripts.beforeCv ha.transcripts
    cert           := hcert
    beforeFinished := congrArg Transcripts.beforeFinished ha.transcripts
    afterFinished  := congrArg Transcripts.afterFinished ha.transcripts
  }

end

-- A hash that depends on the length of the message only.
def lastBytes (_ : Arr 32) (block : Arr 64) : Arr 32 :=
  .ofBytes 32 (block.toList.drop 56)

theorem digest_lastBytes (msg : Bytes) :
    Sha256.digest lastBytes msg = .ofBytes 32 (Bytes.be 8 (msg.length * 8)) := by
  have hp : ∃ n, (Sha256.pad msg).length = 64 * (n + 1) := by
    simp only [Sha256.pad, List.length_append, List.length_cons, List.length_replicate,
      Bytes.length_be]
    exact ⟨(msg.length + 8) / 64, by omega⟩
  obtain ⟨n, hn⟩ := hp
  have hd : (Sha256.pad msg).drop (64 * n + 56) = Bytes.be 8 (msg.length * 8) := by
    rw [Sha256.pad]
    refine List.drop_left' ?_
    rw [Sha256.pad, List.length_append, Bytes.length_be] at hn
    omega
  have hl : (Sha256.pad msg).length / 64 = n + 1 := by omega
  have hb : ((Sha256.pad msg).drop (64 * n)).length = 64 := by
    rw [List.length_drop]
    omega
  rw [Sha256.digest, hl, List.range_succ, List.foldl_append, List.foldl_cons, List.foldl_nil,
    lastBytes, Arr.toList_ofBytes hb, List.drop_drop, hd]

theorem prefixesDiffer_lastBytes {messages : List Bytes} (h : messages.flatten.length < 256 ^ 7) :
    PrefixesDiffer lastBytes messages := by
  intro i j he
  have hp (i : Nat) : (messages.take i).flatten <+: messages.flatten := by
    refine ⟨(messages.drop i).flatten, ?_⟩
    rw [←List.flatten_append, List.take_append_drop]
  have hlt (i : Nat) : (messages.take i).flatten.length * 8 < 256 ^ 8 := by
    have := (hp i).length_le
    omega
  rw [digest_lastBytes, digest_lastBytes] at he
  have he := Bytes.be_inj_of_lt (hlt i) (hlt j) (Arr.ofBytes_inj (by simp) (by simp) he)
  have he : (messages.take i).flatten.length = (messages.take j).flatten.length := by omega
  exact (List.prefix_of_prefix_length_le (hp i) (hp j) he.le).eq_of_length he

def trivialSeal : Gcm.Seal :=
  fun _ _ _ pt => (pt, 0)

def trivialOpen : Gcm.Open :=
  fun _ _ _ ct _ => some ct

theorem trivialSeal_correct : Gcm.Correct trivialSeal trivialOpen where
  length _ _ _ _ := rfl
  opens _ _ _ _  := rfl

def sampleX25519 : X25519 where
  publicKey _       := 0
  diffieHellman _ _ := 0

def samplePkix : Pkix where
  toPki            := samplePki true
  extensions _     := some [(idCeSubjectAltName, [])]
  subjectAltName _ := some [.dnsName "a.example"]

def sampleClientHello : HandshakeMsg where
  msgType := 1
  body    := List.replicate 37 0 ++ [0, 0, 42, 0, 0x33, 0, 38, 0, 36, 0, 0x1d, 0, 32] ++
    List.replicate 32 0

def sampleServerHello : HandshakeMsg where
  msgType := 2
  body    := List.replicate 38 0 ++ [0, 40, 0, 0x33, 0, 36, 0, 0x1d, 0, 32] ++ List.replicate 32 0

def helloRecord (m : HandshakeMsg) : RawRecord where
  contentType   := 22
  legacyVersion := 0x0303
  payload       := m.toBytes

theorem firstMessage_helloRecord (h : m.Fits) (rs : List RawRecord) :
    firstMessage m.msgType (helloRecord m :: rs) = some m.body := by
  have hp : parseHandshakeMessages ([m].flatMap HandshakeMsg.toBytes) = .ok [m] :=
    parseHandshakeMessages_flatMap (by simpa using h)
  rw [List.flatMap_singleton] at hp
  simp [firstMessage, helloRecord, hp, Except.toOption]

theorem parseClientHelloKeyShare_sample
    (h : parseRecords bytes = .ok (helloRecord sampleClientHello :: rs)) :
    parseClientHelloKeyShare bytes = .ok (some 0) := by
  have hf : firstMessage 1 (helloRecord sampleClientHello :: rs) = some sampleClientHello.body :=
    firstMessage_helloRecord (by decide) rs
  have hs : parseKeyShareClient (sampleClientHello.body.drop 40) = some 0 := by
    have h₀ : Bytes.ofBe [0, 38] = 38 := by decide
    have h₁ : Bytes.ofBe [0, 0x33] = 0x33 := by decide
    have h₂ : Bytes.ofBe [0, 36] = 36 := by decide
    have h₃ : Bytes.ofBe [0, 0x1d] = 0x1d := by decide
    have h₄ : Bytes.ofBe [0, 32] = 32 := by decide
    change parseKeyShareClient
      (0 :: 0x33 :: 0 :: 38 :: 0 :: 36 :: 0 :: 0x1d :: 0 :: 32 :: (0 : Arr 32).toList) = _
    rw [parseKeyShareClient]
    simp [h₀, h₁, h₂, Bytes.slice]
    rw [parseKeyShareClient.shares]
    simp [h₃, h₄, Arr.ofBytes_take]
  rw [parseClientHelloKeyShare, h]
  simp only [Exec.ok_bind, hf]
  exact congrArg Except.ok hs

theorem parseServerHelloKeyShare_sample
    (h : parseRecords bytes = .ok (helloRecord sampleServerHello :: rs)) :
    parseServerHelloKeyShare bytes = .ok (some 0) := by
  have hf : firstMessage 2 (helloRecord sampleServerHello :: rs) = some sampleServerHello.body :=
    firstMessage_helloRecord (by decide) rs
  have hs : parseKeyShareServer (sampleServerHello.body.drop 40) = some 0 := by
    have h₁ : Bytes.ofBe [0, 0x33] = 0x33 := by decide
    have h₂ : Bytes.ofBe [0, 36] = 36 := by decide
    have h₃ : Bytes.ofBe [0, 0x1d] = 0x1d := by decide
    have h₄ : Bytes.ofBe [0, 32] = 32 := by decide
    change parseKeyShareServer
      (0 :: 0x33 :: 0 :: 36 :: 0 :: 0x1d :: 0 :: 32 :: (0 : Arr 32).toList) = _
    rw [parseKeyShareServer]
    simp [h₁, h₂, h₃, h₄, Bytes.slice]
    rfl
  rw [parseServerHelloKeyShare, h]
  simp only [Exec.ok_bind, hf]
  exact congrArg Except.ok hs

def sampleCertificate : HandshakeMsg where
  msgType := 11
  body    := certificateBody [] [{ der := sampleCert 0xbb 0xaa, extensions := [] }]

def sampleCertificateVerify : HandshakeMsg where
  msgType := 15
  body    := [0x04, 0x03, 0, 0]

def sampleSigned (extra : List HandshakeMsg) : List Bytes :=
  (sampleClientHello :: sampleServerHello ::
    (extra ++ [sampleCertificate, sampleCertificateVerify])).map HandshakeMsg.toBytes

def sampleSecret : Arr 32 :=
  serverHsSecret lastBytes 0
    (Sha256.digest lastBytes (sampleClientHello.toBytes ++ sampleServerHello.toBytes))

def sampleMac (extra : List HandshakeMsg) : Arr 32 :=
  Sha256.hmac lastBytes (labelBlock lastBytes sampleSecret "finished" [] 32).toList
    (Sha256.digest lastBytes ((sampleSigned extra).take 5).flatten).toList

def sampleFinished (extra : List HandshakeMsg) : HandshakeMsg where
  msgType := 20
  body    := (sampleMac extra).toList

-- A flight in one record, with further messages at its start.
def sampleMessages (extra : List HandshakeMsg) : List HandshakeMsg :=
  extra ++ [sampleCertificate, sampleCertificateVerify, sampleFinished extra]

def sampleOut : List RawRecord :=
  [helloRecord sampleClientHello]

def sampleInp (extra : List HandshakeMsg) : List RawRecord :=
  helloRecord sampleServerHello :: flight trivialSeal 0 0 0 [sampleMessages extra]

def sampleWitness (extra : List HandshakeMsg) : TlsWitness where
  rawOutbound := sampleOut.flatMap RawRecord.toBytes
  rawInbound  := (sampleInp extra).flatMap RawRecord.toBytes
  eskClient   := 0
  hostname    := "a.example"
  notary      := none

def sampleProved (extra : List HandshakeMsg) : SelfProved :=
  let messages := sampleSigned extra ++ [(sampleFinished extra).toBytes]
  {
    handshake   := {
      handshakeMessages   := messages
      certChainDer        := [sampleCert 0xbb 0xaa]
      certVerifyMsg       := sampleCertificateVerify.body
      serverFinishedBody  := (sampleFinished extra).body
      encryptedAppRecords := []
    }
    transcripts := main.transcripts lastBytes messages
    plaintext   := []
  }

-- Messages that the guest only adds to the transcript.
structure Plain (extra : List HandshakeMsg) : Prop where
  ne_nil : extra ≠ []
  fits   : ∀ m ∈ extra, m.Fits
  types  : ∀ m ∈ extra, m.msgType ∉ [hsCertificate, hsCertificateVerify, hsFinished]
  length : (extra.flatMap HandshakeMsg.toBytes).length < 256

theorem foldlM_handshakeMessage_plain {extra : List HandshakeMsg} {s : HsLoop}
    (h : ∀ m ∈ extra, m.msgType ∉ [hsCertificate, hsCertificateVerify, hsFinished]) :
    extra.foldlM main.handshakeMessage s = .ok { s with
      handshakeMessages := s.handshakeMessages ++ extra.map HandshakeMsg.toBytes } := by
  induction extra generalizing s
  case nil => simp [pure, Except.pure]
  case cons m extra hi =>
    rw [List.forall_mem_cons] at h
    have ht := h.left
    simp only [List.mem_cons, List.not_mem_nil, or_false, not_or] at ht
    rw [List.foldlM_cons, main.handshakeMessage, if_neg ht.left, if_neg ht.right.left,
      if_neg ht.right.right]
    refine Eq.trans (hi h.right) ?_
    simp [hsHeader, HandshakeMsg.toBytes]

section

variable {extra : List HandshakeMsg}

theorem length_sampleMessages (h : Plain extra) :
    ((sampleMessages extra).flatMap HandshakeMsg.toBytes).length < 1024 := by
  have hc : sampleCertificate.body.length < 64 := by decide
  have hv : sampleCertificateVerify.body.length = 4 := rfl
  have hl := h.length
  simp [sampleMessages, HandshakeMsg.toBytes, hv, sampleFinished] at hl ⊢
  omega

theorem sampleInp_fit (h : Plain extra) : Fit (sampleInp extra) := by
  have hl := length_sampleMessages h
  refine List.forall_mem_cons.mpr ⟨by decide, List.forall_mem_cons.mpr ⟨?_, fun _ hr => nomatch hr⟩⟩
  rw [length_sealRecord trivialSeal_correct, List.length_append, List.length_singleton]
  omega

theorem sampleMessages_fits (h : Plain extra) : ∀ m ∈ sampleMessages extra, m.Fits := by
  have hm : ∀ m ∈ [sampleCertificate, sampleCertificateVerify, sampleFinished extra], m.Fits := by
    simp only [List.forall_mem_cons]
    refine ⟨by decide, by decide, ?_, fun _ hm => nomatch hm⟩
    rw [HandshakeMsg.Fits, sampleFinished, Vector.length_toList]
    omega
  exact List.forall_mem_append.mpr ⟨h.fits, hm⟩

theorem handshake_sample (h : Plain extra) (key : Arr 16) (iv : Arr 12) :
    main.handshake trivialOpen key iv (sampleWitness extra).rawOutbound
      (sampleWitness extra).rawInbound = .ok (sampleProved extra).handshake := by
  have hc : parseCertMessage sampleCertificate.body = .ok (.ok [sampleCert 0xbb 0xaa]) :=
    parseCertMessage_certificateBody (by decide) (by simp [CertificateEntry.fits_iff, sampleCert])
      (by decide)
  have hct : sampleCertificate.msgType = 11 := rfl
  have hvt : sampleCertificateVerify.msgType = 15 := rfl
  have hft : (sampleFinished extra).msgType = 20 := rfl
  have hf : (sampleInp extra).filter (·.contentType == 23) =
      flight trivialSeal key iv 0 [sampleMessages extra] := rfl
  have hm (s : HsLoop) : (sampleMessages extra).foldlM main.handshakeMessage s = .ok { s with
      handshakeMessages  := s.handshakeMessages ++ (sampleMessages extra).map HandshakeMsg.toBytes
      certChainDer       := some [sampleCert 0xbb 0xaa]
      certVerifyMsg      := some sampleCertificateVerify.body
      serverFinishedBody := some (sampleFinished extra).body
      handshakeDone      := true
    } := by
    rw [sampleMessages, List.foldlM_append, foldlM_handshakeMessage_plain h.types]
    simp [main.handshakeMessage, hc, hsCertificate, hsCertificateVerify, hsFinished, hct, hvt, hft,
      Except.toOption, hsHeader, HandshakeMsg.toBytes, pure, Except.pure]
  have hout : parseRecords (sampleWitness extra).rawOutbound = .ok sampleOut :=
    parseRecords_flatMap (by decide)
  have hinp : parseRecords (sampleWitness extra).rawInbound = .ok (sampleInp extra) :=
    parseRecords_flatMap (sampleInp_fit h)
  rw [handshake_eq hout hinp rfl rfl, foldlM_handshakeRecord_filter, hf,
    foldlM_flight trivialSeal_correct rfl rfl (by simpa using sampleMessages_fits h)
      (by simp), List.flatten_singleton, hm]
  have hlen : 1 ≤ extra.length := List.length_pos_iff.mpr h.ne_nil
  simp [Functor.map, Except.map, HsLoop.finish, HsLoop.start, Exec.assert, hlen, sampleProved,
    sampleSigned, sampleMessages, helloRecord]

theorem selfProve_sample (h : Plain extra) :
    main.selfProve sampleX25519 lastBytes trivialOpen samplePkix (sampleWitness extra) =
    .ok (sampleProved extra) := by
  have hout : parseRecords (sampleWitness extra).rawOutbound = .ok sampleOut :=
    parseRecords_flatMap (by decide)
  have hinp : parseRecords (sampleWitness extra).rawInbound = .ok (sampleInp extra) :=
    parseRecords_flatMap (sampleInp_fit h)
  have hsh : main.transcriptAfterSh lastBytes (sampleWitness extra).rawOutbound
      (sampleWitness extra).rawInbound =
      .ok (Sha256.digest lastBytes (sampleClientHello.toBytes ++ sampleServerHello.toBytes)) := by
    rw [main.transcriptAfterSh, hout, hinp]
    rfl
  have ⟨secrets, hk, _, hsecret⟩ := keySchedule_ok lastBytes 0
    (Sha256.digest lastBytes (sampleClientHello.toBytes ++ sampleServerHello.toBytes))
  have htake : (sampleProved extra).handshake.handshakeMessages.take 5 =
      (sampleSigned extra).take 5 := by
    have hn := List.length_pos_iff.mpr h.ne_nil
    refine List.take_append_of_le_length ?_
    simp [sampleSigned]
    omega
  have hfin : main.verifyFinished lastBytes secrets.serverHsSecret
      (main.transcripts lastBytes (sampleProved extra).handshake.handshakeMessages).beforeFinished
      (sampleProved extra).handshake.serverFinishedBody = .ok () := by
    rw [main.verifyFinished, hsecret, expandLabel_block, main.transcripts, htake]
    exact if_pos rfl
  have hpk : Exec.assert (sampleX25519.publicKey (sampleWitness extra).eskClient = 0)
      "epk_client in ClientHello does not match esk_client" = .ok () := rfl
  have hdh : sampleX25519.diffieHellman (sampleWitness extra).eskClient 0 = 0 := rfl
  have hchain : verifyCertChain samplePkix.toPki (sampleProved extra).handshake.certChainDer =
      .ok [(sampleCert 0xbb 0xaa, [0x30, 1, 1])] := rfl
  simp only [main.selfProve, parseClientHelloKeyShare_sample hout,
    parseServerHelloKeyShare_sample hinp, Exec.ok_bind, Exec.expect_some, hsh, hpk, hdh, hk,
    handshake_sample h, hfin, hchain, expandLabel_block, recordKeys_eq]
  rfl

theorem prefixesDiffer_sample (h : Plain extra) :
    PrefixesDiffer lastBytes (sampleProved extra).handshake.handshakeMessages := by
  refine prefixesDiffer_lastBytes ?_
  have hl := length_sampleMessages h
  have hch : sampleClientHello.toBytes.length = 86 := rfl
  have hsh : sampleServerHello.toBytes.length = 84 := rfl
  simp only [sampleProved, sampleSigned, sampleMessages, List.map_cons, List.map_append,
    List.flatten_append, List.flatten_cons,
    List.flatten_nil, List.length_append, List.cons_append, List.map_nil, List.flatMap_def,
    List.length_nil, hch, hsh] at hl ⊢
  omega

end

theorem plain_sample : Plain [{ msgType := 8, body := [0, 0] }] where
  ne_nil := by decide
  fits   := by decide
  types  := by decide
  length := by decide

theorem covers_iff_of_sample :
    let extra := [{ msgType := 8, body := [0, 0] }]
    (∃ msgs cert cv fin, Accepts lastBytes trivialOpen samplePkix (sampleWitness extra)
      (sampleProved extra) msgs cert cv fin) ∧
    ∀ msgs cert cv fin, Accepts lastBytes trivialOpen samplePkix (sampleWitness extra)
        (sampleProved extra) msgs cert cv fin →
      (Covers lastBytes (sampleProved extra) cert cv fin ↔ cert < 2 ∧ cv = 2 ∧ fin = 3) :=
  covers_iff (selfProve_sample plain_sample) (prefixesDiffer_sample plain_sample)

-- The server asks for a certificate of the client before it sends its own.
theorem not_covers :
    ¬∀ (x25519 : X25519) (compress : Arr 32 → Arr 64 → Arr 32) (gcm : Gcm.Open) (pki : Pkix)
      (witness : TlsWitness) (p : SelfProved) (msgs : List HandshakeMsg) (cert cv fin : Nat),
      main.selfProve x25519 compress gcm pki witness = .ok p →
      PrefixesDiffer compress p.handshake.handshakeMessages →
      Accepts compress gcm pki witness p msgs cert cv fin →
      Covers compress p cert cv fin := by
  intro h
  let extra : List HandshakeMsg := [
    { msgType := 8,  body := [0, 0] },
    { msgType := 13, body := [0, 0, 0] }
  ]
  have hp : Plain extra := ⟨by decide, by decide, by decide, by decide⟩
  have hrun := selfProve_sample hp
  have hd := prefixesDiffer_sample hp
  have ⟨msgs, cert, cv, fin, ha⟩ := selfProve_accepts hrun
  have hc := h _ _ _ _ _ _ msgs cert cv fin hrun hd ha
  obtain ⟨_, rfl, rfl⟩ := ha.positions hd hc
  obtain ⟨out, inp, _, _, _, _, _, _, _, hacc, _⟩ := ha.handshake
  obtain ⟨ch, sh, _, _, hm⟩ := hacc.messages
  obtain ⟨m, ⟨pre, post, rfl, hl, hty, _⟩, _⟩ := hacc.cv
  -- The fifth message of the transcript is the Certificate.
  have hpost : (pre ++ m :: post).drop 2 = m :: post := List.drop_left' hl
  have h₅ := congrArg (fun l => (l.drop 4).head?.bind List.head?) hm
  simp only [List.drop_succ_cons, ←List.map_drop, hpost] at h₅
  have hty : (11 : Byte) = 15 := (Option.some_inj.mp h₅).trans hty
  exact absurd hty (by decide)

end Guest
