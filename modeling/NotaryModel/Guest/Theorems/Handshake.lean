import NotaryModel.Guest.Theorems.AppRecords
import NotaryModel.Tls.Flight

namespace Guest

open Exec (index range expect bind_eq_ok_iff)
open Tls

theorem parseHandshakeMessages_flatMap {msgs : List HandshakeMsg} (h : ∀ m ∈ msgs, m.Fits) :
    parseHandshakeMessages (msgs.flatMap HandshakeMsg.toBytes) = .ok msgs := by
  induction msgs
  case nil            => rw [List.flatMap_nil, parseHandshakeMessages]
  case cons m msgs hi =>
    rw [List.forall_mem_cons] at h
    obtain ⟨l₀, l₁, l₂, hl, hm⟩ := HandshakeMsg.exists_toBytes h.left
    rw [List.flatMap_cons, hm]
    simp only [List.cons_append]
    rw [parseHandshakeMessages]
    simp [hl, hi h.right, Functor.map, Except.map]

theorem hsHeader_of_length {body : Bytes} (h : body.length = Bytes.ofBe [l₀, l₁, l₂]) :
    hsHeader ⟨msgType, body⟩ = [msgType, l₀, l₁, l₂] := by
  have hb : Bytes.be 3 (Bytes.ofBe [l₀, l₁, l₂]) = [l₀, l₁, l₂] := Bytes.be_ofBe rfl
  rw [hsHeader, h, hb]
  rfl

theorem eq_of_parseHandshakeMessages (h : parseHandshakeMessages data = .ok msgs) :
    (msgs.flatMap fun m => hsHeader m ++ m.body) = data := by
  induction data using parseHandshakeMessages.induct generalizing msgs
  case case1 =>
    rw [parseHandshakeMessages] at h
    cases h
    rfl
  case case2 msgType l₀ l₁ l₂ data length hl =>
    rw [parseHandshakeMessages, if_pos hl] at h
    cases h
  case case3 msgType l₀ l₁ l₂ data length hl hi =>
    rw [parseHandshakeMessages, if_neg hl] at h
    cases hm : parseHandshakeMessages (data.drop length) <;> rw [hm] at h <;> cases h
    rw [List.flatMap_cons, hi hm, hsHeader_of_length (List.length_take_of_le (Nat.not_lt.mp hl))]
    simp only [List.cons_append, List.nil_append]
    exact congrArg (fun data => msgType :: l₀ :: l₁ :: l₂ :: data) (List.take_append_drop ..)
  case case4 data h₁ h₂ =>
    rw [parseHandshakeMessages] at h
    case _ => cases h
    case _ => exact h₁
    case _ => exact h₂

-- The messages can be hashed in their encoding again, and no other messages have that encoding.
theorem parseHandshakeMessages_lossless :
    (∀ data msgs, parseHandshakeMessages data = .ok msgs →
      (msgs.flatMap fun m => hsHeader m ++ m.body) = data) ∧
    (∀ msgs : List HandshakeMsg, (∀ m ∈ msgs, m.body.length < 2 ^ 24) →
      parseHandshakeMessages (msgs.flatMap fun m => hsHeader m ++ m.body) = .ok msgs) :=
  ⟨fun _ _ => eq_of_parseHandshakeMessages, fun _ h => parseHandshakeMessages_flatMap h⟩

theorem drop_append_left {body v rest : Bytes} (h : body.drop pos = v ++ rest) :
    body.drop (pos + v.length) = rest := by
  rw [←List.drop_drop, h, List.drop_left]

theorem readBe_of_drop (h : n < 256 ^ w) (hb : body.drop pos = Bytes.be w n ++ rest) :
    readBe w body pos = .ok n := by
  rw [readBe, bind_eq_ok_iff]
  refine ⟨Bytes.be w n, Exec.mapM_eq_ok_iff.mpr ?_, by rw [Bytes.ofBe_be_of_lt h]; rfl⟩
  rw [List.forall₂_iff_get]
  refine ⟨by simp, fun i h₁ h₂ => ?_⟩
  have hi : i < (Bytes.be w n).length := h₂
  rw [Exec.index_eq_ok_iff, List.get_eq_getElem, List.getElem_range, ←List.getElem?_drop, hb,
    List.getElem?_append_left hi, List.getElem?_eq_getElem hi]
  rfl

theorem range_of_drop {v : Bytes} (hl : pos + v.length ≤ body.length)
    (hb : body.drop pos = v ++ rest) : range body pos (pos + v.length) = .ok v := by
  rw [range_eq_ok_iff]
  simp [hl, hb, Bytes.slice]

theorem certs_of_drop {entries : List CertificateEntry} (h : ∀ e ∈ entries, e.Fits)
    (hl : pos ≤ body.length) (hb : body.drop pos = entries.flatMap CertificateEntry.toBytes) :
    parseCertMessage.certs body pos body.length = .ok (.ok (entries.map CertificateEntry.der)) := by
  have hn := congrArg List.length hb
  rw [List.length_drop] at hn
  induction entries generalizing pos
  case nil =>
    rw [parseCertMessage.certs, if_neg (by simp at hn; omega)]
    rfl
  case cons e entries hi =>
    rw [List.forall_mem_cons] at h
    simp only [List.flatMap_cons, CertificateEntry.toBytes, List.append_assoc, List.length_append,
      Bytes.length_be] at hb hn
    have hlen := readBe_of_drop h.left.der hb
    have hb := drop_append_left hb
    rw [Bytes.length_be] at hb
    have hcert := range_of_drop (by omega) hb
    have hb := drop_append_left hb
    have hext := readBe_of_drop h.left.extensions hb
    have hb := drop_append_left (drop_append_left hb)
    rw [Bytes.length_be, Nat.add_assoc (pos + 3 + _)] at hb
    have hi := hi h.right (by omega) hb (by rw [List.length_flatMap] at hn ⊢; omega)
    rw [parseCertMessage.certs, if_pos (by omega), if_neg (by omega), hlen]
    simp only [bind, Except.bind]
    rw [if_neg (by omega), hcert]
    simp only
    rw [if_neg (by omega), hext]
    simp only
    rw [hi]
    rfl

theorem parseCertMessage_certificateBody {entries : List CertificateEntry}
    (hc : context.length < 256) (h : ∀ e ∈ entries, e.Fits)
    (hl : (entries.flatMap CertificateEntry.toBytes).length < 256 ^ 3) :
    parseCertMessage (certificateBody context entries) =
    .ok (.ok (entries.map CertificateEntry.der)) := by
  obtain ⟨c, hcn⟩ : ∃ c : Byte, c.toNat = context.length :=
    ⟨.ofNat context.length, UInt8.toNat_ofNat_of_lt hc⟩
  obtain ⟨list, hlist⟩ : ∃ list, list = entries.flatMap CertificateEntry.toBytes := ⟨_, rfl⟩
  have hb : certificateBody context entries = c :: context ++ (Bytes.be 3 list.length ++ list) := by
    simp [certificateBody, Bytes.be, ←hcn, hlist]
  rw [←hlist] at hl
  have hlen := congrArg List.length hb
  simp only [List.cons_append, List.length_cons, List.length_append, Bytes.length_be] at hlen
  have hdrop := congrArg (List.drop (1 + context.length)) hb
  rw [List.drop_left' (by simp; omega)] at hdrop
  have hlistLen := readBe_of_drop hl hdrop
  have hdrop := drop_append_left hdrop
  rw [Bytes.length_be, hlist] at hdrop
  have hcerts := certs_of_drop h (by omega) hdrop
  have hu : ¬usize ((certificateBody context entries).length + 2 ^ 64 - (1 + context.length)) < 3 := by
    unfold usize
    omega
  have hend : 1 + context.length + 3 + list.length = (certificateBody context entries).length := by
    omega
  generalize certificateBody context entries = body at *
  subst hb
  simp only [parseCertMessage, List.cons_append, hcn]
  simp only [List.cons_append] at hu hlistLen hcerts hend
  rw [if_neg hu, hlistLen]
  simp only [bind, Except.bind]
  rw [hend, hcerts]

section

variable {enc : Gcm.Seal} {gcm : Gcm.Open} {key : Arr 16} {iv : Arr 12}

theorem opens_sealRecord (h : Gcm.Correct enc gcm) (key : Arr 16) (iv : Arr 12) (seq : UInt64)
    (pt : Bytes) : Opens gcm key iv seq (sealRecord enc key iv seq pt) pt := by
  have ⟨ct, tag, hp, ho⟩ := sealRecord_opens h key iv seq pt
  refine ⟨ct, tag, hp, ?_⟩
  have hv : Bytes.be 2 0x0303 = [0x03, 0x03] := by decide
  have ha : recordAad 23 0x0303 (sealRecord enc key iv seq pt).payload =
      protectedHeader (sealRecord enc key iv seq pt).payload.length := by
    simp [recordAad, protectedHeader, hv]
  rw [sealRecord_contentType, sealRecord_legacyVersion, ha]
  exact ho

theorem handshakeRecord_skip (h : r.contentType ≠ 23) (s : HsLoop) :
    main.handshakeRecord gcm key iv s r = .ok s :=
  if_pos h

-- Records of other types are of no concern.
theorem foldlM_handshakeRecord_filter (rs : List RawRecord) (s : HsLoop) :
    rs.foldlM (main.handshakeRecord gcm key iv) s =
    (rs.filter (·.contentType == 23)).foldlM (main.handshakeRecord gcm key iv) s := by
  induction rs generalizing s
  case nil          => rfl
  case cons r rs hi =>
    by_cases h : r.contentType = 23
    · rw [List.filter_cons_of_pos (by simpa using h), List.foldlM_cons, List.foldlM_cons]
      exact bind_congr fun s => hi s
    · rw [List.filter_cons_of_neg (by simpa using h), List.foldlM_cons, handshakeRecord_skip h]
      exact hi s

-- What a record with handshake messages does.
theorem handshakeRecord_messages {s : HsLoop} {msgs : List HandshakeMsg} (hr : r.contentType = 23)
    (hs : s.handshakeDone = false) (hf : ∀ m ∈ msgs, m.Fits)
    (ho : Opens gcm key iv s.hsSeq r (msgs.flatMap HandshakeMsg.toBytes ++ [22])) :
    main.handshakeRecord gcm key iv s r =
    msgs.foldlM main.handshakeMessage { s with hsSeq := s.hsSeq + 1 } := by
  have hct : (22 : Byte) ≠ 23 := by decide
  rw [main.handshakeRecord, if_neg (not_not.mpr hr), decryptRecord_eq_ok_iff.mpr ho]
  simp [hs, hct, Except.toOption, parseHandshakeMessages_flatMap hf, bind, Except.bind, expect]

theorem handshakeRecord_malformed {s : HsLoop} (hr : r.contentType = 23)
    (hs : s.handshakeDone = false) (ho : Opens gcm key iv s.hsSeq r (pt ++ [22]))
    (hp : parseHandshakeMessages pt = .error e) :
    main.handshakeRecord gcm key iv s r = Exec.abort "parse HS messages failed" := by
  have hct : (22 : Byte) ≠ 23 := by decide
  rw [main.handshakeRecord, if_neg (not_not.mpr hr), decryptRecord_eq_ok_iff.mpr ho]
  simp [hs, hct, Except.toOption, hp, bind, Except.bind, expect]
  rfl

-- The sequence number plays no role for the messages.
theorem foldlM_handshakeMessage_hsSeq (msgs : List HandshakeMsg) (s : HsLoop) :
    msgs.foldlM main.handshakeMessage { s with hsSeq := q } =
    (fun s => { s with hsSeq := q }) <$> msgs.foldlM main.handshakeMessage s := by
  induction msgs generalizing s
  case nil => rfl
  case cons m msgs hi =>
    have hm : main.handshakeMessage { s with hsSeq := q } m =
        (fun s => { s with hsSeq := q }) <$> main.handshakeMessage s m := by
      unfold main.handshakeMessage
      split_ifs
      case pos =>
        cases parseCertMessage m.body
        case error    => rfl
        case ok certs => cases certs <;> rfl
      all_goals rfl
    rw [List.foldlM_cons, List.foldlM_cons, hm]
    cases main.handshakeMessage s m
    case error => rfl
    case ok s  => exact hi s

-- What a message does to the variables of the loop.
structure HsLoop.Reads (s : HsLoop) (m : HandshakeMsg) (s' : HsLoop) : Prop where
  messages : s'.handshakeMessages = s.handshakeMessages ++ [m.toBytes]
  cert     : m.msgType = 11 →
    ∃ certs, parseCertMessage m.body = .ok (.ok certs) ∧ s'.certChainDer = some certs
  noCert   : m.msgType ≠ 11 → s'.certChainDer = s.certChainDer
  cv       : s'.certVerifyMsg = if m.msgType = 15 then some m.body else s.certVerifyMsg
  finished : s'.serverFinishedBody = if m.msgType = 20 then some m.body else s.serverFinishedBody
  done     : s'.handshakeDone = if m.msgType = 20 then true else s.handshakeDone

theorem handshakeMessage_reads (h : main.handshakeMessage s m = .ok s') : s.Reads m s' := by
  unfold main.handshakeMessage at h
  dsimp only at h
  split_ifs at h with hc hv hf
  case pos =>
    simp only [bind_eq_ok_iff, Exec.expect_eq_ok_iff] at h
    obtain ⟨certs?, hp, certs, hs, h⟩ := h
    cases certs?
    case error => cases hs
    case ok =>
      cases hs
      cases h
      constructor <;> simp_all [HandshakeMsg.toBytes, hsHeader, hsCertificate]
  all_goals
    cases h
    constructor <;>
      simp_all [HandshakeMsg.toBytes, hsHeader, hsCertificate, hsCertificateVerify, hsFinished]

theorem foldlM_handshakeMessage_done {msgs : List HandshakeMsg} {s s' : HsLoop}
    (h : msgs.foldlM main.handshakeMessage s = .ok s') :
    s'.handshakeDone = (s.handshakeDone || msgs.any (·.msgType == 20)) := by
  induction msgs generalizing s
  case nil =>
    cases h
    simp
  case cons m msgs hi =>
    rw [List.foldlM_cons, bind_eq_ok_iff] at h
    have ⟨s₁, h₁, h⟩ := h
    rw [hi h, (handshakeMessage_reads h₁).done, List.any_cons]
    by_cases hm : m.msgType = 20
    · simp [hm]
    · rw [if_neg hm, beq_eq_false_iff_ne.mpr hm, Bool.false_or]

-- How the messages are grouped in records only shows in the sequence number, if no message follows
-- a Finished message in a later record.
theorem foldlM_flight (hg : Gcm.Correct enc gcm) {gs : List (List HandshakeMsg)} {s : HsLoop}
    (hs : s.handshakeDone = false) (hn : s.hsSeq = .ofNat n) (hf : ∀ m ∈ gs.flatten, m.Fits)
    (hd : ∀ g ∈ gs.dropLast, ∀ m ∈ g, m.msgType ≠ 20) :
    (flight enc key iv n gs).foldlM (main.handshakeRecord gcm key iv) s =
    (fun s => { s with hsSeq := .ofNat (n + gs.length) }) <$>
      gs.flatten.foldlM main.handshakeMessage s := by
  induction gs generalizing n s
  case nil =>
    rw [flight, List.flatten_nil, List.length_nil, Nat.add_zero, ←hn]
    rfl
  case cons g gs hi =>
    rw [List.flatten_cons, List.forall_mem_append] at hf
    have hr := handshakeRecord_messages sealRecord_contentType hs hf.left
      (opens_sealRecord hg key iv s.hsSeq (g.flatMap HandshakeMsg.toBytes ++ [22]))
    rw [flight, List.foldlM_cons, ←hn, hr, foldlM_handshakeMessage_hsSeq, List.flatten_cons,
      List.foldlM_append]
    cases h : g.foldlM main.handshakeMessage s
    case error => rfl
    case ok s₁ =>
      have hq : s.hsSeq + 1 = .ofNat (n + 1) := hn ▸ (UInt64.ofNat_add n 1).symm
      cases gs
      case nil =>
        rw [hq]
        rfl
      case cons g' gs =>
        have hd : (∀ m ∈ g, m.msgType ≠ 20) ∧ ∀ g ∈ (g' :: gs).dropLast, ∀ m ∈ g, m.msgType ≠ 20 := by
          simpa using hd
        have hs₁ : s₁.handshakeDone = false := by
          rw [foldlM_handshakeMessage_done h, hs]
          simpa using hd.left
        have hi := hi (s := { s₁ with hsSeq := s.hsSeq + 1 }) hs₁ hq hf.right hd.right
        rw [foldlM_handshakeMessage_hsSeq] at hi
        rw [Nat.add_assoc, Nat.add_comm 1] at hi
        refine hi.trans ?_
        simp only [bind, Except.bind]
        cases (g' :: gs).flatten.foldlM main.handshakeMessage s₁ <;> rfl

-- The later records are left for the application.
theorem foldlM_handshakeRecord_done {rs : List RawRecord} (hr : ∀ r ∈ rs, r.contentType = 23)
    {s : HsLoop} (hs : s.handshakeDone = true) :
    rs.foldlM (main.handshakeRecord gcm key iv) s =
    .ok { s with encryptedAppRecords := s.encryptedAppRecords ++ rs.map recordToBytes } := by
  induction rs generalizing s
  case nil =>
    rw [List.map_nil, List.append_nil]
    rfl
  case cons r rs hi =>
    rw [List.forall_mem_cons] at hr
    rw [List.foldlM_cons, main.handshakeRecord, if_neg (not_not.mpr hr.left), if_pos hs]
    refine Eq.trans (hi hr.right hs) ?_
    simp

theorem parseRecords_flatMap {rs : List RawRecord} (h : Fit rs) :
    parseRecords (rs.flatMap RawRecord.toBytes) = .ok rs := by
  have hp := RawRecord.parse_flatMap_append h []
  rw [List.append_nil] at hp
  rw [parseRecords, hp]
  simp [RawRecord.parse]

def HsLoop.start (ch sh : RawRecord) : HsLoop where
  handshakeMessages   := [ch.payload, sh.payload]
  hsSeq               := 0
  certChainDer        := none
  certVerifyMsg       := none
  serverFinishedBody  := none
  handshakeDone       := false
  encryptedAppRecords := []

-- What the guest makes of the variables after the loop.
def HsLoop.finish (s : HsLoop) : Exec Handshake := do
  Exec.assert (6 ≤ s.handshakeMessages.length)
    ("need at least 6 handshake messages, got " ++ toString s.handshakeMessages.length)
  let certChainDer ← expect "Certificate message not found" s.certChainDer
  let certVerifyMsg ← expect "CertificateVerify not found" s.certVerifyMsg
  let serverFinishedBody ← expect "ServerFinished not found" s.serverFinishedBody
  pure {
    handshakeMessages   := s.handshakeMessages
    certChainDer
    certVerifyMsg
    serverFinishedBody
    encryptedAppRecords := s.encryptedAppRecords
  }

theorem handshake_eq (hout : parseRecords rawOutbound = .ok out)
    (hinp : parseRecords rawInbound = .ok inp) (hch : out.find? (·.contentType == 22) = some ch)
    (hsh : inp.find? (·.contentType == 22) = some sh) :
    main.handshake gcm key iv rawOutbound rawInbound =
    inp.foldlM (main.handshakeRecord gcm key iv) (.start ch sh) >>= HsLoop.finish := by
  simp only [main.handshake, hout, hinp, hch, hsh, Exec.ok_bind, Exec.expect_some]
  rfl

theorem handshake_malformed (hg : Gcm.Correct enc gcm) (hout : parseRecords rawOutbound = .ok out)
    (hinp : parseRecords rawInbound = .ok inp) (hch : out.find? (·.contentType == 22) = some ch)
    (hsh : inp.find? (·.contentType == 22) = some sh)
    (hf : inp.filter (·.contentType == 23) = sealRecord enc key iv 0 (pt ++ [22]) :: rs)
    (hp : parseHandshakeMessages pt = .error e) :
    main.handshake gcm key iv rawOutbound rawInbound = Exec.abort "parse HS messages failed" := by
  have hr : main.handshakeRecord gcm key iv (.start ch sh) (sealRecord enc key iv 0 (pt ++ [22])) =
      Exec.abort "parse HS messages failed" :=
    handshakeRecord_malformed (s := .start ch sh) sealRecord_contentType rfl
      (opens_sealRecord hg key iv 0 (pt ++ [22])) hp
  rw [handshake_eq hout hinp hch hsh, foldlM_handshakeRecord_filter, hf, List.foldlM_cons, hr]
  rfl

end

end Guest
