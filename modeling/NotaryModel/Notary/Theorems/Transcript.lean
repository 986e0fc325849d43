import NotaryModel.Notary.Transcript
import NotaryModel.Tls.Flight

namespace Notary

open Tls

theorem parseHandshakeMessages_flatMap {msgs : List HandshakeMsg} (h : ∀ m ∈ msgs, m.Fits) :
    parseHandshakeMessages (msgs.flatMap HandshakeMsg.toBytes) =
    some (msgs.map fun m => (m.msgType, m.body)) := by
  induction msgs
  case nil            => simp [parseHandshakeMessages]
  case cons m msgs hi =>
    rw [List.forall_mem_cons] at h
    obtain ⟨l₀, l₁, l₂, hl, hm⟩ := HandshakeMsg.exists_toBytes h.left
    rw [List.flatMap_cons, hm]
    simp only [List.cons_append]
    rw [parseHandshakeMessages]
    simp [hl, hi h.right]

theorem certs_flatMap {entries : List CertificateEntry} (h : ∀ e ∈ entries, e.Fits) :
    parseCertMessage.certs (entries.flatMap CertificateEntry.toBytes) =
    some (entries.map CertificateEntry.der) := by
  induction entries
  case nil => simp [parseCertMessage.certs]
  case cons e entries hi =>
    rw [List.forall_mem_cons] at h
    obtain ⟨l₀, l₁, l₂, hl⟩ : ∃ l₀ l₁ l₂, Bytes.be 3 e.der.length = [l₀, l₁, l₂] := ⟨_, _, _, rfl⟩
    obtain ⟨e₀, e₁, he⟩ := RawRecord.be_two_eq e.extensions.length
    have hln : Bytes.ofBe [l₀, l₁, l₂] = e.der.length := hl ▸ Bytes.ofBe_be_of_lt h.left.der
    have hen : Bytes.ofBe [e₀, e₁] = e.extensions.length :=
      he ▸ Bytes.ofBe_be_of_lt h.left.extensions
    rw [List.flatMap_cons, CertificateEntry.toBytes, hl, he]
    simp only [List.cons_append, List.nil_append, List.append_assoc]
    rw [parseCertMessage.certs]
    have hd (rest : Bytes) : (e.der ++ rest).drop (Bytes.ofBe [l₀, l₁, l₂]) = rest :=
      hln ▸ List.drop_left
    simp only [hln]
    rw [if_neg (by simp)]
    split
    case h_1 hr =>
      rw [hd] at hr
      cases hr
      simp [hen, hi h.right]
    case h_2 hr => exact absurd (hd _) (hr _ _ _)

theorem parseCertMessage_certificateBody {entries : List CertificateEntry}
    (hc : context.length < 256) (h : ∀ e ∈ entries, e.Fits)
    (hl : (entries.flatMap CertificateEntry.toBytes).length < 256 ^ 3) :
    parseCertMessage (certificateBody context entries) =
    some (entries.map CertificateEntry.der) := by
  obtain ⟨c, hcn⟩ : ∃ c : Byte, c.toNat = context.length :=
    ⟨.ofNat context.length, UInt8.toNat_ofNat_of_lt hc⟩
  obtain ⟨list, hlist⟩ : ∃ list, list = entries.flatMap CertificateEntry.toBytes := ⟨_, rfl⟩
  have hb : certificateBody context entries = c :: context ++ (Bytes.be 3 list.length ++ list) := by
    simp [certificateBody, Bytes.be, ←hcn, hlist]
  rw [←hlist] at hl
  have hc : (c :: context).length = 1 + context.length := by
    rw [List.length_cons, Nat.add_comm]
  have hdrop : (certificateBody context entries).drop (1 + context.length) =
      Bytes.be 3 list.length ++ list := by
    rw [hb, List.drop_left' hc]
  have hlen : (certificateBody context entries).length = 1 + context.length + 3 + list.length := by
    rw [hb, List.length_append, hc, List.length_append, Bytes.length_be]
    omega
  have hn : Bytes.slice (certificateBody context entries) (1 + context.length)
      (1 + context.length + 3) = Bytes.be 3 list.length := by
    simp [Bytes.slice, hdrop]
  have hs : Bytes.slice (certificateBody context entries) (1 + context.length + 3)
      (1 + context.length + 3 + list.length) = list := by
    rw [Bytes.slice, ←List.drop_drop, hdrop, List.drop_left' (by simp)]
    simp
  have h₀ : (certificateBody context entries)[0]? = some c := by
    rw [hb]
    rfl
  have hcerts := certs_flatMap h
  rw [←hlist] at hcerts
  rw [parseCertMessage, h₀]
  simp [hcn, hn, Bytes.ofBe_be_of_lt hl, hs, hlen, hcerts]

section

variable {enc : Gcm.Seal} {gcm : Gcm.Open} {key : Arr 16} {iv : Arr 12}

theorem decryptHsRecord_sealRecord (h : Gcm.Correct enc gcm) :
    decryptHsRecord gcm key iv seq (sealRecord enc key iv seq (pt ++ [ty])) = some (pt, ty) := by
  have ⟨ct, tag, hp, ho⟩ := sealRecord_opens h key iv seq (pt ++ [ty])
  have ho : gcm key (xorNonce iv seq)
      (tls13Aad (sealRecord enc key iv seq (pt ++ [ty])).payload.length) ct tag =
      some (pt ++ [ty]) := ho
  rw [hp, List.length_append, Vector.length_toList] at ho
  simp [decryptHsRecord, hp, ho]

section

open transcriptAfterServerFinished (round)

-- Records of other types are of no concern.
theorem foldlM_round_filter (rs : List RawRecord) (s : HsLoop) :
    rs.foldlM (round gcm key iv) s =
    (rs.filter (·.contentType == 23)).foldlM (round gcm key iv) s := by
  induction rs generalizing s
  case nil          => rfl
  case cons r rs hi =>
    by_cases h : r.contentType = 23
    · rw [List.filter_cons_of_pos (by simpa using h), List.foldlM_cons, List.foldlM_cons]
      exact bind_congr fun s => hi s
    · rw [List.filter_cons_of_neg (by simpa using h), List.foldlM_cons,
        transcriptAfterServerFinished.round, if_pos (.inl h)]
      exact hi s

theorem foldlM_round_done (rs : List RawRecord) {s : HsLoop} (hs : s.sawServerFinished = true) :
    rs.foldlM (round gcm key iv) s = some s := by
  induction rs
  case nil          => rfl
  case cons r rs hi =>
    rw [List.foldlM_cons, transcriptAfterServerFinished.round,
        if_pos (.inr hs)]
    exact hi

theorem round_sealRecord (hg : Gcm.Correct enc gcm) {msgs : List HandshakeMsg} {s : HsLoop}
    (hs : s.sawServerFinished = false) (hf : ∀ m ∈ msgs, m.Fits) :
    round gcm key iv s (sealRecord enc key iv s.serverHsSeq
      (msgs.flatMap HandshakeMsg.toBytes ++ [22])) =
    some {
      messages          := s.messages ++ msgs.map HandshakeMsg.toBytes
      serverHsSeq       := s.serverHsSeq + 1
      sawServerFinished := msgs.any (·.msgType == 20)
    } := by
  rw [transcriptAfterServerFinished.round, if_neg (by simp [hs]), decryptHsRecord_sealRecord hg]
  simp [appendHsMessages, parseHandshakeMessages_flatMap hf, hsHeader, HandshakeMsg.toBytes,
    Function.comp_def]

-- How the messages are grouped in records only shows in the sequence number, if no message follows
-- a Finished message in a later record.
theorem foldlM_round_flight (hg : Gcm.Correct enc gcm) {gs : List (List HandshakeMsg)} {s : HsLoop}
    (hs : s.sawServerFinished = false) (hn : s.serverHsSeq = .ofNat n)
    (hf : ∀ m ∈ gs.flatten, m.Fits) (hd : ∀ g ∈ gs.dropLast, ∀ m ∈ g, m.msgType ≠ 20) :
    (flight enc key iv n gs).foldlM (round gcm key iv) s =
    some {
      messages          := s.messages ++ gs.flatten.map HandshakeMsg.toBytes
      serverHsSeq       := .ofNat (n + gs.length)
      sawServerFinished := gs.flatten.any (·.msgType == 20)
    } := by
  induction gs generalizing n s
  case nil =>
    cases s
    cases hs
    cases hn
    rw [List.flatten_nil, List.map_nil, List.append_nil]
    rfl
  case cons g gs hi =>
    rw [List.flatten_cons, List.forall_mem_append] at hf
    rw [flight, List.foldlM_cons, ←hn, round_sealRecord hg hs hf.left]
    have hq : s.serverHsSeq + 1 = .ofNat (n + 1) := hn ▸ (UInt64.ofNat_add n 1).symm
    cases gs
    case nil => simp [flight, hq]
    case cons g' gs =>
      have hd : (∀ m ∈ g, m.msgType ≠ 20) ∧ ∀ g ∈ (g' :: gs).dropLast, ∀ m ∈ g, m.msgType ≠ 20 := by
        simpa using hd
      have hfin : g.any (·.msgType == 20) = false := by simpa using hd.left
      refine Eq.trans (hi hfin hq hf.right hd.right) ?_
      simp [hfin, Nat.add_assoc, Nat.add_comm 1]

end

section

open certChainDersFromHandshake (search)

theorem search_filter (rs : List RawRecord) (n : UInt64) :
    search gcm key iv rs n = search gcm key iv (rs.filter (·.contentType == 23)) n := by
  induction rs generalizing n
  case nil          => rfl
  case cons r rs hi =>
    by_cases h : r.contentType = 23
    · rw [List.filter_cons_of_pos (by simpa using h), certChainDersFromHandshake.search,
        certChainDersFromHandshake.search]
      simp only [hi]
    · rw [List.filter_cons_of_neg (by simpa using h), certChainDersFromHandshake.search, if_pos h]
      exact hi n

-- The search ends at the first Certificate message.
theorem search_flight (n : Nat) (hg : Gcm.Correct enc gcm) (key : Arr 16) (iv : Arr 12)
    {gs : List (List HandshakeMsg)} (hf : ∀ m ∈ gs.flatten, m.Fits) (rs : List RawRecord) :
    search gcm key iv (flight enc key iv n gs ++ rs) (.ofNat n) =
    match gs.flatten.find? (·.msgType == 11) with
    | some m => parseCertMessage m.body
    | none   => search gcm key iv rs (.ofNat (n + gs.length)) := by
  induction gs generalizing n
  case nil          => rfl
  case cons g gs hi =>
    rw [List.flatten_cons, List.forall_mem_append] at hf
    have hq : UInt64.ofNat n + 1 = .ofNat (n + 1) := (UInt64.ofNat_add n 1).symm
    rw [flight, List.cons_append, certChainDersFromHandshake.search, if_neg (by simp),
      decryptHsRecord_sealRecord hg]
    simp only [bind, Option.bind, ne_eq, not_true, if_false, parseHandshakeMessages_flatMap hf.left,
      List.flatten_cons, List.find?_append, List.find?_map, hq, hi (n + 1) hf.right]
    have hc : ((·.1 == 11) ∘ fun m : HandshakeMsg => (m.msgType, m.body)) = (·.msgType == 11) := rfl
    rw [hc, List.length_cons, Nat.add_comm gs.length, ←Nat.add_assoc]
    cases g.find? (·.msgType == 11) <;> rfl

end

end

end Notary
