import NotaryModel.Notary.Demo
import NotaryModel.Notary.Theorems.Jobs
import NotaryModel.Notary.Theorems.ServerKey

open Common

namespace Notary

-- The numbers of the items of a list, from `seq` on.
def numbers (seq : UInt64) (xs : List α) : List UInt64 :=
  xs.mapIdx fun k _ => seq + .ofNat k

theorem numbers_append (xs xs' : List α) :
    numbers seq (xs ++ xs') = numbers seq xs ++ numbers (seq + .ofNat xs.length) xs' := by
  have hk (k : Nat) : seq + .ofNat (k + xs.length) = seq + .ofNat xs.length + .ofNat k := by
    rw [UInt64.ofNat_add, UInt64.add_comm (.ofNat k), UInt64.add_assoc]
  simp only [numbers, List.mapIdx_append, hk]

theorem numbers_cons (x : α) (xs : List α) :
    numbers seq (x :: xs) = seq :: numbers (seq + 1) xs := by
  have hs : numbers seq [x] = [seq] := by simp [numbers]
  have h : numbers seq ([x] ++ xs) = _ := numbers_append [x] xs
  rw [hs] at h
  exact h

theorem mem_numbers {xs : List α} : n ∈ numbers seq xs ↔ ∃ k < xs.length, n = seq + .ofNat k := by
  rw [numbers, List.mem_mapIdx]
  constructor
  · rintro ⟨k, hk, rfl⟩
    exact ⟨k, hk, rfl⟩
  · rintro ⟨k, hk, rfl⟩
    exact ⟨k, hk, rfl⟩

theorem length_numbers (xs : List α) : (numbers seq xs).length = xs.length :=
  List.length_mapIdx

-- The sequence numbers of the records that a host asks to decrypt, given what it writes.
def decryptSeqs : List (Label × Bytes) → List UInt64
  | (.op, op) :: (.seq, seq) :: ws =>
    if op = [opDecrypt] then
      .ofNat (Bytes.ofBe seq) :: decryptSeqs ws
    else
      decryptSeqs ws
  | _ :: ws => decryptSeqs ws
  | []      => []

theorem decryptSeqs_cons (h : x.1 ≠ .op) : decryptSeqs (x :: ws) = decryptSeqs ws := by
  rw [decryptSeqs]
  rintro _ _ _ rfl
  exact absurd rfl h

theorem decryptSeqs_append (h : ∀ x ∈ ws, x.1 ≠ .op) :
    decryptSeqs (ws ++ ws') = decryptSeqs ws' := by
  induction ws
  case nil          => rfl
  case cons x ws hi =>
    rw [List.forall_mem_cons] at h
    rw [List.cons_append, decryptSeqs_cons h.left, hi h.right]

theorem decryptSeqs_header (h : Header) (ws : List (Label × Bytes)) :
    decryptSeqs (Event.reads h.reads ++ ws) =
    (if h.op = opDecrypt then [h.seq] else []) ++ decryptSeqs ws := by
  have hs : UInt64.ofNat (Bytes.ofBe (Bytes.be 8 h.seq.toNat)) = h.seq := by
    rw [Bytes.ofBe_be_of_lt h.seq.toNat_lt, UInt64.ofNat_toNat]
  have hws : decryptSeqs ((.aadLen, Bytes.be 2 h.aad.length) :: (.aad, h.aad) ::
      (.payloadLen, Bytes.be 4 h.payloadLen.toNat) :: ws) = decryptSeqs ws := by
    rw [decryptSeqs_cons (by simp), decryptSeqs_cons (by simp), decryptSeqs_cons (by simp)]
  simp only [Header.reads, Event.reads_read, Event.reads_nil, List.cons_append, List.nil_append]
  rw [decryptSeqs, hs, hws]
  simp only [List.cons.injEq, and_true]
  split_ifs <;> rfl

theorem decryptSeqs_tail_subset (ws : List (Label × Bytes)) :
    decryptSeqs ws.tail ⊆ decryptSeqs ws := by
  fun_cases decryptSeqs ws
  case case1 =>
    rw [List.tail_cons, decryptSeqs_cons (by simp)]
    exact List.subset_cons_self _ _
  case case2 =>
    rw [List.tail_cons, decryptSeqs_cons (by simp)]
    exact List.Subset.refl _
  case case3 => exact List.Subset.refl _
  case case4 => exact List.Subset.refl _

-- The request for a record is found wherever it is written.
theorem mem_decryptSeqs {h : Header} (ho : h.op = opDecrypt) (ws ws' : List (Label × Bytes)) :
    h.seq ∈ decryptSeqs (ws ++ (Event.reads h.reads ++ ws')) := by
  induction ws
  case nil          =>
    rw [List.nil_append, decryptSeqs_header, if_pos ho]
    exact .head _
  case cons x ws hi => exact decryptSeqs_tail_subset (x :: _) hi

-- A program that writes no header.
abbrev NoHeader (p : Wrk17 α) : Prop :=
  p.NeverWrites Label.op

section

open Prog.NeverWrites

variable {curve : Curve25519} {share share' : EphemeralShare curve}

theorem wrk17Init_noHeader : NoHeader wrk17Init :=
  join

theorem clientHmac_noHeader (h : NoHeader innerBlock) : NoHeader (clientHmac keyC innerBlock) :=
  bind join fun _ => bind h fun _ => bind join fun _ => bind join fun _ => join

theorem clientHmacSha256_noHeader : NoHeader (clientHmacSha256 keyC msg) := by
  refine clientHmac_noHeader ?_
  unfold clientInnerMsg
  split
  · exact pure
  · exact fail

theorem clientTraffic_noHeader :
    NoHeader (clientTls13ClientTrafficFromIkmShares compress ikmC afterSh afterSf) :=
  bind (clientHmac_noHeader pure) fun _ => bind clientHmacSha256_noHeader fun _ =>
    bind clientHmacSha256_noHeader fun _ => bind clientHmacSha256_noHeader fun _ =>
    bind clientHmacSha256_noHeader fun _ => bind clientHmacSha256_noHeader fun _ =>
    bind clientHmacSha256_noHeader fun _ => bind clientHmacSha256_noHeader fun _ =>
    bind clientHmacSha256_noHeader fun _ => bind clientHmacSha256_noHeader fun _ => pure

theorem clientEncryptGcm_noHeader : NoHeader (clientEncryptGcm kC plaintext aad iv) :=
  bind join fun _ => bind join fun _ =>
    bind (mapM (fun _ => bind recv fun _ => bind join fun _ => pure) _) fun _ =>
    bind join fun _ => bind recv fun _ => pure

theorem clientDecryptGcm2pc_noHeader : NoHeader (clientDecryptGcm2pc kC ciphertext aad tag iv) := by
  refine bind join fun _ => bind join fun _ => bind (mapM (fun _ => ?_) _) fun _ =>
    bind join fun _ => bind recv fun _ => ?_
  · exact bind (send (by simp)) fun _ => bind join fun _ => bind recv fun _ => pure
  · dsimp only
    split
    · exact fail
    · exact pure

theorem ClientWorker.complete_noHeader {c : ClientWorker} :
    (job : ClientJob) → NoHeader (c.complete job)
  | .encrypt .. =>
    bind clientEncryptGcm_noHeader fun _ => bind (send (by simp)) fun _ =>
      bind (send (by simp)) fun _ => pure
  | .decrypt .. =>
    bind clientDecryptGcm2pc_noHeader fun _ => bind (send (by simp)) fun _ =>
      bind (send (by simp)) fun _ => pure

theorem expect_noHeader {a? : Option α} : NoHeader (expect msg a?) := by
  cases a?
  · exact fail
  · exact pure

theorem hostRunOtBlinded_noHeader : NoHeader (hostRunOtBlinded share epk) := by
  refine bind (bind expect_noHeader fun _ => pure) fun _ => bind recv fun _ => ?_
  split
  · exact bind (send (by simp)) fun _ => recv
  · exact fail

theorem hostSendEcdhOt_noHeader : NoHeader (hostSendEcdhOt share epk) :=
  bind (send (by simp)) fun _ => bind (send (by simp)) fun _ => bind (send (by simp)) fun _ =>
    hostRunOtBlinded_noHeader

theorem hostSendEcdhLeaky_noHeader : NoHeader (hostSendEcdhLeaky share share' epk) := by
  refine bind (send (by simp)) fun _ => bind (send (by simp)) fun _ => bind (send (by simp)) fun _ =>
    bind (bind expect_noHeader fun _ => pure) fun _ => bind (send (by simp)) fun _ =>
      bind recv fun _ => ?_
  split
  · exact bind expect_noHeader fun _ => bind recv fun _ => pure
  · exact fail

theorem ecdh_noHeader : NoHeader (runLegacyDemo.ecdh args epk? share share') := by
  unfold runLegacyDemo.ecdh
  split_ifs
  · exact send (by simp)
  all_goals cases epk?
  · exact send (by simp)
  · exact bind hostSendEcdhLeaky_noHeader fun _ => pure
  · exact send (by simp)
  · exact bind hostSendEcdhOt_noHeader fun _ => pure

theorem legacySetup_noHeader : NoHeader (runLegacyDemo.setup curve args rng h) := by
  refine bind ?_ fun x => ?_
  · unfold runLegacyDemo.phase0
    split
    · exact pure
    · exact bind (send (by simp)) fun _ => bind recv fun _ => bind recv fun _ => pure
  · obtain ⟨_, _, _ | ⟨_, _⟩⟩ := x
    · exact bind (send (by simp)) fun _ => bind (send (by simp)) fun _ => pure
    · exact bind (send (by simp)) fun _ => bind (send (by simp)) fun _ => bind ecdh_noHeader fun _ =>
        pure

theorem writeHandshakeCapture_noHeader : NoHeader (writeHandshakeCapture cap) := by
  unfold writeHandshakeCapture
  split
  · exact fail
  · exact bind (send (by simp)) fun _ => bind (send (by simp)) fun _ =>
      bind (send (by simp)) fun _ => bind (send (by simp)) fun _ =>
      bind (send (by simp)) fun _ => send (by simp)

theorem twoPcSetup_noHeader :
    NoHeader (runTwoPcTrafficDemo.setup curve compress gcm args rng h) := by
  refine bind (send (by simp)) fun _ => bind recv fun _ => ?_
  dsimp only
  split
  · refine bind expect_noHeader fun _ => ?_
    split
    · split
      · exact fail
      · exact bind writeHandshakeCapture_noHeader fun _ => bind hostSendEcdhOt_noHeader fun _ => pure
    · exact fail
  · exact fail

end

theorem NoHeader.decryptSeqs_append {p : Wrk17 α} (h : NoHeader p) (hr : Run eof p es (.ok a))
    (ws : List (Label × Bytes)) : decryptSeqs (Event.writes es ++ ws) = decryptSeqs ws :=
  Notary.decryptSeqs_append (h _ _ _ hr)

theorem writeHeader_writes (h : Run eof (writeHeader header) es (.ok u)) :
    Event.writes es = Event.reads header.reads := by
  obtain ⟨_, h₁, rfl⟩ := send_bind_ok h
  obtain ⟨_, h₂, rfl⟩ := send_bind_ok h₁
  obtain ⟨_, h₃, rfl⟩ := send_bind_ok h₂
  obtain ⟨_, h₄, rfl⟩ := send_bind_ok h₃
  obtain ⟨rfl, -⟩ := Run.send_iff.mp h₄
  rfl

theorem perform_decryptSeqs (c : ClientWorker) (job : ClientJob) {res : job.Result}
    (h : Run eof (c.perform job) es (.ok res)) (ws : List (Label × Bytes)) :
    decryptSeqs (Event.writes es ++ ws) =
    (if job.header.op = opDecrypt then [job.header.seq] else []) ++ decryptSeqs ws := by
  rw [ClientWorker.perform_eq] at h
  obtain ⟨_, es₁, es₂, h₁, h₂, rfl⟩ := Run.bind_ok_iff.mp h
  rw [Event.writes_append, writeHeader_writes h₁, List.append_assoc, decryptSeqs_header,
    ClientWorker.complete_noHeader job |>.decryptSeqs_append h₂]

theorem clientFinishSession_decryptSeqs
    (h : Run eof (clientFinishSession bincode sid sn) es (.ok b)) :
    decryptSeqs (Event.writes es) = [] := by
  obtain ⟨_, es₁, es₂, h₁, h₂, rfl⟩ := Run.bind_ok_iff.mp h
  rw [Event.writes_append, writeHeader_writes h₁, decryptSeqs_header, if_neg (by decide),
    List.nil_append, ←List.append_nil (Event.writes es₂)]
  refine NoHeader.decryptSeqs_append ?_ h₂ []
  refine .bind (.send (by simp)) fun _ => .bind (.send (by simp)) fun _ =>
    .bind (.send (by simp)) fun _ => .bind (.send (by simp)) fun _ => .bind .recv fun _ => ?_
  dsimp only
  split
  · exact .fail
  · refine .bind .recv fun _ => ?_
    split
    · exact .fail
    · exact .pure

-- The host decrypts the records `ds` of the response, and what ends it is no protected record.
structure Decrypted (response ds last : List TlsRecord) (raw : Bytes) : Prop where
  records : ds ++ last <+: response
  bytes   : raw = (ds ++ last).flatMap TlsRecord.raw
  opened  : ∀ r ∈ ds, r.ct = 0x17
  closing : ∀ r ∈ last, r.ct ≠ 0x17

theorem Decrypted.nil : Decrypted rs [] [] [] where
  records := List.nil_prefix
  bytes   := rfl
  opened  := nofun
  closing := nofun

theorem Decrypted.stop (h : r.ct ≠ 0x17) : Decrypted (r :: rs) [] [r] r.raw where
  records := by simp
  bytes   := by simp
  opened  := nofun
  closing := by simpa using h

theorem Decrypted.cons (h : Decrypted rs ds last raw) (hr : r.ct = 0x17) :
    Decrypted (r :: rs) (r :: ds) last (r.raw ++ raw) where
  records := by simpa using h.records
  bytes   := by simp [h.bytes]
  opened  := List.forall_mem_cons.mpr ⟨hr, h.opened⟩
  closing := h.closing

theorem readResponse_ok
    (h : Run eof (readResponse kCRx rxIv stopAtAlert rs seq) es (.ok (full, raw))) :
    ∃ ds last, Decrypted rs ds last raw ∧
      ∀ ws, decryptSeqs (Event.writes es ++ ws) = numbers seq ds ++ decryptSeqs ws := by
  induction rs generalizing seq es full raw
  case nil =>
    obtain ⟨rfl, he⟩ := Run.pure_iff.mp h
    cases he
    exact ⟨[], [], .nil, fun _ => rfl⟩
  case cons r rs hi =>
    rw [readResponse] at h
    split_ifs at h with hr hl
    · obtain ⟨rfl, he⟩ := Run.pure_iff.mp h
      cases he
      exact ⟨[], [r], .stop hr, fun _ => rfl⟩
    · cases h
    · obtain ⟨plain, es₁, es₂, h₁, h₂, rfl⟩ := Run.bind_ok_iff.mp h
      have hs (ws : List (Label × Bytes)) :
          decryptSeqs (Event.writes es₁ ++ ws) = seq :: decryptSeqs ws :=
        perform_decryptSeqs ⟨0, 0, kCRx, rxIv⟩ (.decrypt _ _ _ seq) h₁ ws
      dsimp only at h₂
      split at h₂
      · cases h₂
      · split at h₂
        · obtain ⟨rfl, he⟩ := Run.pure_iff.mp h₂
          cases he
          have hd : Decrypted (r :: rs) [r] [] (r.raw ++ []) := .cons .nil (not_not.mp hr)
          rw [List.append_nil] at hd
          refine ⟨[r], [], hd, fun ws => ?_⟩
          rw [List.append_nil, hs, numbers_cons]
          rfl
        · obtain ⟨⟨_, raw'⟩, es₃, es₄, h₃, h₄, rfl⟩ := Run.bind_ok_iff.mp h₂
          obtain ⟨ds, last, hd, hi⟩ := hi h₃
          obtain ⟨rfl, he⟩ := Run.pure_iff.mp h₄
          cases he
          refine ⟨r :: ds, last, hd.cons (not_not.mp hr), fun ws => ?_⟩
          rw [List.append_nil, Event.writes_append, List.append_assoc, hs, hi, numbers_cons]
          rfl

theorem takeOver_ok
    (h : Run eof (takeOver bincode t kCTx txIv kCRx rxIv txSeq rxSeq stopAtAlert) es (.ok out)) :
    ∃ ds last raw, out.rawInbound = t.rawInbound ++ raw ∧
      Decrypted (readTlsRecords t.tcp) ds last raw ∧
      decryptSeqs (Event.writes es) = numbers rxSeq ds := by
  obtain ⟨⟨ct, tag⟩, es₁, _, h₁, ht, rfl⟩ := Run.bind_ok_iff.mp h
  obtain ⟨⟨full, raw⟩, es₂, _, h₂, hf, rfl⟩ := Run.bind_ok_iff.mp ht
  obtain ⟨bundle, es₃, _, h₃, hp, rfl⟩ := Run.bind_ok_iff.mp hf
  obtain ⟨rfl, he⟩ := Run.pure_iff.mp hp
  cases he
  obtain ⟨ds, last, hd, hs⟩ := readResponse_ok h₂
  refine ⟨ds, last, raw, rfl, hd, ?_⟩
  have hr (ws : List (Label × Bytes)) : decryptSeqs (Event.writes es₁ ++ ws) = decryptSeqs ws :=
    perform_decryptSeqs ⟨kCTx, txIv, 0, 0⟩ (.encrypt _ _ txSeq) h₁ ws
  simp only [Event.writes_append, List.append_nil]
  rw [hr, hs, clientFinishSession_decryptSeqs h₃,
    List.append_nil]

-- The number of the first record that the host decrypts.
def firstSeq (twoPcTrafficKeys : Bool) (h : Handshaken) : UInt64 :=
  if twoPcTrafficKeys then 0 else h.rxSeq

theorem notaryDemo_ok
    (hr : Run eof (notaryDemo curve compress gcm twoPc bincode args rng h) es (.ok out)) :
    ∃ ds last raw, out.rawInbound = h.rawInbound ++ raw ∧
      Decrypted (readTlsRecords h.tcp) ds last raw ∧
      decryptSeqs (Event.writes es) = numbers (firstSeq twoPc h) ds := by
  cases twoPc
  case false =>
    obtain ⟨keys, es₁, _, h₁, hs, rfl⟩ := Run.bind_ok_iff.mp hr
    obtain ⟨_, es₂, es₃, h₂, ht, rfl⟩ := Run.bind_ok_iff.mp hs
    rw [Event.writes_append, legacySetup_noHeader.decryptSeqs_append h₁, Event.writes_append,
      wrk17Init_noHeader.decryptSeqs_append h₂]
    exact takeOver_ok ht
  case true =>
    obtain ⟨keys, es₁, _, h₁, hs, rfl⟩ := Run.bind_ok_iff.mp hr
    obtain ⟨_, es₂, _, h₂, hk, rfl⟩ := Run.bind_ok_iff.mp hs
    obtain ⟨_, es₃, es₄, h₃, ht, rfl⟩ := Run.bind_ok_iff.mp hk
    rw [Event.writes_append, twoPcSetup_noHeader.decryptSeqs_append h₁, Event.writes_append,
      wrk17Init_noHeader.decryptSeqs_append h₂, Event.writes_append,
      clientTraffic_noHeader.decryptSeqs_append h₃]
    exact takeOver_ok ht

def TlsRecord.record (r : TlsRecord) : RawRecord :=
  ⟨r.ct, r.ver, r.payload⟩

theorem readTlsRecord_ok (h : readTlsRecord tcp = some (r, tcp')) :
    r.raw = r.record.toBytes ∧ r.payload.length < 256 ^ 2 := by
  unfold readTlsRecord at h
  split at h
  case h_1 ct v₀ v₁ l₀ l₁ tcp =>
    simp only [Option.ite_none_left_eq_some, Option.some.injEq, Prod.mk.injEq, not_or,
      Nat.not_lt] at h
    obtain ⟨⟨-, hl⟩, rfl, -⟩ := h
    have hp : (tcp.take (Bytes.ofBe [l₀, l₁])).length = Bytes.ofBe [l₀, l₁] :=
      List.length_take_of_le hl
    exact ⟨(RawRecord.toBytes_of_header hp).symm, lt_of_eq_of_lt hp (Bytes.ofBe_lt [l₀, l₁])⟩
  case h_2 => cases h

theorem readTlsRecords_ok (tcp : Bytes) :
    ∀ r ∈ readTlsRecords tcp, r.raw = r.record.toBytes ∧ r.payload.length < 256 ^ 2 := by
  induction tcp using readTlsRecords.induct
  case case1 tcp h =>
    rw [readTlsRecords]
    split <;> simp_all
  case case2 tcp r tcp' h hi =>
    rw [readTlsRecords]
    split
    case h_1 => nofun
    case h_2 h' =>
      rw [h] at h'
      cases h'
      exact List.forall_mem_cons.mpr ⟨readTlsRecord_ok h, hi⟩

section

variable {ed : Ed25519} {w : Worker ed}

-- Each record that the log holds as decrypted has been asked for.
theorem runNotaryWorkerInner_decryptSeqs
    (h : Run eof (runNotaryWorkerInner compress bincode w fuel []) es (.ok (some b)))
    (hr : r ∈ b.records) (ho : r.op = opDecrypt) (ws : List (Label × Bytes)) :
    r.seq ∈ decryptSeqs (ws ++ Event.reads es) := by
  obtain ⟨frames, begun, hs⟩ := runNotaryWorkerInner_serves h
  obtain ⟨rest, rfl, -⟩ := hs.ends
  rw [hs.records_eq] at hr
  obtain ⟨f, hf, rfl⟩ := List.mem_map.mp hr
  obtain ⟨fs, fs', rfl⟩ := List.append_of_mem hf
  have hm := mem_decryptSeqs (h := f.job.header) ho (ws ++ Event.reads (fs.flatMap Frame.events))
    (Event.reads (f.body ++ [.read .commit f.job.ct, .read .commitTag f.job.tag.toList]) ++
      (Event.reads (fs'.flatMap Frame.events) ++ Event.reads rest))
  have he : Event.reads ((fs ++ f :: fs').flatMap Frame.events ++ rest) =
      Event.reads (fs.flatMap Frame.events) ++ (Event.reads f.job.header.reads ++
        (Event.reads (f.body ++ [.read .commit f.job.ct, .read .commitTag f.job.tag.toList]) ++
          (Event.reads (fs'.flatMap Frame.events) ++ Event.reads rest))) := by
    rw [List.flatMap_append, List.flatMap_cons, Frame.events]
    simp only [Event.reads_append, List.append_assoc]
  rw [he, ←List.append_assoc]
  exact hm

theorem handle_decryptSeqs
    (h : Run eof (handle curve compress gcm files ed bincode rng peer sk now fuel) es
      (.ok (some b))) (hr : r ∈ b.records) (ho : r.op = opDecrypt) :
    r.seq ∈ decryptSeqs (Event.reads es) := by
  obtain ⟨keys, es₁, es₂, h₁, h₂, rfl⟩ := Run.bind_ok_iff.mp h
  rw [Event.reads_append]
  cases keys
  case preSplit =>
    obtain ⟨_, es₃, es₄, h₃, h₄, rfl⟩ := Run.bind_ok_iff.mp h₂
    rw [Event.reads_append, ←List.append_assoc]
    exact runNotaryWorkerInner_decryptSeqs h₄ hr ho _
  case twoPcPending setup =>
    obtain ⟨header, es₃, es₄, h₃, h₄, rfl⟩ := Run.bind_ok_iff.mp h₂
    split_ifs at h₄
    · cases h₄
    · obtain ⟨_, es₅, es₆, h₅, h₆, rfl⟩ := Run.bind_ok_iff.mp h₄
      obtain ⟨_, es₇, es₈, h₇, h₈, rfl⟩ := Run.bind_ok_iff.mp h₆
      simp only [Event.reads_append, ←List.append_assoc]
      exact runNotaryWorkerInner_decryptSeqs h₈ hr ho _

end

end Notary
