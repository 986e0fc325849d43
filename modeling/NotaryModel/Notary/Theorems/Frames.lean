import NotaryModel.Notary.Theorems.Worker

open Common

namespace Notary

variable {ed : Ed25519} {w : Worker ed} {compress : Arr 32 → Arr 64 → Arr 32} {bincode : Bincode}

theorem readHeader_strict : readHeader.Strict :=
  .bind .recv fun _ => .bind .recv fun _ => .bind .recv fun _ => .bind .recv fun _ =>
    .bind .recv fun _ => .pure

theorem readHeader_inv (h : Run eof readHeader es (.ok header)) :
    es = header.reads ∧ header.aad.length < 256 ^ 2 := by
  have ha := readHeader_ensures _ _ _ h
  have h := readHeader_strict.run_of_ok h
  simp only [readHeader, Run.recv_bind_iff, Prog.pure_eq, Run.pure_iff] at h
  obtain ⟨op, _, ⟨seq, _, ⟨aadLen, _, ⟨aad, _, ⟨payloadLen, _, ⟨rfl, hr⟩, rfl⟩, rfl⟩, rfl⟩, rfl⟩, rfl⟩ := h
  obtain rfl := Except.ok.inj hr
  have hseq : Bytes.be 8 (UInt64.ofNat (Bytes.ofBe seq.toList)).toNat = seq.toList := by
    have hl := Bytes.ofBe_lt seq.toList
    rw [UInt64.toNat_ofNat_of_lt' (by simpa using hl), Bytes.be_ofBe (by simp)]
  have hpl : Bytes.be 4 (UInt32.ofNat (Bytes.ofBe payloadLen.toList)).toNat = payloadLen.toList := by
    have hl := Bytes.ofBe_lt payloadLen.toList
    rw [UInt32.toNat_ofNat_of_lt' (by simpa using hl), Bytes.be_ofBe (by simp)]
  have haad : Bytes.be 2 aad.toList.length = aadLen.toList := by
    rw [Vector.length_toList, Bytes.be_ofBe (by simp)]
  exact ⟨by simp only [Header.reads, op.toList_eq, hseq, hpl, haad], ha⟩

theorem notaryEncryptGcm_strict : (notaryEncryptGcm kN nonce aad n).Strict :=
  .bind .join fun _ => .bind .join fun _ =>
    .bind (.mapM (fun _ => .bind .join fun _ => .bind .send fun _ => .pure) _) fun _ =>
      .bind .join fun _ => .send

theorem notaryDecryptGcm_strict : (notaryDecryptGcm kN nonce aadLen n).Strict :=
  .bind .join fun _ => .bind .join fun _ =>
    .bind (.mapM (fun _ => .bind .join fun _ => .bind .recv fun _ => .bind .send fun _ => .pure) _)
      fun _ => .bind .join fun _ => .send

theorem readCommit_inv (h : Run eof (readCommit compress n) es (.ok c)) :
    ∃ ct tag, ct.length = n ∧ es = [.read .commit ct, .read .commitTag tag.toList] ∧
      c = Sha256.digest compress (ct ++ Vector.toList (n := 16) tag) := by
  have hs : (readCommit compress n).Strict := .bind .recv fun _ => .bind .recv fun _ => .pure
  have h := hs.run_of_ok h
  simp only [readCommit, Run.recv_bind_iff, Prog.pure_eq, Run.pure_iff] at h
  obtain ⟨ct, _, ⟨tag, _, ⟨rfl, hr⟩, rfl⟩, rfl⟩ := h
  obtain rfl := Except.ok.inj hr
  exact ⟨ct.toList, tag, by simp, rfl, rfl⟩

def Worker.nonce (w : Worker ed) (h : Header) : Arr 12 :=
  tls13Nonce (if h.op = opEncrypt then w.ivTx else w.ivRx) h.seq

-- The two-party operation that the header of a record asks for.
def Worker.operate (w : Worker ed) (h : Header) : Wrk17 Unit :=
  if h.op = opEncrypt then
    notaryEncryptGcm w.kNTx (w.nonce h) h.aad h.payloadLen.toNat
  else
    notaryDecryptGcm w.kNRx (w.nonce h) h.aad.length h.payloadLen.toNat

theorem Worker.operate_strict : (w.operate h).Strict := by
  unfold operate
  split
  · exact notaryEncryptGcm_strict
  · exact notaryDecryptGcm_strict

-- What both arms for records do.
def Worker.record (w : Worker ed) (compress : Arr 32 → Arr 64 → Arr 32) (header : Header) :
    Wrk17 RecordCommit := do
  w.operate header
  let commitHash ← readCommit compress header.payloadLen.toNat
  pure { op := header.op, seq := header.seq, aad := header.aad, commitHash }

def IsRecord (op : Byte) : Prop :=
  op = opEncrypt ∨ op = opDecrypt

instance : DecidablePred IsRecord :=
  fun op => inferInstanceAs (Decidable (op = opEncrypt ∨ op = opDecrypt))

theorem opDecrypt_ne_opEncrypt : opDecrypt ≠ opEncrypt := by
  decide

theorem runNotaryWorkerInner_succ : runNotaryWorkerInner compress bincode w (fuel + 1) records =
    readHeader.attempt >>= fun
      | .error _   => .pure none
      | .ok header =>
        if IsRecord header.op then
          w.record compress header >>= fun r =>
            runNotaryWorkerInner compress bincode w fuel (records ++ [r])
        else if header.op = opFinish then
          some <$> w.finish bincode records
        else
          .fail (.other ("rustls bridge: unknown op byte 0x" ++ Bytes.hex header.op)) := by
  rw [runNotaryWorkerInner]
  congr 1
  funext header?
  cases header?
  case error     => rfl
  case ok header =>
    by_cases he : header.op = opEncrypt
    · simp [he, IsRecord, Worker.encryptRecord, Worker.record, Worker.operate,
        Worker.nonce]
    · by_cases hd : header.op = opDecrypt
      · simp [hd, IsRecord, Worker.decryptRecord, Worker.record, Worker.operate,
          Worker.nonce, opDecrypt_ne_opEncrypt]
      · simp [he, hd, IsRecord]

-- A frame for a record with the events of its operation.
structure Frame where
  job  : Job
  body : List (Event wrk17)

def Frame.events (f : Frame) : List (Event wrk17) :=
  f.job.header.reads ++
    (f.body ++ [.read .commit f.job.ct, .read .commitTag f.job.tag.toList])

structure Frame.Served (w : Worker ed) (f : Frame) : Prop where
  valid : f.job.Valid
  body  : Run False (w.operate f.job.header) f.body (.ok ())

theorem Worker.record_inv (h : Run eof (w.record compress header) es (.ok r))
    (ho : IsRecord header.op) (ha : header.aad.length < 256 ^ 2) :
    ∃ f : Frame, f.job.header = header ∧ f.Served w ∧ r = f.job.commit compress ∧
      header.reads ++ es = f.events := by
  obtain ⟨_, es₁, _, h₁, h₂, rfl⟩ := Run.bind_ok_iff.mp h
  obtain ⟨_, _, _, hc, h₃, rfl⟩ := Run.bind_ok_iff.mp h₂
  obtain ⟨ct, tag, hl, rfl, rfl⟩ := readCommit_inv hc
  obtain ⟨rfl, hr⟩ := Run.pure_iff.mp h₃
  obtain rfl := Except.ok.inj hr
  exact ⟨⟨⟨header, ct, tag⟩, es₁⟩, rfl, ⟨⟨ho, ha, hl⟩, Worker.operate_strict.run_of_ok h₁⟩, rfl,
    by simp [Frame.events]⟩

-- How the loop ends with the log `records`, where `begun` is the record that it breaks off.
inductive Worker.Ends (w : Worker ed) (compress : Arr 32 → Arr 64 → Arr 32) (bincode : Bincode)
    (eof : Prop) (records : List RecordCommit) : (begun : List Header) → List (Event wrk17) →
    Except Err (Option NotaryBundle) → Prop
  | fuel : Ends w compress bincode eof records [] [] (.error .fuel)
  | closed : Run eof readHeader es (.error e) → Ends w compress bincode eof records [] es (.ok none)
  | broken : Run eof readHeader es₁ (.ok h) → IsRecord h.op →
    Run eof (w.record compress h) es₂ (.error e) →
    Ends w compress bincode eof records [h] (es₁ ++ es₂) (.error e)
  | finish : Run eof readHeader es₁ (.ok h) → h.op = opFinish →
    Run eof (w.finish bincode records) es₂ (.ok b) →
    Ends w compress bincode eof records [] (es₁ ++ es₂) (.ok (some b))
  | refused : Run eof readHeader es₁ (.ok h) → h.op = opFinish →
    Run eof (w.finish bincode records) es₂ (.error e) →
    Ends w compress bincode eof records [] (es₁ ++ es₂) (.error e)
  | unknown : Run eof readHeader es (.ok h) → ¬IsRecord h.op → h.op ≠ opFinish →
    Ends w compress bincode eof records [] es
      (.error (.other ("rustls bridge: unknown op byte 0x" ++ Bytes.hex h.op)))

-- The loop serves `frames` one after another, and each adds its commit to the log `records`.
structure Worker.Serves (w : Worker ed) (compress : Arr 32 → Arr 64 → Arr 32) (bincode : Bincode)
    (eof : Prop) (records : List RecordCommit) (frames : List Frame) (begun : List Header)
    (es : List (Event wrk17)) (r : Except Err (Option NotaryBundle)) : Prop where
  served : ∀ f ∈ frames, f.Served w
  ends   : ∃ rest, es = frames.flatMap Frame.events ++ rest ∧
    w.Ends compress bincode eof (records ++ frames.map (·.job.commit compress)) begun rest r

theorem Worker.Serves.of_ends (h : w.Ends compress bincode eof records begun es r) :
    w.Serves compress bincode eof records [] begun es r where
  served := by simp
  ends   := ⟨es, rfl, by simpa using h⟩

theorem Worker.Serves.cons (hf : f.Served w)
    (h : w.Serves compress bincode eof (records ++ [f.job.commit compress]) frames begun es r) :
    w.Serves compress bincode eof records (f :: frames) begun (f.events ++ es) r where
  served := List.forall_mem_cons.mpr ⟨hf, h.served⟩
  ends :=
    have ⟨rest, he, hr⟩ := h.ends
    ⟨rest, by simp [he], by simpa using hr⟩

-- Whatever the client sends, the loop serves its frames. The induction is on the number of those that
-- may still come.
theorem runNotaryWorkerInner_serves
    (h : Run eof (runNotaryWorkerInner compress bincode w fuel records) es r) :
    ∃ frames begun, w.Serves compress bincode eof records frames begun es r := by
  induction fuel generalizing records es
  case zero =>
    obtain ⟨rfl, rfl⟩ := Run.fail_iff.mp h
    exact ⟨[], [], .of_ends .fuel⟩
  case succ fuel hi =>
    rw [runNotaryWorkerInner_succ, Run.attempt_bind_iff] at h
    obtain ⟨header?, es₁, es₂, h₁, h₂, rfl⟩ := h
    cases header?
    case error =>
      obtain ⟨rfl, rfl⟩ := Run.pure_iff.mp h₂
      rw [List.append_nil]
      exact ⟨[], [], .of_ends (.closed h₁)⟩
    case ok header =>
      dsimp only at h₂
      split_ifs at h₂ with hr hf
      · obtain ⟨c, es₂, es₃, hc, h₃, rfl⟩ | ⟨e, he, rfl⟩ := Run.bind_inv h₂
        · have ⟨he, ha⟩ := readHeader_inv h₁
          obtain ⟨f, -, hs, rfl, hf⟩ := Worker.record_inv hc hr ha
          have ⟨frames, begun, h⟩ := hi h₃
          refine ⟨f :: frames, begun, ?_⟩
          rw [he, ←List.append_assoc, hf]
          exact h.cons hs
        · exact ⟨[], [header], .of_ends (.broken h₁ hr he)⟩
      · obtain ⟨b, es₂, _, hb, h₃, rfl⟩ | ⟨e, he, rfl⟩ := Run.bind_inv h₂
        · obtain ⟨rfl, rfl⟩ := Run.pure_iff.mp h₃
          rw [List.append_nil]
          exact ⟨[], [], .of_ends (.finish h₁ hf hb)⟩
        · exact ⟨[], [], .of_ends (.refused h₁ hf he)⟩
      · obtain ⟨rfl, rfl⟩ := Run.fail_iff.mp h₂
        rw [List.append_nil]
        exact ⟨[], [], .of_ends (.unknown h₁ hr hf)⟩

-- A bundle is signed at the end of the session, over the log of the frames that were served.
theorem Worker.Ends.records_eq {records : List RecordCommit}
    (h : w.Ends compress bincode eof records begun es (.ok (some b))) : b.records = records := by
  cases h
  case finish h =>
    obtain ⟨sk, sid, sn, -, -, -, rfl⟩ := Worker.finish_sign _ _ _ h
    rfl

theorem Worker.Serves.records_eq
    (h : w.Serves compress bincode eof [] frames begun es (.ok (some b))) :
    b.records = frames.map (·.job.commit compress) :=
  have ⟨_, _, h⟩ := h.ends
  h.records_eq

theorem Frame.Served.record_run {f : Frame} (h : f.Served w) :
    Run False (w.record compress f.job.header)
      (f.body ++ [.read .commit f.job.ct, .read .commitTag f.job.tag.toList])
      (.ok (f.job.commit compress)) := by
  refine Run.bind_ok h.body ?_
  rw [←List.append_nil [_, _]]
  exact Run.bind_ok (readCommit_run h.valid.ct f.job.tag) .pure

theorem Worker.Ends.run {records : List RecordCommit}
    (h : w.Ends compress bincode eof records begun es r) (hr : r ≠ .error .fuel) :
    Run eof (runNotaryWorkerInner compress bincode w (n + 1) records) es r := by
  rw [runNotaryWorkerInner_succ, Run.attempt_bind_iff]
  cases h
  case fuel => exact absurd rfl hr
  case closed h => exact ⟨_, _, _, h, .pure, by simp⟩
  case broken es₁ h es₂ e h₁ ho h₂ =>
    refine ⟨_, es₁, es₂, h₁, ?_, rfl⟩
    simp only [ho, if_true]
    exact Run.bind_error h₂
  case finish es₁ h es₂ b h₁ ho h₂ =>
    refine ⟨_, es₁, es₂ ++ [], h₁, ?_, by simp⟩
    simp only [ho, IsRecord, if_true]
    exact Run.bind_ok h₂ .pure
  case refused es₁ h es₂ e h₁ ho h₂ =>
    refine ⟨_, es₁, es₂, h₁, ?_, rfl⟩
    simp only [ho, IsRecord, if_true]
    exact Run.bind_error h₂
  case unknown h ho hf h₁ =>
    refine ⟨_, es, [], h₁, ?_, by simp⟩
    dsimp only
    rw [if_neg ho, if_neg hf]
    exact .fail

-- The frames that the loop serves make a run of it.
theorem Worker.Serves.run {records : List RecordCommit}
    (h : w.Serves compress bincode eof records frames begun es r) (hf : frames.length < n)
    (hr : r ≠ .error .fuel) : Run eof (runNotaryWorkerInner compress bincode w n records) es r := by
  obtain ⟨hs, rest, rfl, he⟩ := h
  induction frames generalizing records n
  case nil =>
    obtain ⟨n, rfl⟩ := Nat.exists_eq_succ_of_ne_zero (Nat.ne_zero_of_lt hf)
    rw [List.map_nil, List.append_nil] at he
    exact he.run hr
  case cons f frames hi =>
    rw [List.forall_mem_cons] at hs
    have ⟨hf', hs⟩ := hs
    obtain ⟨n, rfl⟩ := Nat.exists_eq_succ_of_ne_zero (Nat.ne_zero_of_lt hf)
    rw [List.map_cons, List.append_cons] at he
    have hr := hi (Nat.lt_of_succ_lt_succ hf) hs he
    rw [runNotaryWorkerInner_succ, Run.attempt_bind_iff]
    have ho : IsRecord f.job.header.op := hf'.valid.op
    have he : (f :: frames).flatMap Frame.events ++ rest = f.job.header.reads ++ (f.body ++
        [.read .commit f.job.ct, .read .commitTag f.job.tag.toList] ++
          (frames.flatMap Frame.events ++ rest)) := by
      simp [Frame.events]
    refine ⟨_, _, _, readHeader_run f.job.header hf'.valid.aad, ?_, he⟩
    simp only [ho, if_true]
    exact Run.bind_ok (hf'.record_run.mono False.elim) hr

end Notary
