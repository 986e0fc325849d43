import NotaryModel.TwoParty.Exchange
import NotaryModel.Notary.ClientWorker
import NotaryModel.Notary.Theorems.Frames
import NotaryModel.Notary.Theorems.Gcm

open Common Exchange

namespace Notary

variable {aes : Arr 16 → Arr 16 → Arr 16} {compress : Arr 32 → Arr 64 → Arr 32}
variable {ed : Ed25519} {bincode : Bincode}

-- The bodies of a record as exchanges: the notary is the left party.
section

variable {kN kC : Arr 16} {nonce : Arr 12}

theorem events_schedule {rN : Nat → X → List (Event wrk17)} {rC : Nat → Y → List (Event wrk17)}
    {i : NotaryInputs X} {j : ClientInputs Y}
    (h : Matched (circuits aes compress) (notaryEvents kN nonce n rN bN i) (clientEvents kC n rC bC j))
    (hs : ∀ blk, SameShape (rN blk (i.round blk)) (rC blk (j.round blk)))
    (hr : ∀ blk, Matched (circuits aes compress) (rN blk (i.round blk)) (rC blk (j.round blk)) →
      Schedule (circuits aes compress) [] [] [] (rN blk (i.round blk)) (rC blk (j.round blk))) :
    Schedule (circuits aes compress) [] [] [] (notaryEvents kN nonce n rN bN i)
      (clientEvents kC n rC bC j) := by
  obtain ⟨hh, hs, hm, hl, hx, ht⟩ := matched_events_iff hs |>.mp h
  have hc : Schedule (circuits aes compress) [] [] []
      ((List.range (Bytes.blockCount n)).flatMap fun blk => rN blk (i.round blk))
      ((List.range (Bytes.blockCount n)).flatMap fun blk => rC blk (j.round blk)) :=
    .flatMap fun blk hb => hr blk <| hm blk <| List.mem_range.mp hb
  unfold notaryEvents clientEvents
  rw [ht]
  refine .append (.session ?_ <| .session ?_ .nil) <| .append hc <| .session ?_ <| .write_read .nil
  case refine_1 => simp [circuits, hh]
  case refine_2 => simp [circuits, makeNonceCtr_eq, hs]
  case refine_3 => simp [circuits, hl, hx]

theorem encryptGcm_scheduled (kN kC : Arr 16) (nonce nonce' : Arr 12) (aad plaintext : Bytes) :
    Scheduled (circuits aes compress) (notaryEncryptGcm kN nonce aad plaintext.length)
      (clientEncryptGcm kC plaintext aad nonce') fun _ r =>
        r = Gcm.encrypt aes ghashMulReference (kN ^^^ kC) nonce aad plaintext := by
  intro m n
  obtain ⟨i, j, ha, hm⟩ := exists_encrypt_matched aes compress kN kC nonce aad plaintext m n
  refine ⟨_, _, _, _, encrypt_result_eq aes compress hm, notaryEncryptGcm.denotes _ _ _ _ |>.run i,
    clientEncryptGcm.denotes _ _ _ _ |>.run j, events_schedule hm (fun _ => ⟨rfl, rfl, rfl⟩) ?_, ha⟩
  intro blk hb
  obtain ⟨hk, hc⟩ := encrypt_round_iff.mp hb
  unfold notaryEncryptGcm.roundEvents clientEncryptGcm.roundEvents
  rw [hk]
  refine .enter <| .writeLeft <| .readRight <| .join ?_ .nil
  simp [circuits, makeNonceCtr_eq, Gcm.keystream, ←hc, hk]

-- Two-party decryption takes place as an exchange also if the tag does not fit.
theorem exists_decrypt_schedule (aes : Arr 16 → Arr 16 → Arr 16)
    (compress : Arr 32 → Arr 64 → Arr 32) (kN kC : Arr 16) (nonce nonce' : Arr 12)
    (aad ciphertext : Bytes) (tag : Arr 16) (m : Masks wrk17) (n : Nat) : ∃ es es',
    Run False (notaryDecryptGcm kN nonce aad.length ciphertext.length) es (.ok ()) ∧
    Run False (clientDecryptGcm2pc kC ciphertext aad tag nonce') es'
      (decryptOutcome aes (kN ^^^ kC) nonce aad ciphertext tag) ∧
    Schedule (circuits aes compress) [] [] [] es es' ∧ m.Answers n (Event.sessions es) := by
  obtain ⟨i, j, ha, hm⟩ := exists_decrypt_matched aes compress kN kC nonce aad ciphertext m n
  refine ⟨_, _, notaryDecryptGcm.denotes _ _ _ _ |>.run i,
    clientDecryptGcm2pc.run_iff.mpr ⟨j, (decrypt_result_eq aes compress hm).symm, rfl⟩,
    events_schedule hm ?shape ?round, ha⟩
  case shape =>
    intro blk
    constructor <;> simp [notaryDecryptGcm.roundEvents, clientDecryptGcm2pc.roundEvents]
  case round =>
    intro blk hb
    obtain ⟨hp, hc, hk⟩ := decrypt_round_iff.mp hb
    unfold notaryDecryptGcm.roundEvents clientDecryptGcm2pc.roundEvents
    rw [hp, hc]
    refine .enter <| .writeRight <| .readLeft <| .writeLeft <| .join ?_ <| .readRight .nil
    simp [circuits, makeNonceCtr_eq, ←hk, Gcm.keystream]

theorem decryptGcm_scheduled (kN kC : Arr 16) (nonce nonce' : Arr 12) (aad ciphertext : Bytes)
    (tag : Arr 16)
    (ht : Gcm.tag aes ghashMulReference (kN ^^^ kC) nonce aad ciphertext = tag) :
    Scheduled (circuits aes compress) (notaryDecryptGcm kN nonce aad.length ciphertext.length)
      (clientDecryptGcm2pc kC ciphertext aad tag nonce') fun _ r =>
        r = Gcm.crypt aes (kN ^^^ kC) nonce (List.replicate ciphertext.length 0) := by
  intro m n
  obtain ⟨es, es', hn, hc, hs, ha⟩ :=
    exists_decrypt_schedule aes compress kN kC nonce nonce' aad ciphertext tag m n
  rw [decryptOutcome, if_pos ht] at hc
  exact ⟨_, _, es, es', rfl, hn, hc, hs, ha⟩

end

def ClientJob.header : ClientJob → Header
  | .encrypt plaintext aad seq    => ⟨opEncrypt, seq, aad, .ofNat plaintext.length⟩
  | .decrypt ciphertext _ aad seq => ⟨opDecrypt, seq, aad, .ofNat ciphertext.length⟩

def ClientJob.text : ClientJob → Bytes
  | .encrypt plaintext ..  => plaintext
  | .decrypt ciphertext .. => ciphertext

-- A job of which the lengths fit into their fields.
structure ClientJob.Fits (job : ClientJob) : Prop where
  aad  : job.header.aad.length < 256 ^ 2
  text : job.text.length < 2 ^ 32

theorem ClientJob.isRecord (job : ClientJob) : IsRecord job.header.op :=
  match job with
  | .encrypt .. => .inl rfl
  | .decrypt .. => .inr rfl

namespace ClientWorker

-- A ciphertext with its tag.
def Done.record : Done → Bytes × Arr 16
  | ⟨.encrypt .., r⟩                => r
  | ⟨.decrypt ciphertext tag .., _⟩ => (ciphertext, tag)

def Done.commit (compress : Arr 32 → Arr 64 → Arr 32) (d : Done) : RecordCommit where
  op         := d.1.header.op
  seq        := d.1.header.seq
  aad        := d.1.header.aad
  commitHash := Sha256.digest compress (d.record.1 ++ d.record.2.toList)

-- What a job does after its header.
def complete (c : ClientWorker) : (job : ClientJob) → Wrk17 job.Result
  | .encrypt plaintext aad seq => do
    let (ct, tag) ← clientEncryptGcm c.kCTx plaintext aad (tls13Nonce c.ivTx seq)
    write .commit ct
    write .commitTag tag.toList
    pure (ct, tag)
  | .decrypt ciphertext tag aad seq => do
    let plaintext ← clientDecryptGcm2pc c.kCRx ciphertext aad tag (tls13Nonce c.ivRx seq)
    write .commit ciphertext
    write .commitTag tag.toList
    pure plaintext

theorem perform_eq (c : ClientWorker) (job : ClientJob) :
    c.perform job = writeHeader job.header >>= fun _ => c.complete job := by
  cases job <;> rfl

variable (aes : Arr 16 → Arr 16 → Arr 16) (w : Worker ed) (c : ClientWorker)

-- A job of which the tag is the one of the record under the common key.
def Authenticates : ClientJob → Prop
  | .encrypt ..                     => True
  | .decrypt ciphertext tag aad seq =>
    Gcm.tag aes ghashMulReference (w.kNRx ^^^ c.kCRx) (tls13Nonce w.ivRx seq) aad ciphertext = tag

-- What the client gets for a job. Two-party decryption returns the keystream.
def result : (job : ClientJob) → job.Result
  | .encrypt plaintext aad seq     =>
    Gcm.encrypt aes ghashMulReference (w.kNTx ^^^ c.kCTx) (tls13Nonce w.ivTx seq) aad plaintext
  | .decrypt ciphertext _ _ seq =>
    Gcm.crypt aes (w.kNRx ^^^ c.kCRx) (tls13Nonce w.ivRx seq) (.replicate ciphertext.length 0)

def done (job : ClientJob) : Done :=
  ⟨job, c.result aes w job⟩

variable {aes w c} {job : ClientJob}

theorem header_scheduled {h : Header} (ha : h.aad.length < 256 ^ 2) :
    Scheduled (circuits aes compress) readHeader.attempt (writeHeader h) fun r _ =>
      r = .ok h :=
  fun _ _ => ⟨_, _, h.reads, _, rfl, readHeader_attempt_run h ha,
    .write <| .write <| .write <| .write <| .write .pure,
    .read_write <| .read_write <| .read_write <| .read_write <| .read_write .nil, trivial⟩

theorem commit_scheduled {header : Header} {tag : Arr 16} {Φ : RecordCommit → α → Prop}
    (hl : ct.length = header.payloadLen.toNat)
    (h : Φ ⟨header.op, header.seq, header.aad, Sha256.digest compress (ct ++ tag.toList)⟩ a) :
    Scheduled (circuits aes compress)
      (do
        let commitHash ← readCommit compress header.payloadLen.toNat
        pure ⟨header.op, header.seq, header.aad, commitHash⟩ : Wrk17 RecordCommit)
      (do
        write .commit ct
        write .commitTag tag.toList
        pure a) Φ :=
  fun _ _ => ⟨_, _, _, _, h, Run.bind_ok (readCommit_run hl tag) .pure,
    .write <| .write .pure, .read_write <| .read_write .nil, trivial⟩

theorem record_scheduled (hf : job.Fits) (ha : c.Authenticates aes w job) :
    Scheduled (circuits aes compress) (w.record compress job.header) (c.complete job)
      fun r res => r = (c.done aes w job).commit compress ∧ res = c.result aes w job := by
  have hl : (UInt32.ofNat job.text.length).toNat = job.text.length := by
    rw [UInt32.toNat_ofNat', Nat.mod_eq_of_lt hf.text]
  cases job
  case encrypt plaintext aad seq =>
    have ho : w.operate (ClientJob.encrypt plaintext aad seq).header =
        notaryEncryptGcm w.kNTx (tls13Nonce w.ivTx seq) aad plaintext.length :=
      congrArg (notaryEncryptGcm w.kNTx (tls13Nonce w.ivTx seq) aad) hl
    unfold Worker.record
    rw [ho]
    refine .bind (encryptGcm_scheduled _ _ _ _ _ _) ?_
    rintro _ _ rfl
    exact commit_scheduled (Gcm.length_crypt.trans hl.symm) ⟨rfl, rfl⟩
  case decrypt ciphertext tag aad seq =>
    have ho : w.operate (ClientJob.decrypt ciphertext tag aad seq).header =
        notaryDecryptGcm w.kNRx (tls13Nonce w.ivRx seq) aad.length ciphertext.length :=
      congrArg (notaryDecryptGcm w.kNRx (tls13Nonce w.ivRx seq) aad.length) hl
    unfold Worker.record
    rw [ho]
    refine .bind (decryptGcm_scheduled _ _ _ _ _ _ _ ha) ?_
    rintro _ _ rfl
    exact commit_scheduled hl.symm ⟨rfl, rfl⟩

-- The notary serves a job as the frame that the client meant.
theorem perform_scheduled {g : job.Result → Wrk17 β} {Φ : Option NotaryBundle → β → Prop}
    (hf : job.Fits) (ha : c.Authenticates aes w job)
    (h : Scheduled (circuits aes compress)
      (runNotaryWorkerInner compress bincode w fuel (rs ++ [(c.done aes w job).commit compress]))
      (g (c.result aes w job)) Φ) :
    Scheduled (circuits aes compress)
      (runNotaryWorkerInner compress bincode w (fuel + 1) rs) (c.perform job >>= g) Φ := by
  rw [runNotaryWorkerInner_succ, perform_eq, bind_assoc]
  refine .bind (header_scheduled hf.aad) ?_
  rintro _ _ rfl
  simp only [if_pos job.isRecord]
  refine .bind (record_scheduled hf ha) ?_
  rintro _ _ ⟨rfl, rfl⟩
  exact h

-- The induction is on the jobs; the log of the notary is that of the jobs that have been done.
theorem perform_mapM_scheduled {jobs : List ClientJob} {g : List Done → Wrk17 β}
    {Φ : Option NotaryBundle → β → Prop}
    (hf : ∀ job ∈ jobs, job.Fits) (ha : ∀ job ∈ jobs, c.Authenticates aes w job)
    (h : Scheduled (circuits aes compress)
      (runNotaryWorkerInner compress bincode w fuel
        (rs ++ jobs.map fun job => (c.done aes w job).commit compress))
      (g (jobs.map (c.done aes w))) Φ) :
    Scheduled (circuits aes compress)
      (runNotaryWorkerInner compress bincode w (fuel + jobs.length) rs)
      (jobs.mapM (fun job => Sigma.mk job <$> c.perform job) >>= g) Φ := by
  induction jobs generalizing rs g
  case nil              =>
    rw [List.map_nil, List.append_nil] at h
    exact h
  case cons job jobs hi =>
    rw [List.forall_mem_cons] at hf ha
    rw [List.mapM_cons, bind_assoc, map_eq_pure_bind, bind_assoc]
    refine perform_scheduled hf.left ha.left ?_
    rw [pure_bind, bind_assoc]
    refine hi hf.right ha.right ?_
    rw [List.append_assoc]
    exact h

def clientFinishEvents (sid sn : String) (bytes : Bytes) : List (Event wrk17) :=
  [.write .op [opFinish], .write .seq (Bytes.be 8 0), .write .aadLen (Bytes.be 2 0), .write .aad [],
    .write .payloadLen (Bytes.be 4 0), .write .sessionIdLen (Bytes.be 2 (Bytes.ofString sid).length),
    .write .sessionId (Bytes.ofString sid),
    .write .serverNameLen (Bytes.be 2 (Bytes.ofString sn).length),
    .write .serverName (Bytes.ofString sn), .read .bundleLen (Bytes.be 4 bytes.length),
    .read .bundle bytes]

theorem clientFinishSession_run (hl : bytes.length ≤ 16 * 1024 * 1024)
    (hde : bincode.deserialize bytes = .ok b) :
    Run eof (clientFinishSession bincode sid sn) (clientFinishEvents sid sn bytes) (.ok b) := by
  have hlen : Bytes.ofBe (Bytes.be 4 bytes.length) = bytes.length :=
    Bytes.ofBe_be_of_lt (Nat.lt_of_le_of_lt hl (by decide))
  refine .write <| .write <| .write <| .write <| .write <| .write <| .write <| .write <| .write <|
    Run.recv_bind (Bytes.be 4 bytes.length) (by simp) fun lenBuf hlb => ?_
  rw [hlb, hlen]
  simp only [gt_iff_lt, if_neg (Nat.not_lt.mpr hl)]
  refine Run.recv_bind bytes rfl fun buf hb => ?_
  rw [hb, hde]
  exact .pure

theorem finish_scheduled (hk : w.signingKey = some sk)
    (hsid : (Bytes.ofString sid).length < 256 ^ 2) (hsn : (Bytes.ofString sn).length < 256 ^ 2)
    (hb : b = .sign ed sk w.now sid sn rs w.kNTx w.ivTx w.kNRx w.ivRx w.binding)
    (hser : bincode.serialize b = .ok bytes) (hl : bytes.length ≤ 16 * 1024 * 1024)
    (hde : bincode.deserialize bytes = .ok b') :
    Scheduled (circuits aes compress) (runNotaryWorkerInner compress bincode w (fuel + 1) rs)
      (clientFinishSession bincode sid sn) fun r r' => r = some b ∧ r' = b' := by
  subst hb
  let header : Header := { op := opFinish, seq := 0, aad := [], payloadLen := 0 }
  refine fun _ _ => ⟨_, _, _, _, ⟨rfl, rfl⟩,
    Run.bind_ok (readHeader_attempt_run header (by decide)) <|
      Run.bind_ok (w.finish_run hk hsid hsn hser) .pure, clientFinishSession_run hl hde, ?_, trivial⟩
  exact .read_write <| .read_write <| .read_write <| .read_write <| .read_write <|
    .read_write <| .read_write <| .read_write <| .read_write <| .write_read <| .write_read .nil

theorem session_scheduled (hf : ∀ job ∈ jobs, job.Fits) (ha : ∀ job ∈ jobs, c.Authenticates aes w job)
    (hk : w.signingKey = some sk) (hsid : (Bytes.ofString sid).length < 256 ^ 2)
    (hsn : (Bytes.ofString sn).length < 256 ^ 2)
    (hb : b = .sign ed sk w.now sid sn (jobs.map fun job => (c.done aes w job).commit compress)
      w.kNTx w.ivTx w.kNRx w.ivRx w.binding)
    (hser : bincode.serialize b = .ok bytes) (hl : bytes.length ≤ 16 * 1024 * 1024)
    (hde : bincode.deserialize bytes = .ok b) (hfuel : jobs.length < fuel) :
    Scheduled (circuits aes compress) (runNotaryWorkerInner compress bincode w fuel [])
      (c.session bincode jobs sid sn) fun r r' => r = some b ∧ r' = (jobs.map (c.done aes w), b) := by
  obtain ⟨n, rfl⟩ := Nat.exists_eq_add_of_lt hfuel
  have hn : jobs.length + n + 1 = n + 1 + jobs.length := by omega
  rw [hn]
  refine perform_mapM_scheduled hf ha ?_
  rw [List.nil_append, ←Prog.bind_pure (runNotaryWorkerInner ..)]
  refine .bind (finish_scheduled hk hsid hsn hb hser hl hde) ?_
  rintro _ _ ⟨rfl, rfl⟩
  exact .pure ⟨rfl, rfl⟩

end ClientWorker

-- What the programs rely on: a key can be read back, and the signatures of a key are good for it.
structure Correct (ed : Ed25519) : Prop where
  fromBytes_toBytes sk : ed.fromBytes (ed.toBytes (ed.verifyingKey sk)) = some (ed.verifyingKey sk)
  verify_sign sk msg   : ed.verify (ed.verifyingKey sk) msg (ed.sign sk msg) = true

theorem Correct.verify_sign_bundle (h : Correct ed) :
    (NotaryBundle.sign ed sk now sid sn rs kNTx ivTx kNRx ivRx binding).verify ed = true := by
  let b := NotaryBundle.sign ed sk now sid sn rs kNTx ivTx kNRx ivRx binding
  refine verify_iff.mpr ⟨_, h.fromBytes_toBytes sk, Vector.length_toList, ?_⟩
  have hs : b.signingBytes = b.canonicalSigningBytes := if_pos (UInt8.le_refl _)
  have hb : (.ofBytes 64 b.signature : Arr 64) = ed.sign sk b.canonicalSigningBytes :=
    Arr.ofBytes_toList (ed.sign sk b.canonicalSigningBytes)
  rw [hs, hb]
  exact h.verify_sign sk _

-- The signed log is exactly what the client did, and both parties have the same bundle.
theorem session_logs_jobs (aes : Arr 16 → Arr 16 → Arr 16) (compress : Arr 32 → Arr 64 → Arr 32)
    (bincode : Bincode) (w : Worker ed) (c : ClientWorker) (jobs : List ClientJob) (sid sn : String)
    (hf : ∀ job ∈ jobs, job.Fits) (ha : ∀ job ∈ jobs, c.Authenticates aes w job)
    (hk : w.signingKey = some sk) (hsid : (Bytes.ofString sid).length < 256 ^ 2)
    (hsn : (Bytes.ofString sn).length < 256 ^ 2) (hed : Correct ed)
    (hb : b = .sign ed sk w.now sid sn (jobs.map fun job => (c.done aes w job).commit compress)
      w.kNTx w.ivTx w.kNRx w.ivRx w.binding)
    (hser : bincode.serialize b = .ok bytes) (hl : bytes.length ≤ 16 * 1024 * 1024)
    (hde : bincode.deserialize bytes = .ok b) (hfuel : jobs.length < fuel) :
    b.records = jobs.map (fun job => (c.done aes w job).commit compress) ∧ b.sessionId = sid ∧
    b.serverName = sn ∧ b.verify ed = true ∧
    ∀ m, ∃ n, ∀ s,
      Exchange.Steps (circuits aes compress) m
        (.init (runNotaryWorkerInner compress bincode w fuel []) (c.session bincode jobs sid sn)) s →
      s.aligned ∧
      Exchange.Steps (circuits aes compress) m s (.final (some b) (jobs.map (c.done aes w), b) n) := by
  have hm := ClientWorker.session_scheduled hf ha hk hsid hsn hb hser hl hde hfuel
  subst hb
  refine ⟨rfl, rfl, rfl, hed.verify_sign_bundle, fun m => ?_⟩
  obtain ⟨_, _, n, ⟨rfl, rfl⟩, h⟩ := hm.steps_to_final m
  exact ⟨n, h⟩

-- A scheme with a single key, of which the signature of a message is its first bytes.
def echoScheme : Ed25519 where
  SigningKey   := Unit
  VerifyingKey := Unit
  verifyingKey := id
  toBytes _    := 0
  fromBytes _  := some ()
  sign _ msg   := .ofBytes 64 msg
  verify _ m s := s == .ofBytes 64 m

theorem echoScheme_correct : Correct echoScheme where
  fromBytes_toBytes _ := rfl
  verify_sign _ _     := beq_self_eq_true _

def echoWorker : Worker echoScheme :=
  ⟨some (), 0, 0, 0, 0, default, 0⟩

def sampleJobs : List ClientJob := [
  .encrypt [1] [2] 0,
  .decrypt [3] (Gcm.tag (fun _ _ => 0) ghashMulReference 0 (tls13Nonce 0 0) [4] [3]) [4] 0
]

theorem session_logs_jobs_of_two_jobs :
    let F := circuits (fun _ _ => 0) fun _ _ => 0
    let done := sampleJobs.map (ClientWorker.done (fun _ _ => 0) echoWorker ⟨0, 0, 0, 0⟩)
    let b := NotaryBundle.sign echoScheme () 0 "demo" "example.com"
      (done.map (·.commit fun _ _ => 0)) 0 0 0 0 default
    let bincode : Bincode := ⟨fun _ => .ok [], fun _ => .ok b⟩
    b.verify echoScheme = true ∧ ∀ m, ∃ n, ∀ s,
      Exchange.Steps F m (.init (runNotaryWorkerInner (fun _ _ => 0) bincode echoWorker 3 [])
        (ClientWorker.session ⟨0, 0, 0, 0⟩ bincode sampleJobs "demo" "example.com")) s →
      s.aligned ∧ Exchange.Steps F m s (.final (some b) (done, b) n) := by
  intro F done b bincode
  have hf : ∀ job ∈ sampleJobs, job.Fits := by
    simp only [sampleJobs, List.forall_mem_cons]
    exact ⟨⟨by decide, by decide⟩, ⟨by decide, by decide⟩, nofun⟩
  have ha : ∀ job ∈ sampleJobs,
      ClientWorker.Authenticates (fun _ _ => 0) echoWorker ⟨0, 0, 0, 0⟩ job := by
    simp only [sampleJobs, List.forall_mem_cons]
    exact ⟨trivial, rfl, nofun⟩
  have h := session_logs_jobs (fun _ _ => 0) (fun _ _ => 0) bincode echoWorker ⟨0, 0, 0, 0⟩
    sampleJobs "demo" "example.com" hf ha rfl (by decide) (by decide) echoScheme_correct rfl rfl
    (by decide) rfl (by decide : sampleJobs.length < 3)
  exact h.right.right.right

end Notary
