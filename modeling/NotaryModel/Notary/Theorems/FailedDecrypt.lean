import NotaryModel.Notary.Theorems.Jobs

open Common Exchange Relation

namespace Notary

variable {aes : Arr 16 → Arr 16 → Arr 16} {compress : Arr 32 → Arr 64 → Arr 32}
variable {ed : Ed25519} {bincode : Bincode} {w : Worker ed} {c : ClientWorker}

-- What the notary does after the operation of a record.
def commitRecord (compress : Arr 32 → Arr 64 → Arr 32) (header : Header) : Wrk17 RecordCommit := do
  let commitHash ← readCommit compress header.payloadLen.toNat
  pure { op := header.op, seq := header.seq, aad := header.aad, commitHash }

theorem Worker.record_eq :
    w.record compress header = w.operate header >>= fun _ => commitRecord compress header :=
  rfl

-- The notary waits for a header or for what it commits to, and `log` is its log.
inductive Worker.Waits (w : Worker ed) (compress : Arr 32 → Arr 64 → Arr 32) (bincode : Bincode)
    (log : List RecordCommit) : Wrk17 (Option NotaryBundle) → Prop
  | header : Waits w compress bincode log (runNotaryWorkerInner compress bincode w (fuel + 1) log)
  | commit {header : Header} : 0 < header.payloadLen.toNat →
    Waits w compress bincode log (commitRecord compress header >>= fun r =>
      runNotaryWorkerInner compress bincode w fuel (log ++ [r]))
  | tag {header : Header} : Waits w compress bincode log (read .commitTag 16 >>= fun tag =>
      runNotaryWorkerInner compress bincode w fuel
        (log ++ [⟨header.op, header.seq, header.aad, Sha256.digest compress tag.toList⟩]))

theorem Worker.Waits.stuck (h : w.Waits compress bincode log left) (b : β) (s : Exchange.Net ..) :
    ¬Step (circuits aes compress) m ⟨left, .pure b, [], [], [], i, p⟩ s := by
  cases h
  case header =>
    rw [runNotaryWorkerInner_succ]
    exact Step.not_of_read Nat.one_pos
  case commit hn => exact Step.not_of_read hn
  case tag       => exact Step.not_of_read (by decide)

namespace ClientWorker

instance (job : ClientJob) : Decidable (c.Authenticates aes w job) :=
  match job with
  | .encrypt ..                     => .isTrue trivial
  | .decrypt ciphertext tag aad seq => inferInstanceAs <| Decidable <|
    Gcm.tag aes ghashMulReference (w.kNRx ^^^ c.kCRx) (tls13Nonce w.ivRx seq) aad ciphertext = tag

variable (aes w c) in
def response (job : ClientJob) : Response :=
  ⟨job, if c.Authenticates aes w job then .ok (c.result aes w job) else
    .error (.other "AES-GCM authentication failed")⟩

-- The frames of the jobs that have been done.
variable (aes compress w c) in
def log (jobs : List ClientJob) : List RecordCommit :=
  jobs.filter (c.Authenticates aes w ·) |>.map fun job => (c.done aes w job).commit compress

-- In all runs every read gets the bytes of its step, every job gets its own response, and the log has
-- the entries of the jobs that have been done.
def Synchronised (aes : Arr 16 → Arr 16 → Arr 16) (compress : Arr 32 → Arr 64 → Arr 32)
    (bincode : Bincode) (w : Worker ed) (c : ClientWorker) (fuel : Nat) (jobs : List ClientJob) :
    Prop :=
  ∀ m, ∃ left n, w.Waits compress bincode (c.log aes compress w jobs) left ∧ ∀ s,
    Exchange.Steps (circuits aes compress) m
      (.init (runNotaryWorkerAttested compress bincode w fuel) (c.spawn jobs)) s →
    s.aligned ∧ Exchange.Steps (circuits aes compress) m s
      ⟨left, .pure (jobs.map (c.response aes w)), [], [], [], n, True⟩

-- The worker thread's part in a job.
def serveOne (c : ClientWorker) (job : ClientJob) : Wrk17 Response :=
  Sigma.mk job <$> (c.perform job).attempt

theorem serveOne_bind {g : Response → Wrk17 β} : c.serveOne job >>= g =
    writeHeader job.header >>= fun _ => (c.complete job).attempt >>= fun r => g ⟨job, r⟩ := by
  have h : (c.perform job).attempt = writeHeader job.header >>= fun _ => (c.complete job).attempt := by
    cases job <;> rfl
  rw [serveOne, h, map_eq_pure_bind, bind_assoc, bind_assoc]
  rfl

theorem header_reaches {f : Except Err Header → Wrk17 α} {g : Unit → Wrk17 β} {h : Header}
    (ha : h.aad.length < 256 ^ 2) :
    Reaches (circuits aes compress) (readHeader.attempt >>= f) (f (.ok h)) (writeHeader h >>= g)
      (g ()) :=
  .of_scheduled <| header_scheduled ha |>.mono fun _ _ hr => ⟨hr, rfl⟩

theorem serveOne_reaches {g : Response → Wrk17 β} (hf : job.Fits) (ha : c.Authenticates aes w job) :
    Reaches (circuits aes compress) (runNotaryWorkerInner compress bincode w (fuel + 1) rs)
      (runNotaryWorkerInner compress bincode w fuel (rs ++ [(c.done aes w job).commit compress]))
      (c.serveOne job >>= g) (g (c.response aes w job)) := by
  rw [runNotaryWorkerInner_succ, serveOne_bind, response, if_pos ha]
  refine (header_reaches hf.aad).trans ?_
  simp only [if_pos job.isRecord]
  refine .of_scheduled (g := fun r => g ⟨job, r⟩) <| (record_scheduled hf ha).attempt.mono ?_
  rintro _ _ ⟨_, rfl, rfl, rfl⟩
  exact ⟨rfl, rfl⟩

-- The notary is left with the commit, of which the client writes nothing.
theorem operate_scheduled (hf : job.Fits) (ha : ¬c.Authenticates aes w job) :
    Scheduled (circuits aes compress) (w.operate job.header) (c.complete job).attempt
      fun _ r => r = .error (.other "AES-GCM authentication failed") := by
  have hl : (UInt32.ofNat job.text.length).toNat = job.text.length := by
    rw [UInt32.toNat_ofNat', Nat.mod_eq_of_lt hf.text]
  cases job
  case encrypt => exact absurd trivial ha
  case decrypt ciphertext tag aad seq =>
    have ho : w.operate (ClientJob.decrypt ciphertext tag aad seq).header =
        notaryDecryptGcm w.kNRx (tls13Nonce w.ivRx seq) aad.length ciphertext.length :=
      congrArg (notaryDecryptGcm w.kNRx (tls13Nonce w.ivRx seq) aad.length) hl
    rw [ho]
    intro m n
    obtain ⟨es, es', hn, hc, hs, hm⟩ := exists_decrypt_schedule aes compress w.kNRx c.kCRx
      (tls13Nonce w.ivRx seq) (tls13Nonce c.ivRx seq) aad ciphertext tag m n
    have hr : decryptOutcome aes (w.kNRx ^^^ c.kCRx) (tls13Nonce w.ivRx seq) aad ciphertext tag =
        .error (.other "AES-GCM authentication failed") := if_neg ha
    rw [hr] at hc
    exact ⟨_, _, es, es', rfl, hn, Run.attempt_iff.mpr ⟨_, Run.bind_error hc, rfl⟩, hs, hm⟩

theorem serveOne_reaches_commit {g : Response → Wrk17 β} (hf : job.Fits)
    (ha : ¬c.Authenticates aes w job) :
    Reaches (circuits aes compress) (runNotaryWorkerInner compress bincode w (fuel + 1) rs)
      (commitRecord compress job.header >>= fun r =>
        runNotaryWorkerInner compress bincode w fuel (rs ++ [r]))
      (c.serveOne job >>= g) (g (c.response aes w job)) := by
  rw [runNotaryWorkerInner_succ, serveOne_bind, response, if_neg ha]
  refine (header_reaches hf.aad).trans ?_
  simp only [if_pos job.isRecord]
  rw [Worker.record_eq, bind_assoc]
  exact .of_scheduled (g := fun r => g ⟨job, r⟩) <| operate_scheduled hf ha |>.mono
    fun _ _ hr => ⟨Subsingleton.elim _ (), hr⟩

-- The induction is on the jobs.
theorem mapM_serveOne_reaches {jobs : List ClientJob} {g : List Response → Wrk17 β}
    (hf : ∀ job ∈ jobs, job.Fits) (ha : ∀ job ∈ jobs, c.Authenticates aes w job) :
    Reaches (circuits aes compress) (runNotaryWorkerInner compress bincode w (fuel + jobs.length) rs)
      (runNotaryWorkerInner compress bincode w fuel
        (rs ++ jobs.map fun job => (c.done aes w job).commit compress))
      (jobs.mapM c.serveOne >>= g) (g (jobs.map (c.response aes w))) := by
  induction jobs generalizing rs g
  case nil              =>
    rw [List.map_nil, List.append_nil]
    exact .refl
  case cons job jobs hi =>
    rw [List.forall_mem_cons] at hf ha
    rw [List.mapM_cons, bind_assoc]
    refine (serveOne_reaches hf.left ha.left).trans ?_
    rw [bind_assoc]
    have h : Reaches _ (runNotaryWorkerInner compress bincode w (fuel + jobs.length)
        (rs ++ [(c.done aes w job).commit compress])) _ _ _ :=
      hi (g := fun rs => pure (c.response aes w job :: rs) >>= g) hf.right ha.right
    rw [List.append_assoc] at h
    exact h

theorem log_eq_map (h : ∀ job ∈ jobs, c.Authenticates aes w job) :
    c.log aes compress w jobs = jobs.map fun job => (c.done aes w job).commit compress := by
  rw [log, List.filter_eq_self.mpr (by simpa using h)]

-- Up to the first job that fails, the session is that of `session_logs_jobs`.
theorem spawn_reaches (compress : Arr 32 → Arr 64 → Arr 32) (bincode : Bincode) (fuel : Nat)
    (post : List ClientJob)
    (hf : ∀ job ∈ pre, job.Fits) (ha : ∀ job ∈ pre, c.Authenticates aes w job) :
    Reaches (circuits aes compress)
      (runNotaryWorkerAttested compress bincode w (fuel + pre.length))
      (runNotaryWorkerInner compress bincode w fuel (c.log aes compress w pre))
      (c.spawn (pre ++ post))
      (post.mapM c.serveOne >>= fun rs => pure (pre.map (c.response aes w) ++ rs)) := by
  have hi : Reaches (circuits aes compress)
      (runNotaryWorkerAttested compress bincode w (fuel + pre.length))
      (runNotaryWorkerInner compress bincode w (fuel + pre.length) []) (c.spawn (pre ++ post))
      (c.serve (pre ++ post)) :=
    .of_scheduled (a := ()) (b := ()) <| .session fun _ => ⟨(), rfl, rfl, rfl⟩
  have hs : c.serve (pre ++ post) = pre.mapM c.serveOne >>= fun rs =>
      post.mapM c.serveOne >>= fun rs' => pure (rs ++ rs') := List.mapM_append
  rw [log_eq_map ha, ←List.nil_append (pre.map _)]
  exact hi.trans (hs ▸ mapM_serveOne_reaches hf ha)

theorem Synchronised.of_steps {left : Wrk17 (Option NotaryBundle)}
    (hw : w.Waits compress bincode (c.log aes compress w jobs) left)
    (h : ∀ m, ∃ n, Exchange.Steps (circuits aes compress) m
      (.init (runNotaryWorkerAttested compress bincode w fuel) (c.spawn jobs))
      ⟨left, .pure (jobs.map (c.response aes w)), [], [], [], n, True⟩) :
    Synchronised aes compress bincode w c fuel jobs := by
  intro m
  have ⟨n, h⟩ := h m
  refine ⟨left, n, hw, fun s hs => ?_⟩
  have hf := h.of_stuck (hw.stuck _) hs
  exact ⟨hf.aligned trivial, hf⟩

theorem synchronised_of_forall (hf : ∀ job ∈ jobs, job.Fits)
    (ha : ∀ job ∈ jobs, c.Authenticates aes w job) (hfuel : jobs.length < fuel) :
    Synchronised aes compress bincode w c fuel jobs := by
  obtain ⟨n, rfl⟩ : ∃ n, fuel = n + 1 + jobs.length := ⟨fuel - jobs.length - 1, by omega⟩
  have hw : w.Waits compress bincode (c.log aes compress w jobs)
      (runNotaryWorkerInner compress bincode w (n + 1) (c.log aes compress w jobs)) := .header
  refine .of_steps hw fun m => ?_
  have ⟨j, h⟩ := spawn_reaches compress bincode (n + 1) [] hf ha m 0 True
  have hp : (([] : List ClientJob).mapM c.serveOne >>= fun rs =>
      pure (jobs.map (c.response aes w) ++ rs)) = .pure (jobs.map (c.response aes w)) :=
    congrArg Prog.pure (List.append_nil _)
  rw [List.append_nil, hp] at h
  exact ⟨j, h⟩

-- A job that fails as the last one leaves the notary with the commit.
theorem synchronised_of_last (hf : ∀ j ∈ pre ++ [job], j.Fits)
    (hp : ∀ job ∈ pre, c.Authenticates aes w job) (ha : ¬c.Authenticates aes w job)
    (hfuel : pre.length < fuel) :
    Synchronised aes compress bincode w c fuel (pre ++ [job]) := by
  obtain ⟨n, rfl⟩ : ∃ n, fuel = n + 1 + pre.length := ⟨fuel - pre.length - 1, by omega⟩
  obtain ⟨hf, hj⟩ := List.forall_mem_append.mp hf
  have hl : c.log aes compress w (pre ++ [job]) = c.log aes compress w pre := by
    simp [log, ha]
  have hr : Reaches (circuits aes compress)
      (runNotaryWorkerAttested compress bincode w (n + 1 + pre.length))
      (commitRecord compress job.header >>= fun r =>
        runNotaryWorkerInner compress bincode w n (c.log aes compress w pre ++ [r]))
      (c.spawn (pre ++ [job])) (.pure ((pre ++ [job]).map (c.response aes w))) := by
    refine (spawn_reaches compress bincode (n + 1) [job] hf hp).trans ?_
    rw [List.mapM_cons, bind_assoc, List.map_append]
    exact serveOne_reaches_commit (List.forall_mem_singleton.mp hj) ha
  by_cases hn : 0 < job.header.payloadLen.toNat
  case pos =>
    exact .of_steps (hl ▸ .commit hn) fun m => hr m 0 True
  case neg =>
    have hw : w.Waits compress bincode (c.log aes compress w (pre ++ [job]))
        (read .commitTag 16 >>= fun tag => runNotaryWorkerInner compress bincode w n
          (c.log aes compress w pre ++ [⟨job.header.op, job.header.seq, job.header.aad,
            Sha256.digest compress tag.toList⟩])) := hl ▸ .tag
    refine .of_steps hw fun m => ?_
    obtain ⟨j, h⟩ := hr m 0 True
    simp only [commitRecord, readCommit, bind_assoc, pure_bind] at h
    rw [Nat.eq_zero_of_not_pos hn] at h
    have h := h.tail (Step.readLeft #v[] rfl)
    exact ⟨j, h⟩

-- The notary takes the header of the next job for the commit of the one that has failed.
theorem commitRecord_out_of_step (header : Header) (k : RecordCommit → Wrk17 α)
    (k' : wrk17.Answer q → Wrk17 β) (x : Cell wrk17) (hc : x.1 ≠ .commit) (hg : x.1 ≠ .commitTag) :
    ∃ s, Exchange.Steps (circuits aes compress) m
        ⟨commitRecord compress header >>= k, .session q k', r, x :: t, [], i, p⟩ s ∧
      (s.aligned → ¬s.right.Halted ∧ ∀ s', ¬Step (circuits aes compress) m s s') := by
  unfold commitRecord readCommit
  generalize header.payloadLen.toNat = n
  cases n
  case zero =>
    obtain ⟨s, hs, h⟩ := Steps.out_of_step (n := 16) (by decide) hg
    exact ⟨s, .head (Step.readLeft #v[] rfl) hs, h⟩
  case succ n => exact Steps.out_of_step n.succ_pos hc

theorem complete_attempt_bind {g : Except Err job.Result → Wrk17 β} :
    ∃ q k, (c.complete job).attempt >>= g = .session q k := by
  cases job
  case encrypt => exact ⟨_, _, rfl⟩
  case decrypt => exact ⟨_, _, rfl⟩

theorem serveOne_out_of_step {k : RecordCommit → Wrk17 α} {g : Response → Wrk17 β} :
    ∃ s, Exchange.Steps (circuits aes compress) m
        ⟨commitRecord compress header >>= k, c.serveOne job >>= g, [], [], [], i, p⟩ s ∧
      (s.aligned → ¬s.right.Halted ∧ ∀ s', ¬Step (circuits aes compress) m s s') := by
  obtain ⟨q, k', hq⟩ := complete_attempt_bind (c := c) (g := fun r => g ⟨job, r⟩)
  obtain ⟨s, hs, h⟩ := commitRecord_out_of_step header k k' (.op, job.header.op) nofun nofun
  refine ⟨s, ?_, h⟩
  rw [serveOne_bind]
  refine ReflTransGen.head Step.writeRight <| .head Step.writeRight <| .head Step.writeRight <|
    .head Step.writeRight <| .head Step.writeRight ?_
  exact hq ▸ hs

theorem not_synchronised (hf : ∀ j ∈ pre ++ job :: next :: post, j.Fits)
    (hp : ∀ job ∈ pre, c.Authenticates aes w job) (ha : ¬c.Authenticates aes w job)
    (hfuel : pre.length < fuel) :
    ¬Synchronised aes compress bincode w c fuel (pre ++ job :: next :: post) := by
  intro h
  obtain ⟨n, rfl⟩ : ∃ n, fuel = n + 1 + pre.length := ⟨fuel - pre.length - 1, by omega⟩
  obtain ⟨hf, hj⟩ := List.forall_mem_append.mp hf
  obtain ⟨left, _, -, h⟩ := h default
  have hr := spawn_reaches compress bincode (n + 1) (job :: next :: post) hf hp
  rw [List.mapM_cons, bind_assoc] at hr
  have hr := hr.trans <| serveOne_reaches_commit (List.forall_mem_cons.mp hj).left ha
  rw [List.mapM_cons, bind_assoc, bind_assoc] at hr
  obtain ⟨j, hr⟩ := hr default 0 True
  obtain ⟨s, hs, hb⟩ := serveOne_out_of_step
  obtain ⟨hal, hs'⟩ := h s (hr.trans hs)
  obtain ⟨hn, hst⟩ := hb hal
  exact hn (Exchange.Steps.eq_of_stuck hs' hst ▸ .pure)

theorem exists_first_failure (h : ¬∀ job ∈ jobs, c.Authenticates aes w job) :
    ∃ pre job post, jobs = pre ++ job :: post ∧ (∀ j ∈ pre, c.Authenticates aes w j) ∧
      ¬c.Authenticates aes w job := by
  have hn : (jobs.find? fun job => !decide (c.Authenticates aes w job)) ≠ none := by
    simpa using h
  obtain ⟨job, hj⟩ := Option.ne_none_iff_exists'.mp hn
  obtain ⟨ha, pre, post, hl, hp⟩ := List.find?_eq_some_iff_append.mp hj
  exact ⟨pre, job, post, hl, by simpa using hp, by simpa using ha⟩

end ClientWorker

-- A session stays in step exactly if no job follows one that has failed.
theorem synchronised_iff (aes : Arr 16 → Arr 16 → Arr 16) (compress : Arr 32 → Arr 64 → Arr 32)
    (bincode : Bincode) (w : Worker ed) (c : ClientWorker) (jobs : List ClientJob)
    (hf : ∀ job ∈ jobs, job.Fits) (hfuel : jobs.length < fuel) :
    ClientWorker.Synchronised aes compress bincode w c fuel jobs ↔
    ∀ job ∈ jobs.dropLast, c.Authenticates aes w job := by
  by_cases h : ∀ job ∈ jobs, c.Authenticates aes w job
  case pos =>
    exact iff_of_true (ClientWorker.synchronised_of_forall hf h hfuel)
      fun job hj => h job (List.mem_of_mem_dropLast hj)
  case neg =>
    obtain ⟨pre, job, post, rfl, hp, ha⟩ := ClientWorker.exists_first_failure h
    have hl : pre.length < fuel := by
      rw [List.length_append] at hfuel
      omega
    cases post
    case nil =>
      rw [List.dropLast_concat]
      exact iff_of_true (ClientWorker.synchronised_of_last hf hp ha hl) hp
    case cons next post =>
      refine iff_of_false (ClientWorker.not_synchronised hf hp ha hl) fun h => ha (h job ?_)
      simp

-- A job that fails, as its tag is not that of the empty record, and the alert that follows it.
def failingJob : ClientJob :=
  .decrypt [] (.fill 16 1) [4] 0

def alertJob : ClientJob :=
  .encrypt [2, 40, 21] [5] 0

theorem failingJob_not_authenticates :
    ¬ClientWorker.Authenticates (fun _ _ => 0) echoWorker ⟨0, 0, 0, 0⟩ failingJob := by
  decide +kernel

theorem failingJob_alertJob_fit : ∀ j ∈ [failingJob, alertJob], j.Fits :=
  List.forall_mem_cons.mpr
    ⟨⟨by decide, by decide⟩, List.forall_mem_singleton.mpr ⟨by decide, by decide⟩⟩

theorem synchronised_iff_of_failing_job :
    ClientWorker.Synchronised (fun _ _ => 0) (fun _ _ => 0) ⟨fun _ => .ok [], fun _ => .error ""⟩
      echoWorker ⟨0, 0, 0, 0⟩ 3 [failingJob, alertJob] ↔
    ∀ job ∈ [failingJob, alertJob].dropLast,
      ClientWorker.Authenticates (fun _ _ => 0) echoWorker ⟨0, 0, 0, 0⟩ job :=
  synchronised_iff _ _ _ _ _ [failingJob, alertJob] failingJob_alertJob_fit (by decide)

theorem not_all_synchronised :
    ¬∀ (aes : Arr 16 → Arr 16 → Arr 16) (compress : Arr 32 → Arr 64 → Arr 32) (bincode : Bincode)
      (ed : Ed25519) (w : Worker ed) (c : ClientWorker) (fuel : Nat) (jobs : List ClientJob),
      (∀ job ∈ jobs, job.Fits) → jobs.length < fuel →
      ClientWorker.Synchronised aes compress bincode w c fuel jobs := by
  intro h
  have hs := h (fun _ _ => 0) (fun _ _ => 0) ⟨fun _ => .ok [], fun _ => .error ""⟩ _ echoWorker
    ⟨0, 0, 0, 0⟩ 3 _ failingJob_alertJob_fit (by decide)
  exact ClientWorker.not_synchronised failingJob_alertJob_fit (List.forall_mem_nil _)
    failingJob_not_authenticates (by decide) hs

end Notary
