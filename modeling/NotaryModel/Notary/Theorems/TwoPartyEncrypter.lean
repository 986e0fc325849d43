import NotaryModel.Notary.Theorems.FailedDecrypt
import NotaryModel.Notary.Theorems.Transcript

open Common Exchange

namespace Notary

namespace TwoPartyEncrypter

open Tls ClientWorker

variable {aes : Arr 16 → Arr 16 → Arr 16} {compress : Arr 32 → Arr 64 → Arr 32}
variable {ed : Ed25519} {bincode : Bincode} {w : Worker ed} {c : ClientWorker}
  {msg : OutboundPlainMessage} {calls : List (OutboundPlainMessage × UInt64)}

-- The message as a TLS 1.3 record under the common key.
def record (aes : Arr 16 → Arr 16 → Arr 16) (w : Worker ed) (c : ClientWorker)
    (call : OutboundPlainMessage × UInt64) : RawRecord :=
  sealRecord (Gcm.encrypt aes ghashMulReference) (w.kNTx ^^^ c.kCTx) w.ivTx call.2
    (call.1.payload ++ [call.1.typ])

def commit (aes : Arr 16 → Arr 16 → Arr 16) (compress : Arr 32 → Arr 64 → Arr 32) (w : Worker ed)
    (c : ClientWorker) (call : OutboundPlainMessage × UInt64) : RecordCommit where
  op         := opEncrypt
  seq        := call.2
  aad        := protectedHeader (record aes w c call).payload.length
  commitHash := Sha256.digest compress (record aes w c call).payload

theorem fits_job (h : msg.payload.length + 1 < 2 ^ 32) : (job msg seq).Fits where
  aad  := show 5 < 256 ^ 2 by decide
  text := by simpa [job, ClientJob.text] using h

theorem outboundMessage_result : outboundMessage (c.result aes w (job msg seq)) =
    record aes w c (msg, seq) := by
  have hl : protectedHeader ((msg.payload ++ [msg.typ]).length + 16) =
      tls13Aad (encryptedPayloadLen msg.payload.length) := by
    rw [List.length_append]
    rfl
  rw [record, sealRecord, hl]
  rfl

theorem commit_done :
    (c.done aes w (job msg seq)).commit compress = commit aes compress w c (msg, seq) := by
  have hl : (record aes w c (msg, seq)).payload.length =
      encryptedPayloadLen msg.payload.length := by
    rw [record, length_sealRecord Gcm.encrypt_correct, List.length_append]
    rfl
  rw [commit, hl, ←outboundMessage_result]
  rfl

theorem encrypt_bind {g : Except Err RawRecord → Wrk17 β} : encrypt c msg seq >>= g =
    writeHeader (job msg seq).header >>= fun _ =>
      (c.complete (job msg seq)).attempt >>= fun r => g (r.map outboundMessage) := by
  have h : (c.perform (job msg seq)).attempt =
      writeHeader (job msg seq).header >>= fun _ => (c.complete (job msg seq)).attempt := rfl
  rw [encrypt, h, bind_assoc, bind_assoc]
  rfl

-- One call: the notary has logged the record that the caller gets.
theorem encrypt_reaches {g : Except Err RawRecord → Wrk17 β}
    (hf : msg.payload.length + 1 < 2 ^ 32) :
    Reaches (circuits aes compress) (runNotaryWorkerInner compress bincode w (fuel + 1) rs)
      (runNotaryWorkerInner compress bincode w fuel (rs ++ [commit aes compress w c (msg, seq)]))
      (encrypt c msg seq >>= g) (g (.ok (record aes w c (msg, seq)))) := by
  have hj : (job msg seq).Fits := fits_job hf
  rw [runNotaryWorkerInner_succ, encrypt_bind, ←commit_done, ←outboundMessage_result]
  refine (header_reaches hj.aad).trans ?_
  simp only [if_pos (job msg seq).isRecord]
  refine .of_scheduled (b := .ok (c.result aes w (job msg seq)))
    (g := fun r => g (r.map outboundMessage)) <| (record_scheduled hj trivial).attempt.mono ?_
  rintro _ _ ⟨_, rfl, rfl, rfl⟩
  exact ⟨rfl, rfl⟩

-- The induction is on the calls.
theorem mapM_encrypt_reaches {g : List (Except Err RawRecord) → Wrk17 β}
    (hf : ∀ call ∈ calls, call.1.payload.length + 1 < 2 ^ 32) :
    Reaches (circuits aes compress)
      (runNotaryWorkerInner compress bincode w (fuel + calls.length) rs)
      (runNotaryWorkerInner compress bincode w fuel (rs ++ calls.map (commit aes compress w c)))
      (calls.mapM (fun (msg, seq) => encrypt c msg seq) >>= g)
      (g (calls.map fun call => .ok (record aes w c call))) := by
  induction calls generalizing rs g
  case nil              =>
    rw [List.map_nil, List.append_nil]
    exact .refl
  case cons call calls hi =>
    rw [List.forall_mem_cons] at hf
    rw [List.mapM_cons, bind_assoc]
    refine (encrypt_reaches hf.left).trans ?_
    rw [bind_assoc]
    have h : Reaches _ (runNotaryWorkerInner compress bincode w (fuel + calls.length)
        (rs ++ [commit aes compress w c call])) _ _ _ :=
      hi (g := fun rs => pure (.ok (record aes w c call) :: rs) >>= g) hf.right
    rw [List.append_assoc] at h
    exact h

variable (bincode w) in
theorem session_reaches (fuel : Nat) (hf : ∀ call ∈ calls, call.1.payload.length + 1 < 2 ^ 32) :
    Reaches (circuits aes compress)
      (runNotaryWorkerAttested compress bincode w (fuel + calls.length))
      (runNotaryWorkerInner compress bincode w fuel (calls.map (commit aes compress w c)))
      (session c calls) (.pure (calls.map fun call => .ok (record aes w c call))) := by
  have hi : Reaches (circuits aes compress)
      (runNotaryWorkerAttested compress bincode w (fuel + calls.length))
      (runNotaryWorkerInner compress bincode w (fuel + calls.length) []) (session c calls)
      (calls.mapM fun (msg, seq) => encrypt c msg seq) :=
    .of_scheduled (a := ()) (b := ()) <| .session fun _ => ⟨(), rfl, rfl, rfl⟩
  rw [←Prog.bind_pure (calls.mapM _)] at hi
  exact hi.trans (mapM_encrypt_reaches hf)

end TwoPartyEncrypter

open TwoPartyEncrypter

-- Whatever the connection sends through the notary are records of TLS 1.3 under the common key: the
-- server opens them to the messages, and the log of the notary has the hashes of exactly them.
theorem twoPartyEncrypter_seals (aes : Arr 16 → Arr 16 → Arr 16)
    (compress : Arr 32 → Arr 64 → Arr 32) (bincode : Bincode) (w : Worker ed) (c : ClientWorker)
    (calls : List (OutboundPlainMessage × UInt64))
    (hf : ∀ call ∈ calls, call.1.payload.length + 1 < 2 ^ 32) (hfuel : calls.length < fuel) :
    (∀ call ∈ calls, decryptHsRecord (Gcm.decrypt aes ghashMulReference) (w.kNTx ^^^ c.kCTx) w.ivTx
      call.2 (record aes w c call) = some (call.1.payload, call.1.typ)) ∧
    ∀ m, ∃ left n, w.Waits compress bincode (calls.map (commit aes compress w c)) left ∧ ∀ s,
      Exchange.Steps (circuits aes compress) m
        (.init (runNotaryWorkerAttested compress bincode w fuel) (session c calls)) s →
      s.aligned ∧ Exchange.Steps (circuits aes compress) m s
        ⟨left, .pure (calls.map fun call => .ok (record aes w c call)), [], [], [], n, True⟩ := by
  refine ⟨fun call _ => decryptHsRecord_sealRecord Gcm.encrypt_correct, fun m => ?_⟩
  obtain ⟨k, rfl⟩ : ∃ k, fuel = k + 1 + calls.length := ⟨fuel - calls.length - 1, by omega⟩
  obtain ⟨n, h⟩ := session_reaches bincode w (k + 1) hf m 0 True
  have hw : w.Waits compress bincode (calls.map (commit aes compress w c))
      (runNotaryWorkerInner compress bincode w (k + 1) (calls.map (commit aes compress w c))) :=
    .header
  refine ⟨_, n, hw, fun s hs => ?_⟩
  have hs := h.of_stuck (hw.stuck _) hs
  exact ⟨hs.aligned trivial, hs⟩

theorem twoPartyEncrypter_seals_of_request :
    let aes : Arr 16 → Arr 16 → Arr 16 := fun _ _ => 0
    let c : ClientWorker := ⟨0, 0, 0, 0⟩
    let calls : List (OutboundPlainMessage × UInt64) := [(⟨23, [0x47]⟩, 0), (⟨21, [1, 0]⟩, 1)]
    (∀ call ∈ calls, decryptHsRecord (Gcm.decrypt aes ghashMulReference)
      (echoWorker.kNTx ^^^ c.kCTx) echoWorker.ivTx call.2 (record aes echoWorker c call) =
        some (call.1.payload, call.1.typ)) ∧
    ∀ m, ∃ left n, echoWorker.Waits (fun _ _ => 0) ⟨fun _ => .ok [], fun _ => .error ""⟩
        (calls.map (commit aes (fun _ _ => 0) echoWorker c)) left ∧ ∀ s,
      Exchange.Steps (circuits aes fun _ _ => 0) m
        (.init (runNotaryWorkerAttested (fun _ _ => 0) ⟨fun _ => .ok [], fun _ => .error ""⟩
          echoWorker 3) (session c calls)) s →
      s.aligned ∧ Exchange.Steps (circuits aes fun _ _ => 0) m s
        ⟨left, .pure (calls.map fun call => .ok (record aes echoWorker c call)), [], [], [], n,
          True⟩ :=
  twoPartyEncrypter_seals _ _ _ _ _ _ (by decide) (by decide)

end Notary
