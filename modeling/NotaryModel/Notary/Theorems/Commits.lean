import NotaryModel.Notary.Theorems.Frames

open Common

namespace Notary

open Bytes (blockCount)

variable {ed : Ed25519} {w : Worker ed} {compress : Arr 32 → Arr 64 → Arr 32} {bincode : Bincode}

-- What the worker has read inside the operation of a frame, cut to the length of its payload.
def Frame.received (f : Frame) : Bytes :=
  ((Event.reads f.body).flatMap (·.2)).take f.job.header.payloadLen.toNat

-- The operation of a decryption reads the blocks of the ciphertext and nothing else.
theorem Frame.Served.reads {f : Frame} (h : f.Served w) (hd : f.job.header.op = opDecrypt) :
    ∃ block : Nat → Arr 16, Event.reads f.body =
      (List.range (blockCount f.job.header.payloadLen.toNat)).map fun blk =>
        (.ciphertext blk, (block blk).toList) := by
  have hr := h.body
  rw [Worker.operate, if_neg (hd ▸ opDecrypt_ne_opEncrypt)] at hr
  obtain ⟨i, -, he⟩ := notaryDecryptGcm.denotes _ _ _ _ _ _ |>.mp hr
  exact ⟨fun blk => (i.round blk).2, he ▸ reads_notaryDecryptGcm⟩

theorem Frame.Served.length_received {f : Frame} (h : f.Served w)
    (hd : f.job.header.op = opDecrypt) : f.received.length = f.job.ct.length := by
  have ⟨block, hb⟩ := h.reads hd
  have hl : f.job.header.payloadLen.toNat ≤ blockCount f.job.header.payloadLen.toNat * 16 := by
    unfold blockCount
    omega
  simp [received, hb, List.length_flatMap, Function.comp_def, h.valid.ct, hl]

-- A hash value that is common to the two ciphertexts, each with a tag, is that of one string.
def NoCollision (compress : Arr 32 → Arr 64 → Arr 32) (ct ct' : Bytes) : Prop :=
  ∀ tag tag' : Arr 16, Sha256.digest compress (ct ++ tag.toList) =
    Sha256.digest compress (ct' ++ tag'.toList) → ct ++ tag.toList = ct' ++ tag'.toList

-- The commit is one to the ciphertext that was decrypted.
def Frame.CommitsToReceived (f : Frame) (compress : Arr 32 → Arr 64 → Arr 32) : Prop :=
  ∃ tag : Arr 16, (f.job.commit compress).commitHash =
    Sha256.digest compress (f.received ++ tag.toList)

theorem Frame.commitsToReceived_of_eq {f : Frame} (h : f.job.ct = f.received) :
    f.CommitsToReceived compress :=
  ⟨f.job.tag, by rw [←h]; rfl⟩

theorem Frame.Served.commitsToReceived_iff {f : Frame} (h : f.Served w)
    (hd : f.job.header.op = opDecrypt) (hc : NoCollision compress f.job.ct f.received) :
    f.CommitsToReceived compress ↔ f.job.ct = f.received where
  mp  | ⟨tag, ht⟩ => List.append_inj_left (hc f.job.tag tag ht) (h.length_received hd).symm
  mpr := Frame.commitsToReceived_of_eq

-- The hash reads the ciphertext anew from the client, so that it is up to the client which one is
-- committed to.
theorem decrypt_commits_iff (h : Run eof (runNotaryWorkerInner compress bincode w fuel []) es r) :
    ∃ frames begun, w.Serves compress bincode eof [] frames begun es r ∧
      (∀ b, r = .ok (some b) → b.records = frames.map (·.job.commit compress)) ∧
      ∀ f ∈ frames, f.job.header.op = opDecrypt →
        (f.job.ct = f.received → f.CommitsToReceived compress) ∧
        (NoCollision compress f.job.ct f.received →
          (f.CommitsToReceived compress ↔ f.job.ct = f.received)) := by
  have ⟨frames, begun, hs⟩ := runNotaryWorkerInner_serves h
  refine ⟨frames, begun, hs, ?log, fun f hf hd => ⟨?same, ?iff⟩⟩
  case log =>
    rintro b rfl
    exact hs.records_eq
  case same => exact Frame.commitsToReceived_of_eq
  case iff  => exact (hs.served f hf).commitsToReceived_iff hd

theorem workerOf_serves (compress : Arr 32 → Arr 64 → Arr 32) (msg : Bytes) (sid sn : String)
    {frames : List Frame} (hf : ∀ f ∈ frames, f.Served (workerOf msg))
    (hsid : (Bytes.ofString sid).length < 256 ^ 2) (hsn : (Bytes.ofString sn).length < 256 ^ 2) :
    ∃ es, (workerOf msg).Serves compress ⟨fun _ => .ok [], fun _ => .error ""⟩ False [] frames [] es
      (.ok (some (bundleOf sid sn (frames.map (·.job.commit compress))))) := by
  have hh : Run False readHeader _ _ := readHeader_run ⟨opFinish, 0, [], 0⟩ (by decide)
  exact ⟨_, hf, _, rfl, .finish hh rfl (Worker.finish_run _ rfl hsid hsn rfl)⟩

-- The decryption of a ciphertext of the byte `b`, followed by a commit to one of the byte `c`.
def decryptFrame (b c : Byte) : Frame where
  job  := ⟨⟨opDecrypt, 0, [], 1⟩, [c], 0⟩
  body := notaryDecryptGcm.events 0 (tls13Nonce 0 0) 0 1 ⟨0, 0, fun _ => (0, .ofBytes 16 [b]), 0⟩

theorem decryptFrame_served : (decryptFrame b c).Served (workerOf msg) where
  valid := ⟨.inr rfl, by simp [decryptFrame], rfl⟩
  body  := notaryDecryptGcm.denotes _ _ _ _ |>.run _

theorem decryptFrame_received : (decryptFrame b c).received = [b] := by
  simp [decryptFrame, Frame.received, reads_notaryDecryptGcm, blockCount]
  rfl

theorem decrypt_commits_iff_of_frame :
    let b := bundleOf "demo" "example.com" [(decryptFrame 1 1).job.commit fun _ _ => 0]
    ∃ es frames begun, (workerOf []).Serves (fun _ _ => 0) ⟨fun _ => .ok [], fun _ => .error ""⟩
      False [] frames begun es (.ok (some b)) ∧
      ∀ f ∈ frames, f.job.header.op = opDecrypt → f.job.ct = f.received →
        f.CommitsToReceived fun _ _ => 0 := by
  intro b
  have ⟨es, hs⟩ := workerOf_serves (fun _ _ => 0) [] "demo" "example.com"
    (List.forall_mem_singleton.mpr (decryptFrame_served (b := 1) (c := 1))) (by decide) (by decide)
  have ⟨frames, begun, hs, _, hc⟩ := decrypt_commits_iff (hs.run (Nat.lt_succ_self _) nofun)
  exact ⟨es, frames, begun, hs, fun f hf hd => (hc f hf hd).left⟩

-- The client has one ciphertext decrypted and another one committed to.
theorem not_decrypt_commits :
    ¬∀ (ed : Ed25519) (w : Worker ed) (compress : Arr 32 → Arr 64 → Arr 32) (bincode : Bincode)
      (fuel : Nat) (es : List (Event wrk17)) (b : NotaryBundle) (frames : List Frame)
      (begun : List Header),
      Run False (runNotaryWorkerInner compress bincode w fuel []) es (.ok (some b)) →
      w.Serves compress bincode False [] frames begun es (.ok (some b)) →
      ∀ f ∈ frames, f.job.header.op = opDecrypt → f.CommitsToReceived compress := by
  intro h
  let compress : Arr 32 → Arr 64 → Arr 32 := fun _ b => .ofBytes 32 b.toList
  have ⟨es, hs⟩ := workerOf_serves compress [] "demo" "example.com"
    (List.forall_mem_singleton.mpr (decryptFrame_served (b := 1) (c := 2))) (by decide) (by decide)
  have ⟨tag, ht⟩ := h _ _ _ _ _ es _ _ _ (hs.run (Nat.lt_succ_self _) nofun) hs _ (.head _) rfl
  have hd {b : Byte} {tag : Arr 16} : (Sha256.digest compress ([b] ++ tag.toList))[0] = b := by
    rw [Sha256.digest_of_length_le (by simp)]
    simp [compress, Sha256.pad]
  have hb : (2 : Byte) = 1 := by
    rw [decryptFrame_received] at ht
    exact hd.symm.trans <| (congrArg (·[0]) ht).trans hd
  exact absurd hb (by decide)

end Notary
