import NotaryModel.Notary.Theorems.Frames

open Common

namespace Notary

variable {ed : Ed25519} {w : Worker ed} {compress : Arr 32 → Arr 64 → Arr 32} {bincode : Bincode}

theorem tls13Nonce_inj (h : tls13Nonce iv a = tls13Nonce iv b) : a = b :=
  Arr.xor_copyAt_inj h

def Header.name (h : Header) : Byte × UInt64 :=
  (h.op, h.seq)

theorem nodup_nonce_iff {headers : List Header} :
    (headers.map fun h => (h.op, w.nonce h)).Nodup ↔ (headers.map Header.name).Nodup := by
  have h (h₁ h₂ : Header) : (h₁.op, w.nonce h₁) = (h₂.op, w.nonce h₂) ↔ h₁.name = h₂.name := by
    simp only [Header.name, Prod.mk.injEq, and_congr_right_iff]
    intro ho
    rw [Worker.nonce, Worker.nonce, ho]
    exact ⟨tls13Nonce_inj, congrArg _⟩
  simp only [List.Nodup, List.pairwise_map, ne_eq, h]

-- What the guest finds in a log without repeated names.
theorem find?_commit {frames : List Frame} (hn : (frames.map (·.job.header.name)).Nodup)
    (hf : f ∈ frames) : (frames.map (·.job.commit compress)).find? (fun r =>
      r.op = f.job.header.op ∧ r.seq = f.job.header.seq) = some (f.job.commit compress) := by
  induction frames
  case nil => cases hf
  case cons f' frames hi =>
    rw [List.map_cons, List.nodup_cons] at hn
    obtain rfl | hf := List.mem_cons.mp hf
    · exact List.find?_cons_of_pos (by simp [Job.commit])
    · have hne : f'.job.header.name ≠ f.job.header.name :=
        fun he => hn.left (he ▸ List.mem_map_of_mem hf)
      rw [List.map_cons, List.find?_cons_of_neg]
      · exact hi hn.right hf
      · exact fun h => hne <| Prod.ext_iff.mpr <| of_decide_eq_true h

-- The worker serves each frame under the name that it carries. Whether a name, and with it a nonce, is
-- used twice is up to the client.
theorem serves_once_iff (h : Run eof (runNotaryWorkerInner compress bincode w fuel []) es r) :
    ∃ frames begun, w.Serves compress bincode eof [] frames begun es r ∧
      (∀ b, r = .ok (some b) → b.records = frames.map (·.job.commit compress)) ∧
      (((frames.map (·.job.header) ++ begun).map fun h => (h.op, w.nonce h)).Nodup ↔
        ((frames.map (·.job.header) ++ begun).map Header.name).Nodup) ∧
      ((frames.map (·.job.header.name)).Nodup → ∀ b, r = .ok (some b) → ∀ f ∈ frames,
        b.records.find? (fun r => r.op = f.job.header.op ∧ r.seq = f.job.header.seq) =
        some (f.job.commit compress)) := by
  have ⟨frames, begun, hs⟩ := runNotaryWorkerInner_serves h
  refine ⟨frames, begun, hs, ?log, nodup_nonce_iff, ?find⟩
  case log =>
    rintro b rfl
    exact hs.records_eq
  case find =>
    rintro hn b rfl f hf
    rw [hs.records_eq]
    exact find?_commit hn hf

theorem serves_once_iff_of_two_frames :
    let jobs : List Job := [⟨⟨opEncrypt, 0, [], 1⟩, [1], 0⟩, ⟨⟨opDecrypt, 0, [], 1⟩, [2], 0⟩]
    let b := bundleOf "demo" "example.com" (jobs.map (·.commit fun _ _ => 0))
    ∃ es frames begun, (workerOf []).Serves (fun _ _ => 0) ⟨fun _ => .ok [], fun _ => .error ""⟩
      False [] frames begun es (.ok (some b)) ∧
      b.records = frames.map (·.job.commit fun _ _ => 0) := by
  intro jobs b
  have ⟨es, hr⟩ := workerOf_run (fun _ _ => 0) [] "demo" "example.com" jobs (by decide) (by decide)
    (by decide)
  have ⟨frames, begun, hs, hb, _⟩ := serves_once_iff hr
  exact ⟨es, frames, begun, hs, hb b rfl⟩

-- Two decryptions under one sequence number, with different commits.
theorem not_serves_once :
    ¬∀ (ed : Ed25519) (w : Worker ed) (compress : Arr 32 → Arr 64 → Arr 32) (bincode : Bincode)
      (fuel : Nat) (es : List (Event wrk17)) (b : NotaryBundle),
      Run False (runNotaryWorkerInner compress bincode w fuel []) es (.ok (some b)) →
      ∀ r ∈ b.records, ∀ r' ∈ b.records, r.op = r'.op → r.seq = r'.seq →
        r.commitHash = r'.commitHash := by
  intro h
  let compress : Arr 32 → Arr 64 → Arr 32 := fun _ b => .ofBytes 32 b.toList
  let j : Job := ⟨⟨opDecrypt, 0, [], 1⟩, [1], 0⟩
  let j' : Job := ⟨⟨opDecrypt, 0, [], 1⟩, [2], 0⟩
  have ⟨es, hr⟩ := workerOf_run compress [] "demo" "example.com" [j, j'] (by decide) (by decide)
    (by decide)
  have he : (j.commit compress).commitHash = (j'.commit compress).commitHash :=
    h _ _ _ _ _ es _ hr _ (.head _) _ (.tail _ (.head _)) rfl rfl
  exact absurd he (by decide)

end Notary
