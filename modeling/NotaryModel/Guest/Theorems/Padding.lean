import NotaryModel.Guest.Theorems.AppRecords

open Common

namespace Guest

-- The inner plaintext of a record with `n` bytes of padding.
def innerPlaintext (content : Bytes) (ty : Byte) (n : Nat) : Bytes :=
  content ++ [ty] ++ List.replicate n 0

theorem rdropWhile_innerPlaintext (ht : ty ≠ 0) :
    (innerPlaintext content ty n).rdropWhile (· == 0) = content ++ [ty] := by
  induction n
  case zero => simp [innerPlaintext, List.rdropWhile_concat_neg, ht]
  case succ n hi =>
    rw [innerPlaintext, List.replicate_succ', ←List.append_assoc,
      List.rdropWhile_concat_pos _ _ _ (by simp)]
    exact hi

theorem innerPlaintext_eq_iff : innerPlaintext content ty n = content ++ [ty] ↔ n = 0 := by
  simp [innerPlaintext, List.append_assoc]

section

variable {gcm : Gcm.Open} {key : Arr 16} {iv : Arr 12} {compress : Arr 32 → Arr 64 → Arr 32}
variable {bundle : NotaryBundle}

theorem opens_unique (h₁ : Opens gcm key iv seq r pt) (h₂ : Opens gcm key iv seq r pt') : pt = pt' := by
  rw [opens_iff] at h₁ h₂
  exact Option.some_inj.mp (h₁.right.symm.trans h₂.right)

theorem opens_congr (h : Opens gcm key iv seq r pt) : Opens gcm key iv seq r pt' ↔ pt = pt' where
  mp  := opens_unique h
  mpr := (· ▸ h)

-- The path with a notary strips the padding. The other one takes the last byte for the type.
theorem recovers_iff (hf : r.payload.length < 256 ^ 2) (ht : ty ≠ 0)
    (h : Opens gcm key bundle.ivRx seq r (innerPlaintext content ty n))
    (hc : Committed compress bundle seq r) :
    decryptRecord gcm key bundle.ivRx seq r = .ok (content, ty) ∧
    main.openAppRecord gcm key bundle.ivRx seq (recordToBytes r) = .ok (content, ty) ∧
    runNotaryPath.openRecord compress gcm bundle key seq r = .ok (content, ty) ↔
    n = 0 := by
  have hn : ∃ pt, Opens gcm key bundle.ivRx seq r pt ∧ pt.rdropWhile (· == 0) = content ++ [ty] :=
    ⟨_, h, rdropWhile_innerPlaintext ht⟩
  rw [decryptRecord_eq_ok_iff, openAppRecord_eq_ok_iff hf, openRecord_eq_ok_iff hf, opens_congr h,
    innerPlaintext_eq_iff]
  simp only [hn, and_true, and_self_left, and_iff_left_iff_imp]
  exact fun _ => hc

end

def bundleOfCommit (compress : Arr 32 → Arr 64 → Arr 32) (r : RawRecord) : NotaryBundle :=
  { (default : NotaryBundle) with
    ivRx    := 0
    records := [⟨0x02, 0, [], Sha256.digest compress r.payload⟩]
  }

theorem bundleOfCommit_committed : Committed compress (bundleOfCommit compress r) 0 r :=
  ⟨_, List.find?_cons_of_pos (by simp), rfl⟩

theorem recovers_iff_of_sample :
    let record := sampleRecord 0x61
    let bundle := bundleOfCommit (fun _ _ => 0) record
    decryptRecord sampleOpen 0 0 0 record = .ok ([0x61], 23) ∧
    main.openAppRecord sampleOpen 0 0 0 (recordToBytes record) = .ok ([0x61], 23) ∧
    runNotaryPath.openRecord (fun _ _ => 0) sampleOpen bundle 0 0 record = .ok ([0x61], 23) ↔
    0 = 0 :=
  recovers_iff (by decide) (by decide) (sampleOpen_opens (i := 0) rfl) bundleOfCommit_committed

-- One byte of padding after a byte of application data.
theorem not_recovers :
    ¬∀ (compress : Arr 32 → Arr 64 → Arr 32) (gcm : Gcm.Open) (bundle : NotaryBundle) (key : Arr 16)
      (seq : UInt64) (r : RawRecord) (content : Bytes) (ty : Byte) (n : Nat),
      r.payload.length < 256 ^ 2 → ty ≠ 0 →
      Opens gcm key bundle.ivRx seq r (innerPlaintext content ty n) →
      Committed compress bundle seq r →
      decryptRecord gcm key bundle.ivRx seq r = .ok (content, ty) ∧
      main.openAppRecord gcm key bundle.ivRx seq (recordToBytes r) = .ok (content, ty) ∧
      runNotaryPath.openRecord compress gcm bundle key seq r = .ok (content, ty) := by
  intro h
  let r : RawRecord := ⟨23, 0x0303, [0x61, 23, 0] ++ (0 : Arr 16).toList⟩
  let compress : Arr 32 → Arr 64 → Arr 32 := fun _ _ => 0
  have hr : Opens (fun _ _ _ ct _ => some ct) 0 0 0 r (innerPlaintext [0x61] 23 1) :=
    ⟨[0x61, 23, 0], 0, rfl, rfl⟩
  have ⟨hd, _, _⟩ := h compress _ (bundleOfCommit compress r) 0 0 r [0x61] 23 1 (by decide)
    (by decide) hr bundleOfCommit_committed
  have he := opens_unique hr (decryptRecord_eq_ok_iff.mp hd)
  exact absurd he (by decide)

end Guest
