import NotaryModel.Guest.Main
import NotaryModel.Guest.NotaryPath

open Common

namespace Guest

open Exec (index range bind_eq_ok_iff)

theorem xorNonce_inj (h : xorNonce iv a = xorNonce iv b) : a = b :=
  Arr.xor_copyAt_inj h

theorem range_eq_ok_iff : range bs a b = .ok s ↔ (a ≤ b ∧ b ≤ bs.length) ∧ bs.slice a b = s := by
  unfold range
  split_ifs with h <;> simp [h, Exec.abort]

theorem eq_append_tag_iff {payload ct : Bytes} {tag : Arr 16} : payload = ct ++ tag.toList ↔
    16 ≤ payload.length ∧ payload.take (payload.length - 16) = ct ∧
      Arr.ofBytes 16 (payload.drop (payload.length - 16)) = tag := by
  constructor
  · rintro rfl
    simp
  · rintro ⟨hl, rfl, rfl⟩
    rw [Arr.toList_ofBytes (by simp; omega), List.take_append_drop]

theorem splitTag_eq_ok_iff (h : payload.length < 256 ^ 2) :
    splitTag payload = .ok (buf, tag) ↔ payload = buf ++ tag.toList := by
  rw [eq_append_tag_iff]
  simp only [splitTag, bind_eq_ok_iff, range_eq_ok_iff]
  by_cases hl : 16 ≤ payload.length
  · have hs : usize (payload.length + 2 ^ 64 - 16) = payload.length - 16 := by
      unfold usize
      omega
    have ht : Bytes.slice payload (payload.length - 16) payload.length =
        payload.drop (payload.length - 16) := List.take_of_length_le (by simp)
    rw [hs, ht]
    simp [hl, Bytes.slice, pure, Except.pure]
  · have hs : payload.length < usize (payload.length + 2 ^ 64 - 16) := by
      unfold usize
      omega
    simp only [Nat.not_le.mpr hs, hl]
    simp

-- The plaintext that `gcm` opens a record to under sequence number `seq`.
def Opens (gcm : Gcm.Open) (key : Arr 16) (iv : Arr 12) (seq : UInt64) (r : RawRecord)
    (pt : Bytes) : Prop :=
  ∃ ct tag, r.payload = ct ++ tag.toList ∧
    gcm key (xorNonce iv seq) (recordAad r.contentType r.legacyVersion r.payload) ct tag = some pt

-- The notary has committed to the record under `seq`.
def Committed (compress : Arr 32 → Arr 64 → Arr 32) (bundle : NotaryBundle) (seq : UInt64)
    (r : RawRecord) : Prop :=
  ∃ br, bundle.records.find? (fun br => br.op = 0x02 ∧ br.seq = seq) = some br ∧
    Sha256.digest compress r.payload = br.commitHash

-- All records fit their length field.
def Fit (rs : List RawRecord) : Prop :=
  ∀ r ∈ rs, r.payload.length < 256 ^ 2

instance : DecidablePred Fit :=
  fun rs => inferInstanceAs (Decidable (∀ r ∈ rs, r.payload.length < 256 ^ 2))

theorem popLast_iff {buf content : Bytes} :
    (∃ b, buf.getLast? = some b ∧ (pure (buf.dropLast, b) : Exec _) = .ok (content, ty)) ↔
    buf = content ++ [ty] := by
  constructor
  · rintro ⟨b, hb, h⟩
    cases h
    exact (List.dropLast_append_getLast? _ hb).symm
  · rintro rfl
    exact ⟨ty, by simp, by simp; rfl⟩

section

variable {gcm : Gcm.Open} {key : Arr 16} {iv : Arr 12} {compress : Arr 32 → Arr 64 → Arr 32}
variable {bundle : NotaryBundle}

theorem openAppRecord_eq_ok_iff (h : r.payload.length < 256 ^ 2) :
    main.openAppRecord gcm key iv seq (recordToBytes r) = .ok (content, ty) ↔
    Opens gcm key iv seq r (content ++ [ty]) := by
  have ⟨v₀, v₁, hv⟩ := RawRecord.be_two_eq r.legacyVersion.toNat
  have ⟨l₀, l₁, hl⟩ := RawRecord.be_two_eq r.payload.length
  have hb : recordToBytes r = r.contentType :: v₀ :: v₁ :: l₀ :: l₁ :: r.payload := by
    simp [recordToBytes, RawRecord.toBytes, hv, hl]
  have hver : UInt16.ofNat (Bytes.ofBe [v₀, v₁]) = r.legacyVersion := by
    rw [←hv, Bytes.ofBe_be_of_lt r.legacyVersion.toNat_lt, UInt16.ofNat_toNat]
  have hs : Bytes.slice (r.contentType :: v₀ :: v₁ :: l₀ :: l₁ :: r.payload) 1 3 = [v₀, v₁] := rfl
  simp only [main.openAppRecord, hb, bind_eq_ok_iff, hs, hver, List.drop_succ_cons, List.drop_zero,
    Exec.assert_eq_ok_iff, Exec.index_eq_ok_iff, Prod.exists, splitTag_eq_ok_iff h,
    Exec.expect_eq_ok_iff, popLast_iff, Opens]
  constructor
  · rintro ⟨_, -, _, ⟨⟩, ct, tag, hp, _, ho, rfl⟩
    exact ⟨ct, tag, hp, ho⟩
  · rintro ⟨ct, tag, hp, ho⟩
    exact ⟨(), by simp, _, rfl, ct, tag, hp, _, ho, rfl⟩

theorem opens_iff : Opens gcm key iv seq r pt ↔ 16 ≤ r.payload.length ∧
    gcm key (xorNonce iv seq) (recordAad r.contentType r.legacyVersion r.payload)
      (r.payload.take (r.payload.length - 16))
      (.ofBytes 16 (r.payload.drop (r.payload.length - 16))) = some pt := by
  simp [Opens, eq_append_tag_iff, and_assoc]

theorem decryptRecord_eq_ok_iff : decryptRecord gcm key iv seq r = .ok (content, ty) ↔
    Opens gcm key iv seq r (content ++ [ty]) := by
  rw [opens_iff]
  unfold decryptRecord
  by_cases hl : 16 ≤ r.payload.length
  · simp only [Nat.not_lt.mpr hl, if_false, hl, true_and]
    split
    case h_1 h => simp [h]
    case h_2 buf h =>
      rw [h, Option.some_inj, ←popLast_iff]
      cases buf.getLast? <;> simp [pure, Except.pure]
  · simp [hl, Nat.lt_of_not_le hl]

theorem openRecord_eq_ok_iff (h : r.payload.length < 256 ^ 2) :
    runNotaryPath.openRecord compress gcm bundle key seq r = .ok (content, ty) ↔
    Committed compress bundle seq r ∧
    ∃ pt, Opens gcm key bundle.ivRx seq r pt ∧ pt.rdropWhile (· == 0) = content ++ [ty] := by
  simp only [runNotaryPath.openRecord, bind_eq_ok_iff, Exec.assert_eq_ok_iff, Prod.exists,
    splitTag_eq_ok_iff h, Exec.expect_eq_ok_iff, popLast_iff, Opens, Committed]
  constructor
  · rintro ⟨br, hb, _, hc, ct, tag, hp, pt, ho, hd⟩
    exact ⟨⟨br, hb, hc⟩, pt, ⟨ct, tag, hp, ho⟩, hd⟩
  · rintro ⟨⟨br, hb, hc⟩, pt, ⟨ct, tag, hp, ho⟩, hd⟩
    exact ⟨br, hb, (), hc, ct, tag, hp, pt, ho, hd⟩

-- Both loops count the records that they open.

theorem appRecords_opens (hf : Fit rs)
    (h : main.appRecords gcm key iv (rs.map recordToBytes) n = .ok pt) (hk : rs[k]? = some r) :
    ∃ pt, Opens gcm key iv (.ofNat (n + k)) r pt := by
  induction rs generalizing n k pt
  case nil          => cases hk
  case cons r₀ rs hi =>
    rw [Fit, List.forall_mem_cons] at hf
    simp only [List.map_cons, main.appRecords, bind_eq_ok_iff, Prod.exists,
      openAppRecord_eq_ok_iff hf.left] at h
    have ⟨_, _, ho, _, h, _⟩ := h
    cases k
    case zero =>
      cases hk
      exact ⟨_, ho⟩
    case succ k =>
      rw [Nat.add_comm k, ←Nat.add_assoc]
      exact hi hf.right h hk

theorem records_opens (hf : Fit rs)
    (h : runNotaryPath.records compress gcm bundle key rs (.ofNat n) = .ok pt)
    (hk : (rs.filter (·.contentType == 23))[k]? = some r) :
    ∃ pt, Opens gcm key bundle.ivRx (.ofNat (n + k)) r pt := by
  induction rs generalizing n k pt
  case nil          => cases hk
  case cons r₀ rs hi =>
    rw [Fit, List.forall_mem_cons] at hf
    rw [runNotaryPath.records] at h
    by_cases ht : r₀.contentType = 23
    · rw [if_neg (not_not.mpr ht)] at h
      simp only [bind_eq_ok_iff, Prod.exists, openRecord_eq_ok_iff hf.left] at h
      have ⟨_, _, ⟨_, _, ho, _⟩, _, h, _⟩ := h
      have hn : UInt64.ofNat n + 1 = .ofNat (n + 1) := (UInt64.ofNat_add n 1).symm
      rw [hn] at h
      rw [List.filter_cons_of_pos (by simpa using ht)] at hk
      cases k
      case zero =>
        cases hk
        exact ⟨_, ho⟩
      case succ k =>
        rw [Nat.add_comm k, ←Nat.add_assoc]
        exact hi hf.right h hk
    · rw [if_pos ht] at h
      rw [List.filter_cons_of_neg (by simpa using ht)] at hk
      exact hi hf.right h hk

-- The sender has sealed the records `sent` under `key`, record `i` with the nonce for `i`, and `gcm`
-- opens nothing else.
def Ideal (gcm : Gcm.Open) (key : Arr 16) (iv : Arr 12) (sent : List RawRecord) : Prop :=
  ∀ nonce aad ct tag pt, gcm key nonce aad ct tag = some pt →
    ∃ i s, i < 2 ^ 64 ∧ sent[i]? = some s ∧ nonce = xorNonce iv (.ofNat i) ∧
      aad = recordAad s.contentType s.legacyVersion s.payload ∧ ct ++ tag.toList = s.payload

theorem Ideal.eq_of_opens (h : Ideal gcm key iv sent) (hn : n < 2 ^ 64)
    (ho : Opens gcm key iv (.ofNat n) r pt) : sent[n]? = some r := by
  obtain ⟨ct, tag, hp, ho⟩ := ho
  obtain ⟨i, s, hi, hs, hnonce, haad, hpayload⟩ := h _ _ _ _ _ ho
  have hni : n = i := by
    have h := congrArg UInt64.toNat (xorNonce_inj hnonce)
    rwa [UInt64.toNat_ofNat', UInt64.toNat_ofNat', Nat.mod_eq_of_lt hn, Nat.mod_eq_of_lt hi] at h
  rw [hni, hs]
  rw [←hp] at hpayload
  simp only [recordAad, hpayload, List.append_left_inj] at haad
  obtain ⟨ht, hv⟩ := List.append_inj haad rfl
  have hv := UInt16.toNat_inj.mp (Bytes.be_inj_of_lt r.legacyVersion.toNat_lt s.legacyVersion.toNat_lt hv)
  cases r
  cases s
  simp_all

theorem Ideal.isPrefix (h : Ideal gcm key iv sent) (hl : rs.length ≤ 2 ^ 64)
    (ho : ∀ k r, rs[k]? = some r → ∃ pt, Opens gcm key iv (.ofNat (0 + k)) r pt) :
    rs <+: sent := by
  rw [List.prefix_iff_getElem?]
  intro k hk
  obtain ⟨pt, ho⟩ := ho k rs[k] (List.getElem?_eq_getElem hk)
  rw [Nat.zero_add] at ho
  exact h.eq_of_opens (by omega) ho

-- The records that are processed are the first ones that were sent, each in its place.
theorem processed_isPrefix (h : Ideal gcm key iv sent) (hf : Fit rs) (hl : rs.length ≤ 2 ^ 64) :
    (∀ pt, main.appRecords gcm key iv (rs.map recordToBytes) 0 = .ok pt → rs <+: sent) ∧
    (∀ compress bundle pt, bundle.ivRx = iv →
      runNotaryPath.records compress gcm bundle key rs 0 = .ok pt →
      rs.filter (·.contentType == 23) <+: sent) where
  left _ hp := h.isPrefix hl fun _ _ => appRecords_opens hf hp
  right _ _ _ hiv hp := by
    subst hiv
    exact h.isPrefix ((List.length_filter_le _ _).trans hl) fun _ _ =>
      records_opens (n := 0) hf hp

end

-- A record with one byte of application data.
def sampleRecord (c : Byte) : RawRecord :=
  ⟨23, 0x0303, [c, 23] ++ (0 : Arr 16).toList⟩

def sampleRecords : List RawRecord :=
  [sampleRecord 0x61, sampleRecord 0x62, sampleRecord 0x63]

-- It opens each of the sample records in its place, without a cipher.
def sampleOpen : Gcm.Open := fun _ nonce aad ct tag =>
  if ∃ x ∈ sampleRecords.zipIdx, nonce = xorNonce 0 (.ofNat x.2) ∧
      aad = recordAad x.1.contentType x.1.legacyVersion x.1.payload ∧
      ct ++ tag.toList = x.1.payload then
    some ct
  else
    none

-- The notary has committed to the first two of them.
def sampleCommits (compress : Arr 32 → Arr 64 → Arr 32) : NotaryBundle :=
  let commit (seq : UInt64) (r : RawRecord) : RecordCommit :=
    ⟨0x02, seq, [], Sha256.digest compress r.payload⟩
  { (default : NotaryBundle) with
    records := [commit 0 (sampleRecord 0x61), commit 1 (sampleRecord 0x62)] }

theorem sampleCommits_zero : Committed compress (sampleCommits compress) 0 (sampleRecord 0x61) :=
  ⟨_, List.find?_cons_of_pos (by simp), rfl⟩

theorem sampleCommits_one : Committed compress (sampleCommits compress) 1 (sampleRecord 0x62) := by
  have h : (sampleCommits compress).records.find? (fun br => br.op = 0x02 ∧ br.seq = 1) =
      some ⟨0x02, 1, [], Sha256.digest compress (sampleRecord 0x62).payload⟩ := by
    rw [sampleCommits, List.find?_cons_of_neg (by simp), List.find?_cons_of_pos (by simp)]
  exact ⟨_, h, rfl⟩

theorem sampleOpen_ideal : Ideal sampleOpen 0 0 sampleRecords := by
  intro nonce aad ct tag pt h
  simp only [sampleOpen, Option.ite_none_right_eq_some] at h
  obtain ⟨⟨⟨s, i⟩, hm, hn, ha, hp⟩, -⟩ := h
  have hs := List.mk_mem_zipIdx_iff_getElem?.mp hm
  have hi : i < 3 := (List.getElem?_eq_some_iff.mp hs).choose
  exact ⟨i, s, by omega, hs, hn, ha, hp⟩

theorem sampleOpen_opens (h : sampleRecords[i]? = some (sampleRecord c)) :
    Opens sampleOpen 0 0 (.ofNat i) (sampleRecord c) ([c] ++ [23]) :=
  ⟨[c, 23], 0, rfl, if_pos ⟨_, List.mk_mem_zipIdx_iff_getElem?.mpr h, rfl, rfl, rfl⟩⟩

-- Two of three records are read, which the notary's walk finds behind one of the handshake.
theorem processed_isPrefix_of_sample :
    let two := [sampleRecord 0x61, sampleRecord 0x62]
    let all := (⟨22, 0x0303, [0x02]⟩ : RawRecord) :: two
    (main.appRecords sampleOpen 0 0 (two.map recordToBytes) 0 = .ok [0x61, 0x62] ∧
      two <+: sampleRecords) ∧
    (runNotaryPath.records Sha256.keepEnd sampleOpen (sampleCommits Sha256.keepEnd) 0 all 0 =
      .ok [0x61, 0x62] ∧ all.filter (·.contentType == 23) <+: sampleRecords) := by
  intro two all
  have hl (c : Byte) : (sampleRecord c).payload.length < 256 ^ 2 := by
    simp [sampleRecord]
  have hf : Fit two := List.forall_mem_cons.mpr ⟨hl _, List.forall_mem_singleton.mpr (hl _)⟩
  have hf' : Fit all := List.forall_mem_cons.mpr ⟨by simp, hf⟩
  have hd (c : Byte) : ([c] ++ [23] : Bytes).rdropWhile (· == 0) = [c] ++ [23] := rfl
  have h₁ := sampleOpen_opens (i := 0) rfl
  have h₂ := sampleOpen_opens (i := 1) rfl
  have hm : main.appRecords sampleOpen 0 0 (two.map recordToBytes) 0 = .ok [0x61, 0x62] :=
    bind_eq_ok_iff.mpr ⟨_, (openAppRecord_eq_ok_iff (hl _)).mpr h₁,
      bind_eq_ok_iff.mpr ⟨_, bind_eq_ok_iff.mpr
        ⟨_, (openAppRecord_eq_ok_iff (hl _)).mpr h₂, rfl⟩, rfl⟩⟩
  have hr : runNotaryPath.records Sha256.keepEnd sampleOpen (sampleCommits Sha256.keepEnd) 0 all 0 =
      .ok [0x61, 0x62] :=
    bind_eq_ok_iff.mpr ⟨_, (openRecord_eq_ok_iff (hl _)).mpr ⟨sampleCommits_zero, _, h₁, hd _⟩,
      bind_eq_ok_iff.mpr ⟨_, bind_eq_ok_iff.mpr
        ⟨_, (openRecord_eq_ok_iff (hl _)).mpr ⟨sampleCommits_one, _, h₂, hd _⟩, rfl⟩, rfl⟩⟩
  exact ⟨⟨hm, (processed_isPrefix sampleOpen_ideal hf (by decide)).left _ hm⟩,
    hr, (processed_isPrefix sampleOpen_ideal hf' (by decide)).right _ _ _ rfl hr⟩

end Guest
