import NotaryModel.Guest.Claim
import NotaryModel.Guest.Theorems.Certificate
import NotaryModel.Guest.Theorems.Handshake
import NotaryModel.Guest.Theorems.Http

open Common

-- The holder of `sk` can sign.
structure Ed25519.CanSign (ed : Ed25519) (sk : ed.SigningKey) : Prop where
  fromBytes : ed.fromBytes (ed.toBytes (ed.verifyingKey sk)) = some (ed.verifyingKey sk)
  verify    : ∀ msg, ed.verify (ed.verifyingKey sk) msg (ed.sign sk msg) = true

namespace Common

variable {F : Type} {ed : Ed25519}

-- The bundle in the name of `sk`.
def NotaryBundle.resign (b : NotaryBundle) (ed : Ed25519) (sk : ed.SigningKey) : NotaryBundle :=
  let b := { b with notaryPubkey := ed.toBytes (ed.verifyingKey sk) }
  { b with signature := (ed.sign sk b.signingBytes).toList }

def NotaryAttestation.resign (att : NotaryAttestation) (ed : Ed25519) (sk : ed.SigningKey) :
    NotaryAttestation :=
  { att with bundle := att.bundle.resign ed sk }

def ClaimWitness.resign (w : ClaimWitness F) (ed : Ed25519) (sk : ed.SigningKey) :
    ClaimWitness F :=
  { w with notary := w.notary.map (·.resign ed sk) }

-- The sequence numbers of the responses that the notary has signed.
def NotaryBundle.received (b : NotaryBundle) : Set UInt64 :=
  {seq | ∃ br ∈ b.records, br.op = 0x02 ∧ br.seq = seq}

theorem NotaryBundle.verify_resign {b : NotaryBundle} (h : ed.CanSign sk) :
    (b.resign ed sk).verify ed = true := by
  have hs : (b.resign ed sk).signingBytes =
      { b with notaryPubkey := ed.toBytes (ed.verifyingKey sk) : NotaryBundle }.signingBytes := rfl
  have hk : (b.resign ed sk).notaryPubkey = ed.toBytes (ed.verifyingKey sk) := rfl
  have hl : (b.resign ed sk).signature.length = 64 := by simp [NotaryBundle.resign]
  rw [NotaryBundle.verify, hk, h.fromBytes]
  simp only [if_pos hl, hs]
  rw [NotaryBundle.resign, Arr.ofBytes_toList, h.verify]

end Common

namespace Guest

open Exec (bind_eq_ok_iff)

section

variable {F : Type} {x25519 : X25519} {compress : Arr 32 → Arr 64 → Arr 32} {ed : Ed25519}
variable {gcm : Gcm.Open} {pki : Pkix} {json : Json F}

theorem records_resign : runNotaryPath.records compress gcm (b.resign ed sk) key rs n =
    runNotaryPath.records compress gcm b key rs n := by
  induction rs generalizing n
  case nil => rfl
  case cons r rs hi =>
    simp only [runNotaryPath.records, hi]
    rfl

theorem runNotaryPath_resign {w : ClaimWitness F} (hs : ed.CanSign sk) (hn : w.notary = some att)
    (hv : att.bundle.verify ed = true) :
    runNotaryPath compress ed gcm (w.resign ed sk).toTlsWitness =
    runNotaryPath compress ed gcm w.toTlsWitness := by
  have hr : (w.resign ed sk).notary = some (att.resign ed sk) := by
    simp [ClaimWitness.resign, hn]
  have hv' : (att.resign ed sk).bundle.verify ed = true := NotaryBundle.verify_resign hs
  simp only [runNotaryPath, hn, hr, Exec.expect_some, Exec.ok_bind, hv, hv']
  simp only [NotaryAttestation.resign, records_resign]
  rfl

theorem verify_of_runNotaryPath {w : TlsWitness} (hn : w.notary = some att)
    (h : runNotaryPath compress ed gcm w = .ok pt) : att.bundle.verify ed = true := by
  rw [runNotaryPath, hn, Exec.expect_some, Exec.ok_bind] at h
  have ⟨_, hv, _⟩ := bind_eq_ok_iff.mp h
  exact Exec.assert_eq_ok_iff.mp hv

theorem openRecord_committed
    (h : runNotaryPath.openRecord compress gcm bundle key seq r = .ok x) :
    Committed compress bundle seq r := by
  have ⟨br, hb, h⟩ := bind_eq_ok_iff.mp h
  have ⟨_, hc, _⟩ := bind_eq_ok_iff.mp h
  exact ⟨br, Exec.expect_eq_ok_iff.mp hb, Exec.assert_eq_ok_iff.mp hc⟩

-- The walk takes the application records in turn, under the numbers from `n` on.
theorem records_committed
    (h : runNotaryPath.records compress gcm bundle key rs (.ofNat n) = .ok pt)
    (hk : (rs.filter (·.contentType == 23))[k]? = some r) :
    Committed compress bundle (.ofNat (n + k)) r := by
  induction rs generalizing n k pt
  case nil          => cases hk
  case cons r₀ rs hi =>
    rw [runNotaryPath.records] at h
    by_cases ht : r₀.contentType = 23
    case pos =>
      rw [if_neg (not_not.mpr ht)] at h
      obtain ⟨_, ho, h⟩ := bind_eq_ok_iff.mp h
      obtain ⟨_, h, _⟩ := bind_eq_ok_iff.mp h
      rw [List.filter_cons_of_pos (by simpa using ht)] at hk
      cases k
      case zero =>
        cases hk
        exact openRecord_committed ho
      case succ k =>
        rw [Nat.add_comm k, ←Nat.add_assoc]
        rw [show UInt64.ofNat n + 1 = .ofNat (n + 1) from (UInt64.ofNat_add n 1).symm] at h
        exact hi h hk
    case neg =>
      rw [if_pos ht] at h
      rw [List.filter_cons_of_neg (by simpa using ht)] at hk
      exact hi h hk

-- The sequence numbers of the records that are decrypted.
def walked (rs : List RawRecord) : Set UInt64 :=
  {seq | ∃ k < (rs.filter (·.contentType == 23)).length, seq = .ofNat k}

theorem mem_walked_iff :
    seq ∈ walked rs ↔ seq.toNat < (rs.filter (·.contentType == 23)).length where
  mp := by
    rintro ⟨k, hk, rfl⟩
    rw [UInt64.toNat_ofNat']
    exact (Nat.mod_le _ _).trans_lt hk
  mpr h := ⟨seq.toNat, h, (UInt64.ofNat_toNat).symm⟩

theorem Committed.mem_received (h : Committed compress bundle seq r) : seq ∈ bundle.received := by
  have ⟨br, hf, _⟩ := h
  have hp := List.find?_some hf
  exact ⟨br, List.mem_of_find?_eq_some hf, by simpa using hp⟩

-- No record is skipped, but those behind the last one that is shown are not missed.
theorem walked_eq_received_iff {w : ClaimWitness F} (hn : w.notary = some att)
    (h : runNotaryPath.claim compress ed gcm json w = .ok c) :
    ∃ rs, parseRecords w.rawInbound = .ok rs ∧
      (∀ k r, (rs.filter (·.contentType == 23))[k]? = some r →
        Committed compress att.bundle (.ofNat k) r) ∧
      walked rs ⊆ att.bundle.received ∧
      (walked rs = att.bundle.received ↔ ∀ br ∈ att.bundle.records, br.op = 0x02 →
        br.seq.toNat < (rs.filter (·.contentType == 23)).length) := by
  have ⟨pt, hp, _⟩ := bind_eq_ok_iff.mp h
  rw [runNotaryPath, hn, Exec.expect_some, Exec.ok_bind] at hp
  have ⟨_, _, hp⟩ := bind_eq_ok_iff.mp hp
  have ⟨_, _, hp⟩ := bind_eq_ok_iff.mp hp
  have ⟨_, _, hp⟩ := bind_eq_ok_iff.mp hp
  have ⟨rs, hr, hp⟩ := bind_eq_ok_iff.mp hp
  have hc k r (hk : (rs.filter (·.contentType == 23))[k]? = some r) :
      Committed compress att.bundle (.ofNat k) r := by
    have h := records_committed (n := 0) hp hk
    rwa [Nat.zero_add] at h
  have hs : walked rs ⊆ att.bundle.received := by
    rintro seq ⟨k, hk, rfl⟩
    exact (hc k _ (List.getElem?_eq_getElem hk)).mem_received
  refine ⟨rs, hr, hc, hs, fun he br hb ho => ?_, fun hl => hs.antisymm ?_⟩
  · exact mem_walked_iff.mp (he ▸ ⟨br, hb, ho, rfl⟩)
  · rintro seq ⟨br, hb, ho, rfl⟩
    exact mem_walked_iff.mpr (hl br hb ho)

theorem main_eq {w : ClaimWitness F} (hn : w.notary = some att) :
    main x25519 compress ed gcm pki json w = runNotaryPath.claim compress ed gcm json w := by
  rw [main, hn]
  rfl

-- Whoever can sign gets the same public output with a bundle of their own.
theorem main_resign {w : ClaimWitness F} (hs : ed.CanSign sk) (hn : w.notary = some att)
    (h : main x25519 compress ed gcm pki json w = .ok c) :
    main x25519 compress ed gcm pki json (w.resign ed sk) = .ok c ∧
    (att.bundle.resign ed sk).notaryPubkey = ed.toBytes (ed.verifyingKey sk) := by
  have hr : (w.resign ed sk).notary = some (att.resign ed sk) := by
    simp [ClaimWitness.resign, hn]
  rw [main_eq hn] at h
  have ⟨pt, hp, hc⟩ := bind_eq_ok_iff.mp h
  have hv := verify_of_runNotaryPath hn hp
  refine ⟨?_, rfl⟩
  rw [main_eq hr, runNotaryPath.claim, runNotaryPath_resign hs hn hv, hp, Exec.ok_bind]
  exact hc

end

section Sample

-- A notary for every byte, whose signatures repeat it.
def byteScheme : Ed25519 where
  SigningKey     := Byte
  VerifyingKey   := Byte
  verifyingKey   := id
  toBytes        := Arr.fill 32
  fromBytes vk   := vk.toList.head?
  sign sk _      := Arr.fill 64 sk
  verify vk _ sg := sg == Arr.fill 64 vk

theorem byteScheme_canSign (sk : Byte) : byteScheme.CanSign sk where
  fromBytes  := by simp [byteScheme, Arr.fill]
  verify msg := by simp [byteScheme]

-- It knows the numbers of one digit.
def digitJson : Json Nat where
  Value       := Nat
  fromStr
    | [b] => if 0x30 ≤ b ∧ b ≤ 0x39 then some (b.toNat - 0x30) else none
    | _   => none
  pointer v p := if p = "" then some v else none
  asF64       := some
  gt a b      := b < a
  display     := toString

def digitPkix : Pkix where
  toPki            := samplePki true
  extensions _     := none
  subjectAltName _ := none

def digitResponse : Bytes := blankLine ++ [0x37]

def digitRecord : RawRecord :=
  ⟨23, 0x0303, digitResponse ++ [23] ++ (0 : Arr 16).toList⟩

-- A response in one record, for which the notary `sk` has committed to the numbers `seqs`.
def digitBundle (sk : Byte) (seqs : List UInt64) : NotaryBundle :=
  { (default : NotaryBundle) with
    serverName := "a"
    records    := seqs.map fun seq => ⟨0x02, seq, [], 0⟩
  }.resign byteScheme sk

def digitWitness (sk : Byte) (seqs : List UInt64) : ClaimWitness Nat where
  eskClient   := 0
  rawInbound  := digitRecord.toBytes
  rawOutbound := []
  hostname    := "a"
  notary      := some ⟨digitBundle sk seqs, 0, 0⟩
  jsonField   := ""
  threshold   := 5

theorem digest_digitRecord : Sha256.digest (fun _ _ => 0) digitRecord.payload = 0 :=
  Sha256.digest_of_length_le (by decide)

theorem openRecord_digitRecord (seqs : List UInt64) :
    runNotaryPath.openRecord (fun _ _ => 0) (fun _ _ _ ct _ => some ct) (digitBundle sk (0 :: seqs)) 0
      0 digitRecord = .ok (digitResponse, 23) :=
  (openRecord_eq_ok_iff (by decide)).mpr
    ⟨⟨_, List.find?_cons_of_pos (by simp), digest_digitRecord⟩, _, ⟨_, 0, rfl, rfl⟩, rfl⟩

theorem parseRecords_digitRecord : parseRecords digitRecord.toBytes = .ok [digitRecord] := by
  have hf : Fit [digitRecord] := List.forall_mem_singleton.mpr (by decide)
  simpa using parseRecords_flatMap hf

theorem runNotaryPath_digitWitness (seqs : List UInt64) :
    runNotaryPath (fun _ _ => 0) byteScheme (fun _ _ _ ct _ => some ct)
      (digitWitness sk (0 :: seqs)).toTlsWitness = .ok digitResponse := by
  have hv : (digitBundle sk (0 :: seqs)).verify byteScheme = true :=
    NotaryBundle.verify_resign (byteScheme_canSign sk)
  have hr : runNotaryPath.records (fun _ _ => 0) (fun _ _ _ ct _ => some ct)
      (digitBundle sk (0 :: seqs)) 0 [digitRecord] 0 = .ok digitResponse := by
    rw [runNotaryPath.records, if_neg (by decide), openRecord_digitRecord]
    rfl
  refine bind_eq_ok_iff.mpr ⟨_, rfl, bind_eq_ok_iff.mpr ⟨(), Exec.assert_eq_ok_iff.mpr hv, ?_⟩⟩
  refine bind_eq_ok_iff.mpr ⟨(), rfl, bind_eq_ok_iff.mpr ⟨(), rfl, ?_⟩⟩
  exact bind_eq_ok_iff.mpr ⟨_, parseRecords_digitRecord, hr⟩

theorem responseBody_digitResponse : responseBody msg digitResponse = .ok [0x37] := by
  let r : Response := ⟨[], .asIs [0x37], by decide⟩
  have hs : r.segment 5 = [0x37] := by decide
  have hu : unchunk (r.segment 5) = .ok [0x37] := by
    rw [hs]
    exact unchunk_of_not_startsWithChunk
      (by simp [StartsWithChunk, nextChunk, Text.splitOnce, crlf])
  exact Response.responseBody_eq_ok_iff.mpr ⟨by decide +kernel, hu⟩

theorem claim_digitWitness (sk : Byte) (seqs : List UInt64) :
    runNotaryPath.claim (fun _ _ => 0) byteScheme (fun _ _ _ ct _ => some ct) digitJson
      (digitWitness sk (0 :: seqs)) = .ok ⟨"a", "", 5, 7⟩ := by
  rw [runNotaryPath.claim, runNotaryPath_digitWitness, Exec.ok_bind, publicClaim,
    responseBody_digitResponse]
  rfl

theorem main_digitWitness (sk : Byte) (seqs : List UInt64) :
    main x25519 (fun _ _ => 0) byteScheme (fun _ _ _ ct _ => some ct) pki digitJson
      (digitWitness sk (0 :: seqs)) = .ok ⟨"a", "", 5, 7⟩ := by
  rw [main_eq rfl, claim_digitWitness]

end Sample

theorem main_resign_of_sample :
    main ⟨id, (· ^^^ ·)⟩ (fun _ _ => 0) byteScheme (fun _ _ _ ct _ => some ct) digitPkix digitJson
      ((digitWitness 1 [0]).resign byteScheme (2 : Byte)) = .ok ⟨"a", "", 5, 7⟩ ∧
    ((digitBundle 1 [0]).resign byteScheme (2 : Byte)).notaryPubkey = Arr.fill 32 2 :=
  main_resign (byteScheme_canSign 2) rfl (main_digitWitness 1 [])

theorem not_identifies_notary :
    ¬∀ (x25519 : X25519) (compress : Arr 32 → Arr 64 → Arr 32) (ed : Ed25519) (gcm : Gcm.Open)
      (pki : Pkix) (json : Json Nat) (w w' : ClaimWitness Nat) (att att' : NotaryAttestation)
      (c : PublicClaim Nat),
      w.notary = some att → w'.notary = some att' →
      main x25519 compress ed gcm pki json w = .ok c →
      main x25519 compress ed gcm pki json w' = .ok c →
      att.bundle.notaryPubkey = att'.bundle.notaryPubkey := by
  intro h
  have hk := h ⟨id, (· ^^^ ·)⟩ _ _ _ digitPkix _ _ _ _ _ _ rfl rfl (main_digitWitness 1 [])
    (main_digitWitness 2 [])
  exact absurd hk (by decide)

theorem walked_eq_received_iff_of_sample :
    ∃ rs, parseRecords digitRecord.toBytes = .ok rs ∧
      (∀ k r, (rs.filter (·.contentType == 23))[k]? = some r →
        Committed (fun _ _ => 0) (digitBundle 1 [0]) (.ofNat k) r) ∧
      walked rs ⊆ (digitBundle 1 [0]).received ∧
      (walked rs = (digitBundle 1 [0]).received ↔ ∀ br ∈ (digitBundle 1 [0]).records,
        br.op = 0x02 → br.seq.toNat < (rs.filter (·.contentType == 23)).length) :=
  walked_eq_received_iff (w := digitWitness 1 [0]) rfl (claim_digitWitness 1 [])

-- The notary has signed two responses, and the witness shows one.
theorem not_walked_eq_received :
    ¬∀ (compress : Arr 32 → Arr 64 → Arr 32) (ed : Ed25519) (gcm : Gcm.Open) (json : Json Nat)
      (w : ClaimWitness Nat) (att : NotaryAttestation) (c : PublicClaim Nat) (rs : List RawRecord),
      w.notary = some att → runNotaryPath.claim compress ed gcm json w = .ok c →
      parseRecords w.rawInbound = .ok rs → walked rs = att.bundle.received := by
  intro h
  have hs := h _ _ _ _ _ _ _ _ rfl (claim_digitWitness 1 [1]) parseRecords_digitRecord
  have hm : (1 : UInt64) ∈ (digitBundle 1 [0, 1]).received :=
    ⟨⟨0x02, 1, [], 0⟩, List.mem_cons_of_mem _ (List.mem_cons_self ..), rfl, rfl⟩
  rw [←show walked [digitRecord] = (digitBundle 1 [0, 1]).received from hs, mem_walked_iff] at hm
  exact absurd hm (by decide)

end Guest
