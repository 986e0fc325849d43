import NotaryModel.Common.Theorems.Bundle
import NotaryModel.Notary.Theorems.Aes
import NotaryModel.Notary.Tls

open Common

namespace Notary

variable {ed : Ed25519} {w : Worker ed} {compress : Arr 32 → Arr 64 → Arr 32} {bincode : Bincode}

theorem readHeader_ensures : readHeader.Ensures fun h => h.aad.length < 256 ^ 2 := by
  unfold readHeader
  refine .of_forall fun _ => .of_forall fun _ => .of_forall fun aadLen => .of_forall fun aad =>
    .of_forall fun _ => .pure ?_
  have h := Bytes.ofBe_lt aadLen.toList
  simpa using h

-- What is known of a bundle that the worker has signed.
structure Worker.Signed (w : Worker ed) (b : NotaryBundle) : Prop where
  widths  : b.WithinWidths
  version : b.bundleVersion = NotaryBundle.bundleVersionBinding
  sign    : ∃ sk, w.signingKey = some sk ∧
    b.notaryPubkey = ed.toBytes (ed.verifyingKey sk) ∧
    b.signature = (ed.sign sk b.canonicalSigningBytes).toList

theorem Worker.finish_sign : (w.finish bincode records).Ensures fun b =>
    ∃ sk sid sn, w.signingKey = some sk ∧ (Bytes.ofString sid).length < 256 ^ 2 ∧
      (Bytes.ofString sn).length < 256 ^ 2 ∧
      b = .sign ed sk w.now sid sn records w.kNTx w.ivTx w.kNRx w.ivRx w.binding := by
  unfold Worker.finish
  refine .of_forall fun sidLen => .of_forall fun sidBuf => ?_
  split
  case h_2 => exact .fail
  case h_1 sid hsid =>
    refine .of_forall fun snLen => .of_forall fun snBuf => ?_
    split
    case h_2 => exact .fail
    case h_1 sn hsn =>
      split
      case h_2 => exact .fail
      case h_1 sk hsk =>
        dsimp only
        split
        case h_1 => exact .fail
        case h_2 =>
          have hsidLen := Bytes.ofBe_lt sidLen.toList
          have hsnLen := Bytes.ofBe_lt snLen.toList
          have hsid := Bytes.ofString_of_fromUtf8 hsid
          have hsn := Bytes.ofString_of_fromUtf8 hsn
          exact .of_forall fun _ => .of_forall fun _ => .pure
            ⟨sk, sid, sn, hsk, by simpa [hsid] using hsidLen, by simpa [hsn] using hsnLen, rfl⟩

theorem Worker.finish_ensures (h : ∀ r ∈ records, r.aad.length < 256 ^ 2) :
    (w.finish bincode records).Ensures w.Signed := by
  intro _ _ _ hr
  obtain ⟨sk, sid, sn, hsk, hsid, hsn, rfl⟩ := Worker.finish_sign _ _ _ hr
  exact ⟨⟨hsid, hsn, h⟩, rfl, sk, hsk, rfl, rfl⟩

theorem Worker.encryptRecord_ensures :
    (w.encryptRecord compress header).Ensures fun r => r.aad = header.aad :=
  .of_forall fun _ => .of_forall fun _ => .pure rfl

theorem Worker.decryptRecord_ensures :
    (w.decryptRecord compress header).Ensures fun r => r.aad = header.aad :=
  .of_forall fun _ => .of_forall fun _ => .pure rfl

-- The induction is on the frames that are left; the log so far stays within the widths.
theorem runNotaryWorkerInner_ensures (h : ∀ r ∈ records, r.aad.length < 256 ^ 2) :
    (runNotaryWorkerInner compress bincode w fuel records).Ensures
      fun b? => ∀ b, b? = some b → w.Signed b := by
  have push {records : List RecordCommit} {aad : Bytes} (h : ∀ r ∈ records, r.aad.length < 256 ^ 2)
      (ha : aad.length < 256 ^ 2) {r} (hr : r.aad = aad) :
      ∀ r' ∈ records ++ [r], r'.aad.length < 256 ^ 2 := by
    simpa [or_imp, forall_and, hr] using ⟨h, ha⟩
  induction fuel generalizing records with
  | zero         => exact .fail
  | succ fuel hi =>
    unfold runNotaryWorkerInner
    refine .bind readHeader_ensures.attempt fun header? hh => ?_
    split
    case h_1 => exact .pure nofun
    case h_2 header =>
      have ha := hh header rfl
      split_ifs
      · exact .bind Worker.encryptRecord_ensures fun r hr => hi (push h ha hr)
      · exact .bind Worker.decryptRecord_ensures fun r hr => hi (push h ha hr)
      · refine .bind (Worker.finish_ensures h) fun b hb => .pure ?_
        rintro _ ⟨⟩
        exact hb
      · exact .fail

-- A frame for a record as a client may send it, with the bytes that are committed to after it.
structure Job where
  header : Header
  ct     : Bytes
  tag    : Arr 16

@[mk_iff]
structure Job.Valid (j : Job) : Prop where
  op  : j.header.op = opEncrypt ∨ j.header.op = opDecrypt
  aad : j.header.aad.length < 256 ^ 2
  ct  : j.ct.length = j.header.payloadLen.toNat

instance : DecidablePred Job.Valid :=
  fun j => decidable_of_iff _ (Job.valid_iff j).symm

def Job.commit (compress : Arr 32 → Arr 64 → Arr 32) (j : Job) : RecordCommit where
  op         := j.header.op
  seq        := j.header.seq
  aad        := j.header.aad
  commitHash := Sha256.digest compress (j.ct ++ j.tag.toList)

def Header.reads (h : Header) : List (Event wrk17) :=
  [.read .op [h.op], .read .seq (Bytes.be 8 h.seq.toNat), .read .aadLen (Bytes.be 2 h.aad.length),
    .read .aad h.aad, .read .payloadLen (Bytes.be 4 h.payloadLen.toNat)]

theorem readHeader_run (h : Header) (ha : h.aad.length < 256 ^ 2) :
    Run eof readHeader h.reads (.ok h) := by
  refine Run.recv_bind _ rfl fun op hop => ?_
  refine Run.recv_bind _ (by simp) fun seq hseq => ?_
  refine Run.recv_bind _ (by simp) fun aadLen haadLen => ?_
  refine Run.recv_bind _ (by rw [haadLen, Bytes.ofBe_be_of_lt ha]) fun aad haad => ?_
  refine Run.recv_bind _ (by simp) fun payloadLen hpayloadLen => ?_
  have hop : op = #v[h.op] := Arr.toList_inj hop
  have hs := Bytes.ofBe_be_of_lt (w := 8) h.seq.toNat_lt
  have hp := Bytes.ofBe_be_of_lt (w := 4) h.payloadLen.toNat_lt
  simp only [hseq, hs, haad, hpayloadLen, hp, hop, UInt64.ofNat_toNat, UInt32.ofNat_toNat]
  exact .pure

theorem readHeader_attempt_run (h : Header) (ha : h.aad.length < 256 ^ 2) :
    Run eof readHeader.attempt h.reads (.ok (.ok h)) :=
  Run.attempt_iff.mpr ⟨_, readHeader_run h ha, rfl⟩

theorem readCommit_run (hc : ct.length = n) (tag : Arr 16) :
    Run eof (readCommit compress n) [.read .commit ct, .read .commitTag tag.toList]
      (.ok (Sha256.digest compress (ct ++ tag.toList))) := by
  refine Run.recv_bind _ hc fun c hc => Run.recv_bind _ (by simp) fun t ht => ?_
  rw [hc, ht]
  exact .pure

theorem Worker.encryptRecord_run (w : Worker ed) (compress : Arr 32 → Arr 64 → Arr 32) {j : Job}
    (hv : j.Valid) :
    ∃ es, Run False (w.encryptRecord compress j.header) es (.ok (j.commit compress)) :=
  ⟨_, Run.bind_ok (notaryEncryptGcm.denotes _ _ _ _ |>.run ⟨0, 0, fun _ => 0, 0⟩) <|
    Run.bind_ok (readCommit_run hv.ct j.tag) .pure⟩

theorem Worker.decryptRecord_run (w : Worker ed) (compress : Arr 32 → Arr 64 → Arr 32) {j : Job}
    (hv : j.Valid) :
    ∃ es, Run False (w.decryptRecord compress j.header) es (.ok (j.commit compress)) :=
  ⟨_, Run.bind_ok (notaryDecryptGcm.denotes _ _ _ _ |>.run ⟨0, 0, fun _ => (0, 0), 0⟩) <|
    Run.bind_ok (readCommit_run hv.ct j.tag) .pure⟩

def finishEvents (sid sn : String) (serialized : Bytes) : List (Event wrk17) :=
  [.read .sessionIdLen (Bytes.be 2 (Bytes.ofString sid).length), .read .sessionId (Bytes.ofString sid),
    .read .serverNameLen (Bytes.be 2 (Bytes.ofString sn).length),
    .read .serverName (Bytes.ofString sn),
    .write .bundleLen (Bytes.be 4 serialized.length), .write .bundle serialized]

theorem Worker.finish_run (w : Worker ed) (hk : w.signingKey = some sk)
    (hsid : (Bytes.ofString sid).length < 256 ^ 2) (hsn : (Bytes.ofString sn).length < 256 ^ 2)
    (hser : bincode.serialize (.sign ed sk w.now sid sn records w.kNTx w.ivTx w.kNRx w.ivRx
      w.binding) = .ok serialized) :
    Run eof (w.finish bincode records) (finishEvents sid sn serialized)
      (.ok (.sign ed sk w.now sid sn records w.kNTx w.ivTx w.kNRx w.ivRx w.binding)) := by
  refine Run.recv_bind _ (by simp) fun sidLen hl => ?_
  refine Run.recv_bind _ (by rw [hl, Bytes.ofBe_be_of_lt hsid]) fun sidBuf hb => ?_
  rw [hb, Bytes.fromUtf8_ofString]
  refine Run.recv_bind _ (by simp) fun snLen hl => ?_
  refine Run.recv_bind _ (by rw [hl, Bytes.ofBe_be_of_lt hsn]) fun snBuf hb => ?_
  rw [hb, Bytes.fromUtf8_ofString, hk]
  dsimp only
  rw [hser]
  exact .write <| .write .pure

-- A client can have every list of valid frames logged as it is.
theorem runNotaryWorkerInner_run (w : Worker ed) (jobs : List Job) (records : List RecordCommit)
    (hj : ∀ j ∈ jobs, j.Valid) (hk : w.signingKey = some sk)
    (hsid : (Bytes.ofString sid).length < 256 ^ 2) (hsn : (Bytes.ofString sn).length < 256 ^ 2)
    (hser : ∀ b, ∃ bytes, bincode.serialize b = .ok bytes) :
    ∃ es, Run False (runNotaryWorkerInner compress bincode w (jobs.length + 1) records) es
      (.ok (some (.sign ed sk w.now sid sn (records ++ jobs.map (·.commit compress))
        w.kNTx w.ivTx w.kNRx w.ivRx w.binding))) := by
  induction jobs generalizing records with
  | nil =>
    let h : Header := { op := opFinish, seq := 0, aad := [], payloadLen := 0 }
    obtain ⟨bytes, hb⟩ := hser _
    rw [List.map_nil, List.append_nil]
    exact ⟨_, Run.bind_ok (readHeader_attempt_run h (by decide)) <|
      Run.bind_ok (w.finish_run hk hsid hsn hb) .pure⟩
  | cons j jobs hi =>
    rw [List.forall_mem_cons] at hj
    obtain ⟨es, hr⟩ := hi (records ++ [j.commit compress]) hj.right
    rw [List.append_assoc] at hr
    have hh : Run False _ _ _ := readHeader_attempt_run j.header hj.left.aad
    have hd : opDecrypt ≠ opEncrypt := by decide
    refine hj.left.op.elim (fun ho => ?encrypt) (fun ho => ?decrypt)
    case encrypt =>
      obtain ⟨es', he⟩ := w.encryptRecord_run compress hj.left
      refine ⟨_ ++ (es' ++ es), Run.bind_ok hh ?_⟩
      simp only [ho, if_true]
      exact Run.bind_ok he hr
    case decrypt =>
      obtain ⟨es', he⟩ := w.decryptRecord_run compress hj.left
      refine ⟨_ ++ (es' ++ es), Run.bind_ok hh ?_⟩
      simp only [ho, hd, if_true, if_false]
      exact Run.bind_ok he hr

-- What `verify` checks.
theorem verify_iff {b : NotaryBundle} : b.verify ed = true ↔
    ∃ vk, ed.fromBytes b.notaryPubkey = some vk ∧ b.signature.length = 64 ∧
      ed.verify vk b.signingBytes (.ofBytes 64 b.signature) = true := by
  unfold NotaryBundle.verify
  split
  case h_1 h => simp [h]
  case h_2 h => simp [h]

-- The verification with the key and the signature of `b` accepts only the bytes that were signed.
def Ideal (ed : Ed25519) (b : NotaryBundle) : Prop :=
  ∀ vk msg, ed.fromBytes b.notaryPubkey = some vk →
    ed.verify vk msg (.ofBytes 64 b.signature) = true → msg = b.canonicalSigningBytes

-- A signature pins the bundle among those with lengths that fit their fields, unless the old version
-- is accepted under the only key that the two encodings share a beginning for.
theorem verify_pins_iff {b₀ b : NotaryBundle} (fuel : Nat)
    (hr : Run eof (runNotaryWorkerInner compress bincode w fuel []) es (.ok (some b₀)))
    (hi : Ideal ed b₀) (hp : b.notaryPubkey = b₀.notaryPubkey) (hs : b.signature = b₀.signature)
    (hv : b.verify ed = true) :
    b = b₀ ↔ b.WithinWidths ∧
      (NotaryBundle.bundleVersionBinding ≤ b.bundleVersion ∨ b.notaryPubkey ≠ .fill 32 1) := by
  have h₀ := runNotaryWorkerInner_ensures (by simp) _ _ _ hr b₀ rfl
  have hv₀ : NotaryBundle.bundleVersionBinding ≤ b₀.bundleVersion := h₀.version ▸ UInt8.le_refl _
  constructor
  · rintro rfl
    exact ⟨h₀.widths, .inl hv₀⟩
  · intro ⟨hw, hc⟩
    obtain ⟨vk, hk, -, hv⟩ := verify_iff.mp hv
    have he := hi vk _ (hp ▸ hk) (hs ▸ hv)
    have he : b.signingBytes = b₀.signingBytes := he.trans (if_pos hv₀).symm
    have h := NotaryBundle.signingBytes_inj hw h₀.widths hv₀ hp (by rwa [h₀.version]) he
    rw [h, ←hs]

-- A scheme with a single key, of which the signatures are good for exactly one message.
def acceptingScheme (msg : Bytes) : Ed25519 where
  SigningKey   := Unit
  VerifyingKey := Unit
  verifyingKey := id
  toBytes _    := 0
  fromBytes _  := some ()
  sign _ _     := 0
  verify _ m _ := m == msg

def bundleOf (sessionId serverName : String) (records : List RecordCommit) : NotaryBundle where
  bundleVersion := NotaryBundle.bundleVersionBinding
  notaryPubkey  := 0
  timestampUnix := 0
  sessionId     := sessionId
  serverName    := serverName
  records       := records
  kNTx          := 0
  ivTx          := 0
  kNRx          := 0
  ivRx          := 0
  binding       := default
  signature     := (0 : Arr 64).toList

def workerOf (msg : Bytes) : Worker (acceptingScheme msg) :=
  ⟨some (), 0, 0, 0, 0, default, 0⟩

theorem workerOf_run (compress : Arr 32 → Arr 64 → Arr 32) (msg : Bytes) (sid sn : String)
    (jobs : List Job) (hj : ∀ j ∈ jobs, j.Valid)
    (hsid : (Bytes.ofString sid).length < 256 ^ 2) (hsn : (Bytes.ofString sn).length < 256 ^ 2) :
    ∃ es, Run False
      (runNotaryWorkerInner compress ⟨fun _ => .ok [], fun _ => .error ""⟩ (workerOf msg)
        (jobs.length + 1) [])
      es (.ok (some (bundleOf sid sn (jobs.map (·.commit compress))))) :=
  runNotaryWorkerInner_run (workerOf msg) jobs [] hj rfl hsid hsn fun _ => ⟨[], rfl⟩

theorem bundleOf_verify (h : (bundleOf sid sn rs).canonicalSigningBytes = msg) :
    (bundleOf sid sn rs).verify (acceptingScheme msg) = true :=
  verify_iff.mpr ⟨(), rfl, by simp [bundleOf], by
    have hs : (bundleOf sid sn rs).signingBytes = msg := (if_pos (UInt8.le_refl _)).trans h
    simp [acceptingScheme, hs]⟩

theorem accepting_ideal :
    Ideal (acceptingScheme (bundleOf sid sn rs).canonicalSigningBytes) (bundleOf sid sn rs) :=
  fun _ _ _ h => by simpa [acceptingScheme] using h

theorem verify_pins_iff_of_log :
    let jobs : List Job :=
      [⟨⟨opEncrypt, 0, [0x17], 3⟩, [1, 2, 3], 0⟩, ⟨⟨opDecrypt, 0, [], 1⟩, [4], .fill 16 1⟩]
    let b := bundleOf "demo" "example.com" (jobs.map (·.commit Sha256.keepEnd))
    b = b ↔ b.WithinWidths ∧
      (NotaryBundle.bundleVersionBinding ≤ b.bundleVersion ∨ b.notaryPubkey ≠ .fill 32 1) := by
  intro jobs b
  obtain ⟨es, hr⟩ := workerOf_run Sha256.keepEnd b.canonicalSigningBytes "demo" "example.com" jobs
    (by decide) (by decide) (by decide)
  exact verify_pins_iff 3 hr accepting_ideal rfl rfl (bundleOf_verify rfl)

-- A session id that is too long by exactly the range of its length field reaches into the record.
-- What the record's associated data holds after it is taken for the rest of another bundle.
theorem canonicalSigningBytes_wrap (seq : UInt64) {r : RecordCommit}
    (hsid : Bytes.ofString sid' = Bytes.ofString sid ++ (Bytes.be 2 (Bytes.ofString sn).length ++
      (Bytes.ofString sn ++ (Bytes.be 4 1 ++ ([op] ++ (Bytes.be 8 seq.toNat ++
        (Bytes.be 2 aad.length ++ pre)))))))
    (haad : aad = pre ++ (Bytes.be 2 (Bytes.ofString sn').length ++ (Bytes.ofString sn' ++
      (Bytes.be 4 1 ++ ([r.op] ++ (Bytes.be 8 r.seq.toNat ++ (Bytes.be 2 r.aad.length ++ r.aad)))))))
    (hl : (Bytes.ofString sid').length = (Bytes.ofString sid).length + 256 ^ 2) :
    (bundleOf sid' sn' [r]).canonicalSigningBytes =
    (bundleOf sid sn [⟨op, seq, aad, r.commitHash⟩]).canonicalSigningBytes := by
  have hb : Bytes.be 2 (Bytes.ofString sid').length = Bytes.be 2 (Bytes.ofString sid).length := by
    rw [Bytes.be_eq_iff, hl, Nat.add_mod_right]
  simp only [NotaryBundle.canonicalSigningBytes, NotaryBundle.legacySigningBytesPreBinding, bundleOf,
    RecordCommit.signingBytes, List.flatMap_cons, List.flatMap_nil, List.length_singleton,
    List.append_assoc, List.append_nil, hb]
  -- The length field of the record keeps the length of the whole associated data.
  generalize aad.length = n at hsid ⊢
  rw [hsid, haad]
  simp only [List.append_assoc]
  rfl

def longName (n : Nat) : String :=
  .ofList (.replicate n 'a')

theorem length_longName : (Bytes.ofString (longName n)).length = n := by
  rw [longName, Bytes.ofString_replicate, List.length_replicate]

def wrappedSessionId (n m : Nat) : String :=
  "demo" ++ ("@@" ++ (longName n ++ ("\x00\x00\x00\x01" ++ ("\x01" ++
    ("\x00\x00\x00\x00\x00\x00\x00\x00" ++ ("\u00c0" ++ longName m))))))

theorem ofString_wrappedSessionId :
    Bytes.ofString (wrappedSessionId n m) = Bytes.ofString "demo" ++ (Bytes.be 2 16448 ++
      (Bytes.ofString (longName n) ++ (Bytes.be 4 1 ++ ([opEncrypt] ++ (Bytes.be 8 0 ++
        (Bytes.be 2 50048 ++ Bytes.ofString (longName m))))))) := by
  simp only [wrappedSessionId, Bytes.ofString_append]
  rfl

-- A bundle for another server passes under the signature of a session with one record.
theorem not_verify_pins :
    ¬∀ (ed : Ed25519) (w : Worker ed) (compress : Arr 32 → Arr 64 → Arr 32) (bincode : Bincode)
      (fuel : Nat) (es : List (Event wrk17)) (b₀ b : NotaryBundle),
      Run False (runNotaryWorkerInner compress bincode w fuel []) es (.ok (some b₀)) →
      Ideal ed b₀ → b.notaryPubkey = b₀.notaryPubkey → b.signature = b₀.signature →
      b.verify ed = true → b.serverName = b₀.serverName := by
  intro h
  -- The lengths of the server name, and of the associated data before and after the forged fields.
  obtain ⟨n, hn⟩ : ∃ n, n = 16448 := ⟨_, rfl⟩
  obtain ⟨m, hm⟩ : ∃ m, m = 49071 := ⟨_, rfl⟩
  obtain ⟨k, hk⟩ : ∃ k, k = 948 := ⟨_, rfl⟩
  let compress : Arr 32 → Arr 64 → Arr 32 := fun _ _ => 0
  let r : RecordCommit :=
    ⟨opEncrypt, 0, .replicate k 0, Sha256.digest compress ([] ++ (0 : Arr 16).toList)⟩
  let aad := Bytes.ofString (longName m) ++ (Bytes.be 2 (Bytes.ofString "bank.example").length ++
    (Bytes.ofString "bank.example" ++ (Bytes.be 4 1 ++ ([r.op] ++ (Bytes.be 8 r.seq.toNat ++
      (Bytes.be 2 r.aad.length ++ r.aad))))))
  let j : Job := ⟨⟨opEncrypt, 0, aad, 0⟩, [], 0⟩
  let b := bundleOf (wrappedSessionId n m) "bank.example" [r]
  have hserver : (Bytes.ofString "bank.example").length = 12 := by decide
  have hdemo : (Bytes.ofString "demo").length = 4 := by decide
  have haad : aad.length = 50048 := by
    simp [aad, r, hserver, length_longName, hm, hk, -List.reduceReplicate]
  let b₀ := bundleOf "demo" (longName n) ([j].map (·.commit compress))
  have hj : ∀ j' ∈ [j], j'.Valid := by
    simp [Job.valid_iff, j, haad]
  have he : b.canonicalSigningBytes = b₀.canonicalSigningBytes := by
    refine canonicalSigningBytes_wrap 0 ?_ rfl ?_
    · rw [length_longName, haad, hn]
      exact ofString_wrappedSessionId
    · simp only [ofString_wrappedSessionId, List.length_append, Bytes.length_be, length_longName,
        List.length_singleton]
      omega
  have hi : Ideal (acceptingScheme b.canonicalSigningBytes) b₀ := by
    rw [he]
    exact accepting_ideal
  obtain ⟨es, hr⟩ := workerOf_run compress b.canonicalSigningBytes "demo" (longName n) [j] hj
    (by decide) (by rw [length_longName, hn]; decide)
  have hs : "bank.example" = longName n := h _ _ _ _ _ es b₀ b hr hi rfl rfl (bundleOf_verify rfl)
  have hl : 12 = n := by rw [←hserver, hs, length_longName]
  omega

end Notary
