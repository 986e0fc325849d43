import NotaryModel.Agreement.Binding
import NotaryModel.Guest.Theorems.AppRecords
import NotaryModel.Notary.Theorems.Handover
import NotaryModel.Notary.Theorems.Numbers

open Common Notary Tls Exchange

namespace Agreement

variable {compress : Arr 32 → Arr 64 → Arr 32}

def appRecords (rs : List RawRecord) : List RawRecord :=
  rs.filter (·.contentType == 23)

-- The records that the guest opens, with the numbers under which it does so.
def numbered (rs : List RawRecord) (seq : UInt64) : List (UInt64 × RawRecord) :=
  (numbers seq (appRecords rs)).zip (appRecords rs)

theorem records_eq (gcm : Gcm.Open) (b : NotaryBundle) (kRx : Arr 16) (rs : List RawRecord)
    (seq : UInt64) : Guest.runNotaryPath.records compress gcm b kRx rs seq = (do
      let ps ← (numbered rs seq).mapM fun x =>
        Guest.runNotaryPath.openRecord compress gcm b kRx x.1 x.2
      pure (ps.flatMap fun p => if p.2 = 23 then p.1 else [])) := by
  induction rs generalizing seq
  case nil => rfl
  case cons r rs hi =>
    rw [Guest.runNotaryPath.records, numbered, appRecords]
    by_cases hr : r.contentType = 23
    case neg =>
      rw [if_pos hr, List.filter_cons_of_neg (by simpa using hr)]
      exact hi seq
    case pos =>
      rw [if_neg (not_not.mpr hr), List.filter_cons_of_pos (by simpa using hr), numbers_cons,
        List.zip_cons_cons, List.mapM_cons, hi]
      simp [numbered, appRecords]

theorem committed_of_records
    (h : Guest.runNotaryPath.records compress gcm b kRx rs seq = .ok pt)
    (hx : x ∈ numbered rs seq) : ∃ r ∈ b.records, r.op = opDecrypt ∧ r.seq = x.1 := by
  rw [records_eq] at h
  obtain ⟨ps, hm, -⟩ := Exec.bind_eq_ok_iff.mp h
  obtain ⟨hl, hg⟩ := List.forall₂_iff_get.mp (Exec.mapM_eq_ok_iff.mp hm)
  obtain ⟨i, hi, rfl⟩ := List.getElem_of_mem hx
  have ho := hg i hi (hl ▸ hi)
  obtain ⟨r, hr, -⟩ := Exec.bind_eq_ok_iff.mp ho
  rw [Exec.expect_eq_ok_iff] at hr
  have hb := List.find?_some hr
  exact ⟨r, List.mem_of_find?_eq_some hr, of_decide_eq_true hb⟩

theorem numbered_append (rs rs' : List RawRecord) (seq : UInt64) : numbered (rs ++ rs') seq =
    numbered rs seq ++ numbered rs' (seq + .ofNat (appRecords rs).length) := by
  rw [numbered, appRecords, List.filter_append, numbers_append,
    List.zip_append (length_numbers _)]
  rfl

theorem length_numbered (rs : List RawRecord) (seq : UInt64) :
    (numbered rs seq).length = (appRecords rs).length := by
  rw [numbered, List.length_zip, length_numbers, Nat.min_self]

-- Two counters with different starting points never agree.
theorem forall₂_numbers {f : α → β} (h : c ≠ s) (xs : List α) :
    List.Forall₂ (fun x n => x.1 ≠ n) ((numbers c (xs.map f)).zip (xs.map f)) (numbers s xs) := by
  induction xs generalizing c s
  case nil          => exact .nil
  case cons x xs hi =>
    rw [List.map_cons, numbers_cons, numbers_cons, List.zip_cons_cons]
    exact .cons h (hi fun hn => h (by simpa using hn))

-- The host has captured the records `inp`, of which `encrypted` are protected ones of the handshake
-- and all other protected ones have been counted by `rustls`. No counter overflows.
structure Captured (h : Handshaken) (inp : List RawRecord) (encrypted : Nat) : Prop where
  inbound   : h.rawInbound = inp.flatMap RawRecord.toBytes
  fit       : Guest.Fit inp
  handshake : 0 < encrypted
  counted   : (appRecords inp).length = encrypted + h.rxSeq.toNat
  bounded   : inp.length + (readTlsRecords h.tcp).length < 2 ^ 64

section

variable {h : Handshaken} {inp : List RawRecord} {ds last : List TlsRecord}

theorem Captured.length_lt (hc : Captured h inp encrypted)
    (hd : Decrypted (readTlsRecords h.tcp) ds last raw) :
    (appRecords inp).length + ds.length < 2 ^ 64 := by
  have hi : (appRecords inp).length ≤ inp.length := List.length_filter_le _ _
  have hl := hd.records.length_le
  have hb := hc.bounded
  rw [List.length_append] at hl
  omega

theorem Captured.firstSeq_lt (hc : Captured h inp encrypted) (twoPc : Bool) :
    (firstSeq twoPc h).toNat < (appRecords inp).length := by
  have he := hc.handshake
  rw [hc.counted]
  cases twoPc
  case false => exact Nat.lt_add_of_pos_left he
  case true  => exact Nat.lt_of_lt_of_le he (Nat.le_add_right _ _)

theorem Captured.parseRecords_eq (hc : Captured h inp encrypted)
    (hd : Decrypted (readTlsRecords h.tcp) ds last raw) :
    Guest.parseRecords (h.rawInbound ++ raw) = .ok (inp ++ (ds ++ last).map TlsRecord.record) := by
  have hr := fun r hr => readTlsRecords_ok h.tcp r (hd.records.subset hr)
  have hb : raw = ((ds ++ last).map TlsRecord.record).flatMap RawRecord.toBytes := by
    rw [hd.bytes, List.flatMap_map]
    exact List.flatMap_congr fun r hm => (hr r hm).left
  rw [hc.inbound, hb, ←List.flatMap_append]
  refine Guest.parseRecords_flatMap ?_
  rw [Guest.Fit, List.forall_mem_append, List.forall_mem_map]
  exact ⟨hc.fit, fun r hm => (hr r hm).right⟩

theorem appRecords_response (hd : Decrypted response ds last raw) :
    appRecords ((ds ++ last).map TlsRecord.record) = ds.map TlsRecord.record := by
  rw [appRecords, List.map_append, List.filter_append, List.filter_eq_self.mpr,
    List.filter_eq_nil_iff.mpr, List.append_nil]
  · simpa [TlsRecord.record] using hd.closing
  · simpa [TlsRecord.record] using hd.opened

-- The number of the last protected record is beyond those under which records were decrypted.
theorem exists_uncommitted {rs : List RawRecord} {xs : List α}
    (hs : s.toNat + xs.length < (appRecords rs).length) (hb : (appRecords rs).length < 2 ^ 64) :
    ∃ x ∈ numbered rs 0, x.1 ∉ numbers s xs := by
  obtain ⟨n, hn⟩ := Nat.exists_eq_succ_of_ne_zero (Nat.ne_zero_of_lt hs)
  have hi : n < (numbered rs 0).length := by
    rw [length_numbered]
    omega
  refine ⟨_, List.getElem_mem hi, fun hm => ?_⟩
  have hx : (numbered rs 0)[n].1 = .ofNat n := by simp [numbered, numbers]
  rw [hx, mem_numbers] at hm
  obtain ⟨k, hk, he⟩ := hm
  have he := congrArg UInt64.toNat he
  rw [UInt64.toNat_add, UInt64.toNat_ofNat', UInt64.toNat_ofNat', Nat.mod_eq_of_lt (by omega),
    Nat.mod_eq_of_lt (b := 2 ^ 64) (a := k) (by omega), Nat.mod_eq_of_lt (by omega)] at he
  omega

theorem Captured.numbers_ne (hc : Captured h inp encrypted)
    (hd : Decrypted (readTlsRecords h.tcp) ds last raw) (twoPc : Bool) :
    List.Forall₂ (fun x seq => x.1 ≠ seq)
      ((numbered (inp ++ (ds ++ last).map TlsRecord.record) 0).drop (appRecords inp).length)
      (numbers (firstSeq twoPc h) ds) := by
  have hf := hc.firstSeq_lt twoPc
  have hl := hc.length_lt hd
  rw [numbered_append, List.drop_left' (length_numbered _ _), numbered, appRecords_response hd]
  refine forall₂_numbers (fun he => ?_) ds
  rw [←he, UInt64.zero_add, UInt64.toNat_ofNat', Nat.mod_eq_of_lt (by omega)] at hf
  exact Nat.lt_irrefl _ hf

theorem Captured.exists_uncommitted (hc : Captured h inp encrypted)
    (hd : Decrypted (readTlsRecords h.tcp) ds last raw) (twoPc : Bool) :
    ∃ x ∈ numbered (inp ++ (ds ++ last).map TlsRecord.record) 0,
      x.1 ∉ numbers (firstSeq twoPc h) ds := by
  have hl : (appRecords (inp ++ (ds ++ last).map TlsRecord.record)).length =
      (appRecords inp).length + ds.length := by
    rw [appRecords, List.filter_append, List.length_append]
    exact congrArg _ ((congrArg List.length (appRecords_response hd)).trans (List.length_map _))
  have hf := hc.firstSeq_lt twoPc
  have hb := hc.length_lt hd
  exact Agreement.exists_uncommitted (by omega) (by omega)

end

-- What the guest takes for granted of a session.
structure NumbersAgree (rs : List RawRecord) (captured : Nat) (seqs : List UInt64)
    (b : NotaryBundle) : Prop where
  same      : ((numbered rs 0).drop captured).map (·.1) = seqs
  committed : ∀ x ∈ numbered rs 0, ∃ r ∈ b.records, r.op = opDecrypt ∧ r.seq = x.1

-- The guest opens no record under the number that the host has had it decrypted and the notary has
-- logged it under, and there is a record for whose number the notary has logged nothing.
theorem numbers_disagree (curve : Curve25519) (aes : Arr 16 → Arr 16 → Arr 16)
    (compress : Arr 32 → Arr 64 → Arr 32) (gcm : Gcm.Open) (files : Circuits) (bincode : Bincode)
    (twoPcTrafficKeys : Bool) (args : Args) (rng' : HostRandom) (h : Handshaken)
    (hc : Captured h inp encrypted)
    (hh : Run False (notaryDemo curve compress gcm twoPcTrafficKeys bincode args rng' h) es'
      (.ok out)) :
    ∃ rs, Guest.parseRecords out.rawInbound = .ok rs ∧
      List.Forall₂ (fun x seq => x.1 ≠ seq) ((numbered rs 0).drop (appRecords inp).length)
        (decryptSeqs (Event.writes es')) ∧
      ∀ (ed : Ed25519) (rng : ProxyRandom) (peer : String) (sk : ed.SigningKey) (now : UInt64)
        (fuel : Nat) (es : List (Event wrk17)) (b : NotaryBundle),
        Run False (handle curve compress gcm files ed bincode rng peer sk now fuel) es
          (.ok (some b)) →
        Matched (circuits aes compress) es es' →
        (∀ r ∈ b.records, r.op = opDecrypt → r.seq ∈ decryptSeqs (Event.writes es')) ∧
        ¬NumbersAgree rs (appRecords inp).length (decryptSeqs (Event.writes es')) b ∧
        (∃ x ∈ numbered rs 0, ∀ r ∈ b.records, r.op = opDecrypt → r.seq ≠ x.1) ∧
        ∀ kRx pt, Guest.runNotaryPath.records compress gcm b kRx rs 0 ≠ .ok pt := by
  obtain ⟨ds, last, raw, hi, hd, hs⟩ := notaryDemo_ok hh
  refine ⟨_, hi ▸ hc.parseRecords_eq hd, hs ▸ hc.numbers_ne hd _, ?_⟩
  intro ed rng peer sk now fuel es b hn hm
  have hlog (r : RecordCommit) (hr : r ∈ b.records) (ho : r.op = opDecrypt) :
      r.seq ∈ decryptSeqs (Event.writes es') := hm.toLeft ▸ handle_decryptSeqs hn hr ho
  obtain ⟨x, hx, hns⟩ := hc.exists_uncommitted hd twoPcTrafficKeys
  have hnc (r : RecordCommit) (hr : r ∈ b.records) (ho : r.op = opDecrypt) : r.seq ≠ x.1 :=
    fun he => hns <| he ▸ hs ▸ hlog r hr ho
  refine ⟨hlog, fun ha => ?agree, ⟨x, hx, hnc⟩, fun kRx pt hpt => ?walk⟩
  case agree =>
    obtain ⟨r, hr, ho, he⟩ := ha.committed x hx
    exact hnc r hr ho he
  case walk =>
    obtain ⟨r, hr, ho, he⟩ := committed_of_records hpt hx
    exact hnc r hr ho he

-- A cipher with the same block for everything, and a record that is sealed with it.
def constAes : Arr 16 → Arr 16 → Arr 16 :=
  fun _ _ => .fill 16 1

def answer : RawRecord where
  contentType   := 0x17
  legacyVersion := 0x0303
  payload       := [0] ++ (Gcm.tag constAes ghashMulReference 0 0 (tls13Aad 17) [0]).toList

-- The host has captured one protected record, and the server answers with one.
def answeredHost : Handshaken :=
  { keyedHost with tcp := answer.toBytes }

theorem readTlsRecords_toBytes {r : RawRecord} (h : r.payload.length ≤ 16640) :
    readTlsRecords r.toBytes = [⟨r.contentType, r.legacyVersion, r.payload, r.toBytes⟩] := by
  obtain ⟨v₀, v₁, l₀, l₁, hr, hl, hv⟩ := toBytes_eq (h.trans_lt (by decide))
  have ho : readTlsRecord r.toBytes =
      some (⟨r.contentType, r.legacyVersion, r.payload, r.toBytes⟩, []) := by
    simp [hr, readTlsRecord, hl, hv, h]
  rw [readTlsRecords]
  split
  case h_1 he => rw [ho] at he; cases he
  case h_2 he =>
    rw [ho] at he
    cases he
    rw [readTlsRecords_nil]

theorem length_answer : answer.payload.length = 17 := by
  simp [answer]

theorem answeredHost_response : readTlsRecords answeredHost.tcp =
    [⟨0x17, 0x0303, answer.payload, answer.toBytes⟩] :=
  readTlsRecords_toBytes (length_answer ▸ by decide)

theorem answeredHost_captured : Captured answeredHost keyedSession.inp 1 where
  inbound   := rfl
  fit       := (keyedSession_standard 0 0).inp
  handshake := Nat.one_pos
  counted   := congrArg List.length (keyedSession_standard 0 0).sealed
  bounded   := by
    rw [answeredHost_response]
    decide

theorem answer_job : decryptJob ⟨0x17, 0x0303, answer.payload, answer.toBytes⟩ 0 =
    .decrypt [0] (Gcm.tag constAes ghashMulReference 0 0 (tls13Aad 17) [0]) (tls13Aad 17) 0 := by
  rw [decryptJob, length_answer]
  simp [answer]

theorem answer_answers (w : Worker ed) (c : ClientWorker) :
    Answers constAes w c 0 ⟨0x17, 0x0303, answer.payload, answer.toBytes⟩ where
  type    := rfl
  length  := length_answer ▸ by decide
  fits    := by
    rw [answer_job]
    exact ⟨by decide, by decide⟩
  auth    := by
    rw [answer_job]
    rfl
  content := by
    have hl : (answer.payload.take (answer.payload.length - 16)).length = 1 := by
      rw [length_answer]
      rfl
    have hc (k : Arr 16) (iv : Arr 12) : Gcm.crypt constAes k iv [0] = [1] := by
      simp [Gcm.crypt, Gcm.keystream, constAes, Arr.fill]
    change ∃ ty, ((Gcm.crypt constAes _ _ (.replicate _ 0)).rdropWhile (· == 0)).getLast? =
      some ty ∧ _
    rw [hl, List.replicate_one, hc]
    exact ⟨1, rfl, by decide⟩

theorem answeredHost_run : ∃ es es' b out,
    Run False (handle additiveCurve (fun _ _ => 0) Guest.trivialOpen ⟨0, 0⟩ echoScheme
      ⟨fun _ => .ok [], fun _ => .ok (bundleOf "" "" [])⟩ sharingRandom "host" () 0 3) es
      (.ok (some b)) ∧
    Run False (notaryDemo additiveCurve (fun _ _ => 0) Guest.trivialOpen false
      ⟨fun _ => .ok [], fun _ => .ok (bundleOf "" "" [])⟩ ⟨true, false, false, false⟩ ⟨0, 0, 0⟩
      answeredHost) es' (.ok out) ∧
    Matched (circuits constAes fun _ _ => 0) es es' ∧
    Guest.parseRecords out.rawInbound = .ok (keyedSession.inp ++ [answer]) := by
  obtain ⟨_, out, es, es', ⟨⟨b, rfl⟩, hr⟩, hn, hh, hs, -⟩ :=
    legacyDemo_scheduled (fun _ _ => 0) constAes additiveCurve Guest.trivialOpen ⟨0, 0⟩
      ⟨true, false, false, false⟩ sharingRandom ⟨0, 0, 0⟩ answeredHost echoScheme rfl "host" () 0
      answeredHost_response (fun w c => ⟨answer_answers w c, trivial⟩) (by decide +kernel)
      (by decide +kernel) (by decide +kernel) (bundleOf "" "" []) default 0
  refine ⟨es, es', b, out, hn, hh, hs.matched, ?_⟩
  have hb : out.rawInbound = (keyedSession.inp ++ [answer]).flatMap RawRecord.toBytes := by
    rw [hr.inbound, List.flatMap_append]
    rfl
  rw [hb]
  refine Guest.parseRecords_flatMap ?_
  rw [Guest.Fit, List.forall_mem_append]
  refine ⟨(keyedSession_standard 0 0).inp, fun r hr => ?_⟩
  rw [List.mem_singleton.mp hr, length_answer]
  decide

theorem numbers_disagree_of_answered_host : ∃ es es' b out,
    Run False (handle additiveCurve (fun _ _ => 0) Guest.trivialOpen ⟨0, 0⟩ echoScheme
      ⟨fun _ => .ok [], fun _ => .ok (bundleOf "" "" [])⟩ sharingRandom "host" () 0 3) es
      (.ok (some b)) ∧
    Run False (notaryDemo additiveCurve (fun _ _ => 0) Guest.trivialOpen false
      ⟨fun _ => .ok [], fun _ => .ok (bundleOf "" "" [])⟩ ⟨true, false, false, false⟩ ⟨0, 0, 0⟩
      answeredHost) es' (.ok out) ∧
    (∃ x ∈ numbered (keyedSession.inp ++ [answer]) 0, ∀ r ∈ b.records, r.op = opDecrypt →
      r.seq ≠ x.1) ∧
    List.Forall₂ (fun x seq => x.1 ≠ seq)
      ((numbered (keyedSession.inp ++ [answer]) 0).drop (appRecords keyedSession.inp).length)
      (decryptSeqs (Event.writes es')) := by
  obtain ⟨es, es', b, out, hn, hh, hm, hp⟩ := answeredHost_run
  obtain ⟨rs, hr, hne, hb⟩ :=
    numbers_disagree _ constAes _ _ ⟨0, 0⟩ _ _ _ _ _ answeredHost_captured hh
  obtain rfl := Except.ok.inj (hp.symm.trans hr)
  exact ⟨es, es', b, out, hn, hh, (hb _ _ _ _ _ _ _ _ hn hm).right.right.left, hne⟩

theorem not_numbers_agree :
    ¬∀ (curve : Curve25519) (aes : Arr 16 → Arr 16 → Arr 16) (compress : Arr 32 → Arr 64 → Arr 32)
      (gcm : Gcm.Open) (files : Circuits) (ed : Ed25519) (bincode : Bincode) (rng : ProxyRandom)
      (peer : String) (sk : ed.SigningKey) (now : UInt64) (fuel : Nat) (twoPcTrafficKeys : Bool)
      (args : Args) (rng' : HostRandom) (h : Handshaken) (inp : List RawRecord) (encrypted : Nat)
      (es es' : List (Event wrk17)) (b : NotaryBundle) (out : DemoOutput) (rs : List RawRecord),
      Captured h inp encrypted →
      Run False (handle curve compress gcm files ed bincode rng peer sk now fuel) es
        (.ok (some b)) →
      Run False (notaryDemo curve compress gcm twoPcTrafficKeys bincode args rng' h) es' (.ok out) →
      Matched (circuits aes compress) es es' → Guest.parseRecords out.rawInbound = .ok rs →
      NumbersAgree rs (appRecords inp).length (decryptSeqs (Event.writes es')) b := by
  intro hc
  obtain ⟨es, es', b, out, hn, hh, hm, hp⟩ := answeredHost_run
  obtain ⟨ds, last, raw, hi, hd, hs⟩ := notaryDemo_ok hh
  have ha := hc _ _ _ _ _ _ _ _ _ _ _ _ _ _ _ _ _ _ _ _ _ _ _ answeredHost_captured hn hh hm hp
  have hr := hi ▸ answeredHost_captured.parseRecords_eq hd
  have hne := answeredHost_captured.numbers_ne hd false
  rw [←Except.ok.inj (hp.symm.trans hr), ←hs, ←ha.same, numbered_append,
    List.drop_left' (length_numbered _ _)] at hne
  cases hne
  case cons he _ => exact he rfl

end Agreement
