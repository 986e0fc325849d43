import NotaryModel.Notary.Aes

namespace Notary

open Bytes (blockCount validBytes)

theorem blockBytes_eq (h : blk < blockCount n) : blockBytes n blk = validBytes n blk := by
  unfold blockBytes lastBytes validBytes
  unfold blockCount at *
  by_cases hb : blk = (n + 15) / 16 - 1 <;> by_cases hn : n = 0 <;> simp only [hb, hn, if_true, if_false]
  all_goals omega

theorem paddedBlock_eq (bs : Bytes) : paddedBlock bs = bs.block := by
  funext blk
  ext j h
  have hj : blk * 16 + j = 16 * blk + j := by omega
  simp only [paddedBlock, Bytes.slice, Arr.getElem_copyFromSlice, Bytes.getElem_block,
    List.getD_eq_getElem?_getD, List.getElem?_take, List.getElem?_drop, hj]
  split
  case isTrue  => simp
  case isFalse => simp [List.getElem?_eq_none (show bs.length ≤ 16 * blk + j by omega)]

-- What the notary is given in the course of a record: its shares of the hash key and of the tag's
-- keystream block, the values `round` of the rounds, and its share of the GHASH value.
structure NotaryInputs (X : Type) where
  h     : Arr 16
  s     : Arr 16
  round : Nat → X
  x     : Arr 16

structure ClientInputs (X : Type) extends NotaryInputs X where
  tag : Arr 16

theorem NotaryInputs.exists_iff {p : NotaryInputs X → Prop} :
    (∃ i, p i) ↔ ∃ h s round x, p ⟨h, s, round, x⟩ where
  mp  | ⟨⟨h, s, round, x⟩, hp⟩ => ⟨h, s, round, x, hp⟩
  mpr | ⟨h, s, round, x, hp⟩ => ⟨⟨h, s, round, x⟩, hp⟩

theorem ClientInputs.exists_iff {p : ClientInputs X → Prop} :
    (∃ i, p i) ↔ ∃ h s round x tag, p ⟨⟨h, s, round, x⟩, tag⟩ where
  mp  | ⟨⟨⟨h, s, round, x⟩, tag⟩, hp⟩ => ⟨h, s, round, x, tag, hp⟩
  mpr | ⟨h, s, round, x, tag, hp⟩ => ⟨⟨⟨h, s, round, x⟩, tag⟩, hp⟩

-- The events of a record, given those of its rounds.
section

variable {X : Type}

def notaryEvents (k : Arr 16) (nonce : Arr 12) (n : Nat) (round : Nat → X → List (Event wrk17))
    (blocks : (Nat → X) → List (Arr 16)) (i : NotaryInputs X) : List (Event wrk17) :=
  [.session (.aes 0 k) i.h, .session (.aes (makeNonceCtr nonce 1) k) i.s] ++
    ((List.range (blockCount n)).flatMap (fun blk => round blk (i.round blk)) ++
      [.session (.ghash (blocks i.round) i.h) i.x, .write .tag (i.x ^^^ i.s).toList])

def clientEvents (k : Arr 16) (n : Nat) (round : Nat → X → List (Event wrk17))
    (blocks : (Nat → X) → List (Arr 16)) (i : ClientInputs X) : List (Event wrk17) :=
  [.session (.aes 0 k) i.h, .session (.aes 0 k) i.s] ++
    ((List.range (blockCount n)).flatMap (fun blk => round blk (i.round blk)) ++
      [.session (.ghash (blocks i.round) i.h) i.x, .read .tag i.tag.toList])

end

namespace notaryEncryptGcm

def roundEvents (kN : Arr 16) (nonce : Arr 12) (blk : Nat) (ks : Arr 16) : List (Event wrk17) :=
  [.session (.aes (makeNonceCtr nonce (blk + 2)) kN) ks, .write (.keystream blk) ks.toList]

def blocks (aad : Bytes) (n : Nat) (ks : Nat → Arr 16) : List (Arr 16) :=
  (List.range (blockCount aad.length)).map (paddedBlock aad) ++
    ((List.range (blockCount n)).map (fun blk => zeroPadBlock (ks blk) (blockBytes n blk)) ++
      [evLenBlock aad.length n])

abbrev events (kN : Arr 16) (nonce : Arr 12) (aad : Bytes) (n : Nat) :
    NotaryInputs (Arr 16) → List (Event wrk17) :=
  notaryEvents kN nonce n (roundEvents kN nonce) (blocks aad n)

theorem round_denotes (kN : Arr 16) (nonce : Arr 12) (n blk : Nat) :
    (round kN nonce n blk).Denotes (roundEvents kN nonce blk)
      (fun ks => zeroPadBlock ks (blockBytes n blk)) := by
  intro es r
  simp [round, roundEvents]

theorem denotes (kN : Arr 16) (nonce : Arr 12) (aad : Bytes) (n : Nat) :
    (notaryEncryptGcm kN nonce aad n).Denotes (events kN nonce aad n) (fun _ => ()) := by
  intro es r
  simp [notaryEncryptGcm, (Prog.Denotes.mapM (round_denotes kN nonce n) _).bind_iff, Run.send_iff,
    NotaryInputs.exists_iff, notaryEvents, blocks]

end notaryEncryptGcm

namespace clientEncryptGcm

def roundEvents (kC : Arr 16) (blk : Nat) (i : Arr 16 × Arr 16) : List (Event wrk17) :=
  [.read (.keystream blk) i.1.toList, .session (.aes 0 kC) i.2]

def blocks (plaintext aad : Bytes) (i : Nat → Arr 16 × Arr 16) : List (Arr 16) :=
  List.replicate (blockCount aad.length) 0 ++
    ((List.range (blockCount plaintext.length)).map (fun blk =>
        zeroPadBlock (paddedBlock plaintext blk ^^^ (i blk).2) (blockBytes plaintext.length blk)) ++
      [0])

def ciphertext (plaintext : Bytes) (i : Nat → Arr 16 × Arr 16) : Bytes :=
  (List.range (blockCount plaintext.length)).flatMap fun blk =>
    (paddedBlock plaintext blk ^^^ (i blk).2 ^^^ (i blk).1).toList.take
      (blockBytes plaintext.length blk)

abbrev events (kC : Arr 16) (plaintext aad : Bytes) :
    ClientInputs (Arr 16 × Arr 16) → List (Event wrk17) :=
  clientEvents kC plaintext.length (roundEvents kC) (blocks plaintext aad)

theorem round_denotes (kC : Arr 16) (plaintext : Bytes) (blk : Nat) :
    (round kC plaintext blk).Denotes (roundEvents kC blk) (fun i =>
      (zeroPadBlock (paddedBlock plaintext blk ^^^ i.2) (blockBytes plaintext.length blk),
        (paddedBlock plaintext blk ^^^ i.2 ^^^ i.1).toList.take
          (blockBytes plaintext.length blk))) := by
  intro es r
  simp [round, roundEvents]

theorem denotes (kC : Arr 16) (plaintext aad : Bytes) (nonce : Arr 12) :
    (clientEncryptGcm kC plaintext aad nonce).Denotes (events kC plaintext aad)
      (fun i => (ciphertext plaintext i.round, i.tag ^^^ (i.x ^^^ i.s))) := by
  intro es r
  simp [clientEncryptGcm, (Prog.Denotes.mapM (round_denotes kC plaintext) _).bind_iff,
    ClientInputs.exists_iff, clientEvents, blocks, ciphertext, Function.comp_def, List.flatMap_map]

end clientEncryptGcm

namespace notaryDecryptGcm

def roundEvents (kN : Arr 16) (nonce : Arr 12) (blk : Nat) (i : Arr 16 × Arr 16) :
    List (Event wrk17) :=
  [.session (.aes (makeNonceCtr nonce (blk + 2)) kN) i.1, .read (.ciphertext blk) i.2.toList,
    .write (.plaintext blk) (i.2 ^^^ i.1).toList]

def blocks (aadLen n : Nat) (_ : Nat → Arr 16 × Arr 16) : List (Arr 16) :=
  List.replicate (blockCount aadLen) 0 ++
    (List.replicate (blockCount n) 0 ++ [evLenBlock aadLen n])

abbrev events (kN : Arr 16) (nonce : Arr 12) (aadLen n : Nat) :
    NotaryInputs (Arr 16 × Arr 16) → List (Event wrk17) :=
  notaryEvents kN nonce n (roundEvents kN nonce) (blocks aadLen n)

theorem round_denotes (kN : Arr 16) (nonce : Arr 12) (blk : Nat) :
    (round kN nonce blk).Denotes (roundEvents kN nonce blk) (fun _ => 0) := by
  intro es r
  simp [round, roundEvents]

theorem denotes (kN : Arr 16) (nonce : Arr 12) (aadLen n : Nat) :
    (notaryDecryptGcm kN nonce aadLen n).Denotes (events kN nonce aadLen n) (fun _ => ()) := by
  intro es r
  simp [notaryDecryptGcm, (Prog.Denotes.mapM (round_denotes kN nonce) _).bind_iff, Run.send_iff,
    NotaryInputs.exists_iff, notaryEvents, blocks]

end notaryDecryptGcm

theorem reads_notaryDecryptGcm {i : NotaryInputs (Arr 16 × Arr 16)} :
    Event.reads (notaryDecryptGcm.events kN nonce aadLen n i) =
    (List.range (blockCount n)).map fun blk => (.ciphertext blk, (i.round blk).2.toList) := by
  have hr (blk : Nat) : Event.reads (notaryDecryptGcm.roundEvents kN nonce blk (i.round blk)) =
      [(.ciphertext blk, (i.round blk).2.toList)] := rfl
  simp [notaryEvents, Event.reads_flatMap, hr, List.map_eq_flatMap]

namespace clientDecryptGcm2pc

def roundEvents (kC : Arr 16) (ciphertext : Bytes) (blk : Nat) (i : Arr 16 × Arr 16) :
    List (Event wrk17) :=
  [.write (.ciphertext blk) (paddedBlock ciphertext blk).toList, .session (.aes 0 kC) i.1,
    .read (.plaintext blk) i.2.toList]

def blocks (ciphertext aad : Bytes) (_ : Nat → Arr 16 × Arr 16) : List (Arr 16) :=
  (List.range (blockCount aad.length)).map (paddedBlock aad) ++
    ((List.range (blockCount ciphertext.length)).map (fun blk =>
      zeroPadBlock (paddedBlock ciphertext blk) (blockBytes ciphertext.length blk)) ++ [0])

abbrev events (kC : Arr 16) (ciphertext aad : Bytes) :
    ClientInputs (Arr 16 × Arr 16) → List (Event wrk17) :=
  clientEvents kC ciphertext.length (roundEvents kC ciphertext) (blocks ciphertext aad)

def plaintext (ciphertext : Bytes) (i : Nat → Arr 16 × Arr 16) : Bytes :=
  (List.range (blockCount ciphertext.length)).flatMap fun blk =>
    ((i blk).2 ^^^ (paddedBlock ciphertext blk ^^^ (i blk).1)).toList.take
      (blockBytes ciphertext.length blk)

def result (ciphertext : Bytes) (receivedTag : Arr 16) (i : ClientInputs (Arr 16 × Arr 16)) :
    Except Err Bytes :=
  if i.tag ^^^ (i.x ^^^ i.s) = receivedTag then
    .ok (plaintext ciphertext i.round)
  else
    .error (.other "AES-GCM authentication failed")

theorem round_denotes (kC : Arr 16) (ciphertext : Bytes) (blk : Nat) :
    (round kC ciphertext blk).Denotes (roundEvents kC ciphertext blk) (fun i =>
      (zeroPadBlock (paddedBlock ciphertext blk) (blockBytes ciphertext.length blk),
        (i.2 ^^^ (paddedBlock ciphertext blk ^^^ i.1)).toList.take
          (blockBytes ciphertext.length blk))) := by
  intro es r
  simp [round, roundEvents]

theorem check_iff {r : Except Err Bytes} :
    Run False (if !ctEq16 t t' then Prog.fail e else Prog.pure pt : Wrk17 Bytes) es r ↔
    r = (if t = t' then .ok pt else .error e) ∧ es = [] := by
  by_cases h : t = t' <;> simp [h, ctEq16_iff, Bool.eq_false_iff, and_comm]

theorem run_iff {kC : Arr 16} {ciphertext aad : Bytes} {receivedTag : Arr 16} {nonce : Arr 12}
    {r : Except Err Bytes} :
    Run False (clientDecryptGcm2pc kC ciphertext aad receivedTag nonce) es r ↔
    ∃ i, r = result ciphertext receivedTag i ∧ es = events kC ciphertext aad i := by
  simp [clientDecryptGcm2pc, (Prog.Denotes.mapM (round_denotes kC ciphertext) _).bind_iff,
    ClientInputs.exists_iff, clientEvents, blocks, result, plaintext, Function.comp_def,
    List.flatMap_map, check_iff, -Bool.not_eq_eq_eq_not]

end clientDecryptGcm2pc

end Notary
