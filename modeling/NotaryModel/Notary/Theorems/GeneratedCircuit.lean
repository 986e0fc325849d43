import NotaryModel.Circuit.Straighten
import NotaryModel.Crypto.CompressBytes
import NotaryModel.Notary.Theorems.BuildCompression
import NotaryModel.Notary.Theorems.GarbledSessions

open Circuit Wires
open Fips180 (Word)

namespace Notary.GenSha256Compress

open Fips180

-- The bits of words and of their bytes.

theorem msbBits_append (u : BitVec m) (v : BitVec n) :
    msbBits (u ++ v) = msbBits u ++ msbBits v := by
  refine List.ext_getElem (by simp) fun i hi _ => ?_
  simp only [msbBits, List.getElem_ofFn, List.getElem_append, List.length_ofFn,
    BitVec.getMsbD_append]
  split <;> simp_all

theorem bytesToBits_singleton (b : Byte) : bytesToBits [b] = msbBits b.toBitVec := by
  refine List.ext_getElem (by simp [length_bytesToBits]) fun i hi _ => ?_
  have hi : i < 8 := by simpa [length_bytesToBits] using hi
  have h := getElem?_bytesToBits [b] (i := 0) hi
  rw [Nat.mul_zero, Nat.zero_add] at h
  rw [(List.getElem?_eq_some_iff.mp h).2]
  simp only [msbBits, List.getElem_ofFn, BitVec.getMsbD_eq_getLsbD, decide_eq_true hi,
    Bool.true_and]
  rfl

theorem bytesToBits_word (a b c d : Byte) : bytesToBits [a, b, c, d] = msbBits (word a b c d) := by
  have h : [a, b, c, d] = [a] ++ [b] ++ [c] ++ [d] := rfl
  have hw : msbBits (word a b c d) = msbBits (n := 8 + 8 + 8 + 8)
    (a.toBitVec ++ b.toBitVec ++ c.toBitVec ++ d.toBitVec) := rfl
  rw [h, hw]
  simp only [Plain.bytesToBits_append, bytesToBits_singleton, msbBits_append]

theorem bytesToBits_words (h : bs.length = 4 * n) :
    bytesToBits bs = (words bs).flatMap msbBits := by
  fun_induction words bs generalizing n
  case case1 a b c d bs hi =>
    have hs : a :: b :: c :: d :: bs = [a, b, c, d] ++ bs := rfl
    rw [hs, Plain.bytesToBits_append, bytesToBits_word, List.flatMap_cons,
      hi (n := n - 1) (by simp at h; omega)]
  case case2 bs hb =>
    rw [eq_nil_of_short h hb]
    rfl

theorem testBit_extractLsb' (w : Word) (hj : j < 8) (hs : s + (7 - j) = 31 - i) (hi : i < 32) :
    (UInt8.toNat ⟨w.extractLsb' s 8⟩).testBit (7 - j) = w.getMsbD i := by
  change (w.extractLsb' s 8).getLsbD (7 - j) = _
  rw [BitVec.getLsbD_extractLsb', decide_eq_true (by omega), Bool.true_and, hs,
    getMsbD_eq_getLsbD w hi]

theorem getMsbD_wordBytes (w : Word) (hq : q < 4) (hj : j < 8) :
    ((wordBytes w)[q]?.map fun b => b.toNat.testBit (7 - j)) = some (w.getMsbD (8 * q + j)) := by
  have h {s} (hs : s + (7 - j) = 31 - (8 * q + j)) :=
    congrArg some (testBit_extractLsb' w hj hs (by omega))
  match q, hq with
  | 0, _ => exact h (by omega)
  | 1, _ => exact h (by omega)
  | 2, _ => exact h (by omega)
  | 3, _ => exact h (by omega)

theorem bytesToBits_wordBytes (w : Word) : bytesToBits (wordBytes w) = msbBits w := by
  refine List.ext_getElem (by simp [length_bytesToBits, wordBytes]) fun i hi _ => ?_
  have hi : i < 32 := by simpa [length_bytesToBits, wordBytes] using hi
  have h := getElem?_bytesToBits (wordBytes w) (i := i / 8) (j := i % 8) (by omega)
  rw [getMsbD_wordBytes w (by omega) (by omega), Nat.div_add_mod] at h
  rw [(List.getElem?_eq_some_iff.mp h).2]
  simp only [msbBits, List.getElem_ofFn]

theorem bytesToBits_flatMap_wordBytes (ws : List Word) :
    bytesToBits (ws.flatMap wordBytes) = ws.flatMap msbBits := by
  induction ws
  case nil          => rfl
  case cons w ws hi =>
    rw [List.flatMap_cons, List.flatMap_cons, Plain.bytesToBits_append, bytesToBits_wordBytes, hi]

theorem length_compress (iv : Vector Word 8) (m : Vector Word 16) :
    (compress iv m).length = 8 :=
  rfl

theorem bytesToBits_compressBytes (iv : Arr 32) (block : Arr 64) :
    bytesToBits (compressBytes iv block).toList =
    (compress (wordVector 8 iv.toList) (wordVector 16 block.toList)).flatMap msbBits := by
  rw [compressBytes, Arr.toList_ofBytes, bytesToBits_flatMap_wordBytes]
  simp [List.length_flatMap, wordBytes, length_compress]

theorem inputBits_eq (iv : Arr 32) (block : Arr 64) :
    inputBits (wordVector 8 iv.toList) (wordVector 16 block.toList) =
    bytesToBits (iv.toList ++ block.toList) := by
  have hiv : iv.toList.length = 4 * 8 := by simp
  have hb : block.toList.length = 4 * 16 := by simp
  rw [inputBits, toList_wordVector hiv, toList_wordVector hb, Plain.bytesToBits_append,
    bytesToBits_words hiv, bytesToBits_words hb]

-- A builder with outputs that compute the compression function.
structure Compresses (r : List Nat × Builder) : Prop where
  sound  : r.2.Sound 768
  length : r.1.length = 256
  outs   : ∀ w ∈ r.1, w < r.2.nextWire
  values : ∀ iv block, r.1.map (r.2.wires (ofBits (inputBits iv block))) =
    ((compress iv block).flatMap msbBits).map some

theorem compression_compresses : Compresses (compression.run (Builder.new 768)) where
  sound  := buildCompression_keeps.built.sound
  length := buildCompression_keeps.post.left
  outs   := buildCompression_keeps.post.right
  values iv block := by
    have hl := length_inputBits iv block
    exact (emits_compression (ok_new hl (by decide)) (le_new hl (by decide))).post

-- Read as a straight-line circuit, what is written of the builder computes the same.
theorem Compresses.exists_circuit (h : Compresses r) : ∃ c : StraightLine 768 256,
    straighten 256 (r.2.toBristol 768 0 r.1).gates 768 = some c ∧
    Computes (a := 32) (b := 64) (n := 32) c.executor.value compressBytes := by
  have hp := passesOn h.sound h.outs
  have hn : 768 + (r.2.toBristol 768 0 r.1).gates.length = r.2.nextWire + 256 := by
    rw [←h.length]
    exact hp.sound.next.symm.trans hp.next
  obtain ⟨c, hc, hcv⟩ := exists_straighten (fun i hi => hp.sound.sequential.reads hi)
    hp.sound.sequential.outs (m := 256) (hn ▸ Nat.le_add_left ..)
  refine ⟨c, hc, fun v iv block hb => ?_⟩
  have ha : Wires.Agree
      (ofBits (inputBits (wordVector 8 iv.toList) (wordVector 16 block.toList))) v := by
    rw [inputBits_eq, ←hb]
    exact fun i hi => by simp [ofBits, hi]
  have hw : List.range' (768 + (r.2.toBristol 768 0 r.1).gates.length - 256) 256 =
      (passOn r.2 r.1).1 := by
    rw [hn, Nat.add_sub_cancel, hp.wires, h.length]
  have hv := (hcv v _ ha).trans <| (congrArg _ hw).trans <| hp.values _ (length_inputBits ..)
  rw [bytesToBits_compressBytes]
  exact List.map_injective_iff.mpr (Option.some_injective _) (hv.trans (h.values ..))

-- What `main` of the generator writes.
def compressionFile : Bristol :=
  buildCompression.2.toBristol 768 0 buildCompression.1

theorem exists_compressCircuit : ∃ c : StraightLine 768 256,
    straighten 256 compressionFile.gates 768 = some c ∧
    Computes (a := 32) (b := 64) (n := 32) c.executor.value compressBytes := by
  unfold compressionFile buildCompression
  exact compression_compresses.exists_circuit

end Notary.GenSha256Compress

namespace Notary.Wrk17

open Garbling
open Exchange (Scheduled)
open Fips180 (compressBytes)
open GenSha256Compress (compressionFile exists_compressCircuit)

variable {L Q : Type} {A : Q → Type} {gb ev : AuthBits (channel L A)}
  {Paired : gb.Share → ev.Share → Prop} {F : Functionality (channel L A)} {sw : Swanky}
  {PairedTriples : gb.Triple → ev.Triple → Prop}

-- An analysis that counts the gates of all circuits that are run.
structure Analyzes (sw : Swanky) : Prop where
  straightLine (c : StraightLine s m) : sw.Counts (SplitSharedInputMaskCircuit c.executor) c.nands
  ghashChain (n : Nat) :
    sw.Counts (SplitSharedInputMaskCircuit (Plain.GhashChainCircuit n).executor) (n * (128 * 128))

-- Any circuit of that many wires computes something on blocks and keys.
theorem exists_computes (c : Executor 256 128) : ∃ aes : Arr 16 → Arr 16 → Arr 16,
    Computes (a := 16) (b := 16) (n := 16) c.value fun block key => aes key block := by
  refine ⟨fun key block => bitsToBytes 16 (c.value (bitsOf block key)).toList, fun v x y hv => ?_⟩
  rw [bytesToBits_bitsToBytes (by simp)]
  have hb : v = bitsOf x y := Vector.toList_inj.mp hv
  rw [hb]

-- The key schedule over the circuit that the generator writes: both sides end with shares of the
-- keys that TLS 1.3 derives with SHA-256 from the common key material.
theorem generatedTraffic_splits (hl : Lawful sw F gb ev Paired PairedTriples) (ha : Analyzes sw)
    (aesCircuit : StraightLine 256 128) {notaryInit clientInit : Prog (channel L A) Unit}
    (hi : Scheduled F notaryInit clientInit fun _ _ => True) (label : Label → L)
    (masks : Masks wrk17) (rng : Nat → Stream' Block) (ikmN ikmC afterSh afterSf : Arr 32)
    (r : Masks (channel L A)) : ∃ compressCircuit : StraightLine 768 256,
      straighten 256 compressionFile.gates 768 = some compressCircuit ∧
      let c := sessions sw gb ev aesCircuit.executor compressCircuit.executor label notaryInit
        clientInit masks rng
      let p := notaryTls13ClientTrafficFromIkmShares compressBytes ikmN afterSh afterSf
      let q := clientTls13ClientTrafficFromIkmShares compressBytes ikmC afterSh afterSf
      ∃ n c' j,
        n.Splits c' (referenceTls13ClientTraffic compressBytes (ikmN ^^^ ikmC) afterSh afterSf) ∧
        ∀ s, Exchange.Steps F r (.init (c.implementLeft 0 p) (c.implementRight 0 q)) s →
          s.aligned ∧ Exchange.Steps F r s (.final n c' j) := by
  obtain ⟨compressCircuit, hc, hf⟩ := exists_compressCircuit
  obtain ⟨aes, haes⟩ := exists_computes aesCircuit.executor
  have hs : Suitable sw aesCircuit compressCircuit aes compressBytes := {
    aes            := haes
    compress       := hf
    countsAes      := ha.straightLine aesCircuit
    countsCompress := ha.straightLine compressCircuit
    countsGhash    := ha.ghashChain
  }
  have hm : Meets (circuits aes compressBytes) 40
      (notaryTls13ClientTrafficFromIkmShares compressBytes ikmN afterSh afterSf)
      (clientTls13ClientTrafficFromIkmShares compressBytes ikmC afterSh afterSf) _ :=
    tls13ClientTraffic_meets
  obtain ⟨n, c', hk, hst⟩ := hm.steps_final masks
  obtain ⟨j, h⟩ := hst.implement_to_final (sessions_realize hl hs hi masks rng) r
  exact ⟨compressCircuit, hc, n, c', j, hk, h⟩

theorem analyzes_swanky (hash : Block → Nat → Block) : Analyzes (Dealer.swanky hash) where
  straightLine c := Dealer.Counted.counts (SplitSharedInputMaskCircuit.counted (.straightLine c)) _
  ghashChain n   :=
    Dealer.Counted.counts (SplitSharedInputMaskCircuit.counted (ghashChain_counted n)) _

theorem generatedTraffic_splits_zero : ∃ compressCircuit : StraightLine 768 256,
    straighten 256 compressionFile.gates 768 = some compressCircuit ∧
    let F := Dealer.functionality
    let c := sessions (Dealer.swanky fun x _ => x) (Dealer.garbler (.replicate 16 1) 0)
      (Dealer.evaluator (.replicate 16 1) 0) (firstInputs (by decide)).executor
      compressCircuit.executor (fun _ => ()) (pure ()) (pure ()) default fun _ => .const 0
    let p := c.implementLeft 0 (notaryTls13ClientTrafficFromIkmShares compressBytes 0 0 0)
    let q := c.implementRight 0 (clientTls13ClientTrafficFromIkmShares compressBytes 0 0 0)
    ∃ n c j, n.Splits c (referenceTls13ClientTraffic compressBytes (0 ^^^ 0) 0 0) ∧
      ∀ s, Exchange.Steps F Dealer.zeros (.init p q) s →
        s.aligned ∧ Exchange.Steps F Dealer.zeros s (.final n c j) :=
  generatedTraffic_splits (Dealer.lawful Dealer.lsb_ones 0 fun x _ => x) (analyzes_swanky _)
    (firstInputs (by decide)) (.pure trivial) (fun _ => ()) default (fun _ => .const 0) 0 0 0 0
    Dealer.zeros

end Notary.Wrk17
