import NotaryModel.Notary.Hkdf

namespace Notary

open Sha256 (lastBlock getElem_lastBlock)

theorem getElem_padding {block : Arr 64} (hi : i < 64) :
    ((block.copyAt n [0x80]).copyAt 56 (Bytes.be 8 bits))[i] =
    if 56 ≤ i then (Bytes.be 8 bits).getD (i - 56) 0 else if i = n then 0x80 else block[i] := by
  simp only [Arr.getElem_copyAt, Bytes.length_be, List.length_singleton]
  split_ifs <;> first | rfl | omega | simp_all

theorem notaryInnerPadding_xor_clientInnerMsg (h : msg.length ≤ 55) :
    ∃ padN padC, notaryInnerPadding msg.length = pure padN ∧ clientInnerMsg msg = pure padC ∧
      padN ^^^ padC = lastBlock msg := by
  refine ⟨_, _, if_pos h, if_pos h, ?_⟩
  ext i hi
  rw [getElem_lastBlock h, Arr.getElem_xor, getElem_padding hi, Arr.getElem_copyAt]
  split_ifs <;> first | omega | simp

theorem notaryXorMsgBlock_xor_clientXorMsgBlock (msgN msgC : Arr 32) :
    notaryXorMsgBlock msgN ^^^ clientXorMsgBlock msgC = lastBlock (msgN ^^^ msgC).toList := by
  ext i hi
  rw [getElem_lastBlock (by simp), Arr.getElem_xor, notaryXorMsgBlock, clientXorMsgBlock,
    getElem_padding hi, Arr.getElem_copyAt, Arr.getElem_copyAt]
  simp only [Vector.length_toList, List.getD_eq_getElem?_getD]
  split_ifs <;> first | omega | simp_all

-- The block of the outer hash has the layout of a shared 32-byte message.
theorem outerBlock_eq (h : Arr 32) :
    (Arr.copyAt 0 0 h.toList).copyAt 32 outerSuffixPadding.toList = notaryXorMsgBlock h := by
  ext i hi
  rw [notaryXorMsgBlock, getElem_padding hi, Arr.getElem_copyAt]
  by_cases hm : i < 32
  · have h₁ : ¬32 ≤ i := by omega
    have h₂ : ¬56 ≤ i := by omega
    have h₃ : i ≠ 32 := by omega
    simp [h₁, h₂, h₃]
  · obtain ⟨j, rfl⟩ := Nat.exists_eq_add_of_le (Nat.not_lt.mp hm)
    have hj : j < 32 := by omega
    have h₁ : 32 + j - 56 = j - 24 := by omega
    simp only [Vector.length_toList, Nat.le_add_right, Nat.add_lt_add_iff_left, hj, and_true,
      if_true, List.getD_eq_getElem?_getD, Vector.getElem?_toList, Nat.add_sub_cancel_left,
      Vector.getElem?_eq_getElem hj, Option.getD_some, outerSuffixPadding, Arr.getElem_copyAt, h₁,
      Bytes.length_be, List.length_singleton]
    split_ifs <;> first | rfl | omega | simp [show j = 0 by omega] | simp

theorem copyAt_xor (a b : Arr 32) :
    (Arr.copyAt 0 0 a.toList : Arr 64) ^^^ Arr.copyAt 0 0 b.toList =
    .ofBytes 64 (a ^^^ b).toList := by
  ext i hi
  by_cases hm : i < 32 <;> simp [hm, List.getD_eq_getElem?_getD]

section

variable {aes : Arr 16 → Arr 16 → Arr 16} {compress : Arr 32 → Arr 64 → Arr 32}

-- The two parties' blocks are shares of the padded message, and so are their results of its HMAC.
theorem hmac_meets (hm : msg.length ≤ 55) (h : padN ^^^ padC = lastBlock msg) :
    Meets (circuits aes compress) 4 (notaryHmac keyN (pure padN)) (clientHmac keyC (pure padC))
      fun y y' => y ^^^ y' = Sha256.hmac compress (keyN ^^^ keyC).toList msg := by
  unfold notaryHmac clientHmac
  refine .bind (j := 3) sha256CompressXor_meets fun _ _ h₁ => ?_
  simp only [LawfulMonad.pure_bind]
  refine .bind (j := 2) sha256CompressXor_meets fun _ _ h₂ => ?_
  refine .bind (j := 1) sha256CompressXor_meets fun _ _ h₃ => ?_
  refine .mono sha256CompressXor_meets fun _ _ h₄ => ?_
  rw [Sha256.hmac_eq (by simp) hm, h₄, h₃, outerBlock_eq]
  rw [show notaryXorMsgBlock _ ^^^ Arr.copyAt 0 0 _ = _ from
    notaryXorMsgBlock_xor_clientXorMsgBlock .., h₂, h₁, h]
  rw [Arr.xor_right_comm _ (Arr.fill ..), Arr.xor_right_comm _ (Arr.fill ..), copyAt_xor, Arr.xor_zero]
  rfl

theorem hmacSha256_meets (h : msg.length ≤ 55) : Meets (circuits aes compress) 4
    (notaryHmacSha256 keyN msg.length) (clientHmacSha256 keyC msg)
    fun y y' => y ^^^ y' = Sha256.hmac compress (keyN ^^^ keyC).toList msg := by
  obtain ⟨padN, padC, hN, hC, hp⟩ := notaryInnerPadding_xor_clientInnerMsg h
  rw [notaryHmacSha256, clientHmacSha256, hN, hC]
  exact hmac_meets h hp

theorem hmacSha256XorMsg_meets : Meets (circuits aes compress) 4
    (notaryHmacSha256XorMsg keyN msgN) (clientHmacSha256XorMsg keyC msgC)
    fun y y' => y ^^^ y' = Sha256.hmac compress (keyN ^^^ keyC).toList (msgN ^^^ msgC).toList :=
  hmac_meets (by simp) (notaryXorMsgBlock_xor_clientXorMsgBlock ..)

theorem hkdfExtract_meets (h : ikm.length ≤ 55) : Meets (circuits aes compress) 4
    (notaryHkdfExtract saltN ikm.length) (clientHkdfExtract saltC ikm)
    fun y y' => y ^^^ y' = referenceHkdfExtract compress (saltN ^^^ saltC) ikm :=
  hmacSha256_meets h

theorem hkdfExtractXorIkm_meets : Meets (circuits aes compress) 4
    (notaryHkdfExtractXorIkm saltN ikmN) (clientHkdfExtractXorIkm saltC ikmC)
    fun y y' => y ^^^ y' =
      referenceHkdfExtract compress (saltN ^^^ saltC) (ikmN ^^^ ikmC).toList :=
  hmacSha256XorMsg_meets

theorem hkdfExpandLabel_meets (h : (hkdfExpandLabelInfo label context len).length ≤ 55) :
    Meets (circuits aes compress) 4
      (notaryHkdfExpandLabel secretN label context len)
      (clientHkdfExpandLabel secretC label context len)
      fun y y' => y ^^^ y' =
        referenceHkdfExpandLabel compress (secretN ^^^ secretC) label context len :=
  hmacSha256_meets h

theorem length_hkdfExpandLabelInfo : (hkdfExpandLabelInfo label context len).length =
    (Bytes.ofString ("tls13 " ++ label)).length + context.length + 5 := by
  simp [hkdfExpandLabelInfo]
  omega

theorem truncate_xor (a b : Arr 32) : truncate n a ^^^ truncate n b = truncate n (a ^^^ b) := by
  ext i h
  by_cases hi : i < 32 <;> simp [truncate, hi, List.getD_eq_getElem?_getD]

-- The two parties' results are shares of the traffic keys and IVs.
structure NotaryTrafficShares.Splits (n : NotaryTrafficShares) (c : ClientTrafficShares)
    (k : TrafficKeys) : Prop where
  kTx  : n.kNTx ^^^ c.kCTx = k.txKey
  kRx  : n.kNRx ^^^ c.kCRx = k.rxKey
  ivTx : n.ivTx ^^^ c.ivTx = k.txIv
  ivRx : n.ivRx ^^^ c.ivRx = k.rxIv

theorem length_transcriptInfo_le (context : Arr 32)
    (h : (Bytes.ofString ("tls13 " ++ label)).length ≤ 18) :
    (hkdfExpandLabelInfo label context.toList len).length ≤ 55 := by
  rw [length_hkdfExpandLabelInfo, Vector.length_toList]
  omega

-- The key schedule takes ten HMACs of four rounds each.
theorem tls13ClientTraffic_meets : Meets (circuits aes compress) 40
    (notaryTls13ClientTrafficFromIkmShares compress ikmN afterSh afterSf)
    (clientTls13ClientTrafficFromIkmShares compress ikmC afterSh afterSf)
    fun n c => n.Splits c (referenceTls13ClientTraffic compress (ikmN ^^^ ikmC) afterSh afterSf) := by
  have hm (saltN saltC) : Meets (circuits aes compress) 4
      (notaryHkdfExtract saltN 32) (clientHkdfExtract saltC (0 : Arr 32).toList) _ :=
    hkdfExtract_meets (show (0 : Arr 32).toList.length ≤ 55 by simp)
  unfold notaryTls13ClientTrafficFromIkmShares clientTls13ClientTrafficFromIkmShares
  refine .bind (j := 36) hkdfExtractXorIkm_meets fun _ _ hs => ?_
  refine .bind (j := 32) (hkdfExpandLabel_meets (length_transcriptInfo_le _ (by decide)))
    fun _ _ _ => ?_
  refine .bind (j := 28) (hkdfExpandLabel_meets (length_transcriptInfo_le _ (by decide)))
    fun _ _ derived2 => ?_
  refine .bind (j := 24) (hm _ _) fun _ _ master => ?_
  refine .bind (j := 20) (hkdfExpandLabel_meets (length_transcriptInfo_le _ (by decide)))
    fun _ _ clientApp => ?_
  refine .bind (j := 16) (hkdfExpandLabel_meets (length_transcriptInfo_le _ (by decide)))
    fun _ _ serverApp => ?_
  refine .bind (j := 12) (hkdfExpandLabel_meets (by decide)) fun _ _ txFull => ?_
  refine .bind (j := 8) (hkdfExpandLabel_meets (by decide)) fun _ _ rxFull => ?_
  refine .bind (j := 4) (hkdfExpandLabel_meets (by decide)) fun _ _ ivTx => ?_
  refine .bind (j := 0) (hkdfExpandLabel_meets (by decide)) fun _ _ ivRx => ?_
  rw [Arr.xor_zero] at hs
  rw [hs] at derived2
  rw [derived2] at master
  rw [master] at clientApp serverApp
  rw [clientApp] at txFull ivTx
  rw [serverApp] at rxFull ivRx
  refine .pure ⟨?kTx, ?kRx, ?ivTx, ?ivRx⟩
  case kTx  => rw [truncate_xor, txFull]; rfl
  case kRx  => rw [truncate_xor, rxFull]; rfl
  case ivTx => rw [truncate_xor, ivTx]; rfl
  case ivRx => rw [truncate_xor, ivRx]; rfl

-- Under every choice of the masks, every way to run the two sides against each other ends after the
-- same forty rounds with shares of the single-party keys.
theorem tls13ClientTraffic_splits (aes : Arr 16 → Arr 16 → Arr 16)
    (compress : Arr 32 → Arr 64 → Arr 32) (ikmN ikmC afterSh afterSf : Arr 32) (m : Masks wrk17) :
    let p := notaryTls13ClientTrafficFromIkmShares compress ikmN afterSh afterSf
    let q := clientTls13ClientTrafficFromIkmShares compress ikmC afterSh afterSf
    ∃ n c, n.Splits c (referenceTls13ClientTraffic compress (ikmN ^^^ ikmC) afterSh afterSf) ∧
      ∀ s, Steps (circuits aes compress) m (.init p q) s →
        Steps (circuits aes compress) m s (.final n c 40) := by
  exact tls13ClientTraffic_meets.steps_to_final m

-- The same for one HMAC, of a message that the client has and of a message that the two share: four
-- rounds, and shares of the HMAC under the shared key.
theorem hmacSha256_splits (aes : Arr 16 → Arr 16 → Arr 16) (compress : Arr 32 → Arr 64 → Arr 32)
    (keyN keyC : Arr 32) (m : Masks wrk17) :
    (∀ msg : Bytes, msg.length ≤ 55 →
      let p := notaryHmacSha256 keyN msg.length
      let q := clientHmacSha256 keyC msg
      ∃ y y', y ^^^ y' = Sha256.hmac compress (keyN ^^^ keyC).toList msg ∧
        ∀ s, Steps (circuits aes compress) m (.init p q) s →
          Steps (circuits aes compress) m s (.final y y' 4)) ∧
    ∀ msgN msgC : Arr 32,
      let p := notaryHmacSha256XorMsg keyN msgN
      let q := clientHmacSha256XorMsg keyC msgC
      ∃ y y', y ^^^ y' = Sha256.hmac compress (keyN ^^^ keyC).toList (msgN ^^^ msgC).toList ∧
        ∀ s, Steps (circuits aes compress) m (.init p q) s →
          Steps (circuits aes compress) m s (.final y y' 4) :=
  ⟨fun _ h => (hmacSha256_meets h).steps_to_final m,
    fun _ _ => hmacSha256XorMsg_meets.steps_to_final m⟩

theorem hmacSha256_splits_of_one_byte :
    let F := circuits (fun key block => key ^^^ block) fun h _ => h
    let p := notaryHmacSha256 0 1
    let q := clientHmacSha256 0 [0]
    ∃ y y', y ^^^ y' = Sha256.hmac (fun h _ => h) ((0 : Arr 32) ^^^ 0).toList [0] ∧
      ∀ s, Steps F default (.init p q) s → Steps F default s (.final y y' 4) :=
  (hmacSha256_splits _ _ 0 0 default).left [0] (by decide)

end

end Notary
