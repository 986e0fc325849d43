import NotaryModel.Guest.NotaryPath
import NotaryModel.Guest.Theorems.Transcripts
import NotaryModel.Notary.Handshake

open Common Notary

namespace Agreement

-- A `key_share` extension: its data, and the block of extensions from its data on.
structure Share where
  data : Bytes
  rest : Bytes

namespace Share

def key (s : Share) : Arr 32 :=
  .ofBytes 32 (Bytes.slice s.rest 4 36)

-- A group and a length of X25519.
def IsX25519 (s : Share) : Prop :=
  Bytes.ofBe (Bytes.slice s.rest 0 2) = 0x001d ∧ Bytes.ofBe (Bytes.slice s.rest 2 4) = 32

instance : DecidablePred IsX25519 :=
  fun _ => inferInstanceAs <| Decidable (_ ∧ _)

-- The guest takes the share, or gives up at it.
def Whole (s : Share) : Prop :=
  36 ≤ s.data.length ∧ s.IsX25519

def Short (s : Share) : Prop :=
  s.data.length < 4

-- The notary takes the share. The last bytes of the key may lie behind the extension.
def Loose (s : Share) : Prop :=
  34 ≤ s.data.length ∧ 36 ≤ s.rest.length ∧ s.IsX25519

instance : DecidablePred Whole := fun _ => inferInstanceAs <| Decidable (_ ∧ _)
instance : DecidablePred Short := fun _ => inferInstanceAs <| Decidable (_ < _)
instance : DecidablePred Loose := fun _ => inferInstanceAs <| Decidable (_ ∧ _)

end Share

-- The `key_share` extensions of a block.
def shares : Bytes → List Share
  | t₀ :: t₁ :: l₀ :: l₁ :: exts =>
    let extLen := Bytes.ofBe [l₀, l₁]
    if exts.length < extLen then
      []
    else if Bytes.ofBe [t₀, t₁] = 0x0033 then
      ⟨exts.take extLen, exts⟩ :: shares (exts.drop extLen)
    else
      shares (exts.drop extLen)
  | _ => []
termination_by exts => exts.length
decreasing_by all_goals simp only [List.length_drop, List.length_cons]; omega

-- What the guest finds in a block.
def strict (block : Bytes) : Option Share :=
  (shares block).find? (fun s => s.Whole ∨ s.Short) |>.filter (·.Whole)

theorem slice_take (h : b ≤ n) : Bytes.slice (l.take n) a b = Bytes.slice l a b := by
  simp only [Bytes.slice, List.drop_take, List.take_take]
  congr 1
  omega

section

variable {t₀ t₁ l₀ l₁ : Byte} {exts : Bytes}

theorem shares_of_keyShare (h : ¬exts.length < Bytes.ofBe [l₀, l₁])
    (ht : Bytes.ofBe [t₀, t₁] = 0x0033) : shares (t₀ :: t₁ :: l₀ :: l₁ :: exts) =
    ⟨exts.take (Bytes.ofBe [l₀, l₁]), exts⟩ :: shares (exts.drop (Bytes.ofBe [l₀, l₁])) := by
  rw [shares, if_neg h, if_pos ht]

theorem shares_of_other (h : ¬exts.length < Bytes.ofBe [l₀, l₁])
    (ht : ¬Bytes.ofBe [t₀, t₁] = 0x0033) : shares (t₀ :: t₁ :: l₀ :: l₁ :: exts) =
    shares (exts.drop (Bytes.ofBe [l₀, l₁])) := by
  rw [shares, if_neg h, if_neg ht]

theorem shares_of_truncated (h : exts.length < Bytes.ofBe [l₀, l₁]) :
    shares (t₀ :: t₁ :: l₀ :: l₁ :: exts) = [] := by
  rw [shares, if_pos h]

end

theorem shares_nil : shares [] = [] := by
  rw [shares]
  simp

theorem strict_of_shares (h : shares block = s :: shares block') : strict block =
    if s.Whole then some s else if s.Short then none else strict block' := by
  rw [strict, h, strict, List.find?_cons]
  by_cases hw : s.Whole
  · simp [hw]
  · by_cases hs : s.Short
    · simp [hw, hs]
    · simp [hw, hs]

theorem parseKeyShareServer_eq (block : Bytes) :
    Guest.parseKeyShareServer block = (strict block).map Share.key := by
  induction block using shares.induct
  case case1 t₀ t₁ l₀ l₁ exts l h =>
    rw [Guest.parseKeyShareServer, strict, shares_of_truncated h, if_pos h]
    rfl
  case case2 t₀ t₁ l₀ l₁ exts l h ht hi =>
    have hl : (exts.take (Bytes.ofBe [l₀, l₁])).length = Bytes.ofBe [l₀, l₁] :=
      List.length_take_of_le (Nat.not_lt.mp h)
    rw [strict_of_shares (shares_of_keyShare h ht), Guest.parseKeyShareServer, if_neg h]
    simp only [if_pos ht, hl, Share.Whole, Share.Short, Share.IsX25519]
    by_cases hs : Bytes.ofBe [l₀, l₁] < 4
    · rw [if_pos hs, if_neg fun hw => by omega, if_pos hs]
      rfl
    · rw [slice_take (by omega), slice_take (by omega), if_neg hs, if_neg hs]
      by_cases hw : 36 ≤ Bytes.ofBe [l₀, l₁] ∧ Bytes.ofBe (Bytes.slice exts 0 2) = 0x001d ∧
          Bytes.ofBe (Bytes.slice exts 2 4) = 32
      · rw [if_pos hw, if_pos ⟨hw.2.1, hw.2.2, hw.1⟩, slice_take hw.1]
        rfl
      · rw [if_neg hw, if_neg fun h => hw ⟨h.2.2, h.1, h.2.1⟩]
        exact hi
  case case3 t₀ t₁ l₀ l₁ exts l h ht hi =>
    have hs : strict (t₀ :: t₁ :: l₀ :: l₁ :: exts) = strict (exts.drop (Bytes.ofBe [l₀, l₁])) := by
      rw [strict, strict, shares_of_other h ht]
    rw [hs, Guest.parseKeyShareServer, if_neg h]
    exact (if_neg ht).trans hi
  case case4 block h =>
    rw [Guest.parseKeyShareServer, strict, shares]
    · rfl
    · exact h
    · exact h

theorem extensions_eq (block : Bytes) : Notary.parseShKeyShare.extensions block =
    ((shares block).find? (·.Loose)).map Share.key := by
  induction block using shares.induct
  case case1 t₀ t₁ l₀ l₁ exts l h =>
    rw [Notary.parseShKeyShare.extensions, shares_of_truncated h, if_pos h]
    rfl
  case case2 t₀ t₁ l₀ l₁ exts l h ht hi =>
    have hl : (exts.take (Bytes.ofBe [l₀, l₁])).length = Bytes.ofBe [l₀, l₁] :=
      List.length_take_of_le (Nat.not_lt.mp h)
    rw [shares_of_keyShare h ht, Notary.parseShKeyShare.extensions, if_neg h, List.find?_cons]
    by_cases hs : Share.Loose ⟨exts.take (Bytes.ofBe [l₀, l₁]), exts⟩
    · have h₁ := hs.1
      rw [hl] at h₁
      rw [if_pos ⟨ht, h₁, hs.2.2.1, hs.2.2.2, hs.2.1⟩]
      simp only [hs, decide_true]
      rfl
    · rw [if_neg fun h => hs ⟨hl.symm ▸ h.2.1, h.2.2.2.2, h.2.2.1, h.2.2.2.1⟩]
      simp only [hs, decide_false]
      exact hi
  case case3 t₀ t₁ l₀ l₁ exts l h ht hi =>
    rw [shares_of_other h ht, Notary.parseShKeyShare.extensions, if_neg h,
      if_neg fun hs => ht hs.1]
    exact hi
  case case4 block h =>
    rw [Notary.parseShKeyShare.extensions, shares]
    · rfl
    · exact h
    · exact h

-- The extensions of a ServerHello as the guest finds them: one byte of compression method, and an
-- end that is cut to the end of the message.
def guestBlock (body : Bytes) : Option Bytes := do
  let sidLen ← body[34]?
  let pos := 34 + (1 + sidLen.toNat) + 2 + 1
  guard (pos + 2 ≤ body.length)
  let extTotal := Bytes.ofBe (body.slice pos (pos + 2))
  pure (body.slice (pos + 2) (min (pos + 2 + extTotal) body.length))

-- As the notary finds them: a length of the compression methods, and an end within the record.
def notaryBlock (body : Bytes) : Option Bytes := do
  let sidLen ← body[34]?
  let compLen ← body[35 + sidLen.toNat + 2]?
  let pos := 35 + sidLen.toNat + 2 + 1 + compLen.toNat
  guard (pos + 2 ≤ body.length)
  let extLen := Bytes.ofBe (body.slice pos (pos + 2))
  guard (pos + 2 + extLen ≤ body.length)
  pure (body.slice (pos + 2) (pos + 2 + extLen))

-- The shares of the first ServerHello message in the first handshake record.
def guestShares (rs : List RawRecord) : List Share :=
  ((Guest.firstMessage 2 rs).bind guestBlock).elim [] shares

-- The shares of every handshake record that begins like a ServerHello message, whatever its length.
def notaryShares (rs : List RawRecord) : List Share :=
  rs.flatMap fun r =>
    if r.contentType = 22 ∧ 4 ≤ r.payload.length ∧ r.payload.head? = some 2 then
      (notaryBlock (r.payload.drop 4)).elim [] shares
    else
      []

theorem parseShKeyShare_eq (body : Bytes) : Notary.parseShKeyShare body =
    (((notaryBlock body).elim [] shares).find? (·.Loose)).map Share.key := by
  simp only [Notary.parseShKeyShare, notaryBlock, Nat.reduceAdd]
  cases h₁ : body[34]?
  case none =>
    have hl : ¬35 ≤ body.length :=
      Nat.not_le.mpr (Nat.lt_succ_of_le (List.getElem?_eq_none_iff.mp h₁))
    simp [hl, guard]
  case some sidLen =>
    have hl : 35 ≤ body.length := (List.getElem?_eq_some_iff.mp h₁).1
    simp only [hl, guard, if_true, Option.bind_eq_bind, Option.bind_some, Option.pure_def]
    cases h₂ : body[35 + sidLen.toNat + 2]?
    case none =>
      cases (if 35 + sidLen.toNat + 2 ≤ body.length then some () else failure : Option Unit) <;> rfl
    case some compLen =>
      have hl : 35 + sidLen.toNat + 2 ≤ body.length :=
        Nat.le_of_lt (List.getElem?_eq_some_iff.mp h₂).1
      simp only [hl, if_true, Option.bind_some]
      split_ifs
      · exact extensions_eq _
      all_goals rfl

theorem notary_eq (h : RawRecord.parse inbound = some rs) :
    Notary.parseServerHelloKeyShare inbound =
    ((notaryShares rs).find? (·.Loose)).map Share.key := by
  induction inbound using RawRecord.parse.induct generalizing rs
  case case1 ct v₀ v₁ l₀ l₁ inbound len hl =>
    rw [RawRecord.parse, if_pos hl] at h
    cases h
  case case2 ct v₀ v₁ l₀ l₁ inbound len hl hi =>
    rw [RawRecord.parse, if_neg hl] at h
    obtain ⟨rs', hr, he⟩ := Option.map_eq_some_iff.mp h
    subst he
    rw [Notary.parseServerHelloKeyShare, if_neg hl]
    simp only [notaryShares, List.flatMap_cons, List.find?_append, Option.map_or]
    rw [hi hr]
    congr 1
    by_cases hc : ct = 22 ∧ 4 ≤ (inbound.take len).length ∧ (inbound.take len).head? = some 2
    · rw [if_neg, parseShKeyShare_eq, if_pos hc]
      simp only [not_or, not_not, not_lt]
      exact hc
    · rw [if_pos, if_neg hc]
      · rfl
      · by_contra hn
        simp only [not_or, not_not, not_lt] at hn
        exact hc hn
  case case3 inbound hn =>
    rw [RawRecord.parse] at h
    · cases h
      rw [Notary.parseServerHelloKeyShare]
      · rfl
      · exact hn
    · exact hn

theorem guest_eq (h : RawRecord.parse inbound = some rs) : Guest.parseServerHelloKeyShare inbound =
    .ok (((guestShares rs).find? fun s => s.Whole ∨ s.Short).filter (·.Whole) |>.map Share.key) := by
  rw [Guest.parseServerHelloKeyShare, Guest.parseRecords, h, Exec.expect_some, Exec.ok_bind,
    guestShares]
  cases Guest.firstMessage 2 rs
  case none => rfl
  case some body =>
    simp only [guestBlock, Option.bind_some, Option.bind_eq_bind, Nat.reduceAdd]
    cases body[34]?
    case none => rfl
    case some sidLen =>
      simp only [guard, Option.bind_some, Option.pure_def]
      split_ifs
      case pos => exact congrArg Except.ok (parseKeyShareServer_eq _)
      case neg => rfl

-- The first share of the notary and the first one that the guest takes or gives up at.
def SameShare (rs : List RawRecord) : Prop :=
  match (notaryShares rs).find? (·.Loose), (guestShares rs).find? fun s => s.Whole ∨ s.Short with
  | none,   none    => True
  | none,   some s' => ¬s'.Whole
  | some _, none    => False
  | some s, some s' => s'.Whole ∧ s'.key = s.key

theorem parseServerHelloKeyShare_eq_iff (h : Guest.parseServerHelloKeyShare inbound = .ok epk?) :
    ∃ rs, RawRecord.parse inbound = some rs ∧
      (epk? = Notary.parseServerHelloKeyShare inbound ↔ SameShare rs) := by
  have ⟨rs, hr, _⟩ := Exec.bind_eq_ok_iff.mp h
  have hr := Exec.expect_eq_ok_iff.mp hr
  refine ⟨rs, hr, ?_⟩
  rw [guest_eq hr] at h
  rw [←Except.ok.inj h, notary_eq hr, SameShare]
  cases (notaryShares rs).find? (·.Loose) <;>
    cases (guestShares rs).find? fun s => s.Whole ∨ s.Short
  case none.none      => simp
  case some.none      => simp
  case none.some s'   => by_cases hw : s'.Whole <;> simp [hw]
  case some.some s s' => by_cases hw : s'.Whole <;> simp [hw]

section

variable {compress : Arr 32 → Arr 64 → Arr 32}

theorem crossCheck_eq_ok_iff : notaryVerify.crossCheck compress b outbound inbound = .ok () ↔
    (NotaryBundle.bundleVersionBinding ≤ b.bundleVersion →
      handshakeTranscriptHash compress outbound inbound = b.binding.handshakeTranscriptHash ∧
      Notary.parseServerHelloKeyShare inbound = some b.binding.serverEpk) := by
  unfold notaryVerify.crossCheck
  cases Notary.parseServerHelloKeyShare inbound <;> simp only <;> split_ifs <;> simp_all

theorem checkBinding_eq_ok_iff {w : TlsWitness} :
    Guest.runNotaryPath.checkBinding compress w b = .ok () ↔
    (NotaryBundle.bundleVersionBinding ≤ b.bundleVersion →
      handshakeTranscriptHash compress w.rawOutbound w.rawInbound =
        b.binding.handshakeTranscriptHash ∧
      Guest.parseServerHelloKeyShare w.rawInbound = .ok (some b.binding.serverEpk)) := by
  unfold Guest.runNotaryPath.checkBinding
  by_cases hv : NotaryBundle.bundleVersionBinding ≤ b.bundleVersion
  case neg => simp [hv, pure, Except.pure]
  case pos =>
    simp only [hv, if_true, Exec.bind_eq_ok_iff, Exec.assert_eq_ok_iff, Exec.expect_eq_ok_iff,
      forall_const, handshakeTranscriptHash]
    constructor
    · rintro ⟨_, hh, epk?, hp, epk, rfl, rfl⟩
      exact ⟨hh, hp⟩
    · rintro ⟨hh, hp⟩
      exact ⟨(), hh, _, hp, _, rfl, rfl⟩

-- The cross-check of `notary_verify` accepts the bundles that the guest's check does, for captures
-- in which both parsers find the same keys.
theorem crossCheck_agrees_iff (w : TlsWitness) :
    (∀ b, notaryVerify.crossCheck compress b w.rawOutbound w.rawInbound = .ok () ↔
      Guest.runNotaryPath.checkBinding compress w b = .ok ()) ↔
    ∀ epk, Notary.parseServerHelloKeyShare w.rawInbound = some epk ↔
      Guest.parseServerHelloKeyShare w.rawInbound = .ok (some epk) := by
  constructor
  case mpr =>
    intro h b
    rw [crossCheck_eq_ok_iff, checkBinding_eq_ok_iff, h]
  case mp =>
    intro h epk
    have h := h { (default : NotaryBundle) with
      bundleVersion := NotaryBundle.bundleVersionBinding
      binding       := { (default : SessionBinding) with
        serverEpk               := epk
        handshakeTranscriptHash :=
          handshakeTranscriptHash compress w.rawOutbound w.rawInbound } }
    simpa [crossCheck_eq_ok_iff, checkBinding_eq_ok_iff] using h

end

section Sample

open Guest (helloRecord sampleServerHello)

theorem parse_records {rs : List RawRecord} (h : Guest.Fit rs) :
    RawRecord.parse (rs.flatMap RawRecord.toBytes) = some rs := by
  have hp := RawRecord.parse_flatMap_append h []
  rw [List.append_nil] at hp
  simp [hp, RawRecord.parse]

theorem parseServerHelloKeyShare_eq_iff_of_sample :
    ∃ rs, RawRecord.parse ([helloRecord sampleServerHello].flatMap RawRecord.toBytes) = some rs ∧
      (some 0 = Notary.parseServerHelloKeyShare
        ([helloRecord sampleServerHello].flatMap RawRecord.toBytes) ↔ SameShare rs) := by
  have hf : Guest.Fit [helloRecord sampleServerHello] :=
    List.forall_mem_singleton.mpr (by decide)
  exact parseServerHelloKeyShare_eq_iff
    (Guest.parseServerHelloKeyShare_sample (Guest.parseRecords_flatMap hf))

-- The message by which a server asks for another ClientHello: its `key_share` names a group only.
def helloRetryRequest : HandshakeMsg where
  msgType := 2
  body    := List.replicate 38 0 ++ [0, 6, 0, 0x33, 0, 2, 0, 0x1d]

def retried : List RawRecord :=
  [helloRecord helloRetryRequest, helloRecord sampleServerHello]

theorem guestShares_retried : guestShares retried = [⟨[0, 0x1d], [0, 0x1d]⟩] := by
  have hf : Guest.firstMessage 2 retried = some helloRetryRequest.body :=
    Guest.firstMessage_helloRecord (by decide) _
  have hb : guestBlock helloRetryRequest.body = some [0, 0x33, 0, 2, 0, 0x1d] := by decide
  rw [guestShares, hf, Option.bind_some, hb]
  change shares [0, 0x33, 0, 2, 0, 0x1d] = _
  rw [shares_of_keyShare (by decide) (by decide)]
  exact congrArg (_ :: ·) shares_nil

theorem notaryShares_retried :
    ((notaryShares retried).find? (·.Loose)).map Share.key = some 0 := by
  have h₁ : notaryBlock (helloRetryRequest.toBytes.drop 4) = some [0, 0x33, 0, 2, 0, 0x1d] := by
    decide
  have h₂ : notaryBlock (sampleServerHello.toBytes.drop 4) =
      some (0 :: 0x33 :: 0 :: 36 :: (0 :: 0x1d :: 0 :: 32 :: List.replicate 32 0)) := by
    decide
  have hs : notaryShares retried =
      (notaryBlock (helloRetryRequest.toBytes.drop 4)).elim [] shares ++
        (notaryBlock (sampleServerHello.toBytes.drop 4)).elim [] shares := by
    simp only [notaryShares, retried, List.flatMap_cons, List.flatMap_nil, List.append_nil]
    rw [if_pos (by decide), if_pos (by decide)]
    rfl
  rw [hs, h₁, h₂]
  change (List.find? _ (shares _ ++ shares _)).map _ = _
  rw [shares_of_keyShare (by decide) (by decide), shares_of_keyShare (by decide) (by decide)]
  change (List.find? _ (_ :: shares [] ++ _ :: shares [])).map _ = _
  rw [shares_nil]
  decide

theorem not_parseServerHelloKeyShare_eq :
    ¬∀ (inbound : Bytes) (epk? : Option (Arr 32)),
      Guest.parseServerHelloKeyShare inbound = .ok epk? →
      epk? = Notary.parseServerHelloKeyShare inbound := by
  intro h
  have hp : RawRecord.parse (retried.flatMap RawRecord.toBytes) = some retried :=
    parse_records (by decide)
  have he := h _ _ (guest_eq hp)
  rw [notary_eq hp, notaryShares_retried, guestShares_retried] at he
  exact absurd he (by decide)

end Sample

end Agreement
