import NotaryModel.Common.Bundle
import NotaryModel.Primitives.Encoding

-- On the messages `msgs` a signature of `sk` verifies exactly on the message it was made for.
structure Ed25519.IdealOn (ed : Ed25519) (sk : ed.SigningKey) (msgs : Set Bytes) : Prop where
  fromBytes : ed.fromBytes (ed.toBytes (ed.verifyingKey sk)) = some (ed.verifyingKey sk)
  verify    : ∀ msg ∈ msgs, ∀ msg' ∈ msgs,
    ed.verify (ed.verifyingKey sk) msg (ed.sign sk msg') = true ↔ msg = msg'

namespace Common

open SelfDelimiting (singleton arr u64 lengthPrefixed_inj)

-- All lengths of the bundle fit their fields of two bytes.
@[mk_iff]
structure NotaryBundle.WithinWidths (b : NotaryBundle) : Prop where
  sessionId  : (Bytes.ofString b.sessionId).length < 256 ^ 2
  serverName : (Bytes.ofString b.serverName).length < 256 ^ 2
  aad        : ∀ r ∈ b.records, r.aad.length < 256 ^ 2

theorem RecordCommit.signingBytes_ne_nil (r : RecordCommit) : r.signingBytes ≠ [] := by
  simp [RecordCommit.signingBytes]

theorem RecordCommit.signingBytes_selfDelimiting :
    SelfDelimiting (fun r => r.aad.length < 256 ^ 2) RecordCommit.signingBytes := by
  intro r r' t t' hr hr' he
  simp only [RecordCommit.signingBytes, List.append_assoc] at he
  obtain ⟨hop, he⟩ := singleton trivial trivial he
  obtain ⟨hseq, he⟩ := u64 trivial trivial he
  obtain ⟨haad, he⟩ := lengthPrefixed_inj hr hr' he
  obtain ⟨hcommit, ht⟩ := arr trivial trivial he
  refine ⟨?_, ht⟩
  cases r
  cases r'
  simp_all

theorem SessionBinding.length_signingBytes (b : SessionBinding) : b.signingBytes.length = 193 := by
  simp [SessionBinding.signingBytes]

theorem SessionBinding.signingBytes_inj {b b' : SessionBinding}
    (he : b.signingBytes = b'.signingBytes) : b = b' := by
  have he := congrArg (· ++ []) he
  simp only [SessionBinding.signingBytes, List.append_assoc] at he
  obtain ⟨h₁, he⟩ := arr trivial trivial he
  obtain ⟨h₂, he⟩ := arr trivial trivial he
  obtain ⟨h₃, he⟩ := arr trivial trivial he
  obtain ⟨h₄, he⟩ := arr trivial trivial he
  obtain ⟨h₅, he⟩ := arr trivial trivial he
  obtain ⟨h₆, he⟩ := arr trivial trivial he
  obtain ⟨h₇, -⟩ := singleton trivial trivial he
  cases b
  cases b'
  simp_all

namespace NotaryBundle

variable {b b' : NotaryBundle}

-- Within the widths, the bytes determine all fields that they are made from.
theorem legacySigningBytes_inj (hb : b.WithinWidths) (hb' : b'.WithinWidths)
    (ht : t.length = t'.length)
    (he : b.legacySigningBytesPreBinding ++ t = b'.legacySigningBytesPreBinding ++ t') :
    b' = { b with
      bundleVersion := b'.bundleVersion, binding := b'.binding, signature := b'.signature } ∧
    t = t' := by
  simp only [legacySigningBytesPreBinding, List.append_assoc] at he
  obtain ⟨hpubkey, he⟩ := arr trivial trivial he
  obtain ⟨htimestamp, he⟩ := u64 trivial trivial he
  obtain ⟨hsid, he⟩ := lengthPrefixed_inj hb.sessionId hb'.sessionId he
  obtain ⟨hsn, he⟩ := lengthPrefixed_inj hb.serverName hb'.serverName he
  obtain ⟨-, he⟩ := List.append_inj he (by simp)
  obtain ⟨hrecords, he⟩ := RecordCommit.signingBytes_selfDelimiting.flatMap_inj
    RecordCommit.signingBytes_ne_nil hb.aad hb'.aad (by simp [ht]) he
  obtain ⟨hkNTx, he⟩ := arr trivial trivial he
  obtain ⟨hivTx, he⟩ := arr trivial trivial he
  obtain ⟨hkNRx, he⟩ := arr trivial trivial he
  obtain ⟨hivRx, ht⟩ := arr trivial trivial he
  have hsid := Bytes.ofString_inj hsid
  have hsn := Bytes.ofString_inj hsn
  refine ⟨?_, ht⟩
  cases b
  cases b'
  simp_all

theorem canonicalSigningBytes_inj (hb : b.WithinWidths) (hb' : b'.WithinWidths)
    (hv' : bundleVersionBinding ≤ b'.bundleVersion)
    (he : b.canonicalSigningBytes = b'.canonicalSigningBytes) :
    b' = { b with signature := b'.signature } := by
  simp only [canonicalSigningBytes, List.append_assoc] at he
  obtain ⟨hv, he⟩ := singleton trivial trivial he
  rw [hv, if_pos hv', if_pos hv'] at he
  have hl : b.binding.signingBytes.length = b'.binding.signingBytes.length := by
    simp [SessionBinding.length_signingBytes]
  obtain ⟨h, hs⟩ := legacySigningBytes_inj hb hb' hl he
  have hs := SessionBinding.signingBytes_inj hs
  rw [h, hs, hv]

-- A list that is a prefix of its own shift by one is constant.
theorem eq_fill_of_append_eq_cons {a : Arr n} (h : a.toList ++ t = v :: (a.toList ++ u)) :
    a = .fill n v := by
  refine Vector.ext fun i hi => ?_
  rw [Arr.getElem_fill]
  induction i with
  | zero =>
    have h := congrArg (·[0]?) h
    simpa [hi] using h
  | succ i ih =>
    have hi' : i < n := by omega
    have h := congrArg (·[i + 1]?) h
    rw [←ih hi']
    simpa [List.getElem?_append_left, hi, hi'] using h

-- A bundle of the old version passes for a bundle of version `v` only under the public key that
-- repeats this version.
theorem pubkey_eq_fill (hp : b.notaryPubkey = b'.notaryPubkey)
    (he : b.legacySigningBytesPreBinding = b'.canonicalSigningBytes) :
    b.notaryPubkey = .fill 32 b'.bundleVersion := by
  simp only [canonicalSigningBytes, legacySigningBytesPreBinding, List.append_assoc] at he
  rw [hp] at he ⊢
  exact eq_fill_of_append_eq_cons he

theorem signingBytes_inj (hb : b.WithinWidths) (hb' : b'.WithinWidths)
    (hv' : bundleVersionBinding ≤ b'.bundleVersion) (hp : b.notaryPubkey = b'.notaryPubkey)
    (hv : bundleVersionBinding ≤ b.bundleVersion ∨ b.notaryPubkey ≠ .fill 32 b'.bundleVersion)
    (he : b.signingBytes = b'.signingBytes) : b' = { b with signature := b'.signature } := by
  rw [signingBytes, signingBytes, if_pos hv'] at he
  by_cases h : bundleVersionBinding ≤ b.bundleVersion
  · rw [if_pos h] at he
    exact canonicalSigningBytes_inj hb hb' hv' he
  · rw [if_neg h] at he
    exact absurd (pubkey_eq_fill hp he) (hv.resolve_left h)

theorem canonicalSigningBytes_ne_legacy (b : NotaryBundle) :
    b.canonicalSigningBytes ≠ b.legacySigningBytesPreBinding := by
  intro h
  have hl := congrArg List.length h
  simp only [canonicalSigningBytes, List.length_append, List.length_singleton] at hl
  omega

theorem signingBytes_eq_canonical_iff :
    b.signingBytes = b.canonicalSigningBytes ↔ bundleVersionBinding ≤ b.bundleVersion := by
  unfold signingBytes
  split
  case isTrue h  => exact iff_of_true rfl h
  case isFalse h => exact iff_of_false (Ne.symm b.canonicalSigningBytes_ne_legacy) h

section

variable {ed : Ed25519} {sk : ed.SigningKey}

-- The signer always signs the canonical bytes, but the verifier takes other bytes for the old
-- version.
theorem verify_signWithVersion_iff {timestampUnix : UInt64} {bundleVersion : Byte}
    {sessionId serverName : String} {records : List RecordCommit} {kNTx kNRx : Arr 16}
    {ivTx ivRx : Arr 12} {binding : SessionBinding} :
    let b := signWithVersion ed sk timestampUnix bundleVersion sessionId serverName records kNTx
      ivTx kNRx ivRx binding
    ed.IdealOn sk {b.canonicalSigningBytes, b.signingBytes} →
    (b.verify ed = true ↔ bundleVersionBinding ≤ bundleVersion) := by
  intro b h
  have hs : b.signature = (ed.sign sk b.canonicalSigningBytes).toList := rfl
  have hv : b.verify ed =
      ed.verify (ed.verifyingKey sk) b.signingBytes (ed.sign sk b.canonicalSigningBytes) := by
    have hp : ed.fromBytes b.notaryPubkey = some (ed.verifyingKey sk) := h.fromBytes
    rw [verify, hp, hs]
    simp [Arr.ofBytes_toList]
  rw [hv, h.verify _ (.inr rfl) _ (.inl rfl)]
  exact signingBytes_eq_canonical_iff

end

-- Signatures that repeat the low byte of the message's length.
def lengthScheme : Ed25519 where
  SigningKey       := Unit
  VerifyingKey     := Unit
  verifyingKey     := id
  toBytes _        := 0
  fromBytes _      := some ()
  sign _ msg       := Arr.fill 64 (.ofNat msg.length)
  verify _ msg sig := sig == Arr.fill 64 (.ofNat msg.length)

def signedSample (bundleVersion : Byte) : NotaryBundle :=
  signWithVersion lengthScheme () 0 bundleVersion "s" "a" [] 0 0 0 0 default

theorem lengthScheme_verify_iff {sk : lengthScheme.SigningKey} :
    lengthScheme.verify (lengthScheme.verifyingKey sk) msg (lengthScheme.sign sk msg') = true ↔
    UInt8.ofNat msg'.length = .ofNat msg.length := by
  change (Arr.fill 64 (.ofNat msg'.length) == Arr.fill 64 (.ofNat msg.length)) = true ↔ _
  rw [beq_iff_eq]
  exact ⟨fun h => by simpa using congrArg (·[0]) h, fun h => by rw [h]⟩

theorem lengthScheme_idealOn (hv : v = bundleVersionLegacy ∨ v = bundleVersionBinding) :
    lengthScheme.IdealOn ()
      {(signedSample v).canonicalSigningBytes, (signedSample v).signingBytes} where
  fromBytes := rfl
  verify msg hm msg' hm' := by
    refine lengthScheme_verify_iff.trans ?_
    refine ⟨fun hl => ?_, fun h => by rw [h]⟩
    have hs : (signedSample v).signingBytes = (signedSample v).canonicalSigningBytes ∨
        (signedSample v).canonicalSigningBytes = 0 :: (signedSample v).signingBytes := by
      obtain rfl | rfl := hv
      · exact .inr rfl
      · exact .inl rfl
    have hn (n : Nat) : UInt8.ofNat (n + 1) ≠ .ofNat n := by
      rw [UInt8.ofNat_add]
      simp
    obtain hs | hs := hs
    case inl =>
      rw [hs, Set.pair_eq_singleton] at hm hm'
      exact hm.trans hm'.symm
    case inr =>
      rw [hs] at hm hm'
      obtain rfl | rfl := hm <;> obtain rfl | rfl := hm'
      · rfl
      · exact absurd hl.symm (hn _)
      · exact absurd hl (hn _)
      · rfl

theorem verify_signWithVersion_iff_of_binding :
    (signedSample 1).verify lengthScheme = true ↔ bundleVersionBinding ≤ 1 :=
  verify_signWithVersion_iff (lengthScheme_idealOn (.inr rfl))

theorem not_verify_signWithVersion :
    ¬∀ (ed : Ed25519) (sk : ed.SigningKey) (timestampUnix : UInt64) (bundleVersion : Byte)
      (sessionId serverName : String) (records : List RecordCommit) (kNTx : Arr 16)
      (ivTx : Arr 12) (kNRx : Arr 16) (ivRx : Arr 12) (binding : SessionBinding),
      let b := signWithVersion ed sk timestampUnix bundleVersion sessionId serverName records kNTx
        ivTx kNRx ivRx binding
      ed.IdealOn sk {b.canonicalSigningBytes, b.signingBytes} → b.verify ed = true := by
  intro h
  have hv := h lengthScheme () 0 0 "s" "a" [] 0 0 0 0 default (lengthScheme_idealOn (.inl rfl))
  exact absurd hv (by decide)

theorem bundleVersion_eq_legacy (h : ¬bundleVersionBinding ≤ b.bundleVersion) :
    b.bundleVersion = bundleVersionLegacy := by
  refine UInt8.toNat_inj.mp ?_
  rw [UInt8.le_iff_toNat_le] at h
  exact Nat.eq_zero_of_not_pos h

-- Under a public key that does not repeat a single byte, the bytes that are signed determine the
-- version and all fields that this version signs.
theorem signingBytes_unique (hb : b.WithinWidths) (hb' : b'.WithinWidths)
    (hp : b.notaryPubkey = b'.notaryPubkey) (hn : ∀ v, b.notaryPubkey ≠ .fill 32 v)
    (he : b.signingBytes = b'.signingBytes) :
    b' = { b with binding := b'.binding, signature := b'.signature } ∧
    (bundleVersionBinding ≤ b.bundleVersion → b'.binding = b.binding) := by
  by_cases hv' : bundleVersionBinding ≤ b'.bundleVersion
  case pos =>
    have h := signingBytes_inj hb hb' hv' hp (.inr (hn _)) he
    have hs : b'.binding = b.binding := by rw [h]
    exact ⟨by rw [hs]; exact h, fun _ => hs⟩
  case neg =>
    by_cases hv : bundleVersionBinding ≤ b.bundleVersion
    case pos =>
      rw [signingBytes, signingBytes, if_pos hv, if_neg hv'] at he
      exact absurd (hp.trans (pubkey_eq_fill hp.symm he.symm)) (hn _)
    case neg =>
      rw [signingBytes, signingBytes, if_neg hv, if_neg hv'] at he
      have ht : b.legacySigningBytesPreBinding ++ [] = b'.legacySigningBytesPreBinding ++ [] := by
        simpa only [List.append_nil] using he
      have ⟨h, _⟩ := legacySigningBytes_inj hb hb' rfl ht
      have hz : b'.bundleVersion = b.bundleVersion :=
        (bundleVersion_eq_legacy hv').trans (bundleVersion_eq_legacy hv).symm
      exact ⟨by rw [h, hz], fun hb => absurd hb hv⟩

theorem signingBytes_unique_of_signatures :
    let b : NotaryBundle := {
      bundleVersion := bundleVersionBinding
      notaryPubkey  := Arr.copyAt 0 0 [1]
      timestampUnix := 7
      sessionId     := "demo"
      serverName    := "example.com"
      records       := [⟨0x01, 0, [0x17], .fill 32 2⟩]
      kNTx          := .fill 16 3
      ivTx          := .fill 12 4
      kNRx          := .fill 16 5
      ivRx          := .fill 12 6
      binding       := { (default : SessionBinding) with serverEpk := .fill 32 9, garblingMode := 1 }
      signature     := [1]
    }
    let b' := { b with signature := [2] }
    b' = { b with binding := b'.binding, signature := b'.signature } ∧
    (bundleVersionBinding ≤ b.bundleVersion → b'.binding = b.binding) := by
  intro b b'
  have hw : b.WithinWidths := ⟨by decide, by decide, by decide⟩
  refine signingBytes_unique hw ⟨hw.sessionId, hw.serverName, hw.aad⟩ rfl (fun v hv => ?_) rfl
  have h₀ : v = 1 := (congrArg (·[0]) hv).symm
  have h₁ : v = 0 := (congrArg (·[1]) hv).symm
  exact absurd (h₀.symm.trans h₁) (by decide)

end NotaryBundle

end Common
