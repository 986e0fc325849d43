import NotaryModel.Notary.NotaryCommit

namespace Notary

variable {compress : Arr 32 → Arr 64 → Arr 32}

-- What a commit is made for.
structure Opening where
  ciphertext : Bytes
  nonce      : Arr 12
  sessionId  : Bytes

namespace Opening

-- What is hashed of it: the three fields without their lengths.
def bytes (o : Opening) : Bytes :=
  o.ciphertext ++ o.nonce.toList ++ o.sessionId

def commit (o : Opening) (compress : Arr 32 → Arr 64 → Arr 32) (key : Bytes) : NotaryCommit :=
  .new compress o.ciphertext o.nonce o.sessionId key

-- The commit for `o` can be presented for `o'`.
def OpensAs (o o' : Opening) (compress : Arr 32 → Arr 64 → Arr 32) (key : Bytes) : Prop :=
  (o.commit compress key).verify compress o'.ciphertext o'.nonce o'.sessionId key = true

theorem opensAs_iff {o o' : Opening} : o.OpensAs o' compress key ↔
    Sha256.digest compress o.bytes = Sha256.digest compress o'.bytes := by
  unfold OpensAs commit NotaryCommit.verify NotaryCommit.new bytes
  rw [Bool.and_eq_true, beq_iff_eq, beq_iff_eq]
  exact ⟨And.left, fun h => ⟨h, by rw [h]⟩⟩

-- The length of the ciphertext tells the fields apart.
theorem eq_of_bytes {o o' : Opening} (hl : o.ciphertext.length = o'.ciphertext.length)
    (h : o.bytes = o'.bytes) : o = o' := by
  obtain ⟨ct, nonce, sid⟩ := o
  obtain ⟨ct', nonce', sid'⟩ := o'
  simp only [bytes, List.append_assoc] at h
  obtain ⟨rfl, ht⟩ := List.append_inj h hl
  obtain ⟨hn, rfl⟩ := List.append_inj ht (by simp)
  obtain rfl := Arr.toList_inj hn
  rfl

-- Each opening but the empty one shares its bytes with another one: the nonce moves by one byte.
theorem exists_other (o : Opening) (h : o.ciphertext ≠ [] ∨ o.sessionId ≠ []) :
    ∃ o', o' ≠ o ∧ o'.bytes = o.bytes := by
  obtain ⟨ct, nonce, sid⟩ := o
  cases sid
  case cons b sid =>
    -- The first byte of the nonce goes to the ciphertext, that of the session to the nonce.
    let o' : Opening := ⟨ct ++ nonce.toList.take 1, .ofBytes 12 (nonce.toList.drop 1 ++ [b]), sid⟩
    refine ⟨o', fun he => ?_, ?_⟩
    · have hl := congrArg (fun o : Opening => o.sessionId.length) he
      simp [o'] at hl
    · have hn : (Arr.ofBytes 12 (nonce.toList.drop 1 ++ [b])).toList = nonce.toList.drop 1 ++ [b] :=
        Arr.toList_ofBytes (by simp)
      simp only [bytes, o', hn, List.append_assoc]
      rw [←List.append_assoc (nonce.toList.take 1), List.take_append_drop]
      rfl
  case nil =>
    -- The last byte of the nonce goes to the session, that of the ciphertext to the nonce.
    have hc : ct ≠ [] := h.resolve_right (absurd rfl)
    let o' : Opening := ⟨ct.dropLast, .ofBytes 12 (ct.getLast hc :: nonce.toList.take 11),
      nonce.toList.drop 11⟩
    refine ⟨o', fun he => ?_, ?_⟩
    · have hl := congrArg (fun o : Opening => o.sessionId.length) he
      simp [o'] at hl
    · have hn : (Arr.ofBytes 12 (ct.getLast hc :: nonce.toList.take 11)).toList =
          ct.getLast hc :: nonce.toList.take 11 := Arr.toList_ofBytes (by simp)
      simp only [bytes, o', hn, List.append_nil]
      rw [List.append_assoc, List.cons_append, List.take_append_drop, List.append_cons,
        List.dropLast_append_getLast]

end Opening

-- A commit opens in one way only among the openings with a ciphertext of the same length. The others
-- have the same commit if their fields have the same bytes one after another.
theorem commit_binds_iff (key : Bytes) {o o' : Opening}
    (hc : Sha256.digest compress o.bytes = Sha256.digest compress o'.bytes → o.bytes = o'.bytes) :
    (o.OpensAs o' compress key → o = o') ↔
    (o.ciphertext.length = o'.ciphertext.length ∨ o.bytes ≠ o'.bytes) := by
  constructor
  · intro h
    by_cases hb : o.bytes = o'.bytes
    case pos =>
      have ho := h (Opening.opensAs_iff.mpr (congrArg _ hb))
      exact .inl (congrArg (·.ciphertext.length) ho)
    case neg => exact .inr hb
  · rintro (hl | hn) h
    · exact Opening.eq_of_bytes hl (hc (Opening.opensAs_iff.mp h))
    · exact absurd (hc (Opening.opensAs_iff.mp h)) hn

-- Two openings whose bytes have different lengths.
theorem commit_binds_iff_of_response :
    let o : Opening := ⟨[1, 2], .fill 12 7, [42]⟩
    let o' : Opening := ⟨[1], .fill 12 7, [42]⟩
    ((o.OpensAs o' Sha256.keepEnd [9] → o = o') ↔
      (o.ciphertext.length = o'.ciphertext.length ∨ o.bytes ≠ o'.bytes)) ∧
    ¬o.OpensAs o' Sha256.keepEnd [9] := by
  intro o o'
  have hl : o.bytes.length ≠ o'.bytes.length := by simp [o, o', Opening.bytes]
  have hd : Sha256.digest Sha256.keepEnd o.bytes ≠ Sha256.digest Sha256.keepEnd o'.bytes :=
    fun h => hl (Sha256.length_eq_of_digest_keepEnd (by simp [o, Opening.bytes])
      (by simp [o', Opening.bytes]) h)
  exact ⟨commit_binds_iff [9] fun h => absurd h hd, fun h => hd (Opening.opensAs_iff.mp h)⟩

-- The commit for the ciphertext `[1]` without a session is one for the session `[7]` without a
-- ciphertext, whatever the hash.
theorem not_commit_binds : ¬∀ (compress : Arr 32 → Arr 64 → Arr 32) (key : Bytes) (o o' : Opening),
    (Sha256.digest compress o.bytes = Sha256.digest compress o'.bytes → o.bytes = o'.bytes) →
    o.OpensAs o' compress key → o = o' := by
  intro h
  let o : Opening := ⟨[1], .fill 12 7, []⟩
  let o' : Opening := ⟨[], .ofBytes 12 (1 :: List.replicate 11 7), [7]⟩
  have hb : o.bytes = o'.bytes := by decide
  have ho := h Sha256.keepEnd [] o o' (fun _ => hb) (Opening.opensAs_iff.mpr (congrArg _ hb))
  exact absurd (congrArg Opening.sessionId ho) (by decide)

-- What the client decrypts with the share that is revealed is the response that was committed to. It
-- is so of any response of that length that the commit can be presented for.
theorem commitResponse_reveal {enc : Gcm.Seal} {gcm : Gcm.Open} (hg : Gcm.Correct enc gcm)
    (s : NotaryTlsSession) (kC : Arr 16) (nonce : Arr 12) (plaintext sessionId key : Bytes) :
    let sealed := enc (kC ^^^ s.kN) nonce [] plaintext
    let response := sealed.1 ++ sealed.2.toList
    let c := s.commitResponse compress response nonce sessionId key
    c.verify compress response nonce sessionId key = true ∧
      ∀ response', response'.length = response.length →
        (Sha256.digest compress (response ++ nonce.toList ++ sessionId) =
          Sha256.digest compress (response' ++ nonce.toList ++ sessionId) →
          response ++ nonce.toList ++ sessionId = response' ++ nonce.toList ++ sessionId) →
        c.verify compress response' nonce sessionId key = true →
        clientDecrypt gcm kC s.revealKeyShare response' nonce = some plaintext := by
  intro sealed response c
  let o (response' : Bytes) : Opening := ⟨response', nonce, sessionId⟩
  have ho (response' : Bytes) : (o response).OpensAs (o response') compress key ↔ _ :=
    Opening.opensAs_iff
  refine ⟨(ho response).mpr rfl, fun response' hl hc hv => ?_⟩
  have he : response = response' := by
    have h : o response = o response' := Opening.eq_of_bytes hl.symm (hc ((ho response').mp hv))
    exact congrArg Opening.ciphertext h
  subst he
  have hr : response.length = sealed.1.length + 16 := by simp [response]
  rw [clientDecrypt, if_neg (by omega), hr, Nat.add_sub_cancel, List.take_left, List.drop_left,
    Arr.ofBytes_toList]
  exact hg.opens ..

end Notary
