import NotaryModel.Primitives.Encoding

-- A record as it is on the wire: five bytes of header and the payload.
structure RawRecord where
  contentType   : Byte
  legacyVersion : UInt16
  payload       : Bytes
  deriving DecidableEq

namespace RawRecord

def toBytes (r : RawRecord) : Bytes :=
  [r.contentType] ++ Bytes.be 2 r.legacyVersion.toNat ++ Bytes.be 2 r.payload.length ++ r.payload

-- The records that `bytes` consists of, without a tail of at most four bytes. There are none if the
-- last record is truncated.
def parse : Bytes → Option (List RawRecord)
  | ct :: v₀ :: v₁ :: l₀ :: l₁ :: bytes =>
    let length := Bytes.ofBe [l₀, l₁]
    if bytes.length < length then
      none
    else
      let r := {
        contentType := ct
        legacyVersion := .ofNat (Bytes.ofBe [v₀, v₁])
        payload := bytes.take length
      }
      (r :: ·) <$> parse (bytes.drop length)
  | _ => some []
termination_by bytes => bytes.length
decreasing_by simp only [List.length_drop, List.length_cons]; omega

theorem be_two_eq (n : Nat) : ∃ b₀ b₁, Bytes.be 2 n = [b₀, b₁] :=
  ⟨_, _, rfl⟩

theorem parse_toBytes_append (h : r.payload.length < 256 ^ 2) (bytes : Bytes) :
    parse (r.toBytes ++ bytes) = (r :: ·) <$> parse bytes := by
  have ⟨v₀, v₁, hv⟩ := be_two_eq r.legacyVersion.toNat
  have ⟨l₀, l₁, hl⟩ := be_two_eq r.payload.length
  have hn : Bytes.ofBe [l₀, l₁] = r.payload.length := hl ▸ Bytes.ofBe_be_of_lt h
  have hver : Bytes.ofBe [v₀, v₁] = r.legacyVersion.toNat :=
    hv ▸ Bytes.ofBe_be_of_lt r.legacyVersion.toNat_lt
  have he : r.toBytes ++ bytes = r.contentType :: v₀ :: v₁ :: l₀ :: l₁ :: (r.payload ++ bytes) := by
    simp [toBytes, hv, hl]
  rw [he, parse]
  simp [hn, hver]

theorem parse_flatMap_append {rs : List RawRecord} (h : ∀ r ∈ rs, r.payload.length < 256 ^ 2)
    (bytes : Bytes) : parse (rs.flatMap toBytes ++ bytes) = (rs ++ ·) <$> parse bytes := by
  induction rs
  case nil          => simp
  case cons r rs hi =>
    rw [List.forall_mem_cons] at h
    rw [List.flatMap_cons, List.append_assoc, parse_toBytes_append h.left, hi h.right]
    simp [Function.comp_def]

theorem toBytes_of_header {payload : Bytes} (h : payload.length = Bytes.ofBe [l₀, l₁]) :
    toBytes ⟨ct, .ofNat (Bytes.ofBe [v₀, v₁]), payload⟩ = ct :: v₀ :: v₁ :: l₀ :: l₁ :: payload := by
  have hl : Bytes.ofBe [v₀, v₁] < 256 ^ 2 := Bytes.ofBe_lt [v₀, v₁]
  have hv : (UInt16.ofNat (Bytes.ofBe [v₀, v₁])).toNat = Bytes.ofBe [v₀, v₁] :=
    UInt16.toNat_ofNat_of_lt (by rwa [UInt16.size])
  have hb (b₀ b₁ : Byte) : Bytes.be 2 (Bytes.ofBe [b₀, b₁]) = [b₀, b₁] := Bytes.be_ofBe rfl
  rw [toBytes, hv, h, hb, hb]
  rfl

theorem eq_of_parse (h : parse bytes = some rs) :
    ∃ tail, tail.length ≤ 4 ∧ rs.flatMap toBytes ++ tail = bytes := by
  induction bytes using parse.induct generalizing rs
  case case1 ct v₀ v₁ l₀ l₁ bytes len hl =>
    rw [parse, if_pos hl] at h
    cases h
  case case2 ct v₀ v₁ l₀ l₁ bytes len hl hi =>
    rw [parse, if_neg hl] at h
    have ⟨rs', hr, he⟩ := Option.map_eq_some_iff.mp h
    have ⟨tail, ht, hb⟩ := hi hr
    refine ⟨tail, ht, ?_⟩
    rw [←he, List.flatMap_cons, List.append_assoc, hb,
      toBytes_of_header (List.length_take_of_le (Nat.not_lt.mp hl))]
    simp only [List.cons_append]
    exact congrArg (fun bytes => ct :: v₀ :: v₁ :: l₀ :: l₁ :: bytes) (List.take_append_drop ..)
  case case3 bytes hn =>
    rw [parse] at h
    case _ =>
      cases h
      refine ⟨bytes, ?_, rfl⟩
      rcases bytes with _ | ⟨_, _ | ⟨_, _ | ⟨_, _ | ⟨_, _ | ⟨_, _⟩⟩⟩⟩⟩
      case cons.cons.cons.cons.cons => exact absurd rfl (hn _ _ _ _ _ _)
      all_goals exact Nat.le_of_ble_eq_true rfl
    case _ => exact hn

theorem parse_short (h : bytes.length ≤ 4) : parse bytes = some [] := by
  rw [parse]
  rintro _ _ _ _ _ _ rfl
  simp only [List.length_cons] at h
  omega

end RawRecord
