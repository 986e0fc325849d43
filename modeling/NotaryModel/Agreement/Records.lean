import NotaryModel.Guest.Theorems.Handshake
import NotaryModel.Notary.Theorems.Transcript

namespace Agreement

-- What the two programs keep of a record.
def shown (r : RawRecord) : Byte × Bytes :=
  (r.contentType, r.payload)

theorem parseRecords_lossless :
    (∀ bytes rs, Guest.parseRecords bytes = .ok rs →
      ∃ tail, tail.length ≤ 4 ∧ rs.flatMap Guest.recordToBytes ++ tail = bytes) ∧
    (∀ (rs : List RawRecord) tail, (∀ r ∈ rs, r.payload.length < 2 ^ 16) → tail.length ≤ 4 →
      Guest.parseRecords (rs.flatMap Guest.recordToBytes ++ tail) = .ok rs) ∧
    (∀ bytes, (Notary.parseRecords bytes).map (·.map shown) =
      (Guest.parseRecords bytes).toOption.map (·.map shown)) := by
  refine ⟨fun bytes rs h => ?_, fun rs tail h ht => ?_, fun bytes => ?_⟩
  · exact RawRecord.eq_of_parse (Exec.expect_eq_ok_iff.mp h)
  · refine Exec.expect_eq_ok_iff.mpr ?_
    rw [show rs.flatMap Guest.recordToBytes = rs.flatMap RawRecord.toBytes from rfl,
      RawRecord.parse_flatMap_append h, RawRecord.parse_short ht]
    exact congrArg some (List.append_nil _)
  · rw [Notary.parseRecords, Guest.parseRecords]
    cases RawRecord.parse bytes <;> rfl

end Agreement
