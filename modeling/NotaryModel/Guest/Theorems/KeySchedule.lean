import NotaryModel.Guest.Main

namespace Guest

open Exec (expect assert)

variable {compress : Arr 32 → Arr 64 → Arr 32}

-- The only block of output that the labels of TLS ask for.
def labelBlock (compress : Arr 32 → Arr 64 → Arr 32) (prk : Arr 32) (label : String)
    (context : Bytes) (len : Nat) : Arr 32 :=
  let fullLabel := Bytes.ofString ("tls13 " ++ label)
  Sha256.hmac compress prk.toList (Bytes.be 2 len ++ Bytes.be 1 fullLabel.length ++ fullLabel ++
    Bytes.be 1 context.length ++ context ++ [1])

theorem expandLabel_eq {prk : Arr 32} (h₀ : len ≠ 0) (h : len ≤ 32) :
    expandLabel compress prk.toList label context len =
    .ok ((labelBlock compress prk label context len).toList.take len) := by
  have hb : (len + 31) / 32 = 1 := by omega
  have h₁ : Bytes.be 1 1 = [1] := by decide
  have hl : len ≤ 255 * 32 := by omega
  have hp : assert (32 ≤ prk.toList.length) "valid PRK" = .ok () := if_pos (by simp)
  simp only [expandLabel, hp, Hkdf.expand, hb, Hkdf.blocks, h₁, if_pos hl, List.append_nil,
    List.nil_append, Exec.ok_bind, Exec.expect_some, labelBlock]

theorem expandLabel_block {prk : Arr 32} :
    expandLabel compress prk.toList label context 32 =
    .ok (labelBlock compress prk label context 32).toList := by
  rw [expandLabel_eq (by decide) (by decide), List.take_of_length_le (by simp)]

theorem recordKeys_eq (secret : Arr 32) :
    main.recordKeys compress secret.toList =
    .ok (.ofBytes 16 (labelBlock compress secret "key" [] 16).toList,
      .ofBytes 12 (labelBlock compress secret "iv" [] 12).toList) := by
  rw [main.recordKeys, expandLabel_eq (by decide) (by decide), expandLabel_eq (by decide) (by decide)]
  simp only [Exec.ok_bind, Arr.ofBytes_take]
  rfl

def serverHsSecret (compress : Arr 32 → Arr 64 → Arr 32) (ecdh transcriptAfterSh : Arr 32) :
    Arr 32 :=
  let early := Hkdf.extract compress (0 : Arr 32).toList (0 : Arr 32).toList
  let derived := labelBlock compress early "derived" (emptyHash compress).toList 32
  let hsSecret := Hkdf.extract compress derived.toList ecdh.toList
  labelBlock compress hsSecret "s hs traffic" transcriptAfterSh.toList 32

theorem keySchedule_ok (compress : Arr 32 → Arr 64 → Arr 32) (ecdh transcriptAfterSh : Arr 32) :
    ∃ secrets, main.keySchedule compress ecdh transcriptAfterSh = .ok secrets ∧
      main.recordKeys compress (serverHsSecret compress ecdh transcriptAfterSh).toList =
        .ok (secrets.hsKey, secrets.hsIv) ∧
      secrets.serverHsSecret = (serverHsSecret compress ecdh transcriptAfterSh).toList := by
  simp only [main.keySchedule, expandLabel_block, Exec.ok_bind, recordKeys_eq]
  exact ⟨_, rfl, rfl, rfl⟩

end Guest
