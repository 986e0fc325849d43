import NotaryModel.Crypto.Sha256

-- HKDF over HMAC-SHA-256.
namespace Hkdf

variable (compress : Arr 32 → Arr 64 → Arr 32)

def extract (salt ikm : Bytes) : Arr 32 :=
  Sha256.hmac compress salt ikm

-- `n` blocks of output from number `i` on, of which the last one before is `t`.
def blocks (prk info : Bytes) : (n i : Nat) → (t : Bytes) → Bytes
  | 0, _, _     => []
  | n + 1, i, t =>
    let t := (Sha256.hmac compress prk (t ++ info ++ Bytes.be 1 i)).toList
    t ++ blocks prk info n (i + 1) t

def expand (prk info : Bytes) (len : Nat) : Option Bytes :=
  if len ≤ 255 * 32 then
    some ((blocks compress prk info ((len + 31) / 32) 1 []).take len)
  else
    none

end Hkdf
