import NotaryModel.Notary.Theorems.IkmShares

open Exchange (Scheduled)

namespace Notary

variable {curve : Curve25519} [AddCommGroup curve.Point] {host notary : EphemeralShare curve}
  {epk : Arr 32} {P : curve.Point} {aes : Arr 16 → Arr 16 → Arr 16}
  {compress : Arr 32 → Arr 64 → Arr 32}

-- What both ends of the leaky round return.
def LeakyAdditiveOutcome.of (ikm mask : Arr 32) : LeakyAdditiveOutcome where
  ikm
  hostIkmShare   := ikm ^^^ mask
  notaryIkmShare := mask

end Notary
