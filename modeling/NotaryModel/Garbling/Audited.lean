import NotaryModel.Garbling.Wire
import NotaryModel.TwoParty.Guarded

open Notary (Err)

namespace Garbling

variable {L Q : Type} {A : Q → Type}

namespace AuthBits

-- A share with the bit that the peer holds of it.
abbrev Dealt (b : AuthBits (channel L A)) : Type :=
  b.Share × Bool

variable (b : AuthBits (channel L A))

def value (x : b.Dealt) : Bool :=
  b.bit x.1 ^^ x.2

def products (ls rs : List b.Dealt) : List Bool :=
  List.zipWith (fun l r => b.value l && b.value r) ls rs

-- What an audit ends with if the peer opens a bit that it does not hold.
def forged : Err :=
  .other "a bit has been opened that was not dealt"

def checkDealt (dealt bits : List Bool) : Prog (channel L A) (List Bool) :=
  if bits = dealt then
    .pure bits
  else
    .fail forged

-- The library with an audit: the peer's bits of the shares are `dealt`, those of a product are what
-- makes it the product, and no other bits may be opened.
abbrev audited (dealt : Nat → Bool) : AuthBits (channel L A) where
  Share                 := b.Dealt
  Triple                := b.Triple
  delta                 := b.delta
  bit x                 := b.bit x.1
  mac x                 := b.mac x.1
  key x                 := b.key x.1
  xor x y               := (b.xor x.1 y.1, x.2 ^^ y.2)
  mulWithConst x c      := (b.mulWithConst x.1 c, x.2 && c)
  constantWithDelta c δ := (b.constantWithDelta c δ, c ^^ b.bit (b.constantWithDelta c δ))
  generateTriples       := b.generateTriples
  generate n            := do
    let xs ← b.generate n
    .pure (xs.mapIdx fun i x => (x, dealt i))
  toKnownTriple ts ls rs := do
    let ks ← b.toKnownTriple ts (ls.map (·.1)) (rs.map (·.1))
    .pure (ks.mapIdx fun i k => (k, (b.products ls rs).getD i false ^^ b.bit k))
  openMyShares xs       := b.openMyShares (xs.map (·.1))
  openTheirShares xs δ  := do
    let bits ← b.openTheirShares (xs.map (·.1)) δ
    checkDealt (xs.map (·.2)) bits
  openShares xs δ       := do
    let bits ← b.openShares (xs.map (·.1)) δ
    checkDealt (xs.map b.value) bits

-- What the library promises to one party whatever the peer does.
structure Linear : Prop where
  bit_xor : b.bit (b.xor x y) = (b.bit x ^^ b.bit y)
  bit_mul : b.bit (b.mulWithConst x c) = (b.bit x && c)
  generateTriples : (b.generateTriples n).Ensures fun ts => ts.length = n
  generate : (b.generate n).Ensures fun xs => xs.length = n
  toKnownTriple : ls.length = ts.length → rs.length = ts.length →
    (b.toKnownTriple ts ls rs).Ensures fun ks => ks.length = ts.length

end AuthBits

end Garbling
