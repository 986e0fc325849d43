import NotaryModel.Notary.Garble
import NotaryModel.Crypto.Sha256

namespace Notary

def sha256InitialIvBytes : Arr 32 :=
  Sha256.iv

def ipad : Byte := 0x36
def opad : Byte := 0x5c

-- The notary's share of the block that holds a message of `msgLen` bytes: all but the message.
def notaryInnerPadding (msgLen : Nat) : Wrk17 (Arr 64) :=
  if msgLen ≤ 55 then
    let block := Arr.copyAt 0 msgLen [0x80]
    let totalBits := (64 + msgLen) * 8
    pure <| block.copyAt 56 (Bytes.be 8 totalBits)
  else
    .fail (.panic "single-block HMAC requires msg ≤ 55 bytes")

def clientInnerMsg (msg : Bytes) : Wrk17 (Arr 64) :=
  if msg.length ≤ 55 then
    pure <| Arr.copyAt 0 0 msg
  else
    .fail (.panic "single-block HMAC requires msg ≤ 55 bytes")

def notaryXorMsgBlock (notaryShare : Arr 32) : Arr 64 :=
  let block := Arr.copyAt 0 0 notaryShare.toList
  let block := block.copyAt 32 [0x80]
  let totalBits := (64 + 32) * 8
  block.copyAt 56 (Bytes.be 8 totalBits)

def clientXorMsgBlock (clientShare : Arr 32) : Arr 64 :=
  Arr.copyAt 0 0 clientShare.toList

def outerSuffixPadding : Arr 32 :=
  let s := Arr.copyAt 0 0 [0x80]
  let totalBits := (64 + 32) * 8
  s.copyAt 24 (Bytes.be 8 totalBits)

-- The four rounds of an HMAC, where `innerBlock` gives the party's share of the block that holds
-- the message.

def notaryHmac (keyN : Arr 32) (innerBlock : Wrk17 (Arr 64)) : Wrk17 (Arr 32) := do
  let kIpadN := Arr.copyAt 0 0 keyN.toList ^^^ Arr.fill 64 ipad
  let kOpadN := Arr.copyAt 0 0 keyN.toList ^^^ Arr.fill 64 opad
  let hInner1N ← notarySha256CompressXor sha256InitialIvBytes kIpadN
  let notaryPad ← innerBlock
  let hInnerFinalN ← notarySha256CompressXor hInner1N notaryPad
  let hOuter1N ← notarySha256CompressXor sha256InitialIvBytes kOpadN
  let blockN := Arr.copyAt 0 0 hInnerFinalN.toList
  let blockN := blockN.copyAt 32 outerSuffixPadding.toList
  notarySha256CompressXor hOuter1N blockN

def clientHmac (keyC : Arr 32) (innerBlock : Wrk17 (Arr 64)) : Wrk17 (Arr 32) := do
  let kIpadC := Arr.copyAt 0 0 keyC.toList
  let kOpadC := Arr.copyAt 0 0 keyC.toList
  let hInner1C ← clientSha256CompressXor 0 kIpadC
  let clientBlock ← innerBlock
  let hInnerFinalC ← clientSha256CompressXor hInner1C clientBlock
  let hOuter1C ← clientSha256CompressXor 0 kOpadC
  let blockC := Arr.copyAt 0 0 hInnerFinalC.toList
  clientSha256CompressXor hOuter1C blockC

def notaryHmacSha256 (keyN : Arr 32) (msgLen : Nat) : Wrk17 (Arr 32) :=
  notaryHmac keyN (notaryInnerPadding msgLen)

def clientHmacSha256 (keyC : Arr 32) (msg : Bytes) : Wrk17 (Arr 32) :=
  clientHmac keyC (clientInnerMsg msg)

def notaryHmacSha256XorMsg (keyN msgN : Arr 32) : Wrk17 (Arr 32) :=
  notaryHmac keyN (pure (notaryXorMsgBlock msgN))

def clientHmacSha256XorMsg (keyC msgC : Arr 32) : Wrk17 (Arr 32) :=
  clientHmac keyC (pure (clientXorMsgBlock msgC))

def notaryHkdfExtract (saltN : Arr 32) (ikmLen : Nat) : Wrk17 (Arr 32) :=
  notaryHmacSha256 saltN ikmLen

def clientHkdfExtract (saltC : Arr 32) (ikm : Bytes) : Wrk17 (Arr 32) :=
  clientHmacSha256 saltC ikm

def notaryHkdfExtractXorIkm (saltN ikmN : Arr 32) : Wrk17 (Arr 32) :=
  notaryHmacSha256XorMsg saltN ikmN

def clientHkdfExtractXorIkm (saltC ikmC : Arr 32) : Wrk17 (Arr 32) :=
  clientHmacSha256XorMsg saltC ikmC

-- `HkdfLabel || 0x01`, the message of the only round of HKDF-Expand.
def hkdfExpandLabelInfo (label : String) (context : Bytes) (length : Nat) : Bytes :=
  let fullLabel := Bytes.ofString ("tls13 " ++ label)
  Bytes.be 2 length ++ Bytes.be 1 fullLabel.length ++ fullLabel ++
    Bytes.be 1 context.length ++ context ++ [0x01]

def notaryHkdfExpandLabel (secretN : Arr 32) (label : String) (context : Bytes) (len : Nat) :
    Wrk17 (Arr 32) :=
  let infoLen := (hkdfExpandLabelInfo label context len).length
  notaryHmacSha256 secretN infoLen

def clientHkdfExpandLabel (secretC : Arr 32) (label : String) (context : Bytes) (len : Nat) :
    Wrk17 (Arr 32) :=
  let info := hkdfExpandLabelInfo label context len
  clientHmacSha256 secretC info

-- The single-party key schedule.
section

variable (compress : Arr 32 → Arr 64 → Arr 32)

def referenceEmptyHash : Arr 32 :=
  Sha256.digest compress []

def referenceHkdfExtract (salt : Arr 32) (ikm : Bytes) : Arr 32 :=
  Sha256.hmac compress salt.toList ikm

def referenceHkdfExpandLabel (prk : Arr 32) (label : String) (context : Bytes) (len : Nat) :
    Arr 32 :=
  let info := hkdfExpandLabelInfo label context len
  Sha256.hmac compress prk.toList info

-- A traffic key or IV: the first `n` bytes of a share or of an HMAC.
def truncate (n : Nat) (a : Arr 32) : Arr n :=
  .ofBytes n a.toList

structure TrafficKeys where
  txKey : Arr 16
  txIv  : Arr 12
  rxKey : Arr 16
  rxIv  : Arr 12

def referenceTls13ClientTraffic (ikm transcriptAfterSh transcriptAfterSf : Arr 32) : TrafficKeys :=
  let empty := (referenceEmptyHash compress).toList
  let early := referenceHkdfExtract compress 0 (0 : Arr 32).toList
  let derived1 := referenceHkdfExpandLabel compress early "derived" empty 32
  let hs := referenceHkdfExtract compress derived1 ikm.toList
  let _clientHs :=
    referenceHkdfExpandLabel compress hs "c hs traffic" transcriptAfterSh.toList 32
  let derived2 := referenceHkdfExpandLabel compress hs "derived" empty 32
  let master := referenceHkdfExtract compress derived2 (0 : Arr 32).toList
  let clientApp :=
    referenceHkdfExpandLabel compress master "c ap traffic" transcriptAfterSf.toList 32
  let serverApp :=
    referenceHkdfExpandLabel compress master "s ap traffic" transcriptAfterSf.toList 32
  {
    txKey := truncate 16 (referenceHkdfExpandLabel compress clientApp "key" [] 16)
    txIv  := truncate 12 (referenceHkdfExpandLabel compress clientApp "iv" [] 12)
    rxKey := truncate 16 (referenceHkdfExpandLabel compress serverApp "key" [] 16)
    rxIv  := truncate 12 (referenceHkdfExpandLabel compress serverApp "iv" [] 12)
  }

end

structure ClientTrafficShares where
  kCTx : Arr 16
  kCRx : Arr 16
  ivTx : Arr 12
  ivRx : Arr 12

structure NotaryTrafficShares where
  kNTx : Arr 16
  kNRx : Arr 16
  ivTx : Arr 12
  ivRx : Arr 12

section

variable (compress : Arr 32 → Arr 64 → Arr 32)

def notaryTls13ClientTrafficFromIkmShares (ikmN transcriptAfterSh transcriptAfterSf : Arr 32) :
    Wrk17 NotaryTrafficShares := do
  let empty := (referenceEmptyHash compress).toList
  let early := referenceHkdfExtract compress 0 (0 : Arr 32).toList
  let derived1 := referenceHkdfExpandLabel compress early "derived" empty 32
  let hsN ← notaryHkdfExtractXorIkm derived1 ikmN
  let _clientHsN ← notaryHkdfExpandLabel hsN "c hs traffic" transcriptAfterSh.toList 32
  let derived2N ← notaryHkdfExpandLabel hsN "derived" empty 32
  let masterN ← notaryHkdfExtract derived2N 32
  let clientAppN ← notaryHkdfExpandLabel masterN "c ap traffic" transcriptAfterSf.toList 32
  let serverAppN ← notaryHkdfExpandLabel masterN "s ap traffic" transcriptAfterSf.toList 32
  let txFull ← notaryHkdfExpandLabel clientAppN "key" [] 16
  let rxFull ← notaryHkdfExpandLabel serverAppN "key" [] 16
  let ivTxShare ← notaryHkdfExpandLabel clientAppN "iv" [] 12
  let ivRxShare ← notaryHkdfExpandLabel serverAppN "iv" [] 12
  pure {
    kNTx := truncate 16 txFull
    kNRx := truncate 16 rxFull
    ivTx := truncate 12 ivTxShare
    ivRx := truncate 12 ivRxShare
  }

def clientTls13ClientTrafficFromIkmShares (ikmC transcriptAfterSh transcriptAfterSf : Arr 32) :
    Wrk17 ClientTrafficShares := do
  let empty := (referenceEmptyHash compress).toList
  let hsC ← clientHkdfExtractXorIkm 0 ikmC
  let _clientHsC ← clientHkdfExpandLabel hsC "c hs traffic" transcriptAfterSh.toList 32
  let derived2C ← clientHkdfExpandLabel hsC "derived" empty 32
  let masterC ← clientHkdfExtract derived2C (0 : Arr 32).toList
  let clientAppC ← clientHkdfExpandLabel masterC "c ap traffic" transcriptAfterSf.toList 32
  let serverAppC ← clientHkdfExpandLabel masterC "s ap traffic" transcriptAfterSf.toList 32
  let txFull ← clientHkdfExpandLabel clientAppC "key" [] 16
  let rxFull ← clientHkdfExpandLabel serverAppC "key" [] 16
  let ivTxShare ← clientHkdfExpandLabel clientAppC "iv" [] 12
  let ivRxShare ← clientHkdfExpandLabel serverAppC "iv" [] 12
  pure {
    kCTx := truncate 16 txFull
    kCRx := truncate 16 rxFull
    ivTx := truncate 12 ivTxShare
    ivRx := truncate 12 ivRxShare
  }

end

end Notary
