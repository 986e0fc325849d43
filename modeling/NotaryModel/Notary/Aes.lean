import NotaryModel.Notary.Garble

namespace Notary

def makeNonceCtr (nonce : Arr 12) (counter : Nat) : Arr 16 :=
  .ofBytes 16 (nonce.toList ++ Bytes.be 4 counter)

-- Block `blk` of `bs` in a zero-filled array.
def paddedBlock (bs : Bytes) (blk : Nat) : Arr 16 :=
  let start := blk * 16
  let stop := min ((blk + 1) * 16) bs.length
  Arr.copyFromSlice 0 (bs.slice start stop)

def lastBytes (len : Nat) : Nat :=
  if len = 0 then 0 else (len - 1) % 16 + 1

def evLenBlock (aadLen ptLen : Nat) : Arr 16 :=
  .ofBytes 16 (Bytes.be 8 (aadLen * 8) ++ Bytes.be 8 (ptLen * 8))

-- The number of bytes of block `blk` of a text of `len` bytes.
def blockBytes (len blk : Nat) : Nat :=
  if blk = Bytes.blockCount len - 1 then lastBytes len else 16

-- The rounds are the bodies of the loops over the blocks of a record: they return what the loop
-- pushes for the block.

def notaryEncryptGcm.round (kN : Arr 16) (nonce : Arr 12) (plaintextLen blk : Nat) :
    Wrk17 (Arr 16) := do
  let validBytes := blockBytes plaintextLen blk
  let ctrBlock := makeNonceCtr nonce (blk + 2)
  let ksN ← notaryAesBlockWrk17 ctrBlock kN
  write (.keystream blk) ksN.toList
  pure (zeroPadBlock ksN validBytes)

def notaryEncryptGcm (kN : Arr 16) (nonce : Arr 12) (aad : Bytes) (plaintextLen : Nat) :
    Wrk17 Unit := do
  let nAadBlocks := Bytes.blockCount aad.length
  let nPtBlocks := Bytes.blockCount plaintextLen
  let hN ← notaryAesBlockWrk17 0 kN
  let j0 := makeNonceCtr nonce 1
  let sN ← notaryAesBlockWrk17 j0 kN
  let aadBlocks := (List.range nAadBlocks).map (paddedBlock aad)
  let ksBlocks ← (List.range nPtBlocks).mapM (notaryEncryptGcm.round kN nonce plaintextLen)
  let lenBlock := evLenBlock aad.length plaintextLen
  let xAccN ← notaryGhashChainWrk17 (aadBlocks ++ ksBlocks ++ [lenBlock]) hN
  let tagN := xAccN ^^^ sN
  write .tag tagN.toList

def clientEncryptGcm.round (kC : Arr 16) (plaintext : Bytes) (blk : Nat) :
    Wrk17 (Arr 16 × Bytes) := do
  let validBytes := blockBytes plaintext.length blk
  let ksN ← read (.keystream blk) 16
  let ksC ← clientAesBlockWrk17 0 kC
  let ptBlock := paddedBlock plaintext blk
  let ctC := ptBlock ^^^ ksC
  let ct := ctC ^^^ ksN
  pure (zeroPadBlock ctC validBytes, ct.toList.take validBytes)

def clientEncryptGcm (kC : Arr 16) (plaintext aad : Bytes) (_nonce : Arr 12) :
    Wrk17 (Bytes × Arr 16) := do
  let nAadBlocks := Bytes.blockCount aad.length
  let nPtBlocks := Bytes.blockCount plaintext.length
  let hC ← clientAesBlockWrk17 0 kC
  let sC ← clientAesBlockWrk17 0 kC
  let aadBlocks := List.replicate nAadBlocks 0
  let blocks ← (List.range nPtBlocks).mapM (clientEncryptGcm.round kC plaintext)
  let xAccC ← clientGhashChainWrk17 (aadBlocks ++ blocks.map (·.1) ++ [0]) hC
  let tagN ← read .tag 16
  let tag := tagN ^^^ (xAccC ^^^ sC)
  pure (blocks.flatMap (·.2), tag)

def notaryDecryptGcm.round (kN : Arr 16) (nonce : Arr 12) (blk : Nat) : Wrk17 (Arr 16) := do
  let ctrBlock := makeNonceCtr nonce (blk + 2)
  let ksN ← notaryAesBlockWrk17 ctrBlock kN
  let ctC ← read (.ciphertext blk) 16
  let ptN := ctC ^^^ ksN
  write (.plaintext blk) ptN.toList
  pure 0

def notaryDecryptGcm (kN : Arr 16) (nonce : Arr 12) (aadLen ciphertextLen : Nat) :
    Wrk17 Unit := do
  let nAadBlocks := Bytes.blockCount aadLen
  let nCtBlocks := Bytes.blockCount ciphertextLen
  let hN ← notaryAesBlockWrk17 0 kN
  let j0 := makeNonceCtr nonce 1
  let sN ← notaryAesBlockWrk17 j0 kN
  let aadBlocks := List.replicate nAadBlocks 0
  let ctBlocks ← (List.range nCtBlocks).mapM (notaryDecryptGcm.round kN nonce)
  let lenBlock := evLenBlock aadLen ciphertextLen
  let xAccN ← notaryGhashChainWrk17 (aadBlocks ++ ctBlocks ++ [lenBlock]) hN
  let tagN := xAccN ^^^ sN
  write .tag tagN.toList

def clientDecryptGcm2pc.round (kC : Arr 16) (ciphertext : Bytes) (blk : Nat) :
    Wrk17 (Arr 16 × Bytes) := do
  let validBytes := blockBytes ciphertext.length blk
  let ctBlock := paddedBlock ciphertext blk
  write (.ciphertext blk) ctBlock.toList
  let ksC ← clientAesBlockWrk17 0 kC
  let ptN ← read (.plaintext blk) 16
  let ptC := ctBlock ^^^ ksC
  let pt := ptN ^^^ ptC
  pure (zeroPadBlock ctBlock validBytes, pt.toList.take validBytes)

def clientDecryptGcm2pc (kC : Arr 16) (ciphertext aad : Bytes) (receivedTag : Arr 16)
    (_nonce : Arr 12) : Wrk17 Bytes := do
  let nAadBlocks := Bytes.blockCount aad.length
  let nCtBlocks := Bytes.blockCount ciphertext.length
  let hC ← clientAesBlockWrk17 0 kC
  let sC ← clientAesBlockWrk17 0 kC
  let aadBlocks := (List.range nAadBlocks).map (paddedBlock aad)
  let blocks ← (List.range nCtBlocks).mapM (clientDecryptGcm2pc.round kC ciphertext)
  let xAccC ← clientGhashChainWrk17 (aadBlocks ++ blocks.map (·.1) ++ [0]) hC
  let tagN ← read .tag 16
  let expectedTag := tagN ^^^ (xAccC ^^^ sC)
  if !ctEq16 expectedTag receivedTag then
    .fail (.other "AES-GCM authentication failed")
  else
    pure (blocks.flatMap (·.2))

end Notary
