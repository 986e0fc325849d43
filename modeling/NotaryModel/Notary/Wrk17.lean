import NotaryModel.Garbling.Garbler
import NotaryModel.Garbling.Evaluator
import NotaryModel.Notary.Plain
import NotaryModel.TwoParty.Implement

open Circuit
open Circuit.FancyBinary (xor)
open Garbling

-- The sessions of `garble` over authenticated garbling.
namespace Notary.Wrk17

variable {L Q : Type} {A : Q → Type}

-- As in `Plain`, around a circuit that may negate.
def SplitSharedInputMaskCircuit (inner : Executor s m) : Executor ((s + m) + (s + m)) m where
  execute := Plain.splitSharedInputMask inner.execute

section

variable (sw : Swanky) (b : AuthBits (channel L A)) (circ : Executor (k + l) n)

-- A garbler's session: its inputs come first.
def garble (gbVals : List UInt16) (rng : Stream' Block) :
    Prog (channel L A) (Option (List UInt16)) := do
  let gb ← Garbler.newWithAndGenerator sw b circ rng
  let session : GarblerM sw b (Option (List UInt16)) := do
    let mine ← Garbler.encodeMany gbVals k
    let theirs ← Garbler.receiveMany l
    let out ← executeOn circ (mine ++ theirs)
    Garbler.outputs out.toList
  session.run' gb

def evaluate (evVals : List UInt16) : Prog (channel L A) (Option (List UInt16)) := do
  let ev ← Evaluator.newWithAndGenerator sw b circ
  let session : EvaluatorM sw b (Option (List UInt16)) := do
    let theirs ← Evaluator.receiveMany k
    let mine ← Evaluator.encodeMany evVals l
    let out ← executeOn circ (theirs ++ mine)
    Evaluator.outputs out.toList
  session.run' ev

end

section

variable (sw : Swanky) (b : AuthBits (channel L A))

-- The common part of the notary's sessions: its shares and the random `mask` go in. `rng` is drawn
-- by its garbler.
def notaryMaskedRun (inner : Executor s m) (garblerSharedBits : List Bool) (mask : Bytes)
    (rng : Stream' Block) : Prog (channel L A) Bytes := do
  let gbVals := (garblerSharedBits ++ bytesToBits mask).map toU16
  let _ ← garble sw b (SplitSharedInputMaskCircuit inner) gbVals rng
  pure mask

-- The common part of the client's sessions, whose own mask is zero.
def clientMaskedRun (inner : Executor s m) (evaluatorSharedBits : List Bool) :
    Prog (channel L A) (List UInt16) := do
  let evVals := (evaluatorSharedBits ++ List.replicate m false).map toU16
  let some vals ← evaluate sw b (SplitSharedInputMaskCircuit inner) evVals
    | fault "WRK17 evaluator receives circuit output"
  pure vals

def wrk17NotaryMaskedRun (inner : Executor s m) (garblerSharedBits : List Bool)
    (mask : Arr (m / 8)) (rng : Stream' Block) : Prog (channel L A) Bytes :=
  notaryMaskedRun sw b inner garblerSharedBits mask.toList rng

def wrk17ClientMaskedRun (inner : Executor s m) (evaluatorSharedBits : List Bool) :
    Prog (channel L A) Bytes := do
  let vals ← clientMaskedRun sw b inner evaluatorSharedBits
  let full := bitsToBytes 32 (vals.map (· == 1))
  if m / 8 ≤ 32 then
    pure (full.toList.take (m / 8))
  else
    fault "range end index out of range for slice of length 32"

def runNotaryGhashChain (nBlocks : Nat) (garblerSharedBits : List Bool) (mask : Arr 16)
    (rng : Stream' Block) : Prog (channel L A) Bytes :=
  notaryMaskedRun sw b (Plain.GhashChainCircuit nBlocks).executor garblerSharedBits mask.toList rng

def runClientGhashChain (nBlocks : Nat) (evaluatorSharedBits : List Bool) :
    Prog (channel L A) Bytes := do
  let vals ← clientMaskedRun sw b (Plain.GhashChainCircuit nBlocks).executor evaluatorSharedBits
  pure (bitsToBytes16 (vals.map (· == 1))).toList

def notaryGhashChainWrk17 (blocksN : List (Arr 16)) (hN mask : Arr 16) (rng : Stream' Block) :
    Prog (channel L A) (Arr 16) := do
  let mask ← runNotaryGhashChain sw b blocksN.length (Plain.chainBits blocksN hN) mask rng
  pure (.ofBytes 16 mask)

def clientGhashChainWrk17 (blocksC : List (Arr 16)) (hC : Arr 16) :
    Prog (channel L A) (Arr 16) := do
  let share ← runClientGhashChain sw b blocksC.length (Plain.chainBits blocksC hC)
  pure (.ofBytes 16 share)

def notaryAesBlockWrk17 (aesCircuit : Executor 256 128) (blockN keyN mask : Arr 16)
    (rng : Stream' Block) : Prog (channel L A) (Arr 16) := do
  let gbBits := bytesToBits blockN.toList ++ bytesToBits keyN.toList
  let mask ← wrk17NotaryMaskedRun sw b aesCircuit gbBits mask rng
  pure (.ofBytes 16 mask)

def clientAesBlockWrk17 (aesCircuit : Executor 256 128) (blockC keyC : Arr 16) :
    Prog (channel L A) (Arr 16) := do
  let evBits := bytesToBits blockC.toList ++ bytesToBits keyC.toList
  let share ← wrk17ClientMaskedRun sw b aesCircuit evBits
  pure (.ofBytes 16 share)

def notarySha256CompressXor (compressCircuit : Executor 768 256) (ivN : Arr 32) (blockN : Arr 64)
    (mask : Arr 32) (rng : Stream' Block) : Prog (channel L A) (Arr 32) := do
  let gbBits := bytesToBits (ivN.toList ++ blockN.toList)
  let mask ← notaryMaskedRun sw b compressCircuit gbBits mask.toList rng
  pure (.ofBytes 32 mask)

def clientSha256CompressXor (compressCircuit : Executor 768 256) (ivC : Arr 32) (blockC : Arr 64) :
    Prog (channel L A) (Arr 32) := do
  let evBits := bytesToBits (ivC.toList ++ blockC.toList)
  let vals ← clientMaskedRun sw b compressCircuit evBits
  pure (bitsToBytes 32 (vals.map (· == 1)))

end

-- The sessions that the programs of the record layer and of the key schedule take for granted,
-- where `masks` and `rng` are what the notary and its garblers draw.
def sessions (sw : Swanky) (gb ev : AuthBits (channel L A)) (aesCircuit : Executor 256 128)
    (compressCircuit : Executor 768 256) (label : Label → L) (notaryInit clientInit :
    Prog (channel L A) Unit) (masks : Masks wrk17) (rng : Nat → Stream' Block) :
    Carrier wrk17 (channel L A) where
  label l := .inr (label l)
  err     := id
  left i
    | .otInit            => notaryInit
    | .aes block key     =>
      notaryAesBlockWrk17 sw gb aesCircuit block key (masks i (.aes block key)) (rng i)
    | .ghash blocks h    => notaryGhashChainWrk17 sw gb blocks h (masks i (.ghash blocks h)) (rng i)
    | .compress iv block =>
      notarySha256CompressXor sw gb compressCircuit iv block (masks i (.compress iv block)) (rng i)
  right _
    | .otInit            => clientInit
    | .aes block key     => clientAesBlockWrk17 sw ev aesCircuit block key
    | .ghash blocks h    => clientGhashChainWrk17 sw ev blocks h
    | .compress iv block => clientSha256CompressXor sw ev compressCircuit iv block

end Notary.Wrk17
