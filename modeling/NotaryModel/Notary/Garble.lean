import NotaryModel.Notary.Ghash
import NotaryModel.TwoParty.Lockstep

namespace Notary

-- The steps that plain bytes on the channel between the host and the notary belong to.
inductive Label
  -- The setup of a session.
  | setupMode
  | setupFrame
  | masks
  | scalarShare
  | ivTx
  | ivRx
  -- The captured handshake.
  | captureEpk
  | captureCertHash
  | captureOutboundLen
  | captureOutbound
  | captureInboundLen
  | captureInbound
  -- The ECDH round.
  | ecdhFlag
  | serverEpk
  | hostShare
  | hostPartial
  | notaryPartial
  | ikmMask
  | blinding
  | blinded
  | hostIkmShare
  -- The header of a frame.
  | op
  | seq
  | aadLen
  | aad
  | payloadLen
  -- The record layer, where `blk` is the number of the block within its record.
  | keystream (blk : Nat)
  | ciphertext (blk : Nat)
  | plaintext (blk : Nat)
  | tag
  | commit
  | commitTag
  -- The end of a session.
  | sessionIdLen
  | sessionId
  | serverNameLen
  | serverName
  | bundleLen
  | bundle
  deriving DecidableEq

-- `fuel` is no error of the program: it ends the runs that exceed the bound on a loop.
inductive Err
  | other (msg : String)
  | network (msg : String)
  | closed
  | panic (msg : String)
  | fuel

-- Each WRK17 circuit is evaluated on XOR-shared inputs, of which a query holds one party's shares.
-- `otInit` is the OT bootstrap that precedes all circuits.
inductive Query
  | otInit
  | aes (block key : Arr 16)
  | ghash (blocks : List (Arr 16)) (h : Arr 16)
  | compress (iv : Arr 32) (block : Arr 64)

abbrev Query.Answer : Query → Type
  | otInit       => Unit
  | aes ..       => Arr 16
  | ghash ..     => Arr 16
  | compress ..  => Arr 32

abbrev wrk17 : Interface where
  Label  := Label
  Query  := Query
  Answer := Query.Answer
  Err    := Err
  closed := .closed

instance : Inhabited (Masks wrk17) where
  default := fun
    | _, .otInit      => ()
    | _, .aes ..      => (0 : Arr 16)
    | _, .ghash ..    => (0 : Arr 16)
    | _, .compress .. => (0 : Arr 32)

abbrev Wrk17 :=
  Prog wrk17

abbrev write (l : Label) (bs : Bytes) : Wrk17 Unit :=
  Prog.send l bs (I := wrk17)

abbrev read (l : Label) (n : Nat) : Wrk17 (Arr n) :=
  Prog.recv l n (I := wrk17)

-- The circuits over AES-128 (`aes`, key first) and the compression function of SHA-256. The notary
-- is the left party: its share of an output is the mask that it has drawn.
def circuits (aes : Arr 16 → Arr 16 → Arr 16) (compress : Arr 32 → Arr 64 → Arr 32) :
    Functionality wrk17 where
  respond
    | .otInit, .otInit, _ => some ()
    | .aes block key, .aes block' key', y => some (aes (key ^^^ key') (block ^^^ block') ^^^ y)
    | .ghash blocks h, .ghash blocks' h', y =>
      if blocks.length = blocks'.length then
        some (ghashChainReference (h ^^^ h') (List.zipWith (· ^^^ ·) blocks blocks') ^^^ y)
      else
        none
    | .compress iv block, .compress iv' block', y =>
      some (compress (iv ^^^ iv') (block ^^^ block') ^^^ y)
    | _, _, _ => none

section

variable {aes : Arr 16 → Arr 16 → Arr 16} {compress : Arr 32 → Arr 64 → Arr 32}

@[simp]
theorem matched_aes_iff {y y' : Arr 16} :
    Matched (circuits aes compress) (.session (.aes b k) y :: es) (.session (.aes b' k') y' :: es') ↔
    aes (k ^^^ k') (b ^^^ b') ^^^ y = y' ∧ Matched (circuits aes compress) es es' := by
  simp [Matched.session_iff, circuits]

@[simp]
theorem matched_ghash_iff {y y' : Arr 16} :
    Matched (circuits aes compress)
      (.session (.ghash bs h) y :: es) (.session (.ghash bs' h') y' :: es') ↔
    (bs.length = bs'.length ∧
      ghashChainReference (h ^^^ h') (List.zipWith (· ^^^ ·) bs bs') ^^^ y = y') ∧
    Matched (circuits aes compress) es es' := by
  simp [Matched.session_iff, circuits]

end

-- `Wrk17NotarySession::init` and `Wrk17ClientSession::init`.
def wrk17Init : Wrk17 Unit :=
  Prog.join (I := wrk17) .otInit

def notaryAesBlockWrk17 (blockN keyN : Arr 16) : Wrk17 (Arr 16) :=
  Prog.join (I := wrk17) (.aes blockN keyN)

def clientAesBlockWrk17 (blockC keyC : Arr 16) : Wrk17 (Arr 16) :=
  Prog.join (I := wrk17) (.aes blockC keyC)

def notaryGhashChainWrk17 (blocksN : List (Arr 16)) (hN : Arr 16) : Wrk17 (Arr 16) :=
  Prog.join (I := wrk17) (.ghash blocksN hN)

def clientGhashChainWrk17 (blocksC : List (Arr 16)) (hC : Arr 16) : Wrk17 (Arr 16) :=
  Prog.join (I := wrk17) (.ghash blocksC hC)

def notarySha256CompressXor (ivN : Arr 32) (blockN : Arr 64) : Wrk17 (Arr 32) :=
  Prog.join (I := wrk17) (.compress ivN blockN)

def clientSha256CompressXor (ivC : Arr 32) (blockC : Arr 64) : Wrk17 (Arr 32) :=
  Prog.join (I := wrk17) (.compress ivC blockC)

section

variable {eof : Prop} {es : List (Event wrk17)} {r : Except Err β}

@[simp]
theorem wrk17Init_bind_iff {f : Unit → Wrk17 β} :
    Run eof (wrk17Init >>= f) es r ↔ ∃ y es', Run eof (f y) es' r ∧ es = .session .otInit y :: es' :=
  Run.join_bind_iff

@[simp]
theorem notaryAesBlockWrk17_bind_iff {f : Arr 16 → Wrk17 β} :
    Run eof (notaryAesBlockWrk17 b k >>= f) es r ↔
    ∃ y es', Run eof (f y) es' r ∧ es = .session (.aes b k) y :: es' :=
  Run.join_bind_iff

@[simp]
theorem clientAesBlockWrk17_bind_iff {f : Arr 16 → Wrk17 β} :
    Run eof (clientAesBlockWrk17 b k >>= f) es r ↔
    ∃ y es', Run eof (f y) es' r ∧ es = .session (.aes b k) y :: es' :=
  Run.join_bind_iff

@[simp]
theorem notaryGhashChainWrk17_bind_iff {f : Arr 16 → Wrk17 β} :
    Run eof (notaryGhashChainWrk17 bs h >>= f) es r ↔
    ∃ y es', Run eof (f y) es' r ∧ es = .session (.ghash bs h) y :: es' :=
  Run.join_bind_iff

@[simp]
theorem clientGhashChainWrk17_bind_iff {f : Arr 16 → Wrk17 β} :
    Run eof (clientGhashChainWrk17 bs h >>= f) es r ↔
    ∃ y es', Run eof (f y) es' r ∧ es = .session (.ghash bs h) y :: es' :=
  Run.join_bind_iff

end

section

variable {aes : Arr 16 → Arr 16 → Arr 16} {compress : Arr 32 → Arr 64 → Arr 32}

theorem aesBlockWrk17_meets : Meets (circuits aes compress) 1
    (notaryAesBlockWrk17 b k) (clientAesBlockWrk17 b' k') fun y y' =>
      aes (k ^^^ k') (b ^^^ b') ^^^ y = y' :=
  .join fun _ => ⟨_, rfl, rfl⟩

theorem ghashChainWrk17_meets (h : bs.length = bs'.length) : Meets (circuits aes compress) 1
    (notaryGhashChainWrk17 bs k) (clientGhashChainWrk17 bs' k') fun y y' =>
      ghashChainReference (k ^^^ k') (List.zipWith (· ^^^ ·) bs bs') ^^^ y = y' :=
  .join fun _ => ⟨_, if_pos h, rfl⟩

theorem sha256CompressXor_meets : Meets (circuits aes compress) 1
    (notarySha256CompressXor iv b) (clientSha256CompressXor iv' b') fun y y' =>
      y ^^^ y' = compress (iv ^^^ iv') (b ^^^ b') :=
  .join fun y => ⟨_, rfl, by rw [Arr.xor_comm _ y, Arr.xor_xor_cancel_left]⟩

end

end Notary
