import NotaryModel.Notary.Handshake
import NotaryModel.Primitives.Exec

-- How a captured handshake is read in `transcript.rs`, `ecdh.rs` and `handshake.rs`: with positions
-- in slices, where an index or a range that is out of bounds panics. A position is at most `2 ^ 24`
-- and a few bytes behind the end of its slice, so that the sums of positions do not overflow.
namespace Notary.Indexed

open Exec (index range assert)
open OptionT (lift)

-- `a?` where the function returns `None` if it is.
def ofOption (a? : Option α) : OptionT Exec α :=
  OptionT.mk (.ok a?)

-- `u16::from_be_bytes([bs[i], bs[i + 1]])`
def u16 (bs : Bytes) (i : Nat) : Exec Nat := do
  let b₀ ← index bs i
  let b₁ ← index bs (i + 1)
  pure (Bytes.ofBe [b₀, b₁])

-- `u32::from_be_bytes([0, bs[i], bs[i + 1], bs[i + 2]])`
def u24 (bs : Bytes) (i : Nat) : Exec Nat := do
  let b₀ ← index bs i
  let b₁ ← index bs (i + 1)
  let b₂ ← index bs (i + 2)
  pure (Bytes.ofBe [b₀, b₁, b₂])

def checkedSub (a b : Nat) : OptionT Exec Nat :=
  ofOption (if b ≤ a then some (a - b) else none)

-- `[0u8; n]` after `copy_from_slice`.
def arrayOf (n : Nat) (src : Bytes) : Exec (Arr n) := do
  assert (src.length = n) "copy_from_slice: source slice length does not match"
  pure (Arr.ofBytes n src)

def parseRecords.loop (bytes : Bytes) (pos : Nat) (records : List RawRecord) :
    OptionT Exec (List RawRecord) :=
  if _h : pos + 5 ≤ bytes.length then do
    let ct ← lift (index bytes pos)
    let version ← lift (u16 bytes (pos + 1))
    let length ← lift (u16 bytes (pos + 3))
    let start := pos + 5
    if start + length > bytes.length then
      failure
    else
      let payload ← lift (range bytes start (start + length))
      let r := { contentType := ct, legacyVersion := .ofNat version, payload }
      parseRecords.loop bytes (start + length) (records ++ [r])
  else
    pure records
termination_by bytes.length - pos
decreasing_by omega

def parseRecords (bytes : Bytes) : OptionT Exec (List RawRecord) :=
  parseRecords.loop bytes 0 []

def parseHandshakeMessages.loop (payload : Bytes) (p : Nat) (out : List (Byte × Bytes)) :
    OptionT Exec (List (Byte × Bytes)) :=
  if _h : p + 4 ≤ payload.length then do
    let ty ← lift (index payload p)
    let len ← lift (u24 payload (p + 1))
    let start := p + 4
    if start + len > payload.length then
      failure
    else
      let body ← lift (range payload start (start + len))
      parseHandshakeMessages.loop payload (start + len) (out ++ [(ty, body)])
  else
    pure out
termination_by payload.length - p
decreasing_by omega

def parseHandshakeMessages (payload : Bytes) : OptionT Exec (List (Byte × Bytes)) :=
  parseHandshakeMessages.loop payload 0 []

def parseCertMessage.loop (body : Bytes) (listEnd pos : Nat) (certs : List Bytes) :
    OptionT Exec (List Bytes) :=
  if _h : pos < listEnd then do
    let left ← checkedSub listEnd pos
    guard (3 ≤ left)
    let certLen ← lift (u24 body pos)
    let start := pos + 3
    let left ← checkedSub listEnd start
    guard (certLen ≤ left)
    let cert ← lift (range body start (start + certLen))
    let pos₂ := start + certLen
    let left ← checkedSub listEnd pos₂
    guard (2 ≤ left)
    let extLen ← lift (u16 body pos₂)
    parseCertMessage.loop body listEnd (pos₂ + (2 + extLen)) (certs ++ [cert])
  else
    pure certs
termination_by listEnd - pos
decreasing_by omega

def parseCertMessage (body : Bytes) : OptionT Exec (List Bytes) := do
  let pos := 0
  guard (pos < body.length)
  let ctxLen ← lift (index body pos)
  let pos := pos + (1 + ctxLen.toNat)
  let left ← checkedSub body.length pos
  guard (3 ≤ left)
  let listLen ← lift (u24 body pos)
  let pos := pos + 3
  let listEnd := pos + listLen
  guard (listEnd ≤ body.length)
  parseCertMessage.loop body listEnd pos []

-- What the loop of `parse_sh_key_share` does with an extension.
def parseShKeyShare.extension (body : Bytes) (extEnd p extType extDataLen : Nat) :
    Exec (Option (Arr 32)) :=
  if extType = 0x0033 ∧ extDataLen ≥ 2 + 32 then do
    let group ← u16 body p
    if group = 0x001d then do
      let kexLen ← u16 body (p + 2)
      if kexLen = 32 ∧ p + 4 + 32 ≤ extEnd then do
        let key ← range body (p + 4) (p + 4 + 32)
        some <$> arrayOf 32 key
      else
        pure none
    else
      pure none
  else
    pure none

def parseShKeyShare.loop (body : Bytes) (extEnd p : Nat) : OptionT Exec (Arr 32) :=
  if _h : p + 4 ≤ extEnd then do
    let extType ← lift (u16 body p)
    let extDataLen ← lift (u16 body (p + 2))
    let start := p + 4
    if start + extDataLen > extEnd then
      failure
    else
      let key? ← lift (parseShKeyShare.extension body extEnd start extType extDataLen)
      match key? with
      | some key => pure key
      | none     => parseShKeyShare.loop body extEnd (start + extDataLen)
  else
    failure
termination_by extEnd - p
decreasing_by omega

def parseShKeyShare (body : Bytes) : OptionT Exec (Arr 32) := do
  guard (2 + 32 + 1 ≤ body.length)
  let p := 2 + 32
  guard (p < body.length)
  let sessionIdLen ← lift (index body p)
  let p := p + (1 + sessionIdLen.toNat)
  guard (p + 2 ≤ body.length)
  let p := p + 2
  guard (p < body.length)
  let compLen ← lift (index body p)
  let p := p + (1 + compLen.toNat)
  guard (p + 2 ≤ body.length)
  let extLen ← lift (u16 body p)
  let p := p + 2
  let extEnd := p + extLen
  guard (extEnd ≤ body.length)
  parseShKeyShare.loop body extEnd p

-- What the loop of `parse_server_hello_key_share` does with a record.
def parseServerHelloKeyShare.record (ct : Byte) (payload : Bytes) : Exec (Option (Arr 32)) :=
  if ct ≠ 22 then
    pure none
  else if payload.length < 4 then
    pure none
  else do
    let ty ← index payload 0
    if ty ≠ 2 then
      pure none
    else do
      let body ← range payload 4 payload.length
      (parseShKeyShare body).run

def parseServerHelloKeyShare.loop (inbound : Bytes) (pos : Nat) : OptionT Exec (Arr 32) :=
  if _h : pos + 5 ≤ inbound.length then do
    let ct ← lift (index inbound pos)
    let len ← lift (u16 inbound (pos + 3))
    let start := pos + 5
    if start + len > inbound.length then
      failure
    else
      let payload ← lift (range inbound start (start + len))
      let epk? ← lift (parseServerHelloKeyShare.record ct payload)
      match epk? with
      | some epk => pure epk
      | none     => parseServerHelloKeyShare.loop inbound (start + len)
  else
    failure
termination_by inbound.length - pos
decreasing_by omega

def parseServerHelloKeyShare (inbound : Bytes) : OptionT Exec (Arr 32) :=
  parseServerHelloKeyShare.loop inbound 0

def xorNonce (iv : Arr 12) (seq : UInt64) : Exec (Arr 12) := do
  let nonce ← (Bytes.be 8 seq.toNat).zipIdx.foldlM (fun nonce (b, i) => do
    let old ← index nonce (4 + i)
    pure (nonce.set (4 + i) (old ^^^ b))) iv.toList
  arrayOf 12 nonce

section

variable (gcm : Gcm.Open)

-- The tag is what `decrypt_in_place` splits off behind the ciphertext.
def decryptHsRecord (key : Arr 16) (iv : Arr 12) (seq : UInt64) (record : RawRecord) :
    OptionT Exec (Bytes × Byte) := do
  guard (record.contentType = 0x17)
  let nonce ← lift (xorNonce iv seq)
  let aad := tls13Aad record.payload.length
  guard (16 ≤ record.payload.length)
  let tagStart ← checkedSub record.payload.length 16
  let ct ← lift (range record.payload 0 tagStart)
  let tag ← lift (range record.payload tagStart record.payload.length)
  let tag ← lift (arrayOf 16 tag)
  let buf ← ofOption (gcm key nonce aad ct tag)
  let innerCt ← ofOption buf.getLast?
  pure (buf.dropLast, innerCt)

def appendHsMessages (messages : List Bytes) (plain : Bytes) (innerCt : Byte) :
    OptionT Exec (List Bytes × Bool) :=
  if innerCt ≠ 22 then
    pure (messages, false)
  else do
    let msgs ← parseHandshakeMessages plain
    let raws := msgs.map fun (ty, body) => hsHeader ty body ++ body
    pure (messages ++ raws, msgs.any (·.1 == 20))

def transcriptAfterServerFinished.round (key : Arr 16) (iv : Arr 12) (s : HsLoop) (r : RawRecord) :
    OptionT Exec HsLoop :=
  if r.contentType ≠ 0x17 ∨ s.sawServerFinished then
    pure s
  else do
    let (plain, innerCt) ← decryptHsRecord gcm key iv s.serverHsSeq r
    let (messages, finished) ← appendHsMessages s.messages plain innerCt
    pure { messages, serverHsSeq := s.serverHsSeq + 1, sawServerFinished := finished }

def certChainDersFromHandshake.search (key : Arr 16) (iv : Arr 12) :
    List RawRecord → UInt64 → OptionT Exec (List Bytes)
  | [], _                => failure
  | r :: rs, serverHsSeq =>
    if r.contentType ≠ 0x17 then
      certChainDersFromHandshake.search key iv rs serverHsSeq
    else do
      let (plain, innerCt) ← decryptHsRecord gcm key iv serverHsSeq r
      if innerCt ≠ 22 then
        certChainDersFromHandshake.search key iv rs (serverHsSeq + 1)
      else
        let msgs ← parseHandshakeMessages plain
        match msgs.find? (·.1 == 11) with
        | some (_, body) => parseCertMessage body
        | none           => certChainDersFromHandshake.search key iv rs (serverHsSeq + 1)

variable (compress : Arr 32 → Arr 64 → Arr 32)

def firstHandshake (records : List RawRecord) : OptionT Exec RawRecord :=
  ofOption (records.find? (·.contentType == 22))

def transcriptAfterServerHello (rawOutbound rawInbound : Bytes) : OptionT Exec (Arr 32) := do
  let out ← parseRecords rawOutbound
  let inp ← parseRecords rawInbound
  let ch ← firstHandshake out
  let sh ← firstHandshake inp
  pure (Sha256.digest compress (ch.payload ++ sh.payload))

def transcriptAfterServerFinished (rawOutbound rawInbound : Bytes) (ikm : Arr 32) :
    OptionT Exec (Arr 32) := do
  let afterSh ← transcriptAfterServerHello compress rawOutbound rawInbound
  let (key, iv) := referenceServerHsKeys compress ikm afterSh
  let out ← parseRecords rawOutbound
  let inp ← parseRecords rawInbound
  let ch ← firstHandshake out
  let sh ← firstHandshake inp
  let start := { messages := [ch.payload, sh.payload], serverHsSeq := 0, sawServerFinished := false }
  let s ← inp.foldlM (transcriptAfterServerFinished.round gcm key iv) start
  guard (s.sawServerFinished ∧ 6 ≤ s.messages.length)
  pure (Sha256.digest compress s.messages.flatten)

def transcriptHashesWithIkm (rawOutbound rawInbound : Bytes) (ikm : Arr 32) :
    OptionT Exec (Arr 32 × Arr 32) := do
  let afterSh ← transcriptAfterServerHello compress rawOutbound rawInbound
  let afterSf ← transcriptAfterServerFinished gcm compress rawOutbound rawInbound ikm
  pure (afterSh, afterSf)

def certChainDersFromHandshake (rawOutbound rawInbound : Bytes) (ikm : Arr 32) :
    OptionT Exec (List Bytes) := do
  let afterSh ← transcriptAfterServerHello compress rawOutbound rawInbound
  let (key, iv) := referenceServerHsKeys compress ikm afterSh
  let inp ← parseRecords rawInbound
  certChainDersFromHandshake.search gcm key iv inp 0

def verifyHandshakeCapture (files : Circuits) (cap : HandshakeCapture) (ikm : Arr 32) :
    Exec (Except Err VerifiedHandshake) := do
  let some epk ← (parseServerHelloKeyShare cap.inbound).run
    | pure (throw (.other "ServerHello key_share missing from inbound capture"))
  if epk ≠ cap.serverEpk then
    pure (throw (.other "server_epk mismatch (host claimed vs parsed ServerHello)"))
  else
    let some certDers ←
        (certChainDersFromHandshake gcm compress cap.outbound cap.inbound ikm).run
      | pure (throw (.other "could not parse Certificate chain from handshake capture"))
    let certHash := certChainHash compress certDers
    if certHash ≠ cap.certChainHash then
      pure (throw (.other "cert_chain_hash mismatch (host claimed vs notary-parsed chain)"))
    else
      let some (afterSh, afterSf) ←
          (transcriptHashesWithIkm gcm compress cap.outbound cap.inbound ikm).run
        | pure (throw (.other "transcript hash recomputation failed on notary"))
      pure (pure {
        afterSh
        afterSf
        binding := { productionSessionBinding files with
          serverEpk               := cap.serverEpk
          certChainHash           := certHash
          handshakeTranscriptHash := handshakeTranscriptHash compress cap.outbound cap.inbound
          keyScheduleContextHash  := keyScheduleContextHash compress afterSh afterSf
        }
      })

end

end Notary.Indexed
