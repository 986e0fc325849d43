import NotaryModel.Crypto.Gcm
import NotaryModel.Notary.Tls
import NotaryModel.Tls.Record

namespace Notary

def parseRecords (bytes : Bytes) : Option (List RawRecord) :=
  RawRecord.parse bytes

def xorNonce (iv : Arr 12) (seq : UInt64) : Arr 12 :=
  iv ^^^ Arr.copyAt 0 4 (Bytes.be 8 seq.toNat)

def hsHeader (msgType : Byte) (body : Bytes) : Bytes :=
  [msgType] ++ Bytes.be 3 body.length

-- The messages that `payload` consists of, without a tail of at most three bytes.
def parseHandshakeMessages : Bytes → Option (List (Byte × Bytes))
  | ty :: l₀ :: l₁ :: l₂ :: payload =>
    let len := Bytes.ofBe [l₀, l₁, l₂]
    if payload.length < len then
      none
    else
      ((ty, payload.take len) :: ·) <$> parseHandshakeMessages (payload.drop len)
  | _ => some []
termination_by payload => payload.length
decreasing_by simp only [List.length_drop, List.length_cons]; omega

-- The loop of `parse_cert_message` over the bytes of the list that are left. The extensions of the
-- last entry may reach beyond its end.
def parseCertMessage.certs : Bytes → Option (List Bytes)
  | [] => some []
  | l₀ :: l₁ :: l₂ :: list =>
    let certLen := Bytes.ofBe [l₀, l₁, l₂]
    if list.length < certLen then
      none
    else
      match _h : list.drop certLen with
      | e₀ :: e₁ :: rest =>
        (list.take certLen :: ·) <$> parseCertMessage.certs (rest.drop (Bytes.ofBe [e₀, e₁]))
      | _ => none
  | _ => none
termination_by list => list.length
decreasing_by
  have h := congrArg List.length _h
  simp only [List.length_drop, List.length_cons] at h ⊢
  omega

def parseCertMessage (body : Bytes) : Option (List Bytes) := do
  let ctxLen ← body[0]?
  let pos := 1 + ctxLen.toNat
  guard (pos + 3 ≤ body.length)
  let listLen := Bytes.ofBe (Bytes.slice body pos (pos + 3))
  let pos := pos + 3
  let listEnd := pos + listLen
  guard (listEnd ≤ body.length)
  parseCertMessage.certs (Bytes.slice body pos listEnd)

section

variable (compress : Arr 32 → Arr 64 → Arr 32)

def transcriptAfterServerHello (rawOutbound rawInbound : Bytes) : Option (Arr 32) := do
  let out ← parseRecords rawOutbound
  let inp ← parseRecords rawInbound
  let ch ← out.find? (·.contentType == 22)
  let sh ← inp.find? (·.contentType == 22)
  pure (Sha256.digest compress (ch.payload ++ sh.payload))

def referenceServerHsKeys (ikm transcriptAfterSh : Arr 32) : Arr 16 × Arr 12 :=
  let empty := (referenceEmptyHash compress).toList
  let early := referenceHkdfExtract compress 0 (0 : Arr 32).toList
  let derived1 := referenceHkdfExpandLabel compress early "derived" empty 32
  let hs := referenceHkdfExtract compress derived1 ikm.toList
  let serverHs :=
    referenceHkdfExpandLabel compress hs "s hs traffic" transcriptAfterSh.toList 32
  (truncate 16 (referenceHkdfExpandLabel compress serverHs "key" [] 16),
    truncate 12 (referenceHkdfExpandLabel compress serverHs "iv" [] 12))

def referenceClientHsKeys (ikm transcriptAfterSh : Arr 32) : Arr 16 × Arr 12 :=
  let empty := (referenceEmptyHash compress).toList
  let early := referenceHkdfExtract compress 0 (0 : Arr 32).toList
  let derived1 := referenceHkdfExpandLabel compress early "derived" empty 32
  let hs := referenceHkdfExtract compress derived1 ikm.toList
  let clientHs :=
    referenceHkdfExpandLabel compress hs "c hs traffic" transcriptAfterSh.toList 32
  (truncate 16 (referenceHkdfExpandLabel compress clientHs "key" [] 16),
    truncate 12 (referenceHkdfExpandLabel compress clientHs "iv" [] 12))

variable (gcm : Gcm.Open)

def decryptHsRecord (key : Arr 16) (iv : Arr 12) (seq : UInt64) (record : RawRecord) :
    Option (Bytes × Byte) := do
  guard (record.contentType = 0x17)
  let nonce := xorNonce iv seq
  let aad := tls13Aad record.payload.length
  guard (16 ≤ record.payload.length)
  let tagStart := record.payload.length - 16
  let tag := Arr.ofBytes 16 (record.payload.drop tagStart)
  let buf ← gcm key nonce aad (record.payload.take tagStart) tag
  let innerCt ← buf.getLast?
  pure (buf.dropLast, innerCt)

-- Appends the messages of a record and tells whether a Finished message is among them.
def appendHsMessages (messages : List Bytes) (plain : Bytes) (innerCt : Byte) :
    Option (List Bytes × Bool) :=
  if innerCt ≠ 22 then
    some (messages, false)
  else do
    let msgs ← parseHandshakeMessages plain
    let raws := msgs.map fun (ty, body) => hsHeader ty body ++ body
    pure (messages ++ raws, msgs.any (·.1 == 20))

structure HsLoop where
  messages          : List Bytes
  serverHsSeq       : UInt64
  sawServerFinished : Bool

def transcriptAfterServerFinished.round (key : Arr 16) (iv : Arr 12) (s : HsLoop) (r : RawRecord) :
    Option HsLoop :=
  if r.contentType ≠ 0x17 ∨ s.sawServerFinished then
    some s
  else do
    let (plain, innerCt) ← decryptHsRecord gcm key iv s.serverHsSeq r
    let (messages, finished) ← appendHsMessages s.messages plain innerCt
    pure { messages, serverHsSeq := s.serverHsSeq + 1, sawServerFinished := finished }

def transcriptAfterServerFinished (rawOutbound rawInbound : Bytes) (ikm : Arr 32) :
    Option (Arr 32) := do
  let afterSh ← transcriptAfterServerHello compress rawOutbound rawInbound
  let (key, iv) := referenceServerHsKeys compress ikm afterSh
  let out ← parseRecords rawOutbound
  let inp ← parseRecords rawInbound
  let ch ← out.find? (·.contentType == 22)
  let sh ← inp.find? (·.contentType == 22)
  let start := { messages := [ch.payload, sh.payload], serverHsSeq := 0, sawServerFinished := false }
  let s ← inp.foldlM (transcriptAfterServerFinished.round gcm key iv) start
  guard (s.sawServerFinished ∧ 6 ≤ s.messages.length)
  pure (Sha256.digest compress s.messages.flatten)

-- The loop over the records of the client is the one over those of the server, with a counter and a
-- flag of its own. It does not matter whether the server has sent its Finished message.
def transcriptAfterClientFinished (rawOutbound rawInbound : Bytes) (ikm : Arr 32) :
    Option (Arr 32) := do
  let afterSh ← transcriptAfterServerHello compress rawOutbound rawInbound
  let (serverKey, serverIv) := referenceServerHsKeys compress ikm afterSh
  let (clientKey, clientIv) := referenceClientHsKeys compress ikm afterSh
  let out ← parseRecords rawOutbound
  let inp ← parseRecords rawInbound
  let ch ← out.find? (·.contentType == 22)
  let sh ← inp.find? (·.contentType == 22)
  let start := { messages := [ch.payload, sh.payload], serverHsSeq := 0, sawServerFinished := false }
  let server ← inp.foldlM (transcriptAfterServerFinished.round gcm serverKey serverIv) start
  let client ← out.foldlM (transcriptAfterServerFinished.round gcm clientKey clientIv)
    { server with serverHsSeq := 0, sawServerFinished := false }
  guard (client.sawServerFinished ∧ 7 ≤ client.messages.length)
  pure (Sha256.digest compress client.messages.flatten)

def transcriptHashesWithIkm (rawOutbound rawInbound : Bytes) (ikm : Arr 32) :
    Option (Arr 32 × Arr 32) := do
  let afterSh ← transcriptAfterServerHello compress rawOutbound rawInbound
  let afterSf ← transcriptAfterServerFinished compress gcm rawOutbound rawInbound ikm
  pure (afterSh, afterSf)

-- The chain in the first Certificate message of the records that are left.
def certChainDersFromHandshake.search (key : Arr 16) (iv : Arr 12) :
    List RawRecord → UInt64 → Option (List Bytes)
  | [], _ => none
  | r :: rs, serverHsSeq =>
    if r.contentType ≠ 0x17 then
      certChainDersFromHandshake.search key iv rs serverHsSeq
    else do
      let (plain, innerCt) ← decryptHsRecord gcm key iv serverHsSeq r
      if innerCt ≠ 22 then
        certChainDersFromHandshake.search key iv rs (serverHsSeq + 1)
      else
        let msgs ← parseHandshakeMessages plain
        match msgs.find? (·.1 == 11) with
        | some (_, body) => parseCertMessage body
        | none           => certChainDersFromHandshake.search key iv rs (serverHsSeq + 1)

def certChainDersFromHandshake (rawOutbound rawInbound : Bytes) (ikm : Arr 32) :
    Option (List Bytes) := do
  let afterSh ← transcriptAfterServerHello compress rawOutbound rawInbound
  let (key, iv) := referenceServerHsKeys compress ikm afterSh
  let inp ← parseRecords rawInbound
  certChainDersFromHandshake.search gcm key iv inp 0

end

end Notary
