import NotaryModel.Crypto.Gcm
import NotaryModel.Guest.Der
import NotaryModel.Tls.Message
import NotaryModel.Tls.Record

namespace Guest

open Exec (expect index range)

def parseRecords (bytes : Bytes) : Exec (List RawRecord) :=
  expect "truncated TLS record" <| RawRecord.parse bytes

def recordToBytes (r : RawRecord) : Bytes :=
  r.toBytes

def xorNonce (iv : Arr 12) (seq : UInt64) : Arr 12 :=
  iv ^^^ Arr.copyAt 0 4 (Bytes.be 8 seq.toNat)

-- The five bytes of header that a record is authenticated with.
def recordAad (contentType : Byte) (version : UInt16) (payload : Bytes) : Bytes :=
  [contentType] ++ Bytes.be 2 version.toNat ++ Bytes.be 2 payload.length

-- The ciphertext of `payload` and the tag behind it.
def splitTag (payload : Bytes) : Exec (Bytes × Arr 16) := do
  let tagStart := usize (payload.length + 2 ^ 64 - 16)
  let tag ← range payload tagStart payload.length
  let buf ← range payload 0 tagStart
  pure (buf, .ofBytes 16 tag)

def decryptRecord (gcm : Gcm.Open) (key : Arr 16) (iv : Arr 12) (seq : UInt64)
    (record : RawRecord) : Except String (Bytes × Byte) :=
  let nonce := xorNonce iv seq
  let aad := recordAad record.contentType record.legacyVersion record.payload
  if record.payload.length < 16 then
    .error "record too short for GCM tag"
  else
    let tagStart := record.payload.length - 16
    let tag := Arr.ofBytes 16 (record.payload.drop tagStart)
    match gcm key nonce aad (record.payload.take tagStart) tag with
    | none     => .error "AES-GCM authentication failed"
    | some buf =>
      match buf.getLast? with
      | none         => .error "empty decrypted record"
      | some innerCt => .ok (buf.dropLast, innerCt)

def parseHandshakeMessages : Bytes → Except String (List HandshakeMsg)
  | [] => .ok []
  | msgType :: l₀ :: l₁ :: l₂ :: data =>
    let length := Bytes.ofBe [l₀, l₁, l₂]
    if data.length < length then
      .error "truncated handshake body"
    else
      ({ msgType, body := data.take length } :: ·) <$> parseHandshakeMessages (data.drop length)
  | _ => .error "truncated handshake header"
termination_by data => data.length
decreasing_by simp only [List.length_drop, List.length_cons]; omega

def hsHeader (msg : HandshakeMsg) : Bytes :=
  [msg.msgType] ++ Bytes.be 3 msg.body.length

-- The big-endian number of the `w` bytes at `pos`.
def readBe (w : Nat) (body : Bytes) (pos : Nat) : Exec Nat := do
  let bs ← (List.range w).mapM fun i => index body (pos + i)
  pure (Bytes.ofBe bs)

-- The loop of `parse_cert_message`. The end of the list is not compared with the end of `body`.
def parseCertMessage.certs (body : Bytes) (pos listEnd : Nat) :
    Exec (Except String (List Bytes)) :=
  if pos < listEnd then
    if listEnd - pos < 3 then
      pure (.error "truncated cert_data length")
    else do
      let certLen ← readBe 3 body pos
      let pos := pos + 3
      if listEnd - pos < certLen then
        pure (.error "truncated cert_data")
      else
        let cert ← range body pos (pos + certLen)
        let pos := pos + certLen
        if listEnd - pos < 2 then
          pure (.error "truncated cert extensions length")
        else
          let extLen ← readBe 2 body pos
          let pos := pos + (2 + extLen)
          let certs ← parseCertMessage.certs body pos listEnd
          pure ((cert :: ·) <$> certs)
  else
    pure (.ok [])
termination_by listEnd - pos

def parseCertMessage (body : Bytes) : Exec (Except String (List Bytes)) :=
  match body with
  | []          => pure (.error "empty Certificate message")
  | ctxLen :: _ =>
    let pos := 1 + ctxLen.toNat
    if usize (body.length + 2 ^ 64 - pos) < 3 then
      pure (.error "truncated certificate_list length")
    else do
      let listLen ← readBe 3 body pos
      let pos := pos + 3
      parseCertMessage.certs body pos (pos + listLen)

end Guest
