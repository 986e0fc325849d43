import NotaryModel.Notary.Tls
import NotaryModel.Tls.Record

open Common

namespace Notary

-- `Shutdown` is the end of a list of jobs.
inductive ClientJob
  | encrypt (plaintext aad : Bytes) (seq : UInt64)
  | decrypt (ciphertext : Bytes) (tag : Arr 16) (aad : Bytes) (seq : UInt64)

-- What the caller gets for a job.
abbrev ClientJob.Result : ClientJob → Type
  | encrypt .. => Bytes × Arr 16
  | decrypt .. => Bytes

-- What `ClientWorker::spawn` is given besides the stream.
structure ClientWorker where
  kCTx : Arr 16
  ivTx : Arr 12
  kCRx : Arr 16
  ivRx : Arr 12

namespace ClientWorker

variable (c : ClientWorker)

def perform : (job : ClientJob) → Wrk17 job.Result
  | .encrypt plaintext aad seq      => encryptOne c.kCTx c.ivTx plaintext aad seq
  | .decrypt ciphertext tag aad seq => decryptOne c.kCRx c.ivRx ciphertext tag aad seq

-- A job with the response to it.
abbrev Response :=
  (job : ClientJob) × Except Err job.Result

-- The loop of the worker thread. The error of a job is handed to the caller, and the worker goes on
-- with the next job.
def serve (jobs : List ClientJob) : Wrk17 (List Response) :=
  jobs.mapM fun job => Sigma.mk job <$> (c.perform job).attempt

def spawn (jobs : List ClientJob) : Wrk17 (List Response) := do
  wrk17Init
  c.serve jobs

-- A job that has been done.
abbrev Done :=
  (job : ClientJob) × job.Result

-- A caller of `client_encrypt_record` and `client_decrypt_record` that passes their errors on and
-- finishes the session.
def session (bincode : Bincode) (jobs : List ClientJob) (sessionId serverName : String) :
    Wrk17 (List Done × NotaryBundle) := do
  let done ← jobs.mapM fun job => Sigma.mk job <$> c.perform job
  let bundle ← clientFinishSession bincode sessionId serverName
  pure (done, bundle)

end ClientWorker

-- A message that `rustls` hands over to be protected.
structure OutboundPlainMessage where
  typ     : Byte
  payload : Bytes

namespace TwoPartyEncrypter

def encryptedPayloadLen (payloadLen : Nat) : Nat :=
  payloadLen + 1 + 16

def job (msg : OutboundPlainMessage) (seq : UInt64) : ClientJob :=
  let totalLen := encryptedPayloadLen msg.payload.length
  .encrypt (msg.payload ++ [msg.typ]) (tls13Aad totalLen) seq

-- The message that is made of the response to the job.
def outboundMessage (r : Bytes × Arr 16) : RawRecord where
  contentType   := 0x17
  legacyVersion := 0x0303
  payload       := r.1 ++ r.2.toList

-- The call waits for the response, so that the thread of the worker does its job meanwhile.
def encrypt (c : ClientWorker) (msg : OutboundPlainMessage) (seq : UInt64) :
    Wrk17 (Except Err RawRecord) := do
  let r ← (c.perform (job msg seq)).attempt
  pure (r.map outboundMessage)

-- The calls of a connection, which the worker thread has been spawned for.
def session (c : ClientWorker) (calls : List (OutboundPlainMessage × UInt64)) :
    Wrk17 (List (Except Err RawRecord)) := do
  wrk17Init
  calls.mapM fun (msg, seq) => encrypt c msg seq

end TwoPartyEncrypter

end Notary
