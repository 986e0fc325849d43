import NotaryModel.Crypto.Gcm
import NotaryModel.Tls.Message
import NotaryModel.Tls.Record

namespace Tls

-- The nonce of record `seq`.
def nonce (iv : Arr 12) (seq : UInt64) : Arr 12 :=
  iv ^^^ Arr.copyAt 0 4 (Bytes.be 8 seq.toNat)

-- The header of a protected record, which it is authenticated with.
def protectedHeader (payloadLen : Nat) : Bytes :=
  [0x17, 0x03, 0x03] ++ Bytes.be 2 payloadLen

-- The messages with which a server answers after its ServerHello.
structure ServerFlight where
  encryptedExtensions : Bytes
  context             : Bytes
  entries             : List CertificateEntry
  certificateVerify   : Bytes
  finished            : Bytes

def ServerFlight.messages (f : ServerFlight) : List HandshakeMsg := [
  { msgType := 8,  body := f.encryptedExtensions },
  { msgType := 11, body := certificateBody f.context f.entries },
  { msgType := 15, body := f.certificateVerify },
  { msgType := 20, body := f.finished }
]

structure ServerFlight.Fits (f : ServerFlight) : Prop where
  messages : ∀ m ∈ f.messages, m.Fits
  context  : f.context.length < 256
  entries  : ∀ e ∈ f.entries, e.Fits

theorem ServerFlight.Fits.list {f : ServerFlight} (h : f.Fits) :
    (f.entries.flatMap CertificateEntry.toBytes).length < 256 ^ 3 := by
  have hm : (certificateBody f.context f.entries).length < 256 ^ 3 :=
    h.messages { msgType := 11, body := _ } (.tail _ (.head _))
  simp only [certificateBody, List.length_append] at hm
  omega

variable (enc : Gcm.Seal) (key : Arr 16) (iv : Arr 12)

-- Record `seq` with the inner plaintext `pt`.
def sealRecord (seq : UInt64) (pt : Bytes) : RawRecord :=
  let (ct, tag) := enc key (nonce iv seq) (protectedHeader (pt.length + 16)) pt
  { contentType := 0x17, legacyVersion := 0x0303, payload := ct ++ tag.toList }

-- Each group of messages in a record of its own, without padding and from number `n` on.
def flight : Nat → List (List HandshakeMsg) → List RawRecord
  | _, []      => []
  | n, g :: gs =>
    sealRecord enc key iv (.ofNat n) (g.flatMap HandshakeMsg.toBytes ++ [22]) :: flight (n + 1) gs

-- The bytes of a stream of handshake messages, each piece in a record of its own.
def fragments : Nat → List Bytes → List RawRecord
  | _, []      => []
  | n, p :: ps => sealRecord enc key iv (.ofNat n) (p ++ [22]) :: fragments (n + 1) ps

variable {enc key iv} {gcm : Gcm.Open}

theorem flight_eq_fragments (n : Nat) (gs : List (List HandshakeMsg)) :
    flight enc key iv n gs =
    fragments enc key iv n (gs.map fun g => g.flatMap HandshakeMsg.toBytes) := by
  induction gs generalizing n
  case nil          => rfl
  case cons g gs hi => rw [flight, List.map_cons, fragments, hi]

@[simp]
theorem sealRecord_contentType : (sealRecord enc key iv seq pt).contentType = 23 :=
  rfl

@[simp]
theorem sealRecord_legacyVersion : (sealRecord enc key iv seq pt).legacyVersion = 0x0303 :=
  rfl

theorem filter_fragments (n : Nat) (ps : List Bytes) :
    (fragments enc key iv n ps).filter (·.contentType == 23) = fragments enc key iv n ps := by
  induction ps generalizing n
  case nil          => rfl
  case cons p ps hi => rw [fragments, List.filter_cons_of_pos rfl, hi]

theorem length_sealRecord (h : Gcm.Correct enc gcm) :
    (sealRecord enc key iv seq pt).payload.length = pt.length + 16 := by
  simp [sealRecord, h.length]

theorem sealRecord_opens (h : Gcm.Correct enc gcm) (key : Arr 16) (iv : Arr 12) (seq : UInt64)
    (pt : Bytes) :
    ∃ ct tag, (sealRecord enc key iv seq pt).payload = ct ++ tag.toList ∧
      gcm key (nonce iv seq) (protectedHeader (sealRecord enc key iv seq pt).payload.length) ct tag =
        some pt := by
  rw [length_sealRecord h]
  exact ⟨_, _, rfl, h.opens ..⟩

end Tls
