import NotaryModel.Notary.Demo

namespace Notary

-- The records that `bytes` begins with, and the incomplete record behind them.
def deframe : Bytes → List RawRecord × Bytes
  | ct :: v₀ :: v₁ :: l₀ :: l₁ :: bytes =>
    let len := Bytes.ofBe [l₀, l₁]
    if bytes.length < len then
      ([], ct :: v₀ :: v₁ :: l₀ :: l₁ :: bytes)
    else
      let r : RawRecord := {
        contentType   := ct
        legacyVersion := .ofNat (Bytes.ofBe [v₀, v₁])
        payload       := bytes.take len
      }
      let (rs, tail) := deframe (bytes.drop len)
      (r :: rs, tail)
  | bytes => ([], bytes)
termination_by bytes => bytes.length
decreasing_by simp only [List.length_drop, List.length_cons]; omega

-- What the demos use of a connection of `rustls`. `opened` are the records that it has opened and
-- `buffer` what it has read besides; the demos do not see them.
structure Rustls where
  Conn              : Type
  new               : Conn
  readTls           : Conn → Bytes → Conn
  processNewPackets : Conn → Conn
  isHandshaking     : Conn → Bool
  rxSeq             : Conn → Nat
  opened            : Conn → List RawRecord
  buffer            : Conn → Bytes

-- It consumes whole records of which the server's Finished is number `handshake`, counts those after
-- it and keeps what is left in its buffer.
structure Rustls.Consumes (T : Rustls) (handshake : Nat) : Prop where
  opened_new        : T.opened T.new = []
  buffer_new        : T.buffer T.new = []
  opened_readTls    : T.opened (T.readTls c piece) = T.opened c
  buffer_readTls    : T.buffer (T.readTls c piece) = T.buffer c ++ piece
  opened_process    : T.opened (T.processNewPackets c) = T.opened c ++ (deframe (T.buffer c)).1
  buffer_process    : T.buffer (T.processNewPackets c) = (deframe (T.buffer c)).2
  isHandshaking     : T.isHandshaking c = decide ((T.opened c).length < handshake)
  rxSeq             : T.rxSeq c = (T.opened c).length - handshake

-- A connection over a stream that captures what is read.
structure CapturingStream (T : Rustls) where
  inbound : Bytes
  tls     : T.Conn

namespace CapturingStream

variable {T : Rustls}

def new : CapturingStream T := ⟨[], T.new⟩

-- A read of one piece, which is processed.
def read (c : CapturingStream T) (piece : Bytes) : CapturingStream T :=
  ⟨c.inbound ++ piece, T.processNewPackets (T.readTls c.tls piece)⟩

-- The loop that completes the handshake, and the pieces that it has not read.
def handshakeLoop (c : CapturingStream T) : List Bytes → CapturingStream T × List Bytes
  | []              => (c, [])
  | piece :: pieces =>
    if T.isHandshaking c.tls then
      handshakeLoop (c.read piece) pieces
    else
      (c, piece :: pieces)

-- The read with the short timeout, which is over before the next piece unless that is in time.
def drain (inTime : Bool) : CapturingStream T × List Bytes → CapturingStream T
  | (c, piece :: _) => if inTime then c.read piece else { c with tls := T.processNewPackets c.tls }
  | (c, [])         => { c with tls := T.processNewPackets c.tls }

end CapturingStream

-- Where the demos start to read records themselves.
structure Handover where
  rawInbound : Bytes
  tcp        : Bytes
  rxSeq      : Nat

section

variable (T : Rustls) (stream : Bytes) (pieces : List Bytes) (inTime : Bool)

-- The connection after the drain.
def connected : CapturingStream T :=
  CapturingStream.drain inTime (CapturingStream.handshakeLoop .new pieces)

def runLegacyDemo.handover : Handover :=
  let c := connected T pieces inTime
  { rawInbound := c.inbound, tcp := stream.drop c.inbound.length, rxSeq := T.rxSeq c.tls }

def runTwoPcTrafficDemo.handover : Handover :=
  let c := connected T pieces inTime
  { rawInbound := c.inbound, tcp := stream.drop c.inbound.length, rxSeq := 0 }

end

end Notary
