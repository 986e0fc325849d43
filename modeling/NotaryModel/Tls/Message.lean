import NotaryModel.Primitives.Encoding

-- A handshake message: its type, a length of three bytes, and its body.
structure HandshakeMsg where
  msgType : Byte
  body    : Bytes
  deriving DecidableEq

namespace HandshakeMsg

def toBytes (m : HandshakeMsg) : Bytes :=
  [m.msgType] ++ Bytes.be 3 m.body.length ++ m.body

-- The body fits the length field.
def Fits (m : HandshakeMsg) : Prop :=
  m.body.length < 256 ^ 3

instance : DecidablePred Fits :=
  fun m => inferInstanceAs (Decidable (m.body.length < 256 ^ 3))

theorem exists_toBytes {m : HandshakeMsg} (h : m.Fits) : ∃ l₀ l₁ l₂,
    Bytes.ofBe [l₀, l₁, l₂] = m.body.length ∧ m.toBytes = m.msgType :: l₀ :: l₁ :: l₂ :: m.body :=
  ⟨_, _, _, Bytes.ofBe_be_of_lt h, rfl⟩

theorem toBytes_ne_nil (m : HandshakeMsg) : m.toBytes ≠ [] := by
  simp [toBytes]

end HandshakeMsg

-- An entry of the list in a Certificate message.
structure CertificateEntry where
  der        : Bytes
  extensions : Bytes

namespace CertificateEntry

def toBytes (e : CertificateEntry) : Bytes :=
  Bytes.be 3 e.der.length ++ e.der ++ Bytes.be 2 e.extensions.length ++ e.extensions

@[mk_iff]
structure Fits (e : CertificateEntry) : Prop where
  der        : e.der.length < 256 ^ 3
  extensions : e.extensions.length < 256 ^ 2

end CertificateEntry

-- The body of a Certificate message.
def certificateBody (context : Bytes) (entries : List CertificateEntry) : Bytes :=
  let list := entries.flatMap CertificateEntry.toBytes
  Bytes.be 1 context.length ++ context ++ Bytes.be 3 list.length ++ list
