import NotaryModel.Tls.Message

namespace Tls

-- An extension of a hello message.
structure Extension where
  type : UInt16
  data : Bytes

def keyShareType : UInt16 := 0x0033
def x25519 : UInt16 := 0x001d

-- A key share: the named group and the public key.
structure KeyShareEntry where
  group : UInt16
  key   : Bytes

def KeyShareEntry.toBytes (e : KeyShareEntry) : Bytes :=
  Bytes.be 2 e.group.toNat ++ (Bytes.be 2 e.key.length ++ e.key)

namespace Extension

def toBytes (e : Extension) : Bytes :=
  Bytes.be 2 e.type.toNat ++ (Bytes.be 2 e.data.length ++ e.data)

-- The shares that a client offers, and the share that a server answers with.
def clientShares (entries : List KeyShareEntry) : Extension where
  type := keyShareType
  data :=
    let list := entries.flatMap KeyShareEntry.toBytes
    Bytes.be 2 list.length ++ list

def serverShare (key : Arr 32) : Extension where
  type := keyShareType
  data := KeyShareEntry.toBytes { group := x25519, key := key.toList }

end Extension

def extensionBlock (extensions : List Extension) : Bytes :=
  extensions.flatMap Extension.toBytes

structure ClientHello where
  legacyVersion      : Arr 2
  random             : Arr 32
  sessionId          : Bytes
  cipherSuites       : Bytes
  compressionMethods : Bytes
  extensions         : List Extension

structure ServerHello where
  legacyVersion : Arr 2
  random        : Arr 32
  sessionId     : Bytes
  cipherSuite   : Arr 2
  extensions    : List Extension

namespace ClientHello

def body (h : ClientHello) : Bytes :=
  h.legacyVersion.toList ++ (h.random.toList ++ (Bytes.be 1 h.sessionId.length ++ (h.sessionId ++
    (Bytes.be 2 h.cipherSuites.length ++ (h.cipherSuites ++
    (Bytes.be 1 h.compressionMethods.length ++ (h.compressionMethods ++
    (Bytes.be 2 (extensionBlock h.extensions).length ++ extensionBlock h.extensions))))))))

def msg (h : ClientHello) : HandshakeMsg where
  msgType := 1
  body    := h.body

@[mk_iff]
structure Fits (h : ClientHello) : Prop where
  sessionId          : h.sessionId.length < 256
  cipherSuites       : h.cipherSuites.length < 256 ^ 2
  compressionMethods : h.compressionMethods.length < 256
  extensions         : (extensionBlock h.extensions).length < 256 ^ 2

end ClientHello

namespace ServerHello

-- The compression method is null.
def body (h : ServerHello) : Bytes :=
  h.legacyVersion.toList ++ (h.random.toList ++ (Bytes.be 1 h.sessionId.length ++ (h.sessionId ++
    (h.cipherSuite.toList ++ (0 ::
    (Bytes.be 2 (extensionBlock h.extensions).length ++ extensionBlock h.extensions))))))

def msg (h : ServerHello) : HandshakeMsg where
  msgType := 2
  body    := h.body

@[mk_iff]
structure Fits (h : ServerHello) : Prop where
  sessionId  : h.sessionId.length < 256
  extensions : (extensionBlock h.extensions).length < 256 ^ 2

end ServerHello

theorem exists_be_two (h : n < 256 ^ 2) :
    ∃ b₀ b₁, Bytes.be 2 n = [b₀, b₁] ∧ Bytes.ofBe [b₀, b₁] = n :=
  ⟨_, _, rfl, Bytes.ofBe_be_of_lt h⟩

theorem Extension.exists_toBytes {e : Extension} (h : e.data.length < 256 ^ 2) (rest : Bytes) :
    ∃ t₀ t₁ l₀ l₁, Bytes.ofBe [t₀, t₁] = e.type.toNat ∧ Bytes.ofBe [l₀, l₁] = e.data.length ∧
      e.toBytes ++ rest = t₀ :: t₁ :: l₀ :: l₁ :: (e.data ++ rest) := by
  have ⟨t₀, t₁, ht, htn⟩ := exists_be_two e.type.toNat_lt
  have ⟨l₀, l₁, hl, hln⟩ := exists_be_two h
  refine ⟨t₀, t₁, l₀, l₁, htn, hln, ?_⟩
  rw [toBytes, ht, hl]
  simp

-- Each extension of a block that fits its length field fits its own.
theorem length_data_lt {extensions : List Extension}
    (h : (extensionBlock extensions).length < 256 ^ 2) :
    ∀ e ∈ extensions, e.data.length < 256 ^ 2 := by
  intro e he
  obtain ⟨before, after, rfl⟩ := List.append_of_mem he
  simp only [extensionBlock, List.flatMap_append, List.flatMap_cons, List.length_append,
    Extension.toBytes] at h
  omega

end Tls
