import NotaryModel.Guest.KeyShare
import NotaryModel.Guest.Theorems.Handshake
import NotaryModel.Tls.Hello

namespace Guest

open Tls

section

variable {body v rest : Bytes} {pos : Nat}

theorem getElem?_of_drop (h : body.drop pos = b :: rest) : body[pos]? = some b := by
  have h₀ := congrArg (·[0]?) h
  simpa using h₀

theorem slice_of_drop (h : body.drop pos = v ++ rest) :
    Bytes.slice body pos (pos + v.length) = v := by
  rw [Bytes.slice, h, Nat.add_sub_cancel_left, List.take_left]

end

theorem ofBytes_toList_append (k : Arr n) (rest : Bytes) :
    Arr.ofBytes n ((k.toList ++ rest).take n) = k := by
  rw [List.take_left' (Vector.length_toList), Arr.ofBytes_toList]

-- The key that the loop over the shares is after.
def IsX25519 (e : KeyShareEntry) : Prop :=
  e.group = x25519 ∧ e.key.length = 32

instance : DecidablePred IsX25519 :=
  fun _ => inferInstanceAs <| Decidable (_ ∧ _)

theorem shares_flatMap {entries : List KeyShareEntry}
    (h : ∀ e ∈ entries, e.key.length < 256 ^ 2) :
    parseKeyShareClient.shares (entries.flatMap KeyShareEntry.toBytes)
      (entries.flatMap KeyShareEntry.toBytes).length =
    (entries.find? (IsX25519 ·)).map fun e => .ofBytes 32 e.key := by
  induction entries
  case nil =>
    unfold parseKeyShareClient.shares
    exact if_pos (by decide)
  case cons e entries hi =>
    have ⟨hl, h⟩ := List.forall_mem_cons.mp h
    have ⟨g₀, g₁, hg, hgn⟩ := exists_be_two e.group.toNat_lt
    have ⟨k₀, k₁, hk, hkn⟩ := exists_be_two hl
    have hb : (e :: entries).flatMap KeyShareEntry.toBytes =
        g₀ :: g₁ :: k₀ :: k₁ :: (e.key ++ entries.flatMap KeyShareEntry.toBytes) := by
      rw [List.flatMap_cons, KeyShareEntry.toBytes, hg, hk]
      simp
    rw [hb, parseKeyShareClient.shares, if_neg (by simp)]
    simp only [hgn, hkn, List.length_append, List.length_cons]
    rw [if_neg (by omega)]
    by_cases hx : IsX25519 e
    case pos =>
      rw [if_pos ⟨congrArg UInt16.toNat hx.1, hx.2⟩, List.find?_cons_of_pos (by simpa using hx),
        List.take_left' hx.2]
      rfl
    case neg =>
      have hc : ¬(e.group.toNat = 0x001d ∧ e.key.length = 32) :=
        fun hc => hx ⟨UInt16.toNat_inj.mp hc.1, hc.2⟩
      rw [if_neg hc, List.find?_cons_of_neg (by simpa using hx), List.drop_left, ←hi h]
      congr 1
      omega

section

variable {exts rest : Bytes} {entries : List KeyShareEntry}

theorem parseKeyShareClient_other {e : Extension} (he : e.data.length < 256 ^ 2)
    (ht : e.type ≠ keyShareType) :
    parseKeyShareClient (e.toBytes ++ rest) = parseKeyShareClient rest := by
  have ⟨t₀, t₁, l₀, l₁, htn, hln, hb⟩ := Extension.exists_toBytes he rest
  have hc : ¬e.type.toNat = 0x0033 :=
    fun hc => ht (UInt16.toNat_inj.mp hc)
  rw [hb, parseKeyShareClient]
  simp only [htn, hln]
  rw [if_neg (by simp), if_neg hc, List.drop_left]

theorem parseKeyShareClient_others {extensions : List Extension}
    (he : ∀ e ∈ extensions, e.data.length < 256 ^ 2) (ht : ∀ e ∈ extensions, e.type ≠ keyShareType) :
    parseKeyShareClient (extensionBlock extensions ++ rest) = parseKeyShareClient rest := by
  induction extensions
  case nil => rfl
  case cons e extensions hi =>
    have ⟨he₀, he⟩ := List.forall_mem_cons.mp he
    have ⟨ht₀, ht⟩ := List.forall_mem_cons.mp ht
    rw [extensionBlock, List.flatMap_cons, List.append_assoc, parseKeyShareClient_other he₀ ht₀]
    exact hi he ht

theorem parseKeyShareClient_clientShares
    (he : (Extension.clientShares entries).data.length < 256 ^ 2) :
    parseKeyShareClient ((Extension.clientShares entries).toBytes ++ rest) =
    ((entries.find? (IsX25519 ·)).map fun e => .ofBytes 32 e.key).or (parseKeyShareClient rest) := by
  have ⟨t₀, t₁, l₀, l₁, htn, hln, hb⟩ := Extension.exists_toBytes he rest
  have hd : (Extension.clientShares entries).data =
      Bytes.be 2 (entries.flatMap KeyShareEntry.toBytes).length ++
        entries.flatMap KeyShareEntry.toBytes := rfl
  have hl : (entries.flatMap KeyShareEntry.toBytes).length < 256 ^ 2 := by
    rw [hd, List.length_append] at he
    omega
  have hk : ∀ e ∈ entries, e.key.length < 256 ^ 2 := by
    intro e h
    obtain ⟨before, after, rfl⟩ := List.append_of_mem h
    simp only [List.flatMap_append, List.flatMap_cons, List.length_append,
      KeyShareEntry.toBytes] at hl
    omega
  have hty : (Extension.clientShares entries).type.toNat = 0x0033 := rfl
  have hs : Bytes.slice (Extension.clientShares entries).data 0 2 =
      Bytes.be 2 (entries.flatMap KeyShareEntry.toBytes).length := by
    simp [Bytes.slice, hd]
  rw [hb, parseKeyShareClient]
  simp only [htn, hln, List.take_left, List.drop_left]
  have h₂ : ¬(Extension.clientShares entries).data.length < 2 := by
    rw [hd, List.length_append, Bytes.length_be]
    omega
  rw [if_neg (by simp), if_pos hty, if_neg h₂, hs, Bytes.ofBe_be_of_lt hl, hd,
    List.drop_left' (by simp), List.length_append, Bytes.length_be, Nat.min_self,
    Nat.add_sub_cancel_left, shares_flatMap hk]

theorem parseKeyShareClient_block {extensions : List Extension}
    (h : (extensionBlock extensions).length < 256 ^ 2)
    (hs : extensions.filter (·.type == keyShareType) = [.clientShares entries]) :
    parseKeyShareClient (extensionBlock extensions) =
    (entries.find? (IsX25519 ·)).map fun e => .ofBytes 32 e.key := by
  have hd := length_data_lt h
  obtain ⟨before, after, rfl, hb, _, ha⟩ := List.filter_eq_cons_iff.mp hs
  rw [List.filter_eq_nil_iff] at ha
  have hd₁ : ∀ e ∈ before, e.data.length < 256 ^ 2 :=
    fun e he => hd e (List.mem_append_left _ he)
  have hd₂ : ∀ e ∈ after, e.data.length < 256 ^ 2 :=
    fun e he => hd e (List.mem_append_right _ (List.mem_cons_of_mem _ he))
  have hd₀ := hd _ (List.mem_append_right _ List.mem_cons_self)
  have hnil : parseKeyShareClient [] = none := by
    rw [parseKeyShareClient]
    rintro _ _ _ _ _ ⟨⟩
  have hafter := @parseKeyShareClient_others [] after hd₂ fun e he => by simpa using ha e he
  rw [List.append_nil, hnil] at hafter
  rw [extensionBlock, List.flatMap_append, List.flatMap_cons, ←extensionBlock,
    parseKeyShareClient_others hd₁ fun e he => by simpa using hb e he,
    parseKeyShareClient_clientShares hd₀, ←extensionBlock, hafter, Option.or_none]

end

theorem drop_lengthPrefixed {body v rest : Bytes}
    (h : body.drop pos = Bytes.be w v.length ++ (v ++ rest)) :
    body.drop (pos + (w + v.length)) = rest := by
  have hd := drop_append_left (drop_append_left h)
  rwa [Bytes.length_be, Nat.add_assoc] at hd

-- Where the parser finds the block of extensions in the body of a ClientHello.
theorem clientHello_body_drop (h : ClientHello) :
    let p₁ := 34 + (1 + h.sessionId.length)
    let p₂ := p₁ + (2 + h.cipherSuites.length)
    let p₃ := p₂ + (1 + h.compressionMethods.length)
    h.body.drop 34 = Bytes.be 1 h.sessionId.length ++ (h.sessionId ++ h.body.drop p₁) ∧
    h.body.drop p₁ = Bytes.be 2 h.cipherSuites.length ++ (h.cipherSuites ++ h.body.drop p₂) ∧
    h.body.drop p₂ =
      Bytes.be 1 h.compressionMethods.length ++ (h.compressionMethods ++ h.body.drop p₃) ∧
    h.body.drop p₃ =
      Bytes.be 2 (extensionBlock h.extensions).length ++ extensionBlock h.extensions := by
  intro p₁ p₂ p₃
  have h₀ : h.body.drop 34 = Bytes.be 1 h.sessionId.length ++ (h.sessionId ++
      (Bytes.be 2 h.cipherSuites.length ++ (h.cipherSuites ++
      (Bytes.be 1 h.compressionMethods.length ++ (h.compressionMethods ++
      (Bytes.be 2 (extensionBlock h.extensions).length ++ extensionBlock h.extensions)))))) := by
    rw [ClientHello.body, ←List.append_assoc]
    exact List.drop_left' (by simp)
  have h₁ := drop_lengthPrefixed h₀
  have h₂ := drop_lengthPrefixed h₁
  have h₃ := drop_lengthPrefixed h₂
  exact ⟨h₁ ▸ h₀, h₂ ▸ h₁, h₃ ▸ h₂, h₃⟩

theorem be_one_eq (h : n < 256) : ∃ b : Byte, Bytes.be 1 n = [b] ∧ b.toNat = n :=
  ⟨.ofNat n, by simp [Bytes.be], UInt8.toNat_ofNat_of_lt h⟩

theorem firstMessage_eq {rs : List RawRecord} {msg : HandshakeMsg} (hm : msg.Fits)
    (hr : rs.find? (·.contentType == 22) = some r) (hp : r.payload = msg.toBytes) :
    firstMessage msg.msgType rs = some msg.body := by
  have hs : parseHandshakeMessages ([msg].flatMap HandshakeMsg.toBytes) = .ok [msg] :=
    parseHandshakeMessages_flatMap (by simpa using hm)
  rw [List.flatMap_singleton] at hs
  simp [firstMessage, hr, hp, hs, Except.toOption]

-- The key of the first share that is one of X25519, whatever the other shares and extensions are.
theorem parseClientHelloKeyShare_eq {hello : ClientHello} {entries : List KeyShareEntry}
    {rs : List RawRecord} (hh : hello.Fits)
    (hs : hello.extensions.filter (·.type == keyShareType) = [.clientShares entries])
    (hf : Fit rs) (hr : rs.find? (·.contentType == 22) = some r)
    (hp : r.payload = hello.msg.toBytes) :
    parseClientHelloKeyShare (rs.flatMap recordToBytes) =
    .ok ((entries.find? (IsX25519 ·)).map fun e => .ofBytes 32 e.key) := by
  have hm : hello.msg.Fits := by
    have hl := hf r (List.mem_of_find?_eq_some hr)
    rw [hp, HandshakeMsg.toBytes, List.length_append] at hl
    rw [HandshakeMsg.Fits]
    omega
  have hb : firstMessage 1 rs = some hello.body := firstMessage_eq hm hr hp
  obtain ⟨h₀, h₁, h₂, h₃⟩ := clientHello_body_drop hello
  obtain ⟨sidLen, hsid, hsidn⟩ := be_one_eq hh.sessionId
  obtain ⟨cmLen, hcm, hcmn⟩ := be_one_eq hh.compressionMethods
  have hl := congrArg List.length h₃
  rw [List.length_drop, List.length_append, Bytes.length_be] at hl
  have hcs := slice_of_drop h₁
  have hex := slice_of_drop h₃
  have hdrop := drop_append_left h₃
  rw [Bytes.length_be] at hcs hex hdrop
  have hrec : parseRecords (rs.flatMap recordToBytes) = .ok rs := parseRecords_flatMap hf
  rw [parseClientHelloKeyShare, hrec, Exec.ok_bind, hb]
  rw [hsid] at h₀
  rw [hcm] at h₂
  simp only [guard, Nat.reduceAdd, Option.bind_eq_bind, Option.bind_some, getElem?_of_drop h₀,
    hsidn, hcs, Bytes.ofBe_be_of_lt hh.cipherSuites]
  rw [if_pos (by omega)]
  simp only [Option.pure_def, Option.bind_some, getElem?_of_drop h₂, hcmn, hex,
    Bytes.ofBe_be_of_lt hh.extensions]
  rw [if_pos (by omega), Nat.min_eq_left (by omega), Bytes.slice, hdrop, Nat.add_sub_cancel_left,
    List.take_length, Option.bind_some, parseKeyShareClient_block hh.extensions hs]
  rfl

-- A share of another group before the one that counts.
def sharingHello : ClientHello where
  legacyVersion      := 0
  random             := 0
  sessionId          := [1, 2]
  cipherSuites       := [0x13, 1]
  compressionMethods := [0]
  extensions         := [⟨43, [3, 4]⟩, .clientShares [⟨0x0a0a, [0]⟩, ⟨x25519, List.replicate 32 7⟩]]

def sharingRecords : List RawRecord :=
  [⟨22, 0x0301, sharingHello.msg.toBytes⟩, ⟨20, 0x0303, [1]⟩]

theorem parseClientHelloKeyShare_eq_of_sharing :
    parseClientHelloKeyShare (sharingRecords.flatMap recordToBytes) =
    .ok (some (.ofBytes 32 (List.replicate 32 7))) := by
  have hh : sharingHello.Fits := ⟨by decide, by decide, by decide, by decide⟩
  have hf : Fit sharingRecords := by decide
  exact parseClientHelloKeyShare_eq hh rfl hf rfl rfl

end Guest
