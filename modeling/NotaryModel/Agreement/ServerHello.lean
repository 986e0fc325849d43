import NotaryModel.Agreement.KeyShare
import NotaryModel.Guest.Theorems.KeyShare

namespace Agreement

open Tls
open Guest (getElem?_of_drop slice_of_drop drop_append_left drop_lengthPrefixed be_one_eq)

section

variable {rest : Bytes} {extensions : List Extension}

theorem shares_other {e : Extension} (he : e.data.length < 256 ^ 2) (ht : e.type ≠ keyShareType) :
    shares (e.toBytes ++ rest) = shares rest := by
  have ⟨t₀, t₁, l₀, l₁, htn, hln, hb⟩ := Extension.exists_toBytes he rest
  have hc : ¬Bytes.ofBe [t₀, t₁] = 0x0033 :=
    fun hc => ht (UInt16.toNat_inj.mp (htn.symm.trans hc))
  have hl : ¬(e.data ++ rest).length < Bytes.ofBe [l₀, l₁] := by
    rw [hln, List.length_append]
    omega
  rw [hb, shares_of_other hl hc, hln, List.drop_left]

theorem shares_keyShare {e : Extension} (he : e.data.length < 256 ^ 2) (ht : e.type = keyShareType) :
    shares (e.toBytes ++ rest) = ⟨e.data, e.data ++ rest⟩ :: shares rest := by
  have ⟨t₀, t₁, l₀, l₁, htn, hln, hb⟩ := Extension.exists_toBytes he rest
  have hl : ¬(e.data ++ rest).length < Bytes.ofBe [l₀, l₁] := by
    rw [hln, List.length_append]
    omega
  rw [hb, shares_of_keyShare hl (htn.trans (congrArg UInt16.toNat ht)), hln, List.take_left,
    List.drop_left]

theorem shares_others (he : ∀ e ∈ extensions, e.data.length < 256 ^ 2)
    (ht : ∀ e ∈ extensions, e.type ≠ keyShareType) :
    shares (extensionBlock extensions ++ rest) = shares rest := by
  induction extensions
  case nil => rfl
  case cons e extensions hi =>
    have ⟨he₀, he⟩ := List.forall_mem_cons.mp he
    have ⟨ht₀, ht⟩ := List.forall_mem_cons.mp ht
    rw [extensionBlock, List.flatMap_cons, List.append_assoc, shares_other he₀ ht₀]
    exact hi he ht

theorem shares_block (h : (extensionBlock extensions).length < 256 ^ 2)
    (hs : extensions.filter (·.type == keyShareType) = [e]) :
    ∃ rest, shares (extensionBlock extensions) = [⟨e.data, e.data ++ rest⟩] := by
  have hd := length_data_lt h
  obtain ⟨before, after, rfl, hb, ht, ha⟩ := List.filter_eq_cons_iff.mp hs
  rw [List.filter_eq_nil_iff] at ha
  have hd₁ : ∀ e ∈ before, e.data.length < 256 ^ 2 :=
    fun e he => hd e (List.mem_append_left _ he)
  have hd₂ : ∀ e ∈ after, e.data.length < 256 ^ 2 :=
    fun e he => hd e (List.mem_append_right _ (List.mem_cons_of_mem _ he))
  have hd₀ := hd e (List.mem_append_right _ List.mem_cons_self)
  have hafter := @shares_others [] after hd₂ fun e he => by simpa using ha e he
  rw [List.append_nil, shares_nil] at hafter
  refine ⟨extensionBlock after, ?_⟩
  rw [extensionBlock, List.flatMap_append, List.flatMap_cons, ←extensionBlock,
    shares_others hd₁ fun e he => by simpa using hb e he,
    shares_keyShare hd₀ (by simpa using ht), ←extensionBlock, hafter]

end

section

variable {k : Arr 32} {rest : Bytes}

-- What both parsers make of the share of a server.
def serverShare (k : Arr 32) (rest : Bytes) : Share where
  data := (Extension.serverShare k).data
  rest := (Extension.serverShare k).data ++ rest

theorem serverShare_rest :
    (serverShare k rest).rest = 0 :: 0x1d :: 0 :: 32 :: (k.toList ++ rest) := by
  have hg : Bytes.be 2 x25519.toNat = [0, 0x1d] := by decide
  have hl : Bytes.be 2 32 = [0, 32] := by decide
  simp [serverShare, Extension.serverShare, KeyShareEntry.toBytes, hg, hl]

theorem serverShare_isX25519 : (serverShare k rest).IsX25519 := by
  rw [Share.IsX25519, serverShare_rest]
  exact ⟨rfl, rfl⟩

theorem serverShare_whole : (serverShare k rest).Whole :=
  ⟨by simp [serverShare, Extension.serverShare, KeyShareEntry.toBytes], serverShare_isX25519⟩

theorem serverShare_loose : (serverShare k rest).Loose :=
  ⟨Nat.le_trans (by decide) (@serverShare_whole k rest).1, by simp [serverShare_rest],
    serverShare_isX25519⟩

theorem serverShare_key : (serverShare k rest).key = k := by
  have hs : Bytes.slice (serverShare k rest).rest 4 36 = (k.toList ++ rest).take 32 := by
    rw [serverShare_rest]
    rfl
  rw [Share.key, hs]
  exact Guest.ofBytes_toList_append k rest

end

-- Where the parsers find the block of extensions in the body of a ServerHello.
theorem serverHello_body_drop (h : ServerHello) :
    let p₁ := 34 + (1 + h.sessionId.length)
    h.body.drop 34 = Bytes.be 1 h.sessionId.length ++ (h.sessionId ++ h.body.drop p₁) ∧
    h.body.drop (p₁ + 2) = 0 :: h.body.drop (p₁ + 2 + 1) ∧
    h.body.drop (p₁ + 2 + 1) =
      Bytes.be 2 (extensionBlock h.extensions).length ++ extensionBlock h.extensions := by
  intro p₁
  have h₀ : h.body.drop 34 = Bytes.be 1 h.sessionId.length ++ (h.sessionId ++
      (h.cipherSuite.toList ++ (0 ::
      (Bytes.be 2 (extensionBlock h.extensions).length ++ extensionBlock h.extensions)))) := by
    rw [ServerHello.body, ←List.append_assoc]
    exact List.drop_left' (by simp)
  have h₁ := drop_lengthPrefixed h₀
  have h₂ := drop_append_left h₁
  rw [Vector.length_toList] at h₂
  have h₃ := @drop_append_left _ _ [0] _ h₂
  exact ⟨h₁ ▸ h₀, (congrArg (0 :: ·) h₃).symm ▸ h₂, h₃⟩

section

variable {hello : ServerHello} (hh : hello.Fits)

include hh

theorem guestBlock_body : guestBlock hello.body = some (extensionBlock hello.extensions) := by
  have ⟨h₀, _, h₃⟩ := serverHello_body_drop hello
  have ⟨sidLen, hsid, hsidn⟩ := be_one_eq hh.sessionId
  have hl := congrArg List.length h₃
  rw [List.length_drop, List.length_append, Bytes.length_be] at hl
  have hex := slice_of_drop h₃
  have hdrop := drop_append_left h₃
  rw [Bytes.length_be] at hex hdrop
  rw [hsid] at h₀
  simp only [guestBlock, guard, Option.bind_eq_bind, Option.bind_some, getElem?_of_drop h₀, hsidn,
    hex, Bytes.ofBe_be_of_lt hh.extensions]
  rw [if_pos (by omega), Nat.min_eq_left (by omega), Bytes.slice, hdrop, Nat.add_sub_cancel_left,
    List.take_length]
  rfl

theorem notaryBlock_body : notaryBlock hello.body = some (extensionBlock hello.extensions) := by
  have ⟨h₀, h₂, h₃⟩ := serverHello_body_drop hello
  have ⟨sidLen, hsid, hsidn⟩ := be_one_eq hh.sessionId
  have hl := congrArg List.length h₃
  rw [List.length_drop, List.length_append, Bytes.length_be] at hl
  have hex := slice_of_drop h₃
  have hdrop := drop_append_left h₃
  rw [Bytes.length_be] at hex hdrop
  rw [hsid] at h₀
  rw [←Nat.add_assoc 34 1] at h₂ hex hdrop hl
  have hz : (0 : Byte).toNat = 0 := rfl
  simp only [notaryBlock, guard, Option.bind_eq_bind, Option.bind_some, getElem?_of_drop h₀, hsidn,
    getElem?_of_drop h₂, hz, Nat.add_zero, hex, Bytes.ofBe_be_of_lt hh.extensions]
  rw [if_pos (by omega), if_pos (by omega), Bytes.slice, hdrop, Nat.add_sub_cancel_left,
    List.take_length]
  rfl

end

theorem parseServerHelloKeyShare_eq_key {hello : ServerHello} {k : Arr 32} {rs : List RawRecord}
    (hh : hello.Fits)
    (hs : hello.extensions.filter (·.type == keyShareType) = [.serverShare k])
    (hf : Guest.Fit rs) (hr : rs.find? (·.contentType == 22) = some r)
    (hp : r.payload = hello.msg.toBytes) :
    Guest.parseServerHelloKeyShare (rs.flatMap RawRecord.toBytes) = .ok (some k) ∧
    Notary.parseServerHelloKeyShare (rs.flatMap RawRecord.toBytes) = some k := by
  have hrec := parse_records hf
  obtain ⟨rest, hshares⟩ := shares_block hh.extensions hs
  change _ = [serverShare k rest] at hshares
  have hm : hello.msg.Fits := by
    have hl := hf r (List.mem_of_find?_eq_some hr)
    rw [hp, HandshakeMsg.toBytes, List.length_append] at hl
    rw [HandshakeMsg.Fits]
    omega
  constructor
  case left =>
    have hb : Guest.firstMessage 2 rs = some hello.body := Guest.firstMessage_eq hm hr hp
    have hg : guestShares rs = [serverShare k rest] := by
      rw [guestShares, hb, Option.bind_some, guestBlock_body hh]
      exact hshares
    rw [guest_eq hrec, hg]
    simp [serverShare_whole, serverShare_key]
  case right =>
    obtain ⟨ht, before, after, rfl, hbefore⟩ := List.find?_eq_some_iff_append.mp hr
    have hn : notaryShares before = [] := by
      refine List.flatMap_eq_nil_iff.mpr fun r hr => if_neg fun h => ?_
      simpa [h.1] using hbefore r hr
    have hn' : ∃ more, notaryShares (r :: after) = serverShare k rest :: more := by
      refine ⟨notaryShares after, ?_⟩
      rw [notaryShares, List.flatMap_cons, ←notaryShares, if_pos, hp]
      case hc =>
        rw [hp]
        exact ⟨by simpa using ht, by simp [HandshakeMsg.toBytes], rfl⟩
      have hd : hello.msg.toBytes.drop 4 = hello.body := rfl
      rw [hd, notaryBlock_body hh]
      exact congrArg (· ++ _) hshares
    obtain ⟨more, hn'⟩ := hn'
    have ha : notaryShares (before ++ r :: after) = serverShare k rest :: more := by
      rw [←hn', notaryShares, List.flatMap_append, ←notaryShares, ←notaryShares, hn]
      rfl
    rw [notary_eq hrec, ha, List.find?_cons_of_pos (by simpa using serverShare_loose),
      Option.map_some, serverShare_key]

-- The share behind another extension, in a record between records of other types.
def sharingHello : ServerHello where
  legacyVersion := 0
  random        := 0
  sessionId     := [1, 2]
  cipherSuite   := 0
  extensions    := [⟨43, [3, 4]⟩, .serverShare 0]

def sharingRecords : List RawRecord :=
  [⟨20, 0x0303, [1]⟩, ⟨22, 0x0303, sharingHello.msg.toBytes⟩, ⟨23, 0x0303, [5]⟩]

theorem parseServerHelloKeyShare_eq_key_of_sharing :
    Guest.parseServerHelloKeyShare (sharingRecords.flatMap RawRecord.toBytes) = .ok (some 0) ∧
    Notary.parseServerHelloKeyShare (sharingRecords.flatMap RawRecord.toBytes) = some 0 :=
  parseServerHelloKeyShare_eq_key ⟨by decide, by decide⟩ rfl (by decide) rfl rfl

end Agreement
