import NotaryModel.Guest.Theorems.Certificate

-- Elements in DER, with the shortest definite length. It is less than `2 ^ 32`.
namespace Der

def lengthOctets (n : Nat) : Bytes :=
  if n < 2 ^ 7 then Bytes.be 1 n
  else if n < 2 ^ 8 then 0x81 :: Bytes.be 1 n
  else if n < 2 ^ 16 then 0x82 :: Bytes.be 2 n
  else if n < 2 ^ 24 then 0x83 :: Bytes.be 3 n
  else 0x84 :: Bytes.be 4 n

def element (tag : Byte) (content : Bytes) : Bytes :=
  tag :: lengthOctets content.length ++ content

-- The octets of a length in its long form.
structure IsLong (n : Nat) (b : Byte) (bs : Bytes) : Prop where
  high  : b &&& 0x80 ≠ 0
  count : (b &&& 0x7f).toNat = bs.length
  le    : bs.length ≤ 4
  value : Bytes.ofBe bs = n

theorem and_eq_zero (h : n < 2 ^ 7) : UInt8.ofNat n &&& 0x80 = 0 := by
  have hd : ∀ m : Fin (2 ^ 7), UInt8.ofNat m &&& 0x80 = 0 := by decide
  exact hd ⟨n, h⟩

theorem isLong_be (hb : b &&& 0x80 ≠ 0) (hc : (b &&& 0x7f).toNat = w) (hw : w ≤ 4)
    (hn : n < 256 ^ w) : IsLong n b (Bytes.be w n) where
  high  := hb
  count := by rw [hc, Bytes.length_be]
  le    := by rwa [Bytes.length_be]
  value := Bytes.ofBe_be_of_lt hn

theorem lengthOctets_cases (h : n < 2 ^ 32) :
    (∃ b, lengthOctets n = [b] ∧ b &&& 0x80 = 0 ∧ b.toNat = n) ∨
    ∃ b bs, lengthOctets n = b :: bs ∧ IsLong n b bs := by
  unfold lengthOctets
  split_ifs with h₇ h₈ h₁₆ h₂₄
  · refine .inl ⟨UInt8.ofNat n, ?_, and_eq_zero h₇, ?_⟩
    · simp [Bytes.be]
    · exact UInt8.toNat_ofNat_of_lt' (h₇.trans (by decide))
  · exact .inr ⟨_, _, rfl, isLong_be (by decide) (by decide) (by decide) h₈⟩
  · exact .inr ⟨_, _, rfl, isLong_be (by decide) (by decide) (by decide) h₁₆⟩
  · exact .inr ⟨_, _, rfl, isLong_be (by decide) (by decide) (by decide) h₂₄⟩
  · exact .inr ⟨_, _, rfl, isLong_be (by decide) (by decide) (by decide) h⟩

end Der

namespace Guest

open Der
open Exec (lift_ok range_eq_ok)

variable {bs content s : Bytes}

-- The reader of a length computes with a `usize`, which does not overflow.
theorem foldl_usize (h : 256 ^ bs.length * (l + 1) ≤ 2 ^ 64) :
    bs.foldl (fun l b => usize (l <<< 8) ||| b.toNat) l =
    bs.foldl (fun l b => 256 * l + b.toNat) l := by
  induction bs generalizing l
  case nil => rfl
  case cons b bs hi =>
    have hb := b.toNat_lt
    have hp : 0 < 256 ^ bs.length := Nat.pow_pos (by decide)
    rw [List.length_cons, Nat.pow_succ, Nat.mul_assoc] at h
    have hl : 256 * (l + 1) ≤ 2 ^ 64 := (Nat.le_mul_of_pos_left _ hp).trans h
    have hs : usize (l <<< 8) ||| b.toNat = 256 * l + b.toNat := by
      rw [usize, Nat.shiftLeft_eq, Nat.mod_eq_of_lt (by omega), ←Nat.shiftLeft_eq,
        ←Nat.shiftLeft_add_eq_or_of_lt (by omega), Nat.shiftLeft_eq, Nat.mul_comm]
    rw [List.foldl_cons, List.foldl_cons, hs]
    exact hi ((Nat.mul_le_mul_left _ (by omega)).trans h)

theorem range_left : Exec.range (bs ++ s) 0 bs.length = .ok bs := by
  rw [range_eq_ok (Nat.zero_le _) (by simp)]
  simp [Bytes.slice]

theorem range_right : Exec.range (bs ++ s) bs.length (bs ++ s).length = .ok s := by
  rw [range_eq_ok (by simp) le_rfl]
  simp [Bytes.slice]

theorem derNextTlv_short (hb : b &&& 0x80 = 0) (hl : b.toNat = content.length) :
    derNextTlv (tag :: b :: content ++ s) = pure (tag :: b :: content, s) := by
  have h₂ : ¬(tag :: b :: content ++ s).length < 2 := by simp
  have hi : Exec.index (tag :: b :: content ++ s) 1 = .ok b := rfl
  have ht : usize (2 + b.toNat) = (tag :: b :: content).length := by
    have hlt := b.toNat_lt
    simp only [List.length_cons, ←hl, usize]
    omega
  have hr : ¬(tag :: b :: content ++ s).length < (tag :: b :: content).length := by simp
  simp only [derNextTlv, if_neg h₂, hi, lift_ok, pure_bind, if_pos hb, ht, if_neg hr, range_left,
    range_right]

theorem derNextTlv_long (h : IsLong content.length b bs) (hl : content.length < 2 ^ 32) :
    derNextTlv (tag :: b :: bs ++ content ++ s) = pure (tag :: b :: bs ++ content, s) := by
  have hle := h.le
  have h₂ : ¬(tag :: b :: bs ++ content ++ s).length < 2 := by simp
  have hi : Exec.index (tag :: b :: bs ++ content ++ s) 1 = .ok b := rfl
  have hn : ¬(tag :: b :: bs ++ content ++ s).length < 2 + (b &&& 0x7f).toNat := by
    simp [h.count]
    omega
  have hs : Exec.range (tag :: b :: bs ++ content ++ s) 2 (2 + (b &&& 0x7f).toNat) = .ok bs := by
    rw [range_eq_ok (by simp) (by omega), h.count]
    simp [Bytes.slice]
  have hv : bs.foldl (fun l b => usize (l <<< 8) ||| b.toNat) 0 = content.length := by
    have hp : 256 ^ bs.length ≤ 256 ^ 4 := Nat.pow_le_pow_right (by decide) hle
    exact (foldl_usize (by omega)).trans h.value
  have ht : usize (2 + (b &&& 0x7f).toNat + content.length) =
      (tag :: b :: bs ++ content).length := by
    simp only [List.length_append, List.length_cons, h.count, usize]
    omega
  have hr : ¬(tag :: b :: bs ++ content ++ s).length < (tag :: b :: bs ++ content).length := by simp
  simp only [derNextTlv, if_neg h₂, hi, lift_ok, pure_bind, if_neg h.high, if_neg hn, hs, hv, ht,
    if_neg hr, range_left, range_right]

theorem derNextTlv_element (h : content.length < 2 ^ 32) :
    derNextTlv (element tag content ++ s) = pure (element tag content, s) := by
  unfold element
  obtain ⟨b, hb, hz, hn⟩ | ⟨b, bs, hb, hl⟩ := lengthOctets_cases h
  case inl =>
    rw [hb]
    exact derNextTlv_short hz hn
  case inr =>
    rw [hb]
    exact derNextTlv_long hl h

-- The number of octets in front of the content, as it is told from the second one.
theorem element_eq (h : content.length < 2 ^ 32) :
    ∃ b bs, element tag content = tag :: b :: bs ++ content ∧
      (if b &&& 0x80 = 0 then 2 else 2 + (b &&& 0x7f).toNat) = (tag :: b :: bs).length := by
  unfold element
  obtain ⟨b, hb, hz, _⟩ | ⟨b, bs, hb, hl⟩ := lengthOctets_cases h
  case inl => exact ⟨b, [], by rw [hb], if_pos hz⟩
  case inr =>
    refine ⟨b, bs, by rw [hb], ?_⟩
    rw [if_neg hl.high, hl.count, List.length_cons, List.length_cons, Nat.add_comm]

theorem derUnwrapSequence_element (h : content.length < 2 ^ 32) :
    derUnwrapSequence (element 0x30 content ++ s) = pure content := by
  have ⟨b, bs, he, ht⟩ : ∃ b bs, element 0x30 content = 0x30 :: b :: bs ++ content ∧
      (if b &&& 0x80 = 0 then 2 else 2 + (b &&& 0x7f).toNat) = (0x30 :: b :: bs).length :=
    element_eq h
  have hh : ¬(element 0x30 content ++ s).head? ≠ some 0x30 := by simp [element]
  have hs : Exec.range (element 0x30 content ++ s) 0
      ((element 0x30 content ++ s).length - s.length) = .ok (element 0x30 content) := by
    rw [List.length_append, Nat.add_sub_cancel]
    exact range_left
  have hi : Exec.index (element 0x30 content) 1 = .ok b := by rw [he]; rfl
  simp only [derUnwrapSequence, if_neg hh, derNextTlv_element h, pure_bind, hs, lift_ok, hi, ht]
  rw [he, range_right, lift_ok]

theorem derUnwrapSequence_element_nil (h : content.length < 2 ^ 32) :
    derUnwrapSequence (element 0x30 content) = pure content := by
  have hu := derUnwrapSequence_element (s := []) h
  rwa [List.append_nil] at hu

-- What stands in a certificate, in the order of its fields.
structure CertificateFields where
  version   : Option Bytes
  serial    : Bytes
  signature : Bytes
  issuer    : Bytes
  validity  : Bytes
  subject   : Bytes
  tbsRest   : Bytes
  rest      : Bytes

namespace CertificateFields

variable (c : CertificateFields)

def fromValidity : Bytes :=
  element 0x30 c.validity ++ (element 0x30 c.subject ++ c.tbsRest)

def fromSerial : Bytes :=
  element 0x02 c.serial ++ (element 0x30 c.signature ++ (element 0x30 c.issuer ++ c.fromValidity))

def tbs : Bytes :=
  c.version.elim [] (element 0xa0) ++ c.fromSerial

def fields : Bytes :=
  element 0x30 c.tbs ++ c.rest

def name : NameField → Bytes
  | .issuer  => c.issuer
  | .subject => c.subject

end CertificateFields

structure DerCertificate extends CertificateFields where
  fits : toCertificateFields.fields.length < 2 ^ 32

namespace DerCertificate

variable (c : DerCertificate)

def bytes : Bytes :=
  element 0x30 c.fields

theorem length_le_element (tag : Byte) (content s : Bytes) :
    content.length + s.length ≤ (element tag content ++ s).length := by
  simp [element]
  omega

theorem tbs_fits : c.tbs.length < 2 ^ 32 := by
  have hl := length_le_element 0x30 c.tbs c.rest
  have hf := c.fits
  unfold CertificateFields.fields at hf
  omega

theorem fromSerial_fits : c.fromSerial.length < 2 ^ 32 := by
  have hl : c.fromSerial.length ≤ c.tbs.length := by simp [CertificateFields.tbs]
  exact hl.trans_lt c.tbs_fits

structure Fit : Prop where
  serial    : c.serial.length < 2 ^ 32
  signature : c.signature.length < 2 ^ 32
  issuer    : c.issuer.length < 2 ^ 32
  validity  : c.validity.length < 2 ^ 32
  subject   : c.subject.length < 2 ^ 32

theorem fit : c.Fit := by
  have hf := c.fromSerial_fits
  unfold CertificateFields.fromSerial CertificateFields.fromValidity at hf
  have h₁ := length_le_element 0x02 c.serial (element 0x30 c.signature ++ (element 0x30 c.issuer ++
    (element 0x30 c.validity ++ (element 0x30 c.subject ++ c.tbsRest))))
  have h₂ := length_le_element 0x30 c.signature (element 0x30 c.issuer ++
    (element 0x30 c.validity ++ (element 0x30 c.subject ++ c.tbsRest)))
  have h₃ := length_le_element 0x30 c.issuer
    (element 0x30 c.validity ++ (element 0x30 c.subject ++ c.tbsRest))
  have h₄ := length_le_element 0x30 c.validity (element 0x30 c.subject ++ c.tbsRest)
  have h₅ := length_le_element 0x30 c.subject c.tbsRest
  constructor <;> omega

-- Without a version the fields start with the serial number, which has another tag.
theorem version_cases :
    (c.tbs.head? = some 0xa0 ∧ ∃ tlv, derNextTlv c.tbs = pure (tlv, c.fromSerial)) ∨
    (c.tbs.head? ≠ some 0xa0 ∧ c.tbs = c.fromSerial) := by
  have hf := c.tbs_fits
  unfold CertificateFields.tbs at hf ⊢
  cases hv : c.version
  case none =>
    rw [Option.elim_none, List.nil_append]
    exact .inr ⟨by simp [CertificateFields.fromSerial, element], rfl⟩
  case some v =>
    rw [hv, Option.elim_some] at hf
    have hl := length_le_element 0xa0 v c.fromSerial
    rw [Option.elim_some]
    exact .inl ⟨by simp [element], _, derNextTlv_element (by omega)⟩

theorem derNextTlv_fields :
    derNextTlv c.fields = pure (element 0x30 c.tbs, c.rest) :=
  derNextTlv_element c.tbs_fits

theorem rawNameContent_eq (h : chainDers[i]? = some c.bytes) (field : NameField) :
    rawNameContent chainDers i field = pure (c.name field) := by
  have hi : Exec.index chainDers i = .ok c.bytes := Exec.index_eq_ok_iff.mpr h
  have hc := c.fit
  simp only [rawNameContent, hi, lift_ok, pure_bind, bytes, derUnwrapSequence_element_nil c.fits,
    derNextTlv_fields, derUnwrapSequence_element_nil c.tbs_fits]
  obtain ⟨hh, _, hn⟩ | ⟨hh, hn⟩ := c.version_cases
  case' inl => rw [if_pos hh, hn, pure_bind]
  case' inr => rw [if_neg hh, hn]
  all_goals
    cases field <;>
      simp only [CertificateFields.fromSerial, CertificateFields.fromValidity, pure_bind,
        derNextTlv_element hc.serial, derNextTlv_element hc.signature, derNextTlv_element hc.issuer,
        derNextTlv_element hc.validity, derNextTlv_element hc.subject,
        derUnwrapSequence_element_nil hc.issuer, derUnwrapSequence_element_nil hc.subject,
        CertificateFields.name]

end DerCertificate

section

variable (pki : Pki)

def Pki.rootNamed (name : Bytes) : Option TrustAnchor :=
  pki.tlsServerRoots.find? (·.subject = name)

-- The first certificate with the subject of a root, or else the last one with the issuer of one. The
-- position is where the root stands in the chain.
def Pki.anchor (certs : List DerCertificate) : Option (Nat × TrustAnchor) :=
  (certs.zipIdx.findSome? fun x => (pki.rootNamed x.1.subject).map (x.2, ·)) <|>
    certs.getLast?.bind fun c => (pki.rootNamed c.issuer).map (certs.length, ·)

def anchorSpki (x : Nat × TrustAnchor) : Exec (Nat × pki.Spki) :=
  (x.1, ·) <$> parseAnchorSpki pki x.2.subjectPublicKeyInfo

variable {pki} {chainDers : List Bytes}

theorem findAnchor_eq {c : DerCertificate} (h : chainDers[i]? = some c.bytes) (field : NameField) :
    findAnchor pki chainDers i field = .ok (pki.rootNamed (c.name field)) := by
  rw [findAnchor, c.rawNameContent_eq h]
  rfl

theorem subjects_eq {l : List (DerCertificate × Nat)}
    (h : ∀ x ∈ l, chainDers[x.2]? = some x.1.bytes) :
    findTrustAnchor.subjects pki chainDers (l.map Prod.snd) =
    (l.findSome? fun x => (pki.rootNamed x.1.subject).map (x.2, ·)).mapM (anchorSpki pki) := by
  induction l
  case nil => rfl
  case cons x l hi =>
    rw [List.map_cons, findTrustAnchor.subjects, findAnchor_eq (h x List.mem_cons_self),
      Exec.ok_bind, List.findSome?_cons]
    cases hr : pki.rootNamed (x.1.name .subject)
    case none =>
      have hr : pki.rootNamed x.1.subject = none := hr
      rw [hr]
      exact hi fun x hx => h x (List.mem_cons_of_mem _ hx)
    case some anchor =>
      have hr : pki.rootNamed x.1.subject = some anchor := hr
      rw [hr]
      simp [anchorSpki]

theorem findTrustAnchor_eq {certs : List DerCertificate} (h : certs ≠ []) :
    findTrustAnchor pki certs.length (certs.map DerCertificate.bytes) =
    Exec.expect "root CA not found in trust store" (pki.anchor certs) >>= anchorSpki pki := by
  have hr : List.range certs.length = certs.zipIdx.map Prod.snd := by simp [List.range_eq_range']
  have hm : ∀ x ∈ certs.zipIdx, (certs.map DerCertificate.bytes)[x.2]? = some x.1.bytes := by
    intro x hx
    rw [List.getElem?_map, List.mem_zipIdx_iff_getElem?.mp hx, Option.map_some]
  have hl : (certs.map DerCertificate.bytes)[certs.length - 1]? = some (certs.getLast h).bytes := by
    rw [List.getElem?_map, ←List.getLast?_eq_getElem?, List.getLast?_eq_some_getLast h,
      Option.map_some]
  have hi : findAnchor pki (certs.map DerCertificate.bytes) (certs.length - 1) .issuer =
      .ok (pki.rootNamed (certs.getLast h).issuer) := findAnchor_eq hl .issuer
  rw [findTrustAnchor, hr, subjects_eq hm, Pki.anchor, List.getLast?_eq_some_getLast h,
    Option.bind_some]
  cases (certs.zipIdx.findSome? fun x => (pki.rootNamed x.1.subject).map (x.2, ·))
  case none =>
    simp only [Option.mapM_none, pure_bind, hi, Exec.ok_bind, Option.orElse_eq_orElse,
      Option.orElse_eq_or, Option.none_or]
    cases pki.rootNamed (certs.getLast h).issuer
    case none        => rfl
    case some anchor => simp [anchorSpki]
  case some x => simp [anchorSpki]

-- At every index of a chain of certificates the names are read as they stand there, and the trust
-- anchor is the root with such a name.
theorem rawNameContent_certificates (certs : List DerCertificate) :
    (∀ i, (hi : i < certs.length) → ∀ field,
      (rawNameContent (certs.map DerCertificate.bytes) i field).run =
        .ok (some (certs[i].name field))) ∧
    ∀ pki : Pki, certs ≠ [] →
      findTrustAnchor pki certs.length (certs.map DerCertificate.bytes) =
        Exec.expect "root CA not found in trust store" (pki.anchor certs) >>= anchorSpki pki := by
  refine ⟨fun i hi field => ?_, fun pki h => findTrustAnchor_eq h⟩
  rw [DerCertificate.rawNameContent_eq (c := certs[i]) (by simp [hi])]
  rfl

end

def rootCertificate : DerCertificate where
  version   := some (element 0x02 [2])
  serial    := [1]
  signature := []
  issuer    := [0xaa]
  validity  := []
  subject   := [0xbb]
  tbsRest   := element 0x30 []
  rest      := element 0x03 [0]
  fits      := by decide

theorem rawNameContent_rootCertificate :
    (rawNameContent [rootCertificate.bytes] 0 .subject).run = .ok (some [0xbb]) ∧
    (rawNameContent [rootCertificate.bytes] 0 .issuer).run = .ok (some [0xaa]) ∧
    findTrustAnchor (samplePki true) 1 [rootCertificate.bytes] = .ok (0, [0x30, 1, 1]) := by
  have ⟨hn, ha⟩ := rawNameContent_certificates [rootCertificate]
  exact ⟨hn 0 Nat.one_pos .subject, hn 0 Nat.one_pos .issuer,
    ha (samplePki true) (List.cons_ne_nil _ _)⟩

end Guest
