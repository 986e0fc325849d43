import NotaryModel.Guest.Certificate

-- A path of signatures from the first element of `chain` to a root: each element up to the one at
-- `m - 1` is signed under the key of its successor, and that one under the key of a root.
def SignaturePath (signed : α → κ → Prop) (key : α → κ) (root : κ → Prop) (chain : List α) : Prop :=
  ∃ m, 0 < m ∧
    (∀ j, j + 1 < m →
      ∃ c c', chain[j]? = some c ∧ chain[j + 1]? = some c' ∧ signed c (key c')) ∧
    ∃ c k, chain[m - 1]? = some c ∧ root k ∧ signed c k

theorem SignaturePath.exists_signed (h : SignaturePath signed key root chain) :
    ∃ c k, signed c k :=
  have ⟨_, _, _, c, k, _, _, hs⟩ := h
  ⟨c, k, hs⟩

namespace Guest

open Exec (index)

variable {pki : Pki} {chainDers : List Bytes}

def Pki.IsRoot (pki : Pki) (k : pki.Spki) : Prop :=
  ∃ anchor ∈ pki.tlsServerRoots, parseAnchorSpki pki anchor.subjectPublicKeyInfo = .ok k

-- The subject of certificate `i` is the name of a root.
def Pki.NamedAsRoot (pki : Pki) (chainDers : List Bytes) (i : Nat) : Prop :=
  ∃ anchor ∈ pki.tlsServerRoots,
    (rawNameContent chainDers i .subject).run = .ok (some anchor.subject)

theorem findAnchor_eq_some_iff : findAnchor pki chainDers i field = .ok (some anchor) ↔
    ∃ name, (rawNameContent chainDers i field).run = .ok (some name) ∧
      pki.tlsServerRoots.find? (·.subject = name) = some anchor := by
  rw [findAnchor, Exec.bind_eq_ok_iff]
  constructor
  · rintro ⟨name?, hn, h⟩
    cases name?
    case none      => cases h
    case some name => exact ⟨name, hn, Except.ok.inj h⟩
  · rintro ⟨name, hn, h⟩
    exact ⟨some name, hn, congrArg Except.ok h⟩

theorem findAnchor_mem (h : findAnchor pki chainDers i field = .ok (some anchor)) :
    anchor ∈ pki.tlsServerRoots :=
  have ⟨_, _, h⟩ := findAnchor_eq_some_iff.mp h
  List.mem_of_find?_eq_some h

theorem namedAsRoot_iff : pki.NamedAsRoot chainDers i ↔
    ∃ anchor, findAnchor pki chainDers i .subject = .ok (some anchor) := by
  simp only [findAnchor_eq_some_iff]
  constructor
  · rintro ⟨anchor, ha, hn⟩
    have h : (pki.tlsServerRoots.find? (·.subject = anchor.subject)).isSome :=
      List.find?_isSome.mpr ⟨anchor, ha, by simp⟩
    obtain ⟨anchor', h⟩ := Option.isSome_iff_exists.mp h
    exact ⟨anchor', _, hn, h⟩
  · rintro ⟨anchor, name, hn, h⟩
    have hs : anchor.subject = name := by simpa using List.find?_some h
    exact ⟨anchor, List.mem_of_find?_eq_some h, hs ▸ hn⟩

theorem subjects_cons_eq_ok_iff : findTrustAnchor.subjects pki chainDers (i :: is) = .ok r ↔
    (findAnchor pki chainDers i .subject = .ok none ∧
      findTrustAnchor.subjects pki chainDers is = .ok r) ∨
    (∃ anchor spki, findAnchor pki chainDers i .subject = .ok (some anchor) ∧
      parseAnchorSpki pki anchor.subjectPublicKeyInfo = .ok spki ∧ r = some (i, spki)) := by
  rw [findTrustAnchor.subjects, Exec.bind_eq_ok_iff]
  constructor
  · rintro ⟨anchor?, ha, h⟩
    cases anchor?
    case none        => exact .inl ⟨ha, h⟩
    case some anchor =>
      obtain ⟨spki, hs, h⟩ := Exec.bind_eq_ok_iff.mp h
      exact .inr ⟨anchor, spki, ha, hs, (Except.ok.inj h).symm⟩
  · rintro (⟨ha, h⟩ | ⟨anchor, spki, ha, hs, rfl⟩)
    · exact ⟨none, ha, h⟩
    · exact ⟨some anchor, ha, Exec.bind_eq_ok_iff.mpr ⟨spki, hs, rfl⟩⟩

theorem subjects_eq_some (h : findTrustAnchor.subjects pki chainDers is = .ok (some (i, spki))) :
    i ∈ is ∧ pki.IsRoot spki := by
  induction is
  case nil           => cases h
  case cons j is hi =>
    obtain ⟨_, h⟩ | ⟨anchor, spki, ha, hs, h⟩ := subjects_cons_eq_ok_iff.mp h
    · obtain ⟨hm, hr⟩ := hi h
      exact ⟨List.mem_cons_of_mem j hm, hr⟩
    · cases h
      exact ⟨List.mem_cons_self, anchor, findAnchor_mem ha, hs⟩

theorem findTrustAnchor_eq_ok_iff : findTrustAnchor pki n chainDers = .ok (b, spki) ↔
    findTrustAnchor.subjects pki chainDers (List.range n) = .ok (some (b, spki)) ∨
    (findTrustAnchor.subjects pki chainDers (List.range n) = .ok none ∧ b = n ∧
      ∃ anchor, findAnchor pki chainDers (n - 1) .issuer = .ok (some anchor) ∧
        parseAnchorSpki pki anchor.subjectPublicKeyInfo = .ok spki) := by
  rw [findTrustAnchor, Exec.bind_eq_ok_iff]
  constructor
  · rintro ⟨found?, hf, h⟩
    cases found?
    case some found =>
      cases h
      exact .inl hf
    case none =>
      obtain ⟨anchor?, ha, h⟩ := Exec.bind_eq_ok_iff.mp h
      cases anchor?
      case none        => cases h
      case some anchor =>
        obtain ⟨spki, hs, h⟩ := Exec.bind_eq_ok_iff.mp h
        cases h
        exact .inr ⟨hf, rfl, anchor, ha, hs⟩
  · rintro (hf | ⟨hf, rfl, anchor, ha, hs⟩)
    · exact ⟨_, hf, rfl⟩
    · refine ⟨none, hf, Exec.bind_eq_ok_iff.mpr ⟨some anchor, ha, ?_⟩⟩
      exact Exec.bind_eq_ok_iff.mpr ⟨spki, hs, rfl⟩

theorem findTrustAnchor_isRoot (h : findTrustAnchor pki n chainDers = .ok (b, spki)) :
    pki.IsRoot spki := by
  obtain h | ⟨_, _, anchor, ha, hs⟩ := findTrustAnchor_eq_ok_iff.mp h
  · exact subjects_eq_some h |>.right
  · exact ⟨anchor, findAnchor_mem ha, hs⟩

-- The search ends at the leaf exactly if the leaf has the name of a root.
theorem findTrustAnchor_boundary (h : findTrustAnchor pki (n + 1) chainDers = .ok (b, spki)) :
    b = 0 ↔ pki.NamedAsRoot chainDers 0 := by
  have hr : List.range (n + 1) = 0 :: (List.range n).map (· + 1) := List.range_succ_eq_map
  rw [namedAsRoot_iff]
  constructor
  · rintro rfl
    obtain h | ⟨_, h, _⟩ := findTrustAnchor_eq_ok_iff.mp h
    · rw [hr] at h
      obtain ⟨_, h⟩ | ⟨anchor, _, ha, _⟩ := subjects_cons_eq_ok_iff.mp h
      · obtain ⟨hm, _⟩ := subjects_eq_some h
        simp at hm
      · exact ⟨anchor, ha⟩
    · cases h
  · rintro ⟨anchor, ha⟩
    have hs {r} (h : findTrustAnchor.subjects pki chainDers (List.range (n + 1)) = .ok r) :
        ∃ spki, r = some (0, spki) := by
      rw [hr] at h
      obtain ⟨hn, _⟩ | ⟨_, spki, _, _, rfl⟩ := subjects_cons_eq_ok_iff.mp h
      · rw [ha] at hn
        cases hn
      · exact ⟨spki, rfl⟩
    obtain h | ⟨h, _⟩ := findTrustAnchor_eq_ok_iff.mp h
    · obtain ⟨_, h⟩ := hs h
      cases h
      rfl
    · obtain ⟨_, h⟩ := hs h
      cases h

-- The key that the signature of certificate `i` is checked under.
def issuerKey (pki : Pki) (chain : List pki.Certificate) (boundary : Nat) (anchorSpki : pki.Spki)
    (i : Nat) (k : pki.Spki) : Prop :=
  (i + 1 < boundary ∧
    ∃ issuer, chain[i + 1]? = some issuer ∧ k = pki.subjectPublicKeyInfo issuer) ∨
  (boundary ≤ i + 1 ∧ k = anchorSpki)

-- The checks of step 7 are one for each index below the boundary.
theorem verifyCertChain_eq_ok (h : verifyCertChain pki chainDers = .ok checks)
    (hc : chainDers.map pki.certificateFromDer = chain.map some) :
    chain ≠ [] ∧ ∃ b spki, findTrustAnchor pki chain.length chainDers = .ok (b, spki) ∧
      List.Forall₂ (fun i ck => chain[i]? = some ck.1 ∧ issuerKey pki chain b spki i ck.2 ∧
        verifyCertSignature pki ck.1 ck.2 = .ok ()) (List.range b) checks := by
  simp only [verifyCertChain, Exec.bind_eq_ok_iff, Exec.mapM_eq_ok_iff, Exec.assert_eq_ok_iff] at h
  obtain ⟨chain', hc', _, hne, ⟨b, spki⟩, hf, h⟩ := h
  have hc' : chain' = chain := by
    have h : chainDers.map pki.certificateFromDer = chain'.map some := by
      rw [←List.forall₂_eq_eq_eq, List.forall₂_map_left_iff, List.forall₂_map_right_iff]
      exact hc'.imp fun _ _ => Exec.expect_eq_ok_iff.mp
    exact List.map_injective_iff.mpr (Option.some_injective _) (h.symm.trans hc)
  subst hc'
  refine ⟨hne, b, spki, hf, h.imp fun i ck hi => ?_⟩
  by_cases hb : i + 1 < b
  · simp only [hb, if_true, Exec.bind_eq_ok_iff, Exec.index_eq_ok_iff] at hi
    obtain ⟨issuer, hissuer, _, ⟨⟩, c, hc, _, hv, ⟨⟩⟩ := hi
    exact ⟨hc, .inl ⟨hb, issuer, hissuer, rfl⟩, hv⟩
  · simp only [hb, if_false, Exec.bind_eq_ok_iff, Exec.index_eq_ok_iff] at hi
    obtain ⟨_, ⟨⟩, c, hc, _, hv, ⟨⟩⟩ := hi
    exact ⟨hc, .inr ⟨Nat.not_lt.mp hb, rfl⟩, hv⟩

-- The chain is certified by the checks that step 7 has made, unless the leaf has the name of a root.
theorem verifyCertChain_certifies_iff (h : verifyCertChain pki chainDers = .ok checks)
    (hc : chainDers.map pki.certificateFromDer = chain.map some) :
    SignaturePath (fun c k => (c, k) ∈ checks ∧ verifyCertSignature pki c k = .ok ())
      pki.subjectPublicKeyInfo pki.IsRoot chain ↔
    ¬pki.NamedAsRoot chainDers 0 := by
  obtain ⟨hne, b, spki, hf, hchecks⟩ := verifyCertChain_eq_ok h hc
  obtain ⟨n, hn⟩ := Nat.exists_eq_succ_of_ne_zero (List.length_eq_zero_iff.not.mpr hne)
  rw [hn] at hf
  rw [←findTrustAnchor_boundary hf]
  have hl : checks.length = b := by simpa using hchecks.length_eq.symm
  have hcheck {i} (hi : i < b) : ∃ c k, (c, k) ∈ checks ∧ chain[i]? = some c ∧
      issuerKey pki chain b spki i k ∧ verifyCertSignature pki c k = .ok () := by
    have hi' : i < checks.length := hl ▸ hi
    have h := hchecks.get (by simpa using hi) hi'
    simp only [List.get_eq_getElem, List.getElem_range] at h
    exact ⟨_, _, List.getElem_mem hi', h⟩
  constructor
  · rintro hp rfl
    obtain ⟨c, k, hm, _⟩ := hp.exists_signed
    rw [List.length_eq_zero_iff.mp hl] at hm
    cases hm
  · intro hb
    refine ⟨b, Nat.pos_of_ne_zero hb, fun j hj => ?_, ?_⟩
    · obtain ⟨c, k, hm, hc, hk, hv⟩ := hcheck (Nat.lt_of_succ_lt hj)
      obtain ⟨_, c', hc', rfl⟩ | ⟨hb, _⟩ := hk
      · exact ⟨c, c', hc, hc', hm, hv⟩
      · omega
    · obtain ⟨c, k, hm, hc, hk, hv⟩ := hcheck (i := b - 1) (by omega)
      obtain ⟨hb, _⟩ | ⟨_, rfl⟩ := hk
      · omega
      · exact ⟨c, k, hc, findTrustAnchor_isRoot hf, hm, hv⟩

-- A public key infrastructure with a single root and trivial encodings, in which either all
-- signatures are good or none.
def samplePki (verifies : Bool) : Pki where
  Certificate          := Bytes
  Spki                 := Bytes
  Key _                := Bytes
  Sig _                := Bytes
  certificateFromDer   := some
  tbsToDer             := some
  signatureBytes _     := []
  signatureAlgorithm _ := oidEcdsaSha256
  subjectPublicKeyInfo := id
  spkiFromDer          := some
  spkiToDer            := some
  subjectPublicKey     := id
  key _                := some
  sig _                := some
  verify _ _ _ _       := verifies
  tlsServerRoots       := [⟨[0xbb], [0x01]⟩]

-- A certificate with one byte in each of its names.
def sampleCert (issuer subject : Byte) : Bytes :=
  [0x30, 15, 0x30, 13, 0x02, 1, 1, 0x30, 0, 0x30, 1, issuer, 0x30, 0, 0x30, 1, subject]

theorem verifyCertChain_certifies_iff_of_issued :
    let chainDers := [sampleCert 0xcc 0xaa, sampleCert 0xbb 0xcc]
    let checks := [(sampleCert 0xcc 0xaa, sampleCert 0xbb 0xcc),
      (sampleCert 0xbb 0xcc, [0x30, 1, 1])]
    SignaturePath (fun c k => (c, k) ∈ checks ∧ verifyCertSignature (samplePki true) c k = .ok ())
      id (samplePki true).IsRoot chainDers ↔
    ¬(samplePki true).NamedAsRoot chainDers 0 :=
  @verifyCertChain_certifies_iff (samplePki true) _ _ _ rfl rfl

-- A leaf with the name of a root passes although nothing is signed.
theorem not_certified_of_named_as_root :
    let chainDers := [sampleCert 0xaa 0xbb]
    verifyCertChain (samplePki false) chainDers = .ok [] ∧
    ¬SignaturePath (fun c k => (c, k) ∈ [] ∧ verifyCertSignature (samplePki false) c k = .ok ())
      id (samplePki false).IsRoot chainDers := by
  refine ⟨rfl, fun h => ?_⟩
  obtain ⟨_, _, hm, _⟩ := h.exists_signed
  cases hm

end Guest
