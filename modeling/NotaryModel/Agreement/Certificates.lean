import NotaryModel.Guest.Theorems.Handshake
import NotaryModel.Notary.Theorems.Transcript

namespace Agreement

open Exec (bind_eq_ok_iff index_eq_ok_iff)

-- The head of a Certificate message, and of an entry in its list: what is before the bytes that the
-- last length is the length of.
def listHead (context : Bytes) (listLen : Nat) : Bytes :=
  Bytes.be 1 context.length ++ context ++ Bytes.be 3 listLen

def entryHead (der : Bytes) (extLen : Nat) : Bytes :=
  Bytes.be 3 der.length ++ der ++ Bytes.be 2 extLen

@[simp]
theorem length_listHead : (listHead context listLen).length = 4 + context.length := by
  simp only [listHead, List.length_append, Bytes.length_be]
  omega

@[simp]
theorem length_entryHead : (entryHead der extLen).length = 5 + der.length := by
  simp only [entryHead, List.length_append, Bytes.length_be]
  omega

theorem entry_toBytes_eq (e : CertificateEntry) :
    e.toBytes = entryHead e.der e.extensions.length ++ e.extensions :=
  rfl

theorem certificateBody_eq : certificateBody context entries =
    listHead context (entries.flatMap CertificateEntry.toBytes).length ++
      entries.flatMap CertificateEntry.toBytes :=
  rfl

-- Exactly one Certificate message with these certificates.
def Exact (body : Bytes) (certs : List Bytes) : Prop :=
  ∃ context entries, context.length < 256 ∧ (∀ e ∈ entries, e.Fits) ∧
    (entries.flatMap CertificateEntry.toBytes).length < 256 ^ 3 ∧
    body = certificateBody context entries ∧ certs = entries.map CertificateEntry.der

-- The bytes of a list that announces the length `listLen`: entries, and one more that announces more
-- extensions than there is room for in the list or than there are bytes left.
inductive Overrun : Nat → Bytes → List Bytes → Prop
  | last {der rest : Bytes} {extLen listLen : Nat} : der.length < 256 ^ 3 → extLen < 256 ^ 2 →
      5 + der.length ≤ listLen → listLen ≤ 5 + der.length + extLen →
      min rest.length (listLen - (5 + der.length)) < extLen →
      Overrun listLen (entryHead der extLen ++ rest) [der]
  | entry {e : CertificateEntry} : e.Fits → Overrun listLen bytes certs →
      Overrun (e.toBytes.length + listLen) (e.toBytes ++ bytes) (e.der :: certs)

-- Entries that fill the list, whatever follows it.
inductive Filled : Nat → Bytes → List Bytes → Prop
  | nil : Filled 0 bytes []
  | entry {e : CertificateEntry} : e.Fits → Filled listLen bytes certs →
      Filled (e.toBytes.length + listLen) (e.toBytes ++ bytes) (e.der :: certs)

theorem filled_iff : Filled listLen bytes certs ↔ ∃ (entries : List CertificateEntry) (tail : Bytes),
    (∀ e ∈ entries, e.Fits) ∧ bytes = entries.flatMap CertificateEntry.toBytes ++ tail ∧
    listLen = (entries.flatMap CertificateEntry.toBytes).length ∧
    certs = entries.map CertificateEntry.der := by
  constructor
  case mp =>
    intro h
    induction h
    case nil bytes => exact ⟨[], bytes, by simp, rfl, rfl, rfl⟩
    case entry e he _ hi =>
      obtain ⟨entries, tail, hf, rfl, rfl, rfl⟩ := hi
      refine ⟨e :: entries, tail, List.forall_mem_cons.mpr ⟨he, hf⟩, ?_, ?_, rfl⟩
      · rw [List.flatMap_cons, List.append_assoc]
      · rw [List.flatMap_cons, List.length_append]
  case mpr =>
    rintro ⟨entries, tail, hf, rfl, rfl, rfl⟩
    induction entries
    case nil => exact .nil
    case cons e entries hi =>
      have ⟨he, hf⟩ := List.forall_mem_cons.mp hf
      rw [List.flatMap_cons, List.append_assoc, List.length_append]
      exact .entry he (hi hf)

section

variable {body bytes : Bytes} {pos listEnd listLen n w : Nat}

theorem drop_eq_take_append (body : Bytes) (pos n : Nat) :
    body.drop pos = (body.drop pos).take n ++ body.drop (pos + n) := by
  rw [←@List.drop_drop _ n]
  exact (List.take_append_drop ..).symm

theorem readBe_eq_ok (hw : 0 < w) (h : Guest.readBe w body pos = .ok n) :
    n < 256 ^ w ∧ pos + w ≤ body.length ∧ body.drop pos = Bytes.be w n ++ body.drop (pos + w) := by
  have ⟨bs, hm, hn⟩ := bind_eq_ok_iff.mp h
  have hf := Exec.mapM_eq_ok_iff.mp hm
  have hl : bs.length = w := by
    rw [←hf.length_eq, List.length_range]
  have hb (i : Nat) (hi : i < w) : body[pos + i]? = bs[i]? := by
    have hg := List.forall₂_iff_get.mp hf |>.2 i (by simpa using hi) (by omega)
    rw [index_eq_ok_iff] at hg
    simpa [hl, hi] using hg
  have hp : pos + w ≤ body.length := by
    have h := hb (w - 1) (by omega)
    rw [List.getElem?_eq_getElem (l := bs) (by omega), List.getElem?_eq_some_iff] at h
    have ⟨h, _⟩ := h
    omega
  have hs : bs = (body.drop pos).take w := by
    refine List.ext_getElem? fun i => ?_
    by_cases hi : i < w
    · rw [List.getElem?_take_of_lt hi, List.getElem?_drop, hb i hi]
    · rw [List.getElem?_eq_none (by omega), List.getElem?_eq_none (by simp; omega)]
  cases hn
  refine ⟨hl ▸ Bytes.ofBe_lt bs, hp, ?_⟩
  rw [Bytes.be_ofBe hl, hs]
  exact drop_eq_take_append body pos w

-- What the guest has read of an entry before it goes on behind the extensions.
theorem guest_certs_entry (hp : pos < listEnd)
    (h : Guest.parseCertMessage.certs body pos listEnd = .ok (.ok certs)) :
    ∃ der extLen certs', der.length < 256 ^ 3 ∧ extLen < 256 ^ 2 ∧
      body.drop pos = entryHead der extLen ++ body.drop (pos + (5 + der.length)) ∧
      pos + (5 + der.length) ≤ body.length ∧ pos + (5 + der.length) ≤ listEnd ∧
      Guest.parseCertMessage.certs body (pos + (5 + der.length) + extLen) listEnd =
        .ok (.ok certs') ∧ certs = der :: certs' := by
  rw [Guest.parseCertMessage.certs, if_pos hp] at h
  split at h
  case isTrue => cases h
  obtain ⟨certLen, hc, h⟩ := bind_eq_ok_iff.mp h
  obtain ⟨hcl, hcp, hcd⟩ := readBe_eq_ok (by decide) hc
  dsimp only at h
  split at h
  case isTrue => cases h
  obtain ⟨der, hr, h⟩ := bind_eq_ok_iff.mp h
  obtain ⟨⟨_, hdl⟩, hd⟩ := Guest.range_eq_ok_iff.mp hr
  split at h
  case isTrue => cases h
  obtain ⟨extLen, he, h⟩ := bind_eq_ok_iff.mp h
  obtain ⟨hel, hep, hed⟩ := readBe_eq_ok (by decide) he
  obtain ⟨certs', hi, h⟩ := bind_eq_ok_iff.mp h
  have hn : der.length = certLen := by
    rw [←hd, Bytes.length_slice]
    omega
  obtain ⟨certs', rfl⟩ : ∃ cs, certs' = .ok cs := by
    cases certs'
    case error => cases h
    case ok cs => exact ⟨cs, rfl⟩
  cases h
  have hds : body.drop (pos + 3) = der ++ body.drop (pos + 3 + certLen) := by
    rw [←hd, Bytes.slice, Nat.add_sub_cancel_left]
    exact drop_eq_take_append ..
  subst hn
  have ha : pos + 3 + der.length + 2 = pos + (5 + der.length) := by omega
  refine ⟨der, extLen, certs', hcl, hel, ?_, by omega, by omega, ?_, rfl⟩
  · rw [hcd, hds, hed, ha, entryHead]
    simp only [List.append_assoc]
  · rw [←ha, Nat.add_assoc]
    exact hi

theorem guest_certs_end (hp : listEnd ≤ pos) :
    Guest.parseCertMessage.certs body pos listEnd = .ok (.ok []) := by
  rw [Guest.parseCertMessage.certs, if_neg (Nat.not_lt.mpr hp)]
  rfl

theorem guest_certs_ok (hp : pos ≤ body.length)
    (h : Guest.parseCertMessage.certs body pos (pos + listLen) = .ok (.ok certs)) :
    Filled listLen (body.drop pos) certs ∨ Overrun listLen (body.drop pos) certs := by
  induction listLen using Nat.strongRecOn generalizing pos certs
  case ind listLen hi =>
    by_cases hz : listLen = 0
    · subst hz
      rw [guest_certs_end (Nat.add_zero pos).le] at h
      cases h
      exact .inl .nil
    obtain ⟨der, extLen, certs', hdl, hel, hd, hpb, hpl, hc, rfl⟩ :=
      guest_certs_entry (by omega) h
    have hrest : (body.drop (pos + (5 + der.length))).length =
        body.length - (pos + (5 + der.length)) := List.length_drop
    by_cases hq : pos + (5 + der.length) + extLen ≤ pos + listLen ∧
        pos + (5 + der.length) + extLen ≤ body.length
    case pos =>
      let e : CertificateEntry := ⟨der, (body.drop (pos + (5 + der.length))).take extLen⟩
      have hx : e.extensions.length = extLen := List.length_take_of_le (by omega)
      have he : e.Fits := ⟨hdl, hx ▸ hel⟩
      have hl : e.toBytes.length = 5 + der.length + extLen := by
        rw [entry_toBytes_eq, List.length_append, length_entryHead, hx]
      have hb : body.drop pos = e.toBytes ++ body.drop (pos + (5 + der.length) + extLen) := by
        have ht : body.drop (pos + (5 + der.length)) =
            e.extensions ++ body.drop (pos + (5 + der.length) + extLen) :=
          drop_eq_take_append ..
        rw [hd, ht, entry_toBytes_eq, hx, List.append_assoc]
      have hs : listLen = e.toBytes.length + (listLen - e.toBytes.length) := by omega
      have hc' : Guest.parseCertMessage.certs body (pos + (5 + der.length) + extLen)
          (pos + (5 + der.length) + extLen + (listLen - e.toBytes.length)) = .ok (.ok certs') := by
        rwa [hl, show pos + (5 + der.length) + extLen + (listLen - (5 + der.length + extLen)) =
          pos + listLen by omega]
      rw [hb, hs]
      exact (hi _ (by omega) hq.2 hc').imp (.entry he) (.entry he)
    case neg =>
      -- Nothing is read behind the extensions, so that the list ends in them.
      have hle : pos + listLen ≤ pos + (5 + der.length) + extLen := by
        by_contra hlt
        have ⟨_, _, _, _, _, _, hb, _⟩ := guest_certs_entry (Nat.not_le.mp hlt) hc
        omega
      rw [guest_certs_end hle] at hc
      cases hc
      rw [hd]
      exact .inr (.last hdl hel (by omega) (by omega) (by omega))

theorem guest_certs_step (hd : der.length < 256 ^ 3) (he : extLen < 256 ^ 2)
    (hb : body.drop pos = entryHead der extLen ++ rest) (hl : pos + (5 + der.length) ≤ listEnd)
    (hp : pos ≤ body.length) : Guest.parseCertMessage.certs body pos listEnd =
    Guest.parseCertMessage.certs body (pos + (5 + der.length) + extLen) listEnd >>=
      fun certs => pure ((der :: ·) <$> certs) := by
  have hbl := congrArg List.length hb
  rw [List.length_drop, List.length_append, length_entryHead] at hbl
  simp only [entryHead, List.append_assoc] at hb
  have hlen := Guest.readBe_of_drop hd hb
  have hb := Guest.drop_append_left hb
  rw [Bytes.length_be] at hb
  have hder := Guest.range_of_drop (by omega) hb
  have hb := Guest.drop_append_left hb
  have hext := Guest.readBe_of_drop he hb
  have hq : pos + 3 + der.length + (2 + extLen) = pos + (5 + der.length) + extLen := by omega
  rw [Guest.parseCertMessage.certs, if_pos (by omega), if_neg (by omega), hlen, Exec.ok_bind]
  dsimp only
  rw [if_neg (by omega), hder, Exec.ok_bind, if_neg (by omega), hext, Exec.ok_bind, hq]

theorem Overrun.guest_certs (h : Overrun listLen (body.drop pos) certs) (hp : pos ≤ body.length) :
    Guest.parseCertMessage.certs body pos (pos + listLen) = .ok (.ok certs) := by
  generalize hb : body.drop pos = bytes at h
  induction h generalizing pos
  case last hd he hl hle _ =>
    rw [guest_certs_step hd he hb (by omega) hp, guest_certs_end (by omega)]
    rfl
  case entry listLen bytes certs e he _ hi =>
    have hlen := congrArg List.length hb
    rw [List.length_drop, List.length_append] at hlen
    have hd := Guest.drop_append_left hb
    rw [entry_toBytes_eq, List.append_assoc] at hb
    have hl : e.toBytes.length = 5 + e.der.length + e.extensions.length := by
      rw [entry_toBytes_eq, List.length_append, length_entryHead]
    rw [guest_certs_step he.der he.extensions hb (by omega) hp,
      show pos + (5 + e.der.length) + e.extensions.length = pos + e.toBytes.length by omega,
      ←Nat.add_assoc, hi (by omega) hd]
    rfl

theorem guest_ok (h : Guest.parseCertMessage body = .ok (.ok certs)) :
    ∃ context listLen list, context.length < 256 ∧ listLen < 256 ^ 3 ∧
      body = listHead context listLen ++ list ∧
      (Filled listLen list certs ∨ Overrun listLen list certs) := by
  cases body
  case nil => cases h
  case cons c body =>
    rw [Guest.parseCertMessage] at h
    dsimp only at h
    split at h
    case isTrue => cases h
    obtain ⟨listLen, hn, h⟩ := bind_eq_ok_iff.mp h
    obtain ⟨hl, hp, hd⟩ := readBe_eq_ok (by decide) hn
    have hc : (body.take c.toNat).length = c.toNat := by
      simp only [List.length_cons] at hp
      exact List.length_take_of_le (by omega)
    refine ⟨body.take c.toNat, listLen, _, by rw [hc]; exact c.toNat_lt, hl, ?_,
      guest_certs_ok hp h⟩
    have hb : Bytes.be 1 c.toNat = [c] := by
      simp [Bytes.be]
    rw [listHead, hc, hb, List.append_assoc, ←hd, Nat.add_comm 1, List.drop_succ_cons]
    simp

theorem notary_certs_step (hd : der.length < 256 ^ 3) (he : extLen < 256 ^ 2) (rest : Bytes) :
    Notary.parseCertMessage.certs (entryHead der extLen ++ rest) =
    (der :: ·) <$> Notary.parseCertMessage.certs (rest.drop extLen) := by
  obtain ⟨l₀, l₁, l₂, hl⟩ : ∃ l₀ l₁ l₂, Bytes.be 3 der.length = [l₀, l₁, l₂] := ⟨_, _, _, rfl⟩
  obtain ⟨e₀, e₁, hx⟩ := RawRecord.be_two_eq extLen
  have hln : Bytes.ofBe [l₀, l₁, l₂] = der.length := hl ▸ Bytes.ofBe_be_of_lt hd
  have hen : Bytes.ofBe [e₀, e₁] = extLen := hx ▸ Bytes.ofBe_be_of_lt he
  rw [entryHead, hl, hx]
  simp only [List.cons_append, List.nil_append, List.append_assoc]
  rw [Notary.parseCertMessage.certs]
  have hd (rest : Bytes) : (der ++ rest).drop (Bytes.ofBe [l₀, l₁, l₂]) = rest :=
    hln ▸ List.drop_left
  simp only [hln]
  rw [if_neg (by simp)]
  split
  case h_1 hr =>
    rw [hd] at hr
    cases hr
    simp [hen]
  case h_2 hr => exact absurd (hd _) (hr _ _ _)

theorem notary_certs_ok (h : Notary.parseCertMessage.certs bytes = some certs) :
    Filled bytes.length bytes certs ∨ Overrun bytes.length bytes certs := by
  induction bytes using Notary.parseCertMessage.certs.induct generalizing certs
  case case1 =>
    rw [Notary.parseCertMessage.certs] at h
    cases h
    exact .inl .nil
  case case2 l₀ l₁ l₂ list certLen hl =>
    rw [Notary.parseCertMessage.certs, if_pos hl] at h
    cases h
  case case3 l₀ l₁ l₂ list certLen hl e₀ e₁ rest hd hi =>
    let der := list.take (Bytes.ofBe [l₀, l₁, l₂])
    have hn : der.length = Bytes.ofBe [l₀, l₁, l₂] := List.length_take_of_le (Nat.not_lt.mp hl)
    have hdl : der.length < 256 ^ 3 := hn ▸ Bytes.ofBe_lt [l₀, l₁, l₂]
    have hel : Bytes.ofBe [e₀, e₁] < 256 ^ 2 := Bytes.ofBe_lt [e₀, e₁]
    have hb : l₀ :: l₁ :: l₂ :: list = entryHead der (Bytes.ofBe [e₀, e₁]) ++ rest := by
      have hl : list = der ++ e₀ :: e₁ :: rest := by
        rw [←hd]
        exact (List.take_append_drop ..).symm
      have h₃ : Bytes.be 3 (Bytes.ofBe [l₀, l₁, l₂]) = [l₀, l₁, l₂] := Bytes.be_ofBe rfl
      have h₂ : Bytes.be 2 (Bytes.ofBe [e₀, e₁]) = [e₀, e₁] := Bytes.be_ofBe rfl
      rw [entryHead, hn, h₃, h₂]
      simp [hl]
    rw [hb] at h ⊢
    rw [notary_certs_step hdl hel] at h
    obtain ⟨certs', hc, he⟩ := Option.map_eq_some_iff.mp h
    rw [←he]
    by_cases hx : Bytes.ofBe [e₀, e₁] ≤ rest.length
    case pos =>
      let e : CertificateEntry := ⟨der, rest.take (Bytes.ofBe [e₀, e₁])⟩
      have hxl : e.extensions.length = Bytes.ofBe [e₀, e₁] := List.length_take_of_le hx
      have hb : entryHead der (Bytes.ofBe [e₀, e₁]) ++ rest =
          e.toBytes ++ rest.drop (Bytes.ofBe [e₀, e₁]) := by
        rw [entry_toBytes_eq, hxl, List.append_assoc, List.take_append_drop]
      have hf : e.Fits := ⟨hdl, hxl ▸ hel⟩
      rw [hb, List.length_append]
      exact (hi hc).imp (.entry hf) (.entry hf)
    case neg =>
      rw [List.drop_eq_nil_of_le (by omega), Notary.parseCertMessage.certs] at hc
      cases hc
      rw [List.length_append, length_entryHead]
      exact .inr (.last hdl hel (by omega) (by omega) (by omega))
  case case4 l₀ l₁ l₂ list certLen hl hd =>
    rw [Notary.parseCertMessage.certs, if_neg hl] at h
    split at h
    case h_1 hr => exact absurd hr (hd _ _ _)
    case h_2 => cases h
  case case5 bytes h₁ h₂ =>
    rw [Notary.parseCertMessage.certs] at h
    case _ => cases h
    case _ => exact h₁
    case _ => exact h₂

theorem Filled.append (h : Filled listLen bytes certs) (tail : Bytes) :
    Filled listLen (bytes ++ tail) certs := by
  induction h
  case nil            => exact .nil
  case entry he _ hi =>
    rw [List.append_assoc]
    exact .entry he hi

theorem Overrun.append (h : Overrun listLen bytes certs) (hn : listLen ≤ bytes.length)
    (tail : Bytes) : Overrun listLen (bytes ++ tail) certs := by
  induction h
  case last hd he hl hle hm =>
    rw [List.length_append, length_entryHead] at hn
    rw [List.append_assoc]
    exact .last hd he hl hle (by rw [List.length_append]; omega)
  case entry he _ hi =>
    rw [List.length_append] at hn
    rw [List.append_assoc]
    exact .entry he (hi (by omega))

theorem Overrun.notary_certs (h : Overrun listLen bytes certs) :
    Notary.parseCertMessage.certs (bytes.take listLen) = some certs := by
  induction h
  case last der rest extLen listLen hd he hl hle hm =>
    have ht : (entryHead der extLen ++ rest).take listLen =
        entryHead der extLen ++ rest.take (listLen - (5 + der.length)) := by
      rw [List.take_append, List.take_of_length_le (by simpa using hl), length_entryHead]
    rw [ht, notary_certs_step hd he, List.drop_eq_nil_of_le (by rw [List.length_take]; omega),
      Notary.parseCertMessage.certs]
    rfl
  case entry e he _ hi =>
    rw [List.take_length_add_append, entry_toBytes_eq, List.append_assoc,
      notary_certs_step he.der he.extensions, List.drop_left, hi]
    rfl

theorem notary_ok (h : Notary.parseCertMessage body = some certs) :
    ∃ context listLen list, context.length < 256 ∧ listLen < 256 ^ 3 ∧
      body = listHead context listLen ++ list ∧
      (Filled listLen list certs ∨ Overrun listLen list certs) := by
  rw [Notary.parseCertMessage] at h
  cases body
  case nil => cases h
  case cons c body =>
    obtain ⟨_, hc, h⟩ := Option.bind_eq_some_iff.mp h
    cases hc
    obtain ⟨_, hg, h⟩ := Option.bind_eq_some_iff.mp h
    have hp := (Option.guard_eq_some' _).mp hg
    obtain ⟨_, hg, h⟩ := Option.bind_eq_some_iff.mp h
    have hl := (Option.guard_eq_some' _).mp hg
    rw [List.length_cons] at hp hl
    let pos := 1 + c.toNat
    let lens := Bytes.slice (c :: body) pos (pos + 3)
    have hlen : lens.length = 3 := by
      rw [Bytes.length_slice, List.length_cons]
      omega
    have hn : Bytes.ofBe lens < 256 ^ 3 := hlen ▸ Bytes.ofBe_lt lens
    let list := (c :: body).drop (pos + 3)
    have hs : Bytes.slice (c :: body) (pos + 3) (pos + 3 + Bytes.ofBe lens) =
        list.take (Bytes.ofBe lens) := by
      rw [Bytes.slice, Nat.add_sub_cancel_left]
    have hll : (list.take (Bytes.ofBe lens)).length = Bytes.ofBe lens := by
      have hl : pos + 3 + Bytes.ofBe lens ≤ body.length + 1 := hl
      refine List.length_take_of_le ?_
      rw [List.length_drop, List.length_cons]
      omega
    have hc : (body.take c.toNat).length = c.toNat := List.length_take_of_le (by omega)
    have hb : c :: body = listHead (body.take c.toNat) (Bytes.ofBe lens) ++ list := by
      have h₁ : Bytes.be 1 c.toNat = [c] := by
        simp [Bytes.be]
      have hd : (c :: body).drop pos = lens ++ list := by
        rw [drop_eq_take_append (c :: body) pos 3]
        simp [lens, list, Bytes.slice]
      rw [listHead, hc, h₁, Bytes.be_ofBe hlen, List.append_assoc, ←hd]
      simp [pos, Nat.add_comm 1]
    rw [hs] at h
    have h := notary_certs_ok h
    rw [hll] at h
    refine ⟨body.take c.toNat, Bytes.ofBe lens, list, by rw [hc]; exact c.toNat_lt, hn, hb, ?_⟩
    rw [←List.take_append_drop (Bytes.ofBe lens) list]
    exact h.imp (·.append _) (·.append hll.ge _)

theorem entryHead_inj (hd : der.length < 256 ^ 3) (hd' : der'.length < 256 ^ 3)
    (hn : n < 256 ^ 2) (hn' : n' < 256 ^ 2) (h : entryHead der n ++ t = entryHead der' n' ++ t') :
    der = der' ∧ n = n' ∧ t = t' := by
  simp only [entryHead, List.append_assoc] at h
  have ⟨hder, h⟩ := SelfDelimiting.lengthPrefixed_inj hd hd' h
  exact ⟨hder, SelfDelimiting.be hn hn' h⟩

theorem listHead_inj (hc : context.length < 256) (hc' : context'.length < 256)
    (hn : n < 256 ^ 3) (hn' : n' < 256 ^ 3)
    (h : listHead context n ++ t = listHead context' n' ++ t') :
    context = context' ∧ n = n' ∧ t = t' := by
  simp only [listHead, List.append_assoc] at h
  have ⟨hcontext, h⟩ := SelfDelimiting.lengthPrefixed_inj (w := 1) hc hc' h
  exact ⟨hcontext, SelfDelimiting.be hn hn' h⟩

-- Entries that fill all bytes of the list have room for their extensions.
theorem Overrun.not_filled (h : Overrun listLen bytes certs) {entries : List CertificateEntry}
    (hf : ∀ e ∈ entries, e.Fits) (hb : bytes = entries.flatMap CertificateEntry.toBytes) :
    listLen ≠ bytes.length := by
  induction h generalizing entries
  case last der rest extLen listLen hd he hl hle hm =>
    cases entries
    case nil => exact absurd (congrArg List.length hb) (by simp)
    case cons e entries =>
      have ⟨hfe, _⟩ := List.forall_mem_cons.mp hf
      rw [List.flatMap_cons, entry_toBytes_eq, List.append_assoc] at hb
      have ⟨_, hn, hr⟩ := entryHead_inj hd hfe.der he hfe.extensions hb
      have hr := congrArg List.length hr
      rw [List.length_append] at hr
      rw [List.length_append, length_entryHead]
      omega
  case entry e he _ hi =>
    cases entries
    case nil => exact absurd (congrArg List.length hb) (by simp [entry_toBytes_eq])
    case cons e' entries =>
      have ⟨hfe, hf⟩ := List.forall_mem_cons.mp hf
      simp only [List.flatMap_cons, entry_toBytes_eq, List.append_assoc] at hb
      have ⟨_, hn, hr⟩ := entryHead_inj he.der hfe.der he.extensions hfe.extensions hb
      have ⟨_, hr⟩ := List.append_inj hr hn
      have := hi hf hr
      rw [List.length_append]
      omega

end

-- A Certificate message and something behind it.
def Trailing (body : Bytes) : Prop :=
  ∃ (context : Bytes) (entries : List CertificateEntry) (tail : Bytes), context.length < 256 ∧
    (∀ e ∈ entries, e.Fits) ∧ (entries.flatMap CertificateEntry.toBytes).length < 256 ^ 3 ∧
    tail ≠ [] ∧ body = certificateBody context entries ++ tail

-- The head of a Certificate message, and a list whose last entry lacks extensions.
def Overruns (body : Bytes) : Prop :=
  ∃ context listLen list certs, context.length < 256 ∧ listLen < 256 ^ 3 ∧
    body = listHead context listLen ++ list ∧ Overrun listLen list certs

section

variable {body list context : Bytes} {certs : List Bytes} {listLen : Nat}

theorem exact_or (hc : context.length < 256) (hl : listLen < 256 ^ 3)
    (hb : body = listHead context listLen ++ list)
    (h : Filled listLen list certs ∨ Overrun listLen list certs) :
    Exact body certs ∨ Trailing body ∨ Overruns body := by
  cases h
  case inr h => exact .inr (.inr ⟨context, listLen, list, certs, hc, hl, hb, h⟩)
  case inl h =>
    obtain ⟨entries, tail, hf, rfl, rfl, rfl⟩ := filled_iff.mp h
    by_cases ht : tail = []
    case pos =>
      rw [ht, List.append_nil] at hb
      exact .inl ⟨context, entries, hc, hf, hl, hb, rfl⟩
    case neg =>
      rw [←List.append_assoc] at hb
      exact .inr (.inl ⟨context, entries, tail, hc, hf, hl, ht, hb⟩)

theorem Trailing.not_exact (h : Trailing body) (certs : List Bytes) : ¬Exact body certs := by
  rintro ⟨context', entries', hc', hf', hl', hb', _⟩
  obtain ⟨context, entries, tail, hc, hf, hl, ht, rfl⟩ := h
  rw [certificateBody_eq, certificateBody_eq, List.append_assoc] at hb'
  have ⟨_, hn, hb⟩ := listHead_inj hc hc' hl hl' hb'
  have hb := congrArg List.length hb
  rw [List.length_append] at hb
  exact ht (List.length_eq_zero_iff.mp (by omega))

theorem Overruns.not_exact (h : Overruns body) (certs : List Bytes) : ¬Exact body certs := by
  rintro ⟨context', entries', hc', hf', hl', hb', _⟩
  obtain ⟨context, listLen, list, certs', hc, hl, rfl, ho⟩ := h
  rw [certificateBody_eq] at hb'
  have ⟨_, hn, hb⟩ := listHead_inj hc hc' hl hl' hb'
  exact ho.not_filled hf' hb (hn.trans (congrArg List.length hb).symm)

theorem listHead_drop (hc : context.length < 256) : ∃ c : Byte, c.toNat = context.length ∧
    listHead context listLen ++ list = c :: (context ++ (Bytes.be 3 listLen ++ list)) ∧
    (listHead context listLen ++ list).drop (1 + context.length) = Bytes.be 3 listLen ++ list := by
  obtain ⟨c, hcn⟩ : ∃ c : Byte, c.toNat = context.length :=
    ⟨.ofNat context.length, UInt8.toNat_ofNat_of_lt hc⟩
  have hb : listHead context listLen ++ list = c :: (context ++ (Bytes.be 3 listLen ++ list)) := by
    simp [listHead, Bytes.be, ←hcn]
  refine ⟨c, hcn, hb, ?_⟩
  rw [hb, Nat.add_comm, List.drop_succ_cons, List.drop_left]

theorem notary_parseCertMessage_listHead (hc : context.length < 256) (hl : listLen < 256 ^ 3)
    (hn : listLen ≤ list.length) : Notary.parseCertMessage (listHead context listLen ++ list) =
    Notary.parseCertMessage.certs (list.take listLen) := by
  have ⟨c, hcn, hb, hd⟩ := @listHead_drop list context listLen hc
  have h₀ : (listHead context listLen ++ list)[0]? = some c := by
    rw [hb]
    rfl
  have hs : Bytes.slice (listHead context listLen ++ list) (1 + context.length)
      (1 + context.length + 3) = Bytes.be 3 listLen := by
    simp [Bytes.slice, hd]
  have hs' : Bytes.slice (listHead context listLen ++ list) (1 + context.length + 3)
      (1 + context.length + 3 + listLen) = list.take listLen := by
    rw [Bytes.slice, ←List.drop_drop, hd, List.drop_left' (by simp), Nat.add_sub_cancel_left]
  rw [Notary.parseCertMessage, h₀]
  simp [hcn, hs, Bytes.ofBe_be_of_lt hl, hs', show 1 + context.length + 3 + listLen ≤
    4 + context.length + list.length by omega, show 1 + context.length + 3 ≤
    4 + context.length + list.length by omega]

theorem guest_parseCertMessage_listHead (hc : context.length < 256) (hl : listLen < 256 ^ 3)
    (hn : list.length < listLen) : Guest.parseCertMessage (listHead context listLen ++ list) =
    Guest.parseCertMessage.certs (listHead context listLen ++ list) (4 + context.length)
      (4 + context.length + listLen) := by
  have ⟨c, hcn, hb, hd⟩ := @listHead_drop list context listLen hc
  have hr := Guest.readBe_of_drop hl hd
  have hu : ¬Guest.usize ((listHead context listLen ++ list).length + 2 ^ 64 -
      (1 + context.length)) < 3 := by
    rw [List.length_append, length_listHead, Guest.usize]
    omega
  rw [hb] at hr hu ⊢
  rw [Guest.parseCertMessage]
  simp only [hcn]
  rw [if_neg hu, hr, Exec.ok_bind, Nat.add_right_comm 1]

theorem Trailing.accepted (h : Trailing body) :
    ∃ certs, Notary.parseCertMessage body = some certs := by
  obtain ⟨context, entries, tail, hc, hf, hl, _, rfl⟩ := h
  refine ⟨entries.map CertificateEntry.der, ?_⟩
  rw [certificateBody_eq, List.append_assoc,
    notary_parseCertMessage_listHead hc hl (by rw [List.length_append]; omega), List.take_left,
    Notary.certs_flatMap hf]

theorem Overruns.accepted (h : Overruns body) :
    ∃ certs, Guest.parseCertMessage body = .ok (.ok certs) ∨
      Notary.parseCertMessage body = some certs := by
  obtain ⟨context, listLen, list, certs, hc, hl, rfl, ho⟩ := h
  refine ⟨certs, ?_⟩
  by_cases hn : listLen ≤ list.length
  case pos =>
    rw [notary_parseCertMessage_listHead hc hl hn]
    exact .inr ho.notary_certs
  case neg =>
    have hd : (listHead context listLen ++ list).drop (4 + context.length) = list :=
      List.drop_left' length_listHead
    rw [guest_parseCertMessage_listHead hc hl (Nat.not_le.mp hn)]
    refine .inl (Overrun.guest_certs (hd.symm ▸ ho) ?_)
    rw [List.length_append, length_listHead]
    exact Nat.le_add_right _ _

-- Both parsers take a list for complete as soon as the entries reach its end, and neither looks
-- behind it.
theorem parseCertMessage_exact_iff (body : Bytes) :
    ((∀ certs, Guest.parseCertMessage body = .ok (.ok certs) → Exact body certs) ∧
      (∀ certs, Notary.parseCertMessage body = some certs → Exact body certs) ∧
      ∀ r, Guest.parseCertMessage body = .ok r → Notary.parseCertMessage body = r.toOption) ↔
    ¬Trailing body ∧ ¬Overruns body := by
  constructor
  case mp =>
    intro ⟨hg, hn, _⟩
    constructor
    case left =>
      intro ht
      have ⟨certs, h⟩ := ht.accepted
      exact ht.not_exact certs (hn certs h)
    case right =>
      intro ho
      have ⟨certs, h⟩ := ho.accepted
      exact ho.not_exact certs (h.elim (hg certs) (hn certs))
  case mpr =>
    intro ⟨ht, ho⟩
    have hg (certs : List Bytes) (h : Guest.parseCertMessage body = .ok (.ok certs)) :
        Exact body certs := by
      have ⟨_, _, _, hc, hl, hb, h⟩ := guest_ok h
      exact (exact_or hc hl hb h).resolve_right (not_or.mpr ⟨ht, ho⟩)
    have hn (certs : List Bytes) (h : Notary.parseCertMessage body = some certs) :
        Exact body certs := by
      have ⟨_, _, _, hc, hl, hb, h⟩ := notary_ok h
      exact (exact_or hc hl hb h).resolve_right (not_or.mpr ⟨ht, ho⟩)
    refine ⟨hg, hn, fun r h => ?_⟩
    cases r
    case ok certs =>
      obtain ⟨context, entries, hc, hf, hl, rfl, rfl⟩ := hg certs h
      exact Notary.parseCertMessage_certificateBody hc hf hl
    case error msg =>
      cases hs : Notary.parseCertMessage body
      case none => rfl
      case some certs =>
        obtain ⟨context, entries, hc, hf, hl, rfl, rfl⟩ := hn certs hs
        rw [Guest.parseCertMessage_certificateBody hc hf hl] at h
        cases h

end

-- A byte behind an empty list.
theorem not_parseCertMessage_exact :
    ¬∀ body : Bytes,
      (∀ certs, Guest.parseCertMessage body = .ok (.ok certs) → Exact body certs) ∧
      (∀ certs, Notary.parseCertMessage body = some certs → Exact body certs) ∧
      ∀ r, Guest.parseCertMessage body = .ok r → Notary.parseCertMessage body = r.toOption := by
  intro h
  have ht : Trailing [0, 0, 0, 0, 0] :=
    ⟨[], [], [0], by decide, by simp, by decide, by decide, by decide⟩
  have ⟨certs, ha⟩ := ht.accepted
  exact ht.not_exact certs ((h _).2.1 certs ha)

theorem parseCertMessage_decodes {context : Bytes} {entries : List CertificateEntry}
    (hc : context.length < 256) (he : ∀ e ∈ entries, e.Fits)
    (hl : (entries.flatMap CertificateEntry.toBytes).length < 256 ^ 3) :
    Guest.parseCertMessage (certificateBody context entries) =
      .ok (.ok (entries.map CertificateEntry.der)) ∧
    Notary.parseCertMessage (certificateBody context entries) =
      some (entries.map CertificateEntry.der) :=
  ⟨Guest.parseCertMessage_certificateBody hc he hl, Notary.parseCertMessage_certificateBody hc he hl⟩

theorem parseCertMessage_decodes_of_chain :
    let entries := [⟨[0x30, 1, 0xaa], []⟩, ⟨[0x30, 1, 0xbb], [0xff]⟩]
    Guest.parseCertMessage (certificateBody [7] entries) =
      .ok (.ok [[0x30, 1, 0xaa], [0x30, 1, 0xbb]]) ∧
    Notary.parseCertMessage (certificateBody [7] entries) =
      some [[0x30, 1, 0xaa], [0x30, 1, 0xbb]] :=
  parseCertMessage_decodes (by decide) (by simp [CertificateEntry.fits_iff]) (by decide)

end Agreement
