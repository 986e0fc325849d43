import Mathlib.Data.ZMod.Basic
import NotaryModel.Notary.Ecdh
import NotaryModel.TwoParty.Exchange

open Exchange

-- The order of the prime-order subgroup.
def Curve25519.order : Nat :=
  2 ^ 252 + 27742317777372353535851937790883648493

-- A number of 32 bytes, the least significant one first.
def Arr.ofLe (b : Arr 32) : Nat :=
  Bytes.ofBe b.toList.reverse

namespace Curve25519

variable (curve : Curve25519) [AddCommGroup curve.Point]

-- What the rounds rely on: scalars are numbers modulo the order, and the points form a group with an
-- encoding.
structure Lawful : Prop where
  fromBytes  : ∀ b, (curve.toBytes (curve.fromBytesModOrder b)).ofLe = b.ofLe % order
  mul        : ∀ s P, curve.mul s P = (curve.toBytes s).ofLe • P
  decompress : ∀ P, curve.decompress (curve.compress P) = some P

-- The function of RFC 7748: the clamped number times the point.
def x25519 (k u : Arr 32) : Option (Arr 32) :=
  (curve.toEdwards u).map fun P => curve.toMontgomery ((Notary.clampScalarBytes k).ofLe • P)

end Curve25519

namespace Notary

variable {curve : Curve25519}

theorem clampScalarBytes_idem (b : Arr 32) :
    clampScalarBytes (clampScalarBytes b) = clampScalarBytes b := by
  have h (n : Nat) : (n &&& 127 ||| 64) &&& 127 ||| 64 = n &&& 127 ||| 64 := by
    rw [Nat.and_or_distrib_right, Nat.and_assoc, Nat.or_assoc]
    rfl
  ext i hi
  by_cases h₃₁ : i = 31
  case pos =>
    subst h₃₁
    simpa [clampScalarBytes] using h b[31].toNat
  case neg =>
    by_cases h₀ : i = 0
    case pos =>
      subst h₀
      simp [clampScalarBytes]
    case neg => simp [clampScalarBytes, Vector.getElem_set_ne, Ne.symm h₃₁, Ne.symm h₀]

-- A share as both functions make it.
def EphemeralShare.Made (share : EphemeralShare curve) : Prop :=
  (∃ r, share = generateShare curve r) ∨ ∃ b, share = shareFromBytes curve b

-- The share that the notary reads is the one that the host has.
theorem EphemeralShare.Made.shareFromBytes_eq {share : EphemeralShare curve} (h : share.Made) :
    shareFromBytes curve (shareToBytes share) = share := by
  obtain ⟨b, rfl⟩ | ⟨b, rfl⟩ := h
  all_goals
    simp only [generateShare, shareFromBytes, shareToBytes, clampScalarBytes_idem]

section

variable [AddCommGroup curve.Point] {host notary : EphemeralShare curve} {epk : Arr 32}

omit [AddCommGroup curve.Point] in
theorem computePartialPoint_eq {share : EphemeralShare curve}
    (he : curve.toEdwards epk = some P) :
    computePartialPoint share epk = .pure (curve.mul share.scalar P) := by
  rw [computePartialPoint, he]
  rfl

-- What both ends of the blinded round return.
def OtEcdhNotaryOutcome.Splits (o : OtEcdhNotaryOutcome) (ikm hostIkmShare : Arr 32) : Prop :=
  hostIkmShare ^^^ o.notaryIkmShare = ikm ∧ o.hostIkmShare = hostIkmShare ∧ o.ikm = ikm

variable {aes : Arr 16 → Arr 16 → Arr 16} {compress : Arr 32 → Arr 64 → Arr 32}

theorem otBlinded_scheduled (hc : curve.Lawful) (he : curve.toEdwards epk = some P)
    (hi : referenceIkm host notary epk = some ikm) (rng : OtRandom) :
    Scheduled (circuits aes compress) (notaryRunOtBlinded notary host epk rng)
      (hostRunOtBlinded host epk) fun o share => o.Splits ikm share := by
  unfold notaryRunOtBlinded hostRunOtBlinded
  simp only [computePartialPoint_eq he, referenceIkm!, hi, expect, Prog.pure_eq, Prog.pure_bind]
  refine .bind (.send_recv (Φ := fun _ v => v = curve.compress _) rfl) ?_
  rintro _ _ rfl
  simp only [hc.decompress]
  refine .bind (.recv_send (Φ := fun v _ => v = curve.compress _) rfl) ?_
  rintro _ _ rfl
  simp only [hc.decompress]
  rw [←Prog.bind_pure (read .hostIkmShare 32)]
  refine .bind (.send_recv (Φ := fun _ v => v = ikm ^^^ rng.notaryIkmShare) rfl) ?_
  rintro _ _ rfl
  exact .pure ⟨Arr.xor_xor_cancel_right _ _, rfl, rfl⟩

theorem ecdhOt_scheduled (hc : curve.Lawful) (hh : host.Made) (he : curve.toEdwards epk = some P)
    (hi : referenceIkm host notary epk = some ikm) (mask : Arr 32) (rng : OtRandom) :
    Scheduled (circuits aes compress) (notaryRecvEcdhSetup notary mask rng)
      (hostSendEcdhOt host epk) fun o share => ∃ o', o = .ot o' ∧ o'.Splits ikm share := by
  unfold notaryRecvEcdhSetup hostSendEcdhOt
  refine .bind (.recv_send (Φ := fun v _ => v = #v[setupEcdhOt]) rfl) ?_
  rintro _ _ rfl
  simp only [show (#v[setupEcdhOt] : Arr 1).byte = setupEcdhOt from rfl, setupEcdhOt, setupEcdhSkip,
    setupEcdhLeaky]
  refine .bind (.recv_send (Φ := fun v _ => v = epk) rfl) ?_
  rintro _ _ rfl
  unfold readHostShare
  rw [bind_assoc]
  refine .bind (.recv_send (Φ := fun v _ => v = shareToBytes host) rfl) ?_
  rintro _ _ rfl
  rw [Prog.pure_eq, Prog.pure_bind, hh.shareFromBytes_eq, ←Prog.bind_pure (hostRunOtBlinded ..)]
  refine .bind (otBlinded_scheduled hc he hi rng) fun o share hs => ?_
  exact .pure ⟨o, rfl, hs⟩

end

theorem order_pos : 0 < Curve25519.order := by
  decide

instance : NeZero (8 * Curve25519.order) :=
  ⟨by decide⟩

abbrev Cyclic := ZMod (8 * Curve25519.order)

-- The group of the curve is cyclic of order `8 * order`; the encoding of points is one of its own.
def cyclicCurve : Curve25519 where
  Scalar              := Fin Curve25519.order
  Point               := Cyclic
  fromBytesModOrder b := ⟨b.ofLe % Curve25519.order, Nat.mod_lt _ order_pos⟩
  toBytes s           := .ofBytes 32 (Bytes.be 32 s).reverse
  addScalar s t       := ⟨(s + t) % Curve25519.order, Nat.mod_lt _ order_pos⟩
  toEdwards b         := some b.ofLe
  mul s P             := (s : Nat) * P
  add P Q             := P + Q
  toMontgomery P      := .ofBytes 32 (Bytes.be 32 P.val).reverse
  compress P          := .ofBytes 32 (Bytes.be 32 P.val).reverse
  decompress b        := some b.ofLe

instance : AddCommGroup cyclicCurve.Point :=
  inferInstanceAs (AddCommGroup Cyclic)

theorem ofLe_ofBytes_be (h : n < 256 ^ 32) : (Arr.ofBytes 32 (Bytes.be 32 n).reverse).ofLe = n := by
  rw [Arr.ofLe, Arr.toList_ofBytes (by simp), List.reverse_reverse, Bytes.ofBe_be_of_lt h]

theorem cyclicCurve_lawful : cyclicCurve.Lawful where
  fromBytes b := by
    have hl : b.ofLe % Curve25519.order < 256 ^ 32 :=
      Nat.lt_trans (Nat.mod_lt _ order_pos) (by decide)
    exact ofLe_ofBytes_be hl
  mul s P := by
    have hl : s.val < 256 ^ 32 := Nat.lt_trans s.isLt (by decide)
    have hs : (cyclicCurve.toBytes s).ofLe = s.val := ofLe_ofBytes_be hl
    let P : Cyclic := P
    have hm : s.val • P = s.val * P := nsmul_eq_mul ..
    rw [hs]
    exact hm.symm
  decompress P := by
    let P : Cyclic := P
    have hl : P.val < 256 ^ 32 := Nat.lt_trans P.val_lt (by decide)
    have hP : ((Arr.ofBytes 32 (Bytes.be 32 P.val).reverse).ofLe : Cyclic) = P := by
      rw [ofLe_ofBytes_be hl, ZMod.natCast_zmod_val]
    exact congrArg some hP

end Notary
