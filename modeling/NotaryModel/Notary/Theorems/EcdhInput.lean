import NotaryModel.Notary.Ecdh
import NotaryModel.TwoParty.Stream

open Prog (feed_recv_bind_cases feed_map)

namespace Notary

variable {curve : Curve25519} {answer : (q : Query) → q.Answer}

def Panics (f : Fed wrk17 α) : Prop :=
  ∃ msg, f.result = .error (.panic msg)

@[simp]
theorem not_panics_ok : ¬Panics (⟨.ok a, s, w⟩ : Fed wrk17 α) :=
  nofun

@[simp]
theorem panics_error_iff :
    Panics (⟨.error e, s, w⟩ : Fed wrk17 α) ↔ ∃ msg, e = Err.panic msg := by
  simp [Panics]

@[simp]
theorem panics_map_iff {p : Wrk17 α} {g : α → β} :
    Panics ((g <$> p).feed answer s) ↔ Panics (p.feed answer s) := by
  rw [feed_map]
  unfold Panics
  cases (p.feed answer s).result <;> simp [Except.map]

theorem panics_send_bind_iff {f : Unit → Wrk17 β} :
    Panics ((write l bs >>= f).feed answer s) ↔ Panics ((f ()).feed answer s) :=
  Iff.rfl

-- Of the reads of a program, the one that there are too few bytes for is no panic.
theorem panics_recv_bind_iff {f : Arr n → Wrk17 β} :
    Panics ((read l n >>= f).feed answer s) ↔
    ∃ (v : Arr n) (s' : Bytes), s = v.toList ++ s' ∧ Panics ((f v).feed answer s') := by
  constructor
  · refine feed_recv_bind_cases (Φ := fun x => Panics x → _) s (fun _ => ?_) fun v s' hs h => ?_
    · rintro ⟨_, h⟩
      cases h
    · exact ⟨v, s', hs, h⟩
  · rintro ⟨v, s', rfl, h⟩
    rwa [Prog.feed_recv_bind]

section

variable {share notaryShare hostShare : EphemeralShare curve} {epk : Arr 32}

theorem panics_computePartialPoint_bind_iff {f : curve.Point → Wrk17 β} :
    Panics ((computePartialPoint share epk >>= f).feed answer s) ↔
    ∀ P, curve.toEdwards epk = some P → Panics ((f (curve.mul share.scalar P)).feed answer s) := by
  unfold computePartialPoint
  cases curve.toEdwards epk
  case none   => exact iff_of_true ⟨_, rfl⟩ nofun
  case some P => simp [expect]

theorem panics_referenceIkm_bind_iff {f : Arr 32 → Wrk17 β} :
    Panics ((referenceIkm! hostShare notaryShare epk >>= f).feed answer s) ↔
    ∀ ikm, referenceIkm hostShare notaryShare epk = some ikm → Panics ((f ikm).feed answer s) := by
  unfold referenceIkm!
  cases referenceIkm hostShare notaryShare epk
  case none     => exact iff_of_true ⟨_, rfl⟩ nofun
  case some ikm => simp [expect]

theorem referenceIkm_eq_none_iff :
    referenceIkm hostShare notaryShare epk = none ↔ curve.toEdwards epk = none := by
  cases h : curve.toEdwards epk <;> simp [referenceIkm, h]

-- The blinded round decodes the key before it reads anything.
theorem panics_notaryRunOtBlinded_iff :
    Panics ((notaryRunOtBlinded notaryShare hostShare epk rng).feed answer s) ↔
    curve.toEdwards epk = none := by
  unfold notaryRunOtBlinded
  rw [panics_computePartialPoint_bind_iff]
  cases h : curve.toEdwards epk
  case none   => simp
  case some P =>
    have hi : referenceIkm hostShare notaryShare epk ≠ none :=
      fun hn => Option.some_ne_none P (h.symm.trans (referenceIkm_eq_none_iff.mp hn))
    obtain ⟨ikm, hi⟩ := Option.ne_none_iff_exists'.mp hi
    refine iff_of_false (fun hp => ?_) nofun
    obtain ⟨v, s', -, hp⟩ := panics_recv_bind_iff.mp <| panics_send_bind_iff.mp <| hp P rfl
    split at hp
    case h_1 =>
      have hp := panics_computePartialPoint_bind_iff.mp hp P h
      have hp := panics_referenceIkm_bind_iff.mp hp ikm hi
      exact not_panics_ok hp
    case h_2 =>
      obtain ⟨_, he⟩ := hp
      cases he

-- The leaky round decodes it after it has read the point of the host.
theorem panics_notaryRunLeakyAdditive_iff :
    Panics ((notaryRunLeakyAdditive notaryShare hostShare epk mask).feed answer s) ↔
    curve.toEdwards epk = none ∧
      ∃ (pC : Arr 32) (s' : Bytes), s = pC.toList ++ s' ∧ (curve.decompress pC).isSome := by
  unfold notaryRunLeakyAdditive
  rw [panics_recv_bind_iff]
  constructor
  · rintro ⟨pC, s', hs, hp⟩
    split at hp
    case h_2 =>
      obtain ⟨_, he⟩ := hp
      cases he
    case h_1 P hP =>
      refine ⟨?_, pC, s', hs, Option.isSome_iff_exists.mpr ⟨P, hP⟩⟩
      by_contra hn
      obtain ⟨Q, hQ⟩ := Option.ne_none_iff_exists'.mp hn
      have hi : referenceIkm hostShare notaryShare epk ≠ none :=
        fun hi => hn (referenceIkm_eq_none_iff.mp hi)
      obtain ⟨ikm, hi⟩ := Option.ne_none_iff_exists'.mp hi
      have hp := panics_computePartialPoint_bind_iff.mp hp Q hQ
      have hp := panics_referenceIkm_bind_iff.mp (panics_send_bind_iff.mp hp) ikm hi
      exact not_panics_ok hp
  · rintro ⟨hn, pC, s', hs, hP⟩
    obtain ⟨P, hP⟩ := Option.isSome_iff_exists.mp hP
    refine ⟨pC, s', hs, ?_⟩
    rw [hP]
    refine panics_computePartialPoint_bind_iff.mpr fun Q hQ => ?_
    rw [hn] at hQ
    cases hQ

end

-- A message of the host with a key that is no u-coordinate of a point: the flag of the blinded round,
-- or that of the leaky round and the encoding of a point behind the share.
def CrashingInput (curve : Curve25519) (s : Bytes) : Prop :=
  ∃ (flag : Byte) (epk share : Arr 32) (tail : Bytes),
    s = flag :: (epk.toList ++ (share.toList ++ tail)) ∧ curve.toEdwards epk = none ∧
    (flag = setupEcdhOt ∨ flag = setupEcdhLeaky ∧
      ∃ (pC : Arr 32) (tail' : Bytes), tail = pC.toList ++ tail' ∧ (curve.decompress pC).isSome)

theorem panics_readHostShare_bind_iff {f : EphemeralShare curve → Wrk17 β} :
    Panics ((readHostShare >>= f).feed answer s) ↔
    ∃ (v : Arr 32) (s' : Bytes), s = v.toList ++ s' ∧
      Panics ((f (shareFromBytes curve v)).feed answer s') :=
  panics_recv_bind_iff (f := fun v => f (shareFromBytes curve v)) (l := .hostShare)

section

variable {notaryShare : EphemeralShare curve} {mask : Arr 32} {rng : OtRandom}

theorem CrashingInput.panics (h : CrashingInput curve s) :
    Panics ((notaryRecvEcdhSetup notaryShare mask rng).feed answer s) := by
  obtain ⟨flag, epk, share, tail, rfl, hn, hf⟩ := h
  unfold notaryRecvEcdhSetup
  refine panics_recv_bind_iff.mpr ⟨#v[flag], _, rfl, ?_⟩
  obtain rfl | ⟨rfl, hP⟩ := hf
  · exact panics_recv_bind_iff.mpr ⟨epk, _, rfl, panics_readHostShare_bind_iff.mpr
      ⟨share, tail, rfl, panics_map_iff.mpr (panics_notaryRunOtBlinded_iff.mpr hn)⟩⟩
  · exact panics_recv_bind_iff.mpr ⟨epk, _, rfl, panics_readHostShare_bind_iff.mpr
      ⟨share, tail, rfl, panics_map_iff.mpr (panics_notaryRunLeakyAdditive_iff.mpr ⟨hn, hP⟩)⟩⟩

theorem crashingInput_of_panics
    (h : Panics ((notaryRecvEcdhSetup notaryShare mask rng).feed answer s)) :
    CrashingInput curve s := by
  unfold notaryRecvEcdhSetup at h
  obtain ⟨flag, s', rfl, hp⟩ := panics_recv_bind_iff.mp h
  rw [Arr.toList_eq]
  split_ifs at hp with h₀ h₁ h₂
  · obtain ⟨_, he⟩ := hp
    cases he
  · obtain ⟨epk, s', rfl, hp₁⟩ := panics_recv_bind_iff.mp hp
    obtain ⟨share, s', rfl, hp₂⟩ := panics_readHostShare_bind_iff.mp hp₁
    obtain ⟨hn, hP⟩ := panics_notaryRunLeakyAdditive_iff.mp (panics_map_iff.mp hp₂)
    exact ⟨flag.byte, epk, share, s', rfl, hn, .inr ⟨h₁, hP⟩⟩
  · obtain ⟨epk, s', rfl, hp₁⟩ := panics_recv_bind_iff.mp hp
    obtain ⟨share, s', rfl, hp₂⟩ := panics_readHostShare_bind_iff.mp hp₁
    have hn := panics_notaryRunOtBlinded_iff.mp (panics_map_iff.mp hp₂)
    exact ⟨flag.byte, epk, share, s', rfl, hn, .inl h₂⟩
  · obtain ⟨_, he⟩ := hp
    cases he

end

-- The handler panics on these and on no other inputs.
theorem notaryRecvEcdhSetup_rejects_iff (curve : Curve25519) (answer : (q : Query) → q.Answer)
    (notaryShare : EphemeralShare curve) (mask : Arr 32) (rng : OtRandom) (s : Bytes) :
    (∀ msg, ((notaryRecvEcdhSetup notaryShare mask rng).feed answer s).result ≠
      .error (.panic msg)) ↔ ¬CrashingInput curve s := by
  rw [←not_exists, not_iff_not]
  exact ⟨crashingInput_of_panics, CrashingInput.panics⟩

-- The u-coordinate -1 is that of no point.
def minusOne : Arr 32 :=
  .ofBytes 32 ([0xec] ++ List.replicate 30 0xff ++ [0x7f])

def pointlessCurve : Curve25519 where
  Scalar              := Unit
  Point               := Unit
  fromBytesModOrder _ := ()
  toBytes _           := 0
  addScalar _ _       := ()
  toEdwards b         := if b = minusOne then none else some ()
  mul _ _             := ()
  add _ _             := ()
  toMontgomery _      := 0
  compress _          := 0
  decompress _        := some ()

theorem not_notaryRecvEcdhSetup_rejects : ¬∀ (curve : Curve25519) (answer : (q : Query) → q.Answer)
    (notaryShare : EphemeralShare curve) (mask : Arr 32) (rng : OtRandom) (s : Bytes) (msg : String),
    ((notaryRecvEcdhSetup notaryShare mask rng).feed answer s).result ≠ .error (.panic msg) := by
  intro h
  have hc : CrashingInput pointlessCurve
      (setupEcdhOt :: (minusOne.toList ++ ((0 : Arr 32).toList ++ []))) :=
    ⟨_, minusOne, 0, [], rfl, by simp [pointlessCurve], .inl rfl⟩
  obtain ⟨msg, hp⟩ : Panics ((notaryRecvEcdhSetup (generateShare pointlessCurve 0) 0 ⟨0, 0⟩).feed
    ((default : Masks wrk17) 0) _) := hc.panics
  exact h _ _ _ _ _ _ msg hp

end Notary
