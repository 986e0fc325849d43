import NotaryModel.Notary.Demo

namespace Notary

variable (aes : Arr 16 → Arr 16 → Arr 16) (compress : Arr 32 → Arr 64 → Arr 32)
variable (ed : Ed25519) (bincode : Bincode)

-- The host of a session in mode 2 that goes through `client_run_2pc_traffic_hkdf`. The helper takes
-- the session as an argument, so that it has been initialised before.
def hkdfHelperHost (ikmC afterSh afterSf : Arr 32) (records : ClientTrafficShares → Wrk17 α) :
    Wrk17 α := do
  wrk17Init
  let traffic ← clientRun2pcTrafficHkdf compress ikmC afterSh afterSf
  records traffic

section

variable {aes compress} {f : Header → Wrk17 α} {g : Unit → Wrk17 β}

-- The notary waits for a header while the host waits for it to join the initialisation.
theorem readHeader_wrk17Init_stuck :
    ¬Step (circuits aes compress) m (.init (readHeader >>= f) (wrk17Init >>= g)) s :=
  Step.not_of_read_session (by decide)

theorem readHeader_wrk17Init_not_inStep :
    ¬InStep (circuits aes compress) (readHeader >>= f) (wrk17Init >>= g) := by
  refine InStep.not_of_stuck (m := default) .refl ?_ fun _ => readHeader_wrk17Init_stuck
  rintro ⟨⟨⟩, -, -, -⟩

end

-- In no session in mode 2 do the two ends get to the key schedule, with either host: the state in
-- which the notary waits for the header is never left.
theorem twoPcTraffic_not_inStep (signingKey : ed.SigningKey) (now : UInt64)
    (setup : TwoPcTrafficSetup) (fuel : Nat) (t : Takeover)
    (ikmC afterSh afterSf : Arr 32) (txIv rxIv : Arr 12) (records : ClientTrafficShares → Wrk17 α) :
    let notary := runNotaryWorkerAttested2pc compress ed bincode signingKey now setup fuel
    let demo := runTwoPcTrafficDemo.session bincode t compress ikmC afterSh afterSf txIv rxIv
    let helper := hkdfHelperHost compress ikmC afterSh afterSf records
    (¬InStep (circuits aes compress) notary demo ∧
      ∀ m s, Steps (circuits aes compress) m (.init notary demo) s → s = .init notary demo) ∧
    (¬InStep (circuits aes compress) notary helper ∧
      ∀ m s, Steps (circuits aes compress) m (.init notary helper) s → s = .init notary helper) := by
  intro notary demo helper
  refine ⟨⟨?demo, fun m s h => ?demoStuck⟩, ⟨?helper, fun m s h => ?helperStuck⟩⟩
  case demo        => exact readHeader_wrk17Init_not_inStep
  case demoStuck   => exact h.eq_of_stuck (fun _ => readHeader_wrk17Init_stuck) |>.symm
  case helper      => exact readHeader_wrk17Init_not_inStep
  case helperStuck => exact h.eq_of_stuck (fun _ => readHeader_wrk17Init_stuck) |>.symm

theorem not_twoPcTraffic_inStep :
    let ed : Ed25519 := ⟨Unit, Unit, id, fun _ => 0, fun _ => some (), fun _ _ => 0, fun _ _ _ => true⟩
    let bincode : Bincode := ⟨fun _ => .ok [], fun _ => .error ""⟩
    let aes : Arr 16 → Arr 16 → Arr 16 := fun _ _ => 0
    let compress : Arr 32 → Arr 64 → Arr 32 := fun _ _ => 0
    let notary := runNotaryWorkerAttested2pc compress ed bincode () 0 ⟨0, 0, 0, 0, default⟩ 1
    let t : Takeover := ⟨"example.com", "/", [], [], [], 0⟩
    ¬InStep (circuits aes compress) notary
      (runTwoPcTrafficDemo.session bincode t compress 0 0 0 0 0) ∧
    ¬InStep (circuits aes compress) notary (hkdfHelperHost compress 0 0 0 Prog.pure) :=
  ⟨readHeader_wrk17Init_not_inStep, readHeader_wrk17Init_not_inStep⟩

end Notary
