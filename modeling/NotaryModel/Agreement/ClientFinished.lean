import NotaryModel.Agreement.Session

open Tls

namespace Agreement

namespace Session

open Notary
open transcriptAfterServerFinished (round)

-- The protected records of the client start with its own flight, cut between messages in any way.
-- What follows only counts if the flight has no Finished message.
structure Answers (s : Session) (enc : Gcm.Seal) (key : Arr 16) (iv : Arr 12)
    (groups : List (List HandshakeMsg)) (later : List RawRecord) : Prop where
  fits   : ∀ m ∈ groups.flatten, m.Fits
  before : ∀ g ∈ groups.dropLast, ∀ m ∈ g, m.msgType ≠ 20
  sealed : s.out.filter (·.contentType == 23) = Tls.flight enc key iv 0 groups ++ later
  rest   : (∃ m ∈ groups.flatten, m.msgType = 20) ∨ later = []

variable {s : Session} {enc : Gcm.Seal} {gcm : Gcm.Open} {key clientKey : Arr 16}
  {iv clientIv : Arr 12} {groups : List (List HandshakeMsg)} {later : List RawRecord}

theorem any_finished_iff {msgs : List HandshakeMsg} :
    msgs.any (·.msgType == 20) = true ↔ ∃ m ∈ msgs, m.msgType = 20 := by
  simp

theorem Standard.foldlM_inp (hg : Gcm.Correct enc gcm) (h : s.Standard enc key iv) {l : HsLoop}
    (hs : l.sawServerFinished = false) (hn : l.serverHsSeq = 0) :
    s.inp.foldlM (round gcm key iv) l = some {
      messages          := l.messages ++ s.flight.messages.map HandshakeMsg.toBytes
      serverHsSeq       := .ofNat s.groups.length
      sawServerFinished := true
    } := by
  have hfin : s.flight.messages.any (·.msgType == 20) = true := rfl
  rw [foldlM_round_filter, h.sealed, List.foldlM_append,
    foldlM_round_flight hg hs (n := 0) hn h.flatten_fits h.not_finished, h.groups.left, hfin,
    Nat.zero_add]
  exact foldlM_round_done _ rfl

theorem Answers.foldlM_out (hg : Gcm.Correct enc gcm) (ha : s.Answers enc key iv groups later)
    {l : HsLoop} (hs : l.sawServerFinished = false) (hn : l.serverHsSeq = 0) :
    s.out.foldlM (round gcm key iv) l = some {
      messages          := l.messages ++ groups.flatten.map HandshakeMsg.toBytes
      serverHsSeq       := .ofNat groups.length
      sawServerFinished := groups.flatten.any (·.msgType == 20)
    } := by
  rw [foldlM_round_filter, ha.sealed, List.foldlM_append,
    foldlM_round_flight hg hs (n := 0) hn ha.fits ha.before, Nat.zero_add]
  rcases ha.rest with hf | rfl
  case inl => exact foldlM_round_done _ (any_finished_iff.mpr hf)
  case inr => rfl

-- There is a transcript through the Finished message of the client if it has sent one. It is that
-- of the server's flight and the client's, however the two are cut in records.
theorem clientFinished_agrees {compress : Arr 32 → Arr 64 → Arr 32} (hg : Gcm.Correct enc gcm)
    (hk : referenceServerHsKeys compress ikm (s.afterSh compress) = (key, iv))
    (hc : referenceClientHsKeys compress ikm (s.afterSh compress) = (clientKey, clientIv))
    (h : s.Standard enc key iv) (ha : s.Answers enc clientKey clientIv groups later) :
    transcriptAfterClientFinished compress gcm s.rawOutbound s.rawInbound ikm =
      if ∃ m ∈ groups.flatten, m.msgType = 20 then
        some <| Sha256.digest compress <|
          (s.messages ++ groups.flatten.map HandshakeMsg.toBytes).flatten
      else
        none := by
  have ⟨ch, hch, hcp⟩ := h.find_clientHello
  have ⟨sh, hsh, hsp⟩ := h.find_serverHello
  simp only [transcriptAfterClientFinished, h.transcriptAfterServerHello_eq, hk, hc, parseRecords,
    h.parse_out, h.parse_inp, hch, hsh, Option.bind_eq_bind, Option.bind_some,
    h.foldlM_inp hg (l := HsLoop.mk ..) rfl rfl, ha.foldlM_out hg (l := HsLoop.mk ..) rfl rfl]
  by_cases hf : ∃ m ∈ groups.flatten, m.msgType = 20
  case pos =>
    have hfin : groups.flatten.any (·.msgType == 20) = true := any_finished_iff.mpr hf
    have hm : [ch.payload, sh.payload] ++ s.flight.messages.map HandshakeMsg.toBytes =
        s.messages := by
      rw [hcp, hsp]
      rfl
    have hl : 7 ≤ (s.messages ++ groups.flatten.map HandshakeMsg.toBytes).length := by
      obtain ⟨m, hm, -⟩ := hf
      have hp := List.length_pos_of_mem hm
      have h6 : s.messages.length = 6 := rfl
      rw [List.length_append, List.length_map, h6]
      omega
    rw [if_pos hf, hm, guard, if_pos ⟨hfin, hl⟩]
    rfl
  case neg =>
    have hfin : groups.flatten.any (·.msgType == 20) = false :=
      Bool.eq_false_iff.mpr (hf ∘ any_finished_iff.mp)
    rw [if_neg hf, hfin]
    simp

end Session

-- The session goes on with the records `out` of the client.
def answeringSession (enc : Gcm.Seal) (key : Arr 16) (iv : Arr 12)
    (groups : List (List HandshakeMsg)) (out : List RawRecord) : Session where
  __  := sampleSession enc key iv groups
  out := (sampleSession enc key iv groups).out ++ out

theorem answeringSession_standard (hg : Gcm.Correct enc gcm)
    (hgs : groups.flatten = sampleFlight.messages) (hn : ∀ g ∈ groups, g ≠ [])
    (hf : Guest.Fit out) : (answeringSession enc key iv groups out).Standard enc key iv :=
  have h := sampleSession_standard hg hgs hn
  {
    out    := List.forall_mem_append.mpr ⟨h.out, hf⟩
    inp    := h.inp
    client := rfl
    server := h.server
    fits   := h.fits
    groups := h.groups
    sealed := h.sealed
  }

def sampleClientKeys : Arr 16 × Arr 12 :=
  Notary.referenceClientHsKeys (fun _ _ => 0) 0
    ((sampleSession (fun _ _ _ _ => ([], 0)) 0 0 []).afterSh fun _ _ => 0)

-- An empty certificate list and a Finished message.
def sampleAnswer : List (List HandshakeMsg) :=
  [[{ msgType := 11, body := [0, 0, 0, 0] }], [{ msgType := 20, body := [1] }]]

theorem clientFinished_agrees_of_sample :
    let enc := Gcm.encrypt (fun _ _ => 0) (fun _ _ => 0)
    let out := Tls.flight enc sampleClientKeys.1 sampleClientKeys.2 0 sampleAnswer ++ sampleLater
    let s := answeringSession enc sampleKeys.1 sampleKeys.2 [sampleFlight.messages] out
    Notary.transcriptAfterClientFinished (fun _ _ => 0)
        (Gcm.decrypt (fun _ _ => 0) (fun _ _ => 0)) s.rawOutbound s.rawInbound 0 =
      if ∃ m ∈ sampleAnswer.flatten, m.msgType = 20 then
        some <| Sha256.digest (fun _ _ => 0) <|
          (s.messages ++ sampleAnswer.flatten.map HandshakeMsg.toBytes).flatten
      else
        none := by
  intro enc out s
  have hf : Guest.Fit out := List.forall_mem_append.mpr
    ⟨fit_flight Gcm.encrypt_correct 0 (by decide), by decide⟩
  have hs : s.Answers enc sampleClientKeys.1 sampleClientKeys.2 sampleAnswer sampleLater := {
    fits   := by decide
    before := by decide
    sealed := by
      change List.filter _ (_ ++ (_ ++ _)) = _
      rw [List.filter_append, List.filter_append, flight_eq_fragments, filter_fragments]
      rfl
    rest   := .inl (by decide)
  }
  exact Session.clientFinished_agrees Gcm.encrypt_correct rfl rfl
    (answeringSession_standard Gcm.encrypt_correct rfl (by decide) hf) hs

end Agreement
