import NotaryModel.Agreement.Session

open Tls

namespace Agreement

-- The records of a server whose flight consists of the messages in `gs`, each group in a record of
-- its own.
structure Inbound (enc : Gcm.Seal) (key : Arr 16) (iv : Arr 12) (serverHello : Option RawRecord)
    (gs : List (List HandshakeMsg)) (later inp : List RawRecord) : Prop where
  fit    : Guest.Fit inp
  hello  : inp.find? (·.contentType == 22) = serverHello
  sealed : inp.filter (·.contentType == 23) = flight enc key iv 0 gs ++ later

-- What may follow the flight. Records that are still read as part of the handshake are none.
structure Ends (msgs : List HandshakeMsg) (later : List RawRecord) : Prop where
  fits        : ∀ m ∈ msgs, m.Fits
  finished    : ∀ m ∈ msgs.dropLast, m.msgType ≠ 20
  later       : later = [] ∨ (∃ m ∈ msgs, m.msgType = 11) ∧ ∃ m ∈ msgs, m.msgType = 20

theorem not_finished_of_flatten {gs : List (List HandshakeMsg)} (hn : ∀ g ∈ gs, g ≠ [])
    (hf : ∀ m ∈ gs.flatten.dropLast, m.msgType ≠ 20) :
    ∀ g ∈ gs.dropLast, ∀ m ∈ g, m.msgType ≠ 20 := by
  intro g hg m hm
  have hne : gs.flatten ≠ [] :=
    List.ne_nil_of_mem (List.mem_flatten_of_mem (List.mem_of_mem_dropLast hg) hm)
  exact hf m (dropLast_of_flatten (List.dropLast_append_getLast hne).symm hn g hg m hm)

section

variable {enc : Gcm.Seal} {gcm : Gcm.Open} {key : Arr 16} {iv : Arr 12}
variable {gs gs' : List (List HandshakeMsg)} {later inp inp' : List RawRecord}

theorem Inbound.later_protected (h : Inbound enc key iv sh? gs later inp) :
    ∀ r ∈ later, r.contentType = 23 := by
  intro r hr
  have hm : r ∈ inp.filter (·.contentType == 23) := h.sealed ▸ List.mem_append_right _ hr
  simpa using List.of_mem_filter hm

theorem Inbound.parse_eq (h : Inbound enc key iv sh? gs later inp) :
    RawRecord.parse (inp.flatMap RawRecord.toBytes) = some inp := by
  simpa [RawRecord.parse] using RawRecord.parse_flatMap_append h.fit []

section

open Guest

-- The outcome by the messages alone.
theorem Inbound.finish_eq (hg : Gcm.Correct enc gcm) (h : Inbound enc key iv sh? gs later inp)
    (hn : ∀ g ∈ gs, g ≠ []) (he : Ends gs.flatten later) (hello sh : RawRecord) :
    inp.foldlM (main.handshakeRecord gcm key iv) (.start hello sh) >>= HsLoop.finish =
    gs.flatten.foldlM main.handshakeMessage (.start hello sh) >>= fun s => HsLoop.finish { s with
      encryptedAppRecords := s.encryptedAppRecords ++ later.map recordToBytes
    } := by
  rw [foldlM_handshakeRecord_filter, h.sealed, List.foldlM_append,
    foldlM_flight hg rfl rfl he.fits (not_finished_of_flatten hn he.finished)]
  cases hm : gs.flatten.foldlM main.handshakeMessage (.start hello sh)
  case error => rfl
  case ok s =>
    rcases he.later with rfl | ⟨_, hfin⟩
    case inl =>
      simp only [List.map_nil, List.append_nil]
      rfl
    case inr =>
      have hd : s.handshakeDone = true := by
        rw [foldlM_handshakeMessage_done hm, Bool.or_eq_true, List.any_eq_true]
        simp only [beq_iff_eq]
        exact .inr hfin
      simp only [Functor.map, Except.map, Exec.ok_bind]
      rw [foldlM_handshakeRecord_done (s := { s with hsSeq := .ofNat (0 + gs.length) })
        h.later_protected hd]
      rfl

theorem Inbound.handshake_eq (hg : Gcm.Correct enc gcm)
    (h : Inbound enc key iv sh? gs later inp) (h' : Inbound enc key iv sh? gs' later inp')
    (hn : ∀ g ∈ gs, g ≠ []) (hn' : ∀ g ∈ gs', g ≠ []) (he : Ends gs.flatten later)
    (hgs : gs.flatten = gs'.flatten) (rawOutbound : Bytes) :
    main.handshake gcm key iv rawOutbound (inp.flatMap RawRecord.toBytes) =
    main.handshake gcm key iv rawOutbound (inp'.flatMap RawRecord.toBytes) := by
  have hs (hello sh : RawRecord) := (h.finish_eq hg hn he hello sh).trans <|
    hgs ▸ (h'.finish_eq hg hn' (hgs ▸ he) hello sh).symm
  simp only [main.handshake, parseRecords, h.parse_eq, h'.parse_eq, h.hello, h'.hello,
    Exec.ok_bind, Exec.expect_some]
  exact bind_congr fun out => bind_congr fun ch => bind_congr fun sh => hs ch sh

end

section

open Notary

variable {compress : Arr 32 → Arr 64 → Arr 32}

theorem Inbound.transcriptAfterServerHello_eq
    (h : Inbound enc key iv sh? gs later inp) (h' : Inbound enc key iv sh? gs' later inp')
    (rawOutbound : Bytes) :
    transcriptAfterServerHello compress rawOutbound (inp.flatMap RawRecord.toBytes) =
    transcriptAfterServerHello compress rawOutbound (inp'.flatMap RawRecord.toBytes) := by
  simp [transcriptAfterServerHello, parseRecords, h.parse_eq, h'.parse_eq, h.hello, h'.hello]

theorem Inbound.foldlM_round_eq (hg : Gcm.Correct enc gcm)
    (h : Inbound enc key iv sh? gs later inp) (hn : ∀ g ∈ gs, g ≠ []) (he : Ends gs.flatten later)
    (messages : List Bytes) :
    inp.foldlM (transcriptAfterServerFinished.round gcm key iv) ⟨messages, 0, false⟩ =
    some {
      messages          := messages ++ gs.flatten.map HandshakeMsg.toBytes
      serverHsSeq       := .ofNat gs.length
      sawServerFinished := gs.flatten.any (·.msgType == 20)
    } := by
  rw [foldlM_round_filter, h.sealed, List.foldlM_append,
    foldlM_round_flight hg rfl rfl he.fits (not_finished_of_flatten hn he.finished), Nat.zero_add]
  rcases he.later with rfl | ⟨_, hfin⟩
  case inl => rfl
  case inr =>
    have hd : gs.flatten.any (·.msgType == 20) = true := by
      simp only [List.any_eq_true, beq_iff_eq]
      exact hfin
    exact foldlM_round_done later hd

theorem Inbound.transcriptAfterServerFinished_eq (hg : Gcm.Correct enc gcm)
    (h : Inbound enc key iv sh? gs later inp) (h' : Inbound enc key iv sh? gs' later inp')
    (hn : ∀ g ∈ gs, g ≠ []) (hn' : ∀ g ∈ gs', g ≠ []) (he : Ends gs.flatten later)
    (hgs : gs.flatten = gs'.flatten) (rawOutbound : Bytes)
    (hk : ∀ afterSh ∈
        transcriptAfterServerHello compress rawOutbound (inp.flatMap RawRecord.toBytes),
      referenceServerHsKeys compress ikm afterSh = (key, iv)) :
    transcriptAfterServerFinished compress gcm rawOutbound (inp.flatMap RawRecord.toBytes) ikm =
    transcriptAfterServerFinished compress gcm rawOutbound (inp'.flatMap RawRecord.toBytes) ikm := by
  simp only [transcriptAfterServerFinished, ←h.transcriptAfterServerHello_eq h', parseRecords,
    h.parse_eq, h'.parse_eq]
  cases hsh : transcriptAfterServerHello compress rawOutbound (inp.flatMap RawRecord.toBytes)
  case none => rfl
  case some afterSh =>
    simp only [hk afterSh hsh, h.foldlM_round_eq hg hn he, h'.foldlM_round_eq hg hn' (hgs ▸ he),
      ←hgs, h.hello, h'.hello, Option.bind_eq_bind, Option.bind_some]

theorem Inbound.search_eq (hg : Gcm.Correct enc gcm) (h : Inbound enc key iv sh? gs later inp)
    (he : Ends gs.flatten later) :
    certChainDersFromHandshake.search gcm key iv inp 0 =
    (gs.flatten.find? (·.msgType == 11)).bind fun m => parseCertMessage m.body := by
  rw [search_filter, h.sealed]
  refine (search_flight 0 hg key iv he.fits later).trans ?_
  cases hc : gs.flatten.find? (·.msgType == 11)
  case some m => rfl
  case none =>
    rcases he.later with rfl | ⟨⟨m, hm, ht⟩, _⟩
    case inl => rfl
    case inr => exact absurd ht (by simpa using List.find?_eq_none.mp hc m hm)

theorem Inbound.certChainDersFromHandshake_eq (hg : Gcm.Correct enc gcm)
    (h : Inbound enc key iv sh? gs later inp) (h' : Inbound enc key iv sh? gs' later inp')
    (he : Ends gs.flatten later) (hgs : gs.flatten = gs'.flatten) (rawOutbound : Bytes)
    (hk : ∀ afterSh ∈
        transcriptAfterServerHello compress rawOutbound (inp.flatMap RawRecord.toBytes),
      referenceServerHsKeys compress ikm afterSh = (key, iv)) :
    certChainDersFromHandshake compress gcm rawOutbound (inp.flatMap RawRecord.toBytes) ikm =
    certChainDersFromHandshake compress gcm rawOutbound (inp'.flatMap RawRecord.toBytes) ikm := by
  simp only [certChainDersFromHandshake, ←h.transcriptAfterServerHello_eq h', parseRecords,
    h.parse_eq, h'.parse_eq]
  cases hsh : transcriptAfterServerHello compress rawOutbound (inp.flatMap RawRecord.toBytes)
  case none => rfl
  case some afterSh =>
    simp only [hk afterSh hsh, h.search_eq hg he, h'.search_eq hg (hgs ▸ he), ←hgs,
      Option.bind_eq_bind, Option.bind_some]

end

-- Neither program sees how the messages are grouped in records.
theorem outcome_eq_of_flatten_eq {compress : Arr 32 → Arr 64 → Arr 32} (hg : Gcm.Correct enc gcm)
    (h : Inbound enc key iv sh? gs later inp) (h' : Inbound enc key iv sh? gs' later inp')
    (hn : ∀ g ∈ gs, g ≠ []) (hn' : ∀ g ∈ gs', g ≠ []) (hgs : gs.flatten = gs'.flatten)
    (he : Ends gs.flatten later) (rawOutbound : Bytes)
    (hk : ∀ afterSh ∈
        Notary.transcriptAfterServerHello compress rawOutbound (inp.flatMap RawRecord.toBytes),
      Notary.referenceServerHsKeys compress ikm afterSh = (key, iv)) :
    let rawInbound := inp.flatMap RawRecord.toBytes
    let rawInbound' := inp'.flatMap RawRecord.toBytes
    Guest.main.handshake gcm key iv rawOutbound rawInbound =
      Guest.main.handshake gcm key iv rawOutbound rawInbound' ∧
    Notary.transcriptAfterServerFinished compress gcm rawOutbound rawInbound ikm =
      Notary.transcriptAfterServerFinished compress gcm rawOutbound rawInbound' ikm ∧
    Notary.certChainDersFromHandshake compress gcm rawOutbound rawInbound ikm =
      Notary.certChainDersFromHandshake compress gcm rawOutbound rawInbound' ikm := by
  refine ⟨h.handshake_eq hg h' hn hn' he hgs rawOutbound, ?_, ?_⟩
  · exact h.transcriptAfterServerFinished_eq hg h' hn hn' he hgs rawOutbound hk
  · exact h.certChainDersFromHandshake_eq hg h' he hgs rawOutbound hk

end

theorem sampleSession_inbound (hg : Gcm.Correct enc gcm)
    (hgs : groups.flatten = sampleFlight.messages) (hn : ∀ g ∈ groups, g ≠ []) :
    Inbound enc key iv sampleHello.head? groups sampleLater (sampleSession enc key iv groups).inp where
  fit    := (sampleSession_standard hg hgs hn).inp
  hello  := rfl
  sealed := (sampleSession_standard hg hgs hn).sealed

theorem ends_sampleFlight : Ends sampleFlight.messages sampleLater where
  fits     := by
    simp [sampleFlight, ServerFlight.messages, HandshakeMsg.Fits]
    decide
  finished := by decide
  later    := .inr (by decide)

theorem outcome_eq_of_sample :
    let compress : Arr 32 → Arr 64 → Arr 32 := fun _ _ => 0
    let enc := Gcm.encrypt (fun _ _ => 0) (fun _ _ => 0)
    let gcm := Gcm.decrypt (fun _ _ => 0) (fun _ _ => 0)
    let groups := [sampleFlight.messages]
    let groups' := sampleFlight.messages.map fun m => [m]
    let s := sampleSession enc sampleKeys.1 sampleKeys.2 groups
    let s' := sampleSession enc sampleKeys.1 sampleKeys.2 groups'
    Guest.main.handshake gcm sampleKeys.1 sampleKeys.2 s.rawOutbound s.rawInbound =
      Guest.main.handshake gcm sampleKeys.1 sampleKeys.2 s.rawOutbound s'.rawInbound ∧
    Notary.transcriptAfterServerFinished compress gcm s.rawOutbound s.rawInbound 0 =
      Notary.transcriptAfterServerFinished compress gcm s.rawOutbound s'.rawInbound 0 ∧
    Notary.certChainDersFromHandshake compress gcm s.rawOutbound s.rawInbound 0 =
      Notary.certChainDersFromHandshake compress gcm s.rawOutbound s'.rawInbound 0 := by
  intro compress enc gcm groups groups' s s'
  have hg : Gcm.Correct enc gcm := Gcm.encrypt_correct
  have hn : ∀ g ∈ groups, g ≠ [] := by decide
  have hn' : ∀ g ∈ groups', g ≠ [] := by decide
  have h : Inbound enc sampleKeys.1 sampleKeys.2 sampleHello.head? groups sampleLater s.inp :=
    sampleSession_inbound hg rfl hn
  have h' : Inbound enc sampleKeys.1 sampleKeys.2 sampleHello.head? groups' sampleLater s'.inp :=
    sampleSession_inbound hg rfl hn'
  refine outcome_eq_of_flatten_eq hg h h' hn hn' rfl ends_sampleFlight s.rawOutbound
    fun afterSh hsh => ?_
  have hs : s.Standard enc sampleKeys.1 sampleKeys.2 := sampleSession_standard hg rfl hn
  have he : some (s.afterSh compress) = some afterSh :=
    (hs.transcriptAfterServerHello_eq compress).symm.trans hsh
  rw [←Option.some_inj.mp he]
  exact sampleKeys_eq ..

def sampleBytes : Bytes :=
  sampleFlight.messages.flatMap HandshakeMsg.toBytes

-- The first record ends after the header of the first message.
theorem handshake_cut_message (hg : Gcm.Correct enc gcm) (groups : List (List HandshakeMsg)) :
    let inp := sampleHello ++
      fragments enc key iv 0 [sampleBytes.take 4, sampleBytes.drop 4] ++ sampleLater
    Guest.main.handshake gcm key iv (sampleSession enc key iv groups).rawOutbound
      (inp.flatMap RawRecord.toBytes) = Exec.abort "parse HS messages failed" := by
  intro inp
  have hout : Guest.Fit (sampleSession enc key iv groups).out := by
    simp [sampleSession, Guest.Fit]
    decide
  have hinp : Guest.Fit inp := by
    have hh : ∀ r ∈ sampleHello, r.payload.length < 256 ^ 2 := by decide
    have hl : ∀ r ∈ sampleLater, r.payload.length < 256 ^ 2 := by decide
    have hf : Guest.Fit (fragments enc key iv 0 [sampleBytes.take 4, sampleBytes.drop 4]) :=
      fit_fragments hg 0 (by decide)
    exact List.forall_mem_append.mpr ⟨List.forall_mem_append.mpr ⟨hh, hf⟩, hl⟩
  have hp : Guest.parseHandshakeMessages (sampleBytes.take 4) =
      .error "truncated handshake body" := by
    rw [show sampleBytes.take 4 = [8, 0, 0, 2] by decide, Guest.parseHandshakeMessages]
    rfl
  have hf : inp.filter (·.contentType == 23) =
      fragments enc key iv 0 [sampleBytes.take 4, sampleBytes.drop 4] ++ sampleLater := by
    rw [List.filter_append, List.filter_append, filter_fragments]
    rfl
  exact Guest.handshake_malformed hg (Guest.parseRecords_flatMap hout)
    (Guest.parseRecords_flatMap hinp) rfl rfl hf hp

-- A message that is split over two records.
theorem not_outcome_eq_of_fragments :
    ¬∀ (compress : Arr 32 → Arr 64 → Arr 32) (enc : Gcm.Seal) (gcm : Gcm.Open) (key : Arr 16)
      (iv : Arr 12) (ikm : Arr 32) (rawOutbound : Bytes) (hello later : List RawRecord)
      (ps ps' : List Bytes),
      let rawInbound := (hello ++ fragments enc key iv 0 ps ++ later).flatMap RawRecord.toBytes
      let rawInbound' := (hello ++ fragments enc key iv 0 ps' ++ later).flatMap RawRecord.toBytes
      Gcm.Correct enc gcm → (∀ p ∈ ps, p ≠ []) → (∀ p ∈ ps', p ≠ []) → ps.flatten = ps'.flatten →
      (∀ r ∈ hello, r.contentType ≠ 23) →
      (∀ afterSh ∈ Notary.transcriptAfterServerHello compress rawOutbound rawInbound,
        Notary.referenceServerHsKeys compress ikm afterSh = (key, iv)) →
      Guest.main.handshake gcm key iv rawOutbound rawInbound =
        Guest.main.handshake gcm key iv rawOutbound rawInbound' ∧
      Notary.transcriptAfterServerFinished compress gcm rawOutbound rawInbound ikm =
        Notary.transcriptAfterServerFinished compress gcm rawOutbound rawInbound' ikm ∧
      Notary.certChainDersFromHandshake compress gcm rawOutbound rawInbound ikm =
        Notary.certChainDersFromHandshake compress gcm rawOutbound rawInbound' ikm := by
  intro h
  let compress : Arr 32 → Arr 64 → Arr 32 := fun _ _ => 0
  let enc := Gcm.encrypt (fun _ _ => 0) (fun _ _ => 0)
  have hg : Gcm.Correct enc (Gcm.decrypt (fun _ _ => 0) (fun _ _ => 0)) := Gcm.encrypt_correct
  let s := sampleSession enc sampleKeys.1 sampleKeys.2 [sampleFlight.messages]
  have hs : s.Standard enc sampleKeys.1 sampleKeys.2 := sampleSession_standard hg rfl (by decide)
  have ⟨he, _⟩ := h compress enc _ sampleKeys.1 sampleKeys.2 0 s.rawOutbound sampleHello sampleLater
    [sampleBytes] [sampleBytes.take 4, sampleBytes.drop 4] hg (by decide) (by decide) (by decide)
    (by decide) fun afterSh hsh => by
      have he : some (s.afterSh compress) = some afterSh :=
        (hs.transcriptAfterServerHello_eq compress).symm.trans hsh
      rw [←Option.some_inj.mp he]
      exact sampleKeys_eq ..
  rw [handshake_cut_message hg] at he
  exact nomatch (hs.handshake_eq hg).symm.trans he

end Agreement
