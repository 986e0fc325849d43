import NotaryModel.Notary.Handover

namespace Notary

def Fit (rs : List RawRecord) : Prop :=
  ∀ r ∈ rs, r.payload.length < 256 ^ 2

instance : DecidablePred Fit :=
  fun rs => inferInstanceAs (Decidable (∀ r ∈ rs, r.payload.length < 256 ^ 2))

variable {r : RawRecord} {rs : List RawRecord}

-- How many records are whole in the first `n` bytes.
def wholeRecords : List RawRecord → Nat → Nat
  | [], _      => 0
  | r :: rs, n => if r.toBytes.length ≤ n then wholeRecords rs (n - r.toBytes.length) + 1 else 0

theorem deframe_cons (h : ¬bytes.length < Bytes.ofBe [l₀, l₁]) :
    deframe (ct :: v₀ :: v₁ :: l₀ :: l₁ :: bytes) =
    (⟨ct, .ofNat (Bytes.ofBe [v₀, v₁]), bytes.take (Bytes.ofBe [l₀, l₁])⟩ ::
      (deframe (bytes.drop (Bytes.ofBe [l₀, l₁]))).1,
      (deframe (bytes.drop (Bytes.ofBe [l₀, l₁]))).2) := by
  rw [deframe, if_neg h]

theorem deframe_incomplete (h : bytes.length < Bytes.ofBe [l₀, l₁]) :
    deframe (ct :: v₀ :: v₁ :: l₀ :: l₁ :: bytes) =
    ([], ct :: v₀ :: v₁ :: l₀ :: l₁ :: bytes) := by
  rw [deframe, if_pos h]

theorem deframe_short (h : bytes.length < 5) : deframe bytes = ([], bytes) := by
  rw [deframe]
  rintro _ _ _ _ _ _ rfl
  simp only [List.length_cons] at h
  omega

-- It makes no difference how the bytes are cut.
theorem deframe_append (a b : Bytes) : deframe (a ++ b) =
    ((deframe a).1 ++ (deframe ((deframe a).2 ++ b)).1, (deframe ((deframe a).2 ++ b)).2) := by
  induction a using RawRecord.parse.induct
  case case1 ct v₀ v₁ l₀ l₁ bytes len h =>
    rw [deframe_incomplete h]
    rfl
  case case2 ct v₀ v₁ l₀ l₁ bytes len h hi =>
    have hl : Bytes.ofBe [l₀, l₁] ≤ bytes.length := Nat.not_lt.mp h
    have hb : ¬(bytes ++ b).length < Bytes.ofBe [l₀, l₁] := by
      rw [List.length_append]
      omega
    simp only [List.cons_append]
    rw [deframe_cons hb, deframe_cons h, List.take_append_of_le_length hl,
      List.drop_append_of_le_length hl, hi]
    rfl
  case case3 bytes h =>
    have hd : deframe bytes = ([], bytes) := by
      rw [deframe]
      exact h
    rw [hd]
    rfl

theorem toBytes_eq (h : r.payload.length < 256 ^ 2) : ∃ v₀ v₁ l₀ l₁,
    r.toBytes = r.contentType :: v₀ :: v₁ :: l₀ :: l₁ :: r.payload ∧
    Bytes.ofBe [l₀, l₁] = r.payload.length ∧
      UInt16.ofNat (Bytes.ofBe [v₀, v₁]) = r.legacyVersion := by
  have ⟨v₀, v₁, hv⟩ := RawRecord.be_two_eq r.legacyVersion.toNat
  have ⟨l₀, l₁, hl⟩ := RawRecord.be_two_eq r.payload.length
  refine ⟨v₀, v₁, l₀, l₁, ?_, hl ▸ Bytes.ofBe_be_of_lt h, ?_⟩
  · simp [RawRecord.toBytes, hv, hl]
  · rw [←hv, Bytes.ofBe_be_of_lt r.legacyVersion.toNat_lt, UInt16.ofNat_toNat]

theorem toBytes_pos (r : RawRecord) : 0 < r.toBytes.length := by
  simp only [RawRecord.toBytes, List.cons_append, List.length_cons]
  exact Nat.succ_pos _

theorem deframe_toBytes_append (h : r.payload.length < 256 ^ 2) (bytes : Bytes) :
    deframe (r.toBytes ++ bytes) = (r :: (deframe bytes).1, (deframe bytes).2) := by
  have ⟨v₀, v₁, l₀, l₁, hr, hl, hv⟩ := toBytes_eq h
  have hb : ¬(r.payload ++ bytes).length < Bytes.ofBe [l₀, l₁] := by
    rw [hl, List.length_append]
    omega
  rw [hr]
  simp only [List.cons_append]
  rw [deframe_cons hb, hl, hv, List.take_left, List.drop_left]

theorem deframe_cut (h : r.payload.length < 256 ^ 2) (hn : n < r.toBytes.length) :
    (deframe ((r.toBytes ++ bytes).take n)).1 = [] := by
  have ⟨v₀, v₁, l₀, l₁, hr, hl, _⟩ := toBytes_eq h
  rw [List.take_append_of_le_length (Nat.le_of_lt hn)]
  by_cases h₅ : n < 5
  · rw [deframe_short (by rw [List.length_take]; omega)]
  · obtain ⟨k, rfl⟩ := Nat.exists_eq_add_of_le (Nat.not_lt.mp h₅)
    rw [hr] at hn ⊢
    simp only [List.length_cons] at hn
    have ht : (r.contentType :: v₀ :: v₁ :: l₀ :: l₁ :: r.payload).take (5 + k) =
        r.contentType :: v₀ :: v₁ :: l₀ :: l₁ :: r.payload.take k := by
      rw [Nat.add_comm]
      rfl
    rw [ht, deframe_incomplete (by rw [hl, List.length_take]; omega)]

theorem deframe_take (h : Fit rs) : (deframe ((rs.flatMap RawRecord.toBytes).take n)).1 =
    rs.take (wholeRecords rs n) := by
  induction rs generalizing n
  case nil =>
    rw [List.flatMap_nil, List.take_nil, deframe_short (by decide)]
    rfl
  case cons r rs hi =>
    rw [Fit, List.forall_mem_cons] at h
    rw [List.flatMap_cons, wholeRecords]
    by_cases hn : r.toBytes.length ≤ n
    · rw [if_pos hn, List.take_append, List.take_of_length_le hn, deframe_toBytes_append h.1,
        hi h.2]
      rfl
    · rw [if_neg hn, deframe_cut h.1 (Nat.not_le.mp hn)]
      rfl

theorem wholeRecords_le (rs : List RawRecord) (n : Nat) : wholeRecords rs n ≤ rs.length := by
  induction rs generalizing n
  case nil => exact le_rfl
  case cons r rs hi =>
    rw [wholeRecords, List.length_cons]
    split
    case isTrue  => exact Nat.succ_le_succ (hi _)
    case isFalse => exact Nat.zero_le _

theorem le_wholeRecords_iff {rs rs' : List RawRecord} :
    rs.length ≤ wholeRecords (rs ++ rs') n ↔ (rs.flatMap RawRecord.toBytes).length ≤ n := by
  induction rs generalizing n
  case nil => simp
  case cons r rs hi =>
    rw [List.cons_append, wholeRecords, List.flatMap_cons, List.length_append, List.length_cons]
    split
    case isTrue h =>
      rw [Nat.add_le_add_iff_right, hi]
      omega
    case isFalse h =>
      exact iff_of_false (by omega) (by omega)

section

variable {T : Rustls} {c : CapturingStream T} {hs later : List RawRecord} {pieces : List Bytes}
  {inTime : Bool}

-- What the connection holds is told by the bytes that it has read.
def CapturingStream.Sound (c : CapturingStream T) : Prop :=
  T.opened c.tls = (deframe c.inbound).1 ∧ T.buffer c.tls = (deframe c.inbound).2

theorem CapturingStream.Sound.new (h : T.Consumes n) : (new : CapturingStream T).Sound := by
  have hd : deframe [] = ([], []) := deframe_short (by decide)
  exact ⟨h.opened_new.trans (congrArg Prod.fst hd).symm,
    h.buffer_new.trans (congrArg Prod.snd hd).symm⟩

theorem CapturingStream.Sound.read (h : c.Sound) (hT : T.Consumes n) (piece : Bytes) :
    (c.read piece).Sound := by
  have ha := deframe_append c.inbound piece
  rw [←h.1, ←h.2] at ha
  constructor
  · simp only [CapturingStream.read, hT.opened_process, hT.opened_readTls, hT.buffer_readTls, ha]
  · simp only [CapturingStream.read, hT.buffer_process, hT.buffer_readTls, ha]

theorem CapturingStream.Sound.process (h : c.Sound) (hT : T.Consumes n) :
    CapturingStream.Sound { c with tls := T.processNewPackets c.tls } := by
  have ha := deframe_append c.inbound []
  rw [List.append_nil, List.append_nil, ←h.1, ←h.2] at ha
  constructor
  · simp only [hT.opened_process, ha]
  · simp only [hT.buffer_process, ha]

theorem CapturingStream.Sound.opened_length (h : c.Sound) (hf : Fit rs)
    (hi : c.inbound <+: rs.flatMap RawRecord.toBytes) :
    (T.opened c.tls).length = wholeRecords rs c.inbound.length := by
  have ht := deframe_take (n := c.inbound.length) hf
  rw [←List.prefix_iff_eq_take.mp hi] at ht
  rw [h.1, ht, List.length_take]
  exact Nat.min_eq_left (wholeRecords_le _ _)

-- The pieces that are read before the demos take over, by their lengths alone: those that bring
-- what the handshake still needs, and one more when it is in time.
def piecesRead (need : Nat) (inTime : Bool) : List Bytes → List Bytes
  | []              => []
  | piece :: pieces =>
    if 0 < need then
      piece :: piecesRead (need - piece.length) inTime pieces
    else if inTime then
      [piece]
    else
      []

theorem piecesRead_initial (need : Nat) (inTime : Bool) (pieces : List Bytes) :
    (piecesRead need inTime pieces).flatten <+: pieces.flatten := by
  fun_induction piecesRead need inTime pieces
  case case1                       => exact List.nil_prefix
  case case2 need piece pieces _ hi =>
    rw [List.flatten_cons, List.flatten_cons]
    exact (List.prefix_append_right_inj piece).mpr hi
  case case3 => simp
  case case4 => exact List.nil_prefix

theorem le_piecesRead (h : need ≤ pieces.flatten.length) :
    need ≤ (piecesRead need inTime pieces).flatten.length := by
  fun_induction piecesRead need inTime pieces
  case case1 => exact h
  case case2 need piece pieces _ hi =>
    rw [List.flatten_cons, List.length_append] at h ⊢
    have := hi (by omega)
    omega
  case case3 => omega
  case case4 => omega

theorem drain_handshakeLoop (h : c.Sound) (hT : T.Consumes hs.length) (hf : Fit (hs ++ later))
    (hp : c.inbound ++ pieces.flatten <+: (hs ++ later).flatMap RawRecord.toBytes) :
    let c' := CapturingStream.drain inTime (c.handshakeLoop pieces)
    let need := (hs.flatMap RawRecord.toBytes).length - c.inbound.length
    c'.Sound ∧ c'.inbound = c.inbound ++ (piecesRead need inTime pieces).flatten := by
  induction pieces generalizing c
  case nil => exact ⟨h.process hT, (List.append_nil _).symm⟩
  case cons piece pieces hi =>
    have ho := h.opened_length hf ((List.prefix_append _ _).trans hp)
    have hn : (T.opened c.tls).length < hs.length ↔
        0 < (hs.flatMap RawRecord.toBytes).length - c.inbound.length := by
      have := @le_wholeRecords_iff c.inbound.length hs later
      omega
    simp only [CapturingStream.handshakeLoop, hT.isHandshaking, piecesRead, decide_eq_true_eq, hn]
    rw [List.flatten_cons, ←List.append_assoc] at hp
    split
    case isTrue =>
      have ⟨hs, he⟩ := hi (h.read hT piece) hp
      refine ⟨hs, he.trans ?_⟩
      rw [List.flatten_cons, ←List.append_assoc, Nat.sub_sub, ←List.length_append]
      rfl
    case isFalse =>
      cases inTime
      case false => exact ⟨h.process hT, (List.append_nil _).symm⟩
      case true  => exact ⟨h.read hT piece, congrArg (c.inbound ++ ·) (List.append_nil _).symm⟩

-- The socket is at a record's first byte, all before it is whole records, and the receive counter is
-- the number of records that are opened under the application key.
def Handover.LosesNothing (h : Handover) (rs : List RawRecord) (opened : Nat) : Prop :=
  (∃ k, h.rawInbound = (rs.take k).flatMap RawRecord.toBytes ∧
    h.tcp = (rs.drop k).flatMap RawRecord.toBytes) ∧
  h.rxSeq = opened

theorem eq_records_iff {bytes : Bytes} (h : bytes <+: rs.flatMap RawRecord.toBytes) :
    (bytes = (rs.take k).flatMap RawRecord.toBytes ∧
      (rs.flatMap RawRecord.toBytes).drop bytes.length =
        (rs.drop k).flatMap RawRecord.toBytes) ↔
    bytes.length = ((rs.take k).flatMap RawRecord.toBytes).length := by
  have hs : rs.flatMap RawRecord.toBytes =
      (rs.take k).flatMap RawRecord.toBytes ++ (rs.drop k).flatMap RawRecord.toBytes := by
    rw [←List.flatMap_append, List.take_append_drop]
  constructor
  case mp  => exact fun h => congrArg List.length h.1
  case mpr =>
    intro hl
    have hb : bytes = (rs.take k).flatMap RawRecord.toBytes := by
      rw [List.prefix_iff_eq_take.mp h, hl, hs, List.take_left]
    exact ⟨hb, by rw [hl, hs, List.drop_left]⟩

theorem wholeRecords_handshake : wholeRecords (hs ++ later)
    (hs.flatMap RawRecord.toBytes).length = hs.length := by
  refine Nat.le_antisymm (Nat.le_of_not_lt fun h => ?_) (le_wholeRecords_iff.mpr le_rfl)
  cases later
  case nil =>
    have := wholeRecords_le (hs ++ []) (hs.flatMap RawRecord.toBytes).length
    rw [List.append_nil] at this h
    omega
  case cons r later =>
    have hr := @le_wholeRecords_iff (hs.flatMap RawRecord.toBytes).length (hs ++ [r]) later
    rw [List.append_assoc, List.singleton_append, List.length_append, List.length_singleton] at hr
    have hl := hr.mp h
    have := toBytes_pos r
    simp only [List.flatMap_append, List.length_append, List.flatMap_singleton] at hl
    omega

-- The records up to a boundary that no record after the handshake's is opened at.
theorem eq_handshake_of_boundary
    (hn : (hs.flatMap RawRecord.toBytes).length ≤ n)
    (hk : n = (((hs ++ later).take k).flatMap RawRecord.toBytes).length)
    (ho : wholeRecords (hs ++ later) n ≤ hs.length) :
    n = (hs.flatMap RawRecord.toBytes).length := by
  refine Nat.le_antisymm ?_ hn
  have hw : ((hs ++ later).take k).length ≤ wholeRecords (hs ++ later) n := by
    have := @le_wholeRecords_iff n ((hs ++ later).take k) ((hs ++ later).drop k)
    rw [List.take_append_drop] at this
    exact this.mpr hk.ge
  have ht : (hs ++ later).take k <+: hs :=
    List.prefix_of_prefix_length_le (List.take_prefix _ _) (List.prefix_append _ _) (hw.trans ho)
  have ⟨t, ht⟩ := ht
  have hl := congrArg (fun rs : List RawRecord => (rs.flatMap RawRecord.toBytes).length) ht
  simp only [List.flatMap_append, List.length_append] at hl
  omega

theorem handover_losesNothing_iff (hT : T.Consumes hs.length) (hf : Fit (hs ++ later))
    (hp : pieces.flatten <+: (hs ++ later).flatMap RawRecord.toBytes)
    (hh : (hs.flatMap RawRecord.toBytes).length ≤ pieces.flatten.length) :
    let stream := (hs ++ later).flatMap RawRecord.toBytes
    let need := (hs.flatMap RawRecord.toBytes).length
    let read := (piecesRead need inTime pieces).flatten.length
    let opened := (T.opened (connected T pieces inTime).tls).length - hs.length
    ((runLegacyDemo.handover T stream pieces inTime).LosesNothing (hs ++ later) opened ↔
      ∃ k, read = (((hs ++ later).take k).flatMap RawRecord.toBytes).length) ∧
    ((runTwoPcTrafficDemo.handover T stream pieces inTime).LosesNothing
      (hs ++ later) opened ↔ read = need) := by
  intro stream need read opened
  have ⟨hc, hi⟩ := @drain_handshakeLoop _ _ _ _ _ inTime (.new hT) hT hf hp
  have hr : (connected T pieces inTime).inbound =
      (piecesRead need inTime pieces).flatten := hi
  have hpre := (piecesRead_initial need inTime pieces).trans hp
  have hn : need ≤ read := le_piecesRead hh
  have hl : (T.opened (connected T pieces inTime).tls).length =
      wholeRecords (hs ++ later) read := by
    have := hc.opened_length hf (hi ▸ hpre)
    rwa [hi] at this
  have hb (k : Nat) := eq_records_iff (k := k) hpre
  simp only [Handover.LosesNothing, runLegacyDemo.handover, runTwoPcTrafficDemo.handover, hr,
    hT.rxSeq]
  constructor
  case left =>
    constructor
    case mp  => exact fun ⟨⟨k, h⟩, _⟩ => ⟨k, (hb k).mp h⟩
    case mpr => exact fun ⟨k, h⟩ => ⟨⟨k, (hb k).mpr h⟩, rfl⟩
  case right =>
    constructor
    case mp =>
      intro ⟨⟨k, h⟩, hz⟩
      exact eq_handshake_of_boundary hn ((hb k).mp h) (by omega)
    case mpr =>
      intro h
      have hk : ((hs ++ later).take hs.length).flatMap RawRecord.toBytes =
          hs.flatMap RawRecord.toBytes := by
        rw [List.take_left]
      refine ⟨⟨hs.length, (hb _).mpr (hk.symm ▸ h)⟩, ?_⟩
      have hw : wholeRecords (hs ++ later) read = hs.length := h ▸ wholeRecords_handshake
      omega

-- A connection that holds just what it has to.
structure TlsConn where
  buffer : Bytes
  opened : List RawRecord

def TlsConn.rustls (handshake : Nat) : Rustls where
  Conn                := TlsConn
  new                 := ⟨[], []⟩
  readTls c piece     := { c with buffer := c.buffer ++ piece }
  processNewPackets c := ⟨(deframe c.buffer).2, c.opened ++ (deframe c.buffer).1⟩
  isHandshaking c     := c.opened.length < handshake
  rxSeq c             := c.opened.length - handshake
  opened              := TlsConn.opened
  buffer              := TlsConn.buffer

theorem TlsConn.rustls_consumes (n : Nat) : (rustls n).Consumes n :=
  ⟨rfl, rfl, rfl, rfl, rfl, rfl, rfl, rfl⟩

theorem handover_losesNothing_iff_of_ticket :
    let hs : List RawRecord := [⟨22, 0x0303, [2]⟩]
    let later : List RawRecord := [⟨23, 0x0303, [4]⟩]
    let T := TlsConn.rustls hs.length
    let stream := (hs ++ later).flatMap RawRecord.toBytes
    let pieces := [hs.flatMap RawRecord.toBytes, later.flatMap RawRecord.toBytes]
    let need := (hs.flatMap RawRecord.toBytes).length
    let read := (piecesRead need true pieces).flatten.length
    let opened := (T.opened (connected T pieces true).tls).length - hs.length
    ((runLegacyDemo.handover T stream pieces true).LosesNothing (hs ++ later) opened ↔
      ∃ k, read = (((hs ++ later).take k).flatMap RawRecord.toBytes).length) ∧
    ((runTwoPcTrafficDemo.handover T stream pieces true).LosesNothing
      (hs ++ later) opened ↔ read = need) :=
  handover_losesNothing_iff (TlsConn.rustls_consumes 1) (by decide) (by decide) (by decide)

-- A ticket that arrives in the drain is opened by the library, and the counter starts at zero.
theorem not_handover_losesNothing : ¬∀ (T : Rustls) (hs later : List RawRecord)
    (pieces : List Bytes) (inTime),
    T.Consumes hs.length →
    Fit (hs ++ later) →
    pieces.flatten = (hs ++ later).flatMap RawRecord.toBytes →
    (hs.flatMap RawRecord.toBytes).length ≤ pieces.flatten.length →
    let stream := (hs ++ later).flatMap RawRecord.toBytes
    let opened := (T.opened (connected T pieces inTime).tls).length - hs.length
    (runLegacyDemo.handover T stream pieces inTime).LosesNothing (hs ++ later) opened ∧
    (runTwoPcTrafficDemo.handover T stream pieces inTime).LosesNothing
      (hs ++ later) opened := by
  intro h
  have ⟨_, _, h⟩ := h (TlsConn.rustls 1) [⟨22, 0x0303, [2]⟩] [⟨23, 0x0303, [4]⟩]
    [[22, 3, 3, 0, 1, 2], [23, 3, 3, 0, 1, 4]] true (TlsConn.rustls_consumes 1) (by decide)
    (by decide) (by decide)
  have ho : (connected (TlsConn.rustls 1)
      [[22, 3, 3, 0, 1, 2], [23, 3, 3, 0, 1, 4]] true).tls.opened.length = 2 := by
    simp [connected, CapturingStream.handshakeLoop, CapturingStream.drain, CapturingStream.read,
      CapturingStream.new, TlsConn.rustls, deframe, Bytes.ofBe]
  exact absurd (h.trans (congrArg (· - 1) ho)) (by decide)

end

end Notary
