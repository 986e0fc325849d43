import NotaryModel.Notary.Theorems.ServerKey
import NotaryModel.TwoParty.Stream

namespace Notary

variable {answer : (q : Query) → q.Answer} {cap : HandshakeCapture}

-- What the writer sends for a capture.
def HandshakeCapture.wire (cap : HandshakeCapture) : Bytes :=
  cap.reads.flatMap (·.2)

-- The writer sees a direction that is longer than the limit.
def HandshakeCapture.Refused (cap : HandshakeCapture) : Prop :=
  asU32 cap.outbound.length > maxHandshakeBytes ∨ asU32 cap.inbound.length > maxHandshakeBytes

def HandshakeCapture.Long (cap : HandshakeCapture) : Prop :=
  cap.outbound.length > maxHandshakeBytes ∨ cap.inbound.length > maxHandshakeBytes

theorem write_feed_of_refused (h : cap.Refused) (s : Bytes) :
    ∃ e, (writeHandshakeCapture cap).feed answer s = ⟨.error e, s, []⟩ := by
  unfold HandshakeCapture.Refused at h
  unfold writeHandshakeCapture
  rw [if_pos h]
  exact ⟨_, rfl⟩

theorem write_feed (h : ¬cap.Refused) (s : Bytes) :
    (writeHandshakeCapture cap).feed answer s = ⟨.ok (), s, cap.wire⟩ := by
  unfold HandshakeCapture.Refused at h
  unfold writeHandshakeCapture
  rw [if_neg h]
  rfl

-- A capture of which both directions are within the limit is read back, and nothing more is read.
theorem read_feed (h : ¬cap.Long) (rest : Bytes) :
    readHandshakeCapture.feed answer (cap.wire ++ rest) = ⟨.ok cap, rest, []⟩ := by
  obtain ⟨ho, hi⟩ := not_or.mp h
  let es : List (Event wrk17) := cap.reads.map fun x => .read x.1 x.2
  have hr : Run False readHandshakeCapture es (.ok cap) :=
    readHandshakeCapture_run cap (Nat.not_lt.mp ho) (Nat.not_lt.mp hi)
  have ha : ∀ x ∈ Event.sessions es, x.2 = answer x.1 := by
    simp [es, HandshakeCapture.reads]
  have hf := Prog.feed_of_run hr ha rest
  simpa [es, HandshakeCapture.wire, HandshakeCapture.reads] using hf

section

variable (answer) (cap) (rest : Bytes)

-- The writer fails before it has written anything, or the reader gets the capture and leaves what
-- follows it on the stream.
def HandshakeCapture.Travels : Prop :=
  let w := (writeHandshakeCapture cap).feed answer []
  ((∃ e, w.result = .error e) ∧ w.written = []) ∨
  (w.result = .ok () ∧ readHandshakeCapture.feed answer (w.written ++ rest) = ⟨.ok cap, rest, []⟩)

-- Every capture that is longer than the limit makes the writer fail.
def HandshakeCapture.Limited : Prop :=
  cap.Long → ∃ e, ((writeHandshakeCapture cap).feed answer []).result = .error e

-- The writer compares the lengths modulo `2 ^ 32`. What is meant holds unless a direction is longer
-- than the limit and neither of them is in that comparison.
theorem capture_travels_iff : cap.Travels answer rest ∧ cap.Limited answer ↔
    (cap.Long → cap.Refused) := by
  by_cases hr : cap.Refused
  case pos =>
    have ⟨e, he⟩ : ∃ e, (writeHandshakeCapture cap).feed answer [] = ⟨.error e, [], []⟩ :=
      write_feed_of_refused hr []
    refine iff_of_true ⟨.inl ?_, fun _ => ?_⟩ fun _ => hr
    · rw [he]
      exact ⟨⟨e, rfl⟩, rfl⟩
    · rw [he]
      exact ⟨e, rfl⟩
  case neg =>
    have hw : (writeHandshakeCapture cap).feed answer [] = ⟨.ok (), [], cap.wire⟩ :=
      write_feed hr []
    constructor
    · rintro ⟨-, hl⟩ h
      obtain ⟨e, he⟩ := hl h
      rw [hw] at he
      cases he
    · intro h
      have hl : ¬cap.Long := fun hl => hr (h hl)
      refine ⟨.inr ?_, fun hl' => absurd hl' hl⟩
      rw [hw]
      exact ⟨rfl, read_feed hl rest⟩

end

def zeroCapture (n : Nat) : HandshakeCapture :=
  ⟨0, 0, .replicate n 0, []⟩

-- An outbound direction of 4 GiB has length 0 modulo `2 ^ 32`.
theorem not_capture_travels : ¬∀ (answer : (q : Query) → q.Answer) (cap : HandshakeCapture)
    (rest : Bytes), cap.Travels answer rest ∧ cap.Limited answer := by
  intro h
  obtain ⟨n, hn⟩ : ∃ n, n = 2 ^ 32 := ⟨_, rfl⟩
  have hr : ¬(zeroCapture n).Refused := by
    rw [HandshakeCapture.Refused, zeroCapture, List.length_replicate, hn]
    decide
  have hl : (zeroCapture n).Long := by
    rw [HandshakeCapture.Long, zeroCapture, List.length_replicate, hn]
    decide
  obtain ⟨e, he⟩ := (h ((default : Masks wrk17) 0) (zeroCapture n) []).right hl
  rw [write_feed hr] at he
  cases he

end Notary
