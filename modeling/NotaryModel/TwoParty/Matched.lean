import NotaryModel.TwoParty.Trace

-- What joint sessions compute: given the queries of both parties and the answer of the left one,
-- `respond` is the answer of the right one. Queries that do not belong together have none.
structure Functionality (I : Interface) where
  respond : (q q' : I.Query) → I.Answer q → Option (I.Answer q')

-- The answers of the left party, chosen by its randomness: one for each session of a run.
abbrev Masks (I : Interface) :=
  Nat → (q : I.Query) → I.Answer q

variable {I : Interface}

-- The left party's sessions from number `i` on get the answers that `m` chooses.
def Masks.Answers (m : Masks I) (i : Nat) : List ((q : I.Query) × I.Answer q) → Prop
  | []     => True
  | x :: s => x.2 = m i x.1 ∧ m.Answers (i + 1) s

namespace Masks.Answers

variable {m : Masks I} {i : Nat}

@[simp]
theorem nil_iff : m.Answers i [] ↔ True :=
  Iff.rfl

@[simp]
theorem cons_iff : m.Answers i (x :: s) ↔ x.2 = m i x.1 ∧ m.Answers (i + 1) s :=
  Iff.rfl

@[simp]
theorem append_iff : m.Answers i (s ++ s') ↔ m.Answers i s ∧ m.Answers (i + s.length) s' := by
  induction s generalizing i
  case nil         => simp
  case cons s _ hi => simp [hi, and_assoc, Nat.add_assoc, Nat.add_comm 1]

theorem flatMap_range_iff {f : Nat → (q : I.Query) × I.Answer q} :
    m.Answers i ((List.range n).flatMap fun j => [f j]) ↔
    ∀ j < n, (f j).2 = m (i + j) (f j).1 := by
  induction n
  case zero => simp
  case succ n hi =>
    rw [List.range_succ, List.flatMap_append, append_iff, hi, Nat.forall_lt_succ_right]
    simp [List.length_flatMap]

end Masks.Answers

theorem List.forall₂_append_iff {R : α → β → Prop} (h : l₁.length = l₁'.length) :
    Forall₂ R (l₁ ++ l₂) (l₁' ++ l₂') ↔ Forall₂ R l₁ l₁' ∧ Forall₂ R l₂ l₂' := by
  induction l₁ generalizing l₁' <;> cases l₁' <;> simp_all [and_assoc]

-- Each read gets what the peer wrote for the same step, and both parties take part in the same
-- sessions. How the operations of one party are ordered against those of the other plays no role.
@[mk_iff]
structure Matched (F : Functionality I) (es es' : List (Event I)) : Prop where
  toRight  : Event.writes es = Event.reads es'
  toLeft   : Event.reads es = Event.writes es'
  sessions : List.Forall₂ (fun s s' => F.respond s.1 s'.1 s.2 = some s'.2)
    (Event.sessions es) (Event.sessions es')

-- Events that can be matched as far as their numbers are concerned.
structure SameShape (es es' : List (Event I)) : Prop where
  toRight  : (Event.writes es).length = (Event.reads es').length
  toLeft   : (Event.reads es).length = (Event.writes es').length
  sessions : (Event.sessions es).length = (Event.sessions es').length

theorem SameShape.flatMap {E E' : ι → List (Event I)} {l : List ι} (h : ∀ i, SameShape (E i) (E' i)) :
    SameShape (l.flatMap E) (l.flatMap E') where
  toRight  := by simp [List.length_flatMap, fun i => (h i).toRight]
  toLeft   := by simp [List.length_flatMap, fun i => (h i).toLeft]
  sessions := by simp [List.length_flatMap, fun i => (h i).sessions]

namespace Matched

variable {F : Functionality I}

@[simp]
theorem nil_iff : Matched F [] [] ↔ True :=
  iff_true_intro ⟨rfl, rfl, .nil⟩

theorem session_iff : Matched F (.session q y :: es) (.session q' y' :: es') ↔
    F.respond q q' y = some y' ∧ Matched F es es' := by
  simp only [matched_iff, Event.writes_session, Event.reads_session, Event.sessions_session,
    List.forall₂_cons]
  tauto

@[simp]
theorem write_iff : Matched F (.write l bs :: es) (.read l' bs' :: es') ↔
    (l = l' ∧ bs = bs') ∧ Matched F es es' := by
  simp [matched_iff, and_assoc]

theorem append_iff (h : SameShape es₁ es₁') :
    Matched F (es₁ ++ es₂) (es₁' ++ es₂') ↔ Matched F es₁ es₁' ∧ Matched F es₂ es₂' := by
  constructor
  · rintro ⟨hr, hl, hs⟩
    simp only [Event.writes_append, Event.reads_append, Event.sessions_append] at hr hl hs
    have ⟨hr₁, hr₂⟩ := List.append_inj hr h.toRight
    have ⟨hl₁, hl₂⟩ := List.append_inj hl h.toLeft
    have ⟨hs₁, hs₂⟩ := List.forall₂_append_iff h.sessions |>.mp hs
    exact ⟨⟨hr₁, hl₁, hs₁⟩, hr₂, hl₂, hs₂⟩
  · rintro ⟨⟨hr₁, hl₁, hs₁⟩, hr₂, hl₂, hs₂⟩
    exact ⟨by simp [hr₁, hr₂], by simp [hl₁, hl₂],
      by simpa using List.forall₂_append_iff h.sessions |>.mpr ⟨hs₁, hs₂⟩⟩

-- Two loops are matched if their rounds are.
theorem flatMap_range_iff {E E' : Nat → List (Event I)} (h : ∀ i, SameShape (E i) (E' i)) :
    Matched F ((List.range n).flatMap E) ((List.range n).flatMap E') ↔
    ∀ i < n, Matched F (E i) (E' i) := by
  induction n
  case zero => simp
  case succ n hi =>
    rw [List.range_succ, List.flatMap_append, List.flatMap_append, append_iff (.flatMap h), hi,
      Nat.forall_lt_succ_right]
    simp

end Matched

-- A run of two parties against each other in which the left one's randomness is `m`.
@[mk_iff]
structure MatchedRun (F : Functionality I) (m : Masks I) (p : Prog I α) (q : Prog I β)
    (r : Except I.Err α) (r' : Except I.Err β) : Prop where
  exists_events : ∃ es es',
    Run False p es r ∧ Run False q es' r' ∧ Matched F es es' ∧ m.Answers 0 (Event.sessions es)
