import NotaryModel.TwoParty.Prog

-- What one party sees of a run of its program.
inductive Event (I : Interface)
  | write (l : I.Label) (bs : Bytes)
  | read (l : I.Label) (bs : Bytes)
  | closed (l : I.Label)
  | session (q : I.Query) (y : I.Answer q)

namespace Event

variable {I : Interface}

def writes (es : List (Event I)) : List (I.Label × Bytes) :=
  es.filterMap fun
    | write l bs => some (l, bs)
    | _          => none

def reads (es : List (Event I)) : List (I.Label × Bytes) :=
  es.filterMap fun
    | read l bs => some (l, bs)
    | _         => none

def sessions (es : List (Event I)) : List ((q : I.Query) × I.Answer q) :=
  es.filterMap fun
    | session q y => some ⟨q, y⟩
    | _           => none

section

variable {es es' : List (Event I)}

@[simp] theorem writes_nil : writes ([] : List (Event I)) = [] := rfl
@[simp] theorem writes_write : writes (write l bs :: es) = (l, bs) :: writes es := rfl
@[simp] theorem writes_read : writes (read l bs :: es) = writes es := rfl
@[simp] theorem writes_closed : writes (closed l :: es) = writes es := rfl
@[simp] theorem writes_session : writes (session q y :: es) = writes es := rfl
@[simp] theorem writes_append : writes (es ++ es') = writes es ++ writes es' := by simp [writes]

@[simp] theorem reads_nil : reads ([] : List (Event I)) = [] := rfl
@[simp] theorem reads_write : reads (write l bs :: es) = reads es := rfl
@[simp] theorem reads_read : reads (read l bs :: es) = (l, bs) :: reads es := rfl
@[simp] theorem reads_closed : reads (closed l :: es) = reads es := rfl
@[simp] theorem reads_session : reads (session q y :: es) = reads es := rfl
@[simp] theorem reads_append : reads (es ++ es') = reads es ++ reads es' := by simp [reads]

@[simp] theorem sessions_nil : sessions ([] : List (Event I)) = [] := rfl
@[simp] theorem sessions_write : sessions (write l bs :: es) = sessions es := rfl
@[simp] theorem sessions_read : sessions (read l bs :: es) = sessions es := rfl
@[simp] theorem sessions_closed : sessions (closed l :: es) = sessions es := rfl
@[simp] theorem sessions_session : sessions (session q y :: es) = ⟨q, y⟩ :: sessions es := rfl
@[simp] theorem sessions_append : sessions (es ++ es') = sessions es ++ sessions es' := by
  simp [sessions]

end

@[simp]
theorem writes_flatMap (l : List ι) (f : ι → List (Event I)) :
    writes (l.flatMap f) = l.flatMap fun i => writes (f i) := by
  induction l <;> simp_all

@[simp]
theorem reads_flatMap (l : List ι) (f : ι → List (Event I)) :
    reads (l.flatMap f) = l.flatMap fun i => reads (f i) := by
  induction l <;> simp_all

@[simp]
theorem sessions_flatMap (l : List ι) (f : ι → List (Event I)) :
    sessions (l.flatMap f) = l.flatMap fun i => sessions (f i) := by
  induction l <;> simp_all

end Event

variable {I : Interface}

-- A run of a program against an arbitrary peer. If `eof` is false, then the peer keeps the channel
-- open and every read gets its bytes.
inductive Run {α : Type} (eof : Prop) : Prog I α → List (Event I) → Except I.Err α → Prop
  | pure : Run eof (.pure a) [] (.ok a)
  | fail : Run eof (.fail e) [] (.error e)
  | write : Run eof p es r → Run eof (.write l bs p) (.write l bs :: es) r
  | read {k : Option (Arr n) → Prog I α} (v : Arr n) :
    Run eof (k (some v)) es r → Run eof (.read l n k) (.read l v.toList :: es) r
  | closed {k : Option (Arr n) → Prog I α} :
    eof → Run eof (k none) es r → Run eof (.read l n k) (.closed l :: es) r
  | session {k : I.Answer q → Prog I α} (y : I.Answer q) :
    Run eof (k y) es r → Run eof (.session q k) (.session q y :: es) r

namespace Run

variable {eof : Prop}

theorem bind_ok {f : α → Prog I β} (h : Run eof p es₁ (.ok a)) (hf : Run eof (f a) es₂ r) :
    Run eof (p >>= f) (es₁ ++ es₂) r := by
  generalize hr : Except.ok a = ra at h
  induction h
  case pure => cases hr; exact hf
  case fail => cases hr
  case write hi => exact .write (hi hr)
  case read hi => exact .read _ (hi hr)
  case closed he _ hi => exact .closed he (hi hr)
  case session hi => exact .session _ (hi hr)

theorem bind_error {f : α → Prog I β} (h : Run eof p es (.error e)) :
    Run eof (p >>= f) es (.error e) := by
  generalize hr : Except.error e = ra at h
  induction h
  case pure => cases hr
  case fail => cases hr; exact .fail
  case write hi => exact .write (hi hr)
  case read hi => exact .read _ (hi hr)
  case closed he _ hi => exact .closed he (hi hr)
  case session hi => exact .session _ (hi hr)

theorem bind_inv {p : Prog I α} {f : α → Prog I β} (h : Run eof (p >>= f) es r) :
    (∃ a es₁ es₂, Run eof p es₁ (.ok a) ∧ Run eof (f a) es₂ r ∧ es = es₁ ++ es₂) ∨
    (∃ e, Run eof p es (.error e) ∧ r = .error e) := by
  induction p generalizing es
  case pure a => exact .inl ⟨a, [], es, .pure, h, rfl⟩
  case fail e => cases h; exact .inr ⟨_, .fail, rfl⟩
  case write hi =>
    cases h
    case write h =>
      obtain ⟨a, es₁, es₂, h₁, h₂, rfl⟩ | ⟨e, he, rfl⟩ := hi h
      · exact .inl ⟨a, _, es₂, .write h₁, h₂, rfl⟩
      · exact .inr ⟨e, .write he, rfl⟩
  case read hi =>
    cases h
    case read v h =>
      obtain ⟨a, es₁, es₂, h₁, h₂, rfl⟩ | ⟨e, he, rfl⟩ := hi (some v) h
      · exact .inl ⟨a, _, es₂, .read v h₁, h₂, rfl⟩
      · exact .inr ⟨e, .read v he, rfl⟩
    case closed hc h =>
      obtain ⟨a, es₁, es₂, h₁, h₂, rfl⟩ | ⟨e, he, rfl⟩ := hi none h
      · exact .inl ⟨a, _, es₂, .closed hc h₁, h₂, rfl⟩
      · exact .inr ⟨e, .closed hc he, rfl⟩
  case session hi =>
    cases h
    case session y h =>
      obtain ⟨a, es₁, es₂, h₁, h₂, rfl⟩ | ⟨e, he, rfl⟩ := hi y h
      · exact .inl ⟨a, _, es₂, .session y h₁, h₂, rfl⟩
      · exact .inr ⟨e, .session y he, rfl⟩

theorem bind_iff {p : Prog I α} {f : α → Prog I β} :
    Run eof (p >>= f) es r ↔
    (∃ a es₁ es₂, Run eof p es₁ (.ok a) ∧ Run eof (f a) es₂ r ∧ es = es₁ ++ es₂) ∨
    (∃ e, Run eof p es (.error e) ∧ r = .error e) where
  mp := bind_inv
  mpr
    | .inl ⟨_, _, _, h₁, h₂, he⟩ => he ▸ bind_ok h₁ h₂
    | .inr ⟨_, h, hr⟩            => hr ▸ bind_error h

theorem bind_ok_iff {p : Prog I α} {f : α → Prog I β} :
    Run eof (p >>= f) es (.ok b) ↔
    ∃ a es₁ es₂, Run eof p es₁ (.ok a) ∧ Run eof (f a) es₂ (.ok b) ∧ es = es₁ ++ es₂ := by
  simp [bind_iff]

@[simp]
theorem pure_iff {a : α} : Run eof (.pure a : Prog I α) es r ↔ es = [] ∧ r = .ok a where
  mp  | .pure => ⟨rfl, rfl⟩
  mpr | ⟨h₁, h₂⟩ => h₁ ▸ h₂ ▸ .pure

@[simp]
theorem fail_iff : Run eof (.fail e : Prog I α) es r ↔ es = [] ∧ r = .error e where
  mp  | .fail => ⟨rfl, rfl⟩
  mpr | ⟨h₁, h₂⟩ => h₁ ▸ h₂ ▸ .fail

theorem send_iff : Run eof (Prog.send l bs : Prog I Unit) es r ↔ es = [.write l bs] ∧ r = .ok () where
  mp  | .write .pure => ⟨rfl, rfl⟩
  mpr | ⟨h₁, h₂⟩ => h₁ ▸ h₂ ▸ .write .pure

theorem recv_ok_iff {v : Arr n} :
    Run eof (Prog.recv l n : Prog I _) es (.ok v) ↔ es = [.read l v.toList] where
  mp h := by
    cases h
    case read h     => cases h; rfl
    case closed _ h => cases h
  mpr h := by
    subst h
    refine .read v ?_
    exact .pure

theorem join_iff {q : I.Query} {r : Except I.Err (I.Answer q)} :
    Run eof (Prog.join q) es r ↔ ∃ y, es = [.session q y] ∧ r = .ok y where
  mp h := by
    cases h
    case session y h => cases h; exact ⟨y, rfl, rfl⟩
  mpr := by
    rintro ⟨y, rfl, rfl⟩
    exact .session y .pure

theorem attempt_iff {p : Prog I α} :
    Run eof p.attempt es r ↔ ∃ ra, Run eof p es ra ∧ r = .ok ra := by
  constructor
  · intro h
    induction p generalizing es
    case pure => cases h; exact ⟨_, .pure, rfl⟩
    case fail => cases h; exact ⟨_, .fail, rfl⟩
    case write hi =>
      cases h
      case write h => obtain ⟨ra, ha, rfl⟩ := hi h; exact ⟨ra, .write ha, rfl⟩
    case read hi =>
      cases h
      case read v h => obtain ⟨ra, ha, rfl⟩ := hi _ h; exact ⟨ra, .read v ha, rfl⟩
      case closed he h => obtain ⟨ra, ha, rfl⟩ := hi _ h; exact ⟨ra, .closed he ha, rfl⟩
    case session hi =>
      cases h
      case session y h => obtain ⟨ra, ha, rfl⟩ := hi _ h; exact ⟨ra, .session y ha, rfl⟩
  · rintro ⟨ra, h, rfl⟩
    induction h
    case pure => exact .pure
    case fail => exact .pure
    case write hi => exact .write hi
    case read hi => exact .read _ hi
    case closed he _ hi => exact .closed he hi
    case session hi => exact .session _ hi

theorem attempt_bind_iff {p : Prog I α} {f : Except I.Err α → Prog I β} :
    Run eof (p.attempt >>= f) es r ↔
    ∃ ra es₁ es₂, Run eof p es₁ ra ∧ Run eof (f ra) es₂ r ∧ es = es₁ ++ es₂ := by
  simp only [bind_iff, attempt_iff]
  constructor
  · rintro (⟨_, es₁, es₂, ⟨ra, h₁, ⟨⟩⟩, h₂, he⟩ | ⟨_, ⟨_, _, ⟨⟩⟩, _⟩)
    exact ⟨_, es₁, es₂, h₁, h₂, he⟩
  · rintro ⟨ra, es₁, es₂, h₁, h₂, he⟩
    exact .inl ⟨ra, es₁, es₂, ⟨ra, h₁, rfl⟩, h₂, he⟩

theorem mono (he : eof → eof') (h : Run eof p es r) : Run eof' p es r := by
  induction h
  case pure => exact .pure
  case fail => exact .fail
  case write hi => exact .write hi
  case read hi => exact .read _ hi
  case closed h _ hi => exact .closed (he h) hi
  case session hi => exact .session _ hi

@[simp]
theorem send_bind_iff {f : Unit → Prog I β} :
    Run eof (Prog.send l bs >>= f) es r ↔ ∃ es', Run eof (f ()) es' r ∧ es = .write l bs :: es' where
  mp  | .write h => ⟨_, h, rfl⟩
  mpr | ⟨_, h, he⟩ => he ▸ .write h

@[simp]
theorem join_bind_iff {f : I.Answer q → Prog I β} :
    Run eof (Prog.join q >>= f) es r ↔
    ∃ y es', Run eof (f y) es' r ∧ es = .session q y :: es' where
  mp  | .session y h => ⟨y, _, h, rfl⟩
  mpr | ⟨y, _, h, he⟩ => he ▸ .session y h

@[simp]
theorem recv_bind_iff {f : Arr n → Prog I β} :
    Run False (Prog.recv l n >>= f) es r ↔
    ∃ v es', Run False (f v) es' r ∧ es = .read l v.toList :: es' where
  mp h := by
    cases h
    case read v h => exact ⟨v, _, h, rfl⟩
    case closed h _ => exact h.elim
  mpr | ⟨v, _, h, he⟩ => he ▸ .read v h

theorem recv_bind {f : Arr n → Prog I β} (bs : Bytes) (hb : bs.length = n)
    (h : ∀ v : Arr n, v.toList = bs → Run eof (f v) es r) :
    Run eof (Prog.recv l n >>= f) (.read l bs :: es) r := by
  let v : Arr n := ⟨bs.toArray, by simpa using hb⟩
  have hv : v.toList = bs := by simp [v]
  have hr : Run eof (Prog.recv l n >>= f) (.read l v.toList :: es) r := .read v (h v hv)
  exact hv ▸ hr

end Run

-- The runs of a program that always gets the bytes it reads and never fails: `x` collects what the
-- program is given from outside, `E` are its events and `f` is its result.
def Prog.Denotes (p : Prog I α) (E : X → List (Event I)) (f : X → α) : Prop :=
  ∀ es r, Run False p es r ↔ ∃ x, r = .ok (f x) ∧ es = E x

namespace Prog.Denotes

variable {p : Prog I α} {E : X → List (Event I)} {f : X → α}

theorem run (h : p.Denotes E f) (x : X) : Run False p (E x) (.ok (f x)) :=
  h _ _ |>.mpr ⟨x, rfl, rfl⟩

theorem bind_iff (h : p.Denotes E f) {g : α → Prog I β} :
    Run False (p >>= g) es r ↔ ∃ x es', Run False (g (f x)) es' r ∧ es = E x ++ es' := by
  constructor
  · intro hr
    obtain ⟨a, es₁, es₂, h₁, h₂, rfl⟩ | ⟨e, he, rfl⟩ := Run.bind_inv hr
    · obtain ⟨x, ha, rfl⟩ := h _ _ |>.mp h₁
      cases ha
      exact ⟨x, es₂, h₂, rfl⟩
    · obtain ⟨_, he, _⟩ := h _ _ |>.mp he
      cases he
  · rintro ⟨x, es', hr, rfl⟩
    exact Run.bind_ok (h.run x) hr

-- A loop makes the events of its rounds one after another.
theorem mapM {body : Nat → Prog I α} {E : Nat → X → List (Event I)} {f : Nat → X → α}
    [Nonempty X] (h : ∀ i, (body i).Denotes (E i) (f i)) (n : Nat) :
    ((List.range n).mapM body).Denotes
      (fun x : Nat → X => (List.range n).flatMap fun i => E i (x i))
      (fun x => (List.range n).map fun i => f i (x i)) := by
  induction n
  case zero => intro es r; simp [and_comm]
  case succ n hi =>
    intro es r
    have hb (a : List α) {es r} :
        Run False ([n].mapM body >>= fun l => Prog.pure (a ++ l)) es r ↔
        ∃ x, r = .ok (a ++ [f n x]) ∧ es = E n x := by
      simp [(h n).bind_iff]
    rw [List.range_succ, List.mapM_append, hi.bind_iff]
    simp only [Prog.pure_eq, hb]
    constructor
    · rintro ⟨x, es', ⟨y, rfl, rfl⟩, rfl⟩
      have hx : ∀ i ∈ List.range n, Function.update x n y i = x i := fun i hi =>
        Function.update_of_ne (List.mem_range.mp hi).ne ..
      refine ⟨Function.update x n y, ?_⟩
      have hE := List.flatMap_congr fun i hi => congrArg (E i) (hx i hi)
      have hf := List.map_congr_left fun i hi => congrArg (f i) (hx i hi)
      simp [hE, hf]
    · rintro ⟨x, rfl, rfl⟩
      exact ⟨x, _, ⟨x n, by simp, rfl⟩, by simp⟩

end Prog.Denotes

-- Every result of `p` satisfies `Φ`, whatever its peer does.
def Prog.Ensures (p : Prog I α) (Φ : α → Prop) : Prop :=
  ∀ eof es a, Run eof p es (.ok a) → Φ a

namespace Prog.Ensures

variable {p : Prog I α} {f : α → Prog I β} {Φ : α → Prop} {Ψ : β → Prop}

theorem pure (h : Φ a) : (Prog.pure a : Prog I α).Ensures Φ
  | _, _, _, .pure => h

theorem fail : (Prog.fail e : Prog I α).Ensures Φ :=
  nofun

theorem bind (h : p.Ensures Φ) (hf : ∀ a, Φ a → (f a).Ensures Ψ) : (p >>= f).Ensures Ψ :=
  fun _ _ _ hr =>
    have ⟨a, _, _, h₁, h₂, _⟩ := Run.bind_ok_iff.mp hr
    hf a (h _ _ a h₁) _ _ _ h₂

theorem of_forall (hf : ∀ a, (f a).Ensures Ψ) : (p >>= f).Ensures Ψ :=
  bind (Φ := fun _ => True) (fun _ _ _ _ => trivial) fun a _ => hf a

theorem of_pure (h : (Prog.pure a : Prog I α).Ensures Φ) : Φ a :=
  h False _ _ .pure

theorem attempt (h : p.Ensures Φ) : p.attempt.Ensures fun r => ∀ a, r = .ok a → Φ a := by
  rintro _ _ _ hr a rfl
  obtain ⟨_, hr, ha⟩ := Run.attempt_iff |>.mp hr
  cases ha
  exact h _ _ a hr

end Prog.Ensures

-- A program that fails when it reads from a closed channel.
inductive Prog.Strict : Prog I α → Prop
  | pure : Strict (.pure a)
  | fail : Strict (.fail e)
  | write : Strict p → Strict (.write l bs p)
  | read {k : Option (Arr n) → Prog I α} :
    (∀ v, Strict (k (some v))) → k none = .fail e → Strict (.read l n k)
  | session {k : I.Answer q → Prog I α} : (∀ y, Strict (k y)) → Strict (.session q k)

namespace Prog.Strict

variable {p : Prog I α} {f : α → Prog I β}

theorem bind (h : p.Strict) (hf : ∀ a, (f a).Strict) : (p >>= f).Strict := by
  induction h
  case pure       => exact hf _
  case fail       => exact .fail
  case write hi   => exact .write (hi hf)
  case read hn hi => exact .read (fun v => hi v hf) (congrArg (· >>= f) hn)
  case session hi => exact .session fun y => hi y hf

theorem send : (Prog.send l bs : Prog I Unit).Strict :=
  .write .pure

theorem recv : (Prog.recv l n : Prog I (Arr n)).Strict :=
  .read (fun _ => .pure) rfl

theorem join : (Prog.join q : Prog I (I.Answer q)).Strict :=
  .session fun _ => .pure

theorem mapM {f : α → Prog I β} (h : ∀ a, (f a).Strict) (as : List α) : (as.mapM f).Strict := by
  induction as
  case nil          => exact .pure
  case cons a as hi =>
    rw [List.mapM_cons]
    exact .bind (h a) fun _ => .bind hi fun _ => .pure

-- It returns only if the channel has stayed open.
theorem run_of_ok (h : p.Strict) (hr : Run eof p es (.ok a)) : Run False p es (.ok a) := by
  induction h generalizing es
  case pure =>
    cases hr
    exact .pure
  case fail => cases hr
  case write hi =>
    cases hr
    case write hr => exact .write (hi hr)
  case read hn hi =>
    cases hr
    case read v hr => exact .read v (hi v hr)
    case closed hr =>
      rw [hn] at hr
      cases hr
  case session hi =>
    cases hr
    case session y hr => exact .session y (hi y hr)

end Prog.Strict

-- `p` returns without having written a message with label `l`.
def Prog.NeverWrites (l : I.Label) (p : Prog I α) : Prop :=
  ∀ eof es a, Run eof p es (.ok a) → ∀ x ∈ Event.writes es, x.1 ≠ l

namespace Prog.NeverWrites

variable {l l' : I.Label} {p : Prog I α} {f : α → Prog I β}

theorem pure : (Prog.pure a : Prog I α).NeverWrites l
  | _, _, _, .pure => nofun

theorem fail : (Prog.fail e : Prog I α).NeverWrites l :=
  nofun

theorem bind (h : p.NeverWrites l) (hf : ∀ a, (f a).NeverWrites l) : (p >>= f).NeverWrites l := by
  intro _ _ _ hr
  obtain ⟨a, es₁, es₂, h₁, h₂, rfl⟩ := Run.bind_ok_iff.mp hr
  rw [Event.writes_append, List.forall_mem_append]
  exact ⟨h _ _ _ h₁, hf a _ _ _ h₂⟩

theorem send (h : l' ≠ l) : (Prog.send l' bs : Prog I Unit).NeverWrites l := by
  intro _ _ _ hr
  obtain ⟨rfl, -⟩ := Run.send_iff.mp hr
  simpa using h

theorem recv : (Prog.recv l' n : Prog I (Arr n)).NeverWrites l := by
  intro _ _ _ hr
  obtain rfl := Run.recv_ok_iff.mp hr
  simp

theorem join : (Prog.join q : Prog I (I.Answer q)).NeverWrites l := by
  intro _ _ _ hr
  obtain ⟨_, rfl, -⟩ := Run.join_iff.mp hr
  simp

theorem mapM {f : α → Prog I β} (h : ∀ a, (f a).NeverWrites l) (as : List α) :
    (as.mapM f).NeverWrites l := by
  induction as
  case nil          => exact .pure
  case cons a as hi =>
    rw [List.mapM_cons]
    exact .bind (h a) fun _ => .bind hi fun _ => .pure

end Prog.NeverWrites
