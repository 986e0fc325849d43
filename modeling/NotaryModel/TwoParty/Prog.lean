import NotaryModel.Primitives.Bytes

-- The vocabulary of a two-party protocol. Plain messages carry a label that names the step of the
-- protocol they belong to. A joint session (such as the evaluation of one garbled circuit) is seen
-- by each party as a query that yields an answer.
structure Interface where
  Label  : Type
  Query  : Type
  Answer : Query → Type
  Err    : Type
  closed : Err

-- The program of one party: a tree over the operations of its end of the channel. A `read` is
-- continued with `none` when the peer has closed the channel.
inductive Prog (I : Interface) (α : Type)
  | pure (a : α)
  | fail (e : I.Err)
  | write (l : I.Label) (bs : Bytes) (next : Prog I α)
  | read (l : I.Label) (n : Nat) (next : Option (Arr n) → Prog I α)
  | session (q : I.Query) (next : I.Answer q → Prog I α)

namespace Prog

variable {I : Interface}

protected def bind : Prog I α → (α → Prog I β) → Prog I β
  | pure a,         f => f a
  | fail e,         _ => fail e
  | write l bs p,   f => write l bs (p.bind f)
  | read l n k,     f => read l n fun v => (k v).bind f
  | session q k,    f => session q fun y => (k y).bind f

instance : Monad (Prog I) where
  pure := pure
  bind := Prog.bind

@[simp]
theorem pure_eq (a : α) : (Pure.pure a : Prog I α) = pure a :=
  rfl

@[simp]
theorem pure_bind (a : α) (f : α → Prog I β) : pure a >>= f = f a :=
  rfl

@[simp]
theorem fail_bind (e : I.Err) (f : α → Prog I β) : fail e >>= f = fail e :=
  rfl

@[simp]
theorem write_bind (p : Prog I α) (f : α → Prog I β) :
    write l bs p >>= f = write l bs (p >>= f) :=
  rfl

@[simp]
theorem read_bind (k : Option (Arr n) → Prog I α) (f : α → Prog I β) :
    read l n k >>= f = read l n (k · >>= f) :=
  rfl

@[simp]
theorem session_bind (k : I.Answer q → Prog I α) (f : α → Prog I β) :
    session q k >>= f = session q (k · >>= f) :=
  rfl

theorem bind_pure (p : Prog I α) : p >>= pure = p := by
  induction p <;> simp_all

theorem bind_assoc (p : Prog I α) (f : α → Prog I β) (g : β → Prog I γ) :
    p >>= f >>= g = p >>= fun a => f a >>= g := by
  induction p <;> simp_all

theorem map_eq_bind (f : α → β) (p : Prog I α) : f <$> p = p >>= fun a => pure (f a) :=
  rfl

instance : LawfulMonad (Prog I) :=
  .mk' (Prog I) bind_pure (fun _ _ => rfl) bind_assoc

-- Writes `bs` to the peer.
def send (l : I.Label) (bs : Bytes) : Prog I Unit :=
  write l bs (pure ())

-- Reads exactly `n` bytes from the peer, where a closed channel is an error.
def recv (l : I.Label) (n : Nat) : Prog I (Arr n) :=
  read l n fun
    | some v => pure v
    | none   => fail I.closed

-- Runs this party's end of a joint session.
def join (q : I.Query) : Prog I (I.Answer q) :=
  session q pure

-- Runs `p` and hands its error, if any, to the caller.
def attempt : Prog I α → Prog I (Except I.Err α)
  | pure a       => pure (.ok a)
  | fail e       => pure (.error e)
  | write l bs p => write l bs p.attempt
  | read l n k   => read l n fun v => (k v).attempt
  | session q k  => session q fun y => (k y).attempt

-- A program that takes no further part in the protocol.
inductive Halted : Prog I α → Prop
  | pure : Halted (pure a)
  | fail : Halted (fail e)

end Prog
