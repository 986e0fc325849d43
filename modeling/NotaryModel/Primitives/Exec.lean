import NotaryModel.Primitives.Bytes

-- Computations that may panic, with the message of the panic.
abbrev Exec :=
  Except String

namespace Exec

def abort (msg : String) : Exec α :=
  .error msg

def expect (msg : String) : Option α → Exec α
  | some a => .ok a
  | none   => abort msg

def assert (c : Prop) [Decidable c] (msg : String) : Exec Unit :=
  if c then .ok () else abort msg

-- `xs[i]`
def index (xs : List α) (i : Nat) : Exec α :=
  expect "index out of bounds" xs[i]?

-- `&bs[a..b]`
def range (bs : Bytes) (a b : Nat) : Exec Bytes :=
  if a ≤ b ∧ b ≤ bs.length then .ok (bs.slice a b) else abort "slice index out of range"

@[simp]
theorem ok_bind (a : α) (f : α → Exec β) : (Except.ok a : Exec α) >>= f = f a :=
  rfl

@[simp]
theorem expect_some : expect msg (some a) = .ok a :=
  rfl

theorem bind_eq_ok_iff {x : Exec α} {f : α → Exec β} :
    x >>= f = .ok b ↔ ∃ a, x = .ok a ∧ f a = .ok b := by
  cases x <;> simp [bind, Except.bind]

@[simp]
theorem expect_eq_ok_iff {a? : Option α} : expect msg a? = .ok a ↔ a? = some a := by
  cases a? <;> simp [expect, abort]

@[simp]
theorem assert_eq_ok_iff [Decidable c] : assert c msg = .ok u ↔ c := by
  unfold assert
  split <;> simp_all [abort]

@[simp]
theorem index_eq_ok_iff {xs : List α} : index xs i = .ok a ↔ xs[i]? = some a :=
  expect_eq_ok_iff

@[simp]
theorem lift_ok (a : α) : OptionT.lift (Except.ok a : Exec α) = pure a :=
  rfl

theorem range_eq_ok (h : a ≤ b) (hb : b ≤ bs.length) : range bs a b = .ok (bs.slice a b) :=
  if_pos ⟨h, hb⟩

theorem mapM_eq_ok_iff {f : α → Exec β} {as : List α} {bs : List β} :
    as.mapM f = .ok bs ↔ List.Forall₂ (fun a b => f a = .ok b) as bs := by
  induction as generalizing bs
  case nil =>
    rw [List.mapM_nil, List.forall₂_nil_left_iff]
    exact ⟨fun h => (Except.ok.inj h).symm, fun h => h ▸ rfl⟩
  case cons a as hi =>
    rw [List.mapM_cons, List.forall₂_cons_left_iff]
    simp only [bind_eq_ok_iff, hi, pure, Except.pure, Except.ok.injEq]
    constructor
    · rintro ⟨b, hb, bs, hbs, rfl⟩
      exact ⟨b, bs, hb, hbs, rfl⟩
    · rintro ⟨b, bs, hb, hbs, rfl⟩
      exact ⟨b, hb, bs, hbs, rfl⟩

end Exec
