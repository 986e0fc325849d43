import NotaryModel.Garbling.Theorems.Shares

open Circuit Exchange
open Notary (Err)

-- A library for authenticated bits whose shares come from a trusted dealer. Shares are opened in
-- the clear, together with their MACs.
namespace Garbling.Dealer

-- What the dealer draws for a bit: both shares and the key of each party.
structure Deal where
  garblerBit   : Bool
  evaluatorBit : Bool
  garblerKey   : Block
  evaluatorKey : Block

-- In `products` each party hands in its shares of the factors.
inductive Query
  | triples
  | shares
  | products (factors : List (Bool × Bool))

abbrev Query.Answer : Query → Type
  | triples    => Unit
  | shares     => Nat → Deal
  | products _ => Nat → Deal

abbrev dealt : Interface :=
  channel Unit Query.Answer

structure Share where
  bit : Bool
  mac : Block
  key : Block

def Share.xor (x y : Share) : Share :=
  ⟨x.bit ^^ y.bit, x.mac ^^^ y.mac, x.key ^^^ y.key⟩

def Share.mulWithConst (x : Share) (c : Bool) : Share :=
  ⟨x.bit && c, scale c x.mac, scale c x.key⟩

variable (Δg Δe : Block)

def Deal.garblerShare (d : Deal) : Share :=
  ⟨d.garblerBit, d.evaluatorKey ^^^ scale d.garblerBit Δe, d.garblerKey⟩

def Deal.evaluatorShare (d : Deal) : Share :=
  ⟨d.evaluatorBit, d.garblerKey ^^^ scale d.evaluatorBit Δg, d.evaluatorKey⟩

-- The deal in which the bit is shared.
def Deal.of (d : Deal) (bit : Bool) : Deal :=
  { d with evaluatorBit := d.garblerBit ^^ bit }

def product (xs ys : List (Bool × Bool)) (i : Nat) : Bool :=
  match xs[i]?, ys[i]? with
  | some x, some y => (x.1 ^^ y.1) && (x.2 ^^ y.2)
  | _, _           => false

def functionality : Functionality dealt where
  respond
    | .triples, .triples, _         => some ()
    | .shares, .shares, y           => some y
    | .products xs, .products ys, y => some fun i => (y i).of (product xs ys i)
    | _, _, _                       => none

def openMyShare (x : Share) : Prog dealt Unit := do
  Prog.send (I := dealt) (.inr ()) (Vector.toList #v[if x.bit then 1 else 0])
  Prog.send (I := dealt) (.inr ()) x.mac.toList

def openTheirShare (delta : Block) (x : Share) : Prog dealt Bool := do
  let v ← Prog.recv (I := dealt) (.inr ()) 1
  let mac ← Prog.recv (I := dealt) (.inr ()) 16
  let bit := v.byte == 1
  if mac = x.key ^^^ scale bit delta then
    pure bit
  else
    .fail (.other "invalid MAC")

def openMyShares (xs : List Share) : Prog dealt Unit :=
  forM xs openMyShare

def openTheirShares (xs : List Share) (delta : Block) : Prog dealt (List Bool) :=
  xs.mapM (openTheirShare delta)

def shares (f : Deal → Share) (n : Nat) : Prog dealt (List Share) := do
  let deals ← Prog.join (I := dealt) .shares
  pure ((List.range n).map fun i => f (deals i))

def toKnownTriple (f : Deal → Share) (ls rs : List Share) : Prog dealt (List Share) := do
  let deals ← Prog.join (I := dealt) (.products ((ls.zip rs).map fun x => (x.1.bit, x.2.bit)))
  pure ((List.range ls.length).map fun i => f (deals i))

abbrev garbler : AuthBits dealt where
  Share                 := Share
  Triple                := Unit
  delta                 := Δg
  bit                   := Share.bit
  mac                   := Share.mac
  key                   := Share.key
  xor                   := Share.xor
  mulWithConst          := Share.mulWithConst
  constantWithDelta c _ := ⟨c, 0, 0⟩
  generateTriples n     := do
    let _ ← Prog.join (I := dealt) .triples
    pure (List.replicate n ())
  generate              := shares (Deal.garblerShare Δe)
  toKnownTriple _       := toKnownTriple (Deal.garblerShare Δe)
  openMyShares          := openMyShares
  openTheirShares       := openTheirShares
  openShares xs delta   := do
    openMyShares xs
    let theirs ← openTheirShares xs delta
    pure (List.zipWith (fun x b => x.bit ^^ b) xs theirs)

abbrev evaluator : AuthBits dealt where
  Share                     := Share
  Triple                    := Unit
  delta                     := Δe
  bit                       := Share.bit
  mac                       := Share.mac
  key                       := Share.key
  xor                       := Share.xor
  mulWithConst              := Share.mulWithConst
  constantWithDelta c delta := ⟨false, 0, scale c delta⟩
  generateTriples n         := do
    let _ ← Prog.join (I := dealt) .triples
    pure (List.replicate n ())
  generate                  := shares (Deal.evaluatorShare Δg)
  toKnownTriple _           := toKnownTriple (Deal.evaluatorShare Δg)
  openMyShares              := openMyShares
  openTheirShares           := openTheirShares
  openShares xs delta       := do
    let theirs ← openTheirShares xs delta
    openMyShares xs
    pure (List.zipWith (fun x b => b ^^ x.bit) xs theirs)

-- Both parties hold a MAC on their share, for which the peer has the key.
structure Paired (x y : Share) : Prop where
  garblerMac   : x.mac = y.key ^^^ scale x.bit Δe
  evaluatorMac : y.mac = x.key ^^^ scale y.bit Δg

-- A circuit's gates are counted by running it.
instance : Negating (StateM Nat) Unit where
  constant _ := pure ()
  xor _ _    := pure ()
  and _ _    := modify (· + 1)
  negate _   := pure ()

def analyze (c : Executor s n) : Analysis where
  nands      := ((c.execute (M := StateM Nat) (.replicate s ())).run 0).2
  ninputs    := s
  nconstants := 0

def lsb (x : Block) : Bool :=
  x[0].toBitVec.getLsbD 0

def swanky (hash : Block → Nat → Block) : Swanky where
  hash
  lsb           := lsb
  lsb_xor x y   := by simp [lsb]
  ofU16 v       := if v = 0 then some false else if v = 1 then some true else none
  ofU16_toU16 b := by cases b <;> rfl
  toByte b      := if b then 1 else 0
  ofByte v      := if v = 0 then .ok false else if v = 1 then .ok true else .error (.other "no bit")
  ofByte_toByte b := by cases b <;> rfl
  analyze

-- A share that is sent passes the check of the party that holds its key.
section

theorem byte_of_bit (b : Bool) : (Arr.byte #v[if b then (1 : Byte) else 0] == 1) = b := by
  cases b <;> rfl

theorem openMyShare_openTheirShare (h : x.mac = y.key ^^^ scale x.bit δ) :
    Scheduled functionality (openMyShare x) (openTheirShare δ y) fun _ b => b = x.bit := by
  refine .bind (.send_recv (v := #v[_]) (Φ := fun _ v => v = _) rfl) ?_
  rintro _ _ rfl
  rw [←Prog.bind_pure (Prog.send _ _)]
  refine .bind (.send_recv (v := x.mac) (Φ := fun _ v => v = _) rfl) ?_
  rintro _ _ rfl
  simp only [byte_of_bit, if_pos h]
  exact .pure rfl

theorem openTheirShare_openMyShare (h : x.mac = y.key ^^^ scale x.bit δ) :
    Scheduled functionality (openTheirShare δ y) (openMyShare x) fun b _ => b = x.bit := by
  refine .bind (.recv_send (v := #v[_]) (Φ := fun v _ => v = _) rfl) ?_
  rintro _ _ rfl
  rw [←Prog.bind_pure (Prog.send _ _)]
  refine .bind (.recv_send (v := x.mac) (Φ := fun v _ => v = _) rfl) ?_
  rintro _ _ rfl
  simp only [byte_of_bit, if_pos h]
  exact .pure rfl

variable {f g : ι → Share}

theorem openMyShares_openTheirShares (h : ∀ p, (f p).mac = (g p).key ^^^ scale (f p).bit δ)
    (ps : List ι) : Scheduled functionality (openMyShares (ps.map f))
      (openTheirShares (ps.map g) δ) fun _ bs => bs = ps.map fun p => (f p).bit := by
  rw [openMyShares, openTheirShares]
  induction ps
  case nil          => exact .pure rfl
  case cons p ps hi =>
    rw [List.map_cons, List.map_cons, List.forM_cons, List.mapM_cons]
    refine .bind (openMyShare_openTheirShare (h p)) ?_
    rintro _ _ rfl
    rw [←Prog.bind_pure (forM (ps.map f) _)]
    refine .bind hi ?_
    rintro _ _ rfl
    exact .pure rfl

theorem openTheirShares_openMyShares (h : ∀ p, (f p).mac = (g p).key ^^^ scale (f p).bit δ)
    (ps : List ι) : Scheduled functionality (openTheirShares (ps.map g) δ)
      (openMyShares (ps.map f)) fun bs _ => bs = ps.map fun p => (f p).bit := by
  rw [openMyShares, openTheirShares]
  induction ps
  case nil          => exact .pure rfl
  case cons p ps hi =>
    rw [List.map_cons, List.map_cons, List.forM_cons, List.mapM_cons]
    refine .bind (openTheirShare_openMyShare (h p)) ?_
    rintro _ _ rfl
    rw [←Prog.bind_pure (forM (ps.map f) _)]
    refine .bind hi ?_
    rintro _ _ rfl
    exact .pure rfl

end

-- What the dealer deals are pairs of shares.
section

variable {Δg Δe : Block}

abbrev Pair (Δg Δe : Block) :=
  SharePair (garbler Δg Δe) (evaluator Δg Δe) (Paired Δg Δe)

def Deal.pair (d : Deal) : Pair Δg Δe where
  garbler   := d.garblerShare Δe
  evaluator := d.evaluatorShare Δg
  paired    := ⟨rfl, rfl⟩

theorem Deal.value_pair (d : Deal) (bit : Bool) : ((d.of bit).pair : Pair Δg Δe).value = bit :=
  show (d.garblerBit ^^ (d.garblerBit ^^ bit)) = bit by
    rw [←Bool.xor_assoc, Bool.xor_self, Bool.false_xor]

theorem shares_scheduled (n : Nat) :
    Scheduled functionality (shares (Deal.garblerShare Δe) n) (shares (Deal.evaluatorShare Δg) n)
      fun xs ys => ∃ ss : List (Pair Δg Δe),
        ss.length = n ∧ xs = ss.map (·.garbler) ∧ ys = ss.map (·.evaluator) := by
  let Φ (y y' : Nat → Deal) : Prop := y' = y
  refine .bind (.session (Φ := Φ) fun y => ⟨y, rfl, rfl⟩) ?_
  rintro _ y rfl
  refine .pure ⟨(List.range n).map fun i => (y i).pair, by simp, ?_, ?_⟩
  case refine_1 => rw [List.map_map]; rfl
  case refine_2 => rw [List.map_map]; rfl

theorem toKnownTriple_scheduled (ps : List (Pair Δg Δe × Pair Δg Δe)) :
    Scheduled functionality
      (toKnownTriple (Deal.garblerShare Δe) (ps.map (·.1.garbler)) (ps.map (·.2.garbler)))
      (toKnownTriple (Deal.evaluatorShare Δg) (ps.map (·.1.evaluator)) (ps.map (·.2.evaluator)))
      fun zs ws => ∃ ks : List (Pair Δg Δe),
        List.Forall₂ Product ps ks ∧ zs = ks.map (·.garbler) ∧ ws = ks.map (·.evaluator) := by
  let factors (i : Nat) : Bool := match ps[i]? with
    | some p => p.1.value && p.2.value
    | none   => false
  let Φ (y y' : Nat → Deal) : Prop := y' = fun i => (y i).of (factors i)
  refine .bind (.session (Φ := Φ) fun y => ⟨_, rfl, ?_⟩) ?_
  · funext i
    simp only [product, List.zip_map', List.map_map, List.getElem?_map, factors]
    cases ps[i]?
    case none   => rfl
    case some p => rfl
  rintro (y : Nat → Deal) (_ : Nat → Deal) rfl
  refine .pure ⟨(List.range ps.length).map fun i => ((y i).of (factors i)).pair, ?_, ?_, ?_⟩
  case refine_1 =>
    refine List.forall₂_iff_get.mpr ⟨by simp, fun i hi hi' => ?_⟩
    simp only [List.get_eq_getElem, List.getElem_map, List.getElem_range, Product, Deal.value_pair]
    simp only [factors, List.getElem?_eq_getElem hi]
  case refine_2 =>
    rw [List.length_map, List.map_map]
    rfl
  case refine_3 =>
    rw [List.length_map, List.map_map]
    rfl

theorem scale_mac {x k δ : Block} {b : Bool} (c : Bool) (h : x = k ^^^ scale b δ) :
    scale c x = scale c k ^^^ scale (b && c) δ := by
  subst h
  cases c
  case false => simp
  case true  => simp

theorem lsb_ones : lsb (.replicate 16 1) = true := by
  decide

theorem lawful (hΔ : lsb Δg = true) (Δe : Block) (hash : Block → Nat → Block) :
    Lawful (swanky hash) functionality (garbler Δg Δe) (evaluator Δg Δe) (Paired Δg Δe)
      fun _ _ => True where
  lsb_delta := hΔ
  mac_eq h := h.evaluatorMac
  paired_xor h h' := {
    garblerMac   := by
      simp only [Share.xor, h.garblerMac, h'.garblerMac, scale_xor, Arr.xor_assoc,
        Arr.xor_left_comm]
    evaluatorMac := by
      simp only [Share.xor, h.evaluatorMac, h'.evaluatorMac, scale_xor, Arr.xor_assoc,
        Arr.xor_left_comm]
  }
  paired_mul h := {
    garblerMac   := scale_mac _ h.garblerMac
    evaluatorMac := scale_mac _ h.evaluatorMac
  }
  paired_constant := {
    garblerMac   := (Arr.xor_self _).symm
    evaluatorMac := (Arr.xor_self 0).symm
  }
  garbler_bit_xor := rfl
  evaluator_bit_xor := rfl
  garbler_bit_mul := rfl
  evaluator_bit_mul := rfl
  bit_constant := Bool.xor_false _
  generateTriples := by
    refine .bind (.session (Φ := fun _ _ => True) fun _ => ⟨(), rfl, trivial⟩) ?_
    rintro _ _ -
    refine .pure ⟨by simp, List.forall₂_iff_get.mpr ⟨by simp, fun _ _ _ => trivial⟩⟩
  generate := shares_scheduled _
  toKnownTriple ps _ _ := toKnownTriple_scheduled ps
  openGarbler ss := openMyShares_openTheirShares (fun p => p.paired.garblerMac) ss
  openEvaluator ss := openTheirShares_openMyShares (fun p => p.paired.evaluatorMac) ss
  openBoth ss := by
    refine .bind (openMyShares_openTheirShares (fun p => p.paired.garblerMac) ss) ?_
    rintro _ _ rfl
    refine .bind (openTheirShares_openMyShares (fun p => p.paired.evaluatorMac) ss) ?_
    rintro _ _ rfl
    simp only [List.zipWith_map, List.zipWith_self]
    exact .pure ⟨rfl, List.map_congr_left fun p _ => rfl⟩

end

-- A dealer who deals all bits as zero.
def zeros : Masks dealt := fun _ q =>
  match q with
  | .triples    => ()
  | .shares     => fun _ => ⟨false, false, 0, 0⟩
  | .products _ => fun _ => ⟨false, false, 0, 0⟩

-- A computation that passes `k` AND gates.
def Counted (k : Nat) (p : StateM Nat α) : Prop :=
  ∀ i, (p.run i).2 = i + k

namespace Counted

theorem pure {a : α} : Counted 0 (pure a) :=
  fun _ => rfl

theorem bind {p : StateM Nat α} {f : α → StateM Nat β} (h : Counted k p)
    (hf : ∀ a, Counted l (f a)) : Counted (k + l) (p >>= f) := by
  intro i
  refine (hf _ _).trans ?_
  exact (congrArg (· + l) (h i)).trans (Nat.add_assoc i k l)

theorem of_eq {p : StateM Nat α} (h : Counted k p) (hk : k = l) : Counted l p :=
  hk ▸ h

theorem constant {b : Bool} : Counted 0 (FancyBinary.constant b : StateM Nat Unit) :=
  fun _ => rfl

theorem xor {x y : Unit} : Counted 0 (FancyBinary.xor x y : StateM Nat Unit) :=
  fun _ => rfl

theorem and {x y : Unit} : Counted 1 (FancyBinary.and x y : StateM Nat Unit) :=
  fun _ => rfl

theorem ofFnM {f : Fin m → StateM Nat α} (h : ∀ i, Counted k (f i)) :
    Counted (m * k) (Vector.ofFnM f) := by
  induction m
  case zero =>
    rw [Nat.zero_mul, Vector.ofFnM_zero]
    exact pure
  case succ m hi =>
    rw [Nat.succ_mul, Vector.ofFnM_succ]
    exact (hi fun i => h i.castSucc).bind fun _ => (h _).bind fun _ => pure

theorem foldlM {f : β → α → StateM Nat β} (h : ∀ b a, Counted k (f b a)) (l : List α) (b : β) :
    Counted (l.length * k) (l.foldlM f b) := by
  induction l generalizing b
  case nil =>
    rw [List.length_nil, Nat.zero_mul]
    exact pure
  case cons a l hi =>
    rw [List.foldlM_cons, List.length_cons, Nat.succ_mul, Nat.add_comm]
    exact (h b a).bind hi

theorem straightLine (c : StraightLine s n) (ws : Vector Unit s) :
    Counted c.nands (c.execute (M := StateM Nat) ws) := by
  intro i
  induction c generalizing i
  case outputs          => rfl
  case constant hi      => exact hi _ i
  case negate hi        => exact hi _ i
  case xor hi           => exact hi _ i
  case and rest hi      => exact (hi _ (i + 1)).trans (Nat.add_right_comm i 1 rest.nands)

theorem counts {c : Executor s n} (h : ∀ ws, Counted k (c.execute (M := StateM Nat) ws))
    (hash : Block → Nat → Block) : (swanky hash).Counts c k where
  nands   := (h _ 0).trans (Nat.zero_add k)
  ninputs := rfl

end Counted

end Garbling.Dealer
