import Reckon.Proofs.Machine.Outcome

/-!
# Input — flat sequences and what they compute

A machine reads a flat sequence of operands and operators.  This file says which result a part of
such a sequence stands for, whatever the machine holds when it meets the part:

* `Machine.Computes r p is o` — no operator of `is` outside of brackets binds looser than `p`, and
  once the operators that bind from `p` on are reduced, all that is left of `is` is its result `o`;
* `Machine.ComputesTight r is o` — `is` also holds together behind a minus in front of it.

The lemmas of the second half build such parts from smaller ones: operands, brackets, calls, minus
signs in front, and binary operators, which group from the left.
-/

namespace Reckon
namespace Machine

variable {α : Type}

/-- What a machine reads: an operand, unless finding it fails, or an operator. -/
inductive Input (α : Type) where
  | operand (o : Except Error α)
  | operator (op : Operator)

/-- The state behind one input. -/
def feedInput (r : Reducer α) (s : State α) : Input α → Except Error (State α)
  | .operand o => o >>= fun v => .ok (s.withOperand v)
  | .operator op => advance r op s

/-- The state behind a sequence of inputs. -/
def feedAll (r : Reducer α) (s : State α) (is : List (Input α)) : Except Error (State α) :=
  is.foldlM (feedInput r) s

@[simp] theorem feedAll_nil (r : Reducer α) (s : State α) : feedAll r s [] = .ok s := rfl

@[simp] theorem feedAll_cons (r : Reducer α) (s : State α) (i : Input α) (is : List (Input α)) :
    feedAll r s (i :: is) = feedInput r s i >>= fun t => feedAll r t is := rfl

@[simp] theorem feedAll_singleton (r : Reducer α) (s : State α) (i : Input α) :
    feedAll r s [i] = feedInput r s i :=
  bind_pure _

@[simp] theorem feedAll_append (r : Reducer α) (s : State α) (is js : List (Input α)) :
    feedAll r s (is ++ js) = feedAll r s is >>= fun t => feedAll r t js := by
  unfold feedAll
  rw [List.foldlM_append]

/-! ## Reduction down to a precedence -/

/-- Whether an operator is reduced when everything that binds from `p` on is. -/
def bindsFrom (p : Int) (op : Operator) : Bool :=
  op.executable && p ≤ op.precedence

theorem bindsFrom_mono {p q : Int} (hqp : q ≤ p) (op : Operator) (h : bindsFrom p op = true) :
    bindsFrom q op = true := by
  simp only [bindsFrom, Bool.and_eq_true, decide_eq_true_eq] at h ⊢
  exact ⟨h.1, by omega⟩

/-- No operator binds looser than the comma. -/
theorem executable_eq_bindsFrom : Operator.executable = bindsFrom (-1) := by
  funext op
  rcases op with (_ | _ | _ | _ | _ | _) | (_ | _) | (_ | _ | _ | _ | _ | _ | _ | _ | _ | _) <;>
    decide

/-- No operator binds tighter than the minus in front of an operand. -/
theorem precedence_le (op : Operator) : op.precedence ≤ 2 := by
  rcases op with (_ | _ | _ | _ | _ | _) | (_ | _) | (_ | _ | _ | _ | _ | _ | _ | _ | _ | _) <;>
    decide

/-- Whether a part that binds from `p` on is left alone by the operator in front of it. -/
def Admits (p : Int) (s : State α) : Prop :=
  ∀ op, s.operators.top? = some op → bindsFrom p op = false ∧ op.isFunction = false

theorem Admits.mono {p q : Int} {s : State α} (h : Admits q s) (hqp : q ≤ p) : Admits p s := by
  intro op htop
  obtain ⟨hbinds, hfunction⟩ := h op htop
  refine ⟨?_, hfunction⟩
  cases hp : bindsFrom p op with
  | false =>
    rfl
  | true =>
    rw [bindsFrom_mono hqp op hp] at hbinds
    exact hbinds

theorem Admits.settle {p : Int} {s : State α} (h : Admits p s) (r : Reducer α) (v : α) :
    settle r (bindsFrom p) (s.withOperand v) = .ok (s.withOperand v) :=
  settle_of_top fun op htop => (h op htop).1

/-! ## Parts of a sequence -/

/-- In any state whose operators leave it alone, the inputs have the effect of their result. -/
def Computes (r : Reducer α) (p : Int) (is : List (Input α)) (o : Except Error α) : Prop :=
  ∀ s : State α, Admits p s →
    (feedAll r s is >>= settle r (bindsFrom p)) = o >>= fun v => .ok (s.withOperand v)

/-- As `Computes`, also behind a minus in front of the inputs, which is reduced either way. -/
def ComputesTight (r : Reducer α) (is : List (Input α)) (o : Except Error α) : Prop :=
  ∀ s : State α, (∀ f, s.operators.top? = some (.function f) → 2 ≤ f.precedence) →
    (feedAll r s is >>= settle r (bindsFrom 2)) =
      o >>= fun v => settle r (bindsFrom 2) (s.withOperand v)

variable {r : Reducer α} {p q : Int} {is js : List (Input α)} {o o' : Except Error α}

theorem Computes.mono (h : Computes r p is o) (hqp : q ≤ p) : Computes r q is o := by
  intro s hs
  -- reduce down to `p` first, where the result of the inputs is known
  rw [bind_settle r (bindsFrom_mono hqp), h s (hs.mono hqp), bind_assoc]
  congr 1
  funext v
  exact hs.settle r v

theorem ComputesTight.computes (h : ComputesTight r is o) (hp : p ≤ 2) : Computes r p is o := by
  intro s hs
  have htop : ∀ f, s.operators.top? = some (.function f) → 2 ≤ f.precedence := by
    intro f hf
    exact absurd (hs _ hf).2 (by simp [Operator.isFunction])
  rw [bind_settle r (bindsFrom_mono hp), h s htop, bind_assoc]
  congr 1
  funext v
  -- behind the result nothing binds from `p` on, let alone tighter
  rw [settle_settle r (bindsFrom_mono hp)]
  exact hs.settle r v

/-! ## Building parts -/

theorem computesTight_operand (r : Reducer α) (o : Except Error α) :
    ComputesTight r [.operand o] o := by
  intro s _
  simp only [feedAll_cons, feedAll_nil, feedInput, bind_assoc]
  rfl

/-- A left bracket keeps the operators in front of it from the inputs behind it. -/
theorem Computes.feedAll_bracket (h : Computes r (-1) is o) (s : State α) :
    feedAll r s (.operator (.bracket .left) :: is ++ [.operator (.bracket .right)]) =
      o >>= fun v => close r (.bracket .right)
        ((s.withOperator (.bracket .left)).withOperand v) := by
  have hadmits : Admits (-1) (s.withOperator (.bracket .left)) := by
    intro op htop
    cases htop
    exact ⟨rfl, rfl⟩
  -- the right bracket reduces down to the left one, which is down to the lowest precedence
  have hadvance : advance r (.bracket .right) =
      fun t => settle r (bindsFrom (-1)) t >>= close r (.bracket .right) := by
    funext t
    rw [advance_right, executable_eq_bindsFrom]
  have hrun : feedAll r s (.operator (.bracket .left) :: is ++ [.operator (.bracket .right)]) =
      feedAll r (s.withOperator (.bracket .left)) is >>= advance r (.bracket .right) := by
    change feedAll r (s.withOperator (.bracket .left)) (is ++ [.operator (.bracket .right)]) = _
    rw [feedAll_append]
    congr 1
    funext t
    exact feedAll_singleton r t _
  rw [hrun, hadvance, ← bind_assoc, h _ hadmits, bind_assoc]
  rfl

theorem Computes.bracket (h : Computes r (-1) is o) :
    ComputesTight r (.operator (.bracket .left) :: is ++ [.operator (.bracket .right)]) o := by
  intro s htop
  rw [h.feedAll_bracket, bind_assoc]
  congr 1
  funext v
  obtain ⟨operands, ops⟩ := s
  rcases ops with _ | ⟨op | side | f, ops⟩ <;> try rfl
  -- the bracket calls a minus in front of it; without the bracket the reduction would
  have hprecedence : 2 ≤ f.precedence := htop f rfl
  have hbinds : bindsFrom 2 (.function f) = true := by
    simp [bindsFrom, Operator.executable, Operator.isBracket, Operator.precedence, hprecedence]
  change ((perform r (.function f) (v :: operands)).map (⟨·, ops⟩) >>= settle r (bindsFrom 2)) =
    settle r (bindsFrom 2) ⟨v :: operands, .function f :: ops⟩
  rw [settle_cons_of_true r ops _ hbinds]
  cases perform r (.function f) (v :: operands) <;> rfl

theorem Computes.call (h : Computes r (-1) is o) (f : Function) :
    ComputesTight r (.operator (.function f) :: .operator (.bracket .left) :: is ++
      [.operator (.bracket .right)]) (o >>= r.function f) := by
  intro s _
  have hrun : feedAll r s (.operator (.function f) :: .operator (.bracket .left) :: is ++
      [.operator (.bracket .right)]) = o >>= fun v => close r (.bracket .right)
        (((s.withOperator (.function f)).withOperator (.bracket .left)).withOperand v) :=
    h.feedAll_bracket (s.withOperator (.function f))
  rw [hrun, bind_assoc, bind_assoc]
  congr 1
  funext v
  obtain ⟨operands, ops⟩ := s
  -- closing the bracket is what calls the function
  change ((perform r (.function f) (v :: operands)).map (⟨·, ops⟩) >>= settle r (bindsFrom 2)) = _
  rw [perform_function]
  cases r.function f v <;> rfl

theorem ComputesTight.opposite (h : ComputesTight r is o) :
    ComputesTight r (.operator .opposite :: is) (o >>= r.function .opp) := by
  intro s _
  have htop : ∀ f, (s.withOperator .opposite).operators.top? = some (.function f) →
      2 ≤ f.precedence := by
    intro f hf
    cases hf
    decide
  change (feedAll r (s.withOperator .opposite) is >>= settle r (bindsFrom 2)) = _
  rw [h _ htop, bind_assoc]
  congr 1
  funext v
  obtain ⟨operands, ops⟩ := s
  -- a minus in front binds as tight as anything, so it is the first to be reduced
  change settle r (bindsFrom 2) ⟨v :: operands, .function .opp :: ops⟩ = _
  rw [settle_cons_of_true r ops _ (by decide), perform_function]
  cases r.function .opp v <;> rfl

/-- The two operands are on the stack, and the operator between them is the first to be reduced. -/
theorem settle_binary (r : Reducer α) (op : Binary) {s : State α}
    (hs : Admits op.precedence s) (v w : α) :
    settle r (bindsFrom op.precedence)
        (((s.withOperand v).withOperator (.binary op)).withOperand w) =
      r.binary op v w >>= fun u => .ok (s.withOperand u) := by
  obtain ⟨operands, ops⟩ := s
  have hbinds : bindsFrom op.precedence (.binary op) = true := by
    simp [bindsFrom, Operator.executable, Operator.isBracket, Operator.precedence]
  change settle r (bindsFrom op.precedence) ⟨w :: v :: operands, .binary op :: ops⟩ = _
  rw [settle_cons_of_true r ops _ hbinds, perform_binary]
  cases r.binary op v w with
  | error e =>
    rfl
  | ok u =>
    exact hs.settle r u

/-- The state in which the right operand of an operator is met. -/
theorem Computes.feedAll_binary (h : Computes r p is o) (op : Binary) (hp : op.precedence ≤ p)
    {s : State α} (hs : Admits op.precedence s) :
    feedAll r s (is ++ .operator (.binary op) :: js) =
      o >>= fun v => feedAll r ((s.withOperand v).withOperator (.binary op)) js := by
  have hsettle := h.mono hp s hs
  -- the operator makes everything in front of it that binds as tight yield
  have hassoc : feedAll r s (is ++ .operator (.binary op) :: js) =
      (feedAll r s is >>= settle r (bindsFrom op.precedence)) >>= fun t =>
        feedAll r (t.withOperator (.binary op)) js := by
    rw [feedAll_append, bind_assoc]
    congr 1
    funext t
    rw [feedAll_cons, feedInput, advance_binary, bind_assoc]
    rfl
  rw [hassoc, hsettle, bind_assoc]
  rfl

theorem admits_withOperator (op : Binary) (s : State α) (hq : op.precedence < q) :
    Admits q (s.withOperator (.binary op)) := by
  intro other htop
  cases htop
  refine ⟨?_, rfl⟩
  have hle : ¬q ≤ op.precedence := by omega
  simp [bindsFrom, Operator.precedence, hle]

/-- The left operand may bind as tight as the operator, the right one has to bind tighter. -/
theorem Computes.binary (h : Computes r p is o) (op : Binary) (hp : op.precedence ≤ p)
    (h' : Computes r q js o') (hq : op.precedence < q) :
    Computes r op.precedence (is ++ .operator (.binary op) :: js)
      (o >>= fun v => o' >>= fun w => r.binary op v w) := by
  intro s hs
  rw [h.feedAll_binary op hp hs, bind_assoc, bind_assoc]
  congr 1
  funext v
  -- the right operand is complete before the operator is reduced, as it binds tighter
  rw [bind_settle r (bindsFrom_mono (Int.le_of_lt hq)), h' _ (admits_withOperator op _ hq),
    bind_assoc, bind_assoc]
  congr 1
  funext w
  exact settle_binary r op hs v w

/-- A factor is a right operand of any operator. -/
theorem Computes.binary_tight (h : Computes r p is o) (op : Binary) (hp : op.precedence ≤ p)
    (h' : ComputesTight r js o') :
    Computes r op.precedence (is ++ .operator (.binary op) :: js)
      (o >>= fun v => o' >>= fun w => r.binary op v w) := by
  intro s hs
  rw [h.feedAll_binary op hp hs, bind_assoc, bind_assoc]
  congr 1
  funext v
  have htop : ∀ f, ((s.withOperand v).withOperator (.binary op)).operators.top? =
      some (.function f) → 2 ≤ f.precedence := by
    intro f hf
    cases hf
  -- the right operand may share its reduction with the operator, which is the next one below
  have hle : op.precedence ≤ 2 := precedence_le (.binary op)
  rw [bind_settle r (bindsFrom_mono hle), h' _ htop, bind_assoc, bind_assoc]
  congr 1
  funext w
  rw [settle_settle r (bindsFrom_mono hle)]
  exact settle_binary r op hs v w

/-! ## Whole sequences -/

/-- A machine that starts empty ends with the result of its inputs. -/
theorem Computes.final (h : Computes r (-1) is o) :
    (feedAll r .empty is >>= fun t => settle r Operator.executable t >>= final) = o := by
  have hadmits : Admits (-1) (State.empty : State α) := by
    intro op htop
    cases htop
  rw [executable_eq_bindsFrom, ← bind_assoc, h _ hadmits, bind_assoc]
  change (o >>= fun v => .ok v) = o
  exact bind_pure o

end Machine

end Reckon
