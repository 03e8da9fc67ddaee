import Blackboard.Proofs.Meaning.Reading

/-!
Constants that are folded into an expression. However the parts of an expression that are neither whole
numbers nor sums nor differences are understood, folding adds what it was asked to add, and it writes at
most one operator more.
-/
namespace Blackboard.Pseudo

theorem Reading.subtract {K : Type} [Ring K] (R : Reading K) {a b : Expr} {x y : K} (ha : R.Reads a x)
    (hb : R.Reads b y) : R.Reads (a.subtract b) (x - y) := by
  unfold Expr.subtract
  split
  · next m n hm hn =>
    rw [R.reads_of_literalInt? hm ha, R.reads_of_literalInt? hn hb, ← Int.cast_sub]
    exact R.literal ..
  · next n _ hn =>
    rw [R.reads_of_literalInt? hn hb, sub_eq_add_neg, ← Int.cast_neg]
    exact R.addOffset _ ha
  · exact R.sub.2 ⟨x, y, ha, hb, rfl⟩

namespace Expr

/-- What an expression is worth where `other` says what everything is worth that is neither a whole number
nor a sum nor a difference. -/
def worth (other : Expr → Int) : Expr → Int
  | literal _ (some (.int n)) _ => n
  | binary .add a b _ => a.worth other + b.worth other
  | binary .sub a b _ => a.worth other - b.worth other
  | e => other e

def worthReading (other : Expr → Int) : Reading Int where
  Reads e n := e.worth other = n
  unique h h' := h.symm.trans h'
  literal text n line := rfl
  add {a b line n} := by simp [worth, eq_comm]
  sub {a b line n} := by simp [worth, eq_comm]

def isOperation : Expr → Bool
  | binary .. | unary .. => true
  | _ => false

/-- How many operators are written in an expression, at any depth. -/
def operators (e : Expr) : Nat := e.nodes.countP isOperation

theorem operators_binary (op : BinaryOp) (a b : Expr) (line : Option Nat) :
    (binary op a b line).operators = a.operators + b.operators + 1 := by
  unfold operators
  rw [nodes, List.countP_cons_of_pos rfl, List.countP_append]

theorem operators_number (n : Int) (line : Option Nat) : (number n line).operators = 0 := by
  simp [operators, number, nodes, isOperation]

theorem operators_plainOffset (e : Expr) (k : Int) : (e.plainOffset k).operators = e.operators + 1 := by
  unfold plainOffset
  split <;> rw [operators_binary, operators_number, Nat.add_zero]

theorem operators_addOffset_le (e : Expr) (k : Int) : (e.addOffset k).operators ≤ e.operators + 1 := by
  fun_induction addOffset e k with
  | case1 | case4 | case8 => exact Nat.le_succ _
  | case2 t l k _ n =>
    rw [operators_number]
    exact Nat.zero_le _
  | case5 left right l k _ n _ ih | case6 left right l k _ n _ ih =>
    rw [operators_binary]
    omega
  | case3 | case7 | case9 => exact Nat.le_of_eq (operators_plainOffset _ _)

theorem operators_subtract_le (a b : Expr) : (a.subtract b).operators ≤ a.operators + b.operators + 1 := by
  unfold subtract
  split
  · rw [operators_number]
    exact Nat.zero_le _
  · next n _ _ =>
    have hle := operators_addOffset_le a (-n)
    omega
  · rw [operators_binary]

theorem folding_keeps_worth (other : Expr → Int) (e a b : Expr) (k : Int) :
    (e.addOffset k).worth other = e.worth other + k ∧
    (a.subtract b).worth other = a.worth other - b.worth other ∧
    (e.addOffset k).operators ≤ e.operators + 1 ∧
    (a.subtract b).operators ≤ a.operators + b.operators + 1 :=
  ⟨(worthReading other).addOffset k rfl, (worthReading other).subtract rfl rfl,
    operators_addOffset_le e k, operators_subtract_le a b⟩

end Expr

end Blackboard.Pseudo
