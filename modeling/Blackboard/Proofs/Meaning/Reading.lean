import Mathlib.Algebra.Ring.Int.Defs
import Mathlib.Data.Int.Cast.Basic
import Blackboard.Proofs.Meaning.Expression
import Blackboard.Proofs.WellFormed.Magnitude

/-!
Readings of expressions as numbers, whole or not. A constant is merged with an expression in a way that no
reading can tell from adding it.
-/
namespace Blackboard

open Meaning

namespace Pseudo

/-- A way to read expressions as numbers. Whole numbers mean themselves, and sums and differences are
computed. What other expressions mean is open; they need not mean anything. -/
structure Reading (K : Type) [Ring K] where
  Reads : Expr → K → Prop
  unique {e : Expr} {x y : K} : Reads e x → Reads e y → x = y
  literal (text : String) (n : Int) (line : Option Nat) : Reads (.literal text (some (.int n)) line) n
  add {a b : Expr} {line : Option Nat} {x : K} :
    Reads (.binary .add a b line) x ↔ ∃ y z, Reads a y ∧ Reads b z ∧ x = y + z
  sub {a b : Expr} {line : Option Nat} {x : K} :
    Reads (.binary .sub a b line) x ↔ ∃ y z, Reads a y ∧ Reads b z ∧ x = y - z

def valueReading (w : World) (σ : Store) : Reading Int where
  Reads e n := e.value w σ = some (.int n)
  unique h h' := by simpa using h.symm.trans h'
  literal text n line := by simp [Expr.value]
  add {a b line n} := by
    simp only [Expr.value, Option.bind_eq_some_iff]
    constructor
    · rintro ⟨y | _, hu, z | _, hv, h⟩ <;> simp only [BinaryOp.apply, reduceCtorEq] at h
      exact ⟨y, z, hu, hv, by simpa using h.symm⟩
    · rintro ⟨y, z, hy, hz, rfl⟩
      exact ⟨_, hy, _, hz, rfl⟩
  sub {a b line n} := by
    simp only [Expr.value, Option.bind_eq_some_iff]
    constructor
    · rintro ⟨y | _, hu, z | _, hv, h⟩ <;> simp only [BinaryOp.apply, reduceCtorEq] at h
      exact ⟨y, z, hu, hv, by simpa using h.symm⟩
    · rintro ⟨y, z, hy, hz, rfl⟩
      exact ⟨_, hy, _, hz, rfl⟩

section

variable {K : Type} [Ring K]

/-- What an expression of sums and differences is worth where variables hold these numbers. -/
def Expr.amount? (σ : String → K) : Expr → Option K
  | .literal _ (some (.int n)) _ => some n
  | .identifier x _ _ => some (σ x)
  | .binary .add a b _ => do return (← a.amount? σ) + (← b.amount? σ)
  | .binary .sub a b _ => do return (← a.amount? σ) - (← b.amount? σ)
  | _ => none

def amountReading (σ : String → K) : Reading K where
  Reads e x := e.amount? σ = some x
  unique h h' := by simpa using h.symm.trans h'
  literal text n line := by simp [Expr.amount?]
  add {a b line x} := by simp [Expr.amount?, Option.bind_eq_some_iff, @eq_comm K x]
  sub {a b line x} := by simp [Expr.amount?, Option.bind_eq_some_iff, @eq_comm K x]

end

namespace Reading

variable {K : Type} [Ring K] (R : Reading K) {e : Expr} {x : K}

theorem plainOffset (k : Int) (h : R.Reads e x) : R.Reads (e.plainOffset k) (x + k) := by
  unfold Expr.plainOffset
  split
  · exact R.add.2 ⟨x, k, h, R.literal .., rfl⟩
  · exact R.sub.2 ⟨x, ((-k : Int) : K), h, R.literal .., by simp⟩

theorem reads_of_literalInt? {n} (hn : e.literalInt? = some n) (h : R.Reads e x) : x = n := by
  unfold Expr.literalInt? at hn
  split at hn
  · cases hn
    exact R.unique h (R.literal ..)
  · cases hn

theorem addOffset (k : Int) (h : R.Reads e x) : R.Reads (e.addOffset k) (x + k) := by
  fun_induction Expr.addOffset e k generalizing x with
  | case1 | case4 | case8 => simpa using h
  | case2 t l k _ m =>
    rw [R.unique h (R.literal t m l), ← Int.cast_add]
    exact R.literal ..
  | case5 left right l k _ m hm ih =>
    obtain ⟨y, z, hy, hz, rfl⟩ := R.add.1 h
    rw [R.reads_of_literalInt? hm hz, add_assoc, ← Int.cast_add]
    exact ih hy
  | case6 left right l k _ m hm ih =>
    obtain ⟨y, z, hy, hz, rfl⟩ := R.sub.1 h
    rw [R.reads_of_literalInt? hm hz, sub_eq_add_neg, add_assoc, ← Int.cast_neg, ← Int.cast_add]
    exact ih hy
  | case3 | case7 | case9 => exact R.plainOffset _ h

end Reading

def Expr.Exceeds (a : Expr) (k : Int) (b : Expr) : Prop :=
  ∀ (K : Type) [Ring K] (R : Reading K) (x : K), R.Reads a x → R.Reads b (x + k)

theorem Expr.Exceeds.refl (a : Expr) : a.Exceeds 0 a := fun K _ R x h => by simpa using h

theorem Expr.Exceeds.addOffset {a b : Expr} {j : Int} (h : a.Exceeds j b) (k : Int) :
    a.Exceeds (j + k) (b.addOffset k) := by
  intro K _ R x hx
  rw [Int.cast_add, ← add_assoc]
  exact R.addOffset k (h K R x hx)

end Pseudo

end Blackboard
