import Blackboard.Pseudo.Builtin
import Blackboard.Source.CountingLoop
import Mathlib.Algebra.GroupWithZero.Nat

/-!
How large the whole numbers of an expression can get. Constants are folded into the numbers that stand
last in a sum, so the numbers of a converted expression can exceed those of its source; they stay below
the weight of the source, which is the sum of its numbers and of the number of its nodes.
-/
namespace Blackboard

open Option (some map_some map_eq_some_iff bind_eq_bind bind_eq_some_iff)

theorem writable_of_natAbs_lt {n} (h : n.natAbs < 10 ^ digitLimit) : writable n = true := by
  unfold writable
  generalize digitLimit = d at h ⊢
  exact decide_eq_true h

namespace Pseudo.Expr

variable {n : Nat} {e : Expr}

mutual

def peak : Expr → Nat
  | literal _ (some (.int n)) _ => n.natAbs
  | literal .. | identifier .. | raw .. => 0
  | binary _ a b _ | index a b _ => max a.peak b.peak
  | unary _ a _ | member a _ _ => a.peak
  | call _ args _ _ | array args _ | newObject _ args _ => peakOf args
  | method _ target args _ _ | builtin _ _ _ target args _ => max target.peak (peakOf args)
  | conditional c a b _ => max c.peak (max a.peak b.peak)

def peakOf : List Expr → Nat
  | [] => 0
  | e :: es => max e.peak (peakOf es)

end

/-- The sum of the whole numbers that adding a constant can be folded into, without their signs. -/
def spine : Expr → Nat
  | literal _ (some (.int n)) _ => n.natAbs
  | binary .add left right _ | binary .sub left right _ =>
    (right.literalInt?.map fun n => left.spine + n.natAbs).getD 0
  | _ => 0

/-- Neither a number of the expression nor one that a constant is folded into exceeds `n`. -/
structure Within (n : Nat) (e : Expr) : Prop where
  peak_le : e.peak ≤ n
  spine_le : e.spine ≤ n

theorem Within.mono {m} (h : e.Within m) (hmn : m ≤ n) : e.Within n :=
  ⟨Nat.le_trans h.peak_le hmn, Nat.le_trans h.spine_le hmn⟩

theorem peakOf_le_iff {es} : peakOf es ≤ n ↔ ∀ e ∈ es, e.peak ≤ n := by
  induction es with
  | nil => simp [peakOf]
  | cons e es ih => simp [peakOf, Nat.max_le, ih]

mutual

theorem writable_of_peak_lt (e : Expr) (h : e.peak < 10 ^ digitLimit) : e.writable = true := by
  match e with
  | literal _ (some (.int n)) _ =>
    rw [peak] at h
    rw [Expr.writable, writable_of_natAbs_lt h]
  | literal _ none _ | literal _ (some .null) _ | literal _ (some (.bool _)) _
  | literal _ (some (.real _)) _ | literal _ (some (.text _)) _ | identifier .. | raw .. =>
    simp only [Expr.writable]
  | binary _ a b _ | index a b _ =>
    rw [peak, Nat.max_lt] at h
    rw [Expr.writable, writable_of_peak_lt a h.1, writable_of_peak_lt b h.2, Bool.and_self]
  | unary _ a _ | member a _ _ =>
    rw [peak] at h
    rw [Expr.writable, writable_of_peak_lt a h]
  | call _ args _ _ | array args _ | newObject _ args _ =>
    rw [peak] at h
    rw [Expr.writable, allWritable_of_peakOf_lt args h]
  | method _ target args _ _ | builtin _ _ _ target args _ =>
    rw [peak, Nat.max_lt] at h
    rw [Expr.writable, writable_of_peak_lt target h.1, allWritable_of_peakOf_lt args h.2, Bool.and_self]
  | conditional c a b _ =>
    rw [peak, Nat.max_lt, Nat.max_lt] at h
    rw [Expr.writable, writable_of_peak_lt c h.1, writable_of_peak_lt a h.2.1, writable_of_peak_lt b h.2.2]
    rfl

theorem allWritable_of_peakOf_lt (es : List Expr) (h : peakOf es < 10 ^ digitLimit) : allWritable es = true := by
  match es with
  | [] => rw [allWritable]
  | e :: es =>
    rw [peakOf, Nat.max_lt] at h
    rw [allWritable, writable_of_peak_lt e h.1, allWritable_of_peakOf_lt es h.2, Bool.and_self]

end

/-! ### Constants that are added -/

theorem natAbs_le_peak {n} (h : e.literalInt? = some n) : n.natAbs ≤ e.peak := by
  unfold literalInt? at h
  split at h
  · rw [some.injEq] at h
    exact Nat.le_of_eq (by rw [peak, h])
  · cases h

theorem plainOffset_bounds (e : Expr) (k : Int) : (e.plainOffset k).peak ≤ max e.peak k.natAbs ∧
      (e.plainOffset k).spine ≤ e.spine + k.natAbs := by
  unfold plainOffset
  split <;>
    simp only [peak, spine, number, literalInt?, map_some, Option.getD_some, Int.natAbs_neg, Nat.le_refl, and_self]

theorem addOffset_bounds (e : Expr) (k : Int) : (e.addOffset k).peak ≤ max e.peak (e.spine + k.natAbs) ∧
      (e.addOffset k).spine ≤ e.spine + k.natAbs := by
  have hplain := plainOffset_bounds
  fun_induction addOffset e k with
  | case1 | case4 | case8 => exact ⟨Nat.le_max_left _ _, Nat.le_add_right _ _⟩
  | case2 t l k _ n =>
    simp only [number, peak, spine]
    omega
  | case5 left right l k _ n hn ih | case6 left right l k _ n hn ih =>
    have hright := natAbs_le_peak hn
    simp only [peak, spine, hn, map_some, Option.getD_some]
    omega
  | case3 t l k _ v | case7 left right l k _ op | case9 e k =>
    obtain ⟨hpeak, hspine⟩ := hplain _ k
    exact ⟨Nat.le_trans hpeak (by omega), hspine⟩

theorem Within.addOffset (h : e.Within n) (k : Int) : (e.addOffset k).Within (n + k.natAbs) := by
  obtain ⟨hpeak, hspine⟩ := h
  have hbounds := addOffset_bounds e k
  constructor <;> omega

theorem peak_subtract_le (a b : Expr) : (a.subtract b).peak ≤ max a.peak (a.spine + b.peak) := by
  unfold subtract
  split
  · next i j hi hj =>
    have hj := natAbs_le_peak hj
    have hi : i.natAbs ≤ a.spine := by
      unfold literalInt? at hi
      split at hi
      · rw [some.injEq] at hi
        exact Nat.le_of_eq (by rw [spine, hi])
      · cases hi
    simp only [number, peak]
    omega
  · next j _ hj =>
    have hj := natAbs_le_peak hj
    have hbounds := (addOffset_bounds a (-j)).1
    omega
  · rw [peak]
    omega

end Pseudo.Expr

/-! ### Methods on texts -/

namespace Pseudo.StringMethod

open Expr

/-- The positions that a method is given grow by one, and the length of a part of a text is the
difference of two positions. -/
theorem within_apply (m : StringMethod) {target args n} (ht : target.peak ≤ n) (hargs : ∀ a ∈ args, a.Within n)
    (hpair : ∀ a b, args = [a, b] → ∃ i j, a.Within i ∧ b.Within j ∧ i + j ≤ n) :
    (m.apply target args).Within (n + 1) := by
  unfold apply
  split
  · next start _ =>
    obtain ⟨hpeak, hspine⟩ := hargs start (by simp)
    have hstart := (addOffset_bounds start 1).1
    have hlength := peak_subtract_le (call "LENGTH" [target] none none) start
    simp only [peak, peakOf, spine] at hlength
    refine ⟨?_, Nat.zero_le _⟩
    simp only [substring, peak, peakOf]
    omega
  · next start stop _ =>
    obtain ⟨i, j, ⟨_, _⟩, ⟨_, _⟩, _⟩ := hpair start stop rfl
    have hstart := (addOffset_bounds start 1).1
    have hlength := peak_subtract_le stop start
    refine ⟨?_, Nat.zero_le _⟩
    simp only [substring, peak, peakOf]
    omega
  · refine ⟨?_, Nat.zero_le _⟩
    simp only [peak, Nat.max_le, peakOf_le_iff]
    refine ⟨by omega, ?_⟩
    split
    · intro a ha
      obtain ⟨b, hb, rfl⟩ := List.mem_map.1 ha
      exact ((hargs b hb).addOffset 1).peak_le
    · intro a ha
      exact ((hargs a ha).mono (Nat.le_succ n)).peak_le

end Pseudo.StringMethod

/-! ### The weight of a source -/

namespace Source

variable {e target : Expr} {k : Int}

attribute [local simp] Expr.nodes

def Node.weight : Node → Nat
  | expr (.number _ (.int n) _) => n + 1
  | _ => 1

def weight (nodes : List Node) : Nat := (nodes.map Node.weight).sum

@[simp]
theorem weight_nil : weight [] = 0 := rfl

@[simp]
theorem weight_cons (n : Node) (ns : List Node) : weight (n :: ns) = n.weight + weight ns := rfl

@[simp]
theorem weight_append (ms ns : List Node) : weight (ms ++ ns) = weight ms + weight ns := by
  simp [weight]

theorem weight_le_of_sublist {ms ns} (h : ms.Sublist ns) : weight ms ≤ weight ns := by
  induction h with
  | slnil => exact Nat.le_refl _
  | cons n _ ih => exact Nat.le_trans ih (Nat.le_add_left _ _)
  | cons_cons n _ ih => exact Nat.add_le_add_left ih _

theorem Node.weight_pos (n : Node) : 0 < n.weight := by
  unfold weight
  split <;> omega

theorem Expr.weight_nodes_pos (e : Expr) : 0 < weight e.nodes := by
  cases e <;> simp only [nodes, weight_cons] <;> exact Nat.lt_add_right _ (Node.weight_pos _)

theorem Expr.intLiteral?_lt (h : e.intLiteral? = some k) : k.natAbs < weight e.nodes := by
  fun_induction intLiteral? e generalizing k with
  | case1 span n raw =>
    cases h
    simp [Node.weight]
  | case2 span operand ih =>
    obtain ⟨j, hj, rfl⟩ := map_eq_some_iff.1 h
    have hlt := ih hj
    simp only [nodes, weight_cons]
    omega
  | case3 => cases h

theorem Expr.lengthTarget?_lt (h : e.lengthTarget? = some target) : weight target.nodes < weight e.nodes := by
  unfold lengthTarget? at h
  split at h
  · split at h
    · cases h
      simp [Node.weight]
    · cases h
  · split at h
    · cases h
      simp only [nodes, weight_cons, weight_append, Node.weight, exprNodes, weight_nil]
      omega
    · cases h
  · cases h

theorem Expr.lengthBound?_lt (h : e.lengthBound? = some (target, k)) :
    weight target.nodes + k.natAbs < weight e.nodes := by
  unfold lengthBound? at h
  split at h
  · simp only [bind_eq_bind, bind_eq_some_iff, some.injEq, Prod.mk.injEq] at h
    obtain ⟨j, hj, t, ht, rfl, rfl⟩ := h
    have hj := intLiteral?_lt hj
    have ht := lengthTarget?_lt ht
    simp only [nodes, weight_cons, weight_append]
    omega
  · simp only [bind_eq_bind, bind_eq_some_iff, some.injEq, Prod.mk.injEq] at h
    obtain ⟨j, hj, t, ht, rfl, rfl⟩ := h
    have hj := intLiteral?_lt hj
    have ht := lengthTarget?_lt ht
    simp only [nodes, weight_cons, weight_append]
    omega
  · obtain ⟨t, ht, heq⟩ := map_eq_some_iff.1 h
    cases heq
    exact lengthTarget?_lt ht

theorem Expr.nonzero_lt (h : step?.nonzero e.intLiteral? = some k) : k.natAbs < weight e.nodes :=
  intLiteral?_lt (Option.filter_eq_some_iff.1 h).1

theorem Expr.step?_lt {name} (h : e.step? name = some k) : k.natAbs < weight e.nodes := by
  unfold step? at h
  split at h
  · next op before target =>
    have hpos := target.weight_nodes_pos
    split at h
    · cases h
      simp only [nodes, weight_cons, Node.weight]
      split <;> omega
    · cases h
  · next op target value =>
    simp only [nodes, weight_cons, weight_append, Node.weight]
    split at h
    · cases h
    · split at h
      · have := nonzero_lt h
        omega
      · obtain ⟨j, hj, rfl⟩ := map_eq_some_iff.1 h
        have := nonzero_lt hj
        omega
      · split at h
        · have := nonzero_lt h
          simp only [nodes, weight_cons, weight_append]
          omega
        · cases h
      · split at h
        · obtain ⟨j, hj, rfl⟩ := map_eq_some_iff.1 h
          have := nonzero_lt hj
          simp only [nodes, weight_cons, weight_append]
          omega
        · cases h
      · cases h
  · cases h

namespace CountingLoop

variable {decl : Option VarDecl} {init : List Expr} {name : String}

theorem initial?_le {type start} (h : initial? decl init = some (name, type, start)) :
    weight start.nodes + 2 ≤ weight (varDeclNode decl) + weight (exprNodes init) := by
  unfold initial? at h
  split at h
  · next v =>
    split at h
    · next d hd =>
      obtain ⟨e, he, heq⟩ := map_eq_some_iff.1 h
      cases heq
      obtain ⟨_, ds, _, _, _⟩ := v
      obtain ⟨_, _, _, _, init⟩ := d
      cases hd
      cases he
      simp only [varDeclNode, VarDecl.nodes, declaratorNodes, exprNode, weight_cons, weight_append, Node.weight]
      omega
    · cases h
  · next name' value =>
    cases h
    simp only [varDeclNode, exprNodes, Expr.nodes, weight_cons, weight_append, weight_nil, Node.weight]
    omega
  · cases h

theorem comparison?_le {e bound op} (h : comparison? name e = some (op, bound)) :
    weight bound.nodes + 2 ≤ weight e.nodes := by
  unfold comparison? at h
  split at h
  · next left right =>
    have := left.weight_nodes_pos
    have := right.weight_nodes_pos
    simp only [bind_eq_bind, bind_eq_some_iff] at h
    obtain ⟨back, _, h⟩ := h
    simp only [Expr.nodes, weight_cons, weight_append, Node.weight]
    split at h
    · cases h
      omega
    · split at h
      · cases h
        omega
      · cases h
  · cases h

/-- The start and the bound of a counting loop weigh less than what they are taken from, and so does
its step. -/
theorem ofLoop?_le {update condition body loop} (h : ofLoop? decl init condition update body = some loop) :
    weight loop.start.nodes + 2 ≤ weight (varDeclNode decl) + weight (exprNodes init) ∧
      weight loop.bound.nodes + 2 ≤ weight (exprNode condition) ∧
      loop.step.natAbs ≤ weight (exprNodes update) := by
  simp only [ofLoop?, bind_eq_bind, bind_eq_some_iff] at h
  obtain ⟨⟨name, type, start⟩, hinit, ⟨op, bound⟩, ⟨e, rfl, hbound⟩, h⟩ := h
  have hstart := initial?_le hinit
  have hbound := comparison?_le hbound
  split at h
  · cases h
  · split at h
    · next u =>
      obtain ⟨step, hstep, h⟩ := bind_eq_some_iff.1 h
      have hstep := Expr.step?_lt hstep
      split at h
      · cases h
        simp only [exprNode, exprNodes, weight_append, weight_nil]
        omega
      · cases h
    · cases h

end CountingLoop

end Source

end Blackboard
