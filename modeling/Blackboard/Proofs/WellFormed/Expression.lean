import Blackboard.Conversion.Statement
import Blackboard.Proofs.WellFormed.Magnitude
import Blackboard.Proofs.WellFormed.Tree
import Mathlib.Data.List.Forall2

/-!
Well-formed expressions with bounded numbers: what conversions of expressions give. Such an expression
can be written unless its bound is so large that a number within it cannot.
-/
namespace Blackboard

open Source.Expr (nodes)
open Conversion
open Source (Span weight exprNodes partNodes)
open Pseudo (Expr)
open Nat (zero_le le_succ max_le)
open Pseudo.StringMethod (find? all substring apply)

/-! ### Proper expressions -/

namespace Pseudo.Expr

variable {n : Nat} {args : List Expr} {line : Option Nat}

/-- A well-formed expression, none of whose numbers exceeds `n` even with constants folded. -/
structure Proper (n : Nat) (e : Expr) : Prop where
  wellFormed : e.WellFormed
  within : e.Within n

theorem Proper.mono {m n : Nat} {e : Expr} (h : e.Proper m) (hmn : m ≤ n) : e.Proper n :=
  ⟨h.wellFormed, h.within.mono hmn⟩

theorem WellFormed.number (n : Int) (line : Option Nat) : (number n line).WellFormed := .literal

theorem WellFormed.plainOffset {e : Expr} (h : e.WellFormed) (k : Int) : (e.plainOffset k).WellFormed := by
  unfold Expr.plainOffset
  split
  · exact .binary (by decide) h .literal
  · exact .binary (by decide) h .literal

theorem WellFormed.addOffset {e : Expr} (h : e.WellFormed) (k : Int) : (e.addOffset k).WellFormed := by
  fun_induction Expr.addOffset e k with
  | case1 | case4 | case8 => exact h
  | case2 => exact .literal
  | case5 _ _ _ _ _ _ _ ih | case6 _ _ _ _ _ _ _ ih =>
    cases h with
    | binary _ hleft _ => exact ih hleft
  | case3 | case7 | case9 => exact h.plainOffset _

theorem WellFormed.subtract {a b : Expr} (ha : a.WellFormed) (hb : b.WellFormed) : (a.subtract b).WellFormed := by
  unfold Expr.subtract
  split
  · exact .literal
  · exact ha.addOffset _
  · exact .binary (by decide) ha hb

theorem Proper.addOffset {e : Expr} {n : Nat} (h : e.Proper n) (k : Int) : (e.addOffset k).Proper (n + k.natAbs) :=
  ⟨h.wellFormed.addOffset k, h.within.addOffset k⟩

theorem Proper.of_parts {e : Expr} (hw : e.WellFormed) (hp : e.peak ≤ n) (hs : e.spine = 0) : e.Proper n :=
  ⟨hw, hp, hs ▸ zero_le n⟩

theorem proper_call {name : String} {declared : Option Bool} (h : ∀ a ∈ args, a.Proper n) :
    (call name args declared line).Proper n :=
  .of_parts (.call fun a ha => (h a ha).wellFormed) (peakOf_le_iff.2 fun a ha => (h a ha).within.peak_le) rfl

theorem proper_array {items : List Expr} (h : ∀ a ∈ items, a.Proper n) : (array items line).Proper n :=
  .of_parts (.array fun a ha => (h a ha).wellFormed) (peakOf_le_iff.2 fun a ha => (h a ha).within.peak_le) rfl

theorem proper_newObject {name : String} (h : ∀ a ∈ args, a.Proper n) : (newObject name args line).Proper n :=
  .of_parts (.newObject fun a ha => (h a ha).wellFormed) (peakOf_le_iff.2 fun a ha => (h a ha).within.peak_le) rfl

theorem proper_binary {op a b m} (hop : op ∈ BinaryOp.known)
    (ha : a.Proper m) (hb : b.Proper n) : (binary op a b line).Proper (m + n) where
  wellFormed := .binary hop ha.wellFormed hb.wellFormed
  within := by
    obtain ⟨-, hapeak, haspine⟩ := ha
    obtain ⟨-, hbpeak, -⟩ := hb
    constructor
    · rw [peak]
      omega
    · have hsum : (b.literalInt?.map fun k => a.spine + k.natAbs).getD 0 ≤ m + n := by
        cases hb : b.literalInt? with
        | none => exact zero_le _
        | some k =>
          have := natAbs_le_peak hb
          simp only [Option.map_some, Option.getD_some]
          omega
      cases op <;> simp only [spine] <;> first | exact hsum | exact zero_le _

end Pseudo.Expr

open Pseudo.Expr (Proper Within)

/-- Numbers that large may occur in a program whose weight is `n` that one cannot be written. -/
def Heavy (n : Nat) : Prop := 10 ^ digitLimit ≤ n

namespace Convert

variable {W n : Nat}
variable {e : Expr} {raw method : String} {value : Numeral} {span : Span} {es : List Source.Expr}
    {m : Pseudo.StringMethod} {op : Source.BinaryOp}

/-! ### Numbers that cannot be written -/

theorem heavy_of_not_writable (hn : e.peak ≤ W) (hw : ¬e.writable = true) : Heavy W := by
  by_contra hlt
  exact hw (e.writable_of_peak_lt (Nat.lt_of_le_of_lt hn (Nat.lt_of_not_le hlt)))

theorem eq_int_of_numberText?_eq_none (h : numberText? raw value = none) :
    ∃ n : Nat, value = .int n ∧ ¬writable n = true := by
  unfold numberText? at h
  extract_lets cs at h
  split at h
  · split at h
    · next n =>
      split at h
      · cases h
      · next hn => exact ⟨n, rfl, hn⟩
    · cases h
  · split at h <;> cases h

theorem heavy_of_numberText?_eq_none (hnone : numberText? raw value = none)
    (h : weight (Source.Expr.number span value raw).nodes ≤ W) : Heavy W := by
  obtain ⟨n, rfl, hn⟩ := eq_int_of_numberText?_eq_none hnone
  simp only [nodes, Source.weight_cons, Source.weight_nil, Source.Node.weight] at h
  by_contra hlt
  have hlt := Nat.lt_of_not_le hlt
  exact hn (writable_of_natAbs_lt (by omega))

theorem proper_numberValue (text : String) (line : Option Nat) :
    (Pseudo.Expr.literal text (some (numberValue value)) line).Proper
      (weight (Source.Expr.number span value raw).nodes) := by
  cases value with
  | int n =>
    refine ⟨.literal, ?_, ?_⟩ <;>
      simp [numberValue, Pseudo.Expr.peak, Pseudo.Expr.spine, nodes, Source.Node.weight]
  | real d => exact .of_parts .literal (zero_le _) rfl

/-! ### Calls -/

abbrev ProperAll (es : List Source.Expr) (as : List Expr) : Prop :=
  List.Forall₂ (fun e a => Proper (weight e.nodes) a) es as

theorem ProperAll.proper {as : List Expr} (h : ProperAll es as)
    (hn : weight (exprNodes es) ≤ n) : ∀ a ∈ as, a.Proper n := by
  induction h generalizing n with
  | nil => simp
  | cons ha _ ih =>
    rw [exprNodes, Source.weight_append] at hn
    intro b hb
    rcases List.mem_cons.1 hb with rfl | hb
    · exact ha.mono (by omega)
    · exact ih (by omega) b hb

theorem ProperAll.pair {a b} (h : ProperAll es [a, b])
    (hn : weight (exprNodes es) ≤ n) : ∃ i j, a.Within i ∧ b.Within j ∧ i + j ≤ n := by
  cases h with
  | cons ha h => cases h with
    | cons hb h =>
      cases h
      simp only [exprNodes, Source.weight_append, Source.weight_nil] at hn
      exact ⟨_, _, ha.within, hb.within, by omega⟩

theorem fits_of_find? {name arity} (h : find? name arity = some m) : Pseudo.Template.Fits m.template arity := by
  have hall : ∀ m ∈ all, ∀ k ∈ m.arities, Pseudo.Template.Fits m.template k := by
    decide
  have hm := List.mem_of_find?_eq_some h
  have harity := List.find?_some h
  rw [Bool.and_eq_true, List.contains_iff_mem] at harity
  exact hall m hm arity harity.2

theorem wellFormed_substring {target start : Expr} {stop : Option Expr}
    (ht : target.WellFormed) (hstart : start.WellFormed) (hstop : ∀ e ∈ stop, e.WellFormed) :
    (substring target start stop).WellFormed := by
  have htarget : (Pseudo.Expr.call "LENGTH" [target] none none).WellFormed :=
    .call (by simpa using ht)
  refine .call ?_
  simp only [List.forall_mem_cons]
  refine ⟨ht, hstart.addOffset 1, ?_, by simp⟩
  cases stop with
  | none => exact htarget.subtract hstart
  | some e => exact (hstop e rfl).subtract hstart

theorem wellFormed_apply {name : String} {target : Expr} {args : List Expr}
    (h : find? name args.length = some m) (ht : target.WellFormed)
    (hargs : ∀ a ∈ args, a.WellFormed) : (m.apply target args).WellFormed := by
  have hfits := fits_of_find? h
  unfold apply
  split
  · exact wellFormed_substring ht (hargs _ (by simp)) (by simp)
  · exact wellFormed_substring ht (hargs _ (by simp)) (by simpa using hargs _ (by simp))
  · split
    · refine .builtin (by simpa using hfits) ht fun a ha => ?_
      obtain ⟨b, hb, rfl⟩ := List.mem_map.1 ha
      exact (hargs b hb).addOffset 1
    · exact .builtin hfits ht hargs

theorem proper_mapMathFunction? {args : List Expr}
    (h : Pseudo.mapMathFunction? method args = some e) (hargs : ∀ a ∈ args, a.Proper n) :
    e.Proper n := by
  unfold Pseudo.mapMathFunction? at h
  obtain ⟨f, -, rfl⟩ := Option.map_eq_some_iff.1 h
  split
  · next left right line =>
    obtain ⟨hw, hp, -⟩ := hargs _ List.mem_cons_self
    rw [Pseudo.Expr.peak, max_le] at hp
    cases hw with
    | binary _ hleft hright =>
      refine .of_parts (.call (by simpa using ⟨hleft, hright⟩)) ?_ rfl
      rw [Pseudo.Expr.peak, Pseudo.Expr.peakOf_le_iff]
      simpa using hp
  · exact Pseudo.Expr.proper_call hargs

/-! ### Operators -/

theorem operator?_mem_known {mapped} (h : operator? op = some mapped) : mapped ∈ Pseudo.BinaryOp.known := by
  revert mapped
  cases op <;> decide

theorem proper_negated (h : e.Proper n) : (negated span e).Proper n := by
  obtain ⟨hw, hp, hs⟩ := h
  unfold negated
  split
  · rw [Pseudo.Expr.peak] at hp
    exact ⟨.literal, by simpa [Pseudo.Expr.peak] using hp, by simpa [Pseudo.Expr.spine] using hp⟩
  · exact .of_parts .literal (zero_le _) rfl
  · exact .of_parts (.unary (.inr rfl) hw) hp rfl

theorem proper_join {line : Option Nat} {es : List Expr} (h : ∀ e ∈ es, e.Proper n) : (join line es).Proper n := by
  cases es with
  | nil => exact .of_parts .literal (zero_le _) rfl
  | cons e es =>
    have hfold : ∀ (es : List Expr) (a : Expr), (∀ e ∈ es, e.Proper n) → a.Proper n →
        (es.foldl (fun a b => Pseudo.Expr.binary .concat a b line) a).Proper n := by
      intro es
      induction es with
      | nil => exact fun _ _ ha => ha
      | cons b bs ih =>
        intro a hes ha
        obtain ⟨hb, hbs⟩ := List.forall_mem_cons.1 hes
        exact ih _ hbs (.of_parts (.binary (by decide) ha.wellFormed hb.wellFormed)
          (max_le.2 ⟨ha.within.peak_le, hb.within.peak_le⟩) rfl)
    exact hfold es e (fun b hb => h b (by simp [hb])) (h e (by simp))

end Convert

end Blackboard
