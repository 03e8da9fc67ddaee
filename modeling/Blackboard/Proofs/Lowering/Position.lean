import Mathlib.Data.List.Induction
import Blackboard.Proofs.Lowering.CountingLoop

/-!
Positions in collections. Three things adjust a position: a counter that counts from one is a position by
itself; inside a larger expression it is decreased first; and the one that is added is merged with the
constants that stand there already. Together they add exactly one, in every dimension of an access.
-/
namespace Blackboard

open Conversion List
open Meaning
open Source (Span BinaryOp)

/-! ### The expressions of positions -/

namespace Source

/-- The expressions of positions: sums, differences, products and negations of whole numbers, variables
and results of functions. No variable and no function among them is known to give a text. -/
inductive IsPosition (l : Language) (scopes : Scopes) : Expr → Prop where
  | number {span n raw} : IsPosition l scopes (.number span (.int n) raw)
  | identifier {span x} : isVariableName x = true →
      (∀ v, scopes.findVariable? x = some v → Pseudo.Scalar.ofText v.type ≠ .string) →
      IsPosition l scopes (.identifier span x)
  | call {span own f args} : isFunctionName l f = true →
      (∀ p r k, scopes.findCallable? f = some p → p.returns = some r →
        Pseudo.Kind.ofText? r = some k → k.base ≠ .string) →
      (∀ e ∈ args, IsPosition l scopes e) → IsPosition l scopes (.call span (.identifier own f) args)
  | neg {span e} : IsPosition l scopes e → IsPosition l scopes (.unary span .neg e)
  | arithmetic {span op a b} : op.isArithmetic = true → IsPosition l scopes a → IsPosition l scopes b →
      IsPosition l scopes (.binary span op a b)

namespace IsPosition

variable {l : Language} {scopes : Scopes} {e : Expr}

theorem hasTy (h : IsPosition l scopes e) : HasTy l e .int := by
  induction h with
  | number => exact .number
  | identifier hx _ => exact .identifier hx
  | call hf _ _ ih => exact .call hf ih
  | neg _ ih => exact .neg ih
  | arithmetic hop _ _ iha ihb => exact .arithmetic hop iha ihb

theorem infer_ne_string {v} (h : IsPosition v.language v.scopes e) : ∀ k, infer v e = some k → k.base ≠ .string := by
  induction h with
  | number =>
    intro k hk
    simp only [infer, Option.some.injEq] at hk
    simp [← hk]
  | identifier _ hv =>
    intro k hk
    simp only [infer, View.typeOf?, Option.map_eq_some_iff] at hk
    obtain ⟨i, hi, rfl⟩ := hk
    exact hv i hi
  | call hf hresult _ _ =>
    intro k hk
    simp only [infer, inferCall, input?_call_eq_none hf, Expr.dottedName?, numberParser?_eq_none hf,
      View.resultOf?, Option.bind_eq_bind, Option.bind_eq_some_iff] at hk
    obtain ⟨p, hp, r, hr, hk⟩ := hk
    exact hresult p r k hp hr hk
  | neg _ ih =>
    intro k hk
    exact ih k (by simpa [infer] using hk)
  | arithmetic hop _ _ iha ihb => exact infer_arithmetic_ne_string hop iha ihb

theorem inferScalar_ne_string {v} (h : IsPosition v.language v.scopes e) :
    inferScalar v e ≠ some .string :=
  scalar?_ne_string h.infer_ne_string

theorem isString_eq_false (h : IsPosition l scopes e) : Convert.isString e = false := by
  cases h <;> rfl

theorem containsIndex_eq_false (h : IsPosition l scopes e) : e.containsIndex = false := by
  unfold Expr.containsIndex
  induction h with
  | number | identifier => rfl
  | neg _ ih => simp [Expr.nodes, Node.isIndex, Expr.isIndex, ih]
  | arithmetic _ _ _ iha ihb => simp [Expr.nodes, Node.isIndex, Expr.isIndex, iha, ihb]
  | @call span own f args _ _ _ ih =>
    have hargs : (exprNodes args).any Node.isIndex = false := by
      clear * - ih
      induction args with
      | nil => rfl
      | cons e es ihes =>
        rw [exprNodes, any_append, ih e mem_cons_self,
          ihes fun e he => ih e (mem_cons_of_mem _ he), Bool.or_self]
    simp [Expr.nodes, Node.isIndex, Expr.isIndex, hargs]

end IsPosition

def Expr.elementAt (base : Expr) (positions : List (Span × Expr)) : Expr :=
  positions.foldl (fun e p => .index p.1 e p.2) base

theorem Expr.elementAt_append_singleton (base : Expr) (positions : List (Span × Expr)) (span : Span) (e : Expr) :
    base.elementAt (positions ++ [(span, e)]) = .index span (base.elementAt positions) e := by
  rw [elementAt, foldl_append]
  rfl

end Source

def Pseudo.Expr.elementAt (base : Expr) (positions : List (Option Nat × Expr)) : Expr :=
  positions.foldl (fun e p => .index e p.2 p.1) base

theorem Pseudo.Expr.elementAt_append_singleton (base : Expr) (positions : List (Option Nat × Expr))
    (line : Option Nat) (e : Expr) :
    base.elementAt (positions ++ [(line, e)]) = .index (base.elementAt positions) e line := by
  rw [elementAt, foldl_append]
  rfl

/-! ### Their conversion -/

namespace Convert

open Ensures

variable {c : Context} {s : State}
variable {scopes : Scopes} {e : Source.Expr}

def IsNext (scopes : Scopes) (e : Source.Expr) (a : Pseudo.Expr) : Prop :=
  ∀ w σ, ∃ n, e.value w σ = some (.int n) ∧ a.value w (scopes.raised σ) = some (.int (n + 1))

/-- What converting a position comes to: an expression of the same value. Nothing is remarked. -/
def Exact (c : Context) (s : State) (e : Source.Expr) (a : Pseudo.Expr) (t : State) : Prop :=
  t = s ∧ ∀ w σ, a.value w σ = e.value w (asRead c s.scopes σ)

theorem exprs_exact {es} (h : ∀ e ∈ es, Ensures True (expr e) c s (Exact c s e)) :
    Ensures True (exprs es) c s fun as t =>
      t = s ∧ ∀ w σ, Pseudo.values w σ as = Source.values w (asRead c s.scopes σ) es := by
  induction es with
  | nil =>
    exact ⟨rfl, fun w σ => by simp [Pseudo.values, Source.values]⟩
  | cons e es ih =>
    rw [exprs, bind_iff]
    refine (h e mem_cons_self).mono ?_
    rintro a _ ⟨rfl, ha⟩
    rw [bind_iff]
    refine (ih fun e he => h e (mem_cons_of_mem _ he)).mono ?_
    rintro as _ ⟨rfl, has⟩
    exact ⟨rfl, fun w σ => by rw [Pseudo.values, Source.values, ha, has]⟩

theorem variableName_exact {span x} (hx : Source.isVariableName x = true) :
    Ensures True (expr (.identifier span x)) c s (Exact c s (.identifier span x)) := by
  have hvalue : Ensures True (expr (.identifier span x)) c s (Faithful c s (.identifier span x)) :=
    identifier_faithful hx
  have hstate : Ensures True (expr (.identifier span x)) c s fun _ t => t = s := by
    rw [expr, name]
    simp [variableName, ite_iff, bind_iff, get_iff, read_iff, pure_iff]
  exact (hstate.and hvalue).mono fun a t h => ⟨h.1, h.2.2⟩

theorem position_exact {l} (h : Source.IsPosition l scopes e) (hl : c.language = l)
    (hs : s.scopes = scopes) : Ensures True (expr e) c s (Exact c s e) := by
  induction h with
  | @number span n raw =>
    rw [expr, number]
    cases numberText? raw (.int n) with
    | none => trivial
    | some text => exact ⟨rfl, fun w σ => by simp [Pseudo.Expr.value, Source.Expr.value, numberValue]⟩
  | identifier hx _ => exact variableName_exact hx
  | neg _ ih =>
    simp only [expr, unary, bind_iff, pure_iff]
    refine ih.mono fun a t ha => ⟨ha.1, fun w σ => ?_⟩
    rw [negated_value, ha.2, Source.Expr.value, neg_apply]
  | @arithmetic span op x y hop hx hy ihx ihy =>
    have hlogical := BinaryOp.not_isLogical_of_isArithmetic hop
    have hany : (op.isArithmetic || op.isComparison || op.isLogical) = true := by rw [hop]; rfl
    obtain ⟨m, hm, happly⟩ := operator?_apply (.inl hop)
    rw [expr_binary_eq hany, bind_iff]
    refine ihx.mono ?_
    rintro a t ⟨ht, ha⟩
    rw [ht, bind_iff]
    refine ihy.mono ?_
    rintro b u ⟨hu, hb⟩
    rw [hu]
    subst hl hs
    have hx : inferScalar (viewOf c s) x ≠ some .string := hx.inferScalar_ne_string
    have hy : inferScalar (viewOf c s) y ≠ some .string := hy.inferScalar_ne_string
    refine (combine_ensures hany hm hx hy).mono ?_
    rintro _ _ ⟨rfl, rfl⟩
    exact ⟨rfl, fun w σ => by rw [Pseudo.Expr.value, ha, hb, happly, Source.value_binary hlogical]⟩
  | @call span own f args hf _ _ ih =>
    subst hl
    have hsuper : f ≠ "super" := by
      simp only [Source.isFunctionName, Bool.and_eq_true, bne_iff_ne] at hf
      exact hf.1.1
    have hin : (viewOf c s).input? (.call span (.identifier own f) args) = none :=
      Source.input?_call_eq_none hf
    unfold viewOf at hin
    simp only [expr, callOr, bind_iff, view_iff, hin, Source.Expr.dottedName?,
      Source.numberParser?_eq_none hf, nameCall, ite_iff, read_iff, Option.isSome_none,
      Bool.false_and, Bool.false_eq_true, if_false]
    split
    · exact absurd rfl hsuper
    · simp only [bind_iff, pure_iff, get_iff]
      refine (exprs_exact ih).mono fun as t ht => ⟨ht.1, fun w σ => ?_⟩
      rw [Pseudo.Expr.value, ht.2, Source.Expr.value]

theorem indexValue_isNext (hz : c.zeroBased = false) (h : Source.IsPosition c.language s.scopes e) :
    Ensures True (indexValue e (expr e)) c s fun a t => IsNext s.scopes e a ∧ t.scopes = s.scopes ∧
      ∃ ds, t.diagnostics = s.diagnostics ++ ds ∧ ∀ d ∈ ds, d.cause.code = "ARRAY_INDEX_CONVERSION" := by
  have hvalue (w : World) (σ : Store) : ∃ n, e.value w σ = some (.int n) := by
    obtain ⟨_, hv, ⟨n⟩⟩ := h.hasTy.exists_value (w := w) (σ := σ)
    exact ⟨n, hv⟩
  rw [indexValue, bind_iff]
  refine isOneBased_ensures.mono ?_
  rintro b t ⟨ht, hb⟩
  rw [ht]
  split
  · next hone =>
    obtain ⟨span, x, rfl, hx⟩ := hb hone
    refine (position_exact h rfl rfl).mono ?_
    rintro a u ⟨hu, ha⟩
    rw [hu]
    refine ⟨fun w σ => ⟨σ x, by rw [Source.Expr.value], ?_⟩, rfl, [], by simp⟩
    rw [ha, asRead_of_not_zeroBased hz, Source.Expr.value, Scopes.raised, if_pos hx]
  · rw [bind_iff, zeroBased]
    refine (position_exact (c := { c with zeroBased := true }) h rfl rfl).mono ?_
    rintro a u ⟨hu, ha⟩
    rw [hu, bind_iff]
    refine addOffset_value.mono ?_
    rintro a' u' ⟨hu', ha'⟩
    rw [hu']
    simp only [bind_iff, inform, report_iff, h.containsIndex_eq_false,
      Bool.false_eq_true, if_false, pure_iff]
    refine ⟨fun w σ => ?_, trivial, _, rfl, ?_⟩
    · obtain ⟨n, hn⟩ := hvalue w σ
      refine ⟨n, hn, ha' w _ n ?_⟩
      rw [ha, asRead_raised rfl, hn]
    · rw [forall_mem_singleton]
      rfl

/-- What an element is converted to, beside what its collection is converted to: each position is one more
than the source has it. -/
structure Accessed (scopes : Scopes) (positions : List (Span × Source.Expr)) (base : Pseudo.Expr)
    (before : List Diagnostic) (a : Pseudo.Expr) (after : List Diagnostic) : Prop where
  positions : ∃ ps, a = base.elementAt ps ∧
    List.Forall₂ (fun p q => q.1 = some p.1.line ∧ IsNext scopes p.2 q.2) positions ps
  diagnostics : ∃ ds, after = before ++ ds ∧ ∀ d ∈ ds, d.cause.code = "ARRAY_INDEX_CONVERSION"

theorem Accessed.index {positions base a i before after ds} (h : Accessed scopes positions base before a after)
    (span : Span) (hi : IsNext scopes e i) (hds : ∀ d ∈ ds, d.cause.code = "ARRAY_INDEX_CONVERSION") :
    Accessed scopes (positions ++ [(span, e)]) base before (.index a i (some span.line)) (after ++ ds) := by
  obtain ⟨ps, rfl, hps⟩ := h.positions
  obtain ⟨es, rfl, hes⟩ := h.diagnostics
  refine ⟨⟨ps ++ [(some span.line, i)], ?_, ?_⟩, es ++ ds, append_assoc .., ?_⟩
  · rw [Pseudo.Expr.elementAt_append_singleton]
  · exact rel_append hps (.cons ⟨rfl, hi⟩ .nil)
  · exact forall_mem_append.2 ⟨hes, hds⟩

theorem elementAt_accessed (hz : c.zeroBased = false) (base : Source.Expr) (positions : List (Span × Source.Expr))
    (h : ∀ p ∈ positions, Source.IsPosition c.language s.scopes p.2) :
    Ensures True (expr (base.elementAt positions)) c s fun a t => t.scopes = s.scopes ∧
      ∃ b u, expr base c s = .ok (b, u) ∧ Accessed s.scopes positions b u.diagnostics a t.diagnostics := by
  induction positions using reverseRecOn with
  | nil =>
    refine (expr_keeps base c s).and_run.mono fun b u ⟨hu, hrun⟩ => ⟨hu.scopes, b, u, hrun, ?_⟩
    exact ⟨⟨[], rfl, .nil⟩, [], by simp⟩
  | append_singleton positions p ih =>
    obtain ⟨span, e⟩ := p
    rw [forall_mem_append, forall_mem_singleton] at h
    rw [Source.Expr.elementAt_append_singleton, expr, bind_iff]
    refine (ih h.1).mono fun a t ⟨ht, b, u, hrun, haccessed⟩ => ?_
    rw [h.2.isString_eq_false, if_neg Bool.false_ne_true, bind_iff]
    refine (indexValue_isNext hz (ht ▸ h.2)).mono fun i t' ⟨hi, ht', ds, hds, hcodes⟩ => ?_
    refine ⟨ht'.trans ht, b, u, hrun, ?_⟩
    rw [hds]
    exact haccessed.index span (ht ▸ hi) hcodes

/-- A position that stands in no other position is one more than the source has it, where each counter
that counts from one is one higher and all other variables are as in the source. So it is in every
dimension of an element, and nothing is remarked but that positions were converted. -/
theorem positions_are_one_more (c : Context) (s : State) (hz : c.zeroBased = false) :
    (∀ e, Source.IsPosition c.language s.scopes e →
      Ensures (Heavy (Source.weight e.nodes + 1)) (indexValue e (expr e)) c s fun a _ => ∀ w σ,
        ∃ n, e.value w σ = some (.int n) ∧ a.value w (s.scopes.raised σ) = some (.int (n + 1))) ∧
    ∀ base positions, (∀ p ∈ positions, Source.IsPosition c.language s.scopes p.2) →
      Ensures (Heavy (Source.weight (base.elementAt positions).nodes)) (expr (base.elementAt positions))
        c s fun a t => ∃ b u, expr base c s = .ok (b, u) ∧
          Accessed s.scopes positions b u.diagnostics a t.diagnostics := by
  refine ⟨fun e h => ?_, fun base positions h => ?_⟩
  · exact ((indexValue_ensures e c s).and (indexValue_isNext hz h)).mono fun _ _ ha => ha.2.1
  · exact ((expr_ensures (base.elementAt positions) c s).and (elementAt_accessed hz base positions h)).mono
      fun _ _ ha => ha.2.2

theorem not_heavy_of_le {n} (h : n ≤ digitLimit) : ¬ Heavy n :=
  Nat.not_le.2 (Nat.lt_of_lt_of_le (Nat.lt_pow_self (by decide)) (Nat.pow_le_pow_right (by decide) h))

open Source in
def samplePositions : List (Span × Expr) :=
  let place := Span.unplaced
  let i := Expr.identifier place "i"
  [(place, nextPosition), (place, .binary place .sub
      (.binary place .mul (.call place (.identifier place "f") [i]) (.number place (.int 2) "2"))
      (.identifier place "j"))]

theorem samplePositions_isPosition : ∀ p ∈ samplePositions, Source.IsPosition .java countingState.scopes p.2 := by
  have hi : Source.IsPosition .java countingState.scopes (.identifier .unplaced "i") := by
    refine .identifier rfl fun v hv => ?_
    obtain rfl := Option.some.inj (hv.symm.trans (by decide : _ = some
      { name := "i", type := "INTEGER", oneBased := true }))
    decide
  have hj : Source.IsPosition .java countingState.scopes (.identifier .unplaced "j") :=
    .identifier rfl fun v hv => nomatch (hv.symm.trans (by decide : _ = none))
  have hf (args : List Source.Expr) (h : ∀ e ∈ args, Source.IsPosition .java countingState.scopes e) :
      Source.IsPosition .java countingState.scopes (.call .unplaced (.identifier .unplaced "f") args) :=
    .call (by decide) (fun p r k hp => nomatch (hp.symm.trans (by decide : _ = none))) h
  intro p hp
  simp only [samplePositions, mem_cons, not_mem_nil, or_false] at hp
  rcases hp with rfl | rfl
  · exact .arithmetic rfl hi .number
  · exact .arithmetic rfl (.arithmetic rfl (hf _ (forall_mem_singleton.2 hi)) .number) hj

theorem positions_are_one_more_sample : (∀ p ∈ samplePositions, Source.IsPosition .java countingState.scopes p.2) ∧
      countingState.scopes.isOneBased "i" = true ∧ countingState.scopes.isOneBased "j" = false ∧
      ∃ a t b u, expr ((Source.Expr.identifier .unplaced "m").elementAt samplePositions)
          countingContext countingState = .ok (a, t) ∧
        expr (.identifier .unplaced "m") countingContext countingState = .ok (b, u) ∧
        Accessed countingState.scopes samplePositions b u.diagnostics a t.diagnostics := by
  -- for all elements first, so that no conversion is run here
  have helement : ∀ base positions, (∀ p ∈ positions, Source.IsPosition .java countingState.scopes p.2) →
      ¬ Heavy (Source.weight (base.elementAt positions).nodes) →
      ∃ a t b u, expr (base.elementAt positions) countingContext countingState = .ok (a, t) ∧
        expr base countingContext countingState = .ok (b, u) ∧
        Accessed countingState.scopes positions b u.diagnostics a t.diagnostics := by
    intro base positions hpositions hlight
    have h := (positions_are_one_more countingContext countingState rfl).2 base positions hpositions
    rw [eq_false hlight] at h
    obtain ⟨a, t, hrun, b, u, hbase, haccessed⟩ := h.exists_ok
    exact ⟨a, t, b, u, hrun, hbase, haccessed⟩
  exact ⟨samplePositions_isPosition, by decide, by decide,
    helement _ _ samplePositions_isPosition (not_heavy_of_le (by decide))⟩

end Convert

end Blackboard
