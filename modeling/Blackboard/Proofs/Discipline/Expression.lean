import Blackboard.Proofs.Discipline.Quotation
import Blackboard.Proofs.WellFormed.Magnitude

/-! Expressions of the result under a discipline: what the ways of converting an expression build. -/
namespace Blackboard

open List
open Pseudo.Expr (children binary)

namespace Pseudo.Expr

theorem nodes_eq (e : Expr) : e.nodes = e :: nodesOf e.children := by
  cases e <;> simp [nodes, nodesOf, children]

theorem mem_nodesOf {x es} : x ∈ nodesOf es ↔ ∃ e ∈ es, x ∈ e.nodes := by
  induction es with
  | nil => simp [nodesOf]
  | cons e es ih => simp [nodesOf, ih]

theorem unjoined_iff {e : Expr} : e.Unjoined ↔ e.isJoin = false ∧ ∀ a ∈ e.children, a.Unjoined := by
  simp only [Unjoined, nodes_eq e, forall_mem_cons, mem_nodesOf]
  grind

end Pseudo.Expr

namespace Discipline

open Pseudo (StringMethod)

variable {T : Discipline}
variable {e a target : Pseudo.Expr} {args : List Pseudo.Expr} {names : List String}
    {op : Source.BinaryOp} {mapped : Pseudo.BinaryOp}

/-! ### Expressions of the result -/

theorem expr_iff : T.Expr e ↔ (¬ T.joins → e.isJoin = false) ∧ ∀ a ∈ e.children, T.Expr a := by
  simp only [Expr, Pseudo.Expr.unjoined_iff (e := e)]
  grind

theorem expr_of_children (h : e.isJoin = false) (hchildren : ∀ a ∈ e.children, T.Expr a) : T.Expr e :=
  expr_iff.2 ⟨fun _ => h, hchildren⟩

theorem Expr.children (h : T.Expr e) : ∀ a ∈ e.children, T.Expr a :=
  (expr_iff.1 h).2

theorem expr_leaf (h : e.children = []) (hjoin : e.isJoin = false) : T.Expr e :=
  expr_of_children hjoin (by simp [h])

theorem expr_number (n : Int) (line : Option Nat) : T.Expr (.number n line) := expr_leaf rfl rfl

theorem expr_pair {b} (h : e.children = [a, b]) (ha : T.Expr a) (hb : T.Expr b)
    (hjoin : e.isJoin = false) : T.Expr e :=
  expr_of_children hjoin (by simpa [h] using ⟨ha, hb⟩)

theorem expr_single (h : e.children = [a]) (ha : T.Expr a) (hjoin : e.isJoin = false) : T.Expr e :=
  expr_of_children hjoin (by simpa [h] using ha)

theorem expr_join (h : T.joins) (e : Pseudo.Expr) : T.Expr e := fun hn => absurd h hn

theorem expr_plainOffset (h : T.Expr e) (k : Int) : T.Expr (e.plainOffset k) := by
  unfold Pseudo.Expr.plainOffset
  split <;> exact expr_pair rfl h (expr_number _ _) rfl

theorem expr_addOffset (h : T.Expr e) (k : Int) : T.Expr (e.addOffset k) := by
  fun_induction Pseudo.Expr.addOffset e k with
  | case1 | case4 | case8 => exact h
  | case2 => exact expr_number _ _
  | case3 | case7 | case9 => exact expr_plainOffset h _
  | case5 left right l k _ n hn ih | case6 left right l k _ n hn ih =>
    exact ih (h.children left (by simp [children]))

theorem expr_subtract {b} (ha : T.Expr a) (hb : T.Expr b) : T.Expr (a.subtract b) := by
  unfold Pseudo.Expr.subtract
  split
  · exact expr_number _ _
  · exact expr_addOffset ha _
  · exact expr_pair rfl ha hb rfl

theorem expr_substring {start stop} (ht : T.Expr target) (hstart : T.Expr start) (hstop : ∀ e ∈ stop, T.Expr e) :
    T.Expr (StringMethod.substring target start stop) := by
  have hlength : T.Expr (.call "LENGTH" [target] none none) := expr_single rfl ht rfl
  unfold StringMethod.substring
  extract_lets length
  have hlen : T.Expr length := by
    cases stop with
    | none => exact expr_subtract hlength hstart
    | some e => exact expr_subtract (hstop e rfl) hstart
  exact expr_of_children rfl (by simpa [children] using ⟨ht, expr_addOffset hstart 1, hlen⟩)

theorem expr_apply {m : StringMethod} (ht : T.Expr target) (hargs : ∀ a ∈ args, T.Expr a) :
    T.Expr (m.apply target args) := by
  unfold StringMethod.apply
  split
  · exact expr_substring ht (hargs _ (by simp)) (nofun)
  · exact expr_substring ht (hargs _ (by simp)) (fun e h => hargs e (by
      cases h
      simp))
  · refine expr_of_children rfl (forall_mem_cons.2 ⟨ht, fun a ha => ?_⟩)
    split at ha
    · obtain ⟨b, hb, rfl⟩ := mem_map.1 ha
      exact expr_addOffset (hargs b hb) 1
    · exact hargs a ha

theorem expr_mathFunction {name} (hargs : ∀ a ∈ args, T.Expr a)
    (h : Pseudo.mapMathFunction? name args = some e) : T.Expr e := by
  obtain ⟨builtin, _, rfl⟩ := Option.map_eq_some_iff.1 h
  split
  · exact expr_of_children rfl (hargs _ (mem_singleton_self _)).children
  · exact expr_of_children rfl hargs

open Blackboard.Convert Conversion Source

variable {P : String → Prop}

def Plain (T : Discipline) (a : Pseudo.Expr) : Prop := T.Expr a ∧ calledName? a = none

theorem Plain.leaf (h : a.children = []) (hjoin : a.isJoin = false) (hname : calledName? a = none) : T.Plain a :=
  ⟨expr_leaf h hjoin, hname⟩

theorem Plain.of_children (hjoin : a.isJoin = false) (hname : calledName? a = none)
    (h : ∀ b ∈ a.children, T.Expr b) : T.Plain a :=
  ⟨expr_of_children hjoin h, hname⟩

theorem Plain.converts (h : T.Plain a) : T.Converts names a :=
  ⟨h.1, by simp [h.2]⟩

theorem Converts.mono {names'} (h : T.Converts names a) (hsub : names ⊆ names') : T.Converts names' a :=
  ⟨h.expr, fun name hname => (h.named name hname).imp_left fun hmem => hsub hmem⟩

theorem nothing_plain (line : Option Nat) : T.Plain (nothing line) := .leaf rfl rfl rfl

theorem calledName?_apply (m : StringMethod) (target : Pseudo.Expr) (args : List Pseudo.Expr) :
    calledName? (m.apply target args) = none := by
  unfold StringMethod.apply
  split <;> rfl

theorem calledName?_mathFunction {name} (h : Pseudo.mapMathFunction? name args = some e) : calledName? e = none := by
  obtain ⟨builtin, _, rfl⟩ := Option.map_eq_some_iff.1 h
  split <;> rfl

theorem negated_plain (span : Span) (h : T.Expr e) : T.Plain (negated span e) := by
  unfold negated
  split
  · exact .leaf rfl rfl rfl
  · exact .leaf rfl rfl rfl
  · exact .of_children rfl rfl (forall_mem_singleton.2 h)

theorem converts_join (hjoins : T.joins) {items} (h : ∀ a ∈ items, T.Converts names a) (line : Option Nat) :
    T.Converts names (join line items) := by
  have hfold : ∀ (es : List Pseudo.Expr) (e : Pseudo.Expr), es ≠ [] →
      calledName? (es.foldl (fun a b => .binary .concat a b line) e) = none := by
    intro es
    induction es with
    | nil => exact fun _ h => absurd rfl h
    | cons b es ih =>
      intro e _
      cases es with
      | nil => rfl
      | cons c es => exact ih _ (cons_ne_nil c es)
  match items with
  | [] => exact Plain.converts (.leaf rfl rfl rfl)
  | [a] => exact h a (mem_singleton_self a)
  | a :: b :: items => exact Plain.converts ⟨expr_join hjoins _, hfold (b :: items) a (cons_ne_nil b items)⟩

theorem isJoin_operator (a b : Pseudo.Expr) (line : Option Nat) (h : operator? op = some mapped) :
    (binary mapped a b line).isJoin = false := by
  cases op <;> cases h <;> rfl

variable [law : T.Lawful]

theorem joins_of_inferScalar {v e}
    (hv : v.language = T.language ∧ T.Visible P v.scopes.chain) (he : T.Nodes P e.nodes)
    (h : inferScalar v e = some .string) : T.joins := by
  obtain ⟨k, hk, hbase⟩ := Option.map_eq_some_iff.1 h
  obtain ⟨hk, _⟩ := Option.filter_eq_some_iff.1 hk
  have hkind := law.kind_of_infer hv.1 hv.2 he hk
  exact law.joins_of_string (hbase ▸ hkind.1)

theorem text_operator (h : operator? op = some mapped) : T.Text mapped.text := by
  refine law.text_of_line ?_
  cases op <;> cases h <;> decide

end Discipline

end Blackboard
