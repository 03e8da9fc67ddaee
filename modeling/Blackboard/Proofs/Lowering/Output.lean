import Blackboard.Proofs.Lowering.Expression
import Blackboard.Proofs.Steps.Assignment

/-!
The items of an output print what the whole expression prints. A sum is split along its left spine as
long as it is a text; a sum of whole numbers stays one item.
-/
namespace Blackboard

open Conversion
open Pseudo (Scalar)

namespace Meaning

/-- What can be printed: a whole number or a text. -/
inductive Readout where
  | int (n : Int)
  | text (s : String)

namespace Readout

def shown : Readout → String
  | int n => toString n
  | text s => s

def join (a b : Readout) : Readout := text (a.shown ++ b.shown)

/-- Two whole numbers are added. As soon as one operand is a text, both are joined. -/
def plus : Readout → Readout → Readout
  | int m, int n => int (m + n)
  | a, b => a.join b

inductive HasType : Readout → Scalar → Prop where
  | int (n : Int) : HasType (int n) .integer
  | text (s : String) : HasType (text s) .string

theorem HasType.plus_eq_join {a b s t} (ha : HasType a s) (hb : HasType b t) (h : s = .string ∨ t = .string) :
    a.plus b = a.join b := by
  cases ha <;> cases hb <;> first | rfl | simp at h

end Readout

abbrev Readouts := String → Readout

def Readouts.Respects (ρ : Readouts) (v : View) : Prop :=
  ∀ x t, scalar? (v.typeOf? x) = some t → t = .integer ∨ t = .string → (ρ x).HasType t

end Meaning

open Meaning (Readout Readouts)

namespace Source

def BinaryOp.readout? : BinaryOp → Readout → Readout → Option Readout
  | .add, a, b => some (a.plus b)
  | .sub, .int m, .int n => some (.int (m - n))
  | .mul, .int m, .int n => some (.int (m * n))
  | _, _, _ => none

def Expr.readout? (ρ : Readouts) : Expr → Option Readout
  | .number _ (.int n) _ => some (.int n)
  | .string _ s => some (.text s)
  | .identifier _ x => some (ρ x)
  | .binary _ op a b => (a.readout? ρ).bind fun m => (b.readout? ρ).bind (op.readout? m)
  | _ => none

/-- Sums of whole numbers and texts. Differences and products are of whole numbers only. -/
inductive Printable (v : View) : Expr → Scalar → Prop where
  | number {span n raw} : Printable v (.number span (.int n) raw) .integer
  | string {span s} : Printable v (.string span s) .string
  | identifier {span x t} : isVariableName x = true → scalar? (v.typeOf? x) = some t → t = .integer ∨ t = .string →
      Printable v (.identifier span x) t
  | arithmetic {span op a b} : op.isArithmetic = true → Printable v a .integer → Printable v b .integer →
      Printable v (.binary span op a b) .integer
  | join {span a b s t} : Printable v a s → Printable v b t → s = .string ∨ t = .string →
      Printable v (.binary span .add a b) .string

theorem inferScalar_binary {v span op a b} : inferScalar v (.binary span op a b) =
      inferBinary v.language op (inferScalar v a) (inferScalar v b) := by
  unfold inferScalar
  rw [infer]
  cases inferBinary v.language op (scalar? (infer v a)) (scalar? (infer v b)) <;> rfl

theorem Printable.inferScalar_eq {v e t} (h : Printable v e t) : inferScalar v e = some t := by
  induction h with
  | number | string => rfl
  | identifier _ h _ => exact h
  | @arithmetic _ op _ _ hop _ _ iha ihb =>
    rw [inferScalar_binary, iha, ihb]
    cases op <;> first | exact absurd hop (by decide) | rfl
  | join _ _ h iha ihb =>
    rw [inferScalar_binary, iha, ihb]
    simp [inferBinary, Scalar.combine, h]

end Source

namespace Pseudo

def BinaryOp.readout? : BinaryOp → Readout → Readout → Option Readout
  | .concat, a, b => some (a.join b)
  | .add, .int m, .int n => some (.int (m + n))
  | .sub, .int m, .int n => some (.int (m - n))
  | .mul, .int m, .int n => some (.int (m * n))
  | _, _, _ => none

def Expr.readout? (ρ : Readouts) : Expr → Option Readout
  | .literal _ (some (.int n)) _ => some (.int n)
  | .literal _ (some (.text s)) _ => some (.text s)
  | .identifier x _ _ => some (ρ x)
  | .binary op a b _ => (a.readout? ρ).bind fun m => (b.readout? ρ).bind (op.readout? m)
  | _ => none

/-- What the items of an output print, one after the other. -/
def printed? (ρ : Readouts) (items : List Expr) : Option String :=
  items.foldlM (fun s a => (a.readout? ρ).map (s ++ ·.shown)) ""

end Pseudo

namespace Convert

open Source (Printable)
open Source.Expr (nodes)

variable {c : Context} {s : State} {e : Source.Expr} {t : Scalar} {ρ : Readouts}
variable (hz : c.zeroBased = false) (hρ : ρ.Respects (viewOf c s))

include hz hρ

theorem expr_printable (h : Printable (viewOf c s) e t) (hw : ∀ n ∈ e.nodes, n.isUnwritable = false) :
    Ensures False (expr e) c s fun a u =>
      u = s ∧ ∃ d, d.HasType t ∧ e.readout? ρ = some d ∧ a.readout? ρ = some d := by
  induction h with
  | @number span n raw =>
    have hwritten := hw (.expr (.number span (.int n) raw)) (by simp [nodes])
    obtain ⟨text, htext⟩ := Option.isSome_iff_exists.1 (Option.isNone_eq_false_iff.1 hwritten)
    rw [expr, number, htext]
    exact ⟨rfl, _, .int n, rfl, rfl⟩
  | string => exact ⟨rfl, _, .text _, rfl, rfl⟩
  | @identifier span x t hx ht hsort =>
    simp only [Source.isVariableName, Bool.and_eq_true, bne_iff_ne] at hx
    simp only [expr, name, hx, decide_false, Bool.or_self, if_false, Bool.false_eq_true, variableName,
      Ensures.bind_iff, Ensures.get_iff, Ensures.read_iff, hz, Bool.and_false, Ensures.pure_iff]
    exact ⟨trivial, _, hρ x t ht hsort, rfl, rfl⟩
  | @arithmetic span op a b hop ha hb iha ihb =>
    obtain ⟨m, hm, -⟩ := operator?_apply (.inl hop)
    rw [expr_binary_eq (by simp [hop]), Ensures.bind_iff]
    refine (iha fun n hn => hw n (by simp [nodes, hn])).mono ?_
    rintro x _ ⟨rfl, _, ⟨i⟩, hai, hxi⟩
    refine Ensures.bind_iff.2 ((ihb fun n hn => hw n (by simp [nodes, hn])).mono ?_)
    rintro y _ ⟨rfl, _, ⟨j⟩, hbj, hyj⟩
    refine (combine_ensures (by simp [hop]) hm (by simp [ha.inferScalar_eq]) (by simp [hb.inferScalar_eq])).mono ?_
    rintro _ _ ⟨rfl, rfl⟩
    rw [Source.Expr.readout?, Pseudo.Expr.readout?, hai, hbj, hxi, hyj]
    cases op <;> first | exact absurd hop (by decide) | cases hm; exact ⟨rfl, _, .int _, rfl, rfl⟩
  | @join span a b s₁ s₂ ha hb hsort iha ihb =>
    rw [expr_binary_eq rfl, Ensures.bind_iff]
    refine (iha fun n hn => hw n (by simp [nodes, hn])).mono ?_
    rintro x _ ⟨rfl, d, hd, had, hxd⟩
    refine Ensures.bind_iff.2 ((ihb fun n hn => hw n (by simp [nodes, hn])).mono ?_)
    rintro y s ⟨rfl, d', hd', hbd, hyd⟩
    have hleft : inferScalar ⟨c.language, s.scopes, s.enumNames⟩ a = some s₁ := ha.inferScalar_eq
    have hright : inferScalar ⟨c.language, s.scopes, s.enumNames⟩ b = some s₂ := hb.inferScalar_eq
    simp only [combine, Ensures.bind_iff, Ensures.view_iff, hleft, hright]
    rw [if_pos (by simpa using hsort), Ensures.pure_iff, Source.Expr.readout?, Pseudo.Expr.readout?, had, hbd, hxd, hyd]
    exact ⟨rfl, d.join d', .text _, congrArg some (hd.plus_eq_join hd' hsort), rfl⟩

/-- An expression that is not split is printed as one item. -/
theorem item_printable (h : Printable (viewOf c s) e t) (hw : ∀ n ∈ e.nodes, n.isUnwritable = false) :
    Ensures False (do return [← expr e]) c s fun as u =>
      u = s ∧ ∃ d, d.HasType t ∧ e.readout? ρ = some d ∧ Pseudo.printed? ρ as = some d.shown := by
  refine Ensures.bind_iff.2 ((expr_printable hz hρ h hw).mono ?_)
  rintro a u ⟨rfl, d, hd, he, ha⟩
  exact ⟨rfl, d, hd, he, by simp [Pseudo.printed?, ha]⟩

theorem outputItems_printable (h : Printable (viewOf c s) e t) (hw : ∀ n ∈ e.nodes, n.isUnwritable = false) :
    Ensures False (outputItems e) c s fun as u =>
      u = s ∧ ∃ d, d.HasType t ∧ e.readout? ρ = some d ∧ Pseudo.printed? ρ as = some d.shown := by
  have hview : inferScalar ⟨c.language, s.scopes, s.enumNames⟩ e = some t := h.inferScalar_eq
  fun_induction outputItems e generalizing t with
  | case1 span a b e =>
    rename_i ih
    rw [Ensures.bind_iff, Ensures.view_iff, hview]
    cases h with
    | arithmetic hop ha hb => exact item_printable hz hρ (.arithmetic hop ha hb) hw
    | join ha hb hsort =>
      refine Ensures.bind_iff.2 ((ih ha (fun n hn => hw n (by simp [nodes, hn])) ha.inferScalar_eq).mono ?_)
      rintro as _ ⟨rfl, d, hd, had, hshown⟩
      refine Ensures.bind_iff.2 ((expr_printable hz hρ hb fun n hn => hw n (by simp [nodes, hn])).mono ?_)
      rintro y _ ⟨rfl, d', hd', hbd, hyd⟩
      rw [Source.Expr.readout?, had, hbd]
      refine ⟨rfl, d.join d', .text _, congrArg some (hd.plus_eq_join hd' hsort), ?_⟩
      rw [Pseudo.printed?] at hshown ⊢
      rw [List.foldlM_append, hshown]
      simp [hyd, Readout.join]
      rfl
  | case2 => cases h
  | case3 => exact item_printable hz hρ h hw

end Convert

/-- Whatever the grouping, the items of an output print together what the value of the expression is.
Output is never converted where counters are read from zero, and only a number with too many digits
to be written has no items. -/
theorem output_items_print_the_value (c : Context) (s : State) (e : Source.Expr) (t : Scalar) (ρ : Readouts)
    (hz : c.zeroBased = false) (hρ : ρ.Respects (Convert.viewOf c s)) (h : Source.Printable (Convert.viewOf c s) e t)
    (hw : ∀ n ∈ e.nodes, n.isUnwritable = false) : ∃ d items u, d.HasType t ∧ e.readout? ρ = some d ∧
      Convert.outputItems e c s = .ok (items, u) ∧ Pseudo.printed? ρ items = some d.shown := by
  obtain ⟨items, u, hrun, -, d, hd, he, hitems⟩ := (Convert.outputItems_printable hz hρ h hw).exists_ok_of_not id
  exact ⟨d, items, u, hd, he, hrun, hitems⟩

theorem output_items_print_the_value_label : ∃ e : Source.Expr, e.text = "\"n\" + 1 + 2" ∧
    ∃ d items u, d.HasType .string ∧ e.readout? (fun _ => .int 0) = some d ∧
      Convert.outputItems e { language := .java, limit := 30 } {} = .ok (items, u) ∧
        Pseudo.printed? (fun _ => .int 0) items = some d.shown :=
  ⟨.binary .unplaced .add (.binary .unplaced .add (.string .unplaced "n") (.number .unplaced (.int 1) "1"))
    (.number .unplaced (.int 2) "2"), by decide, output_items_print_the_value _ _ _ _ _ rfl
      (fun _ _ ht => nomatch ht) (.join (.join .string .number (.inl rfl)) .number (.inl rfl)) (by decide)⟩

end Blackboard
