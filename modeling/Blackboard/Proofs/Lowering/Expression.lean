import Blackboard.Proofs.Conversion.Outcome
import Blackboard.Proofs.Meaning.Expression

/-!
Converting an expression of whole numbers and truth values keeps its value. Where counters are read
from zero, a counter that counts from one stands for its value less one.
-/
namespace Blackboard

open Conversion
open Meaning (World Store choose truth?)
open Source (Span BinaryOp)
open Source.Expr (value binary nodes)

/-! ### The expressions -/

namespace Meaning

inductive Ty where
  | int | bool
deriving DecidableEq, Repr

inductive Value.HasTy : Value → Ty → Prop where
  | int (n : Int) : HasTy (.int n) .int
  | bool (b : Bool) : HasTy (.bool b) .bool

end Meaning

open Meaning (Ty)

namespace Source

variable {e : Expr} {es : List Expr}

def isVariableName (name : String) : Bool := name != "undefined" && name != "this" && name != "super"

/-- Whether a name can stand for a function that the program declares: it neither reads input nor
converts a text to a number. -/
def isFunctionName (l : Language) (name : String) : Bool :=
  name != "super" && (numberParser? (some name)).isNone && !(l = .typescript && inputCalls.contains name)

def BinaryOp.isArithmetic : BinaryOp → Bool
  | .add | .sub | .mul => true
  | _ => false

def BinaryOp.isComparison : BinaryOp → Bool
  | .eq | .strictEq | .ne | .strictNe | .lt | .gt | .le | .ge => true
  | _ => false

def BinaryOp.isLogical : BinaryOp → Bool
  | .and | .or => true
  | _ => false

/-- The expressions of whole numbers and truth values, with their sorts. -/
inductive HasTy (l : Language) : Expr → Ty → Prop where
  | number {span n raw} : HasTy l (.number span (.int n) raw) .int
  | boolean {span b} : HasTy l (.boolean span b) .bool
  | identifier {span x} : isVariableName x = true → HasTy l (.identifier span x) .int
  | neg {span e} : HasTy l e .int → HasTy l (.unary span .neg e) .int
  | not {span e} : HasTy l e .bool → HasTy l (.unary span .not e) .bool
  | arithmetic {span op a b} : op.isArithmetic = true → HasTy l a .int → HasTy l b .int →
      HasTy l (.binary span op a b) .int
  | comparison {span op a b} : op.isComparison = true → HasTy l a .int → HasTy l b .int →
      HasTy l (.binary span op a b) .bool
  | logical {span op a b} : op.isLogical = true → HasTy l a .bool → HasTy l b .bool →
      HasTy l (.binary span op a b) .bool
  | conditional {span c a b t} : HasTy l c .bool → HasTy l a t → HasTy l b t →
      HasTy l (.conditional span c a b) t
  | call {span own f args} : isFunctionName l f = true → (∀ e ∈ args, HasTy l e .int) →
      HasTy l (.call span (.identifier own f) args) .int

theorem mem_exprNodes {n} (he : e ∈ es) (hn : n ∈ e.nodes) : n ∈ exprNodes es := by
  induction es with
  | nil => cases he
  | cons a es ih =>
    rw [exprNodes, List.mem_append]
    rcases List.mem_cons.1 he with rfl | he
    · exact .inl hn
    · exact .inr (ih he)

def Node.isUnwritable : Node → Bool
  | .expr (.number _ value raw) => (Convert.numberText? raw value).isNone
  | _ => false

/-! ### Their values -/

variable {l : Language} {w : World} {σ : Store}

variable {op : BinaryOp}

theorem value_binary {span a b} (h : op.isLogical = false) : (Expr.binary span op a b).value w σ =
      (a.value w σ).bind fun v => (b.value w σ).bind (op.apply v) := by
  cases op <;> first | exact absurd h (by decide) | simp only [Expr.value]

theorem BinaryOp.apply_arithmetic (h : op.isArithmetic = true) (m n : Int) :
    ∃ k, op.apply (.int m) (.int n) = some (.int k) := by
  cases op <;> first | exact absurd h (by decide) | exact ⟨_, rfl⟩

theorem BinaryOp.apply_comparison (h : op.isComparison = true) (m n : Int) :
    ∃ b, op.apply (.int m) (.int n) = some (.bool b) := by
  cases op <;> first | exact absurd h (by decide) | exact ⟨_, rfl⟩

theorem BinaryOp.not_isLogical_of_isArithmetic (h : op.isArithmetic = true) : op.isLogical = false := by
  cases op <;> first | exact absurd h (by decide) | rfl

theorem BinaryOp.not_isLogical_of_isComparison (h : op.isComparison = true) : op.isLogical = false := by
  cases op <;> first | exact absurd h (by decide) | rfl

theorem exists_values (h : ∀ e ∈ es, ∃ v, e.value w σ = some v ∧ v.HasTy .int) : ∃ vs, values w σ es = some vs := by
  induction es with
  | nil => exact ⟨[], by simp [values]⟩
  | cons e es ih =>
    obtain ⟨v, hv, _⟩ := h e (by simp)
    obtain ⟨vs, hvs⟩ := ih fun e he => h e (by simp [he])
    exact ⟨v :: vs, by simp [values, hv, hvs]⟩

theorem HasTy.exists_value {t} (h : HasTy l e t) : ∃ v, e.value w σ = some v ∧ v.HasTy t := by
  induction h with
  | number => exact ⟨_, by rw [Expr.value], .int _⟩
  | boolean => exact ⟨_, by rw [Expr.value], .bool _⟩
  | identifier => exact ⟨_, by rw [Expr.value], .int _⟩
  | neg _ ih =>
    obtain ⟨_, hv, ⟨n⟩⟩ := ih
    exact ⟨.int (-n), by simp [Expr.value, hv, UnaryOp.apply], .int _⟩
  | not _ ih =>
    obtain ⟨_, hv, _ | ⟨b⟩⟩ := ih
    exact ⟨.bool !b, by simp [Expr.value, hv, UnaryOp.apply], .bool _⟩
  | arithmetic hop _ _ iha ihb =>
    obtain ⟨_, ha, ⟨m⟩⟩ := iha
    obtain ⟨_, hb, ⟨n⟩⟩ := ihb
    obtain ⟨k, hk⟩ := BinaryOp.apply_arithmetic hop m n
    refine ⟨.int k, ?_, .int _⟩
    simp [value_binary (BinaryOp.not_isLogical_of_isArithmetic hop), ha, hb, hk]
  | comparison hop _ _ iha ihb =>
    obtain ⟨_, ha, ⟨m⟩⟩ := iha
    obtain ⟨_, hb, ⟨n⟩⟩ := ihb
    obtain ⟨b, hk⟩ := BinaryOp.apply_comparison hop m n
    refine ⟨.bool b, ?_, .bool _⟩
    simp [value_binary (BinaryOp.not_isLogical_of_isComparison hop), ha, hb, hk]
  | @logical _ op _ _ hop _ _ iha ihb =>
    obtain ⟨_, ha, _ | ⟨x⟩⟩ := iha
    obtain ⟨_, hb, _ | ⟨y⟩⟩ := ihb
    cases op <;> first | exact absurd hop (by decide) | skip
    · refine ⟨.bool (x || y), ?_, .bool _⟩
      cases x <;> simp [Expr.value, ha, hb, choose, truth?]
    · refine ⟨.bool (x && y), ?_, .bool _⟩
      cases x <;> simp [Expr.value, ha, hb, choose, truth?]
  | conditional _ _ _ ihc iha ihb =>
    obtain ⟨_, hc, _ | ⟨b⟩⟩ := ihc
    cases b
    · obtain ⟨v, hv, ht⟩ := ihb
      exact ⟨v, by simp [Expr.value, hc, hv, choose], ht⟩
    · obtain ⟨v, hv, ht⟩ := iha
      exact ⟨v, by simp [Expr.value, hc, hv, choose], ht⟩
  | @call _ _ f _ _ _ ih =>
    obtain ⟨vs, hvs⟩ := exists_values ih
    exact ⟨.int (w.call f vs), by simp [Expr.value, hvs], .int _⟩

end Source

/-! ### Their inferred types -/

/-- Whether no visible variable, and no result of a visible callable, is known to be a text. -/
structure Scopes.Numeric (scopes : Scopes) : Prop where
  vars : ∀ x v, scopes.findVariable? x = some v → Pseudo.Scalar.ofText v.type ≠ .string
  results : ∀ f p r k, scopes.findCallable? f = some p → p.returns = some r →
    Pseudo.Kind.ofText? r = some k → k.base ≠ .string

theorem Scopes.Numeric.typeOf? {v : View} (hv : v.scopes.Numeric) {x : String} {k : Pseudo.Kind}
    (hk : v.typeOf? x = some k) : k.base ≠ .string := by
  simp only [View.typeOf?, Option.map_eq_some_iff] at hk
  obtain ⟨i, hi, rfl⟩ := hk
  exact hv.vars x i hi

theorem Scopes.Numeric.resultOf? {v : View} (hv : v.scopes.Numeric) {f : String}
    {k : Pseudo.Kind} (hk : v.resultOf? f = some k) : k.base ≠ .string := by
  simp only [View.resultOf?, Option.bind_eq_bind, Option.bind_eq_some_iff] at hk
  obtain ⟨p, hp, r, hr, hk⟩ := hk
  exact hv.results f p r k hp hr hk

theorem Pseudo.Scalar.combine_ne_string {a b} (ha : a ≠ some .string)
    (hb : b ≠ some .string) : Scalar.combine a b ≠ some .string := by
  unfold combine
  simp only [ha, hb, decide_false, Bool.or_self, Bool.false_eq_true, if_false]
  split
  · simp
  · split
    · simp
    · split
      · exact hb
      · exact hb
      · exact ha

namespace Source

variable {span : Span} {f : String} {v : View} {e : Expr}

variable {t : Ty}

theorem HasTy.binary_inv {l op a b} (h : HasTy l (.binary span op a b) t) :
    (op.isArithmetic || op.isComparison || op.isLogical) = true ∧ (∃ t, HasTy l a t) ∧ ∃ t, HasTy l b t := by
  cases h with
  | arithmetic hop ha hb | comparison hop ha hb | logical hop ha hb =>
    exact ⟨by simp [hop], ⟨_, ha⟩, _, hb⟩

theorem numberParser?_eq_none {l} (hf : isFunctionName l f = true) : numberParser? (some f) = none := by
  simp only [isFunctionName, Bool.and_eq_true, Option.isNone_iff_eq_none] at hf
  exact hf.1.2

theorem input?_call_eq_none {own args} (hf : isFunctionName v.language f = true) :
    v.input? (.call span (.identifier own f) args) = none := by
  have hp := numberParser?_eq_none hf
  simp only [isFunctionName, Bool.and_eq_true, Bool.not_eq_true'] at hf
  obtain ⟨_, hi⟩ := hf
  have hc : v.inputCall? (.identifier own f) args = none := by
    unfold View.inputCall?
    cases hl : v.language
    · rfl
    · rw [hl] at hi
      simpa [Expr.dottedName?] using hi
  simp [View.input?, hc, Expr.dottedName?, hp]

theorem HasTy.input?_eq_none (h : HasTy v.language e t) : v.input? e = none := by
  cases h with
  | call hf => exact input?_call_eq_none hf
  | _ => rfl

variable {l : Language}

theorem scalar?_ne_string {k} (h : ∀ i, k = some i → i.base ≠ .string) : scalar? k ≠ some .string := by
  intro hs
  simp only [scalar?, Option.map_eq_some_iff, Option.filter_eq_some_iff] at hs
  obtain ⟨i, ⟨hi, _⟩, hb⟩ := hs
  exact h i hi hb

theorem infer_arithmetic_ne_string {op a b} (hop : op.isArithmetic = true)
    (ha : ∀ k, infer v a = some k → k.base ≠ .string) (hb : ∀ k, infer v b = some k → k.base ≠ .string) :
    ∀ k, infer v (.binary span op a b) = some k → k.base ≠ .string := by
  intro k hk
  have hne := Pseudo.Scalar.combine_ne_string (scalar?_ne_string ha) (scalar?_ne_string hb)
  simp only [infer, Option.map_eq_some_iff] at hk
  obtain ⟨s, hs, rfl⟩ := hk
  cases op <;> first | exact absurd hop (by decide) | skip
  all_goals
    intro hstring
    exact hne (hstring ▸ hs)

theorem HasTy.infer_ne_string (hv : v.scopes.Numeric) (hl : v.language = l) (h : HasTy l e t) :
    ∀ k, infer v e = some k → k.base ≠ .string := by
  induction h with
  | number | boolean | not =>
    intro k hk
    simp only [infer, Option.some.injEq] at hk
    simp [← hk]
  | identifier =>
    intro k hk
    exact hv.typeOf? hk
  | neg _ ih =>
    intro k hk
    exact ih k (by simpa [infer] using hk)
  | arithmetic hop _ _ iha ihb => exact infer_arithmetic_ne_string hop iha ihb
  | @comparison _ op _ _ hop | @logical _ op _ _ hop =>
    intro k hk
    simp only [infer, Option.map_eq_some_iff] at hk
    obtain ⟨s, hs, rfl⟩ := hk
    cases op <;> first | exact absurd hop (by decide) | skip
    all_goals
      simp only [inferBinary, Option.some.injEq] at hs
      simp [← hs]
  | conditional _ _ _ _ iha ihb =>
    intro k hk
    simp only [infer, Option.orElse_eq_orElse, Option.orElse_eq_or, Option.or_eq_some_iff] at hk
    rcases hk with hk | ⟨_, hk⟩
    · exact iha k hk
    · exact ihb k hk
  | call hf _ _ =>
    intro k hk
    subst hl
    have hp : numberParser? (some _) = none := numberParser?_eq_none hf
    simp only [infer, inferCall, input?_call_eq_none hf, Expr.dottedName?, hp] at hk
    exact hv.resultOf? hk

theorem HasTy.inferScalar_ne_string (hv : v.scopes.Numeric) (hl : v.language = l) (h : HasTy l e t) :
    inferScalar v e ≠ some .string :=
  scalar?_ne_string (h.infer_ne_string hv hl)

end Source

/-! ### Their conversion -/

namespace Convert

open Ensures

variable {fault : Prop} {c : Context} {s : State}
variable {span : Span} {e : Source.Expr} {l : Language}

/-- What converting an expression leaves as it is: the scopes, and the remarks made before. -/
structure Keeps (s t : State) : Prop where
  scopes : t.scopes = s.scopes
  diagnostics : s.diagnostics <+: t.diagnostics

theorem Keeps.refl (s : State) : Keeps s s := ⟨rfl, List.prefix_refl _⟩

theorem Keeps.trans {s t u} (h : Keeps s t) (h' : Keeps t u) : Keeps s u :=
  ⟨h'.scopes.trans h.scopes, h.diagnostics.trans h'.diagnostics⟩

/-- The store as the source sees it: where counters are read from zero, one that counts from one is
read as its value less one. -/
def asRead (c : Context) (scopes : Scopes) (σ : Store) : Store := fun x =>
  if (scopes.findVariable? x).any (·.oneBased) && c.zeroBased then σ x - 1 else σ x

theorem asRead_of_not_zeroBased (h : c.zeroBased = false) (scopes : Scopes) (σ : Store) : asRead c scopes σ = σ := by
  funext x
  simp [asRead, h]

variable {op : BinaryOp}

theorem operator?_apply (h : op.isArithmetic = true ∨ op.isComparison = true) :
    ∃ m, operator? op = some m ∧ m.apply = op.apply := by
  cases op <;> first | exact absurd h (by decide) | refine ⟨_, rfl, ?_⟩
  all_goals
    funext u v
    cases u <;> cases v <;> rfl

def viewOf (c : Context) (s : State) : View := ⟨c.language, s.scopes, s.enumNames⟩

theorem combine_ensures {left right a b m}
    (hop : (op.isArithmetic || op.isComparison || op.isLogical) = true) (hm : operator? op = some m)
    (hs : inferScalar (viewOf c s) left ≠ some .string)
    (ht : inferScalar (viewOf c s) right ≠ some .string) :
    Ensures fault (combine span op left right a b) c s fun e t =>
      t = s ∧ e = .binary m a b (some span.line) := by
  have hdiv : op ≠ .div := by rintro rfl; exact absurd hop (by decide)
  have hpow : op ≠ .pow := by rintro rfl; exact absurd hop (by decide)
  have hbit : isBitwise op = false := by
    cases op <;> first | exact absurd hop (by decide) | rfl
  unfold viewOf at hs ht
  simp [combine, bind_iff, view_iff, pure_iff, hs, ht, hdiv, hpow, hbit, hm]

def Faithful (c : Context) (s : State) (e : Source.Expr) (a : Pseudo.Expr) (t : State) : Prop :=
  Keeps s t ∧ ∀ w σ, a.value w σ = e.value w (asRead c s.scopes σ)

theorem number_faithful {n raw} (hf : numberText? raw (.int n) = none → fault) :
    Ensures fault (expr (.number span (.int n) raw)) c s (Faithful c s (.number span (.int n) raw)) := by
  rw [expr, number]
  cases h : numberText? raw (.int n) with
  | none => exact hf h
  | some text =>
    refine ⟨.refl s, fun w σ => ?_⟩
    simp [Pseudo.Expr.value, value, numberValue]

theorem identifier_faithful {x} (hx : Source.isVariableName x = true) :
    Ensures fault (expr (.identifier span x)) c s (Faithful c s (.identifier span x)) := by
  simp only [Source.isVariableName, Bool.and_eq_true, bne_iff_ne] at hx
  obtain ⟨⟨hu, ht⟩, hs⟩ := hx
  simp only [expr, name, hu, ht, hs, decide_false, Bool.or_self, if_false, Bool.false_eq_true,
    variableName, bind_iff, get_iff, read_iff, ite_iff,
    pure_iff]
  split
  · next h =>
    refine ⟨.refl s, fun w σ => ?_⟩
    simp [Pseudo.Expr.value, Pseudo.Expr.number, Pseudo.BinaryOp.apply, value, asRead, h]
  · next h =>
    refine ⟨.refl s, fun w σ => ?_⟩
    simp [Pseudo.Expr.value, value, asRead, h]

theorem neg_apply : Pseudo.UnaryOp.neg.apply = Source.UnaryOp.neg.apply := by
  funext v
  cases v <;> rfl

theorem not_apply : Pseudo.UnaryOp.not.apply = Source.UnaryOp.not.apply := by
  funext v
  cases v <;> rfl

theorem negated_value (span : Span) (a : Pseudo.Expr) (w : World) (σ : Store) :
    (negated span a).value w σ = (a.value w σ).bind Pseudo.UnaryOp.neg.apply := by
  unfold negated
  split <;> simp [Pseudo.Expr.value, Pseudo.UnaryOp.apply]

theorem Faithful.of_keeps {t u a} (h : Keeps s t) (ha : Faithful c t e a u) : Faithful c s e a u :=
  ⟨h.trans ha.1, h.scopes ▸ ha.2⟩

variable {t : Ty}

theorem operator?_value {a b} (h : Source.HasTy l (.binary span op a b) t) : ∃ m, operator? op = some m ∧ ∀ w σ,
      ((a.value w σ).bind fun u => (b.value w σ).bind (m.apply u)) = (binary span op a b).value w σ := by
  cases h with
  | arithmetic hop =>
    obtain ⟨m, hm, happly⟩ := operator?_apply (.inl hop)
    refine ⟨m, hm, fun w σ => ?_⟩
    rw [happly, Source.value_binary (BinaryOp.not_isLogical_of_isArithmetic hop)]
  | comparison hop =>
    obtain ⟨m, hm, happly⟩ := operator?_apply (.inr hop)
    refine ⟨m, hm, fun w σ => ?_⟩
    rw [happly, Source.value_binary (BinaryOp.not_isLogical_of_isComparison hop)]
  | logical hop ha hb =>
    cases op <;> first | exact absurd hop (by decide) | refine ⟨_, rfl, fun w σ => ?_⟩
    all_goals
      obtain ⟨_, hx, _ | ⟨x⟩⟩ := ha.exists_value (w := w) (σ := σ)
      obtain ⟨_, hy, _ | ⟨y⟩⟩ := hb.exists_value (w := w) (σ := σ)
      cases x <;> simp [value, hx, hy, choose, truth?, Pseudo.BinaryOp.apply]

theorem expr_binary_eq {a b} (hop : (op.isArithmetic || op.isComparison || op.isLogical) = true) :
    expr (.binary span op a b) = (do
      let x ← expr a
      let y ← expr b
      combine span op a b x y) := by
  cases op <;> first | exact absurd hop (by decide) | rfl

theorem binary_faithful {a b} (hl : c.language = l)
    (h : Source.HasTy l (.binary span op a b) t) (hs : s.scopes.Numeric)
    (iha : Ensures fault (expr a) c s (Faithful c s a))
    (ihb : ∀ t, Keeps s t → Ensures fault (expr b) c t (Faithful c t b)) :
    Ensures fault (expr (.binary span op a b)) c s (Faithful c s (.binary span op a b)) := by
  obtain ⟨hop, ⟨ta, ha⟩, tb, hb⟩ := h.binary_inv
  obtain ⟨m, hm, hval⟩ := operator?_value h
  rw [expr_binary_eq hop, bind_iff]
  refine iha.mono fun x s₁ h₁ => ?_
  rw [bind_iff]
  refine (ihb s₁ h₁.1).mono fun y s₂ h₂ => ?_
  have hk := h₁.1.trans h₂.1
  have hn : s₂.scopes.Numeric := hk.scopes ▸ hs
  refine (combine_ensures hop hm (ha.inferScalar_ne_string hn hl) (hb.inferScalar_ne_string hn hl)).mono ?_
  rintro e t ⟨rfl, rfl⟩
  refine ⟨hk, fun w σ => ?_⟩
  rw [Pseudo.Expr.value, h₁.2, (h₂.of_keeps h₁.1).2, hval]

theorem exprs_faithful {es}
    (h : ∀ e ∈ es, ∀ s : State, s.scopes.Numeric → Ensures fault (expr e) c s (Faithful c s e))
    (hs : s.scopes.Numeric) :
    Ensures fault (exprs es) c s fun as t =>
      Keeps s t ∧ ∀ w σ, Pseudo.values w σ as = Source.values w (asRead c s.scopes σ) es := by
  induction es generalizing s with
  | nil =>
    exact ⟨.refl s, fun w σ => by simp [Pseudo.values, Source.values]⟩
  | cons e es ih =>
    rw [exprs, bind_iff]
    refine (h e (by simp) s hs).mono fun a s₁ h₁ => ?_
    rw [bind_iff]
    refine (ih (fun e he => h e (by simp [he])) (h₁.1.scopes ▸ hs)).mono fun as s₂ h₂ => ?_
    refine ⟨h₁.1.trans h₂.1, fun w σ => ?_⟩
    rw [Pseudo.values, Source.values, h₁.2, h₂.2, h₁.1.scopes]

/-- Converting an expression of whole numbers and truth values keeps its value. It fails only where a
number has too many digits to be written. -/
theorem expr_faithful (hl : c.language = l) (h : Source.HasTy l e t) : ∀ s : State, s.scopes.Numeric →
      (∀ n ∈ e.nodes, n.isUnwritable = true → fault) →
      Ensures fault (expr e) c s (Faithful c s e) := by
  induction h with
  | @number span n raw =>
    intro s _ hf
    refine number_faithful fun hn => hf (.expr (.number span (.int n) raw)) ?_ ?_
    · simp [nodes]
    · simp [Source.Node.isUnwritable, hn]
  | @boolean span b =>
    intro s _ _
    exact ⟨.refl s, fun w σ => by simp [Pseudo.Expr.value, value]⟩
  | identifier hx =>
    intro s _ _
    exact identifier_faithful hx
  | neg _ ih =>
    intro s hs hf
    simp only [expr, unary, bind_iff, pure_iff]
    refine (ih s hs fun n hn => hf n (by simp [nodes, hn])).mono fun a t ha => ?_
    refine ⟨ha.1, fun w σ => ?_⟩
    rw [negated_value, ha.2, value, neg_apply]
  | not _ ih =>
    intro s hs hf
    simp only [expr, unary, bind_iff, pure_iff]
    refine (ih s hs fun n hn => hf n (by simp [nodes, hn])).mono fun a t ha => ?_
    refine ⟨ha.1, fun w σ => ?_⟩
    rw [Pseudo.Expr.value, ha.2, value, not_apply]
  | arithmetic hop ha hb iha ihb =>
    intro s hs hf
    exact binary_faithful hl (.arithmetic hop ha hb) hs (iha s hs fun n hn => hf n (by simp [nodes, hn]))
      fun t ht => ihb t (ht.scopes ▸ hs) fun n hn => hf n (by simp [nodes, hn])
  | comparison hop ha hb iha ihb =>
    intro s hs hf
    exact binary_faithful hl (.comparison hop ha hb) hs (iha s hs fun n hn => hf n (by simp [nodes, hn]))
      fun t ht => ihb t (ht.scopes ▸ hs) fun n hn => hf n (by simp [nodes, hn])
  | logical hop ha hb iha ihb =>
    intro s hs hf
    exact binary_faithful hl (.logical hop ha hb) hs (iha s hs fun n hn => hf n (by simp [nodes, hn]))
      fun t ht => ihb t (ht.scopes ▸ hs) fun n hn => hf n (by simp [nodes, hn])
  | @conditional span _ _ _ _ _ _ _ ihc iha ihb =>
    intro s hs hf
    let s₀ : State := { s with
      diagnostics := s.diagnostics ++ [.at_ span .warning (.inlineConditional c.statement)] }
    have h₀ : Keeps s s₀ := ⟨rfl, List.prefix_append _ _⟩
    simp only [expr, bind_iff, read_iff, warn, report_iff]
    refine (ihc s₀ hs fun n hn => hf n (by simp [nodes, hn])).mono fun x s₁ h₁ => ?_
    have h₁ := h₁.of_keeps h₀
    refine (iha s₁ (h₁.1.scopes ▸ hs) fun n hn => hf n (by simp [nodes, hn])).mono fun y s₂ h₂ => ?_
    have h₂ := h₂.of_keeps h₁.1
    refine (ihb s₂ (h₂.1.scopes ▸ hs) fun n hn => hf n (by simp [nodes, hn])).mono fun z s₃ h₃ => ?_
    have h₃ := h₃.of_keeps h₂.1
    refine ⟨h₃.1, fun w σ => ?_⟩
    rw [Pseudo.Expr.value, h₁.2, h₂.2, h₃.2, value]
  | @call span own f args hg _ ih =>
    intro s hs hf
    subst hl
    have hargs := exprs_faithful (s := s) (fun e he s hs => ih e he s hs fun n hn =>
      hf n (by simp [nodes, Source.mem_exprNodes he hn])) hs
    have hsuper : f ≠ "super" := by
      simp only [Source.isFunctionName, Bool.and_eq_true, bne_iff_ne] at hg
      exact hg.1.1
    have hin : (viewOf c s).input? (.call span (.identifier own f) args) = none :=
      Source.input?_call_eq_none hg
    unfold viewOf at hin
    have hp := Source.numberParser?_eq_none hg
    simp only [expr, callOr, bind_iff, view_iff, hin, Source.Expr.dottedName?, hp,
      nameCall, ite_iff, read_iff, Option.isSome_none, Bool.false_and,
      Bool.false_eq_true, if_false]
    split
    · exact absurd rfl hsuper
    · simp only [bind_iff, pure_iff, get_iff]
      refine hargs.mono fun as t ht => ⟨ht.1, fun w σ => ?_⟩
      rw [Pseudo.Expr.value, ht.2, value]

end Convert

end Blackboard
