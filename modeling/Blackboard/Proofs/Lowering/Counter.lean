import Blackboard.Proofs.Lowering.Assignment
import Blackboard.Proofs.Meaning.Reading

/-!
Counters that count from one where the source counts from zero. A position in a collection is adjusted
for the difference. Every other expression reads the counter as it is, so that it has the value that
the source gives it where each such counter is one higher.
-/
namespace Blackboard

open Conversion
open Meaning
open Source (Span)

/-! ### Counters that are one higher -/

namespace Scopes

/-- Whether a name stands for a counter that counts from one where the source counts from zero. -/
def isOneBased (scopes : Scopes) (x : String) : Bool :=
  (scopes.findVariable? x).any (·.oneBased)

/-- What pseudocode holds where the source holds `σ`: each counter that counts from one is one
higher. -/
def raised (scopes : Scopes) (σ : Store) : Store := fun x =>
  if scopes.isOneBased x then σ x + 1 else σ x

theorem isOneBased_declareVariable (scopes : Scopes) (kind : ScopeKind) (v : Variable) :
    ((scopes.enter kind).declareVariable v).isOneBased v.name = v.oneBased := by
  have hchain : ((scopes.enter kind).declareVariable v).chain.head? =
      some { kind := kind, parent := some scopes.current, vars := [(v.name, v)] } := by
    simp [chain, chainFrom, declareVariable, modifyCurrent, enter, Table.put]
  obtain ⟨rest, hrest⟩ : ∃ rest, ((scopes.enter kind).declareVariable v).chain = _ :: rest :=
    List.head?_eq_some_iff.1 hchain
  simp [isOneBased, findVariable?, hrest]

end Scopes

namespace Source

def Expr.mentions (x : String) (e : Expr) : Bool := e.nodes.any (Node.isVariable x)

mutual

theorem Expr.value_congr {w σ ρ} (e : Expr) (h : ∀ x, e.mentions x = true → σ x = ρ x) :
    e.value w σ = e.value w ρ := by
  unfold Expr.mentions at h
  cases e with
  | identifier _ x =>
    rw [Expr.value, Expr.value, h x (by simp [Expr.nodes, Node.isVariable, Expr.isVariable])]
  | unary _ op e => rw [Expr.value, Expr.value, e.value_congr fun x hx => h x (by simp_all [Expr.nodes, Expr.mentions])]
  | binary _ op a b =>
    have ha := a.value_congr (w := w) fun x hx => h x (by simp_all [Expr.nodes, Expr.mentions])
    have hb := b.value_congr (w := w) fun x hx => h x (by simp_all [Expr.nodes, Expr.mentions])
    cases op <;> simp only [Expr.value, ha, hb]
  | conditional _ c a b =>
    rw [Expr.value, Expr.value, c.value_congr fun x hx => h x (by simp_all [Expr.nodes, Expr.mentions]),
      a.value_congr fun x hx => h x (by simp_all [Expr.nodes, Expr.mentions]),
      b.value_congr fun x hx => h x (by simp_all [Expr.nodes, Expr.mentions])]
  | call _ callee args =>
    have hargs := values_congr (w := w) args fun x hx => h x (by simp [Expr.nodes, hx])
    unfold Expr.value
    split <;> simp_all
  | number | member =>
    unfold Expr.value
    split <;> simp_all
  | _ => simp only [Expr.value]

theorem values_congr {w σ ρ} (es : List Expr)
    (h : ∀ x, (exprNodes es).any (Node.isVariable x) = true → σ x = ρ x) : values w σ es = values w ρ es := by
  cases es with
  | nil => simp only [values]
  | cons e es =>
    rw [values, values, e.value_congr fun x hx => h x (by simp_all [exprNodes, Expr.mentions]),
      values_congr es fun x hx => h x (by simp [exprNodes, hx])]

end

end Source

namespace Convert

open Ensures

variable {fault : Prop} {c : Context} {s : State}
variable {e : Source.Expr}

theorem asRead_raised (h : c.zeroBased = true) (scopes : Scopes) (σ : Store) :
    asRead c scopes (scopes.raised σ) = σ := by
  funext x
  by_cases hx : scopes.isOneBased x = true
  · have hx' := hx
    unfold Scopes.isOneBased at hx'
    simp [asRead, Scopes.raised, hx, hx', h]
  · have hx' := hx
    unfold Scopes.isOneBased at hx'
    simp [asRead, Scopes.raised, hx, hx']

/-! ### Positions and what is written out -/

theorem written_ensures {e} : Ensures True (written e) c s fun a t => a = e ∧ t = s := by
  rw [written_iff]
  split
  · exact ⟨rfl, rfl⟩
  · trivial

theorem addOffset_value {e k} : Ensures True (addOffset e k) c s fun a t => t = s ∧
      ∀ w σ n, e.value w σ = some (.int n) → a.value w σ = some (.int (n + k)) := by
  refine written_ensures.mono ?_
  rintro _ t ⟨rfl, rfl⟩
  exact ⟨rfl, fun w σ n h => (Pseudo.valueReading w σ).addOffset k h⟩

theorem isOneBased_ensures : Ensures fault (isOneBased e) c s fun b t => t = s ∧
      (b = true → ∃ span x, e = .identifier span x ∧ s.scopes.isOneBased x = true) := by
  unfold isOneBased
  split
  · next span x =>
    exact ⟨rfl, fun h => ⟨span, x, rfl, h⟩⟩
  · exact ⟨rfl, fun h => by cases h⟩

theorem indexValue_value (hs : s.scopes.Numeric) (hz : c.zeroBased = false) (h : Source.HasTy c.language e .int) :
    Ensures True (indexValue e (expr e)) c s fun a _ => ∀ w σ n,
      e.value w σ = some (.int n) → a.value w (s.scopes.raised σ) = some (.int (n + 1)) := by
  rw [indexValue, bind_iff]
  refine isOneBased_ensures.mono ?_
  rintro b t ⟨rfl, hb⟩
  split
  · next hone =>
    obtain ⟨span, x, rfl, hx⟩ := hb hone
    refine (expr_faithful rfl h t hs fun _ _ _ => trivial).mono fun a u ha w σ n hn => ?_
    rw [Source.Expr.value, Option.some.injEq, Value.int.injEq] at hn
    rw [ha.2, asRead_of_not_zeroBased hz, Source.Expr.value, Scopes.raised, if_pos hx, hn]
  · have hexpr := expr_faithful (c := { c with zeroBased := true }) rfl h t hs fun _ _ _ => trivial
    rw [bind_iff, zeroBased]
    refine hexpr.mono fun a u ha => ?_
    rw [bind_iff]
    refine addOffset_value.mono ?_
    rintro a' u' ⟨rfl, ha'⟩
    have hvalue : ∀ w σ n, e.value w σ = some (.int n) → a'.value w (t.scopes.raised σ) = some (.int (n + 1)) := by
      intro w σ n hn
      refine ha' w _ n ?_
      rw [ha.2, asRead_raised rfl, hn]
    simp only [bind_iff, inform, warn, report_iff, ite_iff, pure_iff, ite_self]
    exact hvalue

theorem outputItems_faithful {t} (hs : s.scopes.Numeric) (h : Source.HasTy c.language e t)
    (hf : ∀ n ∈ e.nodes, n.isUnwritable = true → fault) :
    Ensures fault (outputItems e) c s fun as t => ∃ a, as = [a] ∧ Faithful c s e a t := by
  have hitem : Ensures fault (do return [← expr e]) c s fun as t =>
      ∃ a, as = [a] ∧ Faithful c s e a t := by
    rw [bind_iff]
    exact (expr_faithful rfl h s hs hf).mono fun a t ha => ⟨a, rfl, ha⟩
  have hstring : inferScalar ⟨c.language, s.scopes, s.enumNames⟩ e ≠ some .string :=
    h.inferScalar_ne_string hs rfl
  unfold outputItems
  split
  · rw [bind_iff, view_iff, if_neg (by simpa using hstring)]
    exact hitem
  · cases h
  · exact hitem

theorem allOutputItems_faithful {es} (hz : c.zeroBased = false) (h : ∀ e ∈ es, ∃ t, Source.HasTy c.language e t)
    (hf : ∀ n ∈ Source.exprNodes es, n.isUnwritable = true → fault) (hs : s.scopes.Numeric) :
    Ensures fault (allOutputItems es) c s fun as _ =>
      ∀ w σ, Pseudo.values w σ as = Source.values w σ es := by
  induction es generalizing s with
  | nil =>
    intro w σ
    rw [Pseudo.values, Source.values]
  | cons e es ih =>
    obtain ⟨t, ht⟩ := h e (by simp)
    rw [allOutputItems, bind_iff]
    refine (outputItems_faithful hs ht fun n hn => hf n (by simp [Source.exprNodes, hn])).mono ?_
    rintro _ u ⟨a, rfl, ha⟩
    rw [bind_iff]
    refine (ih (fun e he => h e (by simp [he])) (fun n hn => hf n (by simp [Source.exprNodes, hn]))
      (ha.1.scopes ▸ hs)).mono fun as _ has w σ => ?_
    rw [List.singleton_append, Pseudo.values, Source.values, ha.2, asRead_of_not_zeroBased hz, has]

end Convert

end Blackboard
