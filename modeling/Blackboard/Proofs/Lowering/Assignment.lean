import Blackboard.Proofs.Lowering.Expression
import Blackboard.Proofs.Meaning.Execution

/-!
Converting assignments and declarations keeps what they do to a store. A conditional value that is
assigned becomes a choice between assignments, at any depth.

The conversion is followed through states in which no variable is known to be a text. Nothing is said
of a conversion that remarks that scopes nest too deeply, for it leaves statements out.
-/
namespace Blackboard

open List
open Pseudo (Runs runs_nil runs_cons Kind Stmt runs_assign)
open Conversion
open Meaning
open Relation (Comp)
open Source (Span BinaryOp AssignOp)
open Source.Expr (nodes value effect asStmt)
open Source (Expr isVariableName HasTy)

/-! ### Scopes that hold no texts -/

def Variable.IsNumeric (v : Variable) : Prop := Pseudo.Scalar.ofText v.type ≠ .string

/-- Whether nothing that a scope declares is known to be a text. -/
structure Scope.Numeric (scope : Scope) : Prop where
  vars : ∀ x v, scope.vars.lookup x = some v → v.IsNumeric
  results : ∀ f p r k, scope.callables.lookup f = some p → p.returns = some r →
    Kind.ofText? r = some k → k.base ≠ .string

namespace Scopes

def AllNumeric (scopes : Scopes) : Prop := ∀ scope ∈ scopes.arena, scope.Numeric

theorem mem_arena_of_mem_chainFrom {arena scope} :
    ∀ {fuel i : Nat}, scope ∈ chainFrom arena fuel i → scope ∈ arena := by
  intro fuel
  induction fuel with
  | zero =>
    intro i h
    simp [chainFrom] at h
  | succ fuel ih =>
    intro i h
    rw [chainFrom] at h
    split at h
    · simp at h
    · next s hs =>
      rcases mem_cons.1 h with rfl | h
      · exact mem_of_getElem? hs
      · split at h
        · simp at h
        · exact ih h

theorem AllNumeric.numeric {scopes : Scopes} (h : scopes.AllNumeric) : scopes.Numeric := by
  constructor
  · intro x v hv
    obtain ⟨scope, hs, hv⟩ := exists_of_findSome?_eq_some hv
    exact (h scope (mem_arena_of_mem_chainFrom hs)).vars x v hv
  · intro f p r k hp hr hk
    obtain ⟨scope, hs, hp⟩ := exists_of_findSome?_eq_some hp
    exact (h scope (mem_arena_of_mem_chainFrom hs)).results f p r k hp hr hk

theorem AllNumeric.start : AllNumeric {} := by
  intro scope hs
  rw [mem_singleton.1 hs]
  exact ⟨by simp, by simp⟩

theorem AllNumeric.enter {scopes : Scopes} (h : scopes.AllNumeric) (kind : ScopeKind) :
    (scopes.enter kind).AllNumeric := by
  intro scope hs
  rcases mem_append.1 hs with hs | hs
  · exact h scope hs
  · rw [mem_singleton.1 hs]
    constructor
    · intro x v hv
      simp at hv
    · intro f p r k hp
      simp at hp

theorem AllNumeric.declareVariable {scopes : Scopes} (h : scopes.AllNumeric) {v : Variable}
    (hv : v.IsNumeric) : (scopes.declareVariable v).AllNumeric := by
  intro scope hs
  obtain ⟨i, hi⟩ := mem_iff_getElem?.1 hs
  simp only [Scopes.declareVariable, modifyCurrent, getElem?_modify] at hi
  obtain ⟨old, ho, rfl⟩ := Option.map_eq_some_iff.1 hi
  have hn := h old (mem_of_getElem? ho)
  split
  · refine ⟨fun x u hu => ?_, hn.results⟩
    rw [Table.lookup_put] at hu
    split at hu
    · exact Option.some.inj hu ▸ hv
    · exact hn.vars x u hu
  · exact hn

end Scopes

namespace Convert

open Ensures

variable {ss : List Stmt} {span own : Span} {x : String} {e : Expr}

/-! ### Statements that do what a relation says -/

def Shallow (ds : List Diagnostic) : Prop := ∀ d ∈ ds, d.cause.code ≠ "NESTING_TOO_DEEP"

instance : DecidablePred Shallow := fun ds =>
  inferInstanceAs (Decidable (∀ d ∈ ds, d.cause.code ≠ "NESTING_TOO_DEEP"))

theorem Shallow.of_prefix {ds es} (h : Shallow es) (hp : ds <+: es) : Shallow ds :=
  fun d hd => h d (hp.subset hd)

/-- The statements `ss`, converted from the state `s` on, do to a store what `r` says. -/
structure Lowered (s : State) (r : World → Store → Store → Prop) (ss : List Stmt) (t : State) : Prop where
  scopes : t.scopes.AllNumeric
  diagnostics : s.diagnostics <+: t.diagnostics
  plain : ∀ p ∈ ss, p.isClause = false
  runs : Shallow t.diagnostics → ∀ w σ τ, Runs w ss σ τ ↔ r w σ τ

theorem Lowered.of_prefix {s s' t r}
    (h : Lowered s' r ss t) (hp : s.diagnostics <+: s'.diagnostics) : Lowered s r ss t :=
  ⟨h.scopes, hp.trans h.diagnostics, h.plain, h.runs⟩

/-- A step gives statements that do what `r` says, from every state without texts. -/
def Lowers (fault : Prop) (l : Language) (act : Convert (List Stmt)) (r : World → Store → Store → Prop) : Prop :=
  ∀ (c : Context) (s : State), c.language = l → c.zeroBased = false → s.scopes.AllNumeric →
    Ensures fault act c s (Lowered s r)

variable {fault : Prop} {l : Language} {act act' : Convert (List Stmt)}
variable {r q : World → Store → Store → Prop}

theorem Lowers.congr (h : Lowers fault l act r) (hr : ∀ w σ τ, r w σ τ ↔ q w σ τ) : Lowers fault l act q := by
  intro c s hl hz hs
  refine (h c s hl hz hs).mono fun ss t ht => ?_
  exact ⟨ht.scopes, ht.diagnostics, ht.plain, fun hd w σ τ => (ht.runs hd w σ τ).trans (hr w σ τ)⟩

theorem Lowers.nil : Lowers fault l (pure []) fun _ σ τ => σ = τ := by
  intro c s _ _ hs
  exact ⟨hs, prefix_refl _, by simp, fun _ w σ τ => runs_nil⟩

theorem Lowers.append (h : Lowers fault l act r) (h' : Lowers fault l act' q) :
    Lowers fault l (do let ss ← act; return ss ++ (← act')) fun w => Comp (r w) (q w) := by
  intro c s hl hz hs
  simp only [bind_iff, pure_iff]
  refine (h c s hl hz hs).mono fun ss t ht => ?_
  refine (h' c t hl hz ht.scopes).mono fun ss' u hu => ?_
  refine ⟨hu.scopes, ht.diagnostics.trans hu.diagnostics, ?_, ?_⟩
  · intro p hp
    rcases mem_append.1 hp with hp | hp
    · exact ht.plain p hp
    · exact hu.plain p hp
  · intro hd w σ τ
    rw [Pseudo.runs_append]
    simp [Comp, ht.runs (hd.of_prefix hu.diagnostics), hu.runs hd]

theorem runs_attach {w σ τ} (notes : List String) (line : Nat) (ss : List Stmt) :
    Runs w (attach notes line ss) σ τ ↔ Runs w ss σ τ := by
  cases ss with
  | nil =>
    rw [attach, runs_nil]
    induction notes generalizing σ with
    | nil => exact runs_nil
    | cons n notes ih =>
      rw [map_cons, runs_cons]
      constructor
      · rintro ⟨ρ, hc, hr⟩
        exact (Pseudo.runs_comment.1 hc).trans (ih.1 hr)
      · rintro rfl
        exact ⟨σ, .comment, ih.2 rfl⟩
  | cons p ps =>
    rw [attach]
    split
    · exact Iff.rfl
    · rw [runs_cons, runs_cons p]
      simp [Comp, Pseudo.runs_withNotes]

theorem isClause_withNotes (p : Stmt) (ns : List String) : (p.withNotes ns).isClause = p.isClause := by
  cases p
  rfl

theorem isClause_attach {notes line} (h : ∀ p ∈ ss, p.isClause = false) :
    ∀ p ∈ attach notes line ss, p.isClause = false := by
  intro p hp
  cases ss with
  | nil =>
    obtain ⟨n, _, rfl⟩ := mem_map.1 hp
    rfl
  | cons q qs =>
    rw [attach] at hp
    split at hp
    · exact h p hp
    · rcases mem_cons.1 hp with rfl | hp
      · rw [isClause_withNotes]
        exact h q (by simp)
      · exact h p (by simp [hp])

theorem Lowers.statement (h : Lowers fault l act r) (kind : String) (span : Span) :
    Lowers fault l (statement kind span act) r := by
  intro c s hl hz hs
  rw [statement_iff]
  refine (h { c with statement := kind } { s with notes := [] } hl hz hs).mono fun ss t ht => ?_
  refine ⟨ht.scopes, ht.diagnostics, isClause_attach ht.plain, fun hd w σ τ => ?_⟩
  rw [runs_attach]
  exact ht.runs hd w σ τ

theorem Lowers.inside (h : Lowers fault l act r) (b : Breakable) : Lowers fault l (inside b act) r := by
  intro c s hl hz hs
  exact h { c with enclosing := some b } s hl hz hs

theorem Lowers.nested (h : Lowers fault l act r) (span : Span) (kind : ScopeKind) :
    Lowers fault l (nested span act kind) r := by
  intro c s hl hz hs
  simp only [Convert.nested, bind_iff, inScope_iff]
  split
  · simp only [tooDeep, bind_iff, read_iff, pure_iff]
    refine ⟨hs, prefix_append _ _, ?_, ?_⟩
    · intro p hp
      rw [mem_singleton.1 hp]
      rfl
    · intro hd
      exact absurd rfl (hd (.at_ span .warning (.nestingTooDeep c.limit)) (by simp))
  · refine (h c { s with scopes := s.scopes.enter kind } hl hz (hs.enter kind)).mono fun ss t ht => ?_
    exact ⟨ht.scopes, ht.diagnostics, ht.plain, ht.runs⟩

/-! ### Assignments -/

def Assigns (x : String) (e : Expr) (w : World) (σ τ : Store) : Prop :=
  ∃ n, e.value w σ = some (.int n) ∧ σ.set x n = τ

variable {c : Context} {s : State}

theorem target_ensures (hz : c.zeroBased = false) (hx : isVariableName x = true) :
    Ensures fault (expr (.identifier span x)) c s fun a t =>
      t = s ∧ ∃ d, a = .identifier x (some d) (some span.line) := by
  simp only [isVariableName, Bool.and_eq_true, bne_iff_ne] at hx
  obtain ⟨⟨hu, ht⟩, hs⟩ := hx
  simp only [expr, name, hu, ht, hs, decide_false, Bool.or_self, if_false, Bool.false_eq_true,
    variableName, bind_iff, get_iff, read_iff, ite_iff,
    pure_iff, hz, Bool.and_false]
  exact ⟨trivial, _, rfl⟩

theorem assignValue_eq {target} (he : ∀ p c a b, e ≠ .conditional p c a b) : assignValue span target e = (do
      match (← view).input? e with
      | some (_, shown) => inputStatements target shown
      | none =>
        let t ← expr target
        return [assign t (← expr e) span]) := by
  cases e <;> first | rfl | exact absurd rfl (he _ _ _ _)

theorem assignPlain_lowers (hx : isVariableName x = true) (h : HasTy l e .int)
    (hf : ∀ n ∈ e.nodes, n.isUnwritable = true → fault) (he : ∀ p c a b, e ≠ .conditional p c a b) :
    Lowers fault l (assignValue span (.identifier own x) e) (Assigns x e) := by
  intro c s hl hz hs
  have hin : (viewOf c s).input? e = none := HasTy.input?_eq_none (hl ▸ h)
  unfold viewOf at hin
  rw [assignValue_eq he, bind_iff, view_iff, hin]
  simp only [bind_iff]
  refine (target_ensures hz hx).mono ?_
  rintro a t ⟨rfl, d, rfl⟩
  refine (expr_faithful hl h t hs.numeric hf).mono fun b u hu => ?_
  refine ⟨hu.1.scopes ▸ hs, hu.1.diagnostics, ?_, ?_⟩
  · intro p hp
    rw [mem_singleton.1 hp]
    rfl
  · intro _ w σ τ
    simp [assign, Stmt.simple, runs_assign, hu.2, asRead_of_not_zeroBased hz, Assigns]

def Chooses (condition : Expr) (r q : World → Store → Store → Prop) (w : World) (σ τ : Store) : Prop :=
  (condition.value w σ = some (.bool true) ∧ r w σ τ) ∨ (condition.value w σ = some (.bool false) ∧ q w σ τ)

theorem expand_lowers {condition : Expr} (hc : HasTy l condition .bool)
    (hf : ∀ n ∈ condition.nodes, n.isUnwritable = true → fault) (h : Lowers fault l act r)
    (h' : Lowers fault l act' q) :
    Lowers fault l (expand span condition act act') (Chooses condition r q) := by
  intro c s hl hz hs
  simp only [expand, simplify, inform, bind_iff, report_iff, note_iff, pure_iff]
  let s₀ : State := { s with
    diagnostics := s.diagnostics ++ [.at_ span .info (.simplified "Conditional expression"
      "expanded to an IF statement")]
    notes := s.notes ++ ["Conditional expression expanded to IF"] }
  have h₀ : s.diagnostics <+: s₀.diagnostics := prefix_append _ _
  refine (expr_faithful hl hc s₀ hs.numeric hf).mono fun e t ht => ?_
  have hts : t.scopes.AllNumeric := ht.1.scopes ▸ hs
  refine (h.nested span .block c t hl hz hts).mono fun ss u hu => ?_
  refine (h'.nested span .block c u hl hz hu.scopes).mono fun ss' v hv => ?_
  refine ⟨hv.scopes, ?_, ?_, ?_⟩
  · exact ((h₀.trans ht.1.diagnostics).trans hu.diagnostics).trans hv.diagnostics
  · intro p hp
    rw [mem_singleton.1 hp]
    rfl
  · intro hd w σ τ
    have hcs : ∀ p ∈ [Stmt.mk .else_ ss' [] (some span.line)], p.isClause = true := by
      simp [Stmt.isClause, Stmt.form]
    rw [Pseudo.runs_choice hu.plain hcs, ht.2, asRead_of_not_zeroBased hz, hu.runs (hd.of_prefix hv.diagnostics)]
    simp [Pseudo.clauseBody?, hv.runs hd, Chooses]

theorem assignValue_lowers (hx : isVariableName x = true) {t} (h : HasTy l e t) : t = .int →
      (∀ n ∈ e.nodes, n.isUnwritable = true → fault) →
      Lowers fault l (assignValue span (.identifier own x) e) (Assigns x e) := by
  induction h with
  | @conditional _ _ _ _ _ hc _ _ _ iha ihb =>
    intro ht hf
    have ha := (iha ht fun n hn => hf n (by simp [nodes, hn])).statement "expression_statement" span
    have hb := (ihb ht fun n hn => hf n (by simp [nodes, hn])).statement "expression_statement" span
    refine (expand_lowers hc (fun n hn => hf n (by simp [nodes, hn])) ha hb).congr ?_
    intro w σ τ
    obtain ⟨_, hv, _ | ⟨b⟩⟩ := hc.exists_value (w := w) (σ := σ)
    cases b <;> simp [Chooses, Assigns, value, Meaning.choose, hv]
  | boolean | not | comparison | logical => rintro ⟨⟩
  | number => exact fun _ hf => assignPlain_lowers hx .number hf (by simp)
  | identifier h => exact fun _ hf => assignPlain_lowers hx (.identifier h) hf (by simp)
  | neg h => exact fun _ hf => assignPlain_lowers hx (.neg h) hf (by simp)
  | arithmetic h ha hb => exact fun _ hf => assignPlain_lowers hx (.arithmetic h ha hb) hf (by simp)
  | call h hargs => exact fun _ hf => assignPlain_lowers hx (.call h hargs) hf (by simp)

theorem assignOperation_lowers {op : BinaryOp} (hx : isVariableName x = true)
    (hop : op.isArithmetic = true) (h : HasTy l e .int)
    (hf : ∀ n ∈ e.nodes, n.isUnwritable = true → fault) :
    Lowers fault l (assignOperation span op (.identifier own x) e) fun w σ τ =>
      ∃ n, (e.value w σ).bind (op.apply (.int (σ x))) = some (.int n) ∧ σ.set x n = τ := by
  intro c s hl hz hs
  obtain ⟨m, hm, happly⟩ := operator?_apply (.inl hop)
  have hany : (op.isArithmetic || op.isComparison || op.isLogical) = true := by simp [hop]
  rw [assignOperation, bind_iff, expr_binary_eq hany, bind_iff]
  refine (target_ensures hz hx).mono ?_
  rintro a t ⟨rfl, d, rfl⟩
  rw [bind_iff]
  refine (expr_faithful hl h t hs.numeric hf).mono fun b u hu => ?_
  have hn : u.scopes.Numeric := hu.1.scopes ▸ hs.numeric
  refine (combine_ensures hany hm ((HasTy.identifier hx).inferScalar_ne_string hn hl)
    (h.inferScalar_ne_string hn hl)).mono ?_
  rintro _ v ⟨rfl, rfl⟩
  refine ⟨hu.1.scopes ▸ hs, hu.1.diagnostics, ?_, ?_⟩
  · intro p hp
    rw [mem_singleton.1 hp]
    rfl
  · intro _ w σ τ
    rw [assign, Stmt.simple, runs_assign, Pseudo.Expr.value, hu.2, asRead_of_not_zeroBased hz, happly]
    rfl

end Convert

/-! ### Assignments that stand as statements -/

namespace Source

variable {w : World} {x : String} {e : Expr}

/-- The expressions that assign a whole number to a variable. -/
inductive IsAssignment (l : Language) : Expr → Prop where
  | set {span own x e} : isVariableName x = true → HasTy l e .int →
      IsAssignment l (.assignment span .set (.identifier own x) e)
  | operate {span own op x e} : isVariableName x = true → BinaryOp.isArithmetic op = true →
      HasTy l e .int → IsAssignment l (.assignment span (.with_ op) (.identifier own x) e)
  | update {span own op before x} : isVariableName x = true →
      IsAssignment l (.update span op before (.identifier own x))

theorem effect_set_iff {σ τ span own} : (Expr.assignment span .set (.identifier own x) e).effect w σ = some τ ↔
      ∃ n, e.value w σ = some (.int n) ∧ σ.set x n = τ := by
  rw [Expr.effect]
  rcases e.value w σ with _ | ⟨n⟩ | ⟨b⟩ <;> simp

theorem effect_operate_iff {σ τ span own op} :
    (Expr.assignment span (.with_ op) (.identifier own x) e).effect w σ = some τ ↔
      ∃ n, (e.value w σ).bind (op.apply (.int (σ x))) = some (.int n) ∧ σ.set x n = τ := by
  rw [Expr.effect]
  rcases (e.value w σ).bind (op.apply (.int (σ x))) with _ | ⟨n⟩ | ⟨b⟩ <;> simp

end Source

namespace Convert

variable {fault : Prop} {l : Language}

theorem one_writable : numberText? "1" (.int 1) = some "1" := by decide

theorem assignment_operate_eq {span op} (hop : op.isArithmetic = true) (target e : Expr) :
    assignment span (.with_ op) target e = assignOperation span op target e := by
  cases op <;> first | exact absurd hop (by decide) | rfl

theorem exprStatement_lowers {e} (h : Source.IsAssignment l e) (span : Span)
    (hf : ∀ n ∈ e.nodes, n.isUnwritable = true → fault) :
    Lowers fault l (exprStatement span e) fun w σ τ => e.effect w σ = some τ := by
  cases h with
  | set hx he =>
    refine (assignValue_lowers hx he rfl fun n hn => hf n ?_).congr fun w σ τ =>
      Source.effect_set_iff.symm
    simp [nodes, hn]
  | operate hx hop he =>
    rw [exprStatement, assignment_operate_eq hop]
    refine (assignOperation_lowers hx hop he fun n hn => hf n ?_).congr fun w σ τ =>
      Source.effect_operate_iff.symm
    simp [nodes, hn]
  | @update p own op before x hx =>
    -- the number one that is added or subtracted can be written
    have hone : ∀ n ∈ (Expr.number p (.int 1) "1").nodes, n.isUnwritable = true → fault := by
      simp [nodes, Source.Node.isUnwritable, one_writable]
    cases op with
    | increment =>
      refine (assignOperation_lowers hx rfl .number hone).congr fun w σ τ => ?_
      simp [value, BinaryOp.apply, effect]
    | decrement =>
      refine (assignOperation_lowers hx rfl .number hone).congr fun w σ τ => ?_
      simp [value, BinaryOp.apply, effect]

theorem exprStatements_lowers {es} (h : ∀ e ∈ es, Source.IsAssignment l e)
    (hf : ∀ e ∈ es, ∀ n ∈ e.nodes, n.isUnwritable = true → fault) :
    Lowers fault l (exprStatements es) fun w => Source.Runs w (es.map asStmt) := by
  induction es with
  | nil => exact Lowers.nil.congr fun w σ τ => Source.runs_nil.symm
  | cons e es ih =>
    have hfirst := (exprStatement_lowers (h e (by simp)) e.span (hf e (by simp))).statement
      "expression_statement" e.span
    have hrest := ih (fun e he => h e (by simp [he])) fun e he => hf e (by simp [he])
    refine (hfirst.append hrest).congr fun w σ τ => ?_
    rw [map_cons, Source.runs_cons]
    simp [Comp, asStmt, Source.runs_expression]

end Convert

end Blackboard
