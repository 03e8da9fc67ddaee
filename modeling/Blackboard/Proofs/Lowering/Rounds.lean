import Blackboard.Proofs.Lowering.Iteration

namespace Blackboard

open Conversion
open Meaning
open Relation (Comp ReflTransGen)
open Source (Span CountingLoop)

namespace Source

/-! ### What the body of a loop leaves as it is -/

def Node.writes (x : String) : Node → Bool
  | .declarator d => d.name == x
  | n => n.assigns x

variable {w : World} {σ τ : Store} {x : String}

theorem Expr.effect_keeps {e : Expr} (h : e.effect w σ = some τ)
    (hx : e.nodes.any (Node.writes x) = false) : τ x = σ x := by
  have hset {y : String} {n : Int} (hy : (y == x) = false) : σ.set y n x = σ x := by
    rw [Store.set, if_neg fun h => by simp [h] at hy]
  unfold effect at h
  split at h <;> simp [nodes, Node.writes, Node.assigns, isVariable] at hx
  · split at h <;> cases h
    exact hset (by simp [hx])
  · split at h <;> cases h
    exact hset (by simp [hx])
  · cases h
    exact hset (by simp [hx])
  · cases h
    exact hset (by simp [hx])
  · cases h

theorem any_asStmt (es : List Expr) :
    (stmtNodes (es.map Expr.asStmt)).any (Node.writes x) = (exprNodes es).any (Node.writes x) := by
  induction es with
  | nil => rfl
  | cons e es ih =>
    rw [List.map_cons, stmtNodes, exprNodes, List.any_append, List.any_append, ih]
    rfl

theorem Runs.keeps {ss : List Stmt} (h : Runs w ss σ τ)
    (hx : (stmtNodes ss).any (Node.writes x) = false) : τ x = σ x := by
  induction h with
  | nil | empty | declared | whileStop | forStop => rfl
  | cons _ _ ih ih' =>
    rw [stmtNodes, List.any_append, Bool.or_eq_false_iff] at hx
    rw [ih' hx.2, ih (by simpa [stmtNodes] using hx.1)]
  | expression he => exact Expr.effect_keeps he (by simp_all [stmtNodes, Stmt.nodes])
  | @declare _ _ name _ _ _ _ _ _ _ _ σ _ _ _ ih =>
    simp only [stmtNodes, Stmt.nodes, VarDecl.nodes, declaratorNodes, List.any_cons, List.any_append,
      Bool.or_eq_false_iff] at hx ih
    rw [ih (by clear ih; simp_all [Node.writes, Node.assigns]), Store.set,
      if_neg fun h => by clear ih; simp_all [Node.writes]]
  | @ifFalse _ _ _ no _ _ _ _ ih =>
    refine ih ?_
    clear ih
    cases no <;> simp_all [stmtNodes, stmtNode, Stmt.nodes]
  | block _ ih | ifTrue _ _ ih | doStop _ _ ih =>
    exact ih (by clear ih; simp_all [stmtNodes, Stmt.nodes, Block.nodes])
  | whileGo _ _ _ ih ih' | doGo _ _ _ ih ih' =>
    rw [ih' hx, ih (by clear ih ih'; simp_all [stmtNodes, Stmt.nodes])]
  | forDeclare _ _ ih ih' =>
    rw [ih' (by clear ih ih'; simp_all [stmtNodes, Stmt.nodes, varDeclNode, Node.writes, Node.assigns]),
      ih (by clear ih ih'; simp_all [stmtNodes, Stmt.nodes, varDeclNode])]
  | forStart _ _ ih ih' =>
    rw [ih' (by clear ih ih'; simp_all [stmtNodes, Stmt.nodes, exprNodes, Node.writes, Node.assigns]),
      ih (by clear ih ih'; rw [any_asStmt]; simp_all [stmtNodes, Stmt.nodes])]
  | forGo _ _ _ _ ih ih' ih'' =>
    rw [ih'' hx, ih' (by clear ih ih' ih''; rw [any_asStmt]; simp_all [stmtNodes, Stmt.nodes]),
      ih (by clear ih ih' ih''; simp_all [stmtNodes, Stmt.nodes])]

theorem Stmt.assigns_eq_false_iff {s : Stmt} : s.assigns x = false ↔ ∀ n ∈ s.nodes, n.assigns x = false := by
  simp [assigns]

namespace CountingLoop

variable {decl : Option VarDecl} {init update : List Expr} {condition : Option Expr} {body : Stmt}
    {loop : CountingLoop}

theorem update_runs (h : ofLoop? decl init condition update body = some loop)
    (hr : Runs w (update.map Expr.asStmt) σ τ) : τ = σ.set loop.name (σ loop.name + loop.step) := by
  obtain ⟨-, -, -, ⟨e, rfl, hk⟩, -⟩ := ofLoop?_eq_some_iff.1 h
  have he := runs_expression.1 hr
  rw [effect_of_step? hk] at he
  exact (Option.some.inj he).symm

/-- One round of a loop adds the step to the counter, and leaves the bound as it is if the body does not
write to its variables. -/
theorem round_keeps (h : ofLoop? decl init condition update body = some loop)
    (hr : Comp (Runs w [body]) (Runs w (update.map Expr.asStmt)) σ τ) :
    ((∀ d, .declarator d ∈ body.nodes → d.name ≠ loop.name) → τ loop.name = σ loop.name + loop.step) ∧
    ((∀ x, loop.bound.mentions x = true → ∀ n ∈ body.nodes, n.writes x = false) →
      loop.bound.value w τ = loop.bound.value w σ) := by
  obtain ⟨ρ, hbody, hupdate⟩ := hr
  obtain ⟨-, -, hbound, -, -, hassigns⟩ := ofLoop?_eq_some_iff.1 h
  obtain rfl := update_runs h hupdate
  have hkeeps {x : String} (hx : ∀ n ∈ body.nodes, n.writes x = false) : ρ x = σ x :=
    hbody.keeps (by simpa [stmtNodes] using hx)
  constructor
  · intro hd
    rw [Store.set, if_pos rfl, hkeeps fun n hn => ?_]
    cases n with
    | declarator d => simpa [Node.writes] using hd d hn
    | _ => exact Stmt.assigns_eq_false_iff.1 hassigns _ hn
  · refine fun hx => loop.bound.value_congr fun x hm => ?_
    rw [Store.set, if_neg fun heq => by simp [heq, hbound] at hm]
    exact hkeeps (hx x hm)

/-- The body of a recognised loop never assigns the counter, not even within functions, and the bound does
not mention it. Nothing else is asked of the body. So after every number of rounds the counter is that
many steps from where it was; the bound is what it was if the body writes to none of its variables. -/
theorem recognised_loops_fix_counter (decl : Option VarDecl) (init update : List Expr)
    (condition : Option Expr) (body : Stmt) (loop : CountingLoop)
    (h : ofLoop? decl init condition update body = some loop) :
    (∀ n ∈ body.nodes, n.assigns loop.name = false) ∧ loop.bound.mentions loop.name = false ∧
    (∀ other : Stmt, ofLoop? decl init condition update other = some loop ↔
      ∀ n ∈ other.nodes, n.assigns loop.name = false) ∧
    ∀ w σ τ, ReflTransGen (Comp (Runs w [body]) (Runs w (update.map Expr.asStmt))) σ τ →
      ((∀ d, .declarator d ∈ body.nodes → d.name ≠ loop.name) →
        ∃ k : Nat, τ loop.name = σ loop.name + k * loop.step) ∧
      ((∀ x, loop.bound.mentions x = true → ∀ n ∈ body.nodes, n.writes x = false) →
        loop.bound.value w τ = loop.bound.value w σ) := by
  obtain ⟨hinitial, hcondition, hbound, hupdate, hon, hbody⟩ := ofLoop?_eq_some_iff.1 h
  refine ⟨Stmt.assigns_eq_false_iff.1 hbody, hbound, fun other => ?_, fun w σ τ hr => ?_⟩
  · rw [ofLoop?_eq_some_iff, ← Stmt.assigns_eq_false_iff]
    exact ⟨fun h => h.2.2.2.2.2, fun ho => ⟨hinitial, hcondition, hbound, hupdate, hon, ho⟩⟩
  · induction hr with
    | refl => exact ⟨fun _ => ⟨0, by simp⟩, fun _ => rfl⟩
    | tail _ hround ih =>
      have hstep := round_keeps h hround
      refine ⟨fun hd => ?_, fun hx => (hstep.2 hx).trans (ih.2 hx)⟩
      obtain ⟨k, hk⟩ := ih.1 hd
      refine ⟨k + 1, ?_⟩
      rw [hstep.1 hd, hk]
      push_cast
      rw [Int.add_mul, Int.one_mul, Int.add_assoc]

end CountingLoop

end Source

namespace Convert

theorem recognised_loops_fix_counter_upTo : ∃ span decl init condition update body,
      upToStatement "x" = .forLoop span decl init condition update body ∧
      (∀ n ∈ body.nodes, n.assigns "i" = false) ∧
      ∀ w σ τ, ReflTransGen (Comp (Source.Runs w [body]) (Source.Runs w (update.map Source.Expr.asStmt))) σ τ →
        upToVariable.bound.value w τ = upToVariable.bound.value w σ := by
  obtain ⟨span, decl, init, condition, update, body, hs, hloop, hnodes⟩ : ∃ span decl init condition update body,
        upToStatement "x" = .forLoop span decl init condition update body ∧
        CountingLoop.ofLoop? decl init condition update body = some upToVariable ∧
        ∀ n ∈ body.nodes, n.writes "b" = false := ⟨_, _, _, _, _, _, rfl, rfl, by decide⟩
  have hfix := CountingLoop.recognised_loops_fix_counter decl init update condition body upToVariable hloop
  refine ⟨span, decl, init, condition, update, body, hs, hfix.1, fun w σ τ hr =>
    (hfix.2.2.2 w σ τ hr).2 fun x hx => ?_⟩
  obtain rfl : "b" = x := by
    simpa [Source.Expr.mentions, upToVariable, Source.Expr.nodes, Source.Node.isVariable,
      Source.Expr.isVariable] using hx
  exact hnodes

/-- The loop writes to its bound, and is recognised. -/
theorem upToStatement_changes_bound : ∃ span decl init condition update body,
      upToStatement "b" = .forLoop span decl init condition update body ∧
      CountingLoop.ofLoop? decl init condition update body = some upToVariable ∧
      upToVariable.bound.mentions "b" = true ∧ body.assigns "b" = true :=
  ⟨_, _, _, _, _, _, rfl, rfl, rfl, rfl⟩

end Convert

end Blackboard
