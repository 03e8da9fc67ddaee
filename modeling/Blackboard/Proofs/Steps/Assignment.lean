import Blackboard.Proofs.Steps.Expression

/-! The steps that convert expressions that stand as statements: output and input, calls, and assignments. -/
namespace Blackboard.Convert

open Conversion Discipline
open List (forall_mem_singleton forall_mem_append)
open Pseudo (Stmt Form)
open Pseudo.Stmt (ordinary_simple ordinary_comment ordinary_choice simple_relocate comment_relocate mk_relocate)
open Source (Relocation Span Expr BinaryOp AssignOp relocateExprs weight exprNodes exprNode unbroken weight_cons
  weight_append nodesInOrder_nil nodesInOrder_cons nodesInOrder_append)

variable {K : Setting} [law : K.T.Lawful] {P : String → Prop} {pre : Prop} {span outer : Span}
    {target value condition callee : Expr} {args : List Expr} {shown : Option Expr}

/-! ### Output and input -/

/-- A step that gives expressions to be written. -/
abbrev ItemStep (K : Setting) (P : String → Prop) (pre : Prop) (x y : Convert (List Pseudo.Expr)) : Prop :=
  Step K false P P pre (List.map (·.relocate K.m)) x y (fun as => ∀ a ∈ as, a.WellFormed) fun as => ∀ a ∈ as, K.T.Expr a

theorem outputItem_step {e : Expr} (h : weight e.nodes ≤ K.W) :
    ItemStep K P (K.T.Nodes P e.nodes) (do return [← expr e]) (do return [← expr (e.relocate K.m)]) :=
  ((expr_step e h).part id).bind fun _ ha => .pure rfl (forall_mem_singleton.2 ha.wellFormed) fun ⟨_, ha⟩ =>
    forall_mem_singleton.2 ha

theorem outputItems_step (e : Expr) (h : weight e.nodes ≤ K.W) :
    ItemStep K P (K.T.Nodes P e.nodes) (outputItems e) (outputItems (e.relocate K.m)) := by
  fun_induction outputItems e with
  | case1 span left right e ih =>
    have hone : ItemStep K P (K.T.Nodes P e.nodes) (do return [← expr e]) (do return [← expr (e.relocate K.m)]) :=
      outputItem_step h
    simp only [e, Expr.relocate, outputItems, Expr.nodes, weight_cons, weight_append, nodesInOrder_cons,
      nodesInOrder_append] at h hone ⊢
    refine .view_bind fun v w hv => .ite ?_ (fun _ => ?_) fun _ => hone.weaken And.left
    · rw [← hv.inferScalar_eq K.m, Expr.relocate]
    · exact ((ih (by omega)).weaken fun h => h.1.2.1).bind fun items hitems =>
        ((expr_step right (by omega)).part fun h => h.1.1.2.2).bind fun a ha => .pure (by simp)
          (forall_mem_append.2 ⟨hitems, forall_mem_singleton.2 ha.wellFormed⟩) fun h =>
            forall_mem_append.2 ⟨h.1.2, forall_mem_singleton.2 h.2⟩
  | case2 span parts =>
    simp only [Expr.relocate, outputItems, K.m.line_span, Expr.nodes, weight_cons, nodesInOrder_cons] at h ⊢
    refine .next (.simplify _ _ _) fun _ => Step.ensure
      (((templateItems_step (some span.line) parts (by omega)).weaken And.right).mono fun as _ has a ha => ?_)
      fun as has a ha => (has a ha).wellFormed
    exact (has a ha).expr
  | case3 e hadd htemplate =>
    rw [outputItems]
    · exact outputItem_step h
    · intro span left right h
      cases e with
      | binary s op a b =>
        simp only [Expr.relocate, Expr.binary.injEq] at h
        obtain ⟨-, rfl, -⟩ := h
        exact hadd s a b rfl
      | _ => simp [Expr.relocate] at h
    · intro span parts h
      cases e with
      | template s ps => exact htemplate s ps rfl
      | _ => simp [Expr.relocate] at h

theorem allOutputItems_step (es : List Expr) (h : weight (exprNodes es) ≤ K.W) :
    ItemStep K P (K.T.Nodes P (exprNodes es)) (allOutputItems es) (allOutputItems (relocateExprs K.m es)) := by
  induction es with
  | nil =>
    rw [relocateExprs, allOutputItems]
    exact .pure rfl (by simp) fun _ => by simp
  | cons e es ih =>
    rw [exprNodes, weight_append] at h
    simp only [relocateExprs, allOutputItems, exprNodes, nodesInOrder_append]
    exact ((outputItems_step e (by omega)).weaken And.left).bind fun items hitems =>
      ((ih (by omega)).weaken fun h => h.1.2).bind fun rest hrest => .pure (by simp)
        (forall_mem_append.2 ⟨hitems, hrest⟩) fun h => forall_mem_append.2 ⟨h.1.2, h.2⟩

theorem inputStatements_step (ht : weight target.nodes ≤ K.W) (hs : weight (exprNode shown) ≤ K.W)
    (hT : pre → K.T.Nodes P target.nodes) (hS : pre → K.T.Nodes P (exprNode shown)) :
    StmtStep K P P pre (inputStatements target shown)
      (inputStatements (target.relocate K.m) (shown.map (·.relocate K.m))) := by
  unfold inputStatements
  rw [Expr.span_relocate]
  have hinput {R : Prop} (before : List Stmt) (hb : AllOrdinary before) (hpre : R → pre ∧ K.T.Stmts before) :
      StmtStep K P P R (do return before ++ [.simple (.input (← expr target)) (some target.span.line)])
        (do return before.map (Stmt.relocate K.m) ++
          [.simple (.input (← expr (target.relocate K.m))) (some (K.m.span target.span).line)]) :=
    ((expr_step target ht).part fun h => hT (hpre h).1).bind fun a ha =>
      .pure (by simp [simple_relocate, Form.relocate])
        (hb.append (.singleton (ordinary_simple rfl (forall_mem_singleton.2 ha.wellFormed)))) fun ⟨h, ha⟩ =>
          stmts_append.2 ⟨(hpre h).2, stmts_singleton (stmt_plain rfl (forall_mem_singleton.2 ha))⟩
  cases shown with
  | none => exact hinput [] .nil fun h => ⟨h, stmts_nil⟩
  | some e =>
    refine ((outputItems_step e hs).weaken hS).bind fun items hitems => ?_
    have h := hinput (R := pre ∧ ∀ a ∈ items, K.T.Expr a) [.simple (.output items) (some target.span.line)]
      (.singleton (ordinary_simple rfl hitems)) fun h => ⟨h.1, stmts_singleton (stmt_plain rfl h.2)⟩
    simpa [simple_relocate, Form.relocate] using h

/-! ### Calls -/

omit law in
theorem isInputReader_step (callee : Expr) :
    SameStep K false P pre (isInputReader callee) (isInputReader (callee.relocate K.m)) fun _ => True := by
  unfold isInputReader
  cases callee with
  | member span target name isOptional =>
    exact .view_bind fun v w hv => .pure (hv.isInputSource_eq K.m target) trivial fun _ => trivial
  | _ => exact .pure rfl trivial fun _ => trivial

theorem callStatement_step (h : weight (Expr.call span callee args).nodes ≤ K.W) :
    StmtStep K P P (K.T.Admits P (.stmt (.expression outer (.call span callee args))) ∧
        K.T.Nodes P (Expr.call span callee args).nodes)
      (callStatement span callee args) (callStatement (K.m.span span) (callee.relocate K.m) (relocateExprs K.m args)) := by
  unfold callStatement
  have hcall : Expr.call (K.m.span span) (callee.relocate K.m) (relocateExprs K.m args) =
      (Expr.call span callee args).relocate K.m := by rw [Expr.relocate]
  rw [hcall]
  refine .view_bind fun v w hv => Step.weaken ?_ And.left
  simp only [Expr.dottedName?_relocate, ← hv.language, hv.input?_eq, Option.isSome_map]
  refine .ite Iff.rfl (fun _ => ?_) fun _ => .ite Iff.rfl (fun _ => .pure (by simp [comment_relocate])
    (.singleton (ordinary_comment _ _)) fun _ => stmts_singleton (stmt_comment (law.text_of_line (unbroken rfl)) _))
      fun _ => .next (isInputReader_step callee) fun b => .ite Iff.rfl (fun _ => StmtStep.nil) fun _ => ?_
  · have hargs : weight (exprNodes args) ≤ K.W := by
      simp only [Expr.nodes, weight_cons, weight_append] at h
      omega
    refine .ite Iff.rfl (fun _ => .next (.note fun _ => law.text_of_line (unbroken rfl)) fun _ => ?_) fun _ => ?_
    all_goals
      refine ((allOutputItems_step args hargs).weaken fun h => ?_).bind fun items hitems => .pure ?_
        (.singleton (ordinary_simple rfl ?_)) fun hp => stmts_singleton (stmt_plain rfl ?_)
      · simp only [Expr.nodes, nodesInOrder_cons, nodesInOrder_append] at h
        exact h.2.2.2
      · cases items <;> simp [simple_relocate, Form.relocate, Pseudo.Expr.relocate]
      · cases items
        · exact forall_mem_singleton.2 .literal
        · exact hitems
      · cases items
        · exact forall_mem_singleton.2 (expr_leaf rfl rfl)
        · exact hp.2
  · refine ((expr_step (.call span callee args) h).weaken And.right).bind fun call hc => ?_
    have hordinary := forall_mem_singleton.2 hc.wellFormed
    rw [calledName?_relocate]
    cases hname : calledName? call with
    | none =>
      exact .pure (by simp [simple_relocate, Form.relocate]) (.singleton (ordinary_simple rfl hordinary)) fun h =>
        stmts_singleton (stmt_simple (law.form_nameless h.2.expr hname) _)
    | some name =>
      refine .findCallable?_bind fun p q hpq => ?_
      have hfunction : (p.any fun p => !p.isProcedure) = q.any fun p => !p.isProcedure := by
        simpa [Option.any_map, Function.comp_def, Procedure.isProcedure] using
          congrArg (Option.any fun r => !r.isNone) hpq
      rw [hfunction.symm]
      refine .pure ?_ (.singleton ?_) fun h => ?_
      · split <;> simp [simple_relocate, Form.relocate]
      · split <;> exact ordinary_simple rfl hordinary
      · obtain ⟨⟨⟨hown, _⟩, hcall⟩, chain, hchain, rfl⟩ := h
        exact stmts_singleton (stmt_simple (law.form_named hchain hown hcall hname) _)

/-! ### Assignments -/

theorem expand_step {x y x' y'} (h : weight condition.nodes ≤ K.W) (hc : pre → K.T.Nodes P condition.nodes)
    (hyes : StmtStep K P P pre x y) (hno : StmtStep K P P pre x' y') :
    StmtStep K P P pre (expand span condition x x') (expand (K.m.span span) (condition.relocate K.m) y y') := by
  unfold expand
  refine .next (.simplify _ _ _) fun _ => .next (.note fun _ => law.text_of_line (unbroken rfl)) fun _ =>
    ((expr_step condition h).part hc).bind fun c hc => (StmtStep.nested (hyes.weaken And.left)).bind fun a ha =>
      (StmtStep.nested (hno.weaken fun h => h.1.1)).bind fun b hb => .pure (by simp [mk_relocate, Form.relocate])
        (.singleton (ordinary_choice hc.wellFormed ha (.else_ hb))) fun ⟨⟨⟨_, hc⟩, ha⟩, hb⟩ => ?_
  refine stmts_singleton (stmt_ordinary rfl (forall_mem_singleton.2 hc)
    (stmts_append.2 ⟨ha, stmts_singleton (stmt_ordinary rfl ?_ hb)⟩))
  simp [Form.expressions]

theorem assignValue_step (value : Expr) (ht : weight target.nodes ≤ K.W) (hv : weight value.nodes ≤ K.W)
    (hT : pre → K.T.Nodes P target.nodes) (hV : pre → K.T.Nodes P value.nodes) :
    StmtStep K P P pre (assignValue span target value)
      (assignValue (K.m.span span) (target.relocate K.m) (value.relocate K.m)) := by
  fun_induction assignValue span target value with
  | case1 s condition yes no ihyes ihno =>
    simp only [Expr.nodes, weight_cons, weight_append, nodesInOrder_cons, nodesInOrder_append] at hv hV
    simp only [Expr.relocate, assignValue]
    exact expand_step (by omega) (fun h => (hV h).2.1.1) (.statement _ (ihyes (by omega) fun h => (hV h).2.1.2))
      (.statement _ (ihno (by omega) fun h => (hV h).2.2))
  | case2 value hvalue =>
    rw [assignValue]
    · refine .view_bind fun v w hv' => Step.weaken ?_ And.left
      rw [hv'.input?_eq]
      cases hshown : v.input? value with
      | some found =>
        have hsub := input?_sublist hshown
        exact inputStatements_step ht (Nat.le_trans (Source.weight_le_of_sublist hsub) hv) hT fun h n hn =>
          hV h n (hsub.subset hn)
      | none =>
        exact ((expr_step target ht).part hT).bind fun t ht => ((expr_step value hv).part fun h => hV h.1).bind fun a ha =>
          .pure (by simp [assign_relocate]) (.singleton (ordinary_assign ht.wellFormed ha.wellFormed))
            fun h => stmts_singleton (stmt_assign h.1.2 h.2 span)
    · intro s condition yes no h
      cases value with
      | conditional s' c a b => exact hvalue s' c a b rfl
      | _ => simp [Expr.relocate] at h

theorem assignMissing_step (ht : weight target.nodes ≤ K.W) (hv : weight value.nodes ≤ K.W)
    (hT : pre → K.T.Nodes P target.nodes) (hV : pre → K.T.Nodes P value.nodes) :
    StmtStep K P P pre (assignMissing span target value)
      (assignMissing (K.m.span span) (target.relocate K.m) (value.relocate K.m)) := by
  unfold assignMissing
  refine .next (.simplify _ _ _) fun _ => .next (.note fun _ => law.text_of_line (unbroken rfl)) fun _ =>
    ((expr_step target ht).part hT).bind fun t ht => ((expr_step value hv).part fun h => hV h.1).bind fun a ha =>
      .pure ?_ (.singleton ?_) fun ⟨⟨_, ht⟩, ha⟩ => ?_
  · simp [mk_relocate, Form.relocate, Pseudo.Expr.relocate, assign_relocate, nothing]
  · rw [← List.append_nil [assign t a span]]
    exact ordinary_choice (.binary (by decide) ht.wellFormed .literal)
      (AllOrdinary.singleton (ordinary_assign ht.wellFormed ha.wellFormed)) .nil
  · exact stmts_singleton (stmt_ordinary rfl (forall_mem_singleton.2
      (expr_pair rfl ht (nothing_plain none).1 rfl)) (stmts_singleton (stmt_assign ht ha span)))

theorem assignOperation_step {op} (ht : weight target.nodes ≤ K.W) (hv : weight value.nodes ≤ K.W)
    (hT : pre → K.T.Nodes P target.nodes) (hV : pre → K.T.Nodes P value.nodes) :
    StmtStep K P P pre (assignOperation span op target value)
      (assignOperation (K.m.span span) op (target.relocate K.m) (value.relocate K.m)) := by
  unfold assignOperation
  -- The operation itself weighs more than its operands, so it is converted as `expr` does it.
  rw [expr, expr]
  refine (operation_step (fun h => ⟨hT h, hV h⟩) ((expr_step target ht).part hT)
    ((expr_step value hv).part hV)).bind fun result hr => ?_
  have hchildren := wellFormed_children hr.wellFormed
  rw [Pseudo.Expr.children_relocate]
  cases hc : result.children with
  | nil =>
    exact ((expr_step target ht).part fun h => hT h.1).bind fun t ht => .pure (by simp [assign_relocate])
      (.singleton (ordinary_assign ht.wellFormed hr.wellFormed)) fun ⟨⟨_, hr⟩, ht⟩ =>
        stmts_singleton (stmt_assign ht hr.1 span)
  | cons t ts =>
    exact .pure (by simp [assign_relocate]) (.singleton (ordinary_assign (hchildren t (by simp [hc])) hr.wellFormed))
      fun ⟨_, hr⟩ => stmts_singleton (stmt_assign (hr.1.children t (by simp [hc])) hr.1 span)

theorem assignment_step {op : AssignOp} (ht : weight target.nodes ≤ K.W) (hv : weight value.nodes ≤ K.W)
    (hT : pre → K.T.Nodes P target.nodes) (hV : pre → K.T.Nodes P value.nodes) :
    StmtStep K P P pre (assignment span op target value)
      (assignment (K.m.span span) op (target.relocate K.m) (value.relocate K.m)) := by
  have htext : (Expr.assignment (K.m.span span) op (target.relocate K.m) (value.relocate K.m)).text =
      (Expr.assignment span op target value).text := by
    simpa only [Expr.relocate] using Expr.text_relocate K.m (.assignment span op target value)
  unfold assignment
  split
  · exact assignValue_step value ht hv hT hV
  · exact assignMissing_step ht hv hT hV
  · refine .ite Iff.rfl (fun _ => assignOperation_step ht hv hT hV) fun _ => ?_
    simp only [htext]
    exact .next (.simplifyWarn _ _ _) fun _ => .pure (by simp [simple_relocate, Form.relocate, Pseudo.Expr.relocate])
      (.singleton (ordinary_simple rfl (forall_mem_singleton.2 .raw))) fun _ =>
        stmts_singleton (stmt_simple (law.form_nameless (expr_leaf rfl rfl) rfl) _)

theorem exprStatement_step (e : Expr) (h : weight e.nodes ≤ K.W)
    (hE : pre → K.T.Admits P (.stmt (.expression span e)) ∧ K.T.Nodes P e.nodes) :
    StmtStep K P P pre (exprStatement span e) (exprStatement (K.m.span span) (e.relocate K.m)) := by
  fun_induction exprStatement span e with
  | case1 s callee args => simpa only [Expr.relocate, exprStatement] using (callStatement_step h).weaken hE
  | case2 s op target value =>
    simp only [Expr.nodes, nodesInOrder_cons, nodesInOrder_append, weight_cons, weight_append] at h hE
    simp only [Expr.relocate, exprStatement]
    exact assignment_step (by omega) (by omega) (fun hp => (hE hp).2.2.1) fun hp => (hE hp).2.2.2
  | case3 s before target | case4 s before target =>
    have hpos := target.weight_nodes_pos
    simp only [Expr.nodes, nodesInOrder_cons, weight_cons, Source.Node.weight] at h hE
    simp only [Expr.relocate, exprStatement]
    have hone : Expr.number (K.m.span s) (.int 1) "1" = (Expr.number s (.int 1) "1").relocate K.m := rfl
    rw [hone]
    refine assignment_step (by omega) ?_ (fun hp => (hE hp).2.2) fun _ => ?_
    · simp only [Expr.nodes, weight_cons, Source.weight_nil, Source.Node.weight]
      omega
    · simp only [Expr.nodes, nodesInOrder_cons]
      exact ⟨law.admits_one, nodesInOrder_nil⟩
  | case5 s e ih =>
    simp only [Expr.nodes, nodesInOrder_cons, weight_cons] at h hE
    simp only [Expr.relocate, exprStatement]
    exact .next (.simplify _ _ _) fun _ => .next (.note fun _ => law.text_of_line (unbroken rfl)) fun _ =>
      ih (by omega) fun hp => ⟨law.admits_awaited (hE hp).1, (hE hp).2.2⟩
  | case6 e hcall hassign hincrement hdecrement hawait =>
    have hother : exprStatement (K.m.span span) (e.relocate K.m) =
        (do return [.simple (.expression (← expr (e.relocate K.m))) (some (K.m.span span).line)]) := by
      cases e with
      | call s callee args => exact (hcall s callee args rfl).elim
      | assignment s op target value => exact (hassign s op target value rfl).elim
      | update s op before target =>
        cases op with
        | increment => exact (hincrement s before target rfl).elim
        | decrement => exact (hdecrement s before target rfl).elim
      | await s e => exact (hawait s e rfl).elim
      | _ => rfl
    rw [hother]
    exact ((expr_step e h).weaken fun hp => (hE hp).2).bind fun a ha => .pure (by simp [simple_relocate, Form.relocate])
      (.singleton (ordinary_simple rfl (forall_mem_singleton.2 ha.wellFormed))) fun h =>
        stmts_singleton (stmt_simple (law.form_statement (hE h.1).1 hcall hawait h.2) _)

theorem returnValue_step (e : Expr) (h : weight e.nodes ≤ K.W) (hE : pre → K.T.Nodes P e.nodes) :
    StmtStep K P P pre (returnValue span e) (returnValue (K.m.span span) (e.relocate K.m)) := by
  fun_induction returnValue span e with
  | case1 s condition yes no ihyes ihno =>
    simp only [Expr.nodes, nodesInOrder_cons, nodesInOrder_append, weight_cons, weight_append] at h hE
    simp only [Expr.relocate, returnValue]
    exact expand_step (by omega) (fun hp => (hE hp).2.1.1) (.statement _ (ihyes (by omega) fun hp => (hE hp).2.1.2))
      (.statement _ (ihno (by omega) fun hp => (hE hp).2.2))
  | case2 e he =>
    rw [returnValue]
    · exact ((expr_step e h).part hE).bind fun a ha => .pure (by simp [simple_relocate, Form.relocate])
        (.singleton (ordinary_simple rfl (forall_mem_singleton.2 ha.wellFormed))) fun h =>
          stmts_singleton (stmt_plain rfl (forall_mem_singleton.2 h.2))
    · intro s condition yes no h
      cases e with
      | conditional s' c a b => exact he s' c a b rfl
      | _ => simp [Expr.relocate] at h

end Blackboard.Convert
