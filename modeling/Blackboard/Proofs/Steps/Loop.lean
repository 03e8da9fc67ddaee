import Blackboard.Proofs.Steps.Declaration

/-! The steps that convert loops, given the steps that convert their bodies. -/
namespace Blackboard.Convert

open Conversion Discipline
open And (right)
open Iff (rfl)
open List (forall_mem_singleton)
open Pseudo (Form normalize normalize_relocate)
open Pseudo.Stmt (ordinary_simple ordinary_mk simple_relocate mk_relocate)
open Source (Relocation Span CountingLoop Expr TypeRef VarDecl relocateExprs relocateExpr? relocateVarDecl? weight exprNodes
  exprNode unbroken weight_append nodesInOrder_append)

variable {K : Setting} {P Q : String → Prop} {pre pre' : Prop} {span : Span} {name : String} {type : Option TypeRef}
    {loop : CountingLoop} {start length : Pseudo.Expr} {iterable : Expr} {n : Nat} {m : Relocation}
    {x y : Convert Unit → Convert (List Pseudo.Stmt)}

/-! ### Ranges -/

def Range.relocate (m : Relocation) (r : Range) : Range :=
  ⟨r.start.relocate m, r.stop.relocate m, r.oneBased⟩

structure Range.WellFormed (r : Range) : Prop where
  start : r.start.WellFormed
  stop : r.stop.WellFormed

structure Range.Obeys (T : Discipline) (r : Range) : Prop where
  start : T.Expr r.start
  stop : T.Expr r.stop

abbrev RangeStep (K : Setting) (P : String → Prop) (pre : Prop) (x y : Convert Range) : Prop :=
  Step K false P P pre (Range.relocate K.m) x y Range.WellFormed (Range.Obeys K.T)

theorem lastValue_step {bound : Pseudo.Expr} {strict step} (h : bound.Proper n) (hn : n + step.natAbs ≤ K.W)
    (hb : pre → K.T.Expr bound) : ExprStep K false P pre (n + step.natAbs) (lastValue bound strict step)
      (lastValue (bound.relocate K.m) strict step) K.T.Expr := by
  exact .ite rfl (fun _ => addOffset_step h step hn hb) fun _ => .pure rfl (h.mono (Nat.le_add_right _ _)) hb

variable [law : K.T.Lawful]

theorem ascendingRange_step (hs : start.Proper n) (hn : n + 1 ≤ K.W) (hb : weight loop.bound.nodes + 2 ≤ K.W)
    (hS : pre → K.T.Expr start) (hB : pre → K.T.Nodes P loop.bound.nodes) :
    RangeStep K P pre (ascendingRange loop start) (ascendingRange (loop.relocate K.m) (start.relocate K.m)) := by
  unfold ascendingRange
  simp only [CountingLoop.relocate, Expr.lengthBound?_relocate]
  cases hbound : loop.bound.lengthBound? with
  | some found =>
    obtain ⟨collection, offset⟩ := found
    have hlt := Expr.lengthBound?_lt hbound
    exact ((lengthOf_step collection (by omega)).weaken fun h => nodes_lengthBound hbound (hB h)).bind
      fun length hlength => (addOffset_step hlength offset (by omega) right).bind fun total htotal =>
        (lastValue_step htotal (by omega) right).bind fun stop hstop =>
          (addOffset_step hs 1 (by omega) fun h => hS h.1.1.1).bind fun first hfirst =>
            (addOffset_step hstop 1 (by omega) fun h => h.1.2).bind fun last hlast =>
              .pure rfl ⟨hfirst.wellFormed, hlast.wellFormed⟩ fun ⟨⟨_, hfirst⟩, hlast⟩ => ⟨hfirst, hlast⟩
  | none =>
    exact ((expr_step loop.bound (by omega)).part hB).bind fun bound hbound =>
      (lastValue_step hbound (by omega) right).bind fun stop hstop =>
        .pure rfl ⟨hs.wellFormed, hstop.wellFormed⟩ fun ⟨⟨h, _⟩, hstop⟩ => ⟨hS h, hstop⟩

theorem descendingRange_step (hs : start.WellFormed) (hn : weight loop.start.nodes + 1 ≤ K.W)
    (hb : weight loop.bound.nodes + 2 ≤ K.W) (hS : pre → K.T.Expr start) (hStart : pre → K.T.Nodes P loop.start.nodes)
    (hB : pre → K.T.Nodes P loop.bound.nodes) :
    RangeStep K P pre (descendingRange loop start) (descendingRange (loop.relocate K.m) (start.relocate K.m)) := by
  unfold descendingRange
  simp only [CountingLoop.relocate, Expr.lengthBound?_relocate]
  refine ((expr_step loop.bound (by omega)).part hB).bind fun bound hbound =>
    (lastValue_step hbound (by omega) right).bind fun stop hstop => ?_
  cases hstart : loop.start.lengthBound? with
  | some found =>
    obtain ⟨collection, offset⟩ := found
    have hlt := Expr.lengthBound?_lt hstart
    exact ((lengthOf_step collection (by omega)).weaken fun h => nodes_lengthBound hstart (hStart h.1.1)).bind
      fun length hlength => (addOffset_step hlength (offset + 1) (by omega) right).bind fun first hfirst =>
        (addOffset_step hstop 1 (by omega) fun h => h.1.1.2).bind fun last hlast =>
          .pure rfl ⟨hfirst.wellFormed, hlast.wellFormed⟩ fun ⟨⟨_, hfirst⟩, hlast⟩ => ⟨hfirst, hlast⟩
  | none => exact .pure rfl ⟨hs, hstop.wellFormed⟩ fun ⟨⟨h, _⟩, hstop⟩ => ⟨hS h, hstop⟩

theorem range_step (hs : weight loop.start.nodes + 1 ≤ K.W) (hb : weight loop.bound.nodes + 2 ≤ K.W)
    (hS : pre → K.T.Nodes P loop.start.nodes) (hB : pre → K.T.Nodes P loop.bound.nodes) :
    RangeStep K P pre (range loop) (range (loop.relocate K.m)) := by
  exact ((expr_step loop.start (by omega)).part hS).bind fun start hstart => .ite rfl
    (fun _ => ascendingRange_step hstart hs hb right fun h => hB h.1) fun _ =>
      descendingRange_step hstart.wellFormed hs hb right (fun h => hS h.1) fun h => hB h.1

/-! ### Counting loops -/

/-- A way of converting the body of a loop, after a step that declares the counter. -/
def BodyStep (K : Setting) (P : String → Prop) (pre : Prop) (x y : Convert Unit → Convert (List Pseudo.Stmt)) : Prop :=
  ∀ (pre' : Prop) (act act' : Convert Unit), (pre' → pre) → SameStep K false P pre' act act' (fun _ => True) →
    StmtStep K P P pre' (x act) (y act')

omit law in
theorem BodyStep.weaken (h : BodyStep K P pre x y) (hp : pre' → pre) : BodyStep K P pre' x y :=
  fun pre'' act act' hp' => h pre'' act act' (hp ∘ hp')

omit law in
theorem BodyStep.plain (h : BodyStep K P pre x y) (hp : pre' → pre) :
    StmtStep K P P pre' (x (pure ())) (y (pure ())) :=
  h pre' _ _ hp (.pure rfl trivial fun _ => trivial)

omit law in
theorem filterVar_relocate (type : Option TypeRef) : ((type.map (·.relocate m)).filter fun t => !isVarWord t) =
    (type.filter fun t => !isVarWord t).map (·.relocate m) :=
  filter_relocate type fun n => !(n = "var")

omit law in
theorem counterType_relocate (l : Language) (type : Option TypeRef) :
    counterType l (type.map (·.relocate m)) = counterType l type := by
  unfold counterType
  rw [filterVar_relocate]
  cases type.filter fun t => !isVarWord t with
  | none => rfl
  | some t => simp only [Option.map_some, normalize_relocate]

theorem countingLoop_step (hs : weight loop.start.nodes + 1 ≤ K.W) (hb : weight loop.bound.nodes + 2 ≤ K.W)
    (hn : loop.step.natAbs ≤ K.W) (hS : pre → K.T.Nodes P loop.start.nodes) (hB : pre → K.T.Nodes P loop.bound.nodes)
    (htype : pre → ∀ t, loop.type = some t → K.T.Base (normalize K.T.language t).base) (h : BodyStep K P pre x y) :
    StmtStep K P P pre (countingLoop span loop x) (countingLoop (K.m.span span) (loop.relocate K.m) y) := by
  refine (range_step hs hb hS hB).bind fun r hr => ?_
  extract_lets rest rest'
  have hrest (u) : StmtStep K P P (pre ∧ r.Obeys K.T) (rest u) (rest' u) := by
    unfold rest rest'
    simp only [CountingLoop.relocate, Range.relocate, counterType_relocate]
    refine .read_bind fun c d hc _ => ?_
    rw [← hc.language]
    refine Step.bind (.inside .loop (h _ _ _ (fun h => h.1.1) (.declareVariable _ fun h => ⟨?_, rfl, by simp⟩)))
      fun ss hss => ?_
    · rw [h.2.language]
      exact base_counterType (htype h.1.1)
    have hfor {q : Prop} (step : Option Pseudo.Expr) (hwell : ∀ e ∈ step, e.WellFormed)
        (hstep : q → (((pre ∧ r.Obeys K.T) ∧ K.T.Around c) ∧ K.T.Stmts ss) ∧ ∀ e ∈ step, K.T.Expr e) :
        StmtStep K P P q (pure [.mk (.for_ loop.name r.start r.stop step) ss [] (some span.line)])
          (pure [.mk (.for_ loop.name (r.start.relocate K.m) (r.stop.relocate K.m) (step.map (·.relocate K.m)))
            (ss.map (·.relocate K.m)) [] (some (K.m.span span).line)]) := by
      refine .pure (by simp [mk_relocate, Form.relocate]) (.singleton (ordinary_for hr.start hr.stop hwell hss))
        fun hq => stmts_singleton ?_
      obtain ⟨⟨⟨⟨_, hrange⟩, _⟩, hss⟩, hstep⟩ := hstep hq
      exact stmt_for hrange.start hrange.stop hstep hss
    refine .ite rfl (fun _ => hfor none (by simp) fun hp => ⟨hp, by simp⟩) fun _ => ?_
    have hnumber {q : Prop} : Step K false P P q (Option.map (·.relocate K.m)) (some <$> written (.number loop.step))
        (some <$> written (.number loop.step)) (fun step => ∀ e ∈ step, e.WellFormed)
        fun step => ∀ e ∈ step, K.T.Expr e :=
      (writtenNumber_step loop.step none hn).map (fun _ => rfl) (fun _ he => by simpa using he) fun _ _ he => by
        simpa using he
    exact hnumber.bind fun step hwell => hfor step hwell id
  simp only [CountingLoop.relocate, Range.relocate, Pseudo.Expr.text_relocate] at hrest ⊢
  exact .ite rfl (fun _ => .next (.inform _ rfl) hrest) fun _ => hrest ()

/-! ### Loops that do not count -/

omit law in
theorem loopName_relocate (decl : Option VarDecl) (condition : Option Expr) :
    loopName (decl.map (·.relocate m)) (condition.map (·.relocate m)) = loopName decl condition := by
  cases decl with
  | some v =>
    obtain ⟨span, ds, type, modifiers, kind⟩ := v
    cases ds with
    | nil => rfl
    | cons d ds => cases d; rfl
  | none =>
    cases condition with
    | none => rfl
    | some e => exact Expr.text_relocate m e

theorem exprStatements_step (es : List Expr) (hw : weight (exprNodes es) ≤ K.W)
    (h : pre → K.T.Nodes P (exprNodes es) ∧ ∀ e ∈ es, K.T.Admits P (.stmt (.expression e.span e))) :
    StmtStep K P P pre (exprStatements es) (exprStatements (relocateExprs K.m es)) := by
  induction es with
  | nil => exact .nil
  | cons e es ih =>
    simp only [exprNodes, weight_append, nodesInOrder_append, List.forall_mem_cons] at hw h
    rw [relocateExprs, exprStatements, exprStatements, Expr.span_relocate]
    exact Step.bind (StmtStep.statement _ (exprStatement_step e (by omega) fun hp => ⟨(h hp).2.1, (h hp).1.1⟩))
      fun first hfirst => ((ih (by omega) fun hp => ⟨(h hp).1.2, (h hp).2.2⟩).weaken And.left).bind fun rest hrest =>
        .pure (by simp) (hfirst.append hrest) fun h => stmts_append.2 ⟨h.1.2, h.2⟩

theorem generalLoop_step {decl init condition update x y x' y'} (hi : weight (exprNodes init) ≤ K.W)
    (hc : weight (exprNode condition) ≤ K.W) (hu : weight (exprNodes update) ≤ K.W)
    (hinit : pre → K.T.Nodes Q (exprNodes init) ∧ ∀ e ∈ init, K.T.Admits Q (.stmt (.expression e.span e)))
    (hcondition : pre → K.T.Nodes Q (exprNode condition))
    (hupdate : pre → K.T.Nodes Q (exprNodes update) ∧ ∀ e ∈ update, K.T.Admits Q (.stmt (.expression e.span e)))
    (hdecl : StmtStep K P Q pre x y) (hbody : StmtStep K Q Q pre x' y') :
    StmtStep K P Q pre (generalLoop span decl init condition update x x')
      (generalLoop (K.m.span span) (relocateVarDecl? K.m decl) (relocateExprs K.m init) (relocateExpr? K.m condition)
        (relocateExprs K.m update) y y') := by
  unfold generalLoop
  rw [Source.relocateVarDecl?_eq_map, Source.relocateExpr?_eq_map, loopName_relocate]
  refine .next (.warn _ rfl) fun _ => hdecl.bind fun declared hdeclared =>
    (exprStatements_step init hi fun h => hinit h.1).bind fun started hstarted => ?_
  extract_lets rest rest'
  have hrest {q : Prop} {c : Pseudo.Expr} (hwell : c.WellFormed)
      (h : q → pre ∧ K.T.Stmts declared ∧ K.T.Stmts started ∧ K.T.Expr c) :
      StmtStep K Q Q q (rest c) (rest' (c.relocate K.m)) := by
    refine Step.bind (.inside _ (StmtStep.nested ((hbody.weaken fun hq => (h hq).1).bind fun ss hss =>
      (exprStatements_step update hu fun hq => hupdate (h hq.1).1).bind fun more hmore => .pure (by simp)
        (hss.append hmore) fun hq => stmts_append.2 ⟨hq.1.2, hq.2⟩))) fun body hbody => .pure ?_
          ((hdeclared.append hstarted).append (.singleton (ordinary_mk rfl (forall_mem_singleton.2 hwell) hbody)))
          fun hq => ?_
    · simp [mk_relocate, Form.relocate]
    · exact stmts_append.2 ⟨stmts_append.2 ⟨(h hq.1).2.1, (h hq.1).2.2.1⟩, stmts_singleton (.mk
        (law.form_ordinary rfl (forall_mem_singleton.2 (h hq.1).2.2.2))
        (forall_mem_singleton.2 (law.text_of_line (unbroken rfl))) hq.2)⟩
  cases condition with
  | some e =>
    exact ((expr_step e hc).part fun h => hcondition h.1.1).bind fun c hwell => hrest hwell.wellFormed
      fun h => ⟨h.1.1.1, h.1.1.2, h.1.2, h.2⟩
  | none =>
    exact hrest (c := .literal "TRUE" (some (.bool true)) none) .literal
      fun h => ⟨h.1.1, h.1.2, h.2, expr_leaf rfl rfl⟩

/-! ### Loops over collections -/

theorem elementKind_step {collection} (htype : pre → ∀ t, type = some t → K.T.Base (normalize K.T.language t).base)
    (hcollection : pre → ∀ k ∈ collection, K.T.Kind k) :
    SameStep K false P pre (elementKind span name type collection)
      (elementKind (K.m.span span) name (type.map (·.relocate K.m)) collection) K.T.Kind := by
  have hunknown {q : Prop} : SameStep K false P q (elementKind.unknown span name)
      (elementKind.unknown (K.m.span span) name) K.T.Kind :=
    .bind (.warn _ rfl) fun _ _ => .pure rfl trivial fun h => kind_unknown h.2
  refine .read_bind fun c d hc hl => ?_
  rw [filterVar_relocate, ← hc.language, hl]
  cases ht : type.filter fun t => !isVarWord t with
  | some t =>
    exact .pure (normalize_relocate K.m K.T.language t) trivial fun h =>
      kind_normalize (htype h.1 t (Option.filter_eq_some_iff.1 ht).1)
  | none =>
    cases collection with
    | none => exact hunknown
    | some k =>
      exact .ite rfl (fun _ => .pure rfl trivial fun h => kind_element (hcollection h.1 k rfl)) fun _ =>
        .ite rfl (fun hk => .pure rfl trivial fun h =>
          ⟨law.base_character (hk ▸ (hcollection h.1 k rfl).1), nofun⟩) fun _ => hunknown

theorem keyLoop_step (hw : length.WellFormed) (hi : pre → K.T.Nodes P iterable.nodes) (hl : pre → K.T.Expr length)
    (h : BodyStep K P pre x y) : StmtStep K P P pre (keyLoop span name iterable length x)
      (keyLoop (K.m.span span) name (iterable.relocate K.m) (length.relocate K.m) y) := by
  unfold keyLoop
  rw [Expr.text_relocate]
  refine .next (.simplify _ _ _) fun _ => .next (.note fun hp => ?_) fun _ => Step.bind (.inside .loop (h _ _ _ id
    (.declareVariable .integer fun _ => ⟨law.base_integer, rfl, by simp⟩))) fun ss hss => .pure ?_
      (.singleton (ordinary_for .literal hw (by simp) hss)) fun ⟨hp, hss⟩ =>
        stmts_singleton (stmt_for (expr_number _ _) (hl hp) nofun hss)
  · have htext := law.text_expr iterable (hi hp)
    simp (disch := exact unbroken rfl) [htext]
  · simp [mk_relocate, Form.relocate, Pseudo.Expr.number_relocate]

theorem elementLoop_step {k} (he : weight iterable.nodes ≤ K.W) (hw : length.WellFormed) (hk : pre → K.T.Kind k)
    (hi : pre → K.T.Nodes P iterable.nodes) (hl : pre → K.T.Expr length) (h : BodyStep K P pre x y) :
    StmtStep K P P pre (elementLoop span name k iterable length x)
      (elementLoop (K.m.span span) name k (iterable.relocate K.m) (length.relocate K.m) y) := by
  refine .get_bind fun s t hst => Step.weaken ?_ And.left
  simp only [freeName_alike hst.scopes]
  refine .next (.simplify _ _ _) fun _ => .next (.note fun _ => law.text_of_line (unbroken rfl)) fun _ => .next
    (.declareVariable k.base fun h => ⟨(hk h).1, rfl, (hk h).2⟩) fun _ => Step.bind (.inside .loop (h _ _ _ id
      (.declareVariable .integer fun _ => ⟨law.base_integer, rfl, by simp⟩))) fun ss hss =>
        ((expr_step iterable he).part fun h => hi h.1).bind fun a ha => .pure ?_
          (.cons (ordinary_simple rfl (by simp [Form.expressions])) (.singleton (ordinary_for .literal hw (by simp)
            (.cons (ordinary_assign .identifier (.index ha.wellFormed .identifier)) hss))))
          fun ⟨⟨h, hss⟩, ha⟩ => stmts_cons.2 ⟨stmt_plain rfl (by simp [Form.expressions]), stmts_singleton
            (stmt_for (expr_number _ _) (hl h) nofun (stmts_cons.2 ⟨stmt_assign (expr_leaf rfl rfl)
              (expr_pair rfl ha (expr_leaf rfl rfl) rfl) span, hss⟩))⟩
  simp [mk_relocate, simple_relocate, Form.relocate, Pseudo.Expr.number_relocate, Pseudo.Expr.relocate, assign_relocate]

theorem collectionLoop_step {overKeys} (he : weight iterable.nodes ≤ K.W)
    (htype : pre → ∀ t, type = some t → K.T.Base (normalize K.T.language t).base)
    (hi : pre → K.T.Nodes P iterable.nodes) (h : BodyStep K P pre x y) :
    StmtStep K P P pre (collectionLoop span name type iterable overKeys x)
      (collectionLoop (K.m.span span) name (type.map (·.relocate K.m)) (iterable.relocate K.m) overKeys y) := by
  refine .view_bind fun v w hv => ((lengthOf_step iterable he).weaken fun h => hi h.1).bind fun length hlength => ?_
  rw [hv.infer_eq]
  refine .ite rfl (fun _ => ?_) fun _ => ?_
  · exact keyLoop_step hlength.wellFormed (fun h => hi h.1.1) right (h.weaken fun h => h.1.1)
  · refine (elementKind_step (fun h => htype h.1.1) fun h k hk => ?_).bind fun k _ =>
      elementLoop_step he hlength.wellFormed right (fun h => hi h.1.1.1) (fun h => h.1.2) (h.weaken fun h => h.1.1.1)
    exact law.kind_of_infer h.1.2.1 h.1.2.2 (hi h.1.1) hk

end Blackboard.Convert
