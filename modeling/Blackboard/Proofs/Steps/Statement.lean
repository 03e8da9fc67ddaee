import Blackboard.Proofs.Steps.Loop

/-!
The steps that convert statements. Names of types that statements declare outlast them, so all names that a
statement may declare have to be allowed.
-/
namespace Blackboard.Source

mutual

def Stmt.typeNames : Stmt → List String
  | .block ⟨_, ss⟩ => typeNamesOf ss
  | .varDecl ⟨_, ds, _, _, _⟩ => typeNamesIn ds
  | .ifElse _ _ yes no => yes.typeNames ++ typeNamesOf? no
  | .whileLoop _ _ body | .doLoop _ body _ | .forEach _ _ _ _ _ body => body.typeNames
  | .forLoop _ decl _ _ _ body => typeNamesOfDecl? decl ++ body.typeNames
  | .switch _ _ cases => typeNamesOfCases cases
  | .tryStmt _ ⟨_, ss⟩ _ finalizer => typeNamesOf ss ++ typeNamesOfBlock? finalizer
  | .function ⟨_, _, _, _, body, _, _, _, _⟩ => typeNamesOfBlock? body
  | .classDecl _ name _ _ _ members _ _ => name :: typeNamesOf members
  | .enum _ name _ | .typeAlias _ name _ => [name]
  | .namespaceDecl _ _ body => typeNamesOf body
  | _ => []

def typeNamesOf : List Stmt → List String
  | [] => []
  | s :: ss => s.typeNames ++ typeNamesOf ss

def typeNamesOf? : Option Stmt → List String
  | none => []
  | some s => s.typeNames

def typeNamesOfBlock? : Option Block → List String
  | none => []
  | some ⟨_, ss⟩ => typeNamesOf ss

def typeNamesOfCases : List SwitchCase → List String
  | [] => []
  | ⟨_, _, ss⟩ :: cases => typeNamesOf ss ++ typeNamesOfCases cases

def typeNamesOfDecl? : Option VarDecl → List String
  | none => []
  | some ⟨_, ds, _, _, _⟩ => typeNamesIn ds

def typeNamesIn : List Declarator → List String
  | [] => []
  | ⟨_, _, _, _, some (.lambda _ _ (.block ⟨_, ss⟩) _)⟩ :: ds => typeNamesOf ss ++ typeNamesIn ds
  | _ :: ds => typeNamesIn ds

end

section

variable (m : Relocation)

mutual

theorem Stmt.typeNames_relocate (s : Stmt) : (s.relocate m).typeNames = s.typeNames := by
  cases s with
  | block b | varDecl b | function b | tryStmt _ b _ _ =>
    cases b
    simp only [Stmt.relocate, Block.relocate, VarDecl.relocate, Callable.relocate, Stmt.typeNames,
      typeNamesOf_relocate, typeNamesIn_relocate, typeNamesOfBlock?_relocate]
  | _ =>
    rw [Stmt.relocate]
    simp only [Stmt.typeNames, Stmt.typeNames_relocate, typeNamesOf_relocate, typeNamesOf?_relocate,
      typeNamesOfCases_relocate, typeNamesOfDecl?_relocate]

theorem typeNamesOf_relocate : (ss : List Stmt) → typeNamesOf (relocateStmts m ss) = typeNamesOf ss
  | [] => rfl
  | s :: ss => by
    rw [relocateStmts, typeNamesOf, typeNamesOf, s.typeNames_relocate, typeNamesOf_relocate ss]

theorem typeNamesOf?_relocate : (s : Option Stmt) → typeNamesOf? (relocateStmt? m s) = typeNamesOf? s
  | none => rfl
  | some s => s.typeNames_relocate

theorem typeNamesOfBlock?_relocate : (b : Option Block) → typeNamesOfBlock? (relocateBlock? m b) = typeNamesOfBlock? b
  | none => rfl
  | some ⟨_, ss⟩ => typeNamesOf_relocate ss

theorem typeNamesOfCases_relocate :
    (cases : List SwitchCase) → typeNamesOfCases (relocateCases m cases) = typeNamesOfCases cases
  | [] => rfl
  | ⟨_, _, ss⟩ :: cases => by
    rw [relocateCases, typeNamesOfCases, typeNamesOfCases, typeNamesOf_relocate ss, typeNamesOfCases_relocate cases]

theorem typeNamesOfDecl?_relocate :
    (v : Option VarDecl) → typeNamesOfDecl? (relocateVarDecl? m v) = typeNamesOfDecl? v
  | none => rfl
  | some ⟨_, ds, _, _, _⟩ => typeNamesIn_relocate ds

theorem typeNamesIn_relocate : (ds : List Declarator) → typeNamesIn (relocateDeclarators m ds) = typeNamesIn ds
  | [] => rfl
  | ⟨_, _, _, _, none⟩ :: ds => typeNamesIn_relocate ds
  | ⟨_, _, _, _, some e⟩ :: ds => by
    have hds := typeNamesIn_relocate ds
    cases e with
    | lambda _ _ body _ =>
      cases body with
      | block b =>
        obtain ⟨_, ss⟩ := b
        simp only [relocateDeclarators, relocateExpr?, Expr.relocate, relocateBody, Block.relocate,
          typeNamesIn, typeNamesOf_relocate ss, hds]
      | expr e => exact hds
    | _ => exact hds

end

end

end Blackboard.Source

namespace Blackboard.Convert

open Conversion Discipline
open And (left right)
open Iff (rfl)
open List (forall_mem_singleton forall_mem_append mem_singleton_self mem_cons cons_append)
open Pseudo (Form normalize)
open Pseudo.Stmt (Ordinary Clauses ordinary_simple ordinary_comment ordinary_mk ordinary_choice simple_relocate
  comment_relocate mk_relocate)
open Source (Relocation Span CountingLoop Expr TypeRef Stmt VarDecl Declarator Block SwitchCase InterfaceMember Handler
  relocateStmts relocateLabels relocateTypes relocateMembers relocateCases relocateExprs weight exprNodes exprNode labelNodes
  typeNode typeNodes stmtNodes stmtNode blockNode caseNodes varDeclNode declaratorNodes bodyNodes typeNamesOf typeNamesIn
  without without_nil without_without of_without definesIn definesOf? definesAll loopDefines unbroken weight_cons
  weight_append nodesInOrder_cons nodesInOrder_append StmtsInOrder StmtInOrder? BlockInOrder? CasesInOrder VarDeclInOrder?
  DeclaratorsInOrder InitInOrder)
open Source.Expr (isLambda)
open Source.Stmt (InOrder)

variable {K : Setting} {P Q : String → Prop} {pre : Prop} {span : Span} {name : String} {label : Option String}
    {labels : List (Option Expr)} {x y x' y' : Convert (List Pseudo.Stmt)} {m : Relocation}

/-! ### Statements that are looked at -/

@[simp]
theorem isBlock_relocate (s : Stmt) : isBlock (s.relocate m) = isBlock s := by
  cases s <;> rfl

theorem isDefault_relocate (labels : List (Option Expr)) : isDefault (relocateLabels m labels) = isDefault labels := by
  simp [isDefault, Function.comp_def]

theorem labelTexts_relocate (labels : List (Option Expr)) : labelTexts (relocateLabels m labels) = labelTexts labels := by
  rw [labelTexts, Source.relocateLabels_eq_map, List.map_map]
  congr 2
  funext label
  cases label with
  | none => rfl
  | some e => exact Expr.text_relocate m e

theorem fallNote_relocate (labels : List (Option Expr)) : fallNote (relocateLabels m labels) = fallNote labels := by
  rw [fallNote, fallNote, isDefault_relocate, labelTexts_relocate]

theorem goesOn_relocate (ss : List Stmt) : goesOn (relocateStmts m ss) = goesOn ss := by
  have hexits (s : Stmt) : exits (s.relocate m) = exits s := by cases s <;> rfl
  rw [goesOn, goesOn, Source.relocateStmts_eq_map, List.getLast?_map, Option.any_map]
  simp [hexits]

theorem filterMap_relocateLabels (labels : List (Option Expr)) :
    (relocateLabels m labels).filterMap id = relocateExprs m (labels.filterMap id) := by
  rw [Source.relocateLabels_eq_map, Source.relocateExprs_eq_map, List.filterMap_map, List.map_filterMap]
  rfl

theorem typeTexts_relocate (ts : List TypeRef) : typeTexts (relocateTypes m ts) = typeTexts ts := by
  simp [typeTexts, Function.comp_def]

theorem paramNames_relocate (ps : List Source.Param) : paramNames (ps.map (·.relocate m)) = paramNames ps := by
  simp [paramNames, Source.Param.relocate, Function.comp_def]

theorem memberText_relocate (x : InterfaceMember) : memberText (x.relocate m) = memberText x := by
  cases x with
  | signature s =>
    obtain ⟨span, name, type, params, isOptional⟩ := s
    cases params <;>
      simp [InterfaceMember.relocate, Source.Signature.relocate, memberText, Function.comp_def, paramNames_relocate]
  | method f =>
    obtain ⟨span, name, params, result, body, modifiers, typeParams, decorators, isConstructor⟩ := f
    simp [InterfaceMember.relocate, Source.Callable.relocate, memberText, paramNames_relocate, Function.comp_def]
  | field v =>
    obtain ⟨span, ds, type, modifiers, kind⟩ := v
    simp [InterfaceMember.relocate, VarDecl.relocate, memberText, Declarator.relocate, Function.comp_def]

theorem memberSpan_relocate (x : InterfaceMember) : memberSpan (x.relocate m) = m.span (memberSpan x) := by
  cases x with
  | signature s => rfl
  | method f => cases f; rfl
  | field v => cases v; rfl

theorem interfaceComments_relocate (span : Span) (name : String) (bases : List TypeRef) (members : List InterfaceMember) :
    interfaceComments (m.span span) name (relocateTypes m bases) (relocateMembers m members) =
      (interfaceComments span name bases members).map (Pseudo.Stmt.relocate m) := by
  have hbases : (relocateTypes m bases).isEmpty = bases.isEmpty := by simp
  unfold interfaceComments
  rw [typeTexts_relocate]
  simp [comment_relocate, memberText_relocate, memberSpan_relocate]

theorem handlerComment_relocate (h : Handler) : handlerComment (h.relocate m) = (handlerComment h).relocate m := by
  simp [handlerComment, handlerText, Handler.relocate, comment_relocate, Function.comp_def]

/-! ### Bodies, branches and notes -/

variable [law : K.T.Lawful]

theorem StmtStep.undo {names} (h : StmtStep K P (without P names) pre x y) : StmtStep K P P pre x y :=
  h.relax fun _ => of_without

theorem bodyOf_step (body : Stmt) (hown : StmtStep K P P pre x y) (hinner : StmtStep K P P pre x' y') :
    BodyStep K P pre (bodyOf body x x') (bodyOf (body.relocate K.m) y y') := by
  intro pre' act act' hp hact
  unfold bodyOf
  rw [Stmt.span_relocate, Stmt.kind_relocate, isBlock_relocate]
  exact .nested (hact.next fun _ => .ite rfl (fun _ => hinner.weaken hp) fun _ => StmtStep.statement _ (hown.weaken hp))

theorem branch_step {next} (hw : weight (labelNodes labels) ≤ K.W) (hl : pre → K.T.Nodes P (labelNodes labels))
    (hn : pre → ∀ ls ∈ next, K.T.Text (labelTexts ls)) (h : StmtStep K P P pre x y) :
    Step K false P P pre (Pseudo.Stmt.relocate K.m) (branch span labels next x)
      (branch (K.m.span span) (relocateLabels K.m labels) (next.map (relocateLabels K.m)) y) IsBranch K.T.Stmt := by
  unfold branch
  rw [isDefault_relocate, labelTexts_relocate, filterMap_relocateLabels, Option.isSome_map]
  refine (StmtStep.nested h).bind fun ss hss => ?_
  extract_lets falls rest rest'
  have hrest {q : Prop} (form : Form) (hwell : ∀ notes line, IsBranch (.mk form ss notes line))
      (hq : q → pre ∧ K.T.Stmts ss ∧ form.isOrdinary = true ∧ ∀ e ∈ form.expressions, K.T.Expr e) :
      Step K false P P q (Pseudo.Stmt.relocate K.m) (rest form) (rest' (form.relocate K.m)) IsBranch K.T.Stmt := by
    unfold rest rest'
    cases next with
    | none =>
      exact .pure (by simp [mk_relocate]) (hwell _ _) fun hp => stmt_ordinary (hq hp).2.2.1 (hq hp).2.2.2 (hq hp).2.1
    | some successor =>
      simp only [Option.map_some, fallNote_relocate]
      refine .next (.warn _ rfl) fun _ => .pure (by simp [mk_relocate]) (hwell _ _) fun hp =>
        .mk (law.form_ordinary (hq hp).2.2.1 (hq hp).2.2.2) (forall_mem_singleton.2 ?_) (hq hp).2.1
      unfold fallNote
      split
      · exact law.text_of_line (unbroken rfl)
      · exact law.text_append.2 ⟨law.text_of_line (unbroken rfl), hn (hq hp).1 _ rfl⟩
  refine .ite rfl (fun _ => hrest (.otherwise falls) (fun _ _ => ⟨?_, rfl⟩) fun h =>
    ⟨h.1, h.2, rfl, by simp [Form.expressions]⟩) fun _ => ?_
  · exact .of_ordinary (by simp [Form.kind]) (by simp [Form.kind]) (by simp [Form.expressions]) hss
  · rw [← exprNodes_filterMap] at hw
    exact ((exprs_step _ hw).weaken fun h => nodes_labels (hl h.1)).bind fun es hes =>
      hrest (.caseBranch es falls) (fun _ _ => ⟨.of_ordinary (by simp [Form.kind]) (by simp [Form.kind])
        (fun e he => ((ProperAll.proper hes (Nat.le_refl _)) e he).wellFormed) hss, rfl⟩) fun h => ⟨h.1.1, h.1.2, rfl, h.2⟩

theorem classNotes_step {superclass interfaces modifiers typeParams decorators} (hname : pre → K.T.Text name)
    (hsuper : pre → K.T.Nodes P (typeNode superclass)) (hinterfaces : pre → K.T.Nodes P (typeNodes interfaces))
    (hdropped : pre → ∀ s ∈ typeParams ++ decorators, K.T.Text s) :
    SameStep K false P pre (classNotes span name superclass interfaces modifiers typeParams decorators)
      (classNotes (K.m.span span) name (superclass.map (·.relocate K.m)) (relocateTypes K.m interfaces) modifiers
        typeParams decorators) fun _ => True := by
  have hempty : (relocateTypes K.m interfaces).isEmpty = interfaces.isEmpty := by simp
  unfold classNotes
  rw [hempty, typeTexts_relocate]
  refine .next (.simplify _ _ _) fun _ => ?_
  extract_lets dropped abstract names implemented dropped' abstract' implemented'
  have hdrop (r) : SameStep K false P pre (dropped r) (dropped' r) fun _ => True := droppedNotes_step hdropped
  have habstract (r) : SameStep K false P pre (abstract r) (abstract' r) fun _ => True := by
    refine .ite rfl (fun _ => .next (.note fun hp => ?_) hdrop) fun _ => hdrop ()
    simp (disch := exact unbroken rfl) [hname hp]
  have himplemented (r) : SameStep K false P pre (implemented r) (implemented' r) fun _ => True := by
    refine .ite rfl (fun _ => .next (.note fun hp => ?_) habstract) fun _ => habstract ()
    have htypes := text_typeTexts (hinterfaces hp)
    simp (disch := exact unbroken rfl) [hname hp, names, htypes]
  cases superclass with
  | none => exact himplemented ()
  | some t =>
    simp only [Option.map_some, TypeRef.text_relocate]
    refine .next (.note fun hp => ?_) himplemented
    have htype := law.text_type t (hsuper hp)
    simp (disch := exact unbroken rfl) [hname hp, htype]

theorem breakComment_step (h : pre → ∀ l ∈ label, K.T.Text l) :
    StmtStep K P P pre (breakComment span label) (breakComment (K.m.span span) label) := by
  refine .read_bind fun c d hc _ => .ite (by rw [hc.enclosing]) (fun _ => .pure (by simp [comment_relocate])
    (.singleton (ordinary_comment _ _)) fun _ => stmts_singleton (stmt_comment (law.text_of_line (unbroken rfl)) _))
    fun _ => .pure (by simp [comment_relocate]) (.singleton (ordinary_comment _ _)) fun hp =>
      stmts_singleton (stmt_comment ?_ _)
  have hlabel := text_labelled " " (by decide) (h hp.1)
  simp (disch := exact unbroken rfl) [hlabel]

/-- A step that gives the clauses of a choice. -/
abbrev ClauseStep (K : Setting) (P : String → Prop) (pre : Prop) (x y : Convert (List Pseudo.Stmt)) : Prop :=
  Step K false P P pre (List.map (·.relocate K.m)) x y Clauses K.T.Stmts

theorem lastClause_step (s : Stmt) (hown : StmtStep K P P pre x y) (hinner : StmtStep K P P pre x' y') :
    ClauseStep K P pre
      (do
        let body ← bodyOf s x x' (pure ())
        return [.mk .else_ body [] (some s.span.line)])
      (do
        let body ← bodyOf (s.relocate K.m) y y' (pure ())
        return [.mk .else_ body [] (some (s.relocate K.m).span.line)]) :=
  ((bodyOf_step s hown hinner).plain id).bind fun _ hbody => .pure (by simp [mk_relocate, Form.relocate]) (.else_ hbody)
    fun ⟨_, hbody⟩ => stmts_singleton (stmt_ordinary rfl (by simp [Form.expressions]) hbody)

/-! ### All statements -/

mutual

theorem stmt_step (s : Stmt) (P : String → Prop) (hw : weight s.nodes ≤ K.W) (hN : ∀ n ∈ s.typeNames, K.N n) :
    StmtStep K P (without P (s.defines K.T.language)) (s.InOrder K.T.language K.T.Admits P) (stmt s)
      (stmt (s.relocate K.m)) := by
  match s with
  | .block ⟨span, ss⟩ =>
    simp only [Stmt.nodes, Block.nodes, weight_cons] at hw
    simp only [Stmt.relocate, Block.relocate, stmt, InOrder, Stmt.defines, without_nil]
    exact .nested ((stmts_step ss P (by omega) hN).weaken right)
  | .varDecl ⟨span, ds, type, modifiers, kind⟩ =>
    simp only [Stmt.relocate, stmt, InOrder, Stmt.defines]
    exact varDecl_step ⟨span, ds, type, modifiers, kind⟩ P hw hN
  | .destructuring span isArray names init kind =>
    simp only [Stmt.nodes, weight_cons] at hw
    simp only [Stmt.relocate, stmt, Expr.text_relocate, InOrder, Stmt.defines, without_nil]
    refine .next (.simplify _ _ _) fun _ => .next (.note fun h => ?_) fun _ => .view_bind fun v w hv => ?_
    · have htext := law.text_expr init h.2
      simp (disch := exact unbroken rfl) [htext]
    · rw [hv.infer_eq]
      exact destructure_step (by omega) (fun h => h.1.2) (fun h k hk => law.kind_of_infer h.2.1 h.2.2 h.1.2 hk) 1 names
  | .expression span e =>
    simp only [Stmt.nodes, weight_cons] at hw
    simp only [Stmt.relocate, stmt, InOrder, Stmt.defines, without_nil]
    exact exprStatement_step e (by omega) id
  | .ifElse span condition yes no =>
    simp only [Stmt.nodes, weight_cons, weight_append] at hw
    rw [Stmt.typeNames, forall_mem_append] at hN
    simp only [Stmt.relocate, stmt, InOrder, Stmt.defines, without_nil]
    exact ((expr_step condition (by omega)).part fun h => h.2.1).bind fun c hc =>
      ((bodyOf_step yes (stmt_step yes P (by omega) hN.1).undo (inner_step yes P (by omega) hN.1)).plain
        fun h => h.1.2.2.1).bind fun body hbody => ((otherwise_step no P (by omega) hN.2).weaken
          fun h => h.1.1.2.2.2).bind fun rest hrest => .pure (by simp [mk_relocate, Form.relocate])
            (.singleton (ordinary_choice hc.wellFormed hbody hrest)) fun ⟨⟨⟨_, hc⟩, hbody⟩, hrest⟩ =>
              stmts_singleton (stmt_ordinary rfl (forall_mem_singleton.2 hc) (stmts_append.2 ⟨hbody, hrest⟩))
  | .whileLoop span condition body =>
    simp only [Stmt.nodes, weight_cons, weight_append] at hw
    simp only [Stmt.relocate, stmt, InOrder, Stmt.defines, without_nil]
    exact ((expr_step condition (by omega)).part fun h => h.2.1).bind fun c hc => Step.bind (.inside _
      ((bodyOf_step body (stmt_step body P (by omega) hN).undo (inner_step body P (by omega) hN)).plain
        fun h => h.1.2.2)) fun ss hss => .pure (by simp [mk_relocate, Form.relocate])
          (.singleton (ordinary_mk rfl (forall_mem_singleton.2 hc.wellFormed) hss)) fun ⟨⟨_, hc⟩, hss⟩ =>
            stmts_singleton (stmt_ordinary rfl (forall_mem_singleton.2 hc) hss)
  | .doLoop span body condition =>
    simp only [Stmt.nodes, weight_cons, weight_append] at hw
    simp only [Stmt.relocate, stmt, InOrder, Stmt.defines, without_nil]
    exact Step.bind (.inside _ ((bodyOf_step body (stmt_step body P (by omega) hN).undo
      (inner_step body P (by omega) hN)).plain fun h => h.2.1)) fun ss hss =>
        ((expr_step condition (by omega)).part fun h => h.1.2.2).bind fun c hc =>
          .pure (by simp [mk_relocate, Form.relocate, Pseudo.Expr.relocate])
            (.singleton (ordinary_mk rfl (forall_mem_singleton.2 (.unary (.inl (Eq.refl _)) hc.wellFormed)) hss))
            fun ⟨⟨_, hss⟩, hc⟩ => stmts_singleton (stmt_ordinary rfl (forall_mem_singleton.2 (expr_single rfl hc rfl)) hss)
  | .forLoop span decl init condition update body =>
    simp only [Stmt.nodes, weight_cons, weight_append, Source.Node.weight] at hw
    rw [Stmt.typeNames, forall_mem_append] at hN
    have hrelocated := CountingLoop.ofLoop?_relocate K.m decl init condition update body
    rw [← Source.relocateVarDecl?_eq_map, ← Source.relocateExpr?_eq_map, ← Source.relocateExprs_eq_map,
      ← Source.relocateExprs_eq_map] at hrelocated
    have hown (P) := stmt_step body P (by omega) hN.2
    have hinner (P) := inner_step body P (by omega) hN.2
    have hdecl := varDecl?_step decl P (by omega) hN.1
    simp only [Stmt.relocate, stmt, hrelocated, InOrder, Stmt.defines, without_nil]
    cases hloop : CountingLoop.ofLoop? decl init condition update body with
    | some loop =>
      obtain ⟨hstart, hbound, hstep⟩ := CountingLoop.ofLoop?_le hloop
      simp only [Option.isSome_some, forall_const, loopDefines, without_nil]
      exact countingLoop_step (by omega) (by omega) (by omega) (fun h => (ofLoop?_parts hloop h.2.1 h.2.2.2.1).1)
        (fun h => (ofLoop?_parts hloop h.2.1 h.2.2.2.1).2.1) (fun h => (ofLoop?_parts hloop h.2.1 h.2.2.2.1).2.2)
        ((bodyOf_step body (hown P).undo (hinner P)).weaken fun h => h.2.2.2.2)
    | none =>
      simp only [Option.isSome_none, forall_const, loopDefines, nodesInOrder_append]
      refine StmtStep.undo (generalLoop_step (Q := without P (definesOf? K.T.language decl)) (by omega) (by omega) (by omega)
        (fun h => ⟨h.2.2.2.1.1.1, fun e he => law.admits_clause (fun _ => of_without) h.1 (List.mem_append_left _ he)⟩)
        (fun h => h.2.2.2.1.1.2)
        (fun h => ⟨h.2.2.2.1.2, fun e he => law.admits_clause (fun _ => of_without) h.1 (List.mem_append_right _ he)⟩)
        (hdecl.weaken fun h => h.2.2.1) ?_)
      rw [isBlock_relocate, Stmt.kind_relocate, Stmt.span_relocate]
      exact .ite rfl (fun _ => (hinner _).weaken fun h => h.2.2.2.2) fun _ =>
        StmtStep.statement _ ((hown _).undo.weaken fun h => h.2.2.2.2)
  | .forEach span name type iterable overKeys body =>
    simp only [Stmt.nodes, weight_cons, weight_append] at hw
    simp only [Stmt.relocate, stmt, InOrder, Stmt.defines, without_nil, nodesInOrder_append]
    refine collectionLoop_step (by omega) (fun h t ht => ?_) (fun h => h.2.1.2) ((bodyOf_step body
      (stmt_step body P (by omega) hN).undo (inner_step body P (by omega) hN)).weaken fun h => h.2.2)
    subst ht
    exact law.base_element h.1
  | .switch span subject cases =>
    simp only [Stmt.nodes, weight_cons, weight_append] at hw
    simp only [Stmt.relocate, stmt, InOrder, Stmt.defines, without_nil]
    exact ((expr_step subject (by omega)).part fun h => h.2.1).bind fun s hs => Step.bind (.inside _
      ((branches_step cases P (by omega) hN).weaken fun h => h.1.2.2)) fun bs hbs =>
        .pure (by simp [mk_relocate, Form.relocate, orderBranches_relocate])
          (.singleton (ordinary_caseOf hs.wellFormed hbs)) fun ⟨⟨_, hs⟩, hbs⟩ =>
            stmts_singleton (stmt_ordinary rfl (forall_mem_singleton.2 hs) (stmts_orderBranches hbs))
  | .returnStmt span (some e) =>
    simp only [Stmt.nodes, exprNode, weight_cons] at hw
    simp only [Stmt.relocate, Source.relocateExpr?, stmt, InOrder, Stmt.defines, without_nil]
    exact returnValue_step e (by omega) right
  | .returnStmt span none =>
    simp only [Stmt.relocate, Source.relocateExpr?, stmt, Stmt.defines, without_nil]
    exact .pure (by simp [simple_relocate, Form.relocate]) (.singleton (ordinary_simple rfl (by simp [Form.expressions])))
      fun _ => stmts_singleton (stmt_plain rfl (by simp [Form.expressions]))
  | .breakStmt span label =>
    simp only [Stmt.relocate, stmt, InOrder, Stmt.defines, without_nil]
    exact breakComment_step fun h l hl => law.text_of_node h (Option.mem_toList.2 hl)
  | .continueStmt span label =>
    simp only [Stmt.relocate, stmt, InOrder, Stmt.defines, without_nil]
    exact .pure (by simp [continueComment, comment_relocate]) (.singleton (ordinary_comment _ _)) fun h =>
      stmts_singleton (stmt_continueComment fun l hl => law.text_of_node h (Option.mem_toList.2 hl))
  | .throwStmt span e =>
    simp only [Stmt.relocate, stmt, Expr.text_relocate, InOrder, Stmt.defines, without_nil]
    exact .next (.simplifyWarn _ _ _) fun _ => .pure (by simp [simple_relocate, Form.relocate])
      (.singleton (ordinary_simple rfl (by simp [Form.expressions]))) fun h => stmts_singleton (stmt_simple
        (law.form_comment (law.text_append.2 ⟨law.text_of_line (unbroken rfl), law.text_expr e h.2⟩)) _)
  | .tryStmt span ⟨bodySpan, ss⟩ handlers finalizer =>
    simp only [Stmt.nodes, Block.nodes, weight_cons, weight_append] at hw
    rw [Stmt.typeNames, forall_mem_append] at hN
    simp only [Stmt.relocate, Block.relocate, stmt, InOrder, Stmt.defines, without_nil]
    refine .next (.simplifyWarn _ _ _) fun _ => .next (.note fun _ => law.text_of_line (unbroken rfl)) fun _ =>
      Step.bind (StmtStep.nested ((stmts_step ss P (by omega) hN.1).weaken fun h => h.2.1)) fun body hbody =>
        ((finally_step finalizer P (by omega) hN.2).weaken fun h => h.1.2.2.2).bind fun rest hrest =>
          .pure (by simp [handlerComment_relocate]) ((hbody.append ?_).append hrest) fun ⟨⟨h, hbody⟩, hrest⟩ =>
            stmts_append.2 ⟨stmts_append.2 ⟨hbody, stmts_handlers handlers h.2.2.1⟩, hrest⟩
    intro s hs
    obtain ⟨handler, -, rfl⟩ := List.mem_map.1 hs
    exact ordinary_comment _ _
  | .empty span =>
    simp only [Stmt.relocate, stmt, Stmt.defines, without_nil]
    exact .nil
  | .unparsed span text message =>
    simp only [Stmt.relocate, stmt, InOrder, Stmt.defines, without_nil]
    exact .pure (by simp [simple_relocate, Form.relocate]) (.singleton (ordinary_simple rfl (by simp [Form.expressions])))
      fun h => stmts_singleton (stmt_simple (law.form_unparsed h) _)
  | .function ⟨span, name, params, result, some ⟨bodySpan, ss⟩, modifiers, typeParams, decorators,
      isConstructor⟩ =>
    simp only [Stmt.nodes, Source.Callable.nodes, blockNode, Block.nodes, weight_cons, weight_append] at hw
    simp only [Stmt.relocate, Source.Callable.relocate, Source.relocateBlock?, Block.relocate, stmt, InOrder, Stmt.defines,
      nodesInOrder_append, BlockInOrder?]
    exact callable_step (f := ⟨span, name, params, result, some ⟨bodySpan, ss⟩, modifiers, typeParams, decorators,
      isConstructor⟩) (fun _ => of_without) (fun h => ⟨h.1, h.2.1.1⟩)
      ((stmts_step ss P (by omega) hN).weaken fun h => h.2.2)
  | .function ⟨span, name, params, result, none, modifiers, typeParams, decorators, isConstructor⟩ =>
    simp only [Stmt.relocate, Source.Callable.relocate, Source.relocateBlock?, stmt, InOrder, Stmt.defines,
      nodesInOrder_append]
    exact callable_step (f := ⟨span, name, params, result, none, modifiers, typeParams, decorators, isConstructor⟩)
      (fun _ => id) (fun h => ⟨h.1, h.2.1.1⟩) .nil
  | .classDecl span name superclass interfaces typeParams members modifiers decorators =>
    simp only [Stmt.nodes, weight_cons, weight_append] at hw
    rw [Stmt.typeNames, List.forall_mem_cons] at hN
    have hsuper : (superclass.map (·.relocate K.m)).map (·.name) = superclass.map (·.name) := by simp [Function.comp_def]
    simp only [Stmt.relocate, stmt, hsuper, InOrder, Stmt.defines, without_nil, nodesInOrder_append]
    have htexts {q : Prop} {s : String} (h : q → K.T.Admits P (.stmt (.classDecl span name superclass interfaces
        typeParams members modifiers decorators))) (hs : s ∈ name :: typeParams ++ decorators) (hq : q) : K.T.Text s :=
      law.text_of_node (h hq) (by
        simp only [Source.Node.texts, cons_append, mem_cons, List.mem_append] at hs ⊢
        tauto)
    refine .next (.addTypeName hN.1) fun _ => .next (classNotes_step (htexts left (by simp)) (fun h => h.2.1.1)
      (fun h => h.2.1.2) fun h s hs => htexts left (by simpa using Or.inr hs) h) fun _ => ?_
    refine Step.bind (.withReader (fun _ => ⟨rfl, rfl⟩) (fun _ => rfl) (fun _ _ hc => { hc with owner := rfl })
      (fun c h hc => ⟨hc.language, ?_⟩) (StmtStep.nested ((stmts_step members P (by omega) hN.2).weaken fun h => h.2.2)))
      fun ss hss => .pure (by simp [mk_relocate, Form.relocate])
        (.singleton (ordinary_mk rfl (by simp [Form.expressions]) hss)) fun ⟨h, hss⟩ =>
          stmts_singleton (.mk (law.form_class (htexts left (by simp) h)) nofun hss)
    rintro _ ⟨⟩
    exact law.owned_of_class h.1
  | .interface span name typeParams bases members =>
    simp only [Stmt.relocate, stmt, InOrder, Stmt.defines, without_nil, Stmt.nodes, nodesInOrder_cons, nodesInOrder_append]
    exact .next (.simplify _ _ _) fun _ => .pure (interfaceComments_relocate span name bases members)
      (allOrdinary_interfaceComments _ _ _ _) fun h => stmts_interfaceComments
        (law.text_of_node h.1 (mem_singleton_self _)) h.2.1 h.2.2
  | .enum span name members =>
    have hname := hN name (mem_singleton_self name)
    simp only [Stmt.nodes, weight_cons] at hw
    simp only [Stmt.relocate, stmt, InOrder, Stmt.defines, without_nil, Stmt.nodes, nodesInOrder_cons]
    refine .next (.addTypeName hname) fun _ => .next (.addEnumName hname) fun _ => .next (.simplify _ _ _) fun _ =>
      .next (.note fun h => ?_) fun _ => (enumMembers_step 0 members ?_).weaken right
    · have htext : K.T.Text name := law.text_of_node h.1 (mem_singleton_self _)
      simp (disch := exact unbroken rfl) [htext]
    · rw [Int.natAbs_zero]
      omega
  | .typeAlias span name aliased =>
    have hname := hN name (mem_singleton_self name)
    simp only [Stmt.relocate, stmt, TypeRef.text_relocate, InOrder, Stmt.defines, without_nil, Stmt.nodes, nodesInOrder_cons]
    refine .next (.addTypeName hname) fun _ => .next (.simplify _ _ _) fun _ => .pure (by simp [comment_relocate])
      (.singleton (ordinary_comment _ _)) fun h => stmts_singleton (stmt_comment ?_ _)
    have htext : K.T.Text name := law.text_of_node h.1 (mem_singleton_self _)
    have htype := law.text_type aliased h.2
    simp (disch := exact unbroken rfl) [htext, htype]
  | .namespaceDecl span name body =>
    simp only [Stmt.nodes, weight_cons] at hw
    simp only [Stmt.relocate, stmt, InOrder, Stmt.defines]
    refine .next (.simplify _ _ _) fun _ => .next (.note fun h => ?_) fun _ =>
      (stmts_step body P (by omega) hN).weaken right
    have htext : K.T.Text name := law.text_of_node h.1 (mem_singleton_self _)
    simp (disch := exact unbroken rfl) [htext]
  | .importLine span text =>
    simp only [Stmt.relocate, stmt, InOrder, Stmt.defines, without_nil]
    exact .pure (by simp [comment_relocate]) (.singleton (ordinary_comment _ _)) fun h => stmts_singleton (stmt_comment
      (law.text_append.2 ⟨law.text_of_line (unbroken rfl), law.text_of_node h (mem_singleton_self _)⟩) _)

theorem stmts_step (ss : List Stmt) (P : String → Prop) (hw : weight (stmtNodes ss) ≤ K.W)
    (hN : ∀ n ∈ typeNamesOf ss, K.N n) : StmtStep K P (without P (definesAll K.T.language ss))
      (StmtsInOrder K.T.language K.T.Admits P ss) (stmts ss) (stmts (relocateStmts K.m ss)) := by
  match ss with
  | [] =>
    simp only [relocateStmts, stmts, definesAll, without_nil]
    exact .nil
  | s :: ss =>
    rw [stmtNodes, weight_append] at hw
    rw [typeNamesOf, forall_mem_append] at hN
    simp only [relocateStmts, stmts, Stmt.kind_relocate, Stmt.span_relocate, StmtsInOrder, definesAll, ← without_without]
    exact Step.bind (StmtStep.statement _ ((stmt_step s P (by omega) hN.1).weaken left)) fun first hfirst =>
      ((stmts_step ss _ (by omega) hN.2).weaken fun h => h.1.2).bind fun rest hrest => .pure (by simp)
        (hfirst.append hrest) fun ⟨⟨_, hfirst⟩, hrest⟩ => stmts_append.2 ⟨hfirst, hrest⟩

theorem inner_step (s : Stmt) (P : String → Prop) (hw : weight s.nodes ≤ K.W) (hN : ∀ n ∈ s.typeNames, K.N n) :
    StmtStep K P P (s.InOrder K.T.language K.T.Admits P) (inner s) (inner (s.relocate K.m)) := by
  cases s with
  | block b =>
    obtain ⟨span, ss⟩ := b
    simp only [Stmt.nodes, Block.nodes, weight_cons] at hw
    simp only [Stmt.relocate, Block.relocate, inner, InOrder]
    exact (stmts_step ss P (by omega) hN).undo.weaken right
  | _ =>
    simp only [Stmt.relocate, inner]
    exact .nil

theorem otherwise_step (s : Option Stmt) (P : String → Prop) (hw : weight (stmtNode s) ≤ K.W)
    (hN : ∀ n ∈ Source.typeNamesOf? s, K.N n) :
    ClauseStep K P (StmtInOrder? K.T.language K.T.Admits P s) (otherwise s) (otherwise (Source.relocateStmt? K.m s)) := by
  match s with
  | none =>
    simp only [Source.relocateStmt?, otherwise]
    exact .pure rfl .nil fun _ => stmts_nil
  | some s =>
    rw [stmtNode] at hw
    have hlast := lastClause_step s (stmt_step s P hw hN).undo (inner_step s P hw hN)
    cases s with
    | ifElse span condition yes no =>
      simp only [Stmt.nodes, weight_cons, weight_append] at hw
      rw [Source.typeNamesOf?, Stmt.typeNames, forall_mem_append] at hN
      simp only [Source.relocateStmt?, Stmt.relocate, otherwise, StmtInOrder?, InOrder]
      exact ((expr_step condition (by omega)).part fun h => h.2.1).bind fun c hc =>
        ((bodyOf_step yes (stmt_step yes P (by omega) hN.1).undo (inner_step yes P (by omega) hN.1)).plain
          fun h => h.1.2.2.1).bind fun body hbody => ((otherwise_step no P (by omega) hN.2).weaken
            fun h => h.1.1.2.2.2).bind fun rest hrest => .pure (by simp [mk_relocate, Form.relocate])
              (.elseIf hc.wellFormed hbody hrest) fun ⟨⟨⟨_, hc⟩, hbody⟩, hrest⟩ =>
                stmts_cons.2 ⟨stmt_ordinary rfl (forall_mem_singleton.2 hc) hbody, hrest⟩
    | _ =>
      simp only [Source.relocateStmt?, Stmt.relocate, otherwise, StmtInOrder?]
      exact hlast

theorem finally_step (b : Option Block) (P : String → Prop) (hw : weight (blockNode b) ≤ K.W)
    (hN : ∀ n ∈ Source.typeNamesOfBlock? b, K.N n) :
    StmtStep K P P (BlockInOrder? K.T.language K.T.Admits P b) (finally_ b) (finally_ (Source.relocateBlock? K.m b)) := by
  match b with
  | none =>
    simp only [Source.relocateBlock?, finally_]
    exact .nil
  | some ⟨span, ss⟩ =>
    simp only [blockNode, Block.nodes, weight_cons] at hw
    simp only [Source.relocateBlock?, Block.relocate, finally_, BlockInOrder?]
    exact Step.bind (StmtStep.nested (stmts_step ss P (by omega) hN)) fun body hbody =>
      .pure (by simp [comment_relocate]) (.cons (ordinary_comment _ _) hbody) fun ⟨_, hbody⟩ =>
        stmts_cons.2 ⟨stmt_comment (law.text_of_line (unbroken rfl)) _, hbody⟩

theorem branches_step (cases : List SwitchCase) (P : String → Prop) (hw : weight (caseNodes cases) ≤ K.W)
    (hN : ∀ n ∈ Source.typeNamesOfCases cases, K.N n) :
    Step K false P P (CasesInOrder K.T.language K.T.Admits P cases) (List.map (·.relocate K.m)) (branches cases)
      (branches (relocateCases K.m cases)) (fun bs => ∀ b ∈ bs, IsBranch b) K.T.Stmts := by
  match cases with
  | [] =>
    simp only [relocateCases, branches]
    exact .pure rfl nofun fun _ => stmts_nil
  | ⟨span, labels, body⟩ :: cases =>
    simp only [caseNodes, weight_cons, weight_append] at hw
    rw [Source.typeNamesOfCases, forall_mem_append] at hN
    simp only [CasesInOrder]
    have hbody := untilBreak_step body P (by omega) hN.1
    have hrest := branches_step cases P (by omega) hN.2
    have hnext : (relocateCases K.m cases).head?.map (·.labels) =
        (cases.head?.map (·.labels)).map (relocateLabels K.m) := by
      cases cases with
      | nil => rfl
      | cons c cs => cases c; rfl
    have hbranch (falls : Bool) {x y : Convert (List Pseudo.Stmt)}
        (h : StmtStep K P P (StmtsInOrder K.T.language K.T.Admits P body) x y) :
        Step K false P P (K.T.Nodes P (labelNodes labels) ∧ StmtsInOrder K.T.language K.T.Admits P body ∧
            CasesInOrder K.T.language K.T.Admits P cases) (List.map (·.relocate K.m))
          (do
            let b ← branch span labels (if falls then cases.head?.map (·.labels) else none) x
            return b :: (← branches cases))
          (do
            let b ← branch (K.m.span span) (relocateLabels K.m labels)
              (if falls then (relocateCases K.m cases).head?.map (·.labels) else none) y
            return b :: (← branches (relocateCases K.m cases))) (fun bs => ∀ b ∈ bs, IsBranch b) K.T.Stmts := by
      have hmap : (if falls then (relocateCases K.m cases).head?.map (·.labels) else none) =
          (if falls then cases.head?.map (·.labels) else none).map (relocateLabels K.m) := by
        cases falls
        · rfl
        · exact hnext
      rw [hmap]
      exact (branch_step (by omega) left (fun h => text_next h.2.2) (h.weaken fun h => h.2.1)).bind fun b hb =>
        (hrest.weaken fun h => h.1.2.2).bind fun bs hbs => .pure rfl (List.forall_mem_cons.2 ⟨hb, hbs⟩)
          fun ⟨⟨_, hb⟩, hbs⟩ => stmts_cons.2 ⟨hb, hbs⟩
    have hplain (h : ∀ b, body ≠ [.block b]) :
        Step K false P P (K.T.Nodes P (labelNodes labels) ∧ StmtsInOrder K.T.language K.T.Admits P body ∧
            CasesInOrder K.T.language K.T.Admits P cases) (List.map (·.relocate K.m))
          (branches (⟨span, labels, body⟩ :: cases))
          (branches (⟨K.m.span span, relocateLabels K.m labels, relocateStmts K.m body⟩ :: relocateCases K.m cases))
          (fun bs => ∀ b ∈ bs, IsBranch b) K.T.Stmts := by
      have hempty : (relocateStmts K.m body).isEmpty = body.isEmpty := by simp
      rw [branches, branches, hempty, goesOn_relocate]
      · exact hbranch _ hbody
      · intro blockSpan ss hblock
        rw [Source.relocateStmts_eq_map] at hblock
        obtain ⟨s, rfl, hs⟩ := List.map_eq_singleton_iff.1 hblock
        cases s with
        | block b => exact h b rfl
        | _ => simp [Stmt.relocate] at hs
      · exact fun blockSpan ss hblock => h _ hblock
    rw [relocateCases]
    cases body with
    | nil => exact hplain (by simp)
    | cons s rest =>
      cases rest with
      | cons t rest => exact hplain (by simp)
      | nil =>
        cases s with
        | block b =>
          obtain ⟨blockSpan, ss⟩ := b
          simp only [stmtNodes, Stmt.nodes, Block.nodes, weight_append, weight_cons] at hw
          rw [typeNamesOf, Stmt.typeNames, forall_mem_append] at hN
          simp only [relocateStmts, Stmt.relocate, Block.relocate, branches, goesOn_relocate]
          refine hbranch _ ((untilBreak_step ss P (by omega) hN.1.1).weaken fun h => ?_)
          simp only [StmtsInOrder, InOrder] at h
          exact h.1.2
        | _ => exact hplain (by simp)

theorem untilBreak_step (ss : List Stmt) (P : String → Prop) (hw : weight (stmtNodes ss) ≤ K.W)
    (hN : ∀ n ∈ typeNamesOf ss, K.N n) :
    StmtStep K P P (StmtsInOrder K.T.language K.T.Admits P ss) (untilBreak ss) (untilBreak (relocateStmts K.m ss)) := by
  match ss with
  | [] =>
    simp only [relocateStmts, untilBreak]
    exact .nil
  | s :: ss =>
    rw [stmtNodes, weight_append] at hw
    rw [typeNamesOf, forall_mem_append] at hN
    have hs := stmt_step s P (by omega) hN.1
    have hss := untilBreak_step ss (without P (s.defines K.T.language)) (by omega) hN.2
    rw [relocateStmts]
    by_cases hbreak : ∃ span, s = .breakStmt span none ∧ ss = []
    · obtain ⟨span, rfl, rfl⟩ := hbreak
      simp only [relocateStmts, Stmt.relocate, untilBreak]
      exact .nil
    · rw [untilBreak, untilBreak, Stmt.kind_relocate, Stmt.span_relocate]
      · simp only [StmtsInOrder]
        exact StmtStep.undo (Step.bind (StmtStep.statement _ (hs.weaken left)) fun first hfirst =>
          (hss.weaken fun h => h.1.2).bind fun rest hrest => .pure (by simp) (hfirst.append hrest)
            fun ⟨⟨_, hfirst⟩, hrest⟩ => stmts_append.2 ⟨hfirst, hrest⟩)
      · intro span h hnil
        cases s with
        | breakStmt s label =>
          rw [Stmt.relocate, Stmt.breakStmt.injEq] at h
          obtain ⟨-, rfl⟩ := h
          exact hbreak ⟨s, rfl, by simpa using hnil⟩
        | _ => simp [Stmt.relocate] at h
      · exact fun span h hnil => hbreak ⟨span, h, hnil⟩

theorem varDecl_step (v : VarDecl) (P : String → Prop) (hw : weight v.nodes ≤ K.W)
    (hN : ∀ n ∈ Source.typeNamesOfDecl? (some v), K.N n) :
    StmtStep K P (without P (definesIn K.T.language v.type v.declarators)) (VarDecl.InOrder K.T.language K.T.Admits P v)
      (varDecl v) (varDecl (v.relocate K.m)) := by
  match v with
  | ⟨span, ds, type, modifiers, kind⟩ =>
    simp only [VarDecl.nodes, weight_cons, weight_append] at hw
    simp only [VarDecl.relocate, varDecl, VarDecl.InOrder]
    have hds := (declarators_step type (isConstantDecl modifiers kind) ds P (by omega) hN).weaken
      fun (h : K.T.Admits P (.stmt (.varDecl ⟨span, ds, type, modifiers, kind⟩)) ∧ K.T.Nodes P (typeNode type) ∧
          DeclaratorsInOrder K.T.language K.T.Admits type P ds) =>
        ⟨fun d hd t ht => law.base_declared h.1 hd ht, h.2.2⟩
    exact .ite rfl (fun _ => .next (.note fun _ => law.text_of_line (unbroken rfl)) fun _ => hds) fun _ => hds

theorem varDecl?_step (v : Option VarDecl) (P : String → Prop) (hw : weight (varDeclNode v) ≤ K.W)
    (hN : ∀ n ∈ Source.typeNamesOfDecl? v, K.N n) :
    StmtStep K P (without P (definesOf? K.T.language v)) (VarDeclInOrder? K.T.language K.T.Admits P v) (varDecl? v)
      (varDecl? (Source.relocateVarDecl? K.m v)) := by
  match v with
  | none =>
    simp only [Source.relocateVarDecl?, varDecl?, definesOf?, without_nil]
    exact .nil
  | some v =>
    have hspan : (v.relocate K.m).span = K.m.span v.span := by cases v; rfl
    simp only [Source.relocateVarDecl?, varDecl?, hspan]
    exact .statement _ (varDecl_step v P hw hN)

theorem declarators_step (common : Option TypeRef) (isConstant : Bool) (ds : List Declarator) (P : String → Prop)
    (hw : weight (declaratorNodes ds) ≤ K.W) (hN : ∀ n ∈ typeNamesIn ds, K.N n) :
    StmtStep K P (without P (definesIn K.T.language common ds)) ((∀ d ∈ ds, ∀ t, (d.type <|> common) = some t →
        K.T.Base (normalize K.T.language t).base) ∧ DeclaratorsInOrder K.T.language K.T.Admits common P ds)
      (declarators common isConstant ds)
      (declarators (common.map (·.relocate K.m)) isConstant (Source.relocateDeclarators K.m ds)) := by
  match ds with
  | [] =>
    simp only [Source.relocateDeclarators, declarators, definesIn, List.filter_nil, List.map_nil, without_nil]
    exact .nil
  | ⟨span, name, own, extra, init⟩ :: ds =>
    simp only [declaratorNodes, weight_cons, weight_append] at hw
    have hcons : definesIn K.T.language common (⟨span, name, own, extra, init⟩ :: ds) =
        definesIn K.T.language common [⟨span, name, own, extra, init⟩] ++ definesIn K.T.language common ds := by
      rw [definesIn, List.filter_cons, definesIn, definesIn, List.filter_cons]
      split <;> rfl
    have hvalue : (∀ n ∈ typeNamesIn ds, K.N n) ∧ (valueOf? name span init).isSome = init.any isLambda ∧
        Option.Rel (StmtStep K P (without P [name]) (K.T.Admits P (.declarator ⟨span, name, own, extra, init⟩) ∧
          InitInOrder K.T.language K.T.Admits P init)) (valueOf? name span init)
          (valueOf? name (K.m.span span) (Source.relocateExpr? K.m init)) ∧
        (init.any isLambda = false → InitInOrder K.T.language K.T.Admits P init → K.T.Nodes P (exprNode init)) := by
      match init with
      | none =>
        rw [typeNamesIn] at hN
        · exact ⟨hN, rfl, .none, fun _ h => h⟩
        · simp
      | some e =>
        cases e with
        | lambda at_ params body isAsync =>
          simp only [exprNode, Expr.nodes, weight_cons, weight_append] at hw
          cases body with
          | block b =>
            obtain ⟨bodySpan, ss⟩ := b
            simp only [bodyNodes, Block.nodes, weight_cons] at hw
            rw [typeNamesIn, forall_mem_append] at hN
            refine ⟨hN.2, rfl, .some ?_, nofun⟩
            simp only [InitInOrder]
            refine .next (valueNotes_step fun h => law.text_of_node h.1 (mem_singleton_self _)) fun _ =>
              .read_bind fun c d hc hl => .get_bind fun s t hst => ?_
            have hcallable := valueCallable_relocate (m := K.m) K.T.language hst.scopes name span params
              (.block ⟨bodySpan, ss⟩) isAsync
            rw [Source.relocateBody, Block.relocate] at hcallable
            rw [← hc.language, hl, hcallable]
            exact callable_step (f := valueCallable K.T.language s.scopes name span params (.block ⟨bodySpan, ss⟩) isAsync)
              (fun _ => of_without) (fun h => ⟨law.admits_value h.2 h.1.1.1 rfl, h.1.1.2.1⟩)
              ((stmts_step ss P (by omega) hN.1).weaken fun h => h.1.1.2.2)
          | expr e =>
            rw [bodyNodes] at hw
            rw [typeNamesIn] at hN
            · refine ⟨hN, rfl, .some ?_, nofun⟩
              simp only [InitInOrder, exprNode, Expr.nodes, bodyNodes, nodesInOrder_cons, nodesInOrder_append]
              refine .next (valueNotes_step fun h => law.text_of_node h.1 (mem_singleton_self _)) fun _ =>
                .get_bind fun s t hst => .read_bind fun c d hc hl => .read_bind fun c' d' hc' hl' => ?_
              have hcallable := valueCallable_relocate (m := K.m) K.T.language hst.scopes name span params (.expr e) isAsync
              rw [Source.relocateBody] at hcallable
              rw [← hc.language, ← hc'.language, hl, hl', hcallable, givesNothing_relocate _ hst.scopes]
              exact callable_step (f := valueCallable K.T.language s.scopes name span params (.expr e) isAsync)
                (fun _ => id) (fun h => ⟨law.admits_value h.1.1.2 h.1.1.1.1 rfl, h.1.1.1.2.2.1⟩)
                (convertValueBody_step (by omega) (fun h span callee args he => law.admits_body h.1.1.1.1 (by rw [he]))
                  fun h => h.1.1.1.2.2.2)
            · simp
        | _ =>
          rw [typeNamesIn] at hN
          · exact ⟨hN, rfl, .none, fun _ h => h⟩
          · simp
    simp only [Source.relocateDeclarators, declarators, DeclaratorsInOrder, hcons, ← without_without, List.forall_mem_cons]
    exact (declarator_step (d := ⟨span, name, own, extra, init⟩) (by simp only []; omega)
      (fun h => law.text_of_node h.2.1 (mem_singleton_self _)) (fun h => h.1.1)
      (fun hl h => hvalue.2.2.2 hl h.2.2.2.1) hvalue.2.1
      (fun h => ⟨h.2.1, h.2.2.2.1⟩) hvalue.2.2.1).bind fun first hfirst =>
        ((declarators_step common isConstant ds _ (by omega) hvalue.1).weaken fun h => ⟨h.1.1.2, h.1.2.2.2.2⟩).bind
          fun rest hrest => .pure (by simp) (hfirst.append hrest) fun ⟨⟨_, hfirst⟩, hrest⟩ =>
            stmts_append.2 ⟨hfirst, hrest⟩

end

end Blackboard.Convert
