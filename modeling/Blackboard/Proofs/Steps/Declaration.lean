import Blackboard.Proofs.Steps.Assignment

/-! The steps that convert declarations: variables with their initial values, and the headings of callables. -/
namespace Blackboard.Convert

open Conversion Discipline
open Iff (rfl)
open List
open Option (map_some map_none)
open Pseudo (Kind Stmt Form normalize normalize_relocate)
open Pseudo.Stmt (ordinary_simple ordinary_comment ordinary_mk simple_relocate comment_relocate mk_relocate)
open Source (Relocation Span Expr relocateExprs TypeRef Declarator EnumMember relocateEnumMembers Param relocateParams
  Callable Block relocateBody weight exprNodes exprNode enumMemberNodes paramNodes definesIn without without_nil
  unbroken weight_cons weight_append nodesInOrder_nil nodesInOrder_cons nodesInOrder_append)
open Source.Expr (isLambda)

variable {K : Setting} {still : Bool} {P Q : String → Prop} {pre : Prop} {span : Span} {name : String} {type : Option TypeRef}
    {init : Option Expr} {isConstant : Bool} {f : Callable} {m : Relocation}

/-! ### Types of variables -/

theorem isWhole_relocate (e : Expr) : isWhole (e.relocate m) = isWhole e := by
  rw [isWhole, isWhole, Expr.intLiteral?_relocate]

theorem refine_relocate (l : Language) (k : Kind) (init : Option Expr) :
    refine l k (init.map (·.relocate m)) = refine l k init := by
  unfold refine
  have hall (items : List Expr) : items.all (isWhole ∘ Expr.relocate m) = items.all isWhole :=
    congrArg items.all (funext isWhole_relocate)
  cases init with
  | none => rfl
  | some e =>
    cases k.isArray with
    | false => simp only [map_some, isWhole_relocate]
    | true =>
      cases e with
      | array span items => simp [Expr.relocate, hall]
      | _ => rfl

theorem literalSizes_relocate (es : List Expr) : literalSizes (relocateExprs m es) = literalSizes es := by
  fun_induction literalSizes es with
  | case1 => rw [relocateExprs, literalSizes]
  | case2 span inner items ih =>
    simp only [relocateExprs, Expr.relocate, literalSizes, ih]
    simp
  | case3 e items h =>
    rw [relocateExprs, literalSizes]
    · simp
    · intro span inner he
      cases e with
      | array s es => exact h s es rfl
      | _ => simp [Expr.relocate] at he

theorem isInferred_relocate (l : Language) (type : Option TypeRef) :
    isInferred l (type.map (·.relocate m)) = isInferred l type := by
  cases type with
  | none => rfl
  | some t => simp [isInferred]

theorem infer?_eq {v w} (hv : v.Alike w) (e : Option Expr) :
    (e.map (·.relocate m)).bind (infer w) = e.bind (infer v) := by
  cases e with
  | none => rfl
  | some e => exact hv.infer_eq m e

variable [law : K.T.Lawful]

theorem initialSizes_step (init : Option Expr) (h : weight (exprNode init) ≤ K.W) :
    SameStep K false P (K.T.Nodes P (exprNode init)) (initialSizes init) (initialSizes (init.map (·.relocate K.m)))
      fun sizes => ∀ s ∈ sizes, K.T.Size s := by
  cases init with
  | none => exact .pure rfl trivial fun _ => by simp
  | some e =>
    cases e with
    | newArray span element sizes d =>
      simp only [exprNode, Expr.nodes, weight_cons, weight_append, nodesInOrder_cons, nodesInOrder_append] at h ⊢
      refine ((exprs_step sizes (by omega)).weaken fun h => h.2.2).bind fun as _ => .pure ?_ trivial fun h s _ =>
        law.size_of_array h.1.1 s
      simp
    | newArrayOf span element d r items => exact .pure (literalSizes_relocate items) trivial fun _ => sizes_literal _
    | array span items => exact .pure (literalSizes_relocate items) trivial fun _ => sizes_literal _
    | _ => exact .pure rfl trivial fun _ => by simp

theorem declaredKind_step (h : weight (exprNode init) ≤ K.W)
    (htype : ∀ t, type = some t → pre → K.T.Base (normalize K.T.language t).base)
    (hinit : pre → K.T.Nodes P (exprNode init)) :
    SameStep K false P pre (declaredKind name type init span)
      (declaredKind name (type.map (·.relocate K.m)) (init.map (·.relocate K.m)) (K.m.span span)) K.T.Kind := by
  refine .view_bind fun v w hv => ?_
  extract_lets rest rest'
  have hrest {pre' : Prop} {k : Kind} (hp : pre' → pre ∧ K.T.Kind k) : SameStep K false P pre' (rest k) (rest' k) K.T.Kind :=
    ((initialSizes_step init h).weaken fun hpre => hinit (hp hpre).1).bind fun sizes _ =>
      .pure rfl trivial fun h => kind_withSizes (hp h.1).2 h.2
  rw [← hv.language, isInferred_relocate, infer?_eq hv]
  have hshown {k} (hk : init.bind (infer v) = some k)
      (hp : pre ∧ v.language = K.T.language ∧ K.T.Visible P v.scopes.chain) : pre ∧ K.T.Kind k := by
    obtain ⟨e, rfl, hinfer⟩ := Option.bind_eq_some_iff.1 hk
    exact ⟨hp.1, law.kind_of_infer hp.2.1 hp.2.2 (hinit hp.1) hinfer⟩
  have hunknown {q : Prop} : SameStep K false P (pre ∧ q)
      (do warn span (.inferenceFallback name); rest unknownKind)
      (do warn (K.m.span span) (.inferenceFallback name); rest' unknownKind) K.T.Kind :=
    .bind (.warn _ rfl) fun _ _ => hrest fun hp => ⟨hp.1.1, kind_unknown hp.2⟩
  cases type with
  | none =>
    cases isInferred v.language none <;> cases hk : init.bind (infer v) <;>
      first | exact hunknown | exact hrest (hshown hk)
  | some t =>
    cases isInferred v.language (some t) with
    | true =>
      cases hk : init.bind (infer v) with
      | none => exact hunknown
      | some k => exact hrest (hshown hk)
    | false =>
      simp only [map_some, normalize_relocate, refine_relocate]
      have hk (hp : pre ∧ v.language = K.T.language ∧ K.T.Visible P v.scopes.chain) :
          K.T.Kind (normalize v.language t) := by
        rw [hp.2.1]
        exact kind_normalize (htype t rfl hp.1)
      exact .ite rfl (fun _ => .next (.warn _ rfl) fun _ => hrest fun hp => ⟨hp.1, hk hp⟩) fun _ =>
        hrest fun hp => ⟨hp.1, kind_refine _ _ (hk hp)⟩

/-! ### Initial values -/

theorem isConstantValue_relocate (init : Option Expr) :
    isConstantValue (init.map (·.relocate m)) = isConstantValue init := by
  cases init with
  | none => rfl
  | some e =>
    cases e with
    | unary span op operand => cases op <;> cases operand <;> rfl
    | _ => rfl

theorem arrayElements_step (path : List Nat) (i : Nat) (es : List Expr) (h : weight (exprNodes es) ≤ K.W) :
    StmtStep K P P (K.T.Nodes P (exprNodes es)) (arrayElements name span path i es)
      (arrayElements name (K.m.span span) path i (relocateExprs K.m es)) := by
  fun_induction arrayElements name span path i es with
  | case1 path i =>
    rw [relocateExprs, arrayElements]
    exact .nil
  | case2 path i s inner items ihinner ihitems =>
    simp only [exprNodes, Expr.nodes, weight_append, weight_cons, nodesInOrder_append, nodesInOrder_cons] at h ⊢
    simp only [relocateExprs, Expr.relocate, arrayElements]
    exact ((ihinner (by omega)).weaken fun h => h.1.2).bind fun first hfirst =>
      ((ihitems (by omega)).weaken fun h => h.1.2).bind fun rest hrest => .pure (by simp) (hfirst.append hrest)
        fun h => stmts_append.2 ⟨h.1.2, h.2⟩
  | case3 path i item items hitem ih =>
    simp only [exprNodes, weight_append, nodesInOrder_append] at h ⊢
    rw [relocateExprs, arrayElements]
    · exact ((expr_step item (by omega)).part And.left).bind fun value hvalue =>
        ((ih (by omega)).weaken fun h => h.1.2).bind fun rest hrest => .pure (by simp [assign_relocate, element_relocate])
          (.cons (ordinary_assign (wellFormed_element _ _ _) hvalue.wellFormed) hrest) fun h =>
            stmts_cons.2 ⟨stmt_assign (expr_element _ _ _) h.1.2 span, h.2⟩
    · intro s inner h
      cases item with
      | array s' es => exact hitem s' es rfl
      | _ => simp [Expr.relocate] at h

theorem isEmptyList_relocate (e : Expr) : isEmptyList (e.relocate m) = isEmptyList e := by
  cases e with
  | newObject span type args => cases args <;> simp [Expr.relocate, relocateExprs, isEmptyList]
  | _ => rfl

theorem startValue_step (e : Expr) (h : weight e.nodes ≤ K.W) (hname : pre → K.T.Text name)
    (hE : pre → K.T.Nodes P e.nodes) :
    StmtStep K P P pre (startValue name span e) (startValue name (K.m.span span) (e.relocate K.m)) := by
  have hplain (e : Expr) (h : weight e.nodes ≤ K.W) (hE : pre → K.T.Nodes P e.nodes) :
      StmtStep K P P pre (if isEmptyList e then do
        note s!"{name} starts as an empty list"
        return []
      else assignValue span (.identifier span name) e)
      (if isEmptyList (e.relocate K.m) then do
        note s!"{name} starts as an empty list"
        return []
      else assignValue (K.m.span span) (.identifier (K.m.span span) name) (e.relocate K.m)) := by
    refine .ite (by rw [isEmptyList_relocate]) (fun _ => .next (.note fun hp => ?_) fun _ => StmtStep.nil) fun _ =>
      assignValue_step e ?_ h (fun hp => ?_) hE
    · simp (disch := exact unbroken rfl) [hname hp]
    · have hpos := e.weight_nodes_pos
      simp only [Expr.nodes, weight_cons, Source.weight_nil, Source.Node.weight]
      omega
    · simp only [Expr.nodes, nodesInOrder_cons]
      exact ⟨law.admits_name (hname hp), nodesInOrder_nil⟩
  cases e with
  | newArray => exact .nil
  | newArrayOf s element d r items =>
    simp only [Expr.nodes, weight_cons, weight_append, nodesInOrder_cons, nodesInOrder_append] at h hE
    exact (arrayElements_step [] 1 items (by omega)).weaken fun hp => (hE hp).2.2.2
  | array s items =>
    simp only [Expr.nodes, weight_cons, nodesInOrder_cons] at h hE
    exact (arrayElements_step [] 1 items (by omega)).weaken fun hp => (hE hp).2
  | _ =>
    exact hplain _ h hE

theorem declarePlain_step (h : weight (exprNode init) ≤ K.W)
    (htype : ∀ t, type = some t → pre → K.T.Base (normalize K.T.language t).base)
    (hname : pre → K.T.Text name) (hinit : pre → K.T.Nodes P (exprNode init)) :
    StmtStep K P P pre (declarePlain name span type init isConstant)
      (declarePlain name (K.m.span span) (type.map (·.relocate K.m)) (init.map (·.relocate K.m)) isConstant) := by
  have htext : (init.map (·.relocate K.m)).map (·.text) = init.map (·.text) := by simp [Function.comp_def]
  have htypeName : (type.map (·.relocate K.m)).map (·.name) = type.map (·.name) := by simp [Function.comp_def]
  refine (declaredKind_step h htype hinit).bind fun k _ => ?_
  simp only [htext, htypeName, isConstantValue_relocate, id]
  have hvariable : (Stmt.simple (.variable_ name k.text) (some span.line)).Ordinary :=
    ordinary_simple rfl (by simp [Form.expressions])
  have hdeclared : K.T.Stmt (.simple (.variable_ name k.text) (some span.line)) :=
    stmt_plain rfl (by simp [Form.expressions])
  generalize (isConstant && isConstantValue init && !k.isArray) = constant
  cases init with
  | none =>
    cases constant <;> exact .next (.declareVariable k.base fun h => ⟨h.2.1, rfl, h.2.2⟩) fun _ =>
      .pure (by simp [simple_relocate, Form.relocate]) (.singleton hvariable) fun _ => stmts_singleton hdeclared
  | some e =>
    cases constant with
    | true =>
      exact ((expr_step e h).part fun h => hinit h.1).bind fun value hvalue => .next
        (.declareVariable k.base fun h => ⟨h.1.2.1, rfl, forall_mem_nil _⟩) fun _ => .pure (by simp [simple_relocate, Form.relocate])
          (.singleton (ordinary_simple rfl (forall_mem_singleton.2 hvalue.wellFormed))) fun h =>
            stmts_singleton (stmt_plain rfl (forall_mem_singleton.2 h.2))
    | false =>
      exact .next (.declareVariable k.base fun h => ⟨h.2.1, rfl, h.2.2⟩) fun _ =>
        (startValue_step e h (fun h => hname h.1) fun h => hinit h.1).bind fun rest hrest =>
          .pure (by simp [simple_relocate, Form.relocate]) (.cons hvariable hrest) fun h =>
            stmts_cons.2 ⟨hdeclared, h.2⟩

theorem declaratorType_relocate (d : Declarator) (common : Option TypeRef) :
    declaratorType (d.relocate m) (common.map (·.relocate m)) = (declaratorType d common).map (·.relocate m) := by
  have hadd (t : TypeRef) : (t.relocate m).addDimensions d.extraDimensions =
      (t.addDimensions d.extraDimensions).relocate m := by
    cases t; rfl
  unfold declaratorType
  cases htype : d.type <;> cases common <;> simp [Declarator.relocate, htype, hadd]

theorem filter_relocate (type : Option TypeRef) (p : String → Bool) :
    ((type.map (·.relocate m)).filter fun t => p t.name) = (type.filter fun t => p t.name).map (·.relocate m) := by
  cases type with
  | none => rfl
  | some t => cases hp : p t.name <;> simp [Option.filter, hp]

theorem declarator_step {d common x y pre'} (h : weight (exprNode d.init) ≤ K.W) (hname : pre → K.T.Text d.name)
    (htype : pre → ∀ t, (d.type <|> common) = some t → K.T.Base (normalize K.T.language t).base)
    (hinit : d.init.any isLambda = false → pre → K.T.Nodes P (exprNode d.init))
    (hsome : x.isSome = d.init.any isLambda) (hpre : pre → pre')
    (hxy : Option.Rel (StmtStep K P (without P [d.name]) pre') x y) :
    StmtStep K P (without P (definesIn K.T.language common [d])) pre (declarator d common isConstant x)
      (declarator (d.relocate K.m) (common.map (·.relocate K.m)) isConstant y) := by
  unfold declarator
  rw [declaratorType_relocate]
  refine .read_bind fun c c' hc hl => Step.weaken ?_ And.left
  rw [← hc.language, hl]
  have hcommon : definesIn K.T.language common [d] = if d.init.any isLambda &&
      ((declaratorType d common).filter fun t => (inputSources K.T.language).contains t.name).isNone
        then [d.name] else [] := by
    simp only [definesIn, Declarator.isCallable, filter_cons, filter_nil]
    split <;> simp_all [declaratorType]
  simp only [filter_relocate, hcommon]
  cases hfilter : (declaratorType d common).filter fun t => (inputSources K.T.language).contains t.name with
  | some t =>
    simp only [map_some, TypeRef.name_relocate, Option.isNone_some, Bool.and_false, Bool.false_eq_true, if_false,
      without_nil]
    have ht := (Option.filter_eq_some_iff.1 hfilter).2
    refine .next (.declareVariable .string fun _ => ⟨law.base_input ht, rfl, by simp⟩) fun _ =>
      .pure (by simp [Declarator.relocate, comment_relocate]) (.singleton (ordinary_comment _ _)) fun hp =>
        stmts_singleton (stmt_comment ?_ _)
    simp (disch := exact unbroken rfl) [hname hp]
  | none =>
    rw [← hsome, Option.isNone_none]
    cases hxy with
    | some hxy => exact hxy.weaken hpre
    | none =>
      rw [if_neg (by simp), without_nil]
      have hbase (t) (ht : declaratorType d common = some t) (hp : pre) : K.T.Base (normalize K.T.language t).base := by
        obtain ⟨u, hu, rfl⟩ := Option.map_eq_some_iff.1 ht
        rw [base_addDimensions]
        exact htype hp u hu
      have hrelocate : (d.relocate K.m).init = d.init.map (·.relocate K.m) := Source.relocateExpr?_eq_map _ _
      simp only [map_none, hrelocate]
      exact declarePlain_step h hbase hname (hinit hsome.symm)

theorem destructure_step {isArray init kind} (h : weight init.nodes ≤ K.W) (hinit : pre → K.T.Nodes P init.nodes)
    (hkind : pre → ∀ k ∈ kind, K.T.Kind k) (i : Nat) (names : List String) :
    StmtStep K P P pre (destructure span isArray init kind i names)
      (destructure (K.m.span span) isArray (init.relocate K.m) kind i names) := by
  induction names generalizing i with
  | nil =>
    exact .nil
  | cons name names ih =>
    refine ((expr_step init h).part hinit).bind fun source hsource => ?_
    extract_lets value rest value' rest'
    have hrelocate : value' = value.relocate K.m := by
      unfold value' value
      split <;> simp [Pseudo.Expr.relocate, Pseudo.Expr.number_relocate]
    have hvalue : value.WellFormed ∧ (K.T.Expr source → K.T.Expr value) := by
      unfold value
      split
      · exact ⟨.index hsource.wellFormed .literal, fun h => expr_pair rfl h (expr_number _ _) rfl⟩
      · exact ⟨.member hsource.wellFormed, fun h => expr_single rfl h rfl⟩
    have hrest {pre' : Prop} {k : Kind} (hp : pre' → pre ∧ K.T.Expr source ∧ K.T.Kind k) :
        StmtStep K P P pre' (rest k) (rest' k) := by
      refine .next (.declareVariable k.base fun h => ⟨(hp h).2.2.1, rfl, (hp h).2.2.2⟩) fun _ =>
        ((ih (i + 1)).weaken fun h => (hp h).1).bind fun ss hss => .pure ?_
          (.cons (ordinary_simple rfl (by simp [Form.expressions])) (.cons (ordinary_assign .identifier hvalue.1) hss))
          fun ⟨h, hss⟩ => stmts_cons.2 ⟨stmt_plain rfl (by simp [Form.expressions]), stmts_cons.2
            ⟨stmt_assign (expr_leaf rfl rfl) (hvalue.2 (hp h).2.1) span, hss⟩⟩
      simp [hrelocate, simple_relocate, Form.relocate, assign_relocate, Pseudo.Expr.relocate]
    cases hk : kind.filter fun k => isArray && k.isArray with
    | some k => exact hrest fun hp => ⟨hp.1, hp.2, kind_element (hkind hp.1 k (Option.filter_eq_some_iff.1 hk).1)⟩
    | none => exact .bind (.warn _ rfl) fun _ _ => hrest fun hp => ⟨hp.1.1, hp.1.2, kind_unknown hp.2⟩

omit law in
theorem writtenNumber_step (n : Int) (line : Option Nat) (h : n.natAbs ≤ K.W) :
    Step K still P P pre (·.relocate K.m) (written (.number n line)) (written ((Pseudo.Expr.number n line).relocate K.m))
      Pseudo.Expr.WellFormed K.T.Expr := by
  refine (Step.written _ ?_ (.number n line)).mono fun _ _ ha => ha ▸ expr_number n line
  rwa [Pseudo.Expr.number, Pseudo.Expr.peak]

theorem enumMembers_step (next : Int) (ms : List EnumMember) (h : next.natAbs + weight (enumMemberNodes ms) ≤ K.W) :
    StmtStep K P P (K.T.Nodes P (enumMemberNodes ms)) (enumMembers next ms)
      (enumMembers next (relocateEnumMembers K.m ms)) := by
  induction ms generalizing next with
  | nil => exact .nil
  | cons x ms ih =>
    obtain ⟨span, name, value⟩ := x
    simp only [enumMemberNodes, weight_cons, weight_append, Source.Node.weight] at h
    have hrest {pre' : Prop} (value : Pseudo.Expr) (type : Pseudo.Scalar) (next : Int) (hvalue : value.WellFormed)
        (hnext : next.natAbs + weight (enumMemberNodes ms) ≤ K.W)
        (hp : pre' → K.T.Nodes P (enumMemberNodes ms) ∧ K.T.Expr value ∧ K.T.Base type) :
        StmtStep K P P pre'
          (do
            declareVariable { name := name, type := type.text, isConstant := true,
                              initial := some value.text }
            let rest ← enumMembers next ms
            return .simple (.constant name value) (some span.line) :: rest)
          (do
            declareVariable { name := name, type := type.text, isConstant := true,
                              initial := some (value.relocate K.m).text }
            let rest ← enumMembers next (relocateEnumMembers K.m ms)
            return .simple (.constant name (value.relocate K.m)) (some (K.m.span span).line) :: rest) := by
      rw [Pseudo.Expr.text_relocate]
      exact .next (.declareVariable type fun h => ⟨(hp h).2.2, rfl, forall_mem_nil _⟩) fun _ =>
        ((ih next hnext).weaken fun h => (hp h).1).bind fun rest hrest => .pure (by simp [simple_relocate, Form.relocate])
          (.cons (ordinary_simple rfl (forall_mem_singleton.2 hvalue)) hrest) fun h =>
            stmts_cons.2 ⟨stmt_plain rfl (forall_mem_singleton.2 (hp h.1).2.1), h.2⟩
    simp only [relocateEnumMembers, enumMembers, enumMemberNodes, nodesInOrder_cons, nodesInOrder_append]
    cases value with
    | some e =>
      simp only [exprNode] at h
      have hnext : (e.intLiteral?.getD next + 1).natAbs + weight (enumMemberNodes ms) ≤ K.W := by
        cases hk : e.intLiteral? with
        | none =>
          rw [Option.getD_none]
          omega
        | some k =>
          have hlt := Expr.intLiteral?_lt hk
          rw [Option.getD_some]
          omega
      refine ((expr_step e (by omega)).part fun h => h.2.1).bind fun value hvalue => .view_bind fun v w hv => ?_
      rw [hv.inferScalar_eq, Expr.intLiteral?_relocate]
      exact hrest value _ _ hvalue.wellFormed hnext fun h => ⟨h.1.1.2.2, h.1.2, base_inferScalar h.2 h.1.1.2.1⟩
    | none =>
      have hnumber := Pseudo.Expr.number_relocate K.m next (some span.line)
      rw [map_some, ← K.m.line_span] at hnumber
      rw [← hnumber]
      exact (writtenNumber_step next (some span.line) (by omega)).bind fun value hvalue =>
        hrest value .integer (next + 1) hvalue (by omega) fun h => ⟨h.1.2.2, h.2, law.base_integer⟩

/-! ### Callables -/

theorem parameterKind_step (p : Param) (h : pre → K.T.Admits P (.param p) ∧ K.T.Nodes P (exprNode p.default)) :
    SameStep K false P pre (parameterKind p) (parameterKind (p.relocate K.m)) K.T.Kind := by
  refine .view_bind fun v w hv => ?_
  obtain ⟨span, name, type, isOptional, isRest, default, modifiers⟩ := p
  cases type with
  | some t =>
    simp only [Param.relocate, map_some, normalize_relocate, ← hv.language]
    have hk (hp : pre ∧ v.language = K.T.language ∧ K.T.Visible P v.scopes.chain) :
        K.T.Kind (normalize v.language t) := by
      rw [hp.2.1]
      exact kind_normalize (law.base_param (h hp.1).1 rfl)
    exact .ite rfl (fun _ => .next (.warn _ rfl) fun _ => .pure rfl trivial hk) fun _ => .pure rfl trivial hk
  | none =>
    simp only [Param.relocate, map_none, Source.relocateExpr?_eq_map, infer?_eq hv]
    cases hk : default.bind (infer v) with
    | some k =>
      refine .pure rfl trivial fun hp => ?_
      obtain ⟨e, rfl, hinfer⟩ := Option.bind_eq_some_iff.1 hk
      exact law.kind_of_infer hp.2.1 hp.2.2 (h hp.1).2 hinfer
    | none => exact .bind (.warn _ rfl) fun _ _ => .pure rfl trivial fun hp => kind_unknown hp.2

theorem parameter_step (p : Param) (h : pre → K.T.Admits P (.param p) ∧ K.T.Nodes P (exprNode p.default)) :
    SameStep K false P pre (parameter p) (parameter (p.relocate K.m)) fun _ => True := by
  refine (parameterKind_step p h).bind fun kind _ => ?_
  have hname (hp : pre ∧ K.T.Kind kind) : K.T.Text p.name := law.text_of_node (h hp.1).1 (by simp [Source.Node.texts])
  obtain ⟨span, name, type, isOptional, isRest, default, modifiers⟩ := p
  extract_lets name k last rest name' k' last' rest'
  have hsame (r) : last' r = last r := by
    simp [last', last, k', k, name', name, Param.relocate, Function.comp_def]
  have hk (hp : pre ∧ K.T.Kind kind) : K.T.Kind k := by
    unfold k
    split
    · exact ⟨hp.2.1, forall_mem_cons.2 ⟨size_unknown, hp.2.2⟩⟩
    · exact hp.2
  have hlast (r) : SameStep K false P (pre ∧ K.T.Kind kind) (last r) (last' r) fun _ => True := by
    rw [hsame r]
    exact .next (.declareVariable k.base fun hp => ⟨(hk hp).1, rfl, (hk hp).2⟩) fun _ =>
      .pure rfl trivial fun _ => trivial
  have hrest (r) : SameStep K false P (pre ∧ K.T.Kind kind) (rest r) (rest' r) fun _ => True := by
    unfold rest rest'
    cases default with
    | some e =>
      simp only [Param.relocate, Source.relocateExpr?, Expr.text_relocate]
      refine .next (.note fun hp => ?_) hlast
      have htext := law.text_expr e (h hp.1).2
      simp (disch := exact unbroken rfl) [name, hname hp, htext]
    | none =>
      refine .ite rfl (fun _ => .next (.note fun hp => ?_) hlast) fun _ => hlast ()
      simp (disch := exact unbroken rfl) [name, hname hp]
  refine .ite rfl (fun _ => .next (.note fun hp => ?_) hrest) fun _ => hrest ()
  simp (disch := exact unbroken rfl) [name, hname hp]

theorem parameters_step (ps : List Param) : SameStep K false P (K.T.Nodes P (paramNodes ps)) (parameters ps)
    (parameters (relocateParams K.m ps)) fun _ => True := by
  induction ps with
  | nil => exact .pure rfl trivial fun _ => trivial
  | cons p ps ih =>
    obtain ⟨span, name, type, o, r, default, ms⟩ := p
    simp only [parameters, paramNodes, nodesInOrder_cons, nodesInOrder_append]
    exact .next (parameter_step _ fun h => ⟨h.1, h.2.1.2⟩) fun a => .next (ih.weaken fun h => h.2.2) fun as =>
      .pure rfl trivial fun _ => trivial

theorem returnedValues_relocate (f : Callable) :
    returnedValues (f.relocate m) = (returnedValues f).map (·.relocate m) := by
  obtain ⟨span, name, params, result, body, modifiers, typeParams, decorators, isConstructor⟩ := f
  cases body with
  | none => rfl
  | some b =>
    obtain ⟨bodySpan, ss⟩ := b
    simp only [returnedValues, Callable.relocate, Source.relocateBlock?, Block.relocate, Source.returnsOf_relocate,
      filterMap_map, map_filterMap]
    rfl

theorem returnKind_step (hQ : ∀ n, Q n → P n) (h : pre → K.T.Admits P (.stmt (.function f))) :
    SameStep K false Q pre (returnKind f name) (returnKind (f.relocate K.m) name) fun r =>
      r.isSome = (quietReturn K.T.language f).isSome ∧ ∀ k ∈ r, K.T.Kind k := by
  unfold returnKind quietReturn
  rw [returnedValues_relocate]
  have hvalues {v : View} {e k} (hp : pre ∧ v.language = K.T.language ∧ K.T.Visible Q v.scopes.chain)
      (he : e ∈ returnedValues f) (hk : infer v e = some k) : K.T.Kind k :=
    law.kind_of_returned hp.2.1 hp.2.2 hQ (h hp.1) he hk
  generalize returnedValues f = values at hvalues ⊢
  obtain ⟨span, fname, params, result, body, modifiers, typeParams, decorators, isConstructor⟩ := f
  refine .view_bind fun v w hv => ?_
  simp only [Callable.relocate, ← hv.language]
  refine .ite rfl (fun hc => .pure rfl trivial fun _ => by simp [hc]) fun hc => ?_
  rw [if_neg hc]
  cases result with
  | some t =>
    have hvoid : Pseudo.isVoid (some (t.relocate K.m)) = Pseudo.isVoid (some t) := by
      rw [← Pseudo.isVoid_relocate K.m (some t), map_some]
    simp only [map_some, normalize_relocate]
    refine .ite (by rw [hvoid]) (fun hvoid => .pure rfl trivial fun _ => by simp [hvoid]) fun hvoid => ?_
    rw [if_neg hvoid]
    have hdone : SameStep K false Q (pre ∧ v.language = K.T.language ∧ K.T.Visible Q v.scopes.chain)
        (pure (some (normalize v.language t))) (pure (some (normalize v.language t))) fun r =>
          r.isSome = (some (normalize K.T.language t).text).isSome ∧ ∀ k ∈ r, K.T.Kind k := by
      refine .pure rfl trivial fun hp => ⟨rfl, ?_⟩
      rintro _ ⟨⟩
      rw [hp.2.1]
      exact kind_normalize (law.base_result (h hp.1) rfl (by simpa using hvoid))
    exact .ite rfl (fun _ => .next (.warn _ rfl) fun _ => hdone) fun _ => hdone
  | none =>
    simp only [map_none]
    cases values with
    | nil => exact .pure rfl trivial fun _ => by simp
    | cons e es =>
      simp only [map_cons, hv.infer_eq]
      cases hk : infer v e with
      | some k =>
        refine .pure rfl trivial fun hp => ⟨rfl, ?_⟩
        rintro _ ⟨⟩
        exact hvalues hp mem_cons_self hk
      | none =>
        refine .bind (.warn _ rfl) fun _ _ => .pure rfl trivial fun hp => ⟨rfl, ?_⟩
        rintro _ ⟨⟩
        exact kind_unknown hp.2

theorem droppedNotes_step {typeParams decorators} (h : pre → ∀ s ∈ typeParams ++ decorators, K.T.Text s) :
    SameStep K false P pre (droppedNotes span typeParams decorators)
      (droppedNotes (K.m.span span) typeParams decorators) fun _ => True := by
  have htypes (hp : pre) : K.T.Text (", ".intercalate typeParams) :=
    law.composes.listed fun s hs => h hp s (mem_append_left _ hs)
  have hdecorators (hp : pre) : K.T.Text (", ".intercalate decorators) :=
    law.composes.listed fun s hs => h hp s (mem_append_right _ hs)
  unfold droppedNotes
  extract_lets others rest names rest'
  have hrest (r) : SameStep K false P pre (rest r) (rest' r) fun _ => True := by
    refine .ite rfl (fun _ => .next (.simplify _ _ _) fun _ => .note fun hp => ?_) fun _ =>
      .pure rfl trivial fun _ => trivial
    simp (disch := exact unbroken rfl) [others, hdecorators hp]
  refine .ite rfl (fun _ => .next (.simplify _ _ _) fun _ => .next (.note fun hp => ?_) hrest) fun _ => hrest ()
  simp (disch := exact unbroken rfl) [names, htypes hp]

theorem callableNotes_step {owner} (h : pre → K.T.Admits P (.stmt (.function f)))
    (howner : pre → ∀ o ∈ owner, K.T.Text o) :
    SameStep K false P pre (callableNotes f owner) (callableNotes (f.relocate K.m) owner) fun _ => True := by
  have hfixed {text : String} (htext : '\n' ∉ text.toList) : SameStep K false P pre (note text) (note text) fun _ => True :=
    .note fun _ => law.text_of_line htext
  have hdropped : SameStep K false P pre (droppedNotes f.span f.typeParams f.decorators)
      (droppedNotes (K.m.span f.span) f.typeParams f.decorators) fun _ => True :=
    droppedNotes_step fun hp s hs => law.text_of_node (h hp) (mem_cons_of_mem _ hs)
  obtain ⟨span, name, params, result, body, modifiers, typeParams, decorators, isConstructor⟩ := f
  unfold callableNotes
  extract_lets dropped abstract async static dropped' abstract' async' static'
  have habstract (r) : SameStep K false P pre (abstract r) (abstract' r) fun _ => True :=
    .ite (by simp [Callable.relocate]) (fun _ => .next (hfixed (by decide)) fun _ => hdropped) fun _ => hdropped
  have hasync (r) : SameStep K false P pre (async r) (async' r) fun _ => True :=
    .ite rfl (fun _ => .next (.simplify _ _ _) fun _ => .next (hfixed (by decide)) habstract) fun _ => habstract ()
  have hstatic (r) : SameStep K false P pre (static r) (static' r) fun _ => True :=
    .ite rfl (fun _ => .next (hfixed (by decide)) hasync) fun _ => hasync ()
  cases isConstructor with
  | false => exact hstatic ()
  | true =>
    cases owner with
    | none => exact hstatic ()
    | some owner =>
      refine .next (.note fun hp => ?_) hstatic
      simp (disch := exact unbroken rfl) [howner hp owner rfl]

theorem callableName_relocate (f : Callable) (owner : Option String) :
    callableName (f.relocate m) owner = callableName f owner := by
  cases f; rfl

theorem declared_step (params : List (Parameter × Pseudo.Param)) {body returns} :
    AllOrdinary body → (pre → K.T.Stmts body ∧ K.T.Entry name returns) → StmtStep K P (without P [name]) pre
      (do
        declareCallable { name := name, parameters := params.map (·.1), returns := returns }
        return [.mk (match returns with
          | some type => .function name (params.map (·.2)) type
          | none => .procedure name (params.map (·.2))) body [] (some span.line)])
      (do
        declareCallable { name := name, parameters := params.map (·.1), returns := returns }
        return [.mk (match returns with
          | some type => .function name (params.map (·.2)) type
          | none => .procedure name (params.map (·.2))) (body.map (·.relocate K.m)) [] (some (K.m.span span).line)]) := by
  intro hordinary h
  refine .next (.declareCallable (p := ⟨name, _, _⟩) rfl rfl fun hp => (h hp).2) fun _ =>
    .pure ?_ (.singleton ?_) fun hp => stmts_singleton (.mk (form_callable _ _ _ (h hp).2) nofun (h hp).1)
  · cases returns <;> simp [mk_relocate, Form.relocate]
  · cases returns <;> exact ordinary_mk rfl (by simp [Form.expressions]) hordinary

theorem callable_step {x y} (hQ : ∀ n, Q n → P n)
    (h : pre → K.T.Admits P (.stmt (.function f)) ∧ K.T.Nodes P (paramNodes f.params))
    (hxy : StmtStep K P Q pre x y) :
    StmtStep K P (without P (if f.isConstructor then [] else [f.name])) pre (callable f x)
      (callable (f.relocate K.m) y) := by
  unfold callable
  have hspan : (f.relocate K.m).span = K.m.span f.span := by cases f; rfl
  have hparams : (f.relocate K.m).params = relocateParams K.m f.params := by cases f; rfl
  rw [hspan, hparams]
  refine .read_bind fun c d hc _ => ?_
  rw [← hc.owner]
  simp only [callableName_relocate]
  have howner (hp : pre ∧ K.T.Around c) (o) (ho : o ∈ c.owner.map (·.name)) : K.T.Text o := by
    obtain ⟨o, hmem, rfl⟩ := Option.map_eq_some_iff.1 ho
    exact law.owner_name (hp.2.owned o hmem)
  have hdone (n) (hn : without P [callableName f (c.owner.map (·.name))] n) :
      without P (if f.isConstructor then [] else [f.name]) n := by
    cases hc : f.isConstructor with
    | true => exact ⟨hn.1, by simp⟩
    | false => simpa [callableName, hc] using hn
  refine Step.relax (.next (callableNotes_step (fun hp => (h hp.1).1) howner) fun _ => ?_) hdone
  have hinside : Step K false P Q (pre ∧ K.T.Around c) (fun r => (r.1, r.2.1.map (Stmt.relocate K.m), r.2.2))
      (do
        let ps ← parameters f.params
        let body ← x
        return (ps, body, (← returnKind f (callableName f (c.owner.map (·.name)))).map (·.text)))
      (do
        let ps ← parameters (relocateParams K.m f.params)
        let body ← y
        return (ps, body, (← returnKind (f.relocate K.m) (callableName f (c.owner.map (·.name)))).map (·.text)))
      (fun r => AllOrdinary r.2.1) fun r => K.T.Stmts r.2.1 ∧
        r.2.2.isSome = (quietReturn K.T.language f).isSome ∧ ∀ t, r.2.2 = some t → ∃ k, K.T.Kind k ∧ t = k.text := by
    refine .next ((parameters_step f.params).weaken fun hp => (h hp.1).2) fun ps => (hxy.weaken And.left).bind
      fun body hbody => (returnKind_step hQ fun hp => (h hp.1.1).1).bind fun r _ => .pure rfl hbody
        fun ⟨⟨_, hbody⟩, hsome, hk⟩ => ⟨hbody, by simpa using hsome, fun t ht => ?_⟩
    obtain ⟨k, hmem, rfl⟩ := Option.map_eq_some_iff.1 ht
    exact ⟨k, hk k hmem, rfl⟩
  refine hinside.inScope_bind (fun r hr => ?_) ?_
  · simp only [pure_bind]
    exact declared_step r.1 hr fun ⟨⟨hp, hc⟩, hbody, hsome, hkind⟩ =>
      ⟨hbody, law.entry_of_callable (h hp).1 hc.owned hsome hkind⟩
  · refine (StmtStep.tooDeep f.span rfl).bind fun placeholder hplaceholder => .findCallable?_bind fun p q hpq => ?_
    have hreturns : q.bind (·.returns) = p.bind (·.returns) := by
      simpa [Option.bind_map] using congrArg (·.bind id) hpq.symm
    simp only [pure_bind, hreturns]
    refine declared_step [] hplaceholder fun hp => ?_
    obtain ⟨⟨⟨⟨hp, hc⟩, hdeep⟩, hplaceholder⟩, chain, hchain, hfound⟩ := hp
    rw [hfound]
    exact ⟨hplaceholder, law.entry_of_deep hdeep (h hp).1 hc.owned hchain⟩

/-! ### Callables that are values -/

omit law in
theorem givesNothing_relocate (l : Language) {s t} (h : s.Resembles t) (e : Expr) :
    givesNothing l t (e.relocate m) = givesNothing l s e := by
  cases e with
  | call span callee args =>
    simp only [Expr.relocate, givesNothing, Expr.dottedName?_relocate, h.any_isProcedure]
  | _ => rfl

omit law in
theorem valueBody_relocate (l : Language) {s t} (h : s.Resembles t) (e : Expr) :
    valueBody l t (e.relocate m) = (valueBody l s e).relocate m := by
  unfold valueBody
  rw [givesNothing_relocate l h]
  split <;> simp [Source.Stmt.relocate]

omit law in
theorem valueCallable_relocate (l : Language) {s t} (h : s.Resembles t) (name : String)
    (span : Span) (params : List Param) (body : Source.LambdaBody) (isAsync : Bool) :
    valueCallable l t name (m.span span) (relocateParams m params) (relocateBody m body)
      isAsync = (valueCallable l s name span params body isAsync).relocate m := by
  cases body with
  | block b => rfl
  | expr e =>
    simp [valueCallable, relocateBody, Callable.relocate, Block.relocate, valueBody_relocate l h]

theorem valueNotes_step (h : pre → K.T.Text name) :
    SameStep K false P pre (valueNotes span name) (valueNotes (K.m.span span) name) fun _ => True := by
  refine .next (.simplify _ _ _) fun _ => .note fun hp => ?_
  simp (disch := exact unbroken rfl) [h hp]

theorem convertValueBody_step {l scopes} {e : Expr} (hw : weight e.nodes ≤ K.W)
    (hown : pre → ∀ span callee args, e = .call span callee args →
      K.T.Admits P (.stmt (.expression span (.call span callee args))))
    (h : pre → K.T.Nodes P e.nodes) :
    StmtStep K P P pre (convertValueBody (givesNothing l scopes e) e)
      (convertValueBody (givesNothing l scopes e) (e.relocate K.m)) := by
  unfold convertValueBody
  rw [Expr.span_relocate]
  refine .ite rfl (fun hcall => StmtStep.statement _ ?_) fun _ => StmtStep.statement _ (returnValue_step e hw h)
  cases e with
  | call span callee args => exact exprStatement_step _ hw fun hp => ⟨hown hp _ _ _ rfl, h hp⟩
  | _ => cases hcall

end Blackboard.Convert
