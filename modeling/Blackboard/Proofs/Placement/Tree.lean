import Blackboard.Source.CountingLoop
import Blackboard.Source.Printer

/-!
Programs at other places. A relocation moves every construct of a program and keeps all that the program
says: the texts, the nodes and the returned values of a relocated program are those of the program, moved.
-/
namespace Blackboard.Source

open Expr (texts partTexts propertyTexts bodyText)
open List (map_append map_cons)

/-- Where constructs are moved to. The line a construct is moved to depends only on its line. -/
structure Relocation where
  span : Span → Span
  line : Nat → Nat
  line_span : ∀ s, (span s).line = line s.line

attribute [simp] Relocation.line_span

namespace Relocation

def stay : Relocation := ⟨id, id, fun _ => rfl⟩

def forget : Relocation := ⟨fun _ => .unplaced, fun _ => Span.unplaced.line, fun _ => rfl⟩

end Relocation

section

variable (m : Relocation)

mutual

def TypeRef.relocate : TypeRef → TypeRef
  | ⟨span, name, args, dimensions, form⟩ => ⟨m.span span, name, relocateTypes args, dimensions, form⟩

def relocateTypes : List TypeRef → List TypeRef
  | [] => []
  | t :: ts => t.relocate :: relocateTypes ts

end

mutual

def Expr.relocate : Expr → Expr
  | .number s value raw => .number (m.span s) value raw
  | .string s value => .string (m.span s) value
  | .char s value => .char (m.span s) value
  | .boolean s value => .boolean (m.span s) value
  | .null s => .null (m.span s)
  | .template s parts => .template (m.span s) (relocateParts parts)
  | .identifier s name => .identifier (m.span s) name
  | .member s target name optional => .member (m.span s) target.relocate name optional
  | .index s target i => .index (m.span s) target.relocate i.relocate
  | .call s callee args => .call (m.span s) callee.relocate (relocateExprs args)
  | .newObject s type args => .newObject (m.span s) (type.relocate m) (relocateExprs args)
  | .newArray s element sizes d => .newArray (m.span s) (element.relocate m) (relocateExprs sizes) d
  | .newArrayOf s element d r items =>
    .newArrayOf (m.span s) (element.relocate m) d (m.span r) (relocateExprs items)
  | .array s items => .array (m.span s) (relocateExprs items)
  | .object s properties => .object (m.span s) (relocateProperties properties)
  | .binary s op left right => .binary (m.span s) op left.relocate right.relocate
  | .unary s op operand => .unary (m.span s) op operand.relocate
  | .update s op before target => .update (m.span s) op before target.relocate
  | .assignment s op target value => .assignment (m.span s) op target.relocate value.relocate
  | .conditional s condition yes no =>
    .conditional (m.span s) condition.relocate yes.relocate no.relocate
  | .cast s type operand => .cast (m.span s) (type.relocate m) operand.relocate
  | .lambda s params body isAsync =>
    .lambda (m.span s) (relocateParams params) (relocateBody body) isAsync
  | .await s operand => .await (m.span s) operand.relocate
  | .spread s operand => .spread (m.span s) operand.relocate

def relocateExprs : List Expr → List Expr
  | [] => []
  | e :: es => e.relocate :: relocateExprs es

def relocateExpr? : Option Expr → Option Expr
  | none => none
  | some e => some e.relocate

def relocateParts : List TemplatePart → List TemplatePart
  | [] => []
  | .text s :: ps => .text s :: relocateParts ps
  | .hole e :: ps => .hole e.relocate :: relocateParts ps

def relocateProperties : List Property → List Property
  | [] => []
  | ⟨s, key, value⟩ :: ps => ⟨m.span s, key, relocateExpr? value⟩ :: relocateProperties ps

def relocateParams : List Param → List Param
  | [] => []
  | ⟨s, name, type, o, r, default, ms⟩ :: ps =>
    ⟨m.span s, name, type.map (·.relocate m), o, r, relocateExpr? default, ms⟩ :: relocateParams ps

def relocateBody : LambdaBody → LambdaBody
  | .block b => .block b.relocate
  | .expr e => .expr e.relocate

def Block.relocate : Block → Block
  | ⟨s, statements⟩ => ⟨m.span s, relocateStmts statements⟩

def relocateBlock? : Option Block → Option Block
  | none => none
  | some b => some b.relocate

def relocateDeclarators : List Declarator → List Declarator
  | [] => []
  | ⟨s, name, type, extra, init⟩ :: ds =>
    ⟨m.span s, name, type.map (·.relocate m), extra, relocateExpr? init⟩ :: relocateDeclarators ds

def VarDecl.relocate : VarDecl → VarDecl
  | ⟨s, declarators, type, modifiers, kind⟩ =>
    ⟨m.span s, relocateDeclarators declarators, type.map (·.relocate m), modifiers, kind⟩

def relocateVarDecl? : Option VarDecl → Option VarDecl
  | none => none
  | some v => some v.relocate

def relocateLabels : List (Option Expr) → List (Option Expr)
  | [] => []
  | l :: ls => relocateExpr? l :: relocateLabels ls

def relocateCases : List SwitchCase → List SwitchCase
  | [] => []
  | ⟨s, labels, body⟩ :: cs =>
    ⟨m.span s, relocateLabels labels, relocateStmts body⟩ :: relocateCases cs

def relocateHandlers : List Handler → List Handler
  | [] => []
  | ⟨s, param, types, body⟩ :: hs =>
    ⟨m.span s, param, relocateTypes m types, body.relocate⟩ :: relocateHandlers hs

def Callable.relocate : Callable → Callable
  | ⟨s, name, params, result, body, ms, tps, ds, c⟩ =>
    ⟨m.span s, name, relocateParams params, result.map (·.relocate m), relocateBlock? body, ms, tps, ds, c⟩

def relocateParams? : Option (List Param) → Option (List Param)
  | none => none
  | some ps => some (relocateParams ps)

def relocateMembers : List InterfaceMember → List InterfaceMember
  | [] => []
  | .signature ⟨s, name, type, params, o⟩ :: ms =>
    .signature ⟨m.span s, name, type.map (·.relocate m), relocateParams? params, o⟩ :: relocateMembers ms
  | .method f :: ms => .method f.relocate :: relocateMembers ms
  | .field v :: ms => .field v.relocate :: relocateMembers ms

def relocateEnumMembers : List EnumMember → List EnumMember
  | [] => []
  | ⟨s, name, value⟩ :: ms => ⟨m.span s, name, relocateExpr? value⟩ :: relocateEnumMembers ms

def Stmt.relocate : Stmt → Stmt
  | .block b => .block b.relocate
  | .varDecl v => .varDecl v.relocate
  | .destructuring s a names init kind => .destructuring (m.span s) a names init.relocate kind
  | .expression s e => .expression (m.span s) e.relocate
  | .ifElse s condition yes no =>
    .ifElse (m.span s) condition.relocate yes.relocate (relocateStmt? no)
  | .whileLoop s condition body => .whileLoop (m.span s) condition.relocate body.relocate
  | .doLoop s body condition => .doLoop (m.span s) body.relocate condition.relocate
  | .forLoop s decl init condition update body =>
    .forLoop (m.span s) (relocateVarDecl? decl) (relocateExprs init) (relocateExpr? condition)
      (relocateExprs update) body.relocate
  | .forEach s name type iterable overKeys body =>
    .forEach (m.span s) name (type.map (·.relocate m)) iterable.relocate overKeys body.relocate
  | .switch s subject cases => .switch (m.span s) subject.relocate (relocateCases cases)
  | .returnStmt s value => .returnStmt (m.span s) (relocateExpr? value)
  | .breakStmt s label => .breakStmt (m.span s) label
  | .continueStmt s label => .continueStmt (m.span s) label
  | .throwStmt s e => .throwStmt (m.span s) e.relocate
  | .tryStmt s block handlers finalizer =>
    .tryStmt (m.span s) block.relocate (relocateHandlers handlers) (relocateBlock? finalizer)
  | .empty s => .empty (m.span s)
  | .unparsed s text message => .unparsed (m.span s) text message
  | .function f => .function f.relocate
  | .classDecl s name superclass interfaces tps members ms ds =>
    .classDecl (m.span s) name (superclass.map (·.relocate m)) (relocateTypes m interfaces) tps
      (relocateStmts members) ms ds
  | .interface s name tps bases members =>
    .interface (m.span s) name tps (relocateTypes m bases) (relocateMembers members)
  | .enum s name members => .enum (m.span s) name (relocateEnumMembers members)
  | .typeAlias s name aliased => .typeAlias (m.span s) name (aliased.relocate m)
  | .namespaceDecl s name body => .namespaceDecl (m.span s) name (relocateStmts body)
  | .importLine s text => .importLine (m.span s) text

def relocateStmt? : Option Stmt → Option Stmt
  | none => none
  | some s => some s.relocate

def relocateStmts : List Stmt → List Stmt
  | [] => []
  | s :: ss => s.relocate :: relocateStmts ss

end

/-! ### Lists and options -/

def Property.relocate (p : Property) : Property :=
  ⟨m.span p.span, p.key, relocateExpr? m p.value⟩

def Param.relocate (p : Param) : Param :=
  { p with span := m.span p.span, type := p.type.map (·.relocate m)
           default := relocateExpr? m p.default }

def TemplatePart.relocate : TemplatePart → TemplatePart
  | .text s => .text s
  | .hole e => .hole (e.relocate m)

def Declarator.relocate (d : Declarator) : Declarator :=
  { d with span := m.span d.span, type := d.type.map (·.relocate m)
           init := relocateExpr? m d.init }

def SwitchCase.relocate (c : SwitchCase) : SwitchCase :=
  ⟨m.span c.span, relocateLabels m c.labels, relocateStmts m c.body⟩

def Handler.relocate (h : Handler) : Handler :=
  ⟨m.span h.span, h.param, relocateTypes m h.types, h.body.relocate m⟩

def Signature.relocate (s : Signature) : Signature :=
  { s with span := m.span s.span, type := s.type.map (·.relocate m)
           params := relocateParams? m s.params }

def InterfaceMember.relocate : InterfaceMember → InterfaceMember
  | .signature s => .signature (s.relocate m)
  | .method f => .method (f.relocate m)
  | .field v => .field (v.relocate m)

def EnumMember.relocate (x : EnumMember) : EnumMember :=
  ⟨m.span x.span, x.name, relocateExpr? m x.value⟩

@[simp]
theorem relocateTypes_eq_map (ts : List TypeRef) : relocateTypes m ts = ts.map (·.relocate m) := by
  induction ts with
  | nil => rfl
  | cons t ts ih => simp [relocateTypes, ih]

@[simp]
theorem relocateExpr?_eq_map (e : Option Expr) : relocateExpr? m e = e.map (·.relocate m) := by
  cases e <;> simp [relocateExpr?]

@[simp]
theorem relocateBlock?_eq_map (b : Option Block) : relocateBlock? m b = b.map (·.relocate m) := by
  cases b <;> simp [relocateBlock?]

@[simp]
theorem relocateVarDecl?_eq_map (v : Option VarDecl) : relocateVarDecl? m v = v.map (·.relocate m) := by
  cases v <;> simp [relocateVarDecl?]

@[simp]
theorem relocateStmt?_eq_map (s : Option Stmt) : relocateStmt? m s = s.map (·.relocate m) := by
  cases s <;> simp [relocateStmt?]

@[simp]
theorem relocateExprs_eq_map (es : List Expr) : relocateExprs m es = es.map (·.relocate m) := by
  induction es with
  | nil => rfl
  | cons e es ih => simp [relocateExprs, ih]

@[simp]
theorem relocateParts_eq_map (ps : List TemplatePart) : relocateParts m ps = ps.map (·.relocate m) := by
  induction ps with
  | nil => rfl
  | cons p ps ih => cases p <;> simp [relocateParts, TemplatePart.relocate, ih]

@[simp]
theorem relocateProperties_eq_map (ps : List Property) : relocateProperties m ps = ps.map (·.relocate m) := by
  induction ps with
  | nil => rfl
  | cons p ps ih => cases p; simp [relocateProperties, Property.relocate, ih]

@[simp]
theorem relocateParams_eq_map (ps : List Param) : relocateParams m ps = ps.map (·.relocate m) := by
  induction ps with
  | nil => rfl
  | cons p ps ih => cases p; simp [relocateParams, Param.relocate, ih]

@[simp]
theorem relocateParams?_eq_map (ps : Option (List Param)) : relocateParams? m ps = ps.map (·.map (·.relocate m)) := by
  cases ps <;> simp [relocateParams?]

@[simp]
theorem relocateDeclarators_eq_map (ds : List Declarator) : relocateDeclarators m ds = ds.map (·.relocate m) := by
  induction ds with
  | nil => rfl
  | cons d ds ih => cases d; simp [relocateDeclarators, Declarator.relocate, ih]

@[simp]
theorem relocateLabels_eq_map (ls : List (Option Expr)) : relocateLabels m ls = ls.map (·.map (·.relocate m)) := by
  induction ls with
  | nil => rfl
  | cons l ls ih => simp [relocateLabels, ih]

@[simp]
theorem relocateStmts_eq_map (ss : List Stmt) : relocateStmts m ss = ss.map (·.relocate m) := by
  induction ss with
  | nil => rfl
  | cons s ss ih => simp [relocateStmts, ih]

@[simp]
theorem relocateCases_eq_map (cs : List SwitchCase) : relocateCases m cs = cs.map (·.relocate m) := by
  induction cs with
  | nil => rfl
  | cons c cs ih => cases c; simp [relocateCases, SwitchCase.relocate, ih]

@[simp]
theorem relocateHandlers_eq_map (hs : List Handler) : relocateHandlers m hs = hs.map (·.relocate m) := by
  induction hs with
  | nil => rfl
  | cons h hs ih => cases h; simp [relocateHandlers, Handler.relocate, ih]

@[simp]
theorem relocateMembers_eq_map (ms : List InterfaceMember) : relocateMembers m ms = ms.map (·.relocate m) := by
  induction ms with
  | nil => rfl
  | cons x ms ih =>
    cases x with
    | signature x => cases x; simp [relocateMembers, InterfaceMember.relocate, Signature.relocate, ih]
    | method f => simp [relocateMembers, InterfaceMember.relocate, ih]
    | field v => simp [relocateMembers, InterfaceMember.relocate, ih]

@[simp]
theorem relocateEnumMembers_eq_map (ms : List EnumMember) : relocateEnumMembers m ms = ms.map (·.relocate m) := by
  induction ms with
  | nil => rfl
  | cons x ms ih => cases x; simp [relocateEnumMembers, EnumMember.relocate, ih]

/-! ### Texts -/

@[simp]
theorem TypeRef.name_relocate (t : TypeRef) : (t.relocate m).name = t.name := by
  cases t; rfl

mutual

@[simp]
theorem TypeRef.text_relocate : (t : TypeRef) → (t.relocate m).text = t.text
  | ⟨span, name, args, dimensions, form⟩ => by
    have hargs := TypeRef.texts_relocate args
    rw [relocateTypes_eq_map] at hargs
    simp only [TypeRef.relocate, TypeRef.text, relocateTypes_eq_map, hargs, List.isEmpty_map]

theorem TypeRef.texts_relocate : (ts : List TypeRef) → TypeRef.texts (relocateTypes m ts) = TypeRef.texts ts
  | [] => rfl
  | t :: ts => by
    rw [relocateTypes, TypeRef.texts, TypeRef.texts, TypeRef.text_relocate t, TypeRef.texts_relocate ts]

end

@[simp]
theorem Expr.tightness?_relocate (e : Expr) : (e.relocate m).tightness? = e.tightness? := by
  cases e <;> rfl

@[simp]
theorem Expr.operandText_relocate (e : Expr) (text : String) (outer : Nat) (isRight : Bool) :
    (e.relocate m).operandText text outer isRight = e.operandText text outer isRight := by
  unfold Expr.operandText
  rw [Expr.tightness?_relocate]

mutual

@[simp]
theorem Expr.text_relocate (e : Expr) : (e.relocate m).text = e.text := by
  have hnames (ps : List Param) : (relocateParams m ps).map (·.name) = ps.map (·.name) := by
    simp [Param.relocate, Function.comp_def]
  have hlength (es : List Expr) : (relocateExprs m es).length = es.length := by simp
  cases e <;> rw [Expr.relocate] <;> simp only [Expr.text, TypeRef.text_relocate,
    Expr.operandText_relocate, hnames, hlength, Expr.text_relocate, Expr.texts_relocate,
    Expr.partTexts_relocate, Expr.propertyTexts_relocate, Expr.bodyText_relocate]

theorem Expr.texts_relocate : (es : List Expr) → texts (relocateExprs m es) = texts es
  | [] => rfl
  | e :: es => by
    rw [relocateExprs, texts, texts, Expr.text_relocate e, Expr.texts_relocate es]

theorem Expr.partTexts_relocate : (ps : List TemplatePart) → partTexts (relocateParts m ps) = partTexts ps
  | [] => rfl
  | .text s :: ps => by
    rw [relocateParts, partTexts, partTexts, Expr.partTexts_relocate ps]
  | .hole e :: ps => by
    rw [relocateParts, partTexts, partTexts, Expr.text_relocate e, Expr.partTexts_relocate ps]

theorem Expr.propertyTexts_relocate : (ps : List Property) →
    propertyTexts (relocateProperties m ps) = propertyTexts ps
  | [] => rfl
  | ⟨s, key, none⟩ :: ps => by
    rw [relocateProperties, relocateExpr?, propertyTexts, propertyTexts, Expr.propertyTexts_relocate ps]
  | ⟨s, key, some e⟩ :: ps => by
    rw [relocateProperties, relocateExpr?, propertyTexts, propertyTexts,
      Expr.text_relocate e, Expr.propertyTexts_relocate ps]

theorem Expr.bodyText_relocate : (b : LambdaBody) → bodyText (relocateBody m b) = bodyText b
  | .block _ => rfl
  | .expr e => by rw [relocateBody, bodyText, bodyText, Expr.text_relocate e]

end

/-! ### Nodes -/

def Node.relocate : Node → Node
  | .type t => .type (t.relocate m)
  | .expr e => .expr (e.relocate m)
  | .property p => .property (p.relocate m)
  | .param p => .param (p.relocate m)
  | .declarator d => .declarator (d.relocate m)
  | .stmt s => .stmt (s.relocate m)
  | .switchCase c => .switchCase (c.relocate m)
  | .handler h => .handler (h.relocate m)
  | .signature s => .signature (s.relocate m)
  | .enumMember x => .enumMember (x.relocate m)

mutual

theorem TypeRef.nodes_relocate : (t : TypeRef) → (t.relocate m).nodes = t.nodes.map (Node.relocate m)
  | ⟨span, name, args, dimensions, form⟩ => by
    rw [TypeRef.relocate, TypeRef.nodes, typeNodes_relocate args]
    rfl

theorem typeNodes_relocate : (ts : List TypeRef) →
    typeNodes (relocateTypes m ts) = (typeNodes ts).map (Node.relocate m)
  | [] => rfl
  | t :: ts => by
    rw [relocateTypes, typeNodes, typeNodes, TypeRef.nodes_relocate t, typeNodes_relocate ts, map_append]

end

theorem typeNode_relocate (t : Option TypeRef) :
    typeNode (t.map (·.relocate m)) = (typeNode t).map (Node.relocate m) := by
  cases t with
  | none => rfl
  | some t => exact TypeRef.nodes_relocate m t

/-- The nodes of whatever is relocated, one statement for each kind of construct and for lists and options
of them. -/
theorem nodes_relocate : (∀ e : Expr, (e.relocate m).nodes = e.nodes.map (Node.relocate m)) ∧
    (∀ b, bodyNodes (relocateBody m b) = (bodyNodes b).map (Node.relocate m)) ∧
    (∀ b : Block, (b.relocate m).nodes = b.nodes.map (Node.relocate m)) ∧
    (∀ ss, stmtNodes (relocateStmts m ss) = (stmtNodes ss).map (Node.relocate m)) ∧
    (∀ s : Stmt, (s.relocate m).nodes = s.nodes.map (Node.relocate m)) ∧
    (∀ ms, enumMemberNodes (relocateEnumMembers m ms) = (enumMemberNodes ms).map (Node.relocate m)) ∧
    (∀ e, exprNode (relocateExpr? m e) = (exprNode e).map (Node.relocate m)) ∧
    (∀ ms, memberNodes (relocateMembers m ms) = (memberNodes ms).map (Node.relocate m)) ∧
    (∀ v : VarDecl, (v.relocate m).nodes = v.nodes.map (Node.relocate m)) ∧
    (∀ ds, declaratorNodes (relocateDeclarators m ds) = (declaratorNodes ds).map (Node.relocate m)) ∧
    (∀ f : Callable, (f.relocate m).nodes = f.nodes.map (Node.relocate m)) ∧
    (∀ b, blockNode (relocateBlock? m b) = (blockNode b).map (Node.relocate m)) ∧
    (∀ ps, paramNodes (relocateParams m ps) = (paramNodes ps).map (Node.relocate m)) ∧
    (∀ ps, paramsNode (relocateParams? m ps) = (paramsNode ps).map (Node.relocate m)) ∧
    (∀ hs, handlerNodes (relocateHandlers m hs) = (handlerNodes hs).map (Node.relocate m)) ∧
    (∀ cs, caseNodes (relocateCases m cs) = (caseNodes cs).map (Node.relocate m)) ∧
    (∀ ls, labelNodes (relocateLabels m ls) = (labelNodes ls).map (Node.relocate m)) ∧
    (∀ es, exprNodes (relocateExprs m es) = (exprNodes es).map (Node.relocate m)) ∧
    (∀ v, varDeclNode (relocateVarDecl? m v) = (varDeclNode v).map (Node.relocate m)) ∧
    (∀ s, stmtNode (relocateStmt? m s) = (stmtNode s).map (Node.relocate m)) ∧
    (∀ ps, propertyNodes (relocateProperties m ps) = (propertyNodes ps).map (Node.relocate m)) ∧
    ∀ ps, partNodes (relocateParts m ps) = (partNodes ps).map (Node.relocate m) := by
  apply Expr.relocate.mutual_induct
  all_goals
    intros
    simp only [Expr.relocate, relocateBody, Block.relocate, relocateStmts, Stmt.relocate, relocateEnumMembers,
      relocateExpr?, relocateMembers, VarDecl.relocate, relocateDeclarators, Callable.relocate, relocateBlock?,
      relocateParams, relocateParams?, relocateHandlers, relocateCases, relocateLabels, relocateExprs,
      relocateVarDecl?, relocateStmt?, relocateProperties, relocateParts, Expr.nodes, bodyNodes, Block.nodes, stmtNodes,
      Stmt.nodes, enumMemberNodes, exprNode, memberNodes, VarDecl.nodes, declaratorNodes, Callable.nodes, blockNode,
      paramNodes, paramsNode, handlerNodes, caseNodes, labelNodes, exprNodes, varDeclNode, stmtNode, propertyNodes,
      partNodes, Node.relocate, Property.relocate, Param.relocate, Declarator.relocate, SwitchCase.relocate,
      Handler.relocate, Signature.relocate, EnumMember.relocate, TypeRef.nodes_relocate, typeNode_relocate,
      typeNodes_relocate, map_cons, map_append, List.map_nil, *]

end

/-! ### Staying in place -/

@[simp]
theorem Relocation.span_stay (s : Span) : Relocation.stay.span s = s := rfl

theorem Relocation.map_line_stay (line : Option Nat) : line.map Relocation.stay.line = line := by
  cases line <;> rfl

mutual

theorem TypeRef.relocate_stay : (t : TypeRef) → t.relocate .stay = t
  | ⟨span, name, args, dimensions, form⟩ => by
    rw [TypeRef.relocate, relocateTypes_stay args, Relocation.span_stay]

theorem relocateTypes_stay : (ts : List TypeRef) → relocateTypes .stay ts = ts
  | [] => rfl
  | t :: ts => by rw [relocateTypes, TypeRef.relocate_stay t, relocateTypes_stay ts]

end

theorem relocate_stay : (∀ e : Expr, e.relocate .stay = e) ∧ (∀ b, relocateBody .stay b = b) ∧
    (∀ b : Block, b.relocate .stay = b) ∧ (∀ ss, relocateStmts .stay ss = ss) ∧ (∀ s : Stmt, s.relocate .stay = s) ∧
    (∀ ms, relocateEnumMembers .stay ms = ms) ∧ (∀ e, relocateExpr? .stay e = e) ∧
    (∀ ms, relocateMembers .stay ms = ms) ∧ (∀ v : VarDecl, v.relocate .stay = v) ∧
    (∀ ds, relocateDeclarators .stay ds = ds) ∧ (∀ f : Callable, f.relocate .stay = f) ∧
    (∀ b, relocateBlock? .stay b = b) ∧ (∀ ps, relocateParams .stay ps = ps) ∧ (∀ ps, relocateParams? .stay ps = ps) ∧
    (∀ hs, relocateHandlers .stay hs = hs) ∧ (∀ cs, relocateCases .stay cs = cs) ∧
    (∀ ls, relocateLabels .stay ls = ls) ∧ (∀ es, relocateExprs .stay es = es) ∧
    (∀ v, relocateVarDecl? .stay v = v) ∧ (∀ s, relocateStmt? .stay s = s) ∧
    (∀ ps, relocateProperties .stay ps = ps) ∧ ∀ ps, relocateParts .stay ps = ps := by
  apply Expr.relocate.mutual_induct
  all_goals
    intros
    simp only [Expr.relocate, relocateBody, Block.relocate, relocateStmts, Stmt.relocate, relocateEnumMembers,
      relocateExpr?, relocateMembers, VarDecl.relocate, relocateDeclarators, Callable.relocate, relocateBlock?,
      relocateParams, relocateParams?, relocateHandlers, relocateCases, relocateLabels, relocateExprs,
      relocateVarDecl?, relocateStmt?, relocateProperties, relocateParts, Relocation.span_stay, TypeRef.relocate_stay,
      relocateTypes_stay, Option.map_id_fun', id_eq, *]

end Blackboard.Source
