import Blackboard.Source.Program

/-! The nodes of a program: each construct before its parts, and the parts in their fixed order. -/
namespace Blackboard.Source

inductive Node where
  | type (t : TypeRef)
  | expr (e : Expr)
  | property (p : Property)
  | param (p : Param)
  | declarator (d : Declarator)
  | stmt (s : Stmt)
  | switchCase (c : SwitchCase)
  | handler (h : Handler)
  | signature (s : Signature)
  | enumMember (m : EnumMember)

mutual

def TypeRef.nodes : TypeRef → List Node
  | ⟨span, name, args, dimensions, form⟩ =>
    .type ⟨span, name, args, dimensions, form⟩ :: typeNodes args

def typeNodes : List TypeRef → List Node
  | [] => []
  | t :: ts => t.nodes ++ typeNodes ts

end

def typeNode : Option TypeRef → List Node
  | none => []
  | some t => t.nodes

mutual

def Expr.nodes : Expr → List Node
  | .template s parts => .expr (.template s parts) :: partNodes parts
  | .member s target name optional => .expr (.member s target name optional) :: target.nodes
  | .index s target i => .expr (.index s target i) :: (target.nodes ++ i.nodes)
  | .call s callee args => .expr (.call s callee args) :: (callee.nodes ++ exprNodes args)
  | .newObject s type args => .expr (.newObject s type args) :: (type.nodes ++ exprNodes args)
  | .newArray s element sizes d =>
    .expr (.newArray s element sizes d) :: (element.nodes ++ exprNodes sizes)
  | .newArrayOf s element d r items =>
    .expr (.newArrayOf s element d r items) :: (element.nodes ++ .expr (.array r items) :: exprNodes items)
  | .array s items => .expr (.array s items) :: exprNodes items
  | .object s properties => .expr (.object s properties) :: propertyNodes properties
  | .binary s op left right => .expr (.binary s op left right) :: (left.nodes ++ right.nodes)
  | .unary s op operand => .expr (.unary s op operand) :: operand.nodes
  | .update s op before target => .expr (.update s op before target) :: target.nodes
  | .assignment s op target value =>
    .expr (.assignment s op target value) :: (target.nodes ++ value.nodes)
  | .conditional s condition yes no =>
    .expr (.conditional s condition yes no) :: (condition.nodes ++ yes.nodes ++ no.nodes)
  | .cast s type operand => .expr (.cast s type operand) :: (type.nodes ++ operand.nodes)
  | .lambda s params body isAsync =>
    .expr (.lambda s params body isAsync) :: (paramNodes params ++ bodyNodes body)
  | .await s operand => .expr (.await s operand) :: operand.nodes
  | .spread s operand => .expr (.spread s operand) :: operand.nodes
  | .number s value raw => [.expr (.number s value raw)]
  | .string s value => [.expr (.string s value)]
  | .char s value => [.expr (.char s value)]
  | .boolean s value => [.expr (.boolean s value)]
  | .null s => [.expr (.null s)]
  | .identifier s name => [.expr (.identifier s name)]

def exprNodes : List Expr → List Node
  | [] => []
  | e :: es => e.nodes ++ exprNodes es

def exprNode : Option Expr → List Node
  | none => []
  | some e => e.nodes

def partNodes : List TemplatePart → List Node
  | [] => []
  | .text _ :: ps => partNodes ps
  | .hole e :: ps => e.nodes ++ partNodes ps

def propertyNodes : List Property → List Node
  | [] => []
  | ⟨s, key, value⟩ :: ps => .property ⟨s, key, value⟩ :: (exprNode value ++ propertyNodes ps)

def paramNodes : List Param → List Node
  | [] => []
  | ⟨s, name, type, o, r, default, ms⟩ :: ps =>
    .param ⟨s, name, type, o, r, default, ms⟩ :: (typeNode type ++ exprNode default ++ paramNodes ps)

def bodyNodes : LambdaBody → List Node
  | .block b => b.nodes
  | .expr e => e.nodes

def Block.nodes : Block → List Node
  | ⟨s, statements⟩ => .stmt (.block ⟨s, statements⟩) :: stmtNodes statements

def blockNode : Option Block → List Node
  | none => []
  | some b => b.nodes

def declaratorNodes : List Declarator → List Node
  | [] => []
  | ⟨s, name, type, extra, init⟩ :: ds =>
    .declarator ⟨s, name, type, extra, init⟩ :: (typeNode type ++ exprNode init ++ declaratorNodes ds)

def VarDecl.nodes : VarDecl → List Node
  | ⟨s, declarators, type, modifiers, kind⟩ =>
    .stmt (.varDecl ⟨s, declarators, type, modifiers, kind⟩) :: (declaratorNodes declarators ++ typeNode type)

def varDeclNode : Option VarDecl → List Node
  | none => []
  | some v => v.nodes

def labelNodes : List (Option Expr) → List Node
  | [] => []
  | l :: ls => exprNode l ++ labelNodes ls

def caseNodes : List SwitchCase → List Node
  | [] => []
  | ⟨s, labels, body⟩ :: cs =>
    .switchCase ⟨s, labels, body⟩ :: (labelNodes labels ++ stmtNodes body ++ caseNodes cs)

def handlerNodes : List Handler → List Node
  | [] => []
  | ⟨s, param, types, body⟩ :: hs =>
    .handler ⟨s, param, types, body⟩ :: (typeNodes types ++ body.nodes ++ handlerNodes hs)

def Callable.nodes : Callable → List Node
  | ⟨s, name, params, result, body, ms, tps, ds, c⟩ =>
    .stmt (.function ⟨s, name, params, result, body, ms, tps, ds, c⟩) ::
      (paramNodes params ++ typeNode result ++ blockNode body)

def paramsNode : Option (List Param) → List Node
  | none => []
  | some ps => paramNodes ps

def memberNodes : List InterfaceMember → List Node
  | [] => []
  | .signature ⟨s, name, type, params, o⟩ :: ms =>
    .signature ⟨s, name, type, params, o⟩ :: (typeNode type ++ paramsNode params ++ memberNodes ms)
  | .method f :: ms => f.nodes ++ memberNodes ms
  | .field v :: ms => v.nodes ++ memberNodes ms

def enumMemberNodes : List EnumMember → List Node
  | [] => []
  | ⟨s, name, value⟩ :: ms => .enumMember ⟨s, name, value⟩ :: (exprNode value ++ enumMemberNodes ms)

def Stmt.nodes : Stmt → List Node
  | .block b => b.nodes
  | .varDecl v => v.nodes
  | .function f => f.nodes
  | .destructuring s a names init kind =>
    .stmt (.destructuring s a names init kind) :: init.nodes
  | .expression s e => .stmt (.expression s e) :: e.nodes
  | .ifElse s condition yes no =>
    .stmt (.ifElse s condition yes no) :: (condition.nodes ++ yes.nodes ++ stmtNode no)
  | .whileLoop s condition body =>
    .stmt (.whileLoop s condition body) :: (condition.nodes ++ body.nodes)
  | .doLoop s body condition =>
    .stmt (.doLoop s body condition) :: (body.nodes ++ condition.nodes)
  | .forLoop s decl init condition update body =>
    .stmt (.forLoop s decl init condition update body) ::
      (varDeclNode decl ++ exprNodes init ++ exprNode condition ++ exprNodes update ++ body.nodes)
  | .forEach s name type iterable overKeys body =>
    .stmt (.forEach s name type iterable overKeys body) :: (typeNode type ++ iterable.nodes ++ body.nodes)
  | .switch s subject cases => .stmt (.switch s subject cases) :: (subject.nodes ++ caseNodes cases)
  | .returnStmt s value => .stmt (.returnStmt s value) :: exprNode value
  | .throwStmt s e => .stmt (.throwStmt s e) :: e.nodes
  | .tryStmt s block handlers finalizer =>
    .stmt (.tryStmt s block handlers finalizer) :: (block.nodes ++ handlerNodes handlers ++ blockNode finalizer)
  | .classDecl s name superclass interfaces tps members ms ds =>
    .stmt (.classDecl s name superclass interfaces tps members ms ds) ::
      (typeNode superclass ++ typeNodes interfaces ++ stmtNodes members)
  | .interface s name tps bases members =>
    .stmt (.interface s name tps bases members) :: (typeNodes bases ++ memberNodes members)
  | .enum s name members => .stmt (.enum s name members) :: enumMemberNodes members
  | .typeAlias s name aliased => .stmt (.typeAlias s name aliased) :: aliased.nodes
  | .namespaceDecl s name body => .stmt (.namespaceDecl s name body) :: stmtNodes body
  | .breakStmt s label => [.stmt (.breakStmt s label)]
  | .continueStmt s label => [.stmt (.continueStmt s label)]
  | .empty s => [.stmt (.empty s)]
  | .unparsed s text message => [.stmt (.unparsed s text message)]
  | .importLine s text => [.stmt (.importLine s text)]

def stmtNode : Option Stmt → List Node
  | none => []
  | some s => s.nodes

def stmtNodes : List Stmt → List Node
  | [] => []
  | s :: ss => s.nodes ++ stmtNodes ss

end

def Program.nodes (p : Program) : List Node := stmtNodes p.body

def Expr.kind : Expr → String
  | .number .. => "number"
  | .string .. => "string"
  | .char .. => "char"
  | .boolean .. => "boolean"
  | .null .. => "null"
  | .template .. => "template"
  | .identifier .. => "identifier"
  | .member .. => "member"
  | .index .. => "index"
  | .call .. => "call"
  | .newObject .. => "new_object"
  | .newArray .. | .newArrayOf .. => "new_array"
  | .array .. => "array"
  | .object .. => "object"
  | .binary .. => "binary"
  | .unary .. => "unary"
  | .update .. => "update"
  | .assignment .. => "assignment"
  | .conditional .. => "conditional"
  | .cast .. => "cast"
  | .lambda .. => "lambda"
  | .await .. => "await"
  | .spread .. => "spread"

def Stmt.kind : Stmt → String
  | .block _ => "block"
  | .varDecl _ => "variable_declaration"
  | .destructuring .. => "destructuring"
  | .expression .. => "expression_statement"
  | .ifElse .. => "if"
  | .whileLoop .. => "while"
  | .doLoop .. => "do_while"
  | .forLoop .. => "for"
  | .forEach .. => "for_each"
  | .switch .. => "switch"
  | .returnStmt .. => "return"
  | .breakStmt .. => "break"
  | .continueStmt .. => "continue"
  | .throwStmt .. => "throw"
  | .tryStmt .. => "try"
  | .empty .. => "empty"
  | .unparsed .. => "unparsed"
  | .function _ => "function"
  | .classDecl .. => "class"
  | .interface .. => "interface"
  | .enum .. => "enum"
  | .typeAlias .. => "type_alias"
  | .namespaceDecl .. => "namespace"
  | .importLine .. => "import"

def Node.kind : Node → String
  | type _ => "type"
  | expr e => e.kind
  | property _ => "property"
  | param _ => "parameter"
  | declarator _ => "declarator"
  | stmt s => s.kind
  | switchCase _ => "switch_case"
  | handler _ => "catch"
  | signature _ => "interface_member"
  | enumMember _ => "enum_member"

end Blackboard.Source
