import Blackboard.Json
import Blackboard.Source.Node

/-!
Programs as structured values. `place` shows a span, since a span may be shown with the path of its
file.
-/
namespace Blackboard.Source

section

variable (place : Span → Json)

def record (kind : String) (span : Span) (fields : List (String × Json)) : Json :=
  .object (("span", place span) :: ("kind", .string kind) :: fields)

mutual

def TypeRef.toJson : TypeRef → Json
  | ⟨span, name, args, dimensions, form⟩ => record place "type" span [
    ("name", .string name), ("args", .array (typesJson args)),
    ("dimensions", .ofNat dimensions), ("form", .string form.name)]

def typesJson : List TypeRef → List Json
  | [] => []
  | t :: ts => t.toJson :: typesJson ts

end

def typeJson? (t : Option TypeRef) : Json := .ofOption (TypeRef.toJson place) t

def numeralJson : Numeral → Json
  | .int n => .int n
  | .real d => .real d

mutual

def Expr.toJson : Expr → Json
  | .number s value raw =>
    record place "number" s [("value", numeralJson value), ("raw", .string raw)]
  | .string s value => record place "string" s [("value", .string value)]
  | .char s value => record place "char" s [("value", .string value)]
  | .boolean s value => record place "boolean" s [("value", .bool value)]
  | .null s => record place "null" s []
  | .template s parts => record place "template" s [("parts", .array (partsJson parts))]
  | .identifier s name => record place "identifier" s [("name", .string name)]
  | .member s target name optional => record place "member" s [
    ("target", target.toJson), ("member", .string name), ("optional", .bool optional)]
  | .index s target i => record place "index" s [("target", target.toJson), ("index", i.toJson)]
  | .call s callee args => record place "call" s [
    ("callee", callee.toJson), ("args", .array (exprsJson args))]
  | .newObject s type args => record place "new_object" s [
    ("class_type", type.toJson place), ("args", .array (exprsJson args))]
  | .newArray s element sizes dimensions => record place "new_array" s [
    ("element_type", element.toJson place), ("sizes", .array (exprsJson sizes)),
    ("dimensions", .ofNat dimensions), ("initializer", .null)]
  | .newArrayOf s element dimensions r items => record place "new_array" s [
    ("element_type", element.toJson place), ("sizes", .array []),
    ("dimensions", .ofNat dimensions),
    ("initializer", record place "array" r [("items", .array (exprsJson items))])]
  | .array s items => record place "array" s [("items", .array (exprsJson items))]
  | .object s properties => record place "object" s [
    ("properties", .array (propertiesJson properties))]
  | .binary s op left right => record place "binary" s [
    ("op", .string op.text), ("left", left.toJson), ("right", right.toJson)]
  | .unary s op operand => record place "unary" s [
    ("op", .string op.text), ("operand", operand.toJson)]
  | .update s op before target => record place "update" s [
    ("op", .string op.text), ("prefix", .bool before), ("target", target.toJson)]
  | .assignment s op target value => record place "assignment" s [
    ("op", .string op.text), ("target", target.toJson), ("value", value.toJson)]
  | .conditional s condition yes no => record place "conditional" s [
    ("condition", condition.toJson), ("then_expr", yes.toJson), ("else_expr", no.toJson)]
  | .cast s type operand => record place "cast" s [
    ("target_type", type.toJson place), ("expression", operand.toJson)]
  | .lambda s params body isAsync => record place "lambda" s [
    ("params", .array (paramsJson params)), ("body", bodyJson body), ("is_async", .bool isAsync)]
  | .await s operand => record place "await" s [("expression", operand.toJson)]
  | .spread s operand => record place "spread" s [("expression", operand.toJson)]

def exprsJson : List Expr → List Json
  | [] => []
  | e :: es => e.toJson :: exprsJson es

def exprJson? : Option Expr → Json
  | none => .null
  | some e => e.toJson

def partsJson : List TemplatePart → List Json
  | [] => []
  | .text s :: ps => .string s :: partsJson ps
  | .hole e :: ps => e.toJson :: partsJson ps

def propertiesJson : List Property → List Json
  | [] => []
  | ⟨s, key, value⟩ :: ps =>
    record place "property" s [("key", .string key), ("value", exprJson? value)] :: propertiesJson ps

def paramsJson : List Param → List Json
  | [] => []
  | ⟨s, name, type, isOptional, isRest, default, modifiers⟩ :: ps =>
    record place "parameter" s [ ("name", .string name), ("param_type", typeJson? place type),
      ("is_optional", .bool isOptional), ("is_rest", .bool isRest),
      ("default", exprJson? default), ("modifiers", .strings modifiers)] :: paramsJson ps

def bodyJson : LambdaBody → Json
  | .block b => b.toJson
  | .expr e => e.toJson

def Block.toJson : Block → Json
  | ⟨s, statements⟩ => record place "block" s [("statements", .array (stmtsJson statements))]

def blockJson? : Option Block → Json
  | none => .null
  | some b => b.toJson

def declaratorsJson : List Declarator → List Json
  | [] => []
  | ⟨s, name, type, extra, init⟩ :: ds =>
    record place "declarator" s [ ("name", .string name), ("var_type", typeJson? place type),
      ("extra_dimensions", .ofNat extra), ("initializer", exprJson? init)] :: declaratorsJson ds

def VarDecl.toJson : VarDecl → Json
  | ⟨s, declarators, type, modifiers, kind⟩ => record place "variable_declaration" s [
    ("declarators", .array (declaratorsJson declarators)), ("var_type", typeJson? place type),
    ("modifiers", .strings modifiers),
    ("declaration_kind", .ofOption (fun k => .string (VarKind.text k)) kind)]

def varDeclJson? : Option VarDecl → Json
  | none => .null
  | some v => v.toJson

def labelsJson : List (Option Expr) → List Json
  | [] => []
  | l :: ls => exprJson? l :: labelsJson ls

def casesJson : List SwitchCase → List Json
  | [] => []
  | ⟨s, labels, body⟩ :: cs =>
    record place "switch_case" s [
      ("labels", .array (labelsJson labels)), ("body", .array (stmtsJson body))] :: casesJson cs

def handlersJson : List Handler → List Json
  | [] => []
  | ⟨s, param, types, body⟩ :: hs =>
    record place "catch" s [ ("param", .ofOption .string param), ("param_types", .array (typesJson place types)),
      ("body", body.toJson)] :: handlersJson hs

def Callable.toJson : Callable → Json
  | ⟨s, name, params, result, body, modifiers, typeParams, decorators, isConstructor⟩ =>
    record place "function" s [ ("name", .string name), ("params", .array (paramsJson params)),
      ("return_type", typeJson? place result), ("body", blockJson? body),
      ("modifiers", .strings modifiers), ("type_params", .strings typeParams),
      ("decorators", .strings decorators), ("is_constructor", .bool isConstructor)]

def paramsJson? : Option (List Param) → Json
  | none => .null
  | some ps => .array (paramsJson ps)

def membersJson : List InterfaceMember → List Json
  | [] => []
  | .signature ⟨s, name, type, params, isOptional⟩ :: ms =>
    record place "interface_member" s [ ("name", .string name), ("member_type", typeJson? place type),
      ("params", paramsJson? params), ("is_optional", .bool isOptional)] :: membersJson ms
  | .method f :: ms => f.toJson :: membersJson ms
  | .field v :: ms => v.toJson :: membersJson ms

def enumMembersJson : List EnumMember → List Json
  | [] => []
  | ⟨s, name, value⟩ :: ms =>
    record place "enum_member" s [("name", .string name), ("value", exprJson? value)] :: enumMembersJson ms

def Stmt.toJson : Stmt → Json
  | .block b => b.toJson
  | .varDecl v => v.toJson
  | .function f => f.toJson
  | .destructuring s isArray names init kind => record place "destructuring" s [
    ("pattern", .string (if isArray then "array" else "object")), ("names", .strings names),
    ("initializer", init.toJson),
    ("declaration_kind", .ofOption (fun k => .string (VarKind.text k)) kind)]
  | .expression s e => record place "expression_statement" s [("expression", e.toJson)]
  | .ifElse s condition yes no => record place "if" s [
    ("condition", condition.toJson), ("then_branch", yes.toJson), ("else_branch", stmtJson? no)]
  | .whileLoop s condition body => record place "while" s [
    ("condition", condition.toJson), ("body", body.toJson)]
  | .doLoop s body condition => record place "do_while" s [
    ("body", body.toJson), ("condition", condition.toJson)]
  | .forLoop s decl init condition update body => record place "for" s [
    ("init_declaration", varDeclJson? decl), ("init_expressions", .array (exprsJson init)),
    ("condition", exprJson? condition), ("update", .array (exprsJson update)),
    ("body", body.toJson)]
  | .forEach s name type iterable overKeys body => record place "for_each" s [
    ("variable", .string name), ("var_type", typeJson? place type),
    ("iterable", iterable.toJson), ("iteration", .string (if overKeys then "in" else "of")),
    ("body", body.toJson)]
  | .switch s subject cases => record place "switch" s [
    ("discriminant", subject.toJson), ("cases", .array (casesJson cases))]
  | .returnStmt s value => record place "return" s [("value", exprJson? value)]
  | .breakStmt s label => record place "break" s [("label", .ofOption .string label)]
  | .continueStmt s label => record place "continue" s [("label", .ofOption .string label)]
  | .throwStmt s e => record place "throw" s [("expression", e.toJson)]
  | .tryStmt s block handlers finalizer => record place "try" s [
    ("block", block.toJson), ("handlers", .array (handlersJson handlers)),
    ("finalizer", blockJson? finalizer)]
  | .empty s => record place "empty" s []
  | .unparsed s text message => record place "unparsed" s [
    ("text", .string text), ("message", .string message)]
  | .classDecl s name superclass interfaces typeParams members modifiers decorators =>
    record place "class" s [ ("name", .string name), ("superclass", typeJson? place superclass),
      ("interfaces", .array (typesJson place interfaces)), ("type_params", .strings typeParams),
      ("members", .array (stmtsJson members)), ("modifiers", .strings modifiers),
      ("decorators", .strings decorators)]
  | .interface s name typeParams bases members => record place "interface" s [
    ("name", .string name), ("type_params", .strings typeParams),
    ("extends", .array (typesJson place bases)), ("members", .array (membersJson members))]
  | .enum s name members => record place "enum" s [
    ("name", .string name), ("members", .array (enumMembersJson members))]
  | .typeAlias s name aliased => record place "type_alias" s [
    ("name", .string name), ("aliased", aliased.toJson place)]
  | .namespaceDecl s name body => record place "namespace" s [
    ("name", .string name), ("body", .array (stmtsJson body))]
  | .importLine s text => record place "import" s [("text", .string text)]

def stmtJson? : Option Stmt → Json
  | none => .null
  | some s => s.toJson

def stmtsJson : List Stmt → List Json
  | [] => []
  | s :: ss => s.toJson :: stmtsJson ss

end

def Program.toJson (p : Program) : Json :=
  record place "program" p.span [ ("language", .string p.language.name), ("body", .array (stmtsJson place p.body)),
    ("structural_errors", .strings p.structuralErrors)]

end

def Span.toList (path : Option String) (s : Span) : Json :=
  .array ([.ofNat s.line, .ofNat s.column, .ofNat s.endLine, .ofNat s.endColumn] ++ (path.map Json.string).toList)

def Span.toJson (path : Option String) (s : Span) : Json := .object [
  ("s_line", .ofNat s.line), ("s_col", .ofNat s.column), ("e_line", .ofNat s.endLine),
  ("e_col", .ofNat s.endColumn), ("file_path", .ofOption .string path)]

end Blackboard.Source
