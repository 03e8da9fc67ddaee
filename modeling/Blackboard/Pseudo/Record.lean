import Blackboard.Json
import Blackboard.Pseudo.Stmt

/-! Pseudocode as structured values. Each node is an object of its kind, its parts, its line, and
whatever else belongs to its kind. -/
namespace Blackboard.Pseudo

def Value.toJson : Value → Json
  | null => .null
  | bool b => .bool b
  | int n => .int n
  | real d => .real d
  | text s => .string s

def node (kind : String) (children : List Json) (data : List (String × Json)) (line : Option Nat) : Json :=
  .object [("kind", .string kind), ("children", .array children), ("metadata", .object data),
    ("line", .ofOption .ofNat line)]

def field? {α : Type} (name : String) (f : α → Json) : Option α → List (String × Json)
  | none => []
  | some a => [(name, f a)]

namespace Expr

def kind : Expr → String
  | literal .. => "literal"
  | identifier .. => "identifier"
  | binary .. => "binary_operation"
  | unary .. => "unary_operation"
  | call .. => "function_call"
  | method .. => "method_call"
  | builtin .. => "builtin_template"
  | member .. => "member_access"
  | index .. => "array_access"
  | array .. => "array_literal"
  | conditional .. => "conditional"
  | newObject .. => "new_object"
  | raw .. => "raw"

def data : Expr → List (String × Json)
  | literal text value _ => ("text", .string text) :: field? "value" Value.toJson value
  | identifier name declared _ | call name _ declared _ =>
    ("name", .string name) :: field? "declared" .bool declared
  | binary op _ _ _ => [("op", .string op.text)]
  | unary op _ _ => [("op", .string op.text)]
  | method name _ _ passedOn _ => [("name", .string name), ("passthrough", .bool passedOn)]
  | builtin name template level _ _ _ =>
    [("name", .string name), ("template", .string template), ("precedence", .ofOption .ofNat level)]
  | member _ name _ => [("member", .string name)]
  | newObject name _ _ => [("class_name", .string name)]
  | raw text _ => [("text", .string text)]
  | index .. | array .. | conditional .. => []

mutual

def toJson : Expr → Json
  | literal t v l => node "literal" [] (literal t v l).data l
  | identifier n d l => node "identifier" [] (identifier n d l).data l
  | raw t l => node "raw" [] (raw t l).data l
  | binary op a b l => node "binary_operation" [a.toJson, b.toJson] [("op", .string op.text)] l
  | index a b l => node "array_access" [a.toJson, b.toJson] [] l
  | unary op a l => node "unary_operation" [a.toJson] [("op", .string op.text)] l
  | member a n l => node "member_access" [a.toJson] [("member", .string n)] l
  | call n args d l => node "function_call" (toJsons args) (call n [] d l).data l
  | array args l => node "array_literal" (toJsons args) [] l
  | newObject n args l => node "new_object" (toJsons args) [("class_name", .string n)] l
  | method n target args p l =>
    node "method_call" (target.toJson :: toJsons args) [("name", .string n), ("passthrough", .bool p)] l
  | builtin n t p target args l =>
    node "builtin_template" (target.toJson :: toJsons args)
      [("name", .string n), ("template", .string t), ("precedence", .ofOption .ofNat p)] l
  | conditional c a b l => node "conditional" [c.toJson, a.toJson, b.toJson] [] l

def toJsons : List Expr → List Json
  | [] => []
  | e :: es => e.toJson :: toJsons es

end

end Expr

def Param.toJson (p : Param) : Json := .object [("name", .string p.name), ("type", .string p.type)]

namespace Form

def kind : Form → String
  | program .. => "program"
  | variable_ .. => "variable_declaration"
  | constant .. => "constant_declaration"
  | class_ _ => "class_declaration"
  | procedure .. => "procedure"
  | function .. => "function"
  | ifThen _ => "if_statement"
  | elseIf _ => "else_if_clause"
  | else_ => "else_clause"
  | while_ _ => "while_loop"
  | for_ .. => "for_loop"
  | repeatUntil _ => "repeat_loop"
  | caseOf _ => "case_statement"
  | caseBranch .. => "case_branch"
  | otherwise _ => "otherwise_branch"
  | assign .. => "assignment"
  | output _ => "output"
  | input _ => "input"
  | call _ => "call"
  | return_ _ => "return"
  | expression _ => "expression_statement"
  | comment .. => "comment"
  | unparsed .. => "unparsed"

def data : Form → List (String × Json)
  | program language errors =>
    field? "language" .string language ++ [("structural_errors", .strings errors)]
  | variable_ name type => [("name", .string name), ("type", .string type)]
  | constant name value => [("name", .string name), ("value", value.toJson)]
  | class_ name => [("name", .string name)]
  | procedure name ps =>
    [("name", .string name), ("params", .array (ps.map Param.toJson)), ("return_type", .null)]
  | function name ps returns =>
    [("name", .string name), ("params", .array (ps.map Param.toJson)), ("return_type", .string returns)]
  | ifThen e | elseIf e | while_ e | repeatUntil e => [("condition", e.toJson)]
  | else_ => []
  | for_ name start stop step =>
    [("variable", .string name), ("start", start.toJson), ("end", stop.toJson), ("step", .ofOption Expr.toJson step)]
  | caseOf e => [("subject", e.toJson)]
  | caseBranch labels falls =>
    [("labels", .array (Expr.toJsons labels)), ("falls_through", .bool falls)]
  | otherwise falls => [("falls_through", .bool falls)]
  | assign target value => [("target", target.toJson), ("value", value.toJson)]
  | output items => [("items", .array (Expr.toJsons items))]
  | input e => [("target", e.toJson)]
  | call e => [("call", e.toJson)]
  | return_ value => [("value", .ofOption Expr.toJson value)]
  | expression e => [("expression", e.toJson)]
  | comment text annotates => [("text", .string text), ("annotation", .bool annotates)]
  | unparsed text message => [("text", .string text), ("message", .string message)]

end Form

namespace Stmt

mutual

def toJson : Stmt → Json
  | mk f cs notes l =>
    node f.kind (toJsons cs) (f.data ++ if notes.isEmpty then [] else [("annotations", .strings notes)]) l

def toJsons : List Stmt → List Json
  | [] => []
  | s :: ss => s.toJson :: toJsons ss

end

end Stmt

end Blackboard.Pseudo
