import Blackboard.Pseudo.Builtin
import Blackboard.Pseudo.Printer
import Blackboard.Pseudo.Reader

/-!
Well-formed pseudocode, as a tree and as a structured value. Tables say how many parts each kind of node
has and what it has to hold; clauses and branches stand only where they belong. The structured value of
a well-formed tree is well formed by those tables.
-/
namespace Blackboard.Pseudo

open List (lookup_cons)
open Expr (toJsons toJson data)

/-! ### Kinds of nodes -/

inductive Arity where
  | exactly (n : Nat)
  | atLeast (n : Nat)

def Arity.Admits : Arity → Nat → Prop
  | exactly n, k => k = n
  | atLeast n, k => n ≤ k

/-- What an expression of a kind needs: its parts, and the texts it holds. -/
structure Shape where
  arity : Arity
  texts : List String := []

def exprShape? : String → Option Shape
  | "literal" | "raw" => some { arity := .exactly 0, texts := ["text"] }
  | "identifier" => some { arity := .exactly 0, texts := ["name"] }
  | "binary_operation" => some { arity := .exactly 2, texts := ["op"] }
  | "unary_operation" => some { arity := .exactly 1, texts := ["op"] }
  | "function_call" => some { arity := .atLeast 0, texts := ["name"] }
  | "method_call" => some { arity := .atLeast 1, texts := ["name"] }
  | "builtin_template" => some { arity := .atLeast 1, texts := ["name", "template"] }
  | "member_access" => some { arity := .exactly 1, texts := ["member"] }
  | "array_access" => some { arity := .exactly 2 }
  | "array_literal" => some { arity := .atLeast 0 }
  | "conditional" => some { arity := .exactly 3 }
  | "new_object" => some { arity := .atLeast 0, texts := ["class_name"] }
  | _ => none

inductive Slot where
  | text | texts | params | expr | expr? | exprs

def stmtSlots? : String → Option (List (String × Slot))
  | "program" => some [("structural_errors", .texts)]
  | "variable_declaration" => some [("name", .text), ("type", .text)]
  | "constant_declaration" => some [("name", .text), ("value", .expr)]
  | "class_declaration" => some [("name", .text)]
  | "procedure" => some [("name", .text), ("params", .params)]
  | "function" => some [("name", .text), ("params", .params), ("return_type", .text)]
  | "if_statement" | "else_if_clause" | "while_loop" | "repeat_loop" => some [("condition", .expr)]
  | "else_clause" | "otherwise_branch" => some []
  | "for_loop" => some [("variable", .text), ("start", .expr), ("end", .expr), ("step", .expr?)]
  | "case_statement" => some [("subject", .expr)]
  | "case_branch" => some [("labels", .exprs)]
  | "assignment" => some [("target", .expr), ("value", .expr)]
  | "output" => some [("items", .exprs)]
  | "input" => some [("target", .expr)]
  | "call" => some [("call", .expr)]
  | "return" => some [("value", .expr?)]
  | "expression_statement" => some [("expression", .expr)]
  | "comment" => some [("text", .text)]
  | "unparsed" => some [("text", .text), ("message", .text)]
  | _ => none

def isOrdinary (kind : String) : Bool :=
  (stmtSlots? kind).isSome &&
    !(["program", "else_if_clause", "else_clause", "case_branch", "otherwise_branch"].contains kind)

/-- How statements may stand inside a statement of a kind: clauses end a choice, the last of which may
apply to all other cases; a choice between values has nothing but branches, of which the same is true;
and inside any other statement stand ordinary ones. -/
inductive Arranged : (kind : String) → (inner : List String) → Prop where
  | choice {body : List String} (n : Nat) {last : List String} :
      (∀ k ∈ body, isOrdinary k = true) → last = [] ∨ last = ["else_clause"] →
      Arranged "if_statement" (body ++ List.replicate n "else_if_clause" ++ last)
  | cases (n : Nat) {last : List String} : last = [] ∨ last = ["otherwise_branch"] →
      Arranged "case_statement" (List.replicate n "case_branch" ++ last)
  | ordinary {kind : String} {inner : List String} : kind ≠ "if_statement" →
      kind ≠ "case_statement" → (∀ k ∈ inner, isOrdinary k = true) → Arranged kind inner

namespace Template

/-- The names between the braces of a template, in the order in which they are filled. -/
def names : (opened : Option (List Char)) → List Char → List (List Char)
  | _, [] => []
  | none, '\x7b' :: '\x7b' :: cs => names none cs
  | none, '\x7d' :: '\x7d' :: cs => names none cs
  | none, '\x7b' :: cs => names (some []) cs
  | none, _ :: cs => names none cs
  | some name, '\x7d' :: cs => name.reverse :: names none cs
  | some name, c :: cs => names (some (c :: name)) cs

def Fits (template : String) (count : Nat) : Prop :=
  ∀ name ∈ names none template.toList, name = "target".toList ∨
    (name ≠ [] ∧ name.all Char.isDigit = true ∧ Text.decimalValue name < count)

instance (template : String) (count : Nat) : Decidable (Fits template count) :=
  inferInstanceAs (Decidable (∀ name ∈ names none template.toList, _))

end Template

/-! ### Trees -/

/-- An expression whose operators are operators of pseudocode and whose templates can be filled. -/
inductive Expr.WellFormed : Expr → Prop where
  | literal {text value line} : WellFormed (.literal text value line)
  | identifier {name declared line} : WellFormed (.identifier name declared line)
  | raw {text line} : WellFormed (.raw text line)
  | binary {op a b line} : op ∈ BinaryOp.known → WellFormed a → WellFormed b →
      WellFormed (.binary op a b line)
  | unary {op a line} : op = .not ∨ op = .neg → WellFormed a → WellFormed (.unary op a line)
  | call {name args declared line} : (∀ a ∈ args, WellFormed a) →
      WellFormed (.call name args declared line)
  | method {name target args passedOn line} : WellFormed target → (∀ a ∈ args, WellFormed a) →
      WellFormed (.method name target args passedOn line)
  | builtin {name template level target args line} : Template.Fits template args.length →
      WellFormed target → (∀ a ∈ args, WellFormed a) →
      WellFormed (.builtin name template level target args line)
  | member {target name line} : WellFormed target → WellFormed (.member target name line)
  | index {target i line} : WellFormed target → WellFormed i → WellFormed (.index target i line)
  | array {items line} : (∀ a ∈ items, WellFormed a) → WellFormed (.array items line)
  | conditional {c a b line} : WellFormed c → WellFormed a → WellFormed b →
      WellFormed (.conditional c a b line)
  | newObject {name args line} : (∀ a ∈ args, WellFormed a) → WellFormed (.newObject name args line)

/-- A statement whose expressions are well formed and whose statements are arranged properly. -/
inductive Stmt.WellFormed : Stmt → Prop where
  | mk {form children notes line} : (∀ e ∈ form.expressions, e.WellFormed) →
      Arranged form.kind (children.map fun s => s.form.kind) → (∀ s ∈ children, WellFormed s) →
      WellFormed (.mk form children notes line)

/-! ### Structured values -/

/-- A structured value that stands for an expression. -/
inductive ExprRecord : Json → Prop where
  | node {kind shape children data line} : exprShape? kind = some shape →
      shape.arity.Admits children.length →
      (∀ name ∈ shape.texts, ∃ s, data.lookup name = some (.string s)) →
      (kind = "builtin_template" → ∀ template, data.lookup "template" = some (.string template) →
        Template.Fits template (children.length - 1)) →
      (∀ j ∈ children, ExprRecord j) → ExprRecord (node kind children data line)

def Slot.Holds : Slot → Json → Prop
  | text, j => ∃ s, j = .string s
  | texts, j => ∃ ss, j = .strings ss
  | params, j => ∃ ps : List Param, j = .array (ps.map Param.toJson)
  | expr, j => ExprRecord j
  | expr?, j => j = .null ∨ ExprRecord j
  | exprs, j => ∃ js, j = .array js ∧ ∀ j ∈ js, ExprRecord j

def kindOf (j : Json) : String := (Fields.ofJson j).kind

inductive StmtRecord : Json → Prop where
  | node {kind slots children data line} : stmtSlots? kind = some slots →
      (∀ p ∈ slots, ∃ j, data.lookup p.1 = some j ∧ p.2.Holds j) →
      Arranged kind (children.map kindOf) → (∀ j ∈ children, StmtRecord j) →
      StmtRecord (node kind children data line)

theorem Expr.toJsons_eq_map (es : List Expr) : toJsons es = es.map toJson := by
  induction es with
  | nil => rfl
  | cons e es ih => rw [toJsons, ih, List.map_cons]

theorem Stmt.toJsons_eq_map (ss : List Stmt) : Stmt.toJsons ss = ss.map Stmt.toJson := by
  induction ss with
  | nil => rfl
  | cons s ss ih => rw [Stmt.toJsons, ih, List.map_cons]

theorem kindOf_node (kind : String) (children : List Json) (data : List (String × Json))
    (line : Option Nat) : kindOf (node kind children data line) = kind := rfl

theorem Stmt.kindOf_toJson (s : Stmt) : kindOf s.toJson = s.form.kind := by
  cases s
  rw [Stmt.toJson, kindOf_node, Stmt.form]

theorem exprRecords {es} (h : ∀ e ∈ es, ExprRecord e.toJson) : ∀ j ∈ toJsons es, ExprRecord j := by
  rw [Expr.toJsons_eq_map]
  intro j hj
  obtain ⟨e, he, rfl⟩ := List.mem_map.1 hj
  exact h e he

theorem Expr.WellFormed.record {e : Expr} (h : e.WellFormed) : ExprRecord e.toJson := by
  induction h with
  | literal | identifier | raw =>
    rw [toJson]
    exact .node rfl rfl (by simp [data, lookup_cons]) (by simp) (by simp)
  | binary _ _ _ iha ihb | index _ _ iha ihb =>
    rw [toJson]
    exact .node rfl rfl (by simp [lookup_cons]) (by simp) (by simp [iha, ihb])
  | unary _ _ ih | member _ ih =>
    rw [toJson]
    exact .node rfl rfl (by simp [lookup_cons]) (by simp) (by simp [ih])
  | call _ ih | array _ ih | newObject _ ih =>
    rw [toJson]
    exact .node rfl (Nat.zero_le _) (by simp [data, lookup_cons]) (by simp) (exprRecords ih)
  | method _ _ iht ih =>
    rw [toJson]
    refine .node rfl (Nat.succ_le_succ (Nat.zero_le _)) (by simp [lookup_cons]) (by simp) ?_
    intro j hj
    rcases List.mem_cons.1 hj with rfl | hj
    · exact iht
    · exact exprRecords ih j hj
  | @builtin name template level target args line hfits _ _ iht ih =>
    rw [toJson]
    refine .node rfl (Nat.succ_le_succ (Nat.zero_le _)) (by simp [lookup_cons]) ?_ ?_
    · rintro - t ht
      have ht : template = t := by simpa [lookup_cons] using ht
      rw [← ht, List.length_cons, Nat.add_sub_cancel, Expr.toJsons_eq_map, List.length_map]
      exact hfits
    · intro j hj
      rcases List.mem_cons.1 hj with rfl | hj
      · exact iht
      · exact exprRecords ih j hj
  | conditional _ _ _ ihc iha ihb =>
    rw [toJson]
    exact .node rfl rfl (by simp) (by simp) (by simp [ihc, iha, ihb])

theorem Form.slots {f : Form} (h : ∀ e ∈ f.expressions, e.WellFormed) : ∃ slots, stmtSlots? f.kind = some slots ∧
      ∀ p ∈ slots, ∃ j, f.data.lookup p.1 = some j ∧ p.2.Holds j := by
  have hr : ∀ e ∈ f.expressions, ExprRecord e.toJson := fun e he => (h e he).record
  cases f with
  | program language errors =>
    refine ⟨_, rfl, ?_⟩
    cases language <;> simp only [Form.data, field?, List.forall_mem_singleton, Slot.Holds]
    · exact ⟨_, rfl, errors, rfl⟩
    · exact ⟨_, rfl, errors, rfl⟩
  | procedure name ps =>
    refine ⟨_, rfl, ?_⟩
    simp only [Form.data, lookup_cons, Slot.Holds, List.forall_mem_cons, beq_self_eq_true]
    exact ⟨⟨_, rfl, _, rfl⟩, ⟨_, rfl, ps, rfl⟩, by simp⟩
  | function name ps returns =>
    refine ⟨_, rfl, ?_⟩
    simp only [Form.data, lookup_cons, Slot.Holds, List.forall_mem_cons, beq_self_eq_true]
    exact ⟨⟨_, rfl, _, rfl⟩, ⟨_, rfl, ps, rfl⟩, ⟨_, rfl, _, rfl⟩, by simp⟩
  | for_ name start stop step =>
    refine ⟨_, rfl, ?_⟩
    cases step <;> simp_all [Form.data, Form.expressions, lookup_cons, Slot.Holds, Json.ofOption]
  | caseBranch es | output es =>
    refine ⟨_, rfl, ?_⟩
    have hs : ∀ j ∈ toJsons es, ExprRecord j := exprRecords hr
    simpa [Form.data, lookup_cons, Slot.Holds] using hs
  | return_ value =>
    refine ⟨_, rfl, ?_⟩
    cases value <;> simp_all [Form.data, Form.expressions, Slot.Holds, Json.ofOption]
  | _ =>
    refine ⟨_, rfl, ?_⟩
    simp_all [Form.data, Form.expressions, lookup_cons, Slot.Holds]

theorem Stmt.WellFormed.record {s : Stmt} (h : s.WellFormed) : StmtRecord s.toJson := by
  induction h with
  | @mk form children notes line hes harranged _ ih =>
    rw [Stmt.toJson, Stmt.toJsons_eq_map]
    obtain ⟨slots, hslots, hdata⟩ := Form.slots hes
    refine .node hslots ?_ ?_ ?_
    · intro p hp
      obtain ⟨j, hj, hholds⟩ := hdata p hp
      refine ⟨j, ?_, hholds⟩
      rw [List.lookup_append, hj, Option.some_or]
    · rw [List.map_map]
      simpa only [Function.comp_def, Stmt.kindOf_toJson] using harranged
    · intro j hj
      obtain ⟨c, hc, rfl⟩ := List.mem_map.1 hj
      exact ih c hc

end Blackboard.Pseudo
