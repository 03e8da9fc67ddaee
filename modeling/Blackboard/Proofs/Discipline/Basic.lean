import Blackboard.Proofs.Discipline.Order
import Blackboard.Proofs.Reading.Texts
import Blackboard.Proofs.Scope.Chain

/-!
Disciplines: properties that every step of a conversion keeps. A discipline says what the visible
scopes, the notes, the types and the results of a conversion are like, and which nodes of the source it
admits. Its laws are about single declarations, texts and types; that a whole conversion keeps it is
proved once for all disciplines.
-/
namespace Blackboard

namespace Source

def Expr.calleeName? : Expr → Option String
  | .identifier _ name | .member _ _ name _ => some name
  | _ => none

mutual

/-- The name that an expression calls; what is converted like a part of it calls what that part calls. -/
def Expr.calledNames : Expr → List String
  | .call _ callee _ => callee.calleeName?.toList
  | .template _ parts => partsCalledNames parts
  | .unary _ .plus e | .cast _ _ e | .await _ e | .spread _ e => e.calledNames
  | _ => []

def partsCalledNames : List TemplatePart → List String
  | [] => []
  | .text _ :: ps => partsCalledNames ps
  | .hole e :: ps => e.calledNames ++ partsCalledNames ps

end

end Source

namespace Pseudo

def Expr.isJoin : Expr → Bool
  | binary .concat .. => true
  | _ => false

def Expr.Unjoined (e : Expr) : Prop := ∀ x ∈ e.nodes, x.isJoin = false

mutual

def Stmt.all : Stmt → List Stmt
  | .mk f cs notes line => .mk f cs notes line :: Stmt.allOf cs

def Stmt.allOf : List Stmt → List Stmt
  | [] => []
  | s :: ss => s.all ++ Stmt.allOf ss

end

/-- Whether a statement is neither a call, nor a callable, nor a comment, nor around them. -/
def Form.isOrdinary : Form → Bool
  | program .. | class_ _ | procedure .. | function .. | call _ | expression _ | comment ..
  | unparsed .. => false
  | _ => true

end Pseudo

open Conversion Pseudo Scopes Source

/-- What a conversion keeps to. Names are those of callables that are still to be defined. -/
structure Discipline where
  language : Language
  /-- of the visible scopes, the innermost first -/
  Visible : (String → Prop) → List Scope → Prop
  /-- of remarks; where it fails of one that is made, nothing is promised -/
  Allows : Diagnostic → Prop
  /-- of the texts of notes and comments -/
  Text : String → Prop
  /-- whether operations may join texts -/
  joins : Prop
  /-- whether callables may nest too deeply to be converted -/
  deep : Prop
  /-- of the scalar types of variables and results -/
  Base : Scalar → Prop
  /-- of the sizes of arrays -/
  Size : String → Prop
  /-- of a callable's name and the type that it is declared to return -/
  Entry : String → Option String → Prop
  /-- of the nodes of the source -/
  Admits : (String → Prop) → Source.Node → Prop
  /-- of the classes around a statement -/
  Owned : Owner → Prop
  /-- of the statements of the result -/
  Form : Pseudo.Form → Prop

namespace Discipline

variable (T : Discipline)

def Kind (k : Pseudo.Kind) : Prop := T.Base k.base ∧ ∀ size ∈ k.sizes, T.Size size

def Expr (e : Pseudo.Expr) : Prop := ¬ T.joins → e.Unjoined

/-- What an expression that calls the given names is converted to. If it is a call of a name at all, it is
one of these or of the constructor of a superclass. -/
structure Converts (names : List String) (a : Pseudo.Expr) : Prop where
  expr : T.Expr a
  named : ∀ name, Convert.calledName? a = some name → name ∈ names ∨ ∃ o, T.Owned o ∧ o.superclass = some name

/-- A statement of the result, with all statements in it. -/
inductive Stmt : Pseudo.Stmt → Prop where
  | mk {form : Pseudo.Form} {children : List Pseudo.Stmt} {notes : List String} {line : Option Nat}
    (form_ok : T.Form form) (notes_ok : ∀ n ∈ notes, T.Text n)
    (children_ok : ∀ s ∈ children, Stmt s) : Stmt (.mk form children notes line)

def Stmts (ss : List Pseudo.Stmt) : Prop := ∀ s ∈ ss, T.Stmt s

mutual

theorem Stmt.of_mem_all {T : Discipline} (s : Pseudo.Stmt) (h : T.Stmt s) :
    ∀ t ∈ s.all, T.Form t.form ∧ ∀ n ∈ t.notes, T.Text n := by
  match s with
  | .mk f cs notes line =>
    obtain ⟨hform, hnotes, hchildren⟩ := h
    rw [Pseudo.Stmt.all, List.forall_mem_cons]
    exact ⟨⟨hform, hnotes⟩, Stmts.of_mem_allOf cs hchildren⟩

theorem Stmts.of_mem_allOf {T : Discipline} (ss : List Pseudo.Stmt) (h : T.Stmts ss) :
    ∀ t ∈ Pseudo.Stmt.allOf ss, T.Form t.form ∧ ∀ n ∈ t.notes, T.Text n := by
  match ss with
  | [] => exact nofun
  | s :: ss =>
    have hall := List.forall_mem_cons.1 h
    rw [Pseudo.Stmt.allOf, List.forall_mem_append]
    exact ⟨Stmt.of_mem_all s hall.1, Stmts.of_mem_allOf ss hall.2⟩

end

def Remarks (ds : List Diagnostic) : Prop := ∀ d ∈ ds, T.Allows d

abbrev Nodes (P : String → Prop) (ns : List Source.Node) : Prop := NodesInOrder T.Admits P ns

/-! ### Laws -/

structure TextLaws : Prop where
  text_of_line : ∀ {s : String}, '\n' ∉ s.toList → T.Text s
  text_append : ∀ {a b : String}, T.Text (a ++ b) ↔ T.Text a ∧ T.Text b
  text_of_node : ∀ {P n s}, T.Admits P n → s ∈ n.texts → T.Text s
  owner_name : ∀ {o}, T.Owned o → T.Text o.name
  owner_superclass : ∀ {o : Owner} {s}, T.Owned o → o.superclass = some s → T.Text s

structure TypeLaws : Prop where
  joins_of_string : T.Base .string → T.joins
  joins_of_template : ∀ {P span parts}, T.Admits P (.expr (.template span parts)) → T.joins
  base_integer : T.Base .integer
  base_character : T.Base .string → T.Base (characterType T.language)
  base_unknown : ∀ {d name}, T.Allows d → d.cause = .inferenceFallback name → T.Base .string
  base_input : ∀ {name}, (inputSources T.language).contains name → T.Base .string
  base_declared : ∀ {P} {v : VarDecl} {d t}, T.Admits P (.stmt (.varDecl v)) → d ∈ v.declarators →
    (d.type <|> v.type) = some t → T.Base (normalize T.language t).base
  base_param : ∀ {P} {p : Source.Param} {t}, T.Admits P (.param p) → p.type = some t →
    T.Base (normalize T.language t).base
  base_element : ∀ {P span name t iterable overKeys body},
    T.Admits P (.stmt (.forEach span name (some t) iterable overKeys body)) →
    T.Base (normalize T.language t).base
  base_result : ∀ {P} {f : Callable} {t}, T.Admits P (.stmt (.function f)) → f.result = some t →
    isVoid (some t) = false → T.Base (normalize T.language t).base
  size_of_plain : ∀ {s : String}, ']' ∉ s.toList → T.Size s
  size_of_array : ∀ {P span element sizes d}, T.Admits P (.expr (.newArray span element sizes d)) → ∀ s, T.Size s
  kind_of_infer : ∀ {P} {v : View} {e k}, v.language = T.language → T.Visible P v.scopes.chain →
    T.Nodes P e.nodes → infer v e = some k → T.Kind k
  /-- returned values show the type of a callable once its body is converted -/
  kind_of_returned : ∀ {P Q} {v : View} {f : Callable} {e k}, v.language = T.language →
    T.Visible Q v.scopes.chain → (∀ n, Q n → P n) → T.Admits P (.stmt (.function f)) →
    e ∈ Convert.returnedValues f → infer v e = some k → T.Kind k

structure ScopeLaws : Prop where
  visible_mono : ∀ {P Q : String → Prop} {chain}, (∀ n, P n → Q n) → T.Visible P chain → T.Visible Q chain
  visible_enter : ∀ {P chain kind parent}, T.Visible P chain →
    T.Visible P ({ kind := kind, parent := parent } :: chain)
  visible_variable : ∀ {P scope around} {v : Variable} {base}, T.Visible P (scope :: around) →
    T.Base base → v.type = base.text → (∀ size ∈ v.dimensions, T.Size size) →
    T.Visible P ({ scope with vars := Table.put v.name v scope.vars } :: around)
  visible_callable : ∀ {P scope around} {p : Procedure}, T.Visible P (scope :: around) → T.Entry p.name p.returns →
    T.Visible (without P [p.name]) ({ scope with callables := Table.put p.name p scope.callables } :: around)

structure CallableLaws : Prop where
  deep_of_remark : ∀ {d n}, T.Allows d → d.cause = .nestingTooDeep n → T.deep
  owned_of_class : ∀ {P span name superclass interfaces tps members ms ds},
    T.Admits P (.stmt (.classDecl span name superclass interfaces tps members ms ds)) →
    T.Owned ⟨name, superclass.map (·.name)⟩
  entry_of_callable : ∀ {P} {f : Callable} {owner : Option Owner} {returns},
    T.Admits P (.stmt (.function f)) → (∀ o ∈ owner, T.Owned o) →
    returns.isSome = (Convert.quietReturn T.language f).isSome →
    (∀ t, returns = some t → ∃ k, T.Kind k ∧ t = k.text) →
    T.Entry (Convert.callableName f (owner.map (·.name))) returns
  entry_of_deep : ∀ {P} {f : Callable} {owner : Option Owner} {chain}, T.deep →
    T.Admits P (.stmt (.function f)) → (∀ o ∈ owner, T.Owned o) → T.Visible P chain →
    T.Entry (Convert.callableName f (owner.map (·.name)))
      ((callableIn chain (Convert.callableName f (owner.map (·.name)))).bind (·.returns))

/-- Nodes that stand in no source, but are made on the way. -/
structure NodeLaws : Prop where
  admits_operation : ∀ {P span op left right}, T.Admits P (.expr (.binary span op left right))
  admits_one : ∀ {P span}, T.Admits P (.expr (.number span (.int 1) "1"))
  admits_name : ∀ {P span name}, T.Text name → T.Admits P (.expr (.identifier span name))
  admits_clause : ∀ {P Q : String → Prop} {span decl init condition update body e},
    (∀ n, Q n → P n) → T.Admits P (.stmt (.forLoop span decl init condition update body)) →
    e ∈ init ++ update → T.Admits Q (.stmt (.expression e.span e))
  admits_awaited : ∀ {P span s e}, T.Admits P (.stmt (.expression span (.await s e))) →
    T.Admits P (.stmt (.expression span e))
  admits_body : ∀ {P} {d : Declarator} {own params span callee args isAsync}, T.Admits P (.declarator d) →
    d.init = some (.lambda own params (.expr (.call span callee args)) isAsync) →
    T.Admits P (.stmt (.expression span (.call span callee args)))
  admits_value : ∀ {P} {scopes : Scopes} {d : Declarator} {own params body isAsync},
    T.Visible P scopes.chain → T.Admits P (.declarator d) →
    d.init = some (.lambda own params body isAsync) →
    T.Admits P (.stmt (.function (Convert.valueCallable T.language scopes d.name d.span params body isAsync)))

structure FormLaws : Prop where
  form_ordinary : ∀ {f : Pseudo.Form}, f.isOrdinary = true → (∀ e ∈ f.expressions, T.Expr e) → T.Form f
  form_class : ∀ {name}, T.Text name → T.Form (.class_ name)
  form_comment : ∀ {text annotates}, T.Text text → T.Form (.comment text annotates)
  form_unparsed : ∀ {P span text message}, T.Admits P (.stmt (.unparsed span text message)) →
    T.Form (.unparsed text message)
  form_procedure : ∀ {name params}, T.Entry name none → T.Form (.procedure name params)
  form_function : ∀ {name params t}, T.Entry name (some t) → T.Form (.function name params t)
  /-- a call of a name, or of the constructor of the superclass -/
  form_named : ∀ {P chain outer span callee args call name},
    T.Visible P chain → T.Admits P (.stmt (.expression outer (.call span callee args))) →
    T.Converts callee.calleeName?.toList call → Convert.calledName? call = some name →
    T.Form (if (callableIn chain name).any (fun p => !p.isProcedure) then .expression call
      else .call call)
  form_nameless : ∀ {e}, T.Expr e → Convert.calledName? e = none → T.Form (.expression e)
  /-- an expression that is no call by itself -/
  form_statement : ∀ {P span e a}, T.Admits P (.stmt (.expression span e)) →
    (∀ s callee args, e ≠ .call s callee args) → (∀ s x, e ≠ .await s x) →
    T.Converts e.calledNames a → T.Form (.expression a)

variable {T}

theorem TextLaws.of_all (h : ∀ s, T.Text s) : T.TextLaws :=
  ⟨fun _ => h _, ⟨fun _ => ⟨h _, h _⟩, fun _ => h _⟩, fun _ _ => h _, fun _ => h _, fun _ _ => h _⟩

theorem TypeLaws.of_all (hjoins : T.joins) (hbase : ∀ b, T.Base b) (hsize : ∀ s, T.Size s) : T.TypeLaws :=
  ⟨fun _ => hjoins, fun _ => hjoins, hbase _, fun _ => hbase _, fun _ _ => hbase _, fun _ => hbase _, fun _ _ _ => hbase _,
    fun _ _ => hbase _, fun _ => hbase _, fun _ _ _ => hbase _, fun _ => hsize _, fun _ => hsize,
    fun _ _ _ _ => ⟨hbase _, fun _ _ => hsize _⟩, fun _ _ _ _ _ _ => ⟨hbase _, fun _ _ => hsize _⟩⟩

variable (T)

/-- The laws of a discipline. -/
class Lawful : Prop extends TextLaws T, TypeLaws T, ScopeLaws T, CallableLaws T, NodeLaws T, FormLaws T

/-! ### What a conversion keeps -/

open Blackboard.Convert

structure Inv (P : String → Prop) (s : State) : Prop where
  visible : T.Visible P s.scopes.chain
  notes : ∀ n ∈ s.notes, T.Text n

structure Around (c : Context) : Prop where
  language : c.language = T.language
  owned : ∀ o ∈ c.owner, T.Owned o

end Discipline

end Blackboard
