import Blackboard.Conversion.Statement

/-!
The order of definitions and uses. Whether a construct is in order can depend on which callables are
still to be defined where it stands, so a check of the nodes of a program is told their names. A
definition counts from the statement after it on, up to the end of the scope that it stands in.
-/
namespace Blackboard.Source

open Stmt (nodes)

def without (P : String → Prop) (names : List String) : String → Prop := fun n => P n ∧ n ∉ names

theorem of_without {P names n} (h : without P names n) : P n :=
  h.1

@[simp]
theorem without_nil (P : String → Prop) : without P [] = P := by
  funext n
  simp [without]

@[simp]
theorem without_without (P : String → Prop) (names others : List String) :
    without (without P names) others = without P (names ++ others) := by
  funext n
  simp only [without, List.mem_append, not_or, and_assoc]

def Expr.isLambda : Expr → Bool
  | .lambda .. => true
  | _ => false

/-- Whether a variable stands for the callable that is its value. One for an object that reads input
does not. -/
def Declarator.isCallable (l : Language) (common : Option TypeRef) (d : Declarator) : Bool :=
  d.init.any Expr.isLambda && ((Convert.declaratorType d common).filter fun t =>
      (Conversion.inputSources l).contains t.name).isNone

def definesIn (l : Language) (common : Option TypeRef) (ds : List Declarator) : List String :=
  (ds.filter (·.isCallable l common)).map (·.name)

def definesOf? (l : Language) : Option VarDecl → List String
  | none => []
  | some v => definesIn l v.type v.declarators

/-- The callables that are defined before the body of a loop; a loop that counts defines none. -/
def loopDefines (l : Language) (loop : Option CountingLoop) (decl : Option VarDecl) : List String :=
  match loop with
  | some _ => []
  | none => definesOf? l decl

mutual

/-- The callables, other than constructors, that a statement defines in the scope where it stands. -/
def Stmt.defines (l : Language) : Stmt → List String
  | .function f => if f.isConstructor then [] else [f.name]
  | .varDecl v => definesIn l v.type v.declarators
  | .namespaceDecl _ _ body => definesAll l body
  | _ => []

def definesAll (l : Language) : List Stmt → List String
  | [] => []
  | s :: ss => s.defines l ++ definesAll l ss

end

section InOrder

variable (l : Language) (check : (String → Prop) → Node → Prop)

def NodesInOrder (P : String → Prop) (ns : List Node) : Prop := ∀ n ∈ ns, check P n

mutual

/-- The nodes of a statement pass a check that is told, for each of them, which of the names `P` are
still to be defined there. -/
def Stmt.InOrder (P : String → Prop) : Stmt → Prop
  | .block ⟨span, ss⟩ => check P (.stmt (.block ⟨span, ss⟩)) ∧ StmtsInOrder P ss
  | .varDecl v => VarDecl.InOrder P v
  | .destructuring span isArray names init kind =>
    check P (.stmt (.destructuring span isArray names init kind)) ∧ NodesInOrder check P init.nodes
  | .expression span e => check P (.stmt (.expression span e)) ∧ NodesInOrder check P e.nodes
  | .ifElse span condition yes no =>
    check P (.stmt (.ifElse span condition yes no)) ∧ NodesInOrder check P condition.nodes ∧
      yes.InOrder P ∧ StmtInOrder? P no
  | .whileLoop span condition body =>
    check P (.stmt (.whileLoop span condition body)) ∧ NodesInOrder check P condition.nodes ∧ body.InOrder P
  | .doLoop span body condition =>
    check P (.stmt (.doLoop span body condition)) ∧ body.InOrder P ∧ NodesInOrder check P condition.nodes
  | .forLoop span decl init condition update body =>
    let loop := CountingLoop.ofLoop? decl init condition update body
    check P (.stmt (.forLoop span decl init condition update body)) ∧
      (loop.isSome = true → NodesInOrder check P (varDeclNode decl)) ∧
      (loop.isSome = false → VarDeclInOrder? P decl) ∧
      NodesInOrder check (without P (loopDefines l loop decl))
        (exprNodes init ++ exprNode condition ++ exprNodes update) ∧
      body.InOrder (without P (loopDefines l loop decl))
  | .forEach span name type iterable overKeys body =>
    check P (.stmt (.forEach span name type iterable overKeys body)) ∧
      NodesInOrder check P (typeNode type ++ iterable.nodes) ∧ body.InOrder P
  | .switch span subject cases =>
    check P (.stmt (.switch span subject cases)) ∧ NodesInOrder check P subject.nodes ∧ CasesInOrder P cases
  | .returnStmt span value =>
    check P (.stmt (.returnStmt span value)) ∧ NodesInOrder check P (exprNode value)
  | .throwStmt span e => check P (.stmt (.throwStmt span e)) ∧ NodesInOrder check P e.nodes
  | .tryStmt span ⟨blockSpan, ss⟩ handlers finalizer =>
    check P (.stmt (.tryStmt span ⟨blockSpan, ss⟩ handlers finalizer)) ∧ StmtsInOrder P ss ∧
      NodesInOrder check P (handlerNodes handlers) ∧ BlockInOrder? P finalizer
  | .function ⟨span, name, params, result, body, ms, tps, ds, c⟩ =>
    check P (.stmt (.function ⟨span, name, params, result, body, ms, tps, ds, c⟩)) ∧
      NodesInOrder check P (paramNodes params ++ typeNode result) ∧ BlockInOrder? P body
  | .classDecl span name superclass interfaces tps members ms ds =>
    check P (.stmt (.classDecl span name superclass interfaces tps members ms ds)) ∧
      NodesInOrder check P (typeNode superclass ++ typeNodes interfaces) ∧ StmtsInOrder P members
  | .namespaceDecl span name body =>
    check P (.stmt (.namespaceDecl span name body)) ∧ StmtsInOrder P body
  | .interface span name tps bases members =>
    NodesInOrder check P (Stmt.interface span name tps bases members).nodes
  | .enum span name members => NodesInOrder check P (Stmt.enum span name members).nodes
  | .typeAlias span name aliased => NodesInOrder check P (Stmt.typeAlias span name aliased).nodes
  | .breakStmt span label => check P (.stmt (.breakStmt span label))
  | .continueStmt span label => check P (.stmt (.continueStmt span label))
  | .empty span => check P (.stmt (.empty span))
  | .unparsed span text message => check P (.stmt (.unparsed span text message))
  | .importLine span text => check P (.stmt (.importLine span text))

def StmtsInOrder (P : String → Prop) : List Stmt → Prop
  | [] => True
  | s :: ss => s.InOrder P ∧ StmtsInOrder (without P (s.defines l)) ss

def StmtInOrder? (P : String → Prop) : Option Stmt → Prop
  | none => True
  | some s => s.InOrder P

def BlockInOrder? (P : String → Prop) : Option Block → Prop
  | none => True
  | some ⟨_, ss⟩ => StmtsInOrder P ss

def CasesInOrder (P : String → Prop) : List SwitchCase → Prop
  | [] => True
  | ⟨_, labels, ss⟩ :: cases =>
    NodesInOrder check P (labelNodes labels) ∧ StmtsInOrder P ss ∧ CasesInOrder P cases

def VarDecl.InOrder (P : String → Prop) : VarDecl → Prop
  | ⟨span, ds, type, modifiers, kind⟩ =>
    check P (.stmt (.varDecl ⟨span, ds, type, modifiers, kind⟩)) ∧
      NodesInOrder check P (typeNode type) ∧ DeclaratorsInOrder type P ds

def VarDeclInOrder? (P : String → Prop) : Option VarDecl → Prop
  | none => True
  | some v => VarDecl.InOrder P v

def DeclaratorsInOrder (common : Option TypeRef) (P : String → Prop) : List Declarator → Prop
  | [] => True
  | ⟨span, name, own, extra, init⟩ :: ds =>
    check P (.declarator ⟨span, name, own, extra, init⟩) ∧ NodesInOrder check P (typeNode own) ∧ InitInOrder P init ∧
      DeclaratorsInOrder common (without P (definesIn l common [⟨span, name, own, extra, init⟩])) ds

/-- The body of a callable that is the value of a variable is looked at like that of any other. -/
def InitInOrder (P : String → Prop) : Option Expr → Prop
  | some (.lambda _ params (.block ⟨_, ss⟩) _) =>
    NodesInOrder check P (paramNodes params) ∧ StmtsInOrder P ss
  | init => NodesInOrder check P (exprNode init)

end

end InOrder

section Nodes

variable {check : (String → Prop) → Node → Prop} {P : String → Prop}

@[simp]
theorem nodesInOrder_nil : NodesInOrder check P [] := nofun

@[simp]
theorem nodesInOrder_cons {n ns} : NodesInOrder check P (n :: ns) ↔ check P n ∧ NodesInOrder check P ns :=
  List.forall_mem_cons

@[simp]
theorem nodesInOrder_append {ms ns} :
    NodesInOrder check P (ms ++ ns) ↔ NodesInOrder check P ms ∧ NodesInOrder check P ns :=
  List.forall_mem_append

end Nodes

/-! ### Comparing checks -/

section Compare

variable {l : Language} {A : Prop} {check check' : (String → Prop) → Node → Prop}
variable {ns : List Node} {P : String → Prop}

/-- Nodes that pass a check whatever is still to be defined, where they pass another if `A` holds. -/
def Implies (A : Prop) (check check' : (String → Prop) → Node → Prop) (ns : List Node) : Prop :=
  ∀ n ∈ ns, ∀ P, (A → check P n) → check' P n

@[simp]
theorem implies_cons {n} : Implies A check check' (n :: ns) ↔
      (∀ P, (A → check P n) → check' P n) ∧ Implies A check check' ns :=
  List.forall_mem_cons

@[simp]
theorem implies_append {ms} :
    Implies A check check' (ms ++ ns) ↔ Implies A check check' ms ∧ Implies A check check' ns :=
  List.forall_mem_append

theorem Implies.nodes (h : Implies A check check' ns) (hns : A → NodesInOrder check P ns) :
    NodesInOrder check' P ns :=
  fun n hn => h n hn P fun a => hns a n hn

theorem inOrder_of :
    (∀ P (s : Stmt), Implies A check check' s.nodes → (A → s.InOrder l check P) → s.InOrder l check' P) ∧
    (∀ P b, Implies A check check' (blockNode b) → (A → BlockInOrder? l check P b) → BlockInOrder? l check' P b) ∧
    (∀ P ss, Implies A check check' (stmtNodes ss) → (A → StmtsInOrder l check P ss) → StmtsInOrder l check' P ss) ∧
    (∀ P cs, Implies A check check' (caseNodes cs) → (A → CasesInOrder l check P cs) → CasesInOrder l check' P cs) ∧
    (∀ P v, Implies A check check' (varDeclNode v) → (A → VarDeclInOrder? l check P v) → VarDeclInOrder? l check' P v) ∧
    (∀ P v, Implies A check check' v.nodes → (A → VarDecl.InOrder l check P v) → VarDecl.InOrder l check' P v) ∧
    (∀ common P ds, Implies A check check' (declaratorNodes ds) → (A → DeclaratorsInOrder l check common P ds) →
      DeclaratorsInOrder l check' common P ds) ∧
    (∀ P e, Implies A check check' (exprNode e) → (A → InitInOrder l check P e) → InitInOrder l check' P e) ∧
    ∀ P s, Implies A check check' (stmtNode s) → (A → StmtInOrder? l check P s) → StmtInOrder? l check' P s := by
  apply Stmt.InOrder.mutual_induct (l := l)
  case case27 =>
    -- the value of a variable, unless it is a callable
    intro P e hplain h hs
    simp only [InitInOrder] at hs ⊢
    exact h.nodes hs
  all_goals
    intros
    simp only [nodes, blockNode, Block.nodes, stmtNodes, caseNodes, varDeclNode, VarDecl.nodes, declaratorNodes,
      exprNode, Expr.nodes, bodyNodes, stmtNode, Callable.nodes, implies_cons, implies_append, Stmt.InOrder,
      BlockInOrder?, StmtsInOrder, CasesInOrder, VarDeclInOrder?, VarDecl.InOrder, DeclaratorsInOrder, InitInOrder,
      StmtInOrder?, nodesInOrder_append, nodesInOrder_cons, imp_and] at *
  all_goals grind [Implies.nodes]

theorem stmtsInOrder_of_always (ss : List Stmt) (h : ∀ n ∈ stmtNodes ss, ∀ P, check P n)
    (P : String → Prop) : StmtsInOrder l check P ss := by
  have hall : Implies False (fun _ _ => True) check (stmtNodes ss) := fun n hn Q _ => h n hn Q
  exact inOrder_of.2.2.1 P ss hall False.elim

theorem StmtsInOrder.mono {ss} (hss : StmtsInOrder l check P ss)
    (h : ∀ n ∈ stmtNodes ss, ∀ Q, check Q n → check' Q n) : StmtsInOrder l check' P ss :=
  (inOrder_of (A := True)).2.2.1 P ss (fun n hn Q hcheck => h n hn Q (hcheck trivial)) fun _ => hss

end Compare

end Blackboard.Source
