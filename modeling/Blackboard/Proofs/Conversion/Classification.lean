import Blackboard.Proofs.Discipline.Start
import Blackboard.Proofs.Lowering.Expression

/-!
Calls and definitions. Whether a statement is a call of a procedure is told by what is known of the name
where it stands, and whether a callable is a procedure by its body. The two agree where a name is called
only once it is known what it stands for.
-/
namespace Blackboard

open List
open Pseudo.Stmt (allOf)
open Convert (quietReturn valueCallable returnedValues)
open Conversion

namespace Source

variable {name : String}

/-! ### Procedures -/

/-- The callable that a node defines. Constructors are not called by their names. -/
def Node.callableName? : Node → Option String
  | .stmt (.function f) => if f.isConstructor then none else some f.name
  | .declarator d => if d.init.any Expr.isLambda then some d.name else none
  | _ => none

def callableNames (ns : List Node) : List String := ns.filterMap Node.callableName?

def Node.classNames : Node → List String
  | .stmt (.classDecl _ name superclass _ _ _ _ _) => name :: (superclass.map (·.name)).toList
  | .stmt (.function f) => if f.isConstructor then [f.name] else []
  | _ => []

/-- Whether the body of a callable without a name gives nothing. A call gives nothing if it writes, or if
it calls one of the procedures `R`. -/
def LambdaBody.GivesNothing (l : Language) (R : String → Prop) : LambdaBody → Prop
  | .block b => (returnsOf b.statements).filterMap id = []
  | .expr (.call _ callee _) => ∃ name, callee.dottedName? = some name ∧
      ((outputCalls l).contains name = true ∨ R name)
  | .expr _ => False

/-- The names of the callables that give nothing, constructors among them. -/
inductive IsProcedure (l : Language) (ns : List Node) : String → Prop where
  | function {f : Callable} : .stmt (.function f) ∈ ns → quietReturn l f = none →
      IsProcedure l ns f.name
  | class_ {span name superclass interfaces tps members ms ds} :
      .stmt (.classDecl span name superclass interfaces tps members ms ds) ∈ ns → IsProcedure l ns name
  | block {d : Declarator} {span params b isAsync} : .declarator d ∈ ns →
      d.init = some (.lambda span params (.block b) isAsync) →
      (returnsOf b.statements).filterMap id = [] → IsProcedure l ns d.name
  | writes {d : Declarator} {span params s callee args isAsync name} : .declarator d ∈ ns →
      d.init = some (.lambda span params (.expr (.call s callee args)) isAsync) →
      callee.dottedName? = some name → (outputCalls l).contains name = true → IsProcedure l ns d.name
  | calls {d : Declarator} {span params s callee args isAsync name} : .declarator d ∈ ns →
      d.init = some (.lambda span params (.expr (.call s callee args)) isAsync) →
      callee.dottedName? = some name → IsProcedure l ns name → IsProcedure l ns d.name

/-- The callables among some nodes have different names, which no class has. -/
structure Distinct (ns : List Node) : Prop where
  names : (callableNames ns).Nodup
  classes : ∀ name ∈ callableNames ns, name ∉ ns.flatMap Node.classNames

variable {ns : List Node} {n : Node}

theorem mem_callableNames (hn : n ∈ ns) (h : n.callableName? = some name) : name ∈ callableNames ns :=
  mem_filterMap.2 ⟨n, hn, h⟩

theorem eq_of_callableName? (h : (callableNames ns).Nodup) {m} (hm : m ∈ ns) (hn : n ∈ ns)
    (hmname : m.callableName? = some name) (hnname : n.callableName? = some name) : m = n := by
  induction ns with
  | nil => cases hm
  | cons k ns ih =>
    have hrest : (callableNames ns).Nodup := by
      rw [callableNames, filterMap_cons] at h
      split at h
      · exact h
      · exact (nodup_cons.1 h).2
    have hfresh : k.callableName? = some name → name ∉ callableNames ns := by
      intro hk
      rw [callableNames, filterMap_cons, hk] at h
      exact (nodup_cons.1 h).1
    rcases mem_cons.1 hm with rfl | hm'
    · rcases mem_cons.1 hn with rfl | hn'
      · rfl
      · exact absurd (mem_callableNames hn' hnname) (hfresh hmname)
    · rcases mem_cons.1 hn with rfl | hn'
      · exact absurd (mem_callableNames hm' hmname) (hfresh hnname)
      · exact ih hrest hm' hn'

def Node.GivesNothing (l : Language) (R : String → Prop) : Node → Prop
  | .stmt (.function f) => quietReturn l f = none
  | .declarator d => ∃ span params body isAsync,
      d.init = some (.lambda span params body isAsync) ∧ body.GivesNothing l R
  | _ => False

namespace Distinct

variable {l : Language} {ns : List Node}

theorem givesNothing (h : Distinct ns) {n} (hn : n ∈ ns) {name}
    (hname : n.callableName? = some name) (hprocedure : IsProcedure l ns name) :
    n.GivesNothing l (IsProcedure l ns) := by
  have hclass := h.classes name (mem_callableNames hn hname)
  have hvalue {d : Declarator} (hd : .declarator d ∈ ns) (hlambda : d.init.any Expr.isLambda = true)
      (hd' : d.name = name) : n = .declarator d :=
    eq_of_callableName? h.names hn hd hname (by simp [Node.callableName?, hlambda, hd'])
  cases hprocedure with
  | @function f hf hquiet =>
    cases hc : f.isConstructor with
    | true =>
      refine absurd (mem_flatMap.2 ⟨_, hf, ?_⟩) hclass
      simp [Node.classNames, hc]
    | false =>
      rw [eq_of_callableName? h.names hn hf hname (by simp [Node.callableName?, hc])]
      exact hquiet
  | class_ hmem =>
    refine absurd (mem_flatMap.2 ⟨_, hmem, ?_⟩) hclass
    simp [Node.classNames]
  | block hd hinit hreturns =>
    rw [hvalue hd (by rw [hinit]; rfl) rfl]
    exact ⟨_, _, _, _, hinit, hreturns⟩
  | writes hd hinit hcallee hwrites =>
    rw [hvalue hd (by rw [hinit]; rfl) rfl]
    exact ⟨_, _, _, _, hinit, _, hcallee, .inl hwrites⟩
  | calls hd hinit hcallee hcalls =>
    rw [hvalue hd (by rw [hinit]; rfl) rfl]
    exact ⟨_, _, _, _, hinit, _, hcallee, .inr hcalls⟩

theorem function_iff (h : Distinct ns) {f} (hf : .stmt (.function f) ∈ ns) :
    quietReturn l f = none ↔ IsProcedure l ns f.name := by
  refine ⟨.function hf, fun hprocedure => ?_⟩
  cases hc : f.isConstructor with
  | true =>
    unfold quietReturn
    rw [if_pos hc]
  | false => exact h.givesNothing hf (by simp [Node.callableName?, hc]) hprocedure

theorem value_iff (h : Distinct ns) {d} (hd : .declarator d ∈ ns) {span params body isAsync}
    (hinit : d.init = some (.lambda span params body isAsync)) :
    body.GivesNothing l (IsProcedure l ns) ↔ IsProcedure l ns d.name := by
  constructor
  · intro hnothing
    match body with
    | .block b => exact .block hd hinit hnothing
    | .expr e =>
      cases e with
      | call s callee args =>
        obtain ⟨name, hcallee, hwrites | hcalls⟩ := hnothing
        · exact .writes hd hinit hcallee hwrites
        · exact .calls hd hinit hcallee hcalls
      | _ => exact hnothing.elim
  · intro hprocedure
    obtain ⟨_, _, _, _, hinit', hnothing⟩ := h.givesNothing hd
      (by simp [Node.callableName?, hinit, Expr.isLambda]) hprocedure
    rw [hinit] at hinit'
    cases hinit'
    exact hnothing

end Distinct

/-! ### Calls -/

/-- A statement that is a call calls none of the names `P`. No other statement is converted to a call of
one of the procedures `R`. -/
def Expr.CallsNone (R P : String → Prop) : Expr → Prop
  | .call _ callee _ => ∀ name, callee.calleeName? = some name → ¬ P name
  | .await _ e => e.CallsNone R P
  | e => ∀ name ∈ e.calledNames, ¬ R name

/-- The statements of a node, and the callables without names that are nothing but a call, call none of
the names `P`. -/
def Node.CallsNone (R P : String → Prop) : Node → Prop
  | .stmt (.expression _ e) => e.CallsNone R P
  | .stmt (.forLoop _ _ init _ update _) => ∀ e ∈ init ++ update, e.CallsNone R P
  | .declarator d => ∀ span params s callee args isAsync,
      d.init = some (.lambda span params (.expr (.call s callee args)) isAsync) →
      ∀ name, callee.calleeName? = some name ∨ callee.dottedName? = some name → ¬ P name
  | _ => True

theorem Expr.CallsNone.mono {R P Q : String → Prop} (hQ : ∀ n, Q n → P n) {e : Expr}
    (h : e.CallsNone R P) : e.CallsNone R Q := by
  fun_induction Expr.CallsNone R P e with
  | case1 span callee args => exact fun name hname hq => h name hname (hQ name hq)
  | case2 span e ih => exact ih h
  | case3 e hcall hawait =>
    rw [Expr.CallsNone]
    · exact h
    · exact hcall
    · exact hawait

/-- A node agrees with `R` on which names stand for procedures. No class has the name of one of the
callables `D`. -/
def Node.Agrees (l : Language) (R D : String → Prop) : Node → Prop
  | .stmt (.function f) => quietReturn l f = none ↔ R f.name
  | .declarator d => ∀ span params body isAsync, d.init = some (.lambda span params body isAsync) →
      (body.GivesNothing l R ↔ R d.name)
  | .stmt (.classDecl _ name superclass _ _ _ _ _) =>
      R name ∧ ∀ t, superclass = some t → ¬ D t.name
  | _ => True

theorem Distinct.agrees {l} (h : Distinct ns) (hn : n ∈ ns) :
    n.Agrees l (IsProcedure l ns) (· ∈ callableNames ns) := by
  cases n with
  | declarator d => exact fun _ _ _ _ hinit => h.value_iff hn hinit
  | stmt s =>
    cases s with
    | function f => exact h.function_iff hn
    | classDecl span name superclass interfaces tps members ms ds =>
      refine ⟨.class_ hn, fun t ht hmem => h.classes _ hmem (mem_flatMap.2 ⟨_, hn, ?_⟩)⟩
      simp [Node.classNames, ht]
    | _ => trivial
  | _ => trivial

end Source

open Source Scopes

/-! ### Statements of the result -/

namespace Pseudo.Form

def calledName? : Form → Option String
  | call e | expression e => Convert.calledName? e
  | _ => none

def definedName? : Form → Option String
  | procedure name _ | function name _ _ => some name
  | _ => none

def isCall : Form → Bool
  | call _ => true
  | _ => false

def isProcedure : Form → Bool
  | procedure .. => true
  | _ => false

end Pseudo.Form

namespace Classification

variable {R D : String → Prop} {P : String → Prop}
variable {call : Pseudo.Expr} {name : String} {l : Language} {scopes : Scopes}

/-- What is visible tells of every name but those in `P` whether it is one of the procedures `R`. All
others of these, and of the callables `D`, are visible. -/
structure Visible (R D P : String → Prop) (chain : List Scope) : Prop where
  entries : ∀ name p, callableIn chain name = some p → ¬ P name → (p.returns = none ↔ R name)
  visible : ∀ name, D name ∨ R name → ¬ P name → (callableIn chain name).isSome = true

/-- A statement of the result that agrees with `R` on which of the callables `D` are procedures. -/
structure Agrees (R D : String → Prop) (f : Pseudo.Form) : Prop where
  calls : ∀ name, f.calledName? = some name → D name → (f.isCall = true ↔ R name)
  defines : ∀ name, f.definedName? = some name → (f.isProcedure = true ↔ R name)

theorem agrees_of_none {f} (hcalls : f.calledName? = none) (hdefines : f.definedName? = none) : Agrees R D f :=
  ⟨by simp [hcalls], by simp [hdefines]⟩

theorem agrees_of_visible {chain} (hv : Visible R D P chain)
    (hname : Convert.calledName? call = some name) (hP : ¬ P name) :
    Agrees R D (if (callableIn chain name).any (fun p => !p.isProcedure) then .expression call
      else .call call) := by
  constructor
  · intro called hcalled hD
    have heq : called = name := by
      rw [apply_ite Pseudo.Form.calledName?] at hcalled
      exact Option.some.inj (hcalled.symm.trans (by simpa [Pseudo.Form.calledName?] using hname))
    subst heq
    obtain ⟨q, hq⟩ := Option.isSome_iff_exists.1 (hv.visible called (.inl hD) hP)
    have hentry := hv.entries called q hq hP
    rw [hq, ← hentry]
    cases hreturns : q.returns <;> simp [Procedure.isProcedure, hreturns, Pseudo.Form.isCall]
  · intro defined hdefined
    split at hdefined <;> cases hdefined

theorem agrees_of_not {found : Bool} (hname : Convert.calledName? call = some name) (hD : ¬ D name) :
    Agrees R D (if found then .expression call else .call call) := by
  constructor
  · intro called hcalled hcallable
    rw [apply_ite Pseudo.Form.calledName?] at hcalled
    have heq : some called = some name :=
      hcalled.symm.trans (by simpa [Pseudo.Form.calledName?] using hname)
    exact absurd (Option.some.inj heq ▸ hcallable) hD
  · intro defined hdefined
    split at hdefined <;> cases hdefined

theorem givesNothing_iff (hv : Visible R D P scopes.chain) {e} (hP : ∀ s callee args, e = .call s callee args →
      ∀ name, callee.dottedName? = some name → ¬ P name) :
    Convert.givesNothing l scopes e = true ↔ (LambdaBody.expr e).GivesNothing l R := by
  cases e with
  | call s callee args =>
    simp only [Convert.givesNothing, LambdaBody.GivesNothing]
    cases hcallee : callee.dottedName? with
    | none => simp
    | some name =>
      have hname := hP s callee args rfl name hcallee
      have hfound : ((scopes.findCallable? name).any (·.isProcedure) = true) ↔ R name := by
        rw [findCallable?_eq]
        cases hq : callableIn scopes.chain name with
        | none =>
          refine ⟨by simp, fun hR => ?_⟩
          have := hv.visible name (.inr hR) hname
          rw [hq] at this
          cases this
        | some q => simpa [Procedure.isProcedure] using hv.entries name q hq hname
      simp [hfound]
  | _ => exact iff_of_false Bool.false_ne_true id

theorem quietReturn_valueCallable (hv : Visible R D P scopes.chain) {span params body isAsync}
    (hP : ∀ s callee args, body = .expr (.call s callee args) → ∀ name, callee.dottedName? = some name → ¬ P name) :
    quietReturn l (valueCallable l scopes name span params body isAsync) = none ↔ body.GivesNothing l R := by
  have hreturn {f : Callable} (hc : f.isConstructor = false) (hresult : f.result = none) :
      quietReturn l f = none ↔ returnedValues f = [] := by
    unfold quietReturn
    rw [hc, hresult]
    cases returnedValues f <;> simp
  rw [hreturn rfl rfl]
  cases body with
  | block b => exact Iff.rfl
  | expr e =>
    rw [← givesNothing_iff hv fun s callee args he => hP s callee args (congrArg _ he)]
    simp only [returnedValues, valueCallable, Convert.valueBody]
    split
    · next h => simp [h, returnsOf, Stmt.returns]
    · next h => simp [h, returnsOf, Stmt.returns]

def discipline (l : Language) (R D : String → Prop) : Discipline where
  language := l
  Visible := Visible R D
  Allows d := ∀ n, d.cause ≠ .nestingTooDeep n
  Text _ := True
  joins := True
  deep := False
  Base _ := True
  Size _ := True
  Entry name returns := returns = none ↔ R name
  Admits P n := n.Agrees l R D ∧ n.CallsNone R P
  Owned o := R o.name ∧ ∀ name, o.superclass = some name → ¬ D name
  Form := Agrees R D

theorem discipline_lawful (l : Language) (R D : String → Prop) : (discipline l R D).Lawful where
  toTextLaws := .of_all fun _ => trivial
  toTypeLaws := .of_all trivial (fun _ => trivial) fun _ => trivial
  visible_mono hPQ h :=
    ⟨fun name p hp hQ => h.entries name p hp fun hP => hQ (hPQ name hP),
      fun name hname hQ => h.visible name hname fun hP => hQ (hPQ name hP)⟩
  visible_enter h := ⟨h.entries, h.visible⟩
  visible_variable h _ _ _ := ⟨h.entries, h.visible⟩
  visible_callable h hentry := by
    refine ⟨fun name q hq hP => ?_, fun name hname hP => ?_⟩
    · rw [callableIn_put] at hq
      split at hq
      · next heq =>
        cases hq
        rw [heq]
        exact hentry
      · next hne => exact h.entries name q hq fun h => hP ⟨h, by simpa using hne⟩
    · rw [callableIn_put]
      split
      · rfl
      · next hne => exact h.visible name hname fun h => hP ⟨h, by simpa using hne⟩
  deep_of_remark h hcause := absurd hcause (h _)
  owned_of_class h := by
    refine ⟨h.1.1, fun name hname => ?_⟩
    obtain ⟨t, ht, rfl⟩ := Option.map_eq_some_iff.1 hname
    exact h.1.2 t ht
  entry_of_callable {P f owner returns} h howner hsome _ := by
    have hnone : returns = none ↔ quietReturn l f = none := by
      cases returns <;> cases hquiet : quietReturn l f <;> simp_all [discipline]
    refine hnone.trans ?_
    unfold Convert.callableName
    split
    · next o hc hmap =>
      obtain ⟨o, ho, rfl⟩ := Option.map_eq_some_iff.1 hmap
      refine ⟨fun _ => (howner o ho).1, fun _ => ?_⟩
      unfold quietReturn
      rw [if_pos hc]
    · exact h.1
  entry_of_deep h := h.elim
  admits_operation := ⟨trivial, trivial⟩
  admits_one := ⟨trivial, trivial⟩
  admits_name _ := ⟨trivial, trivial⟩
  admits_clause hQ h he := ⟨trivial, (h.2 _ he).mono hQ⟩
  admits_awaited h := ⟨trivial, h.2⟩
  admits_body h hinit := ⟨trivial, fun name hname => h.2 _ _ _ _ _ _ hinit name (.inl hname)⟩
  admits_value {P scopes d own params body isAsync} hv h hinit := by
    refine ⟨(quietReturn_valueCallable hv fun s callee args hbody name hname => ?_).trans
      (h.1 own params body isAsync hinit), trivial⟩
    exact h.2 own params s callee args isAsync (hbody ▸ hinit) name (.inr hname)
  form_ordinary {f} hf _ := by
    cases f <;> first | exact agrees_of_none rfl rfl | cases hf
  form_class _ := agrees_of_none rfl rfl
  form_comment _ := agrees_of_none rfl rfl
  form_unparsed _ := agrees_of_none rfl rfl
  form_procedure h := ⟨nofun, by rintro name ⟨⟩; simpa [discipline, Pseudo.Form.isProcedure] using h⟩
  form_function h := ⟨nofun, by rintro name ⟨⟩; simpa [discipline, Pseudo.Form.isProcedure] using h⟩
  form_named hv h hcalls hname := by
    rcases hcalls.named _ hname with hcallee | ⟨o, howned, hsuper⟩
    · exact agrees_of_visible hv hname (h.2 _ (Option.mem_toList.1 hcallee))
    · exact agrees_of_not hname (howned.2 _ hsuper)
  form_nameless _ hname := agrees_of_none hname rfl
  form_statement h hcall hawait hconverts := by
    refine ⟨fun name hname hD => ⟨nofun, fun hR => ?_⟩, nofun⟩
    have hnone := h.2
    rw [Node.CallsNone, Expr.CallsNone] at hnone
    · rcases hconverts.named name hname with hcalled | ⟨o, howned, hsuper⟩
      · exact absurd hR (hnone name hcalled)
      · exact absurd hD (howned.2 name hsuper)
    · exact hcall
    · exact hawait

end Classification

/-! ### Call statements -/

namespace Convert

theorem stmt_call {c s span own place name args} (hname : isFunctionName c.language name = true)
    (houtput : (outputCalls c.language).contains name = false) :
    let call : Stmt := .expression place (.call span (.identifier own name) args)
    Ensures (Heavy (weight call.nodes)) (stmt call) c s fun ss _ =>
      ∃ f, ss = [.simple f (some span.line)] ∧ f.calledName? = some name := by
  extract_lets call
  have hargs : Ensures (Heavy (weight call.nodes)) (exprs args) c s fun _ _ => True := by
    refine (exprs_ensures ?_ c s).mono fun _ _ _ => trivial
    simp only [call, Stmt.nodes, Expr.nodes, weight_cons, weight_append]
    omega
  have hinput : View.input? ⟨c.language, s.scopes, s.enumNames⟩
      (.call span (.identifier own name) args) = none := input?_call_eq_none hname
  have hsuper : name ≠ "super" := by
    simp only [isFunctionName, Bool.and_eq_true, bne_iff_ne] at hname
    exact hname.1.1
  have hcall : Ensures (Heavy (weight call.nodes)) (expr (.call span (.identifier own name) args)) c s
      fun a _ => calledName? a = some name := by
    rw [expr, callOr]
    simp only [Ensures.bind_iff, Ensures.view_iff, hinput, Expr.dottedName?,
      numberParser?_eq_none hname, Option.isSome_none, Bool.false_eq_true, if_false, Bool.false_and,
      nameCall, Ensures.read_iff]
    split
    · next heq _ => exact absurd rfl hsuper
    · simp only [Ensures.bind_iff, Ensures.pure_iff, Ensures.get_iff]
      exact hargs.mono fun _ _ _ => rfl
  have hplain : (some name).any (outputCalls c.language).contains = false := houtput
  simp only [call, stmt, exprStatement, callStatement, Ensures.bind_iff, Ensures.view_iff, hinput,
    Expr.dottedName?, hplain, Option.isSome_none, Bool.false_eq_true, if_false, isInputReader,
    Ensures.pure_iff]
  refine hcall.mono fun a t ha => ?_
  rw [ha]
  refine ⟨_, rfl, ?_⟩
  split <;> exact ha

end Convert

namespace Conversion

/-- What is declared in advance does not tell whether a callable is a procedure: it is not declared, or
declared as the other. -/
def IsUnsettled (p : Source.Program) (name : String) : Prop :=
  match (startState p).scopes.findCallable? name with
  | some q => ¬ (q.returns = none ↔ IsProcedure p.language (stmtNodes p.body) name)
  | none => name ∈ callableNames (stmtNodes p.body) ∨ IsProcedure p.language (stmtNodes p.body) name

theorem startState_classified (p : Program) :
    Classification.Visible (IsProcedure p.language (stmtNodes p.body)) (· ∈ callableNames (stmtNodes p.body))
      (IsUnsettled p) (startState p).scopes.chain := by
  refine ⟨fun name q hq hP => ?_, fun name hname hP => ?_⟩
  · rw [IsUnsettled, findCallable?_eq, hq] at hP
    exact not_not.1 hP
  · unfold IsUnsettled at hP
    split at hP
    · next q hq => exact Option.isSome_of_eq_some hq
    · exact absurd hname hP

/-- A statement that calls a callable of the program is converted to a call of a procedure if and only if
the callable is converted to one, if it is called only where that is known. -/
theorem calls_agree_with_definitions (limit : Nat) (p : Source.Program) (hnames : Distinct (stmtNodes p.body))
    (horder : StmtsInOrder p.language (Node.CallsNone (IsProcedure p.language (stmtNodes p.body)))
      (IsUnsettled p) p.body) :
    (∀ name span own place args c s, c.language = p.language → isFunctionName p.language name = true →
      (outputCalls p.language).contains name = false →
      let call : Source.Stmt := .expression place (.call span (.identifier own name) args)
      Convert.Ensures (Heavy (Source.weight call.nodes)) (Convert.stmt call) c s fun ss _ =>
        ∃ f, ss = [.simple f (some span.line)] ∧ f.calledName? = some name) ∧
    match run limit p with
    | .ok r => (∀ d ∈ r.diagnostics, ∀ n, d.cause ≠ .nestingTooDeep n) →
        ∀ name ∈ callableNames (stmtNodes p.body), ∀ c ∈ allOf r.body, ∀ d ∈ allOf r.body,
            c.form.calledName? = some name → d.form.definedName? = some name →
              (c.form.isCall = true ↔ d.form.isProcedure = true)
    | .error _ => Heavy (weight p) := by
  constructor
  · intro name span own place args c s hlanguage hname houtput
    exact Convert.stmt_call (hlanguage ▸ hname) (hlanguage ▸ houtput)
  have hheavy := run_hints limit p
  cases hrun : run limit p with
  | error e =>
    rw [hrun] at hheavy
    exact hheavy
  | ok r =>
    intro hremarks name hname c hc d hd hcalled hdefined
    have hbody : StmtsInOrder p.language (Classification.discipline p.language
        (IsProcedure p.language (stmtNodes p.body)) (· ∈ callableNames (stmtNodes p.body))).Admits
        (IsUnsettled p) p.body :=
      horder.mono fun n hn Q hnone => ⟨hnames.agrees hn, hnone⟩
    have hstmts := Discipline.run_keeps (Classification.discipline_lawful _ _ _) rfl
      (startState_classified p) hbody hrun hremarks
    exact ((hstmts.of_mem_allOf _ c hc).1.calls name hcalled hname).trans
      ((hstmts.of_mem_allOf _ d hd).1.defines name hdefined).symm

theorem not_isUnsettled {p} (hnames : Distinct (stmtNodes p.body)) {f} (hf : .stmt (.function f) ∈ stmtNodes p.body)
    (hknown : ((startState p).scopes.findCallable? f.name).map (·.returns) =
      some (quietReturn p.language f)) : ¬ IsUnsettled p f.name := by
  obtain ⟨q, hq, hreturns⟩ := Option.map_eq_some_iff.1 hknown
  rw [IsUnsettled, hq, not_not, hreturns]
  exact hnames.function_iff hf

open Source in
/-- A function that calls another before that is defined, and one in itself after it is defined. -/
def helperProgram : Source.Program :=
  let place := Span.unplaced
  let call (f : String) : Source.Stmt := .expression place (.call place (.identifier place f) [])
  let one : Source.Stmt := .returnStmt place (some (.number place (.int 1) "1"))
  let inner : Callable := { span := place, name := "inner", params := [], body := some ⟨place, [one]⟩ }
  let outer : Callable :=
    { span := place, name := "outer", params := []
      body := some ⟨place, [call "greet", .function inner, call "inner"]⟩ }
  let greet : Callable := { span := place, name := "greet", params := [], body := some ⟨place, []⟩ }
  { language := .typescript, span := place, structuralErrors := []
    body := [.function outer, .function greet] }

open Source in
def earlyCall : Source.Program :=
  let place := Span.unplaced
  let one : Source.Stmt := .returnStmt place (some (.number place (.int 1) "1"))
  let inner : Callable := { span := place, name := "inner", params := [], body := some ⟨place, [one]⟩ }
  let outer : Callable :=
    { span := place, name := "outer", params := []
      body := some ⟨place, [.expression place (.call place (.identifier place "inner") []), .function inner]⟩ }
  { language := .typescript, span := place, structuralErrors := [], body := [.function outer] }

theorem helperProgram_distinct : Distinct (stmtNodes helperProgram.body) := ⟨by decide, by decide⟩

theorem helperProgram_inOrder :
    StmtsInOrder .typescript (Node.CallsNone (IsProcedure .typescript (stmtNodes helperProgram.body)))
      (IsUnsettled helperProgram) helperProgram.body := by
  have hgreet : ¬ IsUnsettled helperProgram "greet" :=
    not_isUnsettled (f := { span := .unplaced, name := "greet", params := [], body := some ⟨.unplaced, []⟩ })
      helperProgram_distinct (by simp [helperProgram, stmtNodes, Stmt.nodes, Callable.nodes]) rfl
  generalize IsUnsettled helperProgram = P at hgreet ⊢
  simp [helperProgram, StmtsInOrder, Stmt.InOrder, BlockInOrder?, Node.CallsNone, Expr.CallsNone,
    Expr.calleeName?, Expr.nodes, exprNode, exprNodes, paramNodes, typeNode, Stmt.defines,
    without, hgreet]

/-- Both calls agree with the definitions of what they call. -/
theorem calls_agree_with_definitions_helper : Distinct (stmtNodes helperProgram.body) ∧
    StmtsInOrder .typescript (Node.CallsNone (IsProcedure .typescript (stmtNodes helperProgram.body)))
      (IsUnsettled helperProgram) helperProgram.body ∧
    ∃ r, run 200 helperProgram = .ok r ∧
      (∃ c ∈ Pseudo.Stmt.allOf r.body, c.form.calledName? = some "greet" ∧ c.form.isCall = true) ∧
      (∃ c ∈ Pseudo.Stmt.allOf r.body, c.form.calledName? = some "inner" ∧ c.form.isCall = false) ∧
      ∀ name ∈ callableNames (stmtNodes helperProgram.body), ∀ c ∈ Pseudo.Stmt.allOf r.body, ∀ d ∈ Pseudo.Stmt.allOf r.body,
          c.form.calledName? = some name → d.form.definedName? = some name →
            (c.form.isCall = true ↔ d.form.isProcedure = true) := by
  have hok : (run 200 helperProgram).toOption.any (fun r => r.diagnostics.isEmpty &&
      (allOf r.body).any (fun c => c.form.calledName? == some "greet" && c.form.isCall) &&
      (allOf r.body).any (fun c => c.form.calledName? == some "inner" && !c.form.isCall)) = true := by
    decide +kernel
  have hagree := (calls_agree_with_definitions 200 helperProgram helperProgram_distinct helperProgram_inOrder).2
  obtain ⟨r, hr, hruns⟩ := Convert.exists_ok_of_any hok
  simp only [Bool.and_eq_true, List.isEmpty_iff, List.any_eq_true, beq_iff_eq, Bool.not_eq_true'] at hruns
  rw [hr] at hagree
  exact ⟨helperProgram_distinct, helperProgram_inOrder, r, hr, hruns.1.2, hruns.2, hagree (by simp [hruns.1.1])⟩

/-- A callable in another one is called as a procedure before it is defined, whatever it returns. -/
theorem earlyCall_is_misclassified : Distinct (stmtNodes earlyCall.body) ∧ isFunctionName .typescript "inner" = true ∧
    (outputCalls .typescript).contains "inner" = false ∧
    ∃ r, run 200 earlyCall = .ok r ∧ ∃ c ∈ Pseudo.Stmt.allOf r.body, ∃ d ∈ Pseudo.Stmt.allOf r.body,
        c.form.calledName? = some "inner" ∧ d.form.definedName? = some "inner" ∧
          c.form.isCall = true ∧ d.form.isProcedure = false := by
  have hok : (run 200 earlyCall).toOption.any (fun r => (allOf r.body).any fun c => (allOf r.body).any fun d =>
      c.form.calledName? == some "inner" && d.form.definedName? == some "inner" &&
        c.form.isCall && !d.form.isProcedure) = true := by decide +kernel
  obtain ⟨r, hr, hruns⟩ := Convert.exists_ok_of_any hok
  simp only [List.any_eq_true, Bool.and_eq_true, beq_iff_eq, Bool.not_eq_true'] at hruns
  obtain ⟨c, hc, d, hd, ⟨⟨hcalled, hdefined⟩, hcall⟩, hprocedure⟩ := hruns
  exact ⟨⟨by decide, by decide⟩, by decide, by decide, r, hr, c, hc, d, hd, hcalled, hdefined, hcall, hprocedure⟩

end Conversion

end Blackboard
