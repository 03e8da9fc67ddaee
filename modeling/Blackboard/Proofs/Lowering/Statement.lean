import Blackboard.Proofs.Lowering.Assignment

/-!
Converting structured statements keeps what they do. The statements are blocks, declarations of whole
numbers with their first values, assignments, choices, and loops other than counting loops, nested in
any way; nothing leaves a construct before its end. From every store the pseudocode ends in exactly the
stores in which the source ends.
-/
namespace Blackboard

open Conversion List
open Meaning
open Relation (Comp)
open Source (Span declaratorNodes Runs exprNode runs_nil runs_ifElse holds Node stmtNodes Block)
open Source (Expr VarDecl Stmt HasTy)
open Source.Stmt (nodes)
open Pseudo.Stmt (isClause form)

namespace Source

/-- The name of the type of whole numbers, or of all numbers where there is only one type of them. -/
def numberTypeName : Language → String
  | .java => "int"
  | .typescript => "number"

/-- Whether a variable is declared as a number with a first value. -/
structure DeclaresNumber (l : Language) (common : Option TypeRef) (d : Declarator) : Prop where
  name : isVariableName d.name = true
  type : ∃ span, Convert.declaratorType d common = some ⟨span, numberTypeName l, [], 0, .simple⟩
  init : ∃ e, d.init = some e ∧ HasTy l e .int

/-- Whether variables, and not constants, are declared as numbers with first values. -/
structure DeclaresNumbers (l : Language) (v : VarDecl) : Prop where
  isVariable : Convert.isConstantDecl v.modifiers v.kind = false
  declarators : ∀ d ∈ v.declarators, DeclaresNumber l v.type d

inductive Structured (l : Language) : Stmt → Prop where
  | block {span ss} : (∀ s ∈ ss, Structured l s) → Structured l (.block ⟨span, ss⟩)
  | empty {span} : Structured l (.empty span)
  | declaration {v} : DeclaresNumbers l v → Structured l (.varDecl v)
  | assignment {span e} : IsAssignment l e → Structured l (.expression span e)
  | ifElse {span c yes no} : HasTy l c .bool → Structured l yes → (∀ s ∈ no, Structured l s) →
      Structured l (.ifElse span c yes no)
  | whileLoop {span c body} : HasTy l c .bool → Structured l body →
      Structured l (.whileLoop span c body)
  | doLoop {span c body} : HasTy l c .bool → Structured l body → Structured l (.doLoop span body c)
  | forLoop {span decl init c update body} :
      CountingLoop.ofLoop? decl init c update body = none → (∀ v ∈ decl, DeclaresNumbers l v) →
      (∀ e ∈ init, IsAssignment l e) → (∀ e ∈ c, HasTy l e .bool) →
      (∀ e ∈ update, IsAssignment l e) → Structured l body →
      Structured l (.forLoop span decl init c update body)

end Source

namespace Convert

open Ensures

variable {e condition : Expr} {t : Ty} {name : String} {span : Span} {v : VarDecl}
    {p yes body : Stmt} {no : Option Stmt} {decl : Option VarDecl}
    {ps : List Stmt}

-- generates the equations of the conversion once, before the proofs that rewrite by them
attribute [local simp] stmt

variable {fault : Prop} {l : Language} {act act' : Convert (List Pseudo.Stmt)}
variable {r q : World → Store → Store → Prop}

/-! ### Declarations -/

theorem normalize_number (span : Span) : Pseudo.normalize l ⟨span, Source.numberTypeName l, [], 0, .simple⟩ =
      { base := if l = .java then .integer else .real, spelling := Source.numberTypeName l } := by
  cases l <;> rfl

theorem initialSizes_eq (h : HasTy l e t) : initialSizes (some e) = pure [] := by
  cases h <;> rfl

theorem refine_number (e : Expr) :
    let k := refine l { base := if l = .java then .integer else .real,
                        spelling := Source.numberTypeName l } (some e)
    k.sizes = [] ∧ (k.base = .integer ∨ k.base = .real) := by
  cases l with
  | java => exact ⟨rfl, .inl rfl⟩
  | typescript =>
    by_cases h : isWhole e = true
    · simp [refine, Source.numberTypeName, Pseudo.Kind.isArray, h]
    · simp [refine, Pseudo.Kind.isArray, h]

theorem declaredKind_number {c s} (hl : c.language = l) {own} (h : HasTy l e .int) : Ensures fault
      (declaredKind name (some ⟨own, Source.numberTypeName l, [], 0, .simple⟩) (some e) span) c s
      fun k t => t = s ∧ k.isArray = false ∧ (k.base = .integer ∨ k.base = .real) := by
  have hword : isInferred l (some ⟨own, Source.numberTypeName l, [], 0, .simple⟩) = false := by
    cases l <;> rfl
  obtain ⟨hsizes, hbase⟩ := refine_number (l := l) e
  simp only [declaredKind, bind_iff, view_iff, hl, hword, normalize_number,
    Bool.false_eq_true, if_false, pure_iff, initialSizes_eq h]
  refine ⟨trivial, ?_, hbase⟩
  simp [Pseudo.Kind.isArray, Pseudo.Kind.withSizes, hsizes]

theorem startValue_eq (h : HasTy l e t) (name : String) (span : Span) :
    startValue name span e = assignValue span (.identifier span name) e := by
  cases h <;> rfl

theorem valueOf?_eq_none (h : HasTy l e t) (name : String) (span : Span) : valueOf? name span (some e) = none := by
  cases h <;> simp only [valueOf?]

theorem declarePlain_lowers {own} (hx : Source.isVariableName name = true)
    (h : HasTy l e .int) (hf : ∀ n ∈ e.nodes, n.isUnwritable = true → fault) :
    Lowers fault l (declarePlain name span
      (some ⟨own, Source.numberTypeName l, [], 0, .simple⟩) (some e) false) (Assigns name e) := by
  intro c s hl hz hs
  rw [declarePlain, bind_iff]
  refine (declaredKind_number hl h).mono ?_
  rintro k t ⟨rfl, hk, hbase⟩
  simp only [Bool.false_and, bind_iff, declareVariable_iff, startValue_eq h, pure_iff]
  have hnumeric : Pseudo.Scalar.ofText k.base.text ≠ .string := by
    rcases hbase with hb | hb <;> rw [hb] <;> decide
  refine mono (assignValue_lowers hx h rfl hf c _ hl hz ?_) fun ss u hu => ?_
  · exact hs.declareVariable hnumeric
  · refine ⟨hu.scopes, hu.diagnostics, ?_, ?_⟩
    · intro p hp
      rcases mem_cons.1 hp with rfl | hp
      · rfl
      · exact hu.plain p hp
    · intro hd w σ τ
      rw [Pseudo.runs_cons]
      constructor
      · rintro ⟨ρ, hv, hr⟩
        have hv := Pseudo.runs_variable.1 hv
        exact (hu.runs hd w σ τ).1 (hv ▸ hr)
      · intro hr
        exact ⟨σ, .variable_, (hu.runs hd w σ τ).2 hr⟩

theorem declarator_lowers {d common} (h : Source.DeclaresNumber l common d) (he : d.init = some e)
    (hf : ∀ n ∈ e.nodes, n.isUnwritable = true → fault) :
    Lowers fault l (declarator d common false (valueOf? d.name d.span d.init)) (Assigns d.name e) := by
  intro c s hl hz hs
  obtain ⟨own, htype⟩ := h.type
  obtain ⟨e', he', hty⟩ := h.init
  obtain rfl : e = e' := Option.some.inj (he.symm.trans he')
  have hsource : (inputSources l).contains (Source.numberTypeName l) = false := by
    cases l <;> decide
  rw [declarator, bind_iff, read_iff, htype, he, valueOf?_eq_none hty, hl]
  simp only [Option.filter_some, hsource, Bool.false_eq_true, if_false]
  exact declarePlain_lowers h.name hty hf c s hl hz hs

theorem declarators_lowers {ds type} (h : ∀ d ∈ ds, Source.DeclaresNumber l type d)
    (hf : ∀ n ∈ declaratorNodes ds, n.isUnwritable = true → fault) (span : Span)
    (modifiers : List String) (kind : Option Source.VarKind) :
    Lowers fault l (declarators type false ds) fun w =>
      Runs w [.varDecl ⟨span, ds, type, modifiers, kind⟩] := by
  induction ds with
  | nil =>
    exact Lowers.nil.congr fun w σ τ => Source.runs_declared.symm
  | cons d ds ih =>
    obtain ⟨own, name, t, extra, init⟩ := d
    have hd := h _ (mem_cons_self ..)
    obtain ⟨e, rfl, hty⟩ := hd.init
    have hfirst : Lowers fault l _ (Assigns name e) := declarator_lowers hd rfl fun n hn =>
      hf n (by simp [declaratorNodes, exprNode, hn])
    have hrest := ih (fun d hd => h d (by simp [hd])) fun n hn =>
      hf n (by simp [declaratorNodes, hn])
    refine (hfirst.append hrest).congr fun w σ τ => ?_
    rw [Source.runs_declare]
    constructor
    · rintro ⟨ρ, ⟨n, hn, rfl⟩, hr⟩
      exact ⟨n, hn, hr⟩
    · rintro ⟨n, hn, hr⟩
      exact ⟨_, ⟨n, hn, rfl⟩, hr⟩

theorem varDecl_lowers (h : Source.DeclaresNumbers l v) (hf : ∀ n ∈ v.nodes, n.isUnwritable = true → fault) :
    Lowers fault l (varDecl v) fun w => Runs w [.varDecl v] := by
  obtain ⟨span, ds, type, modifiers, kind⟩ := v
  intro c s hl hz hs
  have hds := declarators_lowers h.declarators (fun n hn => hf n (by
    simp [VarDecl.nodes, hn])) span modifiers kind
  have hc : isConstantDecl modifiers kind = false := h.isVariable
  rw [varDecl, hc]
  split
  · rw [bind_iff]
    exact (hds c { s with notes := s.notes ++ ["Static field"] } hl hz hs).mono fun ss t ht =>
      ht.of_prefix (prefix_refl _)
  · exact hds c s hl hz hs

/-! ### Bodies and clauses -/

theorem stmts_lowers {ss} (h : ∀ p ∈ ss, Lowers fault l (stmt p) fun w => Runs w [p]) :
    Lowers fault l (stmts ss) fun w => Runs w ss := by
  induction ss with
  | nil =>
    exact Lowers.nil.congr fun w σ τ => runs_nil.symm
  | cons p ps ih =>
    have hfirst := (h p (by simp)).statement p.kind p.span
    have hrest := ih fun p hp => h p (by simp [hp])
    exact (hfirst.append hrest).congr fun w σ τ => (Source.runs_cons p ps).symm

/-- What is known of the conversion of a statement: that of the statement itself and, of a block, that
of the statements inside it. -/
structure LowersBody (fault : Prop) (l : Language) (p : Stmt) : Prop where
  own : Lowers fault l (stmt p) fun w => Runs w [p]
  inner : isBlock p = true → Lowers fault l (inner p) fun w => Runs w [p]

theorem LowersBody.choose (h : LowersBody fault l p) :
    Lowers fault l (if isBlock p then Convert.inner p else statement p.kind p.span (stmt p)) fun w => Runs w [p] := by
  split
  · next hb => exact h.inner hb
  · exact h.own.statement p.kind p.span

theorem LowersBody.bodyOf (h : LowersBody fault l p) :
    Lowers fault l (bodyOf p (stmt p) (Convert.inner p) (pure ())) fun w => Runs w [p] :=
  h.choose.nested p.span .block

/-- The clauses `cs`, converted from the state `s` on, do what `r` says. -/
structure LoweredClauses (s : State) (r : World → Store → Store → Prop) (cs : List Pseudo.Stmt)
    (t : State) : Prop where
  scopes : t.scopes.AllNumeric
  diagnostics : s.diagnostics <+: t.diagnostics
  clauses : ∀ p ∈ cs, p.isClause = true
  runs : Shallow t.diagnostics → ∀ w σ τ, (∃ ss, Pseudo.clauseBody? w σ cs = some ss ∧ Pseudo.Runs w ss σ τ) ↔ r w σ τ

def LowersClauses (fault : Prop) (l : Language) (act : Convert (List Pseudo.Stmt))
    (r : World → Store → Store → Prop) : Prop :=
  ∀ (c : Context) (s : State), c.language = l → c.zeroBased = false → s.scopes.AllNumeric →
    Ensures fault act c s (LoweredClauses s r)

theorem otherwise_none : LowersClauses fault l (otherwise none) fun w => Runs w [] := by
  intro c s hl hz hs
  refine ⟨hs, prefix_refl _, by simp, fun _ w σ τ => ?_⟩
  rw [runs_nil]
  simp [Pseudo.clauseBody?, Pseudo.runs_nil]

theorem otherwise_else (h : LowersBody fault l p) (hp : ∀ span c yes no, p ≠ .ifElse span c yes no) :
    LowersClauses fault l (otherwise (some p)) fun w => Runs w [p] := by
  have heq : otherwise (some p) = (do
      let body ← bodyOf p (stmt p) (inner p) (pure ())
      return [.mk .else_ body [] (some p.span.line)]) := by
    cases p <;> first | exact absurd rfl (hp _ _ _ _) | rw [otherwise]
    all_goals simp
  intro c s hl hz hs
  rw [heq, bind_iff]
  refine (h.bodyOf c s hl hz hs).mono fun body t ht => ?_
  refine ⟨ht.scopes, ht.diagnostics, ?_, fun hd w σ τ => ?_⟩
  · simp [isClause, form]
  · simp [Pseudo.clauseBody?, ht.runs hd]

theorem otherwise_elseIf (hc : HasTy l condition .bool)
    (hf : ∀ n ∈ condition.nodes, n.isUnwritable = true → fault) (hyes : LowersBody fault l yes)
    (hno : LowersClauses fault l (otherwise no) fun w => Runs w no.toList) :
    LowersClauses fault l (otherwise (some (.ifElse span condition yes no)))
      fun w => Runs w [.ifElse span condition yes no] := by
  intro c s hl hz hs
  rw [otherwise]
  simp only [bind_iff, pure_iff]
  refine (expr_faithful hl hc s hs.numeric hf).mono fun e t ht => ?_
  refine (hyes.bodyOf c t hl hz (ht.1.scopes ▸ hs)).mono fun body u hu => ?_
  refine (hno c u hl hz hu.scopes).mono fun cs v hv => ?_
  refine ⟨hv.scopes, (ht.1.diagnostics.trans hu.diagnostics).trans hv.diagnostics, ?_, ?_⟩
  · intro p hp
    rcases mem_cons.1 hp with rfl | hp
    · rfl
    · exact hv.clauses p hp
  · intro hd w σ τ
    rw [runs_ifElse, Pseudo.clauseBody?, ht.2, asRead_of_not_zeroBased hz,
      ← hu.runs (hd.of_prefix hv.diagnostics), ← hv.runs hd]
    obtain ⟨_, hval, _ | ⟨b⟩⟩ := hc.exists_value (w := w) (σ := σ)
    cases b <;> simp [hval, Meaning.choose]

/-! ### Choices and loops -/

theorem ifElse_lowers (hc : HasTy l condition .bool)
    (hf : ∀ n ∈ condition.nodes, n.isUnwritable = true → fault) (hyes : LowersBody fault l yes)
    (hno : LowersClauses fault l (otherwise no) fun w => Runs w no.toList) :
    Lowers fault l (stmt (.ifElse span condition yes no)) fun w => Runs w [.ifElse span condition yes no] := by
  intro c s hl hz hs
  rw [stmt]
  simp only [bind_iff, pure_iff]
  refine (expr_faithful hl hc s hs.numeric hf).mono fun e t ht => ?_
  refine (hyes.bodyOf c t hl hz (ht.1.scopes ▸ hs)).mono fun body u hu => ?_
  refine (hno c u hl hz hu.scopes).mono fun cs v hv => ?_
  refine ⟨hv.scopes, (ht.1.diagnostics.trans hu.diagnostics).trans hv.diagnostics, ?_, ?_⟩
  · simp [isClause, form]
  · intro hd w σ τ
    rw [runs_ifElse, Pseudo.runs_choice hu.plain hv.clauses, ht.2,
      asRead_of_not_zeroBased hz, hu.runs (hd.of_prefix hv.diagnostics), hv.runs hd]

theorem whileLoop_lowers (hc : HasTy l condition .bool)
    (hf : ∀ n ∈ condition.nodes, n.isUnwritable = true → fault) (hbody : LowersBody fault l body) :
    Lowers fault l (stmt (.whileLoop span condition body)) fun w => Runs w [.whileLoop span condition body] := by
  intro c s hl hz hs
  rw [stmt]
  simp only [bind_iff, pure_iff]
  refine (expr_faithful hl hc s hs.numeric hf).mono fun e t ht => ?_
  refine (hbody.bodyOf.inside .loop c t hl hz (ht.1.scopes ▸ hs)).mono fun ss u hu => ?_
  refine ⟨hu.scopes, ht.1.diagnostics.trans hu.diagnostics, ?_, ?_⟩
  · simp [isClause, form]
  · intro hd w σ τ
    rw [Source.runs_whileLoop, Pseudo.runs_while]
    refine repeats_congr (fun σ b => ?_) fun σ τ => hu.runs hd w σ τ
    rw [ht.2, asRead_of_not_zeroBased hz]

theorem doLoop_lowers (hc : HasTy l condition .bool)
    (hf : ∀ n ∈ condition.nodes, n.isUnwritable = true → fault) (hbody : LowersBody fault l body) :
    Lowers fault l (stmt (.doLoop span body condition)) fun w => Runs w [.doLoop span body condition] := by
  intro c s hl hz hs
  rw [stmt]
  simp only [bind_iff, pure_iff]
  refine (hbody.bodyOf.inside .loop c s hl hz hs).mono fun ss t ht => ?_
  refine (expr_faithful hl hc t ht.scopes.numeric hf).mono fun e u hu => ?_
  refine ⟨hu.1.scopes ▸ ht.scopes, ht.diagnostics.trans hu.1.diagnostics, ?_, ?_⟩
  · simp [isClause, form]
  · intro hd w σ τ
    have hr := ht.runs (hd.of_prefix hu.1.diagnostics) w
    rw [Source.runs_doLoop, Pseudo.runs_repeatUntil_not]
    simp only [Comp, hr]
    refine exists_congr fun ρ => and_congr_right fun _ => ?_
    refine repeats_congr (fun σ b => ?_) hr
    rw [hu.2, asRead_of_not_zeroBased hz]

theorem varDecl?_lowers (h : ∀ v ∈ decl, Source.DeclaresNumbers l v)
    (hf : ∀ n ∈ Source.varDeclNode decl, n.isUnwritable = true → fault) :
    Lowers fault l (varDecl? decl) fun w => Runs w (decl.toList.map .varDecl) := by
  cases decl with
  | none =>
    exact Lowers.nil.congr fun w σ τ => runs_nil.symm
  | some v =>
    exact (varDecl_lowers (h v rfl) hf).statement "variable_declaration" v.span

theorem generalLoop_lowers {init condition update convertBody}
    (hdecl : ∀ v ∈ decl, Source.DeclaresNumbers l v) (hinit : ∀ e ∈ init, Source.IsAssignment l e)
    (hc : ∀ e ∈ condition, HasTy l e .bool) (hupdate : ∀ e ∈ update, Source.IsAssignment l e)
    (hbody : Lowers fault l convertBody fun w => Runs w [body])
    (hf : ∀ n ∈ (Stmt.forLoop span decl init condition update body).nodes, n.isUnwritable = true → fault) :
    Lowers fault l (generalLoop span decl init condition update (varDecl? decl) convertBody)
      fun w => Runs w [.forLoop span decl init condition update body] := by
  intro c s hl hz hs
  have hd := varDecl?_lowers hdecl fun n hn => hf n (by simp [nodes, hn])
  have hi := exprStatements_lowers hinit fun e he n hn =>
    hf n (by simp [nodes, Source.mem_exprNodes he hn])
  have hu := exprStatements_lowers hupdate fun e he n hn =>
    hf n (by simp [nodes, Source.mem_exprNodes he hn])
  have hround := ((hbody.append hu).nested span .block).inside .loop
  simp only [generalLoop, warn, bind_iff, report_iff]
  let s₀ : State := { s with
    diagnostics := s.diagnostics ++ [.at_ span .warning (.nonCanonicalLoop (loopName decl condition))] }
  have h₀ : s.diagnostics <+: s₀.diagnostics := prefix_append _ _
  refine (hd c s₀ hl hz hs).mono fun ds s₁ h₁ => ?_
  refine (hi c s₁ hl hz h₁.scopes).mono fun is s₂ h₂ => ?_
  -- the loop itself, once its condition is converted
  have hloop : ∀ (e : Pseudo.Expr) (s₃ : State), Keeps s₂ s₃ → (∀ w σ, e.value w σ = holds w σ condition) →
      Ensures fault (do
        let ss ← inside .loop (nested span do
          let ss ← convertBody
          return ss ++ (← exprStatements update))
        return ds ++ is ++ [.mk (.while_ e) ss ["for loop rewritten as WHILE"] (some span.line)]) c s₃
        (Lowered s fun w => Runs w [.forLoop span decl init condition update body]) := by
    intro e s₃ h₃ he
    rw [bind_iff]
    refine (hround c s₃ hl hz (h₃.scopes ▸ h₂.scopes)).mono fun ss s₄ h₄ => ?_
    have hpre : s₂.diagnostics <+: s₄.diagnostics := h₃.diagnostics.trans h₄.diagnostics
    have hpre₁ := h₂.diagnostics.trans hpre
    refine ⟨h₄.scopes, (h₀.trans h₁.diagnostics).trans hpre₁, ?_, ?_⟩
    · intro p hp
      rw [mem_append, mem_append, mem_singleton] at hp
      rcases hp with (hp | hp) | rfl
      · exact h₁.plain p hp
      · exact h₂.plain p hp
      · rfl
    · intro hshallow w σ τ
      have hrest : ∀ ρ τ, Pseudo.Runs w [.mk (.while_ e) ss ["for loop rewritten as WHILE"] (some span.line)] ρ τ ↔
          Repeats (fun σ => holds w σ condition)
            (Comp (Runs w [body]) (Runs w (update.map Expr.asStmt))) ρ τ := by
        intro ρ τ
        rw [Pseudo.runs_while]
        exact repeats_congr (fun σ b => by rw [he]) (h₄.runs hshallow w)
      rw [Source.runs_forLoop, append_assoc]
      simp [Comp, h₁.runs (hshallow.of_prefix hpre₁), Pseudo.runs_append, h₂.runs (hshallow.of_prefix hpre), hrest]
  cases condition with
  | none =>
    exact hloop _ s₂ (.refl s₂) fun w σ => by simp [Pseudo.Expr.value, holds]
  | some e =>
    rw [bind_iff]
    refine (expr_faithful hl (hc e rfl) s₂ h₂.scopes.numeric fun n hn =>
      hf n (by simp [nodes, exprNode, hn])).mono fun a s₃ h₃ => ?_
    refine hloop a s₃ h₃.1 fun w σ => ?_
    rw [h₃.2, asRead_of_not_zeroBased hz]
    rfl

/-! ### All structured statements -/

theorem mem_stmtNodes {n} (hp : p ∈ ps) (hn : n ∈ p.nodes) : n ∈ stmtNodes ps := by
  induction ps with
  | nil => cases hp
  | cons q ps ih =>
    rw [stmtNodes, mem_append]
    rcases mem_cons.1 hp with rfl | hp
    · exact .inl hn
    · exact .inr (ih hp)

/-- Every structured statement, and every list of clauses that it stands for, is converted to
statements that do what it does. -/
theorem Structured.lowers (h : Source.Structured l p) : (∀ n ∈ p.nodes, n.isUnwritable = true → fault) →
      LowersBody fault l p ∧ LowersClauses fault l (otherwise (some p)) fun w => Runs w [p] := by
  -- a statement that is no block and no choice has no further forms
  have hsimple : ∀ {p : Stmt}, isBlock p = false → (∀ span c yes no, p ≠ .ifElse span c yes no) →
      Lowers fault l (stmt p) (fun w => Runs w [p]) → LowersBody fault l p ∧
        LowersClauses fault l (otherwise (some p)) fun w => Runs w [p] := by
    intro p hb hi hp
    have hbody : LowersBody fault l p := ⟨hp, fun h => absurd h (by simp [hb])⟩
    exact ⟨hbody, otherwise_else hbody hi⟩
  induction h with
  | @block span ss _ ih =>
    intro hf
    have hss : Lowers fault l (stmts ss) fun w => Runs w ss := stmts_lowers fun p hp =>
      (ih p hp fun n hn => hf n (by
        simp [nodes, Block.nodes, mem_stmtNodes hp hn])).1.own
    have hblock : Lowers fault l (stmts ss) fun w => Runs w [.block ⟨span, ss⟩] :=
      hss.congr fun w σ τ => Source.runs_block.symm
    have hbody : LowersBody fault l (.block ⟨span, ss⟩) := by
      refine ⟨?_, fun _ => ?_⟩
      · rw [stmt]
        exact hblock.nested span .block
      · rw [inner]
        exact hblock
    exact ⟨hbody, otherwise_else hbody (by simp)⟩
  | empty =>
    intro _
    refine hsimple rfl (by simp) ?_
    exact Lowers.nil.congr fun w σ τ => Source.runs_empty.symm
  | declaration hv =>
    intro hf
    refine hsimple rfl (by simp) ?_
    exact varDecl_lowers hv fun n hn => hf n (by simpa [nodes] using hn)
  | assignment he =>
    intro hf
    refine hsimple rfl (by simp) ?_
    exact (exprStatement_lowers he _ fun n hn => hf n (by simp [nodes, hn])).congr
      fun w σ τ => Source.runs_expression.symm
  | @ifElse span c yes no hc _ _ ihyes ihno =>
    intro hf
    have hcond : ∀ n ∈ c.nodes, n.isUnwritable = true → fault := fun n hn =>
      hf n (by simp [nodes, hn])
    have hyes := (ihyes fun n hn => hf n (by simp [nodes, hn])).1
    have hno : LowersClauses fault l (otherwise no) fun w => Runs w no.toList := by
      cases no with
      | none => exact otherwise_none
      | some p =>
        exact (ihno p rfl fun n hn => hf n (by simp [nodes, Source.stmtNode, hn])).2
    exact ⟨⟨ifElse_lowers hc hcond hyes hno, fun h => by simp [isBlock] at h⟩, otherwise_elseIf hc hcond hyes hno⟩
  | whileLoop hc _ ih =>
    intro hf
    exact hsimple rfl (by simp) (whileLoop_lowers hc (fun n hn => hf n (by simp [nodes, hn]))
      (ih fun n hn => hf n (by simp [nodes, hn])).1)
  | doLoop hc _ ih =>
    intro hf
    exact hsimple rfl (by simp) (doLoop_lowers hc (fun n hn => hf n (by simp [nodes, hn]))
      (ih fun n hn => hf n (by simp [nodes, hn])).1)
  | forLoop hnone hdecl hinit hc hupdate _ ih =>
    intro hf
    refine hsimple rfl (by simp) ?_
    rw [stmt, hnone]
    exact generalLoop_lowers hdecl hinit hc hupdate (ih fun n hn => hf n (by simp [nodes, hn])).1.choose hf

theorem predeclareVariables_eq (h : Source.DeclaresNumbers l v) (s : State) : predeclareVariables l s v = s := by
  have hds := h.declarators
  unfold predeclareVariables
  generalize v.declarators = ds at hds
  induction ds with
  | nil => rfl
  | cons d ds ih =>
    obtain ⟨e, he, hty⟩ := (hds d (by simp)).init
    rw [foldl_cons, he]
    have hd : ∀ p ps b a, e ≠ .lambda p ps b a := by
      rintro p ps b a rfl
      cases hty
    cases e <;> first | exact absurd rfl (hd _ _ _ _) | exact ih fun d hd => hds d (by simp [hd])

theorem predeclareAll_eq (h : ∀ p ∈ ps, Source.Structured l p) (owner : Option String) (s : State) :
    predeclareAll l owner s ps = s := by
  induction ps with
  | nil => rw [predeclareAll]
  | cons p ps ih =>
    have hp : predeclare l owner s p = s := by
      cases h p (by simp) with
      | declaration hv =>
        exact predeclareVariables_eq hv s
      | _ => rfl
    rw [predeclareAll, hp]
    exact ih fun p hp => h p (by simp [hp])

end Convert

namespace Conversion

theorem run_lowered {fault q} (limit : Nat) (p : Source.Program) (h : ∀ s ∈ p.body, Source.Structured p.language s)
    (hq : Convert.Lowers fault p.language (Convert.stmts p.body) q) :
    match run limit p with
    | .ok r => Convert.Shallow r.diagnostics → ∀ w σ τ, Pseudo.Runs w r.body σ τ ↔ q w σ τ
    | .error _ => fault := by
  have hnumeric : (startState p).scopes.AllNumeric := by
    rw [show startState p = {} from Convert.predeclareAll_eq h none {}]
    intro scope hs
    rw [mem_singleton.1 hs]
    exact ⟨by simp, by simp⟩
  have hrun := run_of_ensures (hq { language := p.language, limit := limit } (startState p) rfl rfl hnumeric)
  cases hr : run limit p with
  | error e => simpa only [hr] using hrun
  | ok r =>
    rw [hr] at hrun
    obtain ⟨s, hs, hd⟩ := hrun
    exact fun hshallow => hs.runs (hshallow.of_prefix (hd ▸ prefix_append _ _))

theorem body_lowers {p : Source.Program} (h : ∀ s ∈ p.body, Source.Structured p.language s) :
    Convert.Lowers (∃ n ∈ p.nodes, n.isUnwritable = true) p.language (Convert.stmts p.body)
      fun w => Runs w p.body :=
  Convert.stmts_lowers fun s hs => ((Convert.Structured.lowers (h s hs)) fun n hn hu =>
    ⟨n, Convert.mem_stmtNodes hs hn, hu⟩).1.own

/-- A program of structured statements has a conversion unless a number in it has too many digits to
be written. Where no scopes nest too deeply, the conversion ends, from every store, in exactly the
stores in which the program ends. -/
theorem run_preserves_execution (limit : Nat) (p : Source.Program)
    (h : ∀ s ∈ p.body, Source.Structured p.language s) :
    match run limit p with
    | .ok r => Convert.Shallow r.diagnostics →
        ∀ w σ τ, Pseudo.Runs w r.body σ τ ↔ Source.Runs w p.body σ τ
    | .error _ => ∃ n ∈ p.nodes, n.isUnwritable = true :=
  run_lowered limit p h (body_lowers h)

open Source in
/-- A number, a loop that assigns a conditional value to it, and a choice of three branches, the last
of which is a loop that does not count. -/
def structuredSample : Program :=
  let place := Span.unplaced
  let n := Expr.identifier place "n"
  let k (i : Nat) (raw : String) := Expr.number place (.int i) raw
  { language := .java, span := place, structuralErrors := []
    body := [ .varDecl {
        span := place, type := some { span := place, name := "int" }
        declarators := [{ span := place, name := "n", init := some (k 7 "7") }] },
      .whileLoop place (.binary place .gt n (k 2 "2")) (.block ⟨place, [.expression place
        (.assignment place .set n (.conditional place (.binary place .gt n (k 5 "5"))
          (.binary place .sub n (k 3 "3")) (.unary place .neg n)))]⟩),
      .ifElse place (.binary place .lt n (k 0 "0")) (.expression place (.update place .increment true n))
        (some (.ifElse place (.unary place .not (.binary place .eq n (k 1 "1"))) (.empty place)
          (some (.forLoop place none [] (some (.binary place .lt n (k 9 "9")))
            [.assignment place (.with_ .mul) n (k 2 "2")] (.block ⟨place, []⟩)))))] }

theorem structuredSample_structured : ∀ s ∈ structuredSample.body, Source.Structured structuredSample.language s := by
  have hn : ∀ {l}, HasTy l (.identifier .unplaced "n") .int := .identifier (by decide)
  intro s hs
  simp only [structuredSample, mem_cons, not_mem_nil, or_false] at hs
  rcases hs with rfl | rfl | rfl
  · refine .declaration ⟨by decide, fun d hd => ?_⟩
    rw [mem_singleton.1 hd]
    exact ⟨by decide, ⟨.unplaced, rfl⟩, _, rfl, .number⟩
  · refine .whileLoop (.comparison rfl hn .number) (.block fun s hs => ?_)
    rw [mem_singleton.1 hs]
    exact .assignment (.set (by decide) (.conditional (.comparison rfl hn .number)
      (.arithmetic rfl hn .number) (.neg hn)))
  · refine .ifElse (.comparison rfl hn .number) (.assignment (.update (by decide))) ?_
    rintro s ⟨⟩
    refine .ifElse (.not (.comparison rfl hn .number)) .empty ?_
    rintro s ⟨⟩
    refine .forLoop rfl (by simp) (by simp) ?_ ?_ (.block (by simp))
    · rintro e ⟨⟩
      exact .comparison rfl hn .number
    · intro e he
      rw [mem_singleton.1 he]
      exact .operate (by decide) rfl .number

theorem run_preserves_execution_sample :
    (∀ s ∈ structuredSample.body, Source.Structured structuredSample.language s) ∧
      ∃ r, run 200 structuredSample = .ok r ∧ Convert.Shallow r.diagnostics ∧
        ∀ w σ τ, Pseudo.Runs w r.body σ τ ↔ Source.Runs w structuredSample.body σ τ := by
  have hstructured := structuredSample_structured
  have hok : (run 200 structuredSample).toOption.any (fun r => Convert.Shallow r.diagnostics) = true := by
    decide +kernel
  -- a variable stands for the sample, or its conversion is evaluated at each mention
  generalize structuredSample = p at hstructured hok ⊢
  have h := run_preserves_execution 200 p hstructured
  obtain ⟨r, hr, hshallow⟩ := Convert.exists_ok_of_any hok
  rw [hr] at h
  exact ⟨hstructured, r, hr, of_decide_eq_true hshallow, h (of_decide_eq_true hshallow)⟩

end Conversion

end Blackboard
