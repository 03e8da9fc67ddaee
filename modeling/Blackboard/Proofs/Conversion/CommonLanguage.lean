import Blackboard.Proofs.Conversion.Frame
import Blackboard.Proofs.Lowering.Assignment
import Blackboard.Pseudo.Layout

/-!
The language that both source languages share. Its statements are converted in the same way in either
language. The two conversions are run from the same state, in which no variable is known to be a text:
only of texts do the two languages know different things.
-/
namespace Blackboard

open Conversion List
open Source (Span BinaryOp UnaryOp AssignOp CountingLoop)

/-! ### The statements -/

namespace Source

def BinaryOp.isCommon : BinaryOp → Bool
  | .add | .sub | .mul | .rem | .eq | .ne | .lt | .gt | .le | .ge | .and | .or => true
  | _ => false

def AssignOp.isCommon : AssignOp → Bool
  | .set | .with_ .add | .with_ .sub | .with_ .mul => true
  | _ => false

inductive Expr.IsCommon : Expr → Prop where
  | number {span n raw} : IsCommon (.number span (.int n) raw)
  | boolean {span b} : IsCommon (.boolean span b)
  | identifier {span x} : IsCommon (.identifier span x)
  | index {span a i} : IsCommon a → IsCommon i → IsCommon (.index span a i)
  | binary {span op a b} : op.isCommon = true → IsCommon a → IsCommon b →
      IsCommon (.binary span op a b)
  | neg {span a} : IsCommon a → IsCommon (.unary span .neg a)
  | not {span a} : IsCommon a → IsCommon (.unary span .not a)
  | conditional {span c a b} : IsCommon c → IsCommon a → IsCommon b →
      IsCommon (.conditional span c a b)

/-- The expressions that stand as statements in both languages. -/
inductive Expr.IsCommonAction : Expr → Prop where
  | assignment {span op target value} : op.isCommon = true → target.IsCommon → value.IsCommon →
      IsCommonAction (.assignment span op target value)
  | update {span op before target} : target.IsCommon → IsCommonAction (.update span op before target)
  | print {span own args} : (∀ e ∈ args, e.IsCommon) →
      IsCommonAction (.call span (.identifier own "print") args)

inductive Stmt.IsCommon : Stmt → Prop where
  | block {span ss} : (∀ s ∈ ss, IsCommon s) → IsCommon (.block ⟨span, ss⟩)
  | expression {span e} : e.IsCommonAction → IsCommon (.expression span e)
  | ifElse {span c yes no} : c.IsCommon → IsCommon yes → (∀ s, no = some s → IsCommon s) →
      IsCommon (.ifElse span c yes no)
  | whileLoop {span c body} : c.IsCommon → IsCommon body → IsCommon (.whileLoop span c body)
  | doLoop {span body c} : IsCommon body → c.IsCommon → IsCommon (.doLoop span body c)
  | forLoop {span init c update body} : (∀ e ∈ init, e.IsCommonAction) →
      (∀ e, c = some e → e.IsCommon) → (∀ e ∈ update, e.IsCommonAction) → IsCommon body →
      IsCommon (.forLoop span none init c update body)
  | breakStmt {span label} : IsCommon (.breakStmt span label)
  | continueStmt {span label} : IsCommon (.continueStmt span label)
  | empty {span} : IsCommon (.empty span)

theorem inferBinary_of_isCommon {op} (hop : op.isCommon = true) {a b}
    (ha : a ≠ some .string) (hb : b ≠ some .string) :
    inferBinary .java op a b = inferBinary .typescript op a b ∧
      inferBinary .java op a b ≠ some .string := by
  have hcombine := Pseudo.Scalar.combine_ne_string ha hb
  cases op <;> first | exact absurd hop (by decide) | exact ⟨rfl, hcombine⟩ | exact ⟨rfl, nofun⟩

namespace Expr.IsCommon

variable {e : Expr}

theorem infer_eq {scopes} (hs : scopes.Numeric) (enums : List String) (h : e.IsCommon) :
    infer ⟨.java, scopes, enums⟩ e = infer ⟨.typescript, scopes, enums⟩ e ∧
      ∀ k, infer ⟨.java, scopes, enums⟩ e = some k → k.base ≠ .string := by
  induction h with
  | number | boolean | not => exact ⟨by simp [infer], by simp +contextual [infer]⟩
  | identifier => exact ⟨rfl, fun k hk => hs.typeOf? (by rwa [infer] at hk)⟩
  | neg _ ih => simpa only [infer] using ih
  | index _ _ iha _ =>
    simp only [infer, ← iha.1]
    cases ha : infer ⟨.java, scopes, enums⟩ _ with
    | none => exact ⟨rfl, by simp⟩
    | some k =>
      have hbase := iha.2 k ha
      simp only [hbase, if_false, true_and]
      intro j hj
      split at hj
      · cases hj
        exact hbase
      · cases hj
  | binary hop _ _ iha ihb =>
    have hop := inferBinary_of_isCommon hop (scalar?_ne_string iha.2) (scalar?_ne_string ihb.2)
    simp only [infer, ← iha.1, ← ihb.1]
    refine ⟨by rw [hop.1], fun k hk => ?_⟩
    obtain ⟨scalar, hscalar, rfl⟩ := Option.map_eq_some_iff.1 hk
    rintro rfl
    exact hop.2 hscalar
  | conditional _ _ _ _ iha ihb =>
    simp only [infer, ← iha.1, ← ihb.1, true_and, Option.orElse_eq_orElse, Option.orElse_eq_or, Option.or_eq_some_iff]
    rintro k (hk | ⟨-, hk⟩)
    · exact iha.2 k hk
    · exact ihb.2 k hk

theorem inferScalar_eq {scopes} (hs : scopes.Numeric) (enums : List String) (h : e.IsCommon) :
    inferScalar ⟨.java, scopes, enums⟩ e = inferScalar ⟨.typescript, scopes, enums⟩ e :=
  congrArg scalar? (h.infer_eq hs enums).1

theorem isString_eq_false (h : e.IsCommon) : Convert.isString e = false := by
  cases h <;> rfl

theorem input?_eq_none (h : e.IsCommon) (v : View) : v.input? e = none := by
  cases h <;> rfl

theorem lengthBound?_eq_none (h : e.IsCommon) : e.lengthBound? = none := by
  have htarget {a : Expr} (ha : a.IsCommon) : a.lengthTarget? = none := by cases ha <;> rfl
  cases h with
  | @binary _ op a b hop ha hb =>
    cases op <;> first
      | exact absurd hop (by decide)
      | rfl
      | simp [lengthBound?, htarget ha]
  | _ => rfl

end Expr.IsCommon

end Source

/-! ### Steps that are the same in both languages -/

namespace Convert

variable {α β : Type}
variable {loop : CountingLoop} {ss : List Source.Stmt}

/-- A step that does the same in both languages where no variable is known to be a text, and makes no
variable known to be one. -/
structure Shared (x : Convert α) : Prop where
  same : ∀ c s, c.language = .java → s.scopes.AllNumeric → x { c with language := .typescript } s = x c s
  keeps : ∀ c s, c.language = .java → s.scopes.AllNumeric → Ensures True x c s fun _ t => t.scopes.AllNumeric

namespace Shared

variable {x : Convert α}

theorem pure (a : α) : Shared (pure a) := ⟨fun _ _ _ _ => rfl, fun _ _ _ hs => hs⟩

theorem bind {f : α → Convert β} (hx : Shared x) (hf : ∀ a, Shared (f a)) : Shared (x >>= f) where
  same c s hc hs := by
    have hkeeps := (hx.keeps c s hc hs).and_run
    change (do let (a, t) ← x { c with language := .typescript } s; f a { c with language := .typescript } t) =
      (do let (a, t) ← x c s; f a c t : Except Fault (β × State))
    rw [hx.same c s hc hs]
    cases hrun : x c s with
    | error e => rfl
    | ok r =>
      unfold Ensures at hkeeps
      rw [hrun] at hkeeps
      exact (hf r.1).same c r.2 hc hkeeps.1
  keeps c s hc hs := by
    rw [Ensures.bind_iff]
    exact (hx.keeps c s hc hs).mono fun a t ht => (hf a).keeps c t hc ht

theorem map (f : α → β) (hx : Shared x) : Shared (f <$> x) := by
  exact bind hx fun a => pure _

theorem ite {p} [Decidable p] {y} (hx : Shared x) (hy : Shared y) : Shared (if p then x else y) := by
  split
  · exact hx
  · exact hy

theorem throw (e : Fault) : Shared (throw e : Convert α) := ⟨fun _ _ _ _ => rfl, fun _ _ _ _ => trivial⟩

theorem get_bind {f : State → Convert α} (h : ∀ s, Shared (f s)) : Shared (get >>= f) where
  same c s := (h s).same c s
  keeps c s := (h s).keeps c s

theorem read_bind {f : Context → Convert α} (hf : ∀ c, f { c with language := .typescript } = f c)
    (h : ∀ c, Shared (f c)) : Shared (read >>= f) where
  same c s hc hs := by
    change f { c with language := .typescript } { c with language := .typescript } s = f c c s
    rw [hf c]
    exact (h c).same c s hc hs
  keeps c s := (h c).keeps c s

theorem view_bind {f : View → Convert α} (hf : ∀ scopes enums, scopes.AllNumeric →
      f ⟨.typescript, scopes, enums⟩ = f ⟨.java, scopes, enums⟩)
    (h : ∀ v, Shared (f v)) : Shared (view >>= f) where
  same c s hc hs := by
    change f ⟨.typescript, s.scopes, s.enumNames⟩ { c with language := .typescript } s =
      f ⟨c.language, s.scopes, s.enumNames⟩ c s
    rw [hf _ _ hs, ← hc]
    exact (h _).same c s hc hs
  keeps c s := (h ⟨c.language, s.scopes, s.enumNames⟩).keeps c s

theorem modify {f} (hf : ∀ s, s.scopes.AllNumeric → (f s).scopes.AllNumeric) : Shared (modify f) :=
  ⟨fun _ _ _ _ => rfl, fun _ s _ hs => hf s hs⟩

theorem report (d : Diagnostic) : Shared (report d) := modify fun _ hs => hs

theorem note (text : String) : Shared (note text) := modify fun _ hs => hs

theorem findVariable? (name : String) : Shared (findVariable? name) := get_bind fun _ => .pure _

theorem declareVariable {v} (hv : v.IsNumeric) : Shared (declareVariable v) :=
  modify fun _ hs => hs.declareVariable hv

theorem written (e : Pseudo.Expr) : Shared (written e) := ite (pure e) (throw _)

theorem withReader {f} (hf : ∀ c l, f { c with language := l } = { f c with language := l }) (hx : Shared x) :
    Shared (withReader f x) := by
  have hlanguage (c : Context) (hc : c.language = .java) : (f c).language = .java := by
    have h := congrArg Context.language (hf c .java)
    rwa [show ({ c with language := .java } : Context) = c by rw [← hc]] at h
  refine ⟨fun c s hc hs => ?_, fun c s hc hs => hx.keeps (f c) s (hlanguage c hc) hs⟩
  change x (f { c with language := .typescript }) s = x (f c) s
  rw [hf]
  exact hx.same (f c) s (hlanguage c hc) hs

theorem inScope (kind : ScopeKind) (span : Span) (hx : Shared x) : Shared (inScope kind span x) := by
  refine read_bind (fun _ => rfl) fun c => get_bind fun s => ite (bind (report _) fun _ => pure _) ?_
  refine bind (modify fun _ hs => hs.enter kind) fun _ => bind hx fun a => bind ?_ fun _ => pure _
  exact modify fun _ hs => hs

theorem nested (span : Span) {x} (hx : Shared x) : Shared (nested span x) := by
  refine bind (inScope .block span hx) fun r => ?_
  cases r with
  | some ss => exact pure ss
  | none => exact read_bind (fun _ => rfl) fun _ => pure _

theorem statement (kind : String) (span : Span) {x : Convert (List Pseudo.Stmt)} (hx : Shared x) :
    Shared (statement kind span x) := by
  refine get_bind fun s => bind (modify fun _ hs => hs) fun _ => ?_
  refine bind (withReader (fun _ _ => rfl) hx) fun result => get_bind fun t => ?_
  exact bind (modify fun _ hs => hs) fun _ => pure _

theorem zeroBased (hx : Shared x) : Shared (zeroBased x) := withReader (fun _ _ => rfl) hx

theorem inside (b : Breakable) (hx : Shared x) : Shared (inside b x) :=
  withReader (fun _ _ => rfl) hx

end Shared

/-! ### Expressions -/

open Source (Expr)

theorem isOneBased_shared (e : Expr) : Shared (isOneBased e) := by
  unfold isOneBased
  split
  · exact .bind (.findVariable? _) fun _ => .pure _
  · exact .pure _

theorem indexValue_shared (e : Expr) {x} (hx : Shared x) : Shared (indexValue e x) := by
  refine .bind (isOneBased_shared e) fun b => .ite hx ?_
  refine .bind hx.zeroBased fun a => .bind (.written _) fun shifted => .bind (.report _) fun _ => ?_
  exact .ite (.bind (.report _) fun _ => .pure _) (.pure _)

theorem name_shared (x : String) (span : Span) : Shared (name x span) := by
  refine .ite (.pure _) (.ite (.pure _) (.get_bind fun s => ?_))
  exact .read_bind (fun _ => rfl) fun c => .ite (.pure _) (.pure _)

variable {op : BinaryOp}

theorem combine_shared {span : Span} {left right : Expr} (a b : Pseudo.Expr)
    (hop : op.isCommon = true) (hleft : left.IsCommon) (hright : right.IsCommon) :
    Shared (combine span op left right a b) := by
  have hdiv : op ≠ .div := by rintro rfl; exact absurd hop (by decide)
  refine .view_bind (fun scopes enums hs => ?_) fun v => ?_
  · simp [hleft.inferScalar_eq hs.numeric enums, hright.inferScalar_eq hs.numeric enums, hdiv]
  · refine .ite (.pure _) (.ite (.pure _) (.ite (.pure _) ?_))
    split
    · exact .bind (.report _) fun _ => .pure _
    · exact .ite (.bind (.report _) fun _ => .bind (.note _) fun _ => .pure _) (.pure _)

variable {e : Expr}

theorem expr_shared (h : e.IsCommon) : Shared (expr e) := by
  induction h with
  | @number span n raw =>
    rw [expr, number]
    cases numberText? raw (.int n) with
    | none => exact .throw _
    | some text => exact .pure _
  | boolean =>
    exact .pure _
  | identifier =>
    exact name_shared _ _
  | index _ hi iha ihi =>
    rw [expr, hi.isString_eq_false]
    exact .bind iha fun a => .bind (indexValue_shared _ ihi) fun i => .pure _
  | @binary span op a b hop ha hb iha ihb =>
    have hoperation : operation span op a b (expr a) (expr b) = (do
        let x ← expr a
        let y ← expr b
        combine span op a b x y) := by
      cases op <;> first | exact absurd hop (by decide) | rfl
    rw [expr, hoperation]
    exact .bind iha fun x => .bind ihb fun y => combine_shared x y hop ha hb
  | neg _ ih | not _ ih =>
    exact .bind ih fun a => .pure _
  | conditional _ _ _ ihc iha ihb =>
    refine .read_bind (fun _ => rfl) fun c => .bind (.report _) fun _ => ?_
    exact .bind ihc fun x => .bind iha fun y => .bind ihb fun z => .pure _

/-! ### Expressions as statements -/

theorem outputItems_shared (h : e.IsCommon) : Shared (outputItems e) := by
  have hitem : Shared (do return [← expr e]) := .bind (expr_shared h) fun a => .pure _
  induction h with
  | @binary span op a b hop ha hb iha _ =>
    have hexpr : (Expr.binary span op a b).IsCommon := .binary hop ha hb
    have hleft : Shared (outputItems a) := iha (.bind (expr_shared ha) fun a => .pure _)
    cases op <;> first | exact hitem | skip
    refine .view_bind (fun scopes enums hs => ?_) fun v => .ite ?_ hitem
    · rw [hexpr.inferScalar_eq hs.numeric enums]
    · exact .bind hleft fun items => .bind (expr_shared hb) fun x => .pure _
  | _ => exact hitem

variable {es : List Expr}

theorem allOutputItems_shared (h : ∀ e ∈ es, e.IsCommon) : Shared (allOutputItems es) := by
  induction es with
  | nil => exact .pure _
  | cons e es ih =>
    rw [forall_mem_cons] at h
    exact .bind (outputItems_shared h.1) fun items => .bind (ih h.2) fun rest => .pure _

theorem callStatement_print_shared (span own : Span) {args : List Expr} (h : ∀ e ∈ args, e.IsCommon) :
    Shared (callStatement span (.identifier own "print") args) := by
  have hwrites (l : Language) : (outputCalls l).contains "print" = true := by cases l <;> decide
  refine .view_bind (fun scopes enums _ => ?_) fun v => ?_
  · simp only [Expr.dottedName?, Option.any_some, hwrites, if_true]
  · simp only [Expr.dottedName?, Option.any_some, hwrites, if_true]
    refine .ite (.bind (.note _) fun _ => ?_) ?_
    all_goals exact .bind (allOutputItems_shared h) fun items => .pure _

theorem expand_shared (span : Span) {condition} (h : condition.IsCommon)
    {yes no} (hyes : Shared yes) (hno : Shared no) :
    Shared (expand span condition yes no) := by
  refine .bind (.report _) fun _ => .bind (.note _) fun _ => .bind (expr_shared h) fun c => ?_
  exact .bind (hyes.nested span) fun a => .bind (hno.nested span) fun b => .pure _

variable {target value : Expr}

theorem assignValue_shared (span : Span) (ht : target.IsCommon) (hv : value.IsCommon) :
    Shared (assignValue span target value) := by
  have hplain {value : Expr} (hv : value.IsCommon)
      (hcond : ∀ s c yes no, value = .conditional s c yes no → False) : Shared (assignValue span target value) := by
    simp only [assignValue.eq_2 span target value hcond, hv.input?_eq_none]
    exact .view_bind (fun _ _ _ => rfl) fun v => .bind (expr_shared ht) fun t =>
      .bind (expr_shared hv) fun x => .pure _
  induction hv with
  | conditional hc _ _ _ ihyes ihno =>
    exact expand_shared _ hc (ihyes.statement _ _) (ihno.statement _ _)
  | number => exact hplain .number (by simp)
  | boolean => exact hplain .boolean (by simp)
  | identifier => exact hplain .identifier (by simp)
  | index ha hi => exact hplain (.index ha hi) (by simp)
  | binary hop ha hb => exact hplain (.binary hop ha hb) (by simp)
  | neg ha => exact hplain (.neg ha) (by simp)
  | not ha => exact hplain (.not ha) (by simp)

theorem assignOperation_shared (span : Span) (hop : op.isCommon = true) (ht : target.IsCommon)
    (hv : value.IsCommon) : Shared (assignOperation span op target value) := by
  refine .bind (expr_shared (.binary hop ht hv)) fun result => ?_
  split
  · exact .bind (.pure _) fun t => .pure _
  · exact .bind (expr_shared ht) fun t => .pure _

theorem assignment_shared (span : Span) {op} (hop : op.isCommon = true)
    (ht : target.IsCommon) (hv : value.IsCommon) : Shared (assignment span op target value) := by
  cases op with
  | set => exact assignValue_shared span ht hv
  | with_ op =>
    cases op <;> first | exact absurd hop (by decide) | exact assignOperation_shared span rfl ht hv

theorem exprStatement_shared (span : Span) (h : e.IsCommonAction) : Shared (exprStatement span e) := by
  cases h with
  | assignment hop ht hv => exact assignment_shared _ hop ht hv
  | @update _ op _ _ ht =>
    cases op <;> exact assignment_shared _ rfl ht .number
  | print h => exact callStatement_print_shared _ _ h

theorem exprStatements_shared (h : ∀ e ∈ es, e.IsCommonAction) : Shared (exprStatements es) := by
  induction es with
  | nil => exact .pure _
  | cons e es ih =>
    rw [forall_mem_cons] at h
    exact .bind (.statement _ _ (exprStatement_shared _ h.1)) fun first => .bind (ih h.2) fun rest => .pure _

/-! ### Loops -/

theorem bodyOf_shared {body own inner before} (hown : Shared own) (hinner : Shared inner) (hbefore : Shared before) :
    Shared (bodyOf body own inner before) :=
  .nested _ (.bind hbefore fun _ => .ite hinner (hown.statement _ _))

theorem lastValue_shared (bound : Pseudo.Expr) (strict : Bool) (step : Int) : Shared (lastValue bound strict step) :=
  .ite (.written _) (.pure _)

theorem range_shared (hstart : loop.start.IsCommon) (hbound : loop.bound.IsCommon) : Shared (range loop) := by
  refine .bind (expr_shared hstart) fun start => .ite ?_ ?_
  · rw [ascendingRange, hbound.lengthBound?_eq_none]
    exact .bind (expr_shared hbound) fun b => .bind (lastValue_shared _ _ _) fun stop => .pure _
  · simp only [descendingRange, hstart.lengthBound?_eq_none]
    exact .bind (expr_shared hbound) fun b => .bind (lastValue_shared _ _ _) fun stop => .pure _

theorem countingLoop_shared (span : Span) (htype : loop.type = none) (hstart : loop.start.IsCommon)
    (hbound : loop.bound.IsCommon) {body}
    (hbody : ∀ x, Shared x → Shared (body x)) : Shared (countingLoop span loop body) := by
  have hcounter (b : Bool) : Variable.IsNumeric { name := loop.name, type := "INTEGER", oneBased := b } := by
    change Pseudo.Scalar.ofText "INTEGER" ≠ .string
    decide
  refine .bind (range_shared hstart hbound) fun r => ?_
  -- a counter without a declared type is a whole number in either language
  rw [htype]
  refine .ite (.bind (.report _) fun _ => ?_) ?_
  all_goals
    refine .read_bind (fun _ => rfl) fun c => .bind (.inside _ (hbody _ (.declareVariable (hcounter _)))) fun ss => ?_
    exact .ite (.bind (.pure _) fun _ => .pure _) (.bind (.map _ (.written _)) fun _ => .pure _)

variable {init update : List Expr} {condition : Option Expr}

theorem generalLoop_shared (span : Span) (hinit : ∀ e ∈ init, e.IsCommonAction)
    (hcondition : ∀ e, condition = some e → e.IsCommon) (hupdate : ∀ e ∈ update, e.IsCommonAction)
    {body} (hbody : Shared body) :
    Shared (generalLoop span none init condition update (varDecl? none) body) := by
  have hbody : Shared (inside .loop (nested span do
      let ss ← body
      return ss ++ (← exprStatements update))) :=
    .inside _ (.nested _ (.bind hbody fun ss => .bind (exprStatements_shared hupdate) fun _ => .pure _))
  refine .bind (.report _) fun _ => .bind (.pure _) fun _ => .bind (exprStatements_shared hinit) fun _ => ?_
  cases condition with
  | none => exact .bind (.pure _) fun _ => .bind hbody fun _ => .pure _
  | some e => exact .bind (expr_shared (hcondition e rfl)) fun _ => .bind hbody fun _ => .pure _

theorem ofLoop?_isCommon {body} (hinit : ∀ e ∈ init, e.IsCommonAction)
    (hcondition : ∀ e, condition = some e → e.IsCommon)
    (h : CountingLoop.ofLoop? none init condition update body = some loop) :
    loop.type = none ∧ loop.start.IsCommon ∧ loop.bound.IsCommon := by
  simp only [CountingLoop.ofLoop?, Option.bind_eq_bind, Option.bind_eq_some_iff] at h
  obtain ⟨⟨name, type, start⟩, hfirst, ⟨op, bound⟩, ⟨e, he, hcomparison⟩, h⟩ := h
  have hstart : type = none ∧ start.IsCommon := by
    unfold CountingLoop.initial? at hfirst
    split at hfirst
    · next heq => cases heq
    · cases hfirst
      cases hinit _ (mem_singleton_self _) with
      | assignment _ _ hvalue => exact ⟨rfl, hvalue⟩
    · cases hfirst
  have hbound : bound.IsCommon := by
    cases hcondition e he with
    | binary _ hleft hright =>
      simp only [CountingLoop.comparison?, Option.bind_eq_bind, Option.bind_eq_some_iff] at hcomparison
      obtain ⟨back, -, hcomparison⟩ := hcomparison
      split at hcomparison
      · cases hcomparison
        exact hright
      · split at hcomparison
        · cases hcomparison
          exact hleft
        · cases hcomparison
    | _ => cases hcomparison
  split at h
  · cases h
  · split at h
    · obtain ⟨step, -, h⟩ := Option.bind_eq_some_iff.1 h
      split at h
      · cases h
        exact ⟨hstart.1, hstart.2, hbound⟩
      · cases h
    · cases h

/-! ### Statements -/

/-- A statement that is converted alike in both languages, wherever it stands. -/
structure SharedStmt (s : Source.Stmt) : Prop where
  own : Shared (stmt s)
  inner : Shared (inner s)
  clause : Shared (otherwise (some s))

namespace SharedStmt

theorem body {s} (h : SharedStmt s) {before} (hbefore : Shared before) :
    Shared (bodyOf s (stmt s) (Convert.inner s) before) :=
  bodyOf_shared h.own h.inner hbefore

theorem of_own {s} (hblock : ∀ span ss, s ≠ .block ⟨span, ss⟩)
    (hchoice : ∀ span c yes no, s ≠ .ifElse span c yes no) (h : Shared (stmt s)) : SharedStmt s := by
  have hinner : Shared (Convert.inner s) := by
    rw [Convert.inner]
    · exact .pure _
    · exact hblock
  refine ⟨h, hinner, ?_⟩
  rw [otherwise]
  · exact .bind (bodyOf_shared h hinner (.pure _)) fun _ => .pure _
  · exact hchoice

end SharedStmt

theorem stmts_shared (h : ∀ s ∈ ss, SharedStmt s) : Shared (stmts ss) := by
  induction ss with
  | nil =>
    exact .pure _
  | cons s ss ih =>
    rw [forall_mem_cons] at h
    exact .bind (h.1.own.statement _ _) fun first => .bind (ih h.2) fun rest => .pure _

theorem otherwise_shared {s} (h : ∀ t, s = some t → SharedStmt t) : Shared (otherwise s) := by
  cases s with
  | none =>
    exact .pure _
  | some s => exact (h s rfl).clause

theorem sharedStmt_of_isCommon {s : Source.Stmt} (h : s.IsCommon) : SharedStmt s := by
  induction h with
  | @block span ss _ ih =>
    have hinner : Shared (inner (.block ⟨span, ss⟩)) := by
      exact stmts_shared ih
    have hown : Shared (stmt (.block ⟨span, ss⟩)) := by
      exact .nested _ (stmts_shared ih)
    refine ⟨hown, hinner, ?_⟩
    rw [otherwise]
    · exact .bind (bodyOf_shared hown hinner (.pure _)) fun _ => .pure _
    · nofun
  | expression h =>
    refine .of_own nofun nofun ?_
    exact exprStatement_shared _ h
  | ifElse hc _ _ ihyes ihno =>
    have hyes := ihyes.body (.pure ())
    have hno := otherwise_shared ihno
    refine ⟨?_, ?_, ?_⟩
    · rw [stmt]
      exact .bind (expr_shared hc) fun c => .bind hyes fun a => .bind hno fun b => .pure _
    · rw [inner]
      · exact .pure _
      · nofun
    · rw [otherwise]
      exact .bind (expr_shared hc) fun c => .bind hyes fun a => .bind hno fun b => .pure _
  | whileLoop hc _ ih =>
    refine .of_own nofun nofun ?_
    exact .bind (expr_shared hc) fun c => .bind (.inside _ (ih.body (.pure ()))) fun ss => .pure _
  | doLoop _ hc ih =>
    refine .of_own nofun nofun ?_
    exact .bind (.inside _ (ih.body (.pure ()))) fun ss => .bind (expr_shared hc) fun c => .pure _
  | @forLoop span init c update body hinit hc hupdate _ ih =>
    refine .of_own nofun nofun ?_
    rw [stmt]
    cases hloop : CountingLoop.ofLoop? none init c update body with
    | some loop =>
      obtain ⟨htype, hstart, hbound⟩ := ofLoop?_isCommon hinit hc hloop
      exact countingLoop_shared span htype hstart hbound fun x hx => ih.body hx
    | none => exact generalLoop_shared span hinit hc hupdate (.ite ih.inner (ih.own.statement _ _))
  | breakStmt =>
    refine .of_own nofun nofun ?_
    exact .read_bind (fun _ => rfl) fun c => .ite (.pure _) (.pure _)
  | continueStmt | empty =>
    refine .of_own nofun nofun ?_
    exact .pure _

theorem predeclareAll_of_isCommon (h : ∀ s ∈ ss, s.IsCommon) (l : Language) (owner : Option String)
    (s : State) : predeclareAll l owner s ss = s := by
  induction ss with
  | nil => rw [predeclareAll]
  | cons p ps ih =>
    rw [forall_mem_cons] at h
    have hp : predeclare l owner s p = s := by
      cases h.1 <;> rw [predeclare] <;> nofun
    rw [predeclareAll, hp, ih h.2]

end Convert

namespace Conversion

/-- A program of the common language is converted in both languages to the same statements, with the
same remarks, and is therefore written in the same way. -/
theorem common_language_converts_alike (limit : Nat) (p : Source.Program) (hcommon : ∀ s ∈ p.body, s.IsCommon) :
    match run limit { p with language := .java }, run limit { p with language := .typescript } with
    | .ok r, .ok t => r.language = .java ∧ t = { r with language := .typescript } ∧
        ∀ options, Pseudo.generate options t.structuralErrors t.body =
          Pseudo.generate options r.structuralErrors r.body
    | .error _, .error _ => Heavy (weight p)
    | _, _ => False := by
  have hstart (l : Language) : startState { p with language := l } = {} :=
    Convert.predeclareAll_of_isCommon hcommon l none {}
  have hsame := (Convert.stmts_shared fun s hs => Convert.sharedStmt_of_isCommon (hcommon s hs)).same
    { language := .java, limit := limit } {} rfl .start
  have hheavy := run_hints limit { p with language := .java }
  rw [run_eq_map, hstart] at hheavy ⊢
  rw [run_eq_map limit { p with language := .typescript }, hstart]
  dsimp only at hsame hheavy ⊢
  rw [hsame]
  cases hrun : Convert.stmts p.body { language := .java, limit := limit } {} with
  | ok r => exact ⟨rfl, rfl, fun _ => rfl⟩
  | error e =>
    rw [hrun] at hheavy
    exact hheavy

open Source in
/-- A loop that counts, in which a choice adds to a place of an array or writes it. -/
def commonSample : Program :=
  let place := Span.unplaced
  let name (x : String) : Expr := .identifier place x
  let number (n : Nat) (raw : String) : Expr := .number place (.int n) raw
  let step : Stmt := .ifElse place (.binary place .lt (name "i") (number 3 "3"))
    (.expression place (.assignment place (.with_ .add) (.index place (name "a") (name "i"))
      (.conditional place (name "b") (number 1 "1") (name "i"))))
    (some (.expression place (.call place (name "print") [.index place (name "a") (name "i")])))
  { language := .java, span := place, structuralErrors := []
    body := [.forLoop place none [.assignment place .set (name "i") (number 0 "0")]
      (some (.binary place .lt (name "i") (number 10 "10"))) [.update place .increment false (name "i")]
      (.block ⟨place, [step]⟩)] }

theorem commonSample_isCommon : ∀ s ∈ commonSample.body, s.IsCommon := by
  intro s hs
  rw [mem_singleton.1 hs]
  refine .forLoop ?_ ?_ ?_ (.block ?_)
  · intro e he
    rw [mem_singleton.1 he]
    exact .assignment rfl .identifier .number
  · rintro e ⟨⟩
    exact .binary rfl .identifier .number
  · intro e he
    rw [mem_singleton.1 he]
    exact .update .identifier
  · intro t ht
    rw [mem_singleton.1 ht]
    refine .ifElse (.binary rfl .identifier .number) (.expression ?_) ?_
    · exact .assignment rfl (.index .identifier .identifier) (.conditional .identifier .number .identifier)
    · rintro t ⟨⟩
      refine .expression (.print fun e he => ?_)
      rw [mem_singleton.1 he]
      exact .index .identifier .identifier

theorem common_language_converts_alike_sample : (∀ s ∈ commonSample.body, s.IsCommon) ∧
    ∃ r, run 200 { commonSample with language := .java } = .ok r ∧ r.body ≠ [] ∧
      run 200 { commonSample with language := .typescript } = .ok { r with language := .typescript } := by
  -- of any program that is converted to something
  have halike (p : Source.Program) (hp : ∀ s ∈ p.body, s.IsCommon)
      (hjava : (run 200 { p with language := .java }).toOption.any (!·.body.isEmpty) = true) :
      ∃ r, run 200 { p with language := .java } = .ok r ∧ r.body ≠ [] ∧
        run 200 { p with language := .typescript } = .ok { r with language := .typescript } := by
    have h := common_language_converts_alike 200 p hp
    obtain ⟨r, hr, hbody⟩ := Convert.exists_ok_of_any hjava
    rw [hr] at h
    generalize run 200 { p with language := .typescript } = y at h ⊢
    cases y with
    | error e => exact h.elim
    | ok t => exact ⟨r, hr, by simpa using hbody, by rw [h.2.1]⟩
  exact ⟨commonSample_isCommon, halike commonSample commonSample_isCommon (by decide +kernel)⟩

end Conversion

end Blackboard
