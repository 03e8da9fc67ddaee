import Blackboard.Proofs.Discipline.Start
import Blackboard.Proofs.Printing.TypeText

/-!
Programs that compute with numbers. Additions are taken for joined texts only where something is known to
be a text. In a program without texts nothing is, as long as no type had to be made up: neither where it
could not be inferred, which is remarked, nor for a callable that is used before it is converted.
-/
namespace Blackboard

open List
open Convert (returnedValues quietReturn)

/-! ### Types -/

namespace Pseudo

def Scalar.isNumeric : Scalar → Bool
  | integer | real | boolean => true
  | _ => false

theorem Scalar.mem_known_of_isNumeric {s : Scalar} (h : s.isNumeric = true) : s ∈ known := by
  cases s <;> first | decide | cases h

namespace Kind

structure IsNumeric (k : Kind) : Prop where
  base : k.base.isNumeric = true
  sizes : ∀ s ∈ k.sizes, ']' ∉ s.toList

theorem IsNumeric.scalar {s : Scalar} (h : s.isNumeric = true) : IsNumeric { base := s } :=
  ⟨h, fun _ hs => nomatch hs⟩

theorem IsNumeric.element {k : Kind} (h : k.IsNumeric) : k.element.IsNumeric :=
  ⟨h.base, fun s hs => h.sizes s (mem_of_mem_drop hs)⟩

theorem IsNumeric.ofText?_text {k : Kind} (h : k.IsNumeric) :
    ofText? k.text = some { base := k.base, sizes := k.sizes } :=
  Kind.ofText?_text (Scalar.mem_known_of_isNumeric h.base) fun s hs hmark => h.sizes s hs (hmark.subset (by decide))

end Kind

end Pseudo

open Pseudo Conversion Scopes

/-! ### Programs -/

namespace Source

def TypeRef.IsNumeric (t : TypeRef) : Prop := (normalize .typescript t).base.isNumeric = true

/-- What is called reads no input, and is none of the callables `P` that are taken to give texts. -/
def Expr.GivesNoText (P : String → Prop) (callee : Expr) : Prop :=
  callee.dottedName?.any inputCalls.contains = false ∧ match callee with
    | .identifier _ name => ¬ P name
    | .member _ target name _ => isMath target = true ∨ ¬ P name
    | _ => True

def Expr.IsNumeric (P : String → Prop) : Expr → Prop
  | .string .. | .char .. | .template .. | .newArray .. => False
  | .call _ callee _ => callee.GivesNoText P
  | .cast _ type _ => type.IsNumeric
  | _ => True

def Node.IsNumericExpr (P : String → Prop) : Node → Prop
  | .expr e => e.IsNumeric P
  | _ => True

def Expr.AllNumeric (P : String → Prop) (e : Expr) : Prop :=
  NodesInOrder Node.IsNumericExpr P e.nodes

def LambdaBody.returned : LambdaBody → List Expr
  | .block b => (returnsOf b.statements).filterMap id
  | .expr e => [e]

/-- A node of a program that computes with numbers: annotations stand for numbers or truth values, and
neither expressions nor the values that callables return have to do with texts. -/
def Node.IsNumeric (P : String → Prop) : Node → Prop
  | .expr e => e.IsNumeric P
  | .param p => ∀ t, p.type = some t → t.IsNumeric
  | .declarator d => ∀ span params body isAsync, d.init = some (.lambda span params body isAsync) →
      ∀ e ∈ body.returned, e.AllNumeric P
  | .stmt (.varDecl v) => ∀ d ∈ v.declarators, ∀ t, (d.type <|> v.type) = some t → t.IsNumeric
  | .stmt (.forEach _ _ own _ _ _) => ∀ t, own = some t → t.IsNumeric
  | .stmt (.function f) =>
      (∀ t, f.result = some t → isVoid (some t) = false → t.IsNumeric) ∧ ∀ e ∈ returnedValues f, e.AllNumeric P
  | _ => True

end Source

namespace Numeric

open Source

variable {P : String → Prop}
variable {v : View} {k : Kind} {name : String} {callee e : Source.Expr} {args : List Source.Expr}

/-! ### What is visible -/

/-- Nothing that is visible is known to be a text, but for what the callables `P` give. -/
structure Visible (P : String → Prop) (chain : List Scope) : Prop where
  vars : ∀ x v, variableIn chain x = some v →
    (Scalar.ofText v.type).isNumeric = true ∧ ∀ s ∈ v.dimensions, ']' ∉ s.toList
  results : ∀ f p t k, callableIn chain f = some p → ¬ P f → p.returns = some t →
    Kind.ofText? t = some k → k.IsNumeric
  methods : ∀ f, methodResult? .typescript f = some .string → ¬ P f → (callableIn chain f).isSome = true

theorem Visible.typeOf? (h : Visible P v.scopes.chain) {x : String} (hk : v.typeOf? x = some k) : k.IsNumeric := by
  obtain ⟨i, hi, rfl⟩ := Option.map_eq_some_iff.1 hk
  obtain ⟨htype, hsizes⟩ := h.vars x i hi
  exact ⟨htype, hsizes⟩

theorem Visible.resultOf? {v : View} (h : Visible P v.scopes.chain) {f : String} (hf : ¬ P f)
    {k : Kind} (hk : v.resultOf? f = some k) : k.IsNumeric := by
  simp only [View.resultOf?, Option.bind_eq_bind, Option.bind_eq_some_iff] at hk
  obtain ⟨p, hp, t, ht, hk⟩ := hk
  exact h.results f p t k hp hf ht hk

/-! ### Inferred types -/

variable {s : Scalar}

theorem isNumeric_scalar? {k : Option Kind} (h : ∀ i, k = some i → i.IsNumeric)
    (hs : scalar? k = some s) : s.isNumeric = true := by
  simp only [scalar?, Option.map_eq_some_iff, Option.filter_eq_some_iff] at hs
  obtain ⟨i, ⟨hi, _⟩, rfl⟩ := hs
  exact (h i hi).base

theorem isNumeric_combine {a b : Option Scalar} (ha : ∀ s, a = some s → s.isNumeric = true)
    (hb : ∀ s, b = some s → s.isNumeric = true) (hs : Scalar.combine a b = some s) :
    s.isNumeric = true := by
  unfold Scalar.combine at hs
  split at hs
  · next h =>
    rcases (by simpa using h : a = some .string ∨ b = some .string) with h | h
    · exact absurd (ha _ h) (by decide)
    · exact absurd (hb _ h) (by decide)
  · split at hs
    · cases hs
      rfl
    · split at hs
      · cases hs
        rfl
      · split at hs
        · exact hb s hs
        · exact hb s hs
        · exact ha s hs

theorem isNumeric_inferBinary {op : Source.BinaryOp} {a b : Option Scalar}
    (ha : ∀ s, a = some s → s.isNumeric = true) (hb : ∀ s, b = some s → s.isNumeric = true)
    {l : Language} (hs : inferBinary l op a b = some s) : s.isNumeric = true := by
  unfold inferBinary at hs
  split at hs
  case h_12 =>
    rw [Option.orElse_eq_orElse, Option.orElse_eq_or, Option.or_eq_some_iff] at hs
    rcases hs with hs | ⟨-, hs⟩
    · exact ha s hs
    · exact hb s hs
  case h_13 =>
    simp only [Option.bind_eq_bind, Option.bind_eq_some_iff, Option.some.injEq] at hs
    obtain ⟨_, _, _, _, rfl⟩ := hs
    split <;> rfl
  case h_14 => exact isNumeric_combine ha hb hs
  all_goals
    cases hs
    rfl

theorem isNumeric_of_lookup {table : List (String × Scalar)} (h : ∀ p ∈ table, p.2.isNumeric = true)
    (hs : table.lookup name = some s) : s.isNumeric = true := by
  obtain ⟨_, _, rfl, -⟩ := lookup_eq_some_iff.1 hs
  exact h (name, s) (by simp)

theorem isNumeric_inferMath {args : List (Option Scalar)}
    (h : ∀ s, some s ∈ args → s.isNumeric = true) (hs : inferMath name args = some s) :
    s.isNumeric = true := by
  unfold inferMath at hs
  split at hs
  · next t _ hlookup =>
    cases hs
    exact isNumeric_of_lookup (by decide) hlookup
  · cases hs
    split
    · rfl
    · exact h _ mem_cons_self
  · cases hs

theorem isNumeric_numberParser {name : Option String} (h : numberParser? name = some s) : s.isNumeric = true := by
  obtain ⟨n, -, hlookup⟩ := Option.bind_eq_some_iff.1 h
  exact isNumeric_of_lookup (by decide) hlookup

theorem input?_isNumeric (hl : v.language = .typescript)
    (h : callee.dottedName?.any inputCalls.contains = false) {span : Span}
    {shown : Option Source.Expr} (hs : v.input? (.call span callee args) = some (s, shown)) :
    s.isNumeric = true := by
  have hcall : v.inputCall? callee args = none := by
    unfold View.inputCall?
    simp [hl, h]
  unfold View.input? at hs
  simp only [hcall] at hs
  split at hs
  · next heq => cases heq
  · next type _ inner innerArgs _ hparser =>
    obtain ⟨_, -, heq⟩ := Option.map_eq_some_iff.1 hs
    cases heq
    exact isNumeric_numberParser hparser
  · cases hs

theorem methodResult?_isNumeric (h : methodResult? .typescript name = some s) (hs : s ≠ .string) :
    s.isNumeric = true := by
  have hall : ∀ m ∈ StringMethod.all, m.name = "charAt" ∨ m.result = .string ∨ m.result.isNumeric = true := by decide
  unfold methodResult? at h
  split at h
  · cases h
    exact absurd rfl hs
  · split at h
    · cases h
      exact absurd rfl hs
    · next hchar =>
      obtain ⟨m, hm, rfl⟩ := Option.map_eq_some_iff.1 h
      have hname : m.name = name := by simpa using find?_some hm
      rcases hall m (mem_of_find?_eq_some hm) with hat | hstring | hnumeric
      · simp [← hname, hat] at hchar
      · exact absurd hstring hs
      · exact hnumeric

theorem inferCall_isNumeric (hl : v.language = .typescript) (hv : Visible P v.scopes.chain)
    {types : List (Option Kind)} (hcallee : callee.GivesNoText P)
    (htypes : ∀ i, some i ∈ types → i.IsNumeric) (hk : inferCall v callee args types = some k) :
    k.IsNumeric := by
  obtain ⟨hinput, hcallee⟩ := hcallee
  unfold inferCall at hk
  split at hk
  · next s shown hread =>
    cases hk
    exact .scalar (input?_isNumeric hl hinput hread)
  · next s _ hparser =>
    cases hk
    exact .scalar (isNumeric_numberParser hparser)
  · split at hk
    · exact hv.resultOf? hcallee hk
    · next span target method optional _ _ =>
      split at hk
      · obtain ⟨s, hs, rfl⟩ := Option.map_eq_some_iff.1 hk
        refine .scalar (isNumeric_inferMath (fun s hs => ?_) hs)
        obtain ⟨o, ho, hs⟩ := mem_map.1 hs
        exact isNumeric_scalar? (fun i hi => htypes i (hi ▸ ho)) hs
      · next hmath =>
        have hname := hcallee.resolve_left hmath
        rw [hl] at hk
        split at hk
        · next s hnone hresult =>
          cases hk
          refine .scalar (methodResult?_isNumeric hresult fun hstring => ?_)
          have hvisible := hv.methods method (hstring ▸ hresult) hname
          rw [← findCallable?_eq, hnone] at hvisible
          cases hvisible
        · exact hv.resultOf? hname hk
    · cases hk

mutual

theorem infer_isNumeric {v : View} (hl : v.language = .typescript)
    (hv : Visible P v.scopes.chain) (e : Source.Expr) (he : e.AllNumeric P) {k : Kind}
    (hk : infer v e = some k) : k.IsNumeric := by
  unfold Source.Expr.AllNumeric at he
  match e with
  | .number _ (.int _) _ | .number _ (.real _) _ | .boolean .. | .unary _ .not _ =>
    rw [infer] at hk
    cases hk
    exact .scalar rfl
  | .null _ | .newObject .. | .object .. | .lambda .. | .array _ [] | .newArrayOf _ _ _ _ [] =>
    rw [infer] at hk
    cases hk
  | .string .. | .char .. | .template .. | .newArray .. =>
    simp only [Source.Expr.nodes, nodesInOrder_cons] at he
    exact he.1.elim
  | .identifier _ name =>
    rw [infer] at hk
    exact hv.typeOf? hk
  | .member _ target name _ =>
    rw [infer] at hk
    split at hk
    · cases hk
      exact .scalar rfl
    · split at hk
      · exact hv.typeOf? hk
      · cases hk
  | .index _ target i =>
    simp only [Source.Expr.nodes, nodesInOrder_cons, nodesInOrder_append] at he
    rw [infer] at hk
    cases hinfer : infer v target with
    | none =>
      rw [hinfer] at hk
      cases hk
    | some j =>
      have hj := infer_isNumeric hl hv target he.2.1 hinfer
      rw [hinfer] at hk
      dsimp only at hk
      split at hk
      · cases hk
        exact hj.element
      · split at hk
        · next hbase => exact absurd hj.base (by rw [hbase]; decide)
        · cases hk
  | .call _ callee args =>
    simp only [Source.Expr.nodes, nodesInOrder_cons, nodesInOrder_append] at he
    rw [infer] at hk
    exact inferCall_isNumeric hl hv he.1 (inferAll_isNumeric hl hv args he.2.2) hk
  | .newArrayOf _ _ _ _ (item :: items) | .array _ (item :: items) =>
    simp only [Source.Expr.nodes, exprNodes, nodesInOrder_cons, nodesInOrder_append] at he
    rw [infer] at hk
    obtain ⟨j, hinfer, rfl⟩ := Option.map_eq_some_iff.1 hk
    have hj := infer_isNumeric hl hv item (by first | exact he.2.1 | exact he.2.2.2.1) hinfer
    exact ⟨hj.base, List.forall_mem_cons.2 ⟨bracket_not_mem_toString _, hj.sizes⟩⟩
  | .binary _ op left right =>
    simp only [Source.Expr.nodes, nodesInOrder_cons, nodesInOrder_append] at he
    rw [infer] at hk
    obtain ⟨s, hs, rfl⟩ := Option.map_eq_some_iff.1 hk
    refine .scalar (isNumeric_inferBinary (fun t ht => ?_) (fun t ht => ?_) hs)
    · exact isNumeric_scalar? (fun i hi => infer_isNumeric hl hv left he.2.1 hi) ht
    · exact isNumeric_scalar? (fun i hi => infer_isNumeric hl hv right he.2.2 hi) ht
  | .unary _ .neg operand | .unary _ .plus operand | .unary _ .typeOf operand | .unary _ .bitNot operand
  | .update _ _ _ operand | .await _ operand | .spread _ operand =>
    simp only [Source.Expr.nodes, nodesInOrder_cons] at he
    simp only [infer] at hk
    exact infer_isNumeric hl hv operand he.2 hk
  | .assignment _ _ target value =>
    simp only [Source.Expr.nodes, nodesInOrder_cons, nodesInOrder_append] at he
    rw [infer] at hk
    exact infer_isNumeric hl hv value he.2.2 hk
  | .conditional _ _ yes no =>
    simp only [Source.Expr.nodes, nodesInOrder_cons, nodesInOrder_append] at he
    rw [infer, Option.orElse_eq_orElse, Option.orElse_eq_or, Option.or_eq_some_iff] at hk
    rcases hk with hk | ⟨-, hk⟩
    · exact infer_isNumeric hl hv yes he.2.1.2 hk
    · exact infer_isNumeric hl hv no he.2.2 hk
  | .cast _ type _ =>
    simp only [Source.Expr.nodes, nodesInOrder_cons] at he
    rw [infer, hl] at hk
    split at hk
    · cases hk
    · cases hk
      exact ⟨he.1, fun s hs => sizes_normalize _ type s hs ▸ by decide⟩

theorem inferAll_isNumeric {v : View} (hl : v.language = .typescript)
    (hv : Visible P v.scopes.chain) (es : List Source.Expr)
    (hes : NodesInOrder Node.IsNumericExpr P (exprNodes es)) :
    ∀ k, some k ∈ inferAll v es → k.IsNumeric := by
  match es with
  | [] => exact nofun
  | e :: es =>
    simp only [exprNodes, nodesInOrder_append] at hes
    intro k hk
    rw [inferAll, List.mem_cons] at hk
    rcases hk with hk | hk
    · exact infer_isNumeric hl hv e hes.1 hk.symm
    · exact inferAll_isNumeric hl hv es hes.2 k hk

end

/-! ### Nothing is joined -/

theorem allNumeric_of_nodes (h : NodesInOrder Node.IsNumeric P e.nodes) : e.AllNumeric P := by
  intro n hn
  have hnode := h n hn
  cases n <;> first | exact hnode | trivial

theorem allNumeric_mono {Q : String → Prop} (hQ : ∀ n, Q n → P n) (h : e.AllNumeric P) : e.AllNumeric Q := by
  intro n hn
  have hnode := h n hn
  cases n with
  | expr x =>
    cases x with
    | call _ callee _ =>
      refine ⟨hnode.1, ?_⟩
      have hcallee := hnode.2
      cases callee with
      | identifier => exact fun h => hcallee (hQ _ h)
      | member => exact hcallee.imp_right fun h hq => h (hQ _ hq)
      | _ => trivial
    | _ => exact hnode
  | _ => trivial

/-- The conversion of programs that compute with numbers, where no type is made up. -/
def discipline : Discipline where
  language := .typescript
  Visible := Visible
  Allows d := (∀ name, d.cause ≠ .inferenceFallback name) ∧ ∀ n, d.cause ≠ .nestingTooDeep n
  Text _ := True
  joins := False
  deep := False
  Base s := s.isNumeric = true
  Size s := ']' ∉ s.toList
  Entry _ returns := ∀ t k, returns = some t → Kind.ofText? t = some k → k.IsNumeric
  Admits := Node.IsNumeric
  Owned _ := True
  Form f := ∀ e ∈ f.expressions, e.Unjoined

theorem discipline_lawful : discipline.Lawful where
  toTextLaws := .of_all fun _ => trivial
  joins_of_string h := nomatch h
  joins_of_template h := h
  base_integer := rfl
  base_character h := nomatch h
  base_unknown h hcause := absurd hcause (h.1 _)
  base_input h := nomatch h
  base_declared h hd ht := h _ hd _ ht
  base_param h ht := h _ ht
  base_element h := h _ rfl
  base_result h ht hvoid := h.1 _ ht hvoid
  size_of_plain h := h
  size_of_array h := h.elim
  kind_of_infer hl hv he hk := by
    have h := infer_isNumeric hl hv _ (allNumeric_of_nodes he) hk
    exact ⟨h.base, h.sizes⟩
  kind_of_returned hl hv hQ hf he hk := by
    have h := infer_isNumeric hl hv _ (allNumeric_mono hQ (hf.2 _ he)) hk
    exact ⟨h.base, h.sizes⟩
  visible_mono hPQ h :=
    ⟨h.vars, fun f p t k hp hf => h.results f p t k hp fun hP => hf (hPQ f hP),
      fun f hf hQ => h.methods f hf fun hP => hQ (hPQ f hP)⟩
  visible_enter h := ⟨h.vars, h.results, h.methods⟩
  visible_variable h hbase htype hsizes := by
    refine ⟨fun x v hv => ?_, h.results, h.methods⟩
    rw [variableIn_put] at hv
    split at hv
    · cases hv
      exact ⟨by rwa [htype, Scalar.ofText_text (Scalar.mem_known_of_isNumeric hbase)], hsizes⟩
    · exact h.vars x v hv
  visible_callable {P scope around p} h hentry := by
    refine ⟨h.vars, fun f q t k hq hf ht hk => ?_, fun f hf hwithout => ?_⟩
    · rw [callableIn_put] at hq
      split at hq
      · cases hq
        exact hentry t k ht hk
      · next hne => exact h.results f q t k hq (fun hP => hf ⟨hP, by simpa using hne⟩) ht hk
    · rw [callableIn_put]
      split
      · rfl
      · next hne => exact h.methods f hf fun hP => hwithout ⟨hP, by simpa using hne⟩
  deep_of_remark h hcause := absurd hcause (h.2 _)
  owned_of_class _ := trivial
  entry_of_callable _ _ _ h t k ht hk := by
    obtain ⟨j, hj, rfl⟩ := h t ht
    have hnumeric : j.IsNumeric := ⟨hj.1, hj.2⟩
    rw [hnumeric.ofText?_text] at hk
    cases hk
    exact ⟨hj.1, hj.2⟩
  entry_of_deep h := h.elim
  admits_operation := trivial
  admits_one := trivial
  admits_name _ := trivial
  admits_clause _ _ _ := trivial
  admits_awaited _ := trivial
  admits_body _ _ := trivial
  admits_value {P scopes d own params body isAsync} _ hd hinit := by
    refine ⟨fun t ht => (nomatch ht), fun e he => ?_⟩
    have hreturned := hd own params body isAsync hinit
    cases body with
    | block b => exact hreturned e he
    | expr x =>
      simp only [returnedValues, Convert.valueCallable, Convert.valueBody, returnsOf, append_nil] at he
      split at he
      · cases he
      · exact hreturned e he
  form_ordinary _ h e he := h e he nofun
  form_class _ _ he := nomatch he
  form_comment _ _ he := nomatch he
  form_unparsed _ _ he := nomatch he
  form_procedure _ _ he := nomatch he
  form_function _ _ he := nomatch he
  form_named _ _ h _ e he := by
    have hcall : e = _ := mem_singleton.1 (by split at he <;> exact he)
    exact hcall ▸ h.1 nofun
  form_nameless h _ e he := mem_singleton.1 he ▸ h nofun
  form_statement _ _ _ h e he := mem_singleton.1 he ▸ h.expr nofun

theorem quietReturn_cases (l : Language) (f : Callable) :
    quietReturn l f = none ∨ quietReturn l f = some "STRING" ∨ ∃ t, f.result = some t ∧ isVoid (some t) = false ∧
        quietReturn l f = some (normalize l t).text := by
  unfold quietReturn
  cases f.isConstructor with
  | true => exact .inl rfl
  | false =>
    cases f.result with
    | none => cases (returnedValues f).isEmpty <;> simp
    | some t => cases hvoid : isVoid (some t) <;> simp [hvoid]

theorem discipline_opens : discipline.Opens fun p => ∀ t, p.returns = some t →
      t = "STRING" ∨ ∃ k : Kind, k.IsNumeric ∧ t = k.text := by
  constructor
  · intro P f owner hf _ t ht
    change quietReturn .typescript f = some t at ht
    rcases quietReturn_cases .typescript f with h | h | ⟨u, hu, hvoid, h⟩
    · rw [h] at ht
      cases ht
    · rw [h] at ht
      cases ht
      exact .inl rfl
    · rw [h] at ht
      cases ht
      refine .inr ⟨_, ⟨hf.1 u hu hvoid, fun s hs => ?_⟩, rfl⟩
      rw [sizes_normalize _ u s hs]
      decide
  · intro P d own params body isAsync _ _ scopes t ht
    let f := Convert.valueCallable .typescript scopes d.name d.span params body isAsync
    change quietReturn .typescript f = some t at ht
    rcases quietReturn_cases .typescript f with h | h | ⟨u, hu, -, -⟩
    · rw [h] at ht
      cases ht
    · rw [h] at ht
      cases ht
      exact .inl rfl
    · cases hu

end Numeric

namespace Conversion

open Source

/-- What calls of a name are taken to give a text, although the program does not say so: those of a
callable that is declared in advance without an annotated type, and those of a method on texts. -/
def IsTakenForText (p : Source.Program) (name : String) : Prop :=
  match (startState p).scopes.findCallable? name with
  | some q => q.returns = some "STRING"
  | none => methodResult? .typescript name = some .string

theorem startState_numeric {p : Program} (hlanguage : p.language = .typescript)
    (hbody : StmtsInOrder .typescript Node.IsNumeric (IsTakenForText p) p.body) :
    Numeric.Visible (IsTakenForText p) (startState p).scopes.chain := by
  have hopening := Discipline.startState_opening Numeric.discipline_lawful Numeric.discipline_opens hlanguage hbody
  refine ⟨fun x v hv => ?_, fun f q t k hq hf ht hk => ?_, fun f hf hnot => ?_⟩
  · rw [hopening.variableIn_eq_none] at hv
    cases hv
  · rcases (hopening.of_callableIn hq).2 t ht with rfl | ⟨j, hj, rfl⟩
    · refine absurd ?_ hf
      rw [IsTakenForText, findCallable?_eq, hq]
      exact ht
    · rw [hj.ofText?_text] at hk
      cases hk
      exact ⟨hj.base, hj.sizes⟩
  · unfold IsTakenForText at hnot
    split at hnot
    · next hq => exact Option.isSome_of_eq_some hq
    · exact absurd hf hnot

/-- In a program that computes with numbers no addition is taken for a join of texts, unless a type could
not be inferred or a callable was left out for its depth. A callable whose type is not annotated may only
be used where it has been converted. -/
theorem numbers_are_never_joined (limit : Nat) (p : Source.Program) (hlanguage : p.language = .typescript)
    (hbody : StmtsInOrder .typescript Node.IsNumeric (IsTakenForText p) p.body) :
    match run limit p with
    | .ok r =>
      (∀ d ∈ r.diagnostics, (∀ name, d.cause ≠ .inferenceFallback name) ∧ ∀ n, d.cause ≠ .nestingTooDeep n) →
        ∀ s ∈ Stmt.allOf r.body, ∀ e ∈ s.form.expressions, e.Unjoined
    | .error _ => Heavy (weight p) := by
  have hheavy := run_hints limit p
  cases hrun : run limit p with
  | error e =>
    rw [hrun] at hheavy
    exact hheavy
  | ok r =>
    intro hremarks s hs
    have hstmts := Discipline.run_keeps Numeric.discipline_lawful hlanguage
      (startState_numeric hlanguage hbody) hbody hrun hremarks
    exact (hstmts.of_mem_allOf _ s hs).1

open Source in
def doublingProgram : Source.Program :=
  let place := Span.unplaced
  let number : TypeRef := ⟨place, "number", [], 0, .simple⟩
  let name (x : String) : Source.Expr := .identifier place x
  let literal (n : Nat) (raw : String) : Source.Expr := .number place (.int n) raw
  let double : Callable :=
    { span := place, name := "double", params := [{ span := place, name := "n", type := some number }]
      body := some ⟨place, [.returnStmt place (some (.binary place .add (name "n") (name "n")))]⟩ }
  let sum : Source.Expr :=
    .binary place .add (.call place (name "double") [literal 2 "2"]) (literal 1 "1")
  { language := .typescript, span := place, structuralErrors := []
    body := [.function double, .varDecl { span := place, declarators :=
      [{ span := place, name := "x", type := some number, init := some sum }] }] }

open Source in
def untypedSum : Source.Program :=
  let place := Span.unplaced
  let name (x : String) : Source.Expr := .identifier place x
  let add : Callable :=
    { span := place, name := "add", params := [{ span := place, name := "a" }, { span := place, name := "b" }]
      body := some ⟨place, [.returnStmt place (some (.binary place .add (name "a") (name "b")))]⟩ }
  { language := .typescript, span := place, structuralErrors := [], body := [.function add] }

theorem doublingProgram_inOrder (P : String → Prop) :
    StmtsInOrder .typescript Node.IsNumeric P doublingProgram.body := by
  have hnumber : (⟨.unplaced, "number", [], 0, .simple⟩ : TypeRef).IsNumeric := by
    unfold TypeRef.IsNumeric
    decide
  simp only [doublingProgram, StmtsInOrder, Stmt.InOrder, BlockInOrder?, VarDecl.InOrder,
    DeclaratorsInOrder, InitInOrder, Stmt.defines, Node.IsNumeric, Expr.IsNumeric,
    Expr.AllNumeric, Source.Expr.nodes, exprNode, exprNodes, paramNodes, typeNode, typeNodes,
    TypeRef.nodes, returnedValues, returnsOf, Stmt.returns, nodesInOrder_cons, nodesInOrder_append,
    nodesInOrder_nil]
  simp [hnumber, Expr.GivesNoText, without, Expr.dottedName?, inputCalls,
    Node.IsNumericExpr, Expr.IsNumeric, Source.Expr.nodes]

/-- The double of a number is added to a number. -/
theorem numbers_are_never_joined_doubling : IsTakenForText doublingProgram "double" ∧
    StmtsInOrder .typescript Node.IsNumeric (IsTakenForText doublingProgram) doublingProgram.body ∧
    ∃ r, run 200 doublingProgram = .ok r ∧ r.body ≠ [] ∧
      ∀ s ∈ Stmt.allOf r.body, ∀ e ∈ s.form.expressions, e.Unjoined := by
  have hok : (run 200 doublingProgram).toOption.any (fun r => !r.body.isEmpty && r.diagnostics.isEmpty) = true := by
    decide +kernel
  have hjoined := numbers_are_never_joined 200 doublingProgram rfl (doublingProgram_inOrder _)
  obtain ⟨r, hr, hsilent⟩ := Convert.exists_ok_of_any hok
  simp only [Bool.and_eq_true, Bool.not_eq_true', List.isEmpty_eq_false_iff, List.isEmpty_iff] at hsilent
  rw [hr] at hjoined
  exact ⟨show some "STRING" = some "STRING" from rfl, doublingProgram_inOrder _, r, hr, hsilent.1,
    hjoined (by simp [hsilent.2])⟩

theorem untypedSum_inOrder (P : String → Prop) : StmtsInOrder .typescript Node.IsNumeric P untypedSum.body := by
  simp [untypedSum, StmtsInOrder, Stmt.InOrder, BlockInOrder?, Node.IsNumeric, Expr.IsNumeric,
    Expr.AllNumeric, Node.IsNumericExpr, Source.Expr.nodes, exprNode, paramNodes, typeNode,
    returnedValues, returnsOf, Stmt.returns]

/-- Parameters whose types are not annotated are taken for texts, and joined. -/
theorem untypedSum_is_joined : StmtsInOrder .typescript Node.IsNumeric (IsTakenForText untypedSum) untypedSum.body ∧
    ∃ r, run 200 untypedSum = .ok r ∧ ∃ s ∈ Stmt.allOf r.body, ∃ e ∈ s.form.expressions, ¬ e.Unjoined := by
  have hok : (run 200 untypedSum).toOption.any (fun r => (Stmt.allOf r.body).any fun s =>
      s.form.expressions.any fun e => e.nodes.any (·.isJoin)) = true := by decide
  obtain ⟨r, hr, hjoins⟩ := Convert.exists_ok_of_any hok
  simp only [List.any_eq_true] at hjoins
  obtain ⟨s, hs, e, he, x, hx, hjoin⟩ := hjoins
  exact ⟨untypedSum_inOrder _, r, hr, s, hs, e, he, fun h => by simp [h x hx] at hjoin⟩

end Conversion

end Blackboard
