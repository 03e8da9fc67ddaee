import Blackboard.Proofs.Discipline.Expression

/-!
Statements of the result under a discipline, the types of what they declare, and the parts of the source
that they are made of.
-/
namespace Blackboard

open Pseudo (normalize)

/-! ### Sizes of arrays -/

namespace Pseudo

open Source (TypeRef)

theorem bracket_not_mem_toString (n : Nat) : ']' ∉ (toString n).toList := by
  intro h
  have hdigit := Nat.isDigit_of_mem_toDigits (b := 10) (by decide) (by decide)
    (show ']' ∈ Nat.toDigits 10 n by simpa using h)
  exact absurd hdigit (by decide)

theorem sizes_nested {k : Kind} (h : ∀ s ∈ k.sizes, s = "n") (dims : Nat) (spelling : String) :
    ∀ s ∈ (k.nested dims spelling).sizes, s = "n" := by
  intro s hs
  rcases List.mem_append.1 hs with hs | hs
  · exact List.eq_of_mem_replicate hs
  · exact h s hs

theorem sizes_standIn (t : TypeRef) : ∀ s ∈ (Kind.standIn t).sizes, s = "n" :=
  fun _ hs => List.eq_of_mem_replicate hs

mutual

theorem sizes_normalize (l : Language) (t : TypeRef) : ∀ s ∈ (normalize l t).sizes, s = "n" := by
  match t with
  | ⟨span, name, args, dimensions, form⟩ =>
    unfold Pseudo.normalize
    extract_lets t
    split
    · split
      · exact sizes_nested (by simp) _ _
      · split
        · next name element _ heq =>
          exact sizes_nested (sizes_normalizeAll l args (name, element) (by simp [heq])) _ _
        · exact sizes_standIn _
    · split
      · next name member heq =>
        have hmem : (name, member) ∈ normalizeAll .typescript args :=
          (List.mem_filter.1 (heq ▸ List.mem_singleton_self _)).1
        split
        · exact sizes_standIn _
        · exact sizes_nested (sizes_normalizeAll .typescript args _ hmem) _ _
      · exact sizes_standIn _
    · exact sizes_standIn _

theorem sizes_normalizeAll (l : Language) (ts : List TypeRef) :
    ∀ p ∈ normalizeAll l ts, ∀ s ∈ p.2.sizes, s = "n" := by
  match ts with
  | [] => simp [normalizeAll]
  | t :: ts =>
    rw [normalizeAll, List.forall_mem_cons]
    exact ⟨sizes_normalize l t, sizes_normalizeAll l ts⟩

end

end Pseudo

namespace Discipline

open Blackboard.Convert Conversion Source
open Source.Expr (nodes isLambda)
open List hiding attach
open CountingLoop (initial? comparison? ofLoop?)

variable {T : Discipline} {P : String → Prop}
variable {s : Pseudo.Stmt} {ss : List Pseudo.Stmt} {f : Pseudo.Form} {line : Option Nat} {span : Span}
    {name : String} {k : Pseudo.Kind} {type : Option TypeRef} {e target : Source.Expr}
    {start : Pseudo.Expr}
    {labels : List (Option Source.Expr)} {label : Option String} {cases : List SwitchCase}

/-! ### Statements -/

@[simp]
theorem stmts_nil : T.Stmts [] := nofun

@[simp]
theorem stmts_cons : T.Stmts (s :: ss) ↔ T.Stmt s ∧ T.Stmts ss :=
  forall_mem_cons

@[simp]
theorem stmts_append {ts} : T.Stmts (ss ++ ts) ↔ T.Stmts ss ∧ T.Stmts ts :=
  forall_mem_append

theorem stmts_singleton (h : T.Stmt s) : T.Stmts [s] :=
  stmts_cons.2 ⟨h, stmts_nil⟩

theorem stmt_simple (h : T.Form f) (line : Option Nat) : T.Stmt (.simple f line) :=
  .mk h (nofun) stmts_nil

theorem stmts_orderBranches {bs} (h : T.Stmts bs) : T.Stmts (orderBranches bs) := by
  intro b hb
  rcases mem_append.1 hb with hb | hb
  · exact h b (mem_filter.1 hb).1
  · exact h b (mem_filter.1 (mem_of_getLast? (Option.mem_toList.1 hb))).1

theorem kind_withSizes {sizes} (h : T.Kind k) (hs : ∀ s ∈ sizes, T.Size s) : T.Kind (k.withSizes sizes) := by
  refine ⟨h.1, fun s hmem => ?_⟩
  rcases mem_append.1 hmem with hmem | hmem
  · exact hs s (mem_of_mem_take hmem)
  · exact h.2 s (mem_of_mem_drop hmem)

theorem kind_element (h : T.Kind k) : T.Kind k.element :=
  ⟨h.1, fun s hs => h.2 s (mem_of_mem_drop hs)⟩

theorem expr_element (name : String) (line : Option Nat) (path : List Nat) : T.Expr (element name line path) := by
  have hpath : ∀ e : Pseudo.Expr, T.Expr e →
      T.Expr (path.foldl (fun e (i : Nat) => .index e (.number i) line) e) := by
    induction path with
    | nil => exact fun _ h => h
    | cons i path ih => exact fun e h => ih _ (expr_pair rfl h (expr_number _ _) rfl)
  exact hpath _ (expr_leaf rfl rfl)

/-! ### Parts of the source -/

theorem nodes_lengthTarget (h : e.lengthTarget? = some target) (he : T.Nodes P e.nodes) : T.Nodes P target.nodes := by
  unfold Expr.lengthTarget? at h
  split at h
  · split at h
    · cases h
      simp only [nodes, nodesInOrder_cons] at he
      exact he.2
    · cases h
  · split at h
    · cases h
      simp only [nodes, nodesInOrder_cons, nodesInOrder_append, cons_append] at he
      exact he.2.2.1
    · cases h
  · cases h

theorem nodes_lengthBound {offset} (h : e.lengthBound? = some (target, offset))
    (he : T.Nodes P e.nodes) : T.Nodes P target.nodes := by
  have hpair : ∀ {left right : Source.Expr} {f : Int → Int}, T.Nodes P left.nodes →
      (do let k ← right.intLiteral?; let t ← left.lengthTarget?; some (t, f k)) = some (target, offset) →
      T.Nodes P target.nodes := by
    intro left right f hleft hbound
    simp only [Option.bind_eq_bind, Option.bind_eq_some_iff] at hbound
    obtain ⟨k, _, t, ht, heq⟩ := hbound
    cases heq
    exact nodes_lengthTarget ht hleft
  unfold Expr.lengthBound? at h
  split at h
  · simp only [nodes, nodesInOrder_cons, nodesInOrder_append] at he
    exact hpair (f := fun k => k) he.2.1 h
  · simp only [nodes, nodesInOrder_cons, nodesInOrder_append] at he
    exact hpair (f := fun k => -k) he.2.1 h
  · obtain ⟨t, ht, heq⟩ := Option.map_eq_some_iff.1 h
    cases heq
    exact nodes_lengthTarget ht he

theorem nodes_labels (h : T.Nodes P (labelNodes labels)) : T.Nodes P (exprNodes (labels.filterMap id)) := by
  induction labels with
  | nil => exact nodesInOrder_nil
  | cons label labels ih =>
    simp only [labelNodes, nodesInOrder_append] at h
    cases label with
    | none => simpa using ih h.2
    | some e =>
      simp only [filterMap_cons, id_eq, exprNodes, nodesInOrder_append]
      exact ⟨h.1, ih h.2⟩

theorem nodes_comparison {bound op} (h : comparison? name e = some (op, bound)) (he : T.Nodes P e.nodes) :
    T.Nodes P bound.nodes := by
  unfold comparison? at h
  split at h
  · simp only [nodes, nodesInOrder_cons, nodesInOrder_append] at he
    obtain ⟨back, _, h⟩ := Option.bind_eq_some_iff.1 h
    split at h
    · cases h
      exact he.2.2
    · split at h
      · cases h
        exact he.2.1
      · cases h
  · cases h

/-! ### Statements under a lawful discipline -/

variable [law : T.Lawful]

theorem stmt_comment {text} (h : T.Text text) (line : Option Nat) : T.Stmt (.comment text line) :=
  stmt_simple (law.form_comment h) line

theorem stmt_ordinary (hf : f.isOrdinary = true) (he : ∀ e ∈ f.expressions, T.Expr e)
    (hss : T.Stmts ss) : T.Stmt (.mk f ss [] line) :=
  .mk (law.form_ordinary hf he) (nofun) hss

theorem stmt_plain (hf : f.isOrdinary = true) (he : ∀ e ∈ f.expressions, T.Expr e) : T.Stmt (.simple f line) :=
  stmt_ordinary hf he stmts_nil

theorem stmt_assign {target value} (ht : T.Expr target) (hv : T.Expr value)
    (span : Span) : T.Stmt (assign target value span) :=
  stmt_plain rfl (by simpa [Pseudo.Form.expressions] using ⟨ht, hv⟩)

theorem stmts_attach {notes line} (hnotes : ∀ n ∈ notes, T.Text n)
    (hss : T.Stmts ss) : T.Stmts (attach notes line ss) := by
  cases ss with
  | nil =>
    intro s hs
    obtain ⟨n, hn, rfl⟩ := mem_map.1 hs
    exact stmt_comment (hnotes n hn) _
  | cons s ss =>
    rw [attach]
    rw [stmts_cons] at hss
    split
    · exact stmts_cons.2 hss
    · obtain ⟨hform, hown, hchildren⟩ := hss.1
      refine stmts_cons.2 ⟨.mk hform ?_ hchildren, hss.2⟩
      intro n hn
      rcases mem_append.1 hn with hn | hn
      · exact hnotes n hn
      · exact hown n (mem_filter.1 hn).1

theorem stmt_for {stop step ss line} (hstart : T.Expr start) (hstop : T.Expr stop) (hstep : ∀ e ∈ step, T.Expr e)
    (hss : T.Stmts ss) : T.Stmt (.mk (.for_ name start stop step) ss [] line) := by
  refine stmt_ordinary rfl ?_ hss
  cases step <;> simp_all [Pseudo.Form.expressions]

/-! ### Types -/

theorem size_number (n : Nat) : T.Size (toString n) :=
  law.size_of_plain (Pseudo.bracket_not_mem_toString n)

theorem size_unknown : T.Size "n" := law.size_of_plain (by decide)

theorem kind_normalize {t} (h : T.Base (normalize T.language t).base) : T.Kind (normalize T.language t) :=
  ⟨h, fun s hs => Pseudo.sizes_normalize _ t s hs ▸ size_unknown⟩

theorem base_addDimensions (l : Language) (t : TypeRef) (n : Nat) :
    (normalize l (t.addDimensions n)).base = (normalize l t).base := by
  obtain ⟨span, name, args, dimensions, form⟩ := t
  simp only [TypeRef.addDimensions]
  unfold Pseudo.normalize
  cases form with
  | simple =>
    simp only
    split
    · rfl
    · split <;> rfl
  | union =>
    cases l with
    | java => rfl
    | typescript =>
      simp only
      split
      · split <;> rfl
      · rfl
  | _ => cases l <;> rfl

theorem kind_unknown {severity} (h : T.Allows (.at_ span severity (.inferenceFallback name))) : T.Kind unknownKind :=
  ⟨law.base_unknown h rfl, nofun⟩

theorem kind_refine (l : Language) (init : Option Source.Expr) (h : T.Kind k) : T.Kind (refine l k init) := by
  unfold refine
  split
  · split
    · split
      · exact ⟨law.base_integer, nofun⟩
      · exact h
    · split
      · exact ⟨law.base_integer, h.2⟩
      · exact h
    · exact h
  · exact h

theorem sizes_literal (items : List Source.Expr) : ∀ s ∈ literalSizes items, T.Size s := by
  fun_induction literalSizes items with
  | case1 => exact forall_mem_singleton.2 size_unknown
  | case2 span inner items ih => exact forall_mem_cons.2 ⟨size_number _, ih⟩
  | case3 => exact forall_mem_singleton.2 (size_number _)

theorem base_inferScalar {v e} (hv : v.language = T.language ∧ T.Visible P v.scopes.chain) (he : T.Nodes P e.nodes) :
    T.Base ((inferScalar v e).getD .integer) := by
  cases h : inferScalar v e with
  | none => exact law.base_integer
  | some s =>
    obtain ⟨k, hk, rfl⟩ := Option.map_eq_some_iff.1 h
    exact (law.kind_of_infer hv.1 hv.2 he (Option.filter_eq_some_iff.1 hk).1).1

theorem form_callable (name : String) (params : List Pseudo.Param) (returns : Option String) :
    T.Entry name returns → T.Form (match returns with
      | some type => .function name params type
      | none => .procedure name params) := by
  cases returns with
  | none => exact law.form_procedure
  | some t => exact law.form_function

theorem base_counterType (h : ∀ t, type = some t → T.Base (normalize T.language t).base) :
    T.Base (counterType T.language type) := by
  unfold counterType
  split
  · exact law.base_integer
  · next t ht =>
    extract_lets k
    split
    · exact law.base_integer
    · exact h t (Option.filter_eq_some_iff.1 ht).1

theorem initial?_parts {start} (h : initial? decl init = some (name, type, start))
    (hdecl : T.Nodes P (varDeclNode decl)) (hinit : T.Nodes P (exprNodes init)) :
    T.Nodes P start.nodes ∧ ∀ t, type = some t → T.Base (normalize T.language t).base := by
  unfold initial? at h
  split at h
  · next v =>
    split at h
    · next d hds =>
      obtain ⟨e, he, heq⟩ := Option.map_eq_some_iff.1 h
      cases heq
      obtain ⟨span, ds, common, ms, kind⟩ := v
      obtain ⟨dspan, name, own, extra, dinit⟩ := d
      subst hds he
      simp only [varDeclNode, VarDecl.nodes, declaratorNodes, exprNode, nodesInOrder_cons,
        nodesInOrder_append] at hdecl
      refine ⟨hdecl.2.1.2.1.2, fun t ht => law.base_declared hdecl.1 (mem_singleton_self _) ht⟩
    · cases h
  · cases h
    simp only [exprNodes, nodes, nodesInOrder_cons, nodesInOrder_append] at hinit
    exact ⟨hinit.1.2.2, by simp⟩
  · cases h

theorem ofLoop?_parts {body} (h : ofLoop? decl init condition update body = some loop)
    (hdecl : T.Nodes P (varDeclNode decl))
    (hparts : T.Nodes P (exprNodes init ++ exprNode condition ++ exprNodes update)) :
    T.Nodes P loop.start.nodes ∧ T.Nodes P loop.bound.nodes ∧
      ∀ t, loop.type = some t → T.Base (normalize T.language t).base := by
  simp only [nodesInOrder_append] at hparts
  obtain ⟨⟨name, type, start⟩, hinitial, hbounded⟩ := Option.bind_eq_some_iff.1 h
  obtain ⟨⟨op, bound⟩, hcondition, hstepped⟩ := Option.bind_eq_some_iff.1 hbounded
  obtain ⟨e, rfl, hcomparison⟩ := Option.bind_eq_some_iff.1 hcondition
  have hstart := initial?_parts hinitial hdecl hparts.1.1
  simp only at hstepped
  split at hstepped
  · cases hstepped
  · split at hstepped
    · obtain ⟨step, _, hloop⟩ := Option.bind_eq_some_iff.1 hstepped
      split at hloop
      · cases hloop
        exact ⟨hstart.1, nodes_comparison hcomparison hparts.1.2, hstart.2⟩
      · cases hloop
    · cases hstepped

/-! ### Texts of comments -/

theorem text_labels (h : T.Nodes P (labelNodes labels)) : T.Text (labelTexts labels) := by
  refine law.composes.listed fun s hs => ?_
  obtain ⟨label, hmem, rfl⟩ := mem_map.1 hs
  cases label with
  | none => exact law.text_of_line (unbroken rfl)
  | some e =>
    refine law.text_expr e fun n hn => h n ?_
    clear h hs
    induction labels with
    | nil => cases hmem
    | cons label labels ih =>
      rw [labelNodes, mem_append]
      rcases mem_cons.1 hmem with rfl | hmem
      · exact .inl hn
      · exact .inr (ih hmem)

theorem text_nextLabels (h : CasesInOrder T.language T.Admits P cases) :
    ∀ ls ∈ cases.head?.map (·.labels), T.Text (labelTexts ls) := by
  cases cases with
  | nil => exact nofun
  | cons c cs =>
    obtain ⟨span, labels, ss⟩ := c
    rintro _ ⟨⟩
    exact text_labels h.1

theorem text_next {c : Bool} (h : CasesInOrder T.language T.Admits P cases) :
    ∀ ls ∈ (if c then cases.head?.map (·.labels) else none), T.Text (labelTexts ls) := by
  split
  · exact text_nextLabels h
  · exact nofun

theorem text_typeTexts {ts} (h : T.Nodes P (typeNodes ts)) : T.Text (typeTexts ts) := by
  refine law.composes.listed fun s hs => law.text_types ts h s ?_
  rwa [TypeRef.texts_eq_map]

theorem text_typeOr (other : String) {t} (h : T.Nodes P (typeNode t))
    (ho : '\n' ∉ other.toList) : T.Text ((t.map (·.text)).getD other) := by
  cases t with
  | none => exact law.text_of_line ho
  | some t => exact law.text_type t h

theorem text_paramNamesOf {ps} (h : T.Nodes P (paramNodes ps)) : T.Text (paramNames ps) :=
  law.composes.listed (Lawful.text_paramNames (law.text_of_nodes h))

theorem text_declaratorNames {ds} (h : T.Nodes P (declaratorNodes ds)) : ∀ s ∈ ds.map (·.name), T.Text s := by
  induction ds with
  | nil => simp
  | cons d ds ih =>
    obtain ⟨span, name, type, extra, init⟩ := d
    simp only [declaratorNodes, nodesInOrder_cons, nodesInOrder_append] at h
    rw [map_cons, forall_mem_cons]
    exact ⟨law.text_of_node h.1 (by simp [Node.texts]), ih h.2.2⟩

theorem stmts_members (members : List InterfaceMember) (h : T.Nodes P (memberNodes members)) :
    T.Stmts (members.map fun m => .comment ("   " ++ memberText m) (some (memberSpan m).line)) := by
  induction members with
  | nil => exact stmts_nil
  | cons m ms ih =>
    rw [map_cons, stmts_cons]
    have hcomment : T.Text (memberText m) →
        T.Stmt (.comment ("   " ++ memberText m) (some (memberSpan m).line)) := fun hm =>
      stmt_comment (law.text_append.2 ⟨law.text_of_line (unbroken rfl), hm⟩) _
    cases m with
    | signature s =>
      obtain ⟨span, name, type, params, o⟩ := s
      simp only [memberNodes, nodesInOrder_cons, nodesInOrder_append] at h
      refine ⟨hcomment ?_, ih h.2.2⟩
      have hname : T.Text name := law.text_of_node h.1 (by simp [Node.texts])
      have htype := text_typeOr "any" h.2.1.1 (by decide)
      have hmark : T.Text (if o then "?" else "") := by
        split <;> exact law.text_of_line (unbroken rfl)
      unfold memberText
      simp only
      split
      · next ps =>
        have hparams := text_paramNamesOf h.2.1.2
        simp (disch := exact unbroken rfl) [hname, htype, hmark, hparams]
      · simp (disch := exact unbroken rfl) [hname, htype, hmark]
    | method f =>
      obtain ⟨span, name, params, result, body, ms, tps, ds, c⟩ := f
      simp only [memberNodes, Callable.nodes, nodesInOrder_cons, nodesInOrder_append, cons_append] at h
      refine ⟨hcomment ?_, ih h.2.2⟩
      have hname : T.Text name := law.text_of_node h.1 (by simp [Node.texts])
      have hresult := text_typeOr "void" h.2.1.1.2 (by decide)
      have hparams := text_paramNamesOf h.2.1.1.1
      simp (disch := exact unbroken rfl) [memberText, hname, hresult, hparams]
    | field v =>
      obtain ⟨span, ds, type, ms, kind⟩ := v
      simp only [memberNodes, VarDecl.nodes, nodesInOrder_cons, nodesInOrder_append, cons_append] at h
      exact ⟨hcomment (law.composes.listed (text_declaratorNames h.2.1.1)), ih h.2.2⟩

theorem stmts_interfaceComments {bases members} (hname : T.Text name) (hbases : T.Nodes P (typeNodes bases))
    (hmembers : T.Nodes P (memberNodes members)) :
    T.Stmts (interfaceComments span name bases members) := by
  refine stmts_cons.2 ⟨stmt_comment ?_ _, stmts_members members hmembers⟩
  have htypes := text_typeTexts hbases
  simp (disch := exact unbroken rfl) [hname]
  split
  · exact law.text_of_line (unbroken rfl)
  · exact law.text_append.2 ⟨law.text_of_line (unbroken rfl), htypes⟩

theorem stmts_handlers (handlers : List Handler) (h : T.Nodes P (handlerNodes handlers)) :
    T.Stmts (handlers.map handlerComment) := by
  induction handlers with
  | nil => exact stmts_nil
  | cons handler handlers ih =>
    obtain ⟨span, param, types, body⟩ := handler
    simp only [handlerNodes, nodesInOrder_cons, nodesInOrder_append] at h
    refine stmts_cons.2 ⟨stmt_comment ?_ _, ih h.2.2⟩
    have hcaught : T.Text (" | ".intercalate (types.map (·.text))) := by
      refine law.composes.intercalate (law.text_of_line (unbroken rfl)) fun s hs => law.text_types types h.2.1.1 s ?_
      rwa [TypeRef.texts_eq_map]
    have hparam : T.Text (param.getD "") := by
      cases param with
      | none => exact law.composes.empty
      | some name => exact law.text_of_node h.1 (by simp [Node.texts])
    have htext : T.Text (handlerText types param) := by
      refine law.composes.intercalate (law.text_of_line (unbroken rfl)) fun s hs => ?_
      have hmem := (mem_filter.1 hs).1
      simp only [mem_cons, not_mem_nil, or_false] at hmem
      rcases hmem with rfl | rfl
      · exact hcaught
      · exact hparam
    simp (disch := exact unbroken rfl) [htext]

theorem text_labelled (lead : String) (hlead : '\n' ∉ lead.toList) (h : ∀ l ∈ label, T.Text l) :
    T.Text (labelled lead label) := by
  cases label with
  | none => exact law.composes.empty
  | some l => exact law.text_append.2 ⟨law.text_of_line hlead, h l rfl⟩

theorem stmt_continueComment (h : ∀ l ∈ label, T.Text l) : T.Stmt (continueComment span label) := by
  refine stmt_comment ?_ _
  have hlabel := text_labelled " of " (by decide) h
  simp (disch := exact unbroken rfl) [hlabel]

end Discipline

end Blackboard
