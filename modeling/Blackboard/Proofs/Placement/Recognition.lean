import Blackboard.Proofs.Placement.Tree
import Blackboard.Proofs.Scope.Alike

/-!
What is recognised in a program does not depend on where the program stands: whole numbers, lengths and
counting loops are found at the same nodes, and expressions have the same types. Types may be asked for in
two sets of scopes that look alike.
-/
namespace Blackboard.Source

variable (m : Relocation)

namespace Expr

@[simp]
theorem span_relocate (e : Expr) : (e.relocate m).span = m.span e.span := by
  cases e <;> rfl

@[simp]
theorem intLiteral?_relocate (e : Expr) : (e.relocate m).intLiteral? = e.intLiteral? := by
  cases e with
  | unary s op operand =>
    cases op with
    | neg => rw [relocate, intLiteral?, intLiteral?, intLiteral?_relocate operand]
    | _ => rfl
  | number _ value _ => cases value <;> rfl
  | _ => rfl

theorem lengthTarget?_relocate (e : Expr) : (e.relocate m).lengthTarget? = e.lengthTarget?.map (·.relocate m) := by
  cases e with
  | member s target name optional =>
    simp only [relocate, lengthTarget?]
    split <;> rfl
  | call s callee args =>
    cases callee with
    | member _ target name optional =>
      cases args with
      | nil =>
        simp only [relocate, relocateExprs, lengthTarget?]
        split <;> rfl
      | cons => rfl
    | _ => rfl
  | _ => rfl

theorem lengthBound?_relocate (e : Expr) :
    (e.relocate m).lengthBound? = e.lengthBound?.map fun (t, k) => (t.relocate m, k) := by
  cases e with
  | binary s op left right =>
    cases op with
    | add | sub =>
      simp only [relocate, lengthBound?, intLiteral?_relocate, lengthTarget?_relocate]
      cases right.intLiteral? <;> cases left.lengthTarget? <;> rfl
    | _ => rfl
  | member s target name optional =>
    have htarget := lengthTarget?_relocate m (.member s target name optional)
    rw [relocate] at htarget ⊢
    rw [lengthBound?, lengthBound?, htarget, Option.map_map, Option.map_map]
    · rfl
    all_goals simp
  | call s callee args =>
    have htarget := lengthTarget?_relocate m (.call s callee args)
    rw [relocate] at htarget ⊢
    rw [lengthBound?, lengthBound?, htarget, Option.map_map, Option.map_map]
    · rfl
    all_goals simp
  | _ => rfl

@[simp]
theorem isVariable_relocate (name : String) (e : Expr) : (e.relocate m).isVariable name = e.isVariable name := by
  cases e <;> rfl

@[simp]
theorem isIndex_relocate (e : Expr) : (e.relocate m).isIndex = e.isIndex := by
  cases e <;> rfl

@[simp]
theorem isSelfReference_relocate (e : Expr) : (e.relocate m).isSelfReference = e.isSelfReference := by
  cases e <;> rfl

@[simp]
theorem dottedName?_relocate (e : Expr) : (e.relocate m).dottedName? = e.dottedName? := by
  cases e with
  | member s target name optional =>
    rw [relocate, dottedName?, dottedName?, dottedName?_relocate target]
  | _ => rfl

theorem step?_relocate (name : String) (e : Expr) : (e.relocate m).step? name = e.step? name := by
  cases e with
  | update s op before target => simp only [relocate, step?, isVariable_relocate]
  | assignment s op target value =>
    cases op with
    | set =>
      cases value with
      | binary _ op left right =>
        cases op <;> simp only [relocate, step?, isVariable_relocate, intLiteral?_relocate]
      | _ => simp only [relocate, step?, isVariable_relocate]
    | with_ op => cases op <;> simp only [relocate, step?, isVariable_relocate, intLiteral?_relocate]
  | _ => rfl

end Expr

/-! ### Nodes -/

theorem Node.isIndex_relocate (n : Node) : (n.relocate m).isIndex = n.isIndex := by
  cases n with
  | expr e => exact Expr.isIndex_relocate m e
  | _ => rfl

theorem Node.isVariable_relocate (name : String) (n : Node) : (n.relocate m).isVariable name = n.isVariable name := by
  cases n with
  | expr e => exact Expr.isVariable_relocate m name e
  | _ => rfl

theorem Node.assigns_relocate (name : String) (n : Node) : (n.relocate m).assigns name = n.assigns name := by
  cases n with
  | expr e =>
    cases e with
    | assignment s op target value => exact Expr.isVariable_relocate m name target
    | update s op before target => exact Expr.isVariable_relocate m name target
    | _ => rfl
  | _ => rfl

@[simp]
theorem Expr.containsIndex_relocate (e : Expr) : (e.relocate m).containsIndex = e.containsIndex := by
  unfold Expr.containsIndex
  rw [(nodes_relocate m).1, List.any_map]
  exact congrArg _ (funext (Node.isIndex_relocate m))

theorem Stmt.assigns_relocate (name : String) (s : Stmt) : (s.relocate m).assigns name = s.assigns name := by
  unfold Stmt.assigns
  rw [(nodes_relocate m).2.2.2.2.1, List.any_map]
  exact congrArg _ (funext (Node.assigns_relocate m name))

@[simp]
theorem Stmt.span_relocate (s : Stmt) : (s.relocate m).span = m.span s.span := by
  cases s with
  | block b => cases b; rfl
  | varDecl v => cases v; rfl
  | function f => cases f; rfl
  | _ => rfl

@[simp]
theorem Stmt.kind_relocate (s : Stmt) : (s.relocate m).kind = s.kind := by
  cases s <;> rfl

/-! ### Counting loops -/

namespace CountingLoop

def relocate (l : CountingLoop) : CountingLoop :=
  { l with type := l.type.map (·.relocate m), start := l.start.relocate m, bound := l.bound.relocate m }

theorem initial?_relocate (decl : Option VarDecl) (init : List Expr) :
    initial? (decl.map (·.relocate m)) (init.map (·.relocate m)) =
      (initial? decl init).map fun (name, type, e) => (name, type.map (·.relocate m), e.relocate m) := by
  cases decl with
  | some v =>
    obtain ⟨s, ds, type, modifiers, kind⟩ := v
    match ds with
    | [] => rfl
    | [⟨s, name, own, extra, e⟩] => cases own <;> cases e <;> rfl
    | ⟨_, _, _, _, _⟩ :: ⟨_, _, _, _, _⟩ :: _ => rfl
  | none =>
    match init with
    | [] => rfl
    | [e] =>
      cases e with
      | assignment s op target value => cases op <;> cases target <;> rfl
      | _ => rfl
    | e :: _ :: _ =>
      cases e with
      | assignment s op target value => cases op <;> cases target <;> rfl
      | _ => rfl

theorem comparison?_relocate (name : String) (e : Expr) : comparison? name (e.relocate m) =
      (comparison? name e).map fun (op, bound) => (op, bound.relocate m) := by
  cases e with
  | binary s op left right =>
    simp only [Expr.relocate, comparison?, Expr.isVariable_relocate]
    cases op.flipped? with
    | none => rfl
    | some back =>
      simp only [Option.bind_eq_bind, Option.bind_some]
      split
      · rfl
      · split <;> rfl
  | _ => rfl

theorem ofLoop?_relocate (decl : Option VarDecl) (init : List Expr) (condition : Option Expr)
    (update : List Expr) (body : Stmt) :
    ofLoop? (decl.map (·.relocate m)) (init.map (·.relocate m)) (condition.map (·.relocate m))
      (update.map (·.relocate m)) (body.relocate m) =
      (ofLoop? decl init condition update body).map (·.relocate m) := by
  simp only [ofLoop?, initial?_relocate]
  cases initial? decl init with
  | none => rfl
  | some found =>
    obtain ⟨name, type, start⟩ := found
    have hcomparison : (condition.map (·.relocate m)).bind (comparison? name) =
        (condition.bind (comparison? name)).map fun (op, bound) => (op, bound.relocate m) := by
      cases condition with
      | none => rfl
      | some e => exact comparison?_relocate m name e
    simp only [Option.map_some, Option.bind_eq_bind, Option.bind_some, hcomparison]
    cases condition.bind (comparison? name) with
    | none => rfl
    | some compared =>
      obtain ⟨op, bound⟩ := compared
      have hnodes : (bound.relocate m).nodes.any (Node.isVariable name) = bound.nodes.any (Node.isVariable name) := by
        rw [(nodes_relocate m).1, List.any_map]
        exact congrArg _ (funext (Node.isVariable_relocate m name))
      simp only [Option.map_some, Option.bind_some, hnodes]
      split
      · rfl
      · match update with
        | [] => rfl
        | [e] =>
          simp only [List.map_cons, List.map_nil, Expr.step?_relocate, Stmt.assigns_relocate]
          cases e.step? name with
          | none => rfl
          | some step =>
            simp only [Option.bind_some]
            split <;> rfl
        | _ :: _ :: _ => rfl

end CountingLoop

/-! ### Returned values -/

mutual

theorem Stmt.returns_relocate (s : Stmt) : (s.relocate m).returns = s.returns.map (·.map (·.relocate m)) := by
  cases s with
  | returnStmt s value => simp [Stmt.relocate, Stmt.returns]
  | block b =>
    obtain ⟨s, ss⟩ := b
    rw [Stmt.relocate, Block.relocate, Stmt.returns, Stmt.returns, returnsOf_relocate ss]
  | tryStmt s b handlers finalizer =>
    obtain ⟨bs, ss⟩ := b
    match finalizer with
    | none =>
      simp only [Stmt.relocate, Block.relocate, relocateBlock?, Stmt.returns, returnsOf_relocate ss,
        handlerReturns_relocate handlers, List.map_append]
    | some ⟨fs, gs⟩ =>
      simp only [Stmt.relocate, Block.relocate, relocateBlock?, Stmt.returns, returnsOf_relocate,
        handlerReturns_relocate handlers, List.map_append]
  | _ =>
    rw [Stmt.relocate]
    simp only [Stmt.returns, Stmt.returns_relocate, returnsOf_relocate, returnsOf?_relocate,
      caseReturns_relocate, List.map_append, List.map_nil]

theorem returnsOf_relocate : (ss : List Stmt) →
    returnsOf (relocateStmts m ss) = (returnsOf ss).map (·.map (·.relocate m))
  | [] => rfl
  | s :: ss => by
    rw [relocateStmts, returnsOf, returnsOf, Stmt.returns_relocate s, returnsOf_relocate ss, List.map_append]

theorem returnsOf?_relocate : (s : Option Stmt) →
    returnsOf? (relocateStmt? m s) = (returnsOf? s).map (·.map (·.relocate m))
  | none => rfl
  | some s => by rw [relocateStmt?, returnsOf?, returnsOf?, Stmt.returns_relocate s]

theorem caseReturns_relocate : (cs : List SwitchCase) →
    caseReturns (relocateCases m cs) = (caseReturns cs).map (·.map (·.relocate m))
  | [] => rfl
  | ⟨s, labels, body⟩ :: cs => by
    rw [relocateCases, caseReturns, caseReturns, returnsOf_relocate body, caseReturns_relocate cs, List.map_append]

theorem handlerReturns_relocate : (hs : List Handler) →
    handlerReturns (relocateHandlers m hs) = (handlerReturns hs).map (·.map (·.relocate m))
  | [] => rfl
  | ⟨s, param, types, ⟨bs, ss⟩⟩ :: hs => by
    rw [relocateHandlers, Block.relocate, handlerReturns, handlerReturns, returnsOf_relocate ss,
      handlerReturns_relocate hs, List.map_append]

end

end Blackboard.Source

namespace Blackboard.Pseudo

open Source

variable (m : Relocation)

mutual

@[simp]
theorem normalize_relocate (l : Language) : (t : TypeRef) → normalize l (t.relocate m) = normalize l t
  | ⟨span, name, args, dimensions, form⟩ => by
    have hargs := normalizeAll_relocate l args
    have htext := TypeRef.text_relocate m ⟨span, name, args, dimensions, form⟩
    rw [TypeRef.relocate] at htext ⊢
    have hempty : (relocateTypes m args).isEmpty = args.isEmpty := by simp
    rw [normalize.eq_def, normalize.eq_def l ⟨span, name, args, dimensions, form⟩]
    simp only [hargs, hempty, htext, Kind.standIn]

theorem normalizeAll_relocate (l : Language) : (ts : List TypeRef) →
    normalizeAll l (relocateTypes m ts) = normalizeAll l ts
  | [] => rfl
  | ⟨span, name, args, dimensions, form⟩ :: ts => by
    rw [relocateTypes, normalizeAll, normalizeAll, normalize_relocate l _, normalizeAll_relocate l ts]
    rfl

end

@[simp]
theorem isVoid_relocate (t : Option TypeRef) : isVoid (t.map (·.relocate m)) = isVoid t := by
  cases t with
  | none => rfl
  | some t => cases t; rfl

end Blackboard.Pseudo

namespace Blackboard.Conversion

open Source

structure View.Alike (v w : View) : Prop where
  language : v.language = w.language
  scopes : v.scopes.Resembles w.scopes
  enumNames : ∀ n, v.enumNames.contains n = w.enumNames.contains n

namespace View.Alike

variable {v w : View} (h : v.Alike w) (m : Relocation)
include h

theorem typeOf?_eq (name : String) : w.typeOf? name = v.typeOf? name := by
  rw [typeOf?, typeOf?, h.scopes.findVariable?_eq]

theorem resultOf?_eq (name : String) : w.resultOf? name = v.resultOf? name := by
  have hreturns := h.scopes.bind_returns name
  simp only [resultOf?, Option.bind_eq_bind]
  rw [← Option.bind_assoc, ← Option.bind_assoc, hreturns]

theorem isEnum_eq (e : Expr) : w.isEnum (e.relocate m) = v.isEnum e := by
  cases e with
  | identifier s name => exact (h.enumNames name).symm
  | _ => rfl

theorem isInputSource_eq (e : Expr) : w.isInputSource (e.relocate m) = v.isInputSource e := by
  cases e with
  | identifier s name =>
    simp only [Expr.relocate, isInputSource, h.scopes.findVariable?_eq, h.language]
  | newObject s type args => cases type; simp only [Expr.relocate, TypeRef.relocate, isInputSource, h.language]
  | _ => rfl

theorem inputCall?_eq (callee : Expr) (args : List Expr) :
    w.inputCall? (callee.relocate m) (args.map (·.relocate m)) =
      (v.inputCall? callee args).map fun (s, shown) => (s, shown.map (·.relocate m)) := by
  unfold inputCall?
  rw [← h.language]
  cases v.language with
  | java =>
    cases callee with
    | member s target name optional =>
      cases args with
      | nil =>
        simp only [Expr.relocate, List.map_nil, h.isInputSource_eq]
        split
        · cases inputMethods.lookup name <;> rfl
        · rfl
      | cons => rfl
    | _ => rfl
  | typescript =>
    simp only [Expr.dottedName?_relocate]
    split
    · cases args <;> rfl
    · rfl

theorem input?_eq (e : Expr) :
    w.input? (e.relocate m) = (v.input? e).map fun (s, shown) => (s, shown.map (·.relocate m)) := by
  cases e with
  | call s callee args =>
    simp only [Expr.relocate, input?, relocateExprs_eq_map, h.inputCall?_eq, Expr.dottedName?_relocate]
    cases v.inputCall? callee args with
    | some found => rfl
    | none =>
      cases numberParser? callee.dottedName? with
      | none => rfl
      | some type =>
        match args with
        | [] => rfl
        | e :: _ :: _ => cases e <;> rfl
        | [e] =>
          cases e with
          | call s inner innerArgs =>
            simp only [List.map_cons, List.map_nil, Expr.relocate, relocateExprs_eq_map, h.inputCall?_eq,
              Option.map_none]
            cases v.inputCall? inner innerArgs <;> rfl
          | _ => rfl
  | _ => rfl

end View.Alike

@[simp]
theorem isMath_relocate (m : Relocation) (e : Expr) : isMath (e.relocate m) = isMath e := by
  cases e <;> rfl

namespace View.Alike

variable {v w : View} (h : v.Alike w) (m : Relocation)
include h

theorem inferCall_eq (callee : Expr) (args : List Expr) (types : List (Option Pseudo.Kind)) :
    inferCall w (callee.relocate m) (args.map (·.relocate m)) types = inferCall v callee args types := by
  have hinput : w.input? (.call .unplaced (callee.relocate m) (args.map (·.relocate m))) =
      (v.input? (.call .unplaced callee args)).map fun (s, shown) => (s, shown.map (·.relocate m)) := by
    rw [← relocateExprs_eq_map]
    exact h.input?_eq m (.call .unplaced callee args)
  simp only [inferCall, hinput, Expr.dottedName?_relocate]
  cases v.input? (.call .unplaced callee args) with
  | some found => rfl
  | none =>
    cases numberParser? callee.dottedName? with
    | some s => rfl
    | none =>
      cases callee with
      | identifier s name => exact h.resultOf?_eq name
      | member s target method optional =>
        simp only [Expr.relocate, isMath_relocate, Option.map_none]
        split
        · rfl
        · have hfound := h.scopes.isSome_findCallable? method
          rw [h.resultOf?_eq, ← h.language]
          cases hv : v.scopes.findCallable? method with
          | none =>
            rw [hv] at hfound
            rw [Option.isSome_eq_false_iff.1 hfound.symm |> Option.isNone_iff_eq_none.1]
          | some p =>
            obtain ⟨q, hq⟩ := Option.isSome_iff_exists.1 (hfound.symm.trans (by rw [hv]; rfl))
            rw [hq]
      | _ => rfl

omit h

mutual

theorem infer_eq (h : v.Alike w) : (e : Expr) → infer w (e.relocate m) = infer v e
  | .number _ value _ => by cases value <;> rfl
  | .string .. | .char .. | .boolean .. | .null .. | .template .. | .newObject .. | .object ..
  | .lambda .. => rfl
  | .identifier s name => by rw [Expr.relocate, infer, infer, h.typeOf?_eq]
  | .member s target name optional => by
    rw [Expr.relocate, infer, infer, h.typeOf?_eq, h.isEnum_eq, Expr.isSelfReference_relocate]
  | .index s target i => by
    rw [Expr.relocate, infer, infer, infer_eq h target, h.language]
  | .call s callee args => by
    rw [Expr.relocate, infer, infer, inferAll_eq h args, relocateExprs_eq_map, h.inferCall_eq]
  | .newArray s element sizes d => by
    rw [Expr.relocate, infer, infer, Pseudo.normalize_relocate, h.language]
  | .newArrayOf s element d r [] | .array s [] => rfl
  | .newArrayOf s element d r (item :: items) => by
    rw [Expr.relocate, relocateExprs, infer, infer, infer_eq h item]
    simp
  | .array s (item :: items) => by
    rw [Expr.relocate, relocateExprs, infer, infer, infer_eq h item]
    simp
  | .binary s op left right => by
    rw [Expr.relocate, infer, infer, infer_eq h left, infer_eq h right, h.language]
  | .unary s op operand => by
    cases op with
    | not => rfl
    | _ => rw [Expr.relocate, infer, infer, infer_eq h operand] <;> simp
  | .update s op before target => by rw [Expr.relocate, infer, infer, infer_eq h target]
  | .assignment s op target value => by rw [Expr.relocate, infer, infer, infer_eq h value]
  | .await s operand => by rw [Expr.relocate, infer, infer, infer_eq h operand]
  | .spread s operand => by rw [Expr.relocate, infer, infer, infer_eq h operand]
  | .conditional s condition yes no => by
    rw [Expr.relocate, infer, infer, infer_eq h yes, infer_eq h no]
  | .cast s type operand => by
    rw [Expr.relocate, infer, infer, Pseudo.normalize_relocate, h.language]

theorem inferAll_eq (h : v.Alike w) : (es : List Expr) → inferAll w (relocateExprs m es) = inferAll v es
  | [] => rfl
  | e :: es => by rw [relocateExprs, inferAll, inferAll, infer_eq h e, inferAll_eq h es]

end

theorem inferScalar_eq (h : v.Alike w) (e : Expr) : inferScalar w (e.relocate m) = inferScalar v e := by
  rw [inferScalar, inferScalar, h.infer_eq]

end View.Alike

end Blackboard.Conversion
