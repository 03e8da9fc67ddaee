import Blackboard.Proofs.Conversion.Outcome
import Blackboard.Proofs.Discipline.Expression

/-!
Texts that are kept as they are written. A kept text is rendered like a single name, so no parentheses
set it off, whatever operator or access stands beside it. An assignment has them only where the
operator around it is kept as written too.
-/
namespace Blackboard

open List

namespace Pseudo.Expr

mutual

/-- The expression with a name in place of each kept text. -/
def named : Expr → Expr
  | raw text l => identifier text none l
  | literal text value l => literal text value l
  | identifier name declared l => identifier name declared l
  | binary op a b l => binary op a.named b.named l
  | unary op a l => unary op a.named l
  | call name args declared l => call name (namedAll args) declared l
  | method name target args passedOn l => method name target.named (namedAll args) passedOn l
  | builtin name template level target args l => builtin name template level target.named (namedAll args) l
  | member target name l => member target.named name l
  | index target i l => index target.named i.named l
  | array items l => array (namedAll items) l
  | conditional condition yes no l => conditional condition.named yes.named no.named l
  | newObject name args l => newObject name (namedAll args) l

def namedAll : List Expr → List Expr
  | [] => []
  | e :: es => e.named :: namedAll es

end

theorem precedence_named (e : Expr) : e.named.precedence = e.precedence := by
  cases e with
  | builtin name template level target args l => rcases level with _ | _ | n <;> rfl
  | _ => rfl

theorem wrapped_named (e : Expr) (text : String) (least : Nat) : e.named.wrapped text least = e.wrapped text least := by
  rw [wrapped, wrapped, precedence_named]

mutual

theorem text_named : (e : Expr) → e.named.text = e.text
  | raw .. | literal .. | identifier .. => rfl
  | binary op a b l => by simp only [named, text, wrapped_named, text_named a, text_named b]
  | unary op a l => by simp only [named, text, wrapped_named, text_named a]
  | call name args declared l => by simp only [named, text, texts_namedAll args]
  | method name target args passedOn l => by
    simp only [named, text, wrapped_named, text_named target, texts_namedAll args]
  | builtin name template level target args l => by
    simp only [named, text, wrapped_named, text_named target, wrappedTexts_namedAll _ args]
  | member target name l => by simp only [named, text, wrapped_named, text_named target]
  | index target i l => by simp only [named, text, wrapped_named, text_named target, text_named i]
  | array items l => by simp only [named, text, texts_namedAll items]
  | conditional condition yes no l => by
    simp only [named, text, text_named condition, text_named yes, text_named no]
  | newObject name args l => by simp only [named, text, texts_namedAll args]

theorem texts_namedAll : (es : List Expr) → texts (namedAll es) = texts es
  | [] => rfl
  | e :: es => by simp only [namedAll, texts, text_named e, texts_namedAll es]

theorem wrappedTexts_namedAll (least : Nat) : (es : List Expr) → wrappedTexts least (namedAll es) = wrappedTexts least es
  | [] => rfl
  | e :: es => by simp only [namedAll, wrappedTexts, wrapped_named, text_named e, wrappedTexts_namedAll least es]

end

end Pseudo.Expr

namespace Source.Expr

def isAssignment : Expr → Bool
  | assignment .. => true
  | _ => false

/-- An assignment or a type test. Neither has an equivalent, so both are kept as written. -/
def isKept : Expr → Bool
  | assignment .. | binary _ .instanceOf .. => true
  | _ => false

def isOperation : Expr → Bool
  | binary .. | unary .. => true
  | _ => false

inductive IsOperand (a : Expr) : Expr → Prop where
  | left {span op b} : IsOperand a (binary span op a b)
  | right {span op b} : IsOperand a (binary span op b a)
  | unary {span op} : IsOperand a (unary span op a)
  | member {span name isOptional} : IsOperand a (member span a name isOptional)
  | index {span i} : IsOperand a (index span a i)
  | method {span calleeSpan name isOptional args} :
    IsOperand a (call span (member calleeSpan a name isOptional) args)

/-- The source text of an operation sets an assignment off by parentheses. -/
theorem IsOperand.exists_parenthesised {a e : Expr} (h : IsOperand a e) (ha : a.isAssignment = true)
    (he : e.isOperation = true) : ∃ before after, e.text = before ++ "(" ++ a.text ++ ")" ++ after := by
  have hoperand (outer : Nat) (isRight : Bool) (houter : 0 < outer) :
      a.operandText a.text outer isRight = "(" ++ a.text ++ ")" := by
    cases a <;> simp_all [operandText, tightness?, isAssignment]
  have hop (op : BinaryOp) : 0 < op.precedence := by cases op <;> decide
  cases h with
  | @left span op b =>
    refine ⟨"", " " ++ op.text ++ " " ++ b.operandText b.text op.precedence true, ?_⟩
    rw [text, hoperand _ _ (hop op)]
    simp only [String.append_assoc, String.empty_append]
  | @right span op b =>
    refine ⟨b.operandText b.text op.precedence false ++ " " ++ op.text ++ " ", "", ?_⟩
    rw [text, hoperand _ _ (hop op)]
    simp only [String.append_assoc, String.append_empty]
  | @unary span op =>
    refine ⟨op.text ++ (if op = .typeOf then " " else ""), "", ?_⟩
    rw [text, hoperand _ _ (hop .pow)]
    simp [String.append_assoc]
  | member | index | method => cases he

end Source.Expr

namespace Convert

open Conversion Ensures
open Pseudo.Expr (nodes nodesOf)
open Source.Expr (isKept IsOperand)

variable {a e : Source.Expr} {p q : Pseudo.Expr} {c : Context} {s : State}

/-- Any step at all may be run before the one that counts. -/
theorem Ensures.after {α β : Type} {x : Convert α} {f : α → Convert β} {post : β → State → Prop}
    (h : ∀ a t, Ensures True (f a) c t post) : Ensures True (x >>= f) c s post :=
  bind_iff.2 ((run x c s).mono fun a t _ => h a t)

/-- A converted expression has the text of `a` somewhere in it. -/
def Has (a : Source.Expr) (p : Pseudo.Expr) : Prop := ∃ line, .raw a.text line ∈ p.nodes

theorem has_raw (a : Source.Expr) (line : Option Nat) : Has a (.raw a.text line) := ⟨line, mem_singleton_self _⟩

theorem kept_ensures (h : a.isKept = true) : Ensures True (expr a) c s fun p _ => Has a p := by
  unfold isKept at h
  split at h
  · rw [expr]
    exact has_raw _ _
  · rw [expr]
    exact has_raw _ _
  · cases h

theorem Has.of_child (h : Has a p) (hp : p ∈ q.children) : Has a q := by
  obtain ⟨line, hline⟩ := h
  refine ⟨line, ?_⟩
  rw [Pseudo.Expr.nodes_eq q]
  exact mem_cons_of_mem _ (Pseudo.Expr.mem_nodesOf.2 ⟨p, hp, hline⟩)

/-- The conversion of `e` has the text of its operand `a` in it, or `e` is kept as a whole. -/
def Retains (a e : Source.Expr) (p : Pseudo.Expr) : Prop := Has a p ∨ p = .raw e.text (some e.span.line)

theorem combine_retains (span : Source.Span) (op : Source.BinaryOp) (left right : Source.Expr) (h : Has a p ∨ Has a q) :
    Ensures True (combine span op left right p q) c s fun r _ => Retains a (.binary span op left right) r := by
  have hchild (r : Pseudo.Expr) (hr : r.children = [p, q]) : Has a r := by
    obtain h | h := h
    · exact h.of_child (by simp [hr])
    · exact h.of_child (by simp [hr])
  unfold combine
  simp only [bind_iff, view_iff, ite_iff, pure_iff]
  split
  · exact .inl (hchild _ rfl)
  split
  · exact .inl (hchild _ rfl)
  split
  · exact .inl (hchild _ rfl)
  split
  · exact .inr rfl
  · next mapped _ =>
    split
    · exact .inl (hchild (.binary mapped p q (some span.line)) rfl)
    · exact .inl (hchild (.binary mapped p q (some span.line)) rfl)

theorem operation_retains (span : Source.Span) (op : Source.BinaryOp) (left right : Source.Expr) {x y : Convert Pseudo.Expr}
    (h : (∀ s, Ensures True x c s fun p _ => Has a p) ∨ ∀ s, Ensures True y c s fun p _ => Has a p) :
    Ensures True (operation span op left right x y) c s fun r _ => Retains a (.binary span op left right) r := by
  have hboth (s : State) (f : Pseudo.Expr → Pseudo.Expr → Convert Pseudo.Expr)
      (hf : ∀ p q s, Has a p ∨ Has a q → Ensures True (f p q) c s fun r _ => Retains a (.binary span op left right) r) :
      Ensures True (x >>= fun p => y >>= f p) c s fun r _ => Retains a (.binary span op left right) r := by
    rw [bind_iff]
    obtain h | h := h
    · exact (h s).mono fun p t hp => after fun q u => hf p q u (.inl hp)
    · exact (run x c s).mono fun p t _ => bind_iff.2 ((h t).mono fun q u hq => hf p q u (.inr hq))
  unfold operation
  split
  · exact .inr rfl
  · refine after fun _ t => after fun _ u => hboth u _ fun p q v hpq => .inl ?_
    obtain h | h := hpq
    · exact h.of_child (by simp [Pseudo.Expr.children])
    · exact h.of_child (by simp [Pseudo.Expr.children])
  · exact hboth s _ fun p q t => combine_retains span op left right

theorem unary_retains (span : Source.Span) (op : Source.UnaryOp) (operand : Source.Expr) {x : Convert Pseudo.Expr}
    (h : Ensures True x c s fun p _ => Has a p) :
    Ensures True (unary span op operand x) c s fun r _ => Retains a (.unary span op operand) r := by
  unfold unary
  split
  · exact bind_iff.2 (h.mono fun p t hp => .inl (hp.of_child mem_cons_self))
  · exact h.mono fun p t hp => .inl hp
  · refine bind_iff.2 (h.mono fun p t hp => .inl ?_)
    unfold negated
    split
    · simp [Has, nodes] at hp
    · simp [Has, nodes] at hp
    · exact hp.of_child mem_cons_self
  · exact .inr rfl

theorem has_apply (m : Pseudo.StringMethod) {args : List Pseudo.Expr} (h : Has a p) : Has a (m.apply p args) := by
  unfold Pseudo.StringMethod.apply
  split <;> exact h.of_child mem_cons_self

theorem objectMethod_has (span : Source.Span) (dotted : Option String) (method : String) (arity : Nat)
    {x : Convert Pseudo.Expr} {y : Convert (List Pseudo.Expr)} (h : Ensures True x c s fun p _ => Has a p) :
    Ensures True (objectMethod span dotted method arity x y) c s fun r _ => Has a r := by
  unfold objectMethod
  rw [bind_iff, findCallable?_iff]
  dsimp only
  split
  · next m _ _ =>
    refine bind_iff.2 (h.mono fun p t hp => ?_)
    have hwritten (args : List Pseudo.Expr) (u : State) : Ensures True (written (m.apply p args)) c u fun r _ => Has a r := by
      rw [written_iff]
      split
      · exact has_apply m hp
      · trivial
    split <;> exact after hwritten
  · refine bind_iff.2 (h.mono fun p t hp => after fun args u => ?_)
    split <;> exact hp.of_child mem_cons_self

theorem memberAccess_has (span : Source.Span) (member : String) (isOptional : Bool) (hself : a.isSelfReference = false)
    (henum : ∀ v : View, v.isEnum a = false) {x : Convert Pseudo.Expr} (h : ∀ s, Ensures True x c s fun p _ => Has a p) :
    Ensures True (memberAccess span a member isOptional x) c s fun r _ => Has a r := by
  have haccess (s : State) {f : Pseudo.Expr → Pseudo.Expr} (hf : ∀ p, p ∈ (f p).children) :
      Ensures True (x >>= fun p => pure (f p)) c s fun r _ => Has a r :=
    bind_iff.2 ((h s).mono fun p _ hp => hp.of_child (hf p))
  have hrest (s : State) : Ensures True (do
      if member = "length" then
        return .call "LENGTH" [← x] none (some a.span.line)
      else if (← view).isEnum a then
        return declaredName member span
      else
        return .member (← x) member (some span.line)) c s fun r _ => Has a r := by
    split
    · exact haccess s fun p => mem_cons_self (a := p)
    · rw [bind_iff, view_iff, henum]
      exact haccess s fun p => mem_cons_self (a := p)
  unfold memberAccess
  rw [hself]
  cases isOptional with
  | true => exact after fun _ t => after fun _ u => hrest u
  | false => exact hrest s

theorem methodCall_has (span calleeSpan : Source.Span) (method : String) (isOptional : Bool) (arity : Nat)
    (hself : a.isSelfReference = false) (hmath : isMath a = false) {x : Convert Pseudo.Expr}
    {y : Convert (List Pseudo.Expr)} (h : ∀ s, Ensures True x c s fun p _ => Has a p) :
    Ensures True (methodCall span calleeSpan a method isOptional arity x y) c s fun r _ => Has a r := by
  unfold methodCall
  rw [hself, hmath]
  dsimp only
  split
  · exact after fun _ t => after fun _ u => objectMethod_has span _ method arity (h u)
  · exact objectMethod_has span _ method arity (h s)

theorem operand_retains (ha : a.isKept = true) (h : IsOperand a e) :
    Ensures True (expr e) c s fun p _ => Retains a e p := by
  have hkept (s : State) : Ensures True (expr a) c s fun p _ => Has a p := kept_ensures ha
  have hself : a.isSelfReference = false := by cases a <;> first | rfl | cases ha
  have hmath : isMath a = false := by cases a <;> first | rfl | cases ha
  have hdotted : a.dottedName? = none := by cases a <;> first | rfl | cases ha
  have henum (v : View) : v.isEnum a = false := by cases a <;> first | rfl | cases ha
  cases h with
  | left =>
    exact operation_retains _ _ _ _ (.inl hkept)
  | right =>
    exact operation_retains _ _ _ _ (.inr hkept)
  | unary =>
    exact unary_retains _ _ _ (hkept s)
  | member =>
    exact (memberAccess_has _ _ _ hself henum hkept).mono fun _ _ => .inl
  | index =>
    refine bind_iff.2 ((hkept s).mono fun p t hp => ?_)
    split <;> exact after fun i u => .inl (hp.of_child mem_cons_self)
  | method =>
    rw [expr]
    unfold callOr
    simp only [bind_iff, view_iff, ite_iff]
    split
    · exact .inr rfl
    · rw [Source.Expr.dottedName?, hdotted]
      exact (methodCall_has _ _ _ _ _ hself hmath hkept).mono fun _ _ => .inl

end Convert

/-- An operand that is kept as written is rendered like a name in its place, without parentheses. Where
the operation around it is kept as written too, an assignment has them. -/
theorem kept_operands_are_rendered_like_names (a e : Source.Expr) (ha : a.isKept = true) (h : a.IsOperand e)
    (c : Conversion.Context) (s t : Conversion.State) (p : Pseudo.Expr) (hrun : Convert.expr e c s = .ok (p, t)) :
    ((∃ line, .raw a.text line ∈ p.nodes) ∧ p.text = p.named.text) ∨
      p.text = e.text ∧ (a.isAssignment = true → e.isOperation = true →
        ∃ before after, p.text = before ++ "(" ++ a.text ++ ")" ++ after) := by
  have hkeeps : Convert.Ensures True (Convert.expr e) c s fun p _ => Convert.Retains a e p := Convert.operand_retains ha h
  rw [Convert.Ensures, hrun] at hkeeps
  obtain hhas | rfl := hkeeps
  · exact .inl ⟨hhas, p.text_named.symm⟩
  · exact .inr ⟨rfl, h.exists_parenthesised⟩

namespace Source.Expr

def assigned : Expr := assignment .unplaced .set (identifier .unplaced "a") (identifier .unplaced "b")

def assignedPlusOne : Expr := binary .unplaced .add assigned (number .unplaced (.int 1) "1")

theorem kept_operands_are_rendered_like_names_sum : assigned.isKept = true ∧ assigned.IsOperand assignedPlusOne ∧
    ∃ p t, Convert.expr assignedPlusOne { language := .typescript, limit := 30 } {} = .ok (p, t) ∧
      ((∃ line, .raw assigned.text line ∈ p.nodes) ∧ p.text = p.named.text ∨ p.text = assignedPlusOne.text) := by
  have hrun : ∃ p t, Convert.expr assignedPlusOne { language := .typescript, limit := 30 } {} = .ok (p, t) :=
    ⟨_, _, rfl⟩
  obtain ⟨p, t, hrun⟩ := hrun
  exact ⟨rfl, .left, p, t, hrun,
    (kept_operands_are_rendered_like_names assigned _ rfl .left _ _ _ _ hrun).imp_right And.left⟩

/-- The sum adds one to the assigned value, its rendering to `b`. -/
theorem assignedPlusOne_loses_parentheses : assignedPlusOne.text = "(a = b) + 1" ∧
    ∃ p t, Convert.expr assignedPlusOne { language := .typescript, limit := 30 } {} = .ok (p, t) ∧ p.text = "a = b + 1" :=
  ⟨by decide, _, _, rfl, by decide⟩

end Source.Expr

end Blackboard
