import Mathlib.Logic.Relation
import Blackboard.Proofs.Printing.Grammar

/-!
What the text of a formula is read as. Parentheses around a right operand of its parent's level are
left out under most operators, so the text is read as the formula in which every such operand is
rotated to the left, and as nothing else.
-/
namespace Blackboard.Pseudo

open List
open Relation (ReflTransGen)

/-- Whether an expression consists of literals and names under operators. -/
inductive Expr.IsFormula : Expr → Prop where
  | literal {text : String} {value : Option Value} {line : Option Nat} :
    IsFormula (.literal text value line)
  | identifier {name : String} {declared : Option Bool} {line : Option Nat} :
    IsFormula (.identifier name declared line)
  | unary {op : UnaryOp} {e : Expr} {line : Option Nat} : op = .not ∨ op = .neg →
    IsFormula e → IsFormula (.unary op e line)
  | binary {op : BinaryOp} {a b : Expr} {line : Option Nat} : op ∈ BinaryOp.known →
    IsFormula a → IsFormula b → IsFormula (.binary op a b line)

def Expr.term : Expr → Term
  | .binary op a b _ => .binary op a.term b.term
  | .unary op a _ => .unary op a.term
  | .identifier x _ _ => .atom (.name x)
  | e => .atom (.literal e.text)

def BinaryOp.rightLeast (op : BinaryOp) : Nat :=
  if op.groupsRight then op.precedence + 1 else op.precedence

namespace Term

variable {t t' : Term}

def IsStandard : Term → Prop
  | atom _ => True
  | unary op t => (op = .not ∨ op = .neg) ∧ t.IsStandard
  | binary op t u => op ∈ BinaryOp.known ∧ t.IsStandard ∧ u.IsStandard

def level : Term → Nat
  | atom _ => Expr.atomic
  | unary op _ => op.precedence
  | binary op _ _ => op.precedence

def leaves : Term → List Atom
  | atom a => [a]
  | unary _ t => t.leaves
  | binary _ t u => t.leaves ++ u.leaves

/-- The tokens `ts` of `t` where an operand of at least the level `least` stands. -/
def enclosed (t : Term) (ts : List Token) (least : Nat) : List Token :=
  if t.level < least then .mark "(" :: (ts ++ [.mark ")"]) else ts

def tokens : Term → List Token
  | atom a => [.atom a]
  | unary op t => .mark op.text :: t.enclosed t.tokens Expr.atomic
  | binary op t u =>
    t.enclosed t.tokens op.leftLeast ++ .mark op.text :: u.enclosed u.tokens op.rightLeast

/-- One rotation: a right operand of its parent's level, under an operator that does not group to
the right, gives its own left operand to the parent. -/
inductive Rotates : Term → Term → Prop where
  | here {op op' : BinaryOp} {t u v : Term} : op.groupsRight = false →
    op'.precedence = op.precedence →
    Rotates (binary op t (binary op' u v)) (binary op' (binary op t u) v)
  | operand {op : UnaryOp} {t t' : Term} : Rotates t t' → Rotates (unary op t) (unary op t')
  | left {op : BinaryOp} {t t' u : Term} : Rotates t t' → Rotates (binary op t u) (binary op t' u)
  | right {op : BinaryOp} {t u u' : Term} : Rotates u u' → Rotates (binary op t u) (binary op t u')

def IsSettled (t : Term) : Prop := ∀ t', ¬ Rotates t t'

/-! ### What a rotation keeps -/

theorem Rotates.level_eq (h : Rotates t t') : t'.level = t.level := by
  cases h with
  | here _ hlevel => exact hlevel
  | operand | left | right => rfl

theorem Rotates.leaves_eq (h : Rotates t t') : t'.leaves = t.leaves := by
  induction h with
  | here => simp only [leaves, append_assoc]
  | operand _ ih | left _ ih | right _ ih => simp [leaves, ih]

theorem Rotates.isStandard (h : Rotates t t') (ht : t.IsStandard) : t'.IsStandard := by
  induction h with
  | here => exact ⟨ht.2.2.1, ⟨ht.1, ht.2.1, ht.2.2.2.1⟩, ht.2.2.2.2⟩
  | operand _ ih => exact ⟨ht.1, ih ht.2⟩
  | left _ ih => exact ⟨ht.1, ih ht.2.1, ht.2.2⟩
  | right _ ih => exact ⟨ht.1, ht.2.1, ih ht.2.2⟩

variable {op : BinaryOp}

theorem isComparison_eq_false {op'} (h : op ∈ BinaryOp.known) (h' : op' ∈ BinaryOp.known)
    (hgroups : op.groupsRight = false) (hlevel : op'.precedence = op.precedence) :
    op'.isComparison = false := by
  have hall : ∀ op ∈ BinaryOp.known, ∀ op' ∈ BinaryOp.known, op.groupsRight = false →
      op'.precedence = op.precedence → op'.isComparison = false := by decide
  exact hall op h op' h' hgroups hlevel

theorem Rotates.tokens_eq (h : Rotates t t') (ht : t.IsStandard) : t'.tokens = t.tokens := by
  induction h with
  | @here op op' t u v hgroups hlevel =>
    have hleft : op'.leftLeast = op.precedence := by
      rw [BinaryOp.leftLeast, isComparison_eq_false ht.1 ht.2.2.1 hgroups hlevel]
      exact hlevel
    have hright : op.rightLeast = op.precedence := by
      rw [BinaryOp.rightLeast, hgroups]
      rfl
    simp [tokens, enclosed, level, hleft, hright, hlevel]
  | operand h ih => simp only [tokens, enclosed, ih ht.2, h.level_eq]
  | left h ih => simp only [tokens, enclosed, ih ht.2.1, h.level_eq]
  | right h ih => simp [tokens, enclosed, ih ht.2.2, h.level_eq]

theorem rotations_keep (h : ReflTransGen Rotates t t') (ht : t.IsStandard) :
    t'.IsStandard ∧ t'.tokens = t.tokens ∧ t'.leaves = t.leaves := by
  induction h with
  | refl => exact ⟨ht, rfl, rfl⟩
  | tail _ h ih =>
    obtain ⟨hstandard, htokens, hleaves⟩ := ih
    exact ⟨h.isStandard hstandard, (h.tokens_eq hstandard).trans htokens, h.leaves_eq.trans hleaves⟩

/-! ### Rotating everything -/

def join (op : BinaryOp) (t : Term) : Term → Term
  | binary op' u v =>
    if op.groupsRight = false ∧ op'.precedence = op.precedence then binary op' (join op t u) v
    else binary op t (binary op' u v)
  | u => binary op t u

def rotated : Term → Term
  | atom a => atom a
  | unary op t => unary op t.rotated
  | binary op t u => join op t.rotated u.rotated

theorem rotations_join (op : BinaryOp) (t u : Term) : ReflTransGen Rotates (binary op t u) (join op t u) := by
  induction u with
  | atom | unary => exact .refl
  | binary op' u v ihu _ =>
    rw [join]
    split
    · next h =>
      have hlift : ReflTransGen Rotates (binary op' (binary op t u) v) (binary op' (join op t u) v) :=
        ihu.lift (binary op' · v) fun _ _ => .left
      exact .head (.here h.1 h.2) hlift
    · exact .refl

theorem rotations_rotated (t : Term) : ReflTransGen Rotates t t.rotated := by
  induction t with
  | atom => exact .refl
  | unary op t ih => exact ih.lift (unary op) fun _ _ => .operand
  | binary op t u iht ihu =>
    have hleft : ReflTransGen Rotates (binary op t u) (binary op t.rotated u) :=
      iht.lift (binary op · u) fun _ _ => .left
    have hright : ReflTransGen Rotates (binary op t.rotated u) (binary op t.rotated u.rotated) :=
      ihu.lift (binary op t.rotated) fun _ _ => .right
    exact (hleft.trans hright).trans (rotations_join op _ _)

theorem isSettled_binary {u} (ht : t.IsSettled) (hu : u.IsSettled)
    (h : ∀ op' v w, u = binary op' v w → ¬(op.groupsRight = false ∧ op'.precedence = op.precedence)) :
    (binary op t u).IsSettled := by
  intro s hs
  cases hs with
  | here hgroups hlevel => exact h _ _ _ rfl ⟨hgroups, hlevel⟩
  | left h => exact ht _ h
  | right h => exact hu _ h

theorem isSettled_join {u} (ht : t.IsSettled) (hu : u.IsSettled) : (join op t u).IsSettled := by
  induction u with
  | atom | unary => exact isSettled_binary ht hu (by simp)
  | binary op' u v ihu _ =>
    have hleft : u.IsSettled := fun s hs => hu _ (.left hs)
    have hright : v.IsSettled := fun s hs => hu _ (.right hs)
    rw [join]
    split
    · refine isSettled_binary (ihu hleft) hright ?_
      rintro op'' v' w rfl ⟨hgroups, hlevel⟩
      exact hu _ (.here hgroups hlevel)
    · next h =>
      refine isSettled_binary ht hu ?_
      rintro _ _ _ ⟨⟩
      exact h

theorem isSettled_rotated (t : Term) : t.rotated.IsSettled := by
  induction t with
  | atom => rintro _ ⟨⟩
  | unary op t ih =>
    rintro _ ⟨⟩
    exact ih _ ‹_›
  | binary op t u iht ihu => exact isSettled_join iht ihu

/-! ### Reading a settled formula -/

theorem reads_enclosed {ts} (h : Reads t.level ts t) {least}
    (hleast : least ≤ Expr.atomic) : Reads least (t.enclosed ts least) t := by
  unfold enclosed
  split
  · exact .tighter hleast (.parenthesized (.tighter (Nat.zero_le _) h))
  · next hge => exact .tighter (Nat.le_of_not_lt hge) h

theorem enclosed_rightLeast {u} (h : (binary op t u).IsSettled) (hop : op ∈ BinaryOp.known)
    (hu : u.IsStandard) (us : List Token) :
    u.enclosed us op.rightLeast = u.enclosed us (op.precedence + 1) := by
  unfold BinaryOp.rightLeast
  split
  · rfl
  · next hgroups =>
    have hne : u.level ≠ op.precedence := by
      cases u with
      | atom => exact Nat.ne_of_gt (BinaryOp.precedence_lt_atomic hop)
      | unary op' v =>
        have : ∀ op ∈ BinaryOp.known, UnaryOp.not.precedence ≠ op.precedence ∧
            UnaryOp.neg.precedence ≠ op.precedence := by decide
        rcases hu.1 with rfl | rfl
        · exact (this op hop).1
        · exact (this op hop).2
      | binary op' v w => exact fun hlevel => h _ (.here (by simpa using hgroups) hlevel)
    unfold enclosed
    congr 1
    exact propext ⟨fun h => by omega, fun h => by omega⟩

theorem reads_of_isSettled (ht : t.IsStandard) (h : t.IsSettled) : Reads t.level t.tokens t := by
  induction t with
  | atom => exact .atom
  | unary op t ih =>
    have := ih ht.2 fun s hs => h _ (.operand hs)
    exact .unary ht.1 (reads_enclosed this (Nat.le_refl _))
  | binary op t u iht ihu =>
    have hleft := iht ht.2.1 fun s hs => h _ (.left hs)
    have hright := ihu ht.2.2 fun s hs => h _ (.right hs)
    have hatomic := BinaryOp.precedence_lt_atomic ht.1
    have hleast : op.leftLeast ≤ Expr.atomic := by
      unfold BinaryOp.leftLeast
      split <;> omega
    rw [tokens, enclosed_rightLeast h ht.1 ht.2.2]
    exact .binary ht.1 (reads_enclosed hleft hleast) (reads_enclosed hright hatomic)

theorem reads_tokens_iff (ht : t.IsStandard) (u : Term) : Reads 0 t.tokens u ↔ u = t.rotated := by
  have hkeep := rotations_keep (rotations_rotated t) ht
  have hread : Reads 0 t.tokens t.rotated := by
    rw [← hkeep.2.1]
    exact .tighter (Nat.zero_le _) (reads_of_isSettled hkeep.1 (isSettled_rotated t))
  constructor
  · exact fun hu => hu.unique hread
  · rintro rfl
    exact hread

theorem rotations_settled_iff (ht : t.IsStandard) (u : Term) :
    ReflTransGen Rotates t u ∧ u.IsSettled ↔ u = t.rotated := by
  constructor
  · rintro ⟨hu, hsettled⟩
    obtain ⟨hstandard, htokens, -⟩ := rotations_keep hu ht
    rw [← reads_tokens_iff ht, ← htokens]
    exact .tighter (Nat.zero_le _) (reads_of_isSettled hstandard hsettled)
  · rintro rfl
    exact ⟨rotations_rotated t, isSettled_rotated t⟩

end Term

/-! ### The text of a formula -/

/-- The text of some tokens, where an operand is to come or has been read: blanks stand around an
operator between two operands and after a word in front of one. -/
def Token.spelled : (operandNext : Bool) → List Token → String
  | _, [] => ""
  | _, .atom a :: ts => a.text ++ spelled false ts
  | true, .mark m :: ts => m ++ (if m = "NOT" then " " else "") ++ spelled true ts
  | false, .mark m :: ts =>
    if m = ")" then m ++ spelled false ts else " " ++ m ++ " " ++ spelled true ts

namespace Expr.IsFormula

theorem isStandard {e : Expr} (h : e.IsFormula) : e.term.IsStandard := by
  induction h with
  | literal | identifier => exact trivial
  | unary hop _ ih => exact ⟨hop, ih⟩
  | binary hop _ _ iha ihb => exact ⟨hop, iha, ihb⟩

theorem precedence_eq {e : Expr} (h : e.IsFormula) : e.precedence = e.term.level := by
  cases h <;> rfl

theorem spelled_enclosed {e : Expr} (h : e.IsFormula)
    (he : ∀ rest, Token.spelled true (e.term.tokens ++ rest) = e.text ++ Token.spelled false rest)
    (least : Nat) (rest : List Token) :
    Token.spelled true (e.term.enclosed e.term.tokens least ++ rest) =
      e.wrapped e.text least ++ Token.spelled false rest := by
  unfold Term.enclosed Expr.wrapped
  rw [h.precedence_eq]
  split
  · have hne : ("(" : String) ≠ "NOT" := by decide
    rw [cons_append, append_assoc, singleton_append, Token.spelled, if_neg hne, he,
      Token.spelled, if_pos rfl]
    simp [String.append_assoc]
  · exact he rest

theorem spelled_tokens {e : Expr} (h : e.IsFormula) (rest : List Token) :
    Token.spelled true (e.term.tokens ++ rest) = e.text ++ Token.spelled false rest := by
  induction h generalizing rest with
  | literal | identifier => rfl
  | @unary op e line hop he ih =>
    have hmark : (op.text = "NOT") = (op = .not) := by rcases hop with rfl | rfl <;> simp [UnaryOp.text]
    simp [Expr.term, Term.tokens, Expr.text, Token.spelled, he.spelled_enclosed ih, hmark, String.append_assoc]
  | @binary op a b line hop ha hb iha ihb =>
    have hmark := (BinaryOp.text_ne_parenthesis hop).2
    simp [Expr.term, Term.tokens, Expr.text, ha.spelled_enclosed iha, Token.spelled, if_neg hmark,
      hb.spelled_enclosed ihb, BinaryOp.leftLeast, BinaryOp.rightLeast, String.append_assoc]

end Expr.IsFormula

/-- The text of a formula consists of its tokens. These are read as exactly one tree, which is the
only tree that is left when every right operand of its parent's level, under an operator that does
not group to the right, has been rotated to the left. The tree has the atoms of the formula in their
order. -/
theorem text_reads_back_rotated {e : Expr} (he : e.IsFormula) : Token.spelled true e.term.tokens = e.text ∧
      ∃ r : Term, (∀ t, Reads 0 e.term.tokens t ↔ t = r) ∧
        (∀ t, ReflTransGen Term.Rotates e.term t ∧ t.IsSettled ↔ t = r) ∧
        r.leaves = e.term.leaves := by
  refine ⟨?_, e.term.rotated, ?_, ?_, ?_⟩
  · simpa [Token.spelled] using he.spelled_tokens []
  · exact Term.reads_tokens_iff he.isStandard
  · exact Term.rotations_settled_iff he.isStandard
  · exact (Term.rotations_keep (Term.rotations_rotated _) he.isStandard).2.2

/-- `a + (b - (c - d))`, of which the outer parentheses are left out and the inner ones kept. -/
def rotationSample : Expr :=
  .binary .add (.identifier "a" none none) (.binary .sub (.identifier "b" none none)
      (.binary .sub (.identifier "c" none none) (.identifier "d" none none) none) none) none

theorem text_reads_back_rotated_sample : rotationSample.IsFormula ∧ rotationSample.text = "a + b - (c - d)" ∧
      ∀ t, Reads 0 rotationSample.term.tokens t ↔
        t = .binary .sub (.binary .add (.atom (.name "a")) (.atom (.name "b")))
          (.binary .sub (.atom (.name "c")) (.atom (.name "d"))) := by
  have hformula : rotationSample.IsFormula :=
    .binary (by decide) .identifier (.binary (by decide) .identifier (.binary (by decide) .identifier .identifier))
  obtain ⟨-, r, hread, hrotated, -⟩ := text_reads_back_rotated hformula
  have hr := (hrotated _).1 ⟨.single (.here rfl rfl), Term.isSettled_rotated rotationSample.term⟩
  exact ⟨hformula, by decide +kernel, fun t => by rw [hread t, ← hr]; rfl⟩

end Blackboard.Pseudo
