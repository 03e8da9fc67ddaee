import Blackboard.Proofs.WellFormed.Reading

/-!
The precedence grammar of pseudocode formulas. Operators of one level are read from left to right,
comparisons do not chain, and a unary operator takes a single atom or a formula in parentheses. The
grammar is unambiguous.
-/
namespace Blackboard.Pseudo

inductive Atom where
  | name (text : String)
  | literal (text : String)
deriving DecidableEq, Repr

def Atom.text : Atom → String
  | name s | literal s => s

inductive Term where
  | atom (a : Atom)
  | unary (op : UnaryOp) (operand : Term)
  | binary (op : BinaryOp) (left right : Term)
deriving DecidableEq, Repr

/-- A mark is an operator or a parenthesis; the minus of a difference and that of a negation are the
same mark. -/
inductive Token where
  | atom (a : Atom)
  | mark (text : String)
deriving DecidableEq, Repr

namespace BinaryOp

/-- The least level of the left operand, which may be of the operator's own level unless that is the
level of comparisons. -/
def leftLeast (op : BinaryOp) : Nat := if op.isComparison then op.precedence + 1 else op.precedence

theorem precedence_le_leftLeast (op : BinaryOp) : op.precedence ≤ op.leftLeast := by
  unfold leftLeast
  split <;> omega

theorem text_ne_parenthesis {op} (h : op ∈ known) : op.text ≠ "(" ∧ op.text ≠ ")" := by
  revert op
  decide

theorem precedence_lt_atomic {op} (h : op ∈ known) : op.precedence < Expr.atomic := by
  revert op
  decide

end BinaryOp

/-- Whether some tokens are a formula of at least the level `least`. -/
inductive Reads : (least : Nat) → List Token → Term → Prop where
  | atom {a : Atom} : Reads Expr.atomic [.atom a] (.atom a)
  | parenthesized {ts : List Token} {t : Term} :
    Reads 0 ts t → Reads Expr.atomic (.mark "(" :: (ts ++ [.mark ")"])) t
  | unary {op : UnaryOp} {ts : List Token} {t : Term} : op = .not ∨ op = .neg →
    Reads Expr.atomic ts t → Reads op.precedence (.mark op.text :: ts) (.unary op t)
  | binary {op : BinaryOp} {ts us : List Token} {t u : Term} : op ∈ BinaryOp.known →
    Reads op.leftLeast ts t → Reads (op.precedence + 1) us u →
    Reads op.precedence (ts ++ .mark op.text :: us) (.binary op t u)
  | tighter {least level : Nat} {ts : List Token} {t : Term} : least ≤ level →
    Reads level ts t → Reads least ts t

/-! ### The only reading

Tokens are read from left to right with a stack of what is still open. The reader finds the tree of
every formula, so a formula has one tree only.
-/

/-- What waits for an operand: a parenthesis, a unary operator, or a left operand with its
operator. -/
inductive Frame where
  | group
  | ahead (op : UnaryOp)
  | between (left : Term) (op : BinaryOp)
deriving DecidableEq, Repr

namespace Frame

variable {level : Nat}

def settle : List Frame → Term → List Frame × Term
  | .ahead op :: fs, t => settle fs (.unary op t)
  | fs, t => (fs, t)

/-- Gives a right operand to the operators that bind at least as tightly as `level`. -/
def close (level : Nat) : List Frame → Term → List Frame × Term
  | .between l op :: fs, t =>
    if level ≤ op.precedence then close level fs (.binary op l t) else (.between l op :: fs, t)
  | fs, t => (fs, t)

/-- Reads tokens before which `fs` is open, where `operand` is the operand read last, unless one is
to come. -/
def read : List Frame → (operand : Option Term) → List Token → Option Term
  | fs, none, .atom a :: ts => read (settle fs (.atom a)).1 (settle fs (.atom a)).2 ts
  | fs, none, .mark m :: ts =>
    if m = "(" then read (.group :: fs) none ts
    else if m = "NOT" ∨ m = "-" then read (.ahead (.ofText m) :: fs) none ts
    else none
  | fs, some t, .mark m :: ts =>
    if m = ")" then match close 0 fs t with
      | (.group :: fs, t) => read (settle fs t).1 (settle fs t).2 ts
      | _ => none
    else
      let op := BinaryOp.ofText m
      if op ∈ BinaryOp.known then
        read (.between (close op.precedence fs t).2 op :: (close op.precedence fs t).1) none ts
      else none
  | fs, some t, [] => match close 0 fs t with
    | ([], t) => some t
    | _ => none
  | _, _, _ => none

/-- Whether an operand of a level may come next: a unary operator only takes an atomic one, and one
that follows an operator binds more tightly than it. -/
structure Awaits (level : Nat) (fs : List Frame) : Prop where
  ahead : level < Expr.atomic → ∀ op, fs.head? ≠ some (.ahead op)
  between : ∀ l op, fs.head? = some (.between l op) → op.precedence < level

def EndsBefore (level : Nat) (ts : List Token) : Prop :=
  ∀ m ∈ ts.head?, ∀ s, m = .mark s → s = ")" ∨ (BinaryOp.ofText s).precedence ≤ level

variable {fs : List Frame}

theorem Awaits.settle_eq (h : Awaits level fs) (hlevel : level < Expr.atomic) (t : Term) : settle fs t = (fs, t) := by
  match fs with
  | [] | .group :: _ | .between _ _ :: _ => rfl
  | .ahead op :: _ => exact absurd rfl (h.ahead hlevel op)

theorem Awaits.close_eq (h : Awaits level fs) (t : Term) : close level fs t = (fs, t) := by
  match fs with
  | [] | .group :: _ | .ahead _ :: _ => rfl
  | .between l op :: fs =>
    rw [close, if_neg]
    have := h.between l op rfl
    omega

theorem read_between {l t op ts} (h : EndsBefore op.precedence ts) :
    read (.between l op :: fs) (some t) ts = read fs (some (.binary op l t)) ts := by
  match ts with
  | [] => simp only [read, close, Nat.zero_le, if_true]
  | .atom a :: ts => simp only [read]
  | .mark m :: ts =>
    by_cases hm : m = ")"
    · simp only [read, close, hm, Nat.zero_le, if_true]
    · have hle := (h _ rfl m rfl).resolve_left hm
      simp only [read, close, if_neg hm, if_pos hle]

theorem read_append {ts t} (h : Reads level ts t) {rest} (hfs : Awaits level fs) (hrest : EndsBefore level rest) :
    read fs none (ts ++ rest) = read (settle fs t).1 (settle fs t).2 rest := by
  induction h generalizing fs rest with
  | atom => rfl
  | parenthesized _ ih =>
    have hgroup : Awaits 0 (.group :: fs) := ⟨by simp, by simp⟩
    have hclose : EndsBefore 0 (.mark ")" :: rest) := by simp [EndsBefore]
    rw [List.cons_append, List.append_assoc, List.singleton_append, read, if_pos rfl, ih hgroup hclose]
    rfl
  | @unary op ts t hop _ ih =>
    have hahead : Awaits Expr.atomic (.ahead op :: fs) := ⟨by simp, by simp⟩
    have hends : EndsBefore Expr.atomic rest := fun m hm s hs =>
      (hrest m hm s hs).imp_right fun hle =>
        Nat.le_trans hle (by rcases hop with rfl | rfl <;> decide)
    have hmark : op.text ≠ "(" ∧ (op.text = "NOT" ∨ op.text = "-") := by
      rcases hop with rfl | rfl <;> decide
    rw [List.cons_append, read, if_neg hmark.1, if_pos hmark.2, UnaryOp.ofText_text hop, ih hahead hends]
    rfl
  | @binary op ts us t u hop _ _ iht ihu =>
    have hle := op.precedence_le_leftLeast
    have hatomic := BinaryOp.precedence_lt_atomic hop
    have hmark := (BinaryOp.text_ne_parenthesis hop).2
    have hleft : Awaits op.leftLeast fs :=
      ⟨fun _ => hfs.ahead hatomic, fun l op' h => Nat.lt_of_lt_of_le (hfs.between l op' h) hle⟩
    have hoperator : EndsBefore op.leftLeast (.mark op.text :: (us ++ rest)) := by
      rintro m hm s rfl
      cases hm
      exact .inr (by rwa [BinaryOp.ofText_text hop])
    have hright : Awaits (op.precedence + 1) (.between t op :: fs) :=
      ⟨by simp, fun l op' h => by cases h; exact Nat.lt_succ_self _⟩
    have hends : EndsBefore (op.precedence + 1) rest := fun m hm s hs =>
      (hrest m hm s hs).imp_right Nat.le_succ_of_le
    rw [List.append_assoc, List.cons_append, iht hleft hoperator, hfs.settle_eq hatomic]
    simp only [read, if_neg hmark, BinaryOp.ofText_text hop, if_pos hop, hfs.close_eq]
    rw [ihu hright hends, hfs.settle_eq hatomic]
    exact read_between hrest
  | tighter hle _ ih =>
    refine ih ⟨fun hlt => hfs.ahead (Nat.lt_of_le_of_lt hle hlt), ?_⟩ ?_
    · exact fun l op h => Nat.lt_of_lt_of_le (hfs.between l op h) hle
    · exact fun m hm s hs => (hrest m hm s hs).imp_right fun h => Nat.le_trans h hle

end Frame

theorem Reads.unique {ts t u} (ht : Reads 0 ts t) (hu : Reads 0 ts u) : t = u := by
  have hread : ∀ {t : Term}, Reads 0 ts t → Frame.read [] none ts = some t := by
    intro t ht
    have hempty : Frame.Awaits 0 [] := ⟨by simp, by simp⟩
    have hend : Frame.EndsBefore 0 [] := by simp [Frame.EndsBefore]
    rw [← List.append_nil ts, Frame.read_append ht hempty hend]
    rfl
  exact Option.some.inj ((hread ht).symm.trans (hread hu))

end Blackboard.Pseudo
