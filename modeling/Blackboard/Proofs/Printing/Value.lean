import Mathlib.Algebra.Order.Field.Rat
import Mathlib.Tactic.NormNum
import Std.Data.String.ToInt
import Blackboard.Proofs.Printing.Rotation

/-!
The value of a formula and of its text. Numbers are exact rationals, and both operands of every
operator count. The text has the value of the formula as long as every operator that is written
without parentheses behind another one of its level may be regrouped with it.
-/
namespace Blackboard.Pseudo

open Relation (ReflTransGen)

inductive Datum where
  | number (q : ℚ)
  | text (s : String)
  | truth (b : Bool)
deriving DecidableEq

/-- The text of a datum that is joined to a text; `spell` gives that of numbers. -/
def Datum.joined (spell : ℚ → String) : Datum → String
  | number q => spell q
  | text s => s
  | truth b => if b then "TRUE" else "FALSE"

def onNumbers (f : ℚ → ℚ → Option ℚ) : Datum → Datum → Option Datum
  | .number p, .number q => (f p q).map .number
  | _, _ => none

def onWholes (f : ℤ → ℤ → ℤ) (p q : ℚ) : Option ℚ :=
  if p.den = 1 ∧ q.den = 1 ∧ q ≠ 0 then some (f p.num q.num) else none

def onTruths (f : Bool → Bool → Bool) : Datum → Datum → Option Datum
  | .truth a, .truth b => some (.truth (f a b))
  | _, _ => none

def compared (f : ℚ → ℚ → Bool) (g : String → String → Bool) : Datum → Datum → Option Datum
  | .number p, .number q => some (.truth (f p q))
  | .text s, .text t => some (.truth (g s t))
  | _, _ => none

def BinaryOp.combine (spell : ℚ → String) : BinaryOp → Datum → Datum → Option Datum
  | .add => onNumbers fun p q => some (p + q)
  | .sub => onNumbers fun p q => some (p - q)
  | .mul => onNumbers fun p q => some (p * q)
  | .div => onNumbers fun p q => if q = 0 then none else some (p / q)
  | .mod => onNumbers (onWholes Int.fmod)
  | .intDiv => onNumbers (onWholes Int.fdiv)
  | .lt => compared (· < ·) (· < ·)
  | .gt => compared (· > ·) (· > ·)
  | .le => compared (· ≤ ·) (· ≤ ·)
  | .ge => compared (· ≥ ·) (· ≥ ·)
  | .and => onTruths (· && ·)
  | .or => onTruths (· || ·)
  | .xor => onTruths (· ^^ ·)
  | .eq => fun x y => some (.truth (x = y))
  | .ne => fun x y => some (.truth (x ≠ y))
  | .concat => fun x y => some (.text (x.joined spell ++ y.joined spell))
  | .other _ => fun _ _ => none

def UnaryOp.transform : UnaryOp → Datum → Option Datum
  | .neg, .number q => some (.number (-q))
  | .not, .truth b => some (.truth !b)
  | _, _ => none

abbrev Environment := String → Option Datum

def Expr.datum (spell : ℚ → String) (env : Environment) : Expr → Option Datum
  | .literal _ (some (.int n)) _ => some (.number n)
  | .literal _ (some (.text s)) _ => some (.text s)
  | .literal _ (some (.bool b)) _ => some (.truth b)
  | .identifier x _ _ => env x
  | .unary op e _ => (e.datum spell env).bind op.transform
  | .binary op a b _ =>
    (a.datum spell env).bind fun x => (b.datum spell env).bind (op.combine spell x)
  | _ => none

def literalDatum (text : String) : Option Datum :=
  match text.toInt? with
  | some n => some (.number n)
  | none =>
    if text = "TRUE" then some (.truth true)
    else if text = "FALSE" then some (.truth false)
    else match text.toList with
      | '"' :: cs | '\'' :: cs => some (.text (String.ofList cs.dropLast))
      | _ => none

def Atom.datum (env : Environment) : Atom → Option Datum
  | name x => env x
  | literal s => literalDatum s

def Term.datum (spell : ℚ → String) (env : Environment) : Term → Option Datum
  | .atom a => a.datum env
  | .unary op t => (t.datum spell env).bind op.transform
  | .binary op t u =>
    (t.datum spell env).bind fun x => (u.datum spell env).bind (op.combine spell x)

/-- Whether an expression is a formula whose literals are whole numbers, texts and truth values,
spelled as such. -/
inductive Expr.IsSpelled : Expr → Prop where
  | int {n : Int} {line : Option Nat} : IsSpelled (.literal (toString n) (some (.int n)) line)
  | text {s : String} {line : Option Nat} :
    IsSpelled (.literal ("\"" ++ s ++ "\"") (some (.text s)) line)
  | char {s : String} {line : Option Nat} :
    IsSpelled (.literal ("'" ++ s ++ "'") (some (.text s)) line)
  | bool {b : Bool} {line : Option Nat} :
    IsSpelled (.literal (if b then "TRUE" else "FALSE") (some (.bool b)) line)
  | identifier {name : String} {declared : Option Bool} {line : Option Nat} :
    IsSpelled (.identifier name declared line)
  | unary {op : UnaryOp} {e : Expr} {line : Option Nat} : op = .not ∨ op = .neg →
    IsSpelled e → IsSpelled (.unary op e line)
  | binary {op : BinaryOp} {a b : Expr} {line : Option Nat} : op ∈ BinaryOp.known →
    IsSpelled a → IsSpelled b → IsSpelled (.binary op a b line)

/-! ### Literals -/

theorem toInt?_eq_none {s : String} {c : Char} {cs : List Char} (hs : s.toList = c :: cs)
    (hc : ¬(c.isDigit = true ∨ c = '_' ∨ c = '-')) : s.toInt? = none := by
  rw [String.toInt?_eq_none_iff, Bool.eq_false_iff, ne_eq, String.isInt_iff, String.isNat_iff]
  rintro (⟨-, hdigits, -⟩ | ⟨t, rfl, -⟩)
  · rcases hdigits c (by simp [hs]) with h | h
    · exact hc (.inl h)
    · exact hc (.inr (.inl h))
  · rw [String.toList_append] at hs
    exact hc (.inr (.inr (List.cons.inj hs).1.symm))

theorem literalDatum_repr (n : Int) : literalDatum n.repr = some (.number n) := by
  rw [literalDatum, Int.toInt?_repr]

theorem literalDatum_quoted {q : Char} {s t : String} (ht : t.toList = q :: (s.toList ++ [q]))
    (hq : q = '"' ∨ q = '\'') : literalDatum t = some (.text s) := by
  have hnone : t.toInt? = none :=
    toInt?_eq_none ht (by rcases hq with rfl | rfl <;> decide)
  have htrue : t ≠ "TRUE" := by
    rintro rfl
    rcases hq with rfl | rfl <;> cases ht
  have hfalse : t ≠ "FALSE" := by
    rintro rfl
    rcases hq with rfl | rfl <;> cases ht
  rcases hq with rfl | rfl <;> simp [literalDatum, hnone, htrue, hfalse, ht]

namespace Expr.IsSpelled

theorem isFormula {e : Expr} (h : e.IsSpelled) : e.IsFormula := by
  induction h with
  | int | text | char | bool => exact .literal
  | identifier => exact .identifier
  | unary hop _ ih => exact .unary hop ih
  | binary hop _ _ iha ihb => exact .binary hop iha ihb

theorem datum_term (spell : ℚ → String) (env : Environment) {e : Expr} (h : e.IsSpelled) :
    e.term.datum spell env = e.datum spell env := by
  induction h with
  | int => exact literalDatum_repr _
  | @text s => exact literalDatum_quoted (by simp [Expr.text]) (.inl rfl)
  | @char s => exact literalDatum_quoted (by simp [Expr.text]) (.inr rfl)
  | @bool b =>
    change literalDatum (if b then "TRUE" else "FALSE") = _
    cases b with
    | false =>
      have hnone : "FALSE".toInt? = none := toInt?_eq_none rfl (by decide)
      simp [literalDatum, hnone, Expr.datum]
    | true =>
      have hnone : "TRUE".toInt? = none := toInt?_eq_none rfl (by decide)
      simp [literalDatum, hnone, Expr.datum]
  | identifier => rfl
  | unary _ _ ih => simp only [Expr.term, Term.datum, Expr.datum, ih]
  | binary _ _ _ iha ihb => simp only [Expr.term, Term.datum, Expr.datum, iha, ihb]

end Expr.IsSpelled

/-! ### Regrouping -/

namespace BinaryOp

def regroups : (op op' : BinaryOp) → Bool
  | .or, .or | .xor, .xor | .and, .and | .concat, .concat | .add, .add | .add, .sub
  | .mul, .mul | .mul, .div => true
  | _, _ => false

def Regroup (f g : Datum → Datum → Option Datum) : Prop :=
  ∀ x y z, (g y z).bind (f x) = (f x y).bind (g · z)

theorem regroup_onNumbers {f g} (h : ∀ p q r, (g q r).bind (f p) = (f p q).bind (g · r)) :
    Regroup (onNumbers f) (onNumbers g) := by
  intro x y z
  cases x <;> cases y <;> cases z <;> try simp [onNumbers]
  next p q r =>
    have := congrArg (Option.map Datum.number) (h p q r)
    simpa [onNumbers, Option.map_bind, Option.bind_map, Function.comp_def] using this

theorem regroup_onTruths {f g} (h : ∀ a b c, f a (g b c) = g (f a b) c) : Regroup (onTruths f) (onTruths g) := by
  intro x y z
  cases x <;> cases y <;> cases z <;>
    simp only [onTruths, Option.bind_none, Option.bind_some, h]

theorem regroup_combine (spell : ℚ → String) {op op' : BinaryOp} (h : op.regroups op' = true) :
    Regroup (op.combine spell) (op'.combine spell) := by
  unfold regroups at h
  split at h
  · exact regroup_onTruths fun a b c => (Bool.or_assoc a b c).symm
  · exact regroup_onTruths fun a b c => (Bool.xor_assoc a b c).symm
  · exact regroup_onTruths fun a b c => (Bool.and_assoc a b c).symm
  · exact fun x y z => congrArg (some ∘ Datum.text) (String.append_assoc ..).symm
  · exact regroup_onNumbers fun p q r => congrArg some (add_assoc p q r).symm
  · exact regroup_onNumbers fun p q r => congrArg some (add_sub_assoc p q r).symm
  · exact regroup_onNumbers fun p q r => congrArg some (mul_assoc p q r).symm
  · refine regroup_onNumbers fun p q r => ?_
    by_cases hr : r = 0
    · simp [hr]
    · simp [hr, mul_div_assoc]
  · cases h

theorem regroups_iff (spell : ℚ → String) {op op' : BinaryOp} (hop : op ∈ known)
    (hop' : op' ∈ known) (hgroups : op.groupsRight = false)
    (hlevel : op'.precedence = op.precedence) :
    op.regroups op' = true ↔ Regroup (op.combine spell) (op'.combine spell) := by
  refine ⟨regroup_combine spell, fun h => ?_⟩
  have hpairs : ∀ op ∈ known, ∀ op' ∈ known, op.groupsRight = false →
      op'.precedence = op.precedence → op.regroups op' = true ∨
        (op, op') ∈ [(.mul, .mod), (.mul, .intDiv), (.or, .xor), (.xor, .or)] := by decide
  refine (hpairs op hop op' hop' hgroups hlevel).resolve_right fun hmem => ?_
  simp only [List.mem_cons, List.not_mem_nil, or_false, Prod.mk.injEq] at hmem
  rcases hmem with ⟨rfl, rfl⟩ | ⟨rfl, rfl⟩ | ⟨rfl, rfl⟩ | ⟨rfl, rfl⟩
  · refine absurd (h (.number 2) (.number 3) (.number 2)) ?_
    simp only [combine]
    decide +kernel
  · refine absurd (h (.number 2) (.number 3) (.number 2)) ?_
    simp only [combine]
    decide +kernel
  · refine absurd (h (.truth true) (.truth false) (.truth true)) ?_
    simp only [combine]
    decide
  · refine absurd (h (.truth true) (.truth false) (.truth true)) ?_
    simp only [combine]
    decide

end BinaryOp

namespace Term

/-- The operators of the level `level` that are written outside all parentheses of a formula of that
level. -/
def chain (level : Nat) : Term → List BinaryOp
  | binary op t u =>
    if op.precedence = level then
      t.chain level ++ op :: if op.groupsRight then [] else u.chain level
    else []
  | _ => []

/-- Whether every operator may be regrouped with all operators of its level that are written without
parentheses in its right operand. -/
def IsRegular : Term → Prop
  | atom _ => True
  | unary _ t => t.IsRegular
  | binary op t u => t.IsRegular ∧ u.IsRegular ∧
    (op.groupsRight = false → ∀ op' ∈ u.chain op.precedence, op.regroups op' = true)

theorem Rotates.chain_eq {t t'} (h : Rotates t t') (level : Nat) : t'.chain level = t.chain level := by
  induction h with
  | @here op op' t u v hgroups hlevel =>
    by_cases hop : op.precedence = level <;> simp [chain, hgroups, hlevel, hop]
  | operand => rfl
  | left _ ih | right _ ih => simp only [chain, ih]

theorem chain_rotated (level : Nat) (t : Term) : t.rotated.chain level = t.chain level := by
  have hkeep : ∀ {u : Term}, ReflTransGen Rotates t u → u.chain level = t.chain level := by
    intro u hu
    induction hu with
    | refl => rfl
    | tail _ h ih => exact (h.chain_eq level).trans ih
  exact hkeep (rotations_rotated t)

/-- Moving an operator to the left end of its right operand keeps the value if it may be regrouped
with what it passes. -/
theorem datum_join (spell : ℚ → String) (env : Environment) {op : BinaryOp} (t : Term) {u : Term}
    (h : op.groupsRight = false → ∀ op' ∈ u.chain op.precedence, op.regroups op' = true) :
    (join op t u).datum spell env = (binary op t u).datum spell env := by
  induction u with
  | atom | unary => rfl
  | binary op' u v ihu _ =>
    rw [join]
    split
    · next hpasses =>
      have hchain := h hpasses.1
      simp only [chain, hpasses.2, if_true, List.forall_mem_append, List.forall_mem_cons] at hchain
      have hregroup := BinaryOp.regroup_combine spell hchain.2.1
      rw [datum, ihu fun _ => hchain.1]
      simp only [datum]
      cases t.datum spell env with
      | none => rfl
      | some x =>
        cases u.datum spell env with
        | none => rfl
        | some y =>
          cases v.datum spell env with
          | none => simp
          | some z => simpa using (hregroup x y z).symm
    · rfl

theorem datum_rotated (spell : ℚ → String) (env : Environment) {t : Term} (h : t.IsRegular) :
    t.rotated.datum spell env = t.datum spell env := by
  induction t with
  | atom => rfl
  | unary op t ih => simp only [rotated, datum, ih h]
  | binary op t u iht ihu =>
    obtain ⟨ht, hu, hchain⟩ := h
    rw [rotated, datum_join]
    · simp only [datum, iht ht, ihu hu]
    · rwa [chain_rotated]

end Term

def nested (op op' : BinaryOp) : Expr :=
  .binary op (.identifier "a" none none)
    (.binary op' (.identifier "b" none none) (.identifier "c" none none) none) none

/-- Two operators of one level that may not be regrouped are written such that the text has another
value for some operands. -/
theorem nested_misread (spell : ℚ → String) {op op'} (hop : op ∈ BinaryOp.known)
    (hop' : op' ∈ BinaryOp.known) (hgroups : op.groupsRight = false)
    (hlevel : op'.precedence = op.precedence) (h : op.regroups op' = false) :
    ∃ env : Environment, ∀ t, Reads 0 (nested op op').term.tokens t →
      t.datum spell env ≠ (nested op op').datum spell env := by
  have hdiffer : ¬BinaryOp.Regroup (op.combine spell) (op'.combine spell) := by
    rw [← BinaryOp.regroups_iff spell hop hop' hgroups hlevel, h]
    simp
  simp only [BinaryOp.Regroup, not_forall] at hdiffer
  obtain ⟨x, y, z, hne⟩ := hdiffer
  refine ⟨fun s => if s = "a" then x else if s = "b" then y else z, fun t ht => ?_⟩
  have hstandard : (nested op op').term.IsStandard := ⟨hop, trivial, hop', trivial, trivial⟩
  have hrotated : (nested op op').term.rotated =
      .binary op' (.binary op (.atom (.name "a")) (.atom (.name "b"))) (.atom (.name "c")) := by
    simp [nested, Expr.term, Term.rotated, Term.join, hgroups, hlevel]
  rw [(Term.reads_tokens_iff hstandard t).1 ht, hrotated]
  simpa [nested, Expr.datum, Term.datum, Atom.datum] using Ne.symm hne

/-- The text of a formula has the value of the formula, whatever its names stand for, if every
operator may be regrouped with the operators of its level that are written without parentheses in
its right operand. Where just one operator may not, some operands give the text another value. -/
theorem text_keeps_value_of_regular (spell : ℚ → String) :
    (∀ (env : Environment) (e : Expr), e.IsSpelled → e.term.IsRegular → Token.spelled true e.term.tokens = e.text ∧
        ∃ r : Term, (∀ t, Reads 0 e.term.tokens t ↔ t = r) ∧ r.datum spell env = e.datum spell env) ∧
    ∀ op ∈ BinaryOp.known, ∀ op' ∈ BinaryOp.known, op.groupsRight = false →
      op'.precedence = op.precedence → op.regroups op' = false →
      ∃ env : Environment, ∀ t, Reads 0 (nested op op').term.tokens t →
        t.datum spell env ≠ (nested op op').datum spell env := by
  refine ⟨fun env e he hregular => ⟨?_, e.term.rotated, ?_, ?_⟩, ?_⟩
  · simpa [Token.spelled] using he.isFormula.spelled_tokens []
  · exact Term.reads_tokens_iff he.isFormula.isStandard
  · rw [Term.datum_rotated spell env hregular, he.datum_term]
  · exact fun op hop op' hop' => nested_misread spell hop hop'

def regularSample : Expr :=
  .binary .add (.identifier "a" none none) (.binary .sub (.identifier "b" none none) (.binary .mul (.number 2)
        (.binary .div (.identifier "c" none none) (.number 3) none) none) none) none

theorem text_keeps_value_of_regular_sample : regularSample.text = "a + b - 2 * c / 3" ∧ regularSample.IsSpelled ∧
      regularSample.term.IsRegular ∧
      ∃ r : Term, Reads 0 regularSample.term.tokens r ∧ r.datum toString (fun _ => some (.number 6)) =
          regularSample.datum toString (fun _ => some (.number 6)) := by
  have hspelled : regularSample.IsSpelled :=
    .binary (by decide) .identifier (.binary (by decide) .identifier
      (.binary (by decide) .int (.binary (by decide) .identifier .int)))
  have hregular : regularSample.term.IsRegular := by
    simp [regularSample, Expr.term, Term.IsRegular, Term.chain, BinaryOp.groupsRight,
      BinaryOp.precedence, BinaryOp.regroups, Expr.number]
  obtain ⟨-, r, hread, hvalue⟩ :=
    (text_keeps_value_of_regular toString).1 (fun _ => some (.number 6)) _ hspelled hregular
  exact ⟨by decide +kernel, hspelled, hregular, r, (hread r).2 rfl, hvalue⟩

def productOfRemainder : Expr :=
  .binary .mul (.number 2) (.binary .mod (.number 3) (.number 2) none) none

/-- The text of `2 * (3 MOD 2)` has no parentheses, and it has the value 0 where the formula has the
value 2. -/
theorem productOfRemainder_misread : productOfRemainder.IsSpelled ∧ productOfRemainder.text = "2 * 3 MOD 2" ∧
      Token.spelled true productOfRemainder.term.tokens = productOfRemainder.text ∧
      productOfRemainder.datum toString (fun _ => none) = some (.number 2) ∧
      ∀ t, Reads 0 productOfRemainder.term.tokens t → t.datum toString (fun _ => none) = some (.number 0) := by
  have hspelled : productOfRemainder.IsSpelled :=
    .binary (by decide) .int (.binary (by decide) .int .int)
  have hstandard := hspelled.isFormula.isStandard
  refine ⟨hspelled, by decide +kernel, by decide +kernel, ?_, ?_⟩
  · decide +kernel
  · intro t ht
    have hread : t = .binary .mod (.binary .mul (.atom (.literal "2")) (.atom (.literal "3")))
        (.atom (.literal "2")) := (Term.reads_tokens_iff hstandard t).1 ht
    have htwo : literalDatum "2" = some (.number 2) := literalDatum_repr 2
    have hthree : literalDatum "3" = some (.number 3) := literalDatum_repr 3
    rw [hread]
    simp only [Term.datum, Atom.datum, htwo, hthree]
    decide +kernel

end Blackboard.Pseudo
