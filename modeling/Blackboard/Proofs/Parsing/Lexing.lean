import Mathlib.Data.Prod.Lex
import Blackboard.Proofs.Parsing.Scanner

/-!
Tokens in their text. A lexeme is a beginning of the text that is not empty, so every token starts at
a character of the text, and each token starts behind the one before.
-/
namespace Blackboard

open List

/-! ### Positions -/

namespace Source

instance : LinearOrder Position :=
  LinearOrder.lift' (fun p => toLex (p.line, p.column)) fun p q h => by
    cases p
    cases q
    cases h
    rfl

namespace Position

theorem le_iff {p q : Position} : p ≤ q ↔ p.line < q.line ∨ p.line = q.line ∧ p.column ≤ q.column :=
  Prod.Lex.le_iff

theorem lt_iff {p q : Position} : p < q ↔ p.line < q.line ∨ p.line = q.line ∧ p.column < q.column :=
  Prod.Lex.lt_iff

theorem lt_after (p : Position) (c : Char) : p < p.after c := by
  rw [lt_iff, after]
  split
  · exact .inl (Nat.lt_succ_self _)
  · exact .inr ⟨rfl, Nat.lt_succ_self _⟩

theorem le_afterAll (p : Position) (cs : List Char) : p ≤ p.afterAll cs := by
  induction cs generalizing p with
  | nil => exact le_rfl
  | cons c cs ih => exact (p.lt_after c).le.trans (ih _)

theorem lt_afterAll (p : Position) {cs} (h : cs ≠ []) : p < p.afterAll cs := by
  cases cs with
  | nil => exact absurd rfl h
  | cons c cs => exact lt_of_lt_of_le (p.lt_after c) (le_afterAll _ cs)

end Position

end Source

/-! ### Tokens -/

namespace Token

open Source

theorem forms_nil (l : Language) : ∀ f ∈ forms l, f.scan [] = none := by
  cases l <;> decide

theorem next?_append {l cs run rest kind}
    (h : next? l cs = some (kind, run, rest)) : run ≠ [] ∧ run ++ rest = cs := by
  obtain ⟨before, f, after, hforms, -, hf, -⟩ := exists_form h
  have hmem : f ∈ forms l := by simp [hforms]
  have hscans := (forms_known l f hmem).scans
  refine ⟨?_, hscans.append_eq hf⟩
  rintro rfl
  -- a form that took no character would do so at the end of the text
  obtain rfl := hscans.append_eq hf
  have hnil := hscans.keeps hf nil_prefix
  rw [append_nil, forms_nil l f hmem] at hnil
  cases hnil

theorem exists_next_of_mem_lexFrom {l} (fuel : Nat) (p : Position) (cs : List Char) :
    ∀ t ∈ (lexFrom l fuel p cs).1, ∃ cs rest, next? l cs = some (.token t.terminal, t.text.toList, rest) := by
  induction fuel generalizing p cs with
  | zero => exact nofun
  | succ fuel ih =>
    cases cs with
    | nil => exact nofun
    | cons c cs =>
      rw [lexFrom]
      split
      · exact nofun
      · next kind run rest hnext =>
        cases kind with
        | skipped => exact ih _ _
        | token t =>
          refine forall_mem_cons.2 ⟨⟨c :: cs, rest, ?_⟩, ih _ _⟩
          rw [hnext, String.toList_ofList]

theorem lexFrom_starts (l : Language) (fuel : Nat) (p : Position) (cs : List Char) :
    (lexFrom l fuel p cs).1.Pairwise (fun a b => a.span.start < b.span.start) ∧
      ∀ t ∈ (lexFrom l fuel p cs).1, ∃ k < cs.length, t.span.start = p.afterAll (cs.take k) := by
  induction fuel generalizing p cs with
  | zero => simp [lexFrom]
  | succ fuel ih =>
    cases cs with
    | nil => simp [lexFrom]
    | cons c cs =>
      rw [lexFrom]
      split
      · simp
      · next kind run rest hnext =>
        obtain ⟨hrun, happend⟩ := next?_append hnext
        obtain ⟨horder, hplace⟩ := ih (p.afterAll run) rest
        have hlater : ∀ t ∈ (lexFrom l fuel (p.afterAll run) rest).1,
            ∃ k < (c :: cs).length, t.span.start = p.afterAll ((c :: cs).take k) := by
          intro t ht
          obtain ⟨k, hk, hstart⟩ := hplace t ht
          refine ⟨run.length + k, ?_, ?_⟩
          · rw [← happend, length_append]
            omega
          · rw [← happend, take_length_add_append, Position.afterAll_append, hstart]
        cases kind with
        | skipped => exact ⟨horder, hlater⟩
        | token t =>
          refine ⟨pairwise_cons.2 ⟨?_, horder⟩, ?_⟩
          · intro t' ht'
            obtain ⟨k, -, hstart⟩ := hplace t' ht'
            rw [hstart]
            exact lt_of_lt_of_le (p.lt_afterAll hrun) (Position.le_afterAll _ _)
          · intro t' ht'
            rcases mem_cons.1 ht' with rfl | ht'
            · exact ⟨0, by simp, rfl⟩
            · exact hlater t' ht'

/-- Whether tokens start one behind the other, from the first character on. -/
structure Ordered (tokens : List Token) : Prop where
  pairwise : tokens.Pairwise fun a b => a.span.start < b.span.start
  first_le : ∀ t ∈ tokens, .start ≤ t.span.start

theorem lex_ordered (l : Language) (cs : List Char) : Ordered (lex l cs).1 := by
  obtain ⟨horder, hplace⟩ := lexFrom_starts l cs.length .start cs
  refine ⟨horder, ?_⟩
  intro t ht
  obtain ⟨k, -, hstart⟩ := hplace t ht
  exact hstart ▸ Position.le_afterAll _ _

theorem Ordered.lt {tokens : List Token} (h : Ordered tokens) {i j : Nat} (hij : i < j)
    {a b : Token} (ha : tokens[i]? = some a) (hb : tokens[j]? = some b) :
    a.span.start < b.span.start := by
  obtain ⟨hi, rfl⟩ := List.getElem?_eq_some_iff.1 ha
  obtain ⟨hj, rfl⟩ := List.getElem?_eq_some_iff.1 hb
  exact pairwise_iff_getElem.1 h.pairwise i j hi hj hij

theorem Ordered.le {tokens : List Token} (h : Ordered tokens) {i j : Nat} (hij : i ≤ j)
    {a b : Token} (ha : tokens[i]? = some a) (hb : tokens[j]? = some b) :
    a.span.start ≤ b.span.start := by
  rcases Nat.lt_or_eq_of_le hij with hlt | rfl
  · exact (h.lt hlt ha hb).le
  · rw [ha, Option.some.injEq] at hb
    exact le_of_eq (by rw [hb])

/-! ### Slashes before stars -/

end Token

def Terminal.isStar (t : Terminal) : Bool := t == .star || t == .starStar || t == .mulAssign

def Token.Apart (t t' : Token) : Prop := ¬(t.terminal = .slash ∧ t'.terminal.isStar = true)

namespace Token

open Source

variable {cs rest : List Char} {l : Language} {p : Position}

/-! ### Lexemes one after the other -/

def Kind.tokens (p : Position) (run : List Char) : Kind → List Token
  | skipped => []
  | token t => [⟨t, String.ofList run, p.line, p.column, (p.afterAll run).line, (p.afterAll run).column⟩]

def lexAt (l : Language) (p : Position) (cs : List Char) : List Token × Option Stray :=
  lexFrom l cs.length p cs

theorem lexFrom_eq_of_le (l : Language) {n m} (p : Position) (hn : cs.length ≤ n)
    (hm : cs.length ≤ m) : lexFrom l n p cs = lexFrom l m p cs := by
  induction n generalizing m p cs with
  | zero =>
    obtain rfl := length_eq_zero_iff.1 (Nat.le_zero.1 hn)
    cases m <;> rfl
  | succ n ih =>
    cases cs with
    | nil => cases m <;> rfl
    | cons c cs =>
      cases m with
      | zero => cases hm
      | succ m =>
        rw [lexFrom, lexFrom]
        split
        · rfl
        · next kind run rest hnext =>
          obtain ⟨hne, happend⟩ := next?_append hnext
          have hlength := congrArg length happend
          have hpos := length_pos_iff.2 hne
          rw [length_append] at hlength
          have hrest : lexFrom l n (p.afterAll run) rest = lexFrom l m (p.afterAll run) rest :=
            ih _ (by omega) (by omega)
          dsimp only
          rw [hrest]

theorem lexAt_of_next? {run kind} (h : next? l cs = some (kind, run, rest)) (p : Position) :
    lexAt l p cs = (kind.tokens p run ++ (lexAt l (p.afterAll run) rest).1, (lexAt l (p.afterAll run) rest).2) := by
  obtain ⟨hne, rfl⟩ := next?_append h
  obtain ⟨c, run, rfl⟩ := exists_cons_of_ne_nil hne
  unfold lexAt
  rw [cons_append] at h ⊢
  rw [length_cons, lexFrom, h]
  dsimp only
  rw [lexFrom_eq_of_le l _ (by simp) (Nat.le_refl rest.length)]
  cases kind <;> rfl

/-- A text without stray characters, its place and its tokens. -/
inductive Lexes (l : Language) : Position → List Char → List Token → Prop where
  | nil {p : Position} : Lexes l p [] []
  | cons {p : Position} {cs run rest : List Char} {kind : Kind} {tokens : List Token} :
    next? l cs = some (kind, run, rest) → Lexes l (p.afterAll run) rest tokens →
    Lexes l p cs (kind.tokens p run ++ tokens)

variable {tokens : List Token}

theorem Lexes.lexAt_eq (h : Lexes l p cs tokens) : lexAt l p cs = (tokens, none) := by
  induction h with
  | nil => rfl
  | cons hnext _ ih => rw [lexAt_of_next? hnext, ih]

theorem lexes_of_lexAt (h : (lexAt l p cs).2 = none) : Lexes l p cs (lexAt l p cs).1 := by
  induction hn : cs.length using Nat.strong_induction_on generalizing p cs with
  | _ n ih =>
    cases cs with
    | nil => exact .nil
    | cons c cs =>
      cases hnext : next? l (c :: cs) with
      | none =>
        rw [lexAt, length_cons, lexFrom, hnext] at h
        cases h
      | some lexeme =>
        obtain ⟨kind, run, rest⟩ := lexeme
        obtain ⟨hne, happend⟩ := next?_append hnext
        have hlength := congrArg length happend
        have hpos := length_pos_iff.2 hne
        rw [length_append] at hlength
        rw [lexAt_of_next? hnext] at h ⊢
        exact .cons hnext (ih rest.length (by omega) h rfl)

theorem template_of_next? {run} (h : next? l cs = some (.token .template, run, rest)) :
    l = .typescript ∧ run.head? = some '`' := by
  obtain ⟨before, f, after, hforms, -, hf, hkind⟩ := exists_form h
  cases forms_known l f (by simp [hforms]) with
  | plain _ hplain =>
    obtain ⟨t, ht, hquoted⟩ := hplain run
    rw [ht] at hkind
    cases hkind
    cases hquoted
  | quoted _ ht =>
    cases hkind
    obtain ht | ht := ht <;> cases ht
  | template hl =>
    rw [Lexeme.quoted?_eq] at hf
    obtain ⟨c, cs', run', hc, -, rfl, -⟩ := Lexeme.first_eq_some_iff.1 hf
    exact ⟨hl, by rw [head?_cons, eq_of_beq hc]⟩
  | blockComment => cases hkind
  | space => cases hkind
  | lineComment => cases hkind
  | @mark t ht =>
    have hmarks : .template ∉ l.marks := by cases l <;> decide
    exact absurd (Kind.token.inj hkind ▸ ht) hmarks

theorem Lexes.isInfix_of_template (h : Lexes l p cs tokens) : ∀ t ∈ tokens, t.terminal = .template →
      t.text.toList <:+: cs.dropWhile (· == '\n') := by
  induction h with
  | nil => simp
  | @cons p cs run rest kind tokens hnext _ ih =>
    obtain ⟨-, rfl⟩ := next?_append hnext
    refine forall_mem_append.2 ⟨fun t ht hterminal => ?_, fun t ht hterminal => (ih t ht hterminal).trans ?_⟩
    · cases kind with
      | skipped => cases ht
      | token terminal =>
        obtain rfl := mem_singleton.1 ht
        obtain rfl : terminal = .template := hterminal
        obtain ⟨run', rfl⟩ := head?_eq_some_iff.1 (template_of_next? hnext).2
        rw [String.toList_ofList, cons_append]
        exact (prefix_append _ _).isInfix
    · rw [dropWhile_append]
      split
      · exact infix_rfl
      · exact ((dropWhile_suffix _).trans (suffix_append _ _)).isInfix

end Token

end Blackboard
