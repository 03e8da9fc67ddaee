import Blackboard.Proofs.Meaning.Expression
import Mathlib.Logic.Relation

/-!
How statements run, of the source and of pseudocode. A relation holds between the store before and the
store after statements that end; statements that do not end, or that get stuck, relate a store to
none. For each construct an equation says what its runs are made of.
-/
namespace Blackboard

open Meaning
open Relation (Comp)

namespace Meaning

variable {test test' : Store → Option Value} {step step' : Store → Store → Prop}

inductive Repeats (test : Store → Option Value) (step : Store → Store → Prop) : Store → Store → Prop where
  | stop {σ : Store} : test σ = some (.bool false) → Repeats test step σ σ
  | go {σ ρ τ : Store} : test σ = some (.bool true) → step σ ρ → Repeats test step ρ τ →
      Repeats test step σ τ

theorem Repeats.mono (ht : ∀ σ b, test σ = some (.bool b) → test' σ = some (.bool b))
    (hs : ∀ σ τ, step σ τ → step' σ τ) {σ τ} (h : Repeats test step σ τ) :
    Repeats test' step' σ τ := by
  induction h with
  | stop hc => exact .stop (ht _ _ hc)
  | go hc hb _ ih => exact .go (ht _ _ hc) (hs _ _ hb) ih

theorem repeats_congr (ht : ∀ σ b, test σ = some (.bool b) ↔ test' σ = some (.bool b))
    (hs : ∀ σ τ, step σ τ ↔ step' σ τ) {σ τ} :
    Repeats test step σ τ ↔ Repeats test' step' σ τ :=
  ⟨.mono (fun σ b => (ht σ b).1) fun σ τ => (hs σ τ).1, .mono (fun σ b => (ht σ b).2) fun σ τ => (hs σ τ).2⟩

end Meaning

namespace Source

variable {span : Span} {type : Option TypeRef} {modifiers : List String} {kind : Option VarKind}

def Expr.effect (w : World) (σ : Store) : Expr → Option Store
  | .assignment _ .set (.identifier _ x) e => match e.value w σ with
    | some (.int n) => some (σ.set x n)
    | _ => none
  | .assignment _ (.with_ op) (.identifier _ x) e =>
    match (e.value w σ).bind (op.apply (.int (σ x))) with
    | some (.int n) => some (σ.set x n)
    | _ => none
  | .update _ .increment _ (.identifier _ x) => some (σ.set x (σ x + 1))
  | .update _ .decrement _ (.identifier _ x) => some (σ.set x (σ x - 1))
  | _ => none

def Expr.asStmt (e : Expr) : Stmt := .expression e.span e

def holds (w : World) (σ : Store) : Option Expr → Option Value
  | some e => e.value w σ
  | none => some (.bool true)

/-- How statements run one after the other. A loop whose initial part has run goes on as the same
loop without that part. -/
inductive Runs (w : World) : List Stmt → Store → Store → Prop where
  | nil {σ} : Runs w [] σ σ
  | cons {s s' ss σ ρ τ} : Runs w [s] σ ρ → Runs w (s' :: ss) ρ τ → Runs w (s :: s' :: ss) σ τ
  | block {span ss σ τ} : Runs w ss σ τ → Runs w [.block ⟨span, ss⟩] σ τ
  | empty {span σ} : Runs w [.empty span] σ σ
  | declared {span type modifiers kind σ} :
      Runs w [.varDecl ⟨span, [], type, modifiers, kind⟩] σ σ
  | declare {span own name t extra e n ds type modifiers kind σ τ} :
      Expr.value w σ e = some (.int n) →
      Runs w [.varDecl ⟨span, ds, type, modifiers, kind⟩] (σ.set name n) τ →
      Runs w [.varDecl ⟨span, ⟨own, name, t, extra, some e⟩ :: ds, type, modifiers, kind⟩] σ τ
  | expression {span e σ τ} : Expr.effect w σ e = some τ → Runs w [.expression span e] σ τ
  | ifTrue {span c yes no σ τ} : Expr.value w σ c = some (.bool true) → Runs w [yes] σ τ →
      Runs w [.ifElse span c yes no] σ τ
  | ifFalse {span c yes no σ τ} : Expr.value w σ c = some (.bool false) →
      Runs w no.toList σ τ → Runs w [.ifElse span c yes no] σ τ
  | whileStop {span c body σ} : Expr.value w σ c = some (.bool false) →
      Runs w [.whileLoop span c body] σ σ
  | whileGo {span c body σ ρ τ} : Expr.value w σ c = some (.bool true) → Runs w [body] σ ρ →
      Runs w [.whileLoop span c body] ρ τ → Runs w [.whileLoop span c body] σ τ
  | doStop {span c body σ τ} : Runs w [body] σ τ → Expr.value w τ c = some (.bool false) →
      Runs w [.doLoop span body c] σ τ
  | doGo {span c body σ ρ τ} : Runs w [body] σ ρ → Expr.value w ρ c = some (.bool true) →
      Runs w [.doLoop span body c] ρ τ → Runs w [.doLoop span body c] σ τ
  | forDeclare {span v init c update body σ ρ τ} : Runs w [.varDecl v] σ ρ →
      Runs w [.forLoop span none init c update body] ρ τ →
      Runs w [.forLoop span (some v) init c update body] σ τ
  | forStart {span e es c update body σ ρ τ} : Runs w ((e :: es).map Expr.asStmt) σ ρ →
      Runs w [.forLoop span none [] c update body] ρ τ →
      Runs w [.forLoop span none (e :: es) c update body] σ τ
  | forStop {span c update body σ} : holds w σ c = some (.bool false) →
      Runs w [.forLoop span none [] c update body] σ σ
  | forGo {span c update body σ ρ ρ' τ} : holds w σ c = some (.bool true) → Runs w [body] σ ρ →
      Runs w (update.map Expr.asStmt) ρ ρ' →
      Runs w [.forLoop span none [] c update body] ρ' τ →
      Runs w [.forLoop span none [] c update body] σ τ

variable {w : World} {σ τ : Store}

theorem runs_nil : Runs w [] σ τ ↔ σ = τ := by
  constructor
  · rintro ⟨⟩
    rfl
  · rintro rfl
    exact .nil

theorem runs_cons (s : Stmt) (ss : List Stmt) : Runs w (s :: ss) σ τ ↔ Comp (Runs w [s]) (Runs w ss) σ τ := by
  cases ss with
  | nil =>
    constructor
    · intro h
      exact ⟨τ, h, .nil⟩
    · rintro ⟨ρ, h, hn⟩
      rw [runs_nil] at hn
      exact hn ▸ h
  | cons s' ss =>
    constructor
    · intro h
      cases h with
      | cons hs hr => exact ⟨_, hs, hr⟩
    · rintro ⟨ρ, hs, hr⟩
      exact .cons hs hr

theorem runs_block {ss} : Runs w [.block ⟨span, ss⟩] σ τ ↔ Runs w ss σ τ := by
  constructor
  · rintro ⟨⟩
    assumption
  · exact .block

theorem runs_empty : Runs w [.empty span] σ τ ↔ σ = τ := by
  constructor
  · rintro ⟨⟩
    rfl
  · rintro rfl
    exact .empty

theorem runs_declared : Runs w [.varDecl ⟨span, [], type, modifiers, kind⟩] σ τ ↔ σ = τ := by
  constructor
  · rintro ⟨⟩
    rfl
  · rintro rfl
    exact .declared

variable {e : Expr}

theorem runs_declare {own name t extra ds} :
    Runs w [.varDecl ⟨span, ⟨own, name, t, extra, some e⟩ :: ds, type, modifiers, kind⟩] σ τ ↔
      ∃ n, e.value w σ = some (.int n) ∧ Runs w [.varDecl ⟨span, ds, type, modifiers, kind⟩] (σ.set name n) τ := by
  constructor
  · rintro ⟨⟩
    exact ⟨_, by assumption, by assumption⟩
  · rintro ⟨n, he, hr⟩
    exact .declare he hr

theorem runs_expression : Runs w [.expression span e] σ τ ↔ e.effect w σ = some τ := by
  constructor
  · rintro ⟨⟩
    assumption
  · exact .expression

variable {c : Expr}

theorem runs_ifElse {yes no} : Runs w [.ifElse span c yes no] σ τ ↔
      (c.value w σ = some (.bool true) ∧ Runs w [yes] σ τ) ∨
      (c.value w σ = some (.bool false) ∧ Runs w no.toList σ τ) := by
  constructor
  · intro h
    cases h with
    | ifTrue hc hr => exact .inl ⟨hc, hr⟩
    | ifFalse hc hr => exact .inr ⟨hc, hr⟩
  · rintro (⟨hc, hr⟩ | ⟨hc, hr⟩)
    · exact .ifTrue hc hr
    · exact .ifFalse hc hr

variable {body : Stmt}

theorem runs_whileLoop : Runs w [.whileLoop span c body] σ τ ↔
      Repeats (fun σ => c.value w σ) (Runs w [body]) σ τ := by
  constructor
  · intro h
    generalize hs : [Stmt.whileLoop span c body] = ss at h
    induction h with
    | whileStop hc => cases hs; exact .stop hc
    | whileGo hc hb _ _ ih => cases hs; exact .go hc hb (ih rfl)
    | _ => cases hs
  · intro h
    induction h with
    | stop hc => exact .whileStop hc
    | go hc hb _ ih => exact .whileGo hc hb ih

theorem runs_doLoop : Runs w [.doLoop span body c] σ τ ↔
      Comp (Runs w [body]) (Repeats (fun σ => c.value w σ) (Runs w [body])) σ τ := by
  constructor
  · intro h
    generalize hs : [Stmt.doLoop span body c] = ss at h
    induction h with
    | doStop hb hc => cases hs; exact ⟨_, hb, .stop hc⟩
    | doGo hb hc _ _ ih =>
      cases hs
      obtain ⟨ρ, hb', hr⟩ := ih rfl
      exact ⟨_, hb, .go hc hb' hr⟩
    | _ => cases hs
  · rintro ⟨ρ, hb, hr⟩
    induction hr generalizing σ with
    | stop hc => exact .doStop hb hc
    | go hc hb' _ ih => exact .doGo hb hc (ih hb')

theorem runs_forLoop {decl init c update} : Runs w [.forLoop span decl init c update body] σ τ ↔
      Comp (Runs w (decl.toList.map .varDecl)) (Comp (Runs w (init.map Expr.asStmt)) (Repeats (fun σ => holds w σ c)
          (Comp (Runs w [body]) (Runs w (update.map Expr.asStmt))))) σ τ := by
  -- the loop after its initial part
  have hloop : ∀ σ τ, Runs w [.forLoop span none [] c update body] σ τ ↔ Repeats (fun σ => holds w σ c)
        (Comp (Runs w [body]) (Runs w (update.map Expr.asStmt))) σ τ := by
    intro σ τ
    constructor
    · intro h
      generalize hs : [Stmt.forLoop span none [] c update body] = ss at h
      induction h with
      | forStop hc => cases hs; exact .stop hc
      | forGo hc hb hu _ _ _ ih => cases hs; exact .go hc ⟨_, hb, hu⟩ (ih rfl)
      | _ => cases hs
    · intro h
      induction h with
      | stop hc => exact .forStop hc
      | go hc hb _ ih =>
        obtain ⟨ρ, hb, hu⟩ := hb
        exact .forGo hc hb hu ih
  have hstart : ∀ σ τ, Runs w [.forLoop span none init c update body] σ τ ↔
      Comp (Runs w (init.map Expr.asStmt)) (Runs w [.forLoop span none [] c update body]) σ τ := by
    intro σ τ
    cases init with
    | nil =>
      constructor
      · intro h
        exact ⟨σ, .nil, h⟩
      · rintro ⟨ρ, hn, h⟩
        rw [List.map_nil, runs_nil] at hn
        exact hn ▸ h
    | cons e es =>
      constructor
      · intro h
        cases h with
        | forStart hi hr => exact ⟨_, hi, hr⟩
      · rintro ⟨ρ, hi, hr⟩
        exact .forStart hi hr
  have hdecl : Runs w [.forLoop span decl init c update body] σ τ ↔ Comp (Runs w (decl.toList.map .varDecl))
        (Runs w [.forLoop span none init c update body]) σ τ := by
    cases decl with
    | none =>
      constructor
      · intro h
        exact ⟨σ, .nil, h⟩
      · rintro ⟨ρ, hn, h⟩
        have hn := runs_nil.1 hn
        exact hn ▸ h
    | some v =>
      constructor
      · intro h
        cases h with
        | forDeclare hv hr => exact ⟨_, hv, hr⟩
      · rintro ⟨ρ, hv, hr⟩
        exact .forDeclare hv hr
  rw [hdecl]
  simp only [Comp, hstart, hloop]

end Source

namespace Pseudo

variable {ns : List String} {l line : Option Nat}

def Stmt.isClause (s : Stmt) : Bool :=
  match s.form with
  | .elseIf _ | .else_ => true
  | _ => false

def clauseBody? (w : World) (σ : Store) : List Stmt → Option (List Stmt)
  | [] => some []
  | .mk (.elseIf c) body _ _ :: rest =>
    choose (some body) (clauseBody? w σ rest) (c.value w σ)
  | .mk .else_ body _ _ :: _ => some body
  | _ => none

/-- The statements that a choice runs. Those before its first clause are run if its condition
holds. -/
def chosen? (w : World) (σ : Store) (c : Expr) (cs : List Stmt) : Option (List Stmt) :=
  choose (some (cs.takeWhile fun s => !s.isClause))
    (clauseBody? w σ (cs.dropWhile fun s => !s.isClause)) (c.value w σ)

/-- How statements run one after the other. Declarations and comments do nothing. -/
inductive Runs (w : World) : List Stmt → Store → Store → Prop where
  | nil {σ} : Runs w [] σ σ
  | cons {s s' ss σ ρ τ} : Runs w [s] σ ρ → Runs w (s' :: ss) ρ τ → Runs w (s :: s' :: ss) σ τ
  | variable_ {name type cs ns l σ} : Runs w [.mk (.variable_ name type) cs ns l] σ σ
  | comment {text annotates cs ns l σ} : Runs w [.mk (.comment text annotates) cs ns l] σ σ
  | assign {x declared line e n cs ns l σ} : Expr.value w σ e = some (.int n) →
      Runs w [.mk (.assign (.identifier x declared line) e) cs ns l] σ (σ.set x n)
  | ifThen {c cs ss ns l σ τ} : chosen? w σ c cs = some ss → Runs w ss σ τ →
      Runs w [.mk (.ifThen c) cs ns l] σ τ
  | whileStop {c body ns l σ} : Expr.value w σ c = some (.bool false) →
      Runs w [.mk (.while_ c) body ns l] σ σ
  | whileGo {c body ns l σ ρ τ} : Expr.value w σ c = some (.bool true) → Runs w body σ ρ →
      Runs w [.mk (.while_ c) body ns l] ρ τ → Runs w [.mk (.while_ c) body ns l] σ τ
  | repeatStop {c body ns l σ τ} : Runs w body σ τ → Expr.value w τ c = some (.bool true) →
      Runs w [.mk (.repeatUntil c) body ns l] σ τ
  | repeatGo {c body ns l σ ρ τ} : Runs w body σ ρ → Expr.value w ρ c = some (.bool false) →
      Runs w [.mk (.repeatUntil c) body ns l] ρ τ → Runs w [.mk (.repeatUntil c) body ns l] σ τ

variable {w : World} {σ τ : Store}

theorem runs_nil : Runs w [] σ τ ↔ σ = τ := by
  constructor
  · rintro ⟨⟩
    rfl
  · rintro rfl
    exact .nil

theorem runs_cons (s : Stmt) (ss : List Stmt) : Runs w (s :: ss) σ τ ↔ Comp (Runs w [s]) (Runs w ss) σ τ := by
  cases ss with
  | nil =>
    constructor
    · intro h
      exact ⟨τ, h, .nil⟩
    · rintro ⟨ρ, h, hn⟩
      rw [runs_nil] at hn
      exact hn ▸ h
  | cons s' ss =>
    constructor
    · intro h
      cases h with
      | cons hs hr => exact ⟨_, hs, hr⟩
    · rintro ⟨ρ, hs, hr⟩
      exact .cons hs hr

theorem runs_append (ss ts : List Stmt) : Runs w (ss ++ ts) σ τ ↔ Comp (Runs w ss) (Runs w ts) σ τ := by
  induction ss generalizing σ with
  | nil =>
    constructor
    · intro h
      exact ⟨σ, .nil, h⟩
    · rintro ⟨ρ, hn, h⟩
      rw [runs_nil] at hn
      exact hn ▸ h
  | cons s ss ih =>
    rw [List.cons_append, runs_cons]
    constructor
    · rintro ⟨ρ, hs, hr⟩
      obtain ⟨ρ', hss, hts⟩ := ih.1 hr
      exact ⟨ρ', (runs_cons s ss).2 ⟨ρ, hs, hss⟩, hts⟩
    · rintro ⟨ρ', hss, hts⟩
      obtain ⟨ρ, hs, hss⟩ := (runs_cons s ss).1 hss
      exact ⟨ρ, hs, ih.2 ⟨ρ', hss, hts⟩⟩

variable {cs : List Stmt}

theorem runs_variable {name type} : Runs w [.mk (.variable_ name type) cs ns l] σ τ ↔ σ = τ := by
  constructor
  · rintro ⟨⟩
    rfl
  · rintro rfl
    exact .variable_

theorem runs_comment {text annotates} : Runs w [.mk (.comment text annotates) cs ns l] σ τ ↔ σ = τ := by
  constructor
  · rintro ⟨⟩
    rfl
  · rintro rfl
    exact .comment

theorem runs_assign {x declared e} : Runs w [.mk (.assign (.identifier x declared line) e) cs ns l] σ τ ↔
      ∃ n, e.value w σ = some (.int n) ∧ σ.set x n = τ := by
  constructor
  · rintro ⟨⟩
    exact ⟨_, by assumption, rfl⟩
  · rintro ⟨n, he, rfl⟩
    exact .assign he

variable {c : Expr}

theorem runs_ifThen : Runs w [.mk (.ifThen c) cs ns l] σ τ ↔ ∃ ss, chosen? w σ c cs = some ss ∧ Runs w ss σ τ := by
  constructor
  · rintro ⟨⟩
    exact ⟨_, by assumption, by assumption⟩
  · rintro ⟨ss, hc, hr⟩
    exact .ifThen hc hr

variable {body : List Stmt}

/-- A choice runs what stands before its clauses if its condition holds, and else the first clause
that applies. -/
theorem runs_choice (hbody : ∀ s ∈ body, s.isClause = false) (hcs : ∀ s ∈ cs, s.isClause = true) :
    Runs w [.mk (.ifThen c) (body ++ cs) ns l] σ τ ↔ (c.value w σ = some (.bool true) ∧ Runs w body σ τ) ∨
      (c.value w σ = some (.bool false) ∧ ∃ ss, clauseBody? w σ cs = some ss ∧ Runs w ss σ τ) := by
  have hplain : ∀ s ∈ body, (!s.isClause) = true := by simpa using hbody
  have htake : cs.takeWhile (fun s => !s.isClause) = [] := by
    cases cs with
    | nil => rfl
    | cons s cs => simp [hcs s (by simp)]
  have hdrop : cs.dropWhile (fun s => !s.isClause) = cs := by
    cases cs with
    | nil => rfl
    | cons s cs => simp [hcs s (by simp)]
  rw [runs_ifThen, chosen?, List.takeWhile_append_of_pos hplain,
    List.dropWhile_append_of_pos hplain, htake, hdrop, List.append_nil]
  rcases c.value w σ with _ | ⟨n⟩ | ⟨_ | _⟩ <;> simp [choose]

theorem runs_while : Runs w [.mk (.while_ c) body ns l] σ τ ↔ Repeats (fun σ => c.value w σ) (Runs w body) σ τ := by
  constructor
  · intro h
    generalize hs : [Stmt.mk (.while_ c) body ns l] = ss at h
    induction h with
    | whileStop hc => cases hs; exact .stop hc
    | whileGo hc hb _ _ ih => cases hs; exact .go hc hb (ih rfl)
    | _ => cases hs
  · intro h
    induction h with
    | stop hc => exact .whileStop hc
    | go hc hb _ ih => exact .whileGo hc hb ih

theorem runs_repeatUntil_not : Runs w [.mk (.repeatUntil (.unary .not c line)) body ns l] σ τ ↔
      Comp (Runs w body) (Repeats (fun σ => c.value w σ) (Runs w body)) σ τ := by
  have hnot : ∀ ρ b, (Expr.unary .not c line).value w ρ = some (.bool (!b)) ↔ c.value w ρ = some (.bool b) := by
    intro ρ b
    rw [Expr.value]
    rcases c.value w ρ with _ | ⟨n⟩ | ⟨a⟩ <;> simp [UnaryOp.apply]
  constructor
  · intro h
    generalize hs : [Stmt.mk (.repeatUntil (.unary .not c line)) body ns l] = ss at h
    induction h with
    | repeatStop hb hc => cases hs; exact ⟨_, hb, .stop ((hnot _ false).1 hc)⟩
    | repeatGo hb hc _ _ ih =>
      cases hs
      obtain ⟨ρ, hb', hr⟩ := ih rfl
      exact ⟨_, hb, .go ((hnot _ true).1 hc) hb' hr⟩
    | _ => cases hs
  · rintro ⟨ρ, hb, hr⟩
    induction hr generalizing σ with
    | stop hc => exact .repeatStop hb ((hnot _ false).2 hc)
    | go hc hb' _ ih => exact .repeatGo hb ((hnot _ true).2 hc) (ih hb')

theorem runs_withNotes (s : Stmt) (ns : List String) : Runs w [s.withNotes ns] σ τ ↔ Runs w [s] σ τ := by
  have hnotes : ∀ {f cs l} {ns ns' : List String}, Runs w [.mk f cs ns l] σ τ → Runs w [.mk f cs ns' l] σ τ := by
    intro f cs l ns ns' h
    generalize hs : [Stmt.mk f cs ns l] = ss at h
    induction h with
    | nil | cons => cases hs
    | variable_ => cases hs; exact .variable_
    | comment => cases hs; exact .comment
    | assign he => cases hs; exact .assign he
    | ifThen hc hr => cases hs; exact .ifThen hc hr
    | whileStop hc => cases hs; exact .whileStop hc
    | whileGo hc hb _ _ ih => cases hs; exact .whileGo hc hb (ih rfl)
    | repeatStop hb hc => cases hs; exact .repeatStop hb hc
    | repeatGo hb hc _ _ ih => cases hs; exact .repeatGo hb hc (ih rfl)
  cases s
  exact ⟨hnotes, hnotes⟩

end Pseudo

end Blackboard
