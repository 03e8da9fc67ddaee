import Blackboard.Proofs.Lowering.Rounds

/-!
Names that blocks declare. In the source a block's names are gone after it, and a variable around it that has
one of these names is as it was; pseudocode has one variable for a name. If no block declares a name that is
visible around it, the two agree on the variables that are visible.
-/
namespace Blackboard

open Conversion
open Meaning
open Source (Span)

namespace Meaning

def AgreeOn (names : List String) (σ σ' : Store) : Prop := ∀ x ∈ names, σ x = σ' x

theorem AgreeOn.mono {V V' σ σ'} (h : AgreeOn V' σ σ') (hV : V ⊆ V') : AgreeOn V σ σ' :=
  fun x hx => h x (hV hx)

theorem AgreeOn.set {V σ σ'} (h : AgreeOn V σ σ') (x : String) (n : Int) :
    AgreeOn (x :: V) (σ.set x n) (σ'.set x n) := by
  intro y hy
  unfold Store.set
  split
  · rfl
  · next hne => exact h y ((List.mem_cons.1 hy).resolve_left hne)

def kept (_ : List String) (_ ρ : Store) : Store := ρ

/-- The store after a block with names of its own: what has one of these names is as it was before. -/
def restored (names : List String) (σ ρ : Store) : Store := fun x => if x ∈ names then σ x else ρ x

end Meaning

namespace Source

def Stmt.isPlain : Stmt → Bool
  | .varDecl _ | .expression .. | .empty _ => true
  | _ => false

def Stmt.declared : Stmt → List String
  | .varDecl v => v.declarators.map (·.name)
  | _ => []

def declaredIn (ss : List Stmt) : List String := ss.flatMap (·.declared)

/-- How statements run that are plain, blocks or choices; `exit` gives the store after a block, from the names
that it declares, the store before it and the store at its end. -/
inductive BlockRuns (exit : List String → Store → Store → Store) (w : World) :
    List Stmt → Store → Store → Prop where
  | nil {σ} : BlockRuns exit w [] σ σ
  | plain {s rest σ ρ τ} : s.isPlain = true → Runs w [s] σ ρ → BlockRuns exit w rest ρ τ →
      BlockRuns exit w (s :: rest) σ τ
  | block {span ss rest σ ρ τ} : BlockRuns exit w ss σ ρ → BlockRuns exit w rest (exit (declaredIn ss) σ ρ) τ →
      BlockRuns exit w (.block ⟨span, ss⟩ :: rest) σ τ
  | ifTrue {span c yes no rest σ ρ τ} : Expr.value w σ c = some (.bool true) → BlockRuns exit w [yes] σ ρ →
      BlockRuns exit w rest ρ τ → BlockRuns exit w (.ifElse span c yes no :: rest) σ τ
  | ifFalse {span c yes no rest σ ρ τ} : Expr.value w σ c = some (.bool false) →
      BlockRuns exit w no.toList σ ρ → BlockRuns exit w rest ρ τ →
      BlockRuns exit w (.ifElse span c yes no :: rest) σ τ

/-- Whether statements use visible names only, of which `V` are declared before, and no block among them
declares a name that is visible around it. -/
inductive Unshadowed : List String → List Stmt → Prop where
  | nil {V} : Unshadowed V []
  | plain {V s rest} : s.isPlain = true → (∀ x, s.nodes.any (Node.isVariable x) = true → x ∈ V) →
      Unshadowed (s.declared ++ V) rest → Unshadowed V (s :: rest)
  | block {V span ss rest} : (∀ x ∈ declaredIn ss, x ∉ V) → Unshadowed V ss → Unshadowed V rest →
      Unshadowed V (.block ⟨span, ss⟩ :: rest)
  | ifElse {V span c yes no rest} : (∀ x, c.mentions x = true → x ∈ V) → Unshadowed V [yes] →
      Unshadowed V no.toList → Unshadowed V rest → Unshadowed V (.ifElse span c yes no :: rest)

variable {w : World} {V : List String} {σ σ' τ : Store}

/-- Where a name stands for one variable, blocks are run as if they were not there. -/
theorem blockRuns_kept {ss} (h : Unshadowed V ss) : BlockRuns kept w ss σ τ ↔ Runs w ss σ τ := by
  induction h generalizing σ τ with
  | nil =>
    rw [runs_nil]
    constructor
    · rintro ⟨⟩
      rfl
    · rintro rfl
      exact .nil
  | plain hs _ _ ih =>
    rw [runs_cons]
    constructor
    · intro h
      cases h with
      | plain _ hhead hrest => exact ⟨_, hhead, ih.1 hrest⟩
      | _ => cases hs
    · rintro ⟨ρ, hhead, hrest⟩
      exact .plain hs hhead (ih.2 hrest)
  | block _ _ _ ih ihrest =>
    rw [runs_cons]
    constructor
    · intro h
      cases h with
      | plain hs => cases hs
      | block hbody hrest => exact ⟨_, .block (ih.1 hbody), ihrest.1 hrest⟩
    · rintro ⟨ρ, hbody, hrest⟩
      exact .block (ih.2 (runs_block.1 hbody)) (ihrest.2 hrest)
  | ifElse _ _ _ _ ihyes ihno ihrest =>
    rw [runs_cons]
    constructor
    · intro h
      cases h with
      | plain hs => cases hs
      | ifTrue hc hyes hrest => exact ⟨_, .ifTrue hc (ihyes.1 hyes), ihrest.1 hrest⟩
      | ifFalse hc hno hrest => exact ⟨_, .ifFalse hc (ihno.1 hno), ihrest.1 hrest⟩
    · rintro ⟨ρ, hhead, hrest⟩
      rcases runs_ifElse.1 hhead with ⟨hc, hyes⟩ | ⟨hc, hno⟩
      · exact .ifTrue hc (ihyes.2 hyes) (ihrest.2 hrest)
      · exact .ifFalse hc (ihno.2 hno) (ihrest.2 hrest)

/-! ### Plain statements -/

theorem Expr.effect_agrees {e : Expr} (h : e.effect w σ = some τ) (hσ : AgreeOn V σ σ')
    (hV : ∀ x, e.mentions x = true → x ∈ V) : ∃ τ', e.effect w σ' = some τ' ∧ AgreeOn V τ τ' := by
  have hset (x : String) (n : Int) : AgreeOn V (σ.set x n) (σ'.set x n) :=
    (hσ.set x n).mono (List.subset_cons_self _ _)
  unfold effect at h
  split at h
  · next x e =>
    have he : e.value w σ = e.value w σ' := e.value_congr fun y hy => hσ y (hV y (by
      simp_all [Expr.mentions, Expr.nodes]))
    rw [he] at h
    split at h <;> cases h
    next n hn => exact ⟨_, by rw [effect, hn], hset x n⟩
  · next op x e =>
    have he : e.value w σ = e.value w σ' := e.value_congr fun y hy => hσ y (hV y (by
      simp_all [Expr.mentions, Expr.nodes]))
    have hx : σ x = σ' x := hσ x (hV x (by simp [Expr.mentions, Expr.nodes, Node.isVariable, Expr.isVariable]))
    rw [he, hx] at h
    split at h <;> cases h
    next n hn => exact ⟨_, by rw [effect, hn], hset x n⟩
  · next x =>
    have hx : σ x = σ' x := hσ x (hV x (by simp [Expr.mentions, Expr.nodes, Node.isVariable, Expr.isVariable]))
    cases h
    refine ⟨_, by rw [effect], ?_⟩
    rw [hx]
    exact hset x _
  · next x =>
    have hx : σ x = σ' x := hσ x (hV x (by simp [Expr.mentions, Expr.nodes, Node.isVariable, Expr.isVariable]))
    cases h
    refine ⟨_, by rw [effect], ?_⟩
    rw [hx]
    exact hset x _
  · cases h

theorem runs_varDecl_agrees {span ds type modifiers kind}
    (h : Runs w [.varDecl ⟨span, ds, type, modifiers, kind⟩] σ τ) (hσ : AgreeOn V σ σ')
    (hV : ∀ x, (declaratorNodes ds).any (Node.isVariable x) = true → x ∈ V) :
    ∃ τ', Runs w [.varDecl ⟨span, ds, type, modifiers, kind⟩] σ' τ' ∧
      AgreeOn (ds.map (·.name) ++ V) τ τ' := by
  induction ds generalizing V σ σ' with
  | nil =>
    obtain rfl := runs_declared.1 h
    exact ⟨σ', .declared, hσ⟩
  | cons d ds ih =>
    obtain ⟨own, name, t, extra, init⟩ := d
    cases init with
    | none => cases h
    | some e =>
      obtain ⟨n, he, hrest⟩ := runs_declare.1 h
      rw [e.value_congr fun y hy => hσ y (hV y (by simp_all [declaratorNodes, exprNode, Expr.mentions]))] at he
      obtain ⟨τ', hrun, hτ⟩ := ih hrest (hσ.set name n) fun x hx =>
        List.mem_cons_of_mem _ (hV x (by simp_all [declaratorNodes]))
      exact ⟨τ', .declare he hrun, hτ.mono (by intro x hx; simp_all [or_left_comm])⟩

theorem Stmt.isPlain.agrees {s : Stmt} (hs : s.isPlain = true) (h : Runs w [s] σ τ) (hσ : AgreeOn V σ σ')
    (hV : ∀ x, s.nodes.any (Node.isVariable x) = true → x ∈ V) :
    ∃ τ', Runs w [s] σ' τ' ∧ AgreeOn (s.declared ++ V) τ τ' := by
  cases s with
  | varDecl v =>
    obtain ⟨span, ds, type, modifiers, kind⟩ := v
    exact runs_varDecl_agrees h hσ fun x hx => hV x (by simp_all [Stmt.nodes, VarDecl.nodes])
  | expression span e =>
    obtain ⟨τ', heffect, hτ⟩ := Expr.effect_agrees (runs_expression.1 h) hσ fun x hx =>
      hV x (by simp_all [Stmt.nodes, Expr.mentions])
    exact ⟨τ', .expression heffect, hτ⟩
  | empty =>
    obtain rfl := runs_empty.1 h
    exact ⟨σ', .empty, hσ⟩
  | _ => cases hs

/-- Two ways to leave blocks that differ in the names of the block only give the same visible variables. -/
theorem Unshadowed.transfer {f g : List String → Store → Store → Store} {ss}
    (hf : ∀ names σ ρ x, x ∉ names → f names σ ρ x = ρ x) (hg : ∀ names σ ρ x, x ∉ names → g names σ ρ x = ρ x)
    (h : Unshadowed V ss) (hσ : AgreeOn V σ σ') (hrun : BlockRuns f w ss σ τ) :
    ∃ τ', BlockRuns g w ss σ' τ' ∧ AgreeOn (declaredIn ss ++ V) τ τ' := by
  induction h generalizing σ σ' τ with
  | nil =>
    cases hrun
    exact ⟨σ', .nil, hσ⟩
  | plain hs hV _ ih =>
    cases hrun with
    | plain _ hhead hrest =>
      obtain ⟨ρ', hhead', hρ⟩ := Stmt.isPlain.agrees hs hhead hσ hV
      obtain ⟨τ', hrest', hτ⟩ := ih hρ hrest
      exact ⟨τ', .plain hs hhead' hrest', hτ.mono (by intro x hx; simp_all [declaredIn, or_left_comm])⟩
    | _ => cases hs
  | block hfresh _ _ ih ihrest =>
    cases hrun with
    | plain hs => cases hs
    | block hbody hrest =>
      obtain ⟨ρ', hbody', hρ⟩ := ih hσ hbody
      obtain ⟨τ', hrest', hτ⟩ := ihrest (show AgreeOn _ _ (g _ σ' ρ') from fun x hx => by
        have hx' := fun hmem => hfresh x hmem hx
        rw [hf _ _ _ _ hx', hg _ _ _ _ hx']
        exact hρ x (List.mem_append_right _ hx)) hrest
      exact ⟨τ', .block hbody' hrest', hτ⟩
  | ifElse hc _ _ _ ihyes ihno ihrest =>
    cases hrun with
    | plain hs => cases hs
    | ifTrue htrue hyes hrest =>
      obtain ⟨ρ', hyes', hρ⟩ := ihyes hσ hyes
      obtain ⟨τ', hrest', hτ⟩ := ihrest (hρ.mono (List.subset_append_right _ _)) hrest
      rw [Expr.value_congr _ fun x hx => hσ x (hc x hx)] at htrue
      exact ⟨τ', .ifTrue htrue hyes' hrest', hτ⟩
    | ifFalse hfalse hno hrest =>
      obtain ⟨ρ', hno', hρ⟩ := ihno hσ hno
      obtain ⟨τ', hrest', hτ⟩ := ihrest (hρ.mono (List.subset_append_right _ _)) hrest
      rw [Expr.value_congr _ fun x hx => hσ x (hc x hx)] at hfalse
      exact ⟨τ', .ifFalse hfalse hno' hrest', hτ⟩

end Source

namespace Conversion

open Source (BlockRuns Unshadowed declaredIn Structured)

open Source in
def numberDecl (name : String) (n : Nat) (raw : String) : Stmt :=
  .varDecl {
    span := .unplaced, type := some { span := .unplaced, name := "number" }, kind := some .let_
    declarators := [{ span := .unplaced, name := name, init := some (.number .unplaced (.int n) raw) }] }

open Source in
/-- The variable `x`, and a block with a variable of its own. -/
def blockSample (name : String) : Program :=
  { language := .typescript, span := .unplaced, structuralErrors := []
    body := [numberDecl "x" 1 "1", .block ⟨.unplaced, [numberDecl name 2 "2"]⟩] }

theorem blockSample_structured {name : String} (h : Source.isVariableName name = true) :
    ∀ s ∈ (blockSample name).body, Structured .typescript s := by
  have hdecl {x n raw} (hx : Source.isVariableName x = true) : Structured .typescript (numberDecl x n raw) := by
    refine .declaration ⟨rfl, fun d hd => ?_⟩
    rw [List.mem_singleton.1 hd]
    exact ⟨hx, ⟨.unplaced, rfl⟩, _, rfl, .number⟩
  intro s hs
  simp only [blockSample, List.mem_cons, List.not_mem_nil, or_false] at hs
  rcases hs with rfl | rfl
  · exact hdecl (by decide)
  · exact .block fun s hs => List.mem_singleton.1 hs ▸ hdecl h

end Conversion

end Blackboard
