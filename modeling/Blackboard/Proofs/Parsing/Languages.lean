import Blackboard.Proofs.Parsing.Lexing
import Blackboard.Proofs.Parsing.Numbering

/-!
What the grammars of the two languages have in common. Each fact is computed from their rules, and
nothing else about these is used where texts are parsed.
-/
namespace Blackboard

open Bool (and_eq_true)

def Language.rules : Language → List Grammar.Rule
  | java => Grammar.Java.rules
  | typescript => Grammar.TypeScript.rules

def Language.productions (l : Language) : List Grammar.Production := (Grammar.productionsOf l.rules).1

namespace Grammar

variable {ps : List Production}

def unitSteps (ps : List Production) : List (Nat × Nat) :=
  ps.filterMap fun p => match p.symbols.reverse with
    | .category c :: before => if before.any Symbol.isSolid then none else some (p.origin, c)
    | _ => none

/-- The length of the longest way along some steps, if it does not exceed `fuel`. -/
def height (steps : List (Nat × Nat)) : (fuel : Nat) → Nat → Nat
  | 0, _ => 0
  | fuel + 1, c => ((steps.filter (·.1 == c)).map fun s => height steps fuel s.2 + 1).foldr max 0

theorem foldr_max_le_iff {xs : List Nat} {n : Nat} : xs.foldr max 0 ≤ n ↔ ∀ x ∈ xs, x ≤ n := by
  induction xs with
  | nil => simp
  | cons x xs ih => rw [List.foldr_cons, Nat.max_le, ih, List.forall_mem_cons]

theorem height_succ_le_iff {steps : List (Nat × Nat)} {fuel c n : Nat} :
    height steps (fuel + 1) c ≤ n ↔ ∀ d, (c, d) ∈ steps → height steps fuel d + 1 ≤ n := by
  rw [height, foldr_max_le_iff]
  simp

theorem height_le (steps : List (Nat × Nat)) (fuel c : Nat) : height steps fuel c ≤ fuel := by
  induction fuel generalizing c with
  | zero => exact Nat.le_refl _
  | succ fuel ih => exact height_succ_le_iff.2 fun d _ => Nat.succ_le_succ (ih d)

theorem height_mono {a b : List (Nat × Nat)} (h : a ⊆ b) (fuel c : Nat) : height a fuel c ≤ height b fuel c := by
  induction fuel generalizing c with
  | zero => exact Nat.le_refl _
  | succ fuel ih =>
    refine height_succ_le_iff.2 fun d hd => ?_
    exact (Nat.succ_le_succ (ih d)).trans (height_succ_le_iff.1 (Nat.le_refl _) d (h hd))

def statementRun : Nat := categoryCount

namespace Symbol

def endsInSlash : Symbol → Bool
  | .terminal t _ => t == .slash
  | .category c => c == Category.multiplicativeOp.ctorIdx

def startsWithStar : Symbol → Bool
  | .terminal t _ => t.isStar
  | .category c => c == Category.multiplicativeOp.ctorIdx || c == Category.assignOp.ctorIdx

def isElse : Symbol → Bool
  | .terminal t _ => t == .kElse
  | .category _ => false

/-- Whether the first token read as some symbols can be one with which the symbols of `starts` begin. -/
def opensWith (starts : Symbol → Bool) : List Symbol → Bool
  | [] => false
  | s :: ss => starts s || (!s.isSolid && opensWith starts ss)

/-- Whether no slash read as one of the symbols can stand right before a star read as another. -/
def apart : List Symbol → Bool
  | [] => true
  | s :: ss => !(s.endsInSlash && opensWith startsWithStar ss) && apart ss

def endSolid (ss : List Symbol) : Bool := ss.getLast?.all isSolid

theorem endSolid_of_cons {s s' ss} (h : endSolid (s :: s' :: ss) = true) :
    endSolid (s' :: ss) = true := by
  rwa [endSolid, List.getLast?_cons_cons] at h

theorem any_isSolid_of_endSolid {s ss} (h : endSolid (s :: ss) = true) : (s :: ss).any isSolid = true := by
  obtain ⟨last, hlast⟩ := Option.isSome_iff_exists.1 (List.getLast?_isSome.2 (List.cons_ne_nil s ss))
  rw [endSolid, hlast] at h
  exact List.any_eq_true.2 ⟨last, List.mem_of_getLast? hlast, h⟩

end Symbol

namespace Production

/-- Whether a production fits in with the others where slashes and stars are concerned. -/
def isApart (p : Production) : Bool :=
  Symbol.apart p.symbols && (!p.symbols.getLast?.any Symbol.endsInSlash || (Symbol.category p.origin).endsInSlash) &&
    (!Symbol.opensWith Symbol.startsWithStar p.symbols || (Symbol.category p.origin).startsWithStar)

/-- Whether a production of a program or of a run of statements is one of those expected. -/
def isRun (p : Production) : Bool :=
  (p.origin != Category.program.ctorIdx || p.symbols == [] || p.symbols == [.category statementRun]) &&
    (p.origin != statementRun || (p.shape == .spliced && (p.symbols == [.category Category.topLevel.ctorIdx] ||
        p.symbols == [.category statementRun, .category Category.topLevel.ctorIdx])))

end Production

def hasProduction (ps : List Production) (c : Nat) (symbols : List Symbol) : Bool :=
  ps.any fun p => p.origin == c && p.symbols == symbols

/-- What the grammars of the two languages have in common beyond their numbering. -/
structure Settled (ps : List Production) : Prop where
  descends : ∀ s ∈ unitSteps ps, height (unitSteps ps) 20 s.2 < height (unitSteps ps) 20 s.1
  orderly : ∀ {p}, p ∈ ps → p.isOrderly = true
  endSolid : ∀ {p}, p ∈ ps → Symbol.endSolid p.symbols = true
  kept : ∀ {p}, p ∈ ps → .terminal .number false ∉ p.symbols
  apart : ∀ {p}, p ∈ ps → p.isApart = true
  elseInside : ∀ {p}, p ∈ ps → Symbol.opensWith Symbol.isElse p.symbols = false
  run : ∀ {p}, p ∈ ps → p.isRun = true
  program_empty : hasProduction ps Category.program.ctorIdx [] = true
  program_run : hasProduction ps Category.program.ctorIdx [.category statementRun] = true
  run_single : hasProduction ps statementRun [.category Category.topLevel.ctorIdx] = true
  run_more : hasProduction ps statementRun [.category statementRun, .category Category.topLevel.ctorIdx] = true

def areSettled (ps : List Production) : Bool :=
  ((unitSteps ps).all fun s => height (unitSteps ps) 20 s.2 < height (unitSteps ps) 20 s.1) &&
    (ps.all fun p => p.isOrderly && Symbol.endSolid p.symbols &&
      !p.symbols.contains (.terminal .number false) && p.isApart &&
      !Symbol.opensWith Symbol.isElse p.symbols && p.isRun) &&
    hasProduction ps Category.program.ctorIdx [] &&
    hasProduction ps Category.program.ctorIdx [.category statementRun] &&
    hasProduction ps statementRun [.category Category.topLevel.ctorIdx] &&
    hasProduction ps statementRun [.category statementRun, .category Category.topLevel.ctorIdx]

theorem Settled.of_areSettled (h : areSettled ps = true) : Settled ps := by
  simp only [areSettled, and_eq_true] at h
  obtain ⟨⟨⟨⟨⟨hdescends, hall⟩, hempty⟩, hrun⟩, hsingle⟩, hmore⟩ := h
  have hall := fun {p} (hp : p ∈ ps) => List.all_eq_true.1 hall p hp
  simp only [and_eq_true] at hall
  exact {
    descends := fun s hs => of_decide_eq_true (List.all_eq_true.1 hdescends s hs)
    orderly := fun hp => (hall hp).1.1.1.1.1
    endSolid := fun hp => (hall hp).1.1.1.1.2
    kept := fun hp => by simpa using (hall hp).1.1.1.2
    apart := fun hp => (hall hp).1.1.2
    elseInside := fun hp => by simpa using (hall hp).1.2
    run := fun hp => (hall hp).2
    program_empty := hempty
    program_run := hrun
    run_single := hsingle
    run_more := hmore }

/-! ### The productions as they are written down -/

namespace Production

/-- A production without its numbers. -/
def bare (p : Production) : Production := { p with order := 0, base := 0 }

/-- The productions of a rule, each as often as it is written down. -/
def written (number : Pattern → Nat) (r : Rule) : List Production :=
  r.alternatives.flatMap fun a => (a.body.sequences number).map fun symbols =>
    let label := a.label.getD r.category
    { origin := r.category.ctorIdx, symbols, order := 0, priority := r.priority,
      shape := shapeOf r label, label, base := 0 }

theorem map_bare_numberPlaces (next : Nat) (ps : List Production) :
    (numberPlaces next ps).1.map bare = ps.map bare := by
  induction ps generalizing next with
  | nil => rfl
  | cons p ps ih =>
    rw [numberPlaces, List.map_cons, List.map_cons, ih]
    rfl

theorem mem_map_bare_ofRule {number r q} :
    q ∈ (ofRule number r).map bare ↔ q ∈ (written number r).map bare := by
  have hindices (xs : List (List Symbol × Category)) (f : List Symbol × Category → Production) :
      q ∈ xs.zipIdx.map (fun x => f x.1) ↔ ∃ x ∈ xs, f x = q := by
    rw [show (fun x : _ × Nat => f x.1) = f ∘ Prod.fst from rfl, ← List.map_map, List.zipIdx_map_fst, List.mem_map]
  rw [ofRule, List.map_map]
  refine (hindices (sequencesOf number r) fun (symbols, label) =>
    { origin := r.category.ctorIdx, symbols, order := 0, priority := r.priority,
      shape := shapeOf r label, label, base := 0 }).trans ?_
  simp only [sequencesOf, List.mem_eraseDups, written, List.map_flatMap, List.mem_flatMap, List.mem_map]
  constructor
  · rintro ⟨-, ⟨a, ha, s, hs, rfl⟩, rfl⟩
    exact ⟨a, ha, _, ⟨s, hs, rfl⟩, rfl⟩
  · rintro ⟨a, ha, -, ⟨s, hs, rfl⟩, rfl⟩
    exact ⟨_, ⟨a, ha, s, hs, rfl⟩, rfl⟩

end Production

def writtenProductions (rules : List Rule) : List Production :=
  let repeated := Production.repetitions rules
  let number := Production.repetitionNumber repeated
  rules.flatMap (Production.written number) ++ repeated.flatMap (Production.ofRepetition number)

theorem mem_map_bare_productionsOf {rules q} :
    q ∈ (productionsOf rules).1.map Production.bare ↔ q ∈ (writtenProductions rules).map Production.bare := by
  rw [productionsOf, Production.map_bare_numberPlaces, writtenProductions, List.map_append, List.map_append,
    List.mem_append, List.mem_append]
  refine or_congr_left ?_
  rw [List.map_flatMap, List.map_flatMap, List.mem_flatMap, List.mem_flatMap]
  exact exists_congr fun r => and_congr_right fun _ => Production.mem_map_bare_ofRule

theorem Settled.of_map_bare {qs} (hqs : Settled qs)
    (h : ∀ p, p ∈ ps.map Production.bare ↔ p ∈ qs.map Production.bare) : Settled ps := by
  have hall {P : Production → Prop} (hP : ∀ {q}, q ∈ qs → P q.bare) {p} (hp : p ∈ ps) : P p.bare := by
    obtain ⟨q, hq, heq⟩ := List.mem_map.1 ((h p.bare).1 (List.mem_map_of_mem hp))
    exact heq ▸ hP hq
  have hbare (rs : List Production) : unitSteps rs = unitSteps (rs.map Production.bare) := by
    rw [unitSteps, unitSteps, List.filterMap_map]
    rfl
  have hsteps (s : Nat × Nat) : s ∈ unitSteps ps ↔ s ∈ unitSteps qs := by
    rw [hbare, hbare qs]
    simp only [unitSteps, List.mem_filterMap, h]
  have hheight (c : Nat) : height (unitSteps ps) 20 c = height (unitSteps qs) 20 c :=
    Nat.le_antisymm (height_mono (fun s => (hsteps s).1) 20 c) (height_mono (fun s => (hsteps s).2) 20 c)
  have hhas (c : Nat) (symbols : List Symbol) : hasProduction ps c symbols = hasProduction qs c symbols := by
    have hmap (rs : List Production) : hasProduction rs c symbols = hasProduction (rs.map Production.bare) c symbols := by
      rw [hasProduction, hasProduction, List.any_map]
      rfl
    rw [hmap, hmap qs, Bool.eq_iff_iff]
    simp only [hasProduction, List.any_eq_true, h]
  exact {
    descends := fun s hs => by simpa only [hheight] using hqs.descends s ((hsteps s).1 hs)
    orderly := hall (P := (·.isOrderly = true)) hqs.orderly
    endSolid := hall (P := (Symbol.endSolid ·.symbols = true)) hqs.endSolid
    kept := hall (P := (.terminal .number false ∉ ·.symbols)) hqs.kept
    apart := hall (P := (·.isApart = true)) hqs.apart
    elseInside := hall (P := (Symbol.opensWith Symbol.isElse ·.symbols = false)) hqs.elseInside
    run := hall (P := (·.isRun = true)) hqs.run
    program_empty := (hhas ..).trans hqs.program_empty
    program_run := (hhas ..).trans hqs.program_run
    run_single := (hhas ..).trans hqs.run_single
    run_more := (hhas ..).trans hqs.run_more }

-- the productions themselves are not evaluated: finding their duplicates takes longer than all the rest
theorem settled (l : Language) : Settled l.productions := by
  refine .of_map_bare (.of_areSettled ?_) fun p => mem_map_bare_productionsOf
  have hdescends : ((unitSteps (writtenProductions l.rules)).all fun s =>
      height (unitSteps (writtenProductions l.rules)) 20 s.2 <
        height (unitSteps (writtenProductions l.rules)) 20 s.1) = true := by
    cases l <;> decide +kernel
  rw [areSettled, hdescends, Bool.true_and]
  cases l <;> decide +kernel

theorem grammar_eq (l : Language) : l.grammar = ofRules l.rules := by
  cases l <;> rfl

theorem orderly (l : Language) : l.grammar.Orderly l.productions
    (categoryCount + (Production.repetitions l.rules).length) where
  toNumbered := grammar_eq l ▸ ofRules_numbered l.rules
  orderly := (settled l).orderly

end Grammar

end Blackboard
