import Mathlib.Algebra.Order.Ring.Rat
import Blackboard.Proofs.Lowering.Position

/-!
The iterations of counting loops, whatever numbers their bounds are. Between whole numbers a FOR loop
visits what its loop in the source visits. Where a bound is no whole number, one that must not be reached
may cost the last iteration.
-/
namespace Blackboard

open Conversion
open Meaning
open Source (Span CountingLoop)

namespace Source

/-- Whether an expression is a comparison that holds where its operands have these values. -/
def Expr.Compares {K : Type} [LT K] [LE K] (value : Expr → K) : Expr → Prop
  | .binary _ op a b => op.Holds (value a) (value b)
  | _ => False

theorem Expr.eq_of_isVariable {x : String} {e : Expr} (h : e.isVariable x = true) :
    ∃ span, e = .identifier span x := by
  cases e <;> simp [isVariable] at h
  exact ⟨_, by rw [h]⟩

namespace CountingLoop

variable {x : String} {op : BinaryOp} {e bound : Expr} {k : Int}

theorem holds_comparison? {K : Type} [LT K] [LE K] (h : comparison? x e = some (op, bound))
    {value : Expr → K} {n : K} (hn : ∀ span, value (.identifier span x) = n) :
    e.Compares value ↔ op.Holds n (value bound) := by
  unfold comparison? at h
  split at h
  · next span o left right =>
    obtain ⟨back, hback, h⟩ := Option.bind_eq_some_iff.1 h
    split at h
    · next hleft =>
      cases h
      obtain ⟨s, rfl⟩ := Expr.eq_of_isVariable hleft
      rw [Expr.Compares, hn]
    · split at h
      · next hright =>
        cases h
        obtain ⟨s, rfl⟩ := Expr.eq_of_isVariable hright
        rw [Expr.Compares, hn]
        cases o <;> cases hback <;> rfl
      · cases h
  · cases h

theorem effect_of_step? (h : e.step? x = some k) (w : World) (σ : Store) :
    e.effect w σ = some (σ.set x (σ x + k)) := by
  have hnonzero {a : Expr} {m : Int} (ha : Expr.step?.nonzero a.intLiteral? = some m) : a.value w σ = some (.int m) :=
    Expr.intLiteral?_value (Option.filter_eq_some_iff.1 ha).1
  unfold Expr.step? at h
  split at h
  · next op _ _ =>
    split at h
    · next hx =>
      cases h
      obtain ⟨s, rfl⟩ := Expr.eq_of_isVariable hx
      cases op <;> rfl
    · cases h
  · split at h
    · cases h
    next hx =>
    obtain ⟨s, rfl⟩ := Expr.eq_of_isVariable (by simpa using hx)
    split at h
    · rw [Expr.effect, hnonzero h]
      rfl
    · obtain ⟨m, hm, rfl⟩ := Option.map_eq_some_iff.1 h
      rw [Expr.effect, hnonzero hm]
      rfl
    · split at h
      · next hleft =>
        obtain ⟨s, rfl⟩ := Expr.eq_of_isVariable hleft
        rw [Expr.effect, value_binary rfl, hnonzero h]
        rfl
      · cases h
    · split at h
      · next hleft =>
        obtain ⟨s, rfl⟩ := Expr.eq_of_isVariable hleft
        obtain ⟨m, hm, rfl⟩ := Option.map_eq_some_iff.1 h
        rw [Expr.effect, value_binary rfl, hnonzero hm]
        rfl
      · cases h
    · cases h
  · cases h

end CountingLoop

end Source

namespace Pseudo

/-- The values of the counter of a FOR loop, which are whole numbers, between ends that need not be. -/
def Reading.Counts {K : Type} [Ring K] [LE K] (R : Reading K) (start stop : Expr) (step v : Int) : Prop :=
  ∃ (first : Int) (last : K), R.Reads start first ∧ R.Reads stop last ∧
    Visits step (fun i => if 0 < step then (i : K) ≤ last else last ≤ i) first v

def BinaryOp.Holds {K : Type} [LT K] [LE K] : BinaryOp → K → K → Prop
  | .lt, x, y => x < y
  | .le, x, y => x ≤ y
  | .gt, x, y => y < x
  | .ge, x, y => y ≤ x
  | _, _, _ => False

end Pseudo

namespace Convert

open Ensures

variable {c : Context} {s : State} {span : Span} {loop : CountingLoop}

theorem counts_iff {K : Type} [CommRing K] [LinearOrder K] [IsStrictOrderedRing K]
    (hop : CountingLoop.leadsOn loop.step loop.comparison = true) {a b : Pseudo.Expr} {i j : Int} {r : Range}
    (hstart : a.Exceeds (i + loop.shift) r.start) (hstop : b.Exceeds (loop.last j + loop.shift) r.stop)
    (R : Pseudo.Reading K) {x : Int} {y : K} (hx : R.Reads a x) (hy : R.Reads b y) (v : Int) :
    R.Counts r.start r.stop loop.step (v + loop.shift) ↔
      Visits loop.step (fun n => loop.comparison.Holds (n : K) (y + j)) (x + i) v ∧ loop.Clears (v : K) (y + j) := by
  have hfirst := hstart K R x hx
  have hlast := hstop K R y hy
  rw [← Int.cast_add, ← Int.add_assoc] at hfirst
  rw [← CountingLoop.visits_range_iff hop]
  constructor
  · rintro ⟨first, last, hf, hl, hv⟩
    obtain rfl := Int.cast_injective (R.unique hf hfirst)
    obtain rfl := R.unique hl hlast
    exact hv
  · exact fun hv => ⟨_, _, hfirst, hlast, hv⟩

/-- What a counting loop is converted to: a FOR loop whose counter takes the values that `visits` says,
moved up if the loop is, whatever the ends of the loop are worth. -/
def CountsOver (K : Type) [CommRing K] [LinearOrder K] (c : Context) (scopes : Scopes) (span : Span)
    (loop : CountingLoop) (visits : Int → K → Int → Prop) (ps : List Pseudo.Stmt) : Prop :=
  ∃ start stop ss a i b j,
    ps = [.mk (.for_ loop.name start stop (if loop.step = 1 then none else some (.number loop.step))) ss []
      (some span.line)] ∧
    EndOf c scopes loop.start (!loop.ascending) a i ∧ EndOf c scopes loop.bound loop.ascending b j ∧
    ∀ (R : Pseudo.Reading K) (x : Int) (y : K), R.Reads a x → R.Reads b y → ∀ v,
      R.Counts start stop loop.step (v + loop.shift) ↔ visits (x + i) (y + j) v

variable {decl : Option Source.VarDecl} {init update : List Source.Expr} {condition : Option Source.Expr}
    {body : Source.Stmt}

theorem forLoop_countsOver {K : Type} [CommRing K] [LinearOrder K] [IsStrictOrderedRing K]
    (h : CountingLoop.ofLoop? decl init condition update body = some loop) :
    Ensures (Heavy (Source.weight (Source.Stmt.forLoop span decl init condition update body).nodes))
      (stmt (.forLoop span decl init condition update body)) c s fun ps _ =>
        CountsOver K c s.scopes span loop (fun first limit v =>
          Visits loop.step (fun n => loop.comparison.Holds (n : K) limit) first v ∧
            loop.Clears (v : K) limit) ps := by
  have hop := (CountingLoop.ofLoop?_eq_some_iff.1 h).2.2.2.2.1
  refine ((stmt_ensures (.forLoop span decl init condition update body) c s).and ?_).mono fun _ _ hp => hp.2
  rw [stmt, h]
  refine (countingLoop_ensures hop span _).mono ?_
  rintro _ _ ⟨r, u, ss, hr, -, -, rfl⟩
  obtain ⟨a, i, b, j, ha, hb, hstart, hstop⟩ := hr.ends
  exact ⟨r.start, r.stop, ss, a, i, b, j, rfl, ha, hb, fun R x y hx hy v =>
    counts_iff hop hstart hstop R hx hy v⟩

/-- A loop is recognised for what it is in the source: where its counter starts, when its condition holds,
on whichever side the counter stands, and what its update adds, however that is written. The FOR loop
visits what the source visits from the first value on while the comparison holds, moved up by one if the
loop is. Both ends are converted as they are, but the far one is the LENGTH of a collection, and a
constant, if it is a length in the source. -/
theorem recognised_loops_visit_alike (c : Context) (s : State) (span : Span) (decl : Option Source.VarDecl)
    (init update : List Source.Expr) (condition : Option Source.Expr) (body : Source.Stmt)
    (loop : CountingLoop) (h : CountingLoop.ofLoop? decl init condition update body = some loop) :
    CountingLoop.initial? decl init = some (loop.name, loop.type, loop.start) ∧
    (∃ e, condition = some e ∧ ∀ (value : Source.Expr → Int) (n : Int),
      (∀ span, value (.identifier span loop.name) = n) →
        (e.Compares value ↔ loop.comparison.Holds n (value loop.bound))) ∧
    (∃ e, update = [e] ∧ ∀ w σ, e.effect w σ = some (σ.set loop.name (σ loop.name + loop.step))) ∧
    Ensures (Heavy (Source.weight (Source.Stmt.forLoop span decl init condition update body).nodes))
      (stmt (.forLoop span decl init condition update body)) c s fun ps _ =>
        CountsOver Int c s.scopes span loop
          (fun first limit => Visits loop.step (fun n => loop.comparison.Holds n limit) first) ps := by
  obtain ⟨hinitial, hcondition, -, ⟨e, hupdate, hstep⟩, -⟩ := CountingLoop.ofLoop?_eq_some_iff.1 h
  obtain ⟨e', he', hcompare⟩ := Option.bind_eq_some_iff.1 hcondition
  refine ⟨hinitial, ⟨e', he', fun value n hn => CountingLoop.holds_comparison? hcompare hn⟩,
    ⟨e, hupdate, CountingLoop.effect_of_step? hstep⟩, ?_⟩
  refine (forLoop_countsOver (K := Int) h).mono ?_
  rintro ps _ ⟨start, stop, ss, a, i, b, j, hps, ha, hb, hcounts⟩
  refine ⟨start, stop, ss, a, i, b, j, hps, ha, hb, fun R x y hx hy v => ?_⟩
  rw [hcounts R x y hx hy v]
  exact and_iff_left_of_imp CountingLoop.clears_of_visits

theorem recognised_loops_visit_alike_innerStatement :
    ∃ ps t, stmt innerStatement countingContext countingState = .ok (ps, t) ∧
      CountsOver Int countingContext countingState.scopes .unplaced innerLoop
        (fun first limit => Visits 1 (fun n => n < limit) first) ps := by
  have hresult {span decl init condition update body}
      (h : CountingLoop.ofLoop? decl init condition update body = some innerLoop)
      (hlight : ¬ Heavy (Source.weight (Source.Stmt.forLoop span decl init condition update body).nodes)) :=
    (recognised_loops_visit_alike countingContext countingState span decl init update condition body innerLoop
      h).2.2.2.exists_ok_of_not hlight
  exact hresult rfl (not_heavy_of_le (by decide))

open Source in
def ownLast : Expr :=
  .binary .unplaced .sub (.member .unplaced (.identifier .unplaced "this") "length" false)
    (.number .unplaced (.int 1) "1")

open Source in
def downFromOwn : Stmt :=
  let i := Expr.identifier .unplaced "i"
  .forLoop .unplaced none [.assignment .unplaced .set i ownLast]
    (some (.binary .unplaced .ge i (.number .unplaced (.int 0) "0"))) [.update .unplaced .decrement false i]
    (.expression .unplaced (.assignment .unplaced .set (.identifier .unplaced "x") i))

def realState : State where
  scopes := ({} : Scopes).declareVariable { name := "b", type := "REAL" }

open Source in
def upToVariable : CountingLoop where
  name := "i"
  type := none
  start := .number .unplaced (.int 0) "0"
  comparison := .lt
  bound := .identifier .unplaced "b"
  step := 1

open Source in
def upToStatement (x : String) : Stmt :=
  let i := Expr.identifier .unplaced "i"
  .forLoop .unplaced none [.assignment .unplaced .set i upToVariable.start]
    (some (.binary .unplaced .lt i upToVariable.bound)) [.update .unplaced .increment false i]
    (.expression .unplaced (.assignment .unplaced .set (.identifier .unplaced x) i))

/-- The ends of the FOR loops. -/
theorem sampleLoops_convert :
    (match expr ownLast countingContext countingState, stmt downFromOwn countingContext countingState with
      | .ok (.binary .sub (.identifier "length" _ _) (.literal _ (some (.int 1)) _) _, _),
        .ok ([.mk (.for_ "i" (.call "LENGTH" [.identifier "this" _ _] none _) (.literal _ (some (.int 1)) _) _) _ []
          (some 1)], _) => true
      | _, _ => false) = true ∧
    (match stmt (upToStatement "x") countingContext realState with
      | .ok ([.mk (.for_ "i" _ (.binary .sub (.identifier "b" _ _) (.literal _ (some (.int 1)) _) _) none) _ []
          (some 1)], _) => true
      | _ => false) = true := by decide +kernel

/-- The field `length` is converted to a variable, but the loop counts down from the LENGTH of the object. -/
theorem downFromOwn_misses_first :
    ∃ e u start stop step ss t, expr ownLast countingContext countingState = .ok (e, u) ∧
      stmt downFromOwn countingContext countingState = .ok ([.mk (.for_ "i" start stop step) ss [] (some 1)], t) ∧
      ∃ (R : Pseudo.Reading Int) (x : Int), R.Reads e x ∧ 0 ≤ x ∧ ¬ R.Counts start stop (-1) (x + 1) := by
  have hrun := sampleLoops_convert.1
  split at hrun
  · next he hs =>
    refine ⟨_, _, _, _, _, _, _, he, hs, Pseudo.valueReading ⟨0, 0⟩ fun _ => 1, 0, ?_, Int.le_refl 0, ?_⟩
    · simp [Pseudo.valueReading, Pseudo.Expr.value, Pseudo.BinaryOp.apply]
    · rintro ⟨first, last, hf, hl, hv⟩
      simp only [Pseudo.valueReading] at hf
      rw [Pseudo.Expr.value] at hf
      cases hf
      cases Pseudo.Reading.unique _ hl (Pseudo.Reading.literal ..)
      cases hv with
      | later hfirst _ => simp at hfirst
  · cases hrun

/-- What a loop that does not count is converted to: a WHILE loop that compares what the source compares,
and whose comparison holds when that of the source does. -/
def ComparesWhile (c : Context) (span place : Span) (op : Source.BinaryOp) (left right : Source.Expr)
    (body : Convert (List Pseudo.Stmt)) (ps : List Pseudo.Stmt) (t : State) : Prop :=
  ∃ before m a b ss s₁ s₂ s₃, expr left c s₁ = .ok (a, s₂) ∧ expr right c s₂ = .ok (b, s₃) ∧
    body { c with enclosing := some .loop } s₃ = .ok (ss, t) ∧
    ps = before ++ [.mk (.while_ (.binary m a b (some place.line))) ss ["for loop rewritten as WHILE"]
      (some span.line)] ∧
    ∀ x y : ℚ, m.Holds x y ↔ op.Holds x y

theorem comparison_ensures {place op left right} (hop : op.flipped?.isSome) :
    Ensures True (expr (.binary place op left right)) c s fun e t => ∃ m a b u,
      expr left c s = .ok (a, u) ∧ expr right c u = .ok (b, t) ∧ e = .binary m a b (some place.line) ∧
      ∀ x y : ℚ, m.Holds x y ↔ op.Holds x y := by
  rw [expr]
  cases op <;> simp only [Source.BinaryOp.flipped?, Option.isSome_none, Bool.false_eq_true] at hop
  all_goals
    simp only [operation, bind_iff]
    refine (run (expr left) c s).mono fun a u ha => ?_
    refine (run (expr right) c u).mono fun b t hb => ?_
    exact ⟨_, a, b, u, ha, hb, rfl, fun x y => Iff.rfl⟩

theorem generalLoop_ensures {place op left right}
    (hop : op.flipped?.isSome) (convertDecl convertBody : Convert (List Pseudo.Stmt)) :
    Ensures True (generalLoop span decl init (some (.binary place op left right)) update convertDecl convertBody) c s
      (ComparesWhile c span place op left right
        (nested span do return (← convertBody) ++ (← exprStatements update))) := by
  simp only [generalLoop, warn, bind_iff, report_iff]
  refine (run convertDecl c _).mono fun declared u _ => ?_
  refine (run (exprStatements init) c u).mono fun started s₁ _ => ?_
  refine (comparison_ensures hop).mono ?_
  rintro _ s₃ ⟨m, a, b, s₂, ha, hb, rfl, hm⟩
  refine (run _ _ s₃).mono fun ss t hss => ?_
  exact ⟨declared ++ started, m, a, b, ss, s₁, s₂, s₃, ha, hb, hss, rfl, hm⟩

/-- Whatever number the bound is, a FOR loop visits what the source visits, but for a value closer than
one to a bound that must not be reached. A loop that is not recognised tests what the source tests, and
does its updates after its body. -/
theorem loops_visit_what_clears_bound (c : Context) (s : State) (span : Span)
    (decl : Option Source.VarDecl) (init update : List Source.Expr) (condition : Option Source.Expr)
    (body : Source.Stmt) :
    (∀ loop, CountingLoop.ofLoop? decl init condition update body = some loop →
      Ensures (Heavy (Source.weight (Source.Stmt.forLoop span decl init condition update body).nodes))
        (stmt (.forLoop span decl init condition update body)) c s fun ps _ =>
          CountsOver ℚ c s.scopes span loop (fun first limit v =>
            Visits loop.step (fun n => loop.comparison.Holds (n : ℚ) limit) first v ∧ loop.Clears (v : ℚ) limit) ps) ∧
    (CountingLoop.ofLoop? decl init condition update body = none →
      ∀ place op left right, condition = some (.binary place op left right) → op.flipped?.isSome →
      Ensures (Heavy (Source.weight (Source.Stmt.forLoop span decl init condition update body).nodes))
        (stmt (.forLoop span decl init condition update body)) c s
        (ComparesWhile c span place op left right
          (nested span do return (← convertBody body) ++ (← exprStatements update)))) := by
  refine ⟨fun loop h => forLoop_countsOver h, ?_⟩
  rintro h place op left right rfl hop
  refine ((stmt_ensures (.forLoop span decl init (some (.binary place op left right)) update body) c s).and ?_).mono
    fun _ _ hp => hp.2
  rw [stmt, h]
  exact generalLoop_ensures hop _ _

theorem loops_visit_what_clears_bound_upTo :
    (∃ ps t, stmt (upToStatement "x") countingContext realState = .ok (ps, t) ∧
      CountsOver ℚ countingContext realState.scopes .unplaced upToVariable (fun first limit v =>
        Visits 1 (fun n => (n : ℚ) < limit) first v ∧ (v : ℚ) + 1 ≤ limit) ps) ∧
    ∃ ps t, stmt (upToStatement "i") countingContext realState = .ok (ps, t) ∧
      ∃ body, ComparesWhile countingContext .unplaced .unplaced .lt (.identifier .unplaced "i")
        upToVariable.bound body ps t := by
  have hcounts {span decl init condition update body}
      (h : CountingLoop.ofLoop? decl init condition update body = some upToVariable)
      (hlight : ¬ Heavy (Source.weight (Source.Stmt.forLoop span decl init condition update body).nodes)) :=
    ((loops_visit_what_clears_bound countingContext realState span decl init update condition body).1
      upToVariable h).exists_ok_of_not hlight
  have hwhile {span decl init place op left right update body}
      (h : CountingLoop.ofLoop? decl init (some (.binary place op left right)) update body = none)
      (hop : op.flipped?.isSome)
      (hlight : ¬ Heavy (Source.weight (Source.Stmt.forLoop span decl init
        (some (.binary place op left right)) update body).nodes)) :
      ∃ ps t, stmt (.forLoop span decl init (some (.binary place op left right)) update body)
        countingContext realState = .ok (ps, t) ∧
        ∃ body, ComparesWhile countingContext span place op left right body ps t := by
    obtain ⟨ps, t, hr, hps⟩ := ((loops_visit_what_clears_bound countingContext realState span decl init
      update _ body).2 h place op left right rfl hop).exists_ok_of_not hlight
    exact ⟨ps, t, hr, _, hps⟩
  exact ⟨hcounts rfl (not_heavy_of_le (by decide)), hwhile rfl rfl (not_heavy_of_le (by decide))⟩

/-- Where `b` is two and a half, the source visits two and the FOR loop does not. -/
theorem upToStatement_misses_last :
    inferScalar ⟨.java, realState.scopes, realState.enumNames⟩ upToVariable.bound = some .real ∧
      ∃ start stop ss t, stmt (upToStatement "x") countingContext realState =
        .ok ([.mk (.for_ "i" start stop none) ss [] (some 1)], t) ∧
      ∃ R : Pseudo.Reading ℚ, (∀ declared line, R.Reads (.identifier "b" declared line) (5 / 2)) ∧
        Visits 1 (fun n => (n : ℚ) < 5 / 2) 0 2 ∧ ¬ R.Counts start stop 1 2 := by
  have hrun := sampleLoops_convert.2
  refine ⟨by decide, ?_⟩
  split at hrun
  · next hr =>
    refine ⟨_, _, _, _, hr, Pseudo.amountReading fun _ => 5 / 2, fun _ _ => by
      simp [Pseudo.amountReading, Pseudo.Expr.amount?], ?_, ?_⟩
    · refine .later ?_ (.later ?_ (.first ?_)) <;> norm_num
    · rintro ⟨first, last, -, hl, hv⟩
      simp [Pseudo.amountReading, Pseudo.Expr.amount?] at hl
      have hlast := hv.within
      subst hl
      norm_num at hlast
  · cases hrun

end Convert

end Blackboard
