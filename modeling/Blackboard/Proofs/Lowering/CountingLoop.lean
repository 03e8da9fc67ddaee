import Blackboard.Proofs.Lowering.Range
import Blackboard.Proofs.Lowering.Statement

/-!
Counting loops. Where a loop runs to the length of a collection its counter is moved up by one. The
first and the last value of a loop inside it are read like other expressions, from counters that are
not moved back.
-/
namespace Blackboard

open Conversion
open Meaning
open Source (Span CountingLoop)

/-! ### The values of a counter -/

namespace Source.CountingLoop

def Visits (w : World) (σ : Store) (loop : CountingLoop) (v : Int) : Prop :=
  ∃ first limit, loop.start.value w σ = some (.int first) ∧ loop.bound.value w σ = some (.int limit) ∧
    Meaning.Visits loop.step (fun i => loop.comparison.apply (.int i) (.int limit) = some (.bool true)) first v

end Source.CountingLoop

namespace Pseudo

def stepValue (w : World) (σ : Store) : Option Expr → Option Meaning.Value
  | none => some (.int 1)
  | some e => e.value w σ

def ForVisits (w : World) (σ : Store) (start stop : Expr) (step : Option Expr) (v : Int) : Prop :=
  ∃ first last k, start.value w σ = some (.int first) ∧ stop.value w σ = some (.int last) ∧
    stepValue w σ step = some (.int k) ∧
    Meaning.Visits k (fun i => if 0 < k then i ≤ last else last ≤ i) first v

end Pseudo

/-! ### Lengths -/

namespace Source

variable {l : Language} {w : World} {σ : Store}
variable {k : Int} {span : Span} {a : String}

variable {e : Expr}

theorem Expr.intLiteral?_value (h : e.intLiteral? = some k) : e.value w σ = some (.int k) := by
  fun_induction intLiteral? e generalizing k with
  | case1 => simp_all [value]
  | case2 _ _ ih =>
    obtain ⟨m, hm, rfl⟩ := Option.map_eq_some_iff.1 h
    simp [value, ih hm, UnaryOp.apply]
  | case3 => cases h

theorem Expr.lengthTarget?_value (h : e.lengthTarget? = some (.identifier span a)) :
    e.value w σ = some (.int (w.size a)) := by
  unfold lengthTarget? at h
  split at h
  · split at h
    · next hname =>
      cases h
      rw [hname, value]
    · cases h
  · split at h
    · next hname =>
      cases h
      rw [value, if_pos hname]
    · cases h
  · cases h

theorem Expr.lengthBound?_value (h : e.lengthBound? = some (.identifier span a, k)) :
    e.value w σ = some (.int (w.size a + k)) := by
  unfold lengthBound? at h
  split at h
  · next left right =>
    simp only [Option.bind_eq_bind, Option.bind_eq_some_iff, Option.some.injEq, Prod.mk.injEq] at h
    obtain ⟨m, hm, t, ht, rfl, rfl⟩ := h
    simp [value, intLiteral?_value hm, lengthTarget?_value ht, BinaryOp.apply]
  · next left right =>
    simp only [Option.bind_eq_bind, Option.bind_eq_some_iff, Option.some.injEq, Prod.mk.injEq] at h
    obtain ⟨m, hm, t, ht, rfl, rfl⟩ := h
    simp [value, intLiteral?_value hm, lengthTarget?_value ht, BinaryOp.apply, Int.sub_eq_add_neg]
  · simp only [Option.map_eq_some_iff, Prod.mk.injEq] at h
    obtain ⟨t, ht, rfl, rfl⟩ := h
    simp [lengthTarget?_value ht]

theorem HasTy.lengthBound?_eq_none {t} (h : HasTy l e t) : e.lengthBound? = none := by
  have htarget : ∀ {e : Expr} {t : Ty}, HasTy l e t → e.lengthTarget? = none := by
    intro e t h
    cases h <;> rfl
  unfold Expr.lengthBound?
  split
  · obtain ⟨_, ⟨_, ha⟩, _⟩ := h.binary_inv
    simp [htarget ha]
  · obtain ⟨_, ⟨_, ha⟩, _⟩ := h.binary_inv
    simp [htarget ha]
  · simp [htarget h]

end Source

/-! ### The ranges of loops -/

namespace Source

/-- Whether an expression is the length of a collection with a name, to which a constant may be
added. -/
def Expr.IsLength (e : Expr) : Prop :=
  ∃ span a k, isVariableName a = true ∧ e.lengthBound? = some (.identifier span a, k)

namespace CountingLoop

/-- Whether a loop counts from one whole number to another, where its far end may be a length. -/
structure IsNumeric (l : Language) (loop : CountingLoop) : Prop where
  counter : Pseudo.Scalar.ofText (Convert.counterType l loop.type).text ≠ .string
  start : HasTy l loop.start .int ∨ loop.ascending = false ∧ loop.start.IsLength
  bound : HasTy l loop.bound .int ∨ loop.ascending = true ∧ loop.bound.IsLength

theorem apply_iff_holds {loop : CountingLoop} (h : leadsOn loop.step loop.comparison = true) (limit i : Int) :
    loop.comparison.apply (.int i) (.int limit) = some (.bool true) ↔ loop.comparison.Holds i limit := by
  unfold leadsOn at h
  cases hop : loop.comparison <;> simp [hop, BinaryOp.apply, BinaryOp.Holds] at h ⊢

end CountingLoop

end Source

namespace Convert

variable {fault : Prop} {c : Context} {s : State}
variable {span : Span} {loop : CountingLoop} {start : Pseudo.Expr} {body : Source.Stmt}

theorem lengthOf_value (hz : c.zeroBased = false) {a} (ha : Source.isVariableName a = true) :
    Ensures True (lengthOf (.identifier span a)) c s fun e t => Keeps s t ∧
      ∀ w σ, e.value w σ = some (.int (w.size a)) := by
  rw [lengthOf, Ensures.bind_iff]
  refine (target_ensures hz ha).mono ?_
  rintro _ t ⟨rfl, d, rfl⟩
  exact ⟨.refl _, fun w σ => by rw [Pseudo.Expr.value]⟩

/-- What the range of a loop is worth: the first value and the last one, both moved up if the loop
is. -/
structure RangeValue (w : World) (σ : Store) (loop : CountingLoop) (r : Range) : Prop where
  shifted : r.oneBased = loop.isShifted
  values : ∃ first limit, loop.start.value w σ = some (.int first) ∧ loop.bound.value w σ = some (.int limit) ∧
    r.start.value w σ = some (.int (first + loop.shift)) ∧
    r.stop.value w σ = some (.int (loop.last limit + loop.shift))

theorem EndOf.value {e far a k} (h : EndOf c s.scopes e far a k) (hs : s.scopes.Numeric) (hz : c.zeroBased = false)
    (he : Source.HasTy c.language e .int ∨ far = true ∧ e.IsLength) (w : World) (σ : Store) :
    ∃ n, e.value w σ = some (.int (n + k)) ∧ a.value w σ = some (.int n) := by
  cases h with
  | plain hscopes hnone hrun =>
    have hty := he.resolve_right fun ⟨hfar, _, _, _, _, hk⟩ => nomatch (hnone hfar).symm.trans hk
    have hfaithful := expr_faithful rfl hty _ (hscopes ▸ hs) fun _ _ _ => trivial
    rw [Ensures, hrun] at hfaithful
    obtain ⟨_, hv, ⟨n⟩⟩ := hty.exists_value (w := w) (σ := σ)
    exact ⟨n, by rw [hv, Int.add_zero], by rw [hfaithful.2, asRead_of_not_zeroBased hz, hv]⟩
  | @length s' _ _ _ _ _ hk hrun =>
    rcases he with hty | ⟨-, span, x, j, hx, hj⟩
    · rw [hty.lengthBound?_eq_none] at hk
      cases hk
    · rw [hj] at hk
      cases hk
      have hlength : Ensures True (lengthOf (.identifier span x)) c s' _ := lengthOf_value hz hx
      rw [Ensures, hrun] at hlength
      exact ⟨w.size x, Source.Expr.lengthBound?_value hj, hlength.2 w σ⟩

theorem Spans.value {r} (h : Spans c s.scopes loop r) (hs : s.scopes.Numeric)
    (hz : c.zeroBased = false) (hloop : loop.IsNumeric c.language) (w : World) (σ : Store) :
    RangeValue w σ loop r := by
  obtain ⟨a, i, b, j, ha, hb, hstart, hstop⟩ := h.ends
  have hfar := hloop.start.imp_right fun h => show (!loop.ascending) = true ∧ _ from ⟨by simp [h.1], h.2⟩
  obtain ⟨m, hfirst, hm⟩ := ha.value hs hz hfar w σ
  obtain ⟨n, hlimit, hn⟩ := hb.value hs hz hloop.bound w σ
  have hlast : loop.last (n + j) = n + loop.last j := by
    unfold CountingLoop.last
    split <;> omega
  refine ⟨h.shifted, m + i, n + j, hfirst, hlimit, ?_, ?_⟩
  · rw [Int.add_assoc]
    exact hstart Int (Pseudo.valueReading w σ) m hm
  · rw [hlast, Int.add_assoc]
    exact hstop Int (Pseudo.valueReading w σ) n hn

/-! ### Counting loops -/

def convertBody (p : Source.Stmt) : Convert (List Pseudo.Stmt) :=
  if isBlock p then inner p else statement p.kind p.span (stmt p)

/-- What a counting loop is converted to. The FOR loop counts as the loop does, moved up if the loop
is; the body is converted where the counter is marked as moved up, and reads it as it is. -/
structure Counted (c : Context) (s : State) (loop : CountingLoop) (body : Source.Stmt)
    (start stop : Pseudo.Expr) (step : Option Pseudo.Expr) (ss : List Pseudo.Stmt) (t : State) :
    Prop where
  visits : ∀ w σ v, Pseudo.ForVisits w σ start stop step (v + loop.shift) ↔ loop.Visits w σ v
  counter : s.scopes.depth < c.limit → ∃ u u', u.scopes.isOneBased loop.name = loop.isShifted ∧
    convertBody body { c with enclosing := some .loop } u = .ok (ss, u')
  runs : Shallow t.diagnostics → ∀ w σ τ, Pseudo.Runs w ss σ τ ↔ Source.Runs w [body] σ τ

theorem visits_iff {w : World} {σ : Store} {r : Range} {step : Option Pseudo.Expr}
    (hop : CountingLoop.leadsOn loop.step loop.comparison = true) (hr : RangeValue w σ loop r)
    (hstep : Pseudo.stepValue w σ step = some (.int loop.step)) (v : Int) :
    Pseudo.ForVisits w σ r.start r.stop step (v + loop.shift) ↔ loop.Visits w σ v := by
  obtain ⟨first, limit, hfirst, hlimit, hstart, hstop⟩ := hr.values
  have hshift := CountingLoop.visits_range_iff hop (0 : Int) first limit v
  simp only [Int.cast_id, Int.zero_add] at hshift
  rw [and_iff_left_of_imp CountingLoop.clears_of_visits] at hshift
  simp only [← CountingLoop.apply_iff_holds hop] at hshift
  constructor
  · rintro ⟨_, _, _, hf, hl, hk, hv⟩
    rw [hstart] at hf
    rw [hstop] at hl
    rw [hstep] at hk
    cases hf
    cases hl
    cases hk
    exact ⟨first, limit, hfirst, hlimit, hshift.1 hv⟩
  · rintro ⟨_, _, hf, hl, hv⟩
    rw [hfirst] at hf
    rw [hlimit] at hl
    cases hf
    cases hl
    exact ⟨_, _, _, hstart, hstop, hstep, hshift.2 hv⟩

theorem bodyOf_counted {v} (hz : c.zeroBased = false) (hs : s.scopes.AllNumeric)
    (hv : v.IsNumeric) (hbody : Source.Structured c.language body) :
    Ensures True (bodyOf body (stmt body) (inner body) (declareVariable v)) c s fun ss t =>
      (s.scopes.depth < c.limit → ∃ u u', u.scopes.isOneBased v.name = v.oneBased ∧
        convertBody body c u = .ok (ss, u')) ∧
      (Shallow t.diagnostics → ∀ w σ τ, Pseudo.Runs w ss σ τ ↔ Source.Runs w [body] σ τ) := by
  have hlowers : Lowers True c.language (convertBody body) fun w => Source.Runs w [body] :=
    (Structured.lowers hbody fun _ _ _ => trivial).1.choose
  change Ensures True (nested body.span (do declareVariable v; convertBody body)) c s _
  simp only [nested, Ensures.bind_iff, Ensures.inScope_iff, Ensures.declareVariable_iff]
  split
  · next hdeep =>
    refine ⟨fun h => absurd h (by omega), fun hd => ?_⟩
    exact absurd rfl (hd (.at_ body.span .warning (.nestingTooDeep c.limit)) (by simp))
  · refine (hlowers c _ rfl hz ((hs.enter .block).declareVariable hv)).and_run.mono ?_
    rintro ss t ⟨ht, hrun⟩
    exact ⟨fun _ => ⟨_, t, s.scopes.isOneBased_declareVariable .block v, hrun⟩, ht.runs⟩

theorem countingLoop_counted (hz : c.zeroBased = false) (hs : s.scopes.AllNumeric)
    (hop : CountingLoop.leadsOn loop.step loop.comparison = true)
    (hloop : loop.IsNumeric c.language) (hbody : Source.Structured c.language body) :
    Ensures True (countingLoop span loop (bodyOf body (stmt body) (inner body))) c s fun ps t =>
      ∃ start stop step ss, ps = [.mk (.for_ loop.name start stop step) ss [] (some span.line)] ∧
        Counted c s loop body start stop step ss t := by
  refine (countingLoop_ensures hop span _).mono ?_
  rintro _ t ⟨r, u, ss, hr, hu, hrun, rfl⟩
  have hcounted := bodyOf_counted (c := { c with enclosing := some .loop }) (s := u)
    (v := { name := loop.name, type := (counterType c.language loop.type).text, oneBased := r.oneBased })
    hz (hu.scopes ▸ hs) hloop.counter hbody
  rw [Ensures, hrun] at hcounted
  refine ⟨_, _, _, ss, rfl, fun w σ => visits_iff hop (hr.value hs.numeric hz hloop w σ) ?_, ?_, hcounted.2⟩
  · split
    · next hstep => rw [Pseudo.stepValue, hstep]
    · rw [Pseudo.stepValue, Pseudo.Expr.number, Pseudo.Expr.value]
  · rw [← hu.scopes, ← hr.shifted]
    exact hcounted.1

/-- Outside positions, an expression has the value that the source gives it where the counters that
count from one are one higher: the value of the source if it mentions none of them. The same holds of
the items that are written out. A position is adjusted, so it is one more than the position of the
source. A counting loop visits the values that the source visits where the counters are one higher,
moved up by one if the loop itself is; its body is converted where its own counter is marked so, and
does what the body does in the source. -/
theorem shifted_counters_read_as_held (c : Context) (s : State) (hz : c.zeroBased = false)
    (hs : s.scopes.AllNumeric) :
    (∀ e t, Source.HasTy c.language e t →
      Ensures (∃ n ∈ e.nodes, n.isUnwritable = true) (expr e) c s fun a _ => ∀ w σ,
        a.value w (s.scopes.raised σ) = e.value w (s.scopes.raised σ) ∧
        ((∀ x, e.mentions x = true → s.scopes.isOneBased x = false) → a.value w (s.scopes.raised σ) = e.value w σ)) ∧
    (∀ es, (∀ e ∈ es, ∃ t, Source.HasTy c.language e t) →
      Ensures (∃ n ∈ Source.exprNodes es, n.isUnwritable = true) (allOutputItems es) c s fun as _ => ∀ w σ,
          Pseudo.values w (s.scopes.raised σ) as = Source.values w (s.scopes.raised σ) es) ∧
    (∀ e, Source.HasTy c.language e .int →
      Ensures (Heavy (Source.weight e.nodes + 1)) (indexValue e (expr e)) c s fun a _ => ∀ w σ n,
        e.value w σ = some (.int n) → a.value w (s.scopes.raised σ) = some (.int (n + 1))) ∧
    (∀ span decl init condition update body loop, CountingLoop.ofLoop? decl init condition update body = some loop →
      loop.IsNumeric c.language → Source.Structured c.language body →
      Ensures (Heavy (Source.weight (Source.Stmt.forLoop span decl init condition update body).nodes))
        (stmt (.forLoop span decl init condition update body)) c s fun ps t =>
          ∃ start stop step ss, ps = [.mk (.for_ loop.name start stop step) ss [] (some span.line)] ∧
            Counted c s loop body start stop step ss t) := by
  refine ⟨?_, ?_, ?_, ?_⟩
  · intro e t h
    refine (expr_faithful rfl h s hs.numeric fun n hn hu => ⟨n, hn, hu⟩).mono fun a _ ha w σ => ?_
    have hvalue : a.value w (s.scopes.raised σ) = e.value w (s.scopes.raised σ) := by
      rw [ha.2, asRead_of_not_zeroBased hz]
    refine ⟨hvalue, fun hx => hvalue.trans (e.value_congr fun x hm => ?_)⟩
    simp [Scopes.raised, hx x hm]
  · intro es h
    exact (allOutputItems_faithful hz h (fun n hn hu => ⟨n, hn, hu⟩) hs.numeric).mono fun as _ has w σ => has w _
  · intro e h
    exact ((indexValue_ensures e c s).and (indexValue_value hs.numeric hz h)).mono fun _ _ ha => ha.2
  · intro span decl init condition update body loop hloop hnumeric hbody
    refine ((stmt_ensures (.forLoop span decl init condition update body) c s).and ?_).mono fun _ _ hp => hp.2
    rw [stmt, hloop]
    exact countingLoop_counted hz hs (CountingLoop.ofLoop?_eq_some_iff.1 hloop).2.2.2.2.1 hnumeric hbody

def countingContext : Context := { language := .java, limit := 200 }

def countingState : State where
  scopes := ({} : Scopes).declareVariable { name := "i", type := "INTEGER", oneBased := true }

theorem countingState_allNumeric : countingState.scopes.AllNumeric := by
  have hvariable : Variable.IsNumeric { name := "i", type := "INTEGER", oneBased := true } := by
    unfold Variable.IsNumeric
    decide
  exact Scopes.AllNumeric.start.declareVariable hvariable

open Source in
def nextPosition : Expr :=
  .binary .unplaced .add (.identifier .unplaced "i") (.number .unplaced (.int 1) "1")

open Source in
def innerLoop : CountingLoop where
  name := "j"
  type := none
  start := nextPosition
  comparison := .lt
  bound := .member .unplaced (.identifier .unplaced "a") "length" false
  step := 1

open Source in
def innerStatement : Stmt :=
  let j := Expr.identifier .unplaced "j"
  .forLoop .unplaced none [.assignment .unplaced .set j innerLoop.start]
    (some (.binary .unplaced .lt j innerLoop.bound)) [.update .unplaced .increment false j]
    (.expression .unplaced (.assignment .unplaced .set (.identifier .unplaced "x") j))

theorem nextPosition_value (w : World) (σ : Store) :
    nextPosition.value w (countingState.scopes.raised σ) = some (.int (σ "i" + 2)) := by
  have hi : countingState.scopes.isOneBased "i" = true := by decide
  simp only [nextPosition, Source.Expr.value, Source.BinaryOp.apply, Scopes.raised, hi, if_true, Option.bind_some]
  congr 2
  omega

theorem shifted_counters_read_as_held_sample :
    countingState.scopes.AllNumeric ∧ countingState.scopes.isOneBased "i" = true ∧
      (∃ a t, expr nextPosition countingContext countingState = .ok (a, t) ∧
        ∀ w σ, a.value w (countingState.scopes.raised σ) = some (.int (σ "i" + 2))) ∧
      ∃ start stop step ss t, stmt innerStatement countingContext countingState =
          .ok ([.mk (.for_ "j" start stop step) ss [] (some 1)], t) ∧
        ∀ w σ v, Pseudo.ForVisits w (countingState.scopes.raised σ) start stop step (v + 1) ↔
          innerLoop.Visits w (countingState.scopes.raised σ) v := by
  have hposition : Source.HasTy .java nextPosition .int :=
    .arithmetic rfl (.identifier rfl) .number
  obtain ⟨hexpr, -, -, hloop⟩ := shifted_counters_read_as_held countingContext countingState
    rfl countingState_allNumeric
  refine ⟨countingState_allNumeric, by decide, ⟨_, _, rfl, fun w σ => ?_⟩, ?_⟩
  · rw [← nextPosition_value]
    exact (hexpr nextPosition .int hposition w σ).1
  · have hnumeric : innerLoop.IsNumeric .java :=
      ⟨by decide, .inl hposition, .inr ⟨rfl, .unplaced, "a", 0, rfl, rfl⟩⟩
    -- what a loop is converted to if it is: the steps of the conversion are run by the kernel only
    have hresult : ∀ span decl init condition update body loop,
        CountingLoop.ofLoop? decl init condition update body = some loop →
        loop.IsNumeric .java → Source.Structured .java body → ∀ r,
        stmt (.forLoop span decl init condition update body) countingContext countingState = .ok r →
        ∃ start stop step ss, r.1 = [.mk (.for_ loop.name start stop step) ss [] (some span.line)] ∧
          Counted countingContext countingState loop body start stop step ss r.2 := by
      intro span decl init condition update body loop hof hnumeric hbody r hr
      have h := hloop span decl init condition update body loop hof hnumeric hbody
      unfold Ensures at h
      rw [hr] at h
      exact h
    have hok : (stmt innerStatement countingContext countingState).toOption.any (fun _ => true) = true := by
      decide +kernel
    obtain ⟨r, hr, -⟩ := exists_ok_of_any hok
    obtain ⟨start, stop, step, ss, hps, hcounted⟩ := hresult .unplaced none _ _ _ _ innerLoop rfl
      hnumeric (.assignment (.set rfl (.identifier rfl))) r hr
    refine ⟨start, stop, step, ss, r.2, ?_, fun w σ v => hcounted.visits w _ v⟩
    exact hr.trans (congrArg (fun ps => Except.ok (ps, r.2)) hps)

end Convert

namespace Conversion

open Source in
def positionsProgram : Program :=
  let place := Span.unplaced
  let i := Expr.identifier place "i"
  { language := .java, span := place, structuralErrors := []
    body := [.forLoop place (some {
        span := place, type := some { span := place, name := "int" }
        declarators := [{ span := place, name := "i", init := some (.number place (.int 0) "0") }] })
      [] (some (.binary place .lt i (.member place (.identifier place "a") "length" false)))
      [.update place .increment false i]
      (.block ⟨place, [.expression place (.assignment place .set (.identifier place "x") i)]⟩)] }

def assignedInLoop? : List Pseudo.Stmt → Option (Pseudo.Expr × Pseudo.Expr)
  | [.mk (.for_ "i" start _ none) [.mk (.assign _ value) _ _ _] _ _] => some (start, value)
  | _ => none

def isOneAndCounter : Option (Pseudo.Expr × Pseudo.Expr) → Bool
  | some (.literal _ (some (.int 1)) _, .identifier "i" _ _) => true
  | _ => false

/-- Where the source assigns zero first, the pseudocode assigns one. -/
theorem run_positionsProgram_off_by_one : ∃ r start value, run 200 positionsProgram = .ok r ∧
      assignedInLoop? r.body = some (start, value) ∧ ∀ w σ, start.value w σ = some (.int 1) ∧
        value.value w (σ.set "i" (σ "i" + 1)) ≠ (Source.Expr.identifier .unplaced "i").value w σ := by
  have hok : (run 200 positionsProgram).toOption.any (isOneAndCounter <| assignedInLoop? ·.body) = true := by
    decide +kernel
  obtain ⟨r, hr, hrun⟩ := Convert.exists_ok_of_any hok
  unfold isOneAndCounter at hrun
  split at hrun
  · next text line declared place heq =>
    refine ⟨r, _, _, hr, heq, fun w σ => ⟨by rw [Pseudo.Expr.value], ?_⟩⟩
    simp only [Pseudo.Expr.value, Source.Expr.value, Store.set, if_true, ne_eq, Option.some.injEq, Value.int.injEq]
    omega
  · cases hrun

end Conversion

end Blackboard
