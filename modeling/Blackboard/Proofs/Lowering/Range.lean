import Mathlib.Tactic.Linarith
import Blackboard.Proofs.Lowering.Counter
import Blackboard.Proofs.Steps.Run

/-!
The ranges of counting loops. The ends of a range are the ends of the loop, converted, with constants
added; the counter of the range takes the values that the loop says, moved up by one if the loop is.
-/
namespace Blackboard

open Conversion
open Meaning
open Source (Span CountingLoop)

/-! ### The values of a counter -/

namespace Meaning

/-- The values `v` of a counter that starts at `i` and goes on by `step` as long as `within` holds. -/
inductive Visits (step : Int) (within : Int → Prop) : Int → Int → Prop where
  | first {i : Int} : within i → Visits step within i i
  | later {i v : Int} : within i → Visits step within (i + step) v → Visits step within i v

theorem Visits.shift {step d p q} (h : ∀ i, p i → q (i + d)) {i v}
    (hv : Visits step p i v) : Visits step q (i + d) (v + d) := by
  induction hv with
  | first hi => exact .first (h _ hi)
  | later hi _ ih =>
    refine .later (h _ hi) ?_
    rwa [Int.add_right_comm] at ih

theorem Visits.within {step p i v} (h : Visits step p i v) : p v := by
  induction h with
  | first hi => exact hi
  | later _ _ ih => exact ih

theorem visits_shift_iff {step d p q} (h : ∀ i, p i ↔ q (i + d)) {i v} :
    Visits step q (i + d) (v + d) ↔ Visits step p i v := by
  constructor
  · intro hv
    have hback : ∀ j, q j → p (j + -d) := fun j hj =>
      (h _).2 (by rwa [Int.neg_add_cancel_right])
    simpa using hv.shift hback
  · exact Visits.shift fun i => (h i).1

theorem visits_and_iff {step : Int} {p q : Int → Prop} (hq : ∀ i, q (i + step) → q i) {i v : Int} :
    Visits step (fun i => p i ∧ q i) i v ↔ Visits step p i v ∧ q v := by
  constructor
  · intro h
    induction h with
    | first hi => exact ⟨.first hi.1, hi.2⟩
    | later hi _ ih => exact ⟨.later hi.1 ih.1, ih.2⟩
  · rintro ⟨h, hv⟩
    have hall : q i ∧ Visits step (fun i => p i ∧ q i) i v := by
      induction h with
      | first hi => exact ⟨hv, .first ⟨hi, hv⟩⟩
      | later hi _ ih => exact ⟨hq _ (ih hv).1, .later ⟨hi, hq _ (ih hv).1⟩ (ih hv).2⟩
    exact hall.2

end Meaning

namespace Source

def BinaryOp.Holds {K : Type} [LT K] [LE K] : BinaryOp → K → K → Prop
  | .lt, x, y => x < y
  | .le, x, y => x ≤ y
  | .gt, x, y => y < x
  | .ge, x, y => y ≤ x
  | _, _, _ => False

namespace CountingLoop

/-- Whether a loop is moved up by one: its far end is the length of a collection. -/
def isShifted (loop : CountingLoop) : Bool :=
  (if loop.ascending then loop.bound else loop.start).lengthBound?.isSome

def shift (loop : CountingLoop) : Int := if loop.isShifted then 1 else 0

def last (loop : CountingLoop) (limit : Int) : Int :=
  match loop.comparison with
  | .lt => limit - 1
  | .gt => limit + 1
  | _ => limit

variable {decl : Option VarDecl} {init update : List Expr} {condition : Option Expr} {body : Stmt}
    {loop : CountingLoop}

theorem ofLoop?_eq_some_iff : ofLoop? decl init condition update body = some loop ↔
    initial? decl init = some (loop.name, loop.type, loop.start) ∧
    condition.bind (comparison? loop.name) = some (loop.comparison, loop.bound) ∧
    loop.bound.mentions loop.name = false ∧ (∃ e, update = [e] ∧ e.step? loop.name = some loop.step) ∧
    leadsOn loop.step loop.comparison = true ∧ body.assigns loop.name = false := by
  constructor
  · intro h
    simp only [ofLoop?, Option.bind_eq_bind, Option.bind_eq_some_iff] at h
    obtain ⟨⟨x, t, a⟩, hinitial, ⟨op, b⟩, hcondition, h⟩ := h
    split at h
    · cases h
    next hb =>
    split at h
    · next e =>
      obtain ⟨k, hk, h⟩ := Option.bind_eq_some_iff.1 h
      split at h
      · next hon =>
        cases h
        rw [Bool.and_eq_true_iff, Bool.not_eq_true'] at hon
        exact ⟨hinitial, Option.bind_eq_some_iff.2 hcondition, by simpa [Expr.mentions] using hb,
          ⟨e, rfl, hk⟩, hon⟩
      · cases h
    · cases h
  · rintro ⟨hinitial, hcondition, hb, ⟨e, rfl, hk⟩, hon, hbody⟩
    unfold Expr.mentions at hb
    simpa [ofLoop?, hinitial, hcondition, hk, hon, hbody] using hb

section

variable {K : Type} [CommRing K] [LinearOrder K] [IsStrictOrderedRing K]

/-- Whether a value keeps a distance of one from a bound that it must not reach. -/
def Clears (loop : CountingLoop) (n limit : K) : Prop :=
  match loop.comparison with
  | .lt => n + 1 ≤ limit
  | .gt => limit + 1 ≤ n
  | _ => True

theorem within_last_iff (h : leadsOn loop.step loop.comparison = true) (n y : K) (j : Int) :
    (if 0 < loop.step then n ≤ y + loop.last j else y + loop.last j ≤ n) ↔
      loop.comparison.Holds n (y + j) ∧ loop.Clears n (y + j) := by
  unfold leadsOn at h
  unfold last Clears
  split at h
  · next hstep =>
    rw [if_pos hstep]
    cases hop : loop.comparison <;> simp [hop, BinaryOp.Holds] at h ⊢
    constructor
    · intro hn
      constructor <;> linarith
    · intro hn
      linarith
  · next hstep =>
    rw [if_neg hstep]
    cases hop : loop.comparison <;> simp [hop, BinaryOp.Holds] at h ⊢
    constructor
    · intro hn
      constructor <;> linarith
    · intro hn
      linarith

theorem Clears.earlier (h : leadsOn loop.step loop.comparison = true) {n limit}
    (hn : loop.Clears ((n + loop.step : Int) : K) limit) : loop.Clears (n : K) limit := by
  unfold leadsOn at h
  unfold Clears at hn ⊢
  split at h
  · next hstep =>
    have hpos : (0 : K) < loop.step := Int.cast_pos.2 hstep
    cases hop : loop.comparison <;> simp [hop] at h hn ⊢
    linarith
  · next hstep =>
    have hneg : (loop.step : K) ≤ 0 := Int.cast_nonpos.2 (not_lt.1 hstep)
    cases hop : loop.comparison <;> simp [hop] at h hn ⊢
    linarith

theorem visits_range_iff (h : leadsOn loop.step loop.comparison = true) (y : K) (i j v : Int) :
    Visits loop.step (fun m => if 0 < loop.step then (m : K) ≤ y + ((loop.last j + loop.shift : Int) : K)
        else y + ((loop.last j + loop.shift : Int) : K) ≤ m) (i + loop.shift) (v + loop.shift) ↔
      Visits loop.step (fun n => loop.comparison.Holds (n : K) (y + j)) i v ∧ loop.Clears (v : K) (y + j) := by
  rw [← visits_and_iff (q := fun n => loop.Clears (n : K) (y + j)) fun _ => .earlier h]
  refine visits_shift_iff fun n => ?_
  rw [← within_last_iff h]
  push_cast
  rw [← add_assoc, add_le_add_iff_right, add_le_add_iff_right]

end

theorem clears_of_visits {limit i v}
    (h : Visits loop.step (fun n => loop.comparison.Holds n limit) i v) : loop.Clears v limit := by
  have hv := h.within
  unfold Clears
  cases hop : loop.comparison <;> simp [hop, BinaryOp.Holds] at hv ⊢ <;> omega

end CountingLoop

end Source

namespace Convert

open Ensures

variable {c : Context} {s : State} {loop : CountingLoop} {a b : Pseudo.Expr} {k : Int}

theorem addOffset_exceeds (h : a.Exceeds k b) (j : Int) :
    Ensures True (addOffset b j) c s fun e t => t = s ∧ a.Exceeds (k + j) e := by
  refine written_ensures.mono ?_
  rintro _ t ⟨rfl, rfl⟩
  exact ⟨rfl, h.addOffset j⟩

theorem lastValue_exceeds (h : a.Exceeds k b) (strict : Bool) (j : Int) :
    Ensures True (lastValue b strict j) c s fun e t => t = s ∧ a.Exceeds (if strict then k + j else k) e := by
  unfold lastValue
  split
  · exact addOffset_exceeds h j
  · exact ⟨rfl, h⟩

/-- What an end of a loop is converted to, and the constant that is added to it. The far end may be the
length of a collection: then the constant is taken from it. -/
inductive EndOf (c : Context) (scopes : Scopes) (e : Source.Expr) : Bool → Pseudo.Expr → Int → Prop
  | plain {far : Bool} {s t : State} {a : Pseudo.Expr} (hs : s.scopes = scopes)
      (h : far → e.lengthBound? = none) (hrun : expr e c s = .ok (a, t)) : EndOf c scopes e far a 0
  | length {s t : State} {a : Pseudo.Expr} {collection : Source.Expr} {k : Int}
      (hs : s.scopes = scopes) (h : e.lengthBound? = some (collection, k))
      (hrun : lengthOf collection c s = .ok (a, t)) : EndOf c scopes e true a k

theorem expr_keeps (e : Source.Expr) (c : Context) (s : State) : Ensures True (expr e) c s fun _ t => Keeps s t :=
  ((expr_ensures e c s).weaken fun _ => trivial).mono fun _ _ h => ⟨h.1.scopes, h.2⟩

theorem lengthOf_keeps (e : Source.Expr) (c : Context) (s : State) :
    Ensures True (lengthOf e) c s fun _ t => Keeps s t := by
  rw [lengthOf, bind_iff]
  exact (expr_keeps e c s).mono fun _ _ h => h

/-- What a range is made of: its ends are those of the loop with constants added. -/
structure Spans (c : Context) (scopes : Scopes) (loop : CountingLoop) (r : Range) : Prop where
  shifted : r.oneBased = loop.isShifted
  ends : ∃ a i b j, EndOf c scopes loop.start (!loop.ascending) a i ∧
    EndOf c scopes loop.bound loop.ascending b j ∧ a.Exceeds (i + loop.shift) r.start ∧
    b.Exceeds (loop.last j + loop.shift) r.stop

section

variable {s₀ : State} (hop : CountingLoop.leadsOn loop.step loop.comparison = true)
    (hs : s.scopes = s₀.scopes) (hstart : expr loop.start c s₀ = .ok (a, s))

include hop hs hstart

theorem ascendingRange_spans (hup : loop.ascending = true) :
    Ensures True (ascendingRange loop a) c s fun r t => Keeps s t ∧ Spans c s₀.scopes loop r := by
  have hlast (n : Int) : (if decide (loop.comparison = .lt) = true then n + -1 else n) = loop.last n := by
    simp only [CountingLoop.ascending, decide_eq_true_eq] at hup
    simp only [CountingLoop.leadsOn, hup, if_true] at hop
    unfold CountingLoop.last
    cases hc : loop.comparison <;> simp [hc] at hop ⊢
    omega
  have hfirst : EndOf c s₀.scopes loop.start (!loop.ascending) a 0 := .plain rfl (by simp [hup]) hstart
  unfold ascendingRange
  split
  · next collection k hk =>
    have hshift : loop.shift = 1 := by simp [CountingLoop.shift, CountingLoop.isShifted, hup, hk]
    simp only [bind_iff]
    refine (lengthOf_keeps collection c s).and_run.mono fun length t ⟨ht, hrun⟩ => ?_
    refine (addOffset_exceeds (.refl length) k).mono ?_
    rintro total _ ⟨rfl, htotal⟩
    refine (lastValue_exceeds htotal _ (-1)).mono ?_
    rintro stop _ ⟨rfl, hstop⟩
    refine (addOffset_exceeds (.refl a) 1).mono ?_
    rintro first _ ⟨rfl, hfirst'⟩
    refine (addOffset_exceeds hstop 1).mono ?_
    rintro last _ ⟨rfl, hlast'⟩
    refine ⟨ht, by simp [CountingLoop.isShifted, hup, hk], a, 0, length, k, hfirst, ?_, ?_, ?_⟩
    · rw [hup]
      exact .length hs hk hrun
    · rwa [hshift]
    · rwa [hlast, Int.zero_add, ← hshift] at hlast'
  · next hnone =>
    have hshift : loop.shift = 0 := by simp [CountingLoop.shift, CountingLoop.isShifted, hup, hnone]
    simp only [bind_iff]
    refine (expr_keeps loop.bound c s).and_run.mono fun b t ⟨ht, hrun⟩ => ?_
    refine (lastValue_exceeds (.refl b) _ (-1)).mono ?_
    rintro stop _ ⟨rfl, hstop⟩
    refine ⟨ht, by simp [CountingLoop.isShifted, hup, hnone], a, 0, b, 0, hfirst,
      .plain hs (fun _ => hnone) hrun, ?_, ?_⟩
    · rw [hshift]
      exact .refl a
    · rwa [hshift, Int.add_zero, ← hlast]

theorem descendingRange_spans (hdown : loop.ascending = false) :
    Ensures True (descendingRange loop a) c s fun r t => Keeps s t ∧ Spans c s₀.scopes loop r := by
  have hlast (n : Int) : (if decide (loop.comparison = .gt) = true then n + 1 else n) = loop.last n := by
    simp only [CountingLoop.ascending, decide_eq_false_iff_not] at hdown
    simp only [CountingLoop.leadsOn, hdown, if_false] at hop
    unfold CountingLoop.last
    cases hc : loop.comparison <;> simp [hc] at hop ⊢
  unfold descendingRange
  rw [bind_iff]
  refine (expr_keeps loop.bound c s).and_run.mono fun b t ⟨ht, hrun⟩ => ?_
  have hbound : EndOf c s₀.scopes loop.bound loop.ascending b 0 := .plain hs (by simp [hdown]) hrun
  rw [bind_iff]
  refine (lastValue_exceeds (.refl b) _ 1).mono ?_
  rintro stop _ ⟨rfl, hstop⟩
  rw [hlast] at hstop
  split
  · next collection k hk =>
    have hshift : loop.shift = 1 := by simp [CountingLoop.shift, CountingLoop.isShifted, hdown, hk]
    simp only [bind_iff]
    refine (lengthOf_keeps collection c _).and_run.mono fun length u ⟨hu, hrun⟩ => ?_
    refine (addOffset_exceeds (.refl length) (k + 1)).mono ?_
    rintro first _ ⟨rfl, hfirst⟩
    refine (addOffset_exceeds hstop 1).mono ?_
    rintro last _ ⟨rfl, hlast'⟩
    refine ⟨ht.trans hu, by simp [CountingLoop.isShifted, hdown, hk], length, k, b, 0, ?_, hbound, ?_, ?_⟩
    · rw [hdown]
      exact .length (ht.scopes.trans hs) hk hrun
    · rwa [hshift, ← Int.zero_add (k + 1)]
    · rwa [hshift]
  · next hnone =>
    have hshift : loop.shift = 0 := by simp [CountingLoop.shift, CountingLoop.isShifted, hdown, hnone]
    refine ⟨ht, by simp [CountingLoop.isShifted, hdown, hnone], a, 0, b, 0,
      .plain rfl (fun _ => hnone) hstart, hbound, ?_, ?_⟩
    · rw [hshift]
      exact .refl a
    · rwa [hshift, Int.add_zero]

end

theorem range_spans (hop : CountingLoop.leadsOn loop.step loop.comparison = true) :
    Ensures True (range loop) c s fun r t => Keeps s t ∧ Spans c s.scopes loop r := by
  unfold range
  rw [bind_iff]
  refine (expr_keeps loop.start c s).and_run.mono fun a t ⟨ht, hstart⟩ => ?_
  split
  · next hup =>
    exact (ascendingRange_spans hop ht.scopes hstart hup).mono fun r u hr => ⟨ht.trans hr.1, hr.2⟩
  · next hdown =>
    exact (descendingRange_spans hop ht.scopes hstart (by simpa using hdown)).mono fun r u hr => ⟨ht.trans hr.1, hr.2⟩

/-- What a counting loop is converted to: a FOR loop over its range, whose body is converted where the
counter is declared. -/
def LoopsOver (c : Context) (s : State) (span : Span) (loop : CountingLoop)
    (body : Convert Unit → Convert (List Pseudo.Stmt)) (ps : List Pseudo.Stmt) (t : State) : Prop :=
  ∃ r u ss, Spans c s.scopes loop r ∧ Keeps s u ∧
    body (declareVariable { name := loop.name, type := (counterType c.language loop.type).text,
                            oneBased := r.oneBased }) { c with enclosing := some .loop } u =
      .ok (ss, t) ∧
    ps = [.mk (.for_ loop.name r.start r.stop
      (if loop.step = 1 then none else some (.number loop.step))) ss [] (some span.line)]

theorem countingLoop_ensures (hop : CountingLoop.leadsOn loop.step loop.comparison = true) (span : Span)
    (body : Convert Unit → Convert (List Pseudo.Stmt)) :
    Ensures True (countingLoop span loop body) c s (LoopsOver c s span loop body) := by
  unfold countingLoop
  rw [bind_iff]
  refine (range_spans hop).mono fun r t ⟨ht, hr⟩ => ?_
  extract_lets rest
  have hrest (u : State) (hu : Keeps s u) : Ensures True (rest ()) c u (LoopsOver c s span loop body) := by
    rw [bind_iff, read_iff, bind_iff, inside]
    refine (run _ _ u).mono fun ss t hrun => ?_
    split
    · next hstep => exact ⟨r, u, ss, hr, hu, hrun, by rw [if_pos hstep]⟩
    · next hstep =>
      rw [bind_iff, map_iff]
      generalize hk : Pseudo.Expr.number loop.step = k
      refine written_ensures.mono ?_
      rintro _ _ ⟨rfl, rfl⟩
      exact ⟨r, u, ss, hr, hu, hrun, by rw [if_neg hstep, hk]⟩
  split
  · rw [bind_iff, inform]
    exact hrest _ ⟨ht.scopes, ht.diagnostics.trans (List.prefix_append _ _)⟩
  · exact hrest t ht

end Convert

end Blackboard
