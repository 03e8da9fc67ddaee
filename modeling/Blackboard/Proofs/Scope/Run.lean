import Blackboard.Proofs.Scope.Chain

/-!
What a conversion does to its scopes: it declares in the current scope, and it enters scopes and leaves
them again, never below a given depth. Whatever is true of such a run is true of every conversion.
-/
namespace Blackboard.Scopes

open List

/-- A run of steps, in which scopes nest no deeper than `limit`. A scope that is entered is left again. -/
inductive Run (limit : Nat) : Scopes → Scopes → Prop where
  | refl (s : Scopes) : Run limit s s
  | declareVariable {s t : Scopes} (h : Run limit s t) (v : Variable) :
    Run limit s (t.declareVariable v)
  | declareCallable {s t : Scopes} (h : Run limit s t) (p : Procedure) :
    Run limit s (t.declareCallable p)
  | inside {s t u : Scopes} (h : Run limit s t) (kind : ScopeKind) (depth : t.depth < limit)
    (inner : Run limit (t.enter kind) u) : Run limit s { u with current := t.current }

namespace Run

variable {limit : Nat} {s t u : Scopes}

theorem trans (h : Run limit s t) (h' : Run limit t u) : Run limit s u := by
  induction h' with
  | refl => exact h
  | declareVariable _ v ih => exact (ih h).declareVariable v
  | declareCallable _ p ih => exact (ih h).declareCallable p
  | inside _ kind hdepth hinner ih _ => exact (ih h).inside kind hdepth hinner

theorem current_eq (h : Run limit s t) : t.current = s.current := by
  induction h with
  | refl => rfl
  | declareVariable _ _ ih => exact ih
  | declareCallable _ _ ih => exact ih
  | inside _ _ _ _ ih _ => exact ih

theorem diagnostics_eq (h : Run limit s t) : t.diagnostics = s.diagnostics := by
  induction h with
  | refl => rfl
  | declareVariable _ _ ih => exact ih
  | declareCallable _ _ ih => exact ih
  | inside _ _ _ _ ih ihinner => exact ihinner.trans ih

theorem length_le (h : Run limit s t) : s.arena.length ≤ t.arena.length := by
  induction h with
  | refl => exact Nat.le_refl _
  | declareVariable _ v ih => simpa [Scopes.declareVariable, modifyCurrent] using ih
  | declareCallable _ p ih => simpa [Scopes.declareCallable, modifyCurrent] using ih
  | inside _ kind _ _ ih ihinner =>
    simp only [enter, length_append, length_singleton] at ihinner
    exact Nat.le_trans ih (Nat.le_of_succ_le ihinner)

theorem getElem?_modifyCurrent (s : Scopes) (f : Scope → Scope) {i} (h : i ≠ s.current) :
    (s.modifyCurrent f).arena[i]? = s.arena[i]? := by
  have hne : s.current ≠ i := Ne.symm h
  simp [modifyCurrent, hne]

theorem getElem?_eq (h : Run limit s t) {i} (hi : i < s.arena.length) (hne : i ≠ s.current) :
    t.arena[i]? = s.arena[i]? := by
  induction h with
  | refl => rfl
  | declareVariable h v ih =>
    rw [← ih hi hne]
    exact getElem?_modifyCurrent _ _ (by rw [h.current_eq]; exact hne)
  | declareCallable h p ih =>
    rw [← ih hi hne]
    exact getElem?_modifyCurrent _ _ (by rw [h.current_eq]; exact hne)
  | @inside s t u h kind _ hinner ih ihinner =>
    -- the scope that is entered is a new one, so inside it every old scope is another one
    have hold : i < t.arena.length := Nat.lt_of_lt_of_le hi h.length_le
    have hentered : u.arena[i]? = (t.enter kind).arena[i]? :=
      ihinner (by simp only [enter, length_append]; omega) (by simp only [enter]; omega)
    rw [← ih hi hne]
    rw [hentered]
    exact getElem?_append_left hold

theorem evolves (h : Run limit s t) (hs : s.Sound) : Evolves s t := by
  induction h with
  | refl => exact .refl hs
  | declareVariable _ v ih => exact (ih hs).trans (.declareVariable (ih hs).sound v)
  | declareCallable _ p ih => exact (ih hs).trans (.declareCallable (ih hs).sound p)
  | inside _ kind _ _ ih ihinner =>
    have hsound := (ih hs).sound
    exact (ih hs).trans ((ihinner (hsound.enter kind)).leave hsound)

end Run

end Blackboard.Scopes
