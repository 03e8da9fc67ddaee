import Blackboard.Proofs.Steps.Run

/-!
Converting a statement disturbs nothing outside its own scope. The conversion of a whole program
therefore ends where it started, in the outermost scope.
-/
namespace Blackboard.Conversion

/-- What holds around a statement is the same before and after it: the current scope, the notes of the
statement around it, all other scopes, and the remarks made so far. -/
structure State.Undisturbed (s t : State) : Prop where
  current : t.scopes.current = s.scopes.current
  notes : t.notes = s.notes
  others : ∀ i < s.scopes.arena.length, i ≠ s.scopes.current → t.scopes.arena[i]? = s.scopes.arena[i]?
  diagnostics : s.diagnostics <+: t.diagnostics

end Conversion

namespace Convert

open Conversion
open Source (weight)

theorem statement_ensures (s : Source.Stmt) (c : Context) (before : State) :
    Ensures (Heavy (weight s.nodes)) (statement s.kind s.span (stmt s)) c before fun _ after =>
      before.Undisturbed after := by
  rw [Ensures.statement_iff]
  refine (stmt_ensures s { c with statement := s.kind } { before with notes := [] }).mono fun ss t ⟨_, ht⟩ => ?_
  exact ⟨ht.scopes.current_eq, rfl, fun i hi hne => ht.scopes.getElem?_eq hi hne, ht.diagnostics_grow⟩

end Convert

namespace Conversion

theorem run_eq_ok {limit p body s}
    (h : Convert.stmts p.body { language := p.language, limit := limit } (startState p) = .ok (body, s)) :
    run limit p = .ok {
      language := p.language, structuralErrors := p.structuralErrors, body := body
      diagnostics := s.diagnostics ++ s.scopes.diagnostics } := by
  rw [run_eq_map, h]
  rfl

theorem stmts_body_ensures (limit : Nat) (p : Source.Program) :
    Convert.Ensures (Heavy (weight p)) (Convert.stmts p.body) { language := p.language, limit := limit }
      (startState p) fun _ t => Scopes.Run limit {} t.scopes ∧ ∀ d ∈ t.diagnostics, d.IsHint := by
  have hstart := startState_prepared p
  refine (Convert.stmts_ensures (fun _ _ => trivial) { language := p.language, limit := limit } (startState p)).mono
    fun ss t ⟨_, ht⟩ => ⟨(hstart.scopes limit).trans ht.scopes, ?_⟩
  obtain ⟨ds, hds, hhints⟩ := ht.diagnostics
  rw [hds, hstart.diagnostics]
  exact hhints

theorem run_hints (limit : Nat) (p : Source.Program) :
    match run limit p with
    | .ok r => ∀ d ∈ r.diagnostics, d.IsHint
    | .error _ => Heavy (weight p) := by
  have h := run_of_ensures (stmts_body_ensures limit p)
  split
  · next r hr =>
    rw [hr] at h
    obtain ⟨s, ⟨hscopes, hhints⟩, hdiagnostics⟩ := h
    rw [hdiagnostics, hscopes.diagnostics_eq, List.append_nil]
    exact hhints
  · next hr =>
    rw [hr] at h
    exact h

theorem ne_unbalancedExit {d : Diagnostic} (h : d.IsHint) : d.cause ≠ .unbalancedExit := by
  intro hcause
  have hof := h.cause
  rw [hcause] at hof
  cases hof

end Conversion

end Blackboard
