import Blackboard.Proofs.Conversion.Frame
import Blackboard.Proofs.Lowering.Assignment

/-!
How deeply scopes may nest. No scope ever lies deeper than the limit: one is entered only where the limit
leaves room for it. A program that never reaches the limit is converted in the same way under every larger
one; for that, the two conversions are followed side by side.
-/
namespace Blackboard

open List
open Convert (Ensures stmt StmtStep Shallow stmts)

namespace Scopes

def Within (limit : Nat) (s : Scopes) : Prop :=
  ∀ i < s.arena.length, depth { s with current := i } ≤ limit

theorem length_chainFrom_modify {f} (hf : ∀ x, (f x).parent = x.parent) (arena : List Scope) (j fuel i : Nat) :
    (chainFrom (arena.modify j f) fuel i).length = (chainFrom arena fuel i).length := by
  induction fuel generalizing i with
  | zero => rfl
  | succ fuel ih =>
    cases hi : arena[i]? with
    | none => simp only [chainFrom, getElem?_modify, hi, Option.map_eq_map, Option.map_none]
    | some scope =>
      have hparent : (if j = i then f scope else scope).parent = scope.parent := by
        split
        · exact hf scope
        · rfl
      simp only [chainFrom, getElem?_modify, hi, Option.map_eq_map, Option.map_some, length_cons, hparent]
      cases scope.parent with
      | none => rfl
      | some p => exact congrArg (· + 1) (ih p)

namespace Within

variable {limit : Nat} {s t : Scopes}

theorem start (limit : Nat) : Within limit {} := by
  intro i hi
  cases i with
  | zero => exact Nat.zero_le limit
  | succ i => simp at hi

theorem modifyCurrent {f} (hf : ∀ x, (f x).parent = x.parent) (h : s.Within limit) :
    (s.modifyCurrent f).Within limit := by
  intro i hi
  have hlength : (Scopes.modifyCurrent f s).arena.length = s.arena.length := by
    simp [Scopes.modifyCurrent]
  have hs := h i (by rwa [hlength] at hi)
  unfold depth chain at hs ⊢
  rwa [Scopes.modifyCurrent, length_chainFrom_modify hf]

theorem enter (hsound : s.Sound) (h : s.Within limit) (hroom : s.depth < limit) (kind : ScopeKind) :
    (s.enter kind).Within limit := by
  intro i hi
  simp only [Scopes.enter, length_append, length_singleton] at hi
  by_cases hold : i < s.arena.length
  · have hchain : Scopes.chain { s.enter kind with current := i } = Scopes.chain { s with current := i } :=
      chainFrom_congr hsound.parents (fun j hj => getElem?_append_left (Nat.lt_of_le_of_lt hj hold)) _
    unfold depth
    rw [hchain]
    exact h i hold
  · obtain rfl : i = s.arena.length := by omega
    have hchain := hsound.chain_enter kind
    obtain ⟨scope, around, -, hs, -⟩ := hsound.exists_chain
    unfold depth at hroom ⊢
    rw [show ({ s.enter kind with current := s.arena.length } : Scopes) = s.enter kind from rfl, hchain, hs]
    rw [hs] at hroom
    simp only [length_cons] at hroom ⊢
    omega

theorem run (hrun : Run limit s t) (hsound : s.Sound) (h : s.Within limit) : t.Within limit := by
  induction hrun with
  | refl => exact h
  | declareVariable _ v ih => exact (ih hsound h).modifyCurrent fun _ => rfl
  | declareCallable _ p ih => exact (ih hsound h).modifyCurrent fun _ => rfl
  | inside hrun kind hdepth _ ih ihinner =>
    have hbefore := (hrun.evolves hsound).sound
    exact ihinner (hbefore.enter kind) ((ih hsound h).enter hbefore hdepth kind)

end Within

end Scopes

theorem Diagnostic.Moved.eq_of_stay {d e : Diagnostic} (h : d.Moved .stay e) : d = e := by
  obtain ⟨span, severity, cause, rfl, rfl⟩ := h
  rfl

namespace Conversion

theorem statement_within (s : Source.Stmt) (c : Context) (before : State)
    (hsound : before.scopes.Sound) (hwithin : before.scopes.Within c.limit) :
    Ensures (Heavy (Source.weight s.nodes)) (Convert.statement s.kind s.span (stmt s)) c
      before fun _ after => after.scopes.Sound ∧ after.scopes.Within c.limit := by
  rw [Ensures.statement_iff]
  exact (Convert.stmt_ensures s { c with statement := s.kind } { before with notes := [] }).mono fun _ _ h =>
    ⟨(h.2.scopes.evolves hsound).sound, .run h.2.scopes hsound hwithin⟩

theorem startState_sound (p : Source.Program) : (startState p).scopes.Sound :=
  (((startState_prepared p).scopes 0).evolves Scopes.sound_start).sound

theorem startState_alike (p : Source.Program) : (startState p).Alike (startState p) :=
  ⟨.refl (startState_sound p), rfl, fun _ => rfl, fun _ => rfl⟩

theorem run_eq_of_le {p : Source.Program} {limit larger : Nat} (hle : limit ≤ larger) {r : Result}
    (hrun : run limit p = .ok r) (hshallow : Shallow r.diagnostics) :
    run larger p = .ok r := by
  have hstep : StmtStep (.free p.language (weight p) .stay (fun _ => True) false) (fun _ => True) _ _ (stmts p.body) _ :=
    Convert.stmts_step p.body _ (Nat.le_refl _) fun _ _ => trivial
  have hstays := run_of_ensures ((hstep.frame { language := p.language, limit := limit }
    (startState p) rfl).and_run.and (hstep.agrees { language := p.language, limit := limit }
      { language := p.language, limit := larger } (startState p) (startState p) rfl
      ⟨rfl, rfl, rfl, rfl, rfl, hle, nofun⟩ (startState_alike p).like))
  rw [hrun] at hstays
  obtain ⟨s, ⟨⟨⟨_, hframed⟩, hok⟩, hrelated⟩, hdiagnostics⟩ := hstays
  cases hrelated with
  | inl h =>
    obtain ⟨d, hd, n, hcause⟩ := h.2
    have hmem : d ∈ r.diagnostics := hdiagnostics ▸ mem_append_left _ hd
    exact absurd (congrArg Cause.code hcause) (hshallow d hmem)
  | inr h =>
    obtain ⟨body, t, hlarger, hbody, hagrees⟩ := h.exists_ok
    obtain ⟨ds, es, hs, ht, hmoved⟩ := hagrees.diagnostics
    have hes : ds = es :=
      forall₂_eq_eq_eq ▸ hmoved.imp fun _ _ h => Diagnostic.Moved.eq_of_stay h
    rw [← Pseudo.Stmt.relocateAll_eq_map, Pseudo.Stmt.relocateAll_stay] at hbody
    rw [Source.relocate_stay.2.2.2.1] at hlarger
    have hdiagnostics' : t.diagnostics ++ t.scopes.diagnostics = s.diagnostics ++ s.scopes.diagnostics := by
      rw [hs, ht, hes, hframed.scopes.diagnostics_eq, hagrees.extended.scopes.diagnostics_eq]
    rw [run_eq_ok hlarger, hbody, hdiagnostics', ← run_eq_ok hok, hrun]

/-- A program in which nothing is left out for its depth is converted in the same way, with the same
remarks, where scopes may nest deeper. Under no limit does a scope lie deeper than that limit: not after
any statement, wherever it is converted, nor after the whole program. -/
theorem limit_is_transparent_until_reached : (∀ (p : Source.Program) (limit larger : Nat), limit ≤ larger →
      match run limit p with
      | .ok r => Convert.Shallow r.diagnostics → run larger p = .ok r
      | .error _ => Heavy (weight p)) ∧
    (∀ (s : Source.Stmt) (c : Context) (before : State), before.scopes.Sound → before.scopes.Within c.limit →
      Convert.Ensures (Heavy (Source.weight s.nodes)) (Convert.statement s.kind s.span (Convert.stmt s)) c before
        fun _ after => after.scopes.Sound ∧ after.scopes.Within c.limit) ∧
    ∀ (p : Source.Program) (limit : Nat), Convert.Ensures (Heavy (weight p)) (Convert.stmts p.body)
        { language := p.language, limit := limit } (startState p)
        fun _ after => after.scopes.Within limit := by
  refine ⟨fun p limit larger hle => ?_, statement_within, fun p limit => ?_⟩
  · have hheavy := run_hints limit p
    split
    · next r hr => exact run_eq_of_le hle hr
    · next hr =>
      rw [hr] at hheavy
      exact hheavy
  · exact (stmts_body_ensures limit p).mono fun _ _ h =>
      Scopes.Within.run h.1 Scopes.sound_start (.start limit)

open Source in
def nestedLoops : Program :=
  let place := Span.unplaced
  let forever (body : Stmt) : Stmt := .whileLoop place (.boolean place true) (.block ⟨place, [body]⟩)
  { language := .typescript, span := place, structuralErrors := []
    body := [forever (forever (.breakStmt place none))] }

theorem limit_is_transparent_nestedLoops :
    (∃ r, run 2 nestedLoops = .ok r ∧ Convert.Shallow r.diagnostics ∧ run 200 nestedLoops = .ok r) ∧
    (∃ r, run 1 nestedLoops = .ok r ∧ ¬ Convert.Shallow r.diagnostics) ∧
    ∀ s ∈ nestedLoops.body, Convert.Ensures (Heavy (Source.weight s.nodes))
      (Convert.statement s.kind s.span (Convert.stmt s)) { language := .java, limit := 1 } {}
      fun _ after => after.scopes.Sound ∧ after.scopes.Within 1 := by
  have htwo : (run 2 nestedLoops).toOption.any (fun r => Shallow r.diagnostics) = true := by decide
  have hone : (run 1 nestedLoops).toOption.any (fun r => ¬ Shallow r.diagnostics) = true := by decide
  have h := limit_is_transparent_until_reached.1 nestedLoops 2 200 (by decide)
  refine ⟨?_, ?_, fun s _ => limit_is_transparent_until_reached.2.1 s _ {} Scopes.sound_start (.start 1)⟩
  · obtain ⟨r, hr, hshallow⟩ := Convert.exists_ok_of_any htwo
    rw [hr] at h
    exact ⟨r, hr, of_decide_eq_true hshallow, h (of_decide_eq_true hshallow)⟩
  · obtain ⟨r, hr, hdeep⟩ := Convert.exists_ok_of_any hone
    exact ⟨r, hr, of_decide_eq_true hdeep⟩

end Conversion
end Blackboard
