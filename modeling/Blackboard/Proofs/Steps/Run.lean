import Blackboard.Proofs.Steps.Statement

/-!
Whole conversions. What their steps give holds for every program, whatever it is asked to keep to: its
result is well formed and every discipline is kept.
-/
namespace Blackboard

namespace Discipline

/-- The discipline that asks for nothing. -/
def free (l : Language) : Discipline where
  language := l
  Visible _ _ := True
  Allows _ := True
  Text _ := True
  joins := True
  deep := True
  Base _ := True
  Size _ := True
  Entry _ _ := True
  Admits _ _ := True
  Owned _ := True
  Form _ := True

instance free_lawful (l : Language) : (free l).Lawful := by
  refine ⟨⟨?_, ?_, ?_, ?_, ?_⟩, ⟨?_, ?_, ?_, ?_, ?_, ?_, ?_, ?_, ?_, ?_, ?_, ?_, ?_, ?_⟩, ⟨?_, ?_, ?_, ?_⟩,
    ⟨?_, ?_, ?_, ?_⟩, ⟨?_, ?_, ?_, ?_, ?_, ?_, ?_⟩, ⟨?_, ?_, ?_, ?_, ?_, ?_, ?_, ?_, ?_⟩⟩ <;>
    intros <;> simp [free, Kind]

end Discipline

namespace Convert

open Conversion
open Source (Relocation weight exprNodes stmtNodes)

variable {N : String → Prop}

abbrev Setting.free (l : Language) (W : Nat) (m : Relocation) (N : String → Prop) (exact : Bool) : Setting :=
  ⟨.free l, W, m, N, exact⟩

/-! ### Expressions -/

theorem expr_ensures (e : Source.Expr) (c : Context) (s : State) :
    Ensures (Heavy (weight e.nodes)) (expr e) c s fun _ t => SameNames s t ∧ s.diagnostics <+: t.diagnostics :=
  have hstep : ExprStep (.free c.language _ .stay (fun _ => True) true) true (fun _ => True) _ _ (expr e) _ _ :=
    expr_step e (Nat.le_refl _)
  (hstep.gives c s rfl).mono fun _ _ h => ⟨h.2.1 rfl, h.2.2.diagnostics_grow⟩

theorem exprs_ensures {es : List Source.Expr} {W : Nat} (h : weight (exprNodes es) ≤ W) (c : Context) (s : State) :
    Ensures (Heavy W) (exprs es) c s fun _ t => s.diagnostics <+: t.diagnostics :=
  have hstep : ExprsStep (.free c.language W .stay (fun _ => True) true) true (fun _ => True) _ es (exprs es) _ :=
    exprs_step es h
  (hstep.gives c s rfl).mono fun _ _ h => h.2.2.diagnostics_grow

theorem indexValue_ensures (e : Source.Expr) (c : Context) (s : State) :
    Ensures (Heavy (weight e.nodes + 1)) (indexValue e (expr e)) c s fun _ _ => True := by
  have hexpr : ExprStep (.free c.language (weight e.nodes + 1) .stay (fun _ => True) true) true (fun _ => True) True _
      (expr e) _ _ := Step.part (expr_step e (Nat.le_succ _)) fun _ _ _ => trivial
  exact ((indexValue_step (e := e) hexpr (Nat.le_refl _)).gives c s rfl).mono fun _ _ _ => trivial

/-- What an expression is converted to depends on the declared names only. -/
theorem expr_congr {e : Source.Expr} {c : Context} {s s' t : State} {a : Pseudo.Expr} (hs : SameNames s s')
    (h : expr e c s = .ok (a, t)) : ∃ t', expr e c s' = .ok (a, t') := by
  have hstep : ExprStep (.free c.language _ .stay (fun _ => True) true) true (fun _ => True) _ _ (expr e) _ _ :=
    expr_step e (Nat.le_refl _)
  have hlike : s.Like true s' :=
    ⟨⟨hs.scopes ▸ .refl _, fun _ => by rw [hs.typeNames], fun _ => by rw [hs.enumNames]⟩, nofun⟩
  have hagrees := hstep.agrees c c s s' rfl (.refl c) hlike
  rw [Ensures, h] at hagrees
  rcases hagrees with hagrees | hagrees
  · exact absurd rfl hagrees.1
  · obtain ⟨b, t', hb, rfl, -⟩ := hagrees.exists_ok
    rw [Source.relocate_stay.1, Pseudo.Expr.relocate_stay] at hb
    exact ⟨t', hb⟩

/-! ### Statements -/

theorem stmt_ensures (s : Source.Stmt) (c : Context) (before : State) :
    Ensures (Heavy (weight s.nodes)) (stmt s) c before fun ss after =>
      AllOrdinary ss ∧ before.Extends (fun _ => True) c.limit after :=
  have hstep : StmtStep (.free c.language _ .stay (fun _ => True) true) (fun _ => True) _ _ (stmt s) _ :=
    stmt_step s _ (Nat.le_refl _) fun _ _ => trivial
  (hstep.gives c before rfl).mono fun _ _ h => ⟨h.1, h.2.2⟩

theorem stmts_ensures {ss : List Source.Stmt} (hN : ∀ n ∈ Source.typeNamesOf ss, N n) (c : Context) (before : State) :
    Ensures (Heavy (weight (stmtNodes ss))) (stmts ss) c before fun ps after =>
      AllOrdinary ps ∧ before.Extends N c.limit after :=
  have hstep : StmtStep (.free c.language _ .stay N true) (fun _ => True) _ _ (stmts ss) _ :=
    stmts_step ss _ (Nat.le_refl _) hN
  (hstep.gives c before rfl).mono fun _ _ h => ⟨h.1, h.2.2⟩

end Convert

namespace Conversion

/-! ### What is declared in advance -/

/-- Declaring something in advance makes no remark and leaves no scope. -/
structure State.Prepared (s t : State) : Prop where
  scopes : ∀ limit, Scopes.Run limit s.scopes t.scopes
  notes : t.notes = s.notes
  diagnostics : t.diagnostics = s.diagnostics

namespace State.Prepared

variable {s t u : State}

theorem refl (s : State) : s.Prepared s := ⟨fun _ => .refl _, rfl, rfl⟩

theorem trans (h : s.Prepared t) (h' : t.Prepared u) : s.Prepared u :=
  ⟨fun limit => (h.scopes limit).trans (h'.scopes limit), h'.notes.trans h.notes, h'.diagnostics.trans h.diagnostics⟩

theorem callable (s : State) (p : Procedure) : s.Prepared { s with scopes := s.scopes.declareCallable p } :=
  ⟨fun _ => (Scopes.Run.refl _).declareCallable p, rfl, rfl⟩

end State.Prepared

end Conversion

namespace Convert

open Conversion

theorem predeclareVariables_prepared (l : Language) (s : State) (v : Source.VarDecl) :
    s.Prepared (predeclareVariables l s v) := by
  unfold predeclareVariables
  generalize v.declarators = ds
  induction ds generalizing s with
  | nil => exact .refl s
  | cons d ds ih =>
    rw [List.foldl_cons]
    refine .trans ?_ (ih _)
    split
    · exact .callable s _
    · exact .refl s

mutual

theorem predeclare_prepared (l : Language) (owner : Option String) (s : State) (p : Source.Stmt) :
    s.Prepared (predeclare l owner s p) := by
  cases p with
  | function f => rw [predeclare]; exact .callable s _
  | classDecl _ name _ _ _ members _ _ =>
    rw [predeclare]
    exact .trans (t := { s with typeNames := name :: s.typeNames }) ⟨fun _ => .refl _, rfl, rfl⟩
      (predeclareAll_prepared l (some name) _ members)
  | namespaceDecl _ name body =>
    rw [predeclare]
    exact .trans (t := { s with typeNames := name :: s.typeNames }) ⟨fun _ => .refl _, rfl, rfl⟩
      (predeclareAll_prepared l none _ body)
  | varDecl v => rw [predeclare]; exact predeclareVariables_prepared l s v
  | _ => exact ⟨fun _ => .refl _, rfl, rfl⟩

theorem predeclareAll_prepared (l : Language) (owner : Option String) (s : State)
    (ps : List Source.Stmt) : s.Prepared (predeclareAll l owner s ps) := by
  match ps with
  | [] => rw [predeclareAll]; exact .refl s
  | p :: ps =>
    rw [predeclareAll]
    exact (predeclare_prepared l owner s p).trans (predeclareAll_prepared l owner _ ps)

end

end Convert

namespace Conversion

theorem startState_prepared (p : Source.Program) : State.Prepared {} (startState p) :=
  Convert.predeclareAll_prepared p.language none {} p.body

/-- The weight of a program: the sum of its whole numbers and of the number of its nodes. -/
def weight (p : Source.Program) : Nat := Source.weight p.nodes

theorem run_wellFormed (limit : Nat) (p : Source.Program) :
    match run limit p with
    | .ok r => Convert.AllOrdinary r.body
    | .error _ => Heavy (weight p) := by
  have h := run_of_ensures (Convert.stmts_ensures (N := fun _ => True) (fun _ _ => trivial)
    { language := p.language, limit := limit } (startState p))
  cases hr : run limit p with
  | error e =>
    rw [hr] at h
    exact h
  | ok r =>
    rw [hr] at h
    obtain ⟨s, hbody, -⟩ := h
    exact hbody.1

end Conversion

namespace Discipline

open Conversion

theorem run_keeps {T : Discipline} (law : T.Lawful) {P limit p r} (hlanguage : p.language = T.language)
    (hvisible : T.Visible P (startState p).scopes.chain)
    (hbody : Source.StmtsInOrder T.language T.Admits P p.body) (hrun : run limit p = .ok r)
    (hremarks : T.Remarks r.diagnostics) : T.Stmts r.body := by
  have hstart := startState_prepared p
  have hsound := ((hstart.scopes limit).evolves Scopes.sound_start).sound
  have hstep : Convert.StmtStep ⟨T, weight p, .stay, fun _ => True, true⟩ P _ _ (Convert.stmts p.body) _ :=
    Convert.stmts_step p.body P (Nat.le_refl _) fun _ _ => trivial
  have hkeeps := run_of_ensures (hstep.keeps { language := p.language, limit := limit } (startState p) hlanguage hsound)
  rw [hrun] at hkeeps
  obtain ⟨s, hkept, hdiagnostics⟩ := hkeeps
  refine (hkept (fun d hd => hremarks d ?_) hbody ⟨hlanguage, nofun⟩ ⟨hvisible, ?_⟩).2
  · rw [hdiagnostics]
    exact List.mem_append_left _ hd
  · rw [hstart.notes]
    exact nofun

end Discipline

end Blackboard
