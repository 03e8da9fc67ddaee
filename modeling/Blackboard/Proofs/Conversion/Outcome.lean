import Blackboard.Conversion.Statement

/-!
What a step of a conversion ensures: a property of its result and of the state it leaves, or a
condition under which it may have no result. The rules follow the steps that conversions are made of,
so that no proof has to look at how the steps are run.
-/
namespace Blackboard.Convert

open Conversion

variable {α β : Type}

/-- From the state `s`, a step has a result for which `post` holds, or it fails and `fault` holds. -/
def Ensures (fault : Prop) (act : Convert α) (c : Context) (s : State) (post : α → State → Prop) : Prop :=
  match act c s with
  | .ok (a, t) => post a t
  | .error _ => fault

/-- A check of a result that there need not be. -/
theorem exists_ok_of_any {ε : Type} {x : Except ε α} {check : α → Bool} (h : x.toOption.any check = true) :
    ∃ a, x = .ok a ∧ check a = true := by
  cases x with
  | error e => cases h
  | ok a => exact ⟨a, rfl, h⟩

namespace Ensures

variable {fault : Prop} {c : Context} {s : State}
variable {a : α} {post post' : α → State → Prop} {x act : Convert α} {name : String}
    {span : Source.Span}

/-! ### The steps -/

theorem pure_iff : Ensures fault (pure a) c s post ↔ post a s := Iff.rfl

theorem bind_iff {f : α → Convert β} {post : β → State → Prop} : Ensures fault (x >>= f) c s post ↔
      Ensures fault x c s fun a t => Ensures fault (f a) c t post := by
  unfold Ensures
  change (match (do let (a, t) ← x c s; f a c t : Except Fault (β × State)) with
    | .ok (a, t) => post a t
    | .error _ => fault) ↔ _
  cases x c s with
  | error e => exact Iff.rfl
  | ok r => exact Iff.rfl

theorem map_iff {f : α → β} {post : β → State → Prop} :
    Ensures fault (f <$> x) c s post ↔ Ensures fault x c s fun a t => post (f a) t :=
  bind_iff (f := fun a => pure (f a))

theorem get_iff {post} : Ensures fault (get : Convert State) c s post ↔ post s s := Iff.rfl

theorem read_iff {post} : Ensures fault (read : Convert Context) c s post ↔ post c s := Iff.rfl

theorem modify_iff {f post} : Ensures fault (modify f : Convert Unit) c s post ↔ post () (f s) := Iff.rfl

theorem throw_iff {e} : Ensures fault (throw e : Convert α) c s post ↔ fault := Iff.rfl

theorem withReader_iff {f} : Ensures fault (withReader f x) c s post ↔ Ensures fault x (f c) s post := Iff.rfl

theorem ite_iff {p} [Decidable p] {y} : Ensures fault (if p then x else y) c s post ↔
      if p then Ensures fault x c s post else Ensures fault y c s post := by
  split <;> rfl

theorem mono (h : Ensures fault x c s post) (hp : ∀ a t, post a t → post' a t) : Ensures fault x c s post' := by
  unfold Ensures at h ⊢
  split at h
  · exact hp _ _ h
  · exact h

theorem weaken {fault'} (h : Ensures fault x c s post) (hf : fault → fault') : Ensures fault' x c s post := by
  unfold Ensures at h ⊢
  split at h
  · exact h
  · exact hf h

theorem and_run (h : Ensures fault act c s post) :
    Ensures fault act c s fun a t => post a t ∧ act c s = .ok (a, t) := by
  unfold Ensures at *
  split <;> simp_all

theorem run (act : Convert α) (c : Context) (s : State) : Ensures True act c s fun a t => act c s = .ok (a, t) := by
  unfold Ensures
  split
  · next h => exact h
  · trivial

theorem and (h : Ensures fault act c s post) (h' : Ensures True act c s post') :
    Ensures fault act c s fun a t => post a t ∧ post' a t := by
  unfold Ensures at *
  split <;> simp_all

theorem exists_ok_of_not (h : Ensures fault x c s post) (hf : ¬ fault) : ∃ a t, x c s = .ok (a, t) ∧ post a t := by
  unfold Ensures at h
  split at h
  · next a t hr => exact ⟨a, t, hr, h⟩
  · exact absurd h hf

theorem exists_ok (h : Ensures False x c s post) : ∃ a t, x c s = .ok (a, t) ∧ post a t :=
  h.exists_ok_of_not not_false

theorem of_ok {t} (hr : x c s = .ok (a, t)) (h : post a t) : Ensures fault x c s post := by
  rw [Ensures, hr]
  exact h

/-! ### The steps that only a conversion has -/

theorem view_iff {post} : Ensures fault view c s post ↔ post ⟨c.language, s.scopes, s.enumNames⟩ s := Iff.rfl

theorem findVariable?_iff {post} :
    Ensures fault (findVariable? name) c s post ↔ post (s.scopes.findVariable? name) s := Iff.rfl

theorem findCallable?_iff {post} :
    Ensures fault (findCallable? name) c s post ↔ post (s.scopes.findCallable? name) s := Iff.rfl

theorem report_iff {d post} : Ensures fault (report d) c s post ↔
      post () { s with diagnostics := s.diagnostics ++ [d] } := Iff.rfl

theorem note_iff {text post} :
    Ensures fault (note text) c s post ↔ post () { s with notes := s.notes ++ [text] } := Iff.rfl

theorem declareVariable_iff {v post} : Ensures fault (declareVariable v) c s post ↔
      post () { s with scopes := s.scopes.declareVariable v } := Iff.rfl

theorem declareCallable_iff {p post} : Ensures fault (declareCallable p) c s post ↔
      post () { s with scopes := s.scopes.declareCallable p } := Iff.rfl

theorem written_iff {e post} : Ensures fault (written e) c s post ↔ if e.writable then post e s else fault := by
  unfold written
  rw [ite_iff, pure_iff, throw_iff]

theorem inScope_iff {kind : ScopeKind} {post : Option α → State → Prop} :
    Ensures fault (inScope kind span act) c s post ↔
      if c.limit ≤ s.scopes.depth then
        post none { s with
          diagnostics := s.diagnostics ++ [.at_ span .warning (.nestingTooDeep c.limit)] }
      else
        Ensures fault act c { s with scopes := s.scopes.enter kind } fun a t =>
          post (some a) { t with scopes := { t.scopes with current := s.scopes.current } } := by
  unfold inScope
  simp only [bind_iff, read_iff, get_iff, ite_iff, warn, report_iff, modifyScopes, modify_iff, pure_iff]

theorem statement_iff {kind : String} {act : Convert (List Pseudo.Stmt)}
    {post : List Pseudo.Stmt → State → Prop} :
    Ensures fault (statement kind span act) c s post ↔
      Ensures fault act { c with statement := kind } { s with notes := [] } fun ss t =>
        post (attach t.notes.eraseDups span.line ss) { t with notes := s.notes } := by
  unfold statement
  simp only [bind_iff, get_iff, modify_iff, withReader_iff, pure_iff]

end Ensures

/-! ### Steps that declare nothing -/

structure SameNames (s t : State) : Prop where
  scopes : t.scopes = s.scopes
  typeNames : t.typeNames = s.typeNames
  enumNames : t.enumNames = s.enumNames

theorem SameNames.refl (s : State) : SameNames s s := ⟨rfl, rfl, rfl⟩

theorem SameNames.symm {s t} (h : SameNames s t) : SameNames t s :=
  ⟨h.scopes.symm, h.typeNames.symm, h.enumNames.symm⟩

theorem SameNames.trans {s t u} (h : SameNames s t) (h' : SameNames t u) : SameNames s u :=
  ⟨h'.scopes.trans h.scopes, h'.typeNames.trans h.typeNames, h'.enumNames.trans h.enumNames⟩

end Blackboard.Convert

namespace Blackboard.Conversion

def startState (p : Source.Program) : State := Convert.predeclareAll p.language none {} p.body

theorem run_eq_map (limit : Nat) (p : Source.Program) :
    run limit p = (Convert.stmts p.body { language := p.language, limit := limit } (startState p)).map
      fun r => { language := p.language, structuralErrors := p.structuralErrors, body := r.1
                 diagnostics := r.2.diagnostics ++ r.2.scopes.diagnostics } := by
  change (Convert.stmts p.body { language := p.language, limit := limit } (startState p)).bind _ = _
  cases Convert.stmts p.body { language := p.language, limit := limit } (startState p) <;> rfl

theorem run_of_ensures {limit p fault post}
    (h : Convert.Ensures fault (Convert.stmts p.body) { language := p.language, limit := limit }
      (startState p) post) :
    match run limit p with
    | .ok r => ∃ s, post r.body s ∧ r.diagnostics = s.diagnostics ++ s.scopes.diagnostics
    | .error _ => fault := by
  unfold Convert.Ensures at h
  rw [run_eq_map]
  cases hr : Convert.stmts p.body { language := p.language, limit := limit } (startState p) with
  | error e =>
    rw [hr] at h
    exact h
  | ok r =>
    rw [hr] at h
    exact ⟨r.2, h, rfl⟩

end Blackboard.Conversion
