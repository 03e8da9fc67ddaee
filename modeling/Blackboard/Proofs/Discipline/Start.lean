import Blackboard.Proofs.Conversion.Frame

/-!
What is visible at the start of a program: no variables, and the callables that are declared in advance.
-/
namespace Blackboard

open Conversion Source

namespace Scopes

/-- One scope without variables, whose callables all satisfy `E`. -/
structure Opening (E : Procedure → Prop) (s : Scopes) : Prop where
  chain : ∃ callables, s.arena = [{ kind := .outermost, callables := callables }] ∧ s.current = 0 ∧
    ∀ name p, callables.lookup name = some p → p.name = name ∧ E p

namespace Opening

variable {E : Procedure → Prop} {s : Scopes}

theorem start : Opening E {} := ⟨[], rfl, rfl, nofun⟩

theorem declareCallable (h : Opening E s) {p} (hp : E p) : Opening E (s.declareCallable p) := by
  obtain ⟨callables, harena, hcurrent, hcallables⟩ := h.chain
  refine ⟨Table.put p.name p callables, ?_, hcurrent, fun name q hq => ?_⟩
  · simp [Scopes.declareCallable, modifyCurrent, harena, hcurrent]
  · rw [Table.lookup_put] at hq
    split at hq
    · next hname =>
      cases hq
      exact ⟨hname.symm, hp⟩
    · exact hcallables name q hq

theorem variableIn_eq_none (h : Opening E s) (name : String) : variableIn s.chain name = none := by
  obtain ⟨callables, harena, hcurrent, -⟩ := h.chain
  simp [variableIn, Scopes.chain, harena, hcurrent, chainFrom]

theorem of_callableIn (h : Opening E s) {name p} (hp : callableIn s.chain name = some p) : p.name = name ∧ E p := by
  obtain ⟨callables, harena, hcurrent, hcallables⟩ := h.chain
  refine hcallables name p ?_
  simpa [callableIn, Scopes.chain, harena, hcurrent, chainFrom] using hp

end Opening

end Scopes

namespace Discipline

open Blackboard.Convert Scopes

variable {T : Discipline} {E : Procedure → Prop}

/-- What a discipline admits is declared in advance as `E` says. -/
structure Opens (T : Discipline) (E : Procedure → Prop) : Prop where
  function : ∀ {P} {f : Callable} {owner : Option Owner}, T.Admits P (.stmt (.function f)) →
    (∀ o ∈ owner, T.Owned o) → E (quietCallable T.language (owner.map (·.name)) f)
  value : ∀ {P} {d : Declarator} {own params body isAsync}, T.Admits P (.declarator d) →
    d.init = some (.lambda own params body isAsync) → ∀ scopes,
    E (quietCallable T.language none (valueCallable T.language scopes d.name d.span params body isAsync))

theorem predeclareVariables_opening (hE : T.Opens E) {P common ds}
    (hds : DeclaratorsInOrder T.language T.Admits common P ds) {s} (hs : Opening E s.scopes)
    (span : Span) (type : Option TypeRef) (modifiers : List String) (kind : Option VarKind) :
    Opening E (predeclareVariables T.language s ⟨span, ds, type, modifiers, kind⟩).scopes := by
  unfold predeclareVariables
  dsimp only
  induction ds generalizing P s with
  | nil => exact hs
  | cons d ds ih =>
    obtain ⟨span, name, own, extra, init⟩ := d
    obtain ⟨hd, -, -, hrest⟩ := hds
    rw [List.foldl_cons]
    refine ih hrest ?_
    dsimp only
    split
    · exact hs.declareCallable (hE.value hd rfl _)
    · exact hs

mutual

theorem predeclare_opening (law : T.Lawful) (hE : T.Opens E) (owner : Option Owner)
    (howner : ∀ o ∈ owner, T.Owned o) {s} (hs : Opening E s.scopes) (p : Source.Stmt)
    {P} (hp : p.InOrder T.language T.Admits P) :
    Opening E (predeclare T.language (owner.map (·.name)) s p).scopes := by
  cases p with
  | function f =>
    cases f
    rw [predeclare]
    exact hs.declareCallable (hE.function hp.1 howner)
  | classDecl span name superclass interfaces tps members ms ds =>
    rw [predeclare]
    have howned := law.owned_of_class hp.1
    exact predeclareAll_opening law hE (some ⟨name, superclass.map (·.name)⟩)
      (fun o ho => Option.some.inj ho ▸ howned) (s := { s with typeNames := name :: s.typeNames }) hs
      members hp.2.2
  | namespaceDecl span name body =>
    rw [predeclare]
    exact predeclareAll_opening law hE none (nofun)
      (s := { s with typeNames := name :: s.typeNames }) hs body hp.2
  | varDecl v =>
    obtain ⟨span, ds, type, modifiers, kind⟩ := v
    rw [predeclare]
    exact predeclareVariables_opening hE hp.2.2 hs span type modifiers kind
  | _ => exact hs

theorem predeclareAll_opening (law : T.Lawful) (hE : T.Opens E) (owner : Option Owner)
    (howner : ∀ o ∈ owner, T.Owned o) {s} (hs : Opening E s.scopes) (ps : List Source.Stmt)
    {P} (hps : StmtsInOrder T.language T.Admits P ps) :
    Opening E (predeclareAll T.language (owner.map (·.name)) s ps).scopes := by
  match ps with
  | [] =>
    rw [predeclareAll]
    exact hs
  | p :: ps =>
    rw [predeclareAll]
    exact predeclareAll_opening law hE owner howner (predeclare_opening law hE owner howner hs p hps.1) ps hps.2

end

theorem startState_opening (law : T.Lawful) (hE : T.Opens E) {p P}
    (hlanguage : p.language = T.language) (hbody : StmtsInOrder T.language T.Admits P p.body) :
    Opening E (startState p).scopes := by
  unfold startState
  rw [hlanguage]
  exact predeclareAll_opening law hE none (nofun) .start p.body hbody

end Discipline

end Blackboard
