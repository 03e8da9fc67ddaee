import Blackboard.Scope

/-!
The scopes that are visible from a place. A declaration changes only the innermost of them, entering a
scope adds one in front, and leaving it brings back what was visible before: whatever is done inside a
scope, the scopes around it stay as they are.
-/
namespace Blackboard.Scopes

open List

def ParentsFirst (arena : List Scope) : Prop :=
  ∀ (i : Nat) (scope : Scope) (p : Nat), arena[i]? = some scope → scope.parent = some p → p < i

/-- Parents stand before their children, and the current scope exists. -/
structure Sound (s : Scopes) : Prop where
  parents : ParentsFirst s.arena
  current : s.current < s.arena.length

theorem sound_start : Sound {} := by
  constructor
  · intro i scope p hi hp
    cases i with
    | zero =>
      cases hi
      cases hp
    | succ i => simp at hi
  · decide

/-! ### Chains -/

theorem chainFrom_congr {arena others} (hp : ParentsFirst arena) {i}
    (h : ∀ j ≤ i, others[j]? = arena[j]?) (fuel : Nat) :
    chainFrom others fuel i = chainFrom arena fuel i := by
  induction fuel generalizing i with
  | zero => rfl
  | succ fuel ih =>
    simp only [chainFrom, h i (Nat.le_refl i)]
    cases hi : arena[i]? with
    | none => rfl
    | some scope =>
      cases hparent : scope.parent with
      | none => simp only [hparent]
      | some p =>
        have hlt := hp i scope p hi hparent
        simp only [hparent]
        rw [ih fun j hj => h j (by omega)]

theorem chainFrom_fuel {arena} (hp : ParentsFirst arena) {m n i}
    (hm : i < m) (hn : i < n) : chainFrom arena m i = chainFrom arena n i := by
  induction m generalizing n i with
  | zero => omega
  | succ m ih =>
    obtain ⟨n, rfl⟩ : ∃ k, n = k + 1 := ⟨n - 1, by omega⟩
    simp only [chainFrom]
    cases hi : arena[i]? with
    | none => rfl
    | some scope =>
      cases hparent : scope.parent with
      | none => simp only [hparent]
      | some p =>
        have hlt := hp i scope p hi hparent
        simp [hparent, ih (i := p) (n := n) (by omega) (by omega)]

namespace Sound

variable {s : Scopes}
variable {scope : Scope} {around : List Scope}

theorem exists_chain (h : s.Sound) : ∃ scope around, s.arena[s.current]? = some scope ∧ s.chain = scope :: around ∧
      around = scope.parent.elim [] (chainFrom s.arena s.current) := by
  obtain ⟨scope, hscope⟩ : ∃ scope, s.arena[s.current]? = some scope :=
    ⟨_, getElem?_eq_getElem h.current⟩
  refine ⟨scope, _, hscope, ?_, rfl⟩
  simp only [chain, chainFrom, hscope]
  cases scope.parent <;> rfl

theorem chain_congr (h : s.Sound) {t : Scopes} (hcurrent : t.current = s.current)
    (harena : ∀ i ≤ s.current, t.arena[i]? = s.arena[i]?) : t.chain = s.chain := by
  unfold chain
  rw [hcurrent]
  exact chainFrom_congr h.parents harena _

/-! ### Entering a scope -/

theorem enter (h : s.Sound) (kind : ScopeKind) : (s.enter kind).Sound := by
  constructor
  · intro i scope p hi hp
    simp only [Scopes.enter, getElem?_append] at hi
    split at hi
    · exact h.parents i scope p hi hp
    · next hlt =>
      obtain ⟨hone, rfl⟩ : i - s.arena.length = 0 ∧ scope = { kind, parent := some s.current } := by
        cases hsub : i - s.arena.length with
        | zero =>
          rw [hsub] at hi
          exact ⟨rfl, (Option.some.inj hi).symm⟩
        | succ j =>
          rw [hsub] at hi
          simp at hi
      cases hp
      have := h.current
      omega
  · simp [Scopes.enter]

theorem chain_enter (h : s.Sound) (kind : ScopeKind) :
    (s.enter kind).chain = { kind := kind, parent := some s.current } :: s.chain := by
  have hnew : (s.arena ++ [({ kind := kind, parent := some s.current } : Scope)])[s.arena.length]? =
      some { kind := kind, parent := some s.current } := by simp
  have hold : ∀ i ≤ s.current,
      (s.arena ++ [({ kind := kind, parent := some s.current } : Scope)])[i]? = s.arena[i]? := by
    intro i hi
    have := h.current
    exact getElem?_append_left (by omega)
  simp only [chain, Scopes.enter, chainFrom, hnew]
  congr 1
  rw [chainFrom_congr h.parents hold, chainFrom_fuel h.parents h.current (Nat.lt_succ_self _)]
  rfl

/-! ### Declaring -/

theorem modifyCurrent (h : s.Sound) {f} (hf : ∀ x, (f x).parent = x.parent) : (s.modifyCurrent f).Sound := by
  constructor
  · intro i scope p hi hp
    simp only [Scopes.modifyCurrent, getElem?_modify] at hi
    cases hold : s.arena[i]? with
    | none =>
      rw [hold] at hi
      cases hi
    | some old =>
      rw [hold] at hi
      cases hi
      refine h.parents i old p hold ?_
      split at hp
      · rw [← hf]
        exact hp
      · exact hp
  · simpa [Scopes.modifyCurrent] using h.current

theorem chain_modifyCurrent (h : s.Sound) {f} (hf : ∀ x, (f x).parent = x.parent)
    (hchain : s.chain = scope :: around) : (s.modifyCurrent f).chain = f scope :: around := by
  obtain ⟨old, outer, hold, heq, houter⟩ := h.exists_chain
  obtain ⟨rfl, rfl⟩ := cons.inj (heq.symm.trans hchain)
  have hnew : (s.arena.modify s.current f)[s.current]? = some (f old) := by
    simp [hold]
  simp only [chain, Scopes.modifyCurrent, chainFrom, hnew, hf]
  rw [houter]
  cases hp : old.parent with
  | none => rfl
  | some p =>
    have hlt := h.parents _ old p hold hp
    have hbelow : ∀ j ≤ p, (s.arena.modify s.current f)[j]? = s.arena[j]? := by
      intro j hj
      have hne : s.current ≠ j := by omega
      simp [hne]
    simp [chainFrom_congr h.parents hbelow]

theorem chain_declareVariable (h : s.Sound) (v : Variable) (hchain : s.chain = scope :: around) :
    (s.declareVariable v).chain =
      { scope with vars := Table.put v.name v scope.vars } :: around :=
  h.chain_modifyCurrent (f := fun scope => { scope with vars := Table.put v.name v scope.vars }) (fun _ => rfl) hchain

theorem chain_declareCallable (h : s.Sound) (p : Procedure) (hchain : s.chain = scope :: around) :
    (s.declareCallable p).chain =
      { scope with callables := Table.put p.name p scope.callables } :: around :=
  h.chain_modifyCurrent (f := fun scope => { scope with callables := Table.put p.name p scope.callables })
    (fun _ => rfl) hchain

end Sound

/-! ### What a step leaves -/

/-- From `s` to `t` scopes may have been added and the current scope may have got declarations; the
others are the same, and the current scope is current again. -/
structure Evolves (s t : Scopes) : Prop where
  sound : t.Sound
  current : t.current = s.current
  grows : s.arena.length ≤ t.arena.length
  others : ∀ i < s.arena.length, i ≠ s.current → t.arena[i]? = s.arena[i]?

namespace Evolves

variable {s t u : Scopes}

theorem refl (h : s.Sound) : Evolves s s := ⟨h, rfl, Nat.le_refl _, fun _ _ _ => rfl⟩

theorem trans (hst : Evolves s t) (htu : Evolves t u) : Evolves s u where
  sound := htu.sound
  current := htu.current.trans hst.current
  grows := Nat.le_trans hst.grows htu.grows
  others i hi hne := by
    have hgrows := hst.grows
    rw [htu.others i (by omega) (by rw [hst.current]; exact hne), hst.others i hi hne]

theorem modifyCurrent (h : s.Sound) {f} (hf : ∀ x, (f x).parent = x.parent) : Evolves s (s.modifyCurrent f) where
  sound := h.modifyCurrent hf
  current := rfl
  grows := by simp [Scopes.modifyCurrent]
  others i _ hne := by
    have hne : s.current ≠ i := fun h => hne h.symm
    simp [Scopes.modifyCurrent, hne]

theorem declareVariable (h : s.Sound) (v : Variable) : Evolves s (s.declareVariable v) :=
  modifyCurrent h fun _ => rfl

theorem declareCallable (h : s.Sound) (p : Procedure) : Evolves s (s.declareCallable p) :=
  modifyCurrent h fun _ => rfl

variable {kind : ScopeKind}

theorem getElem?_of_enter (h : Evolves (s.enter kind) t) {i}
    (hi : i < s.arena.length) : t.arena[i]? = s.arena[i]? := by
  have hother := h.others i (by simp only [Scopes.enter, length_append]; omega)
    (by simp only [Scopes.enter]; omega)
  rw [hother]
  exact getElem?_append_left hi

theorem chain_leave (hs : s.Sound) (h : Evolves (s.enter kind) t) :
    Scopes.chain { t with current := s.current } = s.chain := by
  refine hs.chain_congr rfl fun i hi => ?_
  have := hs.current
  exact h.getElem?_of_enter (by omega)

theorem leave (hs : s.Sound) (h : Evolves (s.enter kind) t) : Evolves s { t with current := s.current } where
  sound := by
    have hgrows := h.grows
    simp only [Scopes.enter, length_append, length_singleton] at hgrows
    have := hs.current
    exact ⟨h.sound.parents, show s.current < t.arena.length by omega⟩
  current := rfl
  grows := by
    have hgrows := h.grows
    simp only [Scopes.enter, length_append, length_singleton] at hgrows
    show s.arena.length ≤ t.arena.length
    omega
  others i hi _ := h.getElem?_of_enter hi

end Evolves

/-! ### Names -/

/-- The callable that a name stands for in the nearest of some scopes that declares it. -/
def callableIn (chain : List Scope) (name : String) : Option Procedure :=
  chain.findSome? (·.callables.lookup name)

/-- The variable that a name stands for in the nearest of some scopes that declares it. -/
def variableIn (chain : List Scope) (name : String) : Option Variable :=
  chain.findSome? (·.vars.lookup name)

theorem findCallable?_eq (s : Scopes) (name : String) : s.findCallable? name = callableIn s.chain name := rfl

theorem findVariable?_eq (s : Scopes) (name : String) : s.findVariable? name = variableIn s.chain name := rfl

section

variable (scope : Scope) (around : List Scope)

@[simp]
theorem callableIn_enter (kind : ScopeKind) (parent : Option Nat) (name : String) :
    callableIn ({ kind := kind, parent := parent } :: around) name = callableIn around name := rfl

theorem callableIn_put (p : Procedure) (name : String) :
    callableIn ({ scope with callables := Table.put p.name p scope.callables } :: around) name =
      if name = p.name then some p else callableIn (scope :: around) name := by
  simp only [callableIn, findSome?_cons, Table.lookup_put]
  by_cases h : name = p.name <;> simp [h]

theorem variableIn_put (v : Variable) (name : String) :
    variableIn ({ scope with vars := Table.put v.name v scope.vars } :: around) name =
      if name = v.name then some v else variableIn (scope :: around) name := by
  simp only [variableIn, findSome?_cons, Table.lookup_put]
  by_cases h : name = v.name <;> simp [h]

@[simp]
theorem callableIn_vars (vars : Table Variable) (name : String) :
    callableIn ({ scope with vars := vars } :: around) name = callableIn (scope :: around) name := rfl

end

end Blackboard.Scopes
