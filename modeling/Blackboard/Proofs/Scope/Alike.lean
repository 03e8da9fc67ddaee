import Mathlib.Data.List.Nodup
import Mathlib.Data.List.Perm.Subperm
import Blackboard.Conversion.Loop
import Blackboard.Proofs.Scope.Chain

/-!
Scopes that look alike. A conversion sees of its scopes only the visible ones, and of a callable only what
it returns. Two arenas that agree in this answer every question alike, even where a free name is sought,
and they still look alike after the same steps.
-/
namespace Blackboard.Scopes

open List

/-- The kinds and the variables agree scope by scope; of callables it counts what a name stands for from
each scope outwards, not which scope declares it. -/
inductive AlikeChain : List Scope → List Scope → Prop where
  | nil : AlikeChain [] []
  | cons {s t : Scope} {ss ts : List Scope} (kind : s.kind = t.kind)
    (vars : ∀ n, s.vars.lookup n = t.vars.lookup n)
    (callables : ∀ n, (callableIn (s :: ss) n).map (·.returns) = (callableIn (t :: ts) n).map (·.returns))
    (around : AlikeChain ss ts) : AlikeChain (s :: ss) (t :: ts)

namespace AlikeChain

variable {ss ts us : List Scope}

theorem refl (ss : List Scope) : AlikeChain ss ss := by
  induction ss with
  | nil => exact .nil
  | cons s ss ih => exact .cons rfl (fun _ => rfl) (fun _ => rfl) ih

theorem symm (h : AlikeChain ss ts) : AlikeChain ts ss := by
  induction h with
  | nil => exact .nil
  | cons hkind hvars hcallables _ ih =>
    exact .cons hkind.symm (fun n => (hvars n).symm) (fun n => (hcallables n).symm) ih

theorem trans (h : AlikeChain ss ts) (h' : AlikeChain ts us) : AlikeChain ss us := by
  induction h generalizing us with
  | nil => exact h'
  | cons hkind hvars hcallables _ ih =>
    cases h' with
    | cons hkind' hvars' hcallables' haround' =>
      exact .cons (hkind.trans hkind') (fun n => (hvars n).trans (hvars' n))
        (fun n => (hcallables n).trans (hcallables' n)) (ih haround')

theorem length_eq (h : AlikeChain ss ts) : ss.length = ts.length := by
  induction h with
  | nil => rfl
  | cons _ _ _ _ ih => rw [length_cons, length_cons, ih]

theorem variableIn_eq (h : AlikeChain ss ts) (name : String) :
    variableIn ss name = variableIn ts name := by
  induction h with
  | nil => rfl
  | cons _ hvars _ _ ih => simp only [variableIn, findSome?_cons, hvars] at ih ⊢; rw [ih]

theorem callableIn_returns (h : AlikeChain ss ts) (name : String) :
    (callableIn ss name).map (·.returns) = (callableIn ts name).map (·.returns) := by
  cases h with
  | nil => rfl
  | cons _ _ hcallables _ => exact hcallables name

theorem any_class (h : AlikeChain ss ts) : ss.any (·.kind = .class_) = ts.any (·.kind = .class_) := by
  induction h with
  | nil => rfl
  | cons hkind _ _ _ ih => rw [any_cons, any_cons, hkind, ih]

theorem shadows_eq (h : AlikeChain ss ts) (name : String) : shadows name ss = shadows name ts := by
  induction h with
  | nil => rfl
  | cons hkind hvars _ haround ih => rw [shadows, shadows, hkind, hvars, haround.any_class, ih]

theorem enter (h : AlikeChain ss ts) (kind : ScopeKind) (p q : Option Nat) :
    AlikeChain ({ kind := kind, parent := p } :: ss) ({ kind := kind, parent := q } :: ts) :=
  .cons rfl (fun _ => rfl) h.callableIn_returns h

variable {s t : Scope}

theorem declareVariable (h : AlikeChain (s :: ss) (t :: ts)) (v : Variable) :
    AlikeChain ({ s with vars := Table.put v.name v s.vars } :: ss)
      ({ t with vars := Table.put v.name v t.vars } :: ts) := by
  cases h with
  | cons hkind hvars hcallables haround =>
    refine .cons hkind (fun n => ?_) hcallables haround
    rw [Table.lookup_put, Table.lookup_put, hvars]

theorem declareCallable (h : AlikeChain (s :: ss) (t :: ts)) {p q} (hname : p.name = q.name)
    (hreturns : p.returns = q.returns) :
    AlikeChain ({ s with callables := Table.put p.name p s.callables } :: ss)
      ({ t with callables := Table.put q.name q t.callables } :: ts) := by
  cases h with
  | cons hkind hvars hcallables haround =>
    refine .cons hkind hvars (fun n => ?_) haround
    rw [callableIn_put, callableIn_put, hname]
    split
    · simp [hreturns]
    · exact hcallables n

theorem declareAgain (ss : List Scope) {p} (h : (callableIn (s :: ss) p.name).map (·.returns) = some p.returns) :
    AlikeChain (s :: ss) ({ s with callables := Table.put p.name p s.callables } :: ss) := by
  refine .cons rfl (fun _ => rfl) (fun n => ?_) (refl ss)
  rw [callableIn_put]
  split
  · next hn => rw [hn, h, Option.map_some]
  · rfl

end AlikeChain

def Resembles (s t : Scopes) : Prop := AlikeChain s.chain t.chain

namespace Resembles

variable {s t : Scopes}

theorem refl (s : Scopes) : Resembles s s := AlikeChain.refl _

theorem findVariable?_eq (h : Resembles s t) (name : String) :
    s.findVariable? name = t.findVariable? name := AlikeChain.variableIn_eq h name

theorem findCallable?_returns (h : Resembles s t) (name : String) :
    (s.findCallable? name).map (·.returns) = (t.findCallable? name).map (·.returns) :=
  AlikeChain.callableIn_returns h name

theorem isSome_findCallable? (h : Resembles s t) (name : String) :
    (s.findCallable? name).isSome = (t.findCallable? name).isSome := by
  have hreturns := congrArg Option.isSome (h.findCallable?_returns name)
  simpa using hreturns

theorem bind_returns (h : Resembles s t) (name : String) :
    (s.findCallable? name).bind (·.returns) = (t.findCallable? name).bind (·.returns) := by
  have hreturns := congrArg (·.bind id) (h.findCallable?_returns name)
  simpa [Option.bind_map] using hreturns

theorem any_isProcedure (h : Resembles s t) (name : String) :
    (s.findCallable? name).any (·.isProcedure) = (t.findCallable? name).any (·.isProcedure) := by
  have hreturns := congrArg (Option.any (·.isNone)) (h.findCallable?_returns name)
  rw [Option.any_map, Option.any_map] at hreturns
  exact hreturns

theorem shadowsField_eq (h : Resembles s t) (name : String) :
    s.shadowsField name = t.shadowsField name := AlikeChain.shadows_eq h name

theorem depth_eq (h : Resembles s t) : s.depth = t.depth := by
  rw [depth, depth, AlikeChain.length_eq h]

end Resembles

/-- Two sound arenas whose visible scopes look alike. -/
structure Alike (s t : Scopes) : Prop where
  left : s.Sound
  right : t.Sound
  chain : s.Resembles t

namespace Alike

variable {s t u : Scopes}

theorem refl (h : s.Sound) : Alike s s := ⟨h, h, .refl _⟩

theorem symm (h : Alike s t) : Alike t s := ⟨h.right, h.left, AlikeChain.symm h.chain⟩

theorem trans (h : Alike s t) (h' : Alike t u) : Alike s u :=
  ⟨h.left, h'.right, AlikeChain.trans h.chain h'.chain⟩

theorem enter (h : Alike s t) (kind : ScopeKind) : Alike (s.enter kind) (t.enter kind) where
  left := h.left.enter kind
  right := h.right.enter kind
  chain := by
    rw [Resembles, h.left.chain_enter, h.right.chain_enter]
    exact AlikeChain.enter h.chain kind _ _

theorem declareVariable (h : Alike s t) (v : Variable) : Alike (s.declareVariable v) (t.declareVariable v) := by
  obtain ⟨a, as, -, has, -⟩ := h.left.exists_chain
  obtain ⟨b, bs, -, hbs, -⟩ := h.right.exists_chain
  refine ⟨h.left.modifyCurrent fun _ => rfl, h.right.modifyCurrent fun _ => rfl, ?_⟩
  rw [Resembles, h.left.chain_declareVariable v has, h.right.chain_declareVariable v hbs]
  exact AlikeChain.declareVariable (by rw [← has, ← hbs]; exact h.chain) v

theorem declareCallable (h : Alike s t) {p q} (hname : p.name = q.name)
    (hreturns : p.returns = q.returns) : Alike (s.declareCallable p) (t.declareCallable q) := by
  obtain ⟨a, as, -, has, -⟩ := h.left.exists_chain
  obtain ⟨b, bs, -, hbs, -⟩ := h.right.exists_chain
  refine ⟨h.left.modifyCurrent fun _ => rfl, h.right.modifyCurrent fun _ => rfl, ?_⟩
  rw [Resembles, h.left.chain_declareCallable p has, h.right.chain_declareCallable q hbs]
  exact AlikeChain.declareCallable (by rw [← has, ← hbs]; exact h.chain) hname hreturns

theorem leave {s' t' kind} (h : Alike s t) (hs : Evolves (s.enter kind) s') (ht : Evolves (t.enter kind) t') :
    Alike { s' with current := s.current } { t' with current := t.current } where
  left := (hs.leave h.left).sound
  right := (ht.leave h.right).sound
  chain := by
    rw [Resembles, hs.chain_leave h.left, ht.chain_leave h.right]
    exact h.chain

end Alike

/-! ### Free names -/

def declaredNames (s : Scopes) : List String := s.arena.flatMap fun scope => scope.vars.names

theorem mem_chainFrom {arena fuel i scope} (h : scope ∈ chainFrom arena fuel i) : scope ∈ arena := by
  induction fuel generalizing i with
  | zero => cases h
  | succ fuel ih =>
    rw [chainFrom] at h
    split at h
    · cases h
    · next top htop =>
      rcases mem_cons.1 h with rfl | h
      · exact mem_of_getElem? htop
      · split at h
        · cases h
        · exact ih h

theorem mem_names_of_lookup {α : Type} {t : Table α} {name : String} (h : (t.lookup name).isSome) :
    name ∈ t.names := by
  induction t with
  | nil => cases h
  | cons p t ih =>
    rw [Table.lookup_cons] at h
    split at h
    · next hn => exact mem_cons.2 (.inl hn)
    · exact mem_cons_of_mem _ (ih h)

theorem mem_declaredNames {s : Scopes} {name : String} (h : (s.findVariable? name).isSome) :
    name ∈ s.declaredNames := by
  obtain ⟨scope, hscope, hfound⟩ := findSome?_isSome_iff.1 h
  exact mem_flatMap.2 ⟨scope, mem_chainFrom hscope, mem_names_of_lookup hfound⟩

theorem length_declaredNames (s : Scopes) :
    s.declaredNames.length = (s.arena.map (·.vars.length)).foldl (· + ·) 0 := by
  rw [← sum_eq_foldl_nat, declaredNames]
  simp [Table.names]

end Blackboard.Scopes

namespace Blackboard.Convert

theorem toString_injective {m n : Nat} (h : toString m = toString n) : m = n := by
  rw [Nat.toString_eq_ofList_toDigits, Nat.toString_eq_ofList_toDigits, String.ofList_inj] at h
  have hvalue := congrArg (Nat.ofDigitChars 10 · 0) h
  simpa using hvalue

theorem counterNames_nodup (count : Nat) : (counterNames count).Nodup := by
  refine List.nodup_append.2 ⟨by decide, ?_, ?_⟩
  · refine List.Nodup.map (fun a b h => ?_) List.nodup_range
    have hnumber := toString_injective ((String.append_right_inj "index").1 h)
    omega
  · -- a numbered name is longer than the four names before
    intro a ha b hb hab
    obtain ⟨n, -, rfl⟩ := List.mem_map.1 hb
    have hshort : a.length ≤ 5 := by
      clear hab
      revert a
      decide
    have hdigits : 0 < (toString (n + 2)).length :=
      Nat.pos_of_ne_zero fun h => Nat.repr_ne_empty (String.length_eq_zero_iff.1 h)
    rw [hab, String.length_append] at hshort
    have hindex : "index".length = 5 := by decide
    omega

theorem length_counterNames (count : Nat) : (counterNames count).length = count + 5 := by
  simp [counterNames]

theorem counterNames_prefix {m n} (h : m ≤ n) : counterNames m <+: counterNames n := by
  obtain ⟨k, rfl⟩ := Nat.exists_eq_add_of_le h
  have hrange : List.range (m + k + 1) = List.range (m + 1) ++ (List.range k).map (m + 1 + ·) := by
    rw [Nat.add_right_comm, List.range_add]
  unfold counterNames
  rw [hrange, List.map_append]
  exact List.prefix_append _ _

theorem isSome_find?_counterNames (s : Scopes) {count : Nat} (h : s.declaredNames.length ≤ count) :
    ((counterNames count).find? fun n => (s.findVariable? n).isNone).isSome := by
  rw [List.find?_isSome]
  by_contra hnone
  have htaken : counterNames count ⊆ s.declaredNames := by
    intro n hn
    refine Scopes.mem_declaredNames ?_
    cases hfound : s.findVariable? n with
    | none => exact absurd ⟨n, hn, by simp [hfound]⟩ hnone
    | some v => rfl
  have hle := (List.subperm_of_subset (counterNames_nodup count) htaken).length_le
  rw [length_counterNames] at hle
  omega

theorem freeName_eq (s : Scopes) {count} (h : s.declaredNames.length ≤ count) :
    freeName s = ((counterNames count).find? fun n => (s.findVariable? n).isNone).getD "index" := by
  have hfound := isSome_find?_counterNames s (Nat.le_refl _)
  obtain ⟨more, hmore⟩ := counterNames_prefix h
  obtain ⟨n, hn⟩ := Option.isSome_iff_exists.1 hfound
  unfold freeName
  extract_lets tried
  have htried : tried = s.declaredNames.length := (Scopes.length_declaredNames s).symm
  rw [htried, ← hmore, List.find?_append, hn, Option.some_or]

theorem freeName_alike {s t} (h : s.Resembles t) : freeName s = freeName t := by
  have hcount := Nat.le_max_left s.declaredNames.length t.declaredNames.length
  have hcount' := Nat.le_max_right s.declaredNames.length t.declaredNames.length
  rw [freeName_eq s hcount, freeName_eq t hcount']
  simp [h.findVariable?_eq]

end Blackboard.Convert
