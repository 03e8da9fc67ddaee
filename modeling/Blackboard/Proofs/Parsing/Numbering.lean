import Std.Data.TreeMap.Lemmas
import Blackboard.Grammar.Languages

/-!
The numbers of a grammar. Categories have the lowest numbers, and after them every place of every
production has a number of its own, so that a number tells what has been read. In the two languages
only programs and modifiers can be read from no token.
-/
namespace Blackboard.Grammar

open List

/-! ### Categories -/

theorem ctorIdx_lt_categoryCount (c : Category) : c.ctorIdx < categoryCount := by
  cases c <;> decide

theorem Pattern.repetitions_trans {p q r : Pattern} (hq : q ∈ p.repetitions)
    (hr : r ∈ q.repetitions) : r ∈ p.repetitions := by
  induction p with
  | empty | terminal | category => simp [repetitions] at hq
  | seq a b iha ihb | alt a b iha ihb =>
    simp only [repetitions, mem_append] at hq ⊢
    exact hq.imp iha ihb
  | repeated a ih =>
    simp only [repetitions, mem_append, mem_singleton] at hq ⊢
    rcases hq with hq | rfl
    · exact .inl (ih hq)
    · exact .inl hr

theorem Pattern.category_mem_sequences {number : Pattern → Nat} {p : Pattern} {s : List Symbol}
    {c : Nat} (hs : s ∈ p.sequences number) (hc : Symbol.category c ∈ s) :
    c < categoryCount ∨ ∃ q ∈ p.repetitions, c = number q := by
  induction p generalizing s with
  | empty =>
    rw [sequences, mem_singleton] at hs
    simp [hs] at hc
  | terminal t kept =>
    rw [sequences, mem_singleton] at hs
    simp [hs] at hc
  | category d =>
    rw [sequences, mem_singleton] at hs
    rw [hs, mem_singleton, Symbol.category.injEq] at hc
    exact .inl (hc ▸ ctorIdx_lt_categoryCount d)
  | seq a b iha ihb =>
    simp only [sequences, mem_flatMap, mem_map] at hs
    obtain ⟨s₁, h₁, s₂, h₂, rfl⟩ := hs
    simp only [repetitions, mem_append]
    rcases mem_append.1 hc with hc | hc
    · exact (iha h₁ hc).imp_right fun h => h.imp fun _ hq => ⟨.inl hq.1, hq.2⟩
    · exact (ihb h₂ hc).imp_right fun h => h.imp fun _ hq => ⟨.inr hq.1, hq.2⟩
  | alt a b iha ihb =>
    simp only [sequences, mem_append] at hs
    simp only [repetitions, mem_append]
    rcases hs with hs | hs
    · exact (iha hs hc).imp_right fun h => h.imp fun _ hq => ⟨.inl hq.1, hq.2⟩
    · exact (ihb hs hc).imp_right fun h => h.imp fun _ hq => ⟨.inr hq.1, hq.2⟩
  | repeated a ih =>
    rw [sequences, mem_singleton] at hs
    rw [hs, mem_singleton, Symbol.category.injEq] at hc
    exact .inr ⟨a, by simp [repetitions], hc⟩

namespace Production

variable {repeated : List Pattern} {next : Nat}

/-- Whether a production speaks only of categories below `low`. -/
structure Speaks (low : Nat) (p : Production) : Prop where
  origin_lt : p.origin < low
  category_lt : ∀ c, Symbol.category c ∈ p.symbols → c < low

theorem repetitionNumber_lt {p} (h : p ∈ repeated) : repetitionNumber repeated p < categoryCount + repeated.length :=
  Nat.add_lt_add_left (idxOf_lt_length_of_mem h) _

theorem speaks_of_mem_sequences {p : Pattern} {s : List Symbol} {c : Nat}
    (hp : ∀ q ∈ p.repetitions, q ∈ repeated) (hs : s ∈ p.sequences (repetitionNumber repeated))
    (hc : Symbol.category c ∈ s) : c < categoryCount + repeated.length := by
  rcases p.category_mem_sequences hs hc with h | ⟨q, hq, rfl⟩
  · omega
  · exact repetitionNumber_lt (hp q hq)

variable {p : Production}

theorem speaks_ofRule {r : Rule} (hr : ∀ a ∈ r.alternatives, ∀ q ∈ a.body.repetitions, q ∈ repeated)
    (hp : p ∈ ofRule (repetitionNumber repeated) r) :
    p.Speaks (categoryCount + repeated.length) := by
  obtain ⟨⟨⟨symbols, label⟩, order⟩, hmem, rfl⟩ := mem_map.1 hp
  have hmem := (mem_zipIdx' hmem).2 ▸ getElem_mem _
  simp only [sequencesOf, mem_eraseDups, mem_flatMap, mem_map] at hmem
  obtain ⟨a, ha, s, hs, heq⟩ := hmem
  cases heq
  refine ⟨?_, fun c hc => speaks_of_mem_sequences (hr a ha) hs hc⟩
  have := ctorIdx_lt_categoryCount r.category
  dsimp only
  omega

theorem speaks_ofRepetition {q : Pattern} (hq : q ∈ repeated)
    (hr : ∀ r ∈ q.repetitions, r ∈ repeated) (hp : p ∈ ofRepetition (repetitionNumber repeated) q) :
    p.Speaks (categoryCount + repeated.length) := by
  obtain ⟨⟨symbols, order⟩, hmem, rfl⟩ := mem_map.1 hp
  have hmem := (mem_zipIdx' hmem).2 ▸ getElem_mem _
  refine ⟨repetitionNumber_lt hq, fun c hc => ?_⟩
  rcases mem_append.1 hmem with hs | hs
  · exact speaks_of_mem_sequences hr hs hc
  · obtain ⟨once, honce, rfl⟩ := mem_map.1 hs
    rcases mem_cons.1 hc with hc | hc
    · rw [Symbol.category.injEq] at hc
      exact hc ▸ repetitionNumber_lt hq
    · exact speaks_of_mem_sequences hr honce hc

/-! ### Places -/

/-- Whether the places of a production lie between two numbers. -/
structure Lies (low high : Nat) (p : Production) : Prop where
  low_le : low ≤ p.base
  lt_high : p.base + p.symbols.length < high

theorem le_numberPlaces (next : Nat) (ps : List Production) : next ≤ (numberPlaces next ps).2 := by
  induction ps generalizing next with
  | nil => exact Nat.le_refl _
  | cons p ps ih =>
    rw [numberPlaces]
    have := ih (next + p.symbols.length + 1)
    dsimp only
    omega

variable {ps : List Production}

theorem lies_numberPlaces (hp : p ∈ (numberPlaces next ps).1) : p.Lies next (numberPlaces next ps).2 := by
  induction ps generalizing next with
  | nil => simp [numberPlaces] at hp
  | cons q ps ih =>
    have hle := le_numberPlaces (next + q.symbols.length + 1) ps
    rw [numberPlaces] at hp ⊢
    rcases mem_cons.1 hp with rfl | hp
    · exact ⟨Nat.le_refl _, by dsimp only; omega⟩
    · obtain ⟨hlow, hhigh⟩ := ih hp
      exact ⟨by omega, hhigh⟩

theorem eq_of_place_eq {q} (hp : p ∈ (numberPlaces next ps).1)
    (hq : q ∈ (numberPlaces next ps).1) {i j} (hi : i ≤ p.symbols.length)
    (hj : j ≤ q.symbols.length) (h : p.base + i = q.base + j) : p = q := by
  induction ps generalizing next with
  | nil => simp [numberPlaces] at hp
  | cons r ps ih =>
    rw [numberPlaces] at hp hq
    rcases mem_cons.1 hp with rfl | hp
    · rcases mem_cons.1 hq with rfl | hq
      · rfl
      · have := (lies_numberPlaces hq).low_le
        dsimp only at h hi
        omega
    · rcases mem_cons.1 hq with rfl | hq
      · have := (lies_numberPlaces hp).low_le
        dsimp only at h hj
        omega
      · exact ih hp hq

theorem exists_of_mem_numberPlaces (hp : p ∈ (numberPlaces next ps).1) : ∃ q ∈ ps, ∃ n, p = { q with base := n } := by
  induction ps generalizing next with
  | nil => simp [numberPlaces] at hp
  | cons r ps ih =>
    rw [numberPlaces] at hp
    rcases mem_cons.1 hp with rfl | hp
    · exact ⟨r, by simp, next, rfl⟩
    · obtain ⟨q, hq, n, rfl⟩ := ih hp
      exact ⟨q, by simp [hq], n, rfl⟩

/-! ### Predictions -/

theorem mem_reachable {byOrigin fuel queue visited}
    (hp : p ∈ reachable byOrigin fuel queue visited) : ∃ c, p ∈ byOrigin c := by
  induction fuel generalizing queue visited with
  | zero => simp [reachable] at hp
  | succ fuel ih =>
    cases queue with
    | nil => simp [reachable] at hp
    | cons c queue =>
      rcases mem_append.1 hp with hp | hp
      · exact ⟨c, hp⟩
      · exact ih hp

end Production

end Blackboard.Grammar

namespace Blackboard.Grammar

/-- What a parser may rely on: the productions it predicts are numbered, categories below `low` and
places from there on, and no two of them share a place. -/
structure Numbered (g : Grammar) (ps : List Production) (low : Nat) : Prop where
  category_lt : ∀ c : Category, c.ctorIdx < low
  low_le : low ≤ g.width
  mem_of_predict : ∀ {c p}, p ∈ g.predict c → p ∈ ps
  speaks : ∀ {p}, p ∈ ps → p.Speaks low
  lies : ∀ {p}, p ∈ ps → p.Lies low g.width
  eq_of_place_eq : ∀ {p q}, p ∈ ps → q ∈ ps → ∀ {i j}, i ≤ p.symbols.length →
    j ≤ q.symbols.length → p.base + i = q.base + j → p = q

theorem mem_productionsOf_speaks {rules : List Rule} {p : Production} (hp : p ∈ (productionsOf rules).1) :
    p.Speaks (categoryCount + (Production.repetitions rules).length) := by
  have hrep : ∀ r ∈ rules, ∀ a ∈ r.alternatives, ∀ q ∈ a.body.repetitions, q ∈ Production.repetitions rules := by
    intro r hr a ha q hq
    simp only [Production.repetitions, List.mem_eraseDups, List.mem_flatMap]
    exact ⟨r, hr, a, ha, hq⟩
  have hinner : ∀ q ∈ Production.repetitions rules, ∀ r ∈ q.repetitions, r ∈ Production.repetitions rules := by
    intro q hq r hr
    simp only [Production.repetitions, List.mem_eraseDups, List.mem_flatMap] at hq ⊢
    obtain ⟨rule, hrule, a, ha, hq⟩ := hq
    exact ⟨rule, hrule, a, ha, Pattern.repetitions_trans hq hr⟩
  obtain ⟨q, hq, n, rfl⟩ := Production.exists_of_mem_numberPlaces hp
  have hspeaks : q.Speaks (categoryCount + (Production.repetitions rules).length) := by
    rcases List.mem_append.1 hq with hq | hq
    · obtain ⟨r, hr, hq⟩ := List.mem_flatMap.1 hq
      exact Production.speaks_ofRule (hrep r hr) hq
    · obtain ⟨r, hr, hq⟩ := List.mem_flatMap.1 hq
      exact Production.speaks_ofRepetition hr (hinner r hr) hq
  exact ⟨hspeaks.origin_lt, hspeaks.category_lt⟩

theorem forall_mem_grouped {P : Production → Prop} {qs : List Production}
    {m : Std.TreeMap Nat (List Production)} (hm : ∀ c : Nat, ∀ p ∈ (m[c]?).getD [], P p)
    (hq : ∀ p ∈ qs, P p) (c : Nat) :
    ∀ p ∈ ((qs.foldl (fun m p => m.insert p.origin ((m[p.origin]?).getD [] ++ [p])) m)[c]?).getD [], P p := by
  induction qs generalizing m with
  | nil => exact hm c
  | cons q qs ih =>
    refine ih ?_ fun p hp => hq p (by simp [hp])
    intro d p hp
    rw [Std.TreeMap.getElem?_insert] at hp
    split at hp
    · rcases List.mem_append.1 hp with hp | hp
      · exact hm _ p hp
      · exact hq p (by simp [List.mem_singleton.1 hp])
    · exact hm d p hp

theorem mem_productionsOf_of_predict {rules : List Rule} {c : Nat} {p : Production}
    (hp : p ∈ (ofRules rules).predict c) : p ∈ (productionsOf rules).1 := by
  simp only [ofRules, predict, Std.TreeMap.foldl_eq_foldl_toList] at hp
  have hself : ∀ p ∈ (productionsOf rules).1, p ∈ (productionsOf rules).1 := fun p hp => hp
  have hgroup := forall_mem_grouped (m := ∅) (by simp) hself
  generalize (productionsOf rules).1.foldl _ (∅ : Std.TreeMap Nat (List Production)) = byOrigin
    at hp hgroup
  -- every entry of the table of predictions is made from the grouped productions
  have hentries : ∀ (entries : List (Nat × List Production)) (m : Std.TreeMap Nat (List Production)),
      (∀ c : Nat, ∀ p ∈ (m[c]?).getD [], p ∈ (productionsOf rules).1) →
      ∀ c : Nat, ∀ p ∈ ((entries.foldl (fun m e => m.insert e.1
        (Production.reachable (fun c => (byOrigin[c]?).getD []) (byOrigin.size + 1) [e.1] [e.1]))
        m)[c]?).getD [], p ∈ (productionsOf rules).1 := by
    intro entries
    induction entries with
    | nil => exact fun m hm => hm
    | cons e entries ih =>
      intro m hm
      refine ih _ fun d p hp => ?_
      rw [Std.TreeMap.getElem?_insert] at hp
      split at hp
      · obtain ⟨d, hp⟩ := Production.mem_reachable hp
        exact hgroup d p hp
      · exact hm d p hp
  exact hentries _ ∅ (by simp) c p hp

theorem ofRules_numbered (rules : List Rule) : (ofRules rules).Numbered (productionsOf rules).1
      (categoryCount + (Production.repetitions rules).length) where
  category_lt c := Nat.lt_of_lt_of_le (ctorIdx_lt_categoryCount c) (Nat.le_add_right ..)
  low_le := Production.le_numberPlaces ..
  mem_of_predict := mem_productionsOf_of_predict
  speaks := mem_productionsOf_speaks
  lies := Production.lies_numberPlaces
  eq_of_place_eq hp hq _ _ := Production.eq_of_place_eq hp hq

/-! ### The two languages -/

def mayBeEmpty (c : Nat) : Bool := c == Category.program.ctorIdx || c == Category.modifiers.ctorIdx

def Symbol.isSolid : Symbol → Bool
  | .terminal _ _ => true
  | .category c => !mayBeEmpty c

/-- Whether a production has a part that is always read from a token, or else is shown as a node of
one of the categories that can be read from none. -/
def Production.isOrderly (p : Production) : Bool :=
  if p.origin == Category.program.ctorIdx then p.shape == .node && p.label == .program
  else if p.origin == Category.modifiers.ctorIdx then p.shape == .node && p.label == .modifiers
  else p.symbols.any Symbol.isSolid

/-- A numbered grammar whose productions are orderly. -/
structure Orderly (g : Grammar) (ps : List Production) (low : Nat) : Prop
    extends g.Numbered ps low where
  orderly : ∀ {p}, p ∈ ps → p.isOrderly = true

end Blackboard.Grammar
