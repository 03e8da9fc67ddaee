import Blackboard.Proofs.Parsing.Numbering

/-!
What the readings in a chart say: of a stretch of tokens, the last symbol read begins within the
stretch, and a terminal is read from exactly one token. A category that must be read from a token is
read from a stretch that is not empty.
-/
namespace Blackboard.Grammar

open List

variable {g : Grammar} {ps : List Production} {low n here : Nat}
variable {code start stop code' start' stop' : Nat}

/-- Whether the last of some symbols, if it is a terminal, is read from one token. -/
def EndsWith (symbols : List Symbol) (split stop : Nat) : Prop :=
  ∀ t kept, symbols.getLast? = some (.terminal t kept) → split + 1 = stop

/-- Whether an item at the place `here` has read the first symbols of a production, from `start`
on. -/
structure Item.Sound (ps : List Production) (here : Nat) (i : Item) : Prop where
  mem : i.production ∈ ps
  dot_le : i.dot ≤ i.production.symbols.length
  rest_eq : i.rest = i.production.symbols.drop i.dot
  start_le : i.start ≤ here
  start_lt : (∃ s ∈ i.production.symbols.take i.dot, s.isSolid = true) → i.start < here

/-- What is read under a code: all symbols of a production, or the first ones. -/
inductive Reads (p : Production) : (code : Nat) → List Symbol → Prop where
  | complete : Reads p p.origin p.symbols
  | part {dot : Nat} : dot ≤ p.symbols.length → Reads p (p.base + dot) (p.symbols.take dot)

/-- Whether a reading of a stretch under a code divides the stretch at the beginning of the last
symbol read. -/
structure Reading.Sound (ps : List Production) (code start stop : Nat) (r : Reading) : Prop where
  mem : r.production ∈ ps
  start_le : start ≤ r.split
  split_le : r.split ≤ stop
  ends : ∃ symbols, Reads r.production code symbols ∧ EndsWith symbols r.split stop
  start_lt : code = r.production.origin → mayBeEmpty code = false → start < stop

structure Forest.Sound (g : Grammar) (ps : List Production) (n : Nat) (f : Forest) : Prop where
  width_eq : f.width = g.width
  stride_eq : f.stride = n + 1
  readings : ∀ {code start stop r}, code < g.width → start ≤ n → r ∈ f.get code start stop →
    r.Sound ps code start stop

/-! ### The forest -/

variable {f : Forest}

theorem Forest.key_inj (hc : code < f.width) (hs : start < f.stride) (hc' : code' < f.width)
    (hs' : start' < f.stride) (h : f.key code start stop = f.key code' start' stop') :
    code = code' ∧ start = start' ∧ stop = stop' := by
  have hsplit : ∀ {a a' b b' w : Nat}, b < w → b' < w → a * w + b = a' * w + b' → b = b' ∧ a = a' := by
    intro a a' b b' w hb hb' heq
    have hmod := congrArg (· % w) heq
    have hdiv := congrArg (· / w) heq
    simp only [Nat.mul_comm _ w, Nat.mul_add_mod, Nat.mod_eq_of_lt hb, Nat.mod_eq_of_lt hb'] at hmod
    simp only [Nat.mul_comm _ w, Nat.mul_add_div (show w > 0 by omega), Nat.div_eq_of_lt hb,
      Nat.div_eq_of_lt hb', Nat.add_zero] at hdiv
    exact ⟨hmod, hdiv⟩
  obtain ⟨hcode, hplace⟩ := hsplit hc hc' h
  exact ⟨hcode, hsplit hs hs' hplace⟩

theorem Forest.Sound.of_mem_get_add (h : f.Sound g ps n) {r} (hc : code < g.width)
    (hs : start ≤ n) {r'} (hc' : code' < g.width) (hs' : start' ≤ n)
    (hr' : r' ∈ (f.add code start stop r).get code' start' stop') :
    r' ∈ f.get code' start' stop' ∨ (r' = r ∧ code' = code ∧ start' = start ∧ stop' = stop) := by
  unfold Forest.add at hr'
  dsimp only at hr'
  split at hr'
  · exact .inl hr'
  · simp only [get, key, Std.TreeMap.getElem?_insert] at hr'
    split at hr'
    · next heq =>
      have hkey : f.key code start stop = f.key code' start' stop' := by simpa [key] using heq
      obtain ⟨rfl, rfl, rfl⟩ := key_inj (by rw [h.width_eq]; exact hc)
        (by rw [h.stride_eq]; omega) (by rw [h.width_eq]; exact hc')
        (by rw [h.stride_eq]; omega) hkey
      rcases mem_append.1 hr' with hr' | hr'
      · exact .inl hr'
      · exact .inr ⟨mem_singleton.1 hr', rfl, rfl, rfl⟩
    · exact .inl hr'

theorem Forest.Sound.add {f : Forest} (h : f.Sound g ps n) {code start stop : Nat} {r : Reading}
    (hc : code < g.width) (hs : start ≤ n) (hr : r.Sound ps code start stop) :
    (f.add code start stop r).Sound g ps n := by
  have hsame : (f.add code start stop r).width = f.width ∧ (f.add code start stop r).stride = f.stride := by
    unfold Forest.add
    dsimp only
    split <;> exact ⟨rfl, rfl⟩
  refine ⟨hsame.1.trans h.width_eq, hsame.2.trans h.stride_eq, ?_⟩
  intro code' start' stop' r' hc' hs' hr'
  rcases h.of_mem_get_add hc hs hc' hs' hr' with hr' | ⟨rfl, rfl, rfl, rfl⟩
  · exact h.readings hc' hs' hr'
  · exact hr

/-! ### Items -/

namespace Item

variable {s : Symbol} {ss : List Symbol} {stop : Nat}

theorem Sound.begin {p} (hp : p ∈ ps) : (begin p here).Sound ps here :=
  ⟨hp, Nat.zero_le _, rfl, Nat.le_refl _, by simp [Item.begin]⟩

variable {i : Item}

theorem Sound.dot_lt (h : i.Sound ps here) (hs : i.rest = s :: ss) : i.dot < i.production.symbols.length := by
  rcases Nat.lt_or_ge i.dot i.production.symbols.length with hlt | hge
  · exact hlt
  · rw [h.rest_eq, drop_eq_nil_of_le hge] at hs
    cases hs

theorem Sound.advance (h : i.Sound ps here) (hs : i.rest = s :: ss) (hle : here ≤ stop)
    (hlt : s.isSolid = true → here < stop) : i.advance.Sound ps stop := by
  have hnext : i.production.symbols.drop i.dot = s :: ss := h.rest_eq ▸ hs
  refine ⟨h.mem, h.dot_lt hs, ?_, Nat.le_trans h.start_le hle, ?_⟩
  · change i.rest.tail = i.production.symbols.drop (i.dot + 1)
    rw [h.rest_eq, tail_drop]
  · rintro ⟨s', hmem, hsolid⟩
    change s' ∈ i.production.symbols.take (i.dot + 1) at hmem
    rw [take_add, hnext] at hmem
    rcases mem_append.1 hmem with hmem | hmem
    · exact Nat.lt_of_lt_of_le (h.start_lt ⟨s', hmem, hsolid⟩) hle
    · rw [take_succ_cons, take_zero, mem_singleton] at hmem
      exact Nat.lt_of_le_of_lt h.start_le (hlt (hmem ▸ hsolid))

theorem Sound.start_lt_of_complete (hg : g.Orderly ps low) (h : i.Sound ps here)
    (hrest : i.rest = []) (hc : mayBeEmpty i.production.origin = false) : i.start < here := by
  have hall : i.production.symbols.take i.dot = i.production.symbols := by
    rw [h.rest_eq, drop_eq_nil_iff] at hrest
    exact take_of_length_le hrest
  refine h.start_lt ?_
  rw [hall]
  have horderly := hg.orderly h.mem
  simp only [mayBeEmpty, Bool.or_eq_false_iff] at hc
  simpa [Production.isOrderly, hc.1, hc.2] using horderly

theorem Sound.reads (h : i.Sound ps here) (hs : i.rest = s :: ss) :
    Reads i.advance.production i.advance.code (i.production.symbols.take i.dot ++ [s]) := by
  have hnext : i.production.symbols.drop i.dot = s :: ss := h.rest_eq ▸ hs
  have htake : i.production.symbols.take i.dot ++ [s] = i.production.symbols.take (i.dot + 1) := by
    rw [take_add, hnext, take_succ_cons, take_zero]
  have hrest : i.advance.rest = i.production.symbols.drop (i.dot + 1) := by
    change i.rest.tail = _
    rw [h.rest_eq, tail_drop]
  rw [htake]
  unfold code
  split
  · next hempty =>
    rw [hrest, List.isEmpty_iff, drop_eq_nil_iff] at hempty
    rw [take_of_length_le hempty]
    exact .complete
  · exact .part (h.dot_lt hs)

theorem Sound.code_lt (hg : g.Orderly ps low) (h : i.Sound ps here) : i.code < g.width := by
  have hdot := h.dot_le
  have hlies := hg.lies h.mem
  have horigin := (hg.speaks h.mem).origin_lt
  have := hlies.low_le
  have := hlies.lt_high
  unfold code place
  split <;> omega

theorem Sound.rest_eq_nil (hg : g.Orderly ps low) (h : i.Sound ps here)
    (hcode : i.code = i.production.origin) : i.rest = [] := by
  have hlow := (hg.lies h.mem).low_le
  have horigin := (hg.speaks h.mem).origin_lt
  unfold code place at hcode
  split at hcode
  · next hempty => exact List.isEmpty_iff.1 hempty
  · omega

theorem Sound.eq_of_key (hg : g.Orderly ps low) {j} (hi : i.Sound ps here)
    (hj : j.Sound ps here) (h : ItemSet.key g.width i = ItemSet.key g.width j) : i = j := by
  have hlt : ∀ {i : Item}, i.Sound ps here → i.place < g.width := by
    intro i hi
    have := hi.dot_le
    have := (hg.lies hi.mem).lt_high
    unfold place
    omega
  obtain ⟨hstart, hplace⟩ : i.start = j.start ∧ i.place = j.place := by
    have hpos : 0 < g.width := Nat.zero_lt_of_lt (hlt hi)
    have hdiv := congrArg (· / g.width) h
    have hmod := congrArg (· % g.width) h
    simp only [ItemSet.key, Nat.mul_add_mod_self_right, Nat.mod_eq_of_lt (hlt hi), Nat.mod_eq_of_lt (hlt hj)] at hmod
    simp only [ItemSet.key, Nat.add_comm (_ * _), Nat.add_mul_div_right _ _ hpos,
      Nat.div_eq_of_lt (hlt hi), Nat.div_eq_of_lt (hlt hj), Nat.zero_add] at hdiv
    exact ⟨hdiv, hmod⟩
  have hproduction := hg.eq_of_place_eq hi.mem hj.mem hi.dot_le hj.dot_le hplace
  have hdot : i.dot = j.dot := by
    unfold place at hplace
    rw [hproduction] at hplace
    omega
  have hrest : i.rest = j.rest := by rw [hi.rest_eq, hj.rest_eq, hproduction, hdot]
  cases i
  cases j
  cases hproduction
  cases hdot
  cases hrest
  cases hstart
  rfl

theorem rest_of_awaits {c} (h : i.awaits c = true) : ∃ ss, i.rest = .category c :: ss := by
  unfold Item.awaits at h
  split at h
  · next c' ss hs => exact ⟨ss, by rw [hs, eq_of_beq h]⟩
  · cases h

theorem rest_of_terminal? {t} (h : i.terminal? = some t) : ∃ kept ss, i.rest = .terminal t kept :: ss := by
  unfold Item.terminal? at h
  split at h
  · next t' kept ss hs => exact ⟨kept, ss, by rw [hs, Option.some.inj h]⟩
  · cases h

/-! ### Readings -/

theorem Sound.reading_advance (hg : g.Orderly ps low) {split} (hi : i.Sound ps split)
    (hs : i.rest = s :: ss) (hnext : i.advance.Sound ps stop) (hsplit : split ≤ stop)
    (hends : ∀ t kept, s = .terminal t kept → split + 1 = stop) :
    Reading.Sound ps i.advance.code i.advance.start stop ⟨i.advance.production, split⟩ := by
  refine ⟨hi.mem, hi.start_le, hsplit, ⟨_, hi.reads hs, ?_⟩, ?_⟩
  · intro t kept ht
    rw [getLast?_concat, Option.some.injEq] at ht
    exact hends t kept ht
  · intro hcode hc
    exact hnext.start_lt_of_complete hg (hnext.rest_eq_nil hg hcode) (hcode ▸ hc)

theorem Sound.symbols_eq_nil (hi : i.Sound ps here) (hrest : i.rest = []) (hdot : i.dot = 0) :
    i.production.symbols = [] := by
  have := hi.rest_eq
  rwa [hrest, hdot, eq_comm] at this

theorem Sound.reading_empty (hg : g.Orderly ps low) (hi : i.Sound ps here) (hrest : i.rest = [])
    (hdot : i.dot = 0) : Reading.Sound ps i.code i.start here ⟨i.production, here⟩ := by
  refine ⟨hi.mem, hi.start_le, Nat.le_refl _, ⟨i.production.symbols, ?_, ?_⟩, ?_⟩
  · rw [code, hrest]
    exact .complete
  · simp [EndsWith, hi.symbols_eq_nil hrest hdot]
  · intro hcode hc
    exact hi.start_lt_of_complete hg hrest (hcode ▸ hc)

theorem Sound.mayBeEmpty_of_complete (hg : g.Orderly ps low) (hi : i.Sound ps here)
    (hrest : i.rest = []) (hstart : i.start = here) : mayBeEmpty i.production.origin = true := by
  by_cases hc : mayBeEmpty i.production.origin = true
  · exact hc
  · have := hi.start_lt_of_complete hg hrest (by simpa using hc)
    omega

end Item

end Blackboard.Grammar
