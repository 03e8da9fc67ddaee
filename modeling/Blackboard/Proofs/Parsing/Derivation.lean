import Mathlib.Data.Finset.Card
import Blackboard.Proofs.Parsing.Stretch

/-!
Derivations: how the productions of a grammar read tokens as trees. The tree taken from a chart is
derived from all of its tokens. No production leads back to its own category without taking a token,
so the parts of a tree can be followed down with less fuel than there are stretches in the forest.
-/
namespace Blackboard.Grammar

open List

/-- Some symbols are read from some tokens in order, and shown as some trees. -/
inductive Derives (ps : List Production) : List Symbol → List Token → List Tree → Prop where
  | nil : Derives ps [] [] []
  | terminal {token : Token} {kept : Bool} {symbols : List Symbol} {tokens : List Token}
      {trees : List Tree} :
    Derives ps symbols tokens trees →
    Derives ps (.terminal token.terminal kept :: symbols) (token :: tokens)
      ((if kept then [.leaf token] else []) ++ trees)
  | category {p : Production} {symbols : List Symbol} {tokens tokens' : List Token}
      {parts trees : List Tree} :
    p ∈ ps → Derives ps p.symbols tokens parts → Derives ps symbols tokens' trees →
    Derives ps (.category p.origin :: symbols) (tokens ++ tokens') (Tree.shaped p parts ++ trees)

namespace Derives

variable {ps : List Production} {symbols symbols' : List Symbol} {tokens tokens' : List Token}
  {trees trees' : List Tree}

theorem append (h : Derives ps symbols tokens trees) (h' : Derives ps symbols' tokens' trees') :
    Derives ps (symbols ++ symbols') (tokens ++ tokens') (trees ++ trees') := by
  induction h with
  | nil => exact h'
  | terminal _ ih =>
    rw [append_assoc]
    exact .terminal ih
  | category hp hparts _ _ ih =>
    rw [append_assoc, append_assoc]
    exact .category hp hparts ih

theorem of_production {p} (hp : p ∈ ps) (h : Derives ps p.symbols tokens trees) :
    Derives ps [.category p.origin] tokens (Tree.shaped p trees) := by
  simpa using Derives.category hp h .nil

theorem exists_production {c} (h : Derives ps [.category c] tokens trees) :
    ∃ p ∈ ps, p.origin = c ∧ ∃ parts, Derives ps p.symbols tokens parts ∧ trees = Tree.shaped p parts := by
  cases h with
  | category hp hparts hnil =>
    cases hnil
    exact ⟨_, hp, rfl, _, by simpa using hparts, by simp⟩

theorem of_token (token : Token) (kept : Bool) :
    Derives ps [.terminal token.terminal kept] [token] (if kept then [.leaf token] else []) := by
  have h : Derives ps _ _ ((if kept then [.leaf token] else []) ++ []) := .terminal .nil
  rwa [append_nil] at h

end Derives

/-! ### Stretches that become shorter -/

/-- A grammar in which the last symbol of a production takes a token, and in which a category that is
read from all the tokens of another one ranks below that one. -/
structure Tiered (ps : List Production) (low : Nat) (rank : Nat → Nat) : Prop where
  rank_lt : ∀ c, rank c < low
  last_solid : ∀ {p}, p ∈ ps → ∀ {before last}, p.symbols = before ++ [last] → last.isSolid = true
  descends : ∀ {p}, p ∈ ps → ∀ {before c}, p.symbols = before ++ [.category c] →
    (∀ s ∈ before, s.isSolid = false) → rank c < rank p.origin

variable {g : Grammar} {ps : List Production} {low : Nat} {ts : List Terminal} {rank : Nat → Nat}

namespace Forest

variable {f : Forest}
variable {code start stop code' start' stop' : Nat} {p : Production} {r : Reading}

theorem Grounded.get_le (hf : f.Grounded g ps ts) (hcode : code < g.width)
    (hstart : start ≤ ts.length) (h : f.get code start stop ≠ []) : start ≤ stop := by
  obtain ⟨r, hr⟩ := exists_mem_of_ne_nil _ h
  have hsound := hf.readings hcode hstart hr
  exact Nat.le_trans hsound.start_le hsound.split_le

theorem Shows.lt (hg : g.Orderly ps low) (hf : f.Grounded g ps ts) (hp : p ∈ ps) {s}
    (hs : s ∈ p.symbols) (hsolid : s.isSolid = true) (hstart : start ≤ ts.length)
    (h : f.Shows ts start stop s) : start < stop := by
  cases s with
  | terminal t kept =>
    obtain ⟨-, rfl⟩ := h
    exact Nat.lt_succ_self _
  | category c =>
    have hc : c < low := (hg.speaks hp).category_lt c hs
    obtain ⟨r, hr⟩ := exists_mem_of_ne_nil _ (h : f.get c start stop ≠ [])
    have hsound := hf.readings (Nat.lt_of_lt_of_le hc hg.low_le) hstart hr
    obtain ⟨symbols, hreads, -⟩ := hsound.ends
    refine hsound.start_lt ?_ (by simpa [Symbol.isSolid] using hsolid)
    cases hreads with
    | complete => rfl
    | part hdot =>
      have := (hg.lies hsound.mem).low_le
      omega

theorem Grounded.of_mem_get_place (hg : g.Orderly ps low) (hf : f.Grounded g ps ts) (hp : p ∈ ps)
    {dot} (hdot : dot + 1 ≤ p.symbols.length) (hstart : start ≤ ts.length)
    (hr : r ∈ f.get (p.base + (dot + 1)) start stop) :
    r.production = p ∧ f.Holds p dot start r.split ∧ f.Shows ts r.split stop p.symbols[dot] := by
  have hlies := hg.lies hp
  obtain ⟨hmem, symbols, hreads, hparts⟩ := hf.grounds
    (Nat.lt_of_le_of_lt (Nat.add_le_add_left hdot _) hlies.lt_high) hstart hr
  generalize hcode : p.base + (dot + 1) = code at hreads
  cases hreads with
  | complete =>
    have := (hg.speaks hmem).origin_lt
    have := hlies.low_le
    omega
  | part hdot' =>
    have hsame := hg.eq_of_place_eq hp hmem hdot hdot' hcode
    rw [← hsame] at hcode hparts
    rw [← Nat.add_left_cancel hcode] at hparts
    rcases hparts with ⟨hnil, -⟩ | ⟨before, last, hsymbols, hholds, hshows⟩
    · rw [take_eq_nil_iff] at hnil
      rcases hnil with hnil | hnil
      · cases hnil
      · simp [hnil] at hdot
    · rw [take_succ_eq_append_getElem hdot] at hsymbols
      obtain ⟨hbefore, hlast⟩ := append_inj' hsymbols rfl
      have hlength : before.length = dot := by
        rw [← hbefore, length_take_of_le (Nat.le_of_lt hdot)]
      rw [hlength] at hholds
      cases hlast
      exact ⟨hsame.symm, hholds, hshows⟩

theorem Holds.le (hg : g.Orderly ps low) (hf : f.Grounded g ps ts) (hp : p ∈ ps) {dot}
    (hdot : dot ≤ p.symbols.length) (hstart : start ≤ ts.length) (h : f.Holds p dot start stop) :
    start ≤ stop := by
  have hlies := (hg.lies hp).lt_high
  unfold Holds at h
  split at h
  · exact Nat.le_of_eq h
  · exact hf.get_le (by omega) hstart h

theorem Holds.lt (hg : g.Orderly ps low) (hf : f.Grounded g ps ts)
    {p} (hp : p ∈ ps) {dot start stop} (hdot : dot ≤ p.symbols.length)
    (hstop : stop ≤ ts.length) (hstart : start ≤ ts.length) (h : f.Holds p dot start stop)
    (hsolid : ∃ s ∈ p.symbols.take dot, s.isSolid = true) : start < stop := by
  induction dot generalizing stop with
  | zero =>
    obtain ⟨s, hmem, -⟩ := hsolid
    simp at hmem
  | succ dot ih =>
    obtain ⟨r, hr⟩ := exists_mem_of_ne_nil _ h
    have hlies := (hg.lies hp).lt_high
    have hsplit := (hf.readings (by omega) hstart hr).split_le
    obtain ⟨-, hholds, hshows⟩ := hf.of_mem_get_place hg hp hdot hstart hr
    have hle := hholds.le hg hf hp (by omega) hstart
    obtain ⟨s, hmem, hsolid⟩ := hsolid
    rw [take_succ_eq_append_getElem hdot] at hmem
    rcases mem_append.1 hmem with hmem | hmem
    · exact Nat.lt_of_lt_of_le (ih (by omega) (by omega) hholds ⟨s, hmem, hsolid⟩) hsplit
    · rw [mem_singleton] at hmem
      rw [hmem] at hsolid
      exact Nat.lt_of_le_of_lt hle (hshows.lt hg hf hp (getElem_mem _) hsolid (by omega))

theorem Grounded.of_mem_get_category (hg : g.Orderly ps low) (hf : f.Grounded g ps ts) {c}
    (hc : c < low) (hstart : start ≤ ts.length) (hr : r ∈ f.get c start stop) :
    r.production ∈ ps ∧ r.production.origin = c ∧ ((r.production.symbols = [] ∧ start = stop) ∨
        ∃ before last, r.production.symbols = before ++ [last] ∧
          f.Holds r.production before.length start r.split ∧ f.Shows ts r.split stop last) := by
  obtain ⟨hmem, symbols, hreads, hparts⟩ :=
    hf.grounds (Nat.lt_of_lt_of_le hc hg.low_le) hstart hr
  cases hreads with
  | complete => exact ⟨hmem, rfl, hparts⟩
  | part hdot =>
    have := (hg.lies hmem).low_le
    omega

/-! ### Fuel -/

/-- Longer stretches weigh more, then places more than categories, and these by their ranks. -/
def weight (f : Forest) (rank : Nat → Nat) (low code start stop : Nat) : Nat :=
  (stop - start) * f.width + if code < low then rank code else code

def weightOfKey (f : Forest) (rank : Nat → Nat) (low k : Nat) : Nat :=
  f.weight rank low (k % f.width) (k / f.width % f.stride) (k / f.width / f.stride)

def lighter (f : Forest) (rank : Nat → Nat) (low m : Nat) : Finset Nat :=
  {k ∈ f.readings.keys.toFinset | f.weightOfKey rank low k < m}

theorem weightOfKey_key (hc : code < f.width) (hs : start < f.stride) :
    f.weightOfKey rank low (f.key code start stop) = f.weight rank low code start stop := by
  have hwidth : 0 < f.width := Nat.zero_lt_of_lt hc
  have hstride : 0 < f.stride := Nat.zero_lt_of_lt hs
  have hcode : f.key code start stop % f.width = code := by
    rw [key, Nat.mul_add_mod_self_right, Nat.mod_eq_of_lt hc]
  have hplace : f.key code start stop / f.width = stop * f.stride + start := by
    rw [key, Nat.add_comm, Nat.add_mul_div_right _ _ hwidth, Nat.div_eq_of_lt hc, Nat.zero_add]
  have hstart : (stop * f.stride + start) % f.stride = start := by
    rw [Nat.mul_add_mod_self_right, Nat.mod_eq_of_lt hs]
  have hstop : (stop * f.stride + start) / f.stride = stop := by
    rw [Nat.add_comm, Nat.add_mul_div_right _ _ hstride, Nat.div_eq_of_lt hs, Nat.zero_add]
  rw [weightOfKey, hcode, hplace, hstart, hstop]

theorem card_lighter_le (f : Forest) (rank : Nat → Nat) (low m : Nat) :
    (f.lighter rank low m).card ≤ f.readings.size :=
  calc
    _ ≤ f.readings.keys.toFinset.card := Finset.card_filter_le ..
    _ ≤ f.readings.keys.length := toFinset_card_le _
    _ = f.readings.size := Std.TreeMap.length_keys

theorem card_lighter_lt {m} (hc : code < f.width) (hs : start < f.stride)
    (hget : f.get code start stop ≠ []) (hm : f.weight rank low code start stop < m) :
    (f.lighter rank low (f.weight rank low code start stop)).card < (f.lighter rank low m).card := by
  have hmem : f.key code start stop ∈ f.readings.keys.toFinset := by
    rw [mem_toFinset, Std.TreeMap.mem_keys, Std.TreeMap.mem_iff_isSome_getElem?]
    unfold get at hget
    cases hlookup : f.readings[f.key code start stop]? with
    | none => simp [hlookup] at hget
    | some rs => rfl
  refine Finset.card_lt_card (Finset.ssubset_iff_subset_ne.2 ⟨?_, ?_⟩)
  · intro k hk
    rw [lighter, Finset.mem_filter] at hk ⊢
    exact ⟨hk.1, Nat.lt_trans hk.2 hm⟩
  · intro heq
    have hlighter : f.key code start stop ∈ f.lighter rank low m := by
      rw [lighter, Finset.mem_filter, weightOfKey_key hc hs]
      exact ⟨hmem, hm⟩
    rw [← heq, lighter, Finset.mem_filter, weightOfKey_key hc hs] at hlighter
    exact Nat.lt_irrefl _ hlighter.2

theorem weight_lt_of_lt (hcode : (if code < low then rank code else code) < f.width)
    (h : stop - start < stop' - start') :
    f.weight rank low code start stop < f.weight rank low code' start' stop' := by
  unfold weight
  have hmul : (stop - start + 1) * f.width ≤ (stop' - start') * f.width :=
    Nat.mul_le_mul_right _ h
  rw [Nat.add_mul] at hmul
  omega

theorem weight_lt_of_le (h : stop - start ≤ stop' - start') (hcode : (if code < low then rank code else code) <
      if code' < low then rank code' else code') :
    f.weight rank low code start stop < f.weight rank low code' start' stop' := by
  unfold weight
  have hmul : (stop - start) * f.width ≤ (stop' - start') * f.width := Nat.mul_le_mul_right _ h
  omega

/-! ### The readings taken -/

theorem exists_best? {rs} (rank : Reading → Nat) (h : rs ≠ []) :
    ∃ r ∈ rs, best? (rs.map fun r => (r, rank r)) = some r := by
  cases hbest : best? (rs.map fun r => (r, rank r)) with
  | none =>
    cases rs with
    | nil => exact absurd rfl h
    | cons r rs => cases hbest
  | some r =>
    obtain ⟨n, hmem⟩ := mem_of_best? hbest
    obtain ⟨r', hr', heq⟩ := mem_map.1 hmem
    cases heq
    exact ⟨_, hr', rfl⟩

/-- The first symbols of a production are read from the two parts of a stretch, and both parts weigh
less than `m`. -/
structure Parted (f : Forest) (ts : List Terminal) (rank : Nat → Nat) (low : Nat) (p : Production)
    (before : List Symbol) (last : Symbol) (start split stop m : Nat) : Prop where
  begins : before ++ [last] <+: p.symbols
  start_le : start ≤ split
  split_le : split ≤ stop
  holds : f.Holds p before.length start split
  shows : f.Shows ts split stop last
  left_lt : before ≠ [] → f.weight rank low (p.base + before.length) start split < m
  right_lt : ∀ c, last = .category c → f.weight rank low c split stop < m

theorem Grounded.exists_partReading? (hg : g.Orderly ps low) (ht : Tiered ps low rank)
    (hf : f.Grounded g ps ts) (ranks : Std.TreeMap Nat Nat) (hp : p ∈ ps) {before last} (hbegins : before ++ [last] <+: p.symbols) (hstart : start ≤ ts.length)
    (h : f.Holds p (before ++ [last]).length start stop) :
    ∃ r, f.partReading? ranks p (last :: before.reverse) start stop = some r ∧
      f.Parted ts rank low p before last start r.split stop
        (f.weight rank low (p.base + (before ++ [last]).length) start stop) := by
  obtain ⟨hbase, hend⟩ := hg.lies hp
  have hlength : before.length + 1 ≤ p.symbols.length := by simpa using hbegins.length_le
  have hlast : p.symbols[before.length] = last := by
    rw [← hbegins.getElem (by simp)]
    simp
  rw [length_append, length_singleton] at h ⊢
  obtain ⟨r, hr, hbest⟩ := exists_best? (f.rankOf ranks false (before ++ [last]).reverse start stop) h
  have hsound := hf.readings (by omega) hstart hr
  have hlow := hsound.start_le
  have hhigh := hsound.split_le
  obtain ⟨-, hholds, hshows⟩ := hf.of_mem_get_place hg hp hlength hstart hr
  rw [hlast] at hshows
  refine ⟨r, ?_, hbegins, hlow, hhigh, hholds, hshows, fun _ => ?_, ?_⟩
  · unfold partReading?
    simpa using hbest
  · refine weight_lt_of_le (by omega) ?_
    rw [if_neg (by omega), if_neg (by omega)]
    omega
  · intro c hc
    have hrank := ht.rank_lt c
    have hlow : c < low := (hg.speaks hp).category_lt c (hbegins.subset (by simp [hc]))
    refine weight_lt_of_le (by omega) ?_
    rw [if_pos hlow, if_neg (by omega)]
    omega

theorem Grounded.exists_categoryReading? (hg : g.Orderly ps low) (ht : Tiered ps low rank)
    (hf : f.Grounded g ps ts) (ranks : Std.TreeMap Nat Nat) {c} (hc : c < low)
    (hstart : start ≤ ts.length) (hstop : stop ≤ ts.length) (h : f.get c start stop ≠ []) :
    ∃ r, f.categoryReading? ranks c start stop = some r ∧ r.production ∈ ps ∧
      r.production.origin = c ∧ ((r.production.symbols = [] ∧ start = stop) ∨
        ∃ before last, r.production.symbols = before ++ [last] ∧
          f.Parted ts rank low r.production before last start r.split stop (f.weight rank low c start stop)) := by
  obtain ⟨r, hr, hbest⟩ := exists_best? (fun r => f.rankOf ranks true r.production.symbols.reverse start stop r) h
  have hwidth := hf.width_eq
  have hsound := hf.readings (Nat.lt_of_lt_of_le hc hg.low_le) hstart hr
  have hlow := hsound.start_le
  have hhigh := hsound.split_le
  obtain ⟨hmem, horigin, hparts⟩ := hf.of_mem_get_category hg hc hstart hr
  refine ⟨r, hbest, hmem, horigin, hparts.imp_right ?_⟩
  rintro ⟨before, last, hsymbols, hholds, hshows⟩
  obtain ⟨hbase, hend⟩ := hg.lies hmem
  have hbegins : before ++ [last] <+: r.production.symbols := by rw [hsymbols]
  have hlength : before.length + 1 = r.production.symbols.length := by simp [hsymbols]
  have hlt := hshows.lt hg hf hmem (hbegins.subset (by simp)) (ht.last_solid hmem hsymbols) (by omega)
  refine ⟨before, last, hsymbols, hbegins, hlow, hhigh, hholds, hshows, fun _ => ?_, ?_⟩
  · refine weight_lt_of_lt ?_ (by omega)
    rw [if_neg (by omega)]
    omega
  · intro c' hc'
    have hrank := ht.rank_lt c'
    have hlow' : c' < low := (hg.speaks hmem).category_lt c' (hbegins.subset (by simp [hc']))
    rcases Nat.lt_or_eq_of_le hlow with hless | hsame
    · refine weight_lt_of_lt ?_ (by omega)
      rw [if_pos hlow', hwidth]
      exact Nat.lt_of_lt_of_le hrank hg.low_le
    · -- the symbols before take no token, so the last one ranks lower
      refine weight_lt_of_le (by omega) ?_
      rw [if_pos hlow', if_pos hc, ← horigin]
      refine ht.descends hmem (hc' ▸ hsymbols) fun s hsmem => ?_
      by_contra hne
      have hempty := hholds.lt hg hf hmem (by omega) (by omega) hstart
        ⟨s, by simpa [hsymbols] using hsmem, by simpa using hne⟩
      omega

end Forest

namespace Tree

/-! ### Trees -/

theorem extract_append {α} (l : List α) {a b c} (hab : a ≤ b) (hbc : b ≤ c) :
    l.extract a b ++ l.extract b c = l.extract a c := by
  have hsum : c - a = (b - a) + (c - b) := by omega
  have hdrop : l.drop b = (l.drop a).drop (b - a) := by
    rw [drop_drop]
    congr 1
    omega
  rw [extract_eq_take_drop, extract_eq_take_drop, extract_eq_take_drop, hsum, take_add, hdrop]

theorem extract_self {α} (l : List α) (a : Nat) : l.extract a a = [] := by
  rw [extract_eq_take_drop, Nat.sub_self, take_zero]

theorem extract_succ {α : Type} {l : List α} {a : Nat} {x : α} (h : l[a]? = some x) : l.extract a (a + 1) = [x] := by
  obtain ⟨ha, rfl⟩ := List.getElem?_eq_some_iff.1 h
  rw [extract_eq_take_drop, Nat.add_sub_cancel_left, drop_eq_getElem_cons ha,
    take_succ_cons, take_zero]

variable {f : Forest} {ranks : Std.TreeMap Nat Nat} {tokens : Array Token}

theorem parts_derives (hg : g.Orderly ps low) (ht : Tiered ps low rank) (hf : f.Grounded g ps ts)
    (htokens : tokens.toList.map (·.terminal) = ts) {fuel m : Nat} {p : Production} (hp : p ∈ ps)
    {before : List Symbol} {last : Symbol} {start split stop : Nat} (hstop : stop ≤ ts.length)
    (hparted : f.Parted ts rank low p before last start split stop m)
    (hfuel : (f.lighter rank low m).card < fuel) :
    Derives ps (before ++ [last]) (tokens.toList.extract start stop)
      (parts f ranks tokens fuel p (last :: before.reverse) start split stop) := by
  induction fuel generalizing m p before last start split stop with
  | zero => exact absurd hfuel (Nat.not_lt_zero _)
  | succ fuel ih =>
    obtain ⟨hbegins, hstart, hsplit, hholds, hshows, hleft, hright⟩ := hparted
    obtain ⟨hbase, hend⟩ := hg.lies hp
    have hwidth := hf.width_eq
    have hstride := hf.stride_eq
    rw [← extract_append _ hstart hsplit]
    unfold parts
    refine Derives.append ?_ ?_
    · rcases eq_nil_or_concat' before with rfl | ⟨before', last', rfl⟩
      · rw [Forest.Holds, length_nil] at hholds
        rw [hholds, extract_self]
        exact .nil
      · have hbegins' : before' ++ [last'] <+: p.symbols :=
          (prefix_append _ _).trans hbegins
        obtain ⟨r, hreading, hparted⟩ := hf.exists_partReading? hg ht ranks hp hbegins' (by omega) hholds
        have hlength := hbegins'.length_le
        have hlighter := Forest.card_lighter_lt (by omega) (by omega)
          (by simpa [Forest.Holds] using hholds) (hleft (by simp))
        rw [reverse_append, reverse_singleton, singleton_append]
        rw [hreading]
        exact ih hp (by omega) hparted (by omega)
    · cases last with
      | terminal t kept =>
        obtain ⟨hterminal, rfl⟩ := hshows
        obtain ⟨token, htoken, rfl⟩ : ∃ token, tokens.toList[split]? = some token ∧ token.terminal = t := by
          rw [← htokens, getElem?_map] at hterminal
          exact Option.map_eq_some_iff.1 hterminal
        rw [extract_succ htoken]
        cases kept with
        | false => exact .of_token token false
        | true =>
          rw [← Array.getElem?_toList, htoken]
          exact .of_token token true
      | category c =>
        have hc : c < low := (hg.speaks hp).category_lt c (hbegins.subset (by simp))
        obtain ⟨r, hreading, hmem, rfl, hparts⟩ := hf.exists_categoryReading? hg ht ranks hc (by omega) hstop hshows
        have hlighter := Forest.card_lighter_lt (by omega) (by omega) hshows (hright _ rfl)
        dsimp only
        rw [hreading]
        refine .of_production hmem ?_
        rcases hparts with ⟨hnil, rfl⟩ | ⟨before', last', hsymbols, hparted⟩
        · rw [hnil, extract_self]
          cases fuel <;> exact .nil
        · rw [hsymbols, reverse_append, reverse_singleton]
          exact ih hmem hstop hparted (by omega)

theorem ofForest?_derives (hg : g.Orderly ps low) (ht : Tiered ps low rank) (hf : f.Grounded g ps ts)
    (htokens : tokens.toList.map (·.terminal) = ts) {c tree}
    (h : ofForest? g f c tokens = some tree) :
    ∃ trees, Derives ps [.category c.ctorIdx] tokens.toList trees ∧ trees.head? = some tree := by
  have hsize : tokens.size = ts.length := by rw [← htokens]; simp
  unfold ofForest? at h
  dsimp only at h
  generalize (if g.ranked = true then _ else _ : Std.TreeMap Nat Nat) = ranks at h
  cases hr : f.categoryReading? ranks c.ctorIdx 0 tokens.size with
  | none =>
    rw [hr] at h
    cases h
  | some r =>
    have hget : f.get c.ctorIdx 0 tokens.size ≠ [] := by
      intro hnil
      rw [Forest.categoryReading?, hnil] at hr
      cases hr
    obtain ⟨r', hreading, hmem, horigin, hparts⟩ := hf.exists_categoryReading? hg ht ranks
      (hg.category_lt c) (Nat.zero_le _) (by omega) hget
    rw [hr, Option.some.injEq] at hreading
    subst hreading
    rw [hr] at h
    refine ⟨_, ?_, h⟩
    rw [← horigin]
    refine .of_production hmem ?_
    have hall : tokens.toList = tokens.toList.extract 0 tokens.size := by
      exact (take_of_length_le (by simp)).symm
    rw [hall]
    rcases hparts with ⟨hnil, hempty⟩ | ⟨before, last, hsymbols, hparted⟩
    · rw [hnil, ← hempty]
      exact .nil
    · rw [hsymbols, reverse_append, reverse_singleton]
      have hfew := f.card_lighter_le rank low (f.weight rank low c.ctorIdx 0 tokens.size)
      exact parts_derives hg ht hf htokens hmem (by omega) hparted (by omega)

end Tree

end Blackboard.Grammar
