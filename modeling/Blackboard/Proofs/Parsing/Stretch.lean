import Blackboard.Proofs.Parsing.Grounding
import Blackboard.Proofs.Parsing.Languages

/-!
Which tokens the parts of a parse tree are read from. The parts of a sentence are read from
stretches that follow one another, and every token shown in a part lies in the stretch of that part.
Only programs and modifiers can have an empty stretch.
-/
namespace Blackboard.Grammar

open List

/-- A tree with the number of the first token it is read from and of the first one after it. -/
structure Placed where
  tree : Tree
  start : Nat
  stop : Nat

namespace Tree

/-- Whether every token shown in a tree is one of those from `start` up to `stop`. -/
inductive Within (tokens : Array Token) (start stop : Nat) : Tree → Prop where
  | leaf {t : Token} {k : Nat} : start ≤ k → k < stop → tokens[k]? = some t →
    Within tokens start stop (.leaf t)
  | node {label : Category} {children : List Tree} :
    (∀ t ∈ children, Within tokens start stop t) → Within tokens start stop (.node label children)

def isOpen : Tree → Bool
  | .leaf _ => false
  | .node label _ => label == .program || label == .modifiers

theorem Within.mono {tokens : Array Token} {start stop start' stop' : Nat} {t : Tree}
    (h : t.Within tokens start stop) (hstart : start' ≤ start) (hstop : stop ≤ stop') :
    t.Within tokens start' stop' := by
  induction h with
  | leaf hlow hhigh ht => exact .leaf (Nat.le_trans hstart hlow) (Nat.lt_of_lt_of_le hhigh hstop) ht
  | node _ ih => exact .node ih

end Tree

namespace Placed

variable {tokens : Array Token}
variable {start stop : Nat}

structure Sound (tokens : Array Token) (p : Placed) : Prop where
  start_le : p.start ≤ p.stop
  within : p.tree.Within tokens p.start p.stop
  start_lt : p.tree.isOpen = false → p.start < p.stop

/-- Whether some trees are read from stretches between two places, each after the one before. -/
def InOrder (tokens : Array Token) : (start : Nat) → List Placed → (stop : Nat) → Prop
  | start, [], stop => start ≤ stop
  | start, p :: ps, stop => start ≤ p.start ∧ p.Sound tokens ∧ InOrder tokens p.stop ps stop

theorem InOrder.append {middle ps qs} (hps : InOrder tokens start ps middle)
    (hqs : InOrder tokens middle qs stop) : InOrder tokens start (ps ++ qs) stop := by
  induction ps generalizing start with
  | nil =>
    cases qs with
    | nil => exact Nat.le_trans hps hqs
    | cons q qs => exact ⟨Nat.le_trans hps hqs.1, hqs.2⟩
  | cons p ps ih => exact ⟨hps.1, hps.2.1, ih hps.2.2⟩

theorem InOrder.le {ps} (h : InOrder tokens start ps stop) : start ≤ stop := by
  induction ps generalizing start with
  | nil => exact h
  | cons p ps ih => exact Nat.le_trans h.1 (Nat.le_trans h.2.1.start_le (ih h.2.2))

theorem InOrder.mem {ps} (h : InOrder tokens start ps stop) {p} (hp : p ∈ ps) :
    start ≤ p.start ∧ p.Sound tokens ∧ p.stop ≤ stop := by
  induction ps generalizing start with
  | nil => cases hp
  | cons q ps ih =>
    obtain ⟨hstart, hq, hrest⟩ := h
    rcases mem_cons.1 hp with rfl | hp
    · exact ⟨hstart, hq, hrest.le⟩
    · obtain ⟨hlow, hp, hhigh⟩ := ih hrest hp
      exact ⟨Nat.le_trans hstart (Nat.le_trans hq.start_le hlow), hp, hhigh⟩

theorem InOrder.pairwise {ps} (h : InOrder tokens start ps stop) : ps.Pairwise fun p q => p.stop ≤ q.start := by
  induction ps generalizing start with
  | nil => exact .nil
  | cons p ps ih => exact pairwise_cons.2 ⟨fun q hq => (h.2.2.mem hq).1, ih h.2.2⟩

/-- What is shown of a production read from a stretch, whose parts are `parts`. -/
def shaped (p : Production) (start stop : Nat) (parts : List Placed) : List Placed :=
  match p.shape, parts with
  | .spliced, parts => parts
  | .collapsed, [part] => [⟨part.tree, start, stop⟩]
  | _, parts => [⟨.node p.label (parts.map tree), start, stop⟩]

def parts (f : Forest) (ranks : Std.TreeMap Nat Nat) (tokens : Array Token) :
    (fuel : Nat) → Production → (symbols : List Symbol) → (start split stop : Nat) → List Placed
  | 0, _, _, _, _, _ => []
  | _ + 1, _, [], _, _, _ => []
  | fuel + 1, p, last :: before, start, split, stop =>
    let left := match before with
      | [] => []
      | _ => match f.partReading? ranks p before start split with
        | some r => parts f ranks tokens fuel p before start r.split split
        | none => []
    let right := match last with
      | .terminal _ false => []
      | .terminal _ true => (tokens[split]?).toList.map (⟨.leaf ·, split, stop⟩)
      | .category c => match f.categoryReading? ranks c split stop with
        | some r =>
          let q := r.production
          shaped q split stop (parts f ranks tokens fuel q q.symbols.reverse split r.split stop)
        | none => []
    left ++ right

theorem map_tree_shaped (p : Production) (start stop : Nat) (ps : List Placed) :
    (shaped p start stop ps).map tree = Tree.shaped p (ps.map tree) := by
  unfold shaped Tree.shaped
  cases p.shape with
  | spliced | node | verbatim => rfl
  | collapsed =>
    match ps with
    | [] => rfl
    | [part] => rfl
    | part :: next :: rest => rfl

theorem map_tree_parts (f : Forest) (ranks : Std.TreeMap Nat Nat) (fuel : Nat) (p : Production)
    (symbols : List Symbol) (start split stop : Nat) :
    (parts f ranks tokens fuel p symbols start split stop).map tree =
      Tree.parts f ranks tokens fuel p symbols start split stop := by
  induction fuel generalizing p symbols start split stop with
  | zero => rfl
  | succ fuel ih =>
    cases symbols with
    | nil => rfl
    | cons last before =>
      unfold parts Tree.parts
      rw [map_append]
      congr 1
      · cases before with
        | nil => rfl
        | cons s ss =>
          cases f.partReading? ranks p (s :: ss) start split with
          | none => rfl
          | some r => exact ih ..
      · cases last with
        | terminal t kept =>
          cases kept with
          | false => rfl
          | true => simp
        | category c =>
          dsimp only
          cases f.categoryReading? ranks c split stop with
          | none => rfl
          | some r =>
            rw [map_tree_shaped, ih]

/-! ### Stretches of parts -/

variable {g : Grammar} {ps : List Production} {low : Nat} {f : Forest}

theorem shape_of_mayBeEmpty {p : Production} (h : p.isOrderly = true) (hempty : mayBeEmpty p.origin = true) :
    p.shape = .node ∧ (p.label == .program || p.label == .modifiers) = true := by
  unfold Production.isOrderly at h
  split at h
  · simp only [Bool.and_eq_true, beq_iff_eq] at h
    simp [h.1, h.2]
  · next hprogram =>
    split at h
    · simp only [Bool.and_eq_true, beq_iff_eq] at h
      simp [h.1, h.2]
    · next hmodifiers => simp [mayBeEmpty, hprogram, hmodifiers] at hempty

theorem InOrder.single {t} (hle : start ≤ stop) (hwithin : t.Within tokens start stop)
    (hlt : t.isOpen = false → start < stop) : InOrder tokens start [⟨t, start, stop⟩] stop :=
  ⟨Nat.le_refl _, ⟨hle, hwithin, hlt⟩, Nat.le_refl _⟩

theorem InOrder.shaped {p : Production} (hp : p.isOrderly = true) {start stop : Nat}
    (hlt : mayBeEmpty p.origin = false → start < stop) {qs : List Placed}
    (h : InOrder tokens start qs stop) : InOrder tokens start (shaped p start stop qs) stop := by
  unfold Placed.shaped
  split
  · exact h
  · next part hshape =>
    obtain ⟨hlow, hpart, hhigh⟩ := h.mem (mem_singleton.2 rfl)
    refine .single h.le (hpart.within.mono hlow hhigh) fun _ => hlt ?_
    by_cases hempty : mayBeEmpty p.origin = true
    · rw [(shape_of_mayBeEmpty hp hempty).1] at hshape
      cases hshape
    · simpa using hempty
  · refine .single h.le (.node ?_) fun hopen => hlt ?_
    · intro t ht
      obtain ⟨part, hpart, rfl⟩ := mem_map.1 ht
      obtain ⟨hlow, hpart, hhigh⟩ := h.mem hpart
      exact hpart.within.mono hlow hhigh
    · by_cases hempty : mayBeEmpty p.origin = true
      · have hlabel := (shape_of_mayBeEmpty hp hempty).2
        rw [Tree.isOpen, hlabel] at hopen
        cases hopen
      · simpa using hempty

end Placed

/-! ### The readings taken -/

namespace Forest

variable {g : Grammar} {ps : List Production} {low n : Nat} {f : Forest}
  {ranks : Std.TreeMap Nat Nat}
variable {r : Reading} {start stop : Nat}

theorem mem_of_best? {rs} (h : best? rs = some r) : ∃ rank, (r, rank) ∈ rs := by
  have hfold : ∀ (rs : List (Reading × Nat)) (a : Reading × Nat),
      rs.foldl (fun a b => if better b a then b else a) a ∈ a :: rs := by
    intro rs
    induction rs with
    | nil => exact fun a => mem_singleton.2 rfl
    | cons b rs ih =>
      intro a
      rw [foldl_cons]
      split
      · exact mem_cons_of_mem _ (ih b)
      · rcases mem_cons.1 (ih a) with heq | hmem
        · rw [heq]
          exact mem_cons_self
        · exact mem_cons_of_mem _ (mem_cons_of_mem _ hmem)
  match rs with
  | a :: rs =>
    rw [best?, Option.some.injEq] at h
    rw [← h]
    exact ⟨_, hfold rs a⟩

theorem Sound.of_categoryReading? (hg : g.Orderly ps low) (hf : f.Sound g ps n) {c}
    (hc : c < low) (hstart : start ≤ n) (h : f.categoryReading? ranks c start stop = some r) :
    r.Sound ps c start stop ∧ r.production.origin = c ∧ EndsWith r.production.symbols r.split stop := by
  obtain ⟨rank, hr⟩ := mem_of_best? h
  obtain ⟨r', hr', heq⟩ := mem_map.1 hr
  cases heq
  have hsound := hf.readings (Nat.lt_of_lt_of_le hc hg.low_le) hstart hr'
  obtain ⟨symbols, hreads, hends⟩ := hsound.ends
  cases hreads with
  | complete => exact ⟨hsound, rfl, hends⟩
  | part hdot =>
    -- a place has no category's number
    have := (hg.lies hsound.mem).low_le
    omega

theorem Sound.of_partReading? (hg : g.Orderly ps low) (hf : f.Sound g ps n) {p}
    (hp : p ∈ ps) {symbols} (hsymbols : symbols.reverse <+: p.symbols)
    (hstart : start ≤ n) (h : f.partReading? ranks p symbols start stop = some r) :
    start ≤ r.split ∧ r.split ≤ stop ∧ EndsWith symbols.reverse r.split stop := by
  have hlength : symbols.length ≤ p.symbols.length := by simpa using hsymbols.length_le
  have hlies := hg.lies hp
  have hlow := hlies.low_le
  have hhigh := hlies.lt_high
  obtain ⟨rank, hr⟩ := mem_of_best? h
  obtain ⟨r', hr', heq⟩ := mem_map.1 hr
  cases heq
  have hsound := hf.readings (by omega) hstart hr'
  refine ⟨hsound.start_le, hsound.split_le, ?_⟩
  obtain ⟨read, hreads, hends⟩ := hsound.ends
  generalize hcode : p.base + symbols.length = code at hreads
  cases hreads with
  | complete =>
    have := (hg.speaks hsound.mem).origin_lt
    omega
  | part hdot =>
    have hsame := hg.eq_of_place_eq hp hsound.mem hlength hdot hcode
    rw [← hsame] at hcode hends
    have hread : p.symbols.take symbols.length = symbols.reverse := by
      rw [prefix_iff_eq_take] at hsymbols
      simpa using hsymbols.symm
    rwa [← Nat.add_left_cancel hcode, hread] at hends

end Forest

namespace Placed

variable {tokens : Array Token} {g : Grammar} {ps : List Production} {low : Nat} {f : Forest}
  {ranks : Std.TreeMap Nat Nat}
variable {p : Production} {t : Tree}

theorem parts_inOrder (hg : g.Orderly ps low) (hf : f.Sound g ps tokens.size) (fuel : Nat)
    (hp : p ∈ ps) {symbols} (hsymbols : symbols.reverse <+: p.symbols)
    {start split stop} (hstart : start ≤ split) (hsplit : split ≤ stop)
    (hstop : stop ≤ tokens.size) (hends : EndsWith symbols.reverse split stop) :
    InOrder tokens start (parts f ranks tokens fuel p symbols start split stop) stop := by
  induction fuel generalizing p symbols start split stop with
  | zero => exact Nat.le_trans hstart hsplit
  | succ fuel ih =>
    cases symbols with
    | nil => exact Nat.le_trans hstart hsplit
    | cons last before =>
      rw [reverse_cons] at hsymbols hends
      have hbefore : before.reverse <+: p.symbols := (prefix_append _ _).trans hsymbols
      unfold parts
      apply InOrder.append
      · cases before with
        | nil => exact hstart
        | cons s ss =>
          cases hr : f.partReading? ranks p (s :: ss) start split with
          | none => exact hstart
          | some r =>
            obtain ⟨hlow, hhigh, hpart⟩ := hf.of_partReading? hg hp hbefore (by omega) hr
            exact ih hp hbefore hlow hhigh (by omega) hpart
      · cases last with
        | terminal t kept =>
          cases kept with
          | false => exact hsplit
          | true =>
            have hone : split + 1 = stop := hends t true (by simp)
            cases ht : tokens[split]? with
            | none => exact hsplit
            | some token =>
              exact .single hsplit (.leaf (Nat.le_refl _) (by omega) ht) fun _ => by omega
        | category c =>
          dsimp only
          cases hr : f.categoryReading? ranks c split stop with
          | none => exact hsplit
          | some r =>
            have hc : c < low := (hg.speaks hp).category_lt c (hsymbols.subset (by simp))
            obtain ⟨hsound, horigin, hcomplete⟩ := hf.of_categoryReading? hg hc (by omega) hr
            refine InOrder.shaped (hg.orderly hsound.mem) ?_ ?_
            · intro hempty
              exact hsound.start_lt horigin.symm (horigin ▸ hempty)
            · refine ih hsound.mem ?_ hsound.start_le hsound.split_le hstop ?_
              · exact reverse_reverse _ ▸ prefix_refl _
              · rwa [reverse_reverse]

/-! ### Whole texts -/

theorem shaped_of_node (h : p.shape = .node) (ts : List Tree) : Tree.shaped p ts = [.node p.label ts] := by
  unfold Tree.shaped
  rw [h]

def ofForest? (g : Grammar) (f : Forest) (tokens : Array Token) : Option (List Placed) :=
  let fuel := f.readings.size + 1
  let n := tokens.size
  let c := Category.program.ctorIdx
  let ranks := if g.ranked then (f.rankFrom fuel c 0 n [] ∅).2 else ∅
  (f.categoryReading? ranks c 0 n).map fun r =>
    parts f ranks tokens fuel r.production r.production.symbols.reverse 0 r.split n

theorem ofForest?_spec (hg : g.Orderly ps low) (hf : f.Sound g ps tokens.size)
    (ht : Tree.ofForest? g f .program tokens = some t) :
    ∃ qs, ofForest? g f tokens = some qs ∧ t = .node .program (qs.map tree) ∧ InOrder tokens 0 qs tokens.size := by
  unfold Tree.ofForest? at ht
  unfold ofForest?
  dsimp only at ht ⊢
  generalize (if g.ranked = true then _ else _ : Std.TreeMap Nat Nat) = ranks at ht ⊢
  generalize f.readings.size + 1 = fuel at ht ⊢
  cases hr : f.categoryReading? ranks Category.program.ctorIdx 0 tokens.size with
  | none =>
    rw [hr] at ht
    cases ht
  | some r =>
    obtain ⟨hsound, horigin, hcomplete⟩ :=
      hf.of_categoryReading? hg (hg.category_lt .program) (Nat.zero_le _) hr
    have hshape := hg.orderly hsound.mem
    simp only [Production.isOrderly, horigin, beq_self_eq_true, if_true, Bool.and_eq_true, beq_iff_eq] at hshape
    refine ⟨_, rfl, ?_, ?_⟩
    · rw [hr] at ht
      dsimp only at ht
      rw [shaped_of_node hshape.1, head?_cons, Option.some.injEq] at ht
      rw [map_tree_parts, ← hshape.2, ht]
    · refine parts_inOrder hg hf fuel hsound.mem ?_ (Nat.zero_le _) hsound.split_le (Nat.le_refl _) ?_
      · exact reverse_reverse _ ▸ prefix_refl _
      · rwa [reverse_reverse]

def ofText (l : Language) (text : List Char) : List Placed :=
  let tokens := (Token.lex l text).1
  match Chart.ofTerminals l.grammar .program (tokens.map (·.terminal)) with
  | .error _ => []
  | .ok f => (ofForest? l.grammar f tokens.toArray).getD []

theorem ofText_spec {l text} (h : parse l .program text = .ok t) : t = .node .program ((ofText l text).map tree) ∧
      InOrder (Token.lex l text).1.toArray 0 (ofText l text) (Token.lex l text).1.length := by
  have hg := orderly l
  unfold parse Tree.parse at h
  unfold ofText
  generalize Token.lex l text = lexed at h ⊢
  obtain ⟨tokens, stray⟩ := lexed
  dsimp only at h ⊢
  cases hf : Chart.ofTerminals l.grammar .program (tokens.map (·.terminal)) with
  | error e =>
    rw [hf] at h
    dsimp only at h
    split at h <;> cases h
  | ok f =>
    rw [hf] at h
    have hsound := (Chart.ofTerminals_grounded hg hf).toSound
    rw [length_map] at hsound
    dsimp only at h ⊢
    split at h
    · cases h
    · split at h
      · next t' ht' =>
        cases h
        obtain ⟨qs, hqs, htree, horder⟩ := ofForest?_spec hg hsound ht'
        rw [hqs]
        exact ⟨htree, by simpa using horder⟩
      · cases h

end Placed

end Blackboard.Grammar
