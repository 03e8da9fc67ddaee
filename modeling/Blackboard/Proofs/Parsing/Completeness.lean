import Blackboard.Proofs.Parsing.Derivation

/-!
The chart misses nothing: what can be derived from a token sequence is read in its chart. The items
that the rules of a grammar lead to are described without the chart, and it is shown that every
place of the chart holds all of them once none is left to look at.
-/
namespace Blackboard.Grammar

open List

variable {g : Grammar} {ps : List Production} {low here : Nat} {ts : List Terminal}
  {columns : Array ItemSet}
variable {c : Nat}

/-! ### Items that can be reached -/

/-- The items that the productions `ps` lead to at each place of a token sequence that is to be read
as the category `c`. -/
inductive Reached (ps : List Production) (c : Nat) (ts : List Terminal) : Nat → Item → Prop where
  | first {p : Production} : p ∈ ps → p.origin = c → Reached ps c ts 0 (.begin p 0)
  | predict {k : Nat} {i : Item} {ss : List Symbol} {p : Production} :
    Reached ps c ts k i → i.rest = .category p.origin :: ss → p ∈ ps →
    Reached ps c ts k (.begin p k)
  | scan {k : Nat} {i : Item} {t : Terminal} {kept : Bool} {ss : List Symbol} :
    Reached ps c ts k i → i.rest = .terminal t kept :: ss → ts[k]? = some t →
    Reached ps c ts (k + 1) i.advance
  | complete {k : Nat} {i done : Item} {ss : List Symbol} :
    Reached ps c ts done.start i → i.rest = .category done.production.origin :: ss →
    Reached ps c ts k done → done.rest = [] → Reached ps c ts k i.advance

def Item.skip (i : Item) (n : Nat) : Item := { i with dot := i.dot + n, rest := i.rest.drop n }

theorem Item.advance_skip (i : Item) (n : Nat) : i.advance.skip n = i.skip (n + 1) := by
  simp [Item.skip, Item.advance, Nat.add_comm, Nat.add_left_comm]

variable {i : Item}

theorem Derives.reached {symbols tokens trees} (h : Derives ps symbols tokens trees) (before after : List Terminal)
    (hts : ts = before ++ tokens.map (·.terminal) ++ after) {ss}
    (hi : Reached ps c ts before.length i) (hrest : i.rest = symbols ++ ss) :
    Reached ps c ts (before.length + tokens.length) (i.skip symbols.length) := by
  induction h generalizing before after i ss with
  | nil =>
    simpa [Item.skip] using hi
  | @terminal token kept symbols tokens trees _ ih =>
    have hnext : ts[before.length]? = some token.terminal := by simp [hts]
    have hmoved := hi.scan hrest hnext
    have hafter : i.advance.rest = symbols ++ ss := by simp [Item.advance, hrest]
    have hread := ih (before ++ [token.terminal]) after (by simp [hts]) (by simpa using hmoved) hafter
    rw [Item.advance_skip] at hread
    simpa [Nat.add_assoc, Nat.add_comm 1] using hread
  | @category p symbols tokens tokens' parts trees hp _ _ ihparts ih =>
    have hbegun := hi.predict hrest hp
    have hdone := ihparts before (tokens'.map (·.terminal) ++ after) (by simp [hts]) hbegun (append_nil _).symm
    have hmoved := Reached.complete hi hrest hdone (by simp [Item.skip, Item.begin])
    have hafter : i.advance.rest = symbols ++ ss := by simp [Item.advance, hrest]
    have hread := ih (before ++ tokens.map (·.terminal)) after (by simp [hts]) (by simpa using hmoved) hafter
    rw [Item.advance_skip] at hread
    simpa [Nat.add_assoc] using hread

theorem Reached.exists_scan {k} (h : Reached ps c ts (k + 1) i) :
    ∃ j t kept ss, Reached ps c ts k j ∧ j.rest = .terminal t kept :: ss ∧ ts[k]? = some t := by
  generalize hn : k + 1 = n at h
  induction h with
  | first => cases hn
  | predict _ _ _ ih => exact ih hn
  | scan hj hrest ht _ =>
    cases hn
    exact ⟨_, _, _, _, hj, hrest, ht⟩
  | complete _ _ _ _ _ ih => exact ih hn

theorem Reached.exists_of_le {k n} (h : Reached ps c ts n i) (hk : k ≤ n) : ∃ j, Reached ps c ts k j := by
  induction n generalizing i with
  | zero => exact ⟨i, Nat.le_zero.1 hk ▸ h⟩
  | succ n ih =>
    rcases Nat.lt_or_eq_of_le hk with hlt | rfl
    · obtain ⟨j, t, kept, ss, hj, -⟩ := h.exists_scan
      exact ih hj (Nat.lt_succ_iff.1 hlt)
    · exact ⟨i, h⟩

/-! ### One step -/

namespace Work

variable {w : Work} {i : Item}

/-- What the items that have been looked at have led to. An item that waits for a category which is
read from no token may itself still be looked at. -/
structure Closed (g : Grammar) (columns : Array ItemSet) (here : Nat) (w : Work) : Prop where
  predicted : ∀ i ∈ w.column.items, i ∉ w.pending → ∀ {c ss}, i.rest = .category c :: ss →
    ∀ p ∈ g.predict c, w.Has (.begin p here)
  noted : ∀ i ∈ w.column.items, i ∉ w.pending → i.rest = [] → w.forest.get i.production.origin i.start here ≠ []
  held : ∀ i ∈ w.column.items, i ∉ w.pending → i.rest = [] → i.start = here → i.production.origin ∈ w.held
  moved : ∀ i ∈ w.column.items, i ∉ w.pending → i.rest = [] →
    ∀ j ∈ (w.columnAt columns here i.start).items, j.awaits i.production.origin = true →
      w.Has j.advance ∨ (i.start = here ∧ j ∈ w.pending)

theorem closed_of_all_pending (h : ∀ i ∈ w.column.items, i ∈ w.pending) : w.Closed g columns here where
  predicted i hi hdone := absurd (h i hi) hdone
  noted i hi hdone := absurd (h i hi) hdone
  held i hi hdone := absurd (h i hi) hdone
  moved i hi hdone := absurd (h i hi) hdone

variable {w' : Work} {j : Item}

theorem Grows.mem_columnAt (h : w.Grows w') {k} (hj : j ∈ (w'.columnAt columns here k).items) :
    j ∈ (w.columnAt columns here k).items ∨ (k = here ∧ j ∈ w'.pending) := by
  unfold columnAt at hj ⊢
  by_cases hk : k = here
  · rw [if_pos hk] at hj ⊢
    exact (h.fresh j hj).imp_right fun hj => ⟨hk, hj⟩
  · rw [if_neg hk] at hj ⊢
    exact .inl hj

variable {rest : List Item}

theorem eq_or_of_not_pending (hpending : w.pending = i :: rest)
    (h : Grows { w with pending := rest } w') (hj : j ∈ w'.column.items) (hdone : j ∉ w'.pending) :
    j = i ∨ (j ∈ w.column.items ∧ j ∉ w.pending) := by
  have hmem : j ∈ w.column.items := (h.fresh j hj).resolve_right hdone
  by_cases heq : j = i
  · exact .inl heq
  · refine .inr ⟨hmem, fun hj => ?_⟩
    rw [hpending] at hj
    exact hdone (h.pending j ((mem_cons.1 hj).resolve_left heq))

theorem Grounded.has_advance_of_held (hg : g.Orderly ps low) (h : w.Grounded g ps ts columns here)
    (hn : here ≤ ts.length) (hpending : w.pending = i :: rest) {c} (hc : c ∈ w.held)
    (hawaits : i.awaits c = true) :
    Has ({ w with pending := rest }.step g columns here i) i.advance := by
  obtain ⟨hi, hnoted, hw⟩ := h.pop hpending
  obtain ⟨ss, hs⟩ := Item.rest_of_awaits hawaits
  unfold Work.step
  rw [hs]
  exact (hw.predict hg hi hnoted hn hs).2.2 hc

theorem Closed.step (hg : g.Orderly ps low) (h : w.Grounded g ps ts columns here)
    (hclosed : w.Closed g columns here) (hn : here ≤ ts.length) {rest}
    (hpending : w.pending = i :: rest) :
    Closed g columns here ({ w with pending := rest }.step g columns here i) := by
  obtain ⟨hi, hnoted, hw⟩ := h.pop hpending
  have hgrows := grows_step g columns here { w with pending := rest } i
  have hadvance : ∀ c ∈ w.held, i.awaits c = true →
      Has ({ w with pending := rest }.step g columns here i) i.advance :=
    fun c => h.has_advance_of_held hg hn hpending
  have hspec : ∀ {c ss}, i.rest = .category c :: ss → ∀ p ∈ g.predict c,
      Has ({ w with pending := rest }.step g columns here i) (.begin p here) := by
    intro c ss hs
    unfold Work.step
    rw [hs]
    exact (hw.predict hg hi hnoted hn hs).2.1
  have hcomplete : i.rest = [] →
      ({ w with pending := rest }.step g columns here i).forest.get i.production.origin i.start here ≠ [] ∧
      (i.start = here → i.production.origin ∈ ({ w with pending := rest }.step g columns here i).held) ∧
      ∀ j ∈ (w.columnAt columns here i.start).items, j.awaits i.production.origin = true →
        Has ({ w with pending := rest }.step g columns here i) j.advance := by
    intro hs
    unfold Work.step
    rw [hs]
    exact (hw.complete hg hi hnoted hn hs).2
  generalize { w with pending := rest }.step g columns here i = w'
    at hgrows hadvance hspec hcomplete ⊢
  have hold : ∀ {j}, j ∈ w'.column.items → j ∉ w'.pending →
      j = i ∨ (j ∈ w.column.items ∧ j ∉ w.pending) := eq_or_of_not_pending hpending hgrows
  have hkeeps : ∀ {j}, w.Has j → w'.Has j := hgrows.has (w := { w with pending := rest })
  refine ⟨?_, ?_, ?_, ?_⟩
  · intro j hj hdone c ss hs p hp
    rcases hold hj hdone with rfl | ⟨hj, hdone⟩
    · exact hspec hs p hp
    · exact hkeeps (hclosed.predicted j hj hdone hs p hp)
  · intro j hj hdone hs
    rcases hold hj hdone with rfl | ⟨hj, hdone⟩
    · exact (hcomplete hs).1
    · exact hgrows.forest _ _ _ (hclosed.noted j hj hdone hs)
  · intro j hj hdone hs hstart
    rcases hold hj hdone with rfl | ⟨hj, hdone⟩
    · exact (hcomplete hs).2.1 hstart
    · exact hgrows.held _ (hclosed.held j hj hdone hs hstart)
  · intro j hj hdone hs k hk hawaits
    rcases hgrows.mem_columnAt hk with hk | hk
    · rcases hold hj hdone with rfl | ⟨hj, hdone⟩
      · exact .inl ((hcomplete hs).2.2 k hk hawaits)
      · rcases hclosed.moved j hj hdone hs k hk hawaits with hhas | ⟨hstart, hk⟩
        · exact .inl (hkeeps hhas)
        · rw [hpending] at hk
          rcases mem_cons.1 hk with rfl | hk
          · exact .inl (hadvance _ (hclosed.held j hj hdone hs hstart) hawaits)
          · exact .inr ⟨hstart, hgrows.pending k hk⟩
    · exact .inr hk

/-! ### One place -/

theorem Grounded.length_column_le (hg : g.Orderly ps low) (h : w.Grounded g ps ts columns here) :
    w.column.items.length ≤ g.width * (here + 1) := by
  have hkeys : (w.column.items.map (ItemSet.key g.width)).toFinset ⊆ Finset.range (g.width * (here + 1)) := by
    intro k hk
    obtain ⟨i, hi, rfl⟩ := mem_map.1 (mem_toFinset.1 hk)
    have hsound := h.column.sound i hi
    have hplace : i.place < g.width := by
      have := hsound.dot_le
      have := (hg.lies hsound.mem).lt_high
      unfold Item.place
      omega
    have hstart : i.start * g.width ≤ here * g.width := Nat.mul_le_mul_right _ hsound.start_le
    rw [Finset.mem_range, ItemSet.key, Nat.mul_add, Nat.mul_comm g.width]
    omega
  calc
    w.column.items.length = (w.column.items.map (ItemSet.key g.width)).toFinset.card := by
      rw [toFinset_card_of_nodup h.column.nodup, length_map]
    _ ≤ (Finset.range (g.width * (here + 1))).card := Finset.card_le_card hkeys
    _ = g.width * (here + 1) := Finset.card_range _

/-- Looking at the items one after the other keeps what is known of the state, and with enough fuel
all of them are looked at. -/
theorem Closed.saturate (hg : g.Orderly ps low) (h : w.Grounded g ps ts columns here)
    (hclosed : w.Closed g columns here) (hn : here ≤ ts.length) (fuel : Nat) :
    (w.saturate g columns here fuel).Closed g columns here ∧ (∀ i, w.Has i → (w.saturate g columns here fuel).Has i) ∧
      (g.width * (here + 1) + w.pending.length < fuel + w.column.items.length →
        (w.saturate g columns here fuel).pending = []) := by
  induction fuel generalizing w with
  | zero =>
    refine ⟨hclosed, fun _ hi => hi, fun hfuel => ?_⟩
    have := h.length_column_le hg
    omega
  | succ fuel ih =>
    rw [Work.saturate]
    split
    · next hpending => exact ⟨hclosed, fun _ hi => hi, fun _ => hpending⟩
    · next i rest hpending =>
      have hgrows := grows_step g columns here { w with pending := rest } i
      obtain ⟨hall, hkeeps, hends⟩ := ih (h.step hg hn hpending) (hclosed.step hg h hn hpending)
      refine ⟨hall, fun j hj => hkeeps j (hgrows.has hj), fun hfuel => hends ?_⟩
      have hbalance := hgrows.balance
      rw [hpending, length_cons] at hfuel
      dsimp only at hbalance
      omega

end Work

/-- Whether a set holds all items that can be reached at a place and do not stand before a
terminal. -/
def Covers (ps : List Production) (c : Nat) (ts : List Terminal) (k : Nat) (s : ItemSet) : Prop :=
  ∀ i, Reached ps c ts k i → i.terminal? = none → i ∈ s.items

theorem Item.terminal?_eq_none (h : ∀ t kept ss, i.rest ≠ .terminal t kept :: ss) : i.terminal? = none := by
  unfold terminal?
  split
  · next t kept ss hs => exact absurd hs (h t kept ss)
  · rfl

/-- What a state holds before its items are looked at: the items that are moved to its place over a
token and, at the first place, the productions of the category to be read. -/
structure Work.Kernel (ps : List Production) (c : Nat) (ts : List Terminal) (here : Nat) (w : Work) : Prop where
  all_pending : ∀ i ∈ w.column.items, i ∈ w.pending
  first : here = 0 → ∀ p ∈ ps, p.origin = c → w.Has (.begin p 0)
  scan : ∀ k i t kept ss, here = k + 1 → Reached ps c ts k i → i.rest = .terminal t kept :: ss →
    ts[k]? = some t → w.Has i.advance

theorem Work.Kernel.has_of_reached (hg : g.Orderly ps low)
    (hpredict : ∀ p ∈ ps, p ∈ g.predict p.origin) {w : Work} (hkernel : w.Kernel ps c ts here)
    (h : w.Grounded g ps ts columns here) (hsize : columns.size = here)
    (hcovers : EachColumn (Covers ps c ts) columns) (hn : here ≤ ts.length)
    (hi : Reached ps c ts here i) : (w.saturate g columns here (itemBound g here)).Has i := by
  have hsaturated := h.saturate hg hn (itemBound g here)
  obtain ⟨hclosed, hkeeps, hends⟩ :=
    (closed_of_all_pending hkernel.all_pending).saturate hg h hn (itemBound g here)
  have hpending := hends (by
    have := h.pending.length_le
    unfold itemBound
    omega)
  generalize w.saturate g columns here (itemBound g here) = w' at hsaturated hclosed hkeeps hpending ⊢
  have hdone : ∀ j : Item, j ∉ w'.pending := by simp [hpending]
  generalize hk : here = k at hi
  induction hi with
  | first hp horigin => exact hkeeps _ (hkernel.first hk _ hp horigin)
  | @predict k i ss p _ hrest hp ih =>
    have hmem := (has_iff_mem_column (i.terminal?_eq_none (by simp [hrest]))).1 (ih hk)
    exact hk ▸ hclosed.predicted i hmem (hdone i) hrest p (hpredict p hp)
  | scan hi hrest ht _ => exact hkeeps _ (hkernel.scan _ _ _ _ _ hk hi hrest ht)
  | @complete k i done ss hi hrest _ hcomplete ih ihdone =>
    have hnone := i.terminal?_eq_none (by simp [hrest])
    have hmem := (has_iff_mem_column (done.terminal?_eq_none (by simp [hcomplete]))).1 (ihdone hk)
    have hstart := (hsaturated.column.sound done hmem).start_le
    -- the waiting item stands where the complete one began, here or at an earlier place
    have hwaiting : i ∈ (w'.columnAt columns here done.start).items := by
      unfold columnAt
      split
      · next heq => exact (has_iff_mem_column hnone).1 (ih heq.symm)
      · next hne =>
        have hlt : done.start < columns.size := by omega
        rw [Array.getD_eq_getD_getElem?, Array.getElem?_eq_getElem hlt]
        exact hcovers _ _ (Array.getElem?_eq_getElem hlt) i hi hnone
    rcases hclosed.moved done hmem (hdone done) hcomplete i hwaiting (by simp [Item.awaits, hrest])
      with hhas | ⟨-, hpend⟩
    · exact hhas
    · exact absurd hpend (hdone i)

/-! ### The whole chart -/

namespace Chart

theorem run_complete (hg : g.Orderly ps low) (hpredict : ∀ p ∈ ps, p ∈ g.predict p.origin) {c : Nat}
    {rest : List Terminal} {w : Work} (hkernel : w.Kernel ps c ts here)
    (h : w.Grounded g ps ts columns here) (hsize : columns.size = here)
    (hcovers : EachColumn (Covers ps c ts) columns) (hn : here ≤ ts.length)
    (hrest : ts.drop here = rest) {i : Item} (hi : Reached ps c ts ts.length i) (hdone : i.rest = []) :
    ∃ f, run g here columns w rest = .ok f ∧ f.get i.production.origin i.start ts.length ≠ [] := by
  induction rest generalizing here columns w with
  | nil =>
    obtain rfl : here = ts.length := Nat.le_antisymm hn (drop_eq_nil_iff.1 hrest)
    have hhas := hkernel.has_of_reached hg hpredict h hsize hcovers hn hi
    obtain ⟨hclosed, -, hends⟩ := (Work.closed_of_all_pending hkernel.all_pending).saturate hg h hn
      (Work.itemBound g ts.length)
    have hpending := hends (by
      have := h.pending.length_le
      unfold Work.itemBound
      omega)
    refine ⟨_, rfl, hclosed.noted i ?_ (by simp [hpending]) hdone⟩
    exact (Work.has_iff_mem_column (i.terminal?_eq_none (by simp [hdone]))).1 hhas
  | cons t rest ih =>
    have ht : ts[here]? = some t := by
      rw [← head?_drop, hrest, head?_cons]
    have hlt := (List.getElem?_eq_some_iff.1 ht).1
    have hsaturated := h.saturate hg hn (Work.itemBound g here)
    have hall := fun i => hkernel.has_of_reached hg hpredict h hsize hcovers hn (i := i)
    obtain ⟨hshifted, hscanned⟩ := hsaturated.shift hg hsize ht
    have hmoved : ∀ j t' kept ss, Reached ps c ts here j → j.rest = .terminal t' kept :: ss → ts[here]? = some t' →
        ((w.saturate g columns here (Work.itemBound g here)).shift here t).Has j.advance := by
      intro j t' kept ss hj hs ht'
      rw [ht, Option.some.injEq] at ht'
      subst ht'
      have hterminal : j.terminal? = some t := by simp [Item.terminal?, hs]
      exact hscanned j ((Work.has_iff_mem_scan hterminal).1 (hall j hj)) hterminal
    rw [run]
    split
    · -- some item can be reached behind the token, so something was moved over it
      next hempty =>
      obtain ⟨j, hj⟩ := hi.exists_of_le (k := here + 1) hlt
      obtain ⟨k, t', kept, ss, hk, hs, ht'⟩ := hj.exists_scan
      have hhas := hmoved k t' kept ss hk hs ht'
      simp only [Bool.and_eq_true, List.isEmpty_iff] at hempty
      unfold Work.Has at hhas
      rw [hempty.1, hempty.2] at hhas
      split at hhas <;> cases hhas
    · refine ih ⟨fun j hj => hj, fun hzero => absurd hzero (Nat.succ_ne_zero _), ?_⟩ hshifted
        (by simp [hsize]) (hcovers.push ?_) hlt ?_
      · intro k j t' kept ss hk
        cases hk
        exact hmoved j t' kept ss
      · intro j hj hnone
        exact (Work.has_iff_mem_column hnone).1 (hall j (hsize ▸ hj))
      · rw [← tail_drop, hrest, tail_cons]

theorem first_kernel (hg : g.Orderly ps low) (hpredict : ∀ p ∈ ps, p ∈ g.predict p.origin) (c : Nat) :
    (first g c ts.length).Kernel ps c ts 0 where
  all_pending i hi := by
    have hgrows := Work.grows_foldl (f := fun w p => w.push (.begin p 0))
      (fun w p => w.grows_push (.begin p 0)) (g.predict c) {
        column := {}, pending := [], scan := {}, held := [],
        forest := { width := g.width, stride := ts.length + 1 } }
    exact (hgrows.fresh i hi).resolve_left not_mem_nil
  first _ p hp horigin := (first_grounded hg c).2 p (horigin ▸ hpredict p hp)
  scan _ _ _ _ _ hk := nomatch hk

theorem ofTerminals_complete (hg : g.Orderly ps low) (hpredict : ∀ p ∈ ps, p ∈ g.predict p.origin)
    {c tokens trees}
    (h : Derives ps [.category c.ctorIdx] tokens trees) :
    ∃ f, ofTerminals g c (tokens.map (·.terminal)) = .ok f ∧ f.get c.ctorIdx 0 tokens.length ≠ [] := by
  obtain ⟨p, hp, horigin, parts, hparts, -⟩ := h.exists_production
  have hts : tokens.map (·.terminal) = [] ++ tokens.map (·.terminal) ++ [] := by simp
  have hdone := hparts.reached [] [] hts (.first hp horigin) (append_nil _).symm
  rw [length_nil, Nat.zero_add, ← length_map (fun t : Token => t.terminal)] at hdone
  have hrun := run_complete hg hpredict (first_kernel hg hpredict _) (first_grounded hg _).1 rfl
    (fun k s hk => by simp at hk) (Nat.zero_le _) rfl hdone (by simp [Item.skip, Item.begin])
  obtain ⟨f, hf, hget⟩ := hrun
  refine ⟨f, hf, ?_⟩
  rw [length_map] at hget
  exact horigin ▸ hget

end Chart

theorem Tree.shaped_of_program {p} (h : p.isOrderly = true)
    (horigin : p.origin = Category.program.ctorIdx) (parts : List Tree) :
    shaped p parts = [.node .program parts] := by
  simp only [Production.isOrderly, horigin, beq_self_eq_true, if_true, Bool.and_eq_true, beq_iff_eq] at h
  rw [Placed.shaped_of_node h.1, h.2]

theorem Tree.exists_ofForest? (hg : g.Orderly ps low) {rank} (ht : Tiered ps low rank)
    {f} (hf : f.Grounded g ps ts) {tokens} (hsize : tokens.size = ts.length)
    (h : f.get Category.program.ctorIdx 0 tokens.size ≠ []) :
    ∃ tree, ofForest? g f .program tokens = some tree := by
  unfold ofForest?
  dsimp only
  generalize (if g.ranked = true then _ else _ : Std.TreeMap Nat Nat) = ranks
  obtain ⟨r, hreading, hmem, horigin, -⟩ := hf.exists_categoryReading? hg ht ranks
    (hg.category_lt .program) (Nat.zero_le _) (by omega) h
  rw [hreading]
  dsimp only
  rw [shaped_of_program (hg.orderly hmem) horigin]
  exact ⟨_, rfl⟩

end Blackboard.Grammar
