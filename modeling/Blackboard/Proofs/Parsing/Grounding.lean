import Blackboard.Proofs.Parsing.Chart

/-!
Why the readings in a chart are there. The last symbol of a reading is a token of the sequence or a
category that the chart shows for the same stretch, and the symbols before it are in the chart too,
so that every reading can be followed down to the tokens.
-/
namespace Blackboard.Grammar

open List

variable {g : Grammar} {ps : List Production} {low here : Nat} {ts : List Terminal}

/-! ### Readings -/

namespace Forest

/-- Whether a forest shows the first symbols of a production between two places. -/
def Holds (f : Forest) (p : Production) (dot start stop : Nat) : Prop :=
  if dot = 0 then start = stop else f.get (p.base + dot) start stop ≠ []

def Shows (f : Forest) (ts : List Terminal) (start stop : Nat) : Symbol → Prop
  | .terminal t _ => ts[start]? = some t ∧ stop = start + 1
  | .category c => f.get c start stop ≠ []

def Within (f f' : Forest) : Prop :=
  ∀ code start stop, f.get code start stop ≠ [] → f'.get code start stop ≠ []

theorem Within.refl (f : Forest) : f.Within f := fun _ _ _ h => h

theorem Within.trans {f f' f'' : Forest} (h : f.Within f') (h' : f'.Within f'') : f.Within f'' :=
  fun code start stop hget => h' code start stop (h code start stop hget)

theorem Within.holds {f f' : Forest} (h : f.Within f') {p : Production} {dot start stop : Nat}
    (hp : f.Holds p dot start stop) : f'.Holds p dot start stop := by
  unfold Holds at hp ⊢
  split at hp
  · next hdot => rwa [if_pos hdot]
  · next hdot =>
    rw [if_neg hdot]
    exact h _ _ _ hp

theorem Within.shows {f f' : Forest} (h : f.Within f') {s : Symbol} {start stop : Nat}
    (hs : f.Shows ts start stop s) : f'.Shows ts start stop s := by
  cases s with
  | terminal t kept => exact hs
  | category c => exact h _ _ _ hs

theorem within_add (f : Forest) (code start stop : Nat) (r : Reading) : f.Within (f.add code start stop r) := by
  intro code' start' stop' hget
  unfold add
  dsimp only
  split
  · exact hget
  · simp only [get, key, Std.TreeMap.getElem?_insert]
    split
    · simp
    · exact hget

theorem get_add_ne_nil (f : Forest) (code start stop : Nat) (r : Reading) :
    (f.add code start stop r).get code start stop ≠ [] := by
  unfold add
  dsimp only
  split
  · next hknown =>
    intro hnil
    rw [hnil] at hknown
    cases hknown
  · simp [get, key]

end Forest

/-- Whether a reading rests on what a forest holds: it is of no symbol and no token, or its last
symbol and the symbols before that one are read from the two parts of the stretch. -/
structure Reading.Grounded (ps : List Production) (ts : List Terminal) (f : Forest)
    (code start stop : Nat) (r : Reading) : Prop where
  mem : r.production ∈ ps
  parts : ∃ symbols, Reads r.production code symbols ∧ ((symbols = [] ∧ start = stop) ∨
      ∃ before last, symbols = before ++ [last] ∧
        f.Holds r.production before.length start r.split ∧ f.Shows ts r.split stop last)

theorem Reading.Grounded.mono {f f' : Forest} (hf : f.Within f') {code start stop : Nat} {r : Reading}
    (h : r.Grounded ps ts f code start stop) : r.Grounded ps ts f' code start stop := by
  obtain ⟨hmem, symbols, hreads, hparts⟩ := h
  refine ⟨hmem, symbols, hreads, hparts.imp_right ?_⟩
  rintro ⟨before, last, rfl, hholds, hshows⟩
  exact ⟨before, last, rfl, hf.holds hholds, hf.shows hshows⟩

/-- Whether all readings in a forest are sound and rest on what it holds. -/
structure Forest.Grounded (g : Grammar) (ps : List Production) (ts : List Terminal) (f : Forest) :
    Prop extends f.Sound g ps ts.length where
  grounds : ∀ {code start stop r}, code < g.width → start ≤ ts.length →
    r ∈ f.get code start stop → r.Grounded ps ts f code start stop

theorem Forest.Grounded.add {f : Forest} (h : f.Grounded g ps ts) {code start stop : Nat}
    {r : Reading} (hc : code < g.width) (hs : start ≤ ts.length) (hsound : r.Sound ps code start stop)
    (hr : r.Grounded ps ts f code start stop) : (f.add code start stop r).Grounded g ps ts := by
  have hwithin := f.within_add code start stop r
  refine ⟨h.toSound.add hc hs hsound, ?_⟩
  intro code' start' stop' r' hc' hs' hr'
  rcases h.of_mem_get_add hc hs hc' hs' hr' with hr' | ⟨rfl, rfl, rfl, rfl⟩
  · exact (h.grounds hc' hs' hr').mono hwithin
  · exact hr.mono hwithin

/-! ### Items -/

/-- Whether an item at the place `here` has just begun, or a forest shows what it has read. -/
structure Item.Noted (f : Forest) (here : Nat) (i : Item) : Prop where
  begun : i.dot = 0 → i.start = here
  noted : i.dot ≠ 0 → f.get i.code i.start here ≠ []

namespace Item

variable {f f' : Forest} {i : Item}

theorem Noted.mono (hf : f.Within f') (h : i.Noted f here) : i.Noted f' here :=
  ⟨h.begun, fun hdot => hf _ _ _ (h.noted hdot)⟩

theorem Noted.begin (f : Forest) (p : Production) (here : Nat) : (begin p here).Noted f here :=
  ⟨fun _ => rfl, fun hdot => absurd rfl hdot⟩

theorem Noted.holds (h : i.Noted f here) {s ss} (hs : i.rest = s :: ss) :
    f.Holds i.production i.dot i.start here := by
  unfold Forest.Holds
  split
  · next hdot => exact h.begun hdot
  · next hdot =>
    have hcode : i.code = i.production.base + i.dot := by
      unfold code place
      rw [hs]
      rfl
    exact hcode ▸ h.noted hdot

theorem Noted.grounded {split stop} (h : i.Noted f split) (hi : i.Sound ps split) {s ss} (hs : i.rest = s :: ss) (hshows : f.Shows ts split stop s) :
    Reading.Grounded ps ts f i.advance.code i.start stop ⟨i.production, split⟩ := by
  refine ⟨hi.mem, _, hi.reads hs, .inr ⟨_, s, rfl, ?_, hshows⟩⟩
  rw [length_take_of_le (Nat.le_of_lt (hi.dot_lt hs))]
  exact h.holds hs

end Item

/-! ### States that grow -/

theorem ItemSet.sublist_add (s : ItemSet) (width : Nat) (i : Item) : s.items.Sublist (s.add width i).items := by
  unfold add
  split
  · exact .refl _
  · exact sublist_cons_self ..

namespace Work

variable {w w' w'' : Work} {i j : Item}

def Has (w : Work) (i : Item) : Prop :=
  match i.terminal? with
  | none => i ∈ w.column.items
  | some _ => i ∈ w.scan.items

theorem has_iff_mem_column (h : i.terminal? = none) : w.Has i ↔ i ∈ w.column.items := by
  rw [Has, h]

theorem has_iff_mem_scan {t} (h : i.terminal? = some t) : w.Has i ↔ i ∈ w.scan.items := by
  rw [Has, h]

/-- What every part of a step does to the state: nothing is lost, and items that are new to the
column are still to be looked at. -/
structure Grows (w w' : Work) : Prop where
  column : ∀ i ∈ w.column.items, i ∈ w'.column.items
  scan : ∀ i ∈ w.scan.items, i ∈ w'.scan.items
  held : ∀ c ∈ w.held, c ∈ w'.held
  pending : ∀ i ∈ w.pending, i ∈ w'.pending
  fresh : ∀ i ∈ w'.column.items, i ∈ w.column.items ∨ i ∈ w'.pending
  balance : w'.column.items.length + w.pending.length = w.column.items.length + w'.pending.length
  forest : w.forest.Within w'.forest

theorem Grows.refl (w : Work) : w.Grows w :=
  ⟨fun _ h => h, fun _ h => h, fun _ h => h, fun _ h => h, fun _ h => .inl h, rfl, .refl _⟩

theorem Grows.trans (h : w.Grows w') (h' : w'.Grows w'') : w.Grows w'' where
  column i hi := h'.column i (h.column i hi)
  scan i hi := h'.scan i (h.scan i hi)
  held c hc := h'.held c (h.held c hc)
  pending i hi := h'.pending i (h.pending i hi)
  fresh i hi := by
    rcases h'.fresh i hi with hi | hi
    · exact (h.fresh i hi).imp_right (h'.pending i)
    · exact .inr hi
  balance := by
    have := h.balance
    have := h'.balance
    omega
  forest := h.forest.trans h'.forest

theorem Grows.has (h : w.Grows w') (hi : w.Has i) : w'.Has i := by
  unfold Has at hi ⊢
  split at hi
  · exact h.column i hi
  · exact h.scan i hi

theorem grows_foldl {α f} (h : ∀ (w : Work) x, w.Grows (f w x)) (xs : List α)
    (w : Work) : w.Grows (xs.foldl f w) := by
  induction xs generalizing w with
  | nil => exact .refl w
  | cons x xs ih => exact (h w x).trans (ih (f w x))

theorem push_cases (w : Work) (i : Item) :
    (i.terminal?.isSome ∧ w.push i = { w with scan := w.scan.add w.forest.width i }) ∨
    (i.terminal? = none ∧ w.column.contains w.forest.width i = true ∧ w.push i = w) ∨
    (i.terminal? = none ∧ w.column.contains w.forest.width i = false ∧ w.push i =
      { w with column := w.column.add w.forest.width i, pending := i :: w.pending }) := by
  unfold push
  split
  · next t ht => exact .inl ⟨by simp [ht], rfl⟩
  · next ht =>
    split
    · next hc => exact .inr (.inl ⟨ht, hc, rfl⟩)
    · next hc => exact .inr (.inr ⟨ht, by simpa using hc, rfl⟩)

theorem grows_push (w : Work) (i : Item) : w.Grows (w.push i) := by
  rcases w.push_cases i with ⟨-, h⟩ | ⟨-, -, h⟩ | ⟨-, hnew, h⟩
  · rw [h]
    exact { Grows.refl w with scan := fun j hj => (w.scan.sublist_add _ i).subset hj }
  · rw [h]
    exact .refl w
  · rw [h, ItemSet.add, if_neg (by simp [hnew])]
    refine ⟨?_, fun _ h => h, fun _ h => h, ?_, ?_, ?_, .refl _⟩
    · exact fun j hj => mem_cons_of_mem i hj
    · exact fun j hj => mem_cons_of_mem i hj
    · intro j hj
      rcases mem_cons.1 hj with rfl | hj
      · exact .inr mem_cons_self
      · exact .inl hj
    · simp only [length_cons]
      omega

theorem grows_record (w : Work) (i : Item) (split stop : Nat) : w.Grows (w.record i split stop) :=
  { Grows.refl w with forest := w.forest.within_add _ _ _ _ }

theorem grows_move (w : Work) (i : Item) (split stop : Nat) : w.Grows (w.move i split stop) :=
  (w.grows_record i.advance split stop).trans (grows_push _ _)

theorem grows_complete (w : Work) (columns : Array ItemSet) (here : Nat) (i : Item) :
    w.Grows (w.complete columns here i) := by
  unfold complete
  extract_lets c w₁ w₂ column
  have h₁ : w.Grows w₁ := by
    unfold w₁
    split
    · exact w.grows_record i here here
    · exact .refl w
  have h₂ : w₁.Grows w₂ := by
    unfold w₂
    split
    · exact { Grows.refl w₁ with held := fun d hd => mem_cons_of_mem c hd }
    · exact .refl w₁
  exact (h₁.trans h₂).trans (grows_foldl (fun w j => w.grows_move j i.start here) _ w₂)

theorem grows_predict (g : Grammar) (here : Nat) (w : Work) (i : Item) (c : Nat) :
    w.Grows (w.predict g here i c) := by
  unfold predict
  extract_lets started
  have hstarted : w.Grows started := grows_foldl (fun w p => w.grows_push (.begin p here)) _ w
  split
  · exact hstarted.trans (started.grows_move i here here)
  · exact hstarted

theorem grows_step (g : Grammar) (columns : Array ItemSet) (here : Nat) (w : Work) (i : Item) :
    w.Grows (w.step g columns here i) := by
  unfold step
  split
  · exact w.grows_complete columns here i
  · exact w.grows_predict g here i _
  · exact .refl w

end Work

/-! ### States that rest on their forest -/

def EachColumn (P : Nat → ItemSet → Prop) (columns : Array ItemSet) : Prop :=
  ∀ (k : Nat) (s : ItemSet), columns[k]? = some s → P k s

variable {P : Nat → ItemSet → Prop} {columns : Array ItemSet}

theorem EachColumn.getD (h : EachColumn P columns) {k} (hempty : P k {}) : P k (columns.getD k {}) := by
  rw [Array.getD_eq_getD_getElem?]
  cases hk : columns[k]? with
  | none => exact hempty
  | some s => exact h k s hk

theorem EachColumn.push (h : EachColumn P columns) {s} (hs : P columns.size s) : EachColumn P (columns.push s) := by
  intro k s' hk
  rw [Array.getElem?_push] at hk
  split at hk
  · next heq =>
    cases hk
    exact heq ▸ hs
  · exact h k s' hk

/-- Whether the items of a set at the place `here` are sound and rest on a forest. The keys of the set
are those of its items, and no two items share one. -/
structure ItemSet.Grounded (g : Grammar) (ps : List Production) (f : Forest) (here : Nat) (s : ItemSet) : Prop where
  sound : ∀ i ∈ s.items, i.Sound ps here
  noted : ∀ i ∈ s.items, i.Noted f here
  mem_keys : ∀ {k}, k ∈ s.keys ↔ ∃ i ∈ s.items, key g.width i = k
  nodup : (s.items.map (key g.width)).Nodup

namespace ItemSet

variable {f f' : Forest} {s : ItemSet} {i : Item}

theorem Grounded.empty : Grounded g ps f here {} :=
  ⟨fun _ hi => (not_mem_nil hi).elim, fun _ hi => (not_mem_nil hi).elim, by simp, by simp⟩

theorem Grounded.mono (hf : f.Within f') (h : s.Grounded g ps f here) : s.Grounded g ps f' here :=
  { h with noted := fun i hi => (h.noted i hi).mono hf }

theorem Grounded.contains_iff (h : s.Grounded g ps f here) :
    s.contains g.width i = true ↔ ∃ j ∈ s.items, key g.width j = key g.width i := by
  rw [contains, Std.TreeMap.contains_iff_mem, h.mem_keys]

theorem Grounded.add (h : s.Grounded g ps f here) (hi : i.Sound ps here) (hnoted : i.Noted f here) :
    (s.add g.width i).Grounded g ps f here := by
  unfold ItemSet.add
  split
  · exact h
  · next hnew =>
    rw [h.contains_iff] at hnew
    refine ⟨?_, ?_, ?_, ?_⟩
    · intro j hj
      rcases mem_cons.1 hj with rfl | hj
      · exact hi
      · exact h.sound j hj
    · intro j hj
      rcases mem_cons.1 hj with rfl | hj
      · exact hnoted
      · exact h.noted j hj
    · intro k
      rw [Std.TreeMap.mem_insert, h.mem_keys]
      simp
    · rw [map_cons, nodup_cons, mem_map]
      exact ⟨hnew, h.nodup⟩

theorem Grounded.mem_of_contains (hg : g.Orderly ps low) (h : s.Grounded g ps f here)
    (hi : i.Sound ps here) (hc : s.contains g.width i = true) : i ∈ s.items := by
  obtain ⟨j, hj, hkey⟩ := h.contains_iff.1 hc
  exact (h.sound j hj).eq_of_key hg hi hkey ▸ hj

theorem Grounded.mem_add (hg : g.Orderly ps low) (h : s.Grounded g ps f here)
    (hi : i.Sound ps here) : i ∈ (s.add g.width i).items := by
  unfold ItemSet.add
  split
  · next hc => exact h.mem_of_contains hg hi hc
  · exact mem_cons_self

end ItemSet

/-- A state of the chart whose items and readings are sound and rest on its forest. The items that
are still to be looked at stand in the column in the same order. -/
structure Work.Grounded (g : Grammar) (ps : List Production) (ts : List Terminal)
    (columns : Array ItemSet) (here : Nat) (w : Work) : Prop where
  columns : EachColumn (ItemSet.Grounded g ps w.forest) columns
  column : w.column.Grounded g ps w.forest here
  pending : w.pending.Sublist w.column.items
  scan : w.scan.Grounded g ps w.forest here
  held : ∀ c ∈ w.held, mayBeEmpty c = true ∧ w.forest.get c here here ≠ []
  forest : w.forest.Grounded g ps ts

namespace Work

variable {columns : Array ItemSet} {w : Work} {i : Item}

theorem Grounded.push (hg : g.Orderly ps low) (h : w.Grounded g ps ts columns here)
    (hi : i.Sound ps here) (hnoted : i.Noted w.forest here) :
    (w.push i).Grounded g ps ts columns here ∧ (w.push i).Has i := by
  rcases w.push_cases i with ⟨ht, heq⟩ | ⟨ht, hknown, heq⟩ | ⟨ht, hnew, heq⟩
  · obtain ⟨t, ht⟩ := Option.isSome_iff_exists.1 ht
    rw [heq, has_iff_mem_scan ht, h.forest.width_eq]
    exact ⟨{ h with scan := h.scan.add hi hnoted }, h.scan.mem_add hg hi⟩
  · rw [heq, has_iff_mem_column ht]
    rw [h.forest.width_eq] at hknown
    exact ⟨h, h.column.mem_of_contains hg hi hknown⟩
  · rw [heq, has_iff_mem_column ht]
    rw [h.forest.width_eq] at hnew ⊢
    refine ⟨{ h with column := h.column.add hi hnoted, pending := ?_ }, h.column.mem_add hg hi⟩
    rw [ItemSet.add, if_neg (by simp [hnew])]
    exact h.pending.cons_cons i

theorem Grounded.record (hg : g.Orderly ps low) (h : w.Grounded g ps ts columns here)
    {split stop : Nat} (hi : i.Sound ps stop) (hstop : stop ≤ ts.length)
    (hsound : Reading.Sound ps i.code i.start stop ⟨i.production, split⟩)
    (hr : Reading.Grounded ps ts w.forest i.code i.start stop ⟨i.production, split⟩) :
    (w.record i split stop).Grounded g ps ts columns here := by
  have hwithin := (w.grows_record i split stop).forest
  exact {
    columns := fun k s hk => (h.columns k s hk).mono hwithin
    column := h.column.mono hwithin
    pending := h.pending
    scan := h.scan.mono hwithin
    held := fun c hc => (h.held c hc).imp_right (hwithin _ _ _)
    forest := h.forest.add (hi.code_lt hg) (Nat.le_trans hi.start_le hstop) hsound hr }

theorem noted_advance (w : Work) (i : Item) (split stop : Nat) :
    i.advance.Noted (w.record i.advance split stop).forest stop :=
  ⟨fun hdot => absurd hdot (Nat.succ_ne_zero _), fun _ => w.forest.get_add_ne_nil _ _ _ _⟩

theorem Grounded.move (hg : g.Orderly ps low) (h : w.Grounded g ps ts columns here) {split}
    (hi : i.Sound ps split) (hnoted : i.Noted w.forest split) (hsplit : split ≤ here)
    (hn : here ≤ ts.length) {c ss} (hs : i.rest = .category c :: ss)
    (hlt : mayBeEmpty c = false → split < here) (hc : w.forest.get c split here ≠ []) :
    (w.move i split here).Grounded g ps ts columns here ∧ (w.move i split here).Has i.advance := by
  have hnext : i.advance.Sound ps here :=
    hi.advance hs hsplit fun hsolid => hlt (by simpa [Symbol.isSolid] using hsolid)
  have hrecord : (w.record i.advance split here).Grounded g ps ts columns here :=
    h.record hg hnext hn (hi.reading_advance hg hs hnext hsplit (by simp)) (hnoted.grounded hi hs hc)
  exact hrecord.push hg hnext (w.noted_advance i split here)

theorem Grounded.foldl_move (hg : g.Orderly ps low) (h : w.Grounded g ps ts columns here)
    {split : Nat} (hsplit : split ≤ here) (hn : here ≤ ts.length) {c : Nat}
    (hlt : mayBeEmpty c = false → split < here) (hc : w.forest.get c split here ≠ [])
    {waiting : List Item} (hwaiting : ∀ j ∈ waiting, j.Sound ps split ∧ j.Noted w.forest split ∧ j.awaits c = true) :
    (waiting.foldl (fun w j => w.move j split here) w).Grounded g ps ts columns here ∧
      ∀ j ∈ waiting, (waiting.foldl (fun w j => w.move j split here) w).Has j.advance := by
  induction waiting generalizing w with
  | nil => exact ⟨h, fun j hj => (not_mem_nil hj).elim⟩
  | cons j waiting ih =>
    obtain ⟨hj, hnoted, hawaits⟩ := hwaiting j mem_cons_self
    obtain ⟨ss, hs⟩ := Item.rest_of_awaits hawaits
    obtain ⟨hmoved, hhas⟩ := h.move hg hj hnoted hsplit hn hs hlt hc
    have hwithin := (w.grows_move j split here).forest
    obtain ⟨hall, hallHas⟩ := ih hmoved (hwithin _ _ _ hc) fun k hk => by
      obtain ⟨hsound, hnoted, hawaits⟩ := hwaiting k (mem_cons_of_mem j hk)
      exact ⟨hsound, hnoted.mono hwithin, hawaits⟩
    refine ⟨hall, fun k hk => ?_⟩
    rcases mem_cons.1 hk with rfl | hk
    · exact (grows_foldl (fun w j => w.grows_move j split here) waiting _).has hhas
    · exact hallHas k hk

/-- The items at the place `k`, up to the place `here` that is being worked on. -/
def columnAt (w : Work) (columns : Array ItemSet) (here k : Nat) : ItemSet :=
  if k = here then w.column else columns.getD k {}

theorem Grounded.columnAt (h : w.Grounded g ps ts columns here) (k : Nat) :
    (w.columnAt columns here k).Grounded g ps w.forest k := by
  unfold Work.columnAt
  split
  · next hk => exact hk ▸ h.column
  · exact h.columns.getD .empty

/-- The category of a complete item is read where the item was, and the items that waited for it are
moved on. -/
theorem Grounded.complete (hg : g.Orderly ps low) (h : w.Grounded g ps ts columns here)
    (hi : i.Sound ps here) (hnoted : i.Noted w.forest here) (hn : here ≤ ts.length)
    (hrest : i.rest = []) :
    (w.complete columns here i).Grounded g ps ts columns here ∧
      (w.complete columns here i).forest.get i.production.origin i.start here ≠ [] ∧
      (i.start = here → i.production.origin ∈ (w.complete columns here i).held) ∧
      ∀ j ∈ (w.columnAt columns here i.start).items, j.awaits i.production.origin = true →
        (w.complete columns here i).Has j.advance := by
  unfold Work.complete
  extract_lets c w₁ w₂ column
  have hcode : i.code = c := by
    unfold Item.code
    rw [hrest]
    rfl
  have h₁ : w₁.Grounded g ps ts columns here ∧ w₁.forest.get c i.start here ≠ [] ∧ w₁.column = w.column := by
    unfold w₁
    split
    · next hdot =>
      refine ⟨h.record hg hi hn (hi.reading_empty hg hrest hdot) ?_, ?_, rfl⟩
      · rw [hcode]
        exact ⟨hi.mem, _, .complete, .inl ⟨hi.symbols_eq_nil hrest hdot, hnoted.begun hdot⟩⟩
      · rw [← hcode]
        exact w.forest.get_add_ne_nil _ _ _ _
    · next hdot =>
      refine ⟨h, ?_, rfl⟩
      rw [← hcode]
      exact hnoted.noted hdot
  obtain ⟨h₁, hread, hcolumn⟩ := h₁
  have h₂ : w₂.Grounded g ps ts columns here ∧ w₂.forest = w₁.forest ∧
      w₂.columnAt columns here i.start = w.columnAt columns here i.start ∧
      (i.start = here → c ∈ w₂.held) := by
    unfold w₂ Work.columnAt
    split
    · next hstart =>
      refine ⟨{ h₁ with held := ?_ }, rfl, hcolumn, fun _ => mem_cons_self⟩
      intro d hd
      rcases mem_cons.1 hd with rfl | hd
      · refine ⟨hi.mayBeEmpty_of_complete hg hrest hstart, ?_⟩
        rw [hstart] at hread
        exact hread
      · exact h₁.held d hd
    · next hstart => exact ⟨h₁, rfl, rfl, fun heq => absurd heq hstart⟩
  obtain ⟨h₂, hforest, hat, hheld⟩ := h₂
  have hwaiting : ∀ j ∈ column.toList.filter (·.awaits c), j.Sound ps i.start ∧
      j.Noted w₂.forest i.start ∧ j.awaits c = true := by
    intro j hj
    obtain ⟨hmem, hawaits⟩ := mem_filter.1 hj
    have hmem := mem_reverse.1 hmem
    have hgrounded := h₂.columnAt i.start
    exact ⟨hgrounded.sound j hmem, hgrounded.noted j hmem, hawaits⟩
  obtain ⟨hall, hhas⟩ := h₂.foldl_move hg hi.start_le hn (hi.start_lt_of_complete hg hrest) (hforest ▸ hread) hwaiting
  have hgrows := grows_foldl (fun w j => w.grows_move j i.start here) (column.toList.filter (·.awaits c)) w₂
  refine ⟨hall, hgrows.forest _ _ _ (hforest ▸ hread), fun hstart => hgrows.held c (hheld hstart), ?_⟩
  intro j hj hawaits
  rw [← hat] at hj
  exact hhas j (mem_filter.2 ⟨mem_reverse.2 hj, hawaits⟩)

theorem Grounded.foldl_begin (hg : g.Orderly ps low) (h : w.Grounded g ps ts columns here)
    {qs : List Production} (hqs : ∀ p ∈ qs, p ∈ ps) :
    (qs.foldl (fun w p => w.push (.begin p here)) w).Grounded g ps ts columns here ∧
      ∀ p ∈ qs, (qs.foldl (fun w p => w.push (.begin p here)) w).Has (.begin p here) := by
  induction qs generalizing w with
  | nil => exact ⟨h, fun p hp => (not_mem_nil hp).elim⟩
  | cons q qs ih =>
    obtain ⟨hpushed, hhas⟩ := h.push hg (.begin (hqs q mem_cons_self)) (.begin ..)
    obtain ⟨hall, hallHas⟩ := ih hpushed fun p hp => hqs p (mem_cons_of_mem q hp)
    refine ⟨hall, fun p hp => ?_⟩
    rcases mem_cons.1 hp with rfl | hp
    · exact (grows_foldl (fun w p => w.grows_push (.begin p here)) qs _).has hhas
    · exact hallHas p hp

/-- An item before a category starts the productions that may begin there, and moves on if the
category is known to be read from no token. -/
theorem Grounded.predict (hg : g.Orderly ps low) (h : w.Grounded g ps ts columns here)
    (hi : i.Sound ps here) (hnoted : i.Noted w.forest here) (hn : here ≤ ts.length) {c : Nat}
    {ss : List Symbol} (hs : i.rest = .category c :: ss) :
    (w.predict g here i c).Grounded g ps ts columns here ∧
      (∀ p ∈ g.predict c, (w.predict g here i c).Has (.begin p here)) ∧
      (c ∈ w.held → (w.predict g here i c).Has i.advance) := by
  unfold Work.predict
  extract_lets started
  obtain ⟨hstarted, hbegun⟩ := h.foldl_begin hg fun p hp => hg.mem_of_predict (c := c) hp
  have hgrows : w.Grows started := grows_foldl (fun w p => w.grows_push (.begin p here)) _ w
  split
  · next hheld =>
    obtain ⟨hempty, hread⟩ := h.held c (by simpa using hheld)
    obtain ⟨hmoved, hhas⟩ := hstarted.move hg hi (hnoted.mono hgrows.forest) (Nat.le_refl _) hn hs
      (by simp [hempty]) (hgrows.forest _ _ _ hread)
    exact ⟨hmoved, fun p hp => (started.grows_move i here here).has (hbegun p hp), fun _ => hhas⟩
  · next hheld => exact ⟨hstarted, hbegun, fun hc => absurd (by simpa using hc) hheld⟩

theorem Grounded.pop (h : w.Grounded g ps ts columns here) {rest}
    (hpending : w.pending = i :: rest) : i.Sound ps here ∧ i.Noted w.forest here ∧
      Work.Grounded g ps ts columns here { w with pending := rest } := by
  have hsublist := hpending ▸ h.pending
  have hmem : i ∈ w.column.items := hsublist.subset (by simp)
  exact ⟨h.column.sound i hmem, h.column.noted i hmem,
    { h with pending := sublist_of_cons_sublist hsublist }⟩

theorem Grounded.step (hg : g.Orderly ps low) (h : w.Grounded g ps ts columns here)
    (hn : here ≤ ts.length) {rest} (hpending : w.pending = i :: rest) :
    Work.Grounded g ps ts columns here ({ w with pending := rest }.step g columns here i) := by
  obtain ⟨hi, hnoted, hw⟩ := h.pop hpending
  unfold Work.step
  split
  · next hs => exact (hw.complete hg hi hnoted hn hs).1
  · next c ss hs => exact (hw.predict hg hi hnoted hn hs).1
  · exact hw

theorem Grounded.saturate (hg : g.Orderly ps low) (hn : here ≤ ts.length) (fuel : Nat)
    (h : w.Grounded g ps ts columns here) :
    (w.saturate g columns here fuel).Grounded g ps ts columns here := by
  induction fuel generalizing w with
  | zero => exact h
  | succ fuel ih =>
    rw [Work.saturate]
    split
    · exact h
    · next hpending => exact ih (h.step hg hn hpending)

/-- Moves an item over a token of the terminal `t` into the state of the next place. -/
def carry (width here : Nat) (t : Terminal) (n : Work) (i : Item) : Work :=
  if i.terminal? == some t then
    let i' := i.advance
    let n := n.record i' here (here + 1)
    match i'.terminal? with
    | some _ => { n with scan := n.scan.add width i' }
    | none => { n with column := n.column.add width i' }
  else n

theorem shift_eq (w : Work) (here : Nat) (t : Terminal) : w.shift here t =
      let empty := { column := {}, pending := [], scan := {}, held := [], forest := w.forest }
      let next := w.scan.toList.foldl (carry w.forest.width here t) empty
      { next with pending := next.column.items } := rfl

/-- What carrying an item over does to the state of the next place: nothing is lost, and the item is
there if it stood before the token. -/
theorem Grounded.carry (hg : g.Orderly ps low) (h : w.Grounded g ps ts columns (here + 1))
    {t} (ht : ts[here]? = some t) (hi : i.Sound ps here) (hnoted : i.Noted w.forest here) :
    (w.carry g.width here t i).Grounded g ps ts columns (here + 1) ∧
      (i.terminal? = some t → (w.carry g.width here t i).Has i.advance) ∧
      (∀ j, w.Has j → (w.carry g.width here t i).Has j) ∧
      w.forest.Within (w.carry g.width here t i).forest := by
  obtain ⟨hn, -⟩ := List.getElem?_eq_some_iff.1 ht
  unfold Work.carry
  split
  · next hterminal =>
    obtain ⟨kept, ss, hs⟩ := Item.rest_of_terminal? (t := t) (by simpa using hterminal)
    have hnext := hi.advance hs (Nat.le_succ here) fun _ => Nat.lt_succ_self here
    have hrecord : (w.record i.advance here (here + 1)).Grounded g ps ts columns (here + 1) :=
      h.record hg hnext hn (hi.reading_advance hg hs hnext (Nat.le_succ here) fun _ _ _ => rfl)
        (hnoted.grounded hi hs ⟨ht, rfl⟩)
    have hwithin := (w.grows_record i.advance here (here + 1)).forest
    have hadvance := w.noted_advance i here (here + 1)
    dsimp only
    split
    · next t' ht' =>
      refine ⟨{ hrecord with scan := hrecord.scan.add hnext hadvance },
        fun _ => (has_iff_mem_scan ht').2 (hrecord.scan.mem_add hg hnext), fun j hj => ?_, hwithin⟩
      unfold Has at hj ⊢
      split at hj
      · exact hj
      · exact (ItemSet.sublist_add ..).subset hj
    · next ht' =>
      refine ⟨{ hrecord with
        column := hrecord.column.add hnext hadvance
        pending := hrecord.pending.trans (ItemSet.sublist_add ..) },
        fun _ => (has_iff_mem_column ht').2 (hrecord.column.mem_add hg hnext), fun j hj => ?_,
        hwithin⟩
      unfold Has at hj ⊢
      split at hj
      · exact (ItemSet.sublist_add ..).subset hj
      · exact hj
  · next hterminal =>
    exact ⟨h, fun heq => absurd (by simpa using heq) hterminal, fun _ hj => hj, .refl _⟩

theorem Grounded.foldl_carry (hg : g.Orderly ps low) (h : w.Grounded g ps ts columns (here + 1))
    {t} (ht : ts[here]? = some t) (items : List Item)
    (hitems : ∀ i ∈ items, i.Sound ps here ∧ i.Noted w.forest here) :
    (items.foldl (Work.carry g.width here t) w).Grounded g ps ts columns (here + 1) ∧
      (∀ j, w.Has j → (items.foldl (Work.carry g.width here t) w).Has j) ∧
      ∀ i ∈ items, i.terminal? = some t → (items.foldl (Work.carry g.width here t) w).Has i.advance := by
  induction items generalizing w with
  | nil => exact ⟨h, fun _ hj => hj, fun i hi => (not_mem_nil hi).elim⟩
  | cons i items ih =>
    obtain ⟨hi, hnoted⟩ := hitems i mem_cons_self
    obtain ⟨hcarried, hhas, hkeeps, hwithin⟩ := h.carry hg ht hi hnoted
    obtain ⟨hall, hallKeeps, hallHas⟩ := ih hcarried fun j hj => by
      obtain ⟨hsound, hnoted⟩ := hitems j (mem_cons_of_mem i hj)
      exact ⟨hsound, hnoted.mono hwithin⟩
    refine ⟨hall, fun j hj => hallKeeps j (hkeeps j hj), fun j hj hterminal => ?_⟩
    rcases mem_cons.1 hj with rfl | hj
    · exact hallKeeps _ (hhas hterminal)
    · exact hallHas j hj hterminal

theorem Grounded.shift (hg : g.Orderly ps low) (h : w.Grounded g ps ts columns here)
    (hsize : columns.size = here) {t} (ht : ts[here]? = some t) :
    (w.shift here t).Grounded g ps ts (columns.push w.column) (here + 1) ∧
      ∀ i ∈ w.scan.items, i.terminal? = some t → (w.shift here t).Has i.advance := by
  have hempty : Work.Grounded g ps ts (columns.push w.column) (here + 1)
      { column := {}, pending := [], scan := {}, held := [], forest := w.forest } :=
    { columns := h.columns.push (hsize ▸ h.column)
      column := .empty
      pending := .refl _
      scan := .empty
      held := fun c hc => (not_mem_nil hc).elim
      forest := h.forest }
  obtain ⟨hall, -, hhas⟩ := hempty.foldl_carry hg ht w.scan.toList fun i hi =>
    ⟨h.scan.sound i (mem_reverse.1 hi), h.scan.noted i (mem_reverse.1 hi)⟩
  rw [shift_eq, h.forest.width_eq]
  exact ⟨{ hall with pending := .refl _ }, fun i hi => hhas i (mem_reverse.2 hi)⟩

end Work

/-! ### The whole chart -/

namespace Chart

theorem first_grounded (hg : g.Orderly ps low) (c : Nat) : (first g c ts.length).Grounded g ps ts #[] 0 ∧
      ∀ p ∈ g.predict c, (first g c ts.length).Has (.begin p 0) := by
  have hget : ∀ code start stop, Forest.get { width := g.width, stride := ts.length + 1 } code start stop = [] := by
    simp [Forest.get]
  refine Work.Grounded.foldl_begin hg ?_ fun p hp => hg.mem_of_predict hp
  exact {
    columns := fun k s hk => by simp at hk
    column := .empty
    pending := .refl _
    scan := .empty
    held := fun c hc => (not_mem_nil hc).elim
    forest := {
      width_eq := rfl
      stride_eq := rfl
      readings := fun _ _ hr => by simp [hget] at hr
      grounds := fun _ _ hr => by simp [hget] at hr } }

theorem run_grounded (hg : g.Orderly ps low) {rest columns w f} (hsize : columns.size = here) (hw : w.Grounded g ps ts columns here)
    (hn : here ≤ ts.length) (hrest : ts.drop here = rest) (hf : run g here columns w rest = .ok f) :
    f.Grounded g ps ts := by
  induction rest generalizing here columns w with
  | nil =>
    cases hf
    exact (hw.saturate hg hn (Work.itemBound g here)).forest
  | cons t rest ih =>
    have hsaturated := hw.saturate hg hn (Work.itemBound g here)
    have ht : ts[here]? = some t := by
      rw [← head?_drop, hrest, head?_cons]
    have hlt := (List.getElem?_eq_some_iff.1 ht).1
    rw [run] at hf
    split at hf
    · cases hf
    · refine ih (by simp [hsize]) (hsaturated.shift hg hsize ht).1 hlt ?_ hf
      rw [← tail_drop, hrest, tail_cons]

theorem ofTerminals_grounded (hg : g.Orderly ps low) {c f} (hf : ofTerminals g c ts = .ok f) : f.Grounded g ps ts :=
  run_grounded hg rfl (first_grounded hg _).1 (Nat.zero_le _) rfl hf

end Chart

end Blackboard.Grammar
