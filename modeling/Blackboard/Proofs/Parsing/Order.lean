import Mathlib.Data.List.Pairwise
import Blackboard.Source.Recovery
import Blackboard.Proofs.Parsing.Alphabet
import Blackboard.Proofs.Reading.Program

/-!
The order of the statements of a program. Statements and imports are sorted by their spans, and a
span need not start where its construct does. So a program is in the order of its text except that a
statement without a place of its own comes first, and an import that stands within a statement,
before the first located part of it, comes before that statement.
-/
namespace Blackboard

open Grammar Scan

theorem Source.Stmt.stands_iff {a b : Stmt} : a.stands b = true ↔ a.span.start ≤ b.span.start := by
  simp [stands, Position.le_iff, Span.start]

theorem Scan.Import.stands_iff {a b : Import} : a.stands b = true ↔ a.position ≤ b.position := by
  simp [stands, Source.Position.le_iff]

/-! ### Sorting -/

namespace Sorting

variable {α κ : Type} [LinearOrder κ] {le : α → α → Bool} {Q : α → α → Prop}

/-- What is known of two elements after sorting, when `Q` holds between each element and the later
ones before: their keys are in order, and they change places only if they must. -/
def Settled (key : α → κ) (Q : α → α → Prop) (a b : α) : Prop :=
  key a ≤ key b ∧ (Q a b ∨ Q b a ∧ key a < key b)

theorem pairwise_insertBy {key : α → κ} (hle : ∀ a b, le a b = true ↔ key a ≤ key b) {a : α} {l : List α}
    (ha : ∀ b ∈ l, Q a b) (hl : l.Pairwise (Settled key Q)) :
    (insertBy le a l).Pairwise (Settled key Q) := by
  induction l with
  | nil => exact List.pairwise_singleton _ _
  | cons b l ih =>
    obtain ⟨hb, hl⟩ := List.pairwise_cons.1 hl
    rw [insertBy]
    split
    · next hab =>
      refine List.pairwise_cons.2 ⟨?_, List.pairwise_cons.2 ⟨hb, hl⟩⟩
      intro c hc
      refine ⟨?_, .inl (ha c hc)⟩
      rcases List.mem_cons.1 hc with rfl | hc
      · exact (hle _ _).1 hab
      · exact ((hle _ _).1 hab).trans (hb c hc).1
    · next hab =>
      have hlt : key b < key a := not_le.1 fun h => hab ((hle _ _).2 h)
      refine List.pairwise_cons.2 ⟨?_, ih (fun c hc => ha c (by simp [hc])) hl⟩
      intro c hc
      rcases List.mem_cons.1 ((perm_insertBy le a l).mem_iff.1 hc) with rfl | hc
      · exact ⟨hlt.le, .inr ⟨ha b (by simp), hlt⟩⟩
      · exact hb c hc

theorem pairwise_sortBy (key : α → κ) (hle : ∀ a b, le a b = true ↔ key a ≤ key b) {l : List α}
    (hl : l.Pairwise Q) : (sortBy le l).Pairwise (Settled key Q) := by
  induction l with
  | nil => exact .nil
  | cons a l ih =>
    obtain ⟨ha, hl⟩ := List.pairwise_cons.1 hl
    exact pairwise_insertBy hle (fun b hb => ha b ((perm_sortBy le l).mem_iff.1 hb)) (ih hl)

theorem map_sortBy {β le} (f : α → β) (l : List α) :
    (sortBy (fun a b => le (f a) (f b)) l).map f = sortBy le (l.map f) := by
  have hinsert : ∀ (a : α) (l : List α),
      (insertBy (fun a b => le (f a) (f b)) a l).map f = insertBy le (f a) (l.map f) := by
    intro a l
    induction l with
    | nil => rfl
    | cons b l ih =>
      rw [insertBy, List.map_cons, insertBy]
      split
      · rfl
      · rw [List.map_cons, ih]
  induction l with
  | nil => rfl
  | cons a l ih =>
    change (insertBy _ a (sortBy _ l)).map f = insertBy le (f a) (sortBy le (l.map f))
    rw [hinsert, ih]

end Sorting

/-! ### What a text holds -/

namespace Source

/-- An import or a statement of a program, with the position at which it begins in the text. -/
inductive Entry where
  | imported (i : Import)
  | parsed (start : Position) (s : Stmt)

namespace Entry

variable {l : Language} {read : Span → List Char → Expr} {tokens : List Token} {p : Placed}
    {text source : List Char} {ss : List Stmt}

def start : Entry → Position
  | imported i => i.position
  | parsed p _ => p

def stmt : Entry → Stmt
  | imported i => .ofImport i
  | parsed _ s => s

/-- The statement of a part of a program, at the first token it is read from. Empty statements are
left out. -/
def ofPlaced? (l : Language) (read : Span → List Char → Expr) (tokens : List Token) (p : Placed) : Option Entry :=
  match Piece.ofTree l read p.tree with
  | .ok (.stmt s) =>
    if s.isEmpty then none else (tokens[p.start]?).map fun t => .parsed t.span.start s
  | _ => none

def ofText (l : Language) (text : List Char) : List Entry :=
  (Placed.ofText l text).filterMap (ofPlaced? l (Piece.readHole l text.length) (Token.lex l text).1)

/-- Whether an entry is read from a stretch of the tokens: it begins with the first of them, and its
span starts at one of them or else before the first character. -/
structure ReadFrom (tokens : List Token) (p : Placed) (e : Entry) : Prop where
  isParsed : ∃ q s, e = parsed q s
  start_lt : p.start < p.stop
  begins : ∃ t, tokens[p.start]? = some t ∧ e.start = t.span.start
  located : e.stmt.span.start = .start ∨ ∃ (k : Nat) (t : Token), p.start ≤ k ∧ k < p.stop ∧
    tokens[k]? = some t ∧ e.stmt.span.start = t.span.start

variable {e : Entry}

theorem exists_token_of_ofPlaced? (he : ofPlaced? l read tokens p = some e) :
    ∃ t ∈ tokens, e.start = t.span.start := by
  unfold ofPlaced? at he
  split at he
  · split at he
    · cases he
    · obtain ⟨t, ht, rfl⟩ := Option.map_eq_some_iff.1 he
      exact ⟨t, List.mem_of_getElem? ht, rfl⟩
  · cases he

theorem isOpen_of_stmt {t s} (h : Piece.ofTree l read t = .ok (.stmt s)) : t.isOpen = false := by
  by_contra hopen
  have ht : t.isOpen = true := by simpa using hopen
  cases t with
  | leaf t => cases ht
  | node label children =>
    obtain ⟨ps, -, hnode⟩ := Piece.ofTree_node_eq_ok.1 h
    simp only [Tree.isOpen, Bool.or_eq_true, beq_iff_eq] at ht
    rcases ht with rfl | rfl <;> cases hnode

theorem eachLeaf_of_within {tokens : Array Token} {start stop : Nat} {t : Tree} (h : t.Within tokens start stop) :
    t.EachLeaf fun t => ∃ k, start ≤ k ∧ k < stop ∧ tokens[k]? = some t := by
  induction h with
  | leaf hlow hhigh ht => exact .leaf ⟨_, hlow, hhigh, ht⟩
  | node _ ih => exact .node ih

theorem readFrom_of_ofPlaced? {depth} (hp : p.Sound tokens.toArray)
    (he : ofPlaced? l (Piece.readHole l depth) tokens p = some e) : e.ReadFrom tokens p := by
  unfold ofPlaced? at he
  split at he
  · next s hs =>
    split at he
    · cases he
    · obtain ⟨t, ht, rfl⟩ := Option.map_eq_some_iff.1 he
      refine ⟨⟨_, _, rfl⟩, hp.start_lt (isOpen_of_stmt hs), ⟨t, ht, rfl⟩, ?_⟩
      refine (Piece.ofTree_writes (C := fun _ => True) (S := fun q => q = .start ∨ ∃ (k : Nat) (t : Token),
        p.start ≤ k ∧ k < p.stop ∧ tokens[k]? = some t ∧ q = t.span.start) (fun _ _ => trivial) (.inl rfl)
        (fun span _ => Piece.readHole_spelled (fun _ _ => trivial) depth span)
        ((eachLeaf_of_within hp.within).mono ?_) hs).2
      rintro t' ⟨k, hlow, hhigh, ht'⟩
      exact ⟨fun _ _ => trivial, .inr ⟨k, t', hlow, hhigh, by simpa using ht', rfl⟩⟩
  · cases he

theorem map_stmt_ofPlaced? {ps : List Placed}
    (hps : ∀ p ∈ ps, p.Sound tokens.toArray ∧ p.stop ≤ tokens.length) {pieces : List Piece}
    (h : Piece.ofTrees l read (ps.map (·.tree)) = .ok pieces) :
    (ps.filterMap (ofPlaced? l read tokens)).map stmt = Piece.meaningful pieces := by
  induction ps generalizing pieces with
  | nil =>
    cases h
    rfl
  | cons p ps ih =>
    obtain ⟨piece, rest, hpiece, hrest, rfl⟩ := Piece.ofTrees_cons_eq_ok.1 h
    have hentries := ih (fun q hq => hps q (by simp [hq])) hrest
    obtain ⟨hsound, hstop⟩ := hps p (by simp)
    rw [List.filterMap_cons, ofPlaced?, hpiece]
    cases piece with
    | stmt s =>
      by_cases hempty : s.isEmpty = true
      · simpa [Piece.meaningful, Piece.stmt?, hempty] using hentries
      · have hlt := hsound.start_lt (isOpen_of_stmt hpiece)
        have htoken : tokens[p.start]? = some tokens[p.start] :=
          List.getElem?_eq_getElem (by omega)
        simpa [Piece.meaningful, Piece.stmt?, hempty, htoken, stmt] using hentries
    | _ => exact hentries

theorem exists_parse (h : Stmt.readAll l text = .ok ss) : ∃ t, Grammar.parse l .program text = .ok t := by
  unfold Stmt.readAll Piece.read at h
  cases htree : Grammar.parse l .program text with
  | error e =>
    rw [htree] at h
    cases h
  | ok t => exact ⟨t, rfl⟩

theorem map_stmt_ofText (h : Stmt.readAll l text = .ok ss) : (ofText l text).map stmt = ss := by
  obtain ⟨t, htree⟩ := exists_parse h
  obtain ⟨ht, horder⟩ := Placed.ofText_spec htree
  unfold Stmt.readAll Piece.read at h
  rw [htree, ht] at h
  dsimp only at h
  rw [Piece.ofTree] at h
  cases hpieces : Piece.ofTrees l (Piece.readHole l text.length) ((Placed.ofText l text).map (·.tree)) with
  | error e =>
    rw [hpieces] at h
    cases h
  | ok pieces =>
    rw [hpieces] at h
    cases h
    exact map_stmt_ofPlaced? (fun p hp => (horder.mem hp).2) hpieces

/-! ### The order of entries -/

/-- How an entry stands to a later one of the same text: imports come first, in their order, and
after them the statements in theirs. -/
def Precedes : Entry → Entry → Prop
  | imported i, imported j => i.position ≤ j.position
  | imported _, parsed _ _ => True
  | parsed _ _, imported _ => False
  | parsed p s, parsed q t => p < q ∧ (t.span.start = .start ∨ s.span.start ≤ t.span.start)

/-- Whether the span of an entry starts within it, or else before the first character. -/
structure Located (e : Entry) : Prop where
  start_le : .start ≤ e.stmt.span.start
  located : e.stmt.span.start = .start ∨ e.start ≤ e.stmt.span.start

theorem ReadFrom.precedes (h : Token.Ordered tokens) {q : Placed} (hpq : p.stop ≤ q.start)
    {x y : Entry} (hx : x.ReadFrom tokens p) (hy : y.ReadFrom tokens q) : x.Precedes y := by
  obtain ⟨px, sx, rfl⟩ := hx.isParsed
  obtain ⟨py, sy, rfl⟩ := hy.isParsed
  obtain ⟨tx, htx, hstartx⟩ := hx.begins
  obtain ⟨ty, hty, hstarty⟩ := hy.begins
  refine ⟨?_, ?_⟩
  · change (parsed px sx).start < (parsed py sy).start
    rw [hstartx, hstarty]
    exact h.lt (Nat.lt_of_lt_of_le hx.start_lt hpq) htx hty
  · rcases hy.located with hkey | ⟨j, b, hlow, -, hb, hkey⟩
    · exact .inl hkey
    · refine .inr ?_
      change (parsed px sx).stmt.span.start ≤ (parsed py sy).stmt.span.start
      rw [hkey]
      rcases hx.located with hfirst | ⟨i, a, -, hhigh, ha, hfirst⟩
      · rw [hfirst]
        exact h.first_le b (List.mem_of_getElem? hb)
      · rw [hfirst]
        exact h.le (by omega) ha hb

theorem ReadFrom.isLocated (h : Token.Ordered tokens) (he : e.ReadFrom tokens p) : e.Located := by
  obtain ⟨t, ht, hstart⟩ := he.begins
  rcases he.located with hkey | ⟨k, t', hlow, -, ht', hkey⟩
  · exact ⟨le_of_eq hkey.symm, .inl hkey⟩
  · refine ⟨?_, .inr ?_⟩
    · rw [hkey]
      exact h.first_le t' (List.mem_of_getElem? ht')
    · rw [hkey, hstart]
      exact h.le hlow ht ht'

theorem ofText_precedes (h : Stmt.readAll l text = .ok ss) : (ofText l text).Pairwise Precedes ∧
      ∀ e ∈ ofText l text, e.Located ∧ ∃ p s, e = parsed p s := by
  have htokens := Token.lex_ordered l text
  obtain ⟨t, htree⟩ := exists_parse h
  obtain ⟨-, horder⟩ := Placed.ofText_spec htree
  refine ⟨List.pairwise_filterMap.2 ?_, ?_⟩
  · refine horder.pairwise.imp_of_mem ?_
    intro p q hp hq hpq x hx y hy
    have hx := readFrom_of_ofPlaced? (horder.mem hp).2.1 hx
    have hy := readFrom_of_ofPlaced? (horder.mem hq).2.1 hy
    exact hx.precedes htokens hpq hy
  · intro e he
    obtain ⟨p, hp, hpe⟩ := List.mem_filterMap.1 he
    have hread := readFrom_of_ofPlaced? (horder.mem hp).2.1 hpe
    exact ⟨hread.isLocated htokens, hread.isParsed⟩

/-! ### Imports -/

theorem imports_pairwise (l : Language) (source masked : List Char) :
    (liftImports l source masked).imports.Pairwise fun i j => i.position ≤ j.position := by
  have hall : ∀ imports : List Import, imports.Pairwise fun _ _ => True :=
    fun imports => List.pairwise_of_forall fun _ _ => trivial
  exact (Sorting.pairwise_sortBy (·.position) (fun _ _ => Import.stands_iff) (hall _)).imp fun h => h.1

theorem exists_offset_of_mem_imports {masked i} (hi : i ∈ (liftImports l source masked).imports) :
    ∃ k < source.length, i.position = .ofOffset source k := by
  have hi := (Sorting.perm_sortBy _ _).mem_iff.1 hi
  obtain ⟨⟨offset, length⟩, -, hstretch⟩ := List.mem_filterMap.1 hi
  unfold Import.ofStretch? at hstretch
  dsimp only at hstretch
  split at hstretch
  · cases hstretch
  · next hink =>
    cases hstretch
    refine ⟨_, ?_, rfl⟩
    have hle : (Text.trimStart ((source.drop offset).take length)).length ≤
        ((source.drop offset).take length).length :=
      (List.dropWhile_sublist _).length_le
    have hpos := List.length_pos_iff.2 fun hnil => hink (List.isEmpty_iff.2 hnil)
    rw [List.length_take, List.length_drop] at hle ⊢
    omega

/-- Which characters of a text end a line. The positions in a text depend on nothing else. -/
def layout (cs : List Char) : List Bool := cs.map (· == '\n')

theorem afterAll_of_layout {cs ds} (h : layout cs = layout ds) (p : Position) : p.afterAll cs = p.afterAll ds := by
  induction cs generalizing ds p with
  | nil =>
    cases ds with
    | nil => rfl
    | cons d ds => cases h
  | cons c cs ih =>
    cases ds with
    | nil => cases h
    | cons d ds =>
      obtain ⟨hhead, htail⟩ := List.cons.inj h
      have hafter : p.after c = p.after d := by
        simp only [beq_eq_beq] at hhead
        simp only [Position.after, hhead]
      rw [Position.afterAll_cons, Position.afterAll_cons, hafter]
      exact ih htail _

theorem layout_blankStretch (cs : List Char) (offset length : Nat) :
    layout (blankStretch cs offset length) = layout cs := by
  have hblank : ∀ ds, layout (blank ds) = layout ds := by
    intro ds
    simp only [layout, blank, List.map_map]
    refine List.map_congr_left fun c _ => ?_
    by_cases hc : c = '\n' <;> simp [hc]
  have hparts : cs.take offset ++ (cs.drop offset).take length ++ cs.drop (offset + length) = cs := by
    rw [← List.drop_drop, List.append_assoc, List.take_append_drop, List.take_append_drop]
  have happend : ∀ ds es : List Char, layout (ds ++ es) = layout ds ++ layout es :=
    fun ds es => List.map_append
  rw [blankStretch, happend, happend, hblank, ← happend, ← happend, hparts]

theorem layout_liftImports (l : Language) (source masked : List Char) :
    layout (liftImports l source masked).source = layout source := by
  have hclear : ∀ (stretches : List (Nat × Nat)) (cs : List Char),
      layout (stretches.foldl (fun cs s => blankStretch cs s.1 s.2) cs) = layout cs := by
    intro stretches
    induction stretches with
    | nil => exact fun cs => rfl
    | cons s stretches ih => exact fun cs => (ih _).trans (layout_blankStretch ..)
  exact hclear _ source

/-- Whether `b`, though it begins after `a`, is put before it. A statement without a place of its
own is put before everything that has one behind the first character. An import that stands within
a statement is put before it unless the span of the statement starts earlier. -/
def Displaced : Entry → Entry → Prop
  | a, parsed _ s => s.span.start = .start ∧ a.stmt.span.start ≠ .start
  | parsed _ s, imported i => i.position ≤ s.span.start
  | imported _, imported _ => False

def Kept (a b : Entry) : Prop :=
  (a.start < b.start → ¬ a.Displaced b) ∧ (b.start < a.start → ¬ b.Displaced a)

instance : Std.Symm Kept := ⟨fun _ _ h => ⟨h.2, h.1⟩⟩

theorem displaced_of_settled {a b} (ha : a.Located) (hb : b.Located)
    (h : Sorting.Settled (fun e => e.stmt.span.start) Precedes a b) :
    (a.start < b.start → ¬ Displaced a b) ∧ (b.start < a.start → Displaced b a) := by
  obtain ⟨hkey, hprecedes⟩ := h
  cases a with
  | imported i =>
    cases b with
    | imported j => exact ⟨fun _ => id, fun hlt => absurd hkey (not_le.2 hlt)⟩
    | parsed q t =>
      refine ⟨?_, fun _ => hkey⟩
      rintro - ⟨hfirst, hne⟩
      exact hne (le_antisymm (hkey.trans hfirst.le) ha.start_le)
  | parsed p s =>
    cases b with
    | imported j =>
      have hlt : s.span.start < j.position := (hprecedes.resolve_left id).2
      refine ⟨fun _ hle => absurd hle (not_le.2 hlt), fun hstart => ?_⟩
      have hfirst : s.span.start = .start := by
        refine ha.located.resolve_right fun hle => ?_
        exact absurd (lt_of_lt_of_le hstart hle) (not_lt.2 hlt.le)
      exact ⟨hfirst, (hfirst ▸ hlt).ne'⟩
    | parsed q t =>
      refine ⟨?_, ?_⟩
      · rintro - ⟨hfirst, hne⟩
        exact hne (le_antisymm (hkey.trans hfirst.le) ha.start_le)
      · intro hlt
        rcases hprecedes with ⟨hbefore, -⟩ | ⟨⟨-, hplaced⟩, hchanged⟩
        · exact absurd hlt hbefore.not_gt
        · have hchanged : s.span.start < t.span.start := hchanged
          have hfirst : s.span.start = .start := hplaced.resolve_right (not_le.2 hchanged)
          exact ⟨hfirst, (hfirst ▸ hchanged).ne'⟩

/-! ### Programs -/

theorem precedes_append {imports : List Import} {es : List Entry}
    (himports : imports.Pairwise fun i j => i.position ≤ j.position) (hes : es.Pairwise Precedes)
    (hparsed : ∀ e ∈ es, ∃ p s, e = parsed p s) :
    (imports.map imported ++ es).Pairwise Precedes := by
  refine List.pairwise_append.2 ⟨List.pairwise_map.2 himports, hes, ?_⟩
  intro a ha b hb
  obtain ⟨i, -, rfl⟩ := List.mem_map.1 ha
  obtain ⟨p, s, rfl⟩ := hparsed b hb
  trivial

/-- The imports of a program and its statements, in the order in which they are read. -/
def ofProgram (l : Language) (source : List Char) : List Entry :=
  let lifted := liftImports l source (mask l source)
  lifted.imports.map imported ++
    if lifted.source.all Text.isBlank then [] else ofText l lifted.source

theorem exists_offset (he : e ∈ ofProgram l source) : ∃ k < source.length, e.start = .ofOffset source k := by
  have hlayout := layout_liftImports l source (mask l source)
  unfold ofProgram at he
  dsimp only at he
  generalize hlifted : liftImports l source (mask l source) = lifted at he hlayout
  rcases List.mem_append.1 he with he | he
  · obtain ⟨i, hi, rfl⟩ := List.mem_map.1 he
    exact exists_offset_of_mem_imports (hlifted ▸ hi)
  · split at he
    · cases he
    · obtain ⟨p, -, hp⟩ := List.mem_filterMap.1 he
      obtain ⟨t, ht, hstart⟩ := exists_token_of_ofPlaced? hp
      obtain ⟨k, hk, htk⟩ := (Token.lexFrom_starts _ _ _ _).2 t ht
      have hlength : lifted.source.length = source.length := by
        simpa [layout] using congrArg List.length hlayout
      refine ⟨k, hlength ▸ hk, ?_⟩
      rw [hstart, htk]
      exact afterAll_of_layout (by simpa [layout] using congrArg (List.take k) hlayout) _

end Entry

namespace Program

variable {l : Language} {source : List Char}

/-- Whether what is left of a text without its imports can be read as one program. -/
def IsReadWhole (l : Language) (source : List Char) : Prop :=
  let lifted := liftImports l source (mask l source)
  lifted.source.all Text.isBlank = true ∨ ∃ ss, Stmt.readAll l lifted.source = .ok ss

theorem IsReadWhole.recover {l source} (h : IsReadWhole l source) :
    (Stmt.recover l (liftImports l source (mask l source)).source (liftImports l source (mask l source)).masked).1 =
      (if (liftImports l source (mask l source)).source.all Text.isBlank then []
        else Entry.ofText l (liftImports l source (mask l source)).source).map Entry.stmt := by
  unfold IsReadWhole at h
  dsimp only at h
  unfold Stmt.recover
  split
  · rfl
  · next hblank =>
    obtain ⟨ss, hss⟩ := h.resolve_left hblank
    rw [hss, Entry.map_stmt_ofText hss]

theorem IsReadWhole.body_eq (h : IsReadWhole l source) : (Program.read l source).1.body =
      Sorting.sortBy Stmt.stands ((Entry.ofProgram l source).map Entry.stmt) := by
  have hrecover := h.recover
  unfold Program.read Entry.ofProgram
  dsimp only
  rw [List.map_append, List.map_map, ← hrecover]
  rfl

theorem IsReadWhole.precedes (h : IsReadWhole l source) : (Entry.ofProgram l source).Pairwise Entry.Precedes ∧
      ∀ e ∈ Entry.ofProgram l source, e.Located := by
  unfold IsReadWhole at h
  unfold Entry.ofProgram
  dsimp only at h ⊢
  generalize hlifted : liftImports l source (mask l source) = lifted at h ⊢
  have himports : lifted.imports.Pairwise fun i j => i.position ≤ j.position :=
    hlifted ▸ Entry.imports_pairwise ..
  have hstatements : ∃ es, (if lifted.source.all Text.isBlank then []
      else Entry.ofText l lifted.source) = es ∧ es.Pairwise Entry.Precedes ∧
      ∀ e ∈ es, e.Located ∧ ∃ p s, e = .parsed p s := by
    split
    · exact ⟨[], rfl, .nil, by simp⟩
    · next hblank =>
      obtain ⟨ss, hss⟩ := h.resolve_left hblank
      exact ⟨_, rfl, Entry.ofText_precedes hss⟩
  obtain ⟨es, hes, hordered, hparsed⟩ := hstatements
  rw [hes]
  refine ⟨Entry.precedes_append himports hordered fun e he => (hparsed e he).2, ?_⟩
  intro e he
  rcases List.mem_append.1 he with he | he
  · obtain ⟨i, hi, rfl⟩ := List.mem_map.1 he
    obtain ⟨k, -, hk⟩ := Entry.exists_offset_of_mem_imports (hlifted ▸ hi)
    have hfirst : .start ≤ i.position := hk ▸ Position.le_afterAll _ _
    exact ⟨hfirst, .inr le_rfl⟩
  · exact (hparsed e he).1

/-- The imports and statements of a program that is read whole stand in the order in which they
begin in the text, each before the later ones, unless a later one is displaced. So all of them are
in that order exactly when none is displaced. -/
theorem body_in_text_order_unless_displaced {l : Language} {source : List Char} (h : IsReadWhole l source) :
    (∀ e ∈ Entry.ofProgram l source, ∃ k < source.length, e.start = .ofOffset source k) ∧
    ∃ sorted : List Entry, sorted.Perm (Entry.ofProgram l source) ∧
      (Program.read l source).1.body = sorted.map Entry.stmt ∧
      (sorted.Pairwise fun a b =>
        (a.start < b.start → ¬ a.Displaced b) ∧ (b.start < a.start → b.Displaced a)) ∧
      ((sorted.Pairwise fun a b => a.start ≤ b.start) ↔
        ∀ a ∈ Entry.ofProgram l source, ∀ b ∈ Entry.ofProgram l source, a.start < b.start → ¬ a.Displaced b) := by
  obtain ⟨hprecedes, hlocated⟩ := h.precedes
  have hperm := Sorting.perm_sortBy (fun a b : Entry => a.stmt.stands b.stmt) (Entry.ofProgram l source)
  have hsettled := Sorting.pairwise_sortBy (fun e : Entry => e.stmt.span.start) (fun a b => Stmt.stands_iff) hprecedes
  have hpairs := hsettled.imp_of_mem fun ha hb hab =>
    Entry.displaced_of_settled (hlocated _ (hperm.mem_iff.1 ha)) (hlocated _ (hperm.mem_iff.1 hb)) hab
  refine ⟨fun e he => Entry.exists_offset he, _, hperm, ?_, hpairs, ?_, ?_⟩
  · rw [h.body_eq, Sorting.map_sortBy]
  · intro horder a ha b hb hlt
    have hkept := (horder.and hpairs).imp (S := Entry.Kept)
      fun hxy => ⟨hxy.2.1, fun hyx => absurd hxy.1 (not_le.2 hyx)⟩
    have hne : a ≠ b := fun heq => lt_irrefl _ (heq ▸ hlt)
    exact (hkept.forall (hperm.mem_iff.2 ha) (hperm.mem_iff.2 hb) hne).1 hlt
  · intro hnone
    refine hpairs.imp_of_mem fun ha hb hab => ?_
    by_contra hlt
    exact hnone _ (hperm.mem_iff.1 hb) _ (hperm.mem_iff.1 ha) (not_le.1 hlt) (hab.2 (not_le.1 hlt))

/-- A statement that stands behind the first character, and then an empty block. -/
def breakThenBlock : List Char := " break;\x7b\x7d".toList

def breakThenBlockTokens : List Token :=
  [⟨.kBreak, "break", ⟨1, 2, 1, 7⟩⟩, ⟨.semi, ";", ⟨1, 7, 1, 8⟩⟩, ⟨.lbrace, "\x7b", ⟨1, 8, 1, 9⟩⟩,
    ⟨.rbrace, "\x7d", ⟨1, 9, 1, 10⟩⟩]

theorem scan_breakThenBlock : Token.lex .java breakThenBlock = (breakThenBlockTokens, none) ∧
    (liftImports .java breakThenBlock (mask .java breakThenBlock)).source = breakThenBlock ∧
      (liftImports .java breakThenBlock (mask .java breakThenBlock)).imports = [] ∧
      breakThenBlock.all Text.isBlank = false := by
  decide

/-- The only reading of this text. -/
theorem programReadings_breakThenBlock : (programReadings breakThenBlockTokens).any (fun rs => !rs.isEmpty &&
    rs.all fun
      | [.node .program trees] => match Piece.ofTrees .java (Piece.readHole .java breakThenBlock.length) trees with
        | .ok pieces => (Piece.meaningful pieces).map (fun s => (s.kind, s.span.start)) ==
          [("break", ⟨1, 2⟩), ("block", .start)]
        | .error _ => false
      | _ => false) = true := by
  decide +kernel

theorem readAll_breakThenBlock : ∃ ss, Stmt.readAll .java breakThenBlock = .ok ss ∧
    ss.map (fun s => (s.kind, s.span.start)) = [("break", ⟨1, 2⟩), ("block", .start)] := by
  obtain ⟨rs, hrs, hread⟩ := (Option.any_eq_true ..).1 programReadings_breakThenBlock
  rw [Bool.and_eq_true, List.all_eq_true] at hread
  obtain ⟨hne, hall⟩ := hread
  obtain ⟨tree, htree⟩ := List.exists_mem_of_ne_nil rs (by simpa using hne)
  obtain ⟨trees, hrun, -⟩ := (Run.derives_program_iff (settled .java)).1
    ((derives_iff_of_programReadings hrs).2 htree)
  have hlex := scan_breakThenBlock.1
  have hplain : ∀ t ∈ breakThenBlockTokens, t.terminal ≠ .number := by decide
  have hisRun : Stmt.IsRun .java breakThenBlock := by
    rw [Stmt.IsRun, hlex]
    exact ⟨rfl, trees, hrun⟩
  obtain ⟨ss, hss⟩ := Stmt.exists_readAll hisRun
    fun t ht hnumber => absurd hnumber (hplain t (by rwa [hlex] at ht))
  obtain ⟨-, trees, pieces, hrun, hpieces, rfl⟩ := Stmt.reads_of_readAll hss
  rw [hlex] at hrun
  have hread := hall _ ((derives_iff_of_programReadings hrs).1
    ((Run.derives_program_iff (settled .java)).2 ⟨trees, hrun, rfl⟩))
  dsimp only at hread
  rw [hpieces] at hread
  exact ⟨_, hss, beq_iff_eq.1 hread⟩

theorem ofProgram_pair (hsource : (liftImports l source (mask l source)).source = source)
    (himports : (liftImports l source (mask l source)).imports = [])
    (hblank : source.all Text.isBlank = false) {s t}
    (hread : Stmt.readAll l source = .ok [s, t]) :
    IsReadWhole l source ∧ ∃ p q, Entry.ofProgram l source = [.parsed p s, .parsed q t] ∧ p < q := by
  have hwhole : IsReadWhole l source := .inr ⟨_, by rw [hsource, hread]⟩
  have hentries : Entry.ofProgram l source = Entry.ofText l source := by
    simp [Entry.ofProgram, hsource, himports, hblank]
  obtain ⟨hprecedes, hparsed⟩ := Entry.ofText_precedes hread
  have hstmts := Entry.map_stmt_ofText hread
  rw [← hentries] at hprecedes hparsed hstmts
  match hes : Entry.ofProgram l source with
  | [] => simp [hes] at hstmts
  | [a] => simp [hes] at hstmts
  | a :: b :: c :: es => simp [hes] at hstmts
  | [a, b] =>
    rw [hes] at hprecedes hparsed hstmts
    obtain ⟨p, s', rfl⟩ := (hparsed a (by simp)).2
    obtain ⟨q, t', rfl⟩ := (hparsed b (by simp)).2
    simp only [List.map_cons, List.map_nil, Entry.stmt, List.cons.injEq, and_true] at hstmts
    obtain ⟨rfl, rfl⟩ := hstmts
    have horder : (Entry.parsed p s').Precedes (.parsed q t') :=
      (List.pairwise_cons.1 hprecedes).1 _ (by simp)
    exact ⟨hwhole, p, q, rfl, horder.1⟩

theorem ofProgram_breakThenBlock : IsReadWhole .java breakThenBlock ∧ ∃ p q s t,
    Entry.ofProgram .java breakThenBlock = [.parsed p s, .parsed q t] ∧ p < q ∧
      s.kind = "break" ∧ t.kind = "block" ∧ s.span.start = ⟨1, 2⟩ ∧ t.span.start = .start := by
  obtain ⟨-, hsource, himports, hblank⟩ := scan_breakThenBlock
  obtain ⟨ss, hread, hspans⟩ := readAll_breakThenBlock
  obtain ⟨s, _, rfl, hs, hrest⟩ := List.map_eq_cons_iff.1 hspans
  obtain ⟨t, rfl, ht⟩ := List.map_eq_singleton_iff.1 hrest
  obtain ⟨hs, hsspan⟩ := Prod.mk.inj hs
  obtain ⟨ht, htspan⟩ := Prod.mk.inj ht
  obtain ⟨hwhole, p, q, hentries, hlt⟩ := ofProgram_pair hsource himports hblank hread
  exact ⟨hwhole, p, q, s, t, hentries, hlt, hs, ht, hsspan, htspan⟩

/-- A block without a place comes before a statement that begins earlier. -/
theorem read_breakThenBlock_out_of_order : IsReadWhole .java breakThenBlock ∧ ∃ a b : Entry,
    Entry.ofProgram .java breakThenBlock = [a, b] ∧ a.start < b.start ∧
      a.stmt.kind = "break" ∧ b.stmt.kind = "block" ∧
      (Program.read .java breakThenBlock).1.body = [b.stmt, a.stmt] := by
  obtain ⟨hwhole, p, q, s, t, hentries, hlt, hs, ht, hsspan, htspan⟩ := ofProgram_breakThenBlock
  refine ⟨hwhole, _, _, hentries, hlt, hs, ht, ?_⟩
  have hstands : ¬ s.stands t = true := by
    rw [Stmt.stands_iff, hsspan, htspan]
    decide
  rw [hwhole.body_eq, hentries]
  simp [Sorting.sortBy, Sorting.insertBy, Entry.stmt, hstands]

/-- Such a text is no program in the order of its text. -/
theorem body_in_text_order_unless_displaced_sample : IsReadWhole .java breakThenBlock ∧
    ∃ sorted : List Entry, sorted.Perm (Entry.ofProgram .java breakThenBlock) ∧
      (Program.read .java breakThenBlock).1.body = sorted.map Entry.stmt ∧
      ¬ sorted.Pairwise fun a b => a.start ≤ b.start := by
  obtain ⟨hwhole, p, q, s, t, hentries, hlt, -, -, hsspan, htspan⟩ := ofProgram_breakThenBlock
  obtain ⟨-, sorted, hperm, hbody, -, horder⟩ := body_in_text_order_unless_displaced hwhole
  refine ⟨hwhole, sorted, hperm, hbody, fun hsorted => ?_⟩
  have hdisplaced : (Entry.parsed p s).Displaced (.parsed q t) := by
    refine ⟨htspan, ?_⟩
    change s.span.start ≠ .start
    rw [hsspan]
    decide
  exact horder.1 hsorted (.parsed p s) (by simp [hentries]) (.parsed q t) (by simp [hentries]) hlt hdisplaced

end Program

end Source

end Blackboard
