import Blackboard.Proofs.Lowering.Iteration

/-!
The counters of loops over elements. A counter is named when its loop is reached, before the variable of
the loop is declared and its body converted: its name differs from every name that is visible there, and
stays visible in the body, where no other loop takes it. Nothing keeps it apart from names that are
declared in the loop.
-/
namespace Blackboard

/-! ### Names that stay visible -/

namespace Scopes

variable {s t : Scopes} {x : String}

theorem Sound.isSome_declareVariable (hs : s.Sound) (v : Variable) :
    ((s.declareVariable v).findVariable? x).isSome ↔ x = v.name ∨ (s.findVariable? x).isSome := by
  obtain ⟨scope, around, -, hchain, -⟩ := hs.exists_chain
  rw [findVariable?_eq, findVariable?_eq, hs.chain_declareVariable v hchain, variableIn_put, hchain]
  by_cases h : x = v.name <;> simp [h]

theorem Sound.findVariable?_declareCallable (hs : s.Sound) (p : Procedure) :
    (s.declareCallable p).findVariable? x = s.findVariable? x := by
  obtain ⟨scope, around, -, hchain, -⟩ := hs.exists_chain
  rw [findVariable?_eq, findVariable?_eq, hs.chain_declareCallable p hchain, hchain]
  rfl

theorem Sound.findVariable?_enter (hs : s.Sound) (kind : ScopeKind) :
    (s.enter kind).findVariable? x = s.findVariable? x := by
  rw [findVariable?_eq, hs.chain_enter]
  rfl

/-- What is visible before a run is visible after it. -/
theorem Run.isSome_findVariable? {limit} (h : Run limit s t) (hs : s.Sound)
    (hx : (s.findVariable? x).isSome) : (t.findVariable? x).isSome := by
  induction h with
  | refl => exact hx
  | declareVariable h v ih => exact ((h.evolves hs).sound.isSome_declareVariable v).2 (.inr (ih hs hx))
  | declareCallable h p ih =>
    rw [(h.evolves hs).sound.findVariable?_declareCallable]
    exact ih hs hx
  | inside h kind _ hinner ih _ =>
    have ht := (h.evolves hs).sound
    rw [findVariable?_eq, Evolves.chain_leave ht (hinner.evolves (ht.enter kind))]
    exact ih hs hx

end Scopes

namespace Convert

open Conversion Ensures
open Source (Span)

/-- The first of the names tried for a counter that is not visible. -/
def FirstFree (scopes : Scopes) (n : String) : Prop :=
  scopes.findVariable? n = none ∧ ∃ count tried rest, counterNames count = tried ++ n :: rest ∧
    ∀ m ∈ tried, (scopes.findVariable? m).isSome

theorem freeName_firstFree (scopes : Scopes) : FirstFree scopes (freeName scopes) := by
  obtain ⟨n, hn⟩ := Option.isSome_iff_exists.1 (isSome_find?_counterNames scopes (Nat.le_refl _))
  obtain ⟨hfree, tried, rest, hnames, htried⟩ := List.find?_eq_some_iff_append.1 hn
  rw [freeName_eq scopes (Nat.le_refl _), hn]
  exact ⟨Option.isNone_iff_eq_none.1 hfree, _, tried, rest, hnames, fun m hm => by simpa using htried m hm⟩

/-- The scopes in which something may be converted, in a body that is entered in the scopes `s`: after
whole statements, declarations, and at the start of further scopes. -/
inductive Within (s : Scopes) : Scopes → Prop where
  | start : Within s s
  | convert {c : Context} {b : Source.Stmt} {ps : List Pseudo.Stmt} {t u : State}
    (h : Within s t.scopes) (hrun : stmt b c t = .ok (ps, u)) : Within s u.scopes
  | declareVariable {t : Scopes} (h : Within s t) (v : Variable) : Within s (t.declareVariable v)
  | declareCallable {t : Scopes} (h : Within s t) (p : Procedure) : Within s (t.declareCallable p)
  | enter {t : Scopes} (h : Within s t) (kind : ScopeKind) : Within s (t.enter kind)

theorem stmt_run {b : Source.Stmt} {c : Context} {ps : List Pseudo.Stmt} {t u : State}
    (h : stmt b c t = .ok (ps, u)) : Scopes.Run c.limit t.scopes u.scopes := by
  have hextends := stmt_ensures b c t
  rw [Ensures, h] at hextends
  exact hextends.2.scopes

theorem Within.isSome_findVariable? {s t : Scopes} {x : String} (h : Within s t) (hs : s.Sound)
    (hx : (s.findVariable? x).isSome) : t.Sound ∧ (t.findVariable? x).isSome := by
  induction h with
  | start => exact ⟨hs, hx⟩
  | convert _ hrun ih =>
    have hr := stmt_run hrun
    exact ⟨(hr.evolves ih.1).sound, hr.isSome_findVariable? ih.1 ih.2⟩
  | declareVariable _ v ih =>
    exact ⟨(Scopes.Evolves.declareVariable ih.1 v).sound, (ih.1.isSome_declareVariable v).2 (.inr ih.2)⟩
  | declareCallable _ p ih =>
    exact ⟨(Scopes.Evolves.declareCallable ih.1 p).sound, (ih.1.findVariable?_declareCallable p).symm ▸ ih.2⟩
  | enter _ kind ih => exact ⟨ih.1.enter kind, (ih.1.findVariable?_enter kind).symm ▸ ih.2⟩

/-! ### Loops over elements -/

def elementVariable (name : String) (k : Pseudo.Kind) : Variable :=
  { name := name, type := k.base.text, isArray := k.isArray, dimensions := k.sizes }

def counterVariable (n : String) : Variable := { name := n, type := "INTEGER", oneBased := true }

/-- What a loop over elements is converted to, with the counter `n`. -/
def CountsWith (c : Context) (s : State) (span : Span) (name : String) (body : Source.Stmt) (n : String)
    (k : Pseudo.Kind) (ps : List Pseudo.Stmt) : Prop :=
  let line := some span.line
  ∃ length item ss u v, u.scopes = s.scopes.declareVariable (elementVariable name k) ∧
    inside .loop (bodyOf body (stmt body) (inner body) (declareVariable (counterVariable n))) c u = .ok (ss, v) ∧
    ps = [.simple (.variable_ name k.text) line, .mk (.for_ n (.number 1) length none)
      (assign (.identifier name (some true) line) (.index item (.identifier n (some true) line) line) span ::
        ss) [] line]

theorem elementKind_keeps (span : Span) (name : String) (type : Option Source.TypeRef)
    (collection : Option Pseudo.Kind) (c : Context) (s : State) :
    Ensures True (elementKind span name type collection) c s fun _ t => t.scopes = s.scopes := by
  unfold elementKind
  split
  · rfl
  · split
    · rfl
    · split <;> rfl
  · rfl

theorem elementLoop_ensures {span name iterable} {type : Option Source.TypeRef} {body : Source.Stmt}
    {c : Context} {s : State} :
    Ensures True (stmt (.forEach span name type iterable false body)) c s fun ps _ =>
      ∃ k, CountsWith c s span name body (freeName s.scopes) k ps := by
  rw [stmt, collectionLoop, bind_iff, view_iff, bind_iff]
  refine (lengthOf_keeps iterable c s).mono fun length u₁ h₁ => ?_
  simp only [Bool.false_eq_true, if_false, bind_iff]
  refine (elementKind_keeps ..).mono fun k u₂ h₂ => ?_
  have hscopes : u₂.scopes = s.scopes := h₂.trans h₁.scopes
  simp only [elementLoop, simplify, inform, bind_iff, get_iff, report_iff,
    note_iff, declareVariable_iff, hscopes]
  refine (run _ c _).mono fun ss v hss => ?_
  refine (run _ c v).mono fun item w _ => ?_
  exact ⟨k, length, item, ss, _, v, rfl, hss, rfl⟩

/-- A loop over elements counts with the first name tried that is not visible where the loop stands. No
variable that is visible there has this name, so none that the loop reads or assigns from outside; and no
loop over elements in its body takes it, since it is visible wherever something is converted there. -/
theorem element_loops_count_with_free_name (c : Context) (s : State) (span : Span) (name : String)
    (type : Option Source.TypeRef) (iterable : Source.Expr) (body : Source.Stmt) :
    Ensures (Heavy (Source.weight (Source.Stmt.forEach span name type iterable false body).nodes))
      (stmt (.forEach span name type iterable false body)) c s fun ps _ =>
        ∃ n k, CountsWith c s span name body n k ps ∧ FirstFree s.scopes n ∧
          (∀ x, (s.scopes.findVariable? x).isSome → x ≠ n) ∧
          (s.scopes.Sound → ∀ scopes m, Within (((s.scopes.declareVariable (elementVariable name k)).enter
            .block).declareVariable (counterVariable n)) scopes → FirstFree scopes m → m ≠ n) := by
  refine ((stmt_ensures (.forEach span name type iterable false body) c s).and elementLoop_ensures).mono ?_
  rintro ps _ ⟨-, k, hloop⟩
  have hfree := freeName_firstFree s.scopes
  refine ⟨_, k, hloop, hfree, ?_, ?_⟩
  · rintro x hx rfl
    simp [hfree.1] at hx
  · rintro hs scopes m hwithin hm rfl
    have hdeclared := (Scopes.Evolves.declareVariable hs (elementVariable name k)).sound
    have hentered := hdeclared.enter .block
    have hstart := (Scopes.Evolves.declareVariable hentered (counterVariable (freeName s.scopes))).sound
    have hvisible := (hentered.isSome_declareVariable (x := freeName s.scopes)
      (counterVariable (freeName s.scopes))).2 (.inl rfl)
    have hstays := (hwithin.isSome_findVariable? hstart hvisible).2
    simp [hm.1] at hstays

open Source in
/-- A loop over `a` whose variable has the given name. -/
def eachOfA (name : String) : Stmt :=
  .forEach .unplaced name none (.identifier .unplaced "a") false
    (.expression .unplaced (.assignment .unplaced .set (.identifier .unplaced "x") (.identifier .unplaced name)))

theorem element_loops_count_with_free_name_nested :
    ∃ ps t n k, stmt (eachOfA "e") countingContext countingState = .ok (ps, t) ∧
      FirstFree countingState.scopes n ∧ "i" ≠ n ∧
      ∀ scopes m, Within (((countingState.scopes.declareVariable (elementVariable "e" k)).enter
        .block).declareVariable (counterVariable n)) scopes → FirstFree scopes m → m ≠ n := by
  have hsound : countingState.scopes.Sound :=
    (Scopes.Evolves.declareVariable Scopes.sound_start _).sound
  have hlight : ¬ Heavy (Source.weight (eachOfA "e").nodes) := not_heavy_of_le (by decide)
  obtain ⟨ps, t, hrun, n, k, -, hfree, houter, hinner⟩ :=
    (element_loops_count_with_free_name countingContext countingState _ "e" none _ _).exists_ok_of_not hlight
  exact ⟨ps, t, n, k, hrun, hfree, houter "i" (by decide), hinner hsound⟩

/-- Where nothing is declared, a loop whose variable is `i` counts with it. -/
theorem eachOfA_counts_with_its_variable : ∃ type length item ss t, stmt (eachOfA "i") countingContext {} =
      .ok ([.simple (.variable_ "i" type) (some 1), .mk (.for_ "i" (.number 1) length none)
        (assign (.identifier "i" (some true) (some 1)) (.index item (.identifier "i" (some true) (some 1))
          (some 1)) .unplaced :: ss) [] (some 1)], t) := by
  obtain ⟨ps, t, hrun, hloop⟩ : ∃ ps t, stmt (eachOfA "i") countingContext {} = .ok (ps, t) ∧
      ∃ k, CountsWith countingContext {} .unplaced "i" _ (freeName {}) k ps := by
    have hlight : ¬ Heavy (Source.weight (eachOfA "i").nodes) := not_heavy_of_le (by decide)
    refine Ensures.exists_ok_of_not ?_ hlight
    exact ((stmt_ensures (eachOfA "i") countingContext {}).and elementLoop_ensures).mono fun _ _ h => h.2
  obtain ⟨k, length, item, ss, -, -, -, -, rfl⟩ := hloop
  exact ⟨k.text, length, item, ss, t, hrun⟩

end Convert

end Blackboard
