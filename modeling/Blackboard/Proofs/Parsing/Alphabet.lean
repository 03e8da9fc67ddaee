import Blackboard.Proofs.Recovery.Reading

/-!
Readings of few terminals. Tokens of a few terminals are read by few productions: by those that have no
other terminals, and whose categories can be read from these terminals at all. So few productions can be
tried one after the other, until all readings of a short text are found.
-/
namespace Blackboard.Grammar

open List

variable {ps : List Production} {symbols : List Symbol} {tokens : List Token} {trees : List Tree}
variable {ts : List Terminal} {cs : List Nat}

/-- Whether a symbol is one of the terminals `ts` or one of the categories `cs`. -/
def Symbol.isAmong (ts : List Terminal) (cs : List Nat) : Symbol → Bool
  | .terminal t _ => ts.contains t
  | .category c => cs.contains c

/-- The productions that have no terminals but `ts` and no categories but `cs`. -/
def among (ts : List Terminal) (cs : List Nat) (ps : List Production) : List Production :=
  ps.filter fun p => p.symbols.all (·.isAmong ts cs)

/-- The categories that can be read from the terminals `ts` by trees of at most some height. -/
def readableFrom (ts : List Terminal) (ps : List Production) : (height : Nat) → List Nat
  | 0 => []
  | n + 1 => ((among ts (readableFrom ts ps n) ps).map (·.origin)).eraseDups

/-- Tokens of some terminals are read as symbols among these terminals, if the productions among them
describe no further categories. -/
theorem Derives.all_isAmong (hclosed : ∀ p ∈ among ts cs ps, p.origin ∈ cs)
    (h : Derives ps symbols tokens trees) (htokens : ∀ t ∈ tokens, t.terminal ∈ ts) :
    symbols.all (·.isAmong ts cs) = true := by
  induction h with
  | nil => rfl
  | terminal _ ih =>
    obtain ⟨ht, htokens⟩ := forall_mem_cons.1 htokens
    rw [all_cons, ih htokens, Bool.and_true]
    exact contains_iff_mem.2 ht
  | @category p symbols tokens tokens' parts trees hp _ _ ihparts ih =>
    obtain ⟨htokens, htokens'⟩ := forall_mem_append.1 htokens
    rw [all_cons, ih htokens', Bool.and_true]
    exact contains_iff_mem.2 (hclosed p (mem_filter.2 ⟨hp, ihparts htokens⟩))

theorem derives_among_iff (hclosed : ∀ p ∈ among ts cs ps, p.origin ∈ cs) (htokens : ∀ t ∈ tokens, t.terminal ∈ ts) :
    Derives (among ts cs ps) symbols tokens trees ↔ Derives ps symbols tokens trees := by
  constructor
  · intro h
    induction h with
    | nil => exact .nil
    | terminal _ ih => exact .terminal (ih (forall_mem_cons.1 htokens).2)
    | category hp _ _ ihparts ih =>
      obtain ⟨htokens, htokens'⟩ := forall_mem_append.1 htokens
      exact .category (mem_filter.1 hp).1 (ihparts htokens) (ih htokens')
  · intro h
    induction h with
    | nil => exact .nil
    | terminal _ ih => exact .terminal (ih (forall_mem_cons.1 htokens).2)
    | category hp hparts _ ihparts ih =>
      obtain ⟨htokens, htokens'⟩ := forall_mem_append.1 htokens
      exact .category (mem_filter.2 ⟨hp, hparts.all_isAmong hclosed htokens⟩) (ihparts htokens) (ih htokens')

/-! ### All readings -/

/-- What is found for all the elements of a list, if something is found for each. -/
def collect {α β : Type} (f : α → Option (List β)) : List α → Option (List β)
  | [] => some []
  | a :: as => (f a).bind fun bs => (collect f as).map (bs ++ ·)

theorem mem_iff_of_collect {α β : Type} {f : α → Option (List β)} {as : List α} {bs : List β}
    (h : collect f as = some bs) : (∀ a ∈ as, (f a).isSome = true) ∧ ∀ b, b ∈ bs ↔ ∃ a ∈ as, ∃ cs ∈ f a, b ∈ cs := by
  induction as generalizing bs with
  | nil =>
    cases h
    simp
  | cons a as ih =>
    obtain ⟨found, hfound, hmap⟩ := Option.bind_eq_some_iff.1 h
    obtain ⟨rest, hrest, rfl⟩ := Option.map_eq_some_iff.1 hmap
    obtain ⟨hsome, hmem⟩ := ih hrest
    exact ⟨forall_mem_cons.2 ⟨by rw [hfound]; rfl, hsome⟩, fun b => by simp [hfound, hmem]⟩

/-- The readings of some tokens as some symbols, if all are found within some steps. What stands behind a
category is read first: where it cannot be, nothing is tried for the category itself. -/
def readings (ps : List Production) : (fuel : Nat) → List Symbol → List Token → Option (List (List Tree))
  | 0, _, _ => none
  | _ + 1, [], tokens => some (if tokens.isEmpty then [[]] else [])
  | _ + 1, .terminal .. :: _, [] => some []
  | n + 1, .terminal t kept :: symbols, token :: tokens =>
    if token.terminal = t then
      (readings ps n symbols tokens).map (·.map ((if kept then [.leaf token] else []) ++ ·))
    else some []
  | n + 1, .category c :: symbols, tokens => collect (fun i =>
      (readings ps n symbols (tokens.drop i)).bind fun behind => if behind.isEmpty then some [] else
        collect (fun p => (readings ps n p.symbols (tokens.take i)).map fun shown =>
          shown.flatMap fun parts => behind.map (Tree.shaped p parts ++ ·)) (ps.filter (·.origin == c)))
    (List.range (tokens.length + 1))

theorem mem_readings_iff {n rs} (h : readings ps n symbols tokens = some rs) :
    trees ∈ rs ↔ Derives ps symbols tokens trees := by
  induction n generalizing symbols tokens trees rs with
  | zero => cases h
  | succ n ih =>
    match symbols, tokens with
    | [], [] =>
      cases h
      rw [isEmpty_nil, if_pos rfl, mem_singleton]
      exact ⟨fun h => h ▸ .nil, fun | .nil => rfl⟩
    | [], t :: tokens =>
      cases h
      exact ⟨nofun, nofun⟩
    | .terminal t kept :: symbols, [] =>
      cases h
      exact ⟨nofun, nofun⟩
    | .terminal t kept :: symbols, token :: tokens =>
      rw [readings] at h
      split at h
      · next hterminal =>
        obtain ⟨shown, hshown, rfl⟩ := Option.map_eq_some_iff.1 h
        rw [mem_map]
        constructor
        · rintro ⟨trees, htrees, rfl⟩
          exact hterminal ▸ .terminal ((ih hshown).1 htrees)
        · rintro (_ | htrees)
          exact ⟨_, (ih hshown).2 htrees, rfl⟩
      · next hne =>
        cases h
        exact ⟨nofun, fun | .terminal _ => absurd rfl hne⟩
    | .category c :: symbols, tokens =>
      obtain ⟨hsome, hmem⟩ := mem_iff_of_collect h
      rw [hmem]
      constructor
      · rintro ⟨i, -, found, hfound, htrees⟩
        obtain ⟨behind, hbehind, hfound⟩ := Option.bind_eq_some_iff.1 hfound
        split at hfound
        · cases hfound
          cases htrees
        · obtain ⟨p, hp, shown, hshown, htrees⟩ := ((mem_iff_of_collect hfound).2 _).1 htrees
          obtain ⟨hp, horigin⟩ := mem_filter.1 hp
          obtain ⟨parts, hparts, rfl⟩ := Option.map_eq_some_iff.1 hshown
          obtain ⟨part, hpart, htrees⟩ := mem_flatMap.1 htrees
          obtain ⟨rest, hrest, rfl⟩ := mem_map.1 htrees
          have hread := Derives.category hp ((ih hparts).1 hpart) ((ih hbehind).1 hrest)
          rwa [beq_iff_eq.1 horigin, take_append_drop] at hread
      · rintro (_ | _ | @⟨p, _, first, rest, parts, trees, hp, hparts, htrees⟩)
        have hi : first.length ∈ range ((first ++ rest).length + 1) := by
          rw [mem_range, length_append]
          omega
        obtain ⟨found, hfound⟩ := Option.isSome_iff_exists.1 (hsome _ hi)
        refine ⟨_, hi, found, hfound, ?_⟩
        rw [take_left, drop_left] at hfound
        obtain ⟨behind, hbehind, hfound⟩ := Option.bind_eq_some_iff.1 hfound
        have hrest := (ih hbehind).2 htrees
        rw [if_neg (by simpa using ne_nil_of_mem hrest)] at hfound
        obtain ⟨hsome, hmem⟩ := mem_iff_of_collect hfound
        have hp : p ∈ ps.filter (·.origin == p.origin) := mem_filter.2 ⟨hp, beq_self_eq_true _⟩
        obtain ⟨found', hfound'⟩ := Option.isSome_iff_exists.1 (hsome p hp)
        refine (hmem _).2 ⟨p, hp, found', hfound', ?_⟩
        obtain ⟨shown, hshown, rfl⟩ := Option.map_eq_some_iff.1 hfound'
        exact mem_flatMap.2 ⟨parts, (ih hshown).2 hparts, mem_map_of_mem hrest⟩

def fewTerminals : List Terminal := [.kIf, .lpar, .name, .rpar, .semi, .kElse, .kBreak, .lbrace, .rbrace]

/-- The readings of some tokens as a program, if they have only a few terminals. -/
def programReadings (tokens : List Token) : Option (List (List Tree)) :=
  let cs := readableFrom fewTerminals Language.java.productions 17
  let ps := among fewTerminals cs Language.java.productions
  if (ps.all fun p => cs.contains p.origin) && tokens.all (fewTerminals.contains ·.terminal) then
    readings ps 40 [.category Category.program.ctorIdx] tokens
  else none

theorem derives_iff_of_programReadings {rs} (h : programReadings tokens = some rs) :
    Derives Language.java.productions [.category Category.program.ctorIdx] tokens trees ↔ trees ∈ rs := by
  unfold programReadings at h
  extract_lets cs ps at h
  split at h
  · next hfew =>
    rw [Bool.and_eq_true, all_eq_true, all_eq_true] at hfew
    rw [mem_readings_iff h, derives_among_iff (fun p hp => contains_iff_mem.1 (hfew.1 p hp))
      fun t ht => contains_iff_mem.1 (hfew.2 t ht)]
  · cases h

theorem Derives.exists_of_terminals (h : Derives ps symbols tokens trees) (tokens' : List Token)
    (hsame : tokens'.map (·.terminal) = tokens.map (·.terminal)) : ∃ trees', Derives ps symbols tokens' trees' := by
  induction h generalizing tokens' with
  | nil => exact ⟨[], map_eq_nil_iff.1 hsame ▸ .nil⟩
  | @terminal _ kept _ _ _ _ ih =>
    obtain ⟨token, rest, rfl, hterminal, hrest⟩ := map_eq_cons_iff.1 hsame
    obtain ⟨trees, htrees⟩ := ih rest hrest
    have hread : Derives _ (.terminal token.terminal kept :: _) (token :: rest) _ := .terminal htrees
    exact ⟨_, by rwa [hterminal] at hread⟩
  | category hp _ _ ihparts ih =>
    rw [map_append] at hsame
    obtain ⟨first, rest, rfl, hfirst, hrest⟩ := map_eq_append_iff.1 hsame
    obtain ⟨parts, hparts⟩ := ihparts first hfirst
    obtain ⟨trees, htrees⟩ := ih rest hrest
    exact ⟨_, .category hp hparts htrees⟩

def isFound (terminals : List Terminal) : Bool :=
  (programReadings (terminals.map fun t => ⟨t, "", .unplaced⟩)).any (!·.isEmpty)

theorem exists_run_of_isFound (h : isFound (tokens.map (·.terminal)) = true) :
    ∃ trees, Run Language.java.productions tokens trees := by
  obtain ⟨rs, hrs, hne⟩ := (Option.any_eq_true ..).1 h
  obtain ⟨trees, htrees⟩ := exists_mem_of_ne_nil rs (by simpa using hne)
  have hread := (derives_iff_of_programReadings hrs).2 htrees
  obtain ⟨trees', hread'⟩ := hread.exists_of_terminals tokens (by simp)
  obtain ⟨run, hrun, -⟩ := (Run.derives_program_iff (settled .java)).1 hread'
  exact ⟨run, hrun⟩

end Blackboard.Grammar
