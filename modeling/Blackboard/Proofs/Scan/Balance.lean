import Blackboard.Proofs.Comments.Blanking

/-!
Brackets of a text. A word of brackets is balanced if every bracket is closed by its own counterpart, in
nested order. The faults that are reported about brackets decide exactly this of the masked text, and each
of them stands at the bracket that it names.
-/
namespace Blackboard.Scan

open Source List

def isBracket (c : Char) : Bool := isOpening c || isClosing c

def brackets (cs : List Char) : List Char := cs.filter isBracket

inductive Balanced : List Char → Prop where
  | nil : Balanced []
  | pair {o e : Char} {inner rest : List Char} :
    closing? o = some e → Balanced inner → Balanced rest → Balanced (o :: inner ++ e :: rest)

/-- The brackets that are open behind a character, the innermost first. There are none to tell if it closes
a bracket that does not match. -/
def openAfter (stack : List Char) (c : Char) : Option (List Char) :=
  if isOpening c then some (c :: stack)
  else if isClosing c then
    match stack with
    | [] => none
    | o :: outer => if closing? o = some c then some outer else none
  else some stack

def leftOpen (stack cs : List Char) : Option (List Char) := cs.foldlM openAfter stack

variable {l : Language} {c o e : Char} {cs ds stack stack' : List Char}

theorem isOpening_eq_false (h : isClosing c = true) : isOpening c = false := by
  simp only [isClosing, Bool.or_eq_true, beq_iff_eq] at h
  rcases h with (rfl | rfl) | rfl <;> rfl

theorem isOpening_of_closing? (h : closing? o = some e) : isOpening o = true := by
  rw [isOpening, h, Option.isSome_some]

theorem isClosing_of_closing? (h : closing? o = some e) : isClosing e = true := by
  unfold closing? at h
  split at h <;> cases h <;> rfl

/-! ### Open brackets -/

theorem openAfter_opening (h : isOpening c = true) : openAfter stack c = some (c :: stack) := if_pos h

theorem openAfter_closing (h : closing? o = some c) : openAfter (o :: stack) c = some stack := by
  have hclosing := isClosing_of_closing? h
  rw [openAfter, if_neg (by simp [isOpening_eq_false hclosing]), if_pos hclosing]
  exact if_pos h

theorem openAfter_other (h : isBracket c = false) : openAfter stack c = some stack := by
  rw [isBracket, Bool.or_eq_false_iff] at h
  unfold openAfter
  rw [if_neg (by simp [h.1]), if_neg (by simp [h.2])]

/-- What a character can be that closes no bracket amiss. -/
theorem openAfter_cases (h : openAfter stack c = some stack') :
    (isOpening c = true ∧ stack' = c :: stack) ∨ (∃ o, stack = o :: stack' ∧ closing? o = some c) ∨
      (isBracket c = false ∧ stack' = stack) := by
  unfold openAfter at h
  split at h
  · next hopening =>
    cases h
    exact .inl ⟨hopening, rfl⟩
  · next hopening =>
    split at h
    · split at h
      · cases h
      · next o outer =>
        split at h
        · next hclosing =>
          cases h
          exact .inr (.inl ⟨o, rfl, hclosing⟩)
        · cases h
    · next hclosing =>
      cases h
      exact .inr (.inr ⟨by simp [isBracket, hopening, hclosing], rfl⟩)

@[simp] theorem leftOpen_nil (stack : List Char) : leftOpen stack [] = some stack := rfl

@[simp] theorem leftOpen_cons (stack : List Char) (c : Char) (cs : List Char) :
    leftOpen stack (c :: cs) = (openAfter stack c).bind (leftOpen · cs) := rfl

theorem leftOpen_append (stack cs ds : List Char) :
    leftOpen stack (cs ++ ds) = (leftOpen stack cs).bind (leftOpen · ds) :=
  foldlM_append

theorem leftOpen_of_plain (h : ∀ c ∈ cs, isBracket c = false) (stack : List Char) :
    leftOpen stack cs = some stack := by
  induction cs with
  | nil => rfl
  | cons c cs ih =>
    obtain ⟨hc, hcs⟩ := forall_mem_cons.1 h
    rw [leftOpen_cons, openAfter_other hc, Option.bind_some, ih hcs]

theorem leftOpen_brackets (stack cs : List Char) : leftOpen stack (brackets cs) = leftOpen stack cs := by
  induction cs generalizing stack with
  | nil => rfl
  | cons c cs ih =>
    cases hc : isBracket c with
    | false =>
      rw [brackets, filter_cons_of_neg (by simp [hc]), ← brackets, ih, leftOpen_cons, openAfter_other hc,
        Option.bind_some]
    | true =>
      rw [brackets, filter_cons_of_pos hc, ← brackets, leftOpen_cons, leftOpen_cons]
      simp [ih]

/-! ### Balance -/

namespace Balanced

theorem append (h : Balanced cs) (h' : Balanced ds) : Balanced (cs ++ ds) := by
  induction h with
  | nil => exact h'
  | pair hclosing hinner _ _ ih => simpa using pair hclosing hinner ih

theorem leftOpen_append (h : Balanced cs) (stack ds : List Char) :
    leftOpen stack (cs ++ ds) = leftOpen stack ds := by
  induction h generalizing stack ds with
  | nil => rfl
  | pair hclosing _ _ ihinner ihrest =>
    rw [append_assoc, cons_append, leftOpen_cons, openAfter_opening (isOpening_of_closing? hclosing),
      Option.bind_some, ihinner, cons_append, leftOpen_cons, openAfter_closing hclosing, Option.bind_some, ihrest]

end Balanced

/-- A text closes the brackets of a stack, the innermost first, and is balanced between them. -/
def Closes : (stack : List Char) → List Char → Prop
  | [], cs => Balanced cs
  | o :: stack, cs => ∃ inner e rest, cs = inner ++ e :: rest ∧ closing? o = some e ∧ Balanced inner ∧ Closes stack rest

theorem Closes.behind (h : Closes stack cs) (hds : Balanced ds) : Closes stack (ds ++ cs) := by
  cases stack with
  | nil => exact hds.append h
  | cons o stack =>
    obtain ⟨inner, e, rest, rfl, hclosing, hinner, hrest⟩ := h
    exact ⟨ds ++ inner, e, rest, (append_assoc ..).symm, hclosing, hds.append hinner, hrest⟩

theorem closes_of_leftOpen (hcs : ∀ c ∈ cs, isBracket c = true) (h : leftOpen stack cs = some []) :
    Closes stack cs := by
  induction cs generalizing stack with
  | nil =>
    cases h
    exact .nil
  | cons c cs ih =>
    obtain ⟨hc, hcs⟩ := forall_mem_cons.1 hcs
    obtain ⟨stack', hstep, hopen⟩ := Option.bind_eq_some_iff.1 h
    obtain ⟨-, rfl⟩ | ⟨o, rfl, hclosing⟩ | ⟨hplain, -⟩ := openAfter_cases hstep
    · obtain ⟨inner, e, rest, rfl, hclosing, hinner, hrest⟩ := ih hcs hopen
      simpa using hrest.behind (.pair hclosing hinner .nil)
    · exact ⟨[], c, cs, rfl, hclosing, .nil, ih hcs hopen⟩
    · rw [hc] at hplain
      cases hplain

theorem balanced_brackets_iff (cs : List Char) : Balanced (brackets cs) ↔ leftOpen [] cs = some [] := by
  rw [← leftOpen_brackets]
  constructor
  · intro h
    simpa using h.leftOpen_append [] []
  · exact closes_of_leftOpen fun c hc => (mem_filter.1 hc).2

/-! ### Faults -/

/-- The bracket that a remark is about, if it is about one. -/
def bracket? : Cause → Option String
  | .unmatchedBracket c => some c
  | .mismatchedBracket _ c => some c
  | .unclosedBracket c => some c
  | _ => none

/-- A bracket of a text and its place there. -/
def Stands (cs : List Char) (c : Char) (p : Position) : Prop :=
  isBracket c = true ∧ ∃ i, cs[i]? = some c ∧ p = .ofOffset cs i

theorem Stands.append {p} (h : Stands cs c p) (ds : List Char) : Stands (cs ++ ds) c p := by
  obtain ⟨hc, i, hi, rfl⟩ := h
  have hlt : i < cs.length := (List.getElem?_eq_some_iff.1 hi).1
  refine ⟨hc, i, by rw [getElem?_append_left hlt, hi], ?_⟩
  rw [Position.ofOffset, Position.ofOffset, take_append_of_le_length hlt.le]

/-- Where a text ends, its next bracket stands. -/
theorem stands_next (hc : isBracket c = true) (cs : List Char) : Stands (cs ++ [c]) c (Position.start.afterAll cs) :=
  ⟨hc, cs.length, by simp, by simp [Position.ofOffset]⟩

/-- A remark at the place of the bracket that it is about. -/
def AtBracket (cs : List Char) (d : Diagnostic) : Prop :=
  ∀ s, bracket? d.cause = some s →
    ∃ c p, s = c.toString ∧ Stands cs c p ∧ d.line = some p.line ∧ d.column = some p.column

theorem AtBracket.append {d} (h : AtBracket cs d) (ds : List Char) : AtBracket (cs ++ ds) d := by
  intro s hs
  obtain ⟨c, p, rfl, hstands, hplace⟩ := h s hs
  exact ⟨c, p, rfl, hstands.append ds, hplace⟩

theorem atBracket_of_stands {p} (h : Stands cs c p) {cause : Cause} (hcause : bracket? cause = some c.toString) :
    AtBracket cs (.atPosition p .error cause) := by
  intro s hs
  cases hs.symm.trans hcause
  exact ⟨c, p, rfl, h, rfl, rfl⟩

namespace Nesting

variable {n : Nesting} {r : Region} {seen : List Char}

def isUnbroken (n : Nesting) : Bool := n.faults.all fun d => (bracket? d.cause).isNone

/-- What a scan knows of the masked text that it has seen: as long as no bracket was amiss, it holds exactly
the brackets that are open. -/
structure Follows (seen : List Char) (n : Nesting) : Prop where
  here : n.here = Position.start.afterAll seen
  opened : ∀ b ∈ n.opened, isOpening b.1 = true ∧ Stands seen b.1 b.2
  faults : ∀ d ∈ n.faults, AtBracket seen d
  balance : leftOpen [] seen = if n.isUnbroken then some (n.opened.map (·.1)) else none

theorem follows_empty : Follows [] empty := ⟨rfl, forall_mem_nil _, forall_mem_nil _, rfl⟩

theorem Follows.fault {cause : Cause} (h : n.Follows seen) (hcause : bracket? cause = none) :
    (n.fault cause).Follows seen where
  here := h.here
  opened := h.opened
  faults := by
    refine forall_mem_cons.2 ⟨fun s hs => ?_, h.faults⟩
    cases hcause.symm.trans hs
  balance := by
    have hsame : (n.fault cause).isUnbroken = n.isUnbroken := by
      simp [isUnbroken, Nesting.fault, Diagnostic.atPosition, hcause]
    rw [hsame]
    exact h.balance

/-- A stretch without brackets changes nothing but the place. -/
theorem Follows.plain (h : n.Follows seen) (hcs : ∀ c ∈ cs, isBracket c = false) :
    { n with here := n.here.afterAll cs }.Follows (seen ++ cs) where
  here := by rw [Position.afterAll_append, ← h.here]
  opened b hb := ⟨(h.opened b hb).1, (h.opened b hb).2.append cs⟩
  faults d hd := (h.faults d hd).append cs
  balance := by
    have hopen : leftOpen [] (seen ++ cs) = leftOpen [] seen := by
      rw [leftOpen_append]
      simp [leftOpen_of_plain hcs]
    exact hopen.trans h.balance

/-- What a character of code does to the open brackets and the faults. -/
theorem bracket_cases (n : Nesting) (c : Char) (h : ∀ b ∈ n.opened, isOpening b.1 = true) :
    (∃ opened, n.bracket c = { n with opened := opened } ∧
      openAfter (n.opened.map (·.1)) c = some (opened.map (·.1)) ∧
      ∀ b ∈ opened, b ∈ n.opened ∨ b = (c, n.here) ∧ isOpening c = true) ∨
    ∃ opened cause, n.bracket c = { n with opened := opened }.fault cause ∧
      openAfter (n.opened.map (·.1)) c = none ∧ bracket? cause = some c.toString ∧
      isClosing c = true ∧ ∀ b ∈ opened, b ∈ n.opened := by
  unfold bracket openAfter
  split
  · next hopening =>
    exact .inl ⟨_, rfl, rfl, forall_mem_cons.2 ⟨.inr ⟨rfl, hopening⟩, fun b hb => .inl hb⟩⟩
  · split
    · next hclosing =>
      split
      · next hopened =>
        refine .inr ⟨n.opened, .unmatchedBracket c.toString, rfl, ?_, rfl, hclosing, fun _ hb => hb⟩
        rw [hopened]
        rfl
      · next o p outer hopened =>
        rw [hopened] at h ⊢
        obtain ⟨e, he⟩ := Option.isSome_iff_exists.1 (forall_mem_cons.1 h).1
        simp only [he, map_cons, Option.some.injEq]
        by_cases hec : e = c
        · simp only [if_pos hec]
          exact .inl ⟨outer, rfl, rfl, fun b hb => .inl (mem_cons_of_mem _ hb)⟩
        · simp only [if_neg hec]
          exact .inr ⟨outer, .mismatchedBracket e.toString c.toString, rfl, trivial, rfl, hclosing,
            fun b hb => mem_cons_of_mem _ hb⟩
    · exact .inl ⟨n.opened, rfl, rfl, fun b hb => .inl hb⟩

theorem Follows.code (h : n.Follows seen) (c : Char) : (n.region l (.code c)).Follows (seen ++ [c]) := by
  have hopened b (hb : b ∈ n.opened) := (h.opened b hb).2.append [c]
  have hopen : leftOpen [] (seen ++ [c]) =
      if n.isUnbroken then openAfter (n.opened.map (·.1)) c else none := by
    rw [leftOpen_append, h.balance]
    split
    · simp
    · rfl
  obtain ⟨opened, hbracket, hafter, hmem⟩ | ⟨opened, cause, hbracket, hafter, hcause, hclosing, hmem⟩ :=
    bracket_cases n c fun b hb => (h.opened b hb).1
  all_goals
    unfold region
    dsimp only
    rw [hbracket]
  · constructor
    · simp [h.here, Region.text]
    · intro b hb
      obtain hb | ⟨rfl, hc⟩ := hmem b hb
      · exact ⟨(h.opened b hb).1, hopened b hb⟩
      · exact ⟨hc, h.here ▸ stands_next (by simp [isBracket, hc]) seen⟩
    · exact fun d hd => (h.faults d hd).append [c]
    · rw [hopen, hafter]
      rfl
  · have hstands := stands_next (c := c) (by simp [isBracket, hclosing]) seen
    constructor
    · simp [h.here, Region.text, Nesting.fault]
    · exact fun b hb => ⟨(h.opened b (hmem b hb)).1, hopened b (hmem b hb)⟩
    · refine forall_mem_cons.2 ⟨?_, fun d hd => (h.faults d hd).append [c]⟩
      exact atBracket_of_stands (h.here ▸ hstands) hcause
    · rw [hopen, hafter, ite_self]
      simp [isUnbroken, Nesting.fault, Diagnostic.atPosition, hcause]

end Nesting

/-! ### Scans -/

theorem isBracket_blank (cs : List Char) : ∀ c ∈ blank cs, isBracket c = false := by
  intro c hc
  obtain rfl | rfl := eq_of_mem_blank hc <;> rfl

theorem isBracket_of_isQuote (h : Region.isQuote l c = true) : isBracket c = false := by
  simp only [Region.isQuote, Bool.or_eq_true, Bool.and_eq_true, beq_iff_eq] at h
  rcases h with (rfl | rfl) | ⟨rfl, -⟩ <;> rfl

namespace Nesting

variable {n : Nesting} {r : Region} {seen : List Char}

theorem bracket?_openLiteral (l : Language) (q : Char) : bracket? (openLiteral l q) = none := by
  unfold openLiteral
  split
  · rfl
  · split <;> rfl

theorem Follows.region (h : n.Follows seen) (hr : ∀ c, r ≠ .code c) (hmask : ∀ c ∈ r.mask, isBracket c = false) :
    (n.region l r).Follows (seen ++ r.mask) := by
  have hplace (p : Position) : p.afterAll r.text = p.afterAll r.mask := (r.veiled_mask.afterAll_eq p).symm
  simp only [Nesting.region, hplace]
  cases r with
  | code c => exact absurd rfl (hr c)
  | lineComment cs => exact h.plain hmask
  | blockComment cs closed =>
    cases closed with
    | true => exact h.plain hmask
    | false => exact (h.fault rfl).plain hmask
  | quoted q cs closed =>
    cases closed with
    | true => exact h.plain hmask
    | false => exact (h.fault (bracket?_openLiteral l q)).plain hmask

theorem Follows.next (h : n.Follows seen) (c : Char) (cs : List Char) :
    (n.region l (Region.next l c cs).1).Follows (seen ++ (Region.next l c cs).1.mask) := by
  obtain ⟨-, hcomment⟩ | ⟨inner, closed, rest, hnext, hquote, -⟩ | ⟨hnext, -⟩ := Region.next_cases l c cs
  · generalize (Region.next l c cs).1 = r at hcomment
    cases r with
    | lineComment cs => exact h.region (by simp) (isBracket_blank cs)
    | blockComment cs closed => exact h.region (by simp) (isBracket_blank cs)
    | code c => cases hcomment
    | quoted q cs closed => cases hcomment
  · rw [hnext]
    refine h.region (by simp) ?_
    cases closed with
    | false => exact isBracket_blank (c :: inner)
    | true =>
      have hc := isBracket_of_isQuote hquote
      simp only [Region.mask, cons_append, forall_mem_cons, forall_mem_append]
      exact ⟨hc, isBracket_blank inner, hc, forall_mem_nil _⟩
  · rw [hnext]
    exact h.code c

theorem Follows.regions (h : n.Follows seen) (cs : List Char) :
    ((regions l cs).foldl (Nesting.region l) n).Follows (seen ++ mask l cs) := by
  induction cs using regions_induction (l := l) generalizing n seen with
  | nil => simpa [mask, Scan.regions, Region.split] using h
  | cons c cs ih =>
    rw [regions_cons, mask_cons, ← append_assoc]
    exact ih (h.next c cs)

/-- Once a whole text is seen, its open brackets are faults as well. -/
theorem Follows.finish (h : n.Follows seen) :
    ((∀ d ∈ n.finish, bracket? d.cause = none) ↔ leftOpen [] seen = some []) ∧ ∀ d ∈ n.finish, AtBracket seen d := by
  unfold Nesting.finish
  simp only [forall_mem_append, mem_reverse, forall_mem_map]
  refine ⟨?_, h.faults, fun b hb => ?_⟩
  · have hunbroken : n.isUnbroken = true ↔ ∀ d ∈ n.faults, bracket? d.cause = none := by
      simp [isUnbroken]
    rw [h.balance, ← hunbroken]
    by_cases hn : n.isUnbroken = true
    · rw [if_pos hn, Option.some.injEq, map_eq_nil_iff, eq_nil_iff_forall_not_mem]
      constructor
      · intro hall b hb
        cases hall.2 b hb
      · exact fun hnone => ⟨hn, fun b hb => absurd hb (hnone b)⟩
    · rw [if_neg hn]
      exact ⟨fun hall => absurd hall.1 hn, nofun⟩
  · exact atBracket_of_stands (h.opened b hb).2 rfl

end Nesting

/-- No fault of a text is about a bracket if and only if the brackets of the masked text are balanced, and
every fault about a bracket names a bracket of the masked text and stands at its place. -/
theorem bracket_faults_characterise_balance (l : Language) (source : List Char) :
    ((∀ d ∈ structuralFaults l source, bracket? d.cause = none) ↔ Balanced (brackets (mask l source))) ∧
      ∀ d ∈ structuralFaults l source, AtBracket (mask l source) d := by
  rw [balanced_brackets_iff]
  have hfollows := Nesting.follows_empty.regions (l := l) source
  rw [List.nil_append] at hfollows
  exact hfollows.finish

end Blackboard.Scan
