import Mathlib.Data.List.TakeDrop
import Blackboard.Text.Blank
import Blackboard.Token.Lexer

/-!
Scanners, the functions that take a lexeme from the front of a text, and their locality: what is taken
does not change when the text is cut off behind it. Every kind of lexeme is put together from a few
scanners that are local.
-/
namespace Blackboard

open List hiding map_map
open Text (isDigit)
open Option (map_eq_some_iff ne_none_iff_exists' map_some map_eq_none_iff map_map or_eq_some_iff)

namespace Lexeme

variable {c q : Char} {multiline : Bool} {cs run rest : List Char}

/-- What a scanner takes is a beginning of the text, of characters that satisfy `P`. It takes the same
from a text that ends earlier, though not within what is taken; and if it takes nothing from a text,
it takes nothing from a beginning of that text. What follows the text does not matter if it begins with
a character that cannot be taken. -/
structure Scans (P : Char → Prop) (f : List Char → Option Cut) : Prop where
  append_eq : ∀ {cs run rest}, f cs = some (run, rest) → run ++ rest = cs
  all : ∀ {cs run rest}, f cs = some (run, rest) → ∀ c ∈ run, P c
  keeps : ∀ {run rest rest'}, f (run ++ rest) = some (run, rest) → rest' <+: rest →
    f (run ++ rest') = some (run, rest')
  fails : ∀ {cs ds}, f (cs ++ ds) = none → f cs = none
  followed : ∀ {cs ds}, (∀ d ∈ ds.head?, ¬P d) → f (cs ++ ds) = (f cs).map fun (run, rest) => (run, rest ++ ds)

/-! ### The scanners that others are made of -/

def nothing (cs : List Char) : Option Cut := some ([], cs)

def many (p : Char → Bool) (cs : List Char) : Option Cut := some (cs.span p)

def first (p : Char → Bool) (f : List Char → Option Cut) : List Char → Option Cut
  | [] => none
  | c :: cs => if p c then (f cs).map fun (run, rest) => (c :: run, rest) else none

def andThen (f g : List Char → Option Cut) (cs : List Char) : Option Cut :=
  (f cs).bind fun (run, rest) => (g rest).map fun (run', rest') => (run ++ run', rest')

def either (f g : List Char → Option Cut) (cs : List Char) : Option Cut := (f cs).or (g cs)

section

variable {f g : List Char → Option Cut} {cs run rest : List Char}

theorem first_eq_some_iff {p} : first p f cs = some (run, rest) ↔
    ∃ c cs' run', p c = true ∧ cs = c :: cs' ∧ run = c :: run' ∧ f cs' = some (run', rest) := by
  constructor
  · intro h
    cases cs with
    | nil => cases h
    | cons c cs =>
      rw [first] at h
      split at h
      · next hc =>
        obtain ⟨⟨run', rest'⟩, hf, heq⟩ := map_eq_some_iff.1 h
        cases heq
        exact ⟨c, cs, run', hc, rfl, rfl, hf⟩
      · cases h
  · rintro ⟨c, cs', run', hc, rfl, rfl, hf⟩
    rw [first, if_pos hc, hf]
    rfl

theorem first_cons_of_pos {p c} (hc : p c = true) :
    first p f (c :: cs) = (f cs).map fun (run, rest) => (c :: run, rest) :=
  if_pos hc

theorem first_first_eq_none {p q}
    (h : ∀ c d cs', p c = true → q d = true → cs ≠ c :: d :: cs') : first p (first q f) cs = none := by
  by_contra hsome
  obtain ⟨⟨run, rest⟩, hrun⟩ := ne_none_iff_exists'.1 hsome
  obtain ⟨c, cs', run', hc, hcs, -, hrun⟩ := first_eq_some_iff.1 hrun
  obtain ⟨d, cs'', run', hd, rfl, -, -⟩ := first_eq_some_iff.1 hrun
  exact h c d cs'' hc hd hcs

theorem andThen_eq_some_iff : andThen f g cs = some (run, rest) ↔
    ∃ run₁ rest₁ run₂, f cs = some (run₁, rest₁) ∧ g rest₁ = some (run₂, rest) ∧ run = run₁ ++ run₂ := by
  constructor
  · intro h
    obtain ⟨⟨run₁, rest₁⟩, hf, h⟩ := Option.bind_eq_some_iff.1 h
    obtain ⟨⟨run₂, rest₂⟩, hg, heq⟩ := map_eq_some_iff.1 h
    cases heq
    exact ⟨run₁, rest₁, run₂, hf, hg, rfl⟩
  · rintro ⟨run₁, rest₁, run₂, hf, hg, rfl⟩
    simp [andThen, hf, hg]

end

namespace Scans

variable {P Q : Char → Prop} {f g : List Char → Option Cut}

theorem mono (h : Scans P f) (hPQ : ∀ c, P c → Q c) : Scans Q f where
  append_eq := h.append_eq
  all hf c hc := hPQ c (h.all hf c hc)
  keeps := h.keeps
  fails := h.fails
  followed hds := h.followed fun d hd hp => hds d hd (hPQ d hp)

theorem of_closed (happend : ∀ {cs run rest}, f cs = some (run, rest) → run ++ rest = cs)
    (hall : ∀ {cs run rest}, f cs = some (run, rest) → ∀ c ∈ run, P c)
    (hclosed : ∀ {cs run rest}, f cs = some (run, rest) → ∀ rest', f (run ++ rest') = some (run, rest')) :
    Scans P f where
  append_eq := happend
  all := hall
  keeps h _ := hclosed h _
  fails {cs ds} h := by
    by_contra hsome
    obtain ⟨⟨run, rest⟩, hrun⟩ := ne_none_iff_exists'.1 hsome
    rw [← happend hrun, append_assoc, hclosed hrun] at h
    cases h
  followed {cs ds} hds := by
    cases hf : f cs with
    | some cut =>
      rw [← happend hf, append_assoc, hclosed hf]
      rfl
    | none =>
      -- what is taken from the longer text would end within the shorter one
      by_contra hsome
      obtain ⟨⟨run, rest⟩, hrun⟩ := ne_none_iff_exists'.1 hsome
      rcases append_eq_append_iff.1 (happend hrun) with ⟨as, rfl, -⟩ | ⟨bs, rfl, rfl⟩
      · rw [hclosed hrun] at hf
        cases hf
      · cases bs with
        | nil =>
          rw [append_nil] at hrun
          rw [← append_nil cs, hclosed hrun] at hf
          cases hf
        | cons b bs => exact hds b rfl (hall hrun b (by simp))

theorem nothing : Scans P nothing where
  append_eq h := by
    cases h
    rfl
  all h c hc := by
    cases h
    cases hc
  keeps h _ := by
    cases h
    rfl
  fails h := nomatch h
  followed _ := rfl

theorem many {p} (hp : ∀ c, p c = true → P c) : Scans P (many p) where
  append_eq {cs run rest} h := by
    rw [Lexeme.many, span_eq_takeWhile_dropWhile] at h
    cases h
    exact takeWhile_append_dropWhile
  all {cs run rest} h c hc := by
    rw [Lexeme.many, span_eq_takeWhile_dropWhile] at h
    cases h
    exact hp c (all_eq_true.1 all_takeWhile c hc)
  keeps {run rest rest'} h hrest := by
    rw [Lexeme.many, span_eq_takeWhile_dropWhile, Option.some.injEq, Prod.mk.injEq] at h ⊢
    obtain ⟨hrun, hdrop⟩ := h
    have hall : ∀ c ∈ run, p c = true := fun c hc =>
      all_eq_true.1 (hrun ▸ all_takeWhile) c hc
    rw [dropWhile_append_of_pos hall] at hdrop
    rw [takeWhile_append_of_pos hall, dropWhile_append_of_pos hall]
    -- the first character that is left does not satisfy `p`
    cases rest' with
    | nil => simp
    | cons c rest' =>
      obtain ⟨ds, rfl⟩ := hrest
      have hc : p c = false := by
        by_contra hc
        rw [cons_append, dropWhile_cons_of_pos (by simpa using hc)] at hdrop
        have hlength := congrArg length hdrop
        have hle := (dropWhile_suffix p : (rest' ++ ds).dropWhile p <:+ rest' ++ ds).length_le
        rw [length_cons] at hlength
        omega
      simp [hc]
  fails h := nomatch h
  followed {cs ds} hds := by
    have hstop : ds.takeWhile p = [] ∧ ds.dropWhile p = ds := by
      cases ds with
      | nil => exact ⟨rfl, rfl⟩
      | cons d ds =>
        have hd : ¬p d = true := fun hd => hds d rfl (hp d hd)
        exact ⟨takeWhile_cons_of_neg hd, dropWhile_cons_of_neg hd⟩
    have hspan : (cs ++ ds).takeWhile p = cs.takeWhile p ∧ (cs ++ ds).dropWhile p = cs.dropWhile p ++ ds := by
      induction cs with
      | nil => exact hstop
      | cons c cs ih => by_cases hc : p c = true <;> simp [hc, ih]
    rw [Lexeme.many, Lexeme.many, map_some, span_eq_takeWhile_dropWhile,
      span_eq_takeWhile_dropWhile, hspan.1, hspan.2]

theorem first {p} (hp : ∀ c, p c = true → P c) (h : Scans P f) : Scans P (first p f) where
  append_eq hf := by
    obtain ⟨c, cs', run', -, rfl, rfl, hf'⟩ := first_eq_some_iff.1 hf
    rw [cons_append, h.append_eq hf']
  all hf := by
    obtain ⟨c, cs', run', hc, -, rfl, hf'⟩ := first_eq_some_iff.1 hf
    exact forall_mem_cons.2 ⟨hp c hc, h.all hf'⟩
  keeps {run rest rest'} hf hrest := by
    obtain ⟨c, cs', run', hc, hcs, rfl, hf'⟩ := first_eq_some_iff.1 hf
    cases hcs
    exact first_eq_some_iff.2 ⟨c, run' ++ rest', run', hc, rfl, rfl, h.keeps hf' hrest⟩
  fails {cs ds} hf := by
    cases cs with
    | nil => rfl
    | cons c cs =>
      rw [cons_append, Lexeme.first] at hf
      rw [Lexeme.first]
      split at hf
      · next hc =>
        rw [if_pos hc, h.fails (map_eq_none_iff.1 hf)]
        rfl
      · next hc => rw [if_neg hc]
  followed {cs ds} hds := by
    cases cs with
    | nil =>
      cases ds with
      | nil => rfl
      | cons d ds => exact if_neg fun hd => hds d rfl (hp d hd)
    | cons c cs =>
      rw [cons_append, Lexeme.first, Lexeme.first]
      split
      · rw [h.followed hds, map_map, map_map]
        rfl
      · rfl

theorem andThen (h : Scans P f) (hg : Scans P g) (htotal : ∀ cs, g cs ≠ none) : Scans P (andThen f g) where
  append_eq hf := by
    obtain ⟨run₁, rest₁, run₂, hf', hg', rfl⟩ := andThen_eq_some_iff.1 hf
    rw [append_assoc, hg.append_eq hg', h.append_eq hf']
  all hf c hc := by
    obtain ⟨run₁, rest₁, run₂, hf', hg', rfl⟩ := andThen_eq_some_iff.1 hf
    exact (mem_append.1 hc).elim (h.all hf' c) (hg.all hg' c)
  keeps {run rest rest'} hf hrest := by
    obtain ⟨run₁, rest₁, run₂, hf', hg', rfl⟩ := andThen_eq_some_iff.1 hf
    obtain rfl := hg.append_eq hg'
    rw [append_assoc] at hf' ⊢
    exact andThen_eq_some_iff.2 ⟨run₁, run₂ ++ rest', run₂,
      h.keeps hf' ((prefix_append_right_inj run₂).2 hrest), hg.keeps hg' hrest, rfl⟩
  fails {cs ds} hf := by
    rw [Lexeme.andThen, Option.bind_eq_none_iff] at hf
    have hnone : f (cs ++ ds) = none := by
      by_contra hsome
      obtain ⟨⟨run, rest⟩, hrun⟩ := ne_none_iff_exists'.1 hsome
      exact htotal rest (map_eq_none_iff.1 (hf _ hrun))
    rw [Lexeme.andThen, h.fails hnone, Option.bind_none]
  followed {cs ds} hds := by
    rw [Lexeme.andThen, Lexeme.andThen, h.followed hds]
    cases f cs with
    | none => rfl
    | some cut =>
      simp only [map_some, Option.bind_some, hg.followed hds, map_map]
      rfl

theorem either (h : Scans P f) (hg : Scans P g) : Scans P (either f g) where
  append_eq hf := by
    rcases or_eq_some_iff.1 hf with hf | ⟨-, hf⟩
    · exact h.append_eq hf
    · exact hg.append_eq hf
  all hf := by
    rcases or_eq_some_iff.1 hf with hf | ⟨-, hf⟩
    · exact h.all hf
    · exact hg.all hf
  keeps {run rest rest'} hf hrest := by
    rcases or_eq_some_iff.1 hf with hf | ⟨hnone, hf⟩
    · exact or_eq_some_iff.2 (.inl (h.keeps hf hrest))
    · obtain ⟨ds, rfl⟩ := hrest
      rw [← append_assoc] at hnone
      exact or_eq_some_iff.2 (.inr ⟨h.fails hnone, hg.keeps hf ⟨ds, rfl⟩⟩)
  fails hf := by
    obtain ⟨hf, hg'⟩ := Option.or_eq_none_iff.1 hf
    exact Option.or_eq_none_iff.2 ⟨h.fails hf, hg.fails hg'⟩
  followed {cs ds} hds := by
    rw [Lexeme.either, Lexeme.either, h.followed hds, hg.followed hds, Option.map_or]

end Scans

/-! ### Every kind of lexeme -/

theorem name?_eq : name? = first isNameStart (many isNamePart) := by
  funext cs
  cases cs <;> rfl

theorem some_span_eq {p} (cs : List Char) :
    (match cs.span p with | ([], _) => none | cut => some cut) = first p (many p) cs := by
  cases cs with
  | nil => rfl
  | cons c cs =>
    by_cases hc : p c = true
    · simp [first, many, hc]
    · simp [first, hc]

theorem space?_eq : space? = first isSpace (many isSpace) := by
  funext cs
  exact some_span_eq cs

theorem lineComment?_eq : lineComment? = first (· == '/') (first (· == '/') (many (· != '\n'))) := by
  funext cs
  unfold lineComment?
  split
  · rfl
  · next hne =>
    refine (first_first_eq_none fun c d cs' hc hd hcs => hne cs' ?_).symm
    rw [hcs, eq_of_beq hc, eq_of_beq hd]

theorem hexadecimal?_eq : hexadecimal? = first (· == '0') (first (fun x => x = 'x' || x = 'X')
    (first isHexPart (many isHexPart))) := by
  funext cs
  unfold hexadecimal?
  split
  · next x cs =>
    rw [first_cons_of_pos (by rfl)]
    split
    · next hx =>
      rw [first_cons_of_pos hx, ← some_span_eq]
      generalize cs.span isHexPart = cut
      obtain ⟨run, rest⟩ := cut
      cases run <;> rfl
    · next hx => simp [first, hx]
  · next hne =>
    refine (first_first_eq_none fun c d cs' hc _ hcs => hne d cs' ?_).symm
    rw [hcs, eq_of_beq hc]

theorem whole?_eq : whole? = first isDigit (many isDigitPart) := by
  funext cs
  cases cs <;> rfl

theorem fraction?_eq : fraction? = first (· == '.') (first isDigit (many isDigitPart)) := by
  funext cs
  unfold fraction?
  split
  · next d cs =>
    rw [first_cons_of_pos (by rfl), first]
    split <;> rfl
  · next hne =>
    refine (first_first_eq_none fun c d cs' hc _ hcs => hne d cs' ?_).symm
    rw [hcs, eq_of_beq hc]

def maybe (f : List Char → Option Cut) : List Char → Option Cut := either f nothing

theorem maybe_ne_none (f : List Char → Option Cut) (cs : List Char) : maybe f cs ≠ none := by
  simp [maybe, either, nothing]

theorem some_optional (p : Char → Bool) (cs : List Char) : some (optional p cs) = maybe (first p nothing) cs := by
  cases cs with
  | nil => rfl
  | cons c cs =>
    by_cases hc : p c = true
    · simp [optional, maybe, either, first, nothing, hc]
    · simp [optional, maybe, either, first, nothing, hc]

theorem decimal?_eq : decimal? =
    either (andThen whole? (either fraction? (maybe (first (· == '.') nothing)))) fraction? := by
  funext cs
  unfold decimal?
  cases hwhole : whole? cs with
  | none => simp [either, andThen, hwhole]
  | some cut =>
    obtain ⟨run, rest⟩ := cut
    cases hfraction : fraction? rest <;> simp [either, andThen, hwhole, hfraction, ← some_optional]

def signed? : List Char → Option Cut :=
  either (first (fun c => c == '+' || c == '-') (first isDigit (many isDigit))) (first isDigit (many isDigit))

theorem signed?_eq (cs : List Char) : signed? cs =
    match (optional (fun c => c == '+' || c == '-') cs).2.span isDigit with
    | ([], _) => none
    | (run, rest) => some ((optional (fun c => c == '+' || c == '-') cs).1 ++ run, rest) := by
  cases cs with
  | nil => rfl
  | cons c cs =>
    by_cases hc : (c == '+' || c == '-') = true
    · have hdigit : isDigit c = false := by
        rw [Bool.or_eq_true, beq_iff_eq, beq_iff_eq] at hc
        rcases hc with rfl | rfl <;> decide
      have hnone : first isDigit (many isDigit) (c :: cs) = none := by simp [first, hdigit]
      rw [signed?, either, first_cons_of_pos hc, hnone, ← some_span_eq, optional, if_pos hc]
      generalize cs.span isDigit = cut
      obtain ⟨run, rest⟩ := cut
      cases run <;> rfl
    · have hnone : first (fun c => c == '+' || c == '-') (first isDigit (many isDigit))
          (c :: cs) = none := by simp [first, hc]
      rw [signed?, either, hnone, ← some_span_eq, optional, if_neg hc]
      generalize (c :: cs).span isDigit = cut
      obtain ⟨run, rest⟩ := cut
      cases run <;> rfl

def exponent? : List Char → Option Cut := first (fun c => c == 'e' || c == 'E') signed?

theorem some_exponent (cs : List Char) : some (exponent cs) = maybe exponent? cs := by
  unfold exponent maybe exponent?
  cases cs with
  | nil => rfl
  | cons c cs =>
    by_cases hc : (c == 'e' || c == 'E') = true
    · rw [either, first_cons_of_pos hc, signed?_eq, optional, if_pos hc]
      dsimp only
      generalize (optional (fun c => c == '+' || c == '-') cs).2.span isDigit = cut
      obtain ⟨run, rest⟩ := cut
      cases run <;> rfl
    · simp [optional, either, first, nothing, hc]

theorem number?_eq (l : Language) : number? l =
    either (andThen hexadecimal? (maybe (first (fun c => l == .java && (c == 'l' || c == 'L')) nothing)))
      (andThen (andThen decimal? (maybe exponent?)) (maybe (first (isSuffix l) nothing))) := by
  funext cs
  unfold number? either
  cases hhexadecimal : hexadecimal? cs with
  | some cut =>
    simp [andThen, hhexadecimal, ← some_optional]
  | none =>
    simp [andThen, hhexadecimal, ← some_optional, ← some_exponent]
    cases decimal? cs <;> simp

/-! ### Plain characters -/

def guards : List Char := ['"', '\'', '`', '/', ';', '\x7d']

/-- Whether a character is neither blank nor one of the marks that a text is masked or cut at. -/
def IsInk (c : Char) : Prop := Text.isBlank c = false ∧ c ∉ guards

instance (c : Char) : Decidable (IsInk c) := inferInstanceAs (Decidable (_ ∧ _))

theorem isBlank_eq_false (h : ¬(9 ≤ c.toNat ∧ c.toNat ≤ 13 ∨ 28 ≤ c.toNat ∧ c.toNat ≤ 32 ∨
      c.toNat ∈ [0x85, 0xa0, 0x1680, 0x2028, 0x2029, 0x202f, 0x205f, 0x3000] ∨
      0x2000 ≤ c.toNat ∧ c.toNat ≤ 0x200a)) :
    Text.isBlank c = false := by
  simp only [mem_cons, not_mem_nil] at h
  simp only [Text.isBlank, Bool.or_eq_false_iff, Bool.and_eq_false_iff, decide_eq_false_iff_not, beq_eq_false_iff_ne]
  omega

theorem isAlphanum_iff : c.isAlphanum = true ↔
    48 ≤ c.toNat ∧ c.toNat ≤ 57 ∨ 65 ≤ c.toNat ∧ c.toNat ≤ 90 ∨ 97 ≤ c.toNat ∧ c.toNat ≤ 122 := by
  have hval : c.val.toNat = c.toNat := rfl
  delta Char.isAlphanum Char.isAlpha Char.isUpper Char.isLower Char.isDigit
  simp [UInt32.le_iff_toNat_le, hval]
  omega

theorem isInk_of_isAlphanum (h : c.isAlphanum = true) : IsInk c := by
  constructor
  · have hrange := isAlphanum_iff.1 h
    refine isBlank_eq_false fun hblank => ?_
    simp only [mem_cons, not_mem_nil, or_false] at hblank
    omega
  · intro hguard
    have hall : guards.all (fun d => !d.isAlphanum) = true := by decide
    have hc := all_eq_true.1 hall c hguard
    rw [h] at hc
    cases hc

theorem isInk_of_isDigit (h : Text.isDigit c = true) : IsInk c := by
  unfold Text.isDigit Text.digitValue? at h
  dsimp only at h
  split at h
  · next hdigit => exact isInk_of_isAlphanum (by simp [Char.isAlphanum, hdigit])
  · split at h
    · cases h
    · next hlarge =>
      rw [Option.isSome_map] at h
      obtain ⟨z, hz⟩ := Option.isSome_iff_exists.1 h
      have hmem := mem_of_find?_eq_some hz
      have hrange := find?_some hz
      simp only [Bool.and_eq_true, decide_eq_true_eq] at hrange
      constructor
      · have hblank : ∀ z ∈ Text.digitZeros, (z + 9 < 0x2000 ∨ 0x200a < z) ∧
            ∀ n ∈ [0x85, 0xa0, 0x1680, 0x2028, 0x2029, 0x202f, 0x205f, 0x3000], n < z ∨ z + 9 < n := by
          decide
        obtain ⟨hspaces, hothers⟩ := hblank z hmem
        refine isBlank_eq_false ?_
        rintro (h | h | h | h)
        · omega
        · omega
        · have := hothers _ h
          omega
        · omega
      · intro hguard
        have hall : guards.all (fun d => d.toNat < 0x80) = true := by decide
        exact hlarge (of_decide_eq_true (all_eq_true.1 hall c hguard))

theorem isInk_of_isDigitPart (h : isDigitPart c = true) : IsInk c := by
  rw [isDigitPart, Bool.or_eq_true, beq_iff_eq] at h
  rcases h with h | rfl
  · exact isInk_of_isDigit h
  · decide

theorem isInk_of_isNamePart (h : isNamePart c = true) : IsInk c := by
  simp only [isNamePart, Bool.or_eq_true, beq_iff_eq] at h
  rcases h with (h | rfl) | rfl
  · exact isInk_of_isAlphanum h
  · decide
  · decide

theorem isNamePart_of_isNameStart (h : isNameStart c = true) : isNamePart c = true := by
  simp only [isNameStart, isNamePart, Char.isAlphanum, Bool.or_eq_true] at h ⊢
  exact h.imp_left (.imp_left .inl)

theorem isAlphanum_of_hexValue? (h : (Text.hexValue? c).isSome = true) : c.isAlphanum = true := by
  unfold Text.hexValue? at h
  split at h
  · next hdigit => simp [Char.isAlphanum, hdigit]
  · split at h
    · next hlower =>
      simp [Char.le_def, UInt32.le_iff_toNat_le] at hlower
      exact isAlphanum_iff.2 (by omega)
    · split at h
      · next hupper =>
        simp [Char.le_def, UInt32.le_iff_toNat_le] at hupper
        exact isAlphanum_iff.2 (by omega)
      · cases h

theorem isInk_of_isHexPart (h : isHexPart c = true) : IsInk c := by
  rw [isHexPart, Bool.or_eq_true, beq_iff_eq] at h
  rcases h with h | rfl
  · exact isInk_of_isAlphanum (isAlphanum_of_hexValue? h)
  · decide

theorem isInk_of_isSuffix {l} (h : isSuffix l c = true) : IsInk c := by
  cases l with
  | java =>
    have hall : "lLfFdD".toList.all IsInk = true := by decide
    exact of_decide_eq_true (all_eq_true.1 hall c (contains_iff_mem.1 h))
  | typescript =>
    obtain rfl := eq_of_beq h
    decide

theorem name?_scans : Scans IsInk name? := by
  exact .first (fun c hc => isInk_of_isNamePart (isNamePart_of_isNameStart hc)) (.many fun c => isInk_of_isNamePart)

theorem fraction?_scans : Scans IsInk fraction? := by
  rw [fraction?_eq]
  refine .first (fun c hc => ?_) (.first (fun c => isInk_of_isDigit) (.many fun c => isInk_of_isDigitPart))
  obtain rfl := eq_of_beq hc
  decide

theorem decimal?_scans : Scans IsInk decimal? := by
  have hpoint : Scans IsInk (maybe (first (· == '.') nothing)) := by
    refine .either (.first (fun c hc => ?_) .nothing) .nothing
    obtain rfl := eq_of_beq hc
    decide
  have hwhole : Scans IsInk whole? := by
    exact .first (fun c => isInk_of_isDigit) (.many fun c => isInk_of_isDigitPart)
  rw [decimal?_eq]
  refine .either (.andThen hwhole (.either fraction?_scans hpoint) fun cs => ?_) fraction?_scans
  simp [either, maybe_ne_none]

theorem exponent?_scans : Scans IsInk exponent? := by
  have hdigits : Scans IsInk (first Text.isDigit (many Text.isDigit)) :=
    .first (fun c => isInk_of_isDigit) (.many fun c => isInk_of_isDigit)
  refine .first (fun c hc => ?_) (.either (.first (fun c hc => ?_) hdigits) hdigits)
  · rw [Bool.or_eq_true, beq_iff_eq, beq_iff_eq] at hc
    rcases hc with rfl | rfl <;> decide
  · rw [Bool.or_eq_true, beq_iff_eq, beq_iff_eq] at hc
    rcases hc with rfl | rfl <;> decide

theorem number?_scans (l : Language) : Scans IsInk (number? l) := by
  have hhexadecimal : Scans IsInk hexadecimal? := by
    rw [hexadecimal?_eq]
    refine .first (fun c hc => ?_) (.first (fun c hc => ?_)
      (.first (fun c => isInk_of_isHexPart) (.many fun c => isInk_of_isHexPart)))
    · obtain rfl := eq_of_beq hc
      decide
    · rw [Bool.or_eq_true, decide_eq_true_eq, decide_eq_true_eq] at hc
      rcases hc with rfl | rfl <;> decide
  have hlong : Scans IsInk (first (fun c => l == .java && (c == 'l' || c == 'L')) nothing) := by
    refine .first (fun c hc => ?_) .nothing
    simp only [Bool.and_eq_true, Bool.or_eq_true, beq_iff_eq] at hc
    rcases hc.2 with rfl | rfl <;> decide
  have hsuffix : Scans IsInk (first (isSuffix l) nothing) := .first (fun c => isInk_of_isSuffix) .nothing
  rw [number?_eq]
  exact .either (.andThen hhexadecimal (.either hlong .nothing) (maybe_ne_none _))
    (.andThen (.andThen decimal?_scans (.either exponent?_scans .nothing) (maybe_ne_none _))
      (.either hsuffix .nothing) (maybe_ne_none _))

theorem space?_scans : Scans (fun c => isSpace c = true) space? := by
  rw [space?_eq]
  exact .first (fun _ hc => hc) (.many fun _ hc => hc)

theorem lineComment?_scans : Scans (· ≠ '\n') lineComment? := by
  rw [lineComment?_eq]
  have hslash : ∀ c, (c == '/') = true → c ≠ '\n' := by
    intro c hc
    rw [eq_of_beq hc]
    decide
  exact .first hslash (.first hslash (.many fun c hc => by simpa using hc))

/-! ### Lexemes that see their end -/

theorem throughDelimiter_closed (hq : q ≠ '\\')
    (h : throughDelimiter q multiline cs = some (run, rest)) (rest' : List Char) :
    throughDelimiter q multiline (run ++ rest') = some (run, rest') := by
  fun_induction throughDelimiter q multiline cs generalizing run with
  | case1 => cases h
  | case2 => cases h
  | case3 c cs hc ih =>
    obtain ⟨⟨run', rest''⟩, hrun, heq⟩ := Option.map_eq_some_iff.1 h
    cases heq
    rw [cons_append, cons_append, throughDelimiter, if_neg hc, ih hrun]
    rfl
  | case4 cs =>
    cases h
    rw [singleton_append, throughDelimiter.eq_3, if_pos rfl]
    exact fun c cs hc => absurd hc hq
  | case5 => cases h
  | case6 c cs hne hq hc ih =>
    obtain ⟨⟨run', rest''⟩, hrun, heq⟩ := Option.map_eq_some_iff.1 h
    cases heq
    rw [cons_append, throughDelimiter.eq_3, if_neg hq, if_neg hc, ih hrun]
    · rfl
    · simp at hc
      exact fun c' cs' hc' => absurd hc' hc.1

theorem throughDelimiter_append (h : throughDelimiter q multiline cs = some (run, rest)) : run ++ rest = cs := by
  fun_induction throughDelimiter q multiline cs generalizing run with
  | case1 => cases h
  | case2 => cases h
  | case3 c cs _ ih =>
    obtain ⟨⟨run', rest'⟩, hrun, heq⟩ := Option.map_eq_some_iff.1 h
    cases heq
    simp [ih hrun]
  | case4 cs =>
    cases h
    rfl
  | case5 => cases h
  | case6 c cs _ _ _ ih =>
    obtain ⟨⟨run', rest'⟩, hrun, heq⟩ := Option.map_eq_some_iff.1 h
    cases heq
    simp [ih hrun]

theorem eq_none_of_closed {f : List Char → Option Cut}
    (happend : ∀ {cs run rest}, f cs = some (run, rest) → run ++ rest = cs)
    (hclosed : ∀ {cs run rest}, f cs = some (run, rest) → ∀ rest', f (run ++ rest') = some (run, rest'))
    {ds : List Char} (h : f run = some (run, [])) (hrun : cs ++ ds = run) (hds : ds ≠ []) :
    f cs = none := by
  by_contra hsome
  obtain ⟨⟨run', rest⟩, hcs⟩ := Option.ne_none_iff_exists'.1 hsome
  have hall := hclosed hcs (rest ++ ds)
  rw [← append_assoc, happend hcs, hrun, h, Option.some.injEq, Prod.mk.injEq] at hall
  exact hds (append_eq_nil_iff.1 hall.2.symm).2

theorem quoted?_eq (q : Char) (multiline : Bool) :
    quoted? q multiline = first (· == q) (throughDelimiter q multiline) := by
  funext cs
  cases cs <;> simp [quoted?, first]

theorem quoted?_scans (hq : q ≠ '\\') (multiline : Bool) : Scans (fun _ => True) (quoted? q multiline) := by
  rw [quoted?_eq]
  exact .first (fun _ _ => trivial)
    (.of_closed throughDelimiter_append (fun _ _ _ => trivial) (throughDelimiter_closed hq))

theorem throughCommentEnd_append (h : throughCommentEnd cs = some (run, rest)) : run ++ rest = cs ∧ run ≠ [] := by
  fun_induction throughCommentEnd cs generalizing run with
  | case1 => cases h
  | case2 rest =>
    cases h
    exact ⟨rfl, cons_ne_nil _ _⟩
  | case3 c cs _ ih =>
    obtain ⟨⟨run', rest'⟩, hrun, heq⟩ := Option.map_eq_some_iff.1 h
    cases heq
    exact ⟨congrArg (c :: ·) (ih hrun).1, cons_ne_nil _ _⟩

theorem throughCommentEnd_closed (h : throughCommentEnd cs = some (run, rest)) (rest' : List Char) :
    throughCommentEnd (run ++ rest') = some (run, rest') := by
  fun_induction throughCommentEnd cs generalizing run with
  | case1 => cases h
  | case2 rest =>
    cases h
    rfl
  | case3 c cs hne ih =>
    obtain ⟨⟨run', rest''⟩, hrun, heq⟩ := Option.map_eq_some_iff.1 h
    cases heq
    obtain ⟨rfl, hnil⟩ := throughCommentEnd_append hrun
    rw [cons_append, throughCommentEnd.eq_3, ih hrun]
    · rfl
    · -- an end right here would have been found before
      intro cs' hc hcs
      obtain ⟨d, run', rfl⟩ := exists_cons_of_ne_nil hnil
      cases hcs
      exact hne _ hc rfl

theorem blockComment?_eq : blockComment? = first (· == '/') (first (· == '*') throughCommentEnd) := by
  funext cs
  unfold blockComment?
  split
  · next cs =>
    rw [first_cons_of_pos (by rfl), first_cons_of_pos (by rfl)]
    cases throughCommentEnd cs <;> rfl
  · next hne =>
    refine (first_first_eq_none fun c d cs' hc hd hcs => hne cs' ?_).symm
    rw [hcs, eq_of_beq hc, eq_of_beq hd]

theorem blockComment?_scans : Scans (fun _ => True) blockComment? := by
  rw [blockComment?_eq]
  exact .first (fun _ _ => trivial) (.first (fun _ _ => trivial)
    (.of_closed (fun h => (throughCommentEnd_append h).1) (fun _ _ _ => trivial) throughCommentEnd_closed))

theorem word?_eq_some_iff {w} : word? w cs = some (run, rest) ↔ run = w ∧ cs = w ++ rest := by
  fun_induction word? w cs generalizing run with
  | case1 cs => simp [eq_comm]
  | case2 => simp
  | case3 ws c cs ih =>
    rw [Option.map_eq_some_iff]
    constructor
    · rintro ⟨⟨run', rest'⟩, hrun, heq⟩
      cases heq
      obtain ⟨rfl, rfl⟩ := ih.1 hrun
      exact ⟨rfl, rfl⟩
    · rintro ⟨rfl, hcs⟩
      exact ⟨(ws, rest), ih.2 ⟨rfl, tail_eq_of_cons_eq hcs⟩, rfl⟩
  | case4 ws w c cs hne =>
    constructor
    · simp
    · rintro ⟨-, hcs⟩
      exact absurd (head_eq_of_cons_eq hcs).symm hne

theorem word?_scans (w : List Char) : Scans (· ∈ w) (word? w) := by
  refine .of_closed ?_ ?_ ?_
  · intro cs run rest h
    obtain ⟨rfl, rfl⟩ := word?_eq_some_iff.1 h
    rfl
  · intro cs run rest h
    obtain ⟨rfl, rfl⟩ := word?_eq_some_iff.1 h
    exact fun _ hc => hc
  · intro cs run rest h rest'
    obtain ⟨rfl, rfl⟩ := word?_eq_some_iff.1 h
    exact word?_eq_some_iff.2 ⟨rfl, rfl⟩

end Lexeme

/-! ### The forms of lexemes -/

namespace Token

open Lexeme

variable {l : Language} {kind : Kind}

/-- A form of lexeme: what it is, given its characters, and how it is found. -/
structure Form where
  kind : List Char → Kind
  scan : List Char → Option Cut

def Form.take? (f : Form) (cs : List Char) : Option (Kind × Cut) :=
  (f.scan cs).map fun cut => (f.kind cut.1, cut)

def passedForms : List Form := [⟨fun _ => .skipped, blockComment?⟩, ⟨fun _ => .skipped, space?⟩,
  ⟨fun _ => .skipped, lineComment?⟩]

def markForm (t : Terminal) : Form := ⟨fun _ => .token t, word? t.spelling.toList⟩

def forms : Language → List Form
  | .java =>
    [⟨fun _ => .token .number, number? .java⟩,
      ⟨fun run => .token (wordTerminal .java run), name?⟩,
      ⟨fun _ => .token .character, quoted? '\'' false⟩,
      ⟨fun _ => .token .string, quoted? '"' false⟩] ++ passedForms ++ Language.java.marks.map markForm
  | .typescript =>
    [⟨fun _ => .token .number, number? .typescript⟩,
      ⟨fun _ => .token .string, quoted? '"' false⟩,
      ⟨fun _ => .token .string, quoted? '\'' false⟩,
      ⟨fun run => .token (wordTerminal .typescript run), name?⟩,
      ⟨fun _ => .token .template, quoted? '`' true⟩] ++ passedForms ++ Language.typescript.marks.map markForm

theorem findSome?_cons_eq_or {α β} (f : α → Option β) (a : α) (as : List α) :
    (a :: as).findSome? f = (f a).or (as.findSome? f) := by
  rw [findSome?_cons]
  cases f a <;> rfl

theorem next?_eq (l : Language) (cs : List Char) : next? l cs = (forms l).findSome? (·.take? cs) := by
  have hmarks : (l.marks.map markForm).findSome? (·.take? cs) =
      (mark? l cs).map fun r => (Kind.token r.1, r.2) := by
    rw [mark?, map_findSome?, findSome?_map]
    congr 1
    funext t
    simp [Form.take?, markForm, Function.comp_def]
  cases l with
  | java =>
    rw [forms, findSome?_append, hmarks]
    simp [passedForms, findSome?_cons_eq_or, next?, Option.or_assoc, Form.take?, passedOver?, literal?,
      nameOrKeyword?, Option.map_or]
  | typescript =>
    rw [forms, findSome?_append, hmarks]
    simp [passedForms, findSome?_cons_eq_or, next?, Option.or_assoc, Form.take?, passedOver?, literal?,
      nameOrKeyword?, Option.map_or]

/-- Whether the tokens of a terminal are literals between delimiters. -/
def isQuoted : Terminal → Bool
  | .string | .character | .template => true
  | _ => false

inductive Form.Known (l : Language) : Form → Prop where
  /-- a number, or a name or keyword -/
  | plain {f : Form} : Scans IsInk f.scan → (∀ run, ∃ t, f.kind run = .token t ∧ isQuoted t = false) →
    Known l f
  | quoted {q : Char} {t : Terminal} : q = '"' ∨ q = '\'' → t = .string ∨ t = .character →
    Known l ⟨fun _ => .token t, quoted? q false⟩
  | template : l = .typescript → Known l ⟨fun _ => .token .template, quoted? '`' true⟩
  | blockComment : Known l ⟨fun _ => .skipped, blockComment?⟩
  | space : Known l ⟨fun _ => .skipped, space?⟩
  | lineComment : Known l ⟨fun _ => .skipped, lineComment?⟩
  | mark {t : Terminal} : t ∈ l.marks → Known l (markForm t)

theorem isQuoted_wordTerminal (l : Language) (text : List Char) : isQuoted (wordTerminal l text) = false := by
  have hkeywords : ∀ t ∈ l.keywords, isQuoted t = false := by cases l <;> decide
  unfold wordTerminal
  cases hfind : l.keywords.find? fun t => t.spelling.toList == text with
  | none => decide
  | some t => exact hkeywords t (mem_of_find?_eq_some hfind)

theorem forms_known (l : Language) : ∀ f ∈ forms l, f.Known l := by
  have hpassed : ∀ f ∈ passedForms, f.Known l := by
    simp only [passedForms, forall_mem_cons, not_mem_nil]
    exact ⟨.blockComment, .space, .lineComment, fun _ h => h.elim⟩
  have hmarks : ∀ f ∈ l.marks.map markForm, f.Known l := by
    simp only [forall_mem_map]
    exact fun t => .mark
  have hnumber : Form.Known l ⟨fun _ => .token .number, number? l⟩ :=
    .plain (number?_scans l) fun run => ⟨_, rfl, by decide⟩
  have hname : Form.Known l ⟨fun run => .token (wordTerminal l run), name?⟩ :=
    .plain name?_scans fun run => ⟨_, rfl, isQuoted_wordTerminal l run⟩
  cases l with
  | java =>
    simp only [forms, forall_mem_append, forall_mem_cons, not_mem_nil]
    exact ⟨⟨⟨hnumber, hname, .quoted (.inr rfl) (.inr rfl), .quoted (.inl rfl) (.inl rfl),
      fun _ h => h.elim⟩, hpassed⟩, hmarks⟩
  | typescript =>
    simp only [forms, forall_mem_append, forall_mem_cons, not_mem_nil]
    exact ⟨⟨⟨hnumber, .quoted (.inl rfl) (.inl rfl), .quoted (.inr rfl) (.inl rfl), hname,
      .template rfl, fun _ h => h.elim⟩, hpassed⟩, hmarks⟩

theorem Form.Known.scans {f : Form} (h : f.Known l) : Scans (fun _ => True) f.scan := by
  cases h with
  | plain hscans _ => exact hscans.mono fun _ _ => trivial
  | quoted hq _ => exact quoted?_scans (by rcases hq with rfl | rfl <;> decide) false
  | template _ => exact quoted?_scans (by decide) true
  | blockComment => exact blockComment?_scans
  | space => exact space?_scans.mono fun _ _ => trivial
  | lineComment => exact lineComment?_scans.mono fun _ _ => trivial
  | mark _ => exact (word?_scans _).mono fun _ _ => trivial

theorem exists_form {cs run rest} (h : next? l cs = some (kind, run, rest)) :
    ∃ before f after, forms l = before ++ f :: after ∧ (∀ g ∈ before, g.scan cs = none) ∧
      f.scan cs = some (run, rest) ∧ kind = f.kind run := by
  rw [next?_eq, findSome?_eq_some_iff] at h
  obtain ⟨before, f, after, hforms, hf, hbefore⟩ := h
  obtain ⟨cut, hcut, heq⟩ := map_eq_some_iff.1 hf
  cases heq
  exact ⟨before, f, after, hforms, fun g hg => map_eq_none_iff.1 (hbefore g hg), hcut, rfl⟩

theorem next?_of_isPrefix {run rest rest' : List Char}
    (h : next? l (run ++ rest) = some (kind, run, rest)) (hrest : rest' <+: rest) :
    next? l (run ++ rest') = some (kind, run, rest') := by
  obtain ⟨before, f, after, hforms, hbefore, hf, rfl⟩ := exists_form h
  have hscans : ∀ g ∈ before ++ f :: after, Scans (fun _ => True) g.scan :=
    hforms ▸ fun g hg => (forms_known l g hg).scans
  obtain ⟨ds, rfl⟩ := hrest
  rw [next?_eq, hforms, findSome?_eq_some_iff]
  refine ⟨before, f, after, rfl, ?_, fun g hg => ?_⟩
  · rw [Form.take?, (hscans f (by simp)).keeps hf ⟨ds, rfl⟩]
    rfl
  · have hnone := hbefore g hg
    rw [← append_assoc] at hnone
    rw [Form.take?, (hscans g (by simp [hg])).fails hnone]
    rfl

end Token

end Blackboard
