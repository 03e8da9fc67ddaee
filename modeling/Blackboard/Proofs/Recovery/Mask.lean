import Mathlib.Data.List.Forall2
import Blackboard.Scan.Region
import Blackboard.Proofs.Parsing.Lexing

/-!
The mask of a text, lexeme by lexeme. Where nothing is stray and no comment is left open, each lexeme
is masked by itself: words and marks stay, of a literal the quotes stay, and comments become blank.
-/
namespace Blackboard.Scan

open Token Lexeme List

variable {l : Language} {c q : Char} {cs run rest inner : List Char} {t : Terminal} {kind : Kind}

namespace Region

variable {closed : Bool} {cs inner rest : List Char}

theorem quotedBody_append {q oneLine} (h : quotedBody q oneLine cs = (inner, closed, rest)) :
    inner ++ (if closed then q :: rest else rest) = cs := by
  fun_induction quotedBody q oneLine cs generalizing inner with
  | case1 =>
    cases h
    rfl
  | case2 c cs inner closed rest heq ih =>
    cases h
    rw [← ih heq]
    rfl
  | case3 =>
    cases h
    rfl
  | case4 c cs _ _ hc =>
    cases h
    rw [eq_of_beq hc]
    rfl
  | case5 c cs _ _ _ inner closed rest heq ih =>
    cases h
    rw [← ih heq]
    rfl

theorem commentBody_append (h : commentBody cs = (inner, closed, rest)) : inner ++ rest = cs := by
  fun_induction commentBody cs generalizing inner with
  | case1 =>
    cases h
    rfl
  | case2 cs =>
    cases h
    rfl
  | case3 c cs _ inner closed rest heq ih =>
    cases h
    rw [← ih heq]
    rfl

theorem exists_text_next (l : Language) (c : Char) (cs : List Char) :
    ∃ inner, (next l c cs).1.text = c :: inner ∧ inner ++ (next l c cs).2 = cs := by
  unfold next
  split
  · next rest =>
    rw [span_eq_takeWhile_dropWhile]
    exact ⟨_, rfl, congrArg (cons '/') takeWhile_append_dropWhile⟩
  · next rest =>
    rcases hbody : commentBody rest with ⟨inner, closed, rest'⟩
    exact ⟨_, rfl, congrArg (cons '*') (commentBody_append hbody)⟩
  · split
    · rcases hbody : quotedBody c (c != '`') cs with ⟨inner, closed, rest'⟩
      have happend := quotedBody_append hbody
      cases closed with
      | false => exact ⟨inner, rfl, happend⟩
      | true => exact ⟨inner ++ [c], rfl, by simpa using happend⟩
    · exact ⟨[], rfl, rfl⟩

theorem length_next_le (l : Language) (c : Char) (cs : List Char) : (next l c cs).2.length ≤ cs.length := by
  obtain ⟨inner, -, happend⟩ := exists_text_next l c cs
  have hlength := congrArg length happend
  rw [length_append] at hlength
  omega

theorem split_eq_of_le (l : Language) {n m} (hn : cs.length ≤ n) (hm : cs.length ≤ m) :
    split l n cs = split l m cs := by
  induction n generalizing m cs with
  | zero =>
    obtain rfl := length_eq_zero_iff.1 (Nat.le_zero.1 hn)
    cases m <;> rfl
  | succ n ih =>
    cases cs with
    | nil => cases m <;> rfl
    | cons c cs =>
      cases m with
      | zero => cases hm
      | succ m =>
        have hle := length_next_le l c cs
        exact congrArg ((next l c cs).1 :: ·) (ih (hle.trans (Nat.le_of_succ_le_succ hn))
          (hle.trans (Nat.le_of_succ_le_succ hm)))

end Region

theorem regions_cons (l : Language) (c : Char) (cs : List Char) :
    regions l (c :: cs) = (Region.next l c cs).1 :: regions l (Region.next l c cs).2 := by
  unfold regions
  exact congrArg (_ :: ·) (Region.split_eq_of_le l (Region.length_next_le l c cs) (Nat.le_refl _))

theorem mask_cons (l : Language) (c : Char) (cs : List Char) :
    mask l (c :: cs) = (Region.next l c cs).1.mask ++ mask l (Region.next l c cs).2 := by
  unfold mask
  rw [regions_cons, flatMap_cons]

theorem regions_induction {P : List Char → Prop} (nil : P [])
    (cons : ∀ c cs, P (Region.next l c cs).2 → P (c :: cs)) (cs : List Char) : P cs := by
  induction hn : cs.length using Nat.strong_induction_on generalizing cs with
  | _ n ih =>
    cases cs with
    | nil => exact nil
    | cons c cs =>
      have hle := Region.length_next_le l c cs
      rw [length_cons] at hn
      exact cons c cs (ih _ (by omega) _ rfl)

/-! ### Blanks for characters -/

theorem eq_of_mem_blank {c} (h : c ∈ blank cs) : c = '\n' ∨ c = ' ' := by
  obtain ⟨d, -, rfl⟩ := mem_map.1 h
  split
  · next hd => exact .inl hd
  · exact .inr rfl

/-- The second text is the first one with blanks for some characters, but not for line feeds. -/
def Veiled (cs ds : List Char) : Prop := List.Forall₂ (fun c d => d = c ∨ (c ≠ '\n' ∧ d = ' ')) cs ds

namespace Veiled

variable {cs ds : List Char}

theorem refl (cs : List Char) : Veiled cs cs := forall₂_same.2 fun _ _ => .inl rfl

theorem trans {es} (h : Veiled cs ds) (h' : Veiled ds es) : Veiled cs es := by
  induction h generalizing es with
  | nil => exact h'
  | cons hcd _ ih =>
    cases h' with
    | cons hde h' =>
      refine .cons ?_ (ih h')
      rcases hcd with rfl | ⟨hc, rfl⟩
      · exact hde
      · exact .inr ⟨hc, hde.elim id And.right⟩

theorem blank (cs : List Char) : Veiled cs (Scan.blank cs) := by
  refine forall₂_map_right_iff.2 (forall₂_same.2 fun c _ => ?_)
  by_cases hc : c = '\n'
  · exact .inl (if_pos hc)
  · exact .inr ⟨hc, if_neg hc⟩

theorem append {cs' ds'} (h : Veiled cs ds) (h' : Veiled cs' ds') : Veiled (cs ++ cs') (ds ++ ds') :=
  rel_append h h'

theorem length_eq (h : Veiled cs ds) : ds.length = cs.length := (Forall₂.length_eq h).symm

theorem count_eq (h : Veiled cs ds) : ds.count '\n' = cs.count '\n' := by
  induction h with
  | nil => rfl
  | cons hcd _ ih => rcases hcd with rfl | ⟨hc, rfl⟩ <;> simp [count_cons, *]

theorem afterAll_eq (h : Veiled cs ds) (p : Source.Position) : p.afterAll ds = p.afterAll cs := by
  induction h generalizing p with
  | nil => rfl
  | cons hcd _ ih =>
    rw [Source.Position.afterAll_cons, ih]
    rcases hcd with rfl | ⟨hc, rfl⟩
    · rfl
    · simp [Source.Position.after, hc]

theorem getElem? (h : Veiled cs ds) (i : Nat) : (ds[i]? = some '\n' ↔ cs[i]? = some '\n') ∧
    ∀ c d, cs[i]? = some c → ds[i]? = some d → d = c ∨ d = ' ' := by
  induction h generalizing i with
  | nil => simp
  | cons hcd _ ih =>
    cases i with
    | succ i => simpa using ih i
    | zero =>
      rcases hcd with rfl | ⟨hc, rfl⟩
      · simp
      · simp [hc]

/-- What is blanked region by region is veiled. -/
theorem flatMap {f : Region → List Char} (hf : ∀ r, Veiled r.text (f r)) (l : Language) (cs : List Char) :
    Veiled cs ((regions l cs).flatMap f) := by
  induction cs using regions_induction (l := l) with
  | nil => exact .nil
  | cons c cs ih =>
    obtain ⟨inner, htext, happend⟩ := Region.exists_text_next l c cs
    have hfirst := (hf (Region.next l c cs).1).append ih
    rwa [htext, cons_append, happend, ← flatMap_cons, ← regions_cons] at hfirst

end Veiled

theorem Region.veiled_mask (r : Region) : Veiled r.text r.mask := by
  cases r with
  | code c => exact .refl [c]
  | lineComment cs => exact .blank cs
  | blockComment cs closed => exact .blank cs
  | quoted q cs closed =>
    cases closed with
    | false => exact .blank (q :: cs)
    | true => exact .cons (.inl rfl) ((Veiled.blank cs).append (.refl [q]))

theorem veiled_mask (l : Language) (cs : List Char) : Veiled cs (mask l cs) := .flatMap Region.veiled_mask l cs

theorem length_mask (l : Language) (cs : List Char) : (mask l cs).length = cs.length := (veiled_mask l cs).length_eq

theorem regions_cons_of_code (hquote : Region.isQuote l c = false)
    (hslash : c = '/' → ∀ d, cs.head? = some d → d ≠ '/' ∧ d ≠ '*') :
    regions l (c :: cs) = .code c :: regions l cs := by
  have hnext : Region.next l c cs = (.code c, cs) := by
    unfold Region.next
    split
    · next rest => exact absurd rfl (hslash rfl '/' rfl).1
    · next rest => exact absurd rfl (hslash rfl '*' rfl).2
    · rw [if_neg (by simp [hquote])]
  rw [regions_cons, hnext]

theorem regions_append_of_code (h : ∀ c ∈ run, Region.isQuote l c = false ∧ c ≠ '/')
    (rest : List Char) : regions l (run ++ rest) = run.map .code ++ regions l rest := by
  induction run with
  | nil => rfl
  | cons c run ih =>
    obtain ⟨hc, hrun⟩ := forall_mem_cons.1 h
    rw [cons_append, regions_cons_of_code hc.1 fun heq => absurd heq hc.2, ih hrun]
    rfl

theorem flatMap_code {g} (hg : ∀ c, g (.code c) = [c]) (cs : List Char) : (cs.map Region.code).flatMap g = cs := by
  induction cs with
  | nil => rfl
  | cons c cs ih => rw [map_cons, flatMap_cons, hg, ih, singleton_append]

theorem mask_append_of_code (h : ∀ c ∈ run, Region.isQuote l c = false ∧ c ≠ '/') (rest : List Char) :
    mask l (run ++ rest) = run ++ mask l rest := by
  rw [mask, regions_append_of_code h, flatMap_append, flatMap_code fun _ => rfl, mask]

/-! ### Literals and comments -/

theorem Region.quotedBody_eq (hq : q ≠ '\n') {multiline} (h : throughDelimiter q multiline cs = some (run, rest)) :
    ∃ inner, run = inner ++ [q] ∧ quotedBody q (!multiline) cs = (inner, true, rest) ∧
      (multiline = false → '\n' ∉ inner) := by
  fun_induction throughDelimiter q multiline cs generalizing run with
  | case1 => cases h
  | case2 => cases h
  | case3 c cs hc ih =>
    obtain ⟨⟨run', rest'⟩, hrun, heq⟩ := Option.map_eq_some_iff.1 h
    cases heq
    obtain ⟨inner, rfl, hbody, hline⟩ := ih hrun
    refine ⟨'\\' :: c :: inner, rfl, ?_, ?_⟩
    · rw [quotedBody, hbody]
    · intro hmultiline
      have hc : c ≠ '\n' := by simpa [hmultiline] using hc
      simp [hline hmultiline, hc.symm]
  | case4 cs hne =>
    cases h
    refine ⟨[], rfl, ?_, by simp⟩
    rw [quotedBody.eq_3 _ _ _ _ hne]
    simp [hq]
  | case5 => cases h
  | case6 c cs hne hq' hc ih =>
    obtain ⟨⟨run', rest'⟩, hrun, heq⟩ := Option.map_eq_some_iff.1 h
    cases heq
    obtain ⟨inner, rfl, hbody, hline⟩ := ih hrun
    simp only [Bool.or_eq_true, decide_eq_true_eq, Bool.and_eq_true, Bool.not_eq_true', not_or, not_and'] at hc
    refine ⟨c :: inner, rfl, ?_, ?_⟩
    · rw [quotedBody.eq_3 _ _ _ _ hne, hbody, if_neg (by simpa using hc.2), if_neg (by simpa using hq')]
    · intro hmultiline
      simp [hline hmultiline, Ne.symm (hc.2 hmultiline)]

theorem Region.commentBody_eq (h : throughCommentEnd cs = some (run, rest)) : commentBody cs = (run, true, rest) := by
  fun_induction throughCommentEnd cs generalizing run with
  | case1 => cases h
  | case2 rest =>
    cases h
    rfl
  | case3 c cs hne ih =>
    obtain ⟨⟨run', rest'⟩, hrun, heq⟩ := Option.map_eq_some_iff.1 h
    cases heq
    rw [commentBody.eq_3, ih hrun]
    exact hne

theorem regions_quoted (hquote : Region.isQuote l q = true)
    (h : Region.quotedBody q (q != '`') cs = (inner, true, rest)) :
    regions l (q :: cs) = .quoted q inner true :: regions l rest := by
  have hq : q ≠ '/' := by
    rintro rfl
    cases l <;> cases hquote
  have hnext : Region.next l q cs = (.quoted q inner true, rest) := by
    rw [Region.next.eq_3 _ _ _ (fun _ hc => absurd hc hq) (fun _ hc => absurd hc hq), if_pos hquote, h]
  rw [regions_cons, hnext]

theorem regions_blockComment (h : throughCommentEnd cs = some (run, rest)) :
    regions l ('/' :: '*' :: cs) = .blockComment ('/' :: '*' :: run) true :: regions l rest := by
  have hnext : Region.next l '/' ('*' :: cs) = (.blockComment ('/' :: '*' :: run) true, rest) := by
    rw [Region.next, Region.commentBody_eq h]
  rw [regions_cons, hnext]

theorem regions_lineComment (l : Language) (cs : List Char) :
    regions l ('/' :: '/' :: cs) = .lineComment ('/' :: '/' :: (cs.span (· != '\n')).1) ::
      regions l (cs.span (· != '\n')).2 := by
  rw [regions_cons]
  rfl

/-! ### Every lexeme -/

inductive Covered (l : Language) : Kind → (run : List Char) → List Region → Prop where
  /-- a number, or a name or keyword -/
  | ink {t : Terminal} {run : List Char} : isQuoted t = false → run ≠ [] → (∀ c ∈ run, IsInk c) →
    Covered l (.token t) run (run.map .code)
  | mark {t : Terminal} : t ∈ l.marks →
    Covered l (.token t) t.spelling.toList (t.spelling.toList.map .code)
  | quoted {t : Terminal} {q : Char} {inner : List Char} : isQuoted t = true → q = '"' ∨ q = '\'' → '\n' ∉ inner →
    Covered l (.token t) (q :: (inner ++ [q])) [.quoted q inner true]
  | template {inner : List Char} : l = .typescript →
    throughDelimiter '`' true (inner ++ ['`']) = some (inner ++ ['`'], []) →
    Covered l (.token .template) ('`' :: (inner ++ ['`'])) [.quoted '`' inner true]
  | space {run : List Char} : (∀ c ∈ run, isSpace c = true) → Covered l .skipped run (run.map .code)
  | lineComment {run : List Char} : run.head? = some '/' → '\n' ∉ run → Covered l .skipped run [.lineComment run]
  | blockComment {body : List Char} : throughCommentEnd body = some (body, []) →
    Covered l .skipped ('/' :: '*' :: body) [.blockComment ('/' :: '*' :: body) true]

theorem next?_slashes (l : Language) (cs : List Char) : next? l ('/' :: '/' :: cs) =
    some (.skipped, '/' :: '/' :: (cs.span (· != '\n')).1, (cs.span (· != '\n')).2) := by
  cases l <;> rfl

theorem regions_mark (ht : t ∈ l.marks)
    (hslash : t.spelling.toList = ['/'] → ∀ d, rest.head? = some d → d ≠ '/' ∧ d ≠ '*') :
    regions l (t.spelling.toList ++ rest) = t.spelling.toList.map .code ++ regions l rest := by
  have hmarks : ∀ t ∈ l.marks, t.spelling.toList = ['/'] ∨ t.spelling.toList = ['/', '='] ∨
      t.spelling.toList.all (fun c => Region.isQuote l c = false ∧ c ≠ '/') = true := by
    cases l <;> decide
  have hquote : Region.isQuote l '/' = false ∧ Region.isQuote l '=' = false := by
    cases l <;> decide
  rcases hmarks t ht with heq | heq | hcode
  · rw [heq] at hslash ⊢
    exact regions_cons_of_code hquote.1 fun _ => hslash rfl
  · rw [heq]
    refine (regions_cons_of_code hquote.1 fun _ d hd => ?_).trans (congrArg (.code '/' :: ·)
      (regions_cons_of_code hquote.2 fun heq => nomatch heq))
    cases hd
    decide
  · refine regions_append_of_code (fun c hc => ?_) rest
    exact of_decide_eq_true (all_eq_true.1 hcode c hc)

theorem isCode_of_isInk (h : IsInk c) : Region.isQuote l c = false ∧ c ≠ '/' := by
  constructor
  · by_contra hquote
    simp only [Region.isQuote, Bool.not_eq_false, Bool.or_eq_true, Bool.and_eq_true, beq_iff_eq] at hquote
    obtain ⟨rfl | rfl⟩ | ⟨rfl, -⟩ := hquote <;> exact h.2 (by decide)
  · rintro rfl
    exact h.2 (by decide)

theorem isCode_of_isSpace (h : isSpace c = true) : Region.isQuote l c = false ∧ c ≠ '/' := by
  simp only [isSpace, Bool.or_eq_true, beq_iff_eq] at h
  obtain (((rfl | rfl) | rfl) | rfl) | rfl := h <;> cases l <;> decide

theorem regions_of_quoted? (ht : isQuoted t = true) (hq : q = '"' ∨ q = '\'') (h : quoted? q false cs = some (run, rest)) :
    ∃ rs, Covered l (.token t) run rs ∧ regions l cs = rs ++ regions l rest := by
  rw [quoted?_eq] at h
  obtain ⟨c, cs', run', hc, rfl, rfl, hrun⟩ := first_eq_some_iff.1 h
  obtain rfl := eq_of_beq hc
  have hquote : Region.isQuote l c = true ∧ (c != '`') = true ∧ c ≠ '\n' := by
    rcases hq with rfl | rfl <;> simp [Region.isQuote]
  obtain ⟨inner, rfl, hbody, hline⟩ := Region.quotedBody_eq hquote.2.2 hrun
  refine ⟨_, .quoted ht hq (hline rfl), regions_quoted hquote.1 ?_⟩
  rw [hquote.2.1]
  exact hbody

theorem regions_of_next? (h : next? l cs = some (kind, run, rest)) (hslash : run = ['/'] → rest.head? ≠ some '*') :
    ∃ rs, Covered l kind run rs ∧ regions l cs = rs ++ regions l rest := by
  obtain ⟨hne, rfl⟩ := next?_append h
  obtain ⟨before, f, after, hforms, -, hf, rfl⟩ := exists_form h
  cases forms_known l f (by simp [hforms]) with
  | plain hscans hkind =>
    obtain ⟨t, ht, hplain⟩ := hkind run
    have hink : ∀ c ∈ run, IsInk c := hscans.all hf
    rw [ht]
    exact ⟨_, .ink hplain hne hink, regions_append_of_code (fun c hc => isCode_of_isInk (hink c hc)) rest⟩
  | quoted hq ht => exact regions_of_quoted? (by obtain rfl | rfl := ht <;> rfl) hq hf
  | template hl =>
    rw [quoted?_eq] at hf
    obtain ⟨c, cs', run', hc, hcs, rfl, hrun⟩ := first_eq_some_iff.1 hf
    obtain rfl := eq_of_beq hc
    obtain ⟨inner, rfl, hbody, -⟩ := Region.quotedBody_eq (by decide) hrun
    refine ⟨_, .template hl ?_, ?_⟩
    · simpa using throughDelimiter_closed (by decide) hrun []
    · rw [hcs]
      exact regions_quoted (by simp [Region.isQuote, hl]) hbody
  | blockComment =>
    rw [blockComment?_eq] at hf
    obtain ⟨c, cs', run', hc, hcs, rfl, hrun⟩ := first_eq_some_iff.1 hf
    obtain ⟨d, cs'', body, hd, rfl, rfl, hbody⟩ := first_eq_some_iff.1 hrun
    obtain rfl := eq_of_beq hc
    obtain rfl := eq_of_beq hd
    refine ⟨_, .blockComment ?_, hcs ▸ regions_blockComment hbody⟩
    simpa using throughCommentEnd_closed hbody []
  | space =>
    have hspace : ∀ c ∈ run, isSpace c = true := space?_scans.all hf
    exact ⟨_, .space hspace, regions_append_of_code (fun c hc => isCode_of_isSpace (hspace c hc)) rest⟩
  | lineComment =>
    have hline : '\n' ∉ run := fun hmem => lineComment?_scans.all hf _ hmem rfl
    rw [lineComment?_eq] at hf
    obtain ⟨c, cs', run', hc, hcs, rfl, hrun⟩ := first_eq_some_iff.1 hf
    obtain ⟨d, cs'', body, hd, rfl, rfl, hbody⟩ := first_eq_some_iff.1 hrun
    obtain rfl := eq_of_beq hc
    obtain rfl := eq_of_beq hd
    refine ⟨_, .lineComment rfl hline, ?_⟩
    rw [many, Option.some.injEq] at hbody
    rw [hcs, regions_lineComment, hbody]
    rfl
  | @mark t ht =>
    obtain ⟨rfl, -⟩ := word?_eq_some_iff.1 hf
    refine ⟨_, .mark ht, regions_mark ht fun heq d hd => ⟨?_, ?_⟩⟩
    · -- two slashes are a comment and no mark
      rintro rfl
      obtain ⟨rest', rfl⟩ := head?_eq_some_iff.1 hd
      rw [heq, singleton_append, next?_slashes] at h
      cases h
    · rintro rfl
      exact hslash heq hd

/-- How a lexeme is masked, as far as it matters where statements end. -/
inductive Masked (l : Language) : Kind → (run masked : List Char) → Prop where
  /-- a token in which no statement ends -/
  | firm {t : Terminal} {run m : List Char} {c : Char} : (c :: m).length = run.length →
    Text.isBlank c = false → (∀ d ∈ c :: m, d ≠ '\n' ∧ d ≠ ';' ∧ d ≠ '\x7d') →
    Masked l (.token t) run (c :: m)
  | stop {t : Terminal} {c : Char} : c = ';' ∨ c = '\x7d' → Masked l (.token t) [c] [c]
  | template {inner : List Char} : l = .typescript →
    throughDelimiter '`' true (inner ++ ['`']) = some (inner ++ ['`'], []) →
    Masked l (.token .template) ('`' :: (inner ++ ['`'])) ('`' :: (blank inner ++ ['`']))
  | space {run : List Char} : (∀ c ∈ run, isSpace c = true) → Masked l .skipped run run
  | lineComment {run : List Char} : '\n' ∉ run → Masked l .skipped run (blank run)
  | blockComment {body : List Char} : throughCommentEnd body = some (body, []) →
    Masked l .skipped ('/' :: '*' :: body) (blank ('/' :: '*' :: body))

theorem masked_mark (ht : t ∈ l.marks) : Masked l (.token t) t.spelling.toList t.spelling.toList := by
  have hmarks : ∀ t ∈ l.marks, (t.spelling.toList = [';'] ∨ t.spelling.toList = ['\x7d']) ∨
      t.spelling.toList ≠ [] ∧ t.spelling.toList.all (fun c =>
        Text.isBlank c = false ∧ c ≠ '\n' ∧ c ≠ ';' ∧ c ≠ '\x7d') = true := by
    cases l <;> decide
  rcases hmarks t ht with (heq | heq) | ⟨hne, hall⟩
  · exact heq ▸ .stop (.inl rfl)
  · exact heq ▸ .stop (.inr rfl)
  · obtain ⟨c, m, heq⟩ := exists_cons_of_ne_nil hne
    rw [heq] at hall ⊢
    have hall := fun d hd => of_decide_eq_true (all_eq_true.1 hall d hd)
    exact .firm rfl (hall c (by simp)).1 fun d hd => (hall d hd).2

theorem masked_of_isInk (hne : run ≠ []) (h : ∀ c ∈ run, IsInk c) : Masked l (.token t) run run := by
  obtain ⟨c, m, rfl⟩ := exists_cons_of_ne_nil hne
  refine .firm rfl (h c (by simp)).1 fun d hd => ?_
  obtain ⟨hblank, hguard⟩ := h d hd
  refine ⟨?_, ?_, ?_⟩ <;> rintro rfl
  · cases hblank
  · exact hguard (by decide)
  · exact hguard (by decide)

theorem masked_quoted (hq : q = '"' ∨ q = '\'') (hline : '\n' ∉ inner) :
    Masked l (.token t) (q :: (inner ++ [q])) (q :: (blank inner ++ [q])) := by
  have hquoted : q ≠ '\n' ∧ q ≠ ';' ∧ q ≠ '\x7d' := by
    rcases hq with rfl | rfl <;> decide
  have hblank : ∀ d ∈ blank inner, d ≠ '\n' ∧ d ≠ ';' ∧ d ≠ '\x7d' := by
    intro d hd
    obtain ⟨e, he, rfl⟩ := mem_map.1 hd
    have hne : e ≠ '\n' := by
      rintro rfl
      exact hline he
    rw [if_neg hne]
    decide
  refine .firm (by simp) (by rcases hq with rfl | rfl <;> decide) ?_
  simp only [forall_mem_cons, forall_mem_append, not_mem_nil]
  exact ⟨hquoted, hblank, hquoted, fun _ hd => hd.elim⟩

theorem masked_of_next? (h : next? l cs = some (kind, run, rest)) (hslash : run = ['/'] → rest.head? ≠ some '*') :
    ∃ m, Masked l kind run m ∧ mask l cs = m ++ mask l rest := by
  obtain ⟨rs, hcovered, hregions⟩ := regions_of_next? h hslash
  refine ⟨rs.flatMap Region.mask, ?_, by rw [mask, hregions, flatMap_append, mask]⟩
  cases hcovered with
  | ink _ hne hink =>
    rw [flatMap_code fun _ => rfl]
    exact masked_of_isInk hne hink
  | mark ht =>
    rw [flatMap_code fun _ => rfl]
    exact masked_mark ht
  | quoted _ hq hline =>
    rw [flatMap_singleton]
    exact masked_quoted hq hline
  | template hl hclosed =>
    rw [flatMap_singleton]
    exact .template hl hclosed
  | space hspace =>
    rw [flatMap_code fun _ => rfl]
    exact .space hspace
  | lineComment _ hline =>
    rw [flatMap_singleton]
    exact .lineComment hline
  | blockComment hclosed =>
    rw [flatMap_singleton]
    exact .blockComment hclosed

end Blackboard.Scan
