import Blackboard.Proofs.Recovery.Segments

/-!
Comments replaced by blanks. The regions of such a text are those of the text itself, but for a blank in
the place of each character of a comment; so it has the same mask and the same faults.
-/
namespace Blackboard.Scan

open Source Token Lexeme List

variable {cs run : List Char} {rs : List Region}

namespace Region

def isComment : Region → Bool
  | lineComment _ | blockComment .. => true
  | _ => false

def isClosed : Region → Bool
  | blockComment _ closed | quoted _ _ closed => closed
  | _ => true

def uncommented (r : Region) : List Char := if r.isComment then blank r.text else r.text

def expanded (r : Region) : List Region := if r.isComment then (blank r.text).map code else [r]

theorem veiled_uncommented (r : Region) : Veiled r.text r.uncommented := by
  unfold uncommented
  split
  · exact .blank _
  · exact .refl _

end Region

/-- The text in which blanks stand for every character of a comment but line feeds. -/
def blankComments (l : Language) (cs : List Char) : List Char :=
  (regions l cs).flatMap Region.uncommented

theorem blankComments_cons (l : Language) (c : Char) (cs : List Char) : blankComments l (c :: cs) =
      (Region.next l c cs).1.uncommented ++ blankComments l (Region.next l c cs).2 := by
  unfold blankComments
  rw [regions_cons, flatMap_cons]

/-! ### Places -/

theorem afterAll_blank (p : Position) (cs : List Char) : p.afterAll (blank cs) = p.afterAll cs :=
  (Veiled.blank cs).afterAll_eq p

theorem veiled_blankComments (l : Language) (cs : List Char) : Veiled cs (blankComments l cs) :=
  .flatMap Region.veiled_uncommented l cs

theorem Region.next_cases (l : Language) (c : Char) (cs : List Char) : (c = '/' ∧ (next l c cs).1.isComment = true) ∨
    (∃ inner closed rest, next l c cs = (.quoted c inner closed, rest) ∧ isQuote l c = true ∧
      quotedBody c (c != '`') cs = (inner, closed, rest)) ∨
    (next l c cs = (.code c, cs) ∧ isQuote l c = false ∧ (c = '/' → ∀ d, cs.head? = some d → d ≠ '/' ∧ d ≠ '*')) := by
  unfold next
  split
  · exact .inl ⟨rfl, rfl⟩
  · exact .inl ⟨rfl, rfl⟩
  · next hline hblock =>
    split
    · next hquote => exact .inr (.inl ⟨_, _, _, rfl, hquote, rfl⟩)
    · next hquote =>
      refine .inr (.inr ⟨rfl, by simpa using hquote, fun hc d hd => ?_⟩)
      obtain ⟨rest, rfl⟩ := head?_eq_some_iff.1 hd
      constructor <;> rintro rfl
      · exact hline rest hc rfl
      · exact hblock rest hc rfl

theorem blankComments_eq_or (l : Language) (cs : List Char) : blankComments l cs = cs ∨
    ∃ a x y, cs = a ++ x ∧ blankComments l cs = a ++ ' ' :: y := by
  induction cs using regions_induction (l := l) with
  | nil => exact .inl rfl
  | cons c cs ih =>
    obtain ⟨inner, htext, happend⟩ := Region.exists_text_next l c cs
    rw [blankComments_cons]
    by_cases hcomment : (Region.next l c cs).1.isComment
    · have hc : c = '/' := by
        rcases Region.next_cases l c cs with h | ⟨_, _, _, h, -⟩ | ⟨h, -⟩
        · exact h.1
        · rw [h] at hcomment
          cases hcomment
        · rw [h] at hcomment
          cases hcomment
      subst hc
      refine .inr ⟨[], _, blank inner ++ blankComments l (Region.next l '/' cs).2, rfl, ?_⟩
      rw [Region.uncommented, if_pos hcomment, htext]
      rfl
    · have hself : (Region.next l c cs).1.uncommented = c :: inner := by
        rw [Region.uncommented, if_neg hcomment, htext]
      rw [hself]
      rcases ih with ih | ⟨a, x, y, hcs, hblank⟩
      · exact .inl (by rw [ih, cons_append, happend])
      · refine .inr ⟨c :: inner ++ a, x, y, ?_, by rw [hblank, append_assoc]⟩
        rw [← happend, hcs]
        simp

theorem head?_blankComments (l : Language) (cs : List Char) :
    (blankComments l cs).head? = cs.head? ∨ (blankComments l cs).head? = some ' ' := by
  rcases blankComments_eq_or l cs with h | ⟨a, x, y, rfl, h⟩
  · exact .inl (by rw [h])
  · rw [h]
    cases a with
    | nil => exact .inr rfl
    | cons c a => exact .inl rfl

/-! ### Regions -/

theorem Region.quotedBody_closed {q} (hq : q ≠ '\\') {oneLine inner rest} (h : quotedBody q oneLine cs = (inner, true, rest)) (rest' : List Char) :
    quotedBody q oneLine (inner ++ q :: rest') = (inner, true, rest') := by
  fun_induction quotedBody q oneLine cs generalizing inner with
  | case1 => cases h
  | case2 c cs inner closed rest heq ih =>
    cases h
    rw [cons_append, cons_append, quotedBody, ih heq]
  | case3 => cases h
  | case4 c cs hne hline hc =>
    cases h
    obtain rfl := eq_of_beq hc
    rw [nil_append, quotedBody.eq_3 _ _ _ _ fun _ _ hc' => absurd hc' hq, if_neg hline, if_pos hc]
  | case5 c cs hne hline hc inner closed rest heq ih =>
    cases h
    have hescape : c ≠ '\\' := by
      rintro rfl
      cases cs with
      | nil => cases heq
      | cons d cs => exact hne d cs rfl rfl
    rw [cons_append, quotedBody.eq_3 _ _ _ _ fun _ _ hc' => absurd hc' hescape, if_neg hline, if_neg hc, ih heq]

theorem blank_isCode (l : Language) (cs : List Char) : ∀ c ∈ blank cs, Region.isQuote l c = false ∧ c ≠ '/' := by
  intro c hc
  obtain rfl | rfl := eq_of_mem_blank hc <;> cases l <;> decide

theorem regions_blankComments {l} (h : ∀ r ∈ regions l cs, r.isClosed = true) :
    regions l (blankComments l cs) = (regions l cs).flatMap Region.expanded := by
  induction cs using regions_induction (l := l) with
  | nil => rfl
  | cons c cs ih =>
    rw [regions_cons, forall_mem_cons] at h
    obtain ⟨hclosed, hrest⟩ := h
    rw [blankComments_cons, regions_cons l c cs, flatMap_cons, ← ih hrest]
    rcases Region.next_cases l c cs with ⟨-, hcomment⟩ | ⟨inner, closed, rest, hnext, hquote, hbody⟩ |
      ⟨hnext, hquote, hslash⟩
    · rw [Region.uncommented, Region.expanded, if_pos hcomment, if_pos hcomment]
      exact regions_append_of_code (blank_isCode l _) _
    · rw [hnext] at hclosed ⊢
      obtain rfl : closed = true := hclosed
      have hc : c ≠ '\\' := by
        rintro rfl
        cases l <;> cases hquote
      have hquoted : (Region.quoted c inner true).uncommented ++ blankComments l rest =
          c :: (inner ++ c :: blankComments l rest) := congrArg (c :: ·) (append_assoc _ _ _)
      rw [hquoted]
      exact regions_quoted hquote (Region.quotedBody_closed hc hbody _)
    · rw [hnext]
      refine regions_cons_of_code hquote fun hc d hd => ?_
      rcases head?_blankComments l cs with hhead | hhead
      · exact hslash hc d (hhead ▸ hd)
      · cases hhead.symm.trans hd
        decide

theorem Region.flatMap_mask_expanded (r : Region) : r.expanded.flatMap mask = r.mask := by
  unfold expanded
  split
  · next h =>
    rw [flatMap_code fun _ => rfl]
    cases r <;> first | rfl | cases h
  · exact flatMap_singleton _ _

theorem mask_blankComments {l} (h : ∀ r ∈ regions l cs, r.isClosed = true) :
    mask l (blankComments l cs) = mask l cs := by
  rw [mask, regions_blankComments h, flatMap_assoc]
  exact congrArg (flatMap · _) (funext Region.flatMap_mask_expanded)

/-! ### Lexemes -/

variable {l : Language}

theorem Covered.uncommented_token {t} (h : Covered l (.token t) run rs) : rs.flatMap Region.uncommented = run := by
  cases h with
  | ink _ _ _ => exact flatMap_code (fun _ => rfl) _
  | mark _ => exact flatMap_code (fun _ => rfl) _
  | quoted _ _ _ => exact flatMap_singleton _ _
  | template _ _ => exact flatMap_singleton _ _

theorem isSpace_blank (cs : List Char) : ∀ c ∈ blank cs, isSpace c = true := by
  intro c hc
  obtain rfl | rfl := eq_of_mem_blank hc <;> rfl

theorem Covered.uncommented_skipped (h : Covered l .skipped run rs) :
    (∀ c ∈ rs.flatMap Region.uncommented, isSpace c = true) ∧
      ∀ p : Position, p.afterAll (rs.flatMap Region.uncommented) = p.afterAll run := by
  cases h with
  | space hspace =>
    rw [flatMap_code fun _ => rfl]
    exact ⟨hspace, fun _ => rfl⟩
  | lineComment _ _ =>
    rw [flatMap_singleton]
    exact ⟨isSpace_blank run, fun p => afterAll_blank p run⟩
  | @blockComment body _ =>
    rw [flatMap_singleton]
    exact ⟨isSpace_blank _, fun p => afterAll_blank p ('/' :: '*' :: body)⟩

/-! ### Faults -/

/-- A literal or a comment that does not end. -/
def isUnterminated : Cause → Bool
  | .unterminatedString | .unterminatedChar | .unterminatedTemplate | .unterminatedComment => true
  | _ => false

namespace Nesting

variable {r : Region}

theorem foldl_region_blank (l : Language) (n : Nesting) (cs : List Char) :
    ((blank cs).map Region.code).foldl (region l) n = { n with here := n.here.afterAll (blank cs) } := by
  induction cs generalizing n with
  | nil => rfl
  | cons c cs ih =>
    have hregion : n.region l (.code (if c = '\n' then c else ' ')) =
        { n with here := n.here.after (if c = '\n' then c else ' ') } := by
      by_cases hc : c = '\n'
      · rw [hc]
        rfl
      · rw [if_neg hc]
        rfl
    rw [blank, map_cons, map_cons, foldl_cons, hregion]
    exact ih _

theorem foldl_region_expanded (h : r.isClosed = true) (n : Nesting) :
    r.expanded.foldl (region l) n = n.region l r := by
  unfold Region.expanded
  split
  · next hcomment =>
    rw [foldl_region_blank, afterAll_blank]
    cases r with
    | lineComment cs => rfl
    | blockComment cs closed =>
      obtain rfl : closed = true := h
      rfl
    | code c => cases hcomment
    | quoted q cs closed => cases hcomment
  · rfl

theorem faults_suffix_bracket (n : Nesting) (c : Char) : n.faults <:+ (n.bracket c).faults := by
  unfold bracket
  split
  · exact suffix_refl _
  · split
    · split
      · exact suffix_cons _ _
      · dsimp only
        split
        · split
          · exact suffix_refl _
          · exact suffix_cons _ _
        · exact suffix_refl _
    · exact suffix_refl _

theorem isUnterminated_openLiteral (l : Language) (q : Char) : isUnterminated (openLiteral l q) = true := by
  unfold openLiteral
  split
  · rfl
  · split <;> rfl

theorem isClosed_of_region {n : Nesting} (h : ∀ d ∈ (n.region l r).faults, isUnterminated d.cause = false) :
    (∀ d ∈ n.faults, isUnterminated d.cause = false) ∧ r.isClosed = true := by
  cases r with
  | code c => exact ⟨fun d hd => h d ((faults_suffix_bracket n c).subset hd), rfl⟩
  | lineComment cs => exact ⟨h, rfl⟩
  | blockComment cs closed =>
    cases closed with
    | true => exact ⟨h, rfl⟩
    | false => cases (forall_mem_cons.1 h).1
  | quoted q cs closed =>
    cases closed with
    | true => exact ⟨h, rfl⟩
    | false => cases (isUnterminated_openLiteral l q).symm.trans (forall_mem_cons.1 h).1

end Nesting

theorem isClosed_of_structuralFaults (h : ∀ d ∈ structuralFaults l cs, isUnterminated d.cause = false) :
    ∀ r ∈ regions l cs, r.isClosed = true := by
  suffices ∀ (rs : List Region) (n : Nesting),
      (∀ d ∈ (rs.foldl (Nesting.region l) n).faults, isUnterminated d.cause = false) →
      (∀ d ∈ n.faults, isUnterminated d.cause = false) ∧ ∀ r ∈ rs, r.isClosed = true from
    (this _ _ fun d hd => h d (mem_append_left _ (mem_reverse.2 hd))).2
  intro rs
  induction rs with
  | nil => exact fun n h => ⟨h, nofun⟩
  | cons r rs ih =>
    intro n h
    obtain ⟨hn, hrs⟩ := ih _ h
    obtain ⟨hn, hr⟩ := Nesting.isClosed_of_region hn
    exact ⟨hn, forall_mem_cons.2 ⟨hr, hrs⟩⟩

theorem structuralFaults_blankComments (h : ∀ r ∈ regions l cs, r.isClosed = true) :
    structuralFaults l (blankComments l cs) = structuralFaults l cs := by
  unfold structuralFaults
  rw [regions_blankComments h]
  generalize Nesting.empty = n
  congr 1
  generalize regions l cs = rs at h
  induction rs generalizing n with
  | nil => rfl
  | cons r rs ih =>
    obtain ⟨hr, hrs⟩ := forall_mem_cons.1 h
    rw [flatMap_cons, foldl_append, foldl_cons, Nesting.foldl_region_expanded hr, ih _ hrs]

end Blackboard.Scan
