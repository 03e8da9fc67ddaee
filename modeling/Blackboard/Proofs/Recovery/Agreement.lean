import Blackboard.Proofs.Parsing.Order
import Blackboard.Proofs.Recovery.Segments

/-!
Reading a text statement by statement, against reading it as a whole. The segments of a text are found by
their ends alone, so some of them may be parts of statements, and these are lost. But if none is lost, the
statements found are a reading of the whole text, and they do not depend on what stands behind it.
-/
namespace Blackboard.Source.Stmt

open Grammar Scan
open Language (java)

variable {l : Language} {source : List Char} {ss : List Stmt}
variable {s : Segment} {terminals : List Terminal}

def recovered (l : Language) (source : List Char) : List Stmt :=
  ((segments l (mask l source)).map (readSegment l source)).flatMap (·.1)

def reported (l : Language) (source : List Char) : List Diagnostic :=
  ((segments l (mask l source)).map (readSegment l source)).filterMap (·.2)

/-! ### One segment -/

theorem readSegment_of_ok (h : readAll l (s.inPlace source) = .ok ss) : readSegment l source s = (ss, none) := by
  obtain ⟨ss', hread, hsegment⟩ | ⟨e, -, -, -, -, hread, -⟩ := readSegment_cases l source s
  · rw [hread] at h
    cases h
    exact hsegment
  · rw [hread] at h
    cases h

theorem exists_readAll_of_readSegment (h : (readSegment l source s).2 = none) :
    ∃ ss, readAll l (s.inPlace source) = .ok ss := by
  obtain ⟨ss, hread, -⟩ | ⟨e, _, _, _, _, -, hsegment⟩ := readSegment_cases l source s
  · exact ⟨ss, hread⟩
  · rw [hsegment] at h
    cases h

theorem readSegment_append (hstart : s.start ≤ s.stop) (hstop : s.stop ≤ source.length)
    (rest : List Char) : readSegment l (source ++ rest) s = readSegment l source s := by
  have hplace : Position.ofOffset (source ++ rest) s.start = Position.ofOffset source s.start := by
    rw [Position.ofOffset, Position.ofOffset, List.take_append_of_le_length (hstart.trans hstop)]
  have htext : ((source ++ rest).drop s.start).take (s.stop - s.start) =
      (source.drop s.start).take (s.stop - s.start) := by
    rw [List.drop_append_of_le_length (hstart.trans hstop), List.take_append_of_le_length]
    rw [List.length_drop]
    omega
  unfold readSegment
  rw [hplace, htext]

/-! ### All segments -/

theorem reported_eq_nil_iff : reported l source = [] ↔
    ∀ s ∈ segments l (mask l source), ∃ ss, readAll l (s.inPlace source) = .ok ss := by
  rw [reported, List.filterMap_eq_nil_iff, List.forall_mem_map]
  refine forall₂_congr fun s _ => ⟨exists_readAll_of_readSegment, ?_⟩
  rintro ⟨ss, hread⟩
  rw [readSegment_of_ok hread]

theorem IsRun.clean (h : IsRun l source) : Clean l source := by
  obtain ⟨hstray, trees, hrun⟩ := h
  exact ⟨hstray, hrun.isChain (settled l)⟩

theorem flatMap_lex_of_isRun (h : IsRun l source)
    (hsegments : ∀ s ∈ segments l (mask l source), IsRun l (s.inPlace source)) :
    (segments l (mask l source)).flatMap (fun s => (Token.lex l (s.inPlace source)).1) = (Token.lex l source).1 :=
  flatMap_lex_segments h.clean fun s hs => (hsegments s hs).clean

theorem reported_eq_nil_iff_isRun (h : Reads l source ss) : reported l source = [] ↔
    ∀ s ∈ segments l (mask l source), IsRun l (s.inPlace source) := by
  rw [reported_eq_nil_iff]
  constructor
  · intro hread s hs
    obtain ⟨ss', hss'⟩ := hread s hs
    exact (reads_of_readAll hss').isRun
  · intro hruns s hs
    refine exists_readAll (hruns s hs) fun t ht => h.isReadable t ?_
    rw [← flatMap_lex_of_isRun h.isRun hruns]
    exact List.mem_flatMap.2 ⟨s, hs, ht⟩

theorem reads_recovered (h : Reads l source ss) (hnone : reported l source = []) :
    Reads l source (recovered l source) := by
  have htokens := flatMap_lex_of_isRun h.isRun ((reported_eq_nil_iff_isRun h).1 hnone)
  rw [reported_eq_nil_iff] at hnone
  refine ⟨h.1, ?_⟩
  rw [← htokens, recovered, List.flatMap_map]
  refine OfTokens.flatMap fun s hs => ?_
  obtain ⟨ss', hread⟩ := hnone s hs
  rw [readSegment_of_ok hread]
  refine (reads_of_readAll hread).ofTokens fun t ht => h.length_template_le t ?_
  rw [← htokens]
  exact List.mem_flatMap.2 ⟨s, hs, ht⟩

/-! ### Texts with more behind them -/

theorem bounds_of_mem_segments (hs : s ∈ segments l (mask l source)) : s.start ≤ s.stop ∧ s.stop ≤ source.length :=
  (splits_segments l (mask l source)).bounds (Nat.le_refl _) (by rw [length_mask, Nat.zero_add]) s hs

theorem segments_of_blank (h : ∀ c ∈ source, Text.isBlank c = true) : segments l (mask l source) = [] := by
  have hcode : ∀ c ∈ source, Region.isQuote l c = false ∧ c ≠ '/' := by
    intro c hc
    have hblank := h c hc
    refine ⟨?_, ?_⟩
    · by_contra hquote
      simp only [Region.isQuote, Bool.not_eq_false, Bool.or_eq_true, Bool.and_eq_true, beq_iff_eq] at hquote
      obtain ⟨rfl | rfl⟩ | ⟨rfl, -⟩ := hquote <;> cases hblank
    · rintro rfl
      cases hblank
  have hmask := mask_append_of_code hcode []
  rw [List.append_nil, show mask l [] = [] from rfl, List.append_nil] at hmask
  rw [hmask]
  have hsplits : Splits 0 none (source ++ []) (segments l source) := by simpa using splits_segments l source
  generalize segments l source = ss at hsplits
  cases hsplits.blanks_none h
  rfl

theorem recover_fst {e} (h : readAll l source = .error e) :
    (recover l source (mask l source)).1 = recovered l source := by
  unfold recover recovered
  split
  · next hblank => rw [segments_of_blank (List.all_eq_true.1 hblank), List.map_nil, List.flatMap_nil]
  · rw [h]

theorem recovered_append {rest more} (h : segments l (mask l (source ++ rest)) = segments l (mask l source) ++ more) :
    recovered l (source ++ rest) =
      recovered l source ++ (more.map (readSegment l (source ++ rest))).flatMap (·.1) := by
  have hread : (segments l (mask l source)).map (readSegment l (source ++ rest)) =
      (segments l (mask l source)).map (readSegment l source) :=
    List.map_congr_left fun s hs => readSegment_append (bounds_of_mem_segments hs).1
      (bounds_of_mem_segments hs).2 rest
  rw [recovered, h, List.map_append, List.flatMap_append, hread, recovered]

/-! ### Single statements -/

theorem not_isRun_of_else (h : (Token.lex l source).1.head?.map (·.terminal) = some .kElse) : ¬IsRun l source := by
  obtain ⟨t, ht, helse⟩ := Option.map_eq_some_iff.1 h
  rintro ⟨-, trees, hrun⟩
  exact hrun.head?_ne_else (settled l) ht helse

theorem isRun_of_isFound (h : isFound terminals = true)
    (hlex : (Token.lex java source).2 = none ∧ (Token.lex java source).1.map (·.terminal) = terminals) :
    IsRun java source :=
  ⟨hlex.1, exists_run_of_isFound (hlex.2 ▸ h)⟩

theorem isFound_choices : ∀ terminals ∈ ([[.kIf, .lpar, .name, .rpar, .semi], [.kBreak, .semi],
      [.kIf, .lpar, .name, .rpar, .semi, .kBreak, .semi],
      [.kIf, .lpar, .name, .rpar, .semi, .kElse, .semi]] : List (List Terminal)),
    isFound terminals = true := by
  decide +kernel

/-! ### The whole text and its segments -/

/-- Reading a text segment by segment agrees with reading it as a whole, so far as the ends of statements
alone show where they end. For a text that is read as a whole:

- nothing is reported of its segments if and only if each of them is a run of whole statements;
- if nothing is reported, no token is lost or cut apart, and the statements found are a reading of the
  whole text, hence the same statements wherever the text has only one;
- if the text is followed by something that cannot be read with it but leaves its segments as they are,
  the statements found in it stay the same. -/
theorem recovery_agrees_of_isRun (h : readAll l source = .ok ss) :
    (reported l source = [] ↔ ∀ s ∈ segments l (mask l source), IsRun l (s.inPlace source)) ∧
    (reported l source = [] → (segments l (mask l source)).flatMap (fun s => (Token.lex l (s.inPlace source)).1) =
        (Token.lex l source).1 ∧
      Reads l source (recovered l source) ∧
      ((∀ ss', Reads l source ss' → ss' = ss) → recovered l source = ss)) ∧
    (∀ rest more e, readAll l (source ++ rest) = .error e →
      segments l (mask l (source ++ rest)) = segments l (mask l source) ++ more →
      (recover l (source ++ rest) (mask l (source ++ rest))).1 =
        recovered l source ++ (more.map (readSegment l (source ++ rest))).flatMap (·.1)) := by
  have hreads := reads_of_readAll h
  have hiff := reported_eq_nil_iff_isRun hreads
  refine ⟨hiff, fun hnone => ?_, fun rest more e herror hsegments => ?_⟩
  · have hrecovered := reads_recovered hreads hnone
    exact ⟨flatMap_lex_of_isRun hreads.isRun (hiff.1 hnone), hrecovered, fun honly => honly _ hrecovered⟩
  · rw [recover_fst herror, recovered_append hsegments]

def ifThenBreak : List Char := "if(a);break;".toList

theorem scan_ifThenBreak :
    ((Token.lex .java ifThenBreak).2 = none ∧ (Token.lex .java ifThenBreak).1.map (·.terminal) =
      [.kIf, .lpar, .name, .rpar, .semi, .kBreak, .semi]) ∧
    segments .java (mask .java ifThenBreak) = [⟨0, 6⟩, ⟨6, 12⟩] ∧
    ((Token.lex .java (Segment.inPlace ifThenBreak ⟨0, 6⟩)).2 = none ∧
      (Token.lex .java (Segment.inPlace ifThenBreak ⟨0, 6⟩)).1.map (·.terminal) =
        [.kIf, .lpar, .name, .rpar, .semi]) ∧
    ((Token.lex .java (Segment.inPlace ifThenBreak ⟨6, 12⟩)).2 = none ∧
      (Token.lex .java (Segment.inPlace ifThenBreak ⟨6, 12⟩)).1.map (·.terminal) = [.kBreak, .semi]) ∧
    segments .java (mask .java (ifThenBreak ++ ['#'])) = [⟨0, 6⟩, ⟨6, 12⟩, ⟨12, 13⟩] ∧
    (Token.lex .java (ifThenBreak ++ ['#'])).2 ≠ none := by
  decide

theorem isRun_ifThenBreak : IsRun .java ifThenBreak ∧
    ∀ s ∈ segments .java (mask .java ifThenBreak), IsRun .java (s.inPlace ifThenBreak) := by
  obtain ⟨hwhole, hsegments, hif, hbreak, -⟩ := scan_ifThenBreak
  rw [hsegments]
  refine ⟨isRun_of_isFound (isFound_choices _ (by decide)) hwhole, ?_⟩
  simp only [List.forall_mem_cons, List.not_mem_nil]
  exact ⟨isRun_of_isFound (isFound_choices _ (by decide)) hif,
    isRun_of_isFound (isFound_choices _ (by decide)) hbreak, fun _ h => h.elim⟩

/-- A text of which the terminals are known, and none of them a number, is read if it is a run. -/
theorem exists_readAll_of_terminals (hrun : IsRun l source) (h : (Token.lex l source).1.map (·.terminal) = terminals)
    (hplain : .number ∉ terminals) : ∃ ss, readAll l source = .ok ss :=
  exists_readAll hrun fun _ ht hnumber => absurd (h ▸ hnumber ▸ List.mem_map_of_mem ht) hplain

theorem exists_readAll_ifThenBreak : ∃ ss, readAll .java ifThenBreak = .ok ss :=
  exists_readAll_of_terminals isRun_ifThenBreak.1 scan_ifThenBreak.1.2 (by decide)

/-- A stray character behind the two statements changes nothing about them. -/
theorem recovery_agrees_of_isRun_sample : ∃ ss, readAll .java ifThenBreak = .ok ss ∧
    reported .java ifThenBreak = [] ∧ Reads .java ifThenBreak (recovered .java ifThenBreak) ∧
    (recover .java (ifThenBreak ++ ['#']) (mask .java (ifThenBreak ++ ['#']))).1 =
      recovered .java ifThenBreak ++ (readSegment .java (ifThenBreak ++ ['#']) ⟨12, 13⟩).1 := by
  obtain ⟨ss, hread⟩ := exists_readAll_ifThenBreak
  obtain ⟨hiff, hagrees, hbehind⟩ := recovery_agrees_of_isRun hread
  have hnone := hiff.2 isRun_ifThenBreak.2
  refine ⟨ss, hread, hnone, (hagrees hnone).2.1, ?_⟩
  obtain ⟨-, hwhole, -, -, hmore, hlex⟩ := scan_ifThenBreak
  have hsegments : segments .java (mask .java (ifThenBreak ++ ['#'])) =
      segments .java (mask .java ifThenBreak) ++ [⟨12, 13⟩] := by
    rw [hwhole, hmore]
    rfl
  cases hstray : readAll .java (ifThenBreak ++ ['#']) with
  | error e => simpa using hbehind _ _ e hstray hsegments
  | ok ss' => exact absurd (reads_of_readAll hstray).1 hlex

def twoBranches : List Char := "if(a);else;".toList

theorem scan_twoBranches :
    ((Token.lex .java twoBranches).2 = none ∧ (Token.lex .java twoBranches).1.map (·.terminal) =
      [.kIf, .lpar, .name, .rpar, .semi, .kElse, .semi]) ∧
    (⟨6, 11⟩ : Segment) ∈ segments .java (mask .java twoBranches) ∧
    (Token.lex .java (Segment.inPlace twoBranches ⟨6, 11⟩)).1.head?.map (·.terminal) = some .kElse := by
  decide

theorem twoBranches_reported : (∃ ss, readAll .java twoBranches = .ok ss) ∧ reported .java twoBranches ≠ [] := by
  obtain ⟨hlex, hsegment, helse⟩ := scan_twoBranches
  have hrun : IsRun .java twoBranches := isRun_of_isFound (isFound_choices _ (by decide)) hlex
  obtain ⟨ss, hread⟩ := exists_readAll_of_terminals hrun hlex.2 (by decide)
  refine ⟨⟨ss, hread⟩, fun hnone => ?_⟩
  have hruns := (reported_eq_nil_iff_isRun (reads_of_readAll hread)).1 hnone
  exact not_isRun_of_else helse (hruns _ hsegment)

end Blackboard.Source.Stmt
