import Mathlib.Data.List.Chain
import Mathlib.Data.List.DropRight
import Mathlib.Data.List.Forall2
import Blackboard.Proofs.Printing.Block

/-!
The empty lines of a layout. However the blocks of some lines are nested, each line that shows something
is laid out once and in order, and one empty line stands for all blank ones between two of them.
-/
namespace Blackboard.Pseudo.Layout

open List (Forall₂ IsChain cons_append forall_mem_cons)
open Text (isBlank trimEnd)

variable {width level : Nat} {last : String} {ls ms : List Line}

/-- Every line that is not blank shows something. -/
def AllShow (ls : List Line) : Prop := ∀ l ∈ ls, l.role ≠ .blank → ∃ c ∈ l.text.toList, isBlank c = false

/-- How a line is shown: spaces are put before it, and nothing blank is left behind it. -/
def ShownAs (l : Line) (s : String) : Prop := ∃ n, s = String.ofList (spaces n ++ trimEnd l.text.toList)

/-! ### One line -/

theorem formatFrom_of_inked {l : Line} (h : l.role ≠ .blank) (width level : Nat) (last : String) (ls : List Line) :
    formatFrom width level last (l :: ls) = indented width (levelOf level l.role) l.text ::
      formatFrom width (levelAfter level l.role) (indented width (levelOf level l.role) l.text) ls := by
  obtain ⟨role, text⟩ := l
  cases role with
  | blank => exact absurd rfl h
  | opener | closer | continuation | plain => rfl

theorem formatFrom_of_blank {l : Line} (h : l.role = .blank) (width level : Nat) (last : String) (ls : List Line) :
    formatFrom width level last (l :: ls) =
      if last = "" then formatFrom width level last ls else "" :: formatFrom width level "" ls := by
  obtain ⟨role, text⟩ := l
  obtain rfl : role = .blank := h
  rw [formatFrom]

theorem indented_ne_empty {l : Line} (h : ∃ c ∈ l.text.toList, isBlank c = false) (width level : Nat) :
    ShownAs l (indented width level l.text) ∧ indented width level l.text ≠ "" := by
  have hink : ¬l.text.toList.all isBlank = true := by simpa using h
  obtain ⟨heq, hne⟩ := indented_of_ink width level hink
  exact ⟨⟨_, heq⟩, hne⟩

/-! ### All lines -/

theorem trimEnd_of_mem_formatFrom {s : String} (h : s ∈ formatFrom width level last ls) :
    trimEnd s.toList = s.toList := by
  induction ls generalizing level last with
  | nil => cases h
  | cons l ls ih =>
    by_cases hl : l.role = .blank
    · rw [formatFrom_of_blank hl] at h
      split at h
      · exact ih h
      · rcases List.mem_cons.1 h with rfl | h
        · rfl
        · exact ih h
    · rw [formatFrom_of_inked hl] at h
      rcases List.mem_cons.1 h with rfl | h
      · rw [indented, String.toList_ofList]
        exact List.rdropWhile_idempotent ..
      · exact ih h

/-- Nothing is empty behind something empty, and at first nothing is. -/
theorem isChain_formatFrom (h : AllShow ls) :
    IsChain (fun s t => s ≠ "" ∨ t ≠ "") (last :: formatFrom width level last ls) := by
  induction ls generalizing level last with
  | nil => exact .singleton _
  | cons l ls ih =>
    obtain ⟨hshow, hrest⟩ := forall_mem_cons.1 h
    by_cases hl : l.role = .blank
    · rw [formatFrom_of_blank hl]
      split
      · exact ih hrest
      · next hlast => exact .cons_cons (.inl hlast) (ih hrest)
    · rw [formatFrom_of_inked hl]
      exact .cons_cons (.inr (indented_ne_empty (hshow hl) ..).2) (ih hrest)

theorem shown_formatFrom (h : AllShow ls) (width level : Nat) (last : String) :
    Forall₂ ShownAs (ls.filter (·.role ≠ .blank)) ((formatFrom width level last ls).filter (· ≠ "")) := by
  induction ls generalizing level last with
  | nil => exact .nil
  | cons l ls ih =>
    obtain ⟨hshow, hrest⟩ := forall_mem_cons.1 h
    by_cases hl : l.role = .blank
    · rw [formatFrom_of_blank hl, List.filter_cons_of_neg (by simpa using hl)]
      split
      · exact ih hrest ..
      · exact ih hrest ..
    · obtain ⟨hshown, hne⟩ := indented_ne_empty (hshow hl) width (levelOf level l.role)
      rw [formatFrom_of_inked hl, List.filter_cons_of_pos (by simpa using hl),
        List.filter_cons_of_pos (by simpa using hne)]
      exact .cons hshown (ih hrest ..)

theorem empty_mem_formatFrom (h : AllShow ls) (hlast : last ≠ "") :
    "" ∈ formatFrom width level last ls ↔ ∃ l ∈ ls, l.role = .blank := by
  induction ls generalizing level last with
  | nil => simp [formatFrom]
  | cons l ls ih =>
    obtain ⟨hshow, hrest⟩ := forall_mem_cons.1 h
    by_cases hl : l.role = .blank
    · rw [formatFrom_of_blank hl, if_neg hlast]
      simp [hl]
    · have hne := (indented_ne_empty (hshow hl) width (levelOf level l.role)).2
      rw [formatFrom_of_inked hl, List.mem_cons, ih hrest hne]
      simp [hl, hne.symm]

/-! ### The end -/

theorem getLast?_dropEmptyEnd (ss : List String) : (dropEmptyEnd ss).getLast? ≠ some "" := by
  intro h
  obtain ⟨hne, hlast⟩ := List.mem_getLast?_eq_getLast h
  exact List.rdropWhile_last_not (· == "") ss hne (beq_iff_eq.2 hlast.symm)

theorem dropEmptyEnd_append {t : String} (ht : t ≠ "") (ss ts : List String) :
    dropEmptyEnd (ss ++ t :: ts) = ss ++ t :: dropEmptyEnd ts := by
  rw [dropEmptyEnd, List.reverse_append, List.reverse_cons, List.append_assoc, List.dropWhile_append]
  split
  · next h => simp [dropEmptyEnd, List.isEmpty_iff.1 h, ht]
  · simp [dropEmptyEnd]

/-! ### Between two lines -/

theorem length_shown (h : AllShow ls) (width level : Nat) (last : String) :
    ((formatFrom width level last ls).filter (· ≠ "")).length = (ls.filter (·.role ≠ .blank)).length :=
  (shown_formatFrom h width level last).length_eq.symm

/-- Two lines among others, laid out with what stands before, between and after them. -/
theorem format_between (width : Int) {before gap after : List Line} {l m : Line}
    (h : AllShow (before ++ l :: (gap ++ m :: after))) (hl : l.role ≠ .blank) (hm : m.role ≠ .blank) :
    ∃ before' s gap' t after', format width (before ++ l :: (gap ++ m :: after)) = before' ++ s :: (gap' ++ t :: after') ∧
      (ShownAs l s ∧ s ≠ "") ∧ (ShownAs m t ∧ t ≠ "") ∧
      (before'.filter (· ≠ "")).length = (before.filter (·.role ≠ .blank)).length ∧
      (gap'.filter (· ≠ "")).length = (gap.filter (·.role ≠ .blank)).length ∧
      ("" ∈ gap' ↔ ∃ g ∈ gap, g.role = .blank) := by
  obtain ⟨hbefore, hrest⟩ := List.forall_mem_append.1 h
  obtain ⟨hshowl, hrest⟩ := forall_mem_cons.1 hrest
  obtain ⟨hgap, hrest⟩ := List.forall_mem_append.1 hrest
  have hshowm := (forall_mem_cons.1 hrest).1
  obtain ⟨last, hsplit⟩ := formatFrom_append width.toNat 0 "" before (l :: (gap ++ m :: after))
  rw [formatFrom_of_inked hl] at hsplit
  obtain ⟨hs, hsne⟩ := indented_ne_empty (hshowl hl) width.toNat (levelOf (levelAfterAll 0 before) l.role)
  generalize indented width.toNat _ l.text = s at hsplit hs hsne
  generalize levelAfter _ l.role = level at hsplit
  obtain ⟨last', hgapSplit⟩ := formatFrom_append width.toNat level s gap (m :: after)
  rw [formatFrom_of_inked hm] at hgapSplit
  obtain ⟨ht, htne⟩ := indented_ne_empty (hshowm hm) width.toNat (levelOf (levelAfterAll level gap) m.role)
  rw [format, hsplit, hgapSplit, ← cons_append, ← List.append_assoc, dropEmptyEnd_append htne, List.append_assoc, cons_append]
  exact ⟨_, s, _, _, _, rfl, ⟨hs, hsne⟩, ⟨ht, htne⟩, length_shown hbefore .., length_shown hgap ..,
    empty_mem_formatFrom hgap hsne⟩

/-- The rules of layout. No line ends in something blank, the first and the last are not empty, and no two
empty ones follow one another. What is not empty are the lines that are not blank, in order, each behind
some spaces; and between any two of them something is empty exactly if a line between them is blank. -/
theorem layout_is_evenly_spaced (width : Int) (ls : List Line) (h : AllShow ls) :
    let out := format width ls
    (∀ s ∈ out, trimEnd s.toList = s.toList) ∧ out.head? ≠ some "" ∧ out.getLast? ≠ some "" ∧
      IsChain (fun s t => s ≠ "" ∨ t ≠ "") out ∧
      Forall₂ ShownAs (ls.filter (·.role ≠ .blank)) (out.filter (· ≠ "")) ∧
      ∀ before l gap m after, ls = before ++ l :: (gap ++ m :: after) → l.role ≠ .blank → m.role ≠ .blank →
        ∃ before' s gap' t after', out = before' ++ s :: (gap' ++ t :: after') ∧
          (ShownAs l s ∧ s ≠ "") ∧ (ShownAs m t ∧ t ≠ "") ∧
          (before'.filter (· ≠ "")).length = (before.filter (·.role ≠ .blank)).length ∧
          (gap'.filter (· ≠ "")).length = (gap.filter (·.role ≠ .blank)).length ∧
          ("" ∈ gap' ↔ ∃ g ∈ gap, g.role = .blank) := by
  intro out
  obtain ⟨dropped, hdropped⟩ : out <+: formatFrom width.toNat 0 "" ls := List.rdropWhile_prefix ..
  -- the layout starts as if an empty line stood before it, so that the chain bars an empty first line
  have hchain : IsChain (fun s t => s ≠ "" ∨ t ≠ "") ("" :: out) := by
    have hall : IsChain _ ("" :: formatFrom width.toNat 0 "" ls) := isChain_formatFrom h
    rw [← hdropped, ← cons_append] at hall
    exact hall.left_of_append
  refine ⟨fun s hs => trimEnd_of_mem_formatFrom (hdropped ▸ List.mem_append_left _ hs), ?_, getLast?_dropEmptyEnd _, hchain.tail, ?_, ?_⟩
  · intro hhead
    obtain ⟨ss, hout⟩ := List.head?_eq_some_iff.1 hhead
    rw [hout] at hchain
    simpa using hchain.rel
  · rw [show out.filter (· ≠ "") = _ from filter_dropEmptyEnd _]
    exact shown_formatFrom h ..
  · rintro before l gap m after rfl hl hm
    exact format_between width h hl hm

def spacedLines : List Line :=
  [⟨.blank, ""⟩, ⟨.opener, "REPEAT"⟩, ⟨.blank, ""⟩, ⟨.blank, ""⟩, ⟨.plain, "OUTPUT 1  "⟩, ⟨.closer, "UNTIL TRUE"⟩, ⟨.blank, ""⟩]

theorem layout_is_evenly_spaced_loop : AllShow spacedLines ∧
    format 2 spacedLines = ["REPEAT", "", "  OUTPUT 1", "UNTIL TRUE"] ∧ (format 2 spacedLines).getLast? ≠ some "" := by
  have hshow : AllShow spacedLines := by
    simp only [AllShow, spacedLines, forall_mem_cons, ne_eq, not_true_eq_false]
    exact ⟨nofun, fun _ => ⟨'R', by decide, rfl⟩, nofun, nofun, fun _ => ⟨'O', by decide, rfl⟩,
      fun _ => ⟨'U', by decide, rfl⟩, nofun, nofun⟩
  exact ⟨hshow, by decide, (layout_is_evenly_spaced 2 spacedLines hshow).2.2.1⟩

end Blackboard.Pseudo.Layout
