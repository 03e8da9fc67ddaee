import Blackboard.Pipeline
import Blackboard.Proofs.Steps.Run
import Blackboard.Proofs.WellFormed.Reading

/-!
Every program is converted to well-formed pseudocode, whatever the options, unless its numbers are too
large to be written. Main statement: the structured value of the result is well formed, so that reading
and laying it out meets no node that does not belong where it stands; and a conversion that has no
result comes from a program that is too heavy.
-/
namespace Blackboard.Conversion

open Pseudo (StmtRecord readProgram)

theorem Result.program_wellFormed {r : Result} (h : Convert.AllOrdinary r.body) : r.program.WellFormed :=
  .of_ordinary (by simp [Pseudo.Form.kind]) (by simp [Pseudo.Form.kind]) (by simp [Pseudo.Form.expressions]) h

theorem failure?_convert (options : Options) (l : Language) (stopAfter : Option Stage) (source : String) :
    (Pipeline.convert options l stopAfter source).failure? = none ∨
      ∃ f, run options.maxNestingDepth (Source.Program.read l source.toList).1 = .error f := by
  unfold Pipeline.convert
  generalize Source.Program.read l source.toList = parsed
  obtain ⟨p, remarks⟩ := parsed
  dsimp only
  split
  · exact .inl rfl
  · split
    · next f hf => exact .inr ⟨f, hf⟩
    · split
      · exact .inl rfl
      · exact .inl rfl

/-! ### Numbers that are too large -/

def powerNumeral (k : Nat) : List Char := '0' :: 'x' :: '1' :: List.replicate k '0'

theorem hexadecimalValue_replicate (k : Nat) : Text.hexadecimalValue ('1' :: List.replicate k '0') = 16 ^ k := by
  have hfold {f : Nat → Char → Nat} (hf : ∀ a, f a '0' = 16 * a) (a : Nat) :
      (List.replicate k '0').foldl f a = 16 ^ k * a := by
    induction k generalizing a with
    | zero => simp
    | succ k ih => rw [List.replicate_succ, List.foldl_cons, ih, hf, Nat.pow_succ, Nat.mul_assoc]
  rw [Text.hexadecimalValue, List.foldl_cons, hfold fun _ => rfl]
  exact Nat.mul_one _

theorem mem_powerNumeral {k c} (h : c ∈ powerNumeral k) : c = '0' ∨ c = 'x' ∨ c = '1' := by
  simp only [powerNumeral, List.mem_cons, List.mem_replicate] at h
  rcases h with rfl | rfl | rfl | ⟨-, rfl⟩ <;> simp

theorem filter_powerNumeral (k : Nat) :
    (String.ofList (powerNumeral k)).toList.filter (· != '_') = powerNumeral k := by
  rw [String.toList_ofList, List.filter_eq_self]
  intro c hc
  rcases mem_powerNumeral hc with rfl | rfl | rfl <;> decide

theorem dropMarks_powerNumeral (k : Nat) : Numeral.dropMarks ['l', 'L'] (powerNumeral k) = powerNumeral k := by
  unfold Numeral.dropMarks
  rw [← List.reverse_reverse (powerNumeral k), List.reverse_reverse (powerNumeral k).reverse]
  congr 1
  cases hr : (powerNumeral k).reverse with
  | nil => rfl
  | cons c cs =>
    have hc : c ∈ powerNumeral k := List.mem_reverse.1 (by simp [hr])
    rcases mem_powerNumeral hc with rfl | rfl | rfl <;> rfl

theorem read_powerNumeral (k : Nat) : Numeral.read (String.ofList (powerNumeral k)) = .ok (.int (16 ^ k)) := by
  unfold Numeral.read
  rw [filter_powerNumeral]
  dsimp only
  have hprefixed : Numeral.isHexPrefixed (powerNumeral k) = true := rfl
  rw [dropMarks_powerNumeral, if_pos hprefixed, if_neg (by simp [powerNumeral])]
  rw [powerNumeral, List.drop_succ_cons, List.drop_succ_cons, List.drop_zero, hexadecimalValue_replicate]

def powerProgram (k : Nat) : Source.Program where
  language := .java
  span := .unplaced
  body := [.returnStmt .unplaced (some (.number .unplaced (.int (16 ^ k)) (String.ofList (powerNumeral k))))]
  structuralErrors := []

theorem run_powerProgram {k} (h : writable (16 ^ k : Nat) = false) (limit : Nat) :
    run limit (powerProgram k) = .error .tooManyDigits := by
  have htext : Convert.numberText? (String.ofList (powerNumeral k)) (.int (16 ^ k)) = none := by
    unfold Convert.numberText?
    have hbased : Convert.isBased (powerNumeral k) = true := rfl
    rw [filter_powerNumeral]
    simp only [hbased, Bool.true_or, if_true, h]
    rfl
  have hnumber : ∀ span, Convert.number span (.int (16 ^ k)) (String.ofList (powerNumeral k)) =
      throw .tooManyDigits := by
    intro span
    rw [Convert.number, htext]
  simp only [run, powerProgram, Convert.stmts, Convert.stmt, Convert.returnValue, Convert.expr, hnumber]
  rfl

end Blackboard.Conversion
