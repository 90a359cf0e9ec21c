-- The sizes of a benchmark (src/benchmark/benchmark_runner.cpp, 27-32): `set_range` goes from `start`
-- to `end` with a `size_t` counter, whose sum with the step is modulo `2^64`.
import Scicompute.SimtRuns
import Scicompute.Word

open Word

namespace sci.benchmark

structure BenchmarkCase where
  range_ : List Nat

namespace BenchmarkCase

/-- `for (size_t i = start; i <= end; i += step) range_.push_back(i);` A loop that is not at its end
after `fuel` tests has no result. -/
def rangeLoop (last step : Nat) : Nat → Nat → List Nat → Option (List Nat)
  | 0, _, _ => none
  | fuel + 1, i, range_ =>
    if i ≤ last then rangeLoop last step fuel (add i step) (range_ ++ [i]) else some range_

def set_range (b : BenchmarkCase) (fuel start last step : Nat) : Option BenchmarkCase :=
  (rangeLoop last step fuel start b.range_).map fun range_ => { b with range_ := range_ }

/-- The loop ends, and has appended the numbers from `start` to `last` with this step, in increasing
order. -/
def SetsRange (b : BenchmarkCase) (start last step : Nat) : Prop :=
  ∃ fuel l, b.set_range fuel start last step = some { b with range_ := b.range_ ++ l } ∧
    l.Pairwise (· < ·) ∧ ∀ x, x ∈ l ↔ ∃ k, x = start + k * step ∧ x ≤ last

/-! ## The counter -/

variable {start last step fuel i : Nat} {l : List Nat}

/-- The values that the counter has in the rounds of the loop. -/
def counters (last step fuel i : Nat) : Option (List Nat) :=
  Simt.rounds (fun i => decide (i ≤ last)) (add · step) fuel i

theorem rangeLoop_eq (last step fuel i : Nat) (range_ : List Nat) :
    rangeLoop last step fuel i range_ = (counters last step fuel i).map (range_ ++ ·) := by
  induction fuel generalizing i range_ with
  | zero => rfl
  | succ fuel ih =>
    unfold counters at ih ⊢
    rw [rangeLoop, Simt.rounds]
    by_cases hi : i ≤ last
    · rw [if_pos hi, if_pos (decide_eq_true hi), ih, Option.map_map]
      congr 1
      funext l
      exact List.append_assoc range_ [i] l
    · rw [if_neg hi, if_neg (by simpa using hi), Option.map_some, List.append_nil]

theorem setsRange_iff_counters (b : BenchmarkCase) : b.SetsRange start last step ↔
    ∃ fuel l, counters last step fuel start = some l ∧ l.Pairwise (· < ·) ∧
      ∀ x, x ∈ l ↔ ∃ k, x = start + k * step ∧ x ≤ last := by
  refine exists_congr fun fuel => exists_congr fun l => and_congr_left fun _ => ?_
  rw [set_range, rangeLoop_eq, Option.map_map, Option.map_eq_some_iff]
  constructor
  · rintro ⟨l', hl', heq⟩
    rw [hl', List.append_cancel_left (congrArg range_ heq)]
  · intro hl
    exact ⟨l, hl, rfl⟩

/-- A counter that only rises has no sum that wraps around, also behind the last round. -/
theorem lt_add_of_counters (h : counters last step fuel i = some l) (hl : l.Pairwise (· < ·)) :
    ∀ x ∈ l, x < add x step := by
  induction fuel generalizing i l with
  | zero => cases h
  | succ fuel ih =>
    unfold counters at h ih
    rw [Simt.rounds] at h
    split_ifs at h with hi
    · obtain ⟨l', hl', rfl⟩ := Option.map_eq_some_iff.mp h
      rw [List.pairwise_cons] at hl
      refine List.forall_mem_cons.mpr ⟨?_, ih hl' hl.2⟩
      -- the next value is the first of the rest, or behind the end
      cases fuel with
      | zero => cases hl'
      | succ fuel =>
        rw [Simt.rounds] at hl'
        split_ifs at hl' with hnext
        · obtain ⟨l'', -, rfl⟩ := Option.map_eq_some_iff.mp hl'
          exact hl.1 _ (List.mem_cons_self ..)
        · have hle := of_decide_eq_true hi
          have hgt : ¬ add i step ≤ last := of_decide_eq_false (Bool.eq_false_iff.mpr hnext)
          omega
    · cases h
      exact fun x hx => absurd hx List.not_mem_nil

theorem le_div_iff (hle : start ≤ last) (hstep : 0 < step) (k : Nat) :
    k ≤ (last - start) / step ↔ start + k * step ≤ last := by
  rw [Nat.le_div_iff_mul_le hstep]
  omega

/-- A counter without such a sum. -/
theorem counters_eq (hle : start ≤ last) (hstep : 0 < step)
    (hend : start + ((last - start) / step + 1) * step < wordSize) :
    counters last step ((last - start) / step + 2) start =
      some ((List.range ((last - start) / step + 1)).map fun k => start + k * step) := by
  have htest : ∀ k < (last - start) / step + 1, decide (start + k * step ≤ last) = true :=
    fun k hk => decide_eq_true ((le_div_iff hle hstep k).mp (Nat.le_of_lt_succ hk))
  have hnext : ∀ k < (last - start) / step + 1,
      add (start + k * step) step = start + (k + 1) * step := by
    intro k hk
    have hmul := Nat.mul_le_mul_right step (Nat.succ_le_of_lt hk)
    rw [Nat.succ_mul] at hmul
    rw [add_of_lt (by omega), Nat.succ_mul, Nat.add_assoc]
  have hlast : decide (start + ((last - start) / step + 1) * step ≤ last) = false := by
    refine decide_eq_false fun h => ?_
    exact Nat.not_succ_le_self _ ((le_div_iff hle hstep _).mpr h)
  have hrounds : counters last step ((last - start) / step + 2) (start + 0 * step) =
      some ((List.range ((last - start) / step + 1)).map fun k => start + k * step) :=
    Simt.rounds_eq_some (a := fun k => start + k * step) htest hnext hlast (Nat.lt_succ_self _)
  rwa [Nat.zero_mul, Nat.add_zero] at hrounds

/-- The loop is right where it has nothing to do, and where the counter gets above `end` without a sum
that wraps around. -/
theorem set_range_iff (b : BenchmarkCase) (hlast : last < wordSize) (hword : step < wordSize) :
    b.SetsRange start last step ↔
      last < start ∨ 0 < step ∧ start + ((last - start) / step + 1) * step < wordSize := by
  rw [setsRange_iff_counters]
  constructor
  · rintro ⟨fuel, l, hl, hsorted, hmem⟩
    by_contra hwrong
    push Not at hwrong
    have hle := hwrong.1
    have hrise := lt_add_of_counters hl hsorted
    have hfirst := hrise start ((hmem start).mpr ⟨0, by omega, hle⟩)
    have hstep : 0 < step := by
      by_contra hzero
      obtain rfl : step = 0 := by omega
      rw [add_of_lt (by omega)] at hfirst
      omega
    -- the last number of the range is one of the list
    have hbound := (le_div_iff hle hstep ((last - start) / step)).mp le_rfl
    have hend := hrise _ ((hmem _).mpr ⟨_, rfl, hbound⟩)
    have hwrap := hwrong.2 hstep
    rw [Nat.succ_mul, ← Nat.add_assoc] at hwrap
    unfold add at hend
    rw [Nat.mod_eq_sub_mod hwrap] at hend
    have hmod := Nat.mod_le (start + (last - start) / step * step + step - wordSize) wordSize
    omega
  · intro h
    by_cases hle : start ≤ last
    · obtain ⟨hstep, hend⟩ := h.resolve_left (not_lt.mpr hle)
      refine ⟨_, _, counters_eq hle hstep hend, ?_, fun x => ?_⟩
      · rw [List.pairwise_map]
        refine List.pairwise_lt_range.imp fun hlt => ?_
        exact Nat.add_lt_add_left (Nat.mul_lt_mul_of_pos_right hlt hstep) start
      · rw [List.mem_map]
        constructor
        · rintro ⟨k, hk, rfl⟩
          exact ⟨k, rfl, (le_div_iff hle hstep k).mp (Nat.le_of_lt_succ (List.mem_range.mp hk))⟩
        · rintro ⟨k, rfl, hk⟩
          exact ⟨k, List.mem_range.mpr (Nat.lt_succ_of_le ((le_div_iff hle hstep k).mpr hk)), rfl⟩
    · refine ⟨1, [], ?_, List.Pairwise.nil, fun x => iff_of_false List.not_mem_nil ?_⟩
      · rw [counters, Simt.rounds, if_neg (by simpa using hle)]
      · rintro ⟨k, rfl, hk⟩
        omega

/-- The sizes 2, 5 and 8. -/
theorem three_sizes_are_set : (⟨[1]⟩ : BenchmarkCase).SetsRange 2 9 3 :=
  (set_range_iff ⟨[1]⟩ (by decide) (by decide)).mpr (Or.inr (by decide))

/-- The counter of a step of 0 stays at `start`. -/
theorem a_step_of_zero_never_ends : ¬ (⟨[]⟩ : BenchmarkCase).SetsRange 1 1 0 := by
  rintro ⟨fuel, l, hset, hsorted, -⟩
  rw [set_range, rangeLoop_eq, Option.map_map] at hset
  obtain ⟨l', hl, -⟩ := Option.map_eq_some_iff.mp hset
  have hnone : counters 1 0 fuel 1 = none :=
    Simt.rounds_eq_none (J := fun i => i = 1) (fun i hi => by rw [hi]; decide) rfl fuel
  rw [hnone] at hl
  cases hl

end BenchmarkCase

end sci.benchmark
