import BLinkTree.Lib.Interleaving
import Mathlib.Algebra.BigOperators.Group.Finset.Basic

/-! # A team of threads that stops

A fixed number of threads, sums over them, and the rule for programs whose steps make a
measure smaller: every run is bounded, and when some thread has not stopped, some
thread can move, so every run can be continued to an end.
-/

namespace Interleaving

variable {σ τ α ε : Type}

/-- The sum of `f` over the first `n` threads. -/
def total (n : Nat) (f : τ → Nat) (t : Nat → τ) : Nat := ∑ i ∈ Finset.range n, f (t i)

theorem total_update {n i : Nat} (f : τ → Nat) (t : Nat → τ) (x : τ) (hi : i < n) :
    total n f (Function.update t i x) + f (t i) = total n f t + f x := by
  unfold total
  have hmem : i ∈ Finset.range n := Finset.mem_range.mpr hi
  have hrest : ∑ j ∈ (Finset.range n).erase i, f (Function.update t i x j) =
      ∑ j ∈ (Finset.range n).erase i, f (t j) := by
    refine Finset.sum_congr rfl fun j hj => ?_
    rw [Function.update_of_ne (Finset.ne_of_mem_erase hj)]
  rw [← Finset.add_sum_erase _ _ hmem, ← Finset.add_sum_erase _ (fun j => f (t j)) hmem, hrest,
    Function.update_self]
  omega

theorem total_eq_zero {n : Nat} {f : τ → Nat} {t : Nat → τ} (h : ∀ i, i < n → f (t i) = 0) :
    total n f t = 0 := Finset.sum_eq_zero fun i hi => h i (Finset.mem_range.mp hi)

/-- A step of one of the first `n` threads. -/
def Member (n : Nat) (_ : World Nat σ τ ε) (i : Nat) (_ : α) : Prop := i < n

instance (n : Nat) (w : World Nat σ τ ε) (i : Nat) (a : α) : Decidable (Member n w i a) :=
  inferInstanceAs (Decidable (i < n))

/-- Every step keeps `P` and makes `m` smaller, and as long as a thread has not stopped there is
a step. -/
structure Winds (p : Program σ τ α ε) (n : Nat) (P : World Nat σ τ ε → Prop)
    (m : World Nat σ τ ε → Nat) (stopped : τ → Prop) : Prop where
  step : ∀ w i a w', P w → i < n → step p w i a = some w' → P w' ∧ m w' < m w
  progress : ∀ w, P w → (∃ i, i < n ∧ ¬ stopped (w.thread i)) →
    ∃ i a w', i < n ∧ Interleaving.step p w i a = some w'

variable {p : Program σ τ α ε} {n : Nat} {P : World Nat σ τ ε → Prop} {m : World Nat σ τ ε → Nat}
  {stopped : τ → Prop} {w₀ w w' : World Nat σ τ ε}

theorem Winds.invariant (h : Winds p n P m stopped) (h0 : P w₀)
    (hw : Reachable p (Member n) w₀ w) : P w :=
  Reachable.invariant hw h0 fun w i a w' hP hok hs => (h.step w i a w' hP hok hs).1

/-- No run is longer than the measure of its start. -/
theorem Winds.length_le (h : Winds p n P m stopped) {l : List (Nat × α)} (h0 : P w)
    (hrun : run p (Member n) w l = some w') : l.length ≤ m w := by
  induction l generalizing w with
  | nil => exact Nat.zero_le _
  | cons e l ih =>
      rcases e with ⟨i, a⟩
      simp only [run] at hrun
      split at hrun
      next hok =>
        rcases Option.bind_eq_some_iff.mp hrun with ⟨w1, h1, h2⟩
        rcases h.step w i a w1 h0 hok h1 with ⟨hP, hlt⟩
        have hle := ih hP h2
        rw [List.length_cons]
        omega
      · simp at hrun

/-- Every run can be continued until all threads have stopped. -/
theorem Winds.exists_stopped (h : Winds p n P m stopped) (h0 : P w₀)
    (hw : Reachable p (Member n) w₀ w) :
    ∃ w', Reachable p (Member n) w₀ w' ∧ ∀ i, i < n → stopped (w'.thread i) := by
  induction hm : m w using Nat.strong_induction_on generalizing w with
  | _ k ih =>
      by_cases hall : ∀ i, i < n → stopped (w.thread i)
      · exact ⟨w, hw, hall⟩
      · push Not at hall
        have hP := h.invariant h0 hw
        rcases h.progress w hP hall with ⟨i, a, w', hi, hs⟩
        have hlt := (h.step w i a w' hP hi hs).2
        exact ih (m w') (hm ▸ hlt) (hw.move hi hs) rfl

end Interleaving
