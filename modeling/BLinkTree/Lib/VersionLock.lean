import BLinkTree.Lib.Slots

/-! # Version locks

A lock for every index, kept in a counter whose second bit says that it is taken. The
counter is the number of all changes; the machine keeps it modulo `2 ^ 32`, so that two
versions a multiple of `2 ^ 32` apart look the same. A reader remembers the counter of a
free lock. What it read then is still true when the counter did not move, because a writer
has to move it first.
-/

namespace VersionLock

open Slots

variable {ι : Type}

/-- The bit of a taken lock. -/
def isLocked (v : Nat) : Bool := decide (v / 2 % 2 = 1)

/-- Comparison of the 32-bit versions. -/
def isValid (current v : Nat) : Bool := decide (current % 2 ^ 32 = v % 2 ^ 32)

theorem isLocked_add_two {v : Nat} (h : isLocked v = false) : isLocked (v + 2) = true := by
  simp only [isLocked, decide_eq_true_eq, decide_eq_false_iff_not] at *
  omega

theorem isLocked_add_two_of_locked {v : Nat} (h : isLocked v = true) :
    isLocked (v + 2) = false := by
  simp only [isLocked, decide_eq_true_eq, decide_eq_false_iff_not] at *
  omega

/-- Every taken lock has one holder. -/
def Held (version : Nat → Nat) (holder : Nat → Option ι) : Prop :=
  ∀ n, isLocked (version n) = true ↔ holder n ≠ none

variable {version : Nat → Nat} {holder : Nat → Option ι} {n m v : Nat} {i : ι}

theorem Held.acquire (h : Held version holder) (i : ι) (hn : isLocked (version n) = false) :
    Held (store version n (version n + 2)) (store holder n (some i)) := by
  intro m
  by_cases hm : m = n
  · subst hm
    rw [store_self, store_self]
    simp [isLocked_add_two hn]
  · rw [store_of_ne _ _ hm, store_of_ne _ _ hm]
    exact h m

theorem Held.release (h : Held version holder) (hn : holder n = some i) :
    Held (store version n (version n + 2)) (store holder n none) := by
  intro m
  by_cases hm : m = n
  · subst hm
    have hl : isLocked (version m) = true := (h m).mpr (by simp [hn])
    rw [store_self, store_self]
    simp [isLocked_add_two_of_locked hl]
  · rw [store_of_ne _ _ hm, store_of_ne _ _ hm]
    exact h m

/-- A reader saw the free version `v`, and `P` is true as long as the version stands. -/
structure Snapshot (version : Nat → Nat) (n v : Nat) (P : Prop) : Prop where
  le : v ≤ version n
  free : isLocked v = false
  valid : version n = v → P

theorem Snapshot.mono {P Q : Prop} (h : Snapshot version n v P) (hPQ : version n = v → P → Q) :
    Snapshot version n v Q :=
  ⟨h.le, h.free, fun he => hPQ he (h.valid he)⟩

/-- Taking or giving back any lock. -/
theorem Snapshot.move {P : Prop} (h : Snapshot version n v P) (m : Nat) :
    Snapshot (store version m (version m + 2)) n v P := by
  by_cases hm : n = m
  · subst hm
    have hle := h.le
    refine ⟨by rw [store_self]; omega, h.free, fun he => ?_⟩
    rw [store_self] at he
    omega
  · refine ⟨?_, h.free, ?_⟩
    · rw [store_of_ne _ _ hm]
      exact h.le
    · rw [store_of_ne _ _ hm]
      exact h.valid

/-- A check that the counter fools: it moved, and came around to the same 32 bits. -/
def Wraps (current v : Nat) : Prop := isValid current v = true ∧ current ≠ v

instance (current v : Nat) : Decidable (Wraps current v) :=
  inferInstanceAs (Decidable (_ ∧ _))

theorem Snapshot.of_isValid {P : Prop} (h : Snapshot version n v P)
    (hv : isValid (version n) v = true) (hwrap : ¬ Wraps (version n) v) : P :=
  h.valid (not_not.mp fun hne => hwrap ⟨hv, hne⟩)

end VersionLock
