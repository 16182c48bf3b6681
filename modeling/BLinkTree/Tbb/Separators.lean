import BLinkTree.Tbb.Linearizable

/-! # Separators outside their node

`InsertTask::execute` moves right by the key of the task also when the task carries a
separator, while the propagation of the thread trees moves right by the separator key.
The separators stay in the ranges of their nodes exactly as long as both keys of every
such task fall on the same side of the high keys it meets.
-/

namespace BLinkTree.Tbb

open Linearization Interleaving

/-- The keys of every inner node lie in `[low, high_key)`. -/
def InRange (t : Tree) : Prop :=
  ∀ n < t.count, (t.node n).isLeaf = false →
    ∀ k ∈ (t.node n).liveKeys, t.lowKey n ≤ k ∧ k < (t.node n).highKey

theorem inRange_of_rangeInv {c : Capacity} {t : Tree} {g : Ghost Nat} (h : Inv c t g)
    (hr : RangeInv t g) : InRange t := by
  intro n hn hl k hk
  rw [Node.liveKeys_of_inner hl] at hk
  rcases List.mem_map.mp hk with ⟨e, he, rfl⟩
  rw [h.lowKey_eq hn]
  exact hr n hn e he

/-- As long as no task carries its separator past the wrong side of a high key, all
separators stay in range. -/
theorem inRange_of_straight (c : Capacity) (memory : Nat → Memory) (w : World)
    (hw : Reachable (next c) (fun w i a => a.Valid ∧ Straight w.shared (w.thread i))
      (init memory) w) : InRange w.shared := by
  rcases safe True (fun _ _ _ hok => hok.1) (fun _ _ _ _ hok => hok.2) hw with
    ⟨g, hsound, _, _⟩
  exact inRange_of_rangeInv hsound.inv (hsound.range trivial)

/-- Task 4 splits the first leaf at 100 and is on its way to the root. Before it arrives,
tasks 5 and 6 split the left half again, and task 6 splits the root at 80. -/
def earlySeparators : List (Nat × Act) :=
  [(0, .spawn (.insert 100 1)), (0, .go), (1, .spawn (.insert 200 2)), (1, .go),
    (2, .spawn (.insert 300 3)), (2, .go), (3, .spawn (.insert 50 4)), (3, .go), (3, .go),
    (4, .spawn (.insert 70 5)), (4, .go), (4, .go),
    (5, .spawn (.insert 80 6)), (5, .go), (5, .go), (5, .go),
    (6, .spawn (.insert 75 7)), (6, .go), (6, .go), (6, .go)]

/-- Tasks 5 and 6 have carried their separators to the root, and that of task 4 is still on its
way. -/
theorem inRange_of_straight_before_late_separator :
    ∃ w, run (next .smallest) (fun w i a => a.Valid ∧ Straight w.shared (w.thread i))
        (init fun _ => .zero) earlySeparators = some w ∧
      (w.shared.node 2).liveKeys = [70] ∧ (w.shared.node 2).highKey = 80 ∧ InRange w.shared := by
  have hrun : (run (next .smallest) (fun w i a => a.Valid ∧ Straight w.shared (w.thread i))
      (init fun _ => .zero) earlySeparators).map (fun w => ((w.shared.node 2).liveKeys,
        (w.shared.node 2).highKey)) = some ([70], 80) := by decide
  rcases Option.map_eq_some_iff.mp hrun with ⟨w, hw, hstate⟩
  simp only [Prod.mk.injEq] at hstate
  exact ⟨w, hw, hstate.1, hstate.2,
    inRange_of_straight .smallest _ w (Reachable.start.of_run hw)⟩

/-- Task 4 arrives. -/
def lateSeparator : List (Nat × Act) := earlySeparators ++ [(4, .go)]

/-- The old root, node 2, then ends at 80 and holds the key 100. -/
theorem separator_out_of_range :
    ∃ w, Reachable (next .smallest) (fun _ _ a => a.Valid) (init fun _ => .zero) w ∧
      ¬ InRange w.shared := by
  have hrun : (run (next .smallest) (fun _ _ a => a.Valid) (init fun _ => .zero)
      lateSeparator).map (fun w => (w.shared.count, (w.shared.node 2).isLeaf,
        (w.shared.node 2).liveKeys, (w.shared.node 2).highKey)) =
      some (8, false, [70, 100], 80) := by decide
  rcases Option.map_eq_some_iff.mp hrun with ⟨w, hw, hstate⟩
  simp only [Prod.mk.injEq] at hstate
  rcases hstate with ⟨hcount, hleaf, hkeys, hhigh⟩
  refine ⟨w, Reachable.start.of_run hw, fun hin => ?_⟩
  have hlast := hin 2 (by omega) hleaf 100 (by simp [hkeys])
  omega

end BLinkTree.Tbb
