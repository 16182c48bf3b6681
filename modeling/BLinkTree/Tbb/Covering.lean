import BLinkTree.Tbb.Olfit

/-! # Leaf writes behind an upgrade

The builds with reader-writer latches and the build with optimistic latches compare the
high key before they have the node for themselves. A split in between moves the key to
the new leaf, and the task writes into the old one. This is the only way in which a leaf
write can miss the leaf that covers its key.
-/

namespace BLinkTree.Tbb

open Linearization Interleaving

/-- In all runs in which no leaf section cuts off the key of a task that waits for its
leaf, both kinds of builds write only into the leaf that covers the key; the history
explains the content, and lookups find every present key. -/
theorem upgraded_writes_covered (c : Capacity) (memory : Nat → Memory) :
    (∀ w : ReadWrite.World,
      Reachable (ReadWrite.next c) (ReadWrite.Careful c) (ReadWrite.init memory) w →
      (∀ i a o n, ReadWrite.leafWrite w.shared (w.thread i) a = some (o, n) →
        w.shared.Covers n o.key) ∧
      Explains w.history w.shared.content ∧
      ∀ k < maxKey, ∀ v, OrderedMap.get? k w.shared.content = some v →
        ∃ fuel, lookup c fuel w.shared k = some (w.shared, v)) ∧
    (∀ w : Olfit.World, Reachable (Olfit.next c) (Olfit.Careful c) (Olfit.init memory) w →
      (∀ i a o n, Olfit.leafWrite w.shared (w.thread i) a = some (o, n) →
        w.shared.tree.Covers n o.key) ∧
      Explains w.history w.shared.tree.content ∧
      ∀ k < maxKey, ∀ v, OrderedMap.get? k w.shared.tree.content = some v →
        ∃ fuel, lookup c fuel w.shared.tree k = some (w.shared.tree, v)) :=
  ⟨fun _ hw => ReadWrite.covers_of_careful hw, fun _ hw => Olfit.covers_of_careful hw⟩

/-- Two inserts fill the first leaf. The third task has found it for its key and gives up
the shared latch in its upgrade, and a fourth one splits it at 20. -/
def splitUpgrade (waiting splitting : Nat) : List (Nat × ReadWrite.Act) :=
  [(0, .base (.spawn (.insert 10 1))), (0, .base .go), (1, .base (.spawn (.insert 20 2))),
    (1, .base .go), (2, .base (.spawn (.insert waiting 3))), (2, .release),
    (3, .base (.spawn (.insert splitting 4))), (3, .base .go)]

/-- The same in the build with optimistic latches: the third task has left its loop, and it
acquires the leaf behind the split. -/
def splitAcquire (waiting splitting : Nat) : List (Nat × Act) :=
  [(0, .spawn (.insert 10 1))] ++ List.replicate 6 (0, .go) ++
    [(1, .spawn (.insert 20 2))] ++ List.replicate 6 (1, .go) ++
    [(2, .spawn (.insert waiting 3)), (2, .go), (2, .go), (2, .go)] ++
    [(3, .spawn (.insert splitting 4))] ++ List.replicate 6 (3, .go) ++ [(2, .go)]

/-- The split leaves key 5 where it was, and the third task writes where its key belongs. -/
theorem upgraded_writes_covered_beside_split :
    (∃ w, Reachable (ReadWrite.next .smallest) (ReadWrite.Careful .smallest)
        (ReadWrite.init fun _ => .zero) w ∧
      ReadWrite.leafWrite w.shared (w.thread 2) (.base .go) = some (.insert 5 3, 0) ∧
      (w.shared.node 0).highKey = 20 ∧ w.shared.Covers 0 5) ∧
    ∃ w, Reachable (Olfit.next .smallest) (Olfit.Careful .smallest)
        (Olfit.init fun _ => .zero) w ∧
      Olfit.leafWrite w.shared (w.thread 2) .go = some (.insert 5 3, 0) ∧
      (w.shared.tree.node 0).highKey = 20 ∧ w.shared.tree.Covers 0 5 := by
  have hboth := upgraded_writes_covered .smallest fun _ => .zero
  constructor
  · have hrun : (run (ReadWrite.next .smallest) (ApartBelow ReadWrite.Valid
        (ReadWrite.Harmless .smallest) 4) (ReadWrite.init fun _ => .zero) (splitUpgrade 5 30)).map
        (fun w => (ReadWrite.leafWrite w.shared (w.thread 2) (.base .go),
          (w.shared.node 0).highKey)) = some (some (.insert 5 3, 0), 20) := by decide
    rcases Option.map_eq_some_iff.mp hrun with ⟨w, hw, hstate⟩
    simp only [Prod.mk.injEq] at hstate
    have hreach : Reachable (ReadWrite.next .smallest) (ReadWrite.Careful .smallest)
        (ReadWrite.init fun _ => .zero) w :=
      Reachable.of_run_apart (.base .idle)
        (fun t pc a => spares_none Capacity.smallest t _) (fun _ _ => rfl) hw
    exact ⟨w, hreach, hstate.1, hstate.2, (hboth.1 w hreach).1 2 _ _ 0 hstate.1⟩
  · have hrun : (run (Olfit.next .smallest) (ApartBelow Olfit.Valid (Olfit.Harmless .smallest) 4)
        (Olfit.init fun _ => .zero) (splitAcquire 5 30)).map
        (fun w => (Olfit.leafWrite w.shared (w.thread 2) .go,
          (w.shared.tree.node 0).highKey)) = some (some (.insert 5 3, 0), 20) := by decide
    rcases Option.map_eq_some_iff.mp hrun with ⟨w, hw, hstate⟩
    simp only [Prod.mk.injEq] at hstate
    have hreach : Reachable (Olfit.next .smallest) (Olfit.Careful .smallest)
        (Olfit.init fun _ => .zero) w :=
      Reachable.of_run_apart .idle
        (fun s pc a => spares_none Capacity.smallest s.tree _) (fun _ _ => rfl) hw
    exact ⟨w, hreach, hstate.1, hstate.2, (hboth.2 w hreach).1 2 _ _ 0 hstate.1⟩

/-- For key 30 the third task writes into the leaf that now ends at 20; when it has returned, a
lookup of 30 gives 0. -/
theorem upgraded_write_misses :
    (∃ w w', Reachable (ReadWrite.next .smallest)
        (fun w i a => ReadWrite.Valid w.shared (w.thread i) a) (ReadWrite.init fun _ => .zero) w ∧
      ReadWrite.leafWrite w.shared (w.thread 2) (.base .go) = some (.insert 30 3, 0) ∧
      (w.shared.node 0).highKey = 20 ∧
      run (ReadWrite.next .smallest) (fun w i a => ReadWrite.Valid w.shared (w.thread i) a) w
        (List.replicate 3 (2, .base .go)) = some w' ∧
      w'.history.head? = some (2, .ret (.insert 30 3) 0) ∧
      (lookup .smallest 5 w'.shared 30).map Prod.snd = some 0) ∧
    ∃ w w', Reachable (Olfit.next .smallest)
        (fun w i a => Olfit.Valid w.shared (w.thread i) a) (Olfit.init fun _ => .zero) w ∧
      Olfit.leafWrite w.shared (w.thread 2) .go = some (.insert 30 3, 0) ∧
      (w.shared.tree.node 0).highKey = 20 ∧
      run (Olfit.next .smallest) (fun w i a => Olfit.Valid w.shared (w.thread i) a) w
        (List.replicate 9 (2, .go)) = some w' ∧
      w'.history.head? = some (2, .ret (.insert 30 3) 0) ∧
      (lookup .smallest 5 w'.shared.tree 30).map Prod.snd = some 0 := by
  constructor
  · have hrun : (run (ReadWrite.next .smallest)
        (fun w i a => ReadWrite.Valid w.shared (w.thread i) a) (ReadWrite.init fun _ => .zero)
        (splitUpgrade 30 5)).map (fun w => (ReadWrite.leafWrite w.shared (w.thread 2) (.base .go),
          (w.shared.node 0).highKey)) = some (some (.insert 30 3, 0), 20) := by decide
    have hrest : (run (ReadWrite.next .smallest)
        (fun w i a => ReadWrite.Valid w.shared (w.thread i) a) (ReadWrite.init fun _ => .zero)
        (splitUpgrade 30 5)).bind (fun w => (run (ReadWrite.next .smallest)
          (fun w i a => ReadWrite.Valid w.shared (w.thread i) a) w
          (List.replicate 3 (2, .base .go))).map fun w => (w.history.head?,
            (lookup .smallest 5 w.shared 30).map Prod.snd)) =
        some (some (2, .ret (.insert 30 3) 0), some 0) := by decide
    rcases Reachable.of_run_run hrun hrest with ⟨w, w', hw, hstate, hw', hend⟩
    simp only [Prod.mk.injEq] at hstate hend
    exact ⟨w, w', hw, hstate.1, hstate.2, hw', hend.1, hend.2⟩
  · have hrun : (run (Olfit.next .smallest)
        (fun w i a => Olfit.Valid w.shared (w.thread i) a) (Olfit.init fun _ => .zero)
        (splitAcquire 30 5)).map (fun w => (Olfit.leafWrite w.shared (w.thread 2) .go,
          (w.shared.tree.node 0).highKey)) = some (some (.insert 30 3, 0), 20) := by decide
    have hrest : (run (Olfit.next .smallest)
        (fun w i a => Olfit.Valid w.shared (w.thread i) a) (Olfit.init fun _ => .zero)
        (splitAcquire 30 5)).bind (fun w => (run (Olfit.next .smallest)
          (fun w i a => Olfit.Valid w.shared (w.thread i) a) w
          (List.replicate 9 (2, .go))).map fun w => (w.history.head?,
            (lookup .smallest 5 w.shared.tree 30).map Prod.snd)) =
        some (some (2, .ret (.insert 30 3) 0), some 0) := by decide
    rcases Reachable.of_run_run hrun hrest with ⟨w, w', hw, hstate, hw', hend⟩
    simp only [Prod.mk.injEq] at hstate hend
    exact ⟨w, w', hw, hstate.1, hstate.2, hw', hend.1, hend.2⟩

end BLinkTree.Tbb
