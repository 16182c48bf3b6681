import BLinkTree.Latched.Sequential
import BLinkTree.Optimistic.Sequential
import BLinkTree.Tbb.Sequential

/-! # Absent keys

`find` and `update` of the thread trees and the tasks for lookups and updates search the
leaf that covers the key, and all of them read the slot that `Node::index` returns. The
search stays on live slots exactly when that leaf has a live key that is not smaller.
-/

namespace BLinkTree

/-- For all trees that sequential inserts build, in any memory: which slots a search touches,
what it finds, and when two trees answer alike. -/
theorem searches_of_grown (c : Capacity) (memory memory' : Nat → Memory) :
    GrownSearches c id (Latched.call c) (Tree.empty memory) (Tree.empty memory') ∧
      GrownSearches c VersionedTree.tree (Optimistic.call c) (VersionedTree.empty memory)
        (VersionedTree.empty memory') ∧
      GrownSearches c id (Tbb.call c) (Tree.empty memory) (Tree.empty memory') := by
  have hinv : ∀ memory, ∃ g : Ghost Nat, Inv c (Tree.empty memory) g :=
    fun memory => ⟨Ghost.initial Nat, inv_empty c memory⟩
  have hfree : VersionLock.isLocked 4 = false := by decide
  have hsound : ∀ memory, ∃ g : Ghost Nat, Tbb.Sound False c (Tree.empty memory) g :=
    fun memory => ⟨Ghost.initial Nat, Tbb.sound_empty False c memory⟩
  refine ⟨?_, ?_, ?_⟩
  · exact (Latched.serves c).grownSearches (hinv memory) (hinv memory')
  · exact (Optimistic.serves c).grownSearches ⟨hinv memory, fun _ => hfree⟩
      ⟨hinv memory', fun _ => hfree⟩
  · exact (Tbb.serves c).grownSearches (hsound memory) (hsound memory')

/-- Memory that holds key 5 and value 7 in every slot. -/
def fives : Memory := ⟨fun _ => 5, fun _ => 7, fun _ => none⟩

/-- In such memory, the full leaf with the keys 10 and 20 answers for key 15, and for key 30,
where the search compares the first value. -/
theorem searches_of_grown_two_inserts :
    ∃ t, Grown (Latched.call .smallest) (Tree.empty fun _ => fives) t ∧
      t.content = [(10, 1), (20, 2)] ∧
      (∃ n, SearchesLeaf .smallest id (Latched.call .smallest) t 15 n) ∧
      ∃ n, SearchesLeaf .smallest id (Latched.call .smallest) t 30 n := by
  have hrun : ((Latched.call .smallest 9 (Tree.empty fun _ => fives) (.insert 10 1)).bind fun x =>
      (Latched.call .smallest 9 x.1 (.insert 20 2)).map fun y => y.1.content) =
      some [(10, 1), (20, 2)] := by decide
  rcases Option.bind_eq_some_iff.mp hrun with ⟨⟨t1, r1⟩, h1, hrest⟩
  rcases Option.map_eq_some_iff.mp hrest with ⟨⟨t2, r2⟩, h2, hcontent⟩
  have hgrown : Grown (Latched.call .smallest) (Tree.empty fun _ => fives) t2 :=
    (Grown.fresh.insert (by decide) h1).insert (by decide) h2
  have hall := (searches_of_grown .smallest (fun _ => fives) fun _ => fives).1.covering
  exact ⟨t2, hgrown, hcontent, hall t2 hgrown 15 (by decide), hall t2 hgrown 30 (by decide)⟩

/-- The results of calls one after the other. -/
def answers {σ : Type} (call : Nat → σ → Op → Option (σ × Value)) (fuel : Nat) :
    σ → List Op → Option (List Value)
  | _, [] => some []
  | s, o :: ops => (call fuel s o).bind fun x => (answers call fuel x.1 ops).map (x.2 :: ·)

/-- Two fresh trees without any binding. The one in cleared memory gives 0 for key 5; in the
other one the search reads the first dead slot and gives 7, and an update of the absent key
is what the next `find` gives. In a full leaf with the values 30 and 2 the search for the
absent key 30 compares the first value and gives the word behind the values. -/
theorem dead_slot_found :
    (Tree.empty fun _ => fives).content = [] ∧
      ¬ ((Tree.empty fun _ => fives).node 0).SearchesLive 5 ∧
      (∀ call ∈ [Latched.call .smallest, Tbb.call .smallest],
        answers call 9 (Tree.empty fun _ => .zero) [.find 5] = some [0] ∧
        answers call 9 (Tree.empty fun _ => fives) [.find 5, .update 5 8, .find 5] =
          some [7, 0, 8] ∧
        answers call 9 (Tree.empty fun _ => fives)
          [.insert 10 30, .insert 20 2, .find 30, .update 30 8, .find 30] =
          some [0, 0, 7, 0, 8]) ∧
      answers (Optimistic.call .smallest) 20 (VersionedTree.empty fun _ => .zero) [.find 5] =
        some [0] ∧
      answers (Optimistic.call .smallest) 20 (VersionedTree.empty fun _ => fives)
        [.find 5, .update 5 8, .find 5] = some [7, 0, 8] ∧
      answers (Optimistic.call .smallest) 20 (VersionedTree.empty fun _ => fives)
        [.insert 10 30, .insert 20 2, .find 30, .update 30 8, .find 30] =
        some [0, 0, 7, 0, 8] := by
  have hdead : ¬ ((Tree.empty fun _ => fives).node 0).SearchesLive 5 := by
    rw [Node.searchesLive_iff_index]
    decide
  refine ⟨by decide, hdead, ?_, by decide, by decide, by decide⟩
  intro call hcall
  rcases List.mem_cons.mp hcall with rfl | hcall
  · exact ⟨by decide, by decide, by decide⟩
  · rw [List.mem_singleton.mp hcall]
    exact ⟨by decide, by decide, by decide⟩

end BLinkTree
