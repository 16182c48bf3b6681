import BLinkTree.Latched.Owners
import BLinkTree.Optimistic.Owners

/-! # Balance under concurrent inserts

Both thread trees call `create_new_root` with the root of the moment, not with the node
that was split. Two inserts that started below the same root and both come to the end of
their paths stack two roots on each other, and the second one has children of two
levels. The trees stay balanced exactly as long as every new root finds the root on the
level of the node it was split for.
-/

namespace BLinkTree

open Linearization Interleaving

/-- A step that is no call of another operation than `insert`. -/
def Inserting : Latched.Act → Prop
  | .call (.insert k _) => k < maxKey
  | .call _ => False
  | .go => True

instance : (a : Latched.Act) → Decidable (Inserting a)
  | .call (.insert k _) => inferInstanceAs (Decidable (k < maxKey))
  | .call (.update _ _) => inferInstanceAs (Decidable False)
  | .call (.find _) => inferInstanceAs (Decidable False)
  | .go => inferInstanceAs (Decidable True)

theorem Latched.balanced_of_level {c : Capacity} {memory : Nat → Memory} {w : Latched.World}
    (hw : Reachable (Latched.next c)
      (fun w i a => Inserting a ∧ Latched.Level w.shared (w.thread i)) (Latched.init memory) w)
    (hidle : ∀ i, w.thread i = .idle) : Balanced w.shared := by
  have hlaid : ∃ g, Layout True c w.shared g ∧
      ∀ i, Latched.Owns True i w.shared g (w.thread i) :=
    Latched.laid_out (fun _ _ _ _ hok => hok.2) hw
  rcases hlaid with ⟨g, h, hall⟩
  refine h.balanced (settled_of_bears fun i => ?_)
  have hown := hall i
  rw [hidle i] at hown
  exact hown.1

theorem Optimistic.balanced_of_level {c : Capacity} {memory : Nat → Memory}
    {w : Optimistic.World}
    (hw : Reachable (Optimistic.next c)
      (fun w i a => Inserting a ∧ Optimistic.Level w.shared.tree (w.thread i))
      (Optimistic.init memory) w)
    (hidle : ∀ i, w.thread i = .idle) : Balanced w.shared.tree := by
  have hlaid : ∃ g, Layout True c w.shared.tree g ∧
      ∀ i, Optimistic.Owns True i w.shared.tree g (w.thread i) :=
    Optimistic.laid_out (fun _ _ _ _ hok => hok.2) hw
  rcases hlaid with ⟨g, h, hall⟩
  refine h.balanced (settled_of_bears fun i => ?_)
  have hown := hall i
  rw [hidle i] at hown
  rcases hown with hown | hown
  · exact hown.elim
  · exact hown.1

/-- In both thread trees: when all inserts have returned and every new root was created on
the level of the node it was split for, the tree is balanced. -/
theorem balanced_of_level_roots (c : Capacity) (memory : Nat → Memory) :
    (∀ w, Reachable (Latched.next c)
        (fun w i a => Inserting a ∧ Latched.Level w.shared (w.thread i)) (Latched.init memory) w →
      (∀ i, w.thread i = .idle) → Balanced w.shared) ∧
    ∀ w, Reachable (Optimistic.next c)
        (fun w i a => Inserting a ∧ Optimistic.Level w.shared.tree (w.thread i))
        (Optimistic.init memory) w →
      (∀ i, w.thread i = .idle) → Balanced w.shared.tree :=
  ⟨fun _ hw hidle => Latched.balanced_of_level hw hidle,
    fun _ hw hidle => Optimistic.balanced_of_level hw hidle⟩

/-- The threads of `Latched.twoRoots` in the optimistic tree. -/
def Optimistic.twoRoots : List (Nat × Latched.Act) :=
  (0, .call (.insert 10 1)) :: List.replicate 10 (0, .go) ++
    (0, .call (.insert 20 2)) :: List.replicate 10 (0, .go) ++
    [(0, .call (.insert 30 3)), (1, .call (.insert 40 4)), (0, .go), (1, .go)] ++
    List.replicate 8 (0, .go) ++ List.replicate 13 (1, .go) ++
    [(0, .go), (1, .go), (0, .go), (1, .go)]

def Optimistic.Pc.isIdle : Optimistic.Pc → Bool
  | idle => true
  | _ => false

theorem Optimistic.Pc.eq_idle {pc : Optimistic.Pc} (h : pc.isIdle = true) : pc = .idle := by
  cases pc with
  | idle => rfl
  | _ => simp [Optimistic.Pc.isIdle] at h

/-- Three inserts of one thread; the last one splits the leaf and creates a root. -/
def Latched.oneRoot : List (Nat × Latched.Act) :=
  (0, .call (.insert 10 1)) :: List.replicate 3 (0, .go) ++
    (0, .call (.insert 20 2)) :: List.replicate 3 (0, .go) ++
    (0, .call (.insert 30 3)) :: List.replicate 4 (0, .go)

def Optimistic.oneRoot : List (Nat × Latched.Act) :=
  (0, .call (.insert 10 1)) :: List.replicate 10 (0, .go) ++
    (0, .call (.insert 20 2)) :: List.replicate 10 (0, .go) ++
    (0, .call (.insert 30 3)) :: List.replicate 11 (0, .go)

theorem balanced_of_level_roots_one_root :
    (∃ w, run (Latched.next .smallest)
        (fun w i a => Inserting a ∧ Latched.Level w.shared (w.thread i))
        (Latched.init fun _ => .zero) Latched.oneRoot = some w ∧ w.shared.height = 2 ∧
        Balanced w.shared) ∧
    ∃ w, run (Optimistic.next .smallest)
        (fun w i a => Inserting a ∧ Optimistic.Level w.shared.tree (w.thread i))
        (Optimistic.init fun _ => .zero) Optimistic.oneRoot = some w ∧
        w.shared.tree.height = 2 ∧ Balanced w.shared.tree := by
  constructor
  · have hrun : (run (Latched.next .smallest)
        (fun w i a => Inserting a ∧ Latched.Level w.shared (w.thread i))
        (Latched.init fun _ => .zero) Latched.oneRoot).map
        (fun w => (w.shared.height, w.thread 0, w.thread 1)) = some (2, .idle, .idle) := by decide
    rcases Option.map_eq_some_iff.mp hrun with ⟨w, hw, hstate⟩
    simp only [Prod.mk.injEq] at hstate
    rcases hstate with ⟨hheight, h0, h1⟩
    have hidle : ∀ i, w.thread i = .idle := thread_of_run_pair (fun _ => rfl) (by decide) hw h0 h1
    exact ⟨w, hw, hheight,
      (balanced_of_level_roots .smallest _).1 w (Reachable.start.of_run hw) hidle⟩
  · have hrun : (run (Optimistic.next .smallest)
        (fun w i a => Inserting a ∧ Optimistic.Level w.shared.tree (w.thread i))
        (Optimistic.init fun _ => .zero) Optimistic.oneRoot).map
        (fun w => (w.shared.tree.height, (w.thread 0).isIdle, (w.thread 1).isIdle)) =
        some (2, true, true) := by decide
    rcases Option.map_eq_some_iff.mp hrun with ⟨w, hw, hstate⟩
    simp only [Prod.mk.injEq] at hstate
    rcases hstate with ⟨hheight, h0, h1⟩
    have hidle : ∀ i, w.thread i = .idle :=
      thread_of_run_pair (fun _ => rfl) (by decide) hw (Optimistic.Pc.eq_idle h0)
        (Optimistic.Pc.eq_idle h1)
    exact ⟨w, hw, hheight,
      (balanced_of_level_roots .smallest _).2 w (Reachable.start.of_run hw) hidle⟩

/-- The second root, node 4, has an inner node and a leaf below it. -/
theorem roots_stacked :
    (∃ w, Reachable (Latched.next .smallest) (fun _ _ a => Inserting a)
        (Latched.init fun _ => .zero) w ∧ (∀ i, w.thread i = .idle) ∧ ¬ Balanced w.shared) ∧
    ∃ w, Reachable (Optimistic.next .smallest) (fun _ _ a => Inserting a)
        (Optimistic.init fun _ => .zero) w ∧ (∀ i, w.thread i = .idle) ∧
        ¬ Balanced w.shared.tree := by
  constructor
  · have hrun : (run (Latched.next .smallest) (fun _ _ a => Inserting a)
        (Latched.init fun _ => .zero) Latched.twoRoots).map
        (fun w => (w.shared.count, w.shared.isLevelValid 4, w.thread 0, w.thread 1)) =
        some (5, some false, .idle, .idle) := by decide
    rcases Option.map_eq_some_iff.mp hrun with ⟨w, hw, hstate⟩
    simp only [Prod.mk.injEq] at hstate
    rcases hstate with ⟨hcount, hlevel, h0, h1⟩
    have hidle : ∀ i, w.thread i = .idle := thread_of_run_pair (fun _ => rfl) (by decide) hw h0 h1
    exact ⟨w, Reachable.start.of_run hw, hidle, not_balanced (by omega) hlevel⟩
  · have hrun : (run (Optimistic.next .smallest) (fun _ _ a => Inserting a)
        (Optimistic.init fun _ => .zero) Optimistic.twoRoots).map
        (fun w => (w.shared.tree.count, w.shared.tree.isLevelValid 4, (w.thread 0).isIdle,
          (w.thread 1).isIdle)) = some (5, some false, true, true) := by decide
    rcases Option.map_eq_some_iff.mp hrun with ⟨w, hw, hstate⟩
    simp only [Prod.mk.injEq] at hstate
    rcases hstate with ⟨hcount, hlevel, h0, h1⟩
    have hidle : ∀ i, w.thread i = .idle :=
      thread_of_run_pair (fun _ => rfl) (by decide) hw (Optimistic.Pc.eq_idle h0)
        (Optimistic.Pc.eq_idle h1)
    exact ⟨w, Reachable.start.of_run hw, hidle, not_balanced (by omega) hlevel⟩

end BLinkTree
