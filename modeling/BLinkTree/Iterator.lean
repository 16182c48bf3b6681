import BLinkTree.Shape

/-! # The iterator over the nodes

`TreeIterator` of `tree.h`. It goes along the right siblings, and behind the last node of
a level that has inner nodes it goes on with the first child of the first node of the
level.
-/

namespace BLinkTree

structure TreeIterator where
  currentNode : Option Nat
  firstNodeInLevel : Option Nat

/-- `TreeIterator::operator++`; it has no result when it follows a null pointer. -/
def TreeIterator.advance (t : Tree) (it : TreeIterator) : Option TreeIterator :=
  it.currentNode.bind fun n =>
    match (t.node n).rightSibling with
    | some r => some { it with currentNode := some r }
    | none =>
        if (t.node n).isLeaf then some { it with currentNode := none }
        else it.firstNodeInLevel.map fun first =>
          ⟨(t.node first).separators 0, (t.node first).separators 0⟩

/-- `Tree::begin`. -/
def Tree.begin (t : Tree) : TreeIterator := ⟨some t.root, some t.root⟩

/-- The nodes of `for (auto node : tree)`, from an iterator on up to `Tree::end`. -/
def Tree.visited (t : Tree) : Nat → TreeIterator → Option (List Nat)
  | 0, _ => none
  | fuel + 1, it =>
      match it.currentNode with
      | none => some []
      | some n => (it.advance t).bind fun next => (t.visited fuel next).map (n :: ·)

variable {t : Tree} {n y : Nat} {l nodes : List Nat} {fuel fuel' : Nat} {it : TreeIterator}

theorem visited_mono (hf : fuel ≤ fuel') (h : t.visited fuel it = some nodes) :
    t.visited fuel' it = some nodes := by
  induction fuel generalizing fuel' it nodes with
  | zero => simp [Tree.visited] at h
  | succ fuel ih =>
      obtain ⟨f, rfl⟩ : ∃ f, fuel' = f + 1 := ⟨fuel' - 1, by omega⟩
      cases hc : it.currentNode with
      | none =>
          simp only [Tree.visited, hc] at h ⊢
          exact h
      | some n =>
          simp only [Tree.visited, hc, Option.bind_eq_some_iff, Option.map_eq_some_iff] at h ⊢
          rcases h with ⟨next, hnext, rest, hrest, rfl⟩
          exact ⟨next, hnext, rest, ih (by omega) hrest, rfl⟩

/-- Where the iterator goes behind the last node `n` of a level that starts with `first`. -/
def Tree.nextLevel (t : Tree) (n first : Nat) : TreeIterator :=
  if (t.node n).isLeaf then ⟨none, some first⟩
  else ⟨(t.node first).separators 0, (t.node first).separators 0⟩

theorem advance_right {r : Nat} (hr : (t.node n).rightSibling = some r) (first : Option Nat) :
    TreeIterator.advance t ⟨some n, first⟩ = some ⟨some r, first⟩ := by
  simp [TreeIterator.advance, hr]

theorem advance_last (hr : (t.node n).rightSibling = none) (first : Nat) :
    TreeIterator.advance t ⟨some n, some first⟩ = some (t.nextLevel n first) := by
  simp only [TreeIterator.advance, Option.bind_some, hr, Tree.nextLevel]
  split <;> rfl

/-- The iterator goes through a linked level. -/
theorem visited_level {first : Nat} (hlink : Linked t (n :: l)) (fuel : Nat) :
    t.visited (fuel + (n :: l).length) ⟨some n, some first⟩ =
      (t.visited fuel (t.nextLevel ((n :: l).getLast (List.cons_ne_nil n l)) first)).map
        (n :: l ++ ·) := by
  induction l generalizing n with
  | nil =>
      show (TreeIterator.advance t ⟨some n, some first⟩).bind _ = _
      rw [advance_last hlink.1, Option.bind_some]
      rfl
  | cons r l ih =>
      rw [List.length_cons, ← Nat.add_assoc]
      show (TreeIterator.advance t ⟨some n, some first⟩).bind _ = _
      rw [advance_right hlink.1, Option.bind_some, ih hlink.2, Option.map_map]
      rfl

/-- The first child of the first node of a level starts the next level. -/
theorem row_succ_eq_cons {d : Nat} (hrow : t.row d = n :: l) (hl : (t.node n).isLeaf = false)
    (hy : (t.node n).separators 0 = some y) : ∃ rest, t.row (d + 1) = y :: rest := by
  have hchildren : ∃ rest, (t.node n).children.reduceOption = y :: rest := by
    rw [Node.children_of_inner hl]
    have hfirst : (t.node n).first = some y := by simp [Node.first, hl, hy]
    rw [hfirst, List.reduceOption_cons_of_some]
    exact ⟨_, rfl⟩
  rcases hchildren with ⟨rest, hrest⟩
  refine ⟨rest ++ l.flatMap fun m => (t.node m).children.reduceOption, ?_⟩
  rw [Tree.row, hrow, List.flatMap_cons, hrest, List.cons_append]

/-- The iterator goes through the levels of a tree whose leaves are all on the lowest one. -/
theorem visited_rows {height : Nat} (hlink : ∀ d, Linked t (t.row d))
    (hkind : ∀ d, ∀ n ∈ t.row d, (t.node n).isLeaf = true ↔ d + 1 = height)
    (hfirst : ∀ d, ∀ n ∈ t.row d, (t.node n).isLeaf = false →
      ∃ y, (t.node n).separators 0 = some y)
    (k d : Nat) (hd : d + k + 1 = height) (hrow : t.row d = n :: l) :
    ∃ fuel, t.visited fuel ⟨some n, some n⟩ = some ((List.range' d (k + 1)).flatMap t.row) := by
  induction k generalizing d n l with
  | zero =>
      have hlevel := hlink d
      rw [hrow] at hlevel
      have hmem : ∀ m ∈ n :: l, m ∈ t.row d := fun m hm => by rwa [hrow]
      have hl : (t.node ((n :: l).getLast (List.cons_ne_nil n l))).isLeaf = true :=
        (hkind d _ (hmem _ (List.getLast_mem _))).mpr hd
      have hend : t.nextLevel ((n :: l).getLast (List.cons_ne_nil n l)) n = ⟨none, some n⟩ :=
        if_pos hl
      refine ⟨1 + (n :: l).length, ?_⟩
      rw [visited_level hlevel, hend, Nat.zero_add, List.range'_one, List.flatMap_singleton, hrow]
      simp [Tree.visited]
  | succ k ih =>
      have hlevel := hlink d
      rw [hrow] at hlevel
      have hinner : ∀ m ∈ n :: l, (t.node m).isLeaf = false := by
        intro m hm
        rw [← hrow] at hm
        refine Bool.eq_false_iff.mpr fun hl => ?_
        have := (hkind d m hm).mp hl
        omega
      have hn := hinner n (List.mem_cons_self ..)
      rcases hfirst d n (by rw [hrow]; exact List.mem_cons_self ..) hn with ⟨y, hy⟩
      rcases row_succ_eq_cons hrow hn hy with ⟨rest, hnext⟩
      rcases ih (d + 1) (by omega) hnext with ⟨fuel, hrun⟩
      have hlast := hinner _ (List.getLast_mem (List.cons_ne_nil n l))
      have hdown : t.nextLevel ((n :: l).getLast (List.cons_ne_nil n l)) n = ⟨some y, some y⟩ := by
        rw [Tree.nextLevel, if_neg (by simp [hlast]), hy]
      refine ⟨fuel + (n :: l).length, ?_⟩
      have hrange : List.range' d (k + 1 + 1) = d :: List.range' (d + 1) (k + 1) := List.range'_succ
      rw [visited_level hlevel, hdown, hrun, Option.map_some, hrange, List.flatMap_cons, hrow]

end BLinkTree
