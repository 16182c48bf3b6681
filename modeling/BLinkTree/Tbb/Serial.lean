import BLinkTree.Tbb.Sequential
import BLinkTree.Serial

/-! # Tasks, one at a time

The parent pointers lead a task that runs alone back along the nodes it came through, and
all of them cover its own key, which is the one that `execute` compares. The parent that
`insert_into_inner_node` writes is the one the separator has already.
-/

namespace BLinkTree.Tbb

open Linearization Interleaving

variable {c : Capacity} {t t' : Tree} {o : Op}

abbrev Goes (c : Capacity) : Tree → Pc → Tree → Pc → Prop := Walks (next c) Pc.result .go

theorem goes_descent {n m : Nat} {path path' : List Nat} (h : Descent t o.key n path m path') :
    Goes c t (.task o none n) t (.task o none m) := by
  induction h with
  | leaf _ _ _ => exact .refl
  | @inner n y m path path' _ hl hh hy _ _ ih =>
      have hs : next c t (.task o none n) .go = some (t, .task o none y, none) := by
        simp [next, execute, advance, not_le.mpr hh, hl, hy, Executed.pc]
      exact .head rfl hs ih

/-- The leaf step behind the descent. -/
theorem next_leaf {n m : Nat} {path path' : List Nat} (h : Descent t o.key n path m path')
    {x : Executed} (hx : work c t o none m = some x) :
    next c t (.task o none m) .go = some (x.tree, x.pc o, x.effect.map (.effect o)) := by
  have hh := not_le.mpr h.key_lt
  have hl := h.isLeaf
  simp [next, execute, advance, hh, hl, hx]

theorem next_inner {k p s x : Nat} {v : Value} (hh : k < (t.node p).highKey) {e : Executed}
    (he : insertIntoInnerNode c t p s x = some e) :
    next c t (.task (.insert k v) (some (x, s)) p) .go =
      some (e.tree, e.pc (.insert k v), e.effect.map (.effect (.insert k v))) := by
  have hnot : ¬ (t.node p).highKey ≤ (Op.insert k v).key := not_le.mpr hh
  simp [next, execute, advance, hnot, work, he]

theorem goUp_none {m x s : Nat} (h : t.parent m = none) (e : Option Value) :
    goUp t m x s e = ⟨t.createNewRoot m x s, some (x, s), none, e, true⟩ := by
  simp [goUp, h]

theorem goUp_some {m p x s : Nat} (h : t.parent m = some p) (e : Option Value) :
    goUp t m x s e = ⟨t, some (x, s), some p, e, false⟩ := by
  simp [goUp, h]

/-- The separator has the parent that the task writes. -/
theorem setParent_parent {x p : Nat} (h : t.parent x = some p) : t.setParent x (some p) = t := by
  unfold Tree.setParent
  rw [← h, Slots.store_eq_self]

theorem goes_ascent {k m : Nat} {v : Value} {path : List Nat} {up : Option (Nat × Nat)}
    (h : Ascent c k t m path up t') {x s : Nat} {e : Option Value} (hup : up = some (x, s))
    (he : e.getD 0 = 0) :
    Goes c (goUp t m x s e).tree ((goUp t m x s e).pc (.insert k v)) t'
      (.done (.insert k v) 0) := by
  induction h generalizing x s e with
  | stop => exact absurd hup (by simp)
  | newRoot _ hroot =>
      obtain ⟨rfl, rfl⟩ : _ = x ∧ _ = s := by simpa using hup
      rw [goUp_none hroot]
      simp only [Executed.pc, he]
      exact .refl
  | @parent t t₁ t' m p s' x' path up _ _ hk _ _ hparm _ hparx hins hrest ih =>
      obtain ⟨rfl, rfl⟩ : x' = x ∧ s' = s := by simpa using hup
      rw [goUp_some hparm]
      simp only [Tree.insertIntoInner] at hins
      split at hins
      next hf =>
        simp only [Option.some.injEq, Prod.mk.injEq] at hins
        rcases hins with ⟨rfl, rfl⟩
        rw [hrest.eq_of_none rfl]
        have hwork : insertIntoInnerNode c t p s' x' = some ⟨t.setNode p
            ((t.node p).insertSeparator ((t.node p).index s') x' s'), some (x', s'), none, none,
            true⟩ := by
          simp only [insertIntoInnerNode, hf, if_true]
          rw [setParent_parent (t := t.setNode p _) hparx]
        exact .head rfl (next_inner hk hwork) .refl
      next hf =>
        rcases Option.map_eq_some_iff.mp hins with ⟨⟨t2, x2, s2⟩, hsplit, heq⟩
        simp only [Prod.mk.injEq] at heq
        rcases heq with ⟨rfl, rfl⟩
        have hwork : insertIntoInnerNode c t p s' x' = some (goUp t2 p x2 s2 none) := by
          simp only [insertIntoInnerNode, hf, hsplit]
          rfl
        exact .head rfl (next_inner hk hwork) (ih rfl rfl)

/-- The leaf step of an insert and the way up. -/
theorem goes_insert {k n : Nat} {v : Value} {path : List Nat}
    (hd : Descent t k t.root [] n path)
    (hasc : Ascent c k (t.insertIntoLeaf c n k v).1 n path (t.insertIntoLeaf c n k v).2 t') :
    Goes c t (.task (.insert k v) none n) t' (.done (.insert k v) 0) := by
  have hs := next_leaf (c := c) (o := .insert k v) hd rfl
  rcases insertIntoLeaf_cases c t n k v with ⟨hk, he⟩ | ⟨hk, hf, he⟩ | ⟨hk, hf, he⟩
  · rw [he] at hasc
    rw [hasc.eq_of_none rfl]
    simp only [insertIntoLeafNode, if_pos hk] at hs
    exact .head rfl hs .refl
  · rw [he] at hasc
    rw [hasc.eq_of_none rfl]
    simp only [insertIntoLeafNode, if_neg hk, if_pos hf] at hs
    exact .head rfl hs .refl
  · rw [he] at hasc
    have hf' : ¬ (t.node n).isFull c = false := by simp [hf]
    simp only [insertIntoLeafNode, if_neg hk, if_neg hf'] at hs
    exact .head rfl hs (goes_ascent hasc rfl rfl)

/-- A task that runs alone is one operation on the tree. -/
theorem call_of_serial {r : Value} (h : Serial c t o t' r) :
    ∃ fuel, call c fuel t o = some (t', r) := by
  cases h with
  | @insert k n v path _ hd hasc =>
      have hdown : Goes c t (.task (.insert k v) none t.root) t (.task (.insert k v) none n) :=
        goes_descent hd
      exact (hdown.trans (goes_insert hd hasc)).solo rfl
  | @update k n v path hd =>
      have hdown : Goes c t (.task (.update k v) none t.root) t (.task (.update k v) none n) :=
        goes_descent hd
      have hs := next_leaf (c := c) (o := .update k v) hd rfl
      exact (hdown.trans (.head rfl hs .refl)).solo rfl
  | @find k n path hd =>
      have hdown : Goes c t (.task (.find k) none t.root) t (.task (.find k) none n) :=
        goes_descent hd
      have hs := next_leaf (c := c) (o := .find k) hd rfl
      exact (hdown.trans (.head rfl hs .refl)).solo rfl

end BLinkTree.Tbb
