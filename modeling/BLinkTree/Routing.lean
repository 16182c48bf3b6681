import BLinkTree.Node

/-! # Routing in one inner node

`Node::child` searches with signed 16-bit bounds for the last key that is not above the
searched one, `Node::index` with `std::lower_bound` for the first key that is not below
it, and `Node::insert_separator` opens a slot in two arrays at different offsets. The two
searches count keys, and a separator inserted at the index of its key receives the
searches from that key up to the next larger one.
-/

namespace BLinkTree

namespace Node

/-- The loop of `Node::child` with a bound on its rounds: `none` means that the condition
of the loop still holds behind the last round. -/
def childRounds (keys : Nat → Nat) (key : Nat) : Nat → Int → Int → Option Int
  | 0, low, high => if low ≤ high then none else some high
  | rounds + 1, low, high =>
      if low ≤ high then
        let mid := int16 ((low + high) / 2)
        if keys mid.toNat ≤ key then childRounds keys key rounds (int16 (mid + 1)) high
        else childRounds keys key rounds low (int16 (mid - 1))
      else some high

/-- Every round shortens `[low, high]`, so the loop ends. -/
theorem childRounds_eq (keys : Nat → Nat) {size : Nat} (hsize : size ≤ 2 ^ 14) (q : Nat)
    (rounds : Nat) (low high : Int) (hr : high - low + 1 ≤ rounds) (h0 : 0 ≤ low)
    (hh : high < size) :
    childRounds keys q rounds low high = some (childLoop keys q rounds low high) := by
  induction rounds generalizing low high with
  | zero =>
      unfold childRounds childLoop
      exact if_neg (by omega)
  | succ rounds ih =>
      simp only [childRounds, childLoop]
      split
      next hle =>
        rw [int16_of_mem (show -32768 ≤ (low + high) / 2 by omega) (by omega)]
        split
        · rw [int16_of_mem (by omega) (by omega)]
          exact ih _ _ (by omega) (by omega) hh
        · rw [int16_of_mem (by omega) (by omega)]
          exact ih _ _ (by omega) h0 (by omega)
      next hle => rfl

variable {n : Node}

theorem mem_liveKeys {k : Nat} : k ∈ n.liveKeys ↔ ∃ i < n.size, n.keys i = k := by
  simp [liveKeys]

/-- `Node::child` counts the keys that are not above the searched one. -/
theorem childSlot_eq_countP (hm : Slots.Monotone n.keys n.size) (hsize : n.size ≤ 2 ^ 14)
    (q : Nat) : n.childSlot q = n.liveKeys.countP fun k => decide (k ≤ q) := by
  rcases childSlot_spec hm hsize q with ⟨hle, hlo, hhi⟩
  refine (Slots.countP_of_cut hle ?_ ?_).symm
  · intro i hi
    exact decide_eq_true (hlo i hi)
  · intro i hi hin
    exact decide_eq_false (not_le.mpr (hhi i hi hin))

/-- `Node::index` counts the keys below the searched one. -/
theorem index_eq_countP (hm : Slots.Monotone n.keys n.size) (q : Nat) :
    n.index q = n.liveKeys.countP fun k => decide (k < q) := by
  refine (Slots.countP_of_cut (n.index_le q) ?_ ?_).symm
  · intro i hi
    exact decide_eq_true (Slots.lt_of_lt_lowerBound hm hi)
  · intro i hi hin
    exact decide_eq_false (not_lt.mpr (Slots.le_of_lowerBound_le hm hi hin))

/-! ## A new separator -/

theorem sorted_insertSeparator (hl : n.isLeaf = false) (hs : n.liveKeys.Pairwise (· < ·))
    {k : Nat} (hk : k ∉ n.liveKeys) (s : Nat) :
    (n.insertSeparator (n.index k) s k).liveKeys.Pairwise (· < ·) := by
  have hl' : (n.insertSeparator (n.index k) s k).isLeaf = false := hl
  have hm := monotone_of_sorted hs
  rw [liveKeys_of_inner hl] at hs hk
  rw [liveKeys_of_inner hl', seps_insertSeparator hl hm, List.pairwise_map]
  exact OrderedMap.Sorted.insertNew (List.pairwise_map.mp hs) hk

/-- The keys from the new key up to the next larger one. -/
def Receives (n : Node) (k q : Nat) : Prop := k ≤ q ∧ ∀ k' ∈ n.liveKeys, k < k' → q < k'

/-- The live slots behind an insertion, seen from the slot the search ends at. -/
theorem childSlot_insertSeparator (hs : n.liveKeys.Pairwise (· < ·)) (hsize : n.size < 2 ^ 14)
    (hl : n.isLeaf = false) {k : Nat} (hk : k ∉ n.liveKeys) (s q : Nat) :
    (n.insertSeparator (n.index k) s k).childSlot q =
      n.childSlot q + if k ≤ q then 1 else 0 := by
  have hm := monotone_of_sorted hs
  have hl' : (n.insertSeparator (n.index k) s k).isLeaf = false := hl
  have hsize' : (n.insertSeparator (n.index k) s k).size ≤ 2 ^ 14 := hsize
  have hperm : (n.insertSeparator (n.index k) s k).liveKeys.Perm (k :: n.liveKeys) := by
    rw [liveKeys_of_inner hl', liveKeys_of_inner hl, seps_insertSeparator_of_le hl (n.index_le k),
      List.map_append, List.map_cons]
    refine List.perm_middle.trans (List.Perm.cons _ ?_)
    rw [← List.map_append, List.take_append_drop]
  rw [childSlot_eq_countP (monotone_of_sorted (sorted_insertSeparator hl hs hk s)) hsize',
    childSlot_eq_countP hm hsize.le, hperm.countP_eq, List.countP_cons]
  simp

/-- The searches from a new key on end at or behind its index, and those that end at it
are the searches below the next larger key. -/
theorem receives_iff (hm : Slots.Monotone n.keys n.size) (hsize : n.size ≤ 2 ^ 14) {k : Nat}
    (hk : k ∉ n.liveKeys) {q : Nat} (hq : k ≤ q) :
    n.index k ≤ n.childSlot q ∧ (n.Receives k q ↔ n.childSlot q = n.index k) := by
  rcases childSlot_spec hm hsize q with ⟨hle, hlo, hhi⟩
  have hix := n.index_le k
  have hge : n.index k ≤ n.childSlot q := by
    by_contra hlt
    have h1 := hhi (n.childSlot q) le_rfl (by omega)
    have h2 := Slots.lt_of_lt_lowerBound hm (not_le.mp hlt)
    omega
  refine ⟨hge, fun h => ?_, fun h => ⟨hq, fun k' hk' hlt => ?_⟩⟩
  · by_contra hne
    have hi : n.index k < n.childSlot q := by omega
    have hmem : n.keys (n.index k) ∈ n.liveKeys := mem_liveKeys.mpr ⟨_, by omega, rfl⟩
    have h1 : k ≤ n.keys (n.index k) := Slots.le_of_lowerBound_le hm le_rfl (by omega)
    have h2 : n.keys (n.index k) ≠ k := fun he => hk (he ▸ hmem)
    have h3 := h.2 _ hmem (by omega)
    have h4 := hlo _ hi
    omega
  · rcases mem_liveKeys.mp hk' with ⟨j, hj, rfl⟩
    apply hhi j _ hj
    rw [h]
    by_contra hlt'
    have := Slots.lt_of_lt_lowerBound hm (not_le.mp hlt')
    omega

theorem child_of_receives (hl : n.isLeaf = false) (hs : n.liveKeys.Pairwise (· < ·))
    (hsize : n.size < 2 ^ 14) {k : Nat} (hk : k ∉ n.liveKeys) (s : Nat) {q : Nat}
    (hq : n.Receives k q) : (n.insertSeparator (n.index k) s k).child q = some s := by
  have hcs := (receives_iff (monotone_of_sorted hs) hsize.le hk hq.1).2.mp hq
  unfold child
  rw [childSlot_insertSeparator hs hsize hl hk, if_pos hq.1, hcs]
  exact Slots.insertAt_self ..

theorem child_of_not_receives (hl : n.isLeaf = false) (hs : n.liveKeys.Pairwise (· < ·))
    (hsize : n.size < 2 ^ 14) {k : Nat} (hk : k ∉ n.liveKeys) (s : Nat) {q : Nat}
    (hq : ¬ n.Receives k q) : (n.insertSeparator (n.index k) s k).child q = n.child q := by
  have hm := monotone_of_sorted hs
  rcases childSlot_spec hm hsize.le q with ⟨hle, hlo, -⟩
  unfold child
  rw [childSlot_insertSeparator hs hsize hl hk]
  by_cases hkq : k ≤ q
  · -- the slot moves one to the right
    rcases receives_iff hm hsize.le hk hkq with ⟨hge, hiff⟩
    have hne : n.childSlot q ≠ n.index k := fun he => hq (hiff.mpr he)
    rw [if_pos hkq]
    exact Slots.insertAt_of_gt _ _ (by omega) (by omega)
  · -- the slot is in front of the new one
    have hlt : n.childSlot q ≤ n.index k := by
      by_contra hgt
      have h1 := hlo (n.index k) (by omega)
      have h2 := Slots.le_of_lowerBound_le (q := k) hm (le_refl (n.index k)) (by omega)
      omega
    rw [if_neg hkq]
    exact Slots.insertAt_of_lt _ _ (by omega)

/-- The two searches and the insertion of a separator agree at every position, in an inner
node without keys too. A node that was no child before is returned exactly for the keys
it receives. -/
theorem child_index_insertSeparator (n : Node) (hl : n.isLeaf = false)
    (hs : n.liveKeys.Pairwise (· < ·)) (hsize : n.size < 2 ^ 14) (q : Nat) :
    (∃ high, childRounds n.keys q n.size 0 (int16 (n.size - 1)) = some high ∧
      n.child q = n.separators (high + 1).toNat) ∧
    n.child q = n.separators (n.liveKeys.countP fun k => decide (k ≤ q)) ∧
    n.index q = (n.liveKeys.countP fun k => decide (k < q)) ∧
    ∀ k ∉ n.liveKeys, ∀ s,
      (n.insertSeparator (n.index k) s k).liveKeys.Pairwise (· < ·) ∧
      (n.Receives k q → (n.insertSeparator (n.index k) s k).child q = some s) ∧
      (¬ n.Receives k q → (n.insertSeparator (n.index k) s k).child q = n.child q) ∧
      (some s ∉ n.children →
        ((n.insertSeparator (n.index k) s k).child q = some s ↔ n.Receives k q)) := by
  have hm := monotone_of_sorted hs
  refine ⟨⟨_, ?_, rfl⟩, ?_, index_eq_countP hm q, fun k hk s => ?_⟩
  · have h16 : int16 ((n.size : Int) - 1) = n.size - 1 := int16_of_mem (by omega) (by omega)
    rw [h16]
    exact childRounds_eq n.keys hsize.le q n.size 0 (n.size - 1) (by omega) (by omega) (by omega)
  · rw [child, childSlot_eq_countP hm hsize.le]
  · have hin := child_of_receives hl hs hsize hk s (q := q)
    have hout := child_of_not_receives hl hs hsize hk s (q := q)
    refine ⟨sorted_insertSeparator hl hs hk s, hin, hout, fun hnew => ⟨fun h => ?_, hin⟩⟩
    by_contra hq
    have hmem := child_mem_children hl hsize.le q
    rw [← hout hq, h] at hmem
    exact hnew hmem

/-- Keys `10` and `20`: a separator with key `12` receives the search for `15`. -/
theorem child_index_insertSeparator_between :
    let n : Node := ⟨⟨fun i => 10 * (i + 1), fun _ => 0, fun i => some i⟩, false, maxKey, none, 2⟩
    n.isLeaf = false ∧ n.liveKeys = [10, 20] ∧
      (n.insertSeparator (n.index 12) 9 12).child 15 = some 9 := by
  intro n
  have hkeys : n.liveKeys = [10, 20] := rfl
  refine ⟨rfl, hkeys, ?_⟩
  have h := child_index_insertSeparator n rfl (by rw [hkeys]; decide) (by decide) 15
  apply (h.2.2.2 12 (by rw [hkeys]; decide) 9).2.1
  exact ⟨by decide, by rw [hkeys]; decide⟩

end Node

end BLinkTree
