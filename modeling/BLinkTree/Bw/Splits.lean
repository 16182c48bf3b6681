import BLinkTree.Bw.Consolidation

/-! # Records, splits and merges of a leaf

What a writer puts in front of a chain: a record with the position that its search has found, a
split of a base leaf that has become too large, and a merge with the chain of the right neighbour.
-/

namespace BwTree.LeafNode

open OrderedMap

variable {κ β : Type} [LinearOrder κ] {n child right : LeafNode κ β} {low high sep : κ × NodeId}
  {items : List (κ × β)} {k q : κ} {v x : β} {lower : Nat}

/-- A record for a key in the range of the node, with the position that the search has found. -/
theorem WellFormed.data (h : n.WellFormed) (hk : n.Covers k) {type : LeafDataType}
    (ht : type = .insert ↔ (navigate k n 0 none).1 = none) :
    (data ⟨type, (k, v), (navigate k n 0 none).2⟩ n).WellFormed := by
  have hnav := navigate_eq h hk (encloses_all k n)
  refine ⟨h, hk, ?_, ?_⟩
  · rw [hnav]
    rfl
  · rw [hnav, Option.map_eq_none_iff] at ht
    exact ht

/-- `Insert` on a leaf: the search reports what stands there, and the record adds the entry. -/
theorem insert_record (h : n.WellFormed) (hk : n.Covers k) (hnone : get? k n.entries = none) :
    (navigate k n 0 none).1 = none ∧
      (LeafNode.data ⟨.insert, (k, v), (navigate k n 0 none).2⟩ n).WellFormed ∧
      (LeafNode.data ⟨.insert, (k, v), (navigate k n 0 none).2⟩ n).entries =
        insertNew k v n.entries := by
  have hnav : (navigate k n 0 none).1 = none := by
    rw [navigate_eq h hk (encloses_all k n), hnone, Option.map_none]
  exact ⟨hnav, h.data hk (iff_of_true rfl hnav), entries_insert rfl⟩

/-- `Upsert` and `Delete` on a leaf that has the key: the search finds the entry, and the record
changes its value or takes it away. -/
theorem update_record (h : n.WellFormed) (hk : n.Covers k) (hsome : get? k n.entries = some x) :
    (navigate k n 0 none).1 = some (k, x) ∧
      (LeafNode.data ⟨.update, (k, v), (navigate k n 0 none).2⟩ n).WellFormed ∧
      (LeafNode.data ⟨.update, (k, v), (navigate k n 0 none).2⟩ n).entries =
        replace k v n.entries ∧
      (LeafNode.data ⟨.delete, (k, x), (navigate k n 0 none).2⟩ n).WellFormed ∧
      (LeafNode.data ⟨.delete, (k, x), (navigate k n 0 none).2⟩ n).entries =
        erase k n.entries := by
  have hnav : (navigate k n 0 none).1 = some (k, x) := by
    rw [navigate_eq h hk (encloses_all k n), hsome, Option.map_some]
  have hbound : (navigate k n 0 none).1 ≠ none := by simp [hnav]
  exact ⟨hnav, h.data hk (iff_of_false (by simp) hbound), entries_update rfl,
    h.data hk (iff_of_false (by simp) hbound), entries_delete rfl⟩

/-! ## Splits -/

theorem scanBack_eq {e : κ × β} {i : Nat} (he : items[i]? = some e) (hne : e.1 ≠ q) :
    scanBack items q i = i := by
  cases i with
  | zero => rfl
  | succ i =>
      rw [scanBack, he]
      exact if_neg hne

/-- The scan to the right stays where the key of the middle does not come again. -/
theorem scanForward_eq (hne : ∀ e ∈ items, e.1 ≠ q) : scanForward q items = 0 := by
  cases items with
  | nil => rfl
  | cons e items => exact if_neg (hne e (List.mem_cons_self ..))

/-- Where keys are unique the split point is in the middle, or the halves are too small. -/
theorem findSplitPoint_eq (hs : Sorted items) (hlen : 4 ≤ items.length) :
    findSplitPoint lower items =
      some (if lower < items.length / 2 then ((items.length / 2 : Nat) : Int) else -1) := by
  have hcentral : 1 < items.length / 2 := by omega
  have hmid : items.length / 2 < items.length := by omega
  have hprev : items.length / 2 - 1 < items.length := by omega
  have hne : items[items.length / 2 - 1].1 ≠ items[items.length / 2].1 := by
    refine (List.pairwise_iff_getElem.mp hs _ _ hprev hmid ?_).ne
    omega
  have hback := scanBack_eq (List.getElem?_eq_getElem hprev) hne
  have hleft : items.length / 2 - 1 + 1 = items.length / 2 := by omega
  have hforward :
      scanForward items[items.length / 2].1 (items.drop (items.length / 2 + 1)) = 0 := by
    refine scanForward_eq fun e he => ?_
    obtain ⟨j, hj, rfl⟩ := List.mem_iff_getElem.mp he
    rw [List.length_drop] at hj
    rw [List.getElem_drop]
    refine (List.pairwise_iff_getElem.mp hs _ _ hmid (by omega) ?_).ne'
    omega
  simp only [findSplitPoint, if_pos hcentral, List.getElem?_eq_getElem hmid, Option.map_some, hback,
    hleft, hforward, Nat.add_zero]
  split
  · rfl
  · -- the right half is not larger than the left one
    rw [if_neg (by omega)]

theorem rank_getElem (hs : Sorted items) {i : Nat} (hi : i < items.length) :
    rank items[i].1 items = i := by
  have hnot := (hs.getElem_lt_iff items[i].1 hi).not.mp (lt_irrefl _)
  refine le_antisymm (not_lt.mp hnot) (not_lt.mp fun hlt => ?_)
  have hr : rank items[i].1 items < items.length := hlt.trans hi
  have hbelow := List.pairwise_iff_getElem.mp hs _ _ hr hi hlt
  exact absurd ((hs.getElem_lt_iff items[i].1 hr).mp hbelow) (lt_irrefl _)

/-- The base leaf `n` is cut in the middle at key `sep`: the split delta and the sibling are
well formed, meet at the key, have the entries of the leaf and more than the lower size each. -/
structure CutInMiddle (lower id : Nat) (n : LeafNode κ β) (sep : κ) (sibling : LeafNode κ β) :
    Prop where
  left : (split (sep, id) sibling.entries.length n).WellFormed
  right : sibling.WellFormed
  lowKey : sibling.lowKeyPair.1 = sep
  highKey : sibling.highKeyPair = n.highKeyPair
  half : sibling.entries = n.entries.drop (n.entries.length / 2)
  append : (split (sep, id) sibling.entries.length n).entries ++ sibling.entries = n.entries
  left_count : (lower : Int) < (split (sep, id) sibling.entries.length n).itemCount
  right_count : (lower : Int) < sibling.itemCount

/-- A base leaf that has more than the lower size in front of its middle is cut there. -/
theorem getSplitSibling_of_lt (lower id : Nat) (h : (leaf low high items).WellFormed)
    (hlen : 4 ≤ items.length) (hlower : lower < items.length / 2) (hid : id ≠ invalidNodeId) :
    ∃ sep sibling, getSplitSibling lower (leaf low high items) = some (some (sep, sibling)) ∧
      CutInMiddle lower id (leaf low high items) sep sibling := by
  obtain ⟨hrange, hs, hitems⟩ := h
  have hmid : items.length / 2 < items.length := by omega
  have hfirst : 0 < items.length := by omega
  obtain ⟨e, he⟩ : ∃ e, e = items[items.length / 2] := ⟨_, rfl⟩
  have hmem : e ∈ items := he ▸ List.getElem_mem hmid
  have hrank : rank e.1 items = items.length / 2 := he ▸ rank_getElem hs hmid
  have hdrop : items.drop (items.length / 2) = atLeast e.1 items := by
    rw [← hrank, hs.drop_rank]
  have hlow : low.1 < e.1 := by
    refine lt_of_le_of_lt (hitems _ (List.getElem_mem hfirst)).1 ?_
    rw [he]
    exact List.pairwise_iff_getElem.mp hs _ _ hfirst hmid (by omega)
  have hcount : (atLeast e.1 items).length = items.length - items.length / 2 := by
    rw [← hdrop, List.length_drop]
  have hsibling : (leaf (e.1, 2 ^ 64 - 1) high (atLeast e.1 items)).WellFormed :=
    ⟨(hitems e hmem).2, hs.atLeast, fun a ha => ⟨(mem_atLeast.mp ha).2,
      (hitems a (mem_atLeast.mp ha).1).2⟩⟩
  have hdelta : (split (e.1, id) (atLeast e.1 items).length (leaf low high items)).WellFormed :=
    ⟨⟨hrange, hs, hitems⟩, hlow, (hitems e hmem).2, hid, low, high, items, rfl, rfl⟩
  refine ⟨e.1, leaf (e.1, 2 ^ 64 - 1) high (atLeast e.1 items), ?_, hdelta, hsibling, rfl, rfl,
    hdrop.symm, hs.below_append e.1, ?_, ?_⟩
  · have hpos : ((items.length / 2 : Nat) : Int) ≠ -1 := by omega
    rw [getSplitSibling, findSplitPoint_eq hs hlen, if_pos hlower, Option.bind_some, if_neg hpos,
      Int.toNat_natCast, List.getElem?_eq_getElem hmid, Option.map_some, ← he, hdrop]
  · simp only [itemCount, LeafNode.entries, hcount]
    omega
  · simp only [itemCount, hcount]
    omega

/-- With at least four entries a base leaf is cut in the middle if it has at least two more than
twice the lower size, and otherwise it is not cut. -/
theorem getSplitSibling_eq (lower id : Nat) (h : (leaf low high items).WellFormed)
    (hid : id ≠ invalidNodeId) :
    (getSplitSibling lower (leaf low high items) = none ↔ items.length < 4) ∧
      (getSplitSibling lower (leaf low high items) = some none ↔
        4 ≤ items.length ∧ items.length < 2 * lower + 2) ∧
      (4 ≤ items.length → 2 * lower + 2 ≤ items.length → ∃ sep sibling,
        getSplitSibling lower (leaf low high items) = some (some (sep, sibling)) ∧
        CutInMiddle lower id (leaf low high items) sep sibling) := by
  by_cases hlen : 4 ≤ items.length
  · by_cases hlower : lower < items.length / 2
    · have hcut := getSplitSibling_of_lt lower id h hlen hlower hid
      have hsome := hcut
      obtain ⟨sep, sibling, heq, _⟩ := hsome
      refine ⟨?_, ?_, fun _ _ => hcut⟩
      · rw [heq]
        exact iff_of_false (by simp) (by omega)
      · rw [heq]
        exact iff_of_false (by simp) (by omega)
    · have hnull : getSplitSibling lower (leaf low high items) = some none := by
        rw [getSplitSibling, findSplitPoint_eq h.2.1 hlen, if_neg hlower, Option.bind_some,
          if_pos rfl]
      refine ⟨?_, ?_, fun _ _ => by omega⟩
      · rw [hnull]
        exact iff_of_false (by simp) (by omega)
      · exact iff_of_true hnull ⟨hlen, by omega⟩
  · have hfail : getSplitSibling lower (leaf low high items) = none := by
      have hcentral : ¬ 1 < items.length / 2 := by omega
      rw [getSplitSibling, findSplitPoint, if_neg hcentral, Option.bind_none]
    refine ⟨iff_of_true hfail (by omega), ?_, fun h => absurd h hlen⟩
    rw [hfail]
    exact iff_of_false (by simp) (by omega)

/-- Five entries are cut into two and three for the lower size 1, and not for 2. -/
theorem getSplitSibling_eq_five :
    (∃ sep sibling, getSplitSibling 1 (leaf (0, 0) (0, 0)
        [(1, 10), (2, 20), (3, 30), (4, 40), (5, 50)]) = some (some (sep, sibling)) ∧
      sibling.WellFormed ∧ sibling.entries = [(3, 30), (4, 40), (5, 50)]) ∧
    getSplitSibling 2 (leaf (0, 0) (0, 0)
      [(1, 10), (2, 20), (3, 30), (4, 40), (5, 50)]) = some none := by
  have hwf : (leaf (0, 0) (0, 0)
      [(1, 10), (2, 20), (3, 30), (4, 40), (5, 50)] : LeafNode Nat Nat).WellFormed := by
    simp [WellFormed, IsBelow, invalidNodeId, Sorted]
  obtain ⟨_, _, hcut⟩ := getSplitSibling_eq 1 3 hwf (by decide)
  obtain ⟨sep, sibling, heq, hsplit⟩ := hcut (by decide) (by decide)
  exact ⟨⟨sep, sibling, heq, hsplit.right, hsplit.half⟩,
    (getSplitSibling_eq 2 3 hwf (by decide)).2.1.mpr ⟨by decide, by decide⟩⟩

/-! ## Merges -/

/-- The chain of the right neighbour is merged into a chain that ends where it starts. -/
theorem WellFormed.merge (hl : child.WellFormed) (hr : right.WellFormed)
    (hid : child.highKeyPair.2 ≠ invalidNodeId)
    (hlow : right.lowKeyPair.1 = child.highKeyPair.1) :
    (merge child.highKeyPair right child).WellFormed := by
  have hrange := (isBelow_iff hid).mp hl.isBelow_lowKey
  exact ⟨hl, hr, hid, rfl, hlow, hrange.le⟩

end BwTree.LeafNode
