import BLinkTree.Bw.DeltaSets
import Mathlib.Data.List.DropRight

/-! # Leaves of the Bw-tree

The delta chains of leaves of `bwtree.h` with unique keys and search shortcuts. A node is never
changed: an operation puts a record in front of it, and a consolidation writes a new leaf. What a
leaf stands for is the list of entries that its records leave of the base leaf. Every record
carries the position of its key in the base leaf, which narrows later searches and tells the
consolidation where to copy to.
-/

namespace BwTree

open OrderedMap

variable {κ β : Type}

abbrev NodeId := Nat

def invalidNodeId : NodeId := 0

inductive LeafDataType where
  | insert
  | delete
  | update
  deriving DecidableEq

/-- `LeafDataNode` without its child. -/
structure LeafDelta (κ β : Type) where
  type : LeafDataType
  item : κ × β
  indexPair : Nat × Bool

/-- A chain of records over a base leaf. The pair of a high key is the right sibling, and a base
leaf keeps its key pairs with it. A split knows the number of items of the sibling. -/
inductive LeafNode (κ β : Type) where
  | leaf (lowKey highKey : κ × NodeId) (items : List (κ × β))
  | data (delta : LeafDelta κ β) (child : LeafNode κ β)
  | split (insertItem : κ × NodeId) (siblingCount : Nat) (child : LeafNode κ β)
  | merge (deleteItem : κ × NodeId) (rightMerge child : LeafNode κ β)

namespace LeafDelta

def key (d : LeafDelta κ β) : κ := d.item.1

/-- The binding of its key that the record leaves. -/
def effect (d : LeafDelta κ β) : Option β :=
  match d.type with
  | .insert => some d.item.2
  | .delete => none
  | .update => some d.item.2

/-- The record as a change of a list. -/
def change (d : LeafDelta κ β) : κ × Option β := (d.key, d.effect)

end LeafDelta

namespace LeafNode

def lowKeyPair : LeafNode κ β → κ × NodeId
  | leaf low _ _ => low
  | data _ child => child.lowKeyPair
  | split _ _ child => child.lowKeyPair
  | merge _ _ child => child.lowKeyPair

def highKeyPair : LeafNode κ β → κ × NodeId
  | leaf _ high _ => high
  | data _ child => child.highKeyPair
  | split sep _ _ => sep
  | merge _ right _ => right.highKeyPair

def depth : LeafNode κ β → Nat
  | leaf _ _ _ => 0
  | data _ child => child.depth + 1
  | split _ _ child => child.depth
  | merge _ right child => child.depth + right.depth

def itemCount : LeafNode κ β → Int
  | leaf _ _ items => items.length
  | data d child =>
      match d.type with
      | .insert => child.itemCount + 1
      | .delete => child.itemCount - 1
      | .update => child.itemCount
  | split _ count child => child.itemCount - count
  | merge _ right child => child.itemCount + right.itemCount

variable [LinearOrder κ]

/-! ## Searches -/

/-- `NavigateLeafNode` of the operations that write: the item and the index pair for a record. -/
def navigate (q : κ) : LeafNode κ β → Nat → Option Nat → Option (κ × β) × (Nat × Bool)
  | leaf _ _ items, start, stop =>
      let i := lowerBound items start (stop.getD items.length) q
      match items[i]? with
      | some e => if e.1 = q then (some e, (i, true)) else (none, (i, false))
      | none => (none, (i, false))
  | data d child, start, stop =>
      if q = d.key then
        match d.type with
        | .insert => (some d.item, d.indexPair)
        | .delete => (none, d.indexPair)
        | .update => (some d.item, d.indexPair)
      else if d.key < q then navigate q child d.indexPair.1 stop
      else navigate q child start (some d.indexPair.1)
  | split _ _ child, start, stop => navigate q child start stop
  | merge sep right child, _, _ =>
      if sep.1 ≤ q then navigate q right 0 none else navigate q child 0 none

/-- `NavigateLeafNode` of `GetValue`: the values of the key. -/
def values (q : κ) : LeafNode κ β → Nat → Option Nat → List β
  | leaf _ _ items, start, stop =>
      match items[lowerBound items start (stop.getD items.length) q]? with
      | some e => if q = e.1 then [e.2] else []
      | none => []
  | data d child, start, stop =>
      if q = d.key then
        match d.type with
        | .insert => [d.item.2]
        | .delete => []
        | .update => [d.item.2]
      else if d.key < q then values q child d.indexPair.1 stop
      else values q child start (some d.indexPair.1)
  | split _ _ child, start, stop => values q child start stop
  | merge sep right child, _, _ =>
      if sep.1 ≤ q then values q right 0 none else values q child 0 none

/-! ## Consolidation -/

/-- `PushBack` of a part of a base leaf, which is the text of an assertion for a negative part. -/
def slice (items : List (κ × β)) (start stop : Nat) : Option (List (κ × β)) :=
  if start ≤ stop then some ((items.take stop).drop start) else none

/-- What the consolidation writes for a record. -/
def pushed (d : LeafDelta κ β) : List (κ × β) :=
  match d.type with
  | .insert => [d.item]
  | .delete => []
  | .update => [d.item]

/-- The two merge loops over the records up to `sss_end_it`. The inner one stays at the position
`current`, and `overwritten` says whether a record replaces the item there. -/
def drain (items : List (κ × β)) (copyEnd : Nat) :
    List (LeafDelta κ β) → Nat → Bool → Option (List (κ × β))
  | [], current, overwritten => slice items (current + overwritten.toNat) copyEnd
  | d :: sss, current, overwritten =>
      if d.indexPair.1 = current then
        (drain items copyEnd sss current (overwritten || d.indexPair.2)).map (pushed d ++ ·)
      else if d.indexPair.1 ≤ copyEnd then
        (slice items (current + overwritten.toNat) d.indexPair.1).bind fun copied =>
          (drain items copyEnd sss d.indexPair.1 d.indexPair.2).map (copied ++ pushed d ++ ·)
      else none

/-- The key is below a high key. The pair of the last node names no sibling. -/
def IsBelow (high : κ × NodeId) (k : κ) : Prop := high.2 = invalidNodeId ∨ k < high.1

instance (high : κ × NodeId) (k : κ) : Decidable (IsBelow high k) :=
  inferInstanceAs (Decidable (_ ∨ _))

/-- The order of the small set: by key, then by index. -/
def deltaCmp (a b : LeafDelta κ β) : Bool :=
  decide (a.key < b.key) || (decide (a.key = b.key) && decide (a.indexPair.1 < b.indexPair.1))

structure Collection (κ β : Type) (keyHash : κ → BitVec 64) where
  sss : List (LeafDelta κ β)
  deltaSet : BloomFilter keyHash
  items : List (κ × β)

variable {keyHash : κ → BitVec 64}

/-- A record whose key has not been seen goes into the sets. -/
def Collection.add (s : Collection κ β keyHash) (d : LeafDelta κ β) : Collection κ β keyHash :=
  if s.deltaSet.exists' d.key then s
  else { s with deltaSet := s.deltaSet.insert d.key, sss := insertNoDedup deltaCmp d s.sss }

/-- `CollectAllValuesOnLeafRecursive`; `high` is the high key of the node it was called on. -/
def collectRecursive (high : κ × NodeId) :
    LeafNode κ β → Collection κ β keyHash → Option (Collection κ β keyHash)
  | leaf _ _ items, s =>
      let copyEnd :=
        if high.2 = invalidNodeId then items.length else lowerBound items 0 items.length high.1
      let stop := if high.2 = invalidNodeId then s.sss.length
        else (s.sss.rdropWhile fun d => !decide (d.key < high.1)).length
      (drain items copyEnd (s.sss.take stop) 0 false).map fun out =>
        { s with sss := s.sss.drop stop, items := s.items ++ out }
  | data d child, s => collectRecursive high child (s.add d)
  | split _ _ child, s => collectRecursive high child s
  | merge _ right child, s =>
      (collectRecursive child.highKeyPair child s).bind fun s' =>
        collectRecursive right.highKeyPair right s'

/-- `CollectAllValuesOnLeaf`. A leaf that does not get as many items as its node counts fails an
assertion. -/
def collect (keyHash : κ → BitVec 64) (n : LeafNode κ β) : Option (LeafNode κ β) :=
  (collectRecursive n.highKeyPair n ⟨[], BloomFilter.create keyHash, []⟩).bind fun s =>
    if (s.items.length : Int) = n.itemCount then some (leaf n.lowKeyPair n.highKeyPair s.items)
    else none

/-! ## Splits -/

/-- The scan of `FindSplitPoint` to the left. -/
def scanBack (items : List (κ × β)) (q : κ) : Nat → Nat
  | 0 => 0
  | i + 1 =>
      match items[i + 1]? with
      | some e => if e.1 = q then scanBack items q i else i + 1
      | none => i + 1

/-- The scan of `FindSplitPoint` to the right. -/
def scanForward (q : κ) : List (κ × β) → Nat
  | [] => 0
  | e :: items => if e.1 = q then scanForward q items + 1 else 0

/-- `FindSplitPoint`, where `lower` is `LEAF_NODE_SIZE_LOWER_THRESHOLD`. A leaf with fewer than
four items fails its assertion. -/
def findSplitPoint (lower : Nat) (items : List (κ × β)) : Option Int :=
  let central := items.length / 2
  if 1 < central then
    (items[central]?).map fun e =>
      let left := scanBack items e.1 (central - 1) + 1
      if lower < left then left
      else
        let right := central + 1 + scanForward e.1 (items.drop (central + 1))
        if lower < items.length - right then right else -1
  else none

/-- `GetSplitSibling` of a base leaf: null, or the sibling with the key that it starts with. -/
def getSplitSibling (lower : Nat) : LeafNode κ β → Option (Option (κ × LeafNode κ β))
  | leaf _ high items =>
      (findSplitPoint lower items).bind fun i =>
        if i = -1 then some none
        else (items[i.toNat]?).map fun e =>
          some (e.1, leaf (e.1, 2 ^ 64 - 1) high (items.drop i.toNat))
  | _ => none

/-! ## What a chain stands for -/

/-- The entries of the logical leaf. -/
def entries : LeafNode κ β → List (κ × β)
  | leaf _ _ items => items
  | data d child =>
      match d.type with
      | .insert => insertNew d.key d.item.2 child.entries
      | .delete => erase d.key child.entries
      | .update => replace d.key d.item.2 child.entries
  | split sep _ child => below sep.1 child.entries
  | merge _ right child => child.entries ++ right.entries

/-- Where the key stands in the base leaf that holds it, and whether it is there. -/
def position (q : κ) : LeafNode κ β → Nat × Bool
  | leaf _ _ items => (rank q items, decide (q ∈ items.map Prod.fst))
  | data _ child => position q child
  | split _ _ child => position q child
  | merge sep right child => if sep.1 ≤ q then position q right else position q child

/-- The key is in the range of the node. -/
def Covers (n : LeafNode κ β) (k : κ) : Prop := n.lowKeyPair.1 ≤ k ∧ IsBelow n.highKeyPair k

/-- The range of a node is not empty. Records hold the position of their key, and an insert is the
one record for a key that has no entry. A split stands on a base leaf. The right branch of a merge
starts where the left one ends. -/
def WellFormed : LeafNode κ β → Prop
  | leaf low high items => IsBelow high low.1 ∧ Sorted items ∧
      ∀ e ∈ items, low.1 ≤ e.1 ∧ IsBelow high e.1
  | data d child => child.WellFormed ∧ child.Covers d.key ∧ d.indexPair = child.position d.key ∧
      (d.type = .insert ↔ get? d.key child.entries = none)
  | split sep count child => child.WellFormed ∧ child.lowKeyPair.1 < sep.1 ∧
      IsBelow child.highKeyPair sep.1 ∧ sep.2 ≠ invalidNodeId ∧
      ∃ low high items, child = leaf low high items ∧ count = (atLeast sep.1 items).length
  | merge sep right child => child.WellFormed ∧ right.WellFormed ∧
      child.highKeyPair.2 ≠ invalidNodeId ∧ child.highKeyPair.1 = sep.1 ∧
      right.lowKeyPair.1 = sep.1 ∧ child.lowKeyPair.1 ≤ sep.1

variable {n child right : LeafNode κ β} {d : LeafDelta κ β} {sep high : κ × NodeId} {k q : κ}
  {start : Nat} {stop : Option Nat}

theorem IsBelow.mono (h : IsBelow high q) (hk : k ≤ q) : IsBelow high k :=
  h.imp_right fun h => lt_of_le_of_lt hk h

theorem isBelow_iff (h : high.2 ≠ invalidNodeId) : IsBelow high k ↔ k < high.1 :=
  or_iff_right h

/-! ## The entries -/

theorem entries_insert (h : d.type = .insert) :
    (data d child).entries = insertNew d.key d.item.2 child.entries := by simp [entries, h]

theorem entries_delete (h : d.type = .delete) :
    (data d child).entries = erase d.key child.entries := by simp [entries, h]

theorem entries_update (h : d.type = .update) :
    (data d child).entries = replace d.key d.item.2 child.entries := by simp [entries, h]

theorem get?_entries_data (h : (data d child).WellFormed) (q : κ) :
    get? q (data d child).entries = if q = d.key then d.effect else get? q child.entries := by
  obtain ⟨_, _, _, hnew⟩ := h
  cases ht : d.type with
  | insert =>
      rw [entries_insert ht, get?_insertNew (get?_eq_none_iff.mp (hnew.mp ht))]
      simp only [LeafDelta.effect, ht]
  | delete =>
      rw [entries_delete ht, get?_erase]
      simp only [LeafDelta.effect, ht]
  | update =>
      have hbound : get? d.key child.entries ≠ none := fun h => absurd (hnew.mpr h) (by simp [ht])
      rw [entries_update ht, get?_replace]
      simp only [LeafDelta.effect, ht, ne_eq, hbound, not_false_eq_true, and_true]

theorem WellFormed.isBelow_lowKey (h : n.WellFormed) : IsBelow n.highKeyPair n.lowKeyPair.1 := by
  induction n with
  | leaf low high items => exact h.1
  | data d child ih => exact ih h.1
  | split sep count child ih => exact .inr h.2.1
  | merge sep right child ihr ihc =>
      obtain ⟨_, hright, _, _, hlow, hle⟩ := h
      exact (ihr hright).mono (hlow ▸ hle)

/-- The keys of a merged node are on the side of its separator. -/
theorem covers_merge (h : (merge sep right child).WellFormed) :
    (merge sep right child).Covers k ↔ if sep.1 ≤ k then right.Covers k else child.Covers k := by
  obtain ⟨_, hright, hid, hhigh, hlow, hle⟩ := h
  unfold Covers
  simp only [lowKeyPair, highKeyPair]
  split
  next hk => exact and_congr_left fun _ => ⟨fun _ => hlow ▸ hk, fun _ => hle.trans hk⟩
  next hk =>
    have hlt : k < sep.1 := not_le.mp hk
    have hleft : IsBelow child.highKeyPair k := (isBelow_iff hid).mpr (hhigh ▸ hlt)
    have hbound : IsBelow right.highKeyPair k := hright.isBelow_lowKey.mono (hlow ▸ hlt.le)
    exact and_congr_right fun _ => iff_of_true hbound hleft

/-- The entries are in order and in the range of the node. -/
theorem WellFormed.entries (h : n.WellFormed) :
    Sorted n.entries ∧ ∀ e ∈ n.entries, n.Covers e.1 := by
  induction n with
  | leaf low high items => exact h.2
  | data d child ih =>
      obtain ⟨hchild, hcover, _, hnew⟩ := h
      obtain ⟨hs, hc⟩ := ih hchild
      cases ht : d.type with
      | insert =>
          rw [entries_insert ht]
          refine ⟨hs.insertNew (get?_eq_none_iff.mp (hnew.mp ht)), fun e he => ?_⟩
          rcases mem_insertNew.mp he with rfl | he
          · exact hcover
          · exact hc e he
      | delete =>
          rw [entries_delete ht]
          exact ⟨hs.erase, fun e he => hc e (mem_erase.mp he).1⟩
      | update =>
          rw [entries_update ht]
          refine ⟨hs.replace, fun e he => ?_⟩
          obtain ⟨a, ha, rfl⟩ := List.mem_map.mp he
          split
          · exact hcover
          · exact hc a ha
  | split sep count child ih =>
      obtain ⟨hs, hc⟩ := ih h.1
      refine ⟨hs.below, fun e he => ?_⟩
      obtain ⟨he, hlt⟩ := mem_below.mp he
      exact ⟨(hc e he).1, .inr hlt⟩
  | merge sep right child ihr ihc =>
      have hwf := h
      obtain ⟨hchild, hright, hid, hhigh, hlow, hle⟩ := h
      obtain ⟨hsc, hcc⟩ := ihc hchild
      obtain ⟨hsr, hcr⟩ := ihr hright
      have hlt : ∀ e ∈ child.entries, e.1 < sep.1 := fun e he =>
        hhigh ▸ (isBelow_iff hid).mp (hcc e he).2
      have hge : ∀ e ∈ right.entries, sep.1 ≤ e.1 := fun e he => hlow ▸ (hcr e he).1
      refine ⟨hsc.append hsr fun a ha b hb => lt_of_lt_of_le (hlt a ha) (hge b hb), fun e he => ?_⟩
      rw [covers_merge hwf]
      rcases List.mem_append.mp he with he | he
      · rw [if_neg (not_le.mpr (hlt e he))]
        exact hcc e he
      · rw [if_pos (hge e he)]
        exact hcr e he

/-- A key of a merged node is bound by its side. -/
theorem get?_entries_merge (h : (merge sep right child).WellFormed) (q : κ) :
    get? q (merge sep right child).entries =
      if sep.1 ≤ q then get? q right.entries else get? q child.entries := by
  obtain ⟨hchild, hright, hid, hhigh, hlow, hle⟩ := h
  have hlt : ∀ e ∈ child.entries, e.1 < sep.1 := fun e he =>
    hhigh ▸ (isBelow_iff hid).mp (hchild.entries.2 e he).2
  have hge : ∀ e ∈ right.entries, sep.1 ≤ e.1 := fun e he => hlow ▸ (hright.entries.2 e he).1
  rw [LeafNode.entries, get?_append]
  split
  next hq => rw [get?_eq_none fun e he => ((hlt e he).trans_le hq).ne, Option.none_or]
  next hq =>
    rw [get?_eq_none (l := right.entries) fun e he => ((not_le.mp hq).trans_le (hge e he)).ne',
      Option.or_none]

/-- The counter of a node is the number of its entries. -/
theorem WellFormed.itemCount_eq (h : n.WellFormed) : n.itemCount = n.entries.length := by
  induction n with
  | leaf low high items => rfl
  | data d child ih =>
      obtain ⟨hchild, _, _, hnew⟩ := h
      have hcount := ih hchild
      have hs := hchild.entries.1
      cases ht : d.type with
      | insert =>
          rw [entries_insert ht, length_insertNew]
          simp only [itemCount, ht, hcount, Nat.cast_add, Nat.cast_one]
      | delete =>
          have hbound : get? d.key child.entries ≠ none := fun h =>
            absurd (hnew.mpr h) (by simp [ht])
          have hmem : d.key ∈ child.entries.map Prod.fst := by
            by_contra hmem
            exact hbound (get?_eq_none_iff.mpr hmem)
          have hlen := length_erase hs hmem
          rw [entries_delete ht]
          simp only [itemCount, ht, hcount]
          omega
      | update =>
          have hlen : (replace d.key d.item.2 child.entries).length = child.entries.length :=
            List.length_map _
          rw [entries_update ht, hlen]
          simp only [itemCount, ht, hcount]
  | split sep count child ih =>
      obtain ⟨hchild, _, _, _, low, high, items, rfl, rfl⟩ := h
      have hsplit := congrArg List.length (hchild.2.1.below_append sep.1)
      rw [List.length_append] at hsplit
      simp only [itemCount, LeafNode.entries]
      omega
  | merge sep right child ihr ihc =>
      obtain ⟨hchild, hright, _⟩ := h
      simp only [itemCount, LeafNode.entries, ihc hchild, ihr hright, List.length_append,
        Nat.cast_add]

/-! ## Searches -/

/-- The positions enclose the position of the key, unless a merge forgets them. -/
def Encloses (q : κ) : LeafNode κ β → Nat → Option Nat → Prop
  | leaf _ _ items, start, stop => start ≤ rank q items ∧ ∀ e ∈ stop, rank q items ≤ e
  | data _ child, start, stop => Encloses q child start stop
  | split _ _ child, start, stop => Encloses q child start stop
  | merge _ _ _, _, _ => True

theorem encloses_all (q : κ) (n : LeafNode κ β) : n.Encloses q 0 none := by
  induction n with
  | leaf low high items => exact ⟨Nat.zero_le _, by simp⟩
  | data d child ih => exact ih
  | split sep count child ih => exact ih
  | merge sep right child => trivial

theorem Encloses.from_position (h : n.Encloses q start stop) (hk : k ≤ q) :
    n.Encloses q (n.position k).1 stop := by
  induction n with
  | leaf low high items => exact ⟨rank_mono _ hk, h.2⟩
  | data d child ih => exact ih h
  | split sep count child ih => exact ih h
  | merge sep right child => trivial

theorem Encloses.to_position (h : n.Encloses q start stop) (hk : q ≤ k) :
    n.Encloses q start (some (n.position k).1) := by
  induction n with
  | leaf low high items => exact ⟨h.1, by simpa [position] using rank_mono _ hk⟩
  | data d child ih => exact ih h
  | split sep count child ih => exact ih h
  | merge sep right child => trivial

/-- The search finds the entry of a key in the range of the node and the position of the key. -/
theorem navigate_eq (h : n.WellFormed) (hq : n.Covers q) (hb : n.Encloses q start stop) :
    navigate q n start stop = ((get? q n.entries).map fun v => (q, v), n.position q) := by
  induction n generalizing start stop with
  | leaf low high items =>
      obtain ⟨_, hs, _⟩ := h
      have hlen := rank_le q items
      have hi : lowerBound items start (stop.getD items.length) q = rank q items := by
        refine hs.lowerBound_eq hb.1 ?_
        cases stop with
        | none => exact hlen
        | some e => exact hb.2 e rfl
      have hget := hs.get?_eq q
      simp only [navigate, hi, LeafNode.entries, position]
      rw [hget]
      cases he : items[rank q items]? with
      | none =>
          rw [he, Option.bind_none] at hget
          simp [get?_eq_none_iff.mp hget]
      | some e =>
          rw [he, Option.bind_some] at hget
          by_cases heq : e.1 = q
          · rw [if_pos heq] at hget
            have hmem := List.mem_map_of_mem (f := Prod.fst) (mem_of_get? hget)
            have hpair : (q, e.2) = e := by rw [← heq]
            simp only [Option.bind_some, if_pos heq, Option.map_some, hpair]
            rw [decide_eq_true hmem]
          · rw [if_neg heq] at hget
            simp only [Option.bind_some, if_neg heq, Option.map_none]
            rw [decide_eq_false (get?_eq_none_iff.mp hget)]
  | data d child ih =>
      rw [get?_entries_data h]
      obtain ⟨hchild, hcover, hindex, hnew⟩ := h
      simp only [navigate, position]
      split
      next heq =>
        subst heq
        rw [hindex]
        cases ht : d.type <;> simp [LeafDelta.effect, LeafDelta.key, ht]
      next hne =>
        split
        next hlt => exact ih hchild hq (hindex ▸ Encloses.from_position hb hlt.le)
        next hlt =>
          exact ih hchild hq (hindex ▸ Encloses.to_position hb (not_lt.mp hlt))
  | split sep count child ih =>
      obtain ⟨hchild, hlow, hhigh, hid, _⟩ := h
      have hlt : q < sep.1 := (isBelow_iff hid).mp hq.2
      have hcover : child.Covers q := ⟨hq.1, hhigh.mono hlt.le⟩
      rw [navigate, ih hchild hcover hb, LeafNode.entries, get?_below, if_pos hlt]
      rfl
  | merge sep right child ihr ihc =>
      rw [get?_entries_merge h]
      rw [covers_merge h] at hq
      obtain ⟨hchild, hright, _⟩ := h
      simp only [navigate, position]
      split
      next hle =>
        rw [if_pos hle] at hq
        exact ihr hright hq (encloses_all q right)
      next hle =>
        rw [if_neg hle] at hq
        exact ihc hchild hq (encloses_all q child)

/-- `GetValue` reads what the operations that write find. -/
theorem values_eq (q : κ) (n : LeafNode κ β) (start : Nat) (stop : Option Nat) :
    values q n start stop = ((navigate q n start stop).1.map Prod.snd).toList := by
  induction n generalizing start stop with
  | leaf low high items =>
      simp only [values, navigate]
      cases items[lowerBound items start (stop.getD items.length) q]? with
      | none => rfl
      | some e =>
          by_cases h : q = e.1
          · simp [h]
          · simp [h, Ne.symm h]
  | data d child ih =>
      simp only [values, navigate]
      split
      · cases d.type <;> rfl
      · split
        · exact ih _ _
        · exact ih _ _
  | split sep count child ih => exact ih _ _
  | merge sep right child ihr ihc =>
      simp only [values, navigate]
      split
      · exact ihr _ _
      · exact ihc _ _

end LeafNode

end BwTree
