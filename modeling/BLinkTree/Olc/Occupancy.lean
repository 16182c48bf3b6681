import BLinkTree.Olc.Shape

/-! # How full the pages of the B-tree are

A page that is not the root was split off or has been split, and pages never lose entries
otherwise. So a tree of height `h` has at least a number of keys that grows with the power `h`.
-/

namespace BtreeOlc

open Slots Hierarchy Linearization Interleaving VersionLock

variable {κ β : Type} [LinearOrder κ] {c : PageSize} {s s' : BTree κ β} {g : Owners κ}
  {n p l : Nat} {k : κ} {v : β}

/-- At least half full, up to the separator that an inner page gives away. -/
def Node.Half (c : PageSize) (nd : Node κ β) : Prop :=
  match nd.type with
  | .leaf => c.leafEntries / 2 ≤ nd.count
  | .inner => (c.innerEntries - 1) / 2 ≤ nd.count + 1

/-- All pages but the root are half full, and an inner root has a key. -/
structure Filled (c : PageSize) (s : BTree κ β) : Prop where
  half : ∀ n < s.allocated, n ≠ s.root → (s.node n).Half c
  root : (s.node s.root).type = .inner → 0 < (s.node s.root).count

omit [LinearOrder κ] in
theorem half_split {nd r : Node κ β} (hfull : nd.isFull c = true) :
    (nd.split r).1.Half c ∧ (nd.split r).2.1.Half c := by
  unfold Node.split
  cases ht : nd.type with
  | leaf =>
      rw [Node.isFull, ht] at hfull
      have heq := of_decide_eq_true hfull
      simp only [Node.Half, Node.leafSplit, Node.createLeaf, ht]
      omega
  | inner =>
      rw [Node.isFull, ht] at hfull
      have heq := of_decide_eq_true hfull
      simp only [Node.Half, Node.innerSplit, Node.createInner, ht]
      omega

omit [LinearOrder κ] in
theorem Node.Half.mono {nd nd' : Node κ β} (h : nd.Half c) (ht : nd'.type = nd.type)
    (hc : nd.count ≤ nd'.count) : nd'.Half c := by
  unfold Node.Half at h ⊢
  rw [ht]
  cases hty : nd.type with
  | leaf =>
      rw [hty] at h
      exact Nat.le_trans h hc
  | inner =>
      rw [hty] at h
      exact Nat.le_trans h (Nat.succ_le_succ hc)

omit [LinearOrder κ] in
/-- A page whose entries are not fewer. -/
theorem Filled.setNode {nd : Node κ β} (h : Filled c s) (ht : nd.type = (s.node n).type)
    (hc : (s.node n).count ≤ nd.count) : Filled c (s.setNode n nd) := by
  have hnode : (s.setNode n nd).node = store s.node n nd := rfl
  refine ⟨fun m hm hne => ?_, fun hty => ?_⟩
  · rw [hnode]
    by_cases hmn : m = n
    · subst hmn
      rw [store_self]
      exact (h.half m hm hne).mono ht hc
    · rw [store_of_ne _ _ hmn]
      exact h.half m hm hne
  · change ((s.setNode n nd).node s.root).type = .inner at hty
    show 0 < ((s.setNode n nd).node s.root).count
    rw [hnode] at hty ⊢
    by_cases hr : s.root = n
    · subst hr
      rw [store_self] at hty ⊢
      exact lt_of_lt_of_le (h.root (ht ▸ hty)) hc
    · rw [store_of_ne _ _ hr] at hty ⊢
      exact h.root hty

theorem Filled.split_none (h : Filled c s) (hroot : s.root < s.allocated)
    (hfull : (s.node s.root).isFull c = true) : Filled c (s.split s.root none) := by
  have hhalf := half_split (r := s.node s.allocated) hfull
  have hnode : (s.split s.root none).node = store (s.half s.root).node (s.allocated + 1)
      (((s.half s.root).node (s.allocated + 1)).createRoot (s.sep s.root) s.root s.allocated) := rfl
  have hnew : (s.split s.root none).root = s.allocated + 1 := rfl
  refine ⟨fun m hm hne => ?_, fun _ => ?_⟩
  · have hlt : m < s.allocated + 2 := hm
    rw [hnew] at hne
    rw [hnode, store_of_ne _ _ hne]
    by_cases h0 : m = s.allocated
    · rw [h0, BTree.half_right]
      exact hhalf.2
    · by_cases hr : m = s.root
      · rw [hr, BTree.half_left hroot]
        exact hhalf.1
      · rw [BTree.half_of_ne (by omega) hr]
        exact h.half m (by omega) hr
  · rw [hnew, hnode, store_self]
    exact Nat.one_pos

theorem Filled.split_some (h : Filled c s) (hr : s.root < s.allocated) (hn : n < s.allocated)
    (hroot : n ≠ s.root) (hfull : (s.node n).isFull c = true) :
    Filled c (s.split n (some p)) := by
  have hhalf := half_split (r := s.node s.allocated) hfull
  have hbase : Filled c (s.half n) := by
    refine ⟨fun m hm hmr => ?_, fun hty => ?_⟩
    · have hlt : m < s.allocated + 1 := hm
      by_cases h0 : m = s.allocated
      · rw [h0, BTree.half_right]
        exact hhalf.2
      · by_cases hmn : m = n
        · rw [hmn, BTree.half_left hn]
          exact hhalf.1
        · rw [BTree.half_of_ne (by omega) hmn]
          exact h.half m (by omega) hmr
    · have hnode : (s.half n).node s.root = s.node s.root := BTree.half_of_ne hr hroot.symm
      change ((s.half n).node s.root).type = .inner at hty
      show 0 < ((s.half n).node s.root).count
      rw [hnode] at hty ⊢
      exact h.root hty
  rw [BTree.split_some]
  exact hbase.setNode rfl (Nat.le_succ _)

/-! ## Runs -/

/-- The steps that change the pages: a write of a leaf and a split. -/
theorem next_pages {pc pc' : Pc κ β} {act : Act κ β} {e : Option (Event (Op κ β) (Result β))}
    (hs : next c s pc act = some (s', pc', e)) :
    (∃ version, s' = { s with version := version }) ∨
      (∃ o n, pc = .write o n ∧ s' = s.setNode n (o.write (s.node n))) ∨
      ∃ o n parent, pc = .split o n parent ∧ s' = s.split n parent := by
  unfold next at hs
  split at hs
  all_goals first
    | (split at hs <;> (try split at hs)) <;>
        simp only [Option.some.injEq, Prod.mk.injEq] at hs <;> obtain ⟨rfl, _, _⟩ := hs <;>
        exact Or.inl ⟨_, rfl⟩
    | simp only [Option.some.injEq, Prod.mk.injEq] at hs
      obtain ⟨rfl, _, _⟩ := hs
      first
        | exact Or.inl ⟨_, rfl⟩
        | exact Or.inr (Or.inl ⟨_, _, rfl, rfl⟩)
        | exact Or.inr (Or.inr ⟨_, _, _, rfl, rfl⟩)
    | exact absurd hs (by simp)

theorem filled {memory : Nat → Node κ β} {x : World κ β}
    (hx : Reachable (next c) Recent (init memory) x) : Filled c x.shared := by
  have hinit : Filled c (init memory).shared := by
    refine ⟨fun n hn hr => absurd (Nat.lt_one_iff.mp hn) hr, fun hty => ?_⟩
    exact absurd hty (by simp [init, BTree.create, Node.createLeaf])
  refine (hx.invariant (P := fun y => Reachable (next c) Recent (init memory) y ∧
    Filled c y.shared) ⟨.start, hinit⟩ ?_).2
  rintro y i act y' ⟨hy, hf⟩ hrec hs
  refine ⟨hy.move hrec hs, ?_⟩
  obtain ⟨a, hI, hall, _⟩ := safe hy
  obtain ⟨s', pc', e, hp, rfl⟩ := step_eq_some hs
  have hholds := (hall i).holds
  rcases next_pages hp with ⟨version, rfl⟩ | ⟨o, n, hpc, rfl⟩ | ⟨o, n, parent, hpc, rfl⟩
  · exact ⟨hf.half, hf.root⟩
  · rw [hpc] at hholds
    obtain ⟨hins, hown⟩ := hholds
    cases o with
    | insert k v =>
        have hinc := (hI.inv.page n hown.lt).increasing
        exact hf.setNode (Node.type_leafInsert hinc k v) (Node.count_le_leafInsert hinc k v)
    | lookup k => exact absurd hins (by simp [Op.isInsert])
    | scan k range => exact absurd hins (by simp [Op.isInsert])
  · rw [hpc] at hholds
    cases parent with
    | none =>
        obtain ⟨hlt, _, hfull, hroot⟩ := hholds
        obtain rfl : y.shared.root = n := hroot
        exact hf.split_none hlt hfull.isFull
    | some p =>
        obtain ⟨hn, hpar⟩ := hholds
        obtain ⟨_, hlev, _⟩ := hpar.holds.on_child hI hpar.lt rfl
        have htop := hI.inv.nested.level_le p hpar.lt
        refine hf.split_some hI.inv.root_lt hn.lt ?_ hn.holds.isFull
        rintro rfl
        change a.owners.level y.shared.root + 1 = a.owners.level p at hlev
        omega

/-! ## The entries in order -/

/-- The entries below page `n`, from left to right. -/
def BTree.entries (s : BTree κ β) : Nat → Nat → List (κ × β)
  | 0, _ => []
  | fuel + 1, n =>
      match (s.node n).type with
      | .leaf =>
          (List.range (s.node n).count).map fun i => ((s.node n).keys i, (s.node n).payloads i)
      | .inner =>
          (List.range ((s.node n).count + 1)).flatMap fun i =>
            s.entries fuel ((s.node n).children i)

section Entries

variable {fuel : Nat} {q : κ}

theorem Inv.mem_entries (h : Inv c s g) (hn : n < s.allocated) (hf : g.level n < fuel) :
    (q, v) ∈ s.entries fuel n ↔ g.On n q ∧ s.content q = some v := by
  induction fuel generalizing n with
  | zero => omega
  | succ fuel ih =>
      have hpage := h.page n hn
      unfold BTree.entries
      rcases Nat.eq_zero_or_pos (g.level n) with h0 | hpos
      · rw [hpage.type_iff.mpr h0]
        simp only [List.mem_map, List.mem_range, Prod.mk.injEq]
        constructor
        · rintro ⟨i, hi, rfl, rfl⟩
          have hon := hpage.keys_on i hi
          refine ⟨hon, ?_⟩
          rw [h.content_on h0 hon]
          exact (Node.get_eq_some_iff hpage.increasing).mpr ⟨i, hi, rfl, rfl⟩
        · rintro ⟨hon, hc⟩
          rw [h.content_on h0 hon] at hc
          exact (Node.get_eq_some_iff hpage.increasing).mp hc
      · rw [hpage.type_eq_inner hpos]
        simp only [List.mem_flatMap, List.mem_range, Nat.lt_succ_iff]
        constructor
        · rintro ⟨i, hi, hm⟩
          obtain ⟨hlt, hlev, _⟩ := h.slot hn hpos hi
          obtain ⟨hon, hc⟩ := (ih hlt (by omega)).mp hm
          exact ⟨((h.on_slot_iff hn hpos hi).mp hon).1, hc⟩
        · rintro ⟨hon, hc⟩
          have hcut := Node.lowerBound_cuts hpage.increasing ((hpage.inner hpos).guarded q hon)
          obtain ⟨hlt, hlev, _⟩ := h.slot hn hpos hcut.le
          exact ⟨_, hcut.le, (ih hlt (by omega)).mpr ⟨(h.on_slot_iff hn hpos hcut.le).mpr ⟨hon, hcut⟩, hc⟩⟩

theorem Inv.sorted_entries (h : Inv c s g) (hn : n < s.allocated) (hf : g.level n < fuel) :
    (s.entries fuel n).Pairwise fun a b => a.1 < b.1 := by
  induction fuel generalizing n with
  | zero => omega
  | succ fuel ih =>
      have hpage := h.page n hn
      unfold BTree.entries
      rcases Nat.eq_zero_or_pos (g.level n) with h0 | hpos
      · rw [hpage.type_iff.mpr h0]
        refine List.pairwise_map.mpr (List.pairwise_lt_range.imp_of_mem fun {i j} _ hj hij => ?_)
        exact hpage.increasing i j hij (List.mem_range.mp hj)
      · rw [hpage.type_eq_inner hpos]
        refine List.pairwise_flatMap.mpr ⟨fun i hi => ?_, ?_⟩
        · obtain ⟨hlt, hlev, _⟩ := h.slot hn hpos (Nat.lt_succ_iff.mp (List.mem_range.mp hi))
          exact ih hlt (by omega)
        · refine List.pairwise_lt_range.imp_of_mem fun {i j} hi hj hij => ?_
          have hi' := Nat.lt_succ_iff.mp (List.mem_range.mp hi)
          have hj' := Nat.lt_succ_iff.mp (List.mem_range.mp hj)
          rintro ⟨q, v⟩ hq ⟨q', v'⟩ hq'
          obtain ⟨hlti, hlevi, _⟩ := h.slot hn hpos hi'
          obtain ⟨hltj, hlevj, _⟩ := h.slot hn hpos hj'
          have hcut := ((h.on_slot_iff hn hpos hi').mp
            ((h.mem_entries hlti (by omega)).mp hq).1).2
          have hcut' := ((h.on_slot_iff hn hpos hj').mp
            ((h.mem_entries hltj (by omega)).mp hq').1).2
          exact lt_of_le_of_lt (hcut.above i le_rfl (by omega)) (hcut'.below i hij)

omit [LinearOrder κ] in
theorem length_flatMap_ge {α : Type} {f : Nat → List α} {b : Nat} {l : List Nat}
    (h : ∀ i ∈ l, b ≤ (f i).length) : l.length * b ≤ (l.flatMap f).length := by
  induction l with
  | nil => simp
  | cons i l ih =>
      have hi := h i (List.mem_cons_self ..)
      have hrest := ih fun j hj => h j (List.mem_cons_of_mem _ hj)
      rw [List.flatMap_cons, List.length_append, List.length_cons, Nat.succ_mul]
      omega

/-- A page that is not the root has its share of entries. -/
theorem Inv.length_entries (h : Inv c s g) (hfill : Filled c s) (hn : n < s.allocated)
    (hroot : g.level n < g.level s.root) (hl : g.level n = l) (hf : l < fuel) :
    ((c.innerEntries - 1) / 2) ^ l * (c.leafEntries / 2) ≤ (s.entries fuel n).length := by
  induction fuel generalizing n l with
  | zero => omega
  | succ fuel ih =>
      have hpage := h.page n hn
      have hhalf := hfill.half n hn (by rintro rfl; omega)
      unfold BTree.entries
      unfold Node.Half at hhalf
      cases l with
      | zero =>
          rw [hpage.type_iff.mpr hl] at hhalf ⊢
          simpa using hhalf
      | succ l =>
          have hpos : 0 < g.level n := by omega
          rw [hpage.type_eq_inner hpos] at hhalf ⊢
          have hslots := length_flatMap_ge (f := fun i => s.entries fuel ((s.node n).children i))
            (l := List.range ((s.node n).count + 1)) fun i hi => by
              obtain ⟨hlt, hlev, _⟩ := h.slot hn hpos (Nat.lt_succ_iff.mp (List.mem_range.mp hi))
              exact ih hlt (by omega) (l := l) (by omega) (by omega)
          rw [List.length_range] at hslots
          refine le_trans ?_ hslots
          rw [pow_succ', Nat.mul_assoc]
          exact Nat.mul_le_mul_right _ hhalf

end Entries

/-- In every state of every run the leaves list the content in order, and the height of the tree is
logarithmic in the number of entries. -/
theorem height_bounded (c : PageSize) (memory : Nat → Node κ β) (x : World κ β)
    (hx : Reachable (next c) Recent (init memory) x) :
    ∃ height < x.shared.allocated, IsBTree c x.shared height x.shared.root none none ∧
      (∀ q v, (q, v) ∈ x.shared.entries x.shared.allocated x.shared.root ↔
        x.shared.content q = some v) ∧
      ((x.shared.entries x.shared.allocated x.shared.root).Pairwise fun a b => a.1 < b.1) ∧
      (0 < height → 2 * (((c.innerEntries - 1) / 2) ^ (height - 1) * (c.leafEntries / 2)) ≤
        (x.shared.entries x.shared.allocated x.shared.root).length) := by
  obtain ⟨a, hI, _⟩ := safe hx
  have h := hI.inv
  have hfill := filled hx
  have hroot : ∀ q, a.owners.On x.shared.root q ↔ Within none none q := fun q =>
    iff_of_true (h.on_root q) ⟨fun _ hb => absurd hb (by simp), fun _ hb => absurd hb (by simp)⟩
  refine ⟨_, h.level_lt, h.isBTree h.root_lt rfl hroot, fun q v => ?_,
    h.sorted_entries h.root_lt h.level_lt, fun hpos => ?_⟩
  · rw [h.mem_entries h.root_lt h.level_lt]
    exact and_iff_right (h.on_root q)
  · have hty := (h.page _ h.root_lt).type_eq_inner hpos
    have hcount := hfill.root hty
    have hlev := h.level_lt
    obtain ⟨fuel, hf⟩ : ∃ fuel, x.shared.allocated = fuel + 1 := ⟨x.shared.allocated - 1, by omega⟩
    rw [hf]
    unfold BTree.entries
    rw [hty]
    have hslots := length_flatMap_ge
      (f := fun i => x.shared.entries fuel ((x.shared.node x.shared.root).children i))
      (l := List.range ((x.shared.node x.shared.root).count + 1)) fun i hi => by
        obtain ⟨hlt, hl, _⟩ := h.slot h.root_lt hpos (Nat.lt_succ_iff.mp (List.mem_range.mp hi))
        exact h.length_entries hfill hlt (by omega) (l := a.owners.level x.shared.root - 1)
          (by omega) (by omega)
    rw [List.length_range] at hslots
    exact le_trans (Nat.mul_le_mul_right _ (by omega)) hslots

theorem height_bounded_all_return :
    ∃ x, Reachable (next .smallest) Recent (init fun _ => Node.zero) x ∧
      (2, 20) ∈ x.shared.entries 3 2 := by
  obtain ⟨x, hx, _, hroot, hallocated, hcontent, _⟩ := exists_allReturn
  obtain ⟨_, _, _, hmem, _⟩ := height_bounded .smallest _ x hx
  rw [hroot, hallocated] at hmem
  exact ⟨x, hx, (hmem 2 20).mpr hcontent⟩

end BtreeOlc
