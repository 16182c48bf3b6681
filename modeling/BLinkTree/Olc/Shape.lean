import BLinkTree.Olc.Linearizable
import Mathlib.Data.List.Nodup

/-! # The shape of the B-tree

What the tree looks like to somebody who knows nothing of owners: a search tree whose leaves
are all on one level, with full pages at most, and in which every page has one place. The
destructors of the pages delete each page once.
-/

namespace BtreeOlc

open Slots Hierarchy Linearization Interleaving VersionLock

variable {κ β : Type} [LinearOrder κ] {c : PageSize} {s : BTree κ β} {g : Owners κ}
  {n m i fuel l : Nat} {lo hi : Option κ} {q : κ}

/-! ## Slots -/

theorem Inv.slot (h : Inv c s g) (hn : n < s.allocated) (hl : 0 < g.level n)
    (hi : i ≤ (s.node n).count) :
    (s.node n).children i < s.allocated ∧ g.level ((s.node n).children i) + 1 = g.level n ∧
      ∃ q, g.On n q ∧ g.On ((s.node n).children i) q := by
  obtain ⟨q, hq, _, he⟩ := (h.page n hn).slot_on hl hi
  obtain ⟨h1, h2, h3⟩ := h.on_child hn hl hq
  rw [h.child_eq hn hl hq, ← he] at h1 h2 h3
  exact ⟨h1, h2, q, hq, h3⟩

/-- A child owns the keys of its page that stand at its slot. -/
theorem Inv.on_slot_iff (h : Inv c s g) (hn : n < s.allocated) (hl : 0 < g.level n)
    (hi : i ≤ (s.node n).count) :
    g.On ((s.node n).children i) q ↔
      g.On n q ∧ Cuts (s.node n).keys (s.node n).count q i := by
  have hpage := h.page n hn
  have hin := hpage.inner hl
  obtain ⟨hlt, hlev, x, hx, hxc⟩ := h.slot hn hl hi
  have htop := h.nested.level_le n hn
  constructor
  · intro hq
    have hup := h.nested.on_above (by omega) hq hxc
    rw [hlev] at hup
    have hnq : g.On n q := hup.trans hx
    have hcut := Node.lowerBound_cuts hpage.increasing (hin.guarded q hnq)
    have hchild : (s.node n).children ((s.node n).lowerBound q) = (s.node n).children i := by
      show (s.node n).child q = _
      rw [h.child_eq hn hl hnq, show g.level n - 1 = g.level ((s.node n).children i) by omega]
      exact hq
    have hslot := hin.distinct _ _ (Nat.lt_succ_of_le hcut.le) (Nat.lt_succ_of_le hi) hchild
    exact ⟨hnq, hslot ▸ hcut⟩
  · rintro ⟨hnq, hcut⟩
    have hchild := Node.child_eq hpage.increasing (hin.guarded q hnq) hcut
    obtain ⟨_, _, hon⟩ := h.on_child hn hl hnq
    rwa [hchild] at hon

/-! ## A search tree -/

/-- Behind `lo` and up to `hi`. -/
def Within (lo hi : Option κ) (q : κ) : Prop := (∀ a ∈ lo, a < q) ∧ ∀ b ∈ hi, q ≤ b

/-- The bounds of slot `i`. -/
def lowerAt (nd : Node κ β) (lo : Option κ) (i : Nat) : Option κ :=
  if i = 0 then lo else some (nd.keys (i - 1))

def upperAt (nd : Node κ β) (hi : Option κ) (i : Nat) : Option κ :=
  if i < nd.count then some (nd.keys i) else hi

/-- The pages below `n` form a search tree of height `l` for the keys behind `lo` and up to `hi`. -/
def IsBTree (c : PageSize) (s : BTree κ β) : Nat → Nat → Option κ → Option κ → Prop
  | 0, n, lo, hi =>
      n < s.allocated ∧ (s.node n).type = .leaf ∧ (s.node n).count ≤ c.leafEntries ∧
        Increasing (s.node n).keys (s.node n).count ∧
        ∀ i < (s.node n).count, Within lo hi ((s.node n).keys i)
  | l + 1, n, lo, hi =>
      n < s.allocated ∧ (s.node n).type = .inner ∧ (s.node n).count ≤ c.innerEntries - 1 ∧
        Increasing (s.node n).keys (s.node n).count ∧
        (∀ i < (s.node n).count, Within lo hi ((s.node n).keys i)) ∧
        ∀ i ≤ (s.node n).count, IsBTree c s l ((s.node n).children i)
          (lowerAt (s.node n) lo i) (upperAt (s.node n) hi i)

/-- The bounds of a slot are those of the position. -/
theorem within_slot_iff {nd : Node κ β} (h : Increasing nd.keys nd.count) (hi' : i ≤ nd.count)
    (hkeys : ∀ j < nd.count, Within lo hi (nd.keys j)) :
    Within (lowerAt nd lo i) (upperAt nd hi i) q ↔ Within lo hi q ∧ Cuts nd.keys nd.count q i := by
  constructor
  · rintro ⟨hlow, hup⟩
    have hbelow : ∀ j < i, nd.keys j < q := by
      intro j hj
      have hlast := hlow (nd.keys (i - 1)) (by rw [lowerAt, if_neg (by omega)]; rfl)
      exact lt_of_le_of_lt (h.le_of_le (by omega) (by omega)) hlast
    have habove : ∀ j, i ≤ j → j < nd.count → q ≤ nd.keys j := by
      intro j h1 h2
      have hfirst := hup (nd.keys i) (by rw [upperAt, if_pos (by omega)]; rfl)
      exact hfirst.trans (h.le_of_le h1 h2)
    refine ⟨⟨fun a ha => ?_, fun b hb => ?_⟩, hi', hbelow, habove⟩
    · by_cases h0 : i = 0
      · exact hlow a (by rw [lowerAt, if_pos h0]; exact ha)
      · exact ((hkeys 0 (by omega)).1 a ha).trans (hbelow 0 (by omega))
    · by_cases hc : i < nd.count
      · exact (habove i le_rfl hc).trans ((hkeys i hc).2 b hb)
      · exact hup b (by rw [upperAt, if_neg hc]; exact hb)
  · rintro ⟨⟨hlow, hup⟩, hcut⟩
    refine ⟨fun a ha => ?_, fun b hb => ?_⟩
    · unfold lowerAt at ha
      split at ha
      · exact hlow a ha
      · obtain rfl := Option.some.inj ha
        exact hcut.below _ (by omega)
    · unfold upperAt at hb
      split at hb
      next hc =>
        obtain rfl := Option.some.inj hb
        exact hcut.above i le_rfl hc
      · exact hup b hb

theorem Inv.isBTree (h : Inv c s g) (hn : n < s.allocated) (hl : g.level n = l)
    (hon : ∀ q, g.On n q ↔ Within lo hi q) : IsBTree c s l n lo hi := by
  induction l generalizing n lo hi with
  | zero =>
      have hpage := h.page n hn
      exact ⟨hn, hpage.type_iff.mpr hl, hpage.leaf_count hl, hpage.increasing,
        fun i hi' => (hon _).mp (hpage.keys_on i hi')⟩
  | succ l ih =>
      have hpage := h.page n hn
      have hpos : 0 < g.level n := by omega
      have hkeys : ∀ j < (s.node n).count, Within lo hi ((s.node n).keys j) := fun j hj =>
        (hon _).mp (hpage.keys_on j hj)
      refine ⟨hn, hpage.type_eq_inner hpos, hpage.inner_count hpos, hpage.increasing, hkeys,
        fun i hi' => ?_⟩
      obtain ⟨hlt, hlev, _⟩ := h.slot hn hpos hi'
      refine ih hlt (by omega) fun q => ?_
      rw [h.on_slot_iff hn hpos hi', within_slot_iff hpage.increasing hi' hkeys, hon]

/-- In every state of every run the pages form one search tree with all leaves on one level. -/
theorem searchTree (c : PageSize) (memory : Nat → Node κ β) (x : World κ β)
    (hx : Reachable (next c) Recent (init memory) x) :
    ∃ height < x.shared.allocated, IsBTree c x.shared height x.shared.root none none := by
  obtain ⟨a, hI, _⟩ := safe hx
  refine ⟨_, hI.inv.level_lt, hI.inv.isBTree hI.inv.root_lt rfl fun q => ?_⟩
  exact iff_of_true (hI.inv.on_root q) ⟨fun a ha => absurd ha (by simp), fun b hb =>
    absurd hb (by simp)⟩

/-- After one split the root is above two leaves. -/
theorem searchTree_all_return :
    ∃ x height, Reachable (next .smallest) Recent (init fun _ => Node.zero) x ∧
      x.shared.root = 2 ∧ height < 3 ∧ IsBTree .smallest x.shared height 2 none none := by
  obtain ⟨x, hx, _, hroot, hallocated, _⟩ := exists_allReturn
  obtain ⟨height, hlt, htree⟩ := searchTree .smallest _ x hx
  rw [hallocated] at hlt
  rw [hroot] at htree
  exact ⟨x, height, hx, hroot, hlt, htree⟩

/-! ## Destruction -/

/-- The pages that `delete` of page `n` frees, in this order. -/
def BTree.destroy (s : BTree κ β) : Nat → Nat → List Nat
  | 0, _ => []
  | fuel + 1, n =>
      match (s.node n).type with
      | .leaf => [n]
      | .inner =>
          (List.range ((s.node n).count + 1)).flatMap (fun i =>
            s.destroy fuel ((s.node n).children i)) ++ [n]

/-- A page below `n`: it shares keys with it. -/
def Below (s : BTree κ β) (g : Owners κ) (n m : Nat) : Prop :=
  m < s.allocated ∧ g.level m < g.level n ∧ ∃ q, g.On m q ∧ g.On n q

theorem Inv.below_iff (h : Inv c s g) (hn : n < s.allocated) (hl : 0 < g.level n) :
    Below s g n m ↔ ∃ i ≤ (s.node n).count,
      m = (s.node n).children i ∨ Below s g ((s.node n).children i) m := by
  have htop := h.nested.level_le n hn
  constructor
  · rintro ⟨hm, hlt, q, hmq, hnq⟩
    have hpage := h.page n hn
    have hcut := Node.lowerBound_cuts hpage.increasing ((hpage.inner hl).guarded q hnq)
    have hcq := (h.on_slot_iff hn hl hcut.le).mpr ⟨hnq, hcut⟩
    obtain ⟨_, hlev, _⟩ := h.slot hn hl hcut.le
    refine ⟨_, hcut.le, ?_⟩
    rcases Nat.lt_or_eq_of_le (by omega : g.level m ≤ g.level ((s.node n).children
      ((s.node n).lowerBound q))) with hlt' | heq
    · exact Or.inr ⟨hm, hlt', q, hmq, hcq⟩
    · have hmq' : g.owner (g.level m) q = m := hmq
      rw [heq] at hmq'
      exact Or.inl (hmq'.symm.trans hcq)
  · rintro ⟨i, hi, hm⟩
    obtain ⟨hlt, hlev, q, hnq, hcq⟩ := h.slot hn hl hi
    rcases hm with rfl | ⟨hm, hml, q', hmq, hcq'⟩
    · exact ⟨hlt, by omega, q, hcq, hnq⟩
    · exact ⟨hm, by omega, q', hmq, ((h.on_slot_iff hn hl hi).mp hcq').1⟩

theorem Inv.mem_destroy (h : Inv c s g) (hn : n < s.allocated) (hf : g.level n < fuel) :
    m ∈ s.destroy fuel n ↔ m = n ∨ Below s g n m := by
  induction fuel generalizing n with
  | zero => omega
  | succ fuel ih =>
      unfold BTree.destroy
      rcases Nat.eq_zero_or_pos (g.level n) with h0 | hpos
      · rw [(h.page n hn).type_iff.mpr h0, List.mem_singleton]
        exact ⟨Or.inl, fun hm => hm.resolve_right fun hb => absurd hb.2.1 (by omega)⟩
      · rw [(h.page n hn).type_eq_inner hpos, h.below_iff hn hpos]
        simp only [List.mem_append, List.mem_flatMap, List.mem_range, List.mem_singleton,
          Nat.lt_succ_iff]
        rw [or_comm]
        refine or_congr Iff.rfl (exists_congr fun i => and_congr_right fun hi => ?_)
        obtain ⟨hlt, hlev, _⟩ := h.slot hn hpos hi
        exact ih hlt (by omega)

/-- Two slots have no page in common. -/
theorem Inv.destroy_disjoint (h : Inv c s g) (hn : n < s.allocated) (hl : 0 < g.level n)
    {j : Nat} (hi : i ≤ (s.node n).count) (hj : j ≤ (s.node n).count) (hij : i ≠ j)
    (hmi : m = (s.node n).children i ∨ Below s g ((s.node n).children i) m)
    (hmj : m = (s.node n).children j ∨ Below s g ((s.node n).children j) m) : False := by
  obtain ⟨_, hlevi, x, _, hxi⟩ := h.slot hn hl hi
  obtain ⟨_, hlevj, y, _, hyj⟩ := h.slot hn hl hj
  have htop := h.nested.level_le n hn
  have hne : (s.node n).children i ≠ (s.node n).children j := fun he =>
    hij (((h.page n hn).inner hl).distinct i j (Nat.lt_succ_of_le hi) (Nat.lt_succ_of_le hj) he)
  rcases hmi with rfl | ⟨_, hmli, q, hmq, hqi⟩
  · rcases hmj with he | ⟨_, hml, _⟩
    · exact hne he
    · omega
  · rcases hmj with rfl | ⟨_, _, q', hmq', hqj⟩
    · omega
    · -- the keys of a page stay together on the level of the two children
      have hup : ∀ d, g.level m + d ≤ g.level ((s.node n).children i) →
          g.owner (g.level m + d) q = g.owner (g.level m + d) q' := by
        intro d
        induction d with
        | zero => exact fun _ => hmq.trans hmq'.symm
        | succ d ih =>
            exact fun hd => h.nested.coherent (g.level m + d) (by omega) q q' (ih (by omega))
      have heq := hup (g.level ((s.node n).children i) - g.level m) (by omega)
      rw [show g.level m + (g.level ((s.node n).children i) - g.level m) =
        g.level ((s.node n).children i) by omega] at heq
      have hqj' : g.owner (g.level ((s.node n).children i)) q' = (s.node n).children j := by
        rw [show g.level ((s.node n).children i) = g.level ((s.node n).children j) by omega]
        exact hqj
      exact hne (hqi.symm.trans (heq.trans hqj'))

theorem Inv.nodup_destroy (h : Inv c s g) (hn : n < s.allocated) (hf : g.level n < fuel) :
    (s.destroy fuel n).Nodup := by
  induction fuel generalizing n with
  | zero => omega
  | succ fuel ih =>
      unfold BTree.destroy
      rcases Nat.eq_zero_or_pos (g.level n) with h0 | hpos
      · rw [(h.page n hn).type_iff.mpr h0]
        exact List.nodup_singleton n
      · rw [(h.page n hn).type_eq_inner hpos]
        have hmem : ∀ i ≤ (s.node n).count, ∀ m, m ∈ s.destroy fuel ((s.node n).children i) ↔
            m = (s.node n).children i ∨ Below s g ((s.node n).children i) m := by
          intro i hi m
          obtain ⟨hlt, hlev, _⟩ := h.slot hn hpos hi
          exact h.mem_destroy hlt (by omega)
        refine List.nodup_append.mpr ⟨List.nodup_flatMap.mpr ⟨fun i hi => ?_, ?_⟩,
          List.nodup_singleton n, fun a ha b hb => ?_⟩
        · obtain ⟨hlt, hlev, _⟩ := h.slot hn hpos (Nat.lt_succ_iff.mp (List.mem_range.mp hi))
          exact ih hlt (by omega)
        · refine List.nodup_range.imp_of_mem fun {i j} hi hj hij => ?_
          have hi' := Nat.lt_succ_iff.mp (List.mem_range.mp hi)
          have hj' := Nat.lt_succ_iff.mp (List.mem_range.mp hj)
          exact List.disjoint_left.mpr fun m hm hm' => h.destroy_disjoint hn hpos hi' hj' hij
            ((hmem i hi' m).mp hm) ((hmem j hj' m).mp hm')
        · obtain ⟨i, hi, ha⟩ := List.mem_flatMap.mp ha
          have hi' := Nat.lt_succ_iff.mp (List.mem_range.mp hi)
          obtain ⟨_, hlt, _⟩ : Below s g n a :=
            (h.below_iff hn hpos).mpr ⟨i, hi', (hmem i hi' a).mp ha⟩
          rw [List.mem_singleton.mp hb]
          rintro rfl
          exact absurd hlt (lt_irrefl _)

/-- The destructor of the tree deletes every page that was ever created, each of them once. -/
theorem destroys_all (c : PageSize) (memory : Nat → Node κ β) (x : World κ β)
    (hx : Reachable (next c) Recent (init memory) x) :
    (x.shared.destroy x.shared.allocated x.shared.root).Perm (List.range x.shared.allocated) := by
  obtain ⟨a, hI, _⟩ := safe hx
  have h := hI.inv
  refine (List.perm_ext_iff_of_nodup (h.nodup_destroy h.root_lt h.level_lt) List.nodup_range).mpr
    fun m => ?_
  rw [h.mem_destroy h.root_lt h.level_lt, List.mem_range]
  constructor
  · rintro (rfl | hb)
    · exact h.root_lt
    · exact hb.1
  · intro hm
    rcases Nat.lt_or_eq_of_le (h.nested.level_le m hm) with hlt | heq
    · obtain ⟨y, _⟩ := ((h.page _ h.root_lt).inner (by omega)).last_on
      obtain ⟨q, hq⟩ := h.nested.owned ⟨y⟩ m hm
      exact Or.inr ⟨hm, hlt, q, hq, h.on_root q⟩
    · exact Or.inl (h.root_unique m hm heq)

theorem destroys_all_all_return :
    ∃ x, Reachable (next .smallest) Recent (init fun _ => Node.zero) x ∧
      (x.shared.destroy 3 2).Perm [0, 1, 2] := by
  obtain ⟨x, hx, _, hroot, hallocated, _⟩ := exists_allReturn
  have hall := destroys_all .smallest _ x hx
  rw [hroot, hallocated] at hall
  exact ⟨x, hx, hall⟩

end BtreeOlc
