import BLinkTree.Ranges
import BLinkTree.Tbb.Task

/-! # Parent pointers

The TBB trees find the way up through `parent()`. A pointer may be outdated, but it
always leads to a node on a higher level, and only the root has none. As long as the
separators stay in their ranges, it leads to a node that starts no later. Setting
parents is invisible to the search invariant.
-/

namespace BLinkTree

variable {ι : Type} {ranged : Prop} {c : Capacity} {t t' : Tree} {g g' : Ghost ι} {i : ι}

/-- Node `n` has a parent, on a higher level and, in ranged trees, starting no later. -/
def HasParent (ranged : Prop) (t : Tree) (g : Ghost ι) (n : Nat) : Prop :=
  ∃ p, t.parent n = some p ∧ p < t.count ∧ g.level n < g.level p ∧
    (ranged → g.low p ≤ g.low n)

/-- Only the root has no parent. -/
structure ParentInv (ranged : Prop) (t : Tree) (g : Ghost ι) : Prop where
  root : t.parent t.root = none
  up : ∀ n < t.count, n ≠ t.root → HasParent ranged t g n

theorem parentInv_empty (memory : Nat → Memory) :
    ParentInv ranged (Tree.empty memory) (Ghost.initial ι) := by
  refine ⟨rfl, fun n hn hne => ?_⟩
  have hn1 : n < 1 := hn
  exact absurd (Nat.lt_one_iff.mp hn1) hne

/-- A parent that nobody changes stays good. -/
theorem HasParent.frame {n : Nat} (h : HasParent ranged t g n) (hn : n < t.count)
    (he : Evolves i t g t' g') (hp : t'.parent n = t.parent n) : HasParent ranged t' g' n := by
  rcases h with ⟨p, h1, h2, h3, h4⟩
  refine ⟨p, hp.trans h1, lt_of_lt_of_le h2 he.count_le, ?_, ?_⟩
  · rw [he.level_eq n hn, he.level_eq p h2]
    exact h3
  · rw [he.low_eq n hn, he.low_eq p h2]
    exact h4

/-- Steps that keep the root: a node keeps its parent or gets a good one. -/
theorem ParentInv.step (h : ParentInv ranged t g) (he : Evolves i t g t' g')
    (hroot : t'.root = t.root) (hr : t'.parent t.root = none)
    (hp : ∀ n < t'.count, n ≠ t.root →
      n < t.count ∧ t'.parent n = t.parent n ∨ HasParent ranged t' g' n) :
    ParentInv ranged t' g' := by
  have hup : ∀ n < t'.count, n ≠ t.root → HasParent ranged t' g' n := by
    intro n hn hne
    rcases hp n hn hne with ⟨hlt, heq⟩ | hup
    · exact (h.up n hlt hne).frame hlt he heq
    · exact hup
  rw [← hroot] at hr hup
  exact ⟨hr, hup⟩

/-- A new root over the old one. -/
theorem parentInv_newRoot {x s : Nat} (hinv : Inv c (t.createNewRoot t.root x s) g')
    (hrc : t.root < t.count)
    (hup : ∀ n < t.count, n ≠ t.root → n ≠ x → HasParent ranged t g n)
    (he : Evolves i t g (t.createNewRoot t.root x s) g')
    (hlv : g'.level t.count = g.level t.root + 1) (hx : x < t.count)
    (hxl : g.level x ≤ g.level t.root) :
    ParentInv ranged (t.createNewRoot t.root x s) g' := by
  have hpar := createNewRoot_parent t x s
  have hcount : (t.createNewRoot t.root x s).count = t.count + 1 := rfl
  have hroot : (t.createNewRoot t.root x s).root = t.count := rfl
  have hlow : g'.low t.count = 0 := hinv.low_root
  refine ⟨?_, fun n hn hne => ?_⟩
  · rw [hroot, hpar, if_neg (by omega), if_pos rfl]
  · rw [hcount] at hn
    rw [hroot] at hne
    have hlt : n < t.count := by omega
    by_cases hxn : n = x ∨ n = t.root
    · refine ⟨t.count, by rw [hpar, if_pos hxn], by rw [hcount]; omega, ?_, ?_⟩
      · rw [he.level_eq n hlt, hlv]
        rcases hxn with rfl | rfl <;> omega
      · rw [hlow]
        exact fun _ => Nat.zero_le _
    · apply (hup n hlt (fun hr => hxn (Or.inr hr)) fun hr => hxn (Or.inl hr)).frame hlt he
      rw [hpar, if_neg hxn, if_neg hne]

/-! ## Setting a parent -/

theorem Inv.setParents (h : Inv c t g) (parent : Nat → Option Nat) :
    Inv c { t with parent := parent } g := by
  refine ⟨fun n hn => ?_, ⟨h.chain.mem, h.chain.nodup, ?_, h.chain.head⟩, h.root_lt, h.low_root,
    h.top_lt⟩
  · have hi := h.node n hn
    exact ⟨hi.wellFormed, hi.leaf_iff, hi.level_le, hi.right_none, hi.right_some, hi.leaf_range,
      hi.leaf_free, hi.first, hi.sep⟩
  · exact fun l => (h.chain.linked l).congr fun _ _ => rfl

theorem Inv.content_setParents (h : Inv c t g) (parent : Nat → Option Nat) :
    Tree.content { t with parent := parent } = t.content :=
  h.content_inner (h.setParents parent) rfl fun _ _ _ => rfl

theorem Evolves.setParents (he : Evolves i t g t' g') (parent : Nat → Option Nat) :
    Evolves i t g { t' with parent := parent } g' :=
  ⟨he.count_le, he.low_eq, he.level_eq, he.isLeaf_eq, he.highKey_le, he.pending⟩

theorem Pending.setParents {s x : Nat} (h : Pending t g i s x) (parent : Nat → Option Nat) :
    Pending { t with parent := parent } g i s x :=
  ⟨h.key_lt, h.lt_count, h.low_eq, h.owner_eq⟩

/-- An inner node is a good parent of its children. -/
theorem NodeInv.children_spec {n y : Nat} (h : NodeInv c t g n)
    (hl : (t.node n).isLeaf = false) (hy : some y ∈ (t.node n).children) :
    y < t.count ∧ g.level y < g.level n ∧ (Ranged t g n → g.low n ≤ g.low y) := by
  rw [Node.children_of_inner hl] at hy
  rcases List.mem_cons.mp hy with heq | hy
  · rcases h.first hl with ⟨s, h1, h2, h3, h4⟩
    rw [h1, Option.some.injEq] at heq
    subst heq
    exact ⟨h2, h3, fun _ => h4.ge⟩
  · rcases List.mem_map.mp hy with ⟨e, he, heq⟩
    rcases h.sep e he with ⟨_, _, s, h1, h2, h3, h4⟩
    rw [heq, Option.some.injEq] at h1
    subst h1
    exact ⟨h2, h3, fun hr => by rw [h4]; exact (hr e he).1⟩

end BLinkTree
