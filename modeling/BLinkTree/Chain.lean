import BLinkTree.Split

/-! # Levels and sibling chains

Proof state that accompanies a tree: for every node its lower bound and its level,
for every level the nodes from left to right, and for every separator key where it
is at the moment. Nothing of it is read by the code. A level is a rank: the
children of a node have smaller levels, but a root that was stacked on another one
by a racing thread may skip levels.
-/

namespace BLinkTree

/-- Where a separator key is: nowhere, in a node, or carried by an unfinished insert. -/
inductive Owner (ι : Type) where
  | free
  | stored (n : Nat)
  | pending (i : ι)

/-- Auxiliary state of the proofs; `ι` identifies the running operations. -/
structure Ghost (ι : Type) where
  low : Nat → Nat
  level : Nat → Nat
  chain : Nat → List Nat
  owner : Nat → Owner ι

variable {ι : Type}

/-- `t'` is `t` with other slots in node `n`. -/
structure IsWrite (t t' : Tree) (n : Nat) : Prop where
  count : t'.count = t.count
  root : t'.root = t.root
  isLeaf : (t'.node n).isLeaf = (t.node n).isLeaf
  highKey : (t'.node n).highKey = (t.node n).highKey
  right : (t'.node n).rightSibling = (t.node n).rightSibling
  frame : ∀ m, m ≠ n → t'.node m = t.node m

/-- `t'` is `t` with node `n` split at key `s` into `n` and the new node `t.count`. -/
structure IsSplit (t t' : Tree) (n : Nat) (s : Nat) : Prop where
  count : t'.count = t.count + 1
  root : t'.root = t.root
  left_isLeaf : (t'.node n).isLeaf = (t.node n).isLeaf
  left_highKey : (t'.node n).highKey = s
  left_right : (t'.node n).rightSibling = some t.count
  new_isLeaf : (t'.node t.count).isLeaf = (t.node n).isLeaf
  new_highKey : (t'.node t.count).highKey = (t.node n).highKey
  new_right : (t'.node t.count).rightSibling = (t.node n).rightSibling
  frame : ∀ m, m ≠ n → m ≠ t.count → t'.node m = t.node m

/-- `t'` is `t` with a new inner root over the old root and `right`. -/
structure IsNewRoot (t t' : Tree) (left right : Nat) (key : Nat) : Prop where
  count : t'.count = t.count + 1
  root : t'.root = t.count
  isLeaf : (t'.node t.count).isLeaf = false
  highKey : (t'.node t.count).highKey = maxKey
  rightSibling : (t'.node t.count).rightSibling = none
  size : (t'.node t.count).size = 1
  first : (t'.node t.count).first = some left
  seps : (t'.node t.count).seps = [(key, some right)]
  frame : ∀ m, m ≠ t.count → t'.node m = t.node m

/-! ## Chains -/

/-- Every node of the list has its successor in the list as right sibling. -/
def Linked (t : Tree) : List Nat → Prop
  | [] => True
  | n :: l => (t.node n).rightSibling = l.head? ∧ Linked t l

theorem Linked.congr {t t' : Tree} {l : List Nat} (h : Linked t l)
    (hr : ∀ n ∈ l, (t'.node n).rightSibling = (t.node n).rightSibling) : Linked t' l := by
  induction l with
  | nil => trivial
  | cons a l ih =>
      obtain ⟨ha, hl⟩ := h
      refine ⟨?_, ih hl fun n hn => hr n (by simp [hn])⟩
      rw [hr a (by simp), ha]

theorem Linked.suffix {t : Tree} {pre : List Nat} {l : List Nat}
    (h : Linked t (pre ++ l)) : Linked t l := by
  induction pre with
  | nil => exact h
  | cons a pre ih => exact ih h.2

/-- A split puts the new node right behind the old one. -/
theorem Linked.split {t t' : Tree} {n : Nat} {s : Nat} (hs : IsSplit t t' n s)
    {pre post : List Nat} (h : Linked t (pre ++ n :: post))
    (hnd : (pre ++ n :: post).Nodup) (hlt : ∀ m ∈ pre ++ n :: post, m < t.count) :
    Linked t' (pre ++ n :: t.count :: post) := by
  induction pre with
  | nil =>
      obtain ⟨hn, hl⟩ := h
      have hpost : ∀ m ∈ post, (t'.node m).rightSibling = (t.node m).rightSibling := by
        intro m hm
        have hmn : m ≠ n := fun he => (List.nodup_cons.mp hnd).1 (he ▸ hm)
        have hmc : m ≠ t.count := (hlt m (by simp [hm])).ne
        rw [hs.frame m hmn hmc]
      exact ⟨hs.left_right, hs.new_right.trans hn, hl.congr hpost⟩
  | cons a pre ih =>
      obtain ⟨ha, hl⟩ := h
      have han : a ≠ n := by
        rintro rfl
        simp at hnd
      have hac : a ≠ t.count := (hlt a (by simp)).ne
      refine ⟨?_, ih hl (List.nodup_cons.mp hnd).2 fun m hm => hlt m (by simp [hm])⟩
      rw [hs.frame a han hac, ha]
      cases pre <;> rfl

/-- Put `r` right behind `n`. -/
def insertAfter (n r : Nat) : List Nat → List Nat
  | [] => []
  | a :: l => if a = n then a :: r :: l else a :: insertAfter n r l

theorem insertAfter_append {n r : Nat} {pre post : List Nat} (h : n ∉ pre) :
    insertAfter n r (pre ++ n :: post) = pre ++ n :: r :: post := by
  induction pre with
  | nil => simp [insertAfter]
  | cons a pre ih =>
      simp only [List.mem_cons, not_or] at h
      simp only [List.cons_append, insertAfter, if_neg (Ne.symm h.1), ih h.2]

/-- The sibling chains list every node of their level once, from left to right. -/
structure ChainInv (t : Tree) (g : Ghost ι) : Prop where
  mem : ∀ l n, n ∈ g.chain l ↔ n < t.count ∧ g.level n = l
  nodup : ∀ l, (g.chain l).Nodup
  linked : ∀ l, Linked t (g.chain l)
  head : ∀ l n, (g.chain l).head? = some n → g.low n = 0

/-- The chain around one of its nodes. -/
theorem ChainInv.around {t : Tree} {g : Ghost ι} (h : ChainInv t g) {n : Nat}
    (hn : n < t.count) :
    ∃ pre post, g.chain (g.level n) = pre ++ n :: post ∧ n ∉ pre ∧ n ∉ post := by
  obtain ⟨pre, post, he⟩ := List.append_of_mem ((h.mem (g.level n) n).mpr ⟨hn, rfl⟩)
  have hnd := h.nodup (g.level n)
  rw [he] at hnd
  refine ⟨pre, post, he, ?_, ?_⟩
  · exact fun hp => (List.nodup_append.mp hnd).2.2 n hp n (by simp) rfl
  · exact (List.nodup_cons.mp (List.nodup_append.mp hnd).2.1).1

theorem ChainInv.of_write {t t' : Tree} {g g' : Ghost ι} (h : ChainInv t g) {n : Nat}
    (hw : IsWrite t t' n) (hlow : g'.low = g.low) (hlevel : g'.level = g.level)
    (hchain : g'.chain = g.chain) : ChainInv t' g' := by
  refine ⟨?_, ?_, ?_, ?_⟩
  · intro l m
    rw [hchain, hlevel, hw.count]
    exact h.mem l m
  · intro l
    rw [hchain]
    exact h.nodup l
  · intro l
    rw [hchain]
    refine (h.linked l).congr fun m _ => ?_
    by_cases hm : m = n
    · rw [hm, hw.right]
    · rw [hw.frame m hm]
  · intro l m hm
    rw [hchain] at hm
    rw [hlow]
    exact h.head l m hm

/-- The proof state after a split of `n` at `s` into `n` and `r`. -/
def Ghost.split (g : Ghost ι) (n r : Nat) (s : Nat) (owner : Nat → Owner ι) : Ghost ι where
  low := Slots.store g.low r s
  level := Slots.store g.level r (g.level n)
  chain := fun l => if l = g.level n then insertAfter n r (g.chain l) else g.chain l
  owner := owner

theorem Ghost.split_chain_eq (g : Ghost ι) {n : Nat} (r s : Nat) (owner : Nat → Owner ι)
    {pre post : List Nat} (he : g.chain (g.level n) = pre ++ n :: post) (hn : n ∉ pre) :
    (g.split n r s owner).chain (g.level n) = pre ++ n :: r :: post := by
  simp only [split, if_pos, he, insertAfter_append hn]

theorem ChainInv.of_split {t t' : Tree} {g : Ghost ι} (h : ChainInv t g) {n : Nat} {s : Nat}
    (hn : n < t.count) (hs : IsSplit t t' n s) (owner : Nat → Owner ι) :
    ChainInv t' (g.split n t.count s owner) := by
  obtain ⟨pre, post, he, hpre, hpost⟩ := h.around hn
  have hnew := g.split_chain_eq t.count s owner he hpre
  have hold : ∀ l, l ≠ g.level n → (g.split n t.count s owner).chain l = g.chain l :=
    fun l hl => if_neg hl
  have hlt : ∀ m ∈ pre ++ n :: post, m < t.count := by
    intro m hm
    rw [← he] at hm
    exact ((h.mem _ m).mp hm).1
  have hnd : (pre ++ n :: post).Nodup := he ▸ h.nodup _
  refine ⟨?_, ?_, ?_, ?_⟩
  · intro l m
    rw [hs.count]
    simp only [Ghost.split]
    by_cases hl : l = g.level n
    · have hm := h.mem (g.level n) m
      subst hl
      rw [if_pos rfl, he, insertAfter_append hpre]
      rw [he] at hm
      by_cases hmc : m = t.count
      · subst hmc
        simp
      · rw [Slots.store_of_ne _ _ hmc]
        simp only [List.mem_append, List.mem_cons] at hm ⊢
        constructor
        · intro hmem
          have := hm.mp (by tauto)
          omega
        · intro hlv
          have := hm.mpr ⟨by omega, hlv.2⟩
          tauto
    · rw [if_neg hl, h.mem l m]
      by_cases hmc : m = t.count
      · subst hmc
        simp [Ne.symm hl]
      · rw [Slots.store_of_ne _ _ hmc]
        omega
  · intro l
    by_cases hl : l = g.level n
    · subst hl
      rw [hnew]
      have hc : t.count ∉ pre ++ n :: post := fun hm => lt_irrefl _ (hlt _ hm)
      simp only [List.mem_append, List.mem_cons, not_or] at hc
      have h1 := List.nodup_append.mp hnd
      refine List.nodup_append.mpr ⟨h1.1, ?_, ?_⟩
      · rw [List.nodup_cons, List.nodup_cons] at *
        simp only [List.mem_cons, not_or]
        tauto
      · intro a ha b hb
        rcases List.mem_cons.mp hb with rfl | hb
        · exact h1.2.2 a ha b (by simp)
        · rcases List.mem_cons.mp hb with rfl | hb
          · rintro rfl
            exact hc.1 ha
          · exact h1.2.2 a ha b (by simp [hb])
    · rw [hold l hl]
      exact h.nodup l
  · intro l
    by_cases hl : l = g.level n
    · subst hl
      rw [hnew]
      exact Linked.split hs (he ▸ h.linked _) hnd hlt
    · rw [hold l hl]
      refine (h.linked l).congr fun m hm => ?_
      obtain ⟨hmc, hml⟩ := (h.mem l m).mp hm
      rw [hs.frame m (by rintro rfl; exact hl hml.symm) hmc.ne]
  · intro l m hm
    have hmem : ∀ l m, (g.chain l).head? = some m → m ≠ t.count := by
      intro l m hm
      have := ((h.mem l m).mp (List.mem_of_mem_head? hm)).1
      omega
    by_cases hl : l = g.level n
    · subst hl
      rw [hnew] at hm
      have hm' : (g.chain (g.level n)).head? = some m := by
        rw [he]
        cases pre <;> simpa using hm
      simp only [Ghost.split]
      rw [Slots.store_of_ne _ _ (hmem _ m hm')]
      exact h.head _ m hm'
    · rw [hold l hl] at hm
      simp only [Ghost.split]
      rw [Slots.store_of_ne _ _ (hmem l m hm)]
      exact h.head l m hm

/-- The proof state after the creation of root `r` for separator key `s`. -/
def Ghost.newRoot (g : Ghost ι) (old r : Nat) (s : Nat) : Ghost ι where
  low := Slots.store g.low r 0
  level := Slots.store g.level r (g.level old + 1)
  chain := fun l => if l = g.level old + 1 then [r] else g.chain l
  owner := fun k => if k = s then .stored r else g.owner k

theorem ChainInv.of_newRoot {t t' : Tree} {g : Ghost ι} (h : ChainInv t g) {right : Nat}
    {s : Nat} (hlevel : ∀ n < t.count, g.level n ≤ g.level t.root)
    (hs : IsNewRoot t t' t.root right s) : ChainInv t' (g.newRoot t.root t.count s) := by
  have hold : ∀ l, l ≠ g.level t.root + 1 →
      (g.newRoot t.root t.count s).chain l = g.chain l := fun l hl => if_neg hl
  have htop : (g.newRoot t.root t.count s).chain (g.level t.root + 1) = [t.count] := if_pos rfl
  refine ⟨?_, ?_, ?_, ?_⟩
  · intro l m
    rw [hs.count]
    simp only [Ghost.newRoot]
    by_cases hmc : m = t.count
    · subst hmc
      rw [Slots.store_self]
      by_cases hl : l = g.level t.root + 1
      · simp [hl]
      · rw [if_neg hl, h.mem l]
        omega
    · rw [Slots.store_of_ne _ _ hmc]
      by_cases hl : l = g.level t.root + 1
      · rw [if_pos hl]
        simp only [List.mem_singleton, hmc, false_iff, not_and]
        intro hlt heq
        have := hlevel m (by omega)
        omega
      · rw [if_neg hl, h.mem l]
        omega
  · intro l
    by_cases hl : l = g.level t.root + 1
    · rw [hl, htop]
      simp
    · rw [hold l hl]
      exact h.nodup l
  · intro l
    by_cases hl : l = g.level t.root + 1
    · rw [hl, htop]
      exact ⟨hs.rightSibling, trivial⟩
    · rw [hold l hl]
      refine (h.linked l).congr fun m hm => ?_
      rw [hs.frame m ((h.mem l m).mp hm).1.ne]
  · intro l m hm
    by_cases hl : l = g.level t.root + 1
    · rw [hl, htop] at hm
      obtain rfl : t.count = m := by simpa using hm
      simp [Ghost.newRoot]
    · rw [hold l hl] at hm
      have hmc := ((h.mem l m).mp (List.mem_of_mem_head? hm)).1
      simp only [Ghost.newRoot]
      rw [Slots.store_of_ne _ _ hmc.ne]
      exact h.head l m hm

end BLinkTree
