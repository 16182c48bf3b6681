import BLinkTree.Lib.Hierarchy
import BLinkTree.Olc.Tree

/-! # The structure of the B-tree

The invariant of the tree with the owners of its keys, and that the splits and the writes of a
leaf keep it. A split changes neither the levels below nor what the tree maps keys to.
-/

namespace BtreeOlc

open Slots Hierarchy

variable {κ β : Type} [LinearOrder κ] {c : PageSize} {s s' : BTree κ β} {g g' : Owners κ}
  {n m p l : Nat} {k q q' : κ} {v : β}

/-- The invariant of the tree. -/
structure Inv (c : PageSize) (s : BTree κ β) (g : Owners κ) : Prop where
  nested : Nested g s.allocated (g.level s.root)
  root_lt : s.root < s.allocated
  owner_root : ∀ q, g.owner (g.level s.root) q = s.root
  root_unique : ∀ n < s.allocated, g.level n = g.level s.root → n = s.root
  level_lt : g.level s.root < s.allocated
  page : ∀ n < s.allocated, PageInv c (s.node n) (g.level n) (g.On n) (g.owner (g.level n - 1))

theorem inv_create (c : PageSize) (memory : Nat → Node κ β) :
    Inv c (BTree.create memory) (Owners.single κ) := by
  refine ⟨nested_single κ, Nat.one_pos, fun _ => rfl, fun n hn _ => Nat.lt_one_iff.mp hn,
    Nat.one_pos, fun n hn => ?_⟩
  obtain rfl := Nat.lt_one_iff.mp hn
  have hnode : (BTree.create memory).node 0 = (memory 0).createLeaf :=
    store_self memory 0 (memory 0).createLeaf
  rw [hnode]
  exact ⟨iff_of_true rfl rfl, fun i j _ hj => absurd hj (by simp [Node.createLeaf]),
    fun _ => Nat.zero_le _, fun hl => absurd hl (by simp [Owners.single]),
    fun i hi => absurd hi (by simp [Node.createLeaf]),
    fun hl => absurd hl (by simp [Owners.single])⟩

/-! ## The way down -/

theorem Inv.on_root (h : Inv c s g) (q : κ) : g.On s.root q := h.owner_root q

/-- The child of a page for a key it owns. -/
theorem Inv.child_eq (h : Inv c s g) (hn : n < s.allocated) (hl : 0 < g.level n) (hq : g.On n q) :
    (s.node n).child q = g.owner (g.level n - 1) q :=
  ((h.page n hn).inner hl).child_eq q hq

/-- What a reader follows from a page that owns its key. -/
theorem Inv.on_child (h : Inv c s g) (hn : n < s.allocated) (hl : 0 < g.level n)
    (hq : g.On n q) :
    (s.node n).child q < s.allocated ∧ g.level ((s.node n).child q) + 1 = g.level n ∧
      g.On ((s.node n).child q) q := by
  have hle := h.nested.level_le n hn
  rw [h.child_eq hn hl hq]
  refine ⟨h.nested.lt _ (by omega) q, ?_, h.nested.on_owner (by omega) q⟩
  rw [h.nested.level_owner _ (by omega)]
  omega

theorem Inv.leafBelow_eq (h : Inv c s g) (hn : n < s.allocated) (hq : g.On n q) {fuel : Nat}
    (hf : g.level n ≤ fuel) : s.leafBelow q fuel n = g.owner 0 q := by
  induction fuel generalizing n with
  | zero =>
      have hzero : g.level n = 0 := by omega
      unfold Owners.On at hq
      rw [hzero] at hq
      exact hq.symm
  | succ fuel ih =>
      unfold BTree.leafBelow
      by_cases ht : (s.node n).type = .leaf
      · have hzero := (h.page n hn).type_iff.mp ht
        unfold Owners.On at hq
        rw [hzero] at hq
        rw [if_pos ht]
        exact hq.symm
      · have hpos : 0 < g.level n := Nat.pos_of_ne_zero fun h0 => ht ((h.page n hn).type_iff.mpr h0)
        obtain ⟨h1, h2, h3⟩ := h.on_child hn hpos hq
        rw [if_neg ht]
        exact ih h1 h3 (by omega)

theorem Inv.content_eq (h : Inv c s g) (q : κ) :
    s.content q = (s.node (g.owner 0 q)).get q := by
  have hlt := h.level_lt
  unfold BTree.content
  rw [h.leafBelow_eq h.root_lt (h.on_root q) (by omega)]

theorem Inv.content_on (h : Inv c s g) (hl : g.level n = 0) (hq : g.On n q) :
    s.content q = (s.node n).get q := by
  unfold Owners.On at hq
  rw [hl] at hq
  rw [h.content_eq, hq]

/-- The versions of the locks do not matter. -/
theorem Inv.setVersion (h : Inv c s g) (version : Nat → Nat) :
    Inv c { s with version := version } g := by
  obtain ⟨h1, h2, h3, h4, h5, h6⟩ := h
  exact ⟨h1, h2, h3, h4, h5, h6⟩

theorem Inv.content_setVersion (h : Inv c s g) (version : Nat → Nat) :
    BTree.content { s with version := version } = s.content :=
  funext fun q => ((h.setVersion version).content_eq q).trans (h.content_eq q).symm

/-- Keys between two keys with the same owner have this owner, too. -/
theorem Inv.owner_between (h : Inv c s g) {a b : κ} (haq : a ≤ q) (hqb : q ≤ b) {d : Nat}
    (hd : l + d = g.level s.root) (he : g.owner l a = g.owner l b) :
    g.owner l q = g.owner l a := by
  induction d generalizing l with
  | zero =>
      obtain rfl : l = g.level s.root := by omega
      rw [h.owner_root, h.owner_root]
  | succ d ih =>
      have hab := h.nested.coherent l (by omega) a b he
      have haq' := ih (l := l + 1) (by omega) hab
      have hlev := h.nested.level_owner (l + 1) (by omega) a
      have hpage := h.page _ (h.nested.lt (l + 1) (by omega) a)
      have hon : ∀ x, g.owner (l + 1) x = g.owner (l + 1) a → g.On (g.owner (l + 1) a) x := by
        intro x hx
        unfold Owners.On
        rw [hlev, hx]
      rw [hlev] at hpage
      exact hpage.below_between (Nat.succ_pos l) (hon a rfl) (hon b hab.symm) (hon q haq') he haq hqb

/-! ## A write -/

theorem Inv.setLeaf (h : Inv c s g) (hn : n < s.allocated) (hl : g.level n = 0) (hk : g.On n k)
    (v : β) (hroom : (s.node n).count ≠ c.leafEntries) :
    Inv c (s.setNode n ((s.node n).leafInsert k v)) g ∧
      ∀ q, (s.setNode n ((s.node n).leafInsert k v)).content q =
        Function.update s.content k (some v) q := by
  have hpage := h.page n hn
  rw [hl] at hpage
  have hnew := hpage.leafInsert hk v hroom
  rw [← hl] at hnew
  have hinv : Inv c (s.setNode n ((s.node n).leafInsert k v)) g := by
    refine ⟨h.nested, h.root_lt, h.owner_root, h.root_unique, h.level_lt, fun m hm => ?_⟩
    show PageInv c (store s.node n _ m) _ _ _
    by_cases hmn : m = n
    · subst hmn
      rw [store_self]
      exact hl ▸ hnew
    · rw [store_of_ne _ _ hmn]
      exact h.page m hm
  refine ⟨hinv, fun q => ?_⟩
  rw [hinv.content_eq]
  show (store s.node n _ (g.owner 0 q)).get q = _
  by_cases hq : g.owner 0 q = n
  · rw [hq, store_self, Node.get_leafInsert hpage.increasing]
    by_cases hqk : q = k
    · rw [if_pos hqk, hqk, Function.update_self]
    · rw [if_neg hqk, Function.update_of_ne hqk, h.content_eq, hq]
  · have hqk : q ≠ k := by
      rintro rfl
      unfold Owners.On at hk
      rw [hl] at hk
      exact hq hk
    rw [store_of_ne _ _ hq, Function.update_of_ne hqk, h.content_eq]

/-! ## A split -/

/-- Splitting page `n` into a new page, which no parent knows. -/
def BTree.half (s : BTree κ β) (n : Nat) : BTree κ β :=
  (s.setNode n ((s.node n).split (s.node s.allocated)).1).allocate
    ((s.node n).split (s.node s.allocated)).2.1

/-- The separator of the split. -/
def BTree.sep (s : BTree κ β) (n : Nat) : κ := ((s.node n).split (s.node s.allocated)).2.2

theorem BTree.split_some (s : BTree κ β) (n p : Nat) :
    s.split n (some p) =
      (s.half n).setNode p (((s.half n).node p).innerInsert (s.sep n) s.allocated) := rfl

theorem BTree.split_none (s : BTree κ β) (n : Nat) :
    s.split n none = (s.half n).makeRoot (s.sep n) n s.allocated := rfl

section

omit [LinearOrder κ]

theorem BTree.half_left (hn : n < s.allocated) :
    (s.half n).node n = ((s.node n).split (s.node s.allocated)).1 :=
  (store_of_ne _ _ hn.ne).trans (store_self s.node n _)

theorem BTree.half_right (s : BTree κ β) (n : Nat) :
    (s.half n).node s.allocated = ((s.node n).split (s.node s.allocated)).2.1 :=
  store_self (store s.node n _) s.allocated _

theorem BTree.half_of_ne (hm : m < s.allocated) (hne : m ≠ n) : (s.half n).node m = s.node m :=
  (store_of_ne _ _ hm.ne).trans (store_of_ne _ _ hne)

end

section Split

variable (h : Inv c s g) (hn : n < s.allocated) (hfull : (s.node n).isFull c = true)
include h hn hfull

theorem Inv.splitPages :
    SplitPages c (g.level n) (g.On n) (g.owner (g.level n - 1)) ((s.half n).node n)
      ((s.half n).node s.allocated) (s.sep n) := by
  rw [BTree.half_left hn, BTree.half_right]
  exact (h.page n hn).split (two_le_count_of_isFull hfull)

theorem Inv.nested_split :
    Nested (g.split n (s.sep n) s.allocated) (s.allocated + 1) (g.level s.root) := by
  have hsp := h.splitPages hn hfull
  refine h.nested.split hn hsp.sep_on hsp.right_on fun l hl q q' hq hq' he => ?_
  refine hsp.apart (by omega) q q' hq hq' ?_
  rwa [← hl, Nat.add_sub_cancel]

/-- All pages but the parent of `n`. -/
theorem Inv.page_split (hm : m < s.allocated + 1)
    (hpar : m < s.allocated → m ≠ n → 0 < g.level m →
      ∀ q, g.On m q → g.owner (g.level m - 1) q ≠ n) :
    PageInv c ((s.half n).node m) ((g.split n (s.sep n) s.allocated).level m)
      ((g.split n (s.sep n) s.allocated).On m)
      ((g.split n (s.sep n) s.allocated).owner
        ((g.split n (s.sep n) s.allocated).level m - 1)) := by
  have hsp := h.splitPages hn hfull
  have hbelow : 0 < g.level n →
      (g.split n (s.sep n) s.allocated).owner (g.level n - 1) = g.owner (g.level n - 1) :=
    fun hl => owner_split_of_level_ne (by omega)
  by_cases hnew : m = s.allocated
  · subst hnew
    rw [level_split_new]
    refine hsp.right.congr (fun q => on_split_right h.nested hn) fun hl q _ => ?_
    rw [hbelow hl]
  · have hlt : m < s.allocated := by omega
    rw [level_split_of_ne hnew]
    by_cases hmn : m = n
    · subst hmn
      refine hsp.left.congr (fun q => on_split_left hn) fun hl q _ => ?_
      rw [hbelow hl]
    · rw [BTree.half_of_ne hlt hmn]
      exact (h.page m hlt).congr (fun q => on_split_of_ne hlt hmn) fun hl q hq =>
        owner_split_of_ne (hpar hlt hmn hl q hq)

/-- Nothing is lost between the two pages. -/
theorem Inv.get_split (q : κ) :
    ((s.half n).node ((g.split n (s.sep n) s.allocated).owner 0 q)).get q =
      (s.node (g.owner 0 q)).get q := by
  have hcount := two_le_count_of_isFull hfull
  have hpage := h.page n hn
  have hlt := h.nested.lt 0 (Nat.zero_le _) q
  by_cases hc : g.level n = 0 ∧ g.owner 0 q = n
  · have hty := hpage.type_iff.mpr hc.1
    have hsplit : (s.node n).split (s.node s.allocated) =
        (s.node n).leafSplit (s.node s.allocated) := by
      unfold Node.split
      rw [hty]
    by_cases hs : s.sep n < q
    · rw [show (g.split n (s.sep n) s.allocated).owner 0 q = s.allocated from
        if_pos ⟨hc.1.symm, hs, hc.2⟩, hc.2, BTree.half_right, hsplit]
      unfold BTree.sep at hs
      rw [hsplit] at hs
      exact Node.get_leafSplit_right hpage.increasing hcount hs
    · rw [show (g.split n (s.sep n) s.allocated).owner 0 q = g.owner 0 q from
        if_neg fun hc' => hs hc'.2.1, hc.2, BTree.half_left hn, hsplit]
      unfold BTree.sep at hs
      rw [hsplit] at hs
      exact Node.get_leafSplit_left hpage.increasing hcount (not_lt.mp hs)
  · have hne : g.owner 0 q ≠ n := by
      intro he
      have hlev := h.nested.level_owner 0 (Nat.zero_le _) q
      rw [he] at hlev
      exact hc ⟨hlev, he⟩
    rw [owner_split_of_ne hne, BTree.half_of_ne hlt hne]

end Split

section Parent

variable (h : Inv c s g) (hn : n < s.allocated) (hfull : (s.node n).isFull c = true)
  (hp : p < s.allocated) (hpl : 0 < g.level p) (hk : g.On p k) (hchild : (s.node p).child k = n)
include h hp hpl hk hchild

omit hchild in
/-- The parent owns all keys of its child. -/
theorem Inv.on_parent (hchild : (s.node p).child k = n) (hq : g.On n q) :
    g.On p q ∧ g.level n + 1 = g.level p := by
  have htop := h.nested.level_le p hp
  obtain ⟨_, hlevel, hon⟩ := h.on_child hp hpl hk
  rw [hchild] at hlevel hon
  have he := h.nested.on_above (by omega) hq hon
  rw [hlevel] at he
  exact ⟨he.trans hk, hlevel⟩

/-- A page with child `n` is the parent. -/
theorem Inv.parent_unique (hm : m < s.allocated) (hl : 0 < g.level m) (hq : g.On m q)
    (he : g.owner (g.level m - 1) q = n) : m = p := by
  have hml := h.nested.level_le m hm
  have hlev := h.nested.level_owner (g.level m - 1) (by omega) q
  rw [he] at hlev
  have hnq : g.On n q := by
    unfold Owners.On
    rw [hlev]
    exact he
  obtain ⟨hpq, hlevel⟩ := h.on_parent hp hpl hk hchild hnq
  have hmq : g.owner (g.level p) q = m := by
    rw [show g.level p = g.level m by omega]
    exact hq
  exact hmq.symm.trans hpq

include hn hfull

theorem Inv.page_split_parent (hroom : (s.node p).isFull c = false) :
    PageInv c ((s.node p).innerInsert (s.sep n) s.allocated) (g.level p) (g.On p)
      (fun q => if s.sep n < q ∧ g.owner (g.level p - 1) q = n then s.allocated
        else g.owner (g.level p - 1) q) := by
  have hsp := h.splitPages hn hfull
  have hpage := h.page p hp
  have htop := h.nested.level_le p hp
  have hbelow : ∀ q, g.On n q → g.owner (g.level p - 1) q = n := by
    intro q hq
    obtain ⟨_, hlevel⟩ := h.on_parent hp hpl hk hchild hq
    rw [← hlevel, Nat.add_sub_cancel]
    exact hq
  have habove := fun q hq => (h.on_parent hp hpl hk hchild (q := q) hq).1
  obtain ⟨x, hx, hlt⟩ := hsp.right_on
  refine hpage.innerInsert hpl ?_ (habove _ hsp.sep_on) (hbelow _ hsp.sep_on)
    ⟨x, habove x hx, hbelow x hx, hlt⟩ fun i hi => ?_
  · simpa [Node.isFull, hpage.type_eq_inner hpl] using hroom
  · obtain ⟨q, _, _, he⟩ := hpage.slot_on hpl (Nat.lt_succ_iff.mp hi)
    rw [he]
    exact (h.nested.lt _ (by omega) q).ne

/-- A split below a parent that is not full. -/
theorem Inv.split_some (hroom : (s.node p).isFull c = false) :
    Inv c (s.split n (some p)) (g.split n (s.sep n) s.allocated) ∧
      ∀ q, (s.split n (some p)).content q = s.content q := by
  have hnest := h.nested_split hn hfull
  obtain ⟨_, hlevel⟩ := h.on_parent hp hpl hk hchild (h.splitPages hn hfull).sep_on
  have htop := h.nested.level_le p hp
  have hpn : p ≠ n := by
    rintro rfl
    omega
  have hlevp : (g.split n (s.sep n) s.allocated).level p = g.level p := level_split_of_ne hp.ne
  have hlevr : (g.split n (s.sep n) s.allocated).level s.root = g.level s.root :=
    level_split_of_ne h.root_lt.ne
  have hnode : (s.split n (some p)).node = store (s.half n).node p
      (((s.half n).node p).innerInsert (s.sep n) s.allocated) := rfl
  have hroot : (s.split n (some p)).root = s.root := rfl
  have halloc : (s.split n (some p)).allocated = s.allocated + 1 := rfl
  have hinv : Inv c (s.split n (some p)) (g.split n (s.sep n) s.allocated) := by
    refine ⟨?_, ?_, fun q => ?_, fun m hm hl => ?_, ?_, fun m hm => ?_⟩
    · rw [hroot, halloc, hlevr]
      exact hnest
    · rw [hroot, halloc]
      exact h.root_lt.trans (Nat.lt_succ_self _)
    · rw [hroot, hlevr, owner_split_of_level_ne (by omega), h.owner_root]
    · rw [hroot, hlevr] at hl
      rw [halloc] at hm
      by_cases hnew : m = s.allocated
      · rw [hnew, level_split_new] at hl
        omega
      · rw [level_split_of_ne hnew] at hl
        exact h.root_unique m (by omega) hl
    · rw [hroot, halloc, hlevr]
      exact h.level_lt.trans (Nat.lt_succ_self _)
    · rw [hnode]
      by_cases hmp : m = p
      · subst hmp
        rw [store_self, BTree.half_of_ne hp hpn, hlevp]
        refine (h.page_split_parent hn hfull hp hpl hk hchild hroom).congr
          (fun q => on_split_of_ne hp hpn) fun _ q _ => if_congr ?_ rfl rfl
        exact and_iff_right (by omega)
      · rw [store_of_ne _ _ hmp]
        exact h.page_split hn hfull hm fun hlt _ hl q hq he =>
          hmp (h.parent_unique hp hpl hk hchild hlt hl hq he)
  refine ⟨hinv, fun q => ?_⟩
  have hleaf : (g.split n (s.sep n) s.allocated).owner 0 q ≠ p := by
    intro he
    have hlev := hnest.level_owner 0 (Nat.zero_le _) q
    rw [he, hlevp] at hlev
    omega
  rw [hinv.content_eq, h.content_eq, ← h.get_split hn hfull, hnode, store_of_ne _ _ hleaf]

end Parent

/-- A split of the root. -/
theorem Inv.split_none (h : Inv c s g) (hfull : (s.node s.root).isFull c = true) :
    Inv c (s.split s.root none)
        ((g.split s.root (s.sep s.root) s.allocated).grow (s.allocated + 1)
          (g.level s.root + 1)) ∧
      ∀ q, (s.split s.root none).content q = s.content q := by
  have hsp := h.splitPages h.root_lt hfull
  have hnest := h.nested_split h.root_lt hfull
  have hgrow := hnest.grow
  have hlt := h.root_lt
  set g₁ := g.split s.root (s.sep s.root) s.allocated with hg₁
  set g₂ := g₁.grow (s.allocated + 1) (g.level s.root + 1) with hg₂
  have hnode : (s.split s.root none).node = store (s.half s.root).node (s.allocated + 1)
      (((s.half s.root).node (s.allocated + 1)).createRoot (s.sep s.root) s.root s.allocated) := rfl
  have hroot : (s.split s.root none).root = s.allocated + 1 := rfl
  have halloc : (s.split s.root none).allocated = s.allocated + 2 := rfl
  have htop : g₂.level (s.allocated + 1) = g.level s.root + 1 := store_self _ _ _
  have hpage : ∀ m < s.allocated + 2, PageInv c ((s.split s.root none).node m) (g₂.level m)
      (g₂.On m) (g₂.owner (g₂.level m - 1)) := by
    intro m hm
    rw [hnode]
    by_cases hnew : m = s.allocated + 1
    · subst hnew
      obtain ⟨x, _, hx⟩ := hsp.right_on
      rw [store_self, htop, Nat.add_sub_cancel]
      refine (pageInv_createRoot (Nat.succ_pos _) hlt.ne ⟨x, hx⟩).congr
        (fun q => iff_of_true on_grow_new trivial) fun _ q _ => ?_
      rw [owner_grow_of_le le_rfl]
      by_cases hq : s.sep s.root < q
      · rw [if_pos hq]
        exact if_pos ⟨rfl, hq, h.owner_root q⟩
      · rw [if_neg hq]
        exact (if_neg fun hc => hq hc.2.1).trans (h.owner_root q)
    · have hm' : m < s.allocated + 1 := by omega
      have hle := hnest.level_le m hm'
      rw [store_of_ne _ _ hnew, level_grow_of_ne hnew]
      refine (h.page_split hlt hfull hm' fun hml hne hl q hq he => ?_).congr
        (fun q => on_grow_of_lt hnest hm') fun hl q _ => ?_
      · have hmtop := h.nested.level_le m hml
        have hlev := h.nested.level_owner (g.level m - 1) (by omega) q
        rw [he] at hlev
        omega
      · rw [owner_grow_of_le (by omega)]
  have hinv : Inv c (s.split s.root none) g₂ := by
    refine ⟨?_, ?_, fun q => ?_, fun m hm hl => ?_, ?_, hpage⟩
    · rw [hroot, htop]
      exact hgrow
    · rw [hroot, halloc]
      omega
    · rw [hroot, htop]
      exact congrFun (store_self g₁.owner _ _) q
    · rw [hroot, htop] at hl
      by_contra hne
      rw [hroot] at hne
      rw [level_grow_of_ne hne] at hl
      have hle := hnest.level_le m (by rw [halloc] at hm; omega)
      omega
    · rw [hroot, htop, halloc]
      have hlev := h.level_lt
      omega
  refine ⟨hinv, fun q => ?_⟩
  have hleaf : g₁.owner 0 q ≠ s.allocated + 1 := (hnest.lt 0 (Nat.zero_le _) q).ne
  rw [hinv.content_eq, h.content_eq, ← h.get_split hlt hfull, owner_grow_of_le (Nat.zero_le _), hnode,
    store_of_ne _ _ hleaf]

end BtreeOlc
