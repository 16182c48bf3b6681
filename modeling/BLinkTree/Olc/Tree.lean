import BLinkTree.Olc.Node

/-! # The B-tree with optimistic lock coupling

The pages of a tree with their locks, and the split of a page. The invariant is about levels:
on every level each key belongs to one page, its owner, and the owners of a level refine the
owners of the level above. A page is then described by itself, by the keys it owns and by the
owners one level below.
-/

namespace BtreeOlc

open Slots

variable {κ β : Type}

/-- `BTree` with its memory; `version` are the words `typeVersionLockObsolete`. -/
structure BTree (κ β : Type) where
  node : Nat → Node κ β
  version : Nat → Nat
  root : Nat
  allocated : Nat

namespace BTree

def setNode (s : BTree κ β) (n : Nat) (nd : Node κ β) : BTree κ β :=
  { s with node := store s.node n nd }

/-- A new page, which is not locked. -/
def allocate (s : BTree κ β) (nd : Node κ β) : BTree κ β :=
  { s with
    node := store s.node s.allocated nd
    version := store s.version s.allocated 4
    allocated := s.allocated + 1 }

/-- `BTree::BTree`. -/
def create (memory : Nat → Node κ β) : BTree κ β :=
  { node := store memory 0 (memory 0).createLeaf
    version := fun _ => 4
    root := 0
    allocated := 1 }

def makeRoot (s : BTree κ β) (k : κ) (leftChild rightChild : Nat) : BTree κ β :=
  { s.allocate ((s.node s.allocated).createRoot k leftChild rightChild) with root := s.allocated }

/-- A successful `upgradeToWriteLockOrRestart`. -/
def lock (s : BTree κ β) (n : Nat) : BTree κ β :=
  { s with version := store s.version n (s.version n + 2) }

/-- `writeUnlock`. -/
def unlock (s : BTree κ β) (n : Nat) : BTree κ β :=
  { s with version := store s.version n (s.version n + 2) }

end BTree

/-- `split` of the page's kind. -/
def Node.split (n raw : Node κ β) : Node κ β × Node κ β × κ :=
  match n.type with
  | .leaf => n.leafSplit raw
  | .inner => n.innerSplit raw

variable [LinearOrder κ]

/-- The split of a page with or without a parent. -/
def BTree.split (s : BTree κ β) (n : Nat) (parent : Option Nat) : BTree κ β :=
  let (left, right, sep) := (s.node n).split (s.node s.allocated)
  let t := (s.setNode n left).allocate right
  match parent with
  | some p => t.setNode p ((t.node p).innerInsert sep s.allocated)
  | none => t.makeRoot sep n s.allocated

/-- The leaf below page `n` where the search for `q` ends. -/
def BTree.leafBelow (s : BTree κ β) (q : κ) : Nat → Nat → Nat
  | 0, n => n
  | fuel + 1, n =>
      if (s.node n).type = .leaf then n else s.leafBelow q fuel ((s.node n).child q)

/-- What the tree maps keys to. -/
def BTree.content (s : BTree κ β) (q : κ) : Option β :=
  (s.node (s.leafBelow q s.allocated s.root)).get q

/-! ## Pages -/

/-- An inner page sends the keys it owns to the pages of the level below. -/
structure InnerPage (nd : Node κ β) (on : κ → Prop) (below : κ → Nat) : Prop where
  guarded : ∀ q, on q → nd.Guarded q
  child_eq : ∀ q, on q → nd.child q = below q
  distinct : ∀ i j, i < nd.count + 1 → j < nd.count + 1 → nd.children i = nd.children j → i = j
  last_on : ∃ q, on q ∧ ∀ i < nd.count, nd.keys i < q

/-- A page of `level` that owns the keys `on`. -/
structure PageInv (c : PageSize) (nd : Node κ β) (level : Nat) (on : κ → Prop) (below : κ → Nat) :
    Prop where
  type_iff : nd.type = .leaf ↔ level = 0
  increasing : Increasing nd.keys nd.count
  leaf_count : level = 0 → nd.count ≤ c.leafEntries
  inner_count : 0 < level → nd.count ≤ c.innerEntries - 1
  keys_on : ∀ i < nd.count, on (nd.keys i)
  inner : 0 < level → InnerPage nd on below

section PageInv

variable {c : PageSize} {nd r : Node κ β} {level : Nat} {on on' : κ → Prop} {below : κ → Nat}

theorem PageInv.type_eq_inner (h : PageInv c nd level on below) (hl : 0 < level) :
    nd.type = .inner := by
  cases ht : nd.type with
  | inner => rfl
  | leaf => exact absurd (h.type_iff.mp ht) (by omega)

theorem InnerPage.congr {below' : κ → Nat} (h : InnerPage nd on below) (hon : ∀ q, on' q ↔ on q)
    (hb : ∀ q, on q → below' q = below q) : InnerPage nd on' below' := by
  obtain ⟨x, hx, hlast⟩ := h.last_on
  exact ⟨fun q hq => h.guarded q ((hon q).mp hq),
    fun q hq => (h.child_eq q ((hon q).mp hq)).trans (hb q ((hon q).mp hq)).symm, h.distinct,
    x, (hon x).mpr hx, hlast⟩

theorem PageInv.congr {below' : κ → Nat} (h : PageInv c nd level on below)
    (hon : ∀ q, on' q ↔ on q) (hb : 0 < level → ∀ q, on q → below' q = below q) :
    PageInv c nd level on' below' :=
  ⟨h.type_iff, h.increasing, h.leaf_count, h.inner_count,
    fun i hi => (hon _).mpr (h.keys_on i hi), fun hl => (h.inner hl).congr hon (hb hl)⟩

/-- Every slot of an inner page is the child of a key the page owns. -/
theorem PageInv.slot_on (h : PageInv c nd level on below) (hl : 0 < level) {i : Nat}
    (hi : i ≤ nd.count) : ∃ q, on q ∧ Cuts nd.keys nd.count q i ∧ nd.children i = below q := by
  have hin := h.inner hl
  rcases Nat.lt_or_eq_of_le hi with hlt | rfl
  · have hon := h.keys_on i hlt
    have hcut := Cuts.of_mem h.increasing hlt
    exact ⟨_, hon, hcut, (Node.child_eq h.increasing (hin.guarded _ hon) hcut).symm.trans
      (hin.child_eq _ hon)⟩
  · obtain ⟨q, hq, hlast⟩ := hin.last_on
    have hcut : Cuts nd.keys nd.count q nd.count :=
      ⟨le_rfl, hlast, fun i h1 h2 => absurd h2 (by omega)⟩
    exact ⟨q, hq, hcut, (Node.child_eq h.increasing (hin.guarded q hq) hcut).symm.trans
      (hin.child_eq q hq)⟩

/-- Keys with the same child stand at the same slot. -/
theorem PageInv.lowerBound_eq_iff (h : PageInv c nd level on below) (hl : 0 < level) {q k : κ}
    (hq : on q) (hk : on k) : nd.lowerBound q = nd.lowerBound k ↔ below q = below k := by
  have hin := h.inner hl
  have hle := fun x (hx : on x) => (Node.lowerBound_cuts h.increasing (hin.guarded x hx)).le
  constructor
  · intro he
    rw [← hin.child_eq q hq, ← hin.child_eq k hk]
    exact congrArg nd.children he
  · intro he
    rw [← hin.child_eq q hq, ← hin.child_eq k hk] at he
    exact hin.distinct _ _ (Nat.lt_succ_of_le (hle q hq)) (Nat.lt_succ_of_le (hle k hk)) he

/-- Keys between two keys with the same child have this child, too. -/
theorem PageInv.below_between (h : PageInv c nd level on below) (hl : 0 < level) {a b q : κ}
    (ha : on a) (hb : on b) (hq : on q) (hab : below a = below b) (haq : a ≤ q) (hqb : q ≤ b) :
    below q = below a := by
  have hin := h.inner hl
  have hcut := fun x (hx : on x) => Node.lowerBound_cuts h.increasing (hin.guarded x hx)
  have heq := (h.lowerBound_eq_iff hl ha hb).mpr hab
  have h1 := (hcut a ha).mono (hcut q hq) haq
  have h2 := (hcut q hq).mono (hcut b hb) hqb
  exact (h.lowerBound_eq_iff hl hq ha).mp (by omega)

theorem PageInv.leafInsert (h : PageInv c nd 0 on below) {k : κ} (hk : on k) (p : β)
    (hroom : nd.count ≠ c.leafEntries) : PageInv c (nd.leafInsert k p) 0 on below := by
  refine ⟨?_, Node.increasing_leafInsert h.increasing k p, fun _ => ?_, fun hl => absurd hl (by omega),
    fun i hi => ?_, fun hl => absurd hl (by omega)⟩
  · rw [Node.type_leafInsert h.increasing]
    exact h.type_iff
  · have hle := h.leaf_count rfl
    have hgrow := Node.count_leafInsert_le h.increasing k p
    omega
  · have hb : (nd.leafInsert k p).Binds ((nd.leafInsert k p).keys i)
        ((nd.leafInsert k p).payloads i) := ⟨i, hi, rfl, rfl⟩
    rw [Node.binds_leafInsert h.increasing] at hb
    by_cases hki : (nd.leafInsert k p).keys i = k
    · rw [hki]
      exact hk
    · rw [if_neg hki] at hb
      obtain ⟨j, hj, hkj, _⟩ := hb
      rw [← hkj]
      exact h.keys_on j hj

/-! ## Splits -/

omit [LinearOrder κ] in
theorem two_le_count_of_isFull (hfull : nd.isFull c = true) :
    2 ≤ nd.count := by
  have h1 := c.two_le_leafEntries
  have h2 := c.three_le_innerEntries
  unfold Node.isFull at hfull
  cases ht : nd.type with
  | leaf =>
      simp only [ht, decide_eq_true_eq] at hfull
      omega
  | inner =>
      simp only [ht, decide_eq_true_eq] at hfull
      omega

/-- What a split does to a page that owns `on`. -/
structure SplitPages (c : PageSize) (level : Nat) (on : κ → Prop) (below : κ → Nat)
    (left right : Node κ β) (sep : κ) : Prop where
  left : PageInv c left level (fun q => on q ∧ q ≤ sep) below
  right : PageInv c right level (fun q => on q ∧ sep < q) below
  sep_on : on sep
  right_on : ∃ q, on q ∧ sep < q
  apart : 0 < level → ∀ q q', on q → on q' → below q = below q' → (sep < q ↔ sep < q')

theorem PageInv.leafSplit (h : PageInv c nd 0 on below) (hcount : 2 ≤ nd.count) :
    SplitPages c 0 on below (nd.leafSplit r).1 (nd.leafSplit r).2.1 (nd.leafSplit r).2.2 := by
  obtain ⟨hleft, hright, hsum⟩ := Node.count_leafSplit (r := r) hcount
  obtain ⟨hi1, hi2⟩ := Node.increasing_leafSplit (r := r) h.increasing hcount
  have hle := h.leaf_count rfl
  have hty : nd.type = .leaf := h.type_iff.mpr rfl
  have hon : ∀ q x, nd.Binds q x → on q := by
    rintro q x ⟨i, hi, rfl, _⟩
    exact h.keys_on i hi
  have hkl : ∀ i < (nd.leafSplit r).1.count, on ((nd.leafSplit r).1.keys i) ∧
      (nd.leafSplit r).1.keys i ≤ (nd.leafSplit r).2.2 := fun i hi =>
    ((Node.binds_leafSplit_left h.increasing hcount).mp ⟨i, hi, rfl, rfl⟩).imp_left (hon _ _)
  have hkr : ∀ i < (nd.leafSplit r).2.1.count, on ((nd.leafSplit r).2.1.keys i) ∧
      (nd.leafSplit r).2.2 < (nd.leafSplit r).2.1.keys i := fun i hi =>
    ((Node.binds_leafSplit_right h.increasing hcount).mp ⟨i, hi, rfl, rfl⟩).imp_left (hon _ _)
  refine ⟨⟨?_, hi1, fun _ => by omega, fun hl => absurd hl (by omega), hkl,
    fun hl => absurd hl (by omega)⟩, ⟨?_, hi2, fun _ => by omega, fun hl => absurd hl (by omega),
    hkr, fun hl => absurd hl (by omega)⟩, ?_, ⟨_, hkr 0 hright⟩, fun hl => absurd hl (by omega)⟩
  · exact iff_of_true hty rfl
  · exact iff_of_true rfl rfl
  · exact h.keys_on _ (by omega)

theorem PageInv.innerSplit (h : PageInv c nd level on below) (hl : 0 < level)
    (hcount : 2 ≤ nd.count) :
    SplitPages c level on below (nd.innerSplit r).1 (nd.innerSplit r).2.1
      (nd.innerSplit r).2.2 := by
  obtain ⟨hpos, hsum, hsep⟩ := Node.count_innerSplit (r := r) hcount
  obtain ⟨hi1, hi2⟩ := Node.increasing_innerSplit (r := r) h.increasing hcount
  have hin := h.inner hl
  have hbound := h.inner_count hl
  have hkeys := fun i (hi : i ≤ (nd.innerSplit r).2.1.count) => (Node.innerSplit_right hi).1
  have hslots := fun i (hi : i ≤ (nd.innerSplit r).2.1.count) => (Node.innerSplit_right hi).2
  have hsepon : on (nd.innerSplit r).2.2 := by
    rw [hsep]
    exact h.keys_on _ (by omega)
  obtain ⟨x, hx, hlast⟩ := hin.last_on
  have hxsep : (nd.innerSplit r).2.2 < x := by
    rw [hsep]
    exact hlast _ (by omega)
  refine ⟨⟨?_, hi1, fun h0 => absurd h0 (by omega), fun _ => by omega, fun i hi => ⟨?_, ?_⟩,
    fun _ => ⟨fun q hq => ?_, fun q hq => ?_, fun i j hi hj he => ?_, ?_⟩⟩,
    ⟨?_, hi2, fun h0 => absurd h0 (by omega), fun _ => by omega, fun i hi => ⟨?_, ?_⟩,
    fun _ => ⟨fun q _ => Node.guarded_of_pos hpos, fun q hq => ?_, fun i j hi hj he => ?_, ?_⟩⟩,
    hsepon, ⟨x, hx, hxsep⟩, fun _ q q' hq hq' he => ?_⟩
  · exact h.type_iff
  · exact h.keys_on i (by omega)
  · rw [hsep]
    exact (h.increasing i _ hi (by omega)).le
  · exact (Node.child_innerSplit_left h.increasing hcount hq.2).1
  · rw [(Node.child_innerSplit_left h.increasing hcount hq.2).2]
    exact hin.child_eq q hq.1
  · exact hin.distinct i j (by omega) (by omega) he
  · refine ⟨_, ⟨hsepon, le_rfl⟩, fun i hi => ?_⟩
    rw [hsep]
    exact h.increasing i _ hi (by omega)
  · exact iff_of_false (fun ht => nomatch ht) (by omega)
  · rw [hkeys i hi.le]
    exact h.keys_on _ (by omega)
  · rw [hkeys i hi.le, hsep]
    exact h.increasing _ _ (by omega) (by omega)
  · rw [Node.child_innerSplit_right h.increasing hcount hq.2]
    exact hin.child_eq q hq.1
  · rw [hslots i (by omega), hslots j (by omega)] at he
    have hij := hin.distinct _ _ (by omega) (by omega) he
    omega
  · refine ⟨x, ⟨hx, hxsep⟩, fun i hi => ?_⟩
    rw [hkeys i hi.le]
    exact hlast _ (by omega)
  · have hside : ∀ y, on y → ((nd.innerSplit r).2.2 < y ↔
        (nd.innerSplit r).1.count < nd.lowerBound y) := by
      intro y hy
      rw [hsep]
      exact (Node.lowerBound_cuts h.increasing (hin.guarded y hy)).slot_lt_iff (by omega)
    rw [hside q hq, hside q' hq', (h.lowerBound_eq_iff hl hq hq').mpr he]

theorem PageInv.split (h : PageInv c nd level on below) (hcount : 2 ≤ nd.count) :
    SplitPages c level on below (nd.split r).1 (nd.split r).2.1 (nd.split r).2.2 := by
  unfold Node.split
  rcases Nat.eq_zero_or_pos level with rfl | hl
  · rw [h.type_iff.mpr rfl]
    exact h.leafSplit hcount
  · rw [h.type_eq_inner hl]
    exact h.innerSplit hl hcount

/-- The parent of a page `n` that was split at `sep`. -/
theorem PageInv.innerInsert {sep : κ} {n m : Nat} (h : PageInv c nd level on below) (hl : 0 < level)
    (hroom : nd.count ≠ c.innerEntries - 1) (hsep : on sep) (hn : below sep = n)
    (hright : ∃ q, on q ∧ below q = n ∧ sep < q) (hm : ∀ i < nd.count + 1, nd.children i ≠ m) :
    PageInv c (nd.innerInsert sep m) level on
      (fun q => if sep < q ∧ below q = n then m else below q) := by
  have hin := h.inner hl
  have hcut := Node.lowerBound_cuts h.increasing (hin.guarded sep hsep)
  obtain ⟨hkeys, hchildren⟩ := Node.opens_innerInsert (m := m) h.increasing (hin.guarded sep hsep) hcut
  obtain ⟨x, hx, hxn, hlt⟩ := hright
  have hslot : nd.lowerBound x = nd.lowerBound sep :=
    (h.lowerBound_eq_iff hl hx hsep).mpr (hxn.trans hn.symm)
  have hxcut := Node.lowerBound_cuts h.increasing (hin.guarded x hx)
  -- a key of the page that equals `sep` would separate `sep` from `x`
  have hne : ∀ i < nd.count, nd.keys i ≠ sep := by
    intro i hi he
    have hi' := Cuts.slot_of_mem h.increasing hcut hi he
    have hge := hxcut.above i (by omega) hi
    rw [he] at hge
    exact absurd hlt (not_lt.mpr hge)
  refine ⟨h.type_iff, Node.increasing_innerInsert h.increasing (hin.guarded sep hsep) hcut hne,
    fun h0 => absurd h0 (by omega), fun _ => ?_, ?_,
    fun _ => ⟨fun q _ => Node.guarded_of_pos (Nat.succ_pos _), fun q hq => ?_,
      hchildren.inj hin.distinct hm, ?_⟩⟩
  · have hle := h.inner_count hl
    show nd.count + 1 ≤ _
    omega
  · exact hkeys.forall_iff.mpr ⟨hsep, h.keys_on⟩
  · rw [Node.child_innerInsert h.increasing (hin.guarded sep hsep) hcut hne (hin.guarded q hq),
      hin.child_eq q hq]
    refine if_congr (and_congr_right fun _ => ?_) rfl rfl
    rw [h.lowerBound_eq_iff hl hq hsep, hn]
  · obtain ⟨y, hy, hlast⟩ := hin.last_on
    rcases le_total x y with hle | hle
    · exact ⟨y, hy, hkeys.forall_iff (P := fun z => z < y).mpr ⟨lt_of_lt_of_le hlt hle, hlast⟩⟩
    · exact ⟨x, hx, hkeys.forall_iff (P := fun z => z < x).mpr
        ⟨hlt, fun i hi => lt_of_lt_of_le (hlast i hi) hle⟩⟩

theorem pageInv_createRoot {sep : κ} {n m : Nat} (hl : 0 < level) (hne : n ≠ m)
    (hright : ∃ q, sep < q) :
    PageInv c (r.createRoot sep n m) level (fun _ => True)
      (fun q => if sep < q then m else n) := by
  have h3 := c.three_le_innerEntries
  have hc0 := Node.createRoot_left r sep n m
  have hc1 := Node.createRoot_right r sep n m
  obtain ⟨x, hx⟩ := hright
  refine ⟨iff_of_false (fun ht => nomatch ht) (by omega), fun i j hij hj => ?_,
    fun h0 => absurd h0 (by omega), fun _ => ?_, fun _ _ => trivial,
    fun _ => ⟨fun q _ => Node.guarded_of_pos Nat.one_pos,
      fun q _ => Node.child_createRoot r sep n m q, fun i j hi hj he => ?_,
      x, trivial, fun i hi => ?_⟩⟩
  · have hlt : j < 1 := hj
    omega
  · show 1 ≤ _
    omega
  · have hi' : i < 2 := hi
    have hj' : j < 2 := hj
    rcases (by omega : i = 0 ∨ i = 1) with rfl | rfl <;>
      rcases (by omega : j = 0 ∨ j = 1) with rfl | rfl
    · rfl
    · exact absurd (hc0.symm.trans (he.trans hc1)) hne
    · exact absurd (hc0.symm.trans (he.symm.trans hc1)) hne
    · rfl
  · obtain rfl : i = 0 := Nat.lt_one_iff.mp hi
    rwa [Node.createRoot_key]

end PageInv

end BtreeOlc
