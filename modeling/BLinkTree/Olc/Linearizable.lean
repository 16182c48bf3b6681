import BLinkTree.Olc.Program

/-! # The B-tree with optimistic lock coupling is linearizable

A thread knows of a page what it has read in the version it remembers. That its key belongs to
the page is known when the version of the parent is compared once more, and for the root when
the root is read once more; from then on it is known as long as the version of the page
stands. A writer knows it under its locks.
-/

namespace BtreeOlc

open Slots Hierarchy Linearization Interleaving VersionLock

variable {κ β : Type} [LinearOrder κ] {c : PageSize} {i j n m p v w : Nat} {o : Op κ β}

/-- What there is to see of a page. -/
structure View (κ β : Type) where
  node : Node κ β
  level : Nat
  on : κ → Prop
  isRoot : Prop

/-- The owners of the keys and the holders of the locks. -/
structure Aux (κ : Type) where
  owners : Owners κ
  holder : Nat → Option Nat

def pages (s : BTree κ β) (a : Aux κ) : Pages Nat (View κ β) where
  version := s.version
  holder := a.holder
  live := s.allocated
  view n := ⟨s.node n, a.owners.level n, a.owners.On n, s.root = n⟩

/-- The invariant of the shared state. -/
structure Shared (c : PageSize) (s : BTree κ β) (a : Aux κ) : Prop where
  inv : Inv c s a.owners
  held : Held s.version a.holder
  dead : ∀ n, s.allocated ≤ n → a.holder n = none
  alive : ∀ n, isObsolete (s.version n) = false

def Op.isInsert : Op κ β → Bool
  | .insert _ _ => true
  | _ => false

/-- An insert goes below no full page. -/
def Room (c : PageSize) (o : Op κ β) (x : View κ β) : Prop :=
  o.isInsert = true → x.node.isFull c = false

/-- The thread goes down from this inner page. -/
structure Inside (c : PageSize) (o : Op κ β) (x : View κ β) : Prop where
  inner : 0 < x.level
  room : Room c o x

/-- The page is the parent of `n` for the key. -/
structure Above (c : PageSize) (o : Op κ β) (n : Nat) (x : View κ β) : Prop where
  on : x.on o.key
  inside : Inside c o x
  child_eq : x.node.child o.key = n

/-- A full page of an insert. -/
structure Full (c : PageSize) (o : Op κ β) (x : View κ β) : Prop where
  isInsert : o.isInsert = true
  isFull : x.node.isFull c = true

/-- The leaf where the call ends. -/
structure Ends (c : PageSize) (o : Op κ β) (x : View κ β) : Prop where
  leaf : x.level = 0
  room : Room c o x

/-- The leaf gives this result. -/
structure Finds (c : PageSize) (o : Op κ β) (r : Result β) (x : View κ β) : Prop where
  leaf : x.level = 0
  read : ∃ race, r = o.read x.node race

/-- The page and its parent, or the page as the root. -/
def Coupled (c : PageSize) (t : Pages Nat (View κ β)) (o : Op κ β) (n v : Nat)
    (P : View κ β → Prop) : Option (Nat × Nat) → Prop
  | none => Knows t n v fun x => P x ∧ x.on o.key ∧ x.isRoot
  | some (p, w) => Knows t n v P ∧ Knows t p w (Above c o n)

/-- What a thread knows. -/
def Holds (c : PageSize) (t : Pages Nat (View κ β)) (i : Nat) : Pc κ β → Prop
  | .idle => True
  | .start _ => True
  | .rootVersion _ n => n < t.live
  | .rootCheck _ n v => Knows t n v fun _ => True
  | .enter o n v parent => Coupled c t o n v (fun _ => True) parent
  | .checkParent o n v p w => Coupled c t o n v (Inside c o) (some (p, w))
  | .child o n v => Knows t n v fun x => x.on o.key ∧ Inside c o x
  | .checkChild o n v m => Knows t n v (Above c o m)
  | .childVersion o n v m => m < t.live ∧ Knows t n v (Above c o m)
  | .lockParent o n v p w => Coupled c t o n v (Full c o) (some (p, w))
  | .lockNode o n v none => Coupled c t o n v (Full c o) none
  | .lockNode o n v (some p) => Knows t n v (Full c o) ∧ Owns t i p (Above c o n)
  | .checkRoot o n => Owns t i n fun x => Full c o x ∧ x.isRoot
  | .split o n none => Owns t i n fun x => Full c o x ∧ x.isRoot
  | .split o n (some p) => Owns t i n (Full c o) ∧ Owns t i p (Above c o n)
  | .lockLeaf o n v parent => o.isInsert = true ∧ Coupled c t o n v (Ends c o) parent
  | .checkLeafParent o n p w => o.isInsert = true ∧ Owns t i n (Ends c o) ∧
      Knows t p w (Above c o n)
  | .write o n => o.isInsert = true ∧ Owns t i n fun x => Ends c o x ∧ x.on o.key
  | .unlock _ n none _ => Owns t i n fun _ => True
  | .unlock _ n (some m) _ => (Owns t i n fun _ => True) ∧ (Owns t i m fun _ => True) ∧ n ≠ m
  | .search o n v parent => o.isInsert = false ∧ Coupled c t o n v (Ends c o) parent
  | .leave o n v p w r => o.isInsert = false ∧ Coupled c t o n v (Finds c o r) (some (p, w))
  | .validate o n v r => o.isInsert = false ∧ Knows t n v fun x => Finds c o r x ∧ x.on o.key
  | .done _ _ => True
  | .crashed _ => False

/-- The pages a thread has locked. -/
def Pc.held : Pc κ β → List Nat
  | lockNode _ _ _ parent => parent.toList
  | checkRoot _ n => [n]
  | split _ n parent => n :: parent.toList
  | checkLeafParent _ n _ _ => [n]
  | write _ n => [n]
  | unlock _ n more _ => n :: more.toList
  | _ => []

structure Asserts (c : PageSize) (s : BTree κ β) (a : Aux κ) (i : Nat) (pc : Pc κ β) : Prop where
  holds : Holds c (pages s a) i pc
  locks : Locks (pages s a) i pc.held

/-! ## Steps of the others -/

section Interferes

variable {t t' : Pages Nat (View κ β)} {P Q : View κ β → Prop}

theorem Coupled.interferes {parent : Option (Nat × Nat)} (h : Coupled c t o n v P parent)
    (hheld : Held t.version t.holder) (hs : Interferes i t t') : Coupled c t' o n v P parent := by
  cases parent with
  | none => exact Knows.interferes h hheld hs
  | some x => exact ⟨h.1.interferes hheld hs, h.2.interferes hheld hs⟩

theorem Coupled.look {parent : Option (Nat × Nat)} (h : Coupled c t o n v P parent)
    (hQ : t.version n = v → P (t.view n) → Q (t.view n)) : Coupled c t o n v Q parent := by
  cases parent with
  | none => exact Knows.look h fun he hx => ⟨hQ he hx.1, hx.2⟩
  | some x => exact ⟨h.1.look hQ, h.2⟩

theorem Holds.interferes {pc : Pc κ β} (h : Holds c t j pc) (hheld : Held t.version t.holder)
    (hs : Interferes i t t') (hj : j ≠ i) : Holds c t' j pc := by
  cases pc with
  | idle => trivial
  | start o => trivial
  | done o r => trivial
  | crashed o => exact h
  | rootVersion o n => exact lt_of_lt_of_le h hs.live_le
  | rootCheck o n v => exact Knows.interferes h hheld hs
  | enter o n v parent => exact Coupled.interferes h hheld hs
  | checkParent o n v p w => exact ⟨Knows.interferes h.1 hheld hs, Knows.interferes h.2 hheld hs⟩
  | child o n v => exact Knows.interferes h hheld hs
  | checkChild o n v m => exact Knows.interferes h hheld hs
  | childVersion o n v m => exact ⟨lt_of_lt_of_le h.1 hs.live_le, h.2.interferes hheld hs⟩
  | lockParent o n v p w => exact ⟨Knows.interferes h.1 hheld hs, Knows.interferes h.2 hheld hs⟩
  | lockNode o n v parent =>
      cases parent with
      | none => exact Knows.interferes h hheld hs
      | some p => exact ⟨h.1.interferes hheld hs, h.2.interferes hs hj⟩
  | checkRoot o n => exact Owns.interferes h hs hj
  | split o n parent =>
      cases parent with
      | none => exact Owns.interferes h hs hj
      | some p => exact ⟨h.1.interferes hs hj, h.2.interferes hs hj⟩
  | lockLeaf o n v parent => exact ⟨h.1, h.2.interferes hheld hs⟩
  | checkLeafParent o n p w => exact ⟨h.1, h.2.1.interferes hs hj, h.2.2.interferes hheld hs⟩
  | write o n => exact ⟨h.1, h.2.interferes hs hj⟩
  | unlock o n more r =>
      cases more with
      | none => exact Owns.interferes h hs hj
      | some m => exact ⟨h.1.interferes hs hj, h.2.1.interferes hs hj, h.2.2⟩
  | search o n v parent => exact ⟨h.1, h.2.interferes hheld hs⟩
  | leave o n v p w r => exact ⟨h.1, h.2.1.interferes hheld hs, h.2.2.interferes hheld hs⟩
  | validate o n v r => exact ⟨h.1, h.2.interferes hheld hs⟩

end Interferes

/-! ## Steps -/

/-- What a step keeps. -/
structure Stepped (c : PageSize) (i : Nat) (s : BTree κ β) (a : Aux κ) (pc : Pc κ β)
    (s' : BTree κ β) (a' : Aux κ) (pc' : Pc κ β) (e : Option (Event (Op κ β) (Result β))) :
    Prop where
  shared : Shared c s' a'
  interferes : Interferes i (pages s a) (pages s' a')
  asserts : Asserts c s' a' i pc'
  simulates : Simulates (map κ β) s.content s'.content pc.status pc'.status e

variable {s s' : BTree κ β} {a a' : Aux κ} {pc pc' pc₁ : Pc κ β}
  {e : Option (Event (Op κ β) (Result β))}

/-- A step that changes nothing. -/
theorem stepped_of_look (h : Shared c s a) (hs : some (s, pc₁, none) = some (s', pc', e))
    (hl : Locks (pages s a) i pc.held) (hpc : Holds c (pages s a) i pc₁) (hheld : pc₁.held = pc.held)
    (hstatus : pc₁.status = pc.status) : ∃ a', Stepped c i s a pc s' a' pc' e := by
  simp only [Option.some.injEq, Prod.mk.injEq] at hs
  rcases hs with ⟨rfl, rfl, rfl⟩
  exact ⟨a, h, .refl i h.held, ⟨hpc, by rw [hheld]; exact hl⟩, rfl, hstatus⟩

/-- The page of the next round. -/
theorem Above.on_child {x : View κ β} (h : Above c o m ((pages s a).view n)) (hI : Shared c s a)
    (hn : n < s.allocated) (hx : x = (pages s a).view m) :
    m < s.allocated ∧ x.level + 1 = a.owners.level n ∧ x.on o.key := by
  subst hx
  have hchild := hI.inv.on_child hn h.inside.inner h.on
  have heq : (s.node n).child o.key = m := h.child_eq
  rwa [heq] at hchild

/-- A parent that has not changed confirms its child. -/
theorem Coupled.confirm {P : View κ β → Prop} (h : Coupled c (pages s a) o n v P (some (p, w)))
    (hI : Shared c s a) (hw : s.version p < w + 2 ^ 64) (hp : s.isCurrent p w = true) :
    Knows (pages s a) n v fun x => P x ∧ x.on o.key := by
  obtain ⟨hn, hpar⟩ := h
  obtain ⟨_, habove⟩ := hpar.of_agrees hp hw
  exact hn.look fun _ hP => ⟨hP, (habove.on_child hI hpar.lt rfl).2.2⟩

omit [LinearOrder κ] in
theorem readLock_cases (s : BTree κ β) (o : Op κ β) (hn : n < s.allocated) (f : Nat → Pc κ β) :
    s.readLock o n f = .start o ∨
      isLocked (s.version n) = false ∧ s.readLock o n f = f (s.version n) := by
  unfold BTree.readLock
  rw [if_neg (not_le.mpr hn)]
  by_cases hl : isLocked (s.version n) || isObsolete (s.version n)
  · rw [if_pos hl]
    exact Or.inl rfl
  · rw [if_neg hl]
    simp only [Bool.or_eq_true, not_or] at hl
    exact Or.inr ⟨Bool.eq_false_iff.mpr hl.1, rfl⟩

/-- Reading the version of a page that a pointer names. -/
theorem stepped_of_readLock {f : Nat → Pc κ β} (h : Shared c s a)
    (hs : some (s, s.readLock o n f, none) = some (s', pc', e)) (hl : Locks (pages s a) i [])
    (hheld : pc.held = []) (hstatus : pc.status = .called o) (hn : n < s.allocated)
    (hf : isLocked (s.version n) = false → Holds c (pages s a) i (f (s.version n)))
    (hfheld : ∀ v, (f v).held = []) (hfstatus : ∀ v, (f v).status = .called o) :
    ∃ a', Stepped c i s a pc s' a' pc' e := by
  rw [← hheld] at hl
  rcases readLock_cases s o hn f with hr | ⟨hfree, hr⟩
  · rw [hr] at hs
    exact stepped_of_look h hs hl trivial hheld.symm hstatus.symm
  · rw [hr] at hs
    exact stepped_of_look h hs hl (hf hfree) ((hfheld _).trans hheld.symm)
      ((hfstatus _).trans hstatus.symm)

/-- A comparison of versions. -/
theorem stepped_of_check {b : Bool} (h : Shared c s a)
    (hs : (if b = true then some (s, pc₁, none) else some (s, .start o, none)) =
      some (s', pc', e))
    (hl : Locks (pages s a) i []) (hheld : pc.held = []) (hstatus : pc.status = .called o)
    (hpc : b = true → Holds c (pages s a) i pc₁) (hheld₁ : pc₁.held = [])
    (hstatus₁ : pc₁.status = .called o) : ∃ a', Stepped c i s a pc s' a' pc' e := by
  rw [← hheld] at hl
  by_cases hb : b = true
  · rw [if_pos hb] at hs
    exact stepped_of_look h hs hl (hpc hb) (hheld₁.trans hheld.symm) (hstatus₁.trans hstatus.symm)
  · rw [if_neg hb] at hs
    exact stepped_of_look h hs hl trivial hheld.symm hstatus.symm

theorem alive_add_two {version : Nat → Nat} (h : ∀ n, isObsolete (version n) = false) (n m : Nat) :
    isObsolete (store version n (version n + 2) m) = false := by
  by_cases hm : m = n
  · have hn := h n
    rw [hm, store_self]
    simp only [isObsolete, decide_eq_false_iff_not] at hn ⊢
    omega
  · rw [store_of_ne _ _ hm]
    exact h m

theorem alive_allocate {version : Nat → Nat} (h : ∀ n, isObsolete (version n) = false)
    (n m : Nat) : isObsolete (store version n 4 m) = false := by
  by_cases hm : m = n
  · rw [hm, store_self]
    rfl
  · rw [store_of_ne _ _ hm]
    exact h m

/-- Taking a lock. -/
theorem stepped_of_lock (h : Shared c s a) (hs : some (s.lock n, pc₁, none) = some (s', pc', e))
    (hl : Locks (pages s a) i pc.held) (hn : n < s.allocated)
    (hfree : isLocked (s.version n) = false) (hpc : Holds c ((pages s a).lock n i) i pc₁)
    (hheld : pc₁.held = n :: pc.held) (hstatus : pc₁.status = pc.status) :
    ∃ a', Stepped c i s a pc s' a' pc' e := by
  simp only [Option.some.injEq, Prod.mk.injEq] at hs
  rcases hs with ⟨rfl, rfl, rfl⟩
  have hinter := interferes_lock (t := pages s a) (i := i) h.held hfree
  refine ⟨⟨a.owners, store a.holder n (some i)⟩, ⟨h.inv.setVersion _, hinter.held, fun m hm => ?_,
    alive_add_two h.alive n⟩, hinter, ⟨hpc, ?_⟩, h.inv.content_setVersion _, hstatus⟩
  · have hmn : m ≠ n := fun he => absurd hm (by rw [he]; exact not_le.mpr hn)
    exact (store_of_ne _ _ hmn).trans (h.dead m hm)
  · rw [hheld]
    exact hl.lock n

/-- Giving a lock back. -/
theorem stepped_of_unlock {ns : List Nat} (h : Shared c s a)
    (hs : some (s.unlock n, pc₁, none) = some (s', pc', e)) (hl : Locks (pages s a) i pc.held)
    (hheld : pc.held = n :: ns) (hns : n ∉ ns) (hn : a.holder n = some i)
    (hpc : Holds c ((pages s a).unlock n) i pc₁) (hheld₁ : pc₁.held = ns)
    (hstatus : pc₁.status = pc.status) :
    ∃ a', Stepped c i s a pc s' a' pc' e := by
  simp only [Option.some.injEq, Prod.mk.injEq] at hs
  rcases hs with ⟨rfl, rfl, rfl⟩
  have hinter := interferes_unlock (t := pages s a) (i := i) h.held hn
  rw [hheld] at hl
  refine ⟨⟨a.owners, store a.holder n none⟩, ⟨h.inv.setVersion _, hinter.held, fun m hm => ?_,
    alive_add_two h.alive n⟩, hinter, ⟨hpc, ?_⟩, h.inv.content_setVersion _, hstatus⟩
  · show store a.holder n none m = none
    by_cases hmn : m = n
    · rw [hmn, store_self]
    · rw [store_of_ne _ _ hmn]
      exact h.dead m hm
  · rw [hheld₁]
    exact hl.unlock hns

/-! ## Steps of a writer -/

/-- New pages are free. -/
theorem held_allocate {version : Nat → Nat} {holder : Nat → Option Nat}
    (h : Held version holder) (hm : holder m = none) : Held (store version m 4) holder := by
  intro n
  by_cases hn : n = m
  · rw [hn, store_self, hm]
    simp [isLocked]
  · rw [store_of_ne _ _ hn]
    exact h n

/-- The write of an insert. -/
theorem stepped_of_write (h : Shared c s a) {k : κ} {x : β}
    (hA : Asserts c s a i (.write (.insert k x) n)) :
    Stepped c i s a (.write (.insert k x) n) (s.setNode n ((s.node n).leafInsert k x)) a
      (.unlock (.insert k x) n none (some .inserted)) (some (.effect (.insert k x) .inserted)) := by
  obtain ⟨⟨_, hlt, hhold, hends, hon⟩, hlocks⟩ := hA
  have hpage := h.inv.page n hlt
  have hroom : (s.node n).count ≠ c.leafEntries := by
    have hfull : (s.node n).isFull c = false := hends.room rfl
    rw [Node.isFull, hpage.type_iff.mpr hends.leaf] at hfull
    exact of_decide_eq_false hfull
  obtain ⟨hinv, hcontent⟩ := h.inv.setLeaf hlt hends.leaf hon x hroom
  refine ⟨⟨hinv, h.held, h.dead, h.alive⟩, ⟨h.held, le_rfl, fun _ _ => le_rfl, fun m hm hne => ?_,
    fun _ _ _ => Iff.rfl⟩, ⟨⟨hlt, hhold, trivial⟩, hlocks⟩, ⟨rfl, rfl⟩, funext hcontent, rfl⟩
  have hmn : m ≠ n := fun he => hne (he ▸ hhold)
  simp only [pages]
  rw [show (s.setNode n ((s.node n).leafInsert k x)).node m = s.node m from store_of_ne _ _ hmn]
  rfl

/-- The split of a page below its parent. -/
theorem stepped_of_split_some (h : Shared c s a) (hA : Asserts c s a i (.split o n (some p))) :
    Stepped c i s a (.split o n (some p)) (s.split n (some p))
      ⟨a.owners.split n (s.sep n) s.allocated, a.holder⟩ (.unlock o n (some p) none) none := by
  obtain ⟨⟨⟨hn, hnhold, hfull⟩, hp, hphold, habove⟩, hlocks⟩ := hA
  have hne : n ≠ p := by
    rintro rfl
    have hroom := habove.inside.room hfull.isInsert
    rw [hfull.isFull] at hroom
    exact absurd hroom (by simp)
  obtain ⟨hinv, hcontent⟩ := h.inv.split_some hn hfull.isFull hp habove.inside.inner habove.on
    habove.child_eq (habove.inside.room hfull.isInsert)
  have hheld := held_allocate h.held (h.dead s.allocated le_rfl)
  refine ⟨⟨hinv, hheld, fun m hm => h.dead m (Nat.le_of_succ_le hm), alive_allocate h.alive _⟩,
    ⟨hheld, Nat.le_succ _, fun m hm => ?_, fun m hm hi => ?_, fun _ _ _ => Iff.rfl⟩,
    ⟨⟨⟨hn.trans (Nat.lt_succ_self _), hnhold, trivial⟩,
      ⟨hp.trans (Nat.lt_succ_self _), hphold, trivial⟩, hne⟩, hlocks⟩, funext hcontent, rfl⟩
  · exact (store_of_ne s.version 4 (Nat.ne_of_lt hm)).ge
  · have hmn : m ≠ n := fun he => hi (he ▸ hnhold)
    have hmp : m ≠ p := fun he => hi (he ▸ hphold)
    have hnode : (s.split n (some p)).node m = s.node m :=
      (store_of_ne _ _ hmp).trans (BTree.half_of_ne hm hmn)
    have hon : (a.owners.split n (s.sep n) s.allocated).On m = a.owners.On m :=
      funext fun q => propext (on_split_of_ne hm hmn)
    have hlevel : (a.owners.split n (s.sep n) s.allocated).level m = a.owners.level m :=
      level_split_of_ne (Nat.ne_of_lt hm)
    simp only [pages]
    rw [hnode, hon, hlevel]
    rfl

/-- The split of the root. -/
theorem stepped_of_split_none (h : Shared c s a) (hA : Asserts c s a i (.split o n none)) :
    Stepped c i s a (.split o n none) (s.split n none)
      ⟨(a.owners.split n (s.sep n) s.allocated).grow (s.allocated + 1)
        (a.owners.level n + 1), a.holder⟩ (.unlock o n none none) none := by
  obtain ⟨⟨hn, hnhold, hfull, hroot⟩, hlocks⟩ := hA
  have hroot' : s.root = n := hroot
  subst hroot'
  obtain ⟨hinv, hcontent⟩ := h.inv.split_none hfull.isFull
  have hheld := held_allocate (held_allocate h.held (h.dead s.allocated le_rfl))
    (h.dead (s.allocated + 1) (Nat.le_succ _))
  refine ⟨⟨hinv, hheld, fun m hm => h.dead m (Nat.le_of_succ_le (Nat.le_of_succ_le hm)),
      alive_allocate (alive_allocate h.alive _) _⟩,
    ⟨hheld, Nat.le_add_right _ 2, fun m hm => ?_, fun m hm hi => ?_, fun _ _ _ => Iff.rfl⟩,
    ⟨⟨Nat.lt_add_right 2 hn, hnhold, trivial⟩, hlocks⟩, funext hcontent, rfl⟩
  · have hlt : m < s.allocated := hm
    have hversion : (s.split s.root none).version =
        store (store s.version s.allocated 4) (s.allocated + 1) 4 := rfl
    show s.version m ≤ (s.split s.root none).version m
    rw [hversion, store_of_ne _ _ (by omega), store_of_ne _ _ (by omega)]
  · have hlt : m < s.allocated := hm
    have hmn : m ≠ s.root := fun he => hi (he ▸ hnhold)
    have hnew : m ≠ s.allocated + 1 := by omega
    have hnode : (s.split s.root none).node m = s.node m :=
      (store_of_ne (s.half s.root).node _ hnew).trans (BTree.half_of_ne hlt hmn)
    have hon : ((a.owners.split s.root (s.sep s.root) s.allocated).grow (s.allocated + 1)
        (a.owners.level s.root + 1)).On m = a.owners.On m :=
      funext fun q => propext ((on_grow_of_lt (h.inv.nested_split h.inv.root_lt hfull.isFull)
        (Nat.lt_succ_of_lt hlt)).trans (on_split_of_ne hlt hmn))
    have hlevel : ((a.owners.split s.root (s.sep s.root) s.allocated).grow (s.allocated + 1)
        (a.owners.level s.root + 1)).level m = a.owners.level m :=
      (level_grow_of_ne hnew).trans (level_split_of_ne hlt.ne)
    have hisRoot : ((s.split s.root none).root = m) = (s.root = m) :=
      propext (iff_of_false (show s.allocated + 1 ≠ m from hnew.symm) (Ne.symm hmn))
    simp only [pages]
    rw [hnode, hon, hlevel, hisRoot]

/-! ## Steps of a reader -/

section Enter

variable {parent : Option (Nat × Nat)}

theorem Coupled.lt {t : Pages Nat (View κ β)} {P : View κ β → Prop}
    (h : Coupled c t o n v P parent) : n < t.live := by
  cases parent with
  | none => exact Knows.lt h
  | some x => exact h.1.lt

theorem holds_lockPath {t : Pages Nat (View κ β)} (h : Coupled c t o n v (Full c o) parent) :
    Holds c t i (lockPath o n v parent) := by
  cases parent with
  | none => exact h
  | some x => exact h

theorem holds_check {t : Pages Nat (View κ β)} (h : Coupled c t o n v (Inside c o) parent) :
    Holds c t i (check o n v parent) := by
  cases parent with
  | none => exact Knows.mono h fun hx => ⟨hx.2.1, hx.1⟩
  | some x => exact h

/-- The head of the loop, where `full` is what was seen of the page. -/
theorem holds_enter (hI : Shared c s a) {full : Bool}
    (h : Coupled c (pages s a) o n v (fun _ => True) parent)
    (hfull : s.version n = v → full = (s.node n).isFull c) :
    Holds c (pages s a) i (enter o n v parent (s.node n).type full) := by
  have hpage := hI.inv.page n h.lt
  have hinner : (s.node n).type = .inner → 0 < a.owners.level n := by
    intro ht
    refine Nat.pos_of_ne_zero fun h0 => ?_
    rw [hpage.type_iff.mpr h0] at ht
    exact absurd ht (by simp)
  have hread : o.isInsert = false → Holds c (pages s a) i
      (match (s.node n).type with
        | .inner => check o n v parent
        | .leaf => .search o n v parent) := by
    intro ho
    have hroom : Room c o ((pages s a).view n) := fun hc => absurd (ho.symm.trans hc) (by simp)
    cases ht : (s.node n).type with
    | inner => exact holds_check (h.look fun _ _ => ⟨hinner ht, hroom⟩)
    | leaf => exact ⟨ho, h.look fun _ _ => ⟨hpage.type_iff.mp ht, hroom⟩⟩
  cases o with
  | lookup k =>
      have hr := hread rfl
      unfold enter
      cases ht : (s.node n).type <;> simpa only [ht] using hr
  | scan k range =>
      have hr := hread rfl
      unfold enter
      cases ht : (s.node n).type <;> simpa only [ht] using hr
  | insert k x =>
      unfold enter
      cases full with
      | true =>
          have hlock := holds_lockPath (i := i)
            (h.look (Q := Full c (.insert k x)) fun he _ => ⟨rfl, (hfull he).symm⟩)
          cases ht : (s.node n).type with
          | inner => exact hlock
          | leaf => exact hlock
      | false =>
          cases ht : (s.node n).type with
          | inner =>
              exact holds_check (h.look fun he _ => ⟨hinner ht, fun _ => (hfull he).symm⟩)
          | leaf =>
              exact ⟨rfl, h.look fun he _ => ⟨hpage.type_iff.mp ht, fun _ => (hfull he).symm⟩⟩

omit [LinearOrder κ] in
theorem pc_enter (o : Op κ β) (n v : Nat) (parent : Option (Nat × Nat)) (type : PageType)
    (full : Bool) : (enter o n v parent type full).held = [] ∧
      (enter o n v parent type full).status = .called o := by
  unfold enter
  split
  · cases full <;> rcases parent with _ | ⟨p, w⟩ <;> exact ⟨rfl, rfl⟩
  · cases full <;> rcases parent with _ | ⟨p, w⟩ <;> exact ⟨rfl, rfl⟩
  · rcases parent with _ | ⟨p, w⟩ <;> exact ⟨rfl, rfl⟩
  · exact ⟨rfl, rfl⟩

end Enter

/-- What a leaf that owns the key has to say. -/
theorem allows_read {g : Owners κ} (h : Inv c s g) (hn : n < s.allocated) (hl : g.level n = 0)
    (hon : g.On n o.key) (ho : o.isInsert = false) (race : Race β) :
    (map κ β).allows s.content o (o.read (s.node n) race) ∧
      (map κ β).apply s.content o = s.content := by
  have hpage := h.page n hn
  have hget := h.content_on hl hon
  cases o with
  | insert k x => exact absurd ho (by simp [Op.isInsert])
  | lookup k =>
      change s.content k = (s.node n).get k at hget
      refine ⟨⟨?_, fun x hx => ?_⟩, rfl⟩
      · cases hk : (s.node n).get k <;> simp [Op.read, hk]
      · rw [hx] at hget
        simp [Op.read, ← hget]
  | scan k range =>
      obtain ⟨ks, hks⟩ := Node.reads_scan hpage.increasing k range
      refine ⟨⟨ks, _, rfl, hks.congr hget fun q x hkq hqx hx => ?_⟩, rfl⟩
      rcases Option.ne_none_iff_exists'.mp hx with ⟨y, hy⟩
      rcases (Node.get_eq_some_iff hpage.increasing).mp hy with ⟨j, hj, rfl, _⟩
      have hkn : g.owner 0 k = n := hl ▸ hon
      have hxn : g.owner 0 ((s.node n).keys j) = n := hl ▸ hpage.keys_on j hj
      have hqn := h.owner_between (l := 0) hkq hqx (Nat.zero_add _) (hkn.trans hxn.symm)
      refine h.content_on hl ?_
      unfold Owners.On
      rw [hl, hqn, hkn]

/-- Every step of a thread, given what it knows. -/
theorem next_stepped {act : Act κ β} (h : Shared c s a) (hA : Asserts c s a i pc)
    (hrec : ∀ x ∈ pc.versions, s.version x.1 < x.2 + 2 ^ 64)
    (hs : next c s pc act = some (s', pc', e)) : ∃ a', Stepped c i s a pc s' a' pc' e := by
  obtain ⟨hpc, hl⟩ := hA
  cases act with
  | call o =>
      cases pc with
      | idle =>
          simp only [next, Option.some.injEq, Prod.mk.injEq] at hs
          rcases hs with ⟨rfl, rfl, rfl⟩
          exact ⟨a, h, .refl i h.held, ⟨trivial, hl⟩, rfl, rfl, rfl⟩
      | _ => simp [next] at hs
  | go race =>
      cases pc with
      | idle => simp [next] at hs
      | crashed o => exact absurd hpc (by simp [Holds])
      | start o => exact stepped_of_look h hs hl h.inv.root_lt rfl rfl
      | rootVersion o n =>
          exact stepped_of_readLock h hs hl rfl rfl hpc
            (fun hfree => knows_of_view (t := pages s a) hpc hfree trivial) (fun _ => rfl)
            fun _ => rfl
      | rootCheck o n v =>
          simp only [next] at hs
          split at hs
          next hroot =>
            refine stepped_of_look h hs hl (Knows.look hpc fun _ _ => ⟨trivial, ?_, hroot.symm⟩) rfl rfl
            rw [hroot]
            exact h.inv.on_root _
          next => exact stepped_of_look h hs hl trivial rfl rfl
      | enter o n v parent =>
          obtain ⟨hheld, hstatus⟩ := pc_enter o n v parent (s.node n).type
            (if s.version n = v then (s.node n).isFull c else race.full)
          exact stepped_of_look h hs hl (holds_enter h hpc fun he => if_pos he) hheld hstatus
      | checkParent o n v p w =>
          refine stepped_of_check h hs hl rfl rfl (fun hb => ?_) rfl rfl
          exact (Coupled.confirm hpc h (hrec (p, w) (by simp [Pc.versions])) hb).mono
            fun hx => ⟨hx.2, hx.1⟩
      | child o n v =>
          refine stepped_of_look h hs hl (Knows.look hpc fun he hx => ⟨hx.1, hx.2, ?_⟩) rfl rfl
          exact (if_pos he).symm
      | checkChild o n v m =>
          refine stepped_of_check h hs hl rfl rfl (fun hb => ⟨?_, hpc⟩) rfl rfl
          obtain ⟨_, habove⟩ := Knows.of_agrees hpc hb (hrec (n, v) (by simp [Pc.versions]))
          exact (habove.on_child h hpc.lt rfl).1
      | childVersion o n v m =>
          exact stepped_of_readLock h hs hl rfl rfl hpc.1
            (fun hfree => ⟨knows_of_view (t := pages s a) hpc.1 hfree trivial, hpc.2⟩)
            (fun _ => rfl) fun _ => rfl
      | lockParent o n v p w =>
          simp only [next] at hs
          split at hs
          next hb =>
            obtain ⟨hfree, hown⟩ := Knows.lock (i := i) hpc.2 hb
              (hrec (p, w) (by simp [Pc.versions]))
            exact stepped_of_lock h hs hl hpc.2.lt hfree ⟨hpc.1.lock_other p i, hown⟩ rfl rfl
          next => exact stepped_of_look h hs hl trivial rfl rfl
      | lockNode o n v parent =>
          have hrecn := hrec (n, v) (by simp [Pc.versions])
          cases parent with
          | none =>
              simp only [next] at hs
              split at hs
              next hb =>
                obtain ⟨hfree, hown⟩ := Knows.lock (i := i) hpc hb hrecn
                exact stepped_of_lock h hs hl (Knows.lt hpc) hfree
                  (hown.mono fun hx => ⟨hx.1, hx.2.2⟩) rfl rfl
              next => exact stepped_of_look h hs hl trivial rfl rfl
          | some p =>
              simp only [next] at hs
              split at hs
              next hb =>
                obtain ⟨hfree, hown⟩ := Knows.lock (i := i) hpc.1 hb hrecn
                exact stepped_of_lock h hs hl hpc.1.lt hfree ⟨hown, hpc.2.lock_other n⟩ rfl rfl
              next =>
                exact stepped_of_look h hs hl (hpc.2.mono fun _ => trivial) rfl rfl
      | checkRoot o n =>
          simp only [next] at hs
          rw [if_pos (Eq.symm hpc.holds.2)] at hs
          exact stepped_of_look h hs hl hpc rfl rfl
      | split o n parent =>
          simp only [next, Option.some.injEq, Prod.mk.injEq] at hs
          rcases hs with ⟨rfl, rfl, rfl⟩
          cases parent with
          | none => exact ⟨_, stepped_of_split_none h ⟨hpc, hl⟩⟩
          | some p => exact ⟨_, stepped_of_split_some h ⟨hpc, hl⟩⟩
      | lockLeaf o n v parent =>
          obtain ⟨hins, hpc⟩ := hpc
          have hrecn := hrec (n, v) (by simp [Pc.versions])
          simp only [next] at hs
          split at hs
          next hb =>
            cases parent with
            | none =>
                obtain ⟨hfree, hown⟩ := Knows.lock (i := i) hpc hb hrecn
                exact stepped_of_lock h hs hl (Knows.lt hpc) hfree
                  ⟨hins, hown.mono fun hx => ⟨hx.1, hx.2.1⟩⟩ rfl rfl
            | some x =>
                obtain ⟨hfree, hown⟩ := Knows.lock (i := i) hpc.1 hb hrecn
                exact stepped_of_lock h hs hl hpc.1.lt hfree
                  ⟨hins, hown, hpc.2.lock_other n i⟩ rfl rfl
          next => exact stepped_of_look h hs hl trivial rfl rfl
      | checkLeafParent o n p w =>
          obtain ⟨hins, hown, hpar⟩ := hpc
          simp only [next] at hs
          split at hs
          next hb =>
            obtain ⟨_, habove⟩ := hpar.of_agrees hb (hrec (p, w) (by simp [Pc.versions]))
            exact stepped_of_look h hs hl
              ⟨hins, hown.mono fun hx => ⟨hx, (habove.on_child h hpar.lt rfl).2.2⟩⟩ rfl rfl
          next => exact stepped_of_look h hs hl (hown.mono fun _ => trivial) rfl rfl
      | write o n =>
          cases o with
          | insert k x =>
              simp only [next, Option.some.injEq, Prod.mk.injEq] at hs
              rcases hs with ⟨rfl, rfl, rfl⟩
              exact ⟨_, stepped_of_write h ⟨hpc, hl⟩⟩
          | lookup k => exact absurd hpc.1 (by simp [Op.isInsert])
          | scan k range => exact absurd hpc.1 (by simp [Op.isInsert])
      | unlock o n more r =>
          cases more with
          | none =>
              have hresume : Holds c ((pages s a).unlock n) i (resume o r) ∧
                  (resume o r).held = [] ∧ (resume o r).status = (Pc.unlock o n none r).status := by
                cases r <;> exact ⟨trivial, rfl, rfl⟩
              exact stepped_of_unlock h hs hl rfl (by simp) hpc.holder hresume.1 hresume.2.1
                hresume.2.2
          | some m =>
              obtain ⟨hn, hm, hne⟩ := hpc
              refine stepped_of_unlock h hs hl rfl (by simpa using hne) hn.holder
                (hm.unlock_other (Ne.symm hne)) rfl ?_
              cases r <;> rfl
      | search o n v parent =>
          obtain ⟨ho, hpc⟩ := hpc
          have hfinds : Coupled c (pages s a) o n v
              (Finds c o (if s.version n = v then o.read (s.node n) race else race.result)) parent :=
            hpc.look fun he hx => ⟨hx.leaf, race, if_pos he⟩
          cases parent with
          | none =>
              exact stepped_of_look h hs hl ⟨ho, Knows.mono hfinds fun hx => ⟨hx.1, hx.2.1⟩⟩ rfl rfl
          | some x => exact stepped_of_look h hs hl ⟨ho, hfinds⟩ rfl rfl
      | leave o n v p w r =>
          refine stepped_of_check h hs hl rfl rfl (fun hb => ⟨hpc.1, ?_⟩) rfl rfl
          exact Coupled.confirm hpc.2 h (hrec (p, w) (by simp [Pc.versions])) hb
      | validate o n v r =>
          obtain ⟨ho, hpc⟩ := hpc
          simp only [next] at hs
          split at hs
          next hb =>
            obtain ⟨_, ⟨hleaf, race', rfl⟩, hon⟩ := hpc.of_agrees hb
              (hrec (n, v) (by simp [Pc.versions]))
            simp only [Option.some.injEq, Prod.mk.injEq] at hs
            rcases hs with ⟨rfl, rfl, rfl⟩
            obtain ⟨hallow, happly⟩ := allows_read h.inv hpc.lt hleaf hon ho race'
            exact ⟨a, h, .refl i h.held, ⟨trivial, hl⟩, ⟨rfl, hallow⟩, happly.symm, rfl⟩
          next => exact stepped_of_look h hs hl trivial rfl rfl
      | done o r =>
          simp only [next, Option.some.injEq, Prod.mk.injEq] at hs
          rcases hs with ⟨rfl, rfl, rfl⟩
          exact ⟨a, h, .refl i h.held, ⟨trivial, hl⟩, rfl, rfl, rfl⟩

/-! ## Runs -/

theorem content_create (c : PageSize) (memory : Nat → Node κ β) (q : κ) :
    (BTree.create memory).content q = none := by
  have hinv := inv_create c memory
  rw [hinv.content_on rfl (hinv.on_root q)]
  refine Node.get_eq_none (hinv.page _ hinv.root_lt).increasing ?_
  rintro x ⟨i, hi, _⟩
  exact absurd hi (by simp [BTree.create, Node.createLeaf])

theorem shared_create (c : PageSize) (memory : Nat → Node κ β) :
    Shared c (BTree.create memory) ⟨Owners.single κ, fun _ => none⟩ :=
  ⟨inv_create c memory, fun n => by simp [BTree.create, isLocked], fun _ _ => rfl,
    fun _ => by simp [BTree.create, isObsolete]⟩

theorem safe {memory : Nat → Node κ β} {x : World κ β}
    (hx : Reachable (next c) Recent (init memory) x) :
    Safe (map κ β) BTree.content Pc.status (Shared c) (Asserts c) x := by
  refine safe_of_reachable hx ⟨⟨Owners.single κ, fun _ => none⟩, shared_create c memory,
    fun i => ⟨trivial, fun n => ?_⟩, ?_⟩ ?_
  · simp [pages, init, Pc.held]
  · have hinit : (BTree.create memory).content = fun _ => none := funext (content_create c memory)
    show Tracks _ [] (BTree.create memory).content _
    rw [hinit]
    exact Tracks.init
  · intro y i act a s' pc' e hrec h hall hs
    obtain ⟨a', hstep⟩ := next_stepped h (hall i) hrec hs
    refine ⟨a', hstep.shared, hstep.asserts, fun j hj => ⟨?_, ?_⟩, hstep.simulates⟩
    · exact (hall j).holds.interferes h.held hstep.interferes hj
    · exact (hall j).locks.interferes hstep.interferes hj

/-- In every run the calls are linearized: an insert at the write of its leaf, `lookup` and `scan`
at their last comparison. No thread follows a pointer that is not the address of a page. -/
theorem linearizable (c : PageSize) (memory : Nat → Node κ β) (x : World κ β)
    (hx : Reachable (next c) Recent (init memory) x) :
    Legal (map κ β) x.history ∧ state (map κ β) x.history = x.shared.content ∧
      (∀ i, status x.history i = (x.thread i).status) ∧ ∀ i o, x.thread i ≠ .crashed o := by
  obtain ⟨a, _, hall, hlegal, hstate, hstatus⟩ := safe hx
  refine ⟨hlegal, hstate, hstatus, fun i o hc => ?_⟩
  have hholds := (hall i).holds
  rw [hc] at hholds
  exact hholds

/-- Whatever a reader sees of a page that changes. -/
def go : Act Nat Nat := .go ⟨false, 7, .inserted, false, none⟩

/-- Two inserts fill the first leaf, and the second thread looks at it. A third insert splits it,
and the reader, which compares the version of the old leaf, starts again and finds its key in the
new one before the writer has given its lock back. -/
def readerBehindSplit : List (Nat × Act Nat Nat) :=
  [(0, .call (.insert 1 10))] ++ List.replicate 8 (0, go) ++ [(0, .call (.insert 2 20))] ++
    List.replicate 8 (0, go) ++ [(1, .call (.lookup 2))] ++ List.replicate 3 (1, go) ++
    [(0, .call (.insert 3 30))] ++ List.replicate 7 (0, go) ++ List.replicate 15 (1, go)

theorem run_readerBehindSplit :
    (run (next .smallest) Recent (init fun _ => Node.zero) readerBehindSplit).map
      (fun x => (x.history.take 2, (x.thread 0).held)) =
    some ([(1, .ret (.lookup 2) (.found true (some 20))),
      (1, .effect (.lookup 2) (.found true (some 20)))], [0]) := by decide

theorem linearizable_reader_behind_split :
    ∃ x, run (next .smallest) Recent (init fun _ => Node.zero) readerBehindSplit = some x ∧
      (1, .ret (.lookup 2) (.found true (some 20))) ∈ x.history ∧
      Legal (map Nat Nat) x.history := by
  rcases Option.map_eq_some_iff.mp run_readerBehindSplit with ⟨x, hx, hread⟩
  refine ⟨x, hx, ?_, (linearizable .smallest _ x (Reachable.start.of_run hx)).1⟩
  exact List.mem_of_mem_take (by rw [(Prod.mk.inj hread).1]; exact List.mem_cons_self ..)

/-- A page is locked by the one thread that is between taking and giving back its lock. A root that
was locked is the root, so that `insert` never finds a new parent there. What a step of a
thread changes of a page, it changes under the lock. -/
theorem locks_exclusive (c : PageSize) (memory : Nat → Node κ β) (x : World κ β)
    (hx : Reachable (next c) Recent (init memory) x) :
    (∀ n < x.shared.allocated, isLocked (x.shared.version n) = true ↔ ∃ i, n ∈ (x.thread i).held) ∧
      (∀ i j n, n ∈ (x.thread i).held → n ∈ (x.thread j).held → i = j) ∧
      (∀ i o n, x.thread i = .checkRoot o n → n = x.shared.root) ∧
      ∀ i act x', Recent x i act → step (next c) x i act = some x' →
        ∀ n < x.shared.allocated, n ∉ (x.thread i).held →
          x'.shared.node n = x.shared.node n ∧ (n = x.shared.root → n = x'.shared.root) := by
  obtain ⟨a, hI, hall, _⟩ := safe hx
  refine ⟨fun n _ => ?_, fun i j n hi hj => ?_, fun i o n hpc => ?_, ?_⟩
  · rw [hI.held n]
    constructor
    · intro hne
      obtain ⟨i, hi⟩ := Option.ne_none_iff_exists'.mp hne
      exact ⟨i, ((hall i).locks n).mp hi⟩
    · rintro ⟨i, hi⟩ hnone
      exact absurd (hnone.symm.trans (((hall i).locks n).mpr hi)) (by simp)
  · exact Option.some.inj ((((hall i).locks n).mpr hi).symm.trans (((hall j).locks n).mpr hj))
  · have hholds := (hall i).holds
    rw [hpc] at hholds
    exact (Owns.holds hholds).2.symm
  · intro i act x' hrec hs n hn hheld
    obtain ⟨s', pc', e, hp, rfl⟩ := step_eq_some hs
    obtain ⟨a', hstep⟩ := next_stepped hI (hall i) hrec hp
    have hview := hstep.interferes.view n hn fun hi => hheld (((hall i).locks n).mp hi)
    refine ⟨congrArg View.node hview, fun hroot => ?_⟩
    have heq : (s'.root = n) = (x.shared.root = n) := congrArg View.isRoot hview
    exact (heq.mpr hroot.symm).symm

/-- While the writer holds the lock of the old leaf, nobody else does. -/
theorem locks_exclusive_reader_behind_split :
    ∃ x, run (next .smallest) Recent (init fun _ => Node.zero) readerBehindSplit = some x ∧
      (x.thread 0).held = [0] ∧ ∀ i, 0 ∈ (x.thread i).held → i = 0 := by
  rcases Option.map_eq_some_iff.mp run_readerBehindSplit with ⟨x, hx, hread⟩
  have hheld : (x.thread 0).held = [0] := (Prod.mk.inj hread).2
  refine ⟨x, hx, hheld, fun i hi => ?_⟩
  exact (locks_exclusive .smallest _ x (Reachable.start.of_run hx)).2.1 i 0 0 hi
    (by rw [hheld]; exact List.mem_cons_self ..)

/-- The assertions of `insert` hold where they stand: a leaf that is written has a free slot, and
the parent of a page that is split has one besides the last. -/
theorem asserts_hold (c : PageSize) (memory : Nat → Node κ β) (x : World κ β)
    (hx : Reachable (next c) Recent (init memory) x) (i : Nat) (o : Op κ β) (n : Nat) :
    (x.thread i = .write o n → (x.shared.node n).count < c.leafEntries) ∧
      ∀ parent, x.thread i = .split o n parent → (x.shared.node n).isFull c = true ∧
        ∀ p ∈ parent, (x.shared.node p).count < c.innerEntries - 1 ∧
          (x.shared.node p).child o.key = n := by
  obtain ⟨a, hI, hall, _⟩ := safe hx
  have hholds := (hall i).holds
  refine ⟨fun hpc => ?_, fun parent hpc => ?_⟩
  · rw [hpc] at hholds
    obtain ⟨hins, hown⟩ := hholds
    have hpage := hI.inv.page n hown.lt
    have hleaf : a.owners.level n = 0 := hown.holds.1.leaf
    have hroom : (x.shared.node n).isFull c = false := hown.holds.1.room hins
    rw [Node.isFull, hpage.type_iff.mpr hleaf] at hroom
    exact Nat.lt_of_le_of_ne (hpage.leaf_count hleaf) (of_decide_eq_false hroom)
  · rw [hpc] at hholds
    cases parent with
    | none => exact ⟨hholds.holds.1.isFull, fun p hp => absurd hp (by simp)⟩
    | some p =>
        obtain ⟨hn, hpar⟩ := hholds
        refine ⟨hn.holds.isFull, fun p' hp' => ?_⟩
        obtain rfl := Option.some.inj hp'
        have hpage := hI.inv.page p hpar.lt
        have hinner : 0 < a.owners.level p := hpar.holds.inside.inner
        have hroom : (x.shared.node p).isFull c = false :=
          hpar.holds.inside.room hn.holds.isInsert
        rw [Node.isFull, hpage.type_eq_inner hinner] at hroom
        exact ⟨Nat.lt_of_le_of_ne (hpage.inner_count hinner) (of_decide_eq_false hroom),
          hpar.holds.child_eq⟩

/-- The writer in front of its split. -/
theorem asserts_hold_in_front_of_split :
    ∃ x, run (next .smallest) Recent (init fun _ => Node.zero) (readerBehindSplit.take 29) = some x ∧
      x.thread 0 = .split (.insert 3 30) 0 none ∧ (x.shared.node 0).isFull .smallest = true := by
  have hrun : (run (next .smallest) Recent (init fun _ => Node.zero) (readerBehindSplit.take 29)).map
      (fun x => x.thread 0) = some (.split (.insert 3 30) 0 none) := by decide
  rcases Option.map_eq_some_iff.mp hrun with ⟨x, hx, hpc⟩
  exact ⟨x, hx, hpc, ((asserts_hold .smallest _ x (Reachable.start.of_run hx) 0 _ 0).2 _ hpc).1⟩

/-- The writer goes on and returns. -/
def allReturn : List (Nat × Act Nat Nat) := readerBehindSplit ++ List.replicate 14 (0, go)

/-- Three keys are in two leaves below the root then, and no page is locked. -/
theorem exists_allReturn :
    ∃ x, Reachable (next .smallest) Recent (init fun _ => Node.zero) x ∧
      (∀ i, (x.thread i).held = []) ∧ x.shared.root = 2 ∧ x.shared.allocated = 3 ∧
      x.shared.content 2 = some 20 ∧ x.shared.content 5 = none := by
  have hrun : (run (next .smallest) Recent (init fun _ => Node.zero) allReturn).map
      (fun x => ((x.shared.root, x.shared.allocated, x.shared.content 2, x.shared.content 5),
        (x.thread 0).held, (x.thread 1).held)) =
      some ((2, 3, some 20, none), [], []) := by decide
  rcases Option.map_eq_some_iff.mp hrun with ⟨x, hx, hend⟩
  simp only [Prod.mk.injEq] at hend
  obtain ⟨⟨hroot, hallocated, hfound, habsent⟩, h0, h1⟩ := hend
  refine ⟨x, Reachable.start.of_run hx, ?_, hroot, hallocated, hfound, habsent⟩
  intro i
  match i with
  | 0 => exact h0
  | 1 => exact h1
  | i + 2 =>
      have hstay : ∀ e ∈ allReturn, e.1 ≠ i + 2 := by
        have hlt : ∀ e ∈ allReturn, e.1 < 2 := by decide
        exact fun e he => (lt_of_lt_of_le (hlt e he) (by omega)).ne
      rw [run_thread_of_notMem hstay hx]
      rfl

end BtreeOlc
