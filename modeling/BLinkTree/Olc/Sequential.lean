import BLinkTree.Olc.Linearizable

/-! # Calls of the B-tree that run alone

When no page is locked, a call that runs alone ends, whatever the other threads remember of
the tree. An insert starts again behind every split. Counted from the leaf upwards, the first
page of the path that was full has room from then on, and only the page above it can have
become full.
-/

namespace BtreeOlc

open Slots Hierarchy Linearization Interleaving VersionLock

variable {κ β : Type} [LinearOrder κ] {c : PageSize} {s s' : BTree κ β} {g g' : Owners κ}
  {n m p v w l d : Nat} {o : Op κ β} {r : Race β} {parent : Option (Nat × Nat)}

def Pc.result : Pc κ β → Option (Result β)
  | done _ r => some r
  | _ => none

/-- Where a call gets alone. -/
abbrev Runs (c : PageSize) (r : Race β) :
    BTree κ β → Pc κ β → BTree κ β → Pc κ β → Prop :=
  Walks (next c) Pc.result (.go r)

/-- No page is locked, and none is obsolete. -/
def Quiet (s : BTree κ β) : Prop :=
  ∀ n < s.allocated, isLocked (s.version n) = false ∧ isObsolete (s.version n) = false

/-- A remembered version is the current one. -/
def Current (s : BTree κ β) : Option (Nat × Nat) → Prop
  | none => True
  | some (p, w) => w = s.version p

omit [LinearOrder κ] in
theorem isCurrent_self (s : BTree κ β) (n : Nat) : s.isCurrent n (s.version n) = true :=
  decide_eq_true rfl

omit [LinearOrder κ] in
theorem Quiet.readLock (h : Quiet s) (hn : n < s.allocated) (f : Nat → Pc κ β) :
    s.readLock o n f = f (s.version n) := by
  obtain ⟨h1, h2⟩ := h n hn
  unfold BTree.readLock
  rw [if_neg (not_le.mpr hn), h1, h2]
  exact if_neg (by simp)

/-! ## The way down -/

theorem runs_root (hq : Quiet s) (hroot : s.root < s.allocated) :
    Runs c r s (.start o) s (.enter o s.root (s.version s.root) none) := by
  have hversion : next c s (.rootVersion o s.root) (.go r) =
      some (s, .rootCheck o s.root (s.version s.root), none) := by
    simp only [next, hq.readLock hroot]
  have hcheck : next c s (.rootCheck o s.root (s.version s.root)) (.go r) =
      some (s, .enter o s.root (s.version s.root) none, none) := if_pos rfl
  exact .head rfl rfl (.head rfl hversion (.head rfl hcheck .refl))

omit [LinearOrder κ] in
theorem enter_inner {full : Bool} (hopen : o.isInsert = true → full = false) :
    enter o n v parent .inner full = check o n v parent := by
  cases o with
  | insert k x => rw [hopen rfl]; rfl
  | lookup k => rfl
  | scan k range => rfl

theorem runs_check (hpar : Current s parent) :
    Runs c r s (check o n v parent) s (.child o n v) := by
  cases parent with
  | none => exact .refl
  | some x =>
      obtain ⟨p, w⟩ := x
      have hw : w = s.version p := hpar
      subst hw
      exact .head rfl (if_pos (isCurrent_self s p)) .refl

theorem runs_child (hq : Quiet s) (hty : (s.node n).type = .inner)
    (hm : (s.node n).child o.key < s.allocated)
    (hopen : o.isInsert = true → (s.node n).isFull c = false) (hpar : Current s parent) :
    Runs c r s (.enter o n (s.version n) parent) s
      (.enter o ((s.node n).child o.key) (s.version ((s.node n).child o.key))
        (some (n, s.version n))) := by
  have henter : next c s (.enter o n (s.version n) parent) (.go r) =
      some (s, check o n (s.version n) parent, none) := by
    simp only [next, if_true, hty, enter_inner hopen]
  have hchild : next c s (.child o n (s.version n)) (.go r) =
      some (s, .checkChild o n (s.version n) ((s.node n).child o.key), none) := by
    simp only [next, if_true]
  have hversion : next c s (.childVersion o n (s.version n) ((s.node n).child o.key)) (.go r) =
      some (s, .enter o ((s.node n).child o.key) (s.version ((s.node n).child o.key))
        (some (n, s.version n)), none) := by
    simp only [next, hq.readLock hm]
  exact .head rfl henter ((runs_check hpar).trans (.head rfl hchild
    (.head rfl (if_pos (isCurrent_self s n)) (.head rfl hversion .refl))))

/-- What the loop remembers of the page above level `l`. -/
def parentAt (s : BTree κ β) (g : Owners κ) (k : κ) (l : Nat) : Option (Nat × Nat) :=
  if l = g.level s.root then none else some (g.owner (l + 1) k, s.version (g.owner (l + 1) k))

omit [LinearOrder κ] in
theorem current_parentAt (s : BTree κ β) (g : Owners κ) (k : κ) (l : Nat) :
    Current s (parentAt s g k l) := by
  unfold parentAt
  split
  · trivial
  · exact rfl

/-- The page of the key on level `l` has room. -/
def HasRoom (c : PageSize) (s : BTree κ β) (g : Owners κ) (k : κ) (l : Nat) : Prop :=
  (s.node (g.owner l k)).isFull c = false

/-- The pages of the key from level `l` up have room. -/
def Clear (c : PageSize) (s : BTree κ β) (g : Owners κ) (k : κ) (l : Nat) : Prop :=
  ∀ l', l ≤ l' → l' ≤ g.level s.root → HasRoom c s g k l'

theorem Inv.owner_inner (h : Inv c s g) (hl : l + 1 ≤ g.level s.root) (k : κ) :
    g.owner (l + 1) k < s.allocated ∧ g.level (g.owner (l + 1) k) = l + 1 ∧
      (s.node (g.owner (l + 1) k)).type = .inner ∧ g.On (g.owner (l + 1) k) k ∧
      (s.node (g.owner (l + 1) k)).child k = g.owner l k := by
  have hlt := h.nested.lt _ hl k
  have hlev := h.nested.level_owner _ hl k
  have hon := h.nested.on_owner hl k
  refine ⟨hlt, hlev, (h.page _ hlt).type_eq_inner (by omega), hon, ?_⟩
  rw [h.child_eq hlt (by omega) hon, hlev, Nat.add_sub_cancel]

theorem runs_down (hq : Quiet s) (h : Inv c s g) (hd : l + d = g.level s.root)
    (hclear : o.isInsert = true → Clear c s g o.key (l + 1)) :
    Runs c r s (.start o) s
      (.enter o (g.owner l o.key) (s.version (g.owner l o.key)) (parentAt s g o.key l)) := by
  induction d generalizing l with
  | zero =>
      obtain rfl : l = g.level s.root := by omega
      rw [h.owner_root, parentAt, if_pos rfl]
      exact runs_root hq h.root_lt
  | succ d ih =>
      have habove := ih (l := l + 1) (by omega) fun ho l' h1 h2 => hclear ho l' (by omega) h2
      obtain ⟨hlt, _, hty, hon, hchild⟩ := h.owner_inner (l := l) (by omega) o.key
      have hdown := runs_child (c := c) (r := r) (o := o) hq hty
        (by rw [hchild]; exact h.nested.lt l (by omega) o.key)
        (fun ho => hclear ho (l + 1) le_rfl (by omega)) (current_parentAt s g o.key (l + 1))
      rw [hchild] at hdown
      rw [show parentAt s g o.key l = _ from if_neg (by omega)]
      exact habove.trans hdown

/-! ## The leaf -/

theorem runs_read (hty : (s.node n).type = .leaf) (ho : o.isInsert = false)
    (hpar : Current s parent) :
    Runs c r s (.enter o n (s.version n) parent) s (.done o (o.read (s.node n) r)) := by
  have henter : next c s (.enter o n (s.version n) parent) (.go r) =
      some (s, .search o n (s.version n) parent, none) := by
    simp only [next, if_true, hty]
    cases o with
    | insert k x => exact absurd ho (by simp [Op.isInsert])
    | lookup k => rfl
    | scan k range => rfl
  have hvalidate : Runs c r s (.validate o n (s.version n) (o.read (s.node n) r)) s
      (.done o (o.read (s.node n) r)) := .head rfl (if_pos (isCurrent_self s n)) .refl
  cases parent with
  | none =>
      have hsearch : next c s (.search o n (s.version n) none) (.go r) =
          some (s, .validate o n (s.version n) (o.read (s.node n) r), none) := by
        simp only [next, if_true]
      exact .head rfl henter (.head rfl hsearch hvalidate)
  | some x =>
      obtain ⟨p, w⟩ := x
      have hw : w = s.version p := hpar
      subst hw
      have hsearch : next c s (.search o n (s.version n) (some (p, s.version p))) (.go r) =
          some (s, .leave o n (s.version n) p (s.version p) (o.read (s.node n) r), none) := by
        simp only [next, if_true]
      exact .head rfl henter (.head rfl hsearch (.head rfl (if_pos (isCurrent_self s p)) hvalidate))

theorem runs_write {k : κ} {x : β} (hty : (s.node n).type = .leaf)
    (hroom : (s.node n).isFull c = false) (hpar : Current s parent)
    (hne : ∀ y ∈ parent, y.1 ≠ n) :
    ∃ version, Runs c r s (.enter (.insert k x) n (s.version n) parent)
      { s.setNode n ((s.node n).leafInsert k x) with version := version }
      (.done (.insert k x) .inserted) := by
  have henter : next c s (.enter (.insert k x) n (s.version n) parent) (.go r) =
      some (s, .lockLeaf (.insert k x) n (s.version n) parent, none) := by
    simp only [next, if_true, hty, hroom]
    rfl
  have hwrite : Runs c r (s.lock n) (.write (.insert k x) n)
      (((s.lock n).setNode n ((s.node n).leafInsert k x)).unlock n)
      (.done (.insert k x) .inserted) := .head rfl rfl (.head rfl rfl .refl)
  refine ⟨(((s.lock n).setNode n ((s.node n).leafInsert k x)).unlock n).version,
    .head rfl henter ?_⟩
  cases parent with
  | none => exact .head rfl (if_pos (isCurrent_self s n)) hwrite
  | some y =>
      obtain ⟨p, w⟩ := y
      have hw : w = s.version p := hpar
      have hpn : p ≠ n := hne (p, w) rfl
      have hcur : (s.lock n).isCurrent p w = true := by
        rw [hw]
        exact decide_eq_true (congrArg (· % 2 ^ 64) (store_of_ne _ _ hpn))
      exact .head rfl (if_pos (isCurrent_self s n)) (.head rfl (if_pos hcur) hwrite)

/-! ## A split -/

theorem isLocked_add_four (v : Nat) : isLocked (v + 2 + 2) = isLocked v ∧
    isObsolete (v + 2 + 2) = isObsolete v := by
  simp only [isLocked, isObsolete, decide_eq_decide]
  omega

omit [LinearOrder κ] in
/-- The versions behind a split: every lock was taken and given back. -/
theorem quiet_of_versions {t : BTree κ β} (hq : Quiet s)
    (h : ∀ m < t.allocated, t.version m = 4 ∨
      m < s.allocated ∧ (t.version m = s.version m ∨ t.version m = s.version m + 2 + 2)) :
    Quiet t := by
  intro m hm
  rcases h m hm with h4 | ⟨hlt, heq | heq⟩
  · rw [h4]
    exact ⟨rfl, rfl⟩
  · rw [heq]
    exact hq m hlt
  · rw [heq, (isLocked_add_four _).1, (isLocked_add_four _).2]
    exact hq m hlt

theorem runs_split_none {k : κ} {x : β} (hq : Quiet s) (hroot : s.root < s.allocated)
    (hfull : (s.node s.root).isFull c = true) :
    ∃ version, Runs c r s (.enter (.insert k x) s.root (s.version s.root) none)
        { s.split s.root none with version := version } (.start (.insert k x)) ∧
      Quiet { s.split s.root none with version := version } := by
  have henter : next c s (.enter (.insert k x) s.root (s.version s.root) none) (.go r) =
      some (s, .lockNode (.insert k x) s.root (s.version s.root) none, none) := by
    simp only [next, if_true, hfull]
    cases (s.node s.root).type <;> rfl
  have hlock : next c s (.lockNode (.insert k x) s.root (s.version s.root) none) (.go r) =
      some (s.lock s.root, .checkRoot (.insert k x) s.root, none) := if_pos (isCurrent_self s _)
  have hcheck : next c (s.lock s.root) (.checkRoot (.insert k x) s.root) (.go r) =
      some (s.lock s.root, .split (.insert k x) s.root none, none) := if_pos rfl
  refine ⟨(((s.lock s.root).split s.root none).unlock s.root).version,
    .head rfl henter (.head rfl hlock (.head rfl hcheck (.head rfl rfl (.head rfl rfl .refl)))),
    quiet_of_versions hq fun m hm => ?_⟩
  have hlt : m < s.allocated + 2 := hm
  have hunlock : (((s.lock s.root).split s.root none).unlock s.root).version =
      store ((s.lock s.root).split s.root none).version s.root
        (((s.lock s.root).split s.root none).version s.root + 2) := rfl
  have hsplit : ((s.lock s.root).split s.root none).version =
      store (store (s.lock s.root).version s.allocated 4) (s.allocated + 1) 4 := rfl
  have hlocked : (s.lock s.root).version = store s.version s.root (s.version s.root + 2) := rfl
  dsimp only
  rw [hunlock, hsplit, hlocked]
  by_cases hmr : m = s.root
  · rw [hmr, store_self, store_of_ne _ _ (by omega), store_of_ne _ _ (by omega), store_self]
    exact Or.inr ⟨hroot, Or.inr rfl⟩
  · rw [store_of_ne _ _ hmr]
    by_cases h1 : m = s.allocated + 1
    · rw [h1, store_self]
      exact Or.inl rfl
    · rw [store_of_ne _ _ h1]
      by_cases h0 : m = s.allocated
      · rw [h0, store_self]
        exact Or.inl rfl
      · rw [store_of_ne _ _ h0, store_of_ne _ _ hmr]
        exact Or.inr ⟨by omega, Or.inl rfl⟩

theorem runs_split_some {k : κ} {x : β} (hq : Quiet s) (hn : n < s.allocated)
    (hp : p < s.allocated) (hne : n ≠ p) (hfull : (s.node n).isFull c = true) :
    ∃ version, Runs c r s
        (.enter (.insert k x) n (s.version n) (some (p, s.version p)))
        { s.split n (some p) with version := version } (.start (.insert k x)) ∧
      Quiet { s.split n (some p) with version := version } := by
  have henter : next c s (.enter (.insert k x) n (s.version n) (some (p, s.version p)))
      (.go r) = some (s, .lockParent (.insert k x) n (s.version n) p (s.version p), none) := by
    simp only [next, if_true, hfull]
    cases (s.node n).type <;> rfl
  have hparent : next c s (.lockParent (.insert k x) n (s.version n) p (s.version p)) (.go r) =
      some (s.lock p, .lockNode (.insert k x) n (s.version n) (some p), none) :=
    if_pos (isCurrent_self s p)
  have hcur : (s.lock p).isCurrent n (s.version n) = true :=
    decide_eq_true (congrArg (· % 2 ^ 64) (store_of_ne _ _ hne))
  have hnode : next c (s.lock p) (.lockNode (.insert k x) n (s.version n) (some p)) (.go r) =
      some ((s.lock p).lock n, .split (.insert k x) n (some p), none) := if_pos hcur
  refine ⟨(((((s.lock p).lock n).split n (some p)).unlock n).unlock p).version,
    .head rfl henter (.head rfl hparent (.head rfl hnode (.head rfl rfl (.head rfl rfl
      (.head rfl rfl .refl))))), quiet_of_versions hq fun m hm => ?_⟩
  have hlt : m < s.allocated + 1 := hm
  have hversion : (((((s.lock p).lock n).split n (some p)).unlock n).unlock p).version m =
      if m = p then (((((s.lock p).lock n).split n (some p)).unlock n).version p + 2)
      else if m = n then (((s.lock p).lock n).split n (some p)).version n + 2
      else (((s.lock p).lock n).split n (some p)).version m := rfl
  have hsplit : (((s.lock p).lock n).split n (some p)).version =
      store ((s.lock p).lock n).version s.allocated 4 := rfl
  have hunlock : ((((s.lock p).lock n).split n (some p)).unlock n).version p =
      (((s.lock p).lock n).split n (some p)).version p := store_of_ne _ _ hne.symm
  have hlocked : ((s.lock p).lock n).version =
      store (store s.version p (s.version p + 2)) n (store s.version p (s.version p + 2) n + 2) := rfl
  dsimp only
  rw [hversion, hunlock, hsplit, hlocked]
  by_cases hmp : m = p
  · rw [if_pos hmp, hmp, store_of_ne _ _ (by omega), store_of_ne _ _ hne.symm, store_self]
    exact Or.inr ⟨hp, Or.inr rfl⟩
  · by_cases hmn : m = n
    · rw [if_neg hmp, if_pos hmn, hmn, store_of_ne _ _ (by omega), store_self,
        store_of_ne _ _ hne]
      exact Or.inr ⟨hn, Or.inr rfl⟩
    · rw [if_neg hmp, if_neg hmn]
      by_cases h0 : m = s.allocated
      · rw [h0, store_self]
        exact Or.inl rfl
      · rw [store_of_ne _ _ h0, store_of_ne _ _ hmn, store_of_ne _ _ hmp]
        exact Or.inr ⟨by omega, Or.inl rfl⟩

/-! ## Room on the path -/

omit [LinearOrder κ] in
theorem isFull_split {nd r : Node κ β} (hfull : nd.isFull c = true) :
    (nd.split r).1.isFull c = false ∧ (nd.split r).2.1.isFull c = false := by
  have hcount := two_le_count_of_isFull hfull
  unfold Node.split
  cases ht : nd.type with
  | leaf =>
      obtain ⟨h1, h2, h3⟩ := Node.count_leafSplit (r := r) hcount
      rw [Node.isFull, ht] at hfull
      have heq := of_decide_eq_true hfull
      have hty : (nd.leafSplit r).1.type = .leaf := ht
      have hty' : (nd.leafSplit r).2.1.type = .leaf := rfl
      simp only [Node.isFull, hty, hty', decide_eq_false_iff_not]
      omega
  | inner =>
      obtain ⟨h1, h2, _⟩ := Node.count_innerSplit (r := r) hcount
      rw [Node.isFull, ht] at hfull
      have heq := of_decide_eq_true hfull
      have hty : (nd.innerSplit r).1.type = .inner := ht
      have hty' : (nd.innerSplit r).2.1.type = .inner := rfl
      simp only [Node.isFull, hty, hty', decide_eq_false_iff_not]
      omega

section Room

variable {k : κ} {version : Nat → Nat}

/-- The page that was split has room. -/
theorem hasRoom_half (h : Inv c s g) (hl : l ≤ g.level s.root) (hfull : ¬ HasRoom c s g k l) :
    ((s.half (g.owner l k)).node
      ((g.split (g.owner l k) (s.sep (g.owner l k)) s.allocated).owner l k)).isFull c = false := by
  have hn := h.nested.lt l hl k
  have hlev := h.nested.level_owner l hl k
  have hsplit := isFull_split (r := s.node s.allocated) (Bool.not_eq_false _ ▸ hfull)
  by_cases hs : s.sep (g.owner l k) < k
  · rw [show (g.split _ _ s.allocated).owner l k = s.allocated from if_pos ⟨hlev.symm, hs, rfl⟩,
      BTree.half_right]
    exact hsplit.2
  · rw [show (g.split _ _ s.allocated).owner l k = g.owner l k from if_neg fun hc => hs hc.2.1,
      BTree.half_left hn]
    exact hsplit.1

/-- A split leaves the other levels alone. -/
theorem half_owner (h : Inv c s g) (hl : l ≤ g.level s.root) {l' : Nat}
    (hl' : l' ≤ g.level s.root) (hne : l' ≠ l) :
    (g.split (g.owner l k) (s.sep (g.owner l k)) s.allocated).owner l' k = g.owner l' k ∧
      (s.half (g.owner l k)).node (g.owner l' k) = s.node (g.owner l' k) := by
  have hlev := h.nested.level_owner l hl k
  refine ⟨if_neg fun hc => hne (hc.1.trans hlev), BTree.half_of_ne (h.nested.lt l' hl' k) ?_⟩
  intro he
  have hlev' := h.nested.level_owner l' hl' k
  rw [he] at hlev'
  omega

/-- What happens to the first full page of a path. -/
structure Splits (c : PageSize) (r : Race β) (s : BTree κ β) (g : Owners κ) (k : κ) (x : β)
    (l : Nat) (s' : BTree κ β) (g' : Owners κ) : Prop where
  runs : Runs c r s (.start (.insert k x)) s' (.start (.insert k x))
  quiet : Quiet s'
  inv : Inv c s' g'
  content_eq : ∀ q, s'.content q = s.content q
  top_le : g.level s.root ≤ g'.level s'.root
  below : ∀ l' < l, HasRoom c s' g' k l' ↔ HasRoom c s g k l'

theorem splits_root {x : β} (hq : Quiet s) (h : Inv c s g)
    (hfull : ¬ HasRoom c s g k (g.level s.root)) :
    ∃ s' g', Splits c r s g k x (g.level s.root) s' g' ∧
      Clear c s' g' k (g.level s.root) := by
  have h3 := c.three_le_innerEntries
  have hroot := h.owner_root k
  have hisFull : (s.node s.root).isFull c = true := by
    rw [← hroot]
    exact Bool.not_eq_false _ ▸ hfull
  obtain ⟨hinv, hcontent⟩ := h.split_none hisFull
  obtain ⟨version, hruns, hquiet⟩ := runs_split_none (r := r) (k := k) (x := x) hq h.root_lt
    hisFull
  have hnest := h.nested_split h.root_lt hisFull
  set g₁ := g.split s.root (s.sep s.root) s.allocated with hg₁
  have htop : (g₁.grow (s.allocated + 1) (g.level s.root + 1)).level (s.allocated + 1) =
      g.level s.root + 1 := store_self _ _ _
  have hinv' := hinv.setVersion version
  have hsame := hinv.content_setVersion version
  -- the old levels are those of the two halves
  have hold : ∀ l' ≤ g.level s.root,
      HasRoom c { s.split s.root none with version := version }
          (g₁.grow (s.allocated + 1) (g.level s.root + 1)) k l' ↔
        ((s.half s.root).node (g₁.owner l' k)).isFull c = false := by
    intro l' hl'
    unfold HasRoom
    rw [owner_grow_of_le hl']
    have hne : g₁.owner l' k ≠ s.allocated + 1 := (hnest.lt l' hl' k).ne
    show ((store (s.half s.root).node (s.allocated + 1) _) (g₁.owner l' k)).isFull c = false ↔ _
    rw [store_of_ne _ _ hne]
  refine ⟨_, _, ⟨(runs_root hq h.root_lt).trans hruns, hquiet, hinv', fun q => ?_, ?_,
    fun l' hl' => ?_⟩, fun l' h1 h2 => ?_⟩
  · rw [hsame]
    exact hcontent q
  · exact (Nat.le_succ _).trans htop.ge
  · rw [hold l' hl'.le]
    obtain ⟨ho, hn⟩ := half_owner (k := k) h le_rfl hl'.le hl'.ne
    rw [hroot] at ho hn
    rw [ho, hn]
    exact Iff.rfl
  · change l' ≤ (g₁.grow (s.allocated + 1) (g.level s.root + 1)).level (s.allocated + 1) at h2
    rw [htop] at h2
    rcases Nat.lt_or_eq_of_le h2 with hlt | rfl
    · obtain rfl : l' = g.level s.root := by omega
      rw [hold _ le_rfl]
      have hhalf := hasRoom_half h le_rfl hfull
      rwa [hroot] at hhalf
    · unfold HasRoom
      rw [show (g₁.grow (s.allocated + 1) (g.level s.root + 1)).owner (g.level s.root + 1) k =
        s.allocated + 1 from congrFun (store_self g₁.owner _ _) k]
      show ((store (s.half s.root).node (s.allocated + 1) _) (s.allocated + 1)).isFull c = false
      rw [store_self]
      exact decide_eq_false (by simp [Node.createRoot]; omega)

theorem splits_page {x : β} (hq : Quiet s) (h : Inv c s g) (hl : l < g.level s.root)
    (hclear : Clear c s g k (l + 1)) (hfull : ¬ HasRoom c s g k l) :
    ∃ s' g', Splits c r s g k x l s' g' ∧ g'.level s'.root = g.level s.root ∧
      HasRoom c s' g' k l ∧ Clear c s' g' k (l + 2) := by
  have hisFull : (s.node (g.owner l k)).isFull c = true := Bool.not_eq_false _ ▸ hfull
  have hn := h.nested.lt l hl.le k
  have hnl := h.nested.level_owner l hl.le k
  obtain ⟨hp, hpl, hpty, hpon, hchild⟩ := h.owner_inner (l := l) (by omega) k
  have hne : g.owner l k ≠ g.owner (l + 1) k := by
    intro he
    rw [← he] at hpl
    omega
  obtain ⟨hinv, hcontent⟩ := h.split_some hn hisFull hp (by omega) hpon hchild
    (hclear (l + 1) le_rfl (by omega))
  obtain ⟨version, hruns, hquiet⟩ := runs_split_some (r := r) (k := k) (x := x) hq hn hp hne
    hisFull
  have hdown := runs_down (r := r) (o := .insert k x) hq h
    (Nat.add_sub_cancel' hl.le) fun _ => hclear
  rw [show parentAt s g (Op.insert k x).key l = _ from if_neg hl.ne] at hdown
  set g₁ := g.split (g.owner l k) (s.sep (g.owner l k)) s.allocated with hg₁
  have htop : g₁.level s.root = g.level s.root := level_split_of_ne h.root_lt.ne
  have hnode : ∀ m, m ≠ g.owner (l + 1) k →
      (s.split (g.owner l k) (some (g.owner (l + 1) k))).node m = (s.half (g.owner l k)).node m :=
    fun m hm => store_of_ne _ _ hm
  -- only the page and its parent change
  have hother : ∀ l' ≤ g.level s.root, l' ≠ l → l' ≠ l + 1 →
      (HasRoom c { s.split (g.owner l k) (some (g.owner (l + 1) k)) with version := version } g₁ k l' ↔
        HasRoom c s g k l') := by
    intro l' hl' h0 h1
    obtain ⟨ho, hn'⟩ := half_owner (k := k) h hl.le hl' h0
    have hlev := h.nested.level_owner l' hl' k
    have hnp : g.owner l' k ≠ g.owner (l + 1) k := fun he => h1 (by rw [he, hpl] at hlev; omega)
    unfold HasRoom
    dsimp only
    rw [ho, hnode _ hnp, hn']
  refine ⟨_, g₁, ⟨hdown.trans hruns, hquiet, hinv.setVersion version, fun q => ?_, htop.ge,
    fun l' hl' => hother l' (by omega) (by omega) (by omega)⟩, htop, ?_, fun l' h1 h2 => ?_⟩
  · rw [hinv.content_setVersion version]
    exact hcontent q
  · have hhalf := hasRoom_half h hl.le hfull
    have hlev : g₁.level (g₁.owner l k) = l :=
      (h.nested_split hn hisFull).level_owner l hl.le k
    have hnp : g₁.owner l k ≠ g.owner (l + 1) k := by
      intro he
      rw [he, level_split_of_ne hp.ne] at hlev
      omega
    unfold HasRoom
    dsimp only
    rw [hnode _ hnp]
    exact hhalf
  · have h2' : l' ≤ g.level s.root := htop ▸ h2
    exact (hother l' h2' (by omega) (by omega)).mpr (hclear l' (by omega) h2')

/-- The pages from level `l` up get room, and no page below loses any. -/
theorem climb {x : β} (hq : Quiet s) (h : Inv c s g) (hd : l + d = g.level s.root)
    (hclear : Clear c s g k (l + 1)) :
    ∃ s' g', Splits c r s g k x l s' g' ∧ Clear c s' g' k l := by
  induction d generalizing s g l with
  | zero =>
      obtain rfl : l = g.level s.root := by omega
      by_cases hroom : HasRoom c s g k (g.level s.root)
      · exact ⟨s, g, ⟨.refl, hq, h, fun _ => rfl, le_rfl, fun _ _ => Iff.rfl⟩, fun l' h1 h2 =>
          le_antisymm h1 h2 ▸ hroom⟩
      · exact splits_root hq h hroom
  | succ d ih =>
      by_cases hroom : HasRoom c s g k l
      · refine ⟨s, g, ⟨.refl, hq, h, fun _ => rfl, le_rfl, fun _ _ => Iff.rfl⟩, fun l' h1 h2 => ?_⟩
        rcases Nat.lt_or_eq_of_le h1 with hlt | rfl
        · exact hclear l' hlt h2
        · exact hroom
      · obtain ⟨s₁, g₁, h₁, htop₁, hroom₁, hclear₁⟩ :=
          splits_page (r := r) (x := x) hq h (by omega) hclear hroom
        obtain ⟨s₂, g₂, h₂, hclear₂⟩ := ih (l := l + 1) h₁.quiet h₁.inv (by omega) hclear₁
        refine ⟨s₂, g₂, ⟨h₁.runs.trans h₂.runs, h₂.quiet, h₂.inv,
          fun q => (h₂.content_eq q).trans (h₁.content_eq q), h₁.top_le.trans h₂.top_le,
          fun l' hl' => (h₂.below l' (by omega)).trans (h₁.below l' hl')⟩, fun l' h1 h2 => ?_⟩
        rcases Nat.lt_or_eq_of_le h1 with hlt | rfl
        · exact hclear₂ l' hlt h2
        · exact (h₂.below l (Nat.lt_succ_self l)).mpr hroom₁

/-- An insert comes to a path without full pages. -/
theorem clears {x : β} (hq : Quiet s) (h : Inv c s g) (hclear : Clear c s g k l) :
    ∃ s' g', Splits c r s g k x 0 s' g' ∧ Clear c s' g' k 0 := by
  induction l generalizing s g with
  | zero =>
      exact ⟨s, g, ⟨.refl, hq, h, fun _ => rfl, le_rfl, fun _ _ => Iff.rfl⟩, hclear⟩
  | succ l ih =>
      by_cases hl : l ≤ g.level s.root
      · obtain ⟨s₁, g₁, h₁, hclear₁⟩ := climb (r := r) (x := x) hq h
          (Nat.add_sub_cancel' hl) hclear
        obtain ⟨s₂, g₂, h₂, hclear₂⟩ := ih h₁.quiet h₁.inv hclear₁
        exact ⟨s₂, g₂, ⟨h₁.runs.trans h₂.runs, h₂.quiet, h₂.inv,
          fun q => (h₂.content_eq q).trans (h₁.content_eq q), h₁.top_le.trans h₂.top_le,
          fun l' hl' => absurd hl' (by omega)⟩, hclear₂⟩
      · exact ih hq h fun l' h1 h2 => absurd h2 (by omega)

end Room

/-! ## Calls -/

/-- One call that runs alone. -/
def call (c : PageSize) (r : Race β) (fuel : Nat) (s : BTree κ β) (o : Op κ β) :
    Option (BTree κ β × Result β) :=
  solo (next c) Pc.result (.go r) fuel s (.start o)

theorem call_of_read (hq : Quiet s) (h : Inv c s g) (ho : o.isInsert = false) :
    ∃ fuel, call c r fuel s o = some (s, o.read (s.node (g.owner 0 o.key)) r) := by
  have hzero := Nat.zero_le (g.level s.root)
  have hlt := h.nested.lt 0 hzero o.key
  have hlev := h.nested.level_owner 0 hzero o.key
  have hdown := runs_down (r := r) (o := o) (l := 0) hq h (Nat.zero_add _) fun hi =>
    absurd (ho.symm.trans hi) (by simp)
  exact (hdown.trans (runs_read ((h.page _ hlt).type_iff.mpr hlev) ho
    (current_parentAt s g o.key 0))).solo rfl

theorem allows_call (h : Inv c s g) (ho : o.isInsert = false) (r : Race β) :
    (map κ β).allows s.content o (o.read (s.node (g.owner 0 o.key)) r) ∧
      (map κ β).apply s.content o = s.content :=
  have hzero := Nat.zero_le (g.level s.root)
  allows_read h (h.nested.lt 0 hzero o.key) (h.nested.level_owner 0 hzero o.key)
    (h.nested.on_owner hzero o.key) ho r

theorem call_of_insert {k : κ} {x : β} (hq : Quiet s) (h : Inv c s g) :
    ∃ fuel s', call c r fuel s (.insert k x) = some (s', .inserted) ∧
      s'.content = Function.update s.content k (some x) := by
  obtain ⟨s₁, g₁, h₁, hclear⟩ := clears (r := r) (x := x) (k := k)
    (l := g.level s.root + 1) hq h fun l' h1 h2 => absurd h2 (by omega)
  have hzero := Nat.zero_le (g₁.level s₁.root)
  have hinv := h₁.inv
  have hlt := hinv.nested.lt 0 hzero k
  have hlev := hinv.nested.level_owner 0 hzero k
  have hty := (hinv.page _ hlt).type_iff.mpr hlev
  have hdown := runs_down (r := r) (o := .insert k x) (l := 0) h₁.quiet hinv
    (Nat.zero_add _) fun _ l' h1 h2 => hclear l' (by omega) h2
  have hpar : ∀ y ∈ parentAt s₁ g₁ k 0, y.1 ≠ g₁.owner 0 k := by
    intro y hy he
    unfold parentAt at hy
    split at hy
    · simp at hy
    next hne =>
      simp only [Option.mem_def, Option.some.injEq] at hy
      have hup := hinv.nested.level_owner 1 (by omega) k
      rw [← hy] at he
      rw [show g₁.owner 1 k = g₁.owner 0 k from he] at hup
      omega
  obtain ⟨version, hwrite⟩ := runs_write (r := r) (k := k) (x := x) hty
    (hclear 0 le_rfl hzero) (current_parentAt s₁ g₁ k 0) hpar
  obtain ⟨fuel, hf⟩ := (h₁.runs.trans (hdown.trans hwrite)).solo rfl
  have hroom : (s₁.node (g₁.owner 0 k)).count ≠ c.leafEntries := by
    have hfull := hclear 0 le_rfl hzero
    rw [HasRoom, Node.isFull, hty] at hfull
    exact of_decide_eq_false hfull
  obtain ⟨hinv', hcontent⟩ := hinv.setLeaf hlt hlev (hinv.nested.on_owner hzero k) x hroom
  refine ⟨fuel, _, hf, ?_⟩
  rw [hinv'.content_setVersion version, funext hcontent, funext h₁.content_eq]

theorem quiet_of_free {a : Aux κ} {x : World κ β} (hI : Shared c x.shared a)
    (hall : ∀ i, Asserts c x.shared a i (x.thread i)) (hfree : ∀ i, (x.thread i).held = []) :
    Quiet x.shared := by
  refine fun n _ => ⟨Bool.eq_false_iff.mpr fun hl => ?_, hI.alive n⟩
  obtain ⟨i, hi⟩ := Option.ne_none_iff_exists'.mp ((hI.held n).mp hl)
  have hmem := ((hall i).locks n).mp hi
  rw [hfree i] at hmem
  exact absurd hmem (by simp)

/-- In every state of a run in which no page is locked, a call that runs alone ends and does what
the map does. -/
theorem alone_ends (c : PageSize) (memory : Nat → Node κ β) (x : World κ β)
    (hx : Reachable (next c) Recent (init memory) x) (hfree : ∀ i, (x.thread i).held = [])
    (o : Op κ β) (race : Race β) :
    ∃ fuel s' r, call c race fuel x.shared o = some (s', r) ∧
      (map κ β).allows x.shared.content o r ∧ s'.content = (map κ β).apply x.shared.content o := by
  obtain ⟨a, hI, hall, _⟩ := safe hx
  have hq := quiet_of_free hI hall hfree
  have hread : o.isInsert = false → ∃ fuel s' r, call c race fuel x.shared o = some (s', r) ∧
      (map κ β).allows x.shared.content o r ∧
      s'.content = (map κ β).apply x.shared.content o := by
    intro ho
    obtain ⟨fuel, hf⟩ := call_of_read (r := race) hq hI.inv ho
    obtain ⟨hallow, happly⟩ := allows_call hI.inv ho race
    exact ⟨fuel, _, _, hf, hallow, happly.symm⟩
  cases o with
  | insert k v =>
      obtain ⟨fuel, s', hf, hc⟩ := call_of_insert (r := race) (k := k) (x := v) hq hI.inv
      exact ⟨fuel, s', _, hf, rfl, hc⟩
  | lookup k => exact hread rfl
  | scan k range => exact hread rfl

/-- A key is looked up when all others have returned. -/
theorem alone_ends_all_return :
    ∃ x fuel s', Reachable (next .smallest) Recent (init fun _ => Node.zero) x ∧
      call .smallest ⟨false, 7, .inserted, false, none⟩ fuel x.shared (.lookup 2) =
        some (s', .found true (some 20)) := by
  obtain ⟨x, hx, hfree, _, _, hcontent, _⟩ := exists_allReturn
  obtain ⟨fuel, s', r, hcall, ⟨_, hfound⟩, _⟩ := alone_ends .smallest _ x hx hfree (.lookup 2)
    ⟨false, 7, .inserted, false, none⟩
  rw [hfound 20 hcontent] at hcall
  exact ⟨x, fuel, s', hx, hcall⟩

/-- Nobody sets the flag of `lookup` when the key is not there: the call returns what it finds in
the variable, which may be that the key was found. -/
theorem lookup_absent (c : PageSize) (memory : Nat → Node κ β) (x : World κ β)
    (hx : Reachable (next c) Recent (init memory) x) (hfree : ∀ i, (x.thread i).held = [])
    (k : κ) (hk : x.shared.content k = none) (race : Race β) :
    ∃ fuel, call c race fuel x.shared (.lookup k) =
      some (x.shared, .found race.success race.unset) := by
  obtain ⟨a, hI, hall, _⟩ := safe hx
  obtain ⟨fuel, hf⟩ := call_of_read (r := race) (o := .lookup k) (quiet_of_free hI hall hfree)
    hI.inv rfl
  refine ⟨fuel, hf.trans ?_⟩
  rw [hI.inv.content_eq] at hk
  change some (x.shared, Op.read (.lookup k) (x.shared.node (a.owners.owner 0 k)) race) = _
  simp only [Op.read, hk]

/-- The root is above two leaves that have no key 5, and the lookup says it has found 7. -/
theorem lookup_absent_all_return :
    ∃ x fuel, Reachable (next .smallest) Recent (init fun _ => Node.zero) x ∧
      x.shared.root = 2 ∧ x.shared.content 5 = none ∧
      call .smallest ⟨false, 7, .inserted, true, some 7⟩ fuel x.shared (.lookup 5) =
        some (x.shared, .found true (some 7)) := by
  obtain ⟨x, hx, hfree, hroot, _, _, habsent⟩ := exists_allReturn
  obtain ⟨fuel, hcall⟩ := lookup_absent .smallest _ x hx hfree 5 habsent
    ⟨false, 7, .inserted, true, some 7⟩
  exact ⟨x, fuel, hx, hroot, habsent, hcall⟩

end BtreeOlc
