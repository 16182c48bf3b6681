import BLinkTree.Calls

/-! # Searches that leave the live slots

`find` and `update` compare the slot that `Node::index` returns without asking whether it
is live, while `insert_into_leaf` does ask. When all keys of the leaf are smaller, the slot
is the first dead one: it holds what the memory held or what a split left behind. In a full
leaf it lies behind the keys, where the first value is compared as if it were a key.
-/

namespace BLinkTree

open Linearization

namespace Node

variable {c : Capacity} {n m : Node} {key : Nat}

/-- The slots that `find` and `update` touch in a leaf. -/
def searchSlots (n : Node) (key : Nat) : List Nat :=
  Slots.lowerBoundSlots n.keys n.size key ++ [n.index key]

/-- The search touches live slots only. -/
def SearchesLive (n : Node) (key : Nat) : Prop := ∀ s ∈ n.searchSlots key, s < n.size

theorem searchesLive_iff_index : n.SearchesLive key ↔ n.index key < n.size := by
  constructor
  · intro h
    exact h _ (by simp [searchSlots])
  · intro h s hs
    rcases List.mem_append.mp hs with hs | hs
    · exact Slots.lt_of_mem_lowerBoundSlots hs
    · rw [List.mem_singleton.mp hs]
      exact h

theorem searchesLive_iff (h : n.WellFormed c) :
    n.SearchesLive key ↔ ∃ q ∈ n.liveKeys, key ≤ q := by
  rw [searchesLive_iff_index]
  constructor
  · intro hi
    have hmem : n.keys (n.index key) ∈ n.liveKeys :=
      List.mem_map.mpr ⟨n.index key, List.mem_range.mpr hi, rfl⟩
    exact ⟨_, hmem, Slots.le_of_lowerBound_le h.monotone le_rfl hi⟩
  · intro ⟨q, hq, hle⟩
    rcases List.mem_map.mp hq with ⟨i, hi, rfl⟩
    have hin : i < n.size := List.mem_range.mp hi
    by_contra hge
    have hlt : n.keys i < key :=
      Slots.lt_of_lt_lowerBound h.monotone (show i < n.index key by omega)
    omega

/-- Two leaves with the same live slots. -/
structure LiveEq (n m : Node) : Prop where
  isLeaf : m.isLeaf = n.isLeaf
  size : m.size = n.size
  keys : ∀ i < n.size, m.keys i = n.keys i
  values : ∀ i < n.size, m.values i = n.values i

theorem LiveEq.index (h : LiveEq n m) (key : Nat) : m.index key = n.index key := by
  unfold Node.index
  rw [h.size]
  exact Slots.lowerBound_congr h.keys key

/-- The live slots decide what a search finds: the slot that it compares is live, or it lies
behind the keys of a full leaf and the first value is not the key. -/
def LiveDecides (c : Capacity) (n : Node) (key : Nat) : Prop :=
  (∃ q ∈ n.liveKeys, key ≤ q) ∨ n.isFull c = true ∧ asKey (n.values 0) ≠ key

theorem index_eq_size (hlive : ¬ n.SearchesLive key) : n.index key = n.size := by
  rw [searchesLive_iff_index] at hlive
  have hle := n.index_le key
  omega

theorem WellFormed.isFull_iff (h : n.WellFormed c) (hl : n.isLeaf = true) :
    n.isFull c = true ↔ n.size = c.maxItems := by
  have hle := h.size_le_maxItems hl
  rw [isFull, capacity, if_pos hl, decide_eq_true_iff]
  omega

/-- In a full leaf the first slot behind the keys is the first value. -/
theorem leafKey_size_of_full (hsize : n.size = c.maxItems) :
    n.leafKey c n.size = asKey (n.values 0) := by
  rw [leafKey, if_neg (by omega), hsize, Nat.sub_self]

/-- A search of a slot that is not live is decided by the first value of a full leaf. -/
theorem LiveDecides.full (h : n.WellFormed c) (hl : n.isLeaf = true)
    (hd : n.LiveDecides c key) (hlive : ¬ n.SearchesLive key) :
    n.size = c.maxItems ∧ asKey (n.values 0) ≠ key := by
  rcases hd with hq | ⟨hf, hne⟩
  · exact absurd ((searchesLive_iff h).mpr hq) hlive
  · exact ⟨(h.isFull_iff hl).mp hf, hne⟩

/-- A leaf with the same live slots whose first dead word is `value`. -/
def withDead (n : Node) (key : Nat) (value : Value) : Node :=
  { n with
    keys := Slots.store n.keys n.size key
    values := Slots.store n.values n.size value }

theorem liveEq_withDead (n : Node) (key : Nat) (value : Value) : LiveEq n (n.withDead key value) :=
  ⟨rfl, rfl, fun _ hi => Slots.store_of_ne _ _ hi.ne, fun _ hi => Slots.store_of_ne _ _ hi.ne⟩

/-- Unless the live slots decide, the search gives what stands in the first dead slot. -/
theorem findValue_withDead (h : n.WellFormed c) (hl : n.isLeaf = true)
    (hd : ¬ n.LiveDecides c key) (value : Value) :
    (n.withDead key value).findValue c key = value := by
  have hlive : ¬ n.SearchesLive key := fun hs => hd (Or.inl ((searchesLive_iff h).mp hs))
  have hindex : (n.withDead key value).index key = n.size := by
    rw [(liveEq_withDead n key value).index key, index_eq_size hlive]
  have hkey : (n.withDead key value).leafKey c n.size = key := by
    by_cases hsize : n.size = c.maxItems
    · have hpos := c.two_le_maxItems
      have hzero : (n.withDead key value).values 0 = n.values 0 :=
        Slots.store_of_ne _ _ (by omega)
      have hfirst : asKey (n.values 0) = key := by
        by_contra hne
        exact hd (Or.inr ⟨(h.isFull_iff hl).mpr hsize, hne⟩)
      rw [← hfirst, ← hzero]
      exact leafKey_size_of_full hsize
    · have hlt : n.size < c.maxItems := lt_of_le_of_ne (h.size_le_maxItems hl) hsize
      rw [leafKey_of_lt hlt]
      exact Slots.store_self _ _ _
  have hvalue : (n.withDead key value).values n.size = value := Slots.store_self _ _ _
  rw [findValue, hindex, hkey, if_pos rfl, hvalue]

/-- What a search finds is the same for all leaves with these live slots exactly when the
live slots decide it. -/
theorem liveDecides_iff (h : n.WellFormed c) (hl : n.isLeaf = true) :
    n.LiveDecides c key ↔ ∀ m, LiveEq n m → m.findValue c key = n.findValue c key := by
  constructor
  · intro hd m hm
    unfold findValue
    rw [hm.index key]
    by_cases hlive : n.SearchesLive key
    · have hi := searchesLive_iff_index.mp hlive
      have hlt : n.index key < c.maxItems := lt_of_lt_of_le hi (h.size_le_maxItems hl)
      rw [leafKey_of_lt hlt, leafKey_of_lt hlt, hm.keys _ hi, hm.values _ hi]
    · rcases hd.full h hl hlive with ⟨hsize, hne⟩
      have hpos := c.two_le_maxItems
      have hzero : m.values 0 = n.values 0 := hm.values 0 (by omega)
      have hkey : m.leafKey c m.size = asKey (m.values 0) :=
        leafKey_size_of_full (hm.size.trans hsize)
      rw [hm.size, hzero] at hkey
      rw [index_eq_size hlive, hkey, leafKey_size_of_full hsize, if_neg hne, if_neg hne]
  · intro hall
    by_contra hd
    have hdead := findValue_withDead h hl hd (n.findValue c key + 1)
    have hne : ∀ x : Int, x ≠ x + 1 := fun x => by omega
    rw [hall _ (liveEq_withDead n key (n.findValue c key + 1))] at hdead
    exact hne _ hdead

/-- The slot that a decided search of an absent key compares is another one. -/
theorem leafKey_index_ne (h : n.WellFormed c) (hl : n.isLeaf = true) (hk : key ∉ n.liveKeys)
    (hd : n.LiveDecides c key) : n.leafKey c (n.index key) ≠ key := by
  by_cases hlive : n.SearchesLive key
  · have hi := searchesLive_iff_index.mp hlive
    rw [h.leafKey_eq hl hi]
    exact fun he => hk ((mem_liveKeys_iff h.monotone key).mpr ⟨hi, he⟩)
  · rcases hd.full h hl hlive with ⟨hsize, hne⟩
    rw [index_eq_size hlive, leafKey_size_of_full hsize]
    exact hne

theorem findValue_eq_zero (h : n.WellFormed c) (hl : n.isLeaf = true) (hk : key ∉ n.liveKeys)
    (hd : n.LiveDecides c key) : n.findValue c key = 0 :=
  if_neg (leafKey_index_ne h hl hk hd)

theorem updateValue_eq_self (h : n.WellFormed c) (hl : n.isLeaf = true) (hk : key ∉ n.liveKeys)
    (hd : n.LiveDecides c key) (value : Value) : n.updateValue c key value = n :=
  if_neg (leafKey_index_ne h hl hk hd)

end Node

section Covering

variable {c : Capacity} {t : Tree} {g : Ghost Nat} {n k : Nat}

theorem Inv.exists_covers (h : Inv c t g) (hk : k < maxKey) : ∃ n, t.Covers n k := by
  have hroot : g.low t.root ≤ k := by
    rw [h.low_root]
    exact Nat.zero_le k
  refine h.search_induction (P := fun _ => ∃ n, t.Covers n k) hk (fun m hm hlow hright hdown => ?_)
    t.root h.root_lt hroot
  by_cases hh : (t.node m).highKey ≤ k
  · rcases h.right_move hm hk hh with ⟨r, hr, _⟩
    exact hright r hh hr
  · cases hl : (t.node m).isLeaf with
    | true => exact ⟨m, h.covers hm hl hlow (not_le.mp hh)⟩
    | false =>
        rcases (h.node m hm).child hl hlow with ⟨s, hs, _⟩
        exact hdown s hl hs

theorem Inv.of_covers (h : Inv c t g) (hn : t.Covers n k) :
    g.low n ≤ k ∧ k < (t.node n).highKey := by
  rcases hn with ⟨hlt, _, hlow, hhigh, _⟩
  rw [h.lowKey_eq hlt] at hlow
  exact ⟨hlow, hhigh⟩

theorem Inv.eq_of_covers (h : Inv c t g) (hn : t.Covers n k) {m : Nat} (hm : m < t.count)
    (hl : (t.node m).isLeaf = true) (hlow : g.low m ≤ k) (hhigh : k < (t.node m).highKey) :
    m = n := by
  rw [← h.lowKey_eq hm] at hlow
  exact hn.2.2.2.2 m hm hl hlow hhigh

theorem Inv.notMem_liveKeys (h : Inv c t g) (hn : t.Covers n k)
    (habs : OrderedMap.get? k t.content = none) : k ∉ (t.node n).liveKeys := by
  rcases h.of_covers hn with ⟨hlow, hhigh⟩
  rw [h.get?_content hn.1 hn.2.1 hlow hhigh, OrderedMap.get?_eq_none_iff] at habs
  rw [Node.liveKeys_of_leaf hn.2.1]
  exact habs

end Covering

/-! ## Calls one after the other -/

/-- The states after sequences of inserts, one call after the other. -/
inductive Grown {σ : Type} (call : Nat → σ → Op → Option (σ × Value)) (s₀ : σ) : σ → Prop
  | fresh : Grown call s₀ s₀
  | insert {s s' : σ} {fuel k : Nat} {v r : Value} : Grown call s₀ s → k < maxKey →
      call fuel s (.insert k v) = some (s', r) → Grown call s₀ s'

/-- The results of a sequence of calls that all meet `ok` and return. -/
inductive Answered {σ : Type} (call : Nat → σ → Op → Option (σ × Value)) (ok : σ → Op → Prop) :
    σ → List Op → List Value → Prop
  | nil {s : σ} : Answered call ok s [] []
  | cons {s s' : σ} {fuel : Nat} {o : Op} {r : Value} {ops : List Op} {rs : List Value} :
      ok s o → call fuel s o = some (s', r) → Answered call ok s' ops rs →
      Answered call ok s (o :: ops) (r :: rs)

/-- The live slots of the leaf that covers the key of a `find` or `update` decide what it
finds. -/
def LiveDecides (c : Capacity) (t : Tree) (o : Op) : Prop :=
  o.key < maxKey ∧ ((∃ k v, o = .insert k v) ∨
    ∀ n, t.Covers n o.key → (t.node n).LiveDecides c o.key)

/-- The answer of the map, with 0 for an absent key. -/
def Op.answer (m : List (Nat × Value)) : Op → Value
  | find k => (OrderedMap.get? k m).getD 0
  | _ => 0

/-- An implementation whose calls, one after the other, search the covering leaf. -/
structure Serves (c : Capacity) {σ : Type} (tree : σ → Tree)
    (call : Nat → σ → Op → Option (σ × Value)) (I : σ → Prop) : Prop where
  mono : ∀ fuel fuel' s o x, call fuel s o = some x → fuel ≤ fuel' → call fuel' s o = some x
  inv : ∀ s, I s → ∃ g : Ghost Nat, Inv c (tree s) g
  insert : ∀ fuel s s' k v r, I s → k < maxKey → call fuel s (.insert k v) = some (s', r) →
    I s' ∧ (tree s').content = OrderedMap.insertIfAbsent k v (tree s).content ∧ r = 0
  find : ∀ s k n, I s → k < maxKey → (tree s).Covers n k →
    ∃ fuel s', call fuel s (.find k) = some (s', ((tree s).node n).findValue c k) ∧ I s' ∧
      tree s' = tree s
  update : ∀ s k v n, I s → k < maxKey → (tree s).Covers n k →
    ∃ fuel s', call fuel s (.update k v) = some (s', 0) ∧ I s' ∧
      tree s' = (tree s).setNode n (((tree s).node n).updateValue c k v)

/-- What `find` and `update` of key `k` do: they search the leaf that covers the key. -/
structure SearchesLeaf (c : Capacity) {σ : Type} (tree : σ → Tree)
    (call : Nat → σ → Op → Option (σ × Value)) (s : σ) (k n : Nat) : Prop where
  covers : (tree s).Covers n k
  find : ∃ fuel s', call fuel s (.find k) = some (s', ((tree s).node n).findValue c k) ∧
    tree s' = tree s
  update : ∀ v, ∃ fuel s', call fuel s (.update k v) = some (s', 0) ∧
    tree s' = (tree s).setNode n (((tree s).node n).updateValue c k v)
  /-- It touches live slots only exactly when the leaf has a live key that is not smaller. -/
  live : ((tree s).node n).SearchesLive k ↔ ∃ q ∈ ((tree s).node n).liveKeys, k ≤ q
  /-- Its result depends on the live slots only exactly when they decide it. -/
  decides : ((tree s).node n).LiveDecides c k ↔ ∀ m, Node.LiveEq ((tree s).node n) m →
    m.findValue c k = ((tree s).node n).findValue c k
  /-- Then `find` of an absent key gives 0 and `update` of it changes nothing. -/
  absent : ((tree s).node n).LiveDecides c k → OrderedMap.get? k (tree s).content = none →
    ((tree s).node n).findValue c k = 0 ∧
      ∀ v, (tree s).setNode n (((tree s).node n).updateValue c k v) = tree s

/-- The searches in all states that inserts build from `s₀`. Two such states, built in
different memory, with the same bindings answer every sequence of calls alike as long as the
live slots decide all searches. -/
structure GrownSearches (c : Capacity) {σ : Type} (tree : σ → Tree)
    (call : Nat → σ → Op → Option (σ × Value)) (s₀ s₀' : σ) : Prop where
  covering : ∀ s, Grown call s₀ s → ∀ k < maxKey, ∃ n, SearchesLeaf c tree call s k n
  alike : ∀ s s' ops rs rs', Grown call s₀ s → Grown call s₀' s' →
    (tree s).content = (tree s').content →
    Answered call (fun s => LiveDecides c (tree s)) s ops rs →
    Answered call (fun s => LiveDecides c (tree s)) s' ops rs' → rs = rs'

namespace Serves

variable {c : Capacity} {σ : Type} {tree : σ → Tree}
  {call : Nat → σ → Op → Option (σ × Value)} {I : σ → Prop} {s s₀ : σ} {k : Nat}

theorem grown (h : Serves c tree call I) (h0 : I s₀) (hs : Grown call s₀ s) : I s := by
  induction hs with
  | fresh => exact h0
  | insert _ hk hc ih => exact (h.insert _ _ _ _ _ _ ih hk hc).1

/-- A returned call has one result. -/
theorem det (h : Serves c tree call I) {fuel fuel' : Nat} {o : Op} {x y : σ × Value}
    (hx : call fuel s o = some x) (hy : call fuel' s o = some y) : x = y := by
  have h1 := h.mono _ _ _ _ _ hx (le_max_left fuel fuel')
  have h2 := h.mono _ _ _ _ _ hy (le_max_right fuel fuel')
  rw [h1, Option.some.injEq] at h2
  exact h2

/-- The searches of a state. -/
theorem searches (h : Serves c tree call I) (hs : I s) (hk : k < maxKey) :
    ∃ n, SearchesLeaf c tree call s k n := by
  rcases h.inv s hs with ⟨g, hinv⟩
  rcases hinv.exists_covers hk with ⟨n, hn⟩
  rcases h.find s k n hs hk hn with ⟨fuel, s1, h1, _, h2⟩
  have hw := (hinv.node n hn.1).wellFormed
  refine ⟨n, hn, ⟨fuel, s1, h1, h2⟩, fun v => ?_, Node.searchesLive_iff hw,
    Node.liveDecides_iff hw hn.2.1, fun hd habs => ?_⟩
  · rcases h.update s k v n hs hk hn with ⟨fuel, s2, h3, _, h4⟩
    exact ⟨fuel, s2, h3, h4⟩
  · have hmem := hinv.notMem_liveKeys hn habs
    refine ⟨Node.findValue_eq_zero hw hn.2.1 hmem hd, fun v => ?_⟩
    rw [Node.updateValue_eq_self hw hn.2.1 hmem hd v]
    exact setNode_node _ n

/-- The result of a call that the live slots decide, and the content behind it. -/
theorem call_eq (h : Serves c tree call I) {s' : σ} {fuel : Nat} {o : Op} {r : Value} (hs : I s)
    (hok : LiveDecides c (tree s) o) (hc : call fuel s o = some (s', r)) :
    I s' ∧ (tree s').content = finiteMap.apply (tree s).content o ∧
      r = o.answer (tree s).content := by
  rcases hok with ⟨hk, hok⟩
  rcases h.inv s hs with ⟨g, hinv⟩
  rcases hinv.exists_covers hk with ⟨n, hn⟩
  cases o with
  | insert k v => exact h.insert fuel s s' k v r hs hk hc
  | update k v =>
      rcases h.update s k v n hs hk hn with ⟨fuel', s1, h1, h2, h3⟩
      have heq := h.det hc h1
      simp only [Prod.mk.injEq] at heq
      rcases heq with ⟨rfl, rfl⟩
      refine ⟨h2, ?_, rfl⟩
      rw [h3]
      rcases hinv.of_covers hn with ⟨hlow, hhigh⟩
      exact (updateValue_spec hinv 0 hn.1 hn.2.1 hlow hhigh v).2.2
  | find k =>
      rcases h.find s k n hs hk hn with ⟨fuel', s1, h1, h2, h3⟩
      have heq := h.det hc h1
      simp only [Prod.mk.injEq] at heq
      rcases heq with ⟨rfl, rfl⟩
      refine ⟨h2, by rw [h3]; rfl, ?_⟩
      rcases hinv.of_covers hn with ⟨hlow, hhigh⟩
      show ((tree s).node n).findValue c k = (OrderedMap.get? k (tree s).content).getD 0
      cases hg : OrderedMap.get? k (tree s).content with
      | some v => exact findValue_spec hinv hn.1 hn.2.1 hlow hhigh v hg
      | none =>
          have hw := (hinv.node n hn.1).wellFormed
          have hd : ((tree s).node n).LiveDecides c k := by
            rcases hok with ⟨_, _, ho⟩ | hok
            · exact absurd ho (by simp)
            · exact hok n hn
          exact Node.findValue_eq_zero hw hn.2.1 (hinv.notMem_liveKeys hn hg) hd

/-- Two states with the same bindings answer every sequence of calls alike, as long as the
live slots decide all searches. -/
theorem same_answers (h : Serves c tree call I) {s₁ s₂ : σ} {ops : List Op} {rs₁ rs₂ : List Value}
    (hs₁ : I s₁) (hs₂ : I s₂) (hcontent : (tree s₁).content = (tree s₂).content)
    (h₁ : Answered call (fun s => LiveDecides c (tree s)) s₁ ops rs₁)
    (h₂ : Answered call (fun s => LiveDecides c (tree s)) s₂ ops rs₂) : rs₁ = rs₂ := by
  induction h₁ generalizing s₂ rs₂ with
  | nil =>
      cases h₂
      rfl
  | cons hok hc _ ih =>
      cases h₂ with
      | cons hok' hc' hrest =>
          rcases h.call_eq hs₁ hok hc with ⟨k1, k2, k3⟩
          rcases h.call_eq hs₂ hok' hc' with ⟨k1', k2', k3'⟩
          rw [← hcontent] at k2' k3'
          rw [k3, k3', ih k1 k1' (k2.trans k2'.symm) hrest]

theorem grownSearches (h : Serves c tree call I) {s₀' : σ} (h0 : I s₀) (h0' : I s₀') :
    GrownSearches c tree call s₀ s₀' where
  covering := fun _ hs _ hk => h.searches (h.grown h0 hs) hk
  alike := fun _ _ _ _ _ hs hs' hcontent ha ha' =>
    h.same_answers (h.grown h0 hs) (h.grown h0' hs') hcontent ha ha'

end Serves

end BLinkTree
