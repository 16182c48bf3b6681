import BLinkTree.Optimistic.Linearizable
import BLinkTree.Searches

/-! # Sequential calls of the optimistic tree

A call that runs alone finds all latches free and gives back the one it takes, and every
version it compares is the current one.
-/

namespace BLinkTree.Optimistic

open Linearization Interleaving VersionLock

variable {c : Capacity} {s s' : VersionedTree} {l : Latches Nat} {g : Ghost Nat} {n : Nat}

def Pc.result : Pc → Option Value
  | done _ r => some r
  | _ => none

/-- One call that runs alone. -/
def call (c : Capacity) (fuel : Nat) (s : VersionedTree) (o : Op) :
    Option (VersionedTree × Value) :=
  solo (next c) Pc.result .go fuel s (.start o)

/-! ## Latches -/

/-- The node that a thread has acquired. -/
def Pc.latched : Pc → Option Nat
  | mutate _ _ n => some n
  | parentHigh _ _ n _ _ => some n
  | parentRight _ _ n _ _ => some n
  | parentInsert _ _ n _ _ => some n
  | release n _ => some n
  | _ => none

/-- The latches are those of one thread. -/
def OnlyLatched (s : VersionedTree) (pc : Pc) : Prop :=
  ∀ m, isLocked (s.version m) = true ↔ pc.latched = some m

theorem onlyLatched_lock {pc pc' : Pc} (h : OnlyLatched s pc) (hlock : s.lock n = some s')
    (hpc : pc.latched = none) (hpc' : pc'.latched = some n) : OnlyLatched s' pc' := by
  rcases VersionedTree.lock_eq hlock with ⟨hfree, rfl⟩
  intro m
  rw [hpc']
  by_cases hm : m = n
  · subst hm
    simp [VersionedTree.unlock, isLocked_add_two hfree]
  · have hold := h m
    rw [hpc] at hold
    simp [VersionedTree.unlock, Slots.store_of_ne _ _ hm, hold, Ne.symm hm]

theorem onlyLatched_unlock {pc pc' : Pc} (h : OnlyLatched s pc) (hpc : pc.latched = some n)
    (hpc' : pc'.latched = none) : OnlyLatched (s.unlock n) pc' := by
  intro m
  rw [hpc']
  have hold := h m
  rw [hpc] at hold
  by_cases hm : m = n
  · subst hm
    simp [VersionedTree.unlock, isLocked_add_two_of_locked (hold.mpr rfl)]
  · simp [VersionedTree.unlock, Slots.store_of_ne _ _ hm, hold, Ne.symm hm]

theorem latched_resume (pc : Latched.Pc) : (resume pc).latched = none := by
  cases pc <;> rfl

/-- A step that leaves the versions alone and goes on with the same node. -/
theorem onlyLatched_of_eq {s₁ : VersionedTree} {pc pc₁ pc' : Pc}
    {e e₁ : Option (Event Op Value)} (h : OnlyLatched s pc)
    (hs : some (s₁, pc₁, e₁) = some (s', pc', e)) (hv : s₁.version = s.version)
    (hl : pc₁.latched = pc.latched) : OnlyLatched s' pc' := by
  simp only [Option.some.injEq, Prod.mk.injEq] at hs
  rcases hs with ⟨rfl, rfl, _⟩
  intro m
  rw [hv, hl]
  exact h m

theorem next_onlyLatched {pc pc' : Pc} {e : Option (Event Op Value)} (h : OnlyLatched s pc)
    (hs : next c s pc .go = some (s', pc', e)) (hpc : ∀ o, pc' ≠ .crashed o) :
    OnlyLatched s' pc' := by
  cases pc with
  | idle => simp [next] at hs
  | crashed o => simp [next] at hs
  | start o => exact onlyLatched_of_eq h hs rfl rfl
  | locate o path n =>
      simp only [next, Option.map_eq_some_iff, Prod.mk.injEq] at hs
      rcases hs with ⟨v, _, rfl, rfl, _⟩
      exact h
  | inner o path n v =>
      simp only [next] at hs
      split at hs
      · exact onlyLatched_of_eq h hs rfl rfl
      · exact onlyLatched_of_eq h hs rfl rfl
  | child o path n v r => exact onlyLatched_of_eq h hs rfl rfl
  | childRead o path n v r m =>
      simp only [next] at hs
      split at hs
      · cases m <;> exact onlyLatched_of_eq h hs rfl rfl
      · exact onlyLatched_of_eq h hs rfl rfl
  | leaf o path n =>
      simp only [next, Option.map_eq_some_iff, Prod.mk.injEq] at hs
      rcases hs with ⟨v, _, rfl, rfl, _⟩
      cases o <;> exact h
  | check o path n v =>
      simp only [next] at hs
      split at hs
      · exact onlyLatched_of_eq h hs rfl rfl
      · exact onlyLatched_of_eq h hs rfl rfl
  | move o path n v =>
      simp only [next] at hs
      split at hs
      · exact onlyLatched_of_eq h hs rfl rfl
      · cases o <;> exact onlyLatched_of_eq h hs rfl rfl
  | sibling o path n v =>
      simp only [next] at hs
      split at hs
      · cases o <;> exact onlyLatched_of_eq h hs rfl rfl
      · exact onlyLatched_of_eq h hs rfl rfl
  | right o path n v => exact onlyLatched_of_eq h hs rfl rfl
  | rightRead o path n v r =>
      simp only [next] at hs
      split at hs
      · cases r <;> exact onlyLatched_of_eq h hs rfl rfl
      · exact onlyLatched_of_eq h hs rfl rfl
  | again o path n =>
      simp only [next, Option.map_eq_some_iff, Prod.mk.injEq] at hs
      rcases hs with ⟨v, _, rfl, rfl, _⟩
      exact h
  | leave o path n v =>
      simp only [next] at hs
      split at hs
      · exact onlyLatched_of_eq h hs rfl rfl
      · exact onlyLatched_of_eq h hs rfl rfl
  | search o path n v => exact onlyLatched_of_eq h hs rfl rfl
  | slot o path n v j => exact onlyLatched_of_eq h hs rfl rfl
  | slotKey o path n v j k => exact onlyLatched_of_eq h hs rfl rfl
  | found o path n v r =>
      simp only [next] at hs
      split at hs
      · exact onlyLatched_of_eq h hs rfl rfl
      · exact onlyLatched_of_eq h hs rfl rfl
  | acquire o path n =>
      simp only [next, Option.map_eq_some_iff, Prod.mk.injEq] at hs
      rcases hs with ⟨s1, hlock, rfl, rfl, _⟩
      exact onlyLatched_lock h hlock rfl rfl
  | mutate o path n => exact onlyLatched_of_eq h hs rfl rfl
  | parent o path n k x =>
      simp only [next, Option.map_eq_some_iff, Prod.mk.injEq] at hs
      rcases hs with ⟨s1, hlock, rfl, rfl, _⟩
      exact onlyLatched_lock h hlock rfl rfl
  | parentHigh o path n k x =>
      simp only [next] at hs
      split at hs
      · exact onlyLatched_of_eq h hs rfl rfl
      · exact onlyLatched_of_eq h hs rfl rfl
  | parentRight o path n k x => exact onlyLatched_of_eq h hs rfl rfl
  | parentInsert o path n k x =>
      simp only [next] at hs
      split at hs
      · simp only [Option.some.injEq, Prod.mk.injEq] at hs
        exact absurd hs.2.1.symm (hpc o)
      · exact onlyLatched_of_eq h hs rfl rfl
  | release n pc =>
      simp only [next, Option.some.injEq, Prod.mk.injEq] at hs
      rcases hs with ⟨rfl, rfl, _⟩
      exact onlyLatched_unlock h rfl (latched_resume pc)
  | newRoot o k x => exact onlyLatched_of_eq h hs rfl rfl
  | done o r => exact onlyLatched_of_eq h hs rfl rfl

/-! ## Inserts -/

theorem next_ret {pc pc' : Pc} {o : Op} {r : Value}
    (hs : next c s pc .go = some (s', pc', some (.ret o r))) : pc = .done o r := by
  cases pc with
  | done o' r' =>
      simp only [next, Option.some.injEq, Prod.mk.injEq, Event.ret.injEq] at hs
      rw [hs.2.2.1, hs.2.2.2]
  | parentInsert o' path n k x =>
      simp only [next] at hs
      split at hs <;> simp at hs
  | _ =>
      simp only [next] at hs
      try split at hs
      all_goals simp at hs

theorem result_eq_some {pc : Pc} {r : Value} (h : pc.result = some r) : ∃ o, pc = .done o r := by
  cases pc with
  | done o r' =>
      obtain rfl : r' = r := by simpa [Pc.result] using h
      exact ⟨o, rfl⟩
  | _ => simp [Pc.result] at h

/-- The thread is in a call of `insert`. -/
def Inserts (pc : Pc) : Prop :=
  ∃ k v, pc.status = .called (.insert k v) ∨ ∃ r, pc.status = .applied (.insert k v) r

theorem Inserts.valid {pc : Pc} (hi : Inserts pc) (h : Holds c s l 0 pc) : Valid s pc .go := by
  rcases hi with ⟨k, v, hi⟩
  cases pc with
  | leave o path n u =>
      rcases h.1 with ⟨q, w, rfl⟩
      simp [Pc.status] at hi
  | found o path n u r =>
      rcases h.1 with ⟨q, rfl⟩
      simp [Pc.status] at hi
  | _ => trivial

theorem Inserts.simulates {b b' : List (Nat × Value)} {pc pc' : Pc} {e : Option (Event Op Value)}
    (hi : Inserts pc) (hs : Simulates finiteMap b b' pc.status pc'.status e)
    (he : ∀ o r, e ≠ some (.ret o r)) : Inserts pc' := by
  rcases hi with ⟨k, v, hi⟩
  cases e with
  | none => exact ⟨k, v, by rwa [hs.2]⟩
  | some e =>
      cases e with
      | invoke o =>
          have hidle : pc.status = .idle := hs.1
          simp [hidle] at hi
      | effect o r =>
          rcases hs with ⟨⟨hcalled, _⟩, _, hafter⟩
          rw [hcalled] at hi
          have ho : o = .insert k v := by simpa using hi
          exact ⟨k, v, Or.inr ⟨r, by rw [hafter, ho]; rfl⟩⟩
      | ret o r => exact absurd rfl (he o r)

/-- What an insert that runs alone keeps. -/
def Alone (c : Capacity) (s : VersionedTree) (pc : Pc) : Prop :=
  (∃ l, InvHeld c s l ∧ Holds c s l 0 pc) ∧ OnlyLatched s pc ∧ Inserts pc

theorem solo_insert {fuel : Nat} {pc : Pc} {r : Value} (h : Alone c s pc)
    (hs : solo (next c) Pc.result .go fuel s pc = some (s', r)) :
    (∃ g : Ghost Nat, Inv c s'.tree g) ∧ (∀ m, isLocked (s'.version m) = false) ∧
      Finishes finiteMap s.tree.content s'.tree.content r pc.status := by
  have hrun := solo_finishes (O := finiteMap) (m := fun s => s.tree.content) (x := Pc.status)
    (P := Alone c) ?_ ?_ h hs
  · rcases hrun with ⟨pc', ⟨⟨l, hinv, _⟩, hlatch, _⟩, hr, hfin⟩
    rcases result_eq_some hr with ⟨o, rfl⟩
    refine ⟨⟨l.ghost, hinv.1⟩, fun m => ?_, hfin⟩
    have hm := hlatch m
    simpa [Pc.latched] using hm
  · intro s pc s1 pc1 e hP hr hn
    rcases hP with ⟨⟨l, hinv, ha⟩, hlatch, hins⟩
    rcases next_spec hinv.1 hinv.2 ha (hins.valid ha) hn with ⟨l1, hstep⟩
    have he : ∀ o r, e ≠ some (.ret o r) := by
      intro o r he
      rw [he] at hn
      rw [next_ret hn] at hr
      simp [Pc.result] at hr
    have hcrash : ∀ o, pc1 ≠ .crashed o := by
      intro o hc
      have hh := hstep.holds
      rw [hc] at hh
      exact hh
    exact ⟨⟨⟨l1, ⟨hstep.inv, hstep.moves.held⟩, hstep.holds⟩, next_onlyLatched hlatch hn hcrash,
      hins.simulates hstep.simulates he⟩, hstep.simulates, he⟩
  · intro pc r hr
    rcases result_eq_some hr with ⟨o, rfl⟩
    exact ⟨o, rfl⟩

/-! ## Searches -/

/-- A thread that runs alone ends with `x`. -/
def Ends (c : Capacity) (s : VersionedTree) (pc : Pc) (x : VersionedTree × Value) : Prop :=
  ∃ fuel, solo (next c) Pc.result .go fuel s pc = some x

theorem ends_of_next {pc pc' : Pc} {e : Option (Event Op Value)} {x : VersionedTree × Value}
    (hpc : pc.result = none) (hs : next c s pc .go = some (s', pc', e)) (h : Ends c s' pc' x) :
    Ends c s pc x :=
  solo_of_step hpc hs h

theorem readValid_free (h : isLocked (s.version n) = false) :
    s.readValid n = some (s.version n) := by
  simp [VersionedTree.readValid, h]

theorem isValid_self (v : Nat) : isValid v v = true := by
  simp [isValid]

section Alone

variable {o : Op} {x : VersionedTree × Value}

/-- The loop over the leaves, up to the leaf that covers the key. -/
theorem ends_move (h : Inv c s.tree g) (hfree : ∀ m, isLocked (s.version m) = false)
    (hk : o.key < maxKey)
    (hleaf : ∀ path, ∀ m < s.tree.count, (s.tree.node m).isLeaf = true → g.low m ≤ o.key →
      o.key < (s.tree.node m).highKey → Ends c s (leaveLeaf o path m (s.version m)) x) :
    ∀ n < s.tree.count, g.low n ≤ o.key → (s.tree.node n).isLeaf = true →
      ∀ path, Ends c s (.move o path n (s.version n)) x := by
  refine h.search_induction hk fun n hn hlow hright _ hl path => ?_
  by_cases hh : (s.tree.node n).highKey ≤ o.key
  · rcases h.right_move hn hk hh with ⟨r, hr, _, _, _, hrl⟩
    have h1 : next c s (.move o path n (s.version n)) .go =
        some (s, .sibling o path n (s.version n), none) := by simp [next, hh]
    have h2 : next c s (.sibling o path n (s.version n)) .go =
        some (s, .right o path n (s.version n), none) := by simp [next, hr]
    have h3 : next c s (.right o path n (s.version n)) .go =
        some (s, .rightRead o path n (s.version n) (some r), none) := by simp [next, hr]
    have h4 : next c s (.rightRead o path n (s.version n) (some r)) .go =
        some (s, .again o path r, none) := by simp [next, isValid_self, follow]
    have h5 : next c s (.again o path r) .go = some (s, .move o path r (s.version r), none) := by
      simp [next, readValid_free (hfree r)]
    have hmove := hright r hh hr (hrl.trans hl) path
    exact ends_of_next rfl h1 (ends_of_next rfl h2 (ends_of_next rfl h3 (ends_of_next rfl h4
      (ends_of_next rfl h5 hmove))))
  · have h1 : next c s (.move o path n (s.version n)) .go =
        some (s, leaveLeaf o path n (s.version n), none) := by simp [next, hh]
    exact ends_of_next rfl h1 (hleaf path n hn hl hlow (not_le.mp hh))

/-- A `find` or `update` that runs alone comes to the leaf that covers its key. -/
theorem ends_start (h : Inv c s.tree g) (hfree : ∀ m, isLocked (s.version m) = false)
    (hk : o.key < maxKey) (ho : ∀ path n v, enterLeaf o path n v = .move o path n v)
    (hleaf : ∀ path, ∀ m < s.tree.count, (s.tree.node m).isLeaf = true → g.low m ≤ o.key →
      o.key < (s.tree.node m).highKey → Ends c s (leaveLeaf o path m (s.version m)) x) :
    ∃ fuel, call c fuel s o = some x := by
  suffices hloc : ∀ n < s.tree.count, g.low n ≤ o.key → ∀ path, Ends c s (.locate o path n) x by
    have hroot : g.low s.tree.root ≤ o.key := by
      rw [h.low_root]
      exact Nat.zero_le _
    exact ends_of_next rfl rfl (hloc s.tree.root h.root_lt hroot [])
  refine h.search_induction hk fun n hn hlow _ hdown path => ?_
  have h1 : next c s (.locate o path n) .go = some (s, .inner o path n (s.version n), none) := by
    simp [next, readValid_free (hfree n)]
  refine ends_of_next rfl h1 ?_
  cases hl : (s.tree.node n).isLeaf with
  | true =>
      have h2 : next c s (.inner o path n (s.version n)) .go = some (s, .leaf o path n, none) := by
        simp [next, hl]
      have h3 : next c s (.leaf o path n) .go = some (s, .move o path n (s.version n), none) := by
        simp [next, readValid_free (hfree n), ho]
      exact ends_of_next rfl h2 (ends_of_next rfl h3
        (ends_move h hfree hk hleaf n hn hlow hl path))
  | false =>
      rcases (h.node n hn).child hl hlow with ⟨m, hm, _⟩
      have h2 : next c s (.inner o path n (s.version n)) .go =
          some (s, .child o path n (s.version n) (s.tree.node n).rightSibling, none) := by
        simp [next, hl]
      have h3 : next c s (.child o path n (s.version n) (s.tree.node n).rightSibling) .go =
          some (s, .childRead o path n (s.version n) (s.tree.node n).rightSibling (some m),
            none) := by
        simp [next, hm]
      have h4 : next c s
          (.childRead o path n (s.version n) (s.tree.node n).rightSibling (some m)) .go =
          some (s, .locate o (push o path n (s.tree.node n).rightSibling (some m)) m, none) := by
        simp [next, isValid_self, follow]
      exact ends_of_next rfl h2 (ends_of_next rfl h3 (ends_of_next rfl h4 (hdown m hl hm _)))

end Alone

/-- The tree and the versions behind an update of leaf `n`. -/
def updated (c : Capacity) (s : VersionedTree) (n k : Nat) (v : Value) : VersionedTree :=
  VersionedTree.unlock { s.unlock n with
    tree := s.tree.setNode n ((s.tree.node n).updateValue c k v) } n

theorem isLocked_updated (hfree : ∀ m, isLocked (s.version m) = false) (k : Nat) (v : Value)
    (m : Nat) : isLocked ((updated c s n k v).version m) = false := by
  by_cases hm : m = n
  · subst hm
    have hlocked := isLocked_add_two (hfree m)
    simpa [updated, VersionedTree.unlock] using isLocked_add_two_of_locked hlocked
  · simpa [updated, VersionedTree.unlock, Slots.store_of_ne _ _ hm] using hfree m

/-- The calls of the optimistic tree search the covering leaf. -/
theorem serves (c : Capacity) : Serves c VersionedTree.tree (call c) fun s =>
    (∃ g : Ghost Nat, Inv c s.tree g) ∧ ∀ m, isLocked (s.version m) = false where
  mono := fun _ _ _ _ _ h hf => solo_mono h hf
  inv := fun _ h => h.1
  insert := by
    intro fuel s s' k v r hI hk hc
    rcases hI with ⟨⟨g, h⟩, hfree⟩
    have hheld : Held s.version fun _ => (none : Option Nat) := by
      intro m
      simp [hfree m]
    have hstart : Alone c s (.start (.insert k v)) := by
      refine ⟨⟨⟨g, fun _ => none⟩, ⟨h, hheld⟩, hk⟩, fun m => ?_, k, v, Or.inl rfl⟩
      simp [hfree m, Pc.latched]
    rcases solo_insert hstart hc with ⟨h1, h2, h3, h4⟩
    exact ⟨⟨h1, h2⟩, h3, h4⟩
  find := by
    intro s k n hI hk hn
    rcases hI with ⟨⟨g, h⟩, hfree⟩
    have hcall : ∃ fuel, call c fuel s (.find k) = some (s, (s.tree.node n).findValue c k) := by
      refine ends_start (o := .find k) h hfree hk (fun _ _ _ => rfl)
        fun path m hm hl hlow hhigh => ?_
      obtain rfl : m = n := h.eq_of_covers hn hm hl hlow hhigh
      have h1 : next c s (.found (.find k) path m (s.version m)
          (if (s.tree.node m).leafKey c ((s.tree.node m).index k) = k then
            (s.tree.node m).values ((s.tree.node m).index k) else 0)) .go =
          some (s, .done (.find k) ((s.tree.node m).findValue c k),
            some (.effect (.find k) ((s.tree.node m).findValue c k))) := by
        simp only [next, isValid_self, if_true]
        rfl
      exact ends_of_next rfl rfl (ends_of_next rfl rfl (ends_of_next rfl rfl
        (ends_of_next rfl h1 ⟨1, rfl⟩)))
    rcases hcall with ⟨fuel, hc⟩
    exact ⟨fuel, s, hc, ⟨⟨g, h⟩, hfree⟩, rfl⟩
  update := by
    intro s k v n hI hk hn
    rcases hI with ⟨⟨g, h⟩, hfree⟩
    have hcall : ∃ fuel, call c fuel s (.update k v) = some (updated c s n k v, 0) := by
      refine ends_start (o := .update k v) h hfree hk (fun _ _ _ => rfl)
        fun path m hm hl hlow hhigh => ?_
      obtain rfl : m = n := h.eq_of_covers hn hm hl hlow hhigh
      have h1 : next c s (.leave (.update k v) path m (s.version m)) .go =
          some (s, .acquire (.update k v) path m, none) := by simp [next, isValid_self]
      have h2 : next c s (.acquire (.update k v) path m) .go =
          some (s.unlock m, .mutate (.update k v) path m, none) := by
        simp [next, VersionedTree.lock, hfree m, VersionedTree.unlock]
      exact ends_of_next rfl h1 (ends_of_next rfl h2 (ends_of_next rfl rfl
        (ends_of_next rfl rfl ⟨1, rfl⟩)))
    rcases hcall with ⟨fuel, hc⟩
    rcases h.of_covers hn with ⟨hlow, hhigh⟩
    have hspec := updateValue_spec h 0 hn.1 hn.2.1 hlow hhigh v
    exact ⟨fuel, updated c s n k v, hc, ⟨⟨g, hspec.1⟩, isLocked_updated hfree k v⟩, rfl⟩

end BLinkTree.Optimistic
