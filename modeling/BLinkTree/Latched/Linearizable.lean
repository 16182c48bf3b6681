import BLinkTree.Latched.Program

/-! # The spinlock build is linearizable

Every thread keeps an assertion about the node it is going to latch. A section of
one thread keeps the search invariant and its own assertion, and changes the tree
only in ways the assertions of the others survive. Seen from the finite map, the leaf
section is the moment at which a call takes effect.
-/

namespace BLinkTree.Latched

open Linearization Interleaving

variable {c : Capacity} {t t' : Tree} {g g' : Ghost Nat} {i : Nat}

/-- What a thread knows between two sections. -/
def Holds (t : Tree) (g : Ghost Nat) (i : Nat) : Pc → Prop
  | .idle => True
  | .start o => o.key < maxKey
  | .inner o path n => o.key < maxKey ∧ Reached t g n o.key ∧ (t.node n).isLeaf = false ∧
      OnPath t g (g.level n) path
  | .leaf o path n => o.key < maxKey ∧ Reached t g n o.key ∧ (t.node n).isLeaf = true ∧
      OnPath t g 0 path
  | .parent _ path n s x => n < t.count ∧ (t.node n).isLeaf = false ∧ Pending t g i s x ∧
      g.level x < g.level n ∧ OnPath t g (g.level n) path
  | .newRoot _ s x => Pending t g i s x
  | .done _ _ => True
  | .crashed _ => False

theorem Holds.evolves {j : Nat} {pc : Pc} (h : Holds t g j pc) (he : Evolves i t g t' g')
    (hj : j ≠ i) : Holds t' g' j pc := by
  cases pc with
  | idle => trivial
  | start o => exact h
  | inner o path n =>
      obtain ⟨h1, h2, h3, h4⟩ := h
      refine ⟨h1, h2.evolves he, ?_, ?_⟩
      · rw [he.isLeaf_eq n h2.lt_count, h3]
      · rw [he.level_eq n h2.lt_count]
        exact h4.evolves he
  | leaf o path n =>
      obtain ⟨h1, h2, h3, h4⟩ := h
      refine ⟨h1, h2.evolves he, ?_, h4.evolves he⟩
      rw [he.isLeaf_eq n h2.lt_count, h3]
  | parent o path n s x =>
      obtain ⟨h1, h2, h3, h4, h5⟩ := h
      refine ⟨lt_of_lt_of_le h1 he.count_le, ?_, h3.evolves he hj, ?_, ?_⟩
      · rw [he.isLeaf_eq n h1, h2]
      · rw [he.level_eq n h1, he.level_eq x h3.lt_count]
        exact h4
      · rw [he.level_eq n h1]
        exact h5.evolves he
  | newRoot o s x => exact Pending.evolves h he hj
  | done o r => trivial
  | crashed o => exact h.elim

/-! ## One section -/

theorem enter_cases (t : Tree) (o : Op) (path : List Nat) (n : Nat) :
    (t.node n).isLeaf = true ∧ enter t o path (some n) = .leaf o path n ∨
      (t.node n).isLeaf = false ∧ enter t o path (some n) = .inner o path n := by
  cases hl : (t.node n).isLeaf with
  | true => exact Or.inl ⟨rfl, by simp [enter, hl]⟩
  | false => exact Or.inr ⟨rfl, by simp [enter, hl]⟩

theorem holds_enter {o : Op} (hk : o.key < maxKey) {path : List Nat} {n : Nat}
    (hr : Reached t g n o.key) (hp : OnPath t g (g.level n) path) :
    Holds t g i (enter t o path (some n)) := by
  rcases enter_cases t o path n with ⟨hl, he⟩ | ⟨hl, he⟩
  · rw [he]
    exact ⟨hk, hr, hl, hp.mono (Nat.zero_le _)⟩
  · rw [he]
    exact ⟨hk, hr, hl, hp⟩

theorem onPath_push {o : Op} {path : List Nat} {n m : Nat} (hn : n < t.count)
    (hl : (t.node n).isLeaf = false) (hp : OnPath t g (g.level n) path)
    (hlv : g.level m < g.level n) : OnPath t g (g.level m) (push o path n) := by
  cases o with
  | find k => exact hp.mono hlv.le
  | insert k v => exact ⟨hn, hl, hlv, hp⟩
  | update k v => exact ⟨hn, hl, hlv, hp⟩

theorem status_enter (t : Tree) (o : Op) (path : List Nat) (n : Nat) :
    (enter t o path (some n)).status = .called o := by
  rcases enter_cases t o path n with ⟨_, he⟩ | ⟨_, he⟩
  · rw [he]
    rfl
  · rw [he]
    rfl

theorem holds_propagate {o : Op} {path : List Nat} {l : Nat} {up : Option (Nat × Nat)}
    (hp : OnPath t g l path) (hup : Posts t g i l up) : Holds t g i (propagate o path up) := by
  cases up with
  | none => trivial
  | some u =>
      obtain ⟨x, s⟩ := u
      obtain ⟨hpend, hlv⟩ := hup
      cases path with
      | nil => exact hpend
      | cons p ps =>
          obtain ⟨h1, h2, h3, h4⟩ := hp
          exact ⟨h1, h2, hpend, by omega, h4⟩

theorem status_propagate (o : Op) (path : List Nat) (up : Option (Nat × Nat)) :
    (propagate o path up).status = .applied o 0 := by
  cases up with
  | none => rfl
  | some u => cases path <;> rfl

/-- What a step keeps: the invariant, what the others know, what the thread knows, and
the finite map. -/
def Section (c : Capacity) (i : Nat) (t : Tree) (g : Ghost Nat) (pc : Pc) (t' : Tree) (pc' : Pc)
    (e : Option (Event Op Value)) : Prop :=
  ∃ g', Inv c t' g' ∧ Evolves i t g t' g' ∧ Holds t' g' i pc' ∧
    Simulates finiteMap t.content t'.content pc.status pc'.status e

theorem section_of_read {pc pc' : Pc} {e : Option (Event Op Value)} (h : Inv c t g)
    (hpc : Holds t g i pc') (hs : Simulates finiteMap t.content t.content pc.status pc'.status e) :
    Section c i t g pc t pc' e :=
  ⟨g, h, Evolves.refl i t g, hpc, hs⟩

theorem leafSection_spec (h : Inv c t g) {o : Op} {path : List Nat} {n : Nat}
    (ha : Holds t g i (.leaf o path n)) (hh : o.key < (t.node n).highKey) :
    Section c i t g (.leaf o path n) (leafSection c t o path n).1 (leafSection c t o path n).2.1
      (some (.effect o (leafSection c t o path n).2.2)) := by
  obtain ⟨_, hr, hl, hp⟩ := ha
  cases o with
  | insert k v =>
      obtain ⟨g', h1, h2, h3, h4⟩ := insertIntoLeaf_spec h i hr.lt_count hl hr.low_le hh v
      refine ⟨g', h1, h2, holds_propagate (hp.evolves h2) h4, ⟨rfl, rfl⟩, h3, ?_⟩
      exact status_propagate _ _ _
  | update k v =>
      obtain ⟨h1, h2, h3⟩ := updateValue_spec h i hr.lt_count hl hr.low_le hh v
      exact ⟨g, h1, h2, trivial, ⟨rfl, rfl⟩, h3, rfl⟩
  | find k =>
      refine section_of_read h trivial ⟨⟨rfl, ?_⟩, rfl, rfl⟩
      intro v hv
      exact findValue_spec h hr.lt_count hl hr.low_le hh v hv

/-- The leaf part changes no other node. -/
theorem leafSection_frame {o : Op} {path : List Nat} {n m : Nat} (hm : m < t.count)
    (hmn : m ≠ n) : (leafSection c t o path n).1.node m = t.node m := by
  cases o with
  | insert k v => exact insertIntoLeaf_frame hm hmn
  | update k v => exact setNode_node_of_ne t _ hmn
  | find k => rfl

/-- The leaf part cuts a key off only by a split. -/
theorem leafSection_below {o : Op} {path : List Nat} {n m q : Nat} (hm : m < t.count)
    (hq : q < (t.node m).highKey) (hcut : m = n → ¬ CutsOff c t o n q) :
    q < ((leafSection c t o path n).1.node m).highKey := by
  cases o with
  | insert k v => exact insertIntoLeaf_below hm hq hcut
  | update k v =>
      show q < ((t.setNode n ((t.node n).updateValue c k v)).node m).highKey
      by_cases hmn : m = n
      · rw [hmn] at hq ⊢
        rw [setNode_node_self, Node.highKey_updateValue]
        exact hq
      · rw [setNode_node_of_ne _ _ hmn]
        exact hq
  | find k => exact hq

theorem next_spec (h : Inv c t g) {pc pc' : Pc} {a : Act} {e : Option (Event Op Value)}
    (ha : Holds t g i pc) (hv : a.Valid) (hs : next c t pc a = some (t', pc', e)) :
    Section c i t g pc t' pc' e := by
  cases a with
  | call o =>
      cases pc with
      | idle =>
          simp only [next, Option.some.injEq, Prod.mk.injEq] at hs
          obtain ⟨rfl, rfl, rfl⟩ := hs
          exact section_of_read h hv ⟨rfl, rfl, rfl⟩
      | _ => simp [next] at hs
  | go =>
      cases pc with
      | idle => simp [next] at hs
      | crashed o => exact ha.elim
      | start o =>
          simp only [next, Option.some.injEq, Prod.mk.injEq] at hs
          obtain ⟨rfl, rfl, rfl⟩ := hs
          refine section_of_read h (holds_enter ha (Reached.root h _) trivial) ⟨rfl, ?_⟩
          exact status_enter _ _ _ _
      | inner o path n =>
          obtain ⟨hk, hr, hl, hp⟩ := ha
          have hn := h.node n hr.lt_count
          simp only [next] at hs
          split at hs
          next hh =>
            obtain ⟨r, h1, h2, h3, h4, h5⟩ := h.right_move hr.lt_count hk hh
            simp only [moveRight, h1, Option.some.injEq, Prod.mk.injEq] at hs
            obtain ⟨rfl, rfl, rfl⟩ := hs
            refine section_of_read h ⟨hk, ⟨h2, h3⟩, h5.trans hl, ?_⟩ ⟨rfl, rfl⟩
            rw [h4]
            exact hp
          next hh =>
            obtain ⟨s, h1, h2, h3, h4⟩ := hn.child hl hr.low_le
            simp only [h1, Option.some.injEq, Prod.mk.injEq] at hs
            obtain ⟨rfl, rfl, rfl⟩ := hs
            exact section_of_read h (holds_enter hk ⟨h2, h3⟩ (onPath_push hr.lt_count hl hp h4))
              ⟨rfl, status_enter _ _ _ _⟩
      | leaf o path n =>
          obtain ⟨hk, hr, hl, hp⟩ := id ha
          simp only [next] at hs
          split at hs
          next hh =>
            obtain ⟨r, h1, h2, h3, _, h5⟩ := h.right_move hr.lt_count hk hh
            simp only [moveRight, h1, Option.some.injEq, Prod.mk.injEq] at hs
            obtain ⟨rfl, rfl, rfl⟩ := hs
            exact section_of_read h ⟨hk, ⟨h2, h3⟩, h5.trans hl, hp⟩ ⟨rfl, rfl⟩
          next hh =>
            simp only [Option.some.injEq, Prod.mk.injEq] at hs
            obtain ⟨rfl, rfl, rfl⟩ := hs
            exact leafSection_spec h ha (not_le.mp hh)
      | parent o path n s x =>
          obtain ⟨hn, hl, hpend, hlv, hp⟩ := ha
          simp only [next] at hs
          split at hs
          next hh =>
            obtain ⟨r, h1, h2, h3, h4, h5⟩ := h.right_move hn hpend.key_lt hh
            simp only [moveRight, h1, Option.some.injEq, Prod.mk.injEq] at hs
            obtain ⟨rfl, rfl, rfl⟩ := hs
            refine section_of_read h ⟨h2, h5.trans hl, hpend, by omega, ?_⟩ ⟨rfl, rfl⟩
            rw [h4]
            exact hp
          next hh =>
            obtain ⟨t1, up, g', h1, h2, h3, h4, h5⟩ := insertIntoInner_spec h hn hl hpend hlv
            simp only [h1, Option.some.injEq, Prod.mk.injEq] at hs
            obtain ⟨rfl, rfl, rfl⟩ := hs
            exact ⟨g', h2, h3, holds_propagate (hp.evolves h3) h5, h4, status_propagate _ _ _⟩
      | newRoot o s x =>
          obtain ⟨g', h1, h2, h3, _⟩ := createNewRoot_spec h ha
          simp only [next, Option.some.injEq, Prod.mk.injEq] at hs
          obtain ⟨rfl, rfl, rfl⟩ := hs
          exact ⟨g', h1, h2, trivial, h3, rfl⟩
      | done o r =>
          simp only [next, Option.some.injEq, Prod.mk.injEq] at hs
          obtain ⟨rfl, rfl, rfl⟩ := hs
          exact section_of_read h trivial ⟨rfl, rfl, rfl⟩

/-! ## Runs -/

theorem safe (c : Capacity) {memory : Nat → Memory} {w : World}
    (hw : Reachable (next c) (fun _ _ a => a.Valid) (init memory) w) :
    Safe finiteMap Tree.content Pc.status (Inv c) Holds w := by
  refine safe_of_reachable hw ⟨Ghost.initial Nat, inv_empty c memory, fun _ => trivial, ?_⟩ ?_
  · exact tracks_empty memory
  · intro w i a g t' pc' e hv h hall hs
    obtain ⟨g', h1, h2, h3, h4⟩ := next_spec h (hall i) hv hs
    exact ⟨g', h1, h3, fun j hj => (hall j).evolves h2 hj, h4⟩

/-- The thread is about to take its leaf section on node `n`. -/
def AtLeafSection (t : Tree) (pc : Pc) (o : Op) (n : Nat) : Prop :=
  ∃ path, pc = .leaf o path n ∧ o.key < (t.node n).highKey

theorem next_effect {pc pc' : Pc} {a : Act} {o : Op} {r : Value}
    (hs : next c t pc a = some (t', pc', some (.effect o r))) : ∃ n, AtLeafSection t pc o n := by
  cases a with
  | call o' => cases pc <;> simp [next] at hs
  | go =>
      cases pc with
      | leaf o' path n =>
          simp only [next] at hs
          split at hs
          · simp at hs
          next hh =>
            simp only [Option.some.injEq, Prod.mk.injEq, Event.effect.injEq] at hs
            obtain ⟨_, _, rfl, _⟩ := hs
            exact ⟨n, path, rfl, not_le.mp hh⟩
      | inner o' path n =>
          simp only [next] at hs
          split at hs <;> simp at hs
      | parent o' path n s x =>
          simp only [next] at hs
          split at hs
          · simp at hs
          · split at hs <;> simp at hs
      | _ => simp [next] at hs

/-- In every run of the spinlock build the calls are linearized at their leaf sections. A leaf
section is on the one leaf that covers its key and changes the content by its own call,
no other section changes the content, and no thread follows a null pointer. -/
theorem spinlock_linearizable (c : Capacity) (memory : Nat → Memory) (w : World)
    (hw : Reachable (next c) (fun _ _ a => a.Valid) (init memory) w) :
    Explains w.history w.shared.content ∧ OrderedMap.Sorted w.shared.content ∧
      (∀ i, status w.history i = (w.thread i).status) ∧
      (∀ i o, w.thread i ≠ .crashed o) ∧
      (∀ i o n, AtLeafSection w.shared (w.thread i) o n →
        w.shared.Covers n o.key ∧
        ∃ r w', step (next c) w i .go = some w' ∧
          w'.history = (i, .effect o r) :: w.history ∧
          w'.shared.content = finiteMap.apply w.shared.content o ∧
          ∀ k v, o = .find k → OrderedMap.get? k w.shared.content = some v → r = v) ∧
      ∀ i a w', a.Valid → step (next c) w i a = some w' →
        (∀ o n, ¬ AtLeafSection w.shared (w.thread i) o n) →
        w'.shared.content = w.shared.content := by
  obtain ⟨g, hinv, hall, hlegal, hstate, hstatus⟩ := safe c hw
  refine ⟨hstate ▸ explains_of_legal hlegal, hinv.content_sorted, hstatus, ?_, ?_, ?_⟩
  · intro i o hc
    have := hall i
    rw [hc] at this
    exact this
  · rintro i o n ⟨path, hpc, hh⟩
    have ha := hall i
    rw [hpc] at ha
    obtain ⟨_, hr, hl, _⟩ := id ha
    refine ⟨hinv.covers hr.lt_count hl hr.low_le hh, ?_⟩
    obtain ⟨g', _, _, _, ⟨_, hallow⟩, hcontent, _⟩ := leafSection_spec hinv ha hh
    refine ⟨(leafSection c w.shared o path n).2.2, ⟨(leafSection c w.shared o path n).1,
      Function.update w.thread i (leafSection c w.shared o path n).2.1, _⟩, ?_, rfl, hcontent, ?_⟩
    · unfold step
      rw [hpc]
      simp only [next, if_neg (not_le.mpr hh), Option.map_some]
      rfl
    · rintro k v rfl hg
      exact hallow v hg
  · intro i a w' hv hs hno
    obtain ⟨t', pc', e, hn, rfl⟩ := step_eq_some hs
    obtain ⟨g', _, _, _, hsim⟩ := next_spec hinv (hall i) hv hn
    cases e with
    | none => exact hsim.1
    | some e =>
        cases e with
        | invoke o => exact hsim.2.1
        | ret o r => exact hsim.2.1
        | effect o r =>
            obtain ⟨n, hat⟩ := next_effect hn
            exact absurd hat (hno o n)

/-- Two threads insert into the first leaf while a third one looks up. -/
def threeThreads : List (Nat × Act) :=
  [(0, .call (.insert 5 50)), (1, .call (.insert 3 30)), (2, .call (.find 5)),
    (0, .go), (1, .go), (0, .go), (2, .go), (1, .go), (2, .go), (0, .go)]

theorem spinlock_linearizable_three_threads :
    ∃ w, run (next .smallest) (fun _ _ a => a.Valid) (init fun _ => .zero) threeThreads = some w ∧
      w.shared.content = [(3, 30), (5, 50)] ∧ Explains w.history w.shared.content := by
  have hrun : (run (next .smallest) (fun _ _ a => a.Valid) (init fun _ => .zero) threeThreads).map
      (fun w => w.shared.content) = some [(3, 30), (5, 50)] := by decide
  rcases Option.map_eq_some_iff.mp hrun with ⟨w, hw, hc⟩
  exact ⟨w, hw, hc, (spinlock_linearizable .smallest _ w (Reachable.start.of_run hw)).1⟩

end BLinkTree.Latched
