import BLinkTree.Tbb.Work

/-! # The TBB builds with exclusive latches

Every task keeps an assertion about the node it is going to work on, and every step
keeps the assertions of the others. Seen from the finite map, the leaf step is the
moment at which an operation takes effect.
-/

namespace BLinkTree.Tbb

open Linearization Interleaving

variable {ranged : Prop} {c : Capacity} {t t' : Tree} {g g' : Ghost Nat} {i n : Nat}

/-- What a task knows when it waits for its next node. -/
def Holds (ranged : Prop) (t : Tree) (g : Ghost Nat) (i : Nat) : Pc → Prop
  | .idle => True
  | .task o separator n => Approaches ranged t g i o n separator
  | .done _ _ => True
  | .lost _ => False

theorem Holds.evolves {j : Nat} {pc : Pc} (h : Holds ranged t g j pc) (he : Evolves i t g t' g')
    (hj : j ≠ i) : Holds ranged t' g' j pc := by
  cases pc with
  | task o separator n => exact Approaches.evolves h he hj
  | lost o => exact h.elim
  | _ => trivial

/-- What a step keeps: the invariants, what the others know, what the task knows, and the
finite map. -/
def Stepped (ranged : Prop) (c : Capacity) (i : Nat) (t : Tree) (g : Ghost Nat) (pc : Pc)
    (t' : Tree) (pc' : Pc) (e : Option (Event Op Value)) : Prop :=
  ∃ g', Sound ranged c t' g' ∧ Evolves i t g t' g' ∧ Holds ranged t' g' i pc' ∧
    Simulates finiteMap t.content t'.content pc.status pc'.status e

theorem stepped_of_work_leaf (h : Sound ranged c t g) {o : Op}
    (ha : Approaches ranged t g i o n none) (hl : (t.node n).isLeaf = true)
    (hh : o.key < (t.node n).highKey) {x : Executed} (hx : work c t o none n = some x) :
    Stepped ranged c i t g (.task o none n) x.tree (x.pc o) (x.effect.map (.effect o)) := by
  rcases ha with ⟨hk, hr⟩
  rcases work_leaf_spec h i hr hl hh with ⟨y, r, hy, ⟨g', h1, h3, h4⟩, h5, h6, h7, h8⟩
  rw [hx, Option.some.injEq] at hy
  subst hy
  rw [h5]
  rcases h4 with ⟨hnext, hcomp⟩ | ⟨p, y, s, hnext, hsep, hcar⟩
  · have hpc : x.pc o = .done o r := by simp [Executed.pc, hnext, hcomp, h5]
    rw [hpc]
    exact ⟨g', h1, h3, trivial, ⟨rfl, h7⟩, h6, rfl⟩
  · have hpc : x.pc o = .task o (some (y, s)) p := by simp [Executed.pc, hnext, hsep]
    rcases h8 (by simp [hnext]) with ⟨rfl, ho⟩
    rw [hpc]
    exact ⟨g', h1, h3, ⟨hk, ho, hcar⟩, ⟨rfl, h7⟩, h6, rfl⟩

theorem stepped_of_work_inner (h : Sound ranged c t g) {o : Op} {s y : Nat}
    (ha : Approaches ranged t g i o n (some (y, s))) (hhigh : ranged → s < (t.node n).highKey) :
    ∃ x, work c t o (some (y, s)) n = some x ∧ Stepped ranged c i t g (.task o (some (y, s)) n)
      x.tree (x.pc o) (x.effect.map (.effect o)) := by
  rcases ha with ⟨hk, ho, hc⟩
  rcases insertIntoInnerNode_spec h hc hhigh with ⟨x, h1, ⟨g', h2, h4, h5⟩, h6, h7⟩
  have hw : work c t o (some (y, s)) n = some x := by
    rcases ho with ⟨k, v, rfl⟩
    exact h1
  refine ⟨x, hw, ?_⟩
  rw [h6]
  rcases h5 with ⟨hnext, hcomp⟩ | ⟨p, y', s', hnext, hsep, hcar⟩
  · have hpc : x.pc o = .done o 0 := by simp [Executed.pc, hnext, hcomp, h6]
    rw [hpc]
    exact ⟨g', h2, h4, trivial, h7, rfl⟩
  · have hpc : x.pc o = .task o (some (y', s')) p := by simp [Executed.pc, hnext, hsep]
    rw [hpc]
    exact ⟨g', h2, h4, ⟨hk, ho, hcar⟩, h7, rfl⟩

/-- The task that moves carries no separator past the wrong side of a high key. -/
def Straight (t : Tree) : Pc → Prop
  | .task o separator n => SameSide t o n separator
  | _ => True

instance (t : Tree) : (pc : Pc) → Decidable (Straight t pc)
  | .task o separator n => inferInstanceAs (Decidable (SameSide t o n separator))
  | .idle => inferInstanceAs (Decidable True)
  | .done _ _ => inferInstanceAs (Decidable True)
  | .lost _ => inferInstanceAs (Decidable True)

theorem next_spec (h : Sound ranged c t g) {pc pc' : Pc} {a : Act}
    {e : Option (Event Op Value)} (ha : Holds ranged t g i pc) (hv : a.Valid)
    (hside : ranged → Straight t pc)
    (hs : next c t pc a = some (t', pc', e)) : Stepped ranged c i t g pc t' pc' e := by
  cases a with
  | spawn o =>
      cases pc with
      | idle =>
          simp only [next, Option.some.injEq, Prod.mk.injEq] at hs
          rcases hs with ⟨rfl, rfl, rfl⟩
          exact ⟨g, h, Evolves.refl i t g, ⟨hv, Reached.root h.inv _⟩, rfl, rfl, rfl⟩
      | _ => simp [next] at hs
  | go =>
      cases pc with
      | idle => simp [next] at hs
      | lost o => exact ha.elim
      | done o r =>
          simp only [next, Option.some.injEq, Prod.mk.injEq] at hs
          rcases hs with ⟨rfl, rfl, rfl⟩
          exact ⟨g, h, Evolves.refl i t g, trivial, rfl, rfl, rfl⟩
      | task o separator n =>
          simp only [next, execute] at hs
          cases hadv : advance t o separator n with
          | some m =>
              rcases advance_spec h.inv ha hside hadv with ⟨m', rfl, hm⟩
              simp only [hadv, Option.some.injEq, Prod.mk.injEq] at hs
              rcases hs with ⟨rfl, rfl, rfl⟩
              refine ⟨g, h, Evolves.refl i t g, hm, rfl, ?_⟩
              cases separator <;> rfl
          | none =>
              rcases advance_eq_none hadv with ⟨hh, hleaf⟩
              cases separator with
              | none =>
                  rcases work_leaf_spec h i ha.2 (hleaf rfl) hh with ⟨x, r, hx, _⟩
                  simp only [hadv, hx, Option.some.injEq, Prod.mk.injEq] at hs
                  rcases hs with ⟨rfl, rfl, rfl⟩
                  exact stepped_of_work_leaf h ha (hleaf rfl) hh hx
              | some u =>
                  have hhigh : ranged → u.2 < (t.node n).highKey := by
                    intro hb
                    have hside : (t.node n).highKey ≤ o.key ↔ (t.node n).highKey ≤ u.2 := hside hb
                    omega
                  rcases stepped_of_work_inner h ha hhigh with ⟨x, hx, hkeep⟩
                  simp only [hadv, hx, Option.some.injEq, Prod.mk.injEq] at hs
                  rcases hs with ⟨rfl, rfl, rfl⟩
                  exact hkeep

/-! ## Runs -/

theorem safe (ranged : Prop) {ok : World → Nat → Act → Prop} {memory : Nat → Memory} {w : World}
    (hv : ∀ w i a, ok w i a → a.Valid)
    (hside : ranged → ∀ w i a, ok w i a → Straight w.shared (w.thread i))
    (hw : Reachable (next c) ok (init memory) w) :
    Safe finiteMap Tree.content Pc.status (Sound ranged c) (Holds ranged) w := by
  refine safe_of_reachable hw
    ⟨Ghost.initial Nat, sound_empty ranged c memory, fun _ => trivial, ?_⟩ ?_
  · exact tracks_empty memory
  · intro w i a g t' pc' e hok h hall hs
    rcases next_spec h (hall i) (hv w i a hok) (fun hb => hside hb w i a hok) hs with
      ⟨g', h1, h2, h3, h4⟩
    exact ⟨g', h1, h3, fun j hj => (hall j).evolves h2 hj, h4⟩

/-! ## Lookups that run alone -/

def Pc.result : Pc → Option Value
  | done _ r => some r
  | _ => none

/-- A `LookupTask` that is executed from the root until it ends. -/
def lookup (c : Capacity) (fuel : Nat) (t : Tree) (k : Nat) : Option (Tree × Value) :=
  solo (next c) Pc.result .go fuel t (.task (.find k) none t.root)

/-- A task that runs alone comes to the leaf that covers its key. -/
theorem solo_task (h : Inv c t g) {o : Op} (hk : o.key < maxKey) {x : Tree × Value}
    (hleaf : ∀ m < t.count, (t.node m).isLeaf = true → g.low m ≤ o.key →
      o.key < (t.node m).highKey →
      ∃ fuel, solo (next c) Pc.result .go fuel t (.task o none m) = some x) :
    ∀ n < t.count, g.low n ≤ o.key →
      ∃ fuel, solo (next c) Pc.result .go fuel t (.task o none n) = some x := by
  refine h.search_induction hk fun n hn hlow hright hdown => ?_
  by_cases hh : (t.node n).highKey ≤ o.key
  · rcases h.right_move hn hk hh with ⟨r, hr, _⟩
    have hs : next c t (.task o none n) .go = some (t, .task o none r, none) := by
      simp [next, execute, advance, hh, hr, Executed.pc]
    exact solo_of_step rfl hs (hright r hh hr)
  · cases hl : (t.node n).isLeaf with
    | true => exact hleaf n hn hl hlow (not_le.mp hh)
    | false =>
        rcases (h.node n hn).child hl hlow with ⟨s, hs, _⟩
        have hstep : next c t (.task o none n) .go = some (t, .task o none s, none) := by
          simp [next, execute, advance, hh, hl, hs, Executed.pc]
        exact solo_of_step rfl hstep (hdown s hl hs)

/-- A lookup that runs alone ends and finds the value of a present key. -/
theorem lookup_spec (h : Inv c t g) {k : Nat} (hk : k < maxKey) {v : Value}
    (hv : OrderedMap.get? k t.content = some v) : ∃ fuel, lookup c fuel t k = some (t, v) := by
  have hroot : g.low t.root ≤ k := by
    rw [h.low_root]
    exact Nat.zero_le k
  refine solo_task h (o := .find k) hk (fun m hm hl hlow hhigh => ?_) t.root h.root_lt hroot
  have hs : next c t (.task (.find k) none m) .go = some (t, .done (.find k) v,
      some (.effect (.find k) v)) := by
    have hnot : ¬ (t.node m).highKey ≤ k := not_le.mpr hhigh
    rw [← findValue_spec h hm hl hlow hhigh v hv]
    simp [next, execute, advance, Op.key, hnot, hl, work, Executed.pc]
  exact solo_of_step rfl hs ⟨1, rfl⟩

/-! ## The exclusive builds -/

/-- The task is about to take its leaf step on node `n`. -/
def AtLeafStep (t : Tree) (pc : Pc) (o : Op) (n : Nat) : Prop :=
  pc = .task o none n ∧ advance t o none n = none

theorem next_effect {pc pc' : Pc} {a : Act} {o : Op} {r : Value}
    (h : Sound False c t g) (ha : Holds False t g i pc)
    (hs : next c t pc a = some (t', pc', some (.effect o r))) : ∃ n, AtLeafStep t pc o n := by
  cases a with
  | spawn o' => cases pc <;> simp [next] at hs
  | go =>
      cases pc with
      | task o' separator n =>
          simp only [next, execute] at hs
          cases hadv : advance t o' separator n with
          | some m => simp [hadv] at hs
          | none =>
              cases separator with
              | none =>
                  cases hx : work c t o' none n with
                  | none => simp [hadv, hx] at hs
                  | some x =>
                      simp only [hadv, hx, Option.some.injEq, Prod.mk.injEq,
                        Option.map_eq_some_iff, Event.effect.injEq] at hs
                      rcases hs with ⟨_, _, _, _, rfl, _⟩
                      exact ⟨n, rfl, hadv⟩
              | some u =>
                  rcases insertIntoInnerNode_spec h ha.2.2 False.elim with ⟨x, h1, _, h2, _⟩
                  rcases ha.2.1 with ⟨k, v, rfl⟩
                  simp [hadv, work, h1, h2] at hs
      | _ => simp [next] at hs

/-- In every run of the builds with exclusive latches the operations are linearized at their
leaf steps. A leaf step is on the one leaf that covers its key and changes the content by
its own operation, no other step changes the content, no task gets a null node before it
is complete, and from every reached tree a lookup finds every present key. -/
theorem exclusive_linearizable (c : Capacity) (memory : Nat → Memory) (w : World)
    (hw : Reachable (next c) (fun _ _ a => a.Valid) (init memory) w) :
    Explains w.history w.shared.content ∧ OrderedMap.Sorted w.shared.content ∧
      (∀ i, status w.history i = (w.thread i).status) ∧
      (∀ i o, w.thread i ≠ .lost o) ∧
      (∀ i o n, AtLeafStep w.shared (w.thread i) o n →
        w.shared.Covers n o.key ∧
        ∃ r w', step (next c) w i .go = some w' ∧
          w'.history = (i, .effect o r) :: w.history ∧
          w'.shared.content = finiteMap.apply w.shared.content o ∧
          ∀ k v, o = .find k → OrderedMap.get? k w.shared.content = some v → r = v) ∧
      (∀ i a w', a.Valid → step (next c) w i a = some w' →
        (∀ o n, ¬ AtLeafStep w.shared (w.thread i) o n) →
        w'.shared.content = w.shared.content) ∧
      ∀ k < maxKey, ∀ v, OrderedMap.get? k w.shared.content = some v →
        ∃ fuel, lookup c fuel w.shared k = some (w.shared, v) := by
  rcases safe False (fun _ _ _ hv => hv) False.elim hw with ⟨g, hsound, hall, hlegal, hstate, hstatus⟩
  have hinv := hsound.inv
  refine ⟨hstate ▸ explains_of_legal hlegal, hinv.content_sorted, hstatus, ?_, ?_, ?_, ?_⟩
  · intro i o hc
    have := hall i
    rw [hc] at this
    exact this
  · intro i o n hat
    rcases hat with ⟨hpc, hadv⟩
    have ha := hall i
    rw [hpc] at ha
    rcases advance_eq_none hadv with ⟨hh, hleaf⟩
    have hl := hleaf rfl
    have hcov := hinv.covers ha.2.lt_count hl ha.2.low_le hh
    rcases work_leaf_spec hsound i ha.2 hl hh with ⟨x, r, hx, _, h1, h2, h3, _⟩
    have hs : step (next c) w i .go = some ⟨x.tree, Function.update w.thread i (x.pc o),
        (i, .effect o r) :: w.history⟩ := by
      simp [step, hpc, next, execute, hadv, hx, h1]
    refine ⟨hcov, r, _, hs, rfl, h2, ?_⟩
    intro k v ho hg
    subst ho
    exact h3 v hg
  · intro i a w' hv hs hno
    rcases step_eq_some hs with ⟨t', pc', e, hn, rfl⟩
    rcases next_spec hsound (hall i) hv (fun hb => hb.elim) hn with ⟨_, _, _, _, hsim⟩
    cases e with
    | none => exact hsim.1
    | some e =>
        cases e with
        | invoke o => exact hsim.2.1
        | ret o r => exact hsim.2.1
        | effect o r =>
            rcases next_effect hsound (hall i) hn with ⟨n, hat⟩
            exact absurd hat (hno o n)
  · intro k hk v hv
    exact lookup_spec hinv hk hv

/-- Three inserts meet at the root leaf, which the last one splits under a new root, and a
lookup goes down through the root. -/
def threeTasks : List (Nat × Act) :=
  [(0, .spawn (.insert 5 50)), (1, .spawn (.insert 3 30)), (2, .spawn (.insert 9 90)),
    (0, .go), (1, .go), (2, .go), (0, .go), (3, .spawn (.find 9)), (3, .go), (3, .go)]

theorem exclusive_linearizable_three_tasks :
    ∃ w, run (next .smallest) (fun _ _ a => a.Valid) (init fun _ => .zero) threeTasks = some w ∧
      w.shared.content = [(3, 30), (5, 50), (9, 90)] ∧ Explains w.history w.shared.content := by
  have hrun : (run (next .smallest) (fun _ _ a => a.Valid) (init fun _ => .zero) threeTasks).map
      (fun w => w.shared.content) = some [(3, 30), (5, 50), (9, 90)] := by decide
  rcases Option.map_eq_some_iff.mp hrun with ⟨w, hw, hc⟩
  exact ⟨w, hw, hc, (exclusive_linearizable .smallest _ w (Reachable.start.of_run hw)).1⟩

end BLinkTree.Tbb
