import BLinkTree.Latched.ReadWrite

/-! # The readers that stay in the latches

`upgrade_lock` is called with the shared latch held, and `unlock<false>` behind it clears the
two low bits only. So every upgrade leaves a reader in the word of its node: the words of
an idle tree count the upgrades so far, modulo `2 ^ 30`.
-/

namespace BLinkTree.Latched.ReadWrite

open Linearization Interleaving UpgradeLock

variable {c : Capacity} {s s' : LatchedTree} {i n : Nat}

/-- The node that a thread of the spinlock build is about to latch. -/
def target : Latched.Pc → Option Nat
  | .inner _ _ n => some n
  | .leaf _ _ n => some n
  | .parent _ _ n _ _ => some n
  | _ => none

/-- The node in whose word the thread is a reader. -/
def Pc.reads : Pc → Option Nat
  | backOff n _ => some n
  | shared pc => target pc
  | unlockShared n _ => some n
  | upgrade w => some w.node
  | _ => none

/-- The node whose latch the thread has upgraded. -/
def Pc.upgraded : Pc → Option Nat
  | write w => some w.node
  | unlock n _ => some n
  | _ => none

/-- The step is a successful `try_lock_upgrade` of node `n`. -/
def upgrades (n : Nat) (s : LatchedTree) (pc : Pc) : Act → Nat
  | .go =>
      match pc with
      | .upgrade w => if w.node = n ∧ isFree (s.bits n) then 1 else 0
      | _ => 0
  | .call _ => 0

/-- What a step does to the words, and where the thread is before and after it. -/
inductive Turns (s : LatchedTree) (pc : Pc) (a : Act) (s' : LatchedTree) (pc' : Pc) : Prop
  | keeps : s'.bits = s.bits → pc'.reads = pc.reads → pc'.upgraded = pc.upgraded →
      (∀ n, upgrades n s pc a = 0) → Turns s pc a s' pc'
  | crashes (o : Op) : s'.bits = s.bits → pc'.reads = pc.reads → pc' = .base (.crashed o) →
      (∀ n, upgrades n s pc a = 0) → Turns s pc a s' pc'
  | enters (n : Nat) : s'.bits = Slots.store s.bits n (s.bits n + reader) → pc.reads = none →
      pc'.reads = some n → pc.upgraded = none → (∀ n, upgrades n s pc a = 0) → Turns s pc a s' pc'
  | leaves (n : Nat) : s'.bits = Slots.store s.bits n (s.bits n - reader) → pc.reads = some n →
      pc'.reads = none → pc.upgraded = none → (∀ n, upgrades n s pc a = 0) → Turns s pc a s' pc'
  | fails (n : Nat) : s'.bits = Slots.store s.bits n (s.bits n ||| upgraded) →
      isFree (s.bits n) = false → pc' = pc → (∀ n, upgrades n s pc a = 0) → Turns s pc a s' pc'
  | upgrades (n : Nat) : s'.bits = Slots.store s.bits n (s.bits n ||| upgraded) →
      isFree (s.bits n) = true → pc.reads = some n → pc.upgraded = none → pc'.reads = none →
      pc'.upgraded = some n → (∀ m, upgrades m s pc a = if n = m then 1 else 0) →
      Turns s pc a s' pc'
  | unlocks (n : Nat) : s'.bits = Slots.store s.bits n (s.bits n &&& ~~~(writer ||| upgraded)) →
      pc.reads = none → pc'.reads = none → pc.upgraded = some n → pc'.upgraded = none →
      (∀ n, upgrades n s pc a = 0) → Turns s pc a s' pc'

theorem turns_of_lockShared {pc : Latched.Pc} {a : Act} (hn : target pc = some n)
    (hcount : ∀ m, upgrades m s (.base pc) a = 0) :
    Turns s (.base pc) a (lockShared s n pc).1 (lockShared s n pc).2 := by
  refine .enters n rfl rfl ?_ rfl hcount
  unfold lockShared
  cases hfree : isFree (s.bits n) with
  | true => exact hn
  | false => rfl

theorem turns_of_readLeaf {o : Op} {path : List Nat} {a : Act}
    (hcount : ∀ m, upgrades m s (.shared (.leaf o path n)) a = 0) :
    Turns s (.shared (.leaf o path n)) a s (readLeaf c s.tree o path n).1 := by
  cases o with
  | insert k v => exact .keeps rfl rfl rfl hcount
  | find k => exact .keeps rfl rfl rfl hcount
  | update k v =>
      unfold readLeaf
      dsimp only
      split
      · exact .keeps rfl rfl rfl hcount
      · exact .keeps rfl rfl rfl hcount

theorem turns_of_lockUpgrade (w : Work) :
    Turns s (.upgrade w) .go (lockUpgrade s w).1 (lockUpgrade s w).2 := by
  unfold lockUpgrade
  cases hfree : isFree (s.bits w.node) with
  | true =>
      refine .upgrades w.node rfl hfree rfl rfl rfl rfl fun m => ?_
      by_cases hm : w.node = m
      · simp [upgrades, ← hm, hfree]
      · simp [upgrades, hm]
  | false =>
      refine .fails w.node rfl hfree rfl fun m => ?_
      by_cases hm : w.node = m
      · simp [upgrades, ← hm, hfree]
      · simp [upgrades, hm]

/-- One step. -/
theorem next_turns {pc pc' : Pc} {a : Act} {e : Option (Event Op Value)}
    (hs : next c s pc a = some (s', pc', e)) : Turns s pc a s' pc' := by
  have hcount : (∀ w, pc ≠ .upgrade w) → ∀ n, upgrades n s pc a = 0 := by
    intro hne n
    cases a with
    | call o => rfl
    | go =>
        cases pc with
        | upgrade w => exact absurd rfl (hne w)
        | _ => rfl
  cases a with
  | call o =>
      cases pc with
      | base pc =>
          cases pc with
          | idle =>
              simp only [next, Option.some.injEq, Prod.mk.injEq] at hs
              rcases hs with ⟨rfl, rfl, _⟩
              exact .keeps rfl rfl rfl (hcount (by simp))
          | _ => simp [next] at hs
      | _ => simp [next] at hs
  | go =>
  cases pc with
  | base pc =>
      have hzero := hcount (by simp)
      cases pc with
      | idle => simp [next] at hs
      | crashed o => simp [next] at hs
      | inner o path n =>
          simp only [next, Option.some.injEq, Prod.mk.injEq] at hs
          rcases hs with ⟨rfl, rfl, _⟩
          exact turns_of_lockShared rfl hzero
      | leaf o path n =>
          simp only [next, Option.some.injEq, Prod.mk.injEq] at hs
          rcases hs with ⟨rfl, rfl, _⟩
          exact turns_of_lockShared rfl hzero
      | parent o path n k x =>
          simp only [next, Option.some.injEq, Prod.mk.injEq] at hs
          rcases hs with ⟨rfl, rfl, _⟩
          exact turns_of_lockShared rfl hzero
      | _ =>
          simp only [next, Option.some.injEq, Prod.mk.injEq] at hs
          rcases hs with ⟨rfl, rfl, _⟩
          exact .keeps rfl rfl rfl hzero
  | backOff n pc =>
      simp only [next, Option.some.injEq, Prod.mk.injEq] at hs
      rcases hs with ⟨rfl, rfl, _⟩
      exact .leaves n rfl rfl rfl rfl (hcount (by simp))
  | shared pc =>
      have hzero := hcount (by simp)
      cases pc with
      | inner o path n =>
          simp only [next] at hs
          split at hs <;> simp only [Option.some.injEq, Prod.mk.injEq] at hs <;>
            rcases hs with ⟨rfl, rfl, _⟩ <;> exact .keeps rfl rfl rfl hzero
      | leaf o path n =>
          simp only [next] at hs
          split at hs <;> simp only [Option.some.injEq, Prod.mk.injEq] at hs <;>
            rcases hs with ⟨rfl, rfl, _⟩
          · exact .keeps rfl rfl rfl hzero
          · exact turns_of_readLeaf hzero
      | parent o path n k x =>
          simp only [next] at hs
          split at hs <;> simp only [Option.some.injEq, Prod.mk.injEq] at hs <;>
            rcases hs with ⟨rfl, rfl, _⟩ <;> exact .keeps rfl rfl rfl hzero
      | _ => simp [next] at hs
  | unlockShared n pc =>
      simp only [next, Option.some.injEq, Prod.mk.injEq] at hs
      rcases hs with ⟨rfl, rfl, _⟩
      exact .leaves n rfl rfl rfl rfl (hcount (by simp))
  | upgrade w =>
      simp only [next, Option.some.injEq, Prod.mk.injEq] at hs
      rcases hs with ⟨rfl, rfl, _⟩
      exact turns_of_lockUpgrade w
  | write w =>
      have hzero := hcount (by simp)
      simp only [next] at hs
      split at hs <;> simp only [Option.some.injEq, Prod.mk.injEq] at hs <;>
        rcases hs with ⟨rfl, rfl, _⟩
      · exact .crashes w.op rfl rfl rfl hzero
      · exact .keeps rfl rfl rfl hzero
  | unlock n pc =>
      simp only [next, Option.some.injEq, Prod.mk.injEq] at hs
      rcases hs with ⟨rfl, rfl, _⟩
      exact .unlocks n rfl rfl rfl rfl rfl (hcount (by simp))

/-! ## Runs -/

/-- The threads that are readers of each node. -/
def Reads (thread : Nat → Pc) (inside : Nat → Finset Nat) : Prop :=
  ∀ n i, i ∈ inside n ↔ (thread i).reads = some n

/-- Only a thread that upgraded a latch holds it, unless it has crashed. -/
def Holders (thread : Nat → Pc) (holder : Nat → Option Nat) : Prop :=
  ∀ n i, holder n = some i → (thread i).upgraded = some n ∨ ∃ o, thread i = .base (.crashed o)

section Update

variable {thread : Nat → Pc} {inside : Nat → Finset Nat} {holder : Nat → Option Nat} {pc : Pc}

theorem Reads.keeps (h : Reads thread inside) (hpc : pc.reads = (thread i).reads) :
    Reads (Function.update thread i pc) inside := by
  intro n j
  rw [h n j]
  by_cases hj : j = i
  · rw [hj, Function.update_self, hpc]
  · rw [Function.update_of_ne hj]

theorem Reads.enters (h : Reads thread inside) (hold : (thread i).reads = none)
    (hpc : pc.reads = some n) :
    Reads (Function.update thread i pc) (Slots.store inside n (insert i (inside n))) := by
  intro m j
  by_cases hj : j = i
  · have hnot : i ∉ inside m := by
      rw [h m i, hold]
      simp
    rw [hj, Function.update_self, hpc, Option.some.injEq]
    by_cases hm : m = n
    · rw [hm, Slots.store_self]
      simp
    · rw [Slots.store_of_ne _ _ hm]
      exact iff_of_false hnot fun hc => hm hc.symm
  · rw [Function.update_of_ne hj, ← h m j]
    by_cases hm : m = n
    · rw [hm, Slots.store_self, Finset.mem_insert]
      simp [hj]
    · rw [Slots.store_of_ne _ _ hm]

theorem Reads.leaves (h : Reads thread inside) (hold : (thread i).reads = some n)
    (hpc : pc.reads = none) :
    Reads (Function.update thread i pc) (Slots.store inside n ((inside n).erase i)) := by
  intro m j
  by_cases hj : j = i
  · rw [hj, Function.update_self, hpc]
    by_cases hm : m = n
    · rw [hm, Slots.store_self]
      simp
    · rw [Slots.store_of_ne _ _ hm, h m i, hold, Option.some.injEq]
      exact iff_of_false (fun hc => hm hc.symm) (by simp)
  · rw [Function.update_of_ne hj, ← h m j]
    by_cases hm : m = n
    · rw [hm, Slots.store_self, Finset.mem_erase]
      simp [hj]
    · rw [Slots.store_of_ne _ _ hm]

/-- A step of a thread that keeps what it has upgraded, or has upgraded nothing. -/
theorem Holders.keeps (h : Holders thread holder)
    (hpc : pc.upgraded = (thread i).upgraded ∨ (thread i).upgraded = none)
    (hcrash : ∀ o, thread i ≠ .base (.crashed o)) :
    Holders (Function.update thread i pc) holder := by
  intro n j hn
  by_cases hj : j = i
  · rw [hj] at hn
    rcases h n i hn with hup | ⟨o, ho⟩
    · rcases hpc with hpc | hpc
      · rw [hj, Function.update_self, hpc]
        exact Or.inl hup
      · rw [hpc] at hup
        exact absurd hup (by simp)
    · exact absurd ho (hcrash o)
  · rw [Function.update_of_ne hj]
    exact h n j hn

theorem Holders.crashes (h : Holders thread holder) (o : Op) :
    Holders (Function.update thread i (.base (.crashed o))) holder := by
  intro n j hn
  by_cases hj : j = i
  · rw [hj, Function.update_self]
    exact Or.inr ⟨o, rfl⟩
  · rw [Function.update_of_ne hj]
    exact h n j hn

theorem Holders.upgrades (h : Holders thread holder) (hold : (thread i).upgraded = none)
    (hcrash : ∀ o, thread i ≠ .base (.crashed o)) (hpc : pc.upgraded = some n) :
    Holders (Function.update thread i pc) (Slots.store holder n (some i)) := by
  intro m j hm
  by_cases hmn : m = n
  · rw [hmn, Slots.store_self, Option.some.injEq] at hm
    rw [← hm, Function.update_self, hmn]
    exact Or.inl hpc
  · rw [Slots.store_of_ne _ _ hmn] at hm
    exact h.keeps (Or.inr hold) hcrash m j hm

theorem Holders.unlocks (h : Holders thread holder) (hold : (thread i).upgraded = some n)
    (hcrash : ∀ o, thread i ≠ .base (.crashed o)) :
    Holders (Function.update thread i pc) (Slots.store holder n none) := by
  intro m j hm
  by_cases hmn : m = n
  · rw [hmn, Slots.store_self] at hm
    exact absurd hm (by simp)
  · rw [Slots.store_of_ne _ _ hmn] at hm
    by_cases hj : j = i
    · rw [hj] at hm
      rcases h m i hm with hup | ⟨o, ho⟩
      · rw [hold, Option.some.injEq] at hup
        exact absurd hup.symm hmn
      · exact absurd ho (hcrash o)
    · rw [Function.update_of_ne hj]
      exact h m j hm

end Update

/-- The words count the threads inside and the upgrades so far. -/
def Counted (w : World) (left : Nat → Nat) : Prop :=
  ∃ inside holder, Counts w.shared.bits left inside ∧ Held w.shared.bits holder ∧
    Reads w.thread inside ∧ Holders w.thread holder

theorem counted_init (memory : Nat → Memory) : Counted (init memory) fun _ => 0 := by
  refine ⟨fun _ => ∅, fun _ => none, fun n => ?_, held_zero, fun n i => ?_, fun n i hn => ?_⟩
  · show readers 0 = (0 + (∅ : Finset Nat).card) % 2 ^ 30
    decide
  · simp [init, Pc.reads]
  · simp at hn

theorem Counted.step {w w' : World} {left : Nat → Nat} {a : Act} (h : Counted w left)
    (hs : step (next c) w i a = some w') :
    Counted w' fun n => left n + upgrades n w.shared (w.thread i) a := by
  rcases h with ⟨inside, holder, hcounts, hheld, hreads, hholds⟩
  rcases step_eq_some hs with ⟨s', pc', e, hn, rfl⟩
  have hcrash : ∀ o, w.thread i ≠ .base (.crashed o) := by
    intro o hc
    rw [hc] at hn
    cases a <;> simp [next] at hn
  cases next_turns hn with
  | keeps hbits hr hu hz =>
      simp only [hz, Nat.add_zero]
      refine ⟨inside, holder, ?_, ?_, hreads.keeps hr, hholds.keeps (Or.inl hu) hcrash⟩
      · rw [hbits]
        exact hcounts
      · rw [hbits]
        exact hheld
  | crashes o hbits hr hpc hz =>
      simp only [hz, Nat.add_zero]
      refine ⟨inside, holder, ?_, ?_, hreads.keeps hr, ?_⟩
      · rw [hbits]
        exact hcounts
      · rw [hbits]
        exact hheld
      · rw [hpc]
        exact hholds.crashes o
  | enters n hbits hr hr' hu hz =>
      simp only [hz, Nat.add_zero]
      have hnot : i ∉ inside n := by
        rw [hreads n i, hr]
        simp
      refine ⟨_, holder, ?_, ?_, hreads.enters hr hr', hholds.keeps (Or.inr hu) hcrash⟩
      · rw [hbits]
        exact hcounts.enter hnot
      · rw [hbits]
        exact hheld.add_reader n
  | leaves n hbits hr hr' hu hz =>
      simp only [hz, Nat.add_zero]
      refine ⟨_, holder, ?_, ?_, hreads.leaves hr hr', hholds.keeps (Or.inr hu) hcrash⟩
      · rw [hbits]
        exact hcounts.leave ((hreads n i).mpr hr)
      · rw [hbits]
        exact hheld.sub_reader n
  | fails n hbits hfree hpc hz =>
      simp only [hz, Nat.add_zero]
      refine ⟨inside, holder, ?_, ?_, hreads.keeps (by rw [hpc]),
        hholds.keeps (Or.inl (by rw [hpc])) hcrash⟩
      · rw [hbits]
        refine hcounts.store (fun _ _ => rfl) (fun _ _ => rfl) ?_
        rw [readers_or_upgraded]
        exact hcounts n
      · rw [hbits]
        exact hheld.upgrade_taken hfree
  | upgrades n hbits hfree hr hu hr' hu' hcount =>
      have hleft : (fun m => left m + ReadWrite.upgrades m w.shared (w.thread i) a) =
          Slots.store left n (left n + 1) := by
        funext m
        rw [hcount m]
        by_cases hm : n = m
        · rw [hm, Slots.store_self, if_pos rfl]
        · rw [Slots.store_of_ne _ _ (Ne.symm hm), if_neg hm, Nat.add_zero]
      rw [hleft]
      refine ⟨_, _, ?_, ?_, hreads.leaves hr hr', hholds.upgrades hu hcrash hu'⟩
      · rw [hbits]
        exact hcounts.upgrade ((hreads n i).mpr hr)
      · rw [hbits]
        exact hheld.upgrade i hfree
  | unlocks n hbits hr hr' hu hu' hz =>
      simp only [hz, Nat.add_zero]
      refine ⟨inside, _, ?_, ?_, hreads.keeps (hr'.trans hr.symm), hholds.unlocks hu hcrash⟩
      · rw [hbits]
        refine hcounts.store (fun _ _ => rfl) (fun _ _ => rfl) ?_
        rw [readers_and_not]
        exact hcounts n
      · rw [hbits]
        exact hheld.unlock n

/-- The words of an idle tree. -/
theorem Counted.eq_zero_iff {w : World} {left : Nat → Nat} (h : Counted w left)
    (hidle : ∀ i, w.thread i = .base .idle) (n : Nat) :
    w.shared.bits n = 0 ↔ 2 ^ 30 ∣ left n := by
  rcases h with ⟨inside, holder, hcounts, hheld, hreads, hholds⟩
  have hnone : holder n = none := by
    cases hn : holder n with
    | none => rfl
    | some i =>
        rcases hholds n i hn with hup | ⟨o, ho⟩
        · rw [hidle i] at hup
          exact absurd hup (by simp [Pc.upgraded])
        · rw [hidle i] at ho
          exact absurd ho (by simp)
  have hempty : inside n = ∅ := by
    refine Finset.eq_empty_of_forall_notMem fun i hi => ?_
    rw [hreads n i, hidle i] at hi
    exact absurd hi (by simp [Pc.reads])
  rw [UpgradeLock.eq_zero_iff (hheld.low_of_none hnone), hcounts n, hempty, Finset.card_empty,
    Nat.add_zero]
  exact (Nat.dvd_iff_mod_eq_zero ..).symm

/-- When no call is in progress, the latches of all nodes are free of readers if and only if
the latch of every node was upgraded a multiple of `2 ^ 30` times. -/
theorem latches_free_iff (c : Capacity) (memory : Nat → Memory) (schedule : List (Nat × Act))
    (w : World) (hw : run (next c) (fun _ _ a => a.Valid) (init memory) schedule = some w)
    (hidle : ∀ i, w.thread i = .base .idle) :
    (∀ n < w.shared.tree.count, w.shared.bits n = 0) ↔
      ∀ n < w.shared.tree.count,
        2 ^ 30 ∣ tally (next c) (fun w i => upgrades n w.shared (w.thread i)) (init memory)
          schedule := by
  have hcounted := run_counted (P := Counted)
    (f := fun n w i => upgrades n w.shared (w.thread i))
    (fun _ _ _ _ _ h _ hs => Counted.step h hs) (counted_init memory) hw
  have hiff := fun n => hcounted.eq_zero_iff hidle n
  simp only [Nat.zero_add] at hiff
  exact forall₂_congr fun n _ => hiff n

/-- A lookup in the fresh tree upgrades nothing. -/
theorem latches_free_iff_one_find :
    ∃ w, run (next .smallest) (fun _ _ a => a.Valid) (init fun _ => .zero)
        ((0, .call (.find 5)) :: List.replicate 5 (0, .go)) = some w ∧
      ∀ n < w.shared.tree.count, w.shared.bits n = 0 := by
  have hrun : (run (next .smallest) (fun _ _ a => a.Valid) (init fun _ => .zero)
      ((0, .call (.find 5)) :: List.replicate 5 (0, .go))).map
      (fun w => (w.shared.tree.count, w.thread 0, w.thread 1)) =
      some (1, .base .idle, .base .idle) := by decide
  rcases Option.map_eq_some_iff.mp hrun with ⟨w, hw, hstate⟩
  simp only [Prod.mk.injEq] at hstate
  rcases hstate with ⟨hcount, h0, h1⟩
  have hidle : ∀ i, w.thread i = .base .idle :=
    thread_of_run_pair (fun _ => rfl) (by decide) hw h0 h1
  refine ⟨w, hw, (latches_free_iff .smallest _ _ w hw hidle).mpr fun n hn => ?_⟩
  rw [hcount, Nat.lt_one_iff] at hn
  rw [hn]
  decide

/-- One insert into the fresh tree leaves a reader in the latch of the leaf. -/
theorem insert_leaves_reader :
    ∃ w, Reachable (next .smallest) (fun _ _ a => a.Valid) (init fun _ => .zero) w ∧
      (∀ i, w.thread i = .base .idle) ∧ w.shared.bits 0 = 4 ∧
      ¬ ∀ n < w.shared.tree.count, w.shared.bits n = 0 := by
  have hrun : (run (next .smallest) (fun _ _ a => a.Valid) (init fun _ => .zero)
      ((0, .call (.insert 5 50)) :: List.replicate 7 (0, .go))).map
      (fun w => (w.shared.tree.count, w.shared.bits 0, w.thread 0, w.thread 1)) =
      some (1, 4, .base .idle, .base .idle) := by decide
  rcases Option.map_eq_some_iff.mp hrun with ⟨w, hw, hstate⟩
  simp only [Prod.mk.injEq] at hstate
  rcases hstate with ⟨hcount, hbits, h0, h1⟩
  have hidle : ∀ i, w.thread i = .base .idle :=
    thread_of_run_pair (fun _ => rfl) (by decide) hw h0 h1
  refine ⟨w, Reachable.start.of_run hw, hidle, hbits, fun hfree => ?_⟩
  rw [hfree 0 (by omega)] at hbits
  exact absurd hbits (by decide)

end BLinkTree.Latched.ReadWrite
