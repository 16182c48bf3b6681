import BLinkTree.Benchmark.Workload
import BLinkTree.Lib.Team

/-! # The execution of a workload

`ThreadBenchmark::execute_iteration`, and `BatchTask::execute` of the TBB benchmark. Workers take
batches of the workload with `fetch_add` on one index. A worker goes past the end
once, so the index stays below the sum of the workload and the batches of all workers.
-/

namespace BLinkTree.Benchmark

open Interleaving

/-- The call for a tuple. -/
def WorkloadTuple.op (t : WorkloadTuple) : Op :=
  if t.operation = .insert then .insert t.key t.value
  else if t.operation = .update then .update t.key t.value
  else .find t.key

inductive Event where
  | performed (index : Nat) (op : Op)
  | outOfRange (index : Nat)
  deriving DecidableEq

/-- The calls so far, each with the index of its tuple. -/
def performed (h : List (Nat × Event)) : List (Nat × Op) :=
  h.filterMap fun e =>
    match e.2 with
    | .performed k o => some (k, o)
    | .outOfRange _ => none

/-- The calls of a workload. -/
def calls (items : List WorkloadTuple) : List (Nat × Op) := items.zipIdx.map fun p => (p.2, p.1.op)

/-- Workers `0` to `workers - 1` perform the call of every element once, stay inside the workload
and stop. -/
structure ExecutesOnce {σ τ α : Type} (p : Program σ τ α Event) (w₀ : World Nat σ τ Event)
    (workers : Nat) (stopped : τ → Prop) (items : List WorkloadTuple) : Prop where
  inRange : ∀ w, Reachable p (Member workers) w₀ w → ∀ i k, (i, .outOfRange k) ∉ w.history
  once : ∀ w, Reachable p (Member workers) w₀ w → (∀ i, i < workers → stopped (w.thread i)) →
    (performed w.history).Perm (calls items)
  bounded : ∃ bound, ∀ l w, run p (Member workers) w₀ l = some w → l.length ≤ bound
  progress : ∀ w, Reachable p (Member workers) w₀ w → (∃ i, i < workers ∧ ¬ stopped (w.thread i)) →
    ∃ i a w', i < workers ∧ step p w i a = some w'

/-! ## Threads -/

/-- A thread is about to take a batch, or inside the loop over its batch. -/
inductive Pc where
  | fetch
  | execute (current i itemsToExecute : Nat)
  | stopped
  deriving DecidableEq

/-- Perform the call of `items[index]`. -/
def perform (items : List WorkloadTuple) (index : Nat) : Event :=
  match items[index]? with
  | some t => .performed index t.op
  | none => .outOfRange index

/-- The shared state is `workload_pointer`. -/
def executeIteration (items : List WorkloadTuple) (countItems batchSize : Nat) :
    Program Nat Pc Unit Event
  | pointer, .fetch, _ =>
      if pointer < countItems then
        some (pointer + batchSize, .execute pointer 0 (min batchSize (countItems - pointer)), none)
      else some (pointer + batchSize, .stopped, none)
  | pointer, .execute current i n, _ =>
      if i < n then some (pointer, .execute current (i + 1) n, some (perform items (current + i)))
      else some (pointer, .fetch, none)
  | _, .stopped, _ => none

def threadsStart : World Nat Nat Pc Event := ⟨0, fun _ => .fetch, []⟩

/-! ## Tasks -/

/-- A task for one tuple and the task that has spawned it. -/
structure Child where
  parent : Nat
  index : Nat
  op : Op
  deriving DecidableEq

/-- `_workload_index`, the reference counts, and the children that have not run. -/
structure Pool where
  workloadIndex : Nat
  refCount : Nat → Nat
  children : List Child

inductive TaskPc where
  | execute
  | spawn (workloadIndex itemIndex batchSize : Nat)
  | waitForAll
  | finished
  deriving DecidableEq

/-- A batch task; `self` is its own address. -/
structure Task where
  self : Nat
  pc : TaskPc
  deriving DecidableEq

/-- A worker goes on with a batch task, or runs one of the children. -/
inductive Act where
  | go
  | child (position : Nat)

def batchTask (items : List WorkloadTuple) (batchSize : Nat) : Program Pool Task Act Event
  | s, ⟨self, .execute⟩, .go =>
      if items.length ≤ s.workloadIndex then
        some ({ s with workloadIndex := s.workloadIndex + batchSize }, ⟨self, .finished⟩, none)
      else
        let n := min batchSize (items.length - s.workloadIndex)
        some ({ s with
          workloadIndex := s.workloadIndex + batchSize
          refCount := Function.update s.refCount self (s.refCount self + (n + 1)) },
          ⟨self, .spawn s.workloadIndex 0 n⟩, none)
  | s, ⟨self, .spawn k i n⟩, .go =>
      if i < n then
        match items[k + i]? with
        | some t => some ({ s with children := s.children ++ [⟨self, k + i, t.op⟩] },
            ⟨self, .spawn k (i + 1) n⟩, none)
        | none => some (s, ⟨self, .spawn k (i + 1) n⟩, some (.outOfRange (k + i)))
      else some (s, ⟨self, .waitForAll⟩, none)
  | s, ⟨self, .waitForAll⟩, .go =>
      if s.refCount self = 1 then
        some ({ s with refCount := Function.update s.refCount self 0 }, ⟨self, .execute⟩, none)
      else none
  | s, t, .child position =>
      match s.children[position]? with
      | some c => some ({ s with
          refCount := Function.update s.refCount c.parent (s.refCount c.parent - 1)
          children := s.children.eraseIdx position }, t, some (.performed c.index c.op))
      | none => none
  | _, ⟨_, .finished⟩, .go => none

def tasksStart : World Nat Pool Task Event := ⟨⟨0, fun _ => 0, []⟩, fun i => ⟨i, .execute⟩, []⟩

/-! ## Accounts of the indices -/

/-- One for an index of the interval. -/
def slot (lo hi k : Nat) : Nat := if lo ≤ k ∧ k < hi then 1 else 0

theorem slot_empty {lo hi : Nat} (h : hi ≤ lo) (k : Nat) : slot lo hi k = 0 := by
  rw [slot, if_neg]
  omega

theorem slot_append {lo mid hi : Nat} (h : lo ≤ mid) (h' : mid ≤ hi) (k : Nat) :
    slot lo mid k + slot mid hi k = slot lo hi k := by
  unfold slot
  split_ifs <;> omega

theorem slot_first {lo hi : Nat} (h : lo < hi) (k : Nat) :
    slot lo hi k = (if k = lo then 1 else 0) + slot (lo + 1) hi k := by
  unfold slot
  split_ifs <;> omega

/-- How often the call of an index was performed. -/
def times (h : List (Nat × Event)) (k : Nat) : Nat := ((performed h).map Prod.fst).count k

theorem times_performed (i : Nat) (o : Op) (h : List (Nat × Event)) (j k : Nat) :
    times ((i, .performed j o) :: h) k = times h k + if k = j then 1 else 0 := by
  have hcons : performed ((i, .performed j o) :: h) = (j, o) :: performed h := rfl
  rw [times, hcons, List.map_cons, List.count_cons, times]
  by_cases hk : k = j
  · simp [hk]
  · simp [hk, Ne.symm hk]

theorem mem_calls {items : List WorkloadTuple} {k : Nat} {o : Op} :
    (k, o) ∈ calls items ↔ ∃ t, items[k]? = some t ∧ t.op = o := by
  simp only [calls, List.mem_map, Prod.mk.injEq, Prod.exists, List.mem_zipIdx_iff_getElem?]
  constructor
  · rintro ⟨t, j, ht, rfl, rfl⟩
    exact ⟨t, ht, rfl⟩
  · rintro ⟨t, ht, rfl⟩
    exact ⟨t, k, ht, rfl, rfl⟩

theorem perform_eq {items : List WorkloadTuple} {k : Nat} (hk : k < items.length) :
    ∃ o, perform items k = .performed k o ∧ (k, o) ∈ calls items := by
  have hget : items[k]? = some items[k] := List.getElem?_eq_getElem hk
  refine ⟨items[k].op, ?_, mem_calls.mpr ⟨_, hget, rfl⟩⟩
  rw [perform, hget]

theorem calls_nodup (items : List WorkloadTuple) : (calls items).Nodup := by
  refine List.Nodup.of_map Prod.fst ?_
  have hindices : (calls items).map Prod.fst = items.zipIdx.map Prod.snd := by
    rw [calls, List.map_map]
    rfl
  rw [hindices, List.zipIdx_map_snd]
  exact List.nodup_range'

/-- Every index is performed once, with the call of its tuple. -/
theorem perm_calls {items : List WorkloadTuple} {h : List (Nat × Event)}
    (htimes : ∀ k, times h k = slot 0 items.length k) (hown : ∀ c ∈ performed h, c ∈ calls items) :
    (performed h).Perm (calls items) := by
  have hnodup : (performed h).Nodup := by
    refine List.Nodup.of_map Prod.fst (List.nodup_iff_count_le_one.mpr fun k => ?_)
    have hk := htimes k
    rw [times] at hk
    rw [hk, slot]
    split <;> omega
  rw [List.perm_ext_iff_of_nodup hnodup (calls_nodup items)]
  rintro ⟨k, o⟩
  refine ⟨hown (k, o), fun hmem => ?_⟩
  rcases mem_calls.mp hmem with ⟨t, ht, hop⟩
  have hlt : k < items.length := (List.getElem?_eq_some_iff.mp ht).1
  have hpos : 0 < ((performed h).map Prod.fst).count k := by
    have hk := htimes k
    rw [times] at hk
    rw [hk, slot, if_pos ⟨Nat.zero_le k, hlt⟩]
    exact Nat.one_pos
  rcases List.mem_map.mp (List.count_pos_iff.mp hpos) with ⟨⟨k', o'⟩, hperf, hk'⟩
  obtain rfl : k' = k := hk'
  -- the call that was performed is the one of the tuple
  rcases mem_calls.mp (hown _ hperf) with ⟨t', ht', hop'⟩
  rw [ht, Option.some.injEq] at ht'
  rw [← hop, ht', hop']
  exact hperf

/-! ## Threads perform every element that they count -/

/-- One for an index that the thread has taken and not performed. -/
def Pc.todo (k : Nat) : Pc → Nat
  | execute current i n => slot (current + i) (current + n) k
  | _ => 0

/-- The batch of a thread lies inside the workload. -/
def Pc.Within (countItems : Nat) : Pc → Prop
  | execute current _ n => current + n ≤ countItems
  | _ => True

structure ThreadsInv (items : List WorkloadTuple) (countItems workers : Nat)
    (w : World Nat Nat Pc Event) : Prop where
  balance : ∀ k, times w.history k + total workers (Pc.todo k) w.thread =
    slot 0 (min w.shared countItems) k
  own : ∀ c ∈ performed w.history, c ∈ calls items
  within : ∀ i, (w.thread i).Within countItems
  inRange : ∀ i k, (i, .outOfRange k) ∉ w.history
  past : ∀ i, w.thread i = .stopped → countItems ≤ w.shared

/-- Remaining steps of a thread that takes no other batch. -/
def Pc.remaining : Pc → Nat
  | fetch => 1
  | execute _ i n => n - i + 2
  | stopped => 0

def threadsMeasure (countItems workers : Nat) (w : World Nat Nat Pc Event) : Nat :=
  3 * (countItems - w.shared) + total workers Pc.remaining w.thread

theorem threadsInv_start (items : List WorkloadTuple) (countItems workers : Nat) :
    ThreadsInv items countItems workers threadsStart where
  balance := by
    intro k
    have htotal : total workers (Pc.todo k) threadsStart.thread = 0 := total_eq_zero fun _ _ => rfl
    have hslot : slot 0 (min threadsStart.shared countItems) k = 0 :=
      slot_empty (Nat.zero_min countItems).le k
    rw [htotal, hslot]
    rfl
  own := by simp [threadsStart, performed]
  within := fun _ => trivial
  inRange := by simp [threadsStart]
  past := by simp [threadsStart]

/-- A step of thread `i` keeps the accounts. -/
theorem ThreadsInv.move {items : List WorkloadTuple} {countItems workers : Nat}
    {w : World Nat Nat Pc Event} (hw : ThreadsInv items countItems workers w) {i s : Nat} {x : Pc}
    {h : List (Nat × Event)} (hi : i < workers)
    (hbalance : ∀ k, times h k + x.todo k + slot 0 (min w.shared countItems) k =
      times w.history k + (w.thread i).todo k + slot 0 (min s countItems) k)
    (hown : ∀ c ∈ performed h, c ∈ calls items) (hwithin : x.Within countItems)
    (hrange : ∀ i k, (i, .outOfRange k) ∉ h) (hle : w.shared ≤ s)
    (hpast : x = .stopped → countItems ≤ s) :
    ThreadsInv items countItems workers ⟨s, Function.update w.thread i x, h⟩ where
  balance := by
    intro k
    have htotal := total_update (Pc.todo k) w.thread x hi
    have hold := hw.balance k
    have hnew := hbalance k
    dsimp only
    omega
  own := hown
  within := forall_update (A := fun _ (x : Pc) => x.Within countItems) hwithin
    fun j _ => hw.within j
  inRange := hrange
  past := by
    refine forall_update (A := fun _ x => x = Pc.stopped → countItems ≤ s) hpast fun j _ hj => ?_
    exact (hw.past j hj).trans hle

theorem threads_step {items : List WorkloadTuple} {countItems batchSize workers : Nat}
    (hcount : countItems ≤ items.length) (hbatch : 0 < batchSize) {w w' : World Nat Nat Pc Event}
    {i : Nat} {a : Unit} (hw : ThreadsInv items countItems workers w) (hi : i < workers)
    (hs : step (executeIteration items countItems batchSize) w i a = some w') :
    ThreadsInv items countItems workers w' ∧
      threadsMeasure countItems workers w' < threadsMeasure countItems workers w := by
  rcases step_eq_some hs with ⟨s, x, e, hn, rfl⟩
  have hremaining := total_update Pc.remaining w.thread x hi
  unfold threadsMeasure
  cases hpc : w.thread i with
  | stopped =>
      rw [hpc] at hn
      simp [executeIteration] at hn
  | fetch =>
      rw [hpc] at hn hremaining
      simp only [executeIteration] at hn
      split at hn <;> simp only [Option.some.injEq, Prod.mk.injEq] at hn <;>
        rcases hn with ⟨rfl, rfl, rfl⟩
      next hlt =>
        simp only [Pc.remaining] at hremaining
        refine ⟨hw.move hi (fun k => ?_) hw.own ?_ hw.inRange (Nat.le_add_right _ _) (by simp), ?_⟩
        · have hmin : min (w.shared + batchSize) countItems =
              w.shared + min batchSize (countItems - w.shared) := by omega
          have hsplit := slot_append (Nat.zero_le w.shared)
            (Nat.le_add_right w.shared (min batchSize (countItems - w.shared))) k
          rw [hpc, hmin, min_eq_left hlt.le]
          simp only [Pc.todo, Nat.add_zero]
          show times w.history k + _ + _ = _
          omega
        · show w.shared + min batchSize (countItems - w.shared) ≤ countItems
          omega
        · dsimp only
          omega
      next hge =>
        simp only [Pc.remaining] at hremaining
        refine ⟨hw.move hi (fun k => ?_) hw.own trivial hw.inRange (Nat.le_add_right _ _) ?_, ?_⟩
        · rw [hpc, min_eq_right (by omega), min_eq_right (by omega)]
          rfl
        · intro _
          omega
        · dsimp only
          omega
  | execute current j n =>
      rw [hpc] at hn hremaining
      have hwithin : current + n ≤ countItems := by
        have hold := hw.within i
        rw [hpc] at hold
        exact hold
      simp only [executeIteration] at hn
      split at hn <;> simp only [Option.some.injEq, Prod.mk.injEq] at hn <;>
        rcases hn with ⟨rfl, rfl, rfl⟩
      next hlt =>
        simp only [Pc.remaining] at hremaining
        rcases perform_eq (show current + j < items.length by omega) with ⟨o, hperform, hcall⟩
        rw [hperform]
        refine ⟨hw.move hi (fun k => ?_) (fun c hc => ?_) hwithin (fun i' k hc => ?_) le_rfl (by simp),
          ?_⟩
        · have htimes := times_performed i o w.history (current + j) k
          have hfirst := slot_first (show current + j < current + n by omega) k
          rw [hpc]
          simp only [Pc.todo, ← Nat.add_assoc]
          show times ((i, .performed (current + j) o) :: w.history) k + _ + _ = _
          omega
        · rcases List.mem_cons.mp hc with rfl | hc
          · exact hcall
          · exact hw.own c hc
        · rcases List.mem_cons.mp hc with hc | hc
          · simp at hc
          · exact hw.inRange i' k hc
        · dsimp only
          omega
      next hge =>
        simp only [Pc.remaining] at hremaining
        refine ⟨hw.move hi (fun k => ?_) hw.own trivial hw.inRange le_rfl (by simp), ?_⟩
        · rw [hpc]
          simp only [Pc.todo, slot_empty (show current + n ≤ current + j by omega)]
          rfl
        · dsimp only
          omega

theorem threads_wind {items : List WorkloadTuple} {countItems batchSize : Nat} (workers : Nat)
    (hcount : countItems ≤ items.length) (hbatch : 0 < batchSize) :
    Winds (executeIteration items countItems batchSize) workers
      (ThreadsInv items countItems workers) (threadsMeasure countItems workers) (· = .stopped) where
  step := fun _ _ _ _ hw hi hs => threads_step hcount hbatch hw hi hs
  progress := by
    rintro w _ ⟨i, hi, hstop⟩
    have hmove : ∃ r, executeIteration items countItems batchSize w.shared (w.thread i) () = some r := by
      cases hpc : w.thread i with
      | stopped => exact absurd hpc hstop
      | fetch =>
          simp only [executeIteration]
          split <;> exact ⟨_, rfl⟩
      | execute current j n =>
          simp only [executeIteration]
          split <;> exact ⟨_, rfl⟩
    rcases hmove with ⟨r, hr⟩
    rcases exists_step hr with ⟨w', hs⟩
    exact ⟨i, (), w', hi, hs⟩

/-- When all threads have stopped, every element below the count was performed once. -/
theorem ThreadsInv.times_eq {items : List WorkloadTuple} {countItems workers : Nat}
    {w : World Nat Nat Pc Event} (hw : ThreadsInv items countItems workers w) (hworkers : 0 < workers)
    (hstop : ∀ i, i < workers → w.thread i = .stopped) (k : Nat) :
    times w.history k = slot 0 countItems k := by
  have htotal : total workers (Pc.todo k) w.thread = 0 :=
    total_eq_zero fun i hi => by rw [hstop i hi]; rfl
  have hbalance := hw.balance k
  rw [htotal, Nat.add_zero, min_eq_right (hw.past 0 (hstop 0 hworkers))] at hbalance
  exact hbalance

/-- The threads perform the workload once if and only if the count is its length. -/
theorem threads_once_iff {items : List WorkloadTuple} {countItems batchSize workers : Nat}
    (hcount : countItems ≤ items.length) (hbatch : 0 < batchSize) (hworkers : 0 < workers) :
    ExecutesOnce (executeIteration items countItems batchSize) threadsStart workers (· = .stopped)
      items ↔ countItems = items.length := by
  have hwinds := threads_wind workers hcount hbatch
  have hstart := threadsInv_start items countItems workers
  constructor
  · intro h
    -- some run ends, and its calls are the counted elements only
    rcases hwinds.exists_stopped hstart .start with ⟨w, hw, hstop⟩
    have htimes := (hwinds.invariant hstart hw).times_eq hworkers hstop
    by_contra hne
    have hlt : countItems < items.length := lt_of_le_of_ne hcount hne
    have hmem : (countItems, items[countItems].op) ∈ performed w.history := by
      rw [(h.once w hw hstop).mem_iff, mem_calls]
      exact ⟨_, List.getElem?_eq_getElem hlt, rfl⟩
    have hpos : 0 < times w.history countItems := by
      rw [times, List.count_pos_iff]
      exact List.mem_map_of_mem hmem
    rw [htimes, slot, if_neg (by omega)] at hpos
    exact absurd hpos (Nat.lt_irrefl 0)
  · rintro rfl
    refine ⟨fun w hw => (hwinds.invariant hstart hw).inRange, fun w hw hstop => ?_, ?_, ?_⟩
    · have hinv := hwinds.invariant hstart hw
      exact perm_calls (hinv.times_eq hworkers hstop) hinv.own
    · exact ⟨_, fun l w hrun => hwinds.length_le hstart hrun⟩
    · exact fun w hw hsome => hwinds.progress w (hwinds.invariant hstart hw) hsome

/-! ## Tasks perform every element -/

/-- The children of a batch task that have not run. -/
def childrenOf (cs : List Child) (self : Nat) : Nat := cs.countP fun c => c.parent = self

/-- One for an index with a child that has not run. -/
def pending (cs : List Child) (k : Nat) : Nat := (cs.map Child.index).count k

namespace TaskPc

def todo (k : Nat) : TaskPc → Nat
  | spawn j i n => slot (j + i) (j + n) k
  | _ => 0

/-- The references that are not those of children. -/
def owed : TaskPc → Nat
  | spawn _ i n => n - i + 1
  | waitForAll => 1
  | _ => 0

def Within (count : Nat) : TaskPc → Prop
  | spawn j _ n => j + n ≤ count
  | _ => True

def remaining : TaskPc → Nat
  | execute => 1
  | spawn _ i n => 2 * (n - i) + 3
  | waitForAll => 2
  | finished => 0

end TaskPc

def Task.todo (k : Nat) (t : Task) : Nat := t.pc.todo k

def Task.remaining (t : Task) : Nat := t.pc.remaining

structure TaskAssert (s : Pool) (count i : Nat) (t : Task) : Prop where
  self_eq : t.self = i
  ref : s.refCount i = t.pc.owed + childrenOf s.children i
  idle : t.pc.owed = 0 → childrenOf s.children i = 0
  within : t.pc.Within count
  past : t.pc = .finished → count ≤ s.workloadIndex

structure TasksInv (items : List WorkloadTuple) (workers : Nat) (w : World Nat Pool Task Event) :
    Prop where
  balance : ∀ k, times w.history k + pending w.shared.children k +
    total workers (Task.todo k) w.thread = slot 0 (min w.shared.workloadIndex items.length) k
  own : ∀ c ∈ performed w.history, c ∈ calls items
  children : ∀ c ∈ w.shared.children, c.parent < workers ∧ (c.index, c.op) ∈ calls items
  inRange : ∀ i k, (i, .outOfRange k) ∉ w.history
  task : ∀ i, TaskAssert w.shared items.length i (w.thread i)

def tasksMeasure (count workers : Nat) (w : World Nat Pool Task Event) : Nat :=
  5 * (count - w.shared.workloadIndex) + w.shared.children.length +
    total workers Task.remaining w.thread

theorem tasksInv_start (items : List WorkloadTuple) (workers : Nat) :
    TasksInv items workers tasksStart where
  balance := by
    intro k
    have htotal : total workers (Task.todo k) tasksStart.thread = 0 :=
      total_eq_zero fun _ _ => rfl
    have hslot : slot 0 (min tasksStart.shared.workloadIndex items.length) k = 0 :=
      slot_empty (Nat.zero_min items.length).le k
    rw [htotal, hslot]
    rfl
  own := by simp [tasksStart, performed]
  children := by simp [tasksStart]
  inRange := by simp [tasksStart]
  task := fun i => ⟨rfl, rfl, fun _ => rfl, trivial, by simp [tasksStart]⟩

/-- The pool stands as it is for the other tasks. -/
theorem TaskAssert.keeps {s s' : Pool} {count i : Nat} {t : Task} (h : TaskAssert s count i t)
    (href : s'.refCount i = s.refCount i)
    (hchildren : childrenOf s'.children i = childrenOf s.children i)
    (hle : s.workloadIndex ≤ s'.workloadIndex) : TaskAssert s' count i t where
  self_eq := h.self_eq
  ref := by rw [href, hchildren, h.ref]
  idle := by
    rw [hchildren]
    exact h.idle
  within := h.within
  past := fun hp => (h.past hp).trans hle

/-- A step of batch task `i` keeps the accounts. -/
theorem TasksInv.move {items : List WorkloadTuple} {workers : Nat} {w : World Nat Pool Task Event}
    (hw : TasksInv items workers w) {i : Nat} {s : Pool} {x : Task} (hi : i < workers)
    (hbalance : ∀ k, pending s.children k + x.pc.todo k +
        slot 0 (min w.shared.workloadIndex items.length) k =
      pending w.shared.children k + (w.thread i).pc.todo k + slot 0 (min s.workloadIndex items.length) k)
    (hchildren : ∀ c ∈ s.children, c.parent < workers ∧ (c.index, c.op) ∈ calls items)
    (hx : TaskAssert s items.length i x)
    (hothers : ∀ j, j ≠ i → s.refCount j = w.shared.refCount j ∧
      childrenOf s.children j = childrenOf w.shared.children j)
    (hle : w.shared.workloadIndex ≤ s.workloadIndex) :
    TasksInv items workers ⟨s, Function.update w.thread i x, w.history⟩ where
  balance := by
    intro k
    have htotal := total_update (Task.todo k) w.thread x hi
    have hold := hw.balance k
    have hnew := hbalance k
    simp only [Task.todo] at htotal
    dsimp only
    omega
  own := hw.own
  children := hchildren
  inRange := hw.inRange
  task := by
    refine forall_update (A := fun j (t : Task) => TaskAssert s items.length j t) hx fun j hj => ?_
    exact (hw.task j).keeps (hothers j hj).1 (hothers j hj).2 hle

theorem childrenOf_append (cs : List Child) (c : Child) (j : Nat) :
    childrenOf (cs ++ [c]) j = childrenOf cs j + if c.parent = j then 1 else 0 := by
  rw [childrenOf, List.countP_append, childrenOf, List.countP_singleton]
  simp

theorem pending_append (cs : List Child) (c : Child) (k : Nat) :
    pending (cs ++ [c]) k = pending cs k + if k = c.index then 1 else 0 := by
  rw [pending, List.map_append, List.count_append, pending, List.map_singleton, List.count_singleton]
  by_cases hk : k = c.index
  · simp [hk]
  · simp [hk, Ne.symm hk]

/-- A child runs. -/
theorem tasks_child {items : List WorkloadTuple} {workers : Nat} {w : World Nat Pool Task Event}
    (hw : TasksInv items workers w) (i : Nat) {position : Nat} {c : Child}
    (hc : w.shared.children[position]? = some c) :
    TasksInv items workers
      ⟨{ w.shared with
          refCount := Function.update w.shared.refCount c.parent (w.shared.refCount c.parent - 1)
          children := w.shared.children.eraseIdx position },
        w.thread, (i, .performed c.index c.op) :: w.history⟩ := by
  rcases List.getElem?_eq_some_iff.mp hc with ⟨hlt, hget⟩
  have hperm := List.getElem_cons_eraseIdx_perm hlt
  rw [hget] at hperm
  have hmem : c ∈ w.shared.children := hperm.mem_iff.mp (List.mem_cons_self ..)
  have hpending : ∀ k, pending w.shared.children k =
      pending (w.shared.children.eraseIdx position) k + if k = c.index then 1 else 0 := by
    intro k
    rw [← pending_append, pending, pending]
    refine List.Perm.count_eq (List.Perm.map _ ?_) k
    exact hperm.symm.trans (List.perm_append_singleton c _).symm
  have hchildren : ∀ j, childrenOf w.shared.children j =
      childrenOf (w.shared.children.eraseIdx position) j + if c.parent = j then 1 else 0 := by
    intro j
    rw [← childrenOf_append]
    exact List.Perm.countP_eq _ (hperm.symm.trans (List.perm_append_singleton c _).symm)
  refine ⟨fun k => ?_, fun d hd => ?_, fun d hd => ?_, fun j k hd => ?_, fun j => ?_⟩
  · have hold := hw.balance k
    have htimes := times_performed i c.op w.history c.index k
    have hnew := hpending k
    dsimp only
    omega
  · rcases List.mem_cons.mp hd with rfl | hd
    · exact (hw.children c hmem).2
    · exact hw.own d hd
  · exact hw.children d (List.mem_of_mem_eraseIdx hd)
  · rcases List.mem_cons.mp hd with hd | hd
    · simp at hd
    · exact hw.inRange j k hd
  · have hold := hw.task j
    have hcount := hchildren j
    by_cases hj : c.parent = j
    · rw [if_pos hj] at hcount
      refine ⟨hold.self_eq, ?_, fun howed => ?_, hold.within, hold.past⟩
      · have href := hold.ref
        show Function.update w.shared.refCount c.parent (w.shared.refCount c.parent - 1) j = _
        rw [hj, Function.update_self]
        dsimp only
        omega
      · have hidle := hold.idle howed
        dsimp only
        omega
    · rw [if_neg hj] at hcount
      refine hold.keeps ?_ ?_ le_rfl
      · exact Function.update_of_ne (Ne.symm hj) _ _
      · dsimp only
        omega

/-- A batch task goes on. -/
theorem tasks_go {items : List WorkloadTuple} {batchSize workers : Nat} (hbatch : 0 < batchSize)
    {w w' : World Nat Pool Task Event} {i : Nat} (hw : TasksInv items workers w) (hi : i < workers)
    (hs : step (batchTask items batchSize) w i .go = some w') :
    TasksInv items workers w' ∧
      tasksMeasure items.length workers w' < tasksMeasure items.length workers w := by
  rcases step_eq_some hs with ⟨s, x, e, hn, rfl⟩
  have hremaining := total_update Task.remaining w.thread x hi
  have ht := hw.task i
  unfold tasksMeasure
  rcases hpc : w.thread i with ⟨self, pc⟩
  rw [hpc] at hn ht hremaining
  obtain rfl : self = i := ht.self_eq
  have href := ht.ref
  have hidle := ht.idle
  cases pc with
  | finished => simp [batchTask] at hn
  | execute =>
      simp only [batchTask] at hn
      split at hn <;> simp only [Option.some.injEq, Prod.mk.injEq] at hn <;>
        rcases hn with ⟨rfl, rfl, rfl⟩
      next hge =>
        refine ⟨hw.move hi (fun k => ?_) hw.children ?_ (fun j _ => ⟨rfl, rfl⟩) (Nat.le_add_right _ _),
          ?_⟩
        · rw [hpc, min_eq_right hge, min_eq_right (hge.trans (Nat.le_add_right _ _))]
          rfl
        · exact ⟨rfl, href, hidle, trivial, fun _ => hge.trans (Nat.le_add_right _ _)⟩
        · simp only [Task.remaining, TaskPc.remaining] at hremaining
          dsimp only
          omega
      next hlt =>
        refine ⟨hw.move hi (fun k => ?_) hw.children ?_ (fun j hj => ⟨?_, rfl⟩) (Nat.le_add_right _ _),
          ?_⟩
        · have hmin : min (w.shared.workloadIndex + batchSize) items.length =
              w.shared.workloadIndex + min batchSize (items.length - w.shared.workloadIndex) := by omega
          have hsplit := slot_append (Nat.zero_le w.shared.workloadIndex) (Nat.le_add_right
            w.shared.workloadIndex (min batchSize (items.length - w.shared.workloadIndex))) k
          rw [hpc, hmin, min_eq_left (show w.shared.workloadIndex ≤ items.length by omega)]
          simp only [TaskPc.todo, Nat.add_zero]
          omega
        · refine ⟨rfl, ?_, by simp [TaskPc.owed], ?_, by simp⟩
          · show Function.update w.shared.refCount self _ self = _
            rw [Function.update_self, href]
            simp only [TaskPc.owed]
            omega
          · show w.shared.workloadIndex + min batchSize (items.length - w.shared.workloadIndex) ≤ _
            omega
        · exact Function.update_of_ne hj _ _
        · simp only [Task.remaining, TaskPc.remaining] at hremaining
          dsimp only
          omega
  | spawn j n m =>
      have hwithin : j + m ≤ items.length := ht.within
      simp only [batchTask] at hn
      split at hn
      next hlt =>
        have hget : items[j + n]? = some items[j + n] := List.getElem?_eq_getElem (by omega)
        rw [hget] at hn
        simp only [Option.some.injEq, Prod.mk.injEq] at hn
        rcases hn with ⟨rfl, rfl, rfl⟩
        refine ⟨hw.move hi (fun k => ?_) (fun c hc => ?_) ?_ (fun q hq => ⟨rfl, ?_⟩) le_rfl, ?_⟩
        · have hfirst := slot_first (show j + n < j + m by omega) k
          have happend := pending_append w.shared.children ⟨self, j + n, items[j + n].op⟩ k
          rw [hpc]
          simp only [TaskPc.todo, ← Nat.add_assoc]
          dsimp only at happend
          omega
        · rcases List.mem_append.mp hc with hc | hc
          · exact hw.children c hc
          · rw [List.mem_singleton.mp hc]
            exact ⟨hi, mem_calls.mpr ⟨_, hget, rfl⟩⟩
        · refine ⟨rfl, ?_, by simp [TaskPc.owed], hwithin, by simp⟩
          have happend := childrenOf_append w.shared.children ⟨self, j + n, items[j + n].op⟩ self
          simp only [TaskPc.owed, if_true] at href happend ⊢
          omega
        · rw [childrenOf_append]
          simp [Ne.symm hq]
        · simp only [Task.remaining, TaskPc.remaining] at hremaining
          simp only [List.length_append, List.length_singleton]
          omega
      next hge =>
        simp only [Option.some.injEq, Prod.mk.injEq] at hn
        rcases hn with ⟨rfl, rfl, rfl⟩
        refine ⟨hw.move hi (fun k => ?_) hw.children ?_ (fun _ _ => ⟨rfl, rfl⟩) le_rfl, ?_⟩
        · rw [hpc]
          simp only [TaskPc.todo, slot_empty (show j + m ≤ j + n by omega)]
        · refine ⟨rfl, ?_, by simp [TaskPc.owed], trivial, by simp⟩
          simp only [TaskPc.owed] at href ⊢
          omega
        · simp only [Task.remaining, TaskPc.remaining] at hremaining
          dsimp only
          omega
  | waitForAll =>
      simp only [batchTask] at hn
      split at hn
      next hone =>
        simp only [Option.some.injEq, Prod.mk.injEq] at hn
        rcases hn with ⟨rfl, rfl, rfl⟩
        simp only [TaskPc.owed] at href
        refine ⟨hw.move hi (fun k => ?_) hw.children ?_ (fun q hq => ⟨?_, rfl⟩) le_rfl, ?_⟩
        · rw [hpc]
          rfl
        · refine ⟨rfl, ?_, fun _ => ?_, trivial, by simp⟩
          · show Function.update w.shared.refCount self 0 self = _
            rw [Function.update_self]
            simp only [TaskPc.owed]
            omega
          · dsimp only
            omega
        · exact Function.update_of_ne hq _ _
        · simp only [Task.remaining, TaskPc.remaining] at hremaining
          dsimp only
          omega
      · simp at hn

theorem tasks_step {items : List WorkloadTuple} {batchSize workers : Nat} (hbatch : 0 < batchSize)
    {w w' : World Nat Pool Task Event} {i : Nat} {a : Act} (hw : TasksInv items workers w)
    (hi : i < workers) (hs : step (batchTask items batchSize) w i a = some w') :
    TasksInv items workers w' ∧
      tasksMeasure items.length workers w' < tasksMeasure items.length workers w := by
  cases a with
  | go => exact tasks_go hbatch hw hi hs
  | child position =>
      rcases step_eq_some hs with ⟨s, x, e, hn, rfl⟩
      cases hc : w.shared.children[position]? with
      | none => simp [batchTask, hc] at hn
      | some c =>
          simp only [batchTask, hc, Option.some.injEq, Prod.mk.injEq] at hn
          rcases hn with ⟨rfl, rfl, rfl⟩
          rw [Function.update_eq_self]
          refine ⟨tasks_child hw i hc, ?_⟩
          rcases List.getElem?_eq_some_iff.mp hc with ⟨hlt, _⟩
          have hlength := List.length_eraseIdx_add_one hlt
          unfold tasksMeasure
          dsimp only
          omega

theorem tasks_wind (items : List WorkloadTuple) {batchSize : Nat} (workers : Nat)
    (hbatch : 0 < batchSize) :
    Winds (batchTask items batchSize) workers (TasksInv items workers)
      (tasksMeasure items.length workers) (·.pc = .finished) where
  step := fun _ _ _ _ hw hi hs => tasks_step hbatch hw hi hs
  progress := by
    rintro w hw ⟨i, hi, hstop⟩
    have ht := hw.task i
    have hmove : ∃ a r, batchTask items batchSize w.shared (w.thread i) a = some r := by
      rcases hpc : w.thread i with ⟨self, pc⟩
      rw [hpc] at ht hstop
      obtain rfl : self = i := ht.self_eq
      cases pc with
      | finished => exact absurd rfl hstop
      | execute =>
          refine ⟨.go, ?_⟩
          simp only [batchTask]
          split <;> exact ⟨_, rfl⟩
      | spawn j n m =>
          refine ⟨.go, ?_⟩
          simp only [batchTask]
          split
          · split <;> exact ⟨_, rfl⟩
          · exact ⟨_, rfl⟩
      | waitForAll =>
          by_cases hone : w.shared.refCount self = 1
          · refine ⟨.go, ?_⟩
            simp only [batchTask, if_pos hone]
            exact ⟨_, rfl⟩
          · -- the task waits for a child, which can run
            have href := ht.ref
            simp only [TaskPc.owed] at href
            cases hc : w.shared.children with
            | nil =>
                rw [hc] at href
                exact absurd href hone
            | cons c cs =>
                refine ⟨.child 0, ?_⟩
                simp only [batchTask, hc, List.getElem?_cons_zero]
                exact ⟨_, rfl⟩
    rcases hmove with ⟨a, r, hr⟩
    rcases exists_step hr with ⟨w', hs⟩
    exact ⟨i, a, w', hi, hs⟩

/-- The tasks perform the workload once. -/
theorem tasks_once (items : List WorkloadTuple) {batchSize workers : Nat} (hbatch : 0 < batchSize)
    (hworkers : 0 < workers) :
    ExecutesOnce (batchTask items batchSize) tasksStart workers (·.pc = .finished) items := by
  have hwinds := tasks_wind items workers hbatch
  have hstart := tasksInv_start items workers
  refine ⟨fun w hw => (hwinds.invariant hstart hw).inRange, fun w hw hstop => ?_, ?_, ?_⟩
  · have hinv := hwinds.invariant hstart hw
    refine perm_calls (fun k => ?_) hinv.own
    have htotal : total workers (Task.todo k) w.thread = 0 := by
      refine total_eq_zero fun i hi => ?_
      rw [Task.todo, hstop i hi]
      rfl
    -- no task has finished before its children
    have hchildren : w.shared.children = [] := by
      refine List.eq_nil_iff_forall_not_mem.mpr fun c hc => ?_
      have hparent := (hinv.children c hc).1
      have hnone := (hinv.task c.parent).idle (by rw [hstop _ hparent]; rfl)
      rw [childrenOf, List.countP_eq_zero] at hnone
      exact hnone c hc (by simp)
    have hpast := (hinv.task 0).past (hstop 0 hworkers)
    have hbalance := hinv.balance k
    rw [htotal, hchildren, min_eq_right hpast] at hbalance
    exact hbalance
  · exact ⟨_, fun l w hrun => hwinds.length_le hstart hrun⟩
  · exact fun w hw hsome => hwinds.progress w (hwinds.invariant hstart hw) hsome

/-! ## Loaded workloads -/

/-- A line whose operation and key are supported. -/
def Line.Supported (l : Line) : Prop :=
  l.command.operation?.isSome = true ∧ l.key.value < 2 ^ 64

/-- The workload of two files in one of its phases. -/
def loaded (rand : Nat → Value) (phase : Phase) (fill mixed : List Line) : Workload :=
  { Workload.create.load rand (render fill) (render mixed) with phase := phase }

theorem loaded_agrees (rand : Nat → Value) (phase : Phase) {fill mixed : List Line}
    (hfill : ∀ l ∈ fill, l.Supported) (hmixed : ∀ l ∈ mixed, l.Supported) :
    Agrees (loaded rand phase fill mixed) fill mixed := by
  have h := load_render rand fill mixed (fun l hl => (hfill l hl).2) fun l hl => (hmixed l hl).2
  rw [supported_eq_self fun l hl => (hfill l hl).1,
    supported_eq_self fun l hl => (hmixed l hl).1] at h
  exact ⟨h.fillTuples, h.mixedTuples, h.fillInserts, h.inserts, h.lookups, h.updates⟩

/-- The operations of the lines. -/
def operations (lines : List Line) : List Operation := lines.filterMap fun l => l.command.operation?

theorem length_tuples {tuples : List WorkloadTuple} {lines : List Line}
    (h : tuples.map WorkloadTuple.call = lines.filterMap Line.tuple?) :
    tuples.length = (operations lines).length := by
  have hoperations : tuples.map WorkloadTuple.operation = operations lines := by
    have hfst := congrArg (List.map Prod.fst) h
    rw [List.map_map, List.map_filterMap] at hfst
    refine Eq.trans hfst (List.filterMap_congr fun l _ => ?_)
    cases hl : l.command.operation? <;> simp [Line.tuple?, hl]
  rw [← hoperations, List.length_map]

theorem count_operations (l : List Operation) :
    l.count .lookup + l.count .insert + l.count .update = l.length := by
  induction l with
  | nil => rfl
  | cons o l ih =>
      cases o <;> simp <;> omega

/-- Only in the fill phase there can be fewer counted elements, behind a line that is no insert. -/
theorem countCurrentPhase_iff (rand : Nat → Value) (phase : Phase) {fill mixed : List Line}
    (hfill : ∀ l ∈ fill, l.Supported) (hmixed : ∀ l ∈ mixed, l.Supported) :
    (loaded rand phase fill mixed).countCurrentPhase ≤
        (loaded rand phase fill mixed).currentWorkload.length ∧
      ((loaded rand phase fill mixed).countCurrentPhase =
        (loaded rand phase fill mixed).currentWorkload.length ↔
        (phase = .fill → ∀ l ∈ fill, l.command.isInsert = true)) := by
  have h := loaded_agrees rand phase hfill hmixed
  cases phase with
  | benchmark =>
      have hcount : (loaded rand .benchmark fill mixed).countCurrentPhase =
          (loaded rand .benchmark fill mixed).currentWorkload.length := by
        rw [Workload.currentWorkload, Workload.countCurrentPhase]
        show Workload.countBenchmarkWorkload _ = List.length (Workload.workloadPhaseTuples _)
        rw [Workload.countBenchmarkWorkload, h.lookups, h.inserts, h.updates,
          length_tuples h.mixedTuples]
        exact count_operations _
      exact ⟨hcount.le, iff_of_true hcount (by simp)⟩
  | fill =>
      have hcount : (loaded rand .fill fill mixed).countCurrentPhase =
          (operations fill).count .insert := h.fillInserts
      have hlength : (loaded rand .fill fill mixed).currentWorkload.length =
          (operations fill).length := length_tuples h.fillTuples
      rw [hcount, hlength]
      refine ⟨List.count_le_length, ?_⟩
      rw [List.count_eq_length]
      constructor
      · intro hall _ l hl
        rcases Option.isSome_iff_exists.mp (hfill l hl).1 with ⟨o, ho⟩
        have hinsert := hall o (List.mem_filterMap.mpr ⟨l, hl, ho⟩)
        rw [← hinsert] at ho
        rcases l with ⟨c, key⟩
        cases c with
        | insert => rfl
        | _ => simp [Command.operation?] at ho
      · intro hall o ho
        rcases List.mem_filterMap.mp ho with ⟨l, hl, hop⟩
        rw [Command.eq_insert (hall rfl l hl)] at hop
        exact Option.some.inj hop

/-- Both drivers perform a loaded workload once if and only if it is not the fill phase of a
file with other lines than inserts. -/
theorem executes_once_iff (rand : Nat → Value) (phase : Phase) (fill mixed : List Line)
    (hfill : ∀ l ∈ fill, l.Supported) (hmixed : ∀ l ∈ mixed, l.Supported) (batchSize workers : Nat)
    (hbatch : 1 ≤ batchSize) (hworkers : 1 ≤ workers) :
    (ExecutesOnce (executeIteration (loaded rand phase fill mixed).currentWorkload
        (loaded rand phase fill mixed).countCurrentPhase batchSize) threadsStart workers
        (· = .stopped) (loaded rand phase fill mixed).currentWorkload ∧
      ExecutesOnce (batchTask (loaded rand phase fill mixed).currentWorkload batchSize) tasksStart
        workers (·.pc = .finished) (loaded rand phase fill mixed).currentWorkload) ↔
      (phase = .fill → ∀ l ∈ fill, l.command.isInsert = true) := by
  rcases countCurrentPhase_iff rand phase hfill hmixed with ⟨hle, hiff⟩
  rw [← hiff, threads_once_iff hle hbatch hworkers]
  exact and_iff_left (tasks_once _ hbatch hworkers)

/-- The fill file has five keys, and the mixed file uses two of them. -/
def fiveKeys : Workload :=
  loaded (fun _ => 0) .fill ([1, 2, 3, 4, 5].map fun k => ⟨.insert, .ofNat k⟩)
    [⟨.read, .ofNat 1⟩, ⟨.update, .ofNat 2⟩]

/-- Three workers share the five keys in batches of two, the last batch has one. -/
theorem executes_once_iff_five_keys :
    fiveKeys.currentWorkload.length = 5 ∧
    ExecutesOnce (executeIteration fiveKeys.currentWorkload fiveKeys.countCurrentPhase 2)
      threadsStart 3 (· = .stopped) fiveKeys.currentWorkload ∧
    ExecutesOnce (batchTask fiveKeys.currentWorkload 2) tasksStart 3 (·.pc = .finished)
      fiveKeys.currentWorkload := by
  refine ⟨by decide, (executes_once_iff (fun _ => 0) .fill
    ([1, 2, 3, 4, 5].map fun k => ⟨.insert, .ofNat k⟩) [⟨.read, .ofNat 1⟩, ⟨.update, .ofNat 2⟩]
    ?_ ?_ 2 3 (by decide) (by decide)).mpr ?_⟩
  · simp [Line.Supported, Command.operation?]
  · simp [Line.Supported, Command.operation?]
  · simp [Command.isInsert]

/-- The fill file also reads a key. -/
def insertReadInsert : Workload :=
  loaded (fun _ => 0) .fill [⟨.insert, .ofNat 1⟩, ⟨.read, .ofNat 1⟩, ⟨.insert, .ofNat 2⟩] []

/-- Two elements are counted, and the threads leave out the third one. -/
theorem last_insert_left_out :
    ¬ ExecutesOnce (executeIteration insertReadInsert.currentWorkload
      insertReadInsert.countCurrentPhase 1) threadsStart 1 (· = .stopped)
      insertReadInsert.currentWorkload := by
  rw [threads_once_iff (by decide) (by decide) (by decide)]
  decide

end BLinkTree.Benchmark
