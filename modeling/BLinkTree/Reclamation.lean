import BLinkTree.MPSCQueue

/-! # Rounds of the epoch thread

`reclaim_epoch_garbage` and `stop` of `epoch_manager.cpp` on the garbage queue, while no other
thread pushes. The queue of `util/queue.h` that holds deferred nodes and the batch that
goes back use the same pointer `_next` of every node as the garbage queue. Freed memory may
hold anything: `junk` is what the pointer of a freed node becomes.
-/

namespace BLinkTree.MPSCQueue

open OpenChain

/-! ## Batches on the queue at rest -/

/-- `MPSCQueue::push_back(begin, end)`; with one item it is `push_back(item)`. -/
def pushBatch (s : Queue) (first last : Nat) : Queue where
  next := Function.update (Function.update s.next last none) s.head (some first)
  head := last
  tail := s.tail

/-- A batch that a thread pushes without another thread in between. -/
theorem pushBatch_eq (s : Queue) (b : Batch) :
    ∃ s₁ s₂ pc₁ pc₂ e, next s (.clearNext b) .go = some (s₁, pc₁, none) ∧
      next s₁ pc₁ .go = some (s₂, pc₂, e) ∧
      next s₂ pc₂ .go = some (pushBatch s b.first b.last, .idle, none) :=
  ⟨_, _, _, _, _, rfl, rfl, rfl⟩

variable {s : Queue} {live items : List Nat}

/-- Stores to nodes outside do not matter. -/
theorem Quiet.frame (h : Quiet s live) (next : Nat → Option Nat)
    (hnext : ∀ y ∈ live, next y = s.next y) : Quiet { s with next := next } live where
  chain := h.chain.frame hnext
  head_eq := h.head_eq
  tail_eq := h.tail_eq

/-- Linked nodes from outside come behind the nodes in the queue. -/
theorem Quiet.pushBatch (h : Quiet s live) {first last : Nat} (hfirst : items.head? = some first)
    (hlast : items.getLast? = some last) (hnodup : items.Nodup) (hdisj : ∀ y ∈ items, y ∉ live)
    (hlinked : ∀ y z, Adjacent y z items → s.next y = some z) :
    Quiet (MPSCQueue.pushBatch s first last) (live ++ items) := by
  have hne : items ≠ [] := List.ne_nil_of_mem (List.mem_of_mem_head? hfirst)
  -- the end of the batch is cleared first
  have hclear : Quiet { s with next := Function.update s.next last none } live := by
    refine h.frame _ fun y hy => Function.update_of_ne ?_ _ _
    rintro rfl
    exact hdisj y (List.mem_of_mem_getLast? hlast) hy
  have hlinked' : ∀ y z, Adjacent y z items → Function.update s.next last none y = some z := by
    intro y z hyz
    have hyl : y ≠ last := by
      rintro rfl
      exact hyz.ne_last hnodup hlast
    rw [Function.update_of_ne hyl]
    exact hlinked y z hyz
  have hopen := hclear.chain.append 0 h.head_eq hne hnodup hdisj hlinked' fun y hy => by
    obtain rfl : last = y := Option.some.inj (hlast.symm.trans hy)
    exact Function.update_self ..
  have hadj : Adjacent s.head first (live ++ items) :=
    adjacent_append.mpr (Or.inr (Or.inl ⟨h.head_eq, hfirst⟩))
  have hfill := hopen.fill (by simp) hadj
  rw [Function.update_idem, Function.update_eq_self] at hfill
  refine ⟨hfill, ?_, ?_⟩
  · rw [List.getLast?_append_of_ne_nil _ hne]
    exact hlast
  · rw [List.head?_append, h.tail_eq]
    rfl

end BLinkTree.MPSCQueue

namespace BLinkTree.Reclamation

open Interleaving OpenChain MPSCQueue

/-! ## The code -/

/-- `util::Queue`; the pointers `_next` are in the nodes. -/
structure LocalQueue where
  head : Option Nat
  tail : Option Nat

namespace LocalQueue

def create : LocalQueue := ⟨none, none⟩

/-- `Queue::push_back`. -/
def pushBack (q : LocalQueue) (next : Nat → Option Nat) (item : Nat) :
    LocalQueue × (Nat → Option Nat) :=
  let next := Function.update next item none
  match q.tail with
  | some tail => (⟨q.head, some item⟩, Function.update next tail (some item))
  | none => (⟨some item, some item⟩, next)

end LocalQueue

/-- What a round reads: `_count_threads`, the local epochs as `min_local_epoch` loads them, and
`remove_epoch` of every node. -/
structure Round where
  countThreads : Nat
  localEpoch : Nat → Nat
  removeEpoch : Nat → Nat
  countThreads_pos : 0 < countThreads

/-- `EpochManager::min_local_epoch`. -/
def Round.minLocalEpoch (r : Round) : Nat :=
  (List.range' 1 (r.countThreads - 1)).foldl (fun minEpoch i => min minEpoch (r.localEpoch i))
    (r.localEpoch 0)

/-- `std::free`. -/
def free (junk : Nat → Option Nat) (s : Queue) (garbage : Nat) : Queue :=
  { s with next := Function.update s.next garbage (junk garbage) }

/-- The loop of `reclaim_epoch_garbage`; the last component lists the freed nodes. -/
def reclaimLoop (junk : Nat → Option Nat) (r : Round) :
    Nat → Queue → LocalQueue → List Nat → Option (Queue × LocalQueue × List Nat)
  | 0, _, _, _ => none
  | fuel + 1, s, deferred, freed =>
      match popFront 10 s .loadTail with
      | none => none
      | some (s, none) => some (s, deferred, freed)
      | some (s, some garbage) =>
          if r.removeEpoch garbage < r.minLocalEpoch then
            reclaimLoop junk r fuel (free junk s garbage) deferred (freed ++ [garbage])
          else
            let (deferred, next) := deferred.pushBack s.next garbage
            reclaimLoop junk r fuel { s with next := next } deferred freed

/-- `EpochManager::reclaim_epoch_garbage`. -/
def reclaimEpochGarbage (junk : Nat → Option Nat) (fuel : Nat) (r : Round) (s : Queue) :
    Option (Queue × List Nat) :=
  match reclaimLoop junk r fuel s .create [] with
  | none => none
  | some (s, ⟨none, _⟩, freed) => some (s, freed)
  | some (s, ⟨some first, some last⟩, freed) => some (pushBatch s first last, freed)
  | some (_, ⟨some _, none⟩, _) => none

/-- The loop at the end of `EpochManager::stop`. -/
def stop (junk : Nat → Option Nat) : Nat → Queue → List Nat → Option (Queue × List Nat)
  | 0, _, _ => none
  | fuel + 1, s, freed =>
      match popFront 10 s .loadTail with
      | none => none
      | some (s, none) => some (s, freed)
      | some (s, some garbage) => stop junk fuel (free junk s garbage) (freed ++ [garbage])

/-! ## The queues as lists -/

/-- The garbage queue at rest with these items. -/
def Holds (s : Queue) (items : List Nat) : Prop :=
  ∃ live, Quiet s live ∧ live.filter (· ≠ stub) = items

/-- The local queue has these nodes. -/
structure Deferred (q : LocalQueue) (next : Nat → Option Nat) (items : List Nat) : Prop where
  head_eq : q.head = items.head?
  tail_eq : q.tail = items.getLast?
  nodup : items.Nodup
  linked : ∀ x y, Adjacent x y items → next x = some y

variable {s s' : Queue} {live live' items : List Nat} {q : LocalQueue} {x : Nat}
  {junk : Nat → Option Nat} {r : Round}

theorem Deferred.frame {next next' : Nat → Option Nat} (h : Deferred q next items)
    (hnext : ∀ y ∈ items, next' y = next y) : Deferred q next' items where
  head_eq := h.head_eq
  tail_eq := h.tail_eq
  nodup := h.nodup
  linked := by
    intro a b hab
    rw [hnext a hab.mem_left]
    exact h.linked a b hab

theorem Deferred.pushBack {next : Nat → Option Nat} (h : Deferred q next items) (hx : x ∉ items) :
    Deferred (q.pushBack next x).1 (q.pushBack next x).2 (items ++ [x]) := by
  have hnodup : (items ++ [x]).Nodup := by
    rw [List.nodup_append]
    refine ⟨h.nodup, List.nodup_singleton x, fun a ha b hb hab => hx ?_⟩
    rw [← List.mem_singleton.mp hb, ← hab]
    exact ha
  have hhead := h.head_eq
  have htail := h.tail_eq
  unfold LocalQueue.pushBack
  cases hlast : items.getLast? with
  | none =>
      obtain rfl : items = [] := List.getLast?_eq_none_iff.mp hlast
      rw [htail, hlast]
      exact ⟨rfl, rfl, hnodup, fun a b hab => by simp [Adjacent] at hab⟩
  | some last =>
      have hmem := List.mem_of_mem_getLast? hlast
      have hne : items ≠ [] := List.ne_nil_of_mem hmem
      rw [htail, hlast]
      refine ⟨?_, by simp, hnodup, fun a b hab => ?_⟩
      · rw [List.head?_append_of_ne_nil _ hne]
        exact hhead
      · rcases adjacent_append.mp hab with hab | ⟨ha, hb⟩ | hab
        · have h1 : a ≠ last := by
            rintro rfl
            exact hab.ne_last h.nodup hlast
          have h2 : a ≠ x := ne_of_mem_of_not_mem hab.mem_left hx
          show Function.update (Function.update next x none) last (some x) a = some b
          rw [Function.update_of_ne h1, Function.update_of_ne h2]
          exact h.linked a b hab
        · obtain rfl : last = a := Option.some.inj (hlast.symm.trans ha)
          rw [List.head?_cons, Option.some.injEq] at hb
          rw [← hb]
          exact Function.update_self ..
        · simp [Adjacent] at hab

/-- The pointers that `push_back` of the local queue stores. -/
theorem LocalQueue.pushBack_next (q : LocalQueue) (next : Nat → Option Nat) {y : Nat}
    (hx : y ≠ x) (ht : q.tail ≠ some y) : (q.pushBack next x).2 y = next y := by
  unfold LocalQueue.pushBack
  split
  next tail htail =>
    have hne : y ≠ tail := by
      rintro rfl
      exact ht htail
    show Function.update (Function.update next x none) tail (some x) y = next y
    rw [Function.update_of_ne hne, Function.update_of_ne hx]
  · exact Function.update_of_ne hx _ _

/-! ## One round -/

theorem Round.lt_foldl_min (r : Round) (l : List Nat) (m e : Nat) :
    e < l.foldl (fun minEpoch i => min minEpoch (r.localEpoch i)) m ↔
      e < m ∧ ∀ i ∈ l, e < r.localEpoch i := by
  induction l generalizing m with
  | nil => simp
  | cons i l ih =>
      rw [List.foldl_cons, ih, Nat.lt_min]
      simp [and_assoc]

/-- The epoch is before the local epochs of all threads. -/
theorem Round.lt_minLocalEpoch (r : Round) (e : Nat) :
    e < r.minLocalEpoch ↔ ∀ i < r.countThreads, e < r.localEpoch i := by
  have hpos := r.countThreads_pos
  rw [minLocalEpoch, r.lt_foldl_min]
  constructor
  · rintro ⟨h0, h⟩ i hi
    cases i with
    | zero => exact h0
    | succ i => exact h _ (List.mem_range'_1.mpr (by omega))
  · intro h
    refine ⟨h 0 hpos, fun i hi => h i ?_⟩
    have := List.mem_range'_1.mp hi
    omega

/-- The node was retired before the epochs of all threads. -/
def Round.expired (r : Round) (x : Nat) : Bool :=
  decide (∀ i < r.countThreads, r.removeEpoch x < r.localEpoch i)

theorem Round.expired_eq (r : Round) (x : Nat) :
    r.expired x = decide (r.removeEpoch x < r.minLocalEpoch) := by
  rw [expired, decide_eq_decide]
  exact (r.lt_minLocalEpoch _).symm

/-- Freed nodes are in neither queue. -/
theorem Quiet.free (junk : Nat → Option Nat) (h : Quiet s live) (hx : x ∉ live) :
    Quiet (free junk s x) live :=
  h.frame _ fun _ hy => Function.update_of_ne (ne_of_mem_of_not_mem hy hx) _ _

/-- The loop takes the items one by one; the local queue gets those that have not expired. -/
theorem reclaimLoop_spec (junk : Nat → Option Nat) (r : Round) {fuel : Nat} (hq : Quiet s live)
    (hd : Deferred q s.next items) (hdisj : ∀ y ∈ items, y ≠ stub ∧ y ∉ live)
    (hfuel : (live.filter (· ≠ stub)).length < fuel) (freed : List Nat) :
    ∃ s' q', reclaimLoop junk r fuel s q freed =
        some (s', q', freed ++ (live.filter (· ≠ stub)).filter r.expired) ∧
      Quiet s' [stub] ∧
      Deferred q' s'.next (items ++ (live.filter (· ≠ stub)).filter fun x => !r.expired x) ∧
      ∀ y ∈ items ++ (live.filter (· ≠ stub)).filter (fun x => !r.expired x), y ≠ stub := by
  induction fuel generalizing s live q items freed with
  | zero => exact absurd hfuel (by omega)
  | succ fuel ih =>
      unfold reclaimLoop
      rcases popFront_spec hq with ⟨rfl, hpop⟩ | ⟨x, rest, s', live', hx, hxl, hcons, hsub, hp, hpop⟩
      · rw [hpop]
        refine ⟨s, q, by simp, hq, by simpa using hd, fun y hy => ?_⟩
        exact (hdisj y (by simpa using hy)).1
      · rw [hpop]
        rw [hcons, List.length_cons, ← hp.items] at hfuel
        rw [hcons, ← hp.items]
        have hxi : x ∉ items := fun hc => (hdisj x hc).2 hxl
        have hdisj' : ∀ y ∈ items, y ≠ stub ∧ y ∉ live' := by
          intro y hy
          rcases hdisj y hy with ⟨h1, h2⟩
          refine ⟨h1, fun hc => ?_⟩
          rcases hp.sub y hc with hys | hyr
          · exact h1 hys
          · exact h2 (hsub y hyr)
        have hd' : Deferred q s'.next items := hd.frame fun y hy =>
          hp.frame y (hdisj y hy).1 (ne_of_mem_of_not_mem hy hxi)
        dsimp only
        have hexp := r.expired_eq x
        split
        next hlt =>
          rw [decide_eq_true hlt] at hexp
          have hfree : Deferred q (free junk s' x).next items := hd'.frame fun y hy =>
            Function.update_of_ne (ne_of_mem_of_not_mem hy hxi) _ _
          rcases ih (Quiet.free junk hp.quiet hp.notMem) hfree hdisj' (by omega) (freed ++ [x]) with
            ⟨s'', q'', hrun, hrest⟩
          refine ⟨s'', q'', ?_, ?_⟩
          · rw [hrun]
            simp [hexp]
          · simpa [hexp] using hrest
        next hge =>
          rw [decide_eq_false hge] at hexp
          have hpush := hd'.pushBack hxi
          -- the last deferred node is not in the garbage queue
          have htail : ∀ y ∈ live', q.tail ≠ some y := by
            intro y hy hc
            rw [hd.tail_eq] at hc
            exact (hdisj' y (List.mem_of_mem_getLast? hc)).2 hy
          have hquiet : Quiet { s' with next := (q.pushBack s'.next x).2 } live' :=
            hp.quiet.frame _ fun y hy =>
              q.pushBack_next s'.next (ne_of_mem_of_not_mem hy hp.notMem) (htail y hy)
          have hdisj'' : ∀ y ∈ items ++ [x], y ≠ stub ∧ y ∉ live' := by
            intro y hy
            rcases List.mem_append.mp hy with hy | hy
            · exact hdisj' y hy
            · rw [List.mem_singleton.mp hy]
              exact ⟨hx, hp.notMem⟩
          rcases ih hquiet hpush hdisj'' (by omega) freed with ⟨s'', q'', hrun, hrest⟩
          refine ⟨s'', q'', ?_, ?_⟩
          · rw [hrun]
            simp [hexp]
          · simpa [hexp] using hrest

theorem holds_of_batch (hq : Quiet s [stub]) (hd : Deferred q s.next items)
    (hitems : ∀ y ∈ items, y ≠ stub) {first last : Nat} (hfirst : q.head = some first)
    (hlast : q.tail = some last) : Holds (pushBatch s first last) items := by
  rw [hd.head_eq] at hfirst
  rw [hd.tail_eq] at hlast
  have hdisj : ∀ y ∈ items, y ∉ [stub] := by
    intro y hy
    rw [List.mem_singleton]
    exact hitems y hy
  refine ⟨_, hq.pushBatch hfirst hlast hd.nodup hdisj hd.linked, ?_⟩
  have hstub : [stub].filter (· ≠ stub) = [] := rfl
  rw [List.filter_append, hstub, List.nil_append, List.filter_eq_self]
  intro y hy
  exact decide_eq_true (hitems y hy)

/-- A round ends, frees the expired nodes and leaves the others in their order. -/
theorem reclaimEpochGarbage_spec (junk : Nat → Option Nat) (r : Round) {fuel : Nat}
    (hs : Holds s items) (hfuel : items.length < fuel) :
    ∃ s', reclaimEpochGarbage junk fuel r s = some (s', items.filter r.expired) ∧
      Holds s' (items.filter fun x => !r.expired x) := by
  rcases hs with ⟨live, hq, rfl⟩
  have hempty : Deferred .create s.next [] :=
    ⟨rfl, rfl, List.nodup_nil, fun x y hxy => hxy.elim⟩
  rcases reclaimLoop_spec junk r hq hempty (by simp) hfuel [] with ⟨s', q', hrun, hq', hd, hne⟩
  rw [List.nil_append] at hrun hd hne
  unfold reclaimEpochGarbage
  rw [hrun]
  rcases q' with ⟨head, tail⟩
  have hhead : head = _ := hd.head_eq
  have htail : tail = _ := hd.tail_eq
  cases hfirst : head with
  | none =>
      rw [hfirst] at hhead
      have hnil := List.head?_eq_none_iff.mp hhead.symm
      rw [hnil]
      exact ⟨s', rfl, [stub], hq', rfl⟩
  | some first =>
      cases hlast : tail with
      | none =>
          rw [hlast] at htail
          rw [List.getLast?_eq_none_iff.mp htail.symm, hfirst] at hhead
          cases hhead
      | some last => exact ⟨_, rfl, holds_of_batch hq' hd hne hfirst hlast⟩

/-- `stop` frees what is left. -/
theorem stop_spec (junk : Nat → Option Nat) {fuel : Nat} (hs : Holds s items)
    (hfuel : items.length < fuel) (freed : List Nat) :
    ∃ s', stop junk fuel s freed = some (s', freed ++ items) ∧ Holds s' [] := by
  induction fuel generalizing s items freed with
  | zero => omega
  | succ fuel ih =>
      rcases hs with ⟨live, hq, rfl⟩
      unfold stop
      rcases popFront_spec hq with ⟨rfl, hpop⟩ | ⟨x, rest, s', live', _, _, hcons, _, hp, hpop⟩
      · rw [hpop]
        exact ⟨s, by simp, [stub], hq, rfl⟩
      · rw [hcons, ← hp.items, List.length_cons] at hfuel
        rw [hpop, hcons, ← hp.items]
        rcases ih ⟨live', Quiet.free junk hp.quiet hp.notMem, rfl⟩ (by omega) (freed ++ [x]) with
          ⟨s'', hrun, hend⟩
        refine ⟨s'', ?_, hend⟩
        dsimp only
        rw [hrun, List.append_assoc]
        rfl

/-! ## Whole runs -/

/-- What happens to the garbage queue at rest. -/
inductive Op where
  | push (item : Nat)
  | round (r : Round)

/-- What an operation owes the items in the queue: those it leaves and those it frees. -/
def Op.apply : Op → List Nat → List Nat × List Nat
  | .push x, items => (items ++ [x], [])
  | .round r, items => (items.filter fun x => !r.expired x, items.filter r.expired)

def Op.run (junk : Nat → Option Nat) (fuel : Nat) : Op → Queue → Option (Queue × List Nat)
  | .push x, s => some (pushBatch s x x, [])
  | .round r, s => reclaimEpochGarbage junk fuel r s

/-- The items behind the operations and what the operations free. -/
def applyAll : List Op → List Nat → List Nat × List Nat
  | [], items => (items, [])
  | o :: ops, items =>
      let (items, freed) := o.apply items
      let (items, more) := applyAll ops items
      (items, freed ++ more)

def runAll (junk : Nat → Option Nat) (fuel : Nat) : List Op → Queue → Option (Queue × List Nat)
  | [], s => some (s, [])
  | o :: ops, s =>
      match o.run junk fuel s with
      | none => none
      | some (s, freed) => (runAll junk fuel ops s).map fun (s, more) => (s, freed ++ more)

/-- Only a node outside of the queue is pushed. -/
def Allowed : List Op → List Nat → Prop
  | [], _ => True
  | .push x :: ops, items => x ≠ stub ∧ x ∉ items ∧ Allowed ops (items ++ [x])
  | .round r :: ops, items => Allowed ops (items.filter fun x => !r.expired x)

/-- The pushed items. -/
def pushes : List Op → List Nat
  | [] => []
  | .push x :: ops => x :: pushes ops
  | .round _ :: ops => pushes ops

theorem holds_push (hs : Holds s items) (hx : x ≠ stub) (hmem : x ∉ items) :
    Holds (pushBatch s x x) (items ++ [x]) := by
  rcases hs with ⟨live, hq, rfl⟩
  have hlive : x ∉ live := fun hc => hmem (List.mem_filter.mpr ⟨hc, decide_eq_true hx⟩)
  have hdisj : ∀ y ∈ [x], y ∉ live := by
    intro y hy
    rw [List.mem_singleton.mp hy]
    exact hlive
  refine ⟨live ++ [x], hq.pushBatch rfl rfl (List.nodup_singleton x) hdisj ?_, ?_⟩
  · intro y z hyz
    simp [Adjacent] at hyz
  · have hone : [x].filter (· ≠ stub) = [x] := by simp [hx]
    rw [List.filter_append, hone]

/-- The pointers do what the operations owe the list of items. -/
theorem runAll_spec (junk : Nat → Option Nat) (ops : List Op) {fuel : Nat} (hs : Holds s items)
    (hops : Allowed ops items) (hfuel : items.length + ops.length < fuel) :
    ∃ s', runAll junk fuel ops s = some (s', (applyAll ops items).2) ∧
      Holds s' (applyAll ops items).1 := by
  induction ops generalizing s items with
  | nil => exact ⟨s, rfl, hs⟩
  | cons o ops ih =>
      rw [List.length_cons] at hfuel
      unfold runAll
      cases o with
      | push x =>
          rcases hops with ⟨hx, hmem, hrest⟩
          rcases ih (holds_push hs hx hmem) hrest (by simp; omega) with ⟨s', hrun, hend⟩
          refine ⟨s', ?_, hend⟩
          simp only [Op.run, hrun]
          rfl
      | round r =>
          rcases reclaimEpochGarbage_spec junk r hs (show items.length < fuel by omega) with
            ⟨s₁, hround, hs₁⟩
          have hlen : (items.filter fun x => !r.expired x).length + ops.length < fuel := by
            have hle := List.length_filter_le (fun x => !r.expired x) items
            omega
          rcases ih hs₁ hops hlen with ⟨s', hrun, hend⟩
          refine ⟨s', ?_, hend⟩
          simp only [Op.run, hround, hrun]
          rfl

/-- Every node is freed or still queued, as often as it was pushed. -/
theorem applyAll_perm (ops : List Op) (items : List Nat) :
    ((applyAll ops items).2 ++ (applyAll ops items).1).Perm (items ++ pushes ops) := by
  induction ops generalizing items with
  | nil => simp [applyAll, pushes]
  | cons o ops ih =>
      cases o with
      | push x =>
          have hrest := ih (items ++ [x])
          rw [List.append_assoc] at hrest
          exact hrest
      | round r =>
          have hrest := (ih (items.filter fun x => !r.expired x)).append_left (items.filter r.expired)
          have hsplit := (List.filter_append_perm r.expired items).append_right (pushes ops)
          rw [List.append_assoc] at hsplit
          show ((items.filter r.expired ++ (applyAll ops _).2) ++ (applyAll ops _).1).Perm _
          rw [List.append_assoc]
          exact hrest.trans hsplit

/-- The items that were pushed and not popped yet. -/
def queued (w : World) : List Nat := (pushed w.history).drop (results w.history).length

theorem holds_of_reachable {w : World} (hw : Reachable next MPSCQueue.Allowed init w)
    (hidle : ∀ i, i ≠ 0 → w.thread i = .idle) (hwait : w.thread 0 = .waiting) :
    Holds w.shared (queued w) := by
  rcases sound_of_reachable hw with ⟨g, hg⟩
  refine ⟨g.live, hg.quiet_of_rest hidle hwait, ?_⟩
  rw [queued, hg.shared.pushed_append, List.drop_left]

theorem Holds.nodup (hs : Holds s items) : items.Nodup := by
  rcases hs with ⟨live, hq, rfl⟩
  exact hq.chain.nodup.filter _

/-- From any state of the garbage queue at rest, which concurrent pushes and pops, and then
pushes and rounds, have reached, a round frees the expired nodes and keeps the others in
their order; whatever follows, `stop` frees what is left, so that every node is freed as
often as it was pushed. -/
theorem round_frees_expired (junk : Nat → Option Nat) (w : World)
    (hw : Reachable next MPSCQueue.Allowed init w) (hidle : ∀ i, i ≠ 0 → w.thread i = .idle)
    (hwait : w.thread 0 = .waiting) (earlier : List Op) (hearlier : Allowed earlier (queued w))
    (r : Round) (later : List Op)
    (hlater : Allowed later ((applyAll earlier (queued w)).1.filter fun x => !r.expired x)) :
    let items := (applyAll earlier (queued w)).1
    ∃ fuel s₁ s₂ s₃ s₄ freed₁ freed₃ freed₄,
      runAll junk fuel earlier w.shared = some (s₁, freed₁) ∧ Holds s₁ items ∧ items.Nodup ∧
      reclaimEpochGarbage junk fuel r s₁ = some (s₂, items.filter r.expired) ∧
      Holds s₂ (items.filter fun x => !r.expired x) ∧
      runAll junk fuel later s₂ = some (s₃, freed₃) ∧
      stop junk fuel s₃ [] = some (s₄, freed₄) ∧ Holds s₄ [] ∧
      (freed₁ ++ items.filter r.expired ++ freed₃ ++ freed₄).Perm
        (queued w ++ pushes earlier ++ pushes later) := by
  intro items
  obtain ⟨kept, hkept⟩ : ∃ l, l = items.filter fun x => !r.expired x := ⟨_, rfl⟩
  obtain ⟨left, hleft⟩ : ∃ l, l = (applyAll later kept).1 := ⟨_, rfl⟩
  obtain ⟨fuel, hfuel⟩ : ∃ fuel, fuel = (queued w).length + earlier.length + items.length +
    kept.length + later.length + left.length + 1 := ⟨_, rfl⟩
  rw [← hkept] at hlater
  have hfuel₁ : (queued w).length + earlier.length < fuel := by omega
  have hfuel₂ : items.length < fuel := by omega
  have hfuel₃ : kept.length + later.length < fuel := by omega
  have hfuel₄ : (applyAll later kept).1.length < fuel := by
    rw [← hleft]
    omega
  rcases runAll_spec junk earlier (holds_of_reachable hw hidle hwait) hearlier hfuel₁ with
    ⟨s₁, hrun₁, hs₁⟩
  rcases reclaimEpochGarbage_spec junk r hs₁ hfuel₂ with ⟨s₂, hrun₂, hs₂⟩
  rw [← hkept] at hs₂
  rcases runAll_spec junk later hs₂ hlater hfuel₃ with ⟨s₃, hrun₃, hs₃⟩
  rcases stop_spec junk hs₃ hfuel₄ [] with ⟨s₄, hrun₄, hs₄⟩
  refine ⟨fuel, s₁, s₂, s₃, s₄, _, _, _, hrun₁, hs₁, hs₁.nodup, hrun₂, hkept ▸ hs₂, hrun₃, hrun₄,
    hs₄, ?_⟩
  have h1 := applyAll_perm earlier (queued w)
  have h2 : (items.filter r.expired ++ kept).Perm items := by
    rw [hkept]
    exact List.filter_append_perm r.expired items
  have h3 := applyAll_perm later kept
  rw [List.nil_append, List.append_assoc, List.append_assoc]
  calc List.Perm _ ((applyAll earlier (queued w)).2 ++ (items.filter r.expired ++
          (kept ++ pushes later))) := (h3.append_left _).append_left _
    List.Perm _ ((applyAll earlier (queued w)).2 ++ (items ++ pushes later)) := by
        rw [← List.append_assoc (items.filter r.expired)]
        exact (h2.append_right _).append_left _
    List.Perm _ (queued w ++ pushes earlier ++ pushes later) := by
        rw [← List.append_assoc]
        exact h1.append_right _

/-- Node `1` has expired and node `2` has not; node `1` is pushed again behind the round. -/
theorem round_frees_expired_first :
    ∃ fuel s₁ s₂ s₃ s₄ freed₁ freed₃ freed₄,
      runAll (fun _ => none) fuel [.push 1, .push 2] init.shared = some (s₁, freed₁) ∧
      reclaimEpochGarbage (fun _ => none) fuel ⟨2, fun _ => 3, fun x => x * 2, by decide⟩ s₁ =
        some (s₂, [1]) ∧
      Holds s₂ [2] ∧ runAll (fun _ => none) fuel [.push 1] s₂ = some (s₃, freed₃) ∧
      stop (fun _ => none) fuel s₃ [] = some (s₄, freed₄) ∧
      (freed₁ ++ [1] ++ freed₃ ++ freed₄).Perm [1, 2, 1] := by
  have hidle : ∀ i, i ≠ 0 → init.thread i = .idle := fun i hi => if_neg hi
  rcases round_frees_expired (fun _ => none) init .start hidle rfl [.push 1, .push 2]
    ⟨by decide, by decide, by decide, by decide, trivial⟩ ⟨2, fun _ => 3, fun x => x * 2, by decide⟩
    [.push 1] ⟨by decide, by decide, trivial⟩ with
    ⟨fuel, s₁, s₂, s₃, s₄, freed₁, freed₃, freed₄, h1, _, _, h2, h3, h4, h5, _, h6⟩
  exact ⟨fuel, s₁, s₂, s₃, s₄, freed₁, freed₃, freed₄, h1, h2, h3, h4, h5, h6⟩

end BLinkTree.Reclamation
