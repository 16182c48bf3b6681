import BLinkTree.Versions
import BLinkTree.Tbb.ReadWrite

/-! # The TBB build with optimistic latches

`InsertTask::execute` and `UpdateTask::execute` of the build `blinktree_tbb_olfit`. The
loop reads the version, then the node, then compares the version. Behind the loop the
task acquires the node and works on it; the high key is not compared again.
-/

namespace BLinkTree.Tbb.Olfit

open Linearization Interleaving VersionLock

/-- `task` is about to read the version, `looked` the high key, `right` and `child` the
node to go to; `rightRead`, `childRead` and `leave` are about to compare the version. -/
inductive Pc where
  | idle
  | task (o : Op) (separator : Option (Nat × Nat)) (node : Nat)
  | looked (o : Op) (separator : Option (Nat × Nat)) (node version : Nat)
  | right (o : Op) (separator : Option (Nat × Nat)) (node version : Nat)
  | rightRead (o : Op) (separator : Option (Nat × Nat)) (node version : Nat) (next : Option Nat)
  | child (o : Op) (separator : Option (Nat × Nat)) (node version : Nat)
  | childRead (o : Op) (separator : Option (Nat × Nat)) (node version : Nat) (next : Option Nat)
  | leave (o : Op) (separator : Option (Nat × Nat)) (node version : Nat)
  | acquire (o : Op) (separator : Option (Nat × Nat)) (node : Nat)
  | mutate (o : Op) (separator : Option (Nat × Nat)) (node : Nat)
  | release (node : Nat) (result : Tbb.Pc)
  | done (o : Op) (result : Value)
  | lost (o : Op)

/-- What `execute` returned to `NodeTask::execute`. -/
def resume : Tbb.Pc → Pc
  | .idle => .idle
  | .task o separator n => .task o separator n
  | .done o r => .done o r
  | .lost o => .lost o

/-- A returned node, null included. -/
def return' (o : Op) (separator : Option (Nat × Nat)) : Option Nat → Pc
  | none => .lost o
  | some n => .task o separator n

/-- The part under `acquire()`. -/
def mutation (c : Capacity) (t : Tree) (o : Op) (separator : Option (Nat × Nat)) (n : Nat) :
    Option Executed :=
  if (t.node n).isLeaf then work c t o none n else work c t o separator n

def next (c : Capacity) : Program VersionedTree Pc Act (Event Op Value)
  | s, .idle, .spawn o => some (s, .task o none s.tree.root, some (.invoke o))
  | s, .task o u n, .go => (s.readValid n).map fun v => (s, .looked o u n v, none)
  | s, .looked o u n v, .go =>
      if (s.tree.node n).highKey ≤ o.key then some (s, .right o u n v, none)
      else if u = none ∧ (s.tree.node n).isLeaf = false then some (s, .child o u n v, none)
      else some (s, .leave o u n v, none)
  | s, .right o u n v, .go => some (s, .rightRead o u n v (s.tree.node n).rightSibling, none)
  | s, .rightRead o u n v r, .go =>
      if isValid (s.version n) v then some (s, return' o u r, none) else some (s, .task o u n, none)
  | s, .child o u n v, .go => some (s, .childRead o u n v ((s.tree.node n).child o.key), none)
  | s, .childRead o u n v r, .go =>
      if isValid (s.version n) v then some (s, return' o u r, none) else some (s, .task o u n, none)
  | s, .leave o u n v, .go =>
      if isValid (s.version n) v then some (s, .acquire o u n, none)
      else some (s, .task o u n, none)
  | s, .acquire o u n, .go => (s.lock n).map fun s => (s, .mutate o u n, none)
  | s, .mutate o u n, .go =>
      match mutation c s.tree o u n with
      | none => some (s, .lost o, none)
      | some x => some ({ s with tree := x.tree }, .release n (x.pc o), x.effect.map (.effect o))
  | s, .release n pc, .go => some (s.unlock n, resume pc, none)
  | s, .done o r, .go => some (s, .idle, some (.ret o r))
  | _, _, _ => none

abbrev World := Interleaving.World Nat VersionedTree Pc (Event Op Value)

def init (memory : Nat → Memory) : World where
  shared := VersionedTree.empty memory
  thread := fun _ => .idle
  history := []

def Pc.status : Pc → Status Op Value
  | idle => .idle
  | task o u n => (Tbb.Pc.task o u n).status
  | looked o u n _ => (Tbb.Pc.task o u n).status
  | right o u n _ => (Tbb.Pc.task o u n).status
  | rightRead o u n _ _ => (Tbb.Pc.task o u n).status
  | child o u n _ => (Tbb.Pc.task o u n).status
  | childRead o u n _ _ => (Tbb.Pc.task o u n).status
  | leave o u n _ => (Tbb.Pc.task o u n).status
  | acquire o u n => (Tbb.Pc.task o u n).status
  | mutate o u n => (Tbb.Pc.task o u n).status
  | release _ pc => pc.status
  | done o r => .applied o r
  | lost o => .called o

/-- The step that runs `insert_into_leaf_node`, or searches a leaf after `acquire()`. -/
def leafWrite (s : VersionedTree) : Pc → Act → Option (Op × Nat)
  | .mutate o _ n, .go => if (s.tree.node n).isLeaf then some (o, n) else none
  | _, _ => none

/-- The leaf that a task has left its loop for and not yet acquired. -/
def waits : Pc → Option (Op × Nat)
  | .acquire o none n => some (o, n)
  | _ => none

/-- The operations of `InsertTask` and `UpdateTask`, with keys below the largest one, and no
comparison that takes a version `2 ^ 30` writers ago, or a multiple of it, for the current one. -/
def Valid (s : VersionedTree) : Pc → Act → Prop
  | _, .spawn o => o.key < maxKey ∧ ReadWrite.writes o = true
  | .rightRead _ _ n v _, .go => ¬ Wraps (s.version n) v
  | .childRead _ _ n v _, .go => ¬ Wraps (s.version n) v
  | .leave _ _ n v, .go => ¬ Wraps (s.version n) v
  | _, .go => True

instance (s : VersionedTree) (pc : Pc) (a : Act) : Decidable (Valid s pc a) := by
  unfold Valid
  split <;> infer_instance

/-- The step cuts no key off a leaf whose task has left its loop. -/
def Harmless (c : Capacity) (s : VersionedTree) (pc : Pc) (a : Act) (other : Pc) : Prop :=
  Spares c s.tree (leafWrite s pc a) (waits other)

instance (c : Capacity) (s : VersionedTree) (pc : Pc) (a : Act) (other : Pc) :
    Decidable (Harmless c s pc a other) :=
  inferInstanceAs (Decidable (Spares c s.tree _ _))

def Careful (c : Capacity) : World → Nat → Act → Prop := Apart Valid (Harmless c)

variable {c : Capacity} {s s' : VersionedTree} {l l' : Latches Nat} {i n v : Nat}

/-- The task is at node `n`, and `P` was true of it in version `v`. -/
structure Looks (s : VersionedTree) (l : Latches Nat) (i : Nat) (o : Op) (u : Option (Nat × Nat))
    (n v : Nat) (P : Node → Prop) : Prop where
  approaches : Approaches False s.tree l.ghost i o n u
  snapshot : Snapshot s.version n v (P (s.tree.node n))

/-- What a task knows. -/
def Holds (s : VersionedTree) (l : Latches Nat) (i : Nat) : Pc → Prop
  | .idle => True
  | .task o u n => Approaches False s.tree l.ghost i o n u
  | .looked o u n v => Looks s l i o u n v fun _ => True
  | .right o u n v => Looks s l i o u n v fun nd => nd.highKey ≤ o.key
  | .rightRead o u n v r => Looks s l i o u n v fun nd => nd.highKey ≤ o.key ∧ r = nd.rightSibling
  | .child o u n v => u = none ∧
      Looks s l i o u n v fun nd => ¬ nd.highKey ≤ o.key ∧ nd.isLeaf = false
  | .childRead o u n v r => u = none ∧
      Looks s l i o u n v fun nd => (¬ nd.highKey ≤ o.key ∧ nd.isLeaf = false) ∧ r = nd.child o.key
  | .leave o u n v =>
      Looks s l i o u n v fun nd => u = none → nd.isLeaf = true ∧ o.key < nd.highKey
  | .acquire o u n => ReadWrite.Holds s.tree l.ghost i (.upgrading o u n)
  | .mutate o u n => ReadWrite.Holds s.tree l.ghost i (.upgrading o u n) ∧ l.holder n = some i
  | .release n pc => Tbb.Holds False s.tree l.ghost i pc ∧ l.holder n = some i
  | .done _ _ => True
  | .lost _ => False

/-- What a step keeps. -/
structure Stepped (c : Capacity) (i : Nat) (s : VersionedTree) (l : Latches Nat) (pc : Pc)
    (a : Act) (s' : VersionedTree) (l' : Latches Nat) (pc' : Pc) (e : Option (Event Op Value)) :
    Prop where
  sound : Sound False c s'.tree l'.ghost
  moves : Moves c i s l (leafWrite s pc a) s' l'
  holds : Holds s' l' i pc'
  simulates : Simulates finiteMap s.tree.content s'.tree.content pc.status pc'.status e

theorem Looks.mono {o : Op} {u : Option (Nat × Nat)} {P Q : Node → Prop}
    (h : Looks s l i o u n v P) (hPQ : P (s.tree.node n) → Q (s.tree.node n)) :
    Looks s l i o u n v Q :=
  ⟨h.approaches, h.snapshot.mono fun _ => hPQ⟩

theorem Approaches.lt_count {t : Tree} {g : Ghost Nat} {o : Op} {u : Option (Nat × Nat)}
    (h : Approaches False t g i o n u) : n < t.count := by
  cases u with
  | none => exact h.2.lt_count
  | some u => exact h.2.2.lt_count

theorem Looks.interferes {j : Nat} {o : Op} {u : Option (Nat × Nat)} {P : Node → Prop}
    (h : Looks s l j o u n v P) (hheld : Held s.version l.holder)
    (hs : Interferes i s l s' l') (hj : j ≠ i) : Looks s' l' j o u n v P :=
  ⟨h.approaches.evolves hs.evolves hj, hs.snapshot hheld (Approaches.lt_count h.approaches) h.snapshot⟩

/-- A step that reads. -/
theorem stepped_of_read {pc pc' : Pc} {a : Act} {e : Option (Event Op Value)}
    (h : Sound False c s.tree l.ghost) (hheld : Held s.version l.holder) (hpc : Holds s l i pc')
    (hs : Simulates finiteMap s.tree.content s.tree.content pc.status pc'.status e) :
    Stepped c i s l pc a s l pc' e :=
  ⟨h, moves_of_read i _ hheld, hpc, hs⟩

/-- A step that changes nothing and does not complete the call. -/
theorem stepped_of_look {pc pc₁ pc' : Pc} {a : Act} {e : Option (Event Op Value)}
    (h : Sound False c s.tree l.ghost) (hheld : Held s.version l.holder) (hpc : Holds s l i pc₁)
    (hstatus : pc₁.status = pc.status) (hs : some (s, pc₁, none) = some (s', pc', e)) :
    ∃ l', Stepped c i s l pc a s' l' pc' e := by
  simp only [Option.some.injEq, Prod.mk.injEq] at hs
  rcases hs with ⟨rfl, rfl, rfl⟩
  exact ⟨l, stepped_of_read h hheld hpc ⟨rfl, hstatus⟩⟩

/-- A validated look at the node leads to a node the task may go to. -/
theorem approaches_of_isValid (h : Sound False c s.tree l.ghost) {o : Op}
    {u : Option (Nat × Nat)} {r : Option Nat} {P : Node → Prop}
    (ha : Looks s l i o u n v P) (hv : isValid (s.version n) v = true)
    (hwrap : ¬ Wraps (s.version n) v)
    (hP : P (s.tree.node n) → advance s.tree o u n = some r) :
    ∃ m, r = some m ∧ Approaches False s.tree l.ghost i o m u :=
  advance_spec h.inv ha.approaches False.elim (hP (ha.snapshot.of_isValid hv hwrap))

theorem status_task (o : Op) (u : Option (Nat × Nat)) (n m : Nat) :
    (Tbb.Pc.task o u n).status = (Tbb.Pc.task o u m).status := by
  cases u <;> rfl

/-- The end of an iteration that wants to leave node `n`. -/
theorem stepped_of_return (h : Sound False c s.tree l.ghost) (hheld : Held s.version l.holder)
    {o : Op} {u : Option (Nat × Nat)} {r : Option Nat} {P : Node → Prop} {pc pc' : Pc}
    {e : Option (Event Op Value)} (ha : Looks s l i o u n v P)
    (hwrap : ¬ Wraps (s.version n) v)
    (hP : P (s.tree.node n) → advance s.tree o u n = some r)
    (hstatus : pc.status = (Pc.task o u n).status)
    (hs : (if isValid (s.version n) v = true then some (s, return' o u r, none)
      else some (s, .task o u n, none)) = some (s', pc', e)) :
    ∃ l', Stepped c i s l pc .go s' l' pc' e := by
  split at hs
  next hv =>
    rcases approaches_of_isValid h ha hv hwrap hP with ⟨m, rfl, hm⟩
    have htask : Holds s l i (.task o u m) := hm
    exact stepped_of_look h hheld htask ((status_task o u m n).trans hstatus.symm) hs
  · have htask : Holds s l i (.task o u n) := ha.approaches
    exact stepped_of_look h hheld htask hstatus.symm hs

/-- The part under `acquire()` works on the node as the other builds do. -/
theorem mutation_eq {t : Tree} {g : Ghost Nat} {o : Op} {u : Option (Nat × Nat)}
    (h : ReadWrite.Holds t g i (.upgrading o u n)) : mutation c t o u n = work c t o u n := by
  cases u with
  | none => exact ite_self _
  | some u =>
      have hinner := h.1.2.2.inner
      simp [mutation, hinner]

theorem stepped_of_mutate (h : Sound False c s.tree l.ghost) (hheld : Held s.version l.holder)
    {o : Op} {u : Option (Nat × Nat)} (ha : Holds s l i (.mutate o u n)) :
    ∃ x l', mutation c s.tree o u n = some x ∧
      Stepped c i s l (.mutate o u n) .go { s with tree := x.tree } l' (.release n (x.pc o))
        (x.effect.map (.effect o)) := by
  rcases ha with ⟨hup, hhold⟩
  rw [mutation_eq hup]
  rcases ReadWrite.work_stepped h hup.1 hup.2 with ⟨x, hx, g', h1, h2, h3, h4⟩
  have hsep := ReadWrite.Approaches.carries hup.1
  have hmoves : Moves c i s l (leafWrite s (.mutate o u n) .go) { s with tree := x.tree }
      { l with ghost := g' } := by
    apply moves_of_write hheld h2 hhold
    · exact fun m hm hmn => work_frame hx hm hmn
    · intro m q hm hl hq hsp
      apply work_below hsep hx hm hl hq
      intro _ hmn
      rw [hmn] at hl hsp
      simp only [leafWrite, hl] at hsp
      exact hsp rfl
  exact ⟨x, { l with ghost := g' }, hx, h1, hmoves, ⟨h3, hhold⟩, h4⟩

theorem next_spec (h : Sound False c s.tree l.ghost) (hheld : Held s.version l.holder)
    {pc pc' : Pc} {a : Act} {e : Option (Event Op Value)} (ha : Holds s l i pc)
    (hv : Valid s pc a) (hs : next c s pc a = some (s', pc', e)) :
    ∃ l', Stepped c i s l pc a s' l' pc' e := by
  cases a with
  | spawn o =>
      cases pc with
      | idle =>
          simp only [next, Option.some.injEq, Prod.mk.injEq] at hs
          rcases hs with ⟨rfl, rfl, rfl⟩
          have hroot : Holds s l i (.task o none s.tree.root) := ⟨hv.1, Reached.root h.inv _⟩
          exact ⟨l, stepped_of_read h hheld hroot ⟨rfl, rfl, rfl⟩⟩
      | _ => simp [next] at hs
  | go =>
      cases pc with
      | idle => simp [next] at hs
      | lost o => exact ha.elim
      | task o u n =>
          simp only [next, Option.map_eq_some_iff, Prod.mk.injEq] at hs
          rcases hs with ⟨v, hread, rfl, rfl, rfl⟩
          rcases VersionedTree.readValid_eq hread with ⟨hfree, rfl⟩
          have hlook : Holds s l i (.looked o u n (s.version n)) :=
            ⟨ha, ⟨le_rfl, hfree, fun _ => trivial⟩⟩
          exact ⟨l, stepped_of_read h hheld hlook ⟨rfl, rfl⟩⟩
      | looked o u n v =>
          simp only [next] at hs
          split at hs
          next hh =>
            have hlook : Holds s l i (.right o u n v) := Looks.mono ha fun _ => hh
            exact stepped_of_look h hheld hlook rfl hs
          next hh =>
            split at hs
            next hu =>
              have hlook : Holds s l i (.child o u n v) :=
                ⟨hu.1, Looks.mono ha fun _ => ⟨hh, hu.2⟩⟩
              exact stepped_of_look h hheld hlook rfl hs
            next hu =>
              have hlook : Holds s l i (.leave o u n v) :=
                Looks.mono ha fun _ hnone => ⟨by simpa [hnone] using hu, not_le.mp hh⟩
              exact stepped_of_look h hheld hlook rfl hs
      | right o u n v =>
          have hlook : Holds s l i (.rightRead o u n v (s.tree.node n).rightSibling) :=
            Looks.mono ha fun hh => ⟨hh, rfl⟩
          exact stepped_of_look h hheld hlook rfl hs
      | rightRead o u n v r =>
          have hadv : (s.tree.node n).highKey ≤ o.key ∧ r = (s.tree.node n).rightSibling →
              advance s.tree o u n = some r := fun hP => by
            rw [hP.2]
            exact if_pos hP.1
          exact stepped_of_return h hheld ha hv hadv rfl hs
      | child o u n v =>
          have hlook : Holds s l i (.childRead o u n v ((s.tree.node n).child o.key)) :=
            ⟨ha.1, ha.2.mono fun hh => ⟨hh, rfl⟩⟩
          exact stepped_of_look h hheld hlook rfl hs
      | childRead o u n v r =>
          have hadv : (¬ (s.tree.node n).highKey ≤ o.key ∧ (s.tree.node n).isLeaf = false) ∧
              r = (s.tree.node n).child o.key → advance s.tree o u n = some r := fun hP => by
            rw [hP.2]
            exact (if_neg hP.1.1).trans (if_pos ⟨ha.1, hP.1.2⟩)
          exact stepped_of_return h hheld ha.2 hv hadv rfl hs
      | leave o u n v =>
          simp only [next] at hs
          split at hs
          next hval =>
            have hnode : Holds s l i (.acquire o u n) := ⟨ha.approaches, ha.snapshot.of_isValid hval hv⟩
            exact stepped_of_look h hheld hnode rfl hs
          · have htask : Holds s l i (.task o u n) := ha.approaches
            exact stepped_of_look h hheld htask rfl hs
      | acquire o u n =>
          simp only [next, Option.map_eq_some_iff, Prod.mk.injEq] at hs
          rcases hs with ⟨s1, hlock, rfl, rfl, rfl⟩
          rcases moves_of_lock i _ hheld hlock with ⟨hmoves, htree⟩
          refine ⟨{ l with holder := Slots.store l.holder n (some i) }, ?_, hmoves,
            ⟨?_, Slots.store_self _ _ _⟩, ?_, rfl⟩
          · rw [htree]
            exact h
          · rw [htree]
            exact ha
          · rw [htree]
      | mutate o u n =>
          rcases stepped_of_mutate h hheld ha with ⟨x, l', hx, hstep⟩
          simp only [next, hx, Option.some.injEq, Prod.mk.injEq] at hs
          rcases hs with ⟨rfl, rfl, rfl⟩
          exact ⟨l', hstep⟩
      | release n pc =>
          simp only [next, Option.some.injEq, Prod.mk.injEq] at hs
          rcases hs with ⟨rfl, rfl, rfl⟩
          have hres : Holds (s.unlock n) { l with holder := Slots.store l.holder n none } i
              (resume pc) := by
            cases pc <;> exact ha.1
          have hstatus : (resume pc).status = pc.status := by cases pc <;> rfl
          exact ⟨{ l with holder := Slots.store l.holder n none }, h,
            moves_of_unlock _ hheld ha.2, hres, rfl, hstatus⟩
      | done o r =>
          simp only [next, Option.some.injEq, Prod.mk.injEq] at hs
          rcases hs with ⟨rfl, rfl, rfl⟩
          exact ⟨l, stepped_of_read h hheld trivial ⟨rfl, rfl, rfl⟩⟩

/-- A task keeps what it knows about an unlatched node by the version, about a latched one
by the latch, and in the window between them as long as its leaf is spared. -/
theorem Holds.stepped {j : Nat} {pc pc' other : Pc} {a : Act} {e : Option (Event Op Value)}
    (h : Holds s l j other) (hheld : Held s.version l.holder)
    (hs : Stepped c i s l pc a s' l' pc' e) (hj : j ≠ i)
    (hsp : Spares c s.tree (leafWrite s pc a) (waits other)) : Holds s' l' j other := by
  have hinter := hs.moves.interferes
  cases other with
  | idle => trivial
  | done o r => trivial
  | lost o => exact h
  | task o u n => exact Approaches.evolves h hinter.evolves hj
  | looked o u n v => exact Looks.interferes h hheld hinter hj
  | right o u n v => exact Looks.interferes h hheld hinter hj
  | rightRead o u n v r => exact Looks.interferes h hheld hinter hj
  | child o u n v => exact ⟨h.1, h.2.interferes hheld hinter hj⟩
  | childRead o u n v r => exact ⟨h.1, h.2.interferes hheld hinter hj⟩
  | leave o u n v => exact Looks.interferes h hheld hinter hj
  | acquire o u n =>
      refine ⟨h.1.evolves hinter.evolves hj, fun hu => ?_⟩
      subst hu
      rcases h with ⟨⟨_, hr⟩, hleaf⟩
      rcases hleaf rfl with ⟨hl, hh⟩
      exact ⟨by rw [hinter.evolves.isLeaf_eq n hr.lt_count, hl],
        hs.moves.below n o hr.lt_count hl hh hsp⟩
  | mutate o u n =>
      rcases h with ⟨hup, hhold⟩
      have hnode := hinter.held_node hj hhold (Approaches.lt_count hup.1)
      refine ⟨⟨hup.1.evolves hinter.evolves hj, fun hu => ?_⟩, hinter.holder j hj n hhold⟩
      rw [hnode]
      exact hup.2 hu
  | release n pc => exact ⟨Tbb.Holds.evolves h.1 hinter.evolves hj, hinter.holder j hj n h.2⟩

/-- The invariant of the shared state. -/
def SoundHeld (c : Capacity) (s : VersionedTree) (l : Latches Nat) : Prop :=
  Sound False c s.tree l.ghost ∧ Held s.version l.holder

theorem safe {memory : Nat → Memory} {w : World}
    (hw : Reachable (next c) (Careful c) (init memory) w) :
    Safe finiteMap (fun s => s.tree.content) Pc.status (SoundHeld c) Holds w := by
  refine safe_of_reachable hw ⟨⟨Ghost.initial Nat, fun _ => none⟩,
    ⟨sound_empty False c memory, held_empty⟩, fun _ => trivial, ?_⟩ ?_
  · exact tracks_empty memory
  · intro w i a l s' pc' e hok h hall hs
    rcases next_spec h.1 h.2 (hall i) hok.1 hs with ⟨l', hstep⟩
    exact ⟨l', ⟨hstep.sound, hstep.moves.held⟩, hstep.holds,
      fun j hj => (hall j).stepped h.2 hstep hj (hok.2 j hj), hstep.simulates⟩

theorem covers_of_careful {memory : Nat → Memory} {w : World}
    (hw : Reachable (next c) (Careful c) (init memory) w) :
    (∀ i a o n, leafWrite w.shared (w.thread i) a = some (o, n) →
      w.shared.tree.Covers n o.key) ∧
      Explains w.history w.shared.tree.content ∧
      ∀ k < maxKey, ∀ v, OrderedMap.get? k w.shared.tree.content = some v →
        ∃ fuel, lookup c fuel w.shared.tree k = some (w.shared.tree, v) := by
  rcases safe hw with ⟨l, ⟨hsound, _⟩, hall, hlegal, hstate, _⟩
  have hinv := hsound.inv
  have hcontent : state finiteMap w.history = w.shared.tree.content := hstate
  refine ⟨?_, hcontent ▸ explains_of_legal hlegal, fun k hk v hv => lookup_spec hinv hk hv⟩
  intro i a o n hwrite
  have ha := hall i
  unfold leafWrite at hwrite
  split at hwrite
  next u m hpc =>
    split at hwrite
    next hl =>
      simp only [Option.some.injEq, Prod.mk.injEq] at hwrite
      rcases hwrite with ⟨rfl, rfl⟩
      rw [hpc] at ha
      rcases ha with ⟨⟨hn, hleaf⟩, _⟩
      cases u with
      | none => exact hinv.covers hn.2.lt_count hl hn.2.low_le (hleaf rfl).2
      | some u =>
          rw [hn.2.2.inner] at hl
          exact absurd hl (by decide)
    · simp at hwrite
  · simp at hwrite

end BLinkTree.Tbb.Olfit
