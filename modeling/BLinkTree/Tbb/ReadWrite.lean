import BLinkTree.Tbb.Linearizable

/-! # The TBB builds with reader-writer latches

`execute` reads the node under a shared latch and calls `upgrade_to_writer()` before it
writes. The upgrade is atomic, or it gives the latch up, lets other writers run, and gets
it back. Its result tells which, and nobody looks at it: the high key is not compared
again.
-/

namespace BLinkTree.Tbb.ReadWrite

open Linearization Interleaving

/-- `upgrading` has given up the shared latch inside `upgrade_to_writer()`. -/
inductive Pc where
  | base (pc : Tbb.Pc)
  | upgrading (o : Op) (separator : Option (Nat × Nat)) (node : Nat)

/-- `release` is an `execute` whose upgrade has to give the latch up. -/
inductive Act where
  | base (a : Tbb.Act)
  | release

/-- `LookupTask::execute` does not write. -/
def writes : Op → Bool
  | .find _ => false
  | _ => true

def next (c : Capacity) : Program Tree Pc Act (Event Op Value)
  | t, .base pc, .base a => (Tbb.next c t pc a).map fun r => (r.1, .base r.2.1, r.2.2)
  | t, .base (.task o separator n), .release =>
      if writes o ∧ advance t o separator n = none then some (t, .upgrading o separator n, none)
      else none
  | t, .upgrading o separator n, .base .go =>
      match work c t o separator n with
      | none => some (t, .base (.lost o), none)
      | some x => some (x.tree, .base (x.pc o), x.effect.map (.effect o))
  | _, _, _ => none

abbrev World := Interleaving.World Nat Tree Pc (Event Op Value)

def init (memory : Nat → Memory) : World where
  shared := Tree.empty memory
  thread := fun _ => .base .idle
  history := []

def Pc.status : Pc → Status Op Value
  | base pc => pc.status
  | upgrading o separator n => (Tbb.Pc.task o separator n).status

/-- The step that runs `insert_into_leaf_node`, or searches a leaf under the write latch. -/
def leafWrite (t : Tree) : Pc → Act → Option (Op × Nat)
  | .base (.task o none n), .base .go => if advance t o none n = none then some (o, n) else none
  | .upgrading o none n, .base .go => some (o, n)
  | _, _ => none

/-- The leaf on which a task is inside its upgrade. -/
def waits : Pc → Option (Op × Nat)
  | .upgrading o none n => some (o, n)
  | _ => none

/-- Keys below the largest one. -/
def Valid (_ : Tree) (_ : Pc) : Act → Prop
  | .base a => a.Valid
  | .release => True

instance (t : Tree) (pc : Pc) : (a : Act) → Decidable (Valid t pc a)
  | .base a => inferInstanceAs (Decidable a.Valid)
  | .release => inferInstanceAs (Decidable True)

/-- The step cuts no key off a leaf whose task is inside its upgrade. -/
def Harmless (c : Capacity) (t : Tree) (pc : Pc) (a : Act) (other : Pc) : Prop :=
  Spares c t (leafWrite t pc a) (waits other)

instance (c : Capacity) (t : Tree) (pc : Pc) (a : Act) (other : Pc) :
    Decidable (Harmless c t pc a other) :=
  inferInstanceAs (Decidable (Spares c t _ _))

def Careful (c : Capacity) : World → Nat → Act → Prop := Apart Valid (Harmless c)

variable {c : Capacity} {t t' : Tree} {g g' : Ghost Nat} {i n : Nat}

/-- What a task knows. -/
def Holds (t : Tree) (g : Ghost Nat) (i : Nat) : Pc → Prop
  | .base pc => Tbb.Holds False t g i pc
  | .upgrading o separator n => Approaches False t g i o n separator ∧
      (separator = none → (t.node n).isLeaf = true ∧ o.key < (t.node n).highKey)

/-- What a step keeps; `below` says that it keeps a key below the high key of a leaf unless
it cuts it off. -/
structure Stepped (c : Capacity) (i : Nat) (t : Tree) (g : Ghost Nat) (pc : Pc) (a : Act)
    (t' : Tree) (g' : Ghost Nat) (pc' : Pc) (e : Option (Event Op Value)) : Prop where
  sound : Sound False c t' g'
  evolves : Evolves i t g t' g'
  holds : Holds t' g' i pc'
  simulates : Simulates finiteMap t.content t'.content pc.status pc'.status e
  below : ∀ m q, m < t.count → (t.node m).isLeaf = true → q.key < (t.node m).highKey →
    Spares c t (leafWrite t pc a) (some (q, m)) → q.key < (t'.node m).highKey

theorem Approaches.carries {o : Op} {separator : Option (Nat × Nat)}
    (h : Approaches False t g i o n separator) (x s : Nat) (hs : separator = some (x, s)) :
    Carries False t g i n s x := by
  subst hs
  exact h.2.2

/-- The work of a task, whatever happened since it looked at the node. -/
theorem work_stepped (h : Sound False c t g) {o : Op} {separator : Option (Nat × Nat)}
    (ha : Approaches False t g i o n separator)
    (hleaf : separator = none → (t.node n).isLeaf = true ∧ o.key < (t.node n).highKey) :
    ∃ x, work c t o separator n = some x ∧
      Tbb.Stepped False c i t g (.task o separator n) x.tree (x.pc o)
        (x.effect.map (.effect o)) := by
  cases separator with
  | none =>
      rcases hleaf rfl with ⟨hl, hh⟩
      rcases work_leaf_spec h i ha.2 hl hh with ⟨x, _, hx, _⟩
      exact ⟨x, hx, stepped_of_work_leaf h ha hl hh hx⟩
  | some u => exact stepped_of_work_inner h ha False.elim

theorem stepped_of_work (h : Sound False c t g) {o : Op} {separator : Option (Nat × Nat)}
    {pc : Pc} {a : Act} (ha : Approaches False t g i o n separator)
    (hleaf : separator = none → (t.node n).isLeaf = true ∧ o.key < (t.node n).highKey)
    (hpc : pc.status = (Tbb.Pc.task o separator n).status)
    (hwrite : separator = none → leafWrite t pc a = some (o, n)) :
    ∃ x g', work c t o separator n = some x ∧
      Stepped c i t g pc a x.tree g' (.base (x.pc o)) (x.effect.map (.effect o)) := by
  rcases work_stepped h ha hleaf with ⟨x, hx, g', h1, h2, h3, h4⟩
  refine ⟨x, g', hx, h1, h2, h3, by rw [hpc]; exact h4, ?_⟩
  intro m q hm hl hq hsp
  apply work_below (Approaches.carries ha) hx hm hl hq
  intro hsep hmn
  rw [hwrite hsep] at hsp
  rw [hmn] at hsp
  exact hsp rfl

theorem stepped_of_read {pc pc' : Pc} {a : Act} {e : Option (Event Op Value)}
    (h : Sound False c t g) (hpc : Holds t g i pc')
    (hs : Simulates finiteMap t.content t.content pc.status pc'.status e) :
    Stepped c i t g pc a t g pc' e :=
  ⟨h, Evolves.refl i t g, hpc, hs, fun _ _ _ _ hq _ => hq⟩

theorem next_spec (h : Sound False c t g) {pc pc' : Pc} {a : Act} {e : Option (Event Op Value)}
    (ha : Holds t g i pc) (hv : Valid t pc a) (hs : next c t pc a = some (t', pc', e)) :
    ∃ g', Stepped c i t g pc a t' g' pc' e := by
  cases pc with
  | upgrading o separator n =>
      cases a with
      | release => simp [next] at hs
      | base a =>
          cases a with
          | spawn o' => simp [next] at hs
          | go =>
              have hwrite : separator = none →
                  leafWrite t (.upgrading o separator n) (.base .go) = some (o, n) := by
                intro hsep
                rw [hsep]
                rfl
              rcases stepped_of_work h ha.1 ha.2 rfl hwrite with ⟨x, g', hx, hstep⟩
              simp only [next, hx, Option.some.injEq, Prod.mk.injEq] at hs
              rcases hs with ⟨rfl, rfl, rfl⟩
              exact ⟨g', hstep⟩
  | base pc =>
      cases a with
      | release =>
          cases pc with
          | task o separator n =>
              simp only [next] at hs
              split at hs
              next hadv =>
                simp only [Option.some.injEq, Prod.mk.injEq] at hs
                rcases hs with ⟨rfl, rfl, rfl⟩
                rcases advance_eq_none hadv.2 with ⟨hh, hleaf⟩
                exact ⟨g, stepped_of_read h ⟨ha, fun hsep => ⟨hleaf hsep, hh⟩⟩ ⟨rfl, rfl⟩⟩
              · simp at hs
          | _ => simp [next] at hs
      | base a =>
          simp only [next, Option.map_eq_some_iff] at hs
          rcases hs with ⟨⟨t1, pc1, e1⟩, hn, heq⟩
          simp only [Prod.mk.injEq] at heq
          rcases heq with ⟨rfl, rfl, rfl⟩
          cases a with
          | spawn o =>
              rcases Tbb.next_spec h ha (show (Tbb.Act.spawn o).Valid from hv) False.elim hn with
                ⟨g', h1, h2, h3, h4⟩
              have ht : t1 = t := by
                cases pc with
                | idle =>
                    simp only [Tbb.next, Option.some.injEq, Prod.mk.injEq] at hn
                    exact hn.1.symm
                | _ => simp [Tbb.next] at hn
              subst ht
              exact ⟨g', h1, h2, h3, h4, fun _ _ _ _ hq _ => hq⟩
          | go =>
              cases pc with
              | idle => simp [Tbb.next] at hn
              | lost o => exact ha.elim
              | done o r =>
                  simp only [Tbb.next, Option.some.injEq, Prod.mk.injEq] at hn
                  rcases hn with ⟨rfl, rfl, rfl⟩
                  exact ⟨g, stepped_of_read h trivial ⟨rfl, rfl, rfl⟩⟩
              | task o separator n =>
                  simp only [Tbb.next, execute] at hn
                  cases hadv : advance t o separator n with
                  | some m =>
                      rcases advance_spec h.inv ha False.elim hadv with ⟨m', rfl, hm⟩
                      simp only [hadv, Option.some.injEq, Prod.mk.injEq] at hn
                      rcases hn with ⟨rfl, rfl, rfl⟩
                      refine ⟨g, stepped_of_read h hm ⟨rfl, ?_⟩⟩
                      cases separator <;> rfl
                  | none =>
                      rcases advance_eq_none hadv with ⟨hh, hleaf⟩
                      have hwrite : separator = none →
                          leafWrite t (.base (.task o separator n)) (.base .go) = some (o, n) := by
                        intro hsep
                        rw [hsep] at hadv ⊢
                        simp [leafWrite, hadv]
                      rcases stepped_of_work h ha (fun hsep => ⟨hleaf hsep, hh⟩) rfl hwrite with
                        ⟨x, g', hx, hstep⟩
                      simp only [hadv, hx, Option.some.injEq, Prod.mk.injEq] at hn
                      rcases hn with ⟨rfl, rfl, rfl⟩
                      exact ⟨g', hstep⟩

/-- A task inside its upgrade keeps what it knows as long as its leaf is spared. -/
theorem Holds.stepped {j : Nat} {pc pc' other : Pc} {a : Act} {e : Option (Event Op Value)}
    (h : Holds t g j other) (hs : Stepped c i t g pc a t' g' pc' e) (hj : j ≠ i)
    (hsp : Spares c t (leafWrite t pc a) (waits other)) : Holds t' g' j other := by
  cases other with
  | base pc => exact Tbb.Holds.evolves h hs.evolves hj
  | upgrading o separator n =>
      refine ⟨h.1.evolves hs.evolves hj, fun hsep => ?_⟩
      subst hsep
      rcases h with ⟨⟨_, hr⟩, hleaf⟩
      rcases hleaf rfl with ⟨hl, hh⟩
      exact ⟨by rw [hs.evolves.isLeaf_eq n hr.lt_count, hl], hs.below n o hr.lt_count hl hh hsp⟩

theorem safe {memory : Nat → Memory} {w : World}
    (hw : Reachable (next c) (Careful c) (init memory) w) :
    Safe finiteMap Tree.content Pc.status (Sound False c) Holds w := by
  refine safe_of_reachable hw
    ⟨Ghost.initial Nat, sound_empty False c memory, fun _ => trivial, ?_⟩ ?_
  · exact tracks_empty memory
  · intro w i a g t' pc' e hok h hall hs
    rcases next_spec h (hall i) hok.1 hs with ⟨g', hstep⟩
    exact ⟨g', hstep.sound, hstep.holds, fun j hj => (hall j).stepped hstep hj (hok.2 j hj),
      hstep.simulates⟩

/-- In every run without such a cut, a leaf is written by the task whose key it covers, and
the history explains the content. -/
theorem covers_of_careful {memory : Nat → Memory} {w : World}
    (hw : Reachable (next c) (Careful c) (init memory) w) :
    (∀ i a o n, leafWrite w.shared (w.thread i) a = some (o, n) → w.shared.Covers n o.key) ∧
      Explains w.history w.shared.content ∧
      ∀ k < maxKey, ∀ v, OrderedMap.get? k w.shared.content = some v →
        ∃ fuel, lookup c fuel w.shared k = some (w.shared, v) := by
  rcases safe hw with ⟨g, hsound, hall, hlegal, hstate, _⟩
  have hinv := hsound.inv
  refine ⟨?_, hstate ▸ explains_of_legal hlegal, fun k hk v hv => lookup_spec hinv hk hv⟩
  intro i a o n hwrite
  have ha := hall i
  unfold leafWrite at hwrite
  split at hwrite
  next hpc =>
    split at hwrite
    next hadv =>
      simp only [Option.some.injEq, Prod.mk.injEq] at hwrite
      rcases hwrite with ⟨rfl, rfl⟩
      rcases advance_eq_none hadv with ⟨hh, hleaf⟩
      rw [hpc] at ha
      exact hinv.covers ha.2.lt_count (hleaf rfl) ha.2.low_le hh
    · simp at hwrite
  next hpc =>
    simp only [Option.some.injEq, Prod.mk.injEq] at hwrite
    rcases hwrite with ⟨rfl, rfl⟩
    rw [hpc] at ha
    rcases ha.2 rfl with ⟨hl, hh⟩
    exact hinv.covers ha.1.2.lt_count hl ha.1.2.low_le hh
  · simp at hwrite

end BLinkTree.Tbb.ReadWrite
