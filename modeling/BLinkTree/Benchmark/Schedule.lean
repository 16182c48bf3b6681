import BLinkTree.Benchmark.Workload

/-! # The schedule of a benchmark run

The loop of `ThreadBenchmark::execute` with `AbstractBenchmark::is_finished`, which advances
phase, iteration and core set inside its conditions. Trees are numbered in the order of
their creation, `delete` leaves the pointer as it is, and the log lists what happens to
them. Timer, printing and the check of the tree stand between the logged steps and change
none of this.
-/

namespace BLinkTree.Benchmark

def Workload.hasBenchmark (w : Workload) : Bool := decide (0 < w.countBenchmarkWorkload)

/-- `Workload::phase(phase)`. -/
def Workload.setPhase (w : Workload) (phase : Phase) : Workload := { w with phase := phase }

/-- `FinishedRunStatus::Status`. -/
inductive FinishedRunStatus where
  | nextPhase
  | nextRun
  | nextCoreConfiguration
  | finished
  deriving DecidableEq

inductive RunEvent where
  | create (tree : Nat)
  | execute (coreSet : Option (List Nat)) (iteration : Nat) (phase : Phase) (tree : Option Nat)
  | clean (tree : Option Nat)
  deriving DecidableEq

/-- What `is_finished` and `execute` read and write; `coreIndex` is the index of the core
configuration and `countTrees` the number of the trees created so far. -/
structure ThreadBenchmark where
  workload : Workload
  currentIteration : Nat
  coreIndex : Nat
  tree : Option Nat
  countTrees : Nat
  log : List RunEvent

namespace ThreadBenchmark

def create (w : Workload) : ThreadBenchmark := ⟨w, 0, 0, none, 0, []⟩

def setPhase (b : ThreadBenchmark) (phase : Phase) : ThreadBenchmark :=
  { b with workload := b.workload.setPhase phase }

/-- `clean_tree`. -/
def cleanTree (b : ThreadBenchmark) : ThreadBenchmark :=
  { b with log := b.log ++ [.clean b.tree] }

/-- `AbstractBenchmark::is_finished`; the iteration counter has 16 bits. -/
def isFinished (coreSets : List (List Nat)) (iterations : Nat) (useFillPhase : Bool)
    (b : ThreadBenchmark) : ThreadBenchmark × FinishedRunStatus :=
  if b.workload.phase = .fill ∧ b.workload.hasBenchmark = true then
    (b.setPhase .benchmark, .nextPhase)
  else
    let b := { b with currentIteration := (b.currentIteration + 1) % 2 ^ 16 }
    if b.currentIteration < iterations then
      (if useFillPhase then b.cleanTree.setPhase .fill else b, .nextRun)
    else
      let b := { b with coreIndex := b.coreIndex + 1 }
      if coreSets ≠ [] ∧ b.coreIndex < coreSets.length then
        let b := { b with currentIteration := 0 }
        (if useFillPhase then (b.setPhase .fill).cleanTree else b, .nextCoreConfiguration)
      else
        let b := { b with currentIteration := 0 }
        (if useFillPhase then (b.setPhase .fill).cleanTree else b, .finished)

/-- The fill phase works on a new tree. -/
def createTree (b : ThreadBenchmark) : ThreadBenchmark :=
  if b.workload.phase = .fill then
    { b with
      tree := some b.countTrees
      countTrees := b.countTrees + 1
      log := b.log ++ [.create b.countTrees] }
  else b

/-- `execute_iteration` on the current core set. -/
def executeIteration (coreSets : List (List Nat)) (b : ThreadBenchmark) : ThreadBenchmark :=
  { b with
    log := b.log ++
      [.execute coreSets[b.coreIndex]? b.currentIteration b.workload.phase b.tree] }

/-- The loop of `ThreadBenchmark::execute`; `none` when the rounds do not suffice. -/
def execute (coreSets : List (List Nat)) (iterations : Nat) :
    Nat → ThreadBenchmark → Option ThreadBenchmark
  | 0, _ => none
  | rounds + 1, b =>
      let (b, status) := (b.createTree.executeIteration coreSets).isFinished coreSets iterations true
      if status = .finished then some b else execute coreSets iterations rounds b

end ThreadBenchmark

/-! ## One iteration -/

/-- One iteration on a core set: the phases between the creation and the cleaning of its
tree. -/
def iterationEvents (mixed : Bool) (coreSet : Option (List Nat)) (iteration tree : Nat) :
    List RunEvent :=
  [.create tree, .execute coreSet iteration .fill (some tree)] ++
    (if mixed then [.execute coreSet iteration .benchmark (some tree)] else []) ++
      [.clean (some tree)]

theorem next_mod {m q : Nat} (hm : 0 < m) :
    (q + 1) % m = (if q % m + 1 < m then q % m + 1 else 0) ∧
      (q + 1) / m = if q % m + 1 < m then q / m else q / m + 1 := by
  have hq : q + 1 = m * (q / m) + (q % m + 1) := by
    have := Nat.div_add_mod q m
    omega
  have hlt := Nat.mod_lt q hm
  split
  next h =>
    constructor
    · rw [hq, Nat.mul_add_mod, Nat.mod_eq_of_lt h]
    · rw [hq, Nat.mul_add_div hm, Nat.div_eq_of_lt h, Nat.add_zero]
  next h =>
    have he : q % m + 1 = m := by omega
    constructor
    · rw [hq, he, Nat.mul_add_mod, Nat.mod_self]
    · rw [hq, he, Nat.mul_add_div hm, Nat.div_self hm]

section Run

variable {coreSets : List (List Nat)} {iterations : Nat}

/-- The state before the iteration with the number `q`, counted over all core sets. -/
def ThreadBenchmark.before (w : Workload) (iterations q : Nat) (tree : Option Nat)
    (log : List RunEvent) : ThreadBenchmark :=
  ⟨w, q % max 1 iterations, q / max 1 iterations, tree, q, log⟩

/-- Behind the last phase of an iteration the tree is cleaned and the next iteration is
prepared; the run is finished behind the last iteration of the last core set. -/
theorem isFinished_last (hit : iterations < 2 ^ 16) {w : Workload}
    (hw : ¬ (w.phase = .fill ∧ w.hasBenchmark = true)) {q : Nat}
    (hq : q < coreSets.length * max 1 iterations) (tree : Option Nat) (log : List RunEvent) :
    (ThreadBenchmark.isFinished coreSets iterations true
      ⟨w, q % max 1 iterations, q / max 1 iterations, tree, q + 1, log⟩).1 =
      .before (w.setPhase .fill) iterations (q + 1) tree (log ++ [.clean tree]) ∧
    ((ThreadBenchmark.isFinished coreSets iterations true
      ⟨w, q % max 1 iterations, q / max 1 iterations, tree, q + 1, log⟩).2 = .finished ↔
      q + 1 = coreSets.length * max 1 iterations) := by
  have hm : 0 < max 1 iterations := by omega
  have hne : coreSets ≠ [] := by
    rintro rfl
    simp at hq
  rcases next_mod (q := q) hm with ⟨hmod, hdiv⟩
  have hindex : q / max 1 iterations < coreSets.length := (Nat.div_lt_iff_lt_mul hm).mpr hq
  have hlt := Nat.mod_lt q hm
  have h16 : (q % max 1 iterations + 1) % 2 ^ 16 = q % max 1 iterations + 1 :=
    Nat.mod_eq_of_lt (by omega)
  have hlast : (q + 1) / max 1 iterations < coreSets.length ↔
      q + 1 ≠ coreSets.length * max 1 iterations := by
    rw [Nat.div_lt_iff_lt_mul hm]
    omega
  simp only [ThreadBenchmark.isFinished, if_neg hw, h16, ThreadBenchmark.before]
  by_cases h : q % max 1 iterations + 1 < max 1 iterations
  · -- the next iteration on the same core set
    rw [if_pos h] at hmod hdiv
    rw [hdiv] at hlast
    rw [if_pos (show q % max 1 iterations + 1 < iterations by omega), hmod, hdiv]
    exact ⟨rfl, by simp [hlast.mp hindex]⟩
  · -- the next core set, if there is one
    rw [if_neg h] at hmod hdiv
    rw [hdiv] at hlast
    rw [if_neg (show ¬ q % max 1 iterations + 1 < iterations by omega), hmod, hdiv]
    by_cases hc : q / max 1 iterations + 1 < coreSets.length
    · rw [if_pos ⟨hne, hc⟩]
      exact ⟨rfl, by simp [hlast.mp hc]⟩
    · rw [if_neg (fun hh => hc hh.2)]
      exact ⟨rfl, by simp [not_not.mp (mt hlast.mpr hc)]⟩

theorem execute_succ (rounds : Nat) (b : ThreadBenchmark) :
    ThreadBenchmark.execute coreSets iterations (rounds + 1) b =
      if ((b.createTree.executeIteration coreSets).isFinished coreSets iterations true).2 = .finished
      then some ((b.createTree.executeIteration coreSets).isFinished coreSets iterations true).1
      else ThreadBenchmark.execute coreSets iterations rounds
        ((b.createTree.executeIteration coreSets).isFinished coreSets iterations true).1 :=
  rfl

/-- One iteration takes one round, or two when there is a mixed workload. -/
theorem execute_iteration (hit : iterations < 2 ^ 16) {w : Workload} (hw : w.phase = .fill)
    {q : Nat} (hq : q < coreSets.length * max 1 iterations) (tree : Option Nat)
    (log : List RunEvent) (rounds : Nat) :
    ∃ more, rounds ≤ more ∧ ThreadBenchmark.execute coreSets iterations (rounds + 2)
        (.before w iterations q tree log) =
      let b := ThreadBenchmark.before w iterations (q + 1) (some q)
        (log ++ iterationEvents w.hasBenchmark coreSets[q / max 1 iterations]?
          (q % max 1 iterations) q)
      if q + 1 = coreSets.length * max 1 iterations then some b
      else ThreadBenchmark.execute coreSets iterations more b := by
  obtain ⟨core, hcore⟩ : ∃ core, core = coreSets[q / max 1 iterations]? := ⟨_, rfl⟩
  -- the fill phase on the new tree
  obtain ⟨filled, hfilled⟩ : ∃ l, l = log ++ [.create q] ++
    [.execute core (q % max 1 iterations) .fill (some q)] := ⟨_, rfl⟩
  have hfill : (ThreadBenchmark.before w iterations q tree log).createTree.executeIteration
      coreSets = ⟨w, q % max 1 iterations, q / max 1 iterations, some q, q + 1, filled⟩ := by
    rw [hfilled, hcore]
    simp [ThreadBenchmark.createTree, ThreadBenchmark.executeIteration, ThreadBenchmark.before, hw]
  have hself : w.setPhase .fill = w := by
    cases w
    cases hw
    rfl
  rw [← hcore]
  cases hmix : w.hasBenchmark with
  | false =>
      rcases isFinished_last hit (w := w) (by simp [hmix]) hq (some q) filled with ⟨hnext, hend⟩
      have hevents : filled ++ [.clean (some q)] =
          log ++ iterationEvents false core (q % max 1 iterations) q := by
        simp [hfilled, iterationEvents]
      refine ⟨rounds + 1, by omega, ?_⟩
      rw [execute_succ, hfill, hnext, hevents, hself]
      simp only [hend]
  | true =>
      -- the benchmark phase on the same tree
      obtain ⟨mixed, hmixed⟩ : ∃ l, l = filled ++
        [.execute core (q % max 1 iterations) .benchmark (some q)] := ⟨_, rfl⟩
      rcases isFinished_last hit (w := w.setPhase .benchmark) (by simp [Workload.setPhase]) hq
        (some q) mixed with ⟨hnext, hend⟩
      have hevents : mixed ++ [.clean (some q)] =
          log ++ iterationEvents true core (q % max 1 iterations) q := by
        simp [hmixed, hfilled, iterationEvents]
      have hphase : ThreadBenchmark.isFinished coreSets iterations true
          ⟨w, q % max 1 iterations, q / max 1 iterations, some q, q + 1, filled⟩ =
          (⟨w.setPhase .benchmark, q % max 1 iterations, q / max 1 iterations, some q, q + 1,
            filled⟩, .nextPhase) := by
        simp [ThreadBenchmark.isFinished, hw, hmix, ThreadBenchmark.setPhase]
      have hbench : (ThreadBenchmark.createTree ⟨w.setPhase .benchmark, q % max 1 iterations,
          q / max 1 iterations, some q, q + 1, filled⟩).executeIteration coreSets =
          ⟨w.setPhase .benchmark, q % max 1 iterations, q / max 1 iterations, some q, q + 1,
            mixed⟩ := by
        rw [hmixed, hcore]
        simp [ThreadBenchmark.createTree, ThreadBenchmark.executeIteration, Workload.setPhase]
      have hback : (w.setPhase .benchmark).setPhase .fill = w := hself
      refine ⟨rounds, le_rfl, ?_⟩
      rw [execute_succ, hfill, hphase, if_neg (by simp), execute_succ, hbench, hnext, hevents,
        hback]
      simp only [hend]

/-- From the iteration with the number `q` on, the remaining iterations follow in order. -/
theorem execute_from (hit : iterations < 2 ^ 16) {w : Workload} (hw : w.phase = .fill)
    (d q : Nat) (hd : q + d + 1 = coreSets.length * max 1 iterations) (tree : Option Nat)
    (log : List RunEvent) (rounds : Nat) (hr : 2 * d + 2 ≤ rounds) :
    ∃ b, ThreadBenchmark.execute coreSets iterations rounds (.before w iterations q tree log) =
        some b ∧
      b.log = log ++ (List.range' q (d + 1)).flatMap fun q =>
        iterationEvents w.hasBenchmark coreSets[q / max 1 iterations]? (q % max 1 iterations) q := by
  induction d generalizing q tree log rounds with
  | zero =>
      obtain ⟨rounds, rfl⟩ : ∃ r, rounds = r + 2 := ⟨rounds - 2, by omega⟩
      rcases execute_iteration hit hw (show q < coreSets.length * max 1 iterations by omega) tree
        log rounds with ⟨_, _, hrun⟩
      rw [hrun]
      simp only [if_pos (show q + 1 = coreSets.length * max 1 iterations by omega)]
      exact ⟨_, rfl, by simp [ThreadBenchmark.before]⟩
  | succ d ih =>
      obtain ⟨rounds, rfl⟩ : ∃ r, rounds = r + 2 := ⟨rounds - 2, by omega⟩
      rcases execute_iteration hit hw (show q < coreSets.length * max 1 iterations by omega) tree
        log rounds with ⟨more, hmore, hrun⟩
      rw [hrun]
      simp only [if_neg (show ¬ q + 1 = coreSets.length * max 1 iterations by omega)]
      rcases ih (q + 1) (by omega) (some q) _ more (by omega) with ⟨b, hb, hlog⟩
      refine ⟨b, hb, ?_⟩
      rw [hlog, List.range'_succ (n := d + 1), List.flatMap_cons, List.append_assoc]

end Run

/-! ## The whole run -/

/-- Counting over all core sets and counting per core set. -/
theorem flatMap_range_mul {α : Type} (f : Nat → List α) (n m : Nat) :
    (List.range (n * m)).flatMap f =
      (List.range n).flatMap fun i => (List.range m).flatMap fun j => f (i * m + j) := by
  induction n with
  | zero => simp
  | succ n ih =>
      rw [Nat.succ_mul, List.range_add, List.flatMap_append, ih, List.range_succ,
        List.flatMap_append, List.flatMap_map]
      simp

theorem flatMap_range_getElem? {α β : Type} (f : Option α → Nat → List β) (l : List α) :
    (List.range l.length).flatMap (fun i => f l[i]? i) =
      l.zipIdx.flatMap fun p => f (some p.1) p.2 := by
  have hmap : (List.range l.length).map (fun i => f l[i]? i) =
      l.zipIdx.map fun p => f (some p.1) p.2 := by
    apply List.ext_getElem
    · simp
    · intro i h1 h2
      have hi : i < l.length := by simpa using h1
      simp [List.getElem?_eq_getElem hi]
  rw [List.flatMap_def, List.flatMap_def, hmap]

/-- A loaded workload has a benchmark phase exactly when its mixed part has a tuple. -/
theorem hasBenchmark_load (rand : Nat → Value) (fillFile workloadFile : File) :
    (Workload.create.load rand fillFile workloadFile).hasBenchmark = true ↔
      (Workload.create.load rand fillFile workloadFile).workloadPhaseTuples ≠ [] := by
  obtain ⟨p, hp⟩ : ∃ p, p = parseFile rand workloadFile [] 0 0 0 := ⟨_, rfl⟩
  have hcounted : p.Counted := by
    rw [hp]
    exact (show Parsed.Counted ⟨[], 0, 0, 0, 0⟩ from rfl).parseLoop rand _ _
  have hbench : (Workload.create.load rand fillFile workloadFile).hasBenchmark =
      decide (0 < p.lookupCounter + p.insertCounter + p.updateCounter) := by
    rw [hp]
    rfl
  have htuples : (Workload.create.load rand fillFile workloadFile).workloadPhaseTuples =
      p.tuples := by
    rw [hp]
    rfl
  unfold Parsed.Counted at hcounted
  rw [hbench, htuples, decide_eq_true_eq, ← List.length_pos_iff, hcounted]
  omega

/-- Every core set gets its iterations in order, every iteration a new tree, its phases on
that tree, and the tree is cleaned before the next one is created. -/
theorem execute_schedule (rand : Nat → Value) (fillFile workloadFile : File)
    (coreSets : List (List Nat)) (iterations : Nat) (hne : coreSets ≠ [])
    (hit : iterations < 2 ^ 16) :
    let w := Workload.create.load rand fillFile workloadFile
    ∃ rounds b, ThreadBenchmark.execute coreSets iterations rounds (.create w) = some b ∧
      b.log = coreSets.zipIdx.flatMap fun (coreSet, index) =>
        (List.range (max 1 iterations)).flatMap fun iteration =>
          let tree := index * max 1 iterations + iteration
          [.create tree, .execute (some coreSet) iteration .fill (some tree)] ++
            (if w.workloadPhaseTuples ≠ [] then
              [.execute (some coreSet) iteration .benchmark (some tree)] else []) ++
            [.clean (some tree)] := by
  intro w
  have hcount : 0 < coreSets.length * max 1 iterations :=
    Nat.mul_pos (List.length_pos_iff.mpr hne) (by omega)
  have hm : 0 < max 1 iterations := by omega
  have hd : 0 + (coreSets.length * max 1 iterations - 1) + 1 =
      coreSets.length * max 1 iterations := by omega
  rcases execute_from hit (w := w) rfl _ 0 hd none [] _ le_rfl with ⟨b, hrun, hlog⟩
  have hstart : ThreadBenchmark.create w = .before w iterations 0 none [] := by
    simp [ThreadBenchmark.create, ThreadBenchmark.before]
  refine ⟨_, b, by rw [hstart]; exact hrun, ?_⟩
  have hrange : List.range' 0 (coreSets.length * max 1 iterations - 1 + 1) =
      List.range (coreSets.length * max 1 iterations) := by
    rw [List.range_eq_range', Nat.sub_add_cancel hcount]
  rw [hlog, List.nil_append, hrange, flatMap_range_mul]
  -- the number of an iteration gives back core set and iteration
  have hindex : ∀ i, (List.range (max 1 iterations)).flatMap (fun j =>
      iterationEvents w.hasBenchmark coreSets[(i * max 1 iterations + j) / max 1 iterations]?
        ((i * max 1 iterations + j) % max 1 iterations) (i * max 1 iterations + j)) =
      (List.range (max 1 iterations)).flatMap fun j =>
        iterationEvents w.hasBenchmark coreSets[i]? j (i * max 1 iterations + j) := by
    intro i
    apply List.flatMap_congr
    intro j hj
    have hlt := List.mem_range.mp hj
    rw [Nat.mul_comm i, Nat.mul_add_div hm, Nat.mul_add_mod, Nat.div_eq_of_lt hlt,
      Nat.mod_eq_of_lt hlt, Nat.add_zero]
  simp only [hindex]
  rw [flatMap_range_getElem? fun coreSet i => (List.range (max 1 iterations)).flatMap fun j =>
    iterationEvents w.hasBenchmark coreSet j (i * max 1 iterations + j)]
  have hmixed := hasBenchmark_load rand fillFile workloadFile
  by_cases h : w.workloadPhaseTuples ≠ []
  · rw [hmixed.mpr h]
    simp only [iterationEvents, if_pos h, if_true]
  · rw [Bool.eq_false_iff.mpr fun he => h (hmixed.mp he)]
    simp only [iterationEvents, if_neg h, Bool.false_eq_true, if_false]

/-- Two core sets, no iterations asked for, a mixed workload of one update. -/
theorem execute_schedule_two_core_sets :
    ∃ rounds b, ThreadBenchmark.execute [[0], [0, 1]] 0 rounds
        (.create (Workload.create.load (fun _ => 0) [] "UPDATE 7".toList)) = some b ∧
      b.log = [.create 0, .execute (some [0]) 0 .fill (some 0),
        .execute (some [0]) 0 .benchmark (some 0), .clean (some 0), .create 1,
        .execute (some [0, 1]) 0 .fill (some 1), .execute (some [0, 1]) 0 .benchmark (some 1),
        .clean (some 1)] := by
  rcases execute_schedule (fun _ => 0) [] "UPDATE 7".toList [[0], [0, 1]] 0 (by decide) (by decide)
    with ⟨rounds, b, hrun, hlog⟩
  exact ⟨rounds, b, hrun, hlog.trans (by decide)⟩

end BLinkTree.Benchmark
