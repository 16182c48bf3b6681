import BLinkTree.Lib.OrderedMap

/-! # Core configurations

`core_configuration.cpp` with the part of `system.h` that it asks. A core id and a number
of cores are 16-bit unsigned values, a NUMA id is an 8-bit one. The constructor has the
result `none` when a core set would read behind the core order, or when its loop has not
ended after `2 ^ 16` rounds.
-/

namespace BLinkTree.Benchmark

/-- `hardware::System`: the number of cores and the answers of `numa_node_of_cpu`. -/
structure System where
  countCores : Nat
  numaNodeOfCpu : Nat → Int
  countCores_pos : 0 < countCores
  countCores_lt : countCores < 2 ^ 16

namespace System

def physicalCoreId (s : System) (logicalCoreId : Nat) : Nat := logicalCoreId % s.countCores

/-- The node number is narrowed to 8 bits. -/
def numaId (s : System) (coreId : Nat) : Nat :=
  (s.numaNodeOfCpu (s.physicalCoreId coreId) % 256).toNat

end System

/-- `CoreConfiguration::Type`. -/
inductive CoreOrderType where
  | logical
  | numaAscending
  deriving DecidableEq

/-- The loop that writes the cores of the nodes; it returns once the order is full. -/
def writeCores : List Nat → Nat → List Nat → List Nat
  | [], _, coreOrder => coreOrder
  | coreId :: rest, index, coreOrder =>
      let coreOrder := coreOrder.set index coreId
      if index + 1 = coreOrder.length then coreOrder else writeCores rest (index + 1) coreOrder

/-- `CoreConfiguration::generate_core_order`. -/
def generateCoreOrder (s : System) (type : CoreOrderType) (maxCores : Nat) : List Nat :=
  let realMaxCores := max maxCores s.countCores
  let coreOrder := List.replicate realMaxCores 0
  match type with
  | .logical => List.range coreOrder.length
  | .numaAscending =>
      let nodeCores := (List.range realMaxCores).foldl
        (fun nodeCores coreId => OrderedMap.pushBack (s.numaId coreId) coreId nodeCores) []
      writeCores (nodeCores.flatMap Prod.snd) 0 coreOrder

/-- `CoreConfiguration::generate_core_set`. -/
def generateCoreSet (countCores : Nat) (orderedPhysicalCores : List Nat) : Option (List Nat) :=
  (List.range countCores).mapM fun coreIndex => orderedPhysicalCores[coreIndex]?

/-- The loop that increases the number of cores; the counter has 16 bits. -/
def increaseCores (maxCores coreStep : Nat) (orderedCores : List Nat) :
    Nat → Nat → List (List Nat) → Option (List (List Nat))
  | 0, _, _ => none
  | rounds + 1, countCores, coreSets =>
      if countCores ≤ maxCores then
        if countCores % coreStep = 0 then
          (generateCoreSet countCores orderedCores).bind fun coreSet =>
            increaseCores maxCores coreStep orderedCores rounds ((countCores + 1) % 2 ^ 16)
              (coreSets ++ [coreSet])
        else
          increaseCores maxCores coreStep orderedCores rounds ((countCores + 1) % 2 ^ 16) coreSets
      else some coreSets

/-- `CoreConfiguration::CoreConfiguration`; the result is `_core_sets`. -/
def coreConfiguration (s : System) (type : CoreOrderType) (minCores maxCores coreStep : Nat) :
    Option (List (List Nat)) :=
  let orderedCores := generateCoreOrder s type maxCores
  if minCores = 0 ∨ minCores = maxCores then
    (generateCoreSet maxCores orderedCores).map fun coreSet => [coreSet]
  else do
    let mut coreSets : List (List Nat) := []
    let mut minCores := minCores
    if minCores % coreStep ≠ 0 then
      coreSets := coreSets ++ [← generateCoreSet minCores orderedCores]
      minCores := (minCores + 1) % 2 ^ 16
    coreSets ← increaseCores maxCores coreStep orderedCores (2 ^ 16) minCores coreSets
    if maxCores % coreStep ≠ 0 then
      coreSets := coreSets ++ [← generateCoreSet maxCores orderedCores]
    return coreSets

/-! ## The core order -/

/-- The numbers are written one behind the other until the order is full. -/
theorem writeCores_append (cores pre old : List Nat) (h : cores.length = old.length) :
    writeCores cores pre.length (pre ++ old) = pre ++ cores := by
  induction cores generalizing pre old with
  | nil =>
      obtain rfl := List.eq_nil_of_length_eq_zero h.symm
      rfl
  | cons core cores ih =>
      cases old with
      | nil => simp at h
      | cons x old =>
          have hset : (pre ++ x :: old).set pre.length core = (pre ++ [core]) ++ old := by simp
          have hlen : cores.length = old.length := by simpa using h
          have hidx : pre.length + 1 = (pre ++ [core]).length := by simp
          unfold writeCores
          rw [hset]
          dsimp only
          split
          next hfull =>
            have hnil : old = [] := by
              rw [List.length_append, ← hidx] at hfull
              exact List.eq_nil_of_length_eq_zero (by omega)
            subst hnil
            obtain rfl := List.eq_nil_of_length_eq_zero hlen
            simp
          next hfull =>
            rw [hidx, ih _ _ hlen]
            simp

/-- In the order of the NUMA ids, and of the core ids inside one node. -/
def System.Precedes (s : System) (a b : Nat) : Prop :=
  s.numaId a < s.numaId b ∨ s.numaId a = s.numaId b ∧ a < b

theorem generateCoreOrder_logical (s : System) (maxCores : Nat) :
    generateCoreOrder s .logical maxCores = List.range (max maxCores s.countCores) := by
  simp [generateCoreOrder]

theorem generateCoreOrder_numaAscending (s : System) (maxCores : Nat) :
    (generateCoreOrder s .numaAscending maxCores).Perm (List.range (max maxCores s.countCores)) ∧
      (generateCoreOrder s .numaAscending maxCores).Pairwise s.Precedes := by
  obtain ⟨realMaxCores, hreal⟩ : ∃ n, n = max maxCores s.countCores := ⟨_, rfl⟩
  have hgroups := OrderedMap.groups_foldl s.numaId (List.range realMaxCores)
  have hlt : (List.range realMaxCores).Pairwise (· < ·) := List.pairwise_lt_range
  have hperm := hgroups.perm hlt Nat.lt_irrefl
  have horder : generateCoreOrder s .numaAscending maxCores =
      ((List.range realMaxCores).foldl
        (fun m x => OrderedMap.pushBack (s.numaId x) x m) []).flatMap Prod.snd := by
    have hlen := hperm.length_eq
    rw [List.length_range] at hlen
    have hwrite := writeCores_append _ [] (List.replicate realMaxCores 0)
      (hlen.trans List.length_replicate.symm)
    unfold generateCoreOrder
    rw [← hreal]
    exact hwrite
  rw [horder, ← hreal]
  exact ⟨hperm, hgroups.pairwise hlt⟩

theorem nodup_generateCoreOrder (s : System) (type : CoreOrderType) (maxCores : Nat) :
    (generateCoreOrder s type maxCores).Nodup ∧
      maxCores ≤ (generateCoreOrder s type maxCores).length := by
  have hperm : (generateCoreOrder s type maxCores).Perm
      (List.range (max maxCores s.countCores)) := by
    cases type with
    | logical => rw [generateCoreOrder_logical]
    | numaAscending => exact (generateCoreOrder_numaAscending s maxCores).1
  refine ⟨hperm.nodup_iff.mpr List.nodup_range, ?_⟩
  rw [hperm.length_eq, List.length_range]
  exact le_max_left _ _

/-! ## The core sets -/

theorem generateCoreSet_eq {countCores : Nat} {cores : List Nat} (h : countCores ≤ cores.length) :
    generateCoreSet countCores cores = some (cores.take countCores) := by
  unfold generateCoreSet
  induction countCores with
  | zero => rfl
  | succ n ih =>
      have hget : cores[n]? = some cores[n] := List.getElem?_eq_getElem (by omega)
      rw [List.range_succ, List.mapM_append, ih (by omega), List.take_add_one, hget]
      simp [hget]

/-- The multiples of the step among the numbers `first .. first + count - 1`. -/
def multiples (coreStep first count : Nat) : List Nat :=
  (List.range' first count).filter fun n => decide (n % coreStep = 0)

theorem increaseCores_eq (coreStep : Nat) {maxCores : Nat} {cores : List Nat}
    (hmax : maxCores < 2 ^ 16 - 1) (hlen : maxCores ≤ cores.length) (rounds countCores : Nat)
    (hc : countCores ≤ maxCores + 1) (hr : maxCores + 1 - countCores < rounds)
    (coreSets : List (List Nat)) :
    increaseCores maxCores coreStep cores rounds countCores coreSets =
      some (coreSets ++ (multiples coreStep countCores (maxCores + 1 - countCores)).map
        cores.take) := by
  induction rounds generalizing countCores coreSets with
  | zero => omega
  | succ rounds ih =>
      unfold increaseCores
      split
      next hle =>
        have hnext : (countCores + 1) % 2 ^ 16 = countCores + 1 := Nat.mod_eq_of_lt (by omega)
        have hcount : maxCores + 1 - countCores = maxCores + 1 - (countCores + 1) + 1 := by omega
        have hcons : ∀ m, multiples coreStep countCores (m + 1) =
            if countCores % coreStep = 0 then countCores :: multiples coreStep (countCores + 1) m
            else multiples coreStep (countCores + 1) m := by
          intro m
          simp only [multiples, List.range'_succ, List.filter_cons, decide_eq_true_eq]
        rw [hnext, hcount, hcons]
        split
        · rw [generateCoreSet_eq (by omega), Option.bind_some, ih _ (by omega) (by omega)]
          simp
        · exact ih _ (by omega) (by omega) coreSets
      next hgt =>
        have hzero : maxCores + 1 - countCores = 0 := by omega
        simp [hzero, multiples]

/-- The numbers of cores that the arguments ask for. -/
def requestedCounts (minCores maxCores coreStep : Nat) : List Nat :=
  if minCores = maxCores then [maxCores]
  else minCores :: multiples coreStep (minCores + 1) (maxCores - minCores - 1) ++ [maxCores]

theorem mem_multiples {coreStep first count n : Nat} :
    n ∈ multiples coreStep first count ↔ first ≤ n ∧ n < first + count ∧ coreStep ∣ n := by
  simp only [multiples, List.mem_filter, List.mem_range'_1, decide_eq_true_eq,
    Nat.dvd_iff_mod_eq_zero, and_assoc]

theorem mem_requestedCounts {minCores maxCores coreStep : Nat} (h : minCores ≤ maxCores) {n : Nat} :
    n ∈ requestedCounts minCores maxCores coreStep ↔
      n = minCores ∨ minCores < n ∧ n < maxCores ∧ coreStep ∣ n ∨ n = maxCores := by
  unfold requestedCounts
  split
  next he =>
    rw [List.mem_singleton, he]
    omega
  next hne =>
    rw [List.cons_append, List.mem_cons, List.mem_append, mem_multiples, List.mem_singleton]
    have hbound : minCores + 1 + (maxCores - minCores - 1) = maxCores := by omega
    rw [hbound, Nat.succ_le_iff]

theorem requestedCounts_increase {minCores maxCores : Nat} (coreStep : Nat)
    (h : minCores ≤ maxCores) :
    (requestedCounts minCores maxCores coreStep).Pairwise (· < ·) := by
  unfold requestedCounts
  split
  · exact List.pairwise_singleton _ _
  next hne =>
    have hbound : ∀ n ∈ multiples coreStep (minCores + 1) (maxCores - minCores - 1),
        minCores < n ∧ n < maxCores := by
      intro n hn
      rcases mem_multiples.mp hn with ⟨h1, h2, _⟩
      omega
    have hinner : (multiples coreStep (minCores + 1) (maxCores - minCores - 1)).Pairwise (· < ·) :=
      (List.pairwise_lt_range' 1 Nat.one_pos).filter _
    rw [List.cons_append, List.pairwise_cons, List.pairwise_append]
    refine ⟨fun n hn => ?_, hinner, List.pairwise_singleton _ _, fun n hn m hm => ?_⟩
    · rcases List.mem_append.mp hn with hn | hn
      · exact (hbound n hn).1
      · rw [List.mem_singleton.mp hn]
        omega
    · rw [List.mem_singleton.mp hm]
      exact (hbound n hn).2

/-- The loop and the two special cases around it reach the requested counts. -/
theorem multiples_around {minCores maxCores : Nat} (coreStep : Nat) (h : minCores < maxCores) :
    requestedCounts minCores maxCores coreStep =
      (if minCores % coreStep ≠ 0 then [minCores] else []) ++
        (if minCores % coreStep ≠ 0 then
          multiples coreStep (minCores + 1) (maxCores + 1 - (minCores + 1))
        else multiples coreStep minCores (maxCores + 1 - minCores)) ++
      if maxCores % coreStep ≠ 0 then [maxCores] else [] := by
  have hlast : multiples coreStep (minCores + 1) (maxCores + 1 - (minCores + 1)) =
      multiples coreStep (minCores + 1) (maxCores - minCores - 1) ++
        if maxCores % coreStep ≠ 0 then [] else [maxCores] := by
    have hcount : maxCores + 1 - (minCores + 1) = maxCores - minCores - 1 + 1 := by omega
    have hend : minCores + 1 + 1 * (maxCores - minCores - 1) = maxCores := by omega
    rw [hcount, multiples, List.range'_concat, hend, List.filter_append, multiples]
    by_cases hm : maxCores % coreStep = 0 <;> simp [hm]
  have hfirst : multiples coreStep minCores (maxCores + 1 - minCores) =
      (if minCores % coreStep ≠ 0 then [] else [minCores]) ++
        multiples coreStep (minCores + 1) (maxCores + 1 - (minCores + 1)) := by
    have hcount : maxCores + 1 - minCores = maxCores + 1 - (minCores + 1) + 1 := by omega
    rw [hcount, multiples, List.range'_succ, List.filter_cons, multiples]
    by_cases hm : minCores % coreStep = 0 <;> simp [hm]
  unfold requestedCounts
  rw [if_neg h.ne, hfirst, hlast]
  by_cases h1 : minCores % coreStep = 0 <;> by_cases h2 : maxCores % coreStep = 0 <;> simp [h1, h2]

theorem coreConfiguration_eq (s : System) (type : CoreOrderType) {minCores maxCores : Nat}
    (coreStep : Nat) (hmin : 1 ≤ minCores) (hle : minCores ≤ maxCores)
    (hmax : maxCores < 2 ^ 16 - 1) :
    coreConfiguration s type minCores maxCores coreStep =
      some ((requestedCounts minCores maxCores coreStep).map
        (generateCoreOrder s type maxCores).take) := by
  have hlen := (nodup_generateCoreOrder s type maxCores).2
  obtain ⟨cores, hcores⟩ : ∃ cores, cores = generateCoreOrder s type maxCores := ⟨_, rfl⟩
  rw [← hcores] at hlen ⊢
  have hsetMax := generateCoreSet_eq hlen
  simp only [coreConfiguration, ← hcores]
  by_cases he : minCores = maxCores
  · rw [if_pos (Or.inr he), hsetMax, requestedCounts, if_pos he]
    rfl
  · have hsetMin := generateCoreSet_eq (show minCores ≤ cores.length by omega)
    have hnext : (minCores + 1) % 2 ^ 16 = minCores + 1 := Nat.mod_eq_of_lt (by omega)
    have hloop := increaseCores_eq coreStep hmax hlen (2 ^ 16)
    rw [if_neg (by omega), multiples_around coreStep (by omega)]
    by_cases h1 : minCores % coreStep = 0
    · have hrun := hloop minCores (by omega) (by omega) []
      generalize 2 ^ 16 = rounds at hrun ⊢
      by_cases h2 : maxCores % coreStep = 0
      · simp [h1, h2, hrun]
      · simp [h1, h2, hrun, hsetMax]
    · have hrun := hloop (minCores + 1) (by omega) (by omega) [cores.take minCores]
      generalize 2 ^ 16 = rounds at hrun hnext ⊢
      by_cases h2 : maxCores % coreStep = 0
      · simp [h1, h2, hsetMin, hnext, hrun]
      · simp [h1, h2, hsetMin, hnext, hrun, hsetMax]

/-- The core sets are the prefixes of one order with the requested numbers of cores; by
NUMA node the order lists every core once, node by node. -/
theorem coreConfiguration_enumerates (s : System) (type : CoreOrderType)
    (minCores maxCores coreStep : Nat) (hmin : 1 ≤ minCores) (hle : minCores ≤ maxCores)
    (hmax : maxCores < 2 ^ 16 - 1) :
    ∃ coreSets, coreConfiguration s type minCores maxCores coreStep = some coreSets ∧
      coreSets.map List.length = requestedCounts minCores maxCores coreStep ∧
      (requestedCounts minCores maxCores coreStep).Pairwise (· < ·) ∧
      (∀ n, n ∈ requestedCounts minCores maxCores coreStep ↔
        n = minCores ∨ minCores < n ∧ n < maxCores ∧ coreStep ∣ n ∨ n = maxCores) ∧
      (∀ coreSet ∈ coreSets, coreSet <+: generateCoreOrder s type maxCores ∧ coreSet.Nodup) ∧
      match type with
      | .logical => generateCoreOrder s type maxCores = List.range (max maxCores s.countCores)
      | .numaAscending =>
          (generateCoreOrder s type maxCores).Perm (List.range (max maxCores s.countCores)) ∧
            (generateCoreOrder s type maxCores).Pairwise fun a b =>
              s.numaId a < s.numaId b ∨ s.numaId a = s.numaId b ∧ a < b := by
  rcases nodup_generateCoreOrder s type maxCores with ⟨hnodup, hlen⟩
  refine ⟨_, coreConfiguration_eq s type coreStep hmin hle hmax, ?_,
    requestedCounts_increase coreStep hle, fun n => mem_requestedCounts hle, ?_, ?_⟩
  · rw [List.map_map]
    conv_rhs => rw [← List.map_id (requestedCounts minCores maxCores coreStep)]
    apply List.map_congr_left
    intro n hn
    have hn' := (mem_requestedCounts hle).mp hn
    simp only [Function.comp_apply, List.length_take, id_eq]
    omega
  · intro coreSet hmem
    rcases List.mem_map.mp hmem with ⟨n, _, rfl⟩
    exact ⟨List.take_prefix _ _, hnodup.sublist (List.take_sublist _ _)⟩
  · cases type with
    | logical => exact generateCoreOrder_logical s maxCores
    | numaAscending => exact generateCoreOrder_numaAscending s maxCores

/-- Four cores, the odd ones on the second NUMA node. -/
def twoNodes : System := ⟨4, fun core => core % 2, by decide, by decide⟩

example : generateCoreOrder twoNodes .numaAscending 4 = [0, 2, 1, 3] := by decide

theorem coreConfiguration_enumerates_two_nodes :
    ∃ coreSets, coreConfiguration twoNodes .numaAscending 1 4 2 = some coreSets ∧
      coreSets.map List.length = [1, 2, 4] := by
  rcases coreConfiguration_enumerates twoNodes .numaAscending 1 4 2 (by decide) (by decide)
    (by decide) with ⟨coreSets, hrun, hlengths, _⟩
  exact ⟨coreSets, hrun, hlengths⟩

end BLinkTree.Benchmark
