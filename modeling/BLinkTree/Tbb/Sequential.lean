import BLinkTree.Tbb.Linearizable
import BLinkTree.Searches

/-! # Tasks one after the other

A task that is executed alone until it ends. All builds do the same then: nobody else
moves a version or waits for a latch.
-/

namespace BLinkTree.Tbb

open Linearization Interleaving

variable {c : Capacity} {t t' : Tree} {g : Ghost Nat}

/-- One task that runs alone. -/
def call (c : Capacity) (fuel : Nat) (t : Tree) (o : Op) : Option (Tree × Value) :=
  solo (next c) Pc.result .go fuel t (.task o none t.root)

theorem next_ret {pc pc' : Pc} {o : Op} {r : Value}
    (hs : next c t pc .go = some (t', pc', some (.ret o r))) : pc = .done o r := by
  cases pc with
  | idle => simp [next] at hs
  | lost o' => simp [next] at hs
  | done o' r' =>
      simp only [next, Option.some.injEq, Prod.mk.injEq, Event.ret.injEq] at hs
      rw [hs.2.2.1, hs.2.2.2]
  | task o' separator n =>
      simp only [next] at hs
      split at hs
      · simp at hs
      next x hx =>
        cases he : x.effect with
        | none => simp [he] at hs
        | some r' => simp [he] at hs

theorem result_eq_some {pc : Pc} {r : Value} (h : pc.result = some r) : ∃ o, pc = .done o r := by
  cases pc with
  | done o r' =>
      obtain rfl : r' = r := by simpa [Pc.result] using h
      exact ⟨o, rfl⟩
  | _ => simp [Pc.result] at h

theorem solo_spec {fuel : Nat} {pc : Pc} {r : Value} (h : Sound False c t g)
    (ha : Holds False t g 0 pc) (hs : solo (next c) Pc.result .go fuel t pc = some (t', r)) :
    ∃ g' : Ghost Nat, Sound False c t' g' ∧
      Finishes finiteMap t.content t'.content r pc.status := by
  have hrun := solo_finishes (O := finiteMap) (m := Tree.content) (x := Pc.status)
    (P := fun t pc => ∃ g : Ghost Nat, Sound False c t g ∧ Holds False t g 0 pc) ?_ ?_
    ⟨g, h, ha⟩ hs
  · rcases hrun with ⟨_, ⟨g', h', _⟩, _, hfin⟩
    exact ⟨g', h', hfin⟩
  · intro t pc t1 pc1 e hP hr hn
    rcases hP with ⟨g, h, ha⟩
    rcases next_spec h ha (show Act.Valid .go from trivial) False.elim hn with ⟨g1, k1, _, k3, k4⟩
    refine ⟨⟨g1, k1, k3⟩, k4, fun o r he => ?_⟩
    rw [he] at hn
    rw [next_ret hn] at hr
    simp [Pc.result] at hr
  · intro pc r hr
    rcases result_eq_some hr with ⟨o, rfl⟩
    exact ⟨o, rfl⟩

/-- A task whose leaf step completes it comes to the covering leaf. -/
theorem call_of_step (h : Inv c t g) {o : Op} (hk : o.key < maxKey) {n : Nat}
    (hn : t.Covers n o.key) {r : Value}
    (hx : work c t o none n = some ⟨t', none, none, some r, true⟩) :
    ∃ fuel, call c fuel t o = some (t', r) := by
  have hroot : g.low t.root ≤ o.key := by
    rw [h.low_root]
    exact Nat.zero_le _
  refine solo_task h hk (fun m hm hl hlow hhigh => ?_) t.root h.root_lt hroot
  obtain rfl : m = n := h.eq_of_covers hn hm hl hlow hhigh
  have hnot : ¬ (t.node m).highKey ≤ o.key := not_le.mpr hhigh
  have hs : next c t (.task o none m) .go = some (t', .done o r, some (.effect o r)) := by
    simp [next, execute, advance, hnot, hl, hx, Executed.pc]
  exact solo_of_step rfl hs ⟨1, rfl⟩

/-- The tasks search the covering leaf. -/
theorem serves (c : Capacity) :
    Serves c id (call c) fun t => ∃ g : Ghost Nat, Sound False c t g where
  mono := fun _ _ _ _ _ h hf => solo_mono h hf
  inv := fun _ ⟨g, h⟩ => ⟨g, h.inv⟩
  insert := by
    intro fuel t t' k v r hI hk hc
    rcases hI with ⟨g, h⟩
    have ha : Holds False t g 0 (.task (.insert k v) none t.root) := ⟨hk, Reached.root h.inv _⟩
    rcases solo_spec h ha hc with ⟨g', h1, h2, h3⟩
    exact ⟨⟨g', h1⟩, h2, h3⟩
  find := by
    intro t k n hI hk hn
    rcases hI with ⟨g, h⟩
    rcases call_of_step (o := .find k) h.inv hk hn rfl with ⟨fuel, hc⟩
    exact ⟨fuel, t, hc, ⟨g, h⟩, rfl⟩
  update := by
    intro t k v n hI hk hn
    rcases hI with ⟨g, h⟩
    rcases call_of_step (o := .update k v) h.inv hk hn rfl with ⟨fuel, hc⟩
    have ha : Holds False t g 0 (.task (.update k v) none t.root) := ⟨hk, Reached.root h.inv _⟩
    rcases solo_spec h ha hc with ⟨g', h1, _⟩
    exact ⟨fuel, _, hc, ⟨g', h1⟩, rfl⟩

end BLinkTree.Tbb
