import BLinkTree.Latched.Linearizable
import BLinkTree.Searches

/-! # Sequential calls of the latched tree

A call that runs alone. Every section brings the thread closer to its return: the
descent goes down or to the right, and the propagation goes up along the path or to
the right.
-/

namespace BLinkTree.Latched

open Linearization Interleaving

variable {c : Capacity} {t t' : Tree} {g g' : Ghost Nat} {i : Nat}

/-- The result of a thread that is about to return. -/
def Pc.result : Pc → Option Value
  | done _ r => some r
  | _ => none

/-- One call that runs alone. -/
def call (c : Capacity) (fuel : Nat) (t : Tree) (o : Op) : Option (Tree × Value) :=
  solo (next c) Pc.result .go fuel t (.start o)

/-- Calls one after the other, with the tree and the result after each of them. -/
def calls (c : Capacity) (fuel : Nat) : Tree → List Op → Option (List (Tree × Value))
  | _, [] => some []
  | t, o :: ops => do
      let r ← call c fuel t o
      let rest ← calls c fuel r.1 ops
      return r :: rest

/-! ## Termination -/

/-- A thread that runs alone returns, with a tree and a result that meet `Q`. -/
def Returns (c : Capacity) (t : Tree) (pc : Pc) (Q : Tree × Value → Prop) : Prop :=
  ∃ x fuel, Q x ∧ solo (next c) Pc.result .go fuel t pc = some x

theorem returns_done {Q : Tree × Value → Prop} (o : Op) {r : Value} (hQ : Q (t, r)) :
    Returns c t (.done o r) Q :=
  ⟨(t, r), 1, hQ, rfl⟩

theorem returns_of_next {Q : Tree × Value → Prop} {pc pc' : Pc} {e : Option (Event Op Value)}
    (hpc : pc.result = none) (hs : next c t pc .go = some (t', pc', e))
    (h : Returns c t' pc' Q) : Returns c t pc Q := by
  rcases h with ⟨x, fuel, hQ, h⟩
  rcases solo_of_step hpc hs ⟨fuel, h⟩ with ⟨fuel', h'⟩
  exact ⟨x, fuel', hQ, h'⟩

theorem returns_propagate (path : List Nat) (o : Op) {up : Option (Nat × Nat)} {l : Nat}
    (h : Inv c t g) (hp : OnPath t g l path) (hup : Posts t g i l up) :
    Returns c t (propagate o path up) fun _ => True := by
  induction path generalizing t g l up with
  | nil =>
      cases up with
      | none => exact returns_done o trivial
      | some u => exact returns_of_next rfl rfl (returns_done o trivial)
  | cons p ps ih =>
      cases up with
      | none => exact returns_done o trivial
      | some u =>
          obtain ⟨x, s⟩ := u
          obtain ⟨hpend, hlv⟩ := hup
          obtain ⟨h1, h2, h3, h4⟩ := hp
          -- on one level the loop moves right until the high key is above the separator
          suffices hpar : ∀ n < t.count, (t.node n).isLeaf = false → g.level n = g.level p →
              Returns c t (.parent o ps n s x) fun _ => True from hpar p h1 h2 rfl
          refine h.right_induction fun n hn hright hl hlvn => ?_
          by_cases hh : (t.node n).highKey ≤ s
          · obtain ⟨r, hr1, hr2, hr3, hr4, hr5⟩ := h.right_move hn hpend.key_lt hh
            have hs : next c t (.parent o ps n s x) .go =
                some (t, .parent o ps r s x, none) := by
              simp [next, hh, moveRight, hr1]
            exact returns_of_next rfl hs (hright r hr1 (hr5.trans hl) (hr4.trans hlvn))
          · obtain ⟨t1, up, g', i1, i2, i3, i4, i5⟩ :=
              insertIntoInner_spec h hn hl hpend (by omega)
            have hs : next c t (.parent o ps n s x) .go =
                some (t1, propagate o ps up, none) := by
              simp [next, hh, i1]
            refine returns_of_next rfl hs (ih i2 ?_ i5)
            rw [hlvn]
            exact h4.evolves i3

/-- A call that runs alone comes to the leaf that covers its key. -/
theorem returns_enter {Q : Tree × Value → Prop} (h : Inv c t g) {o : Op} (hk : o.key < maxKey)
    (hleaf : ∀ path, ∀ m < t.count, (t.node m).isLeaf = true → g.low m ≤ o.key →
      o.key < (t.node m).highKey → OnPath t g 0 path → Returns c t (.leaf o path m) Q) :
    ∀ n < t.count, g.low n ≤ o.key → ∀ path, OnPath t g (g.level n) path →
      Returns c t (enter t o path (some n)) Q := by
  refine h.search_induction hk fun n hn hlow hright hdown path hp => ?_
  rcases enter_cases t o path n with ⟨hl, he⟩ | ⟨hl, he⟩
  · rw [he]
    by_cases hh : (t.node n).highKey ≤ o.key
    · rcases h.right_move hn hk hh with ⟨r, hr1, _, _, hr4, hr5⟩
      have hs : next c t (.leaf o path n) .go = some (t, .leaf o path r, none) := by
        simp [next, hh, moveRight, hr1]
      have hr := hright r hh hr1 path (by rw [hr4]; exact hp)
      have her : enter t o path (some r) = .leaf o path r := by simp [enter, hr5, hl]
      rw [her] at hr
      exact returns_of_next rfl hs hr
    · exact hleaf path n hn hl hlow (not_le.mp hh) (hp.mono (Nat.zero_le _))
  · rw [he]
    by_cases hh : (t.node n).highKey ≤ o.key
    · rcases h.right_move hn hk hh with ⟨r, hr1, _, _, hr4, hr5⟩
      have hs : next c t (.inner o path n) .go = some (t, .inner o path r, none) := by
        simp [next, hh, moveRight, hr1]
      have hr := hright r hh hr1 path (by rw [hr4]; exact hp)
      have her : enter t o path (some r) = .inner o path r := by simp [enter, hr5, hl]
      rw [her] at hr
      exact returns_of_next rfl hs hr
    · rcases (h.node n hn).child hl hlow with ⟨s, h1, _, _, h4⟩
      have hs : next c t (.inner o path n) .go =
          some (t, enter t o (push o path n) (some s), none) := by
        simp [next, hh, h1]
      exact returns_of_next rfl hs (hdown s hl h1 _ (onPath_push hn hl hp h4))

theorem returns_start {Q : Tree × Value → Prop} (h : Inv c t g) {o : Op} (hk : o.key < maxKey)
    (hleaf : ∀ path, ∀ m < t.count, (t.node m).isLeaf = true → g.low m ≤ o.key →
      o.key < (t.node m).highKey → OnPath t g 0 path → Returns c t (.leaf o path m) Q) :
    ∃ x fuel, Q x ∧ call c fuel t o = some x := by
  have hs : next c t (.start o) .go = some (t, enter t o [] (some t.root), none) := rfl
  have hroot : g.low t.root ≤ o.key := by
    rw [h.low_root]
    exact Nat.zero_le _
  exact returns_of_next rfl hs (returns_enter h hk hleaf t.root h.root_lt hroot [] trivial)

theorem next_leaf {o : Op} {path : List Nat} {n : Nat} (hh : o.key < (t.node n).highKey) :
    next c t (.leaf o path n) .go = some ((leafSection c t o path n).1,
      (leafSection c t o path n).2.1, some (.effect o (leafSection c t o path n).2.2)) := by
  have hnot := not_le.mpr hh
  simp [next, hnot]

/-- Every call of a key below the largest one returns. -/
theorem call_returns (h : Inv c t g) {o : Op} (hk : o.key < maxKey) :
    ∃ x fuel, call c fuel t o = some x := by
  have hret : ∃ x fuel, True ∧ call c fuel t o = some x := by
    refine returns_start h hk fun path m hm hl hlow hhigh hp => ?_
    refine returns_of_next rfl (next_leaf hhigh) ?_
    cases o with
    | insert k v =>
        rcases insertIntoLeaf_spec h 0 hm hl hlow hhigh v with ⟨g', h1, h2, _, h4⟩
        exact returns_propagate path _ h1 (hp.evolves h2) h4
    | update k v => exact returns_done _ trivial
    | find k => exact returns_done _ trivial
  rcases hret with ⟨x, fuel, _, hc⟩
  exact ⟨x, fuel, hc⟩

/-! ## What a call does -/

theorem next_ret {pc pc' : Pc} {o : Op} {r : Value}
    (hs : next c t pc .go = some (t', pc', some (.ret o r))) : pc = .done o r := by
  cases pc with
  | done o' r' =>
      simp only [next, Option.some.injEq, Prod.mk.injEq, Event.ret.injEq] at hs
      rw [hs.2.2.1, hs.2.2.2]
  | inner o' path n =>
      simp only [next] at hs
      split at hs <;> simp at hs
  | leaf o' path n =>
      simp only [next] at hs
      split at hs <;> simp at hs
  | parent o' path n s x =>
      simp only [next] at hs
      split at hs
      · simp at hs
      · split at hs <;> simp at hs
  | _ => simp [next] at hs

theorem result_eq_some {pc : Pc} {r : Value} (h : pc.result = some r) : ∃ o, pc = .done o r := by
  cases pc with
  | done o r' =>
      obtain rfl : r' = r := by simpa [Pc.result] using h
      exact ⟨o, rfl⟩
  | _ => simp [Pc.result] at h

theorem solo_spec {fuel : Nat} {pc : Pc} {r : Value} (h : Inv c t g) (ha : Holds t g 0 pc)
    (hs : solo (next c) Pc.result .go fuel t pc = some (t', r)) :
    ∃ g' : Ghost Nat, Inv c t' g' ∧ Finishes finiteMap t.content t'.content r pc.status := by
  have hrun := solo_finishes (O := finiteMap) (m := Tree.content) (x := Pc.status)
    (P := fun t pc => ∃ g : Ghost Nat, Inv c t g ∧ Holds t g 0 pc) ?_ ?_ ⟨g, h, ha⟩ hs
  · rcases hrun with ⟨_, ⟨g', h', _⟩, _, hfin⟩
    exact ⟨g', h', hfin⟩
  · intro t pc t1 pc1 e hP hr hn
    rcases hP with ⟨g, h, ha⟩
    rcases next_spec h ha (show Act.Valid .go from trivial) hn with ⟨g1, k1, _, k3, k4⟩
    refine ⟨⟨g1, k1, k3⟩, k4, fun o r he => ?_⟩
    rw [he] at hn
    rw [next_ret hn] at hr
    simp [Pc.result] at hr
  · intro pc r hr
    rcases result_eq_some hr with ⟨o, rfl⟩
    exact ⟨o, rfl⟩

/-- Every call of a key below the largest one returns, with a result of the finite map
and with the map's content in the leaves. -/
theorem call_spec (h : Inv c t g) {o : Op} (hk : o.key < maxKey) :
    ∃ t' r fuel, call c fuel t o = some (t', r) ∧ (∃ g' : Ghost Nat, Inv c t' g') ∧
      t'.content = finiteMap.apply t.content o ∧ finiteMap.allows t.content o r := by
  obtain ⟨⟨t', r⟩, fuel, hc⟩ := call_returns h hk
  obtain ⟨g', h1, h2, h3⟩ := solo_spec h (show Holds t g 0 (.start o) from hk) hc
  exact ⟨t', r, fuel, hc, ⟨g', h1⟩, h2, h3⟩

theorem calls_mono {fuel fuel' : Nat} (hf : fuel ≤ fuel') {ops : List Op}
    {rs : List (Tree × Value)} (h : calls c fuel t ops = some rs) :
    calls c fuel' t ops = some rs := by
  induction ops generalizing t rs with
  | nil => exact h
  | cons o ops ih =>
      simp only [calls, Option.bind_eq_bind, Option.bind_eq_some_iff] at h ⊢
      obtain ⟨r, h1, rest, h2, h3⟩ := h
      exact ⟨r, solo_mono h1 hf, rest, ih h2, h3⟩

/-- The trees and results after each call of a sequence are those of the finite map: the
content is strictly sorted and binds what the map binds, and `find` of a bound key
returns the bound value. -/
def Refines (m : Nat → Option Value) : List Op → List (Tree × Value) → Prop
  | [], [] => True
  | o :: ops, (t, r) :: rest =>
      OrderedMap.Sorted t.content ∧ (∀ q, OrderedMap.get? q t.content = o.apply m q) ∧
        (∀ k v, o = .find k → m k = some v → r = v) ∧ Refines (o.apply m) ops rest
  | _, _ => False

theorem calls_refine (h : Inv c t g) {ops : List Op} (hk : ∀ o ∈ ops, o.key < maxKey) :
    ∃ fuel rs, calls c fuel t ops = some rs ∧
      Refines (fun q => OrderedMap.get? q t.content) ops rs := by
  induction ops generalizing t g with
  | nil => exact ⟨0, [], rfl, trivial⟩
  | cons o ops ih =>
      obtain ⟨t', r, f1, h1, ⟨g', h2⟩, h3, h4⟩ := call_spec h (hk o (by simp))
      obtain ⟨f2, rest, h5, h6⟩ := ih h2 fun o' ho' => hk o' (by simp [ho'])
      have hm := get?_apply t.content o
      rw [← h3] at hm
      refine ⟨max f1 f2, (t', r) :: rest, ?_, h2.content_sorted, fun q => congrFun hm q, ?_, ?_⟩
      · have h1' := solo_mono h1 (le_max_left f1 f2)
        have h5' := calls_mono (le_max_right f1 f2) h5
        simp only [calls, call, h1', h5', Option.bind_eq_bind, Option.bind_some]
        rfl
      · rintro k v rfl hg
        exact h4 v hg
      · rw [← hm]
        exact h6

/-- From one thread, every sequence of calls with keys below the largest one returns call
by call and refines the finite map, which starts empty. -/
theorem latched_refines_finiteMap (c : Capacity) (memory : Nat → Memory) (ops : List Op)
    (hk : ∀ o ∈ ops, o.key < maxKey) :
    ∃ fuel rs, (∀ fuel' ≥ fuel, calls c fuel' (Tree.empty memory) ops = some rs) ∧
      Refines (fun _ => none) ops rs := by
  obtain ⟨fuel, rs, h1, h2⟩ := calls_refine (g := Ghost.initial Nat) (inv_empty c memory) hk
  rw [content_empty] at h2
  exact ⟨fuel, rs, fun fuel' hf => calls_mono hf h1, h2⟩

theorem latched_refines_finiteMap_at_split :
    ∃ fuel rs, (∀ fuel' ≥ fuel, calls .smallest fuel' (Tree.empty fun _ => .zero)
        [.insert 5 50, .insert 3 30, .insert 9 90, .update 3 31, .find 3] = some rs) ∧
      Refines (fun _ => none)
        [.insert 5 50, .insert 3 30, .insert 9 90, .update 3 31, .find 3] rs :=
  latched_refines_finiteMap .smallest (fun _ => .zero) _ (by decide)

/-! ## Searches -/

/-- The calls of the latched tree search the covering leaf. -/
theorem serves (c : Capacity) :
    Serves c id (call c) fun t => ∃ g : Ghost Nat, Inv c t g where
  mono := fun _ _ _ _ _ h hf => solo_mono h hf
  inv := fun _ h => h
  insert := by
    intro fuel t t' k v r hI hk hc
    rcases hI with ⟨g, h⟩
    rcases solo_spec h (show Holds t g 0 (.start (.insert k v)) from hk) hc with ⟨g', h1, h2, h3⟩
    exact ⟨⟨g', h1⟩, h2, h3⟩
  find := by
    intro t k n hI hk hn
    rcases hI with ⟨g, h⟩
    have hret : ∃ x fuel, x = (t, (t.node n).findValue c k) ∧ call c fuel t (.find k) = some x := by
      refine returns_start h (o := .find k) hk fun path m hm hl hlow hhigh _ => ?_
      have hmn : m = n := h.eq_of_covers hn hm hl hlow hhigh
      rw [hmn] at hhigh ⊢
      exact returns_of_next rfl (next_leaf hhigh) (returns_done _ rfl)
    rcases hret with ⟨x, fuel, rfl, hc⟩
    exact ⟨fuel, t, hc, ⟨g, h⟩, rfl⟩
  update := by
    intro t k v n hI hk hn
    rcases hI with ⟨g, h⟩
    have hret : ∃ x fuel, x = (t.setNode n ((t.node n).updateValue c k v), 0) ∧
        call c fuel t (.update k v) = some x := by
      refine returns_start h (o := .update k v) hk fun path m hm hl hlow hhigh _ => ?_
      have hmn : m = n := h.eq_of_covers hn hm hl hlow hhigh
      rw [hmn] at hhigh ⊢
      exact returns_of_next rfl (next_leaf hhigh) (returns_done _ rfl)
    rcases hret with ⟨x, fuel, rfl, hc⟩
    rcases h.of_covers hn with ⟨hlow, hhigh⟩
    have hspec := updateValue_spec h 0 hn.1 hn.2.1 hlow hhigh v
    exact ⟨fuel, _, hc, ⟨g, hspec.1⟩, rfl⟩

end BLinkTree.Latched
