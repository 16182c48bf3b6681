import BLinkTree.Lib.OrderedMap

/-! # Positions in ordered lists

What stands below a key in an ordered list is a prefix of it. Its length is what a lower bound
search finds, also between two positions that enclose it, and the entry of the key stands there
if the list has one. Two ordered lists that bind the same keys alike are equal.
-/

namespace OrderedMap

variable {κ β : Type*} [LinearOrder κ] {l m : List (κ × β)} {e : κ × β} {k q : κ} {v : β}
  {i j : Nat}

/-- The bindings of smaller keys. -/
def below (k : κ) (l : List (κ × β)) : List (κ × β) := l.filter fun e => decide (e.1 < k)

/-- The bindings of the key and of larger ones. -/
def atLeast (k : κ) (l : List (κ × β)) : List (κ × β) := l.filter fun e => !decide (e.1 < k)

/-- The number of smaller keys. -/
def rank (k : κ) (l : List (κ × β)) : Nat := (below k l).length

/-- `std::lower_bound` between two positions. -/
def lowerBound (l : List (κ × β)) (i j : Nat) (k : κ) : Nat :=
  i + ((l.take j).drop i).findIdx fun e => !decide (e.1 < k)

/-- The list without the binding of the key. -/
def erase (k : κ) (l : List (κ × β)) : List (κ × β) := l.filter fun e => decide (e.1 ≠ k)

@[simp] theorem mem_below : e ∈ below k l ↔ e ∈ l ∧ e.1 < k := by simp [below]

@[simp] theorem mem_atLeast : e ∈ atLeast k l ↔ e ∈ l ∧ k ≤ e.1 := by simp [atLeast]

@[simp] theorem mem_erase : e ∈ erase k l ↔ e ∈ l ∧ e.1 ≠ k := by simp [erase]

theorem Sorted.below (h : Sorted l) : Sorted (below k l) := List.Pairwise.filter _ h

theorem Sorted.atLeast (h : Sorted l) : Sorted (atLeast k l) := List.Pairwise.filter _ h

theorem Sorted.erase (h : Sorted l) : Sorted (erase k l) := List.Pairwise.filter _ h

/-- A list cut where a property ends that goes down the list. -/
theorem filter_append_filter_not {α : Type*} {l : List α} {p : α → Bool}
    (h : l.Pairwise fun a b => p b = true → p a = true) :
    l.filter p ++ l.filter (fun a => !p a) = l := by
  induction l with
  | nil => rfl
  | cons a l ih =>
      obtain ⟨ha, hl⟩ := List.pairwise_cons.mp h
      by_cases hp : p a = true
      · simpa [hp] using ih hl
      · have hnone : l.filter p = [] :=
          List.filter_eq_nil_iff.mpr fun b hb hpb => hp (ha b hb hpb)
        have hall : l.filter (fun a => !p a) = l := by
          refine List.filter_eq_self.mpr fun b hb => ?_
          simpa using fun hpb => hp (ha b hb hpb)
        simp [hp, hnone, hall]

theorem take_length_filter {α : Type*} {l : List α} {p : α → Bool}
    (h : l.Pairwise fun a b => p b = true → p a = true) : l.take (l.filter p).length = l.filter p := by
  have hsplit := filter_append_filter_not h
  calc l.take (l.filter p).length
      = (l.filter p ++ l.filter fun a => !p a).take (l.filter p).length := by rw [hsplit]
    _ = l.filter p := List.take_left' rfl

theorem drop_length_filter {α : Type*} {l : List α} {p : α → Bool}
    (h : l.Pairwise fun a b => p b = true → p a = true) :
    l.drop (l.filter p).length = l.filter fun a => !p a := by
  have hsplit := filter_append_filter_not h
  calc l.drop (l.filter p).length
      = (l.filter p ++ l.filter fun a => !p a).drop (l.filter p).length := by rw [hsplit]
    _ = l.filter fun a => !p a := List.drop_left' rfl

theorem Sorted.lt_of_lt (h : Sorted l) (k : κ) : l.Pairwise fun a b =>
    decide (b.1 < k) = true → decide (a.1 < k) = true :=
  h.imp fun hab hb => decide_eq_true (hab.trans (of_decide_eq_true hb))

theorem Sorted.below_append (h : Sorted l) (k : κ) :
    OrderedMap.below k l ++ OrderedMap.atLeast k l = l := filter_append_filter_not (h.lt_of_lt k)

theorem Sorted.take_rank (h : Sorted l) (k : κ) : l.take (rank k l) = OrderedMap.below k l :=
  take_length_filter (h.lt_of_lt k)

theorem Sorted.drop_rank (h : Sorted l) (k : κ) : l.drop (rank k l) = OrderedMap.atLeast k l :=
  drop_length_filter (h.lt_of_lt k)

theorem rank_le (k : κ) (l : List (κ × β)) : rank k l ≤ l.length := List.length_filter_le _ _

theorem rank_mono (l : List (κ × β)) (h : k ≤ q) : rank k l ≤ rank q l := by
  refine List.Sublist.length_le ?_
  refine List.monotone_filter_right l fun e he => ?_
  simp only [decide_eq_true_eq] at he ⊢
  exact lt_of_lt_of_le he h

/-- Smaller keys stand in front of the rank, the others behind it. -/
theorem Sorted.getElem_lt_iff (h : Sorted l) (k : κ) (hi : i < l.length) :
    l[i].1 < k ↔ i < rank k l := by
  constructor
  · intro hlt
    by_contra hge
    have hmem : l[i] ∈ l.drop (rank k l) := by
      rw [List.mem_drop_iff_getElem]
      exact ⟨i - rank k l, by omega, by simp only [Nat.add_sub_cancel' (not_lt.mp hge)]⟩
    rw [h.drop_rank k] at hmem
    exact absurd hlt (not_lt.mpr (mem_atLeast.mp hmem).2)
  · intro hlt
    have hmem : l[i] ∈ l.take (rank k l) := List.mem_take_iff_getElem.mpr ⟨i, by omega, rfl⟩
    rw [h.take_rank k] at hmem
    exact (mem_below.mp hmem).2

/-- A search between positions that enclose the rank finds the rank. -/
theorem Sorted.lowerBound_eq (h : Sorted l) (hi : i ≤ rank k l) (hj : rank k l ≤ j) :
    lowerBound l i j k = rank k l := by
  have hlen := rank_le k l
  unfold lowerBound
  generalize hp : (fun e : κ × β => !decide (e.1 < k)) = p
  have hsegment : ((l.take j).drop i).length = min j l.length - i := by simp
  have hat : ∀ t (ht : t < ((l.take j).drop i).length), p (((l.take j).drop i)[t]) = true ↔
      rank k l ≤ i + t := by
    intro t ht
    have ht' : i + t < l.length := by omega
    have hget : ((l.take j).drop i)[t] = l[i + t] := by simp
    rw [hget, ← hp]
    simp only [Bool.not_eq_true', decide_eq_false_iff_not, h.getElem_lt_iff k ht', not_lt]
  have hfind : ((l.take j).drop i).findIdx p = rank k l - i := by
    rcases Nat.lt_or_ge (rank k l - i) ((l.take j).drop i).length with hlt | hge
    · refine (List.findIdx_eq hlt).mpr ⟨(hat _ hlt).mpr (by omega), ?_⟩
      intro t ht
      have hfalse := (hat t (by omega)).not.mpr (by omega)
      simpa using hfalse
    · have hlast : rank k l - i = ((l.take j).drop i).length := by omega
      rw [hlast]
      refine List.findIdx_eq_length.mpr fun e he => ?_
      obtain ⟨t, ht, rfl⟩ := List.getElem_of_mem he
      have hfalse := (hat t ht).not.mpr (by omega)
      simpa using hfalse
  omega

/-- What stands at the rank. -/
theorem Sorted.getElem?_rank (h : Sorted l) (k : κ) :
    l[rank k l]? = (OrderedMap.atLeast k l).head? := by
  rw [← h.drop_rank k, List.head?_drop]

/-! ## Bindings -/

theorem get?_append (k : κ) (l m : List (κ × β)) : get? k (l ++ m) = (get? k l).or (get? k m) := by
  unfold get?
  rw [List.find?_append]
  cases l.find? fun e => decide (e.1 = k) <;> rfl

theorem get?_eq_none (h : ∀ e ∈ l, e.1 ≠ k) : get? k l = none := by
  refine get?_eq_none_iff.mpr fun hmem => ?_
  obtain ⟨e, he, heq⟩ := List.mem_map.mp hmem
  exact h e he heq

/-- A filter keeps the binding of a key or takes it away. -/
theorem get?_filter (p : κ → Bool) (k : κ) (l : List (κ × β)) :
    get? k (l.filter fun e => p e.1) = if p k then get? k l else none := by
  induction l with
  | nil => simp [get?]
  | cons a l ih =>
      by_cases ha : p a.1
      · rw [List.filter_cons_of_pos (by simpa using ha), get?_cons, get?_cons, ih]
        by_cases hk : a.1 = k
        · subst hk
          simp [ha]
        · simp [hk]
      · rw [List.filter_cons_of_neg (by simpa using ha), get?_cons, ih]
        by_cases hk : a.1 = k
        · subst hk
          simp [ha]
        · simp [hk]

theorem get?_below (k q : κ) (l : List (κ × β)) :
    get? q (below k l) = if q < k then get? q l else none := by
  unfold below
  rw [get?_filter fun x => decide (x < k)]
  simp

theorem get?_erase (k q : κ) (l : List (κ × β)) :
    get? q (erase k l) = if q = k then none else get? q l := by
  unfold erase
  rw [get?_filter fun x => decide (x ≠ k)]
  by_cases hq : q = k <;> simp [hq]

theorem Sorted.mem_iff (h : Sorted l) : (k, v) ∈ l ↔ get? k l = some v :=
  ⟨get?_eq_some_of_mem h, mem_of_get?⟩

/-- An ordered list is determined by what it binds. -/
theorem Sorted.ext (hl : Sorted l) (hm : Sorted m) (h : ∀ k, get? k l = get? k m) : l = m := by
  have hmem : ∀ e, e ∈ l ↔ e ∈ m := fun e => by rw [hl.mem_iff, hm.mem_iff, h e.1]
  have hnodup : ∀ {x : List (κ × β)}, Sorted x → x.Nodup := fun hx =>
    List.Pairwise.imp (fun hab heq => absurd (heq ▸ hab) (lt_irrefl _)) hx
  refine List.Perm.eq_of_pairwise (fun a b _ _ hab hba => absurd hab (lt_asymm hba)) hl hm ?_
  exact (List.perm_ext_iff_of_nodup (hnodup hl) (hnodup hm)).mpr hmem

/-- Where the key is, the entry at its rank is its binding. -/
theorem Sorted.get?_eq (h : Sorted l) (k : κ) :
    get? k l = (l[rank k l]?).bind fun e => if e.1 = k then some e.2 else none := by
  rw [h.getElem?_rank k]
  conv_lhs => rw [← h.below_append k, get?_append,
    get?_eq_none (l := OrderedMap.below k l) fun e he => (mem_below.mp he).2.ne]
  cases hr : OrderedMap.atLeast k l with
  | nil => rfl
  | cons a r =>
      rw [Option.none_or, get?_cons, List.head?_cons, Option.bind_some]
      split
      · rfl
      next hne =>
        refine get?_eq_none fun e he heq => ?_
        have hsorted : Sorted (a :: r) := hr ▸ h.atLeast
        have hlt := (sorted_cons.mp hsorted).1 e he
        have hge : k ≤ a.1 := (mem_atLeast.mp (hr ▸ List.mem_cons_self ..)).2
        exact absurd (heq ▸ hlt) (not_lt.mpr hge)

/-- A key that the list binds stands at its rank. -/
theorem Sorted.mem_keys_iff (h : Sorted l) (k : κ) :
    k ∈ l.map Prod.fst ↔ ∃ e, l[rank k l]? = some e ∧ e.1 = k := by
  rw [← not_iff_not, ← get?_eq_none_iff, h.get?_eq k]
  cases l[rank k l]? with
  | none => simp
  | some e => by_cases he : e.1 = k <;> simp [he]

/-! ## Parts of a list -/

theorem Sorted.slice (h : Sorted l) (i j : Nat) : Sorted ((l.take j).drop i) :=
  List.Pairwise.sublist ((List.drop_sublist _ _).trans (List.take_sublist _ _)) h

theorem Sorted.rank_slice (h : Sorted l) (hi : i ≤ rank k l) (hj : rank k l ≤ j) :
    rank k ((l.take j).drop i) = rank k l - i := by
  have hpart : OrderedMap.below k ((l.take j).drop i) = (l.take (rank k l)).drop i := by
    have hsplit : l.take j = l.take (rank k l) ++ (l.drop (rank k l)).take (j - rank k l) := by
      conv_lhs => rw [← Nat.add_sub_cancel' hj, List.take_add]
    have hlen : i ≤ (l.take (rank k l)).length := by
      rw [List.length_take]
      exact le_min hi (hi.trans (rank_le k l))
    have hlow : OrderedMap.below k ((l.take (rank k l)).drop i) = (l.take (rank k l)).drop i := by
      refine List.filter_eq_self.mpr fun e he => ?_
      have hmem := List.mem_of_mem_drop he
      rw [h.take_rank k] at hmem
      simpa using (mem_below.mp hmem).2
    have hhigh : OrderedMap.below k ((l.drop (rank k l)).take (j - rank k l)) = [] := by
      refine List.filter_eq_nil_iff.mpr fun e he => ?_
      have hmem := List.mem_of_mem_take he
      rw [h.drop_rank k] at hmem
      simpa using (mem_atLeast.mp hmem).2
    rw [hsplit, List.drop_append_of_le_length hlen, OrderedMap.below, List.filter_append]
    exact (congrArg₂ (· ++ ·) hlow hhigh).trans (List.append_nil _)
  have hlen := rank_le k l
  conv_lhs => rw [rank, hpart]
  simp only [List.length_drop, List.length_take]
  omega

/-- What is smaller in a part of a list. -/
theorem Sorted.below_slice (h : Sorted l) (hi : i ≤ rank k l) (hj : rank k l ≤ j) :
    OrderedMap.below k ((l.take j).drop i) = (l.take (rank k l)).drop i := by
  rw [← (h.slice i j).take_rank k, h.rank_slice hi hj, List.take_drop, Nat.add_sub_cancel' hi,
    List.take_take, min_eq_left hj]

/-- What is larger stands behind the rank and the binding of the key. -/
theorem Sorted.filter_gt (h : Sorted l) (k : κ) : (l.filter fun e => decide (k < e.1)) =
    l.drop (rank k l + (decide (k ∈ l.map Prod.fst)).toNat) := by
  induction l with
  | nil => simp
  | cons a l ih =>
      obtain ⟨ha, hl⟩ := sorted_cons.mp h
      have hcons : ∀ {q}, q ≤ a.1 → OrderedMap.below q (a :: l) = [] := by
        refine fun hq => List.filter_eq_nil_iff.mpr fun e he => ?_
        rcases List.mem_cons.mp he with rfl | he
        · simpa using hq
        · simpa using hq.trans (ha e he).le
      rcases lt_trichotomy a.1 k with hk | hk | hk
      · have hrank : rank k (a :: l) = rank k l + 1 := by simp [rank, OrderedMap.below, hk]
        have hmem : decide (k ∈ (a :: l).map Prod.fst) = decide (k ∈ l.map Prod.fst) := by
          simp [hk.ne']
        rw [List.filter_cons_of_neg (by simpa using hk.le), ih hl, hrank, hmem,
          Nat.add_right_comm, List.drop_succ_cons]
      · subst hk
        have hmem : decide (a.1 ∈ (a :: l).map Prod.fst) = true := by simp
        rw [List.filter_cons_of_neg (by simp), rank, hcons le_rfl, hmem]
        refine List.filter_eq_self.mpr fun e he => ?_
        simpa using ha e he
      · have hmem : decide (k ∈ (a :: l).map Prod.fst) = false := by
          refine decide_eq_false fun hmem => ?_
          obtain ⟨e, he, heq⟩ := List.mem_map.mp hmem
          rcases List.mem_cons.mp he with rfl | he
          · exact hk.ne' heq
          · exact (hk.trans (ha e he)).ne' heq
        rw [rank, hcons hk.le, hmem]
        refine List.filter_eq_self.mpr fun e he => ?_
        rcases List.mem_cons.mp he with rfl | he
        · simpa using hk
        · simpa using hk.trans (ha e he)

/-- What is larger in a part of a list that has the binding of the key. -/
theorem Sorted.filter_gt_slice (h : Sorted l) (hi : i ≤ rank k l) (hj : rank k l ≤ j)
    (hk : k ∈ l.map Prod.fst → rank k l < j) :
    ((l.take j).drop i).filter (fun e => decide (k < e.1)) =
      (l.take j).drop (rank k l + (decide (k ∈ l.map Prod.fst)).toNat) := by
  have hmem : k ∈ ((l.take j).drop i).map Prod.fst ↔ k ∈ l.map Prod.fst := by
    rw [(h.slice i j).mem_keys_iff k, h.mem_keys_iff k, h.rank_slice hi hj, List.getElem?_drop,
      Nat.add_sub_cancel' hi, List.getElem?_take]
    by_cases hlt : rank k l < j
    · rw [if_pos hlt]
    · rw [if_neg hlt]
      have hnone := mt hk hlt
      rw [h.mem_keys_iff k] at hnone
      simp only [reduceCtorEq, false_and, exists_false, hnone]
  rw [(h.slice i j).filter_gt k, h.rank_slice hi hj, List.drop_drop, decide_eq_decide.mpr hmem]
  congr 1
  omega

theorem length_erase (h : Sorted l) (hk : k ∈ l.map Prod.fst) :
    (erase k l).length + 1 = l.length := by
  induction l with
  | nil => simp at hk
  | cons a l ih =>
      obtain ⟨ha, hl⟩ := sorted_cons.mp h
      by_cases heq : a.1 = k
      · have hrest : erase k (a :: l) = l := by
          unfold erase
          rw [List.filter_cons_of_neg (by simp [heq])]
          refine List.filter_eq_self.mpr fun e he => ?_
          simpa [← heq] using (ha e he).ne'
        rw [hrest, List.length_cons]
      · have hin : k ∈ l.map Prod.fst := by
          rcases List.mem_cons.mp hk with hk | hk
          · exact absurd hk.symm heq
          · exact hk
        have hrest : erase k (a :: l) = a :: erase k l := by
          unfold erase
          rw [List.filter_cons_of_pos (by simp [heq])]
        rw [hrest, List.length_cons, List.length_cons, ih hl hin]

/-! ## Changes over a list

A run of changes gives keys a new binding or none. Laid over a list it decides about its keys.
-/

/-- The binding that a change leaves. -/
def written (d : κ × Option β) : List (κ × β) := d.2.toList.map fun v => (d.1, v)

/-- The changes laid over the list. -/
def overlay (l : List (κ × β)) : List (κ × Option β) → List (κ × β)
  | [] => l
  | d :: ds => below d.1 l ++ (written d ++ overlay (l.filter fun e => decide (d.1 < e.1)) ds)

omit [LinearOrder κ] in
theorem mem_written {d : κ × Option β} : e ∈ written d ↔ e.1 = d.1 ∧ d.2 = some e.2 := by
  obtain ⟨x, o⟩ := d
  obtain ⟨k, v⟩ := e
  cases o with
  | none => simp [written]
  | some w =>
      simp only [written, Option.toList_some, List.map_cons, List.map_nil, List.mem_singleton,
        Prod.mk.injEq, Option.some.injEq]
      exact and_congr_right fun _ => eq_comm

theorem mem_overlay {ds : List (κ × Option β)} (h : e ∈ overlay l ds) :
    e ∈ l ∨ e.1 ∈ ds.map Prod.fst := by
  induction ds generalizing l with
  | nil => exact .inl h
  | cons d ds ih =>
      rcases List.mem_append.mp h with h | h
      · exact .inl (mem_below.mp h).1
      rcases List.mem_append.mp h with h | h
      · exact .inr (List.mem_cons.mpr (.inl (mem_written.mp h).1))
      rcases ih h with h | h
      · exact .inl (List.mem_filter.mp h).1
      · exact .inr (List.mem_cons_of_mem _ h)

theorem sorted_overlay {ds : List (κ × Option β)} (hl : Sorted l) (hd : Sorted ds) :
    Sorted (overlay l ds) := by
  induction ds generalizing l with
  | nil => exact hl
  | cons d ds ih =>
      obtain ⟨hlt, hds⟩ := sorted_cons.mp hd
      have hrest : ∀ e ∈ overlay (l.filter fun e => decide (d.1 < e.1)) ds, d.1 < e.1 := by
        intro e he
        rcases mem_overlay he with h | h
        · simpa using (List.mem_filter.mp h).2
        · obtain ⟨b, hb, heq⟩ := List.mem_map.mp h
          exact heq ▸ hlt b hb
      have hone : Sorted (written d) := by
        unfold written
        cases d.2 with
        | none => exact sorted_nil
        | some v => exact List.pairwise_singleton _ _
      refine hl.below.append (hone.append (ih (List.Pairwise.filter _ hl) hds) ?_) ?_
      · intro a ha b hb
        rw [(mem_written.mp ha).1]
        exact hrest b hb
      · intro a ha b hb
        have hlow := (mem_below.mp ha).2
        rcases List.mem_append.mp hb with hb | hb
        · rw [(mem_written.mp hb).1]
          exact hlow
        · exact hlow.trans (hrest b hb)

theorem get?_overlay {ds : List (κ × Option β)} (hd : Sorted ds) (k : κ) :
    get? k (overlay l ds) = (get? k ds).getD (get? k l) := by
  induction ds generalizing l with
  | nil => rfl
  | cons d ds ih =>
      obtain ⟨hlt, hds⟩ := sorted_cons.mp hd
      rw [overlay, get?_append, get?_append, ih hds, get?_below, get?_cons,
        get?_filter fun x => decide (d.1 < x)]
      have hnone : ∀ {q}, q ≤ d.1 → get? q ds = none := fun hq =>
        get?_eq_none fun b hb => (lt_of_le_of_lt hq (hlt b hb)).ne'
      rcases lt_trichotomy k d.1 with hk | hk | hk
      · have hw : get? k (written d) = none :=
          get?_eq_none fun e he => by rw [(mem_written.mp he).1]; exact hk.ne'
        simp [hk, hk.ne', hw, hnone hk.le, not_lt.mpr hk.le]
      · have hw : get? k (written d) = d.2 := by
          subst hk
          obtain ⟨x, o⟩ := d
          cases o <;> simp [written, get?]
        rw [if_neg hk.not_lt, hnone hk.le, if_pos hk.symm, hw]
        simp [hk]
      · have hw : get? k (written d) = none :=
          get?_eq_none fun e he => by rw [(mem_written.mp he).1]; exact hk.ne
        simp [hk, hk.ne, hw, not_lt.mpr hk.le]

end OrderedMap
