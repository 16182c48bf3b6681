import BLinkTree.Bw.Leaf

/-! # Consolidation and split of a leaf

The consolidation keeps of every key the newest record and lays these records over the base
leaf, at the positions they carry. The result has exactly the entries of the chain.
-/

namespace BwTree

open OrderedMap

variable {κ β : Type} [LinearOrder κ]

/-- Records in key order, one for a key. -/
def InKeyOrder (ds : List (LeafDelta κ β)) : Prop := ds.Pairwise fun a b => a.key < b.key

theorem InKeyOrder.changes {ds : List (LeafDelta κ β)} (h : InKeyOrder ds) :
    Sorted (ds.map LeafDelta.change) := List.pairwise_map.mpr h

theorem get?_changes {ds : List (LeafDelta κ β)} {q : κ} {o : Option β} (h : InKeyOrder ds) :
    get? q (ds.map LeafDelta.change) = some o ↔ ∃ d ∈ ds, d.key = q ∧ d.effect = o := by
  rw [← h.changes.mem_iff, List.mem_map]
  simp only [LeafDelta.change, Prod.mk.injEq]

theorem get?_changes_eq_none {ds : List (LeafDelta κ β)} {q : κ} :
    get? q (ds.map LeafDelta.change) = none ↔ ∀ d ∈ ds, d.key ≠ q := by
  rw [get?_eq_none_iff]
  simp [LeafDelta.change]

namespace LeafNode

variable {keyHash : κ → BitVec 64} {n child right : LeafNode κ β} {d : LeafDelta κ β}
  {sep high : κ × NodeId} {k q : κ} {items : List (κ × β)} {ds : List (LeafDelta κ β)}
  {copyEnd : Nat}

/-! ## The merge loops -/

omit [LinearOrder κ] in
theorem pushed_eq (d : LeafDelta κ β) : pushed d = written d.change := by
  unfold pushed written LeafDelta.change LeafDelta.effect
  cases d.type <;> rfl

/-- The record is at its position in the base leaf, in front of the end of what is copied. -/
structure Fits (items : List (κ × β)) (copyEnd : Nat) (d : LeafDelta κ β) : Prop where
  index : d.indexPair = (rank d.key items, decide (d.key ∈ items.map Prod.fst))
  le : rank d.key items ≤ copyEnd
  lt : d.key ∈ items.map Prod.fst → rank d.key items < copyEnd

/-- The loops lay the records over what is left of the base leaf. -/
theorem drain_eq (current : Nat) (overwritten : Bool) (hs : Sorted items) (hd : InKeyOrder ds)
    (hfit : ∀ d ∈ ds, Fits items copyEnd d)
    (hstart : ∀ d ∈ ds, current + overwritten.toNat ≤ rank d.key items)
    (hcur : current + overwritten.toNat ≤ copyEnd) :
    drain items copyEnd ds current overwritten = some
      (overlay ((items.take copyEnd).drop (current + overwritten.toNat))
        (ds.map LeafDelta.change)) := by
  induction ds generalizing current overwritten with
  | nil => rw [drain, slice, if_pos hcur, List.map_nil, overlay]
  | cons d ds ih =>
      obtain ⟨hlt, hrest⟩ := List.pairwise_cons.mp hd
      obtain ⟨hindex, hle, hpresent⟩ := hfit d (List.mem_cons_self ..)
      have hfrom := hstart d (List.mem_cons_self ..)
      -- what follows the record starts behind the item that it replaces
      have hnext : ∀ d' ∈ ds, rank d.key items + d.indexPair.2.toNat ≤ rank d'.key items := by
        intro d' hd'
        have hmono := rank_mono items (hlt d' hd').le
        rw [hindex]
        by_cases hmem : d.key ∈ items.map Prod.fst
        · obtain ⟨e, he, heq⟩ := (hs.mem_keys_iff d.key).mp hmem
          obtain ⟨hi, hget⟩ := List.getElem?_eq_some_iff.mp he
          have hkey : items[rank d.key items].1 = d.key := by rw [hget, heq]
          have hbelow := (hs.getElem_lt_iff d'.key hi).mp (hkey.symm ▸ hlt d' hd')
          simp only [hmem, decide_true, Bool.toNat_true]
          omega
        · simpa [hmem] using hmono
      have hend : rank d.key items + d.indexPair.2.toNat ≤ copyEnd := by
        rw [hindex]
        by_cases hmem : d.key ∈ items.map Prod.fst
        · have hlt' := hpresent hmem
          simp only [hmem, decide_true, Bool.toNat_true]
          omega
        · simpa [hmem] using hle
      have htail := ih _ _ hrest (fun d' hd' => hfit d' (List.mem_cons_of_mem _ hd')) hnext hend
      have habove := hs.filter_gt_slice hfrom hle hpresent
      have hbelow := hs.below_slice hfrom hle
      have hkey : d.indexPair.1 = rank d.key items := by rw [hindex]
      have hflag : d.indexPair.2 = decide (d.key ∈ items.map Prod.fst) := by rw [hindex]
      have hchange : d.change.1 = d.key := rfl
      rw [List.map_cons, overlay, hchange, hbelow, habove, ← hflag, drain, hkey]
      split
      next hsame =>
        -- the item at this position has not been replaced yet
        have hnot : overwritten = false := by
          cases overwritten with
          | false => rfl
          | true => simp only [Bool.toNat_true] at hfrom; omega
        subst hsame hnot
        rw [Bool.false_or, htail, Option.map_some, pushed_eq]
        simp
      next hne =>
        rw [slice, if_pos hfrom, Option.bind_some, htail, Option.map_some, pushed_eq,
          List.append_assoc]

/-! ## The records of a leaf -/

/-- `sss_end_it` is behind the last record below the high key. -/
theorem rdropWhile_eq {α : Type*} {l : List α} {p : α → Bool}
    (h : l.Pairwise fun a b => p b = true → p a = true) :
    l.rdropWhile (fun a => !p a) = l.filter p := by
  have hnot : ∀ a ∈ l.filter p, p a = true := fun a ha => (List.mem_filter.mp ha).2
  have hall : ∀ a ∈ l.filter (fun a => !p a), p a = false := fun a ha => by
    simpa using (List.mem_filter.mp ha).2
  conv_lhs => rw [← filter_append_filter_not h]
  generalize l.filter p = l₁ at hnot ⊢
  generalize (l.filter fun a => !p a) = l₂ at hall ⊢
  induction l₂ using List.reverseRecOn with
  | nil =>
      rw [List.append_nil, List.rdropWhile_eq_self_iff]
      intro hne
      simpa using hnot _ (List.getLast_mem hne)
  | append_singleton l₂ a ih =>
      rw [← List.append_assoc, List.rdropWhile_concat_pos _ _ _ (by simp [hall a (by simp)])]
      exact ih fun b hb => hall b (List.mem_append_left _ hb)

/-- The records of the small set that belong to a node with this high key. -/
def ofNode (high : κ × NodeId) (ds : List (LeafDelta κ β)) : List (LeafDelta κ β) :=
  ds.filter fun d => decide (IsBelow high d.key)

/-- The records that are left for nodes further right. -/
def notOfNode (high : κ × NodeId) (ds : List (LeafDelta κ β)) : List (LeafDelta κ β) :=
  ds.filter fun d => !decide (IsBelow high d.key)

theorem collectRecursive_leaf {low high' : κ × NodeId} {s : Collection κ β keyHash}
    (hs : Sorted items) (hd : InKeyOrder s.sss)
    (hindex : ∀ d ∈ s.sss, IsBelow high d.key →
      d.indexPair = (rank d.key items, decide (d.key ∈ items.map Prod.fst))) :
    collectRecursive high (leaf low high' items) s = some
      { s with
        sss := notOfNode high s.sss
        items := s.items ++ overlay (items.filter fun e => decide (IsBelow high e.1))
          ((ofNode high s.sss).map LeafDelta.change) } := by
  have hdown : s.sss.Pairwise fun a b => decide (IsBelow high b.key) = true →
      decide (IsBelow high a.key) = true :=
    hd.imp fun hab hb => decide_eq_true ((of_decide_eq_true hb).mono hab.le)
  have hsmaller : items.Pairwise fun a b => decide (IsBelow high b.1) = true →
      decide (IsBelow high a.1) = true :=
    hs.imp fun hab hb => decide_eq_true ((of_decide_eq_true hb).mono hab.le)
  -- where the scans for the high key end
  have hstop : (if high.2 = invalidNodeId then s.sss.length
      else (s.sss.rdropWhile fun d => !decide (d.key < high.1)).length) =
      (ofNode high s.sss).length := by
    split
    next hinf =>
      have hall : ofNode high s.sss = s.sss :=
        List.filter_eq_self.mpr fun d _ => decide_eq_true (.inl hinf)
      rw [hall]
    next hfin =>
      have hp : (fun d : LeafDelta κ β => !decide (d.key < high.1)) =
          fun d => !decide (IsBelow high d.key) := by
        funext d
        simp only [isBelow_iff hfin]
      rw [hp, rdropWhile_eq hdown]
      rfl
  have hend : (if high.2 = invalidNodeId then items.length
      else lowerBound items 0 items.length high.1) =
      (items.filter fun e => decide (IsBelow high e.1)).length := by
    split
    next hinf =>
      have hall : (items.filter fun e => decide (IsBelow high e.1)) = items :=
        List.filter_eq_self.mpr fun e _ => decide_eq_true (.inl hinf)
      rw [hall]
    next hfin =>
      rw [hs.lowerBound_eq (Nat.zero_le _) (rank_le _ _), rank, below]
      simp only [isBelow_iff hfin]
  have hof : InKeyOrder (ofNode high s.sss) := List.Pairwise.filter _ hd
  have hfit : ∀ d ∈ ofNode high s.sss,
      Fits items (items.filter fun e => decide (IsBelow high e.1)).length d := by
    intro d hd'
    obtain ⟨hmem, hbelow⟩ := List.mem_filter.mp hd'
    have hkey := of_decide_eq_true hbelow
    have hsub : ∀ e : κ × β, decide (e.1 < d.key) = true → decide (IsBelow high e.1) = true :=
      fun e he => decide_eq_true (hkey.mono (of_decide_eq_true he).le)
    have hle := (List.monotone_filter_right items hsub).length_le
    refine ⟨hindex d hmem hkey, hle, fun hin => ?_⟩
    obtain ⟨e, he, heq⟩ := (hs.mem_keys_iff d.key).mp hin
    obtain ⟨hi, hget⟩ := List.getElem?_eq_some_iff.mp he
    by_contra hge
    have hsame : (items.filter fun e => decide (IsBelow high e.1)).length = rank d.key items :=
      le_antisymm (not_lt.mp hge) hle
    have hlast : e ∈ items.drop (items.filter fun e => decide (IsBelow high e.1)).length := by
      rw [hsame]
      exact List.mem_drop_iff_getElem.mpr ⟨0, by omega, by simpa using hget⟩
    rw [drop_length_filter hsmaller] at hlast
    have hout := (List.mem_filter.mp hlast).2
    simp only [Bool.not_eq_true', decide_eq_false_iff_not] at hout
    exact hout (heq ▸ hkey)
  have hloops := drain_eq 0 false hs hof hfit (by simp) (by simp)
  rw [take_length_filter hsmaller] at hloops
  have htake : s.sss.take (ofNode high s.sss).length = ofNode high s.sss :=
    take_length_filter hdown
  have hdrop : s.sss.drop (ofNode high s.sss).length = notOfNode high s.sss :=
    drop_length_filter hdown
  simp only [collectRecursive, hstop, hend, htake, hdrop, hloops, Option.map_some]
  simp

/-- What the records on the way hold when the collection comes to a node: they are in key order,
those for the node have its positions, and the filter knows their keys. -/
structure Ready (n : LeafNode κ β) (s : Collection κ β keyHash) : Prop where
  order : InKeyOrder s.sss
  low : ∀ d ∈ s.sss, n.lowKeyPair.1 ≤ d.key
  index : ∀ d ∈ s.sss, IsBelow n.highKeyPair d.key → d.indexPair = n.position d.key
  seen : ∀ k, n.Covers k → (k ∈ s.deltaSet.data ↔ ∃ d ∈ s.sss, d.key = k)

theorem mem_ofNode : d ∈ ofNode high ds ↔ d ∈ ds ∧ IsBelow high d.key := by
  simp [ofNode]

theorem mem_notOfNode : d ∈ notOfNode high ds ↔ d ∈ ds ∧ ¬ IsBelow high d.key := by
  simp [notOfNode]

/-- A record whose key is new is added, a record for a known key has been overtaken. -/
theorem Ready.add {s : Collection κ β keyHash} (hr : Ready child s)
    (h : (data d child).WellFormed) : Ready child (s.add d) := by
  obtain ⟨_, hcover, hindex, _⟩ := h
  unfold Collection.add
  split
  · exact hr
  next hnew =>
    have hfresh : ∀ d' ∈ s.sss, d'.key ≠ d.key := fun d' hd' heq => hnew
      (BloomFilter.exists_iff.mpr ((hr.seen d.key hcover).mpr ⟨d', hd', heq⟩))
    have hcmp : ∀ d' ∈ s.sss, deltaCmp d d' = decide (d.key < d'.key) := fun d' hd' => by
      simp [deltaCmp, (hfresh d' hd').symm]
    refine ⟨ordered_insertNoDedup hr.order hfresh hcmp, ?_, ?_, ?_⟩
    · intro d' hd'
      rcases mem_insertNoDedup.mp hd' with rfl | hd'
      · exact hcover.1
      · exact hr.low d' hd'
    · intro d' hd' hbelow
      rcases mem_insertNoDedup.mp hd' with rfl | hd'
      · exact hindex
      · exact hr.index d' hd' hbelow
    · intro k hk
      rw [BloomFilter.mem_insert, hr.seen k hk]
      simp only [mem_insertNoDedup, exists_eq_or_imp]
      rw [or_comm, eq_comm]

/-- The newest record of every key counts. -/
theorem get?_add {s : Collection κ β keyHash} (hr : Ready child s)
    (h : (data d child).WellFormed) (q : κ) :
    (get? q ((ofNode child.highKeyPair (s.add d).sss).map LeafDelta.change)).getD
        (get? q child.entries) =
      (get? q ((ofNode child.highKeyPair s.sss).map LeafDelta.change)).getD
        (get? q (data d child).entries) := by
  have hr' := hr.add h
  have horder : InKeyOrder (ofNode child.highKeyPair s.sss) := List.Pairwise.filter _ hr.order
  have horder' : InKeyOrder (ofNode child.highKeyPair (s.add d).sss) :=
    List.Pairwise.filter _ hr'.order
  rw [get?_entries_data h]
  obtain ⟨_, hcover, _⟩ := h
  by_cases hseen : s.deltaSet.exists' d.key = true
  · -- a newer record decides about the key
    have hadd : s.add d = s := if_pos hseen
    rw [hadd]
    split
    next heq =>
      obtain ⟨d', hd', hkey⟩ := (hr.seen d.key hcover).mp (BloomFilter.exists_iff.mp hseen)
      have hin : d' ∈ ofNode child.highKeyPair s.sss :=
        mem_ofNode.mpr ⟨hd', hkey ▸ hcover.2⟩
      rw [(get?_changes horder).mpr ⟨d', hin, hkey.trans heq.symm, rfl⟩, Option.getD_some,
        Option.getD_some]
    next => rfl
  · have hadd : (s.add d).sss = insertNoDedup deltaCmp d s.sss := by
      unfold Collection.add
      rw [if_neg hseen]
    split
    next heq =>
      have hnew : get? q ((ofNode child.highKeyPair s.sss).map LeafDelta.change) = none := by
        refine get?_changes_eq_none.mpr fun d' hd' hkey => hseen ?_
        have hin : ∃ d' ∈ s.sss, d'.key = d.key := ⟨d', (mem_ofNode.mp hd').1, hkey.trans heq⟩
        exact BloomFilter.exists_iff.mpr ((hr.seen d.key hcover).mpr hin)
      have hin : d ∈ ofNode child.highKeyPair (s.add d).sss :=
        mem_ofNode.mpr ⟨hadd ▸ mem_insertNoDedup.mpr (.inl rfl), hcover.2⟩
      rw [hnew, (get?_changes horder').mpr ⟨d, hin, heq.symm, rfl⟩, Option.getD_none,
        Option.getD_some]
    next hne =>
      have hsame : get? q ((ofNode child.highKeyPair (s.add d).sss).map LeafDelta.change) =
          get? q ((ofNode child.highKeyPair s.sss).map LeafDelta.change) := by
        refine Option.ext fun o => ?_
        rw [get?_changes horder', get?_changes horder]
        simp only [mem_ofNode, hadd, mem_insertNoDedup]
        constructor
        · rintro ⟨d', ⟨rfl | hd', hbelow⟩, hkey, ho⟩
          · exact absurd hkey.symm hne
          · exact ⟨d', ⟨hd', hbelow⟩, hkey, ho⟩
        · rintro ⟨d', ⟨hd', hbelow⟩, hkey, ho⟩
          exact ⟨d', ⟨.inr hd', hbelow⟩, hkey, ho⟩
      rw [hsame]

/-! ## The collection of a chain -/

/-- What the collection of a node makes of the records on the way. -/
def laidOver (n : LeafNode κ β) (s : Collection κ β keyHash) (f : BloomFilter keyHash) :
    Collection κ β keyHash where
  sss := notOfNode n.highKeyPair s.sss
  deltaSet := f
  items := s.items ++ overlay n.entries ((ofNode n.highKeyPair s.sss).map LeafDelta.change)

theorem inKeyOrder_ofNode (h : InKeyOrder ds) : InKeyOrder (ofNode high ds) :=
  List.Pairwise.filter _ h

theorem inKeyOrder_notOfNode (h : InKeyOrder ds) : InKeyOrder (notOfNode high ds) :=
  List.Pairwise.filter _ h

/-- The record of a delta node does not go on to the nodes on the right. -/
theorem notOfNode_add {s : Collection κ β keyHash} (h : (data d child).WellFormed) :
    notOfNode child.highKeyPair (s.add d).sss = notOfNode child.highKeyPair s.sss := by
  obtain ⟨_, hcover, _⟩ := h
  unfold Collection.add
  split
  · rfl
  · have hout : decide (IsBelow child.highKeyPair d.key) = true := decide_eq_true hcover.2
    have hsplit := List.takeWhile_append_dropWhile (p := fun y => !deltaCmp d y) (l := s.sss)
    unfold notOfNode insertNoDedup
    conv_rhs => rw [← hsplit]
    simp only [List.filter_append, List.filter_cons, hout]
    simp

/-- The records that a merged node has for its left branch. -/
theorem Ready.toLeft {s : Collection κ β keyHash} (hr : Ready (merge sep right child) s)
    (h : (merge sep right child).WellFormed) : Ready child s := by
  have hsides := fun k => covers_merge (k := k) h
  obtain ⟨hchild, hright, hid, hhigh, hlow, hle⟩ := h
  have hlt : ∀ k, IsBelow child.highKeyPair k → k < sep.1 := fun k hk =>
    hhigh ▸ (isBelow_iff hid).mp hk
  refine ⟨hr.order, hr.low, fun d hd hbelow => ?_, fun k hk => ?_⟩
  · have hside := hlt d.key hbelow
    have hall : IsBelow (merge sep right child).highKeyPair d.key :=
      hright.isBelow_lowKey.mono (hlow ▸ hside.le)
    rw [hr.index d hd hall, position, if_neg (not_le.mpr hside)]
  · refine hr.seen k ((hsides k).mpr ?_)
    rw [if_neg (not_le.mpr (hlt k hk.2))]
    exact hk

/-- What the left branch leaves is ready for the right branch. -/
theorem Ready.toRight {s : Collection κ β keyHash} {f : BloomFilter keyHash}
    (hr : Ready (merge sep right child) s) (h : (merge sep right child).WellFormed)
    (hf : ∀ k, ¬ child.Covers k → (k ∈ f.data ↔ k ∈ s.deltaSet.data)) :
    Ready right (laidOver child s f) := by
  have hsides := fun k => covers_merge (k := k) h
  obtain ⟨hchild, hright, hid, hhigh, hlow, hle⟩ := h
  have hge : ∀ k, ¬ IsBelow child.highKeyPair k ↔ sep.1 ≤ k := fun k => by
    rw [isBelow_iff hid, hhigh, not_lt]
  refine ⟨inKeyOrder_notOfNode hr.order, fun d hd => ?_, fun d hd hbelow => ?_, fun k hk => ?_⟩
  · rw [hlow]
    exact (hge d.key).mp (mem_notOfNode.mp hd).2
  · obtain ⟨hd, hout⟩ := mem_notOfNode.mp hd
    have hside := (hge d.key).mp hout
    rw [hr.index d hd hbelow, position, if_pos hside]
  · have hside : sep.1 ≤ k := hlow ▸ hk.1
    have hnot : ¬ child.Covers k := fun hc => (hge k).mpr hside hc.2
    have hall : (merge sep right child).Covers k := (hsides k).mpr (by rwa [if_pos hside])
    rw [laidOver, hf k hnot, hr.seen k hall]
    simp only [mem_notOfNode]
    constructor
    · rintro ⟨d, hd, rfl⟩
      exact ⟨d, ⟨hd, (hge _).mpr hside⟩, rfl⟩
    · rintro ⟨d, ⟨hd, _⟩, heq⟩
      exact ⟨d, hd, heq⟩

/-- The two branches of a merged node get their own records. -/
theorem overlay_merge (h : (merge sep right child).WellFormed) (hd : InKeyOrder ds) :
    overlay child.entries ((ofNode child.highKeyPair ds).map LeafDelta.change) ++
        overlay right.entries ((ofNode right.highKeyPair (notOfNode child.highKeyPair ds)).map
          LeafDelta.change) =
      overlay (merge sep right child).entries
        ((ofNode (merge sep right child).highKeyPair ds).map LeafDelta.change) := by
  have hld : ∀ {high : κ × NodeId}, InKeyOrder (ofNode high ds) := inKeyOrder_ofNode hd
  have hrd : InKeyOrder (ofNode right.highKeyPair (notOfNode child.highKeyPair ds)) :=
    inKeyOrder_ofNode (inKeyOrder_notOfNode hd)
  have hentries := h.entries.1
  have hget := fun q => get?_entries_merge (q := q) h
  obtain ⟨hchild, hright, hid, hhigh, hfrom, hle⟩ := h
  have hbelow : ∀ k, IsBelow child.highKeyPair k ↔ k < sep.1 := fun k => by
    rw [isBelow_iff hid, hhigh]
  have hall : ∀ k, k < sep.1 → IsBelow right.highKeyPair k := fun k hk =>
    hright.isBelow_lowKey.mono (hfrom ▸ hk.le)
  have hleft : Sorted (overlay child.entries ((ofNode child.highKeyPair ds).map
      LeafDelta.change)) := sorted_overlay hchild.entries.1 hld.changes
  have hrest : Sorted (overlay right.entries ((ofNode right.highKeyPair
      (notOfNode child.highKeyPair ds)).map LeafDelta.change)) :=
    sorted_overlay hright.entries.1 hrd.changes
  have hsmall : ∀ e ∈ overlay child.entries ((ofNode child.highKeyPair ds).map
      LeafDelta.change), e.1 < sep.1 := by
    intro e he
    rcases mem_overlay he with he | he
    · exact (hbelow _).mp (hchild.entries.2 e he).2
    · rw [List.map_map] at he
      obtain ⟨d, hd', heq⟩ := List.mem_map.mp he
      exact heq ▸ (hbelow _).mp (mem_ofNode.mp hd').2
  have hlarge : ∀ e ∈ overlay right.entries ((ofNode right.highKeyPair
      (notOfNode child.highKeyPair ds)).map LeafDelta.change), sep.1 ≤ e.1 := by
    intro e he
    rcases mem_overlay he with he | he
    · exact hfrom ▸ (hright.entries.2 e he).1
    · rw [List.map_map] at he
      obtain ⟨d, hd', heq⟩ := List.mem_map.mp he
      have hout := (mem_notOfNode.mp (mem_ofNode.mp hd').1).2
      rw [hbelow, not_lt] at hout
      exact heq ▸ hout
  refine Sorted.ext (hleft.append hrest fun a ha b hb => (hsmall a ha).trans_le (hlarge b hb))
    (sorted_overlay hentries hld.changes) fun q => ?_
  rw [get?_append]
  by_cases hq : sep.1 ≤ q
  · rw [get?_eq_none fun e he => ((hsmall e he).trans_le hq).ne, Option.none_or,
      get?_overlay hrd.changes, get?_overlay hld.changes, hget, if_pos hq]
    congr 1
    refine Option.ext fun o => ?_
    rw [get?_changes hrd, get?_changes hld]
    simp only [mem_ofNode, mem_notOfNode, hbelow, highKeyPair]
    constructor
    · rintro ⟨d, ⟨⟨hd', _⟩, hin⟩, hkey, ho⟩
      exact ⟨d, ⟨hd', hin⟩, hkey, ho⟩
    · rintro ⟨d, ⟨hd', hin⟩, hkey, ho⟩
      exact ⟨d, ⟨⟨hd', not_lt.mpr (hkey ▸ hq)⟩, hin⟩, hkey, ho⟩
  · have hlt := not_le.mp hq
    rw [get?_eq_none (l := overlay right.entries _) fun e he => (hlt.trans_le (hlarge e he)).ne',
      Option.or_none, get?_overlay hld.changes, get?_overlay hld.changes, hget, if_neg hq]
    congr 1
    refine Option.ext fun o => ?_
    rw [get?_changes hld, get?_changes hld]
    simp only [mem_ofNode, hbelow, highKeyPair]
    constructor
    · rintro ⟨d, ⟨hd', hin⟩, hkey, ho⟩
      exact ⟨d, ⟨hd', hall _ hin⟩, hkey, ho⟩
    · rintro ⟨d, ⟨hd', hin⟩, hkey, ho⟩
      exact ⟨d, ⟨hd', hkey ▸ hlt⟩, hkey, ho⟩

/-- The collection lays the records on the way over the entries of the node and takes those of the
node from them. -/
theorem collectRecursive_eq {s : Collection κ β keyHash} (h : n.WellFormed) (hr : Ready n s) :
    ∃ f : BloomFilter keyHash, (∀ k, ¬ n.Covers k → (k ∈ f.data ↔ k ∈ s.deltaSet.data)) ∧
      collectRecursive n.highKeyPair n s = some (laidOver n s f) := by
  induction n generalizing s with
  | leaf low high items =>
      refine ⟨s.deltaSet, fun _ _ => Iff.rfl, ?_⟩
      obtain ⟨_, hs, hrange⟩ := h
      have hall : (items.filter fun e => decide (IsBelow high e.1)) = items :=
        List.filter_eq_self.mpr fun e he => decide_eq_true (hrange e he).2
      have hindex : ∀ d ∈ s.sss, IsBelow high d.key →
          d.indexPair = (rank d.key items, decide (d.key ∈ items.map Prod.fst)) := hr.index
      rw [highKeyPair, collectRecursive_leaf hs hr.order hindex, hall]
      rfl
  | data d child ih =>
      have hr' : Ready child s := ⟨hr.order, hr.low, hr.index, hr.seen⟩
      obtain ⟨f, hf, hcollect⟩ := ih h.1 (hr'.add h)
      refine ⟨f, fun k hk => (hf k hk).trans ?_, ?_⟩
      · unfold Collection.add
        split
        · exact Iff.rfl
        · rw [BloomFilter.mem_insert]
          refine or_iff_left fun heq => hk ?_
          exact heq ▸ h.2.1
      · have hover : overlay child.entries
            ((ofNode child.highKeyPair (s.add d).sss).map LeafDelta.change) =
            overlay (data d child).entries
              ((ofNode child.highKeyPair s.sss).map LeafDelta.change) := by
          have hadded : InKeyOrder (ofNode child.highKeyPair (s.add d).sss) :=
            inKeyOrder_ofNode (hr'.add h).order
          have hold : InKeyOrder (ofNode child.highKeyPair s.sss) := inKeyOrder_ofNode hr'.order
          refine Sorted.ext (sorted_overlay h.1.entries.1 hadded.changes)
            (sorted_overlay h.entries.1 hold.changes) fun q => ?_
          rw [get?_overlay hadded.changes, get?_overlay hold.changes]
          exact get?_add hr' h q
        have hitems : (s.add d).items = s.items := by
          unfold Collection.add
          split <;> rfl
        rw [collectRecursive, highKeyPair, hcollect]
        simp only [laidOver, highKeyPair, notOfNode_add h, hover, hitems]
  | split sep count child ih =>
      obtain ⟨hchild, hlt, hhigh, hid, low, high, items, rfl, _⟩ := h
      refine ⟨s.deltaSet, fun _ _ => Iff.rfl, ?_⟩
      have hpart : (items.filter fun e => decide (IsBelow sep e.1)) = below sep.1 items := by
        unfold below
        simp only [isBelow_iff hid]
      have hindex : ∀ d ∈ s.sss, IsBelow sep d.key →
          d.indexPair = (rank d.key items, decide (d.key ∈ items.map Prod.fst)) := hr.index
      rw [collectRecursive, highKeyPair, collectRecursive_leaf hchild.2.1 hr.order hindex, hpart]
      rfl
  | merge sep right child ihr ihc =>
      obtain ⟨f, hf, hleft⟩ := ihc h.1 (hr.toLeft h)
      obtain ⟨f', hf', hright⟩ := ihr h.2.1 (hr.toRight h hf)
      refine ⟨f', fun k hk => ?_, ?_⟩
      · rw [covers_merge h] at hk
        have hsides : ¬ child.Covers k ∧ ¬ right.Covers k := by
          obtain ⟨_, _, hid, hhigh, hlow, _⟩ := h
          split at hk
          next hle =>
            exact ⟨fun hc => absurd hle (not_le.mpr (hhigh ▸ (isBelow_iff hid).mp hc.2)), hk⟩
          next hle => exact ⟨hk, fun hc => hle (hlow ▸ hc.1)⟩
        exact (hf' k hsides.2).trans (hf k hsides.1)
      · have hover := overlay_merge h hr.order
        obtain ⟨_, hwf, hid, hhigh, hlow, _⟩ := h
        have hrest : notOfNode right.highKeyPair (notOfNode child.highKeyPair s.sss) =
            notOfNode right.highKeyPair s.sss := by
          unfold notOfNode
          rw [List.filter_filter]
          refine List.filter_congr fun d _ => ?_
          have hsub : IsBelow child.highKeyPair d.key → IsBelow right.highKeyPair d.key :=
            fun hd => hwf.isBelow_lowKey.mono (hlow ▸ hhigh ▸ (isBelow_iff hid).mp hd).le
          by_cases hd : IsBelow right.highKeyPair d.key
          · simp [hd]
          · simp [hd, mt hsub hd]
        rw [collectRecursive, hleft, Option.bind_some, hright]
        have hhighKey : (merge sep right child).highKeyPair = right.highKeyPair := rfl
        simp only [laidOver, hrest, hover, hhighKey, List.append_assoc]

/-- A consolidation writes a leaf with the entries of the chain, and none of its assertions
fails. -/
theorem collect_eq (keyHash : κ → BitVec 64) (h : n.WellFormed) :
    collect keyHash n = some (leaf n.lowKeyPair n.highKeyPair n.entries) := by
  have hr : Ready n ⟨[], BloomFilter.create keyHash, []⟩ := by
    refine ⟨List.Pairwise.nil, by simp, by simp, fun k _ => ?_⟩
    simp
  obtain ⟨f, _, hcollect⟩ := collectRecursive_eq h hr
  have hitems : (laidOver n ⟨[], BloomFilter.create keyHash, []⟩ f).items = n.entries := by
    simp [laidOver, ofNode, overlay]
  rw [collect, hcollect, Option.bind_some, hitems, h.itemCount_eq, if_pos rfl]

theorem WellFormed.consolidated (h : n.WellFormed) :
    (leaf n.lowKeyPair n.highKeyPair n.entries).WellFormed :=
  ⟨h.isBelow_lowKey, h.entries⟩

/-- A consolidation replaces a chain by a base leaf in which every search of the range finds what
it finds in the chain. -/
theorem collect_correct (keyHash : κ → BitVec 64) (n : LeafNode κ β) (h : n.WellFormed) :
    ∃ m, collect keyHash n = some m ∧ m.WellFormed ∧ m.depth = 0 ∧ m.entries = n.entries ∧
      (∀ q, m.Covers q ↔ n.Covers q) ∧
      ∀ q, n.Covers q → (navigate q m 0 none).1 = (navigate q n 0 none).1 ∧
        values q m 0 none = values q n 0 none := by
  refine ⟨_, collect_eq keyHash h, h.consolidated, rfl, rfl, fun _ => Iff.rfl, fun q hq => ?_⟩
  have hitem : (navigate q (leaf n.lowKeyPair n.highKeyPair n.entries) 0 none).1 =
      (navigate q n 0 none).1 := by
    rw [navigate_eq h.consolidated hq (encloses_all _ _), navigate_eq h hq (encloses_all _ _)]
    rfl
  exact ⟨hitem, by rw [values_eq, values_eq, hitem]⟩

/-- A leaf that was split and lost a key, merged with its old sibling that has got a new key. -/
def mergedAgain : LeafNode Nat Nat :=
  merge (3, 4) (data ⟨.insert, (5, 50), (1, false)⟩ (leaf (3, 2 ^ 64 - 1) (0, 0) [(3, 30)]))
    (data ⟨.delete, (1, 10), (0, true)⟩
      (split (3, 4) 1 (leaf (0, 0) (0, 0) [(1, 10), (2, 20), (3, 30)])))

theorem wellFormed_mergedAgain : mergedAgain.WellFormed := by
  simp [mergedAgain, WellFormed, Covers, IsBelow, invalidNodeId, lowKeyPair, highKeyPair, position,
    LeafDelta.key, Sorted, LeafNode.entries, get?, below, atLeast, rank]

theorem collect_correct_merged_again :
    ∃ m, collect (fun k => BitVec.ofNat 64 k) mergedAgain = some m ∧ m.WellFormed ∧
      m.entries = [(2, 20), (3, 30), (5, 50)] ∧ values 5 m 0 none = [50] := by
  obtain ⟨m, hm, hwf, _, hentries, _, hsame⟩ :=
    collect_correct (fun k => BitVec.ofNat 64 k) mergedAgain wellFormed_mergedAgain
  have hfive : mergedAgain.Covers 5 := ⟨by decide, .inl rfl⟩
  exact ⟨m, hm, hwf, hentries.trans (by decide), (hsame 5 hfive).2.trans (by decide)⟩

end LeafNode

end BwTree
