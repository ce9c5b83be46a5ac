import ShopingList.Firebase.WriteTree

/-!
# Acknowledged writes

What `removeWriteId:` does to the layer of the pending writes. Its scan looks at the
paths of the records: a later write that covers the removed one means that the layer
shows nothing of it, a write at its path or below means that the layer is built
again, and otherwise its nodes are cut out. The layer of the writes that are left comes
out each time (`Layered.removeWriteId`), unless an older pending write covers a path of
the removed one: the scan does not look for that.
-/

namespace ShopingList

open FNode

open FImmutableTree hiding node child children

variable {κ : Type} [LinearOrder κ]

namespace FWriteTree

/-! ## The scan -/

section
variable {w : FWriteRecord κ} {index : Nat} {l : List (FWriteRecord κ × Nat)} {overlaps : Bool}

theorem scanWrites_invisible : scanWrites w index l (false, overlaps) = (false, overlaps) := by
  cases l <;> rfl

/-- A later write covers the removed one. -/
def Covered (w : FWriteRecord κ) (index : Nat) (p : FWriteRecord κ × Nat) : Prop :=
  index ≤ p.2 ∧ p.1.containsPath w.path = true

theorem scanWrites_cons {p : FWriteRecord κ × Nat} (hp : p.1.visible = true) (hc : ¬ Covered w index p) :
    scanWrites w index (p :: l) (true, overlaps) =
      scanWrites w index l (true, overlaps || FPath.contains w.path p.1.path) := by
  have hnot : (p.2 ≥ index && p.1.containsPath w.path) = false := by
    rw [← Bool.not_eq_true, Bool.and_eq_true, decide_eq_true_eq]
    exact hc
  obtain ⟨record, i⟩ := p
  simp only at hp hnot
  rw [scanWrites, hp, hnot]
  cases FPath.contains w.path record.path <;> simp

theorem scanWrites_covered (hl : ∀ p ∈ l, p.1.visible = true) (hc : ∃ p ∈ l, Covered w index p) :
    (scanWrites w index l (true, overlaps)).1 = false := by
  induction l generalizing overlaps with
  | nil =>
    obtain ⟨p, hp, -⟩ := hc
    cases hp
  | cons p l ih =>
    have hp := hl p List.mem_cons_self
    by_cases hcp : Covered w index p
    · have hcovered : (p.2 ≥ index && p.1.containsPath w.path) = true := by
        rw [Bool.and_eq_true, decide_eq_true_eq]
        exact hcp
      obtain ⟨record, i⟩ := p
      simp only at hp hcovered
      rw [scanWrites, hp, hcovered]
      simp [scanWrites_invisible]
    · rw [scanWrites_cons hp hcp]
      apply ih (fun q hq => hl q (List.mem_cons_of_mem p hq))
      obtain ⟨q, hq, hcq⟩ := hc
      rcases List.mem_cons.1 hq with rfl | hq
      · exact absurd hcq hcp
      · exact ⟨q, hq, hcq⟩

theorem scanWrites_not_covered (hl : ∀ p ∈ l, p.1.visible = true) (hc : ∀ p ∈ l, ¬ Covered w index p) :
    scanWrites w index l (true, overlaps) =
      (true, overlaps || l.any fun p => FPath.contains w.path p.1.path) := by
  induction l generalizing overlaps with
  | nil => simp [scanWrites]
  | cons p l ih =>
    rw [scanWrites_cons (hl p List.mem_cons_self) (hc p List.mem_cons_self),
      ih (fun q hq => hl q (List.mem_cons_of_mem p hq)) fun q hq => hc q (List.mem_cons_of_mem p hq),
      List.any_cons, Bool.or_assoc]

end

omit [LinearOrder κ] in
/-- The other writes with their places, as the scan meets them. -/
theorem mem_scanned {before after : List (FWriteRecord κ)} {p : FWriteRecord κ × Nat} :
    p ∈ (before ++ after).zipIdx.reverse ↔
      (p ∈ before.zipIdx ∧ p.2 < before.length) ∨ (p ∈ after.zipIdx before.length ∧ before.length ≤ p.2) := by
  rw [List.mem_reverse, List.zipIdx_append, List.mem_append, Nat.zero_add]
  constructor
  · rintro (h | h)
    · have hlt := List.snd_lt_add_of_mem_zipIdx h
      exact .inl ⟨h, by omega⟩
    · exact .inr ⟨h, List.le_snd_of_mem_zipIdx h⟩
  · rintro (⟨h, -⟩ | ⟨h, -⟩)
    · exact .inl h
    · exact .inr h

/-! ## What is left -/

section
variable {before after : List (FWriteRecord κ)} {w : FWriteRecord κ} {tree tree' : FWriteTree κ}

/-- The scan of a removal, for a tree whose other writes are `before` and `after`. -/
def scan (w : FWriteRecord κ) (before after : List (FWriteRecord κ)) : Bool × Bool :=
  scanWrites w before.length (before ++ after).zipIdx.reverse (w.visible, false)

/-- The cases of a removal. -/
theorem removeWriteId_cases {writeId : Int} {answer : Bool}
    (h : tree.removeWriteId writeId = .ok (answer, tree')) :
    ∃ before w after, tree.allWrites = before ++ w :: after ∧ w.writeId = writeId ∧
      (((scan w before after).1 = false ∧ answer = false ∧
          tree' = { tree with allWrites := before ++ after }) ∨
        (scan w before after = (true, true) ∧ answer = true ∧
          tree' = resetTree { tree with allWrites := before ++ after }) ∨
        (scan w before after = (true, false) ∧ answer = true ∧
          tree' = { tree with allWrites := before ++ after, visibleWrites := cut w tree.visibleWrites })) := by
  unfold removeWriteId at h
  cases hfind : tree.allWrites.findIdx? (·.writeId = writeId) with
  | none =>
    rw [hfind] at h
    cases h
  | some index =>
    obtain ⟨hlt, hid, -⟩ := List.findIdx?_eq_some_iff_getElem.1 hfind
    have hsplit : tree.allWrites = tree.allWrites.take index ++
        tree.allWrites[index] :: tree.allWrites.drop (index + 1) := by
      rw [List.getElem_cons_drop, List.take_append_drop]
    have hlen : (tree.allWrites.take index).length = index := List.length_take_of_le (by omega)
    refine ⟨_, _, _, hsplit, of_decide_eq_true hid, ?_⟩
    rw [hfind] at h
    simp only [List.getElem?_eq_getElem hlt, List.eraseIdx_eq_take_drop_succ] at h
    unfold scan
    rw [hlen]
    cases hscan : scanWrites tree.allWrites[index] index
        (tree.allWrites.take index ++ tree.allWrites.drop (index + 1)).zipIdx.reverse
        (tree.allWrites[index].visible, false) with
    | mk wasVisible overlaps =>
      rw [hscan] at h
      cases wasVisible with
      | false =>
        cases h
        exact .inl ⟨rfl, rfl, rfl⟩
      | true =>
        cases overlaps with
        | true =>
          cases h
          exact .inr (.inl ⟨rfl, rfl, rfl⟩)
        | false =>
          cases h
          exact .inr (.inr ⟨rfl, rfl, rfl⟩)

theorem removeWriteId_ok {writeId : Int} (h : ∃ w ∈ tree.allWrites, w.writeId = writeId) :
    ∃ answer tree', tree.removeWriteId writeId = .ok (answer, tree') := by
  unfold removeWriteId
  cases hfind : tree.allWrites.findIdx? (·.writeId = writeId) with
  | none =>
    obtain ⟨w, hw, hid⟩ := h
    have := List.findIdx?_eq_none_iff.1 hfind w hw
    rw [hid, decide_eq_false_iff_not] at this
    exact absurd rfl this
  | some index =>
    obtain ⟨hlt, -, -⟩ := List.findIdx?_eq_some_iff_getElem.1 hfind
    simp only [List.getElem?_eq_getElem hlt]
    split
    · exact ⟨_, _, rfl⟩
    · split <;> exact ⟨_, _, rfl⟩

/-- No older pending write covers a path of the write. -/
def NoneOlderAbove (before : List (FWriteRecord κ)) (w : FWriteRecord κ) : Prop :=
  ∀ p ∈ before.flatMap FWriteRecord.writes, ∀ q ∈ w.writes, ¬ p.1 <+: q.1

/-- Covered writes leave no trace. -/
theorem layers_covered_writes {old new writes : List (List κ × FNode κ)}
    (hw : ∀ p ∈ old ++ (writes ++ new), p.2.Normal)
    (habove : ∀ p ∈ old, ∀ q ∈ writes, ¬ p.1 <+: q.1) (hcover : ∀ q ∈ writes, ∃ p ∈ new, p.1 <+: q.1) :
    layers (old ++ (writes ++ new)) empty = layers (old ++ new) empty := by
  induction writes with
  | nil => rfl
  | cons q writes ih =>
    rw [List.cons_append] at hw ⊢
    rw [layers_covered q.1 q.2 hw fun p hp hpre => absurd hpre (habove p hp q List.mem_cons_self)]
    · apply ih
      · intro p hp
        rcases List.mem_append.1 hp with hp | hp
        · exact hw p (List.mem_append_left _ hp)
        · exact hw p (List.mem_append_right _ (List.mem_cons_of_mem q hp))
      · exact fun p hp q' hq' => habove p hp q' (List.mem_cons_of_mem q hq')
      · exact fun q' hq' => hcover q' (List.mem_cons_of_mem q hq')
    · obtain ⟨p, hp, hpre⟩ := hcover q List.mem_cons_self
      exact ⟨p, List.mem_append_right _ hp, hpre⟩

/-- Writes that stand apart are cut out one after the other. -/
theorem layers_cut_writes {old new writes : List (List κ × FNode κ)} {v : FCompoundWrite κ}
    (hv : v.writeTree = layers (old ++ (writes ++ new)) empty)
    (hw : ∀ p ∈ old ++ (writes ++ new), p.2.Normal) (hwrites : (writes.map Prod.fst).Pairwise Incomparable)
    (hapart : ∀ p ∈ old ++ new, ∀ q ∈ writes, Incomparable p.1 q.1) :
    (writes.foldl (fun v p => v.removeWriteAtPath p.1) v).writeTree = layers (old ++ new) empty := by
  induction writes generalizing v with
  | nil => exact hv
  | cons q writes ih =>
    rw [List.map_cons, List.pairwise_cons] at hwrites
    rw [List.cons_append] at hv hw
    have hcut : (v.removeWriteAtPath q.1).writeTree = layers (old ++ (writes ++ new)) empty := by
      rw [FCompoundWrite.writeTree_removeWriteAtPath, hv]
      refine setTree_layers q.1 q.2 hw fun p hp => ?_
      rcases List.mem_append.1 hp with hp | hp
      · exact hapart p (List.mem_append_left _ hp) q List.mem_cons_self
      · rcases List.mem_append.1 hp with hp | hp
        · have happ := hwrites.1 p.1 (List.mem_map_of_mem hp)
          exact ⟨happ.2, happ.1⟩
        · exact hapart p (List.mem_append_right _ hp) q List.mem_cons_self
    refine ih hcut (fun p hp => ?_) hwrites.2 fun p hp q' hq' => hapart p hp q' (List.mem_cons_of_mem q hq')
    rcases List.mem_append.1 hp with hp | hp
    · exact hw p (List.mem_append_left _ hp)
    · exact hw p (List.mem_append_right _ (List.mem_cons_of_mem q hp))

theorem cut_eq (v : FCompoundWrite κ) :
    cut w v = w.writes.foldl (fun v p => v.removeWriteAtPath p.1) v := by
  unfold cut FWriteRecord.writes
  cases w.write with
  | overwrite node => rfl
  | merge changedChildren => rfl

/-- Where the scan finds no overlap, the other writes stand apart from the removed one. -/
theorem apart_of_scan (hplain : ∀ r ∈ before ++ w :: after, r.Plain) (holder : NoneOlderAbove before w)
    (hlater : ∀ p ∈ after.flatMap FWriteRecord.writes, ¬ p.1 <+: w.path)
    (hoverlap : ∀ r ∈ before ++ after, ¬ w.path <+: r.path) :
    ∀ p ∈ before.flatMap FWriteRecord.writes ++ after.flatMap FWriteRecord.writes, ∀ q ∈ w.writes,
      Incomparable p.1 q.1 := by
  intro p hp q hq
  have hw : w.Plain := hplain w (by simp)
  obtain ⟨hwq, hqlen⟩ := hw.shallow q hq
  obtain ⟨r, hr, hpr⟩ : ∃ r ∈ before ++ after, p ∈ r.writes := by
    rw [← List.flatMap_append] at hp
    exact List.mem_flatMap.1 hp
  have hrplain : r.Plain := hplain r (by
    rcases List.mem_append.1 hr with hr | hr
    · exact List.mem_append_left _ hr
    · exact List.mem_append_right _ (List.mem_cons_of_mem w hr))
  obtain ⟨hrp, hplen⟩ := hrplain.shallow p hpr
  have hnot := hoverlap r hr
  -- the written path does not reach the path of the removed record from above
  have hwp : ¬ w.path <+: p.1 ∨ p.1 <+: w.path := by
    by_contra hcon
    rw [not_or, not_not] at hcon
    obtain ⟨hwp, hpw⟩ := hcon
    rcases List.prefix_or_prefix_of_prefix hwp hrp with hwr | hrw
    · exact hnot hwr
    · have hlt : r.path.length < w.path.length := by
        have := hrw.length_le
        have hne : r.path.length ≠ w.path.length := fun he => hnot (hrw.eq_of_length he ▸ List.prefix_rfl)
        omega
      have := hwp.length_le
      have heq := hwp.eq_of_length (by omega)
      exact hpw (heq ▸ List.prefix_rfl)
  have hpw : ¬ p.1 <+: w.path := by
    rcases List.mem_append.1 hp with hold | hnew
    · intro hpre
      exact holder p hold q hq (hpre.trans hwq)
    · exact hlater p hnew
  have hwp : ¬ w.path <+: p.1 := hwp.resolve_right hpw
  refine ⟨fun hpq => ?_, fun hqp => hwp (hwq.trans hqp)⟩
  rcases List.prefix_or_prefix_of_prefix hpq hwq with h | h
  · exact hpw h
  · exact hwp h

/-- A tree built again takes over the id of its last write. -/
theorem last_resetTree (hids : (tree.allWrites.map (·.writeId)).Pairwise (· < ·)) :
    ∀ r ∈ tree.allWrites, r.writeId ≤ tree.resetTree.lastWriteId := by
  intro r hr
  unfold resetTree
  cases hlast : tree.allWrites.getLast? with
  | none =>
    rw [List.getLast?_eq_none_iff] at hlast
    rw [hlast] at hr
    cases hr
  | some lastRecord =>
    obtain ⟨writes, hsplit⟩ := List.getLast?_eq_some_iff.1 hlast
    rw [hsplit] at hr hids
    rw [List.map_append, List.pairwise_append] at hids
    simp only
    rcases List.mem_append.1 hr with hr | hr
    · have := hids.2.2 _ (List.mem_map_of_mem hr) lastRecord.writeId (by simp)
      omega
    · rw [List.mem_singleton.1 hr]

theorem lastWriteId_resetTree (hlast : ∀ r ∈ tree.allWrites, r.writeId ≤ tree.lastWriteId) :
    tree.resetTree.lastWriteId ≤ max tree.lastWriteId (-1) := by
  unfold resetTree
  cases hget : tree.allWrites.getLast? with
  | none => simp
  | some lastRecord =>
    have := hlast lastRecord (List.mem_of_getLast? hget)
    simp only
    omega

/-- **After a removal the visible writes are the layer of the writes that are left.** -/
theorem Layered.removeWriteId {writeId : Int} {answer : Bool} (ht : Layered tree)
    (h : tree.removeWriteId writeId = .ok (answer, tree'))
    (holder : ∀ before w after, tree.allWrites = before ++ w :: after → w.writeId = writeId →
      NoneOlderAbove before w) :
    Layered tree' ∧ tree'.lastWriteId ≤ max tree.lastWriteId (-1) := by
  obtain ⟨before, w, after, hall, hid, hcases⟩ := removeWriteId_cases h
  have hplain : ∀ r ∈ before ++ w :: after, r.Plain := hall ▸ ht.plain
  have hrest : ∀ r ∈ before ++ after, r ∈ before ++ w :: after := fun r hr => by
    rcases List.mem_append.1 hr with hr | hr
    · exact List.mem_append_left _ hr
    · exact List.mem_append_right _ (List.mem_cons_of_mem w hr)
  have hplain' : ∀ r ∈ before ++ after, r.Plain := fun r hr => hplain r (hrest r hr)
  have hw : w.Plain := hplain w (by simp)
  have hids : ((before ++ after).map (·.writeId)).Pairwise (· < ·) := by
    refine ht.ids.sublist ?_
    rw [hall]
    exact ((List.sublist_cons_self w after).append_left before).map _
  have hlast : ∀ r ∈ before ++ after, r.writeId ≤ tree.lastWriteId := fun r hr =>
    ht.last r (hall ▸ hrest r hr)
  have holder := holder before w after hall hid
  have hvisible : tree.visibleWrites.writeTree =
      layers (before.flatMap FWriteRecord.writes ++ (w.writes ++ after.flatMap FWriteRecord.writes)) empty := by
    rw [ht.visible, hall, writeTree_layerTreeFromWrites hplain, List.flatMap_append, List.flatMap_cons]
  have hnormal : ∀ p ∈ before.flatMap FWriteRecord.writes ++
      (w.writes ++ after.flatMap FWriteRecord.writes), p.2.Normal := by
    intro p hp
    refine normal_writes hplain p ?_
    rwa [List.flatMap_append, List.flatMap_cons]
  have hseen : ∀ p ∈ (before ++ after).zipIdx.reverse, p.1.visible = true := fun p hp => by
    have hmem : p.1 ∈ before ++ after := List.fst_mem_of_mem_zipIdx (List.mem_reverse.1 hp)
    exact (hplain' p.1 hmem).visible
  have hwritten := writeTree_layerTreeFromWrites hplain'
  rw [List.flatMap_append] at hwritten
  -- whether a later write covers the removed one decides the scan
  by_cases hcover : ∃ r ∈ after, r.containsPath w.path = true
  · have hscan : (scan w before after).1 = false := by
      unfold scan
      rw [hw.visible]
      apply scanWrites_covered hseen
      obtain ⟨r, hr, hc⟩ := hcover
      obtain ⟨i, hi, rfl⟩ := List.mem_iff_getElem.1 hr
      refine ⟨(after[i], before.length + i), ?_, by simp, hc⟩
      rw [mem_scanned]
      right
      exact ⟨List.mem_zipIdx_iff_le_and_getElem?_sub.2 ⟨by simp, by simp [hi]⟩, by simp⟩
    obtain ⟨r, hr, hc⟩ := hcover
    obtain ⟨p, hp, hpre⟩ := FWriteRecord.containsPath_iff.1 hc
    rcases hcases with ⟨-, -, rfl⟩ | ⟨hs, -⟩ | ⟨hs, -⟩
    · refine ⟨⟨hplain', ?_, hids, hlast⟩, by simp⟩
      apply FCompoundWrite.eq_of_writeTree
      rw [hwritten, hvisible]
      apply layers_covered_writes hnormal holder
      intro q hq
      exact ⟨p, List.mem_flatMap.2 ⟨r, hr, hp⟩, hpre.trans (hw.shallow q hq).1⟩
    · rw [hs] at hscan
      cases hscan
    · rw [hs] at hscan
      cases hscan
  · have hnot : ∀ p ∈ (before ++ after).zipIdx.reverse, ¬ Covered w before.length p := by
      rintro p hp ⟨hle, hc⟩
      rcases mem_scanned.1 hp with ⟨-, hlt⟩ | ⟨hmem, -⟩
      · omega
      · exact hcover ⟨p.1, List.fst_mem_of_mem_zipIdx hmem, hc⟩
    have hscan : scan w before after =
        (true, (before ++ after).zipIdx.reverse.any fun p => FPath.contains w.path p.1.path) := by
      unfold scan
      rw [hw.visible, scanWrites_not_covered hseen hnot, Bool.false_or]
    rcases hcases with ⟨hs, -⟩ | ⟨-, -, rfl⟩ | ⟨hs, -, rfl⟩
    · rw [hscan] at hs
      cases hs
    · refine ⟨⟨hplain', rfl, hids, ?_⟩, ?_⟩
      · exact last_resetTree hids
      · exact lastWriteId_resetTree hlast
    · refine ⟨⟨hplain', ?_, hids, hlast⟩, by simp⟩
      apply FCompoundWrite.eq_of_writeTree
      rw [hwritten]
      simp only
      rw [cut_eq]
      refine layers_cut_writes hvisible hnormal hw.apart ?_
      refine apart_of_scan hplain holder (fun p hp hpre => ?_) fun r hr hpre => ?_
      · obtain ⟨r, hr, hp⟩ := List.mem_flatMap.1 hp
        exact hcover ⟨r, hr, FWriteRecord.containsPath_iff.2 ⟨p, hp, hpre⟩⟩
      · rw [hscan, Prod.mk.injEq] at hs
        obtain ⟨i, hi, rfl⟩ := List.mem_iff_getElem.1 hr
        have hany := List.any_eq_false.1 hs.2 ((before ++ after)[i], i)
          (List.mem_reverse.2 (List.mem_zipIdx_iff_getElem?.2 (List.getElem?_eq_getElem hi)))
        exact hany (FPath.contains_iff.2 hpre)

end

end FWriteTree

end ShopingList
