import ShopingList.Firebase.Changes

/-!
# Processing

Whatever a view has cached and whatever the operation is, the processor raises none of
its exceptions but the assertion of a debug build that a child beside the affected path is
the same, and the changes that it collects say how the children of the event snap went on
(`process_proceeds`). A child is only ever updated from what the event
snap holds, so this needs neither complete data nor writes that fit to it.
-/

namespace ShopingList

open FNode

open FImmutableTree hiding node child children isEmpty empty value

/-! ## The nodes of the writes -/

variable {κ : Type} [LinearOrder κ]

namespace FImmutableTree

theorem Compound.of_mem_children {t : FImmutableTree κ (FNode κ)} (h : Compound t) {e : κ × FImmutableTree κ (FNode κ)}
    (he : e ∈ t.children) : Compound e.2 := by
  cases h with
  | write _ => cases he
  | node _ _ hbelow => exact hbelow e he

end FImmutableTree

namespace FCompoundWrite

section
variable {w : FCompoundWrite κ} {n : FNode κ}

theorem normal_completeNodeAtPath (h : Compound w.writeTree) {path : List κ}
    (hs : w.completeNodeAtPath path = some n) : n.Normal := by
  rw [completeNodeAtPath_eq] at hs
  exact ((compound_below h path).of_value hs).2

theorem compound_childCompoundWriteAtPath (h : Compound w.writeTree) (path : List κ) :
    Compound (w.childCompoundWriteAtPath path).writeTree := by
  rw [writeTree_childCompoundWriteAtPath h]
  exact compound_below h path

theorem normal_applyToNode (h : Compound w.writeTree) (hn : n.Normal) : (w.applyToNode n).Normal :=
  normal_applySubtreeWrite h hn []

theorem normal_writesAt (h : Compound w.writeTree) (path : List κ) : ∀ e ∈ w.writesAt path, e.2.Normal := by
  intro e he
  obtain ⟨e', he', rfl⟩ := List.mem_map.1 he
  exact h.normal_of_valueAtPath ((mem_forEach h.canonical).1 he')

theorem compound_addWrite (h : Compound w.writeTree) (hn : n.Normal) (path : List κ) :
    Compound (w.addWrite n path).writeTree := by
  rw [writeTree_addWrite n path h]
  exact h.layer hn path

theorem compound_addCompoundWrite {w' : FCompoundWrite κ} (h : Compound w.writeTree) (h' : Compound w'.writeTree)
    (path : List κ) : Compound (w.addCompoundWrite w' path).writeTree := by
  unfold addCompoundWrite
  rw [writeTree_addWrites h (normal_writesAt h' path)]
  exact h.layers (normal_writesAt h' path)

theorem normal_completeChildren (h : Compound w.writeTree) : ∀ e ∈ w.completeChildren, e.2.Normal := by
  intro e he
  unfold completeChildren at he
  cases hv : w.writeTree.value with
  | some v =>
    rw [hv] at he
    have hnormal := (h.of_value hv).2
    cases v with
    | leaf v => cases he
    | children kids => exact hnormal.getImmediateChild he ▸ hnormal.getChild [e.1]
  | none =>
    rw [hv] at he
    obtain ⟨c, hc, hmap⟩ := List.mem_filterMap.1 he
    obtain ⟨node, hnode, rfl⟩ := Option.map_eq_some_iff.1 hmap
    exact ((h.of_mem_children hc).of_value hnode).2

end

end FCompoundWrite

namespace FWriteTreeRef

section
variable {ref : FWriteTreeRef κ} {n c : FNode κ}

theorem normal_foldl_updateImmediateChild {l : List (κ × FNode κ)} (hl : ∀ e ∈ l, e.2.Normal)
    {f : κ × FNode κ → FNode κ} (hf : ∀ e, e.2.Normal → (f e).Normal) (hn : n.Normal) :
    (l.foldl (fun n e => updateImmediateChild e.1 (f e) n) n).Normal := by
  induction l generalizing n with
  | nil => exact hn
  | cons e l ih =>
    exact ih (fun e' he' => hl e' (List.mem_cons_of_mem e he'))
      (hn.updateImmediateChild (hf e (hl e List.mem_cons_self)) e.1)

theorem normal_of_mem_enumerateChildren (hn : n.Normal) : ∀ e ∈ n.enumerateChildren, e.2.Normal := by
  intro e he
  rw [← ((mem_enumerateChildren hn).1 (show (e.1, e.2) ∈ _ from he)).1]
  exact hn.getChild [e.1]

theorem normal_completeEventCache (h : Compound ref.writeTree.visibleWrites.writeTree) {cache : Option (FNode κ)}
    (hcache : ∀ n ∈ cache, n.Normal) :
    ∀ n ∈ ref.calculateCompleteEventCacheWithCompleteServerCache cache, n.Normal := by
  intro n hn
  unfold calculateCompleteEventCacheWithCompleteServerCache at hn
  rw [FWriteTree.eventCache_visible] at hn
  cases hc : ref.writeTree.visibleWrites.completeNodeAtPath ref.path with
  | some node =>
    rw [hc] at hn
    cases hn
    exact FCompoundWrite.normal_completeNodeAtPath h hc
  | none =>
    rw [hc] at hn
    simp only at hn
    split at hn
    · exact hcache n hn
    · split at hn
      · cases hn
      · cases hn
        refine FCompoundWrite.normal_applyToNode (FCompoundWrite.compound_childCompoundWriteAtPath h _) ?_
        cases cache with
        | none => exact normal_emptyNode
        | some n => exact hcache n rfl

theorem normal_completeEventChildren (h : Compound ref.writeTree.visibleWrites.writeTree) (hn : n.Normal) :
    (ref.calculateCompleteEventChildrenWithCompleteServerChildren n).Normal := by
  unfold calculateCompleteEventChildrenWithCompleteServerChildren FWriteTree.calculateCompleteEventChildrenAtPath
  cases hc : ref.writeTree.visibleWrites.completeNodeAtPath ref.path with
  | some node =>
    have hnode := FCompoundWrite.normal_completeNodeAtPath h hc
    exact normal_foldl_updateImmediateChild (normal_of_mem_enumerateChildren hnode) (fun _ he => he) normal_emptyNode
  | none =>
    have hmerge := FCompoundWrite.compound_childCompoundWriteAtPath h ref.path
    refine normal_foldl_updateImmediateChild (FCompoundWrite.normal_completeChildren hmerge) (fun _ he => he) ?_
    exact normal_foldl_updateImmediateChild (normal_of_mem_enumerateChildren hn)
      (fun e he => FCompoundWrite.normal_applyToNode (FCompoundWrite.compound_childCompoundWriteAtPath hmerge [e.1]) he)
      normal_emptyNode

theorem normal_eventCacheAfterServerOverwrite (h : Compound ref.writeTree.visibleWrites.writeTree) (hn : n.Normal)
    (childPath : List κ) :
    ∀ c ∈ ref.calculateEventCacheAfterServerOverwriteWithChildPath childPath n, c.Normal := by
  intro c hc
  unfold calculateEventCacheAfterServerOverwriteWithChildPath
    FWriteTree.calculateEventCacheAfterServerOverwriteAtPath at hc
  simp only at hc
  split at hc
  · cases hc
  · split at hc
    · cases hc
      exact hn.getChild childPath
    · cases hc
      exact FCompoundWrite.normal_applyToNode (FCompoundWrite.compound_childCompoundWriteAtPath h _)
        (hn.getChild childPath)

theorem normal_completeChild (h : Compound ref.writeTree.visibleWrites.writeTree) {cache : FCacheNode κ}
    (hn : cache.node.Normal) (childKey : κ) : ∀ c ∈ ref.calculateCompleteChild childKey cache, c.Normal := by
  intro c hc
  unfold calculateCompleteChild FWriteTree.calculateCompleteChildAtPath at hc
  simp only at hc
  cases hcomplete : ref.writeTree.visibleWrites.completeNodeAtPath (ref.path ++ [childKey]) with
  | some node =>
    rw [hcomplete] at hc
    cases hc
    exact FCompoundWrite.normal_completeNodeAtPath h hcomplete
  | none =>
    rw [hcomplete] at hc
    obtain ⟨child, hchild, rfl⟩ := Option.map_eq_some_iff.1 hc
    refine FCompoundWrite.normal_applyToNode (FCompoundWrite.compound_childCompoundWriteAtPath h _) ?_
    split at hchild
    · cases hchild
      exact hn.getChild [childKey]
    · cases hchild

end

end FWriteTreeRef

/-! ## The processor -/

/-- The nodes of a cache are stored trees. -/
structure FViewCache.Normal (cache : FViewCache κ) : Prop where
  event : cache.cachedEventSnap.node.Normal
  server : cache.cachedServerSnap.node.Normal

/-- So are those of an operation. -/
def FOperation.Normal : FOperation κ → Prop
  | .overwrite _ _ snap => snap.Normal
  | .merge _ _ changedChildren => Compound changedChildren.writeTree
  | .ackUserWrite _ _ _ => True
  | .listenComplete _ => True

namespace FViewProcessor

open FIndexedFilter Raising

/-- There is no exception of a release build, and the changes lead from the old event snap to the new one. -/
def Proceeds (debug : Bool) (old : FNode κ) (result : Except FViewException (Progress κ)) : Prop :=
  Gives (FViewException.OfDebug debug)
    (fun progress => progress.1.Normal ∧ Turns progress.2 old progress.1.cachedEventSnap.node) result

section
variable {cache : FViewCache κ} {ref : FWriteTreeRef κ} {changes : FChildChangeAccumulator κ} {old snap : FNode κ}
  {path : List κ} {changedChildren : FCompoundWrite κ} {debug : Bool}

theorem proceeds_same (hn : cache.Normal) (h : Turns changes old cache.cachedEventSnap.node) :
    Proceeds debug old (.ok (cache, changes)) := ⟨hn, h⟩

theorem proceeds_foldlM {ι : Type} {f : Progress κ → ι → Except FViewException (Progress κ)} {l : List ι}
    (hstep : ∀ e ∈ l, ∀ cache changes, cache.Normal → Turns changes old cache.cachedEventSnap.node →
      Proceeds debug old (f (cache, changes) e))
    (hn : cache.Normal) (h : Turns changes old cache.cachedEventSnap.node) :
    Proceeds debug old (l.foldlM f (cache, changes)) :=
  gives_foldlM (fun e he progress hp => hstep e he progress.1 progress.2 hp.1 hp.2) ⟨hn, h⟩

/-- Two loops over the same list. -/
theorem proceeds_loops {ι : Type} {f : Progress κ → ι → Except FViewException (Progress κ)} {l l' : List ι}
    (hstep : ∀ e ∈ l ++ l', ∀ cache changes, cache.Normal → Turns changes old cache.cachedEventSnap.node →
      Proceeds debug old (f (cache, changes) e))
    (hn : cache.Normal) (h : Turns changes old cache.cachedEventSnap.node) :
    Proceeds debug old (l.foldlM f (cache, changes) >>= fun progress => l'.foldlM f progress) := by
  rw [← List.foldlM_append]
  exact proceeds_foldlM hstep hn h

theorem updateEventChild_turns {node c : FNode κ} (k : κ) (affectedPath : List κ) (hn : node.Normal)
    (hc : c.Normal) (h : Turns changes old node) :
    Gives (FViewException.OfDebug debug) (fun r => Updated node k c affectedPath r.1 ∧ Turns r.2 old r.1)
      (updateEventChild debug node k c affectedPath changes) := by
  unfold updateEventChild
  refine (updateChildIn_turns k affectedPath hn hc h).bind ?_
  rintro ⟨node', accumulator⟩ ⟨changes', rfl, hnode, hturns⟩
  exact ⟨hnode, hturns⟩

/-- A child of the event snap is updated, and nothing else of the cache. -/
theorem proceeds_updateEventChild {c : FNode κ} {server : FCacheNode κ} (k : κ) (affectedPath : List κ)
    (hn : cache.Normal) (hserver : server.node.Normal) (hc : c.Normal)
    (h : Turns changes old cache.cachedEventSnap.node)
    (complete : Bool) :
    Proceeds debug old (updateEventChild debug cache.cachedEventSnap.node k c affectedPath changes >>= fun r =>
      .ok (⟨⟨r.1, complete, false⟩, server⟩, r.2)) := by
  refine (updateEventChild_turns k affectedPath hn.event hc h).bind ?_
  rintro ⟨node', changes'⟩ ⟨hnode, hturns⟩
  exact ⟨⟨hnode.normal hn.event hc, hserver⟩, hturns⟩

/-! ### The event snap -/

theorem normal_completeServerSnap (hn : cache.Normal) : ∀ n ∈ cache.completeServerSnap, n.Normal := by
  intro n hmem
  unfold FViewCache.completeServerSnap at hmem
  split at hmem
  · cases hmem
    exact hn.server
  · cases hmem

theorem normal_getD_completeEventCache (hw : Compound ref.writeTree.visibleWrites.writeTree) (hn : cache.Normal) :
    ((ref.calculateCompleteEventCacheWithCompleteServerCache cache.completeServerSnap).getD emptyNode).Normal := by
  cases hc : ref.calculateCompleteEventCacheWithCompleteServerCache cache.completeServerSnap with
  | none => exact normal_emptyNode
  | some n => exact FWriteTreeRef.normal_completeEventCache hw (normal_completeServerSnap hn) n hc

theorem normal_nodeWithLocalWrites (hw : Compound ref.writeTree.visibleWrites.writeTree) (hn : cache.Normal) :
    (nodeWithLocalWrites cache ref).Normal := by
  have hserver := normal_completeServerSnap hn
  unfold nodeWithLocalWrites
  split
  · refine FWriteTreeRef.normal_completeEventChildren hw ?_
    split
    · rename_i kids hkids
      exact hserver _ hkids
    · exact normal_emptyNode
  · exact normal_getD_completeEventCache hw hn

theorem normal_newEventChild (hw : Compound ref.writeTree.visibleWrites.writeTree) (hn : cache.Normal) (k : κ) :
    ∀ c ∈ newEventChild cache k path ref, c.Normal := by
  intro c hc
  unfold newEventChild at hc
  cases hcomplete : cache.cachedEventSnap.isCompleteForChild k with
  | true =>
    simp only [hcomplete, if_true] at hc
    split at hc
    · rename_i update hupdate
      cases hc
      exact (hn.event.getChild [k]).updateChild
        (FWriteTreeRef.normal_eventCacheAfterServerOverwrite hw hn.server _ update hupdate) path
    · cases hc
      exact hn.event.getChild [k]
  | false =>
    simp only [hcomplete, Bool.false_eq_true, if_false] at hc
    exact FWriteTreeRef.normal_completeChild hw hn.server k c hc

/-- At an empty path the server's data is complete. -/
theorem generateEventCacheAfterServerEvent_proceeds (hw : Compound ref.writeTree.visibleWrites.writeTree)
    (hn : cache.Normal) (h : Turns changes old cache.cachedEventSnap.node)
    (hfull : path = [] → cache.cachedServerSnap.isFullyInitialized = true) :
    Proceeds debug old (generateEventCacheAfterServerEvent debug cache path ref changes) := by
  unfold generateEventCacheAfterServerEvent
  cases hshadow : (ref.shadowingWriteAtPath path).isSome with
  | true => exact proceeds_same hn h
  | false =>
    simp only [Bool.false_eq_true, if_false]
    cases path with
    | nil =>
      have hnew := normal_nodeWithLocalWrites hw hn
      obtain ⟨changes', hupdate, hturns⟩ := updateFullNode_turns hn.event hnew h
      simp only [hfull rfl, if_true, hupdate]
      exact ⟨⟨hnew, hn.server⟩, hturns⟩
    | cons k p =>
      cases hchild : newEventChild cache k p ref with
      | none =>
        simp only [hchild]
        exact ⟨⟨hn.event, hn.server⟩, h⟩
      | some c =>
        have hc := normal_newEventChild hw hn k c hchild
        simp only [hchild]
        exact proceeds_updateEventChild k p hn hn.server hc h _

/-! ### The operations -/

theorem applyServerOverwriteTo_proceeds (hw : Compound ref.writeTree.visibleWrites.writeTree) (hn : cache.Normal)
    (hsnap : snap.Normal) (h : Turns changes old cache.cachedEventSnap.node) :
    Proceeds debug old (applyServerOverwriteTo debug cache path snap ref changes) := by
  unfold applyServerOverwriteTo
  cases path with
  | nil =>
    have hn' : (cache.updateServerSnap snap true false).Normal := ⟨hn.event, hsnap⟩
    exact generateEventCacheAfterServerEvent_proceeds hw hn' h fun _ => rfl
  | cons k p =>
    have hc := (hn.server.getChild [k]).updateChild hsnap p
    cases hskip : !cache.cachedServerSnap.isCompleteForPath (k :: p) && decide ((k :: p).length > 1) with
    | true =>
      simp only [hskip, if_true]
      exact proceeds_same hn h
    | false =>
      simp only [hskip, Bool.false_eq_true, if_false]
      refine (updateChildIn_untracked k p hn.server hc).bind ?_
      rintro ⟨node', accumulator⟩ hnode
      have hn' : (cache.updateServerSnap node' cache.cachedServerSnap.isFullyInitialized false).Normal :=
        ⟨hn.event, hnode.normal hn.server hc⟩
      exact generateEventCacheAfterServerEvent_proceeds hw hn' h fun hp => nomatch hp

theorem normal_completeChild (hw : Compound ref.writeTree.visibleWrites.writeTree) (hn : cache.Normal)
    {complete : Option (FNode κ)} (hcomplete : ∀ n ∈ complete, n.Normal) (k : κ) :
    ∀ c ∈ completeChild ref cache complete k, c.Normal := by
  intro c hc
  unfold completeChild at hc
  cases hevent : cache.cachedEventSnap.isCompleteForChild k with
  | true =>
    simp only [hevent, if_true] at hc
    cases hc
    exact hn.event.getChild [k]
  | false =>
    simp only [hevent, Bool.false_eq_true, if_false] at hc
    cases complete with
    | some n =>
      have hn' : (FCacheNode.mk n true false).node.Normal := hcomplete n rfl
      exact FWriteTreeRef.normal_completeChild hw hn' k c hc
    | none => exact FWriteTreeRef.normal_completeChild hw hn.server k c hc

theorem applyUserOverwriteTo_proceeds (hw : Compound ref.writeTree.visibleWrites.writeTree) (hn : cache.Normal)
    {complete : Option (FNode κ)} (hcomplete : ∀ n ∈ complete, n.Normal) (hsnap : snap.Normal)
    (h : Turns changes old cache.cachedEventSnap.node) :
    Proceeds debug old (applyUserOverwriteTo debug cache path snap ref complete changes) := by
  unfold applyUserOverwriteTo
  cases path with
  | nil =>
    obtain ⟨changes', hupdate, hturns⟩ := updateFullNode_turns hn.event hsnap h
    simp only [hupdate]
    exact ⟨⟨hsnap, hn.server⟩, hturns⟩
  | cons k p =>
    have hchild : ∀ c : FNode κ, c.Normal →
        Proceeds debug old (if isEqual (getImmediateChild k cache.cachedEventSnap.node) c then .ok (cache, changes)
          else updateEventChild debug cache.cachedEventSnap.node k c p changes >>= fun x =>
            .ok (cache.updateEventSnap x.1 cache.cachedEventSnap.isFullyInitialized false, x.2)) := by
      intro c hc
      cases isEqual (getImmediateChild k cache.cachedEventSnap.node) c with
      | true => exact proceeds_same hn h
      | false =>
        simp only [Bool.false_eq_true, if_false]
        exact proceeds_updateEventChild k p hn hn.server hc h _
    refine hchild _ ?_
    split
    · exact hsnap
    · cases hc : completeChild ref cache complete k with
      | none => exact normal_emptyNode
      | some c => exact (normal_completeChild hw hn hcomplete k c hc).updateChild hsnap p

theorem applyUserMergeTo_proceeds (hw : Compound ref.writeTree.visibleWrites.writeTree) (hn : cache.Normal)
    {complete : Option (FNode κ)} (hcomplete : ∀ n ∈ complete, n.Normal) (hmerge : Compound changedChildren.writeTree)
    (h : Turns changes old cache.cachedEventSnap.node) :
    Proceeds debug old (applyUserMergeTo debug cache path changedChildren ref complete changes) := by
  unfold applyUserMergeTo
  refine proceeds_loops (fun e he cache' changes' hn' h' => ?_) hn h
  have hmem : e ∈ changedChildren.writesAt path := by
    rcases List.mem_append.1 he with he | he
    · exact (List.mem_filter.1 he).1
    · exact (List.mem_filter.1 he).1
  exact applyUserOverwriteTo_proceeds hw hn' hcomplete (FCompoundWrite.normal_writesAt hmerge path e hmem) h'

theorem applyServerMergeTo_proceeds (hw : Compound ref.writeTree.visibleWrites.writeTree) (hn : cache.Normal)
    (hmerge : Compound changedChildren.writeTree) (h : Turns changes old cache.cachedEventSnap.node) :
    Proceeds debug old (applyServerMergeTo debug cache path changedChildren ref changes) := by
  unfold applyServerMergeTo
  cases hskip : cache.cachedServerSnap.node.isEmpty && !cache.cachedServerSnap.isFullyInitialized with
  | true =>
    simp only [hskip, if_true]
    exact proceeds_same hn h
  | false =>
    simp only [hskip, Bool.false_eq_true, if_false]
    have hactual : Compound (if path.isEmpty then changedChildren
        else FCompoundWrite.emptyWrite.addCompoundWrite changedChildren path).writeTree := by
      split
      · exact hmerge
      · exact FCompoundWrite.compound_addCompoundWrite compound_empty hmerge path
    refine proceeds_loops (fun e he cache' changes' hn' h' => ?_) hn h
    have hmem : e ∈ (if path.isEmpty then changedChildren
        else FCompoundWrite.emptyWrite.addCompoundWrite changedChildren path).writeTree.children := by
      rcases List.mem_append.1 he with he | he
      · exact (List.mem_filter.1 he).1
      · exact (List.mem_filter.1 he).1
    exact applyServerOverwriteTo_proceeds hw hn'
      (FCompoundWrite.normal_applyToNode (hactual.of_mem_children hmem) (hn.server.getChild [e.1])) h'

theorem ackUserWriteOn_proceeds (hw : Compound ref.writeTree.visibleWrites.writeTree) (hn : cache.Normal)
    {affectedTree : FImmutableTree κ Unit} (h : Turns changes old cache.cachedEventSnap.node) :
    Proceeds debug old (ackUserWriteOn debug cache path affectedTree ref changes) := by
  unfold ackUserWriteOn
  cases hshadow : (ref.shadowingWriteAtPath path).isSome with
  | true => exact proceeds_same hn h
  | false =>
    simp only [Bool.false_eq_true, if_false]
    cases affectedTree.value with
    | some _ =>
      simp only
      cases path.isEmpty && cache.cachedServerSnap.isFullyInitialized ||
          cache.cachedServerSnap.isCompleteForPath path with
      | true => exact applyServerOverwriteTo_proceeds hw hn (hn.server.getChild path) h
      | false =>
        simp only [Bool.false_eq_true, if_false]
        cases path.isEmpty with
        | true =>
          refine applyServerMergeTo_proceeds hw hn ?_ h
          exact List.foldlRecOn (motive := fun w : FCompoundWrite κ => Compound w.writeTree) _ _ compound_empty
            fun w hcompound e he => FCompoundWrite.compound_addWrite hcompound
              (FWriteTreeRef.normal_of_mem_enumerateChildren hn.server e he) [e.1]
        | false => exact proceeds_same hn h
    | none =>
      refine applyServerMergeTo_proceeds hw hn ?_ h
      refine List.foldlRecOn (motive := fun w : FCompoundWrite κ => Compound w.writeTree) _ _ compound_empty
        fun w hcompound e _ => ?_
      split
      · exact FCompoundWrite.compound_addWrite hcompound (hn.server.getChild _) _
      · exact hcompound

theorem revertedEventCache_turns (path : List κ) (hw : Compound ref.writeTree.visibleWrites.writeTree)
    (hn : cache.Normal) (h : Turns changes old cache.cachedEventSnap.node) :
    Gives (FViewException.OfDebug debug) (fun r => r.1.Normal ∧ Turns r.2 old r.1)
      (revertedEventCache debug cache path ref changes) := by
  unfold revertedEventCache
  cases path with
  | nil =>
    have hnew : (if cache.cachedServerSnap.isFullyInitialized then
        (ref.calculateCompleteEventCacheWithCompleteServerCache cache.completeServerSnap).getD emptyNode
      else ref.calculateCompleteEventChildrenWithCompleteServerChildren cache.cachedServerSnap.node).Normal := by
      split
      · exact normal_getD_completeEventCache hw hn
      · exact FWriteTreeRef.normal_completeEventChildren hw hn.server
    obtain ⟨changes', hupdate, hturns⟩ := updateFullNode_turns hn.event hnew h
    simp only [hupdate]
    exact ⟨hnew, hturns⟩
  | cons k p =>
    have hupdated : ∀ c : FNode κ, c.Normal → Gives (FViewException.OfDebug debug)
        (fun r => r.1.Normal ∧ Turns r.2 old r.1) (updateEventChild debug cache.cachedEventSnap.node k c p changes) :=
      fun c hc => (updateEventChild_turns k p hn.event hc h).imp fun r hr => ⟨hr.1.normal hn.event hc, hr.2⟩
    simp only
    split
    · rename_i c hchild
      refine hupdated c ?_
      cases hc : ref.calculateCompleteChild k cache.cachedServerSnap with
      | some c' =>
        rw [hc] at hchild
        cases hchild
        exact FWriteTreeRef.normal_completeChild hw hn.server k _ hc
      | none =>
        rw [hc] at hchild
        simp only at hchild
        split at hchild
        · cases hchild
          exact hn.event.getChild [k]
        · cases hchild
    · split
      · exact hupdated emptyNode normal_emptyNode
      · exact ⟨hn.event, h⟩

theorem revertUserWriteOn_proceeds (hw : Compound ref.writeTree.visibleWrites.writeTree) (hn : cache.Normal)
    (h : Turns changes old cache.cachedEventSnap.node) :
    Proceeds debug old (revertUserWriteOn debug cache path ref changes) := by
  unfold revertUserWriteOn
  cases hshadow : (ref.shadowingWriteAtPath path).isSome with
  | true => exact proceeds_same hn h
  | false =>
    have hcomplete := normal_getD_completeEventCache hw hn
    simp only [Bool.false_eq_true, if_false]
    refine (revertedEventCache_turns path hw hn h).bind ?_
    rintro ⟨node, changes₁⟩ ⟨hnode, hturns⟩
    simp only
    cases hleaf : !path.isEmpty && node.isEmpty && cache.cachedServerSnap.isFullyInitialized &&
        ((ref.calculateCompleteEventCacheWithCompleteServerCache cache.completeServerSnap).getD emptyNode).isLeafNode with
    | true =>
      obtain ⟨changes', hupdate, hturns'⟩ := updateFullNode_turns hnode hcomplete hturns
      simp only [if_true, hupdate]
      exact ⟨⟨hcomplete, hn.server⟩, hturns'⟩
    | false =>
      simp only [Bool.false_eq_true, if_false]
      exact ⟨⟨hnode, hn.server⟩, hturns⟩

theorem listenComplete_proceeds (hw : Compound ref.writeTree.visibleWrites.writeTree) (hn : cache.Normal)
    (h : Turns changes old cache.cachedEventSnap.node) : Proceeds debug old
    (listenComplete debug cache path ref changes) := by
  unfold listenComplete
  refine generateEventCacheAfterServerEvent_proceeds hw ⟨hn.event, hn.server⟩ h ?_
  rintro rfl
  exact Bool.or_true _

/-- **No operation raises an exception, and its changes say how the children of the event snap went on.** -/
theorem process_proceeds (hw : Compound ref.writeTree.visibleWrites.writeTree) (hn : cache.Normal)
    {complete : Option (FNode κ)} (hcomplete : ∀ n ∈ complete, n.Normal) {operation : FOperation κ}
    (hop : operation.Normal) :
    Proceeds debug cache.cachedEventSnap.node (process debug cache ref complete operation) := by
  have h := turns_nil cache.cachedEventSnap.node
  unfold process
  cases operation with
  | overwrite fromUser path snap =>
    cases fromUser with
    | true => exact applyUserOverwriteTo_proceeds hw hn hcomplete hop h
    | false => exact applyServerOverwriteTo_proceeds hw hn hop h
  | merge fromUser path changedChildren =>
    cases fromUser with
    | true => exact applyUserMergeTo_proceeds hw hn hcomplete hop h
    | false => exact applyServerMergeTo_proceeds hw hn hop h
  | ackUserWrite path affectedTree revert =>
    cases revert with
    | true => exact revertUserWriteOn_proceeds hw hn h
    | false => exact ackUserWriteOn_proceeds hw hn h
  | listenComplete path => exact listenComplete_proceeds hw hn h

/-! ### The value -/

/-- Without a change of a child there is none, unless a text or an empty node came or went. -/
theorem eq_of_turns_nil {node : FNode κ} (hold : old.Normal) (hnode : node.Normal) (h : Turns [] old node)
    (hleaf : node.isLeafNode = true ∨ node.isEmpty = true → node = old) : node = old := by
  by_cases hl : node.isLeafNode = true ∨ node.isEmpty = true
  · exact hleaf hl
  · have hchildren : ∀ k, getImmediateChild k node = getImmediateChild k old := fun k => (h k).symm
    refine hnode.ext_child hold ?_ hchildren
    cases node with
    | leaf v => exact absurd (.inl rfl) hl
    | children kids =>
      cases kids with
      | nil => exact absurd (.inr rfl) hl
      | cons e kids =>
        -- the old node has a child, so it is no text
        cases old with
        | children oldKids => rfl
        | leaf v =>
          have hchild := hchildren e.1
          rw [hnode.getImmediateChild (show (e.1, e.2) ∈ e :: kids from List.mem_cons_self)] at hchild
          have hne := (hnode [] _ rfl).2 e List.mem_cons_self
          rw [hchild] at hne
          cases hne

/-- The value told is the event snap, and a new event snap is told. -/
theorem maybeAddValue_spec {cache' : FViewCache κ} (hn : cache.Normal) (hn' : cache'.Normal)
    (h : Turns changes cache.cachedEventSnap.node cache'.cachedEventSnap.node) :
    (∀ n, maybeAddValue cache cache' changes = some n → cache'.completeEventSnap = some n) ∧
      (maybeAddValue cache cache' changes = none → cache'.completeEventSnap = none ∨
        cache'.completeEventSnap = cache.completeEventSnap) := by
  unfold maybeAddValue FViewCache.completeEventSnap
  cases hfull : cache'.cachedEventSnap.isFullyInitialized with
  | false =>
    simp only [hfull, Bool.false_eq_true, if_false]
    exact ⟨fun _ hs => (nomatch hs), fun _ => .inl trivial⟩
  | true =>
    simp only [hfull, if_true]
    cases hloud : !changes.isEmpty || !cache.cachedEventSnap.isFullyInitialized ||
        (cache'.cachedEventSnap.node.isLeafNode || cache'.cachedEventSnap.node.isEmpty) &&
          !isEqual cache'.cachedEventSnap.node cache.cachedEventSnap.node with
    | true => exact ⟨fun _ hs => hs, fun hs => nomatch hs⟩
    | false =>
      refine ⟨fun _ hs => (nomatch hs), fun _ => .inr ?_⟩
      rw [Bool.or_eq_false_iff, Bool.or_eq_false_iff, Bool.not_eq_false', Bool.not_eq_false', List.isEmpty_iff] at hloud
      obtain ⟨⟨rfl, hold⟩, hleaf⟩ := hloud
      have hsame : isEqual cache'.cachedEventSnap.node cache.cachedEventSnap.node = true ↔
          cache'.cachedEventSnap.node = cache.cachedEventSnap.node := isEqual_eq_true hn'.event hn.event
      rw [hold, if_pos rfl, eq_of_turns_nil hn.event hn'.event h fun hl => ?_]
      rw [← Bool.or_eq_true] at hl
      rw [hl, Bool.true_and, Bool.not_eq_false'] at hleaf
      exact hsame.1 hleaf

/-- **An operation goes through, and its value brings a listener up to date.** Only the assertion of a debug build
can stop it. -/
theorem applyOperationOn_spec (hw : Compound ref.writeTree.visibleWrites.writeTree) (hn : cache.Normal)
    {complete : Option (FNode κ)} (hcomplete : ∀ n ∈ complete, n.Normal) {operation : FOperation κ}
    (hop : operation.Normal) :
    (∃ cache' changes value, applyOperationOn debug cache operation ref complete = .ok (cache', changes, value) ∧
      cache'.Normal ∧ Turns changes cache.cachedEventSnap.node cache'.cachedEventSnap.node ∧
      (∀ n, value = some n → cache'.completeEventSnap = some n) ∧
      (value = none → cache'.completeEventSnap = none ∨ cache'.completeEventSnap = cache.completeEventSnap)) ∨
    debug = true ∧ applyOperationOn debug cache operation ref complete = .error .snapshotsDiffer := by
  have hproceeds : Proceeds debug _ _ := process_proceeds hw hn hcomplete hop
  unfold applyOperationOn
  cases hprocess : process debug cache ref complete operation with
  | error exception =>
    rw [hprocess] at hproceeds
    obtain ⟨hdebug, rfl⟩ := hproceeds
    exact .inr ⟨hdebug, rfl⟩
  | ok progress =>
    obtain ⟨cache', changes⟩ := progress
    obtain ⟨hn', hturns⟩ := hproceeds.of_ok hprocess
    obtain ⟨hsome, hnone⟩ := maybeAddValue_spec hn hn' hturns
    exact .inl ⟨cache', changes, maybeAddValue cache cache' changes, rfl, hn', hturns, hsome, hnone⟩

/-- A new item arrives at a list that is shown, while another item waits to be removed. -/
theorem applyOperationOn_spec_milk : ∃ tree cache' changes,
    FWriteTree.init.addOverwriteAtPath ["Food", "Bread"] emptyNode 0 true = .ok tree ∧
      applyOperationOn true
        ⟨⟨.children [("Eggs", .leaf "3")], true, false⟩,
          ⟨.children [("Bread", .leaf "1"), ("Eggs", .leaf "3")], true, false⟩⟩
        (.overwrite false ["Milk"] (.leaf "2")) ⟨["Food"], tree⟩ none =
          .ok (cache', changes, some (.children [("Eggs", .leaf "3"), ("Milk", .leaf "2")])) ∧
      Turns changes (.children [("Eggs", .leaf "3")]) cache'.cachedEventSnap.node ∧
      cache'.completeEventSnap = some (.children [("Eggs", .leaf "3"), ("Milk", .leaf "2")]) := by
  have heggs : (FNode.children [("Eggs", .leaf "3")]).Normal :=
    normal_emptyNode.updateChild (normal_leaf "3") ["Eggs"]
  have hboth : (FNode.children [("Bread", .leaf "1"), ("Eggs", .leaf "3")]).Normal :=
    heggs.updateChild (normal_leaf "1") ["Bread"]
  have hn : FViewCache.Normal ⟨⟨.children [("Eggs", .leaf "3")], true, false⟩,
      ⟨.children [("Bread", .leaf "1"), ("Eggs", .leaf "3")], true, false⟩⟩ := ⟨heggs, hboth⟩
  have hop : FOperation.Normal (.overwrite false ["Milk"] (.leaf "2")) := normal_leaf "2"
  have hnone : ∀ n ∈ (none : Option FNode), n.Normal := fun _ hmem => nomatch hmem
  obtain ⟨tree, htree, hlayered, -⟩ := FWriteTree.layered_init.addOverwrite ["Food", "Bread"] normal_emptyNode
    (show FWriteTree.init.lastWriteId < 0 by decide)
  have hw : Compound (FWriteTreeRef.mk ["Food"] tree).writeTree.visibleWrites.writeTree := hlayered.compound
  cases htree
  obtain ⟨cache', changes, value, happly, -, hturns, hsome, -⟩ | ⟨-, hdiffer⟩ :=
    applyOperationOn_spec hw hn hnone hop
  case inr => cases hdiffer
  have hvalue : value = some (.children [("Eggs", .leaf "3"), ("Milk", .leaf "2")]) := by
    cases happly
    rfl
  rw [hvalue] at happly hsome
  exact ⟨_, cache', changes, rfl, happly, hturns, hsome _ rfl⟩

end

end FViewProcessor

end ShopingList
