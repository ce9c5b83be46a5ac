import ShopingList.Firebase.Layers

/-!
# Pending writes

`FWriteTree` keeps the writes of the user that the server has not acknowledged, and
the layer of those that are visible. A new write goes on top of the layer; when a
write goes, `removeWriteId:` leaves the layer alone, cuts the write out of it or
builds it again from the writes that are left, whichever its scan of the other
writes allows.
-/

namespace ShopingList

open FNode

open FImmutableTree hiding node child children

/-- The assertions of `FWriteTree`. -/
inductive FWriteTreeAssertion where
  /-- "Stacking an older write on top of a newer one". -/
  | olderWrite
  /-- "called with nonexistent writeId". -/
  | nonexistentWriteId
  deriving DecidableEq, Repr

/-- What a record writes: one of its `overwrite` and `merge` is nil. -/
inductive FWrite (κ : Type) where
  | overwrite (node : FNode κ)
  | merge (changedChildren : FCompoundWrite κ)

structure FWriteRecord (κ : Type) where
  path : List κ
  write : FWrite κ
  writeId : Int
  visible : Bool

variable {κ : Type} [LinearOrder κ]

namespace FWriteRecord

/-- The nodes a record writes, with their paths from the root. -/
def writes (record : FWriteRecord κ) : List (List κ × FNode κ) :=
  match record.write with
  | .overwrite node => [(record.path, node)]
  | .merge changedChildren => changedChildren.writesAt record.path

/-- `record:containsPath:`. -/
def containsPath (record : FWriteRecord κ) (path : List κ) : Bool :=
  match record.write with
  | .overwrite _ => FPath.contains record.path path
  | .merge changedChildren =>
    (changedChildren.writesAt record.path).any fun p => FPath.contains p.1 path

end FWriteRecord

structure FWriteTree (κ : Type) where
  visibleWrites : FCompoundWrite κ
  allWrites : List (FWriteRecord κ)
  lastWriteId : Int

namespace FWriteTree

def init : FWriteTree κ := ⟨.emptyWrite, [], -1⟩

def addOverwriteAtPath (path : List κ) (newData : FNode κ) (writeId : Int) (visible : Bool)
    (tree : FWriteTree κ) : Except FWriteTreeAssertion (FWriteTree κ) := do
  if !(writeId > tree.lastWriteId) then throw .olderWrite
  let record : FWriteRecord κ := ⟨path, .overwrite newData, writeId, visible⟩
  return {
    visibleWrites := if visible then tree.visibleWrites.addWrite newData path else tree.visibleWrites
    allWrites := tree.allWrites ++ [record]
    lastWriteId := writeId }

def addMergeAtPath (path : List κ) (changedChildren : FCompoundWrite κ) (writeId : Int)
    (tree : FWriteTree κ) : Except FWriteTreeAssertion (FWriteTree κ) := do
  if !(writeId > tree.lastWriteId) then throw .olderWrite
  let record : FWriteRecord κ := ⟨path, .merge changedChildren, writeId, true⟩
  return {
    visibleWrites := tree.visibleWrites.addCompoundWrite changedChildren path
    allWrites := tree.allWrites ++ [record]
    lastWriteId := writeId }

/-- The part of a record that `layerTreeFromWrites:` lays on top at the root of the layer. -/
def layerRecord (treeRoot : List κ) (compoundWrite : FCompoundWrite κ) (record : FWriteRecord κ) :
    FCompoundWrite κ :=
  let writePath := record.path
  match record.write with
  | .overwrite node =>
    if FPath.contains treeRoot writePath then
      compoundWrite.addWrite node (writePath.drop treeRoot.length)
    else if FPath.contains writePath treeRoot then
      compoundWrite.addWrite (getChild (treeRoot.drop writePath.length) node) []
    else compoundWrite
  | .merge changedChildren =>
    if FPath.contains treeRoot writePath then
      compoundWrite.addCompoundWrite changedChildren (writePath.drop treeRoot.length)
    else if FPath.contains writePath treeRoot then
      let relativePath := treeRoot.drop writePath.length
      if relativePath.isEmpty then compoundWrite.addCompoundWrite changedChildren []
      else
        match changedChildren.completeNodeAtPath relativePath with
        | some child => compoundWrite.addWrite (getChild relativePath.tail child) []
        | none => compoundWrite
    else compoundWrite

def layerTreeFromWrites (writes : List (FWriteRecord κ)) (filter : FWriteRecord κ → Bool)
    (treeRoot : List κ) : FCompoundWrite κ :=
  (writes.filter filter).foldl (layerRecord treeRoot) .emptyWrite

/-- It keeps the writes that are not visible, too. -/
def defaultFilter : FWriteRecord κ → Bool := fun _ => true

def resetTree (tree : FWriteTree κ) : FWriteTree κ :=
  { tree with
    visibleWrites := layerTreeFromWrites tree.allWrites defaultFilter []
    lastWriteId :=
      match tree.allWrites.getLast? with
      | some lastRecord => lastRecord.writeId
      | none => -1 }

/-- The loop over the other writes, the last one first: whether the removed write is
still visible, and whether it overlaps with other writes. -/
def scanWrites (writeToRemove : FWriteRecord κ) (index : Nat) :
    List (FWriteRecord κ × Nat) → Bool × Bool → Bool × Bool
  | [], flags => flags
  | (currentWrite, i) :: rest, (wasVisible, overlaps) =>
    if !wasVisible then (wasVisible, overlaps)
    else if !currentWrite.visible then scanWrites writeToRemove index rest (wasVisible, overlaps)
    else if i ≥ index && currentWrite.containsPath writeToRemove.path then
      scanWrites writeToRemove index rest (false, overlaps)
    else if FPath.contains writeToRemove.path currentWrite.path then
      scanWrites writeToRemove index rest (wasVisible, true)
    else scanWrites writeToRemove index rest (wasVisible, overlaps)

/-- Cutting the writes of a record out of the layer. -/
def cut (writeToRemove : FWriteRecord κ) (visibleWrites : FCompoundWrite κ) : FCompoundWrite κ :=
  match writeToRemove.write with
  | .overwrite _ => visibleWrites.removeWriteAtPath writeToRemove.path
  | .merge merge =>
    (merge.writesAt writeToRemove.path).foldl (fun visibleWrites p => visibleWrites.removeWriteAtPath p.1)
      visibleWrites

/-- The answer is YES if the write may have been visible. -/
def removeWriteId (writeId : Int) (tree : FWriteTree κ) : Except FWriteTreeAssertion (Bool × FWriteTree κ) :=
  match tree.allWrites.findIdx? (·.writeId = writeId) with
  | none => .error .nonexistentWriteId
  | some index =>
    match tree.allWrites[index]? with
    | none => .error .nonexistentWriteId
    | some writeToRemove =>
      let tree := { tree with allWrites := tree.allWrites.eraseIdx index }
      let (wasVisible, overlaps) :=
        scanWrites writeToRemove index tree.allWrites.zipIdx.reverse (writeToRemove.visible, false)
      if !wasVisible then .ok (false, tree)
      else if overlaps then .ok (true, tree.resetTree)
      else .ok (true, { tree with visibleWrites := cut writeToRemove tree.visibleWrites })

/-! ## Snapshots -/

def calculateCompleteEventCacheAtPath (treePath : List κ) (completeServerCache : Option (FNode κ))
    (writeIdsToExclude : Option (List Int)) (includeHiddenWrites : Bool) (tree : FWriteTree κ) : Option (FNode κ) :=
  if writeIdsToExclude.isNone && !includeHiddenWrites then
    match tree.visibleWrites.completeNodeAtPath treePath with
    | some shadowingNode => some shadowingNode
    | none =>
      let subMerge := tree.visibleWrites.childCompoundWriteAtPath treePath
      if subMerge.isEmpty then completeServerCache
      else if completeServerCache.isNone && !subMerge.hasCompleteWriteAtPath [] then none
      else some (subMerge.applyToNode (completeServerCache.getD emptyNode))
  else
    let merge := tree.visibleWrites.childCompoundWriteAtPath treePath
    if !includeHiddenWrites && merge.isEmpty then completeServerCache
    else if !includeHiddenWrites && completeServerCache.isNone && !merge.hasCompleteWriteAtPath [] then none
    else
      let filter (record : FWriteRecord κ) : Bool :=
        (record.visible || includeHiddenWrites) &&
          !(writeIdsToExclude.getD []).contains record.writeId &&
          (FPath.contains record.path treePath || FPath.contains treePath record.path)
      let mergeAtPath := layerTreeFromWrites tree.allWrites filter treePath
      some (mergeAtPath.applyToNode (completeServerCache.getD emptyNode))

def calculateEventCacheAfterServerOverwriteAtPath (treePath childPath : List κ)
    (existingServerSnap : FNode κ) (tree : FWriteTree κ) : Option (FNode κ) :=
  let path := treePath ++ childPath
  if tree.visibleWrites.hasCompleteWriteAtPath path then none
  else
    let childMerge := tree.visibleWrites.childCompoundWriteAtPath path
    if childMerge.isEmpty then some (getChild childPath existingServerSnap)
    else some (childMerge.applyToNode (getChild childPath existingServerSnap))

/-- The cache is the complete server node of the child, if it is complete. -/
def calculateCompleteChildAtPath (treePath : List κ) (childKey : κ)
    (existingServerCache : Option (FNode κ)) (tree : FWriteTree κ) : Option (FNode κ) :=
  let path := treePath ++ [childKey]
  match tree.visibleWrites.completeNodeAtPath path with
  | some shadowingNode => some shadowingNode
  | none =>
    existingServerCache.map fun child =>
      (tree.visibleWrites.childCompoundWriteAtPath path).applyToNode child

end FWriteTree

/-! ## Records -/

namespace FImmutableTree

theorem Compound.normal_of_valueAtPath {t : FImmutableTree κ (FNode κ)} (h : Compound t) {p : List κ}
    {v : FNode κ} (hv : valueAtPath p t = some v) : v.Normal := by
  induction p generalizing t with
  | nil =>
    rw [valueAtPath_nil] at hv
    exact (h.of_value hv).2
  | cons k p ih =>
    rw [valueAtPath_cons] at hv
    exact ih (h.child k) hv

/-- Of two values of a layer, none is above the other. -/
theorem Compound.eq_of_contains {t : FImmutableTree κ (FNode κ)} (h : Compound t) {p q : List κ} {v w : FNode κ}
    (hp : valueAtPath p t = some v) (hq : valueAtPath q t = some w) (hpre : p <+: q) : p = q := by
  induction p generalizing t q with
  | nil =>
    rw [valueAtPath_nil] at hp
    obtain ⟨rfl, -⟩ := h.of_value hp
    cases q with
    | nil => rfl
    | cons k q =>
      rw [valueAtPath_cons, child_ofValue, valueAtPath_empty] at hq
      cases hq
  | cons k p ih =>
    cases q with
    | nil => cases List.prefix_nil.1 hpre
    | cons k' q =>
      obtain ⟨rfl, hpre'⟩ := List.cons_prefix_cons.1 hpre
      rw [valueAtPath_cons] at hp hq
      rw [ih (h.child k) hp hq hpre']

end FImmutableTree

namespace FWriteRecord

/-- A visible overwrite, or a merge of children: no path of it is deeper. -/
structure Plain (record : FWriteRecord κ) : Prop where
  visible : record.visible = true
  normal : ∀ p ∈ record.writes, p.2.Normal
  shallow : ∀ p ∈ record.writes, record.path <+: p.1 ∧ p.1.length ≤ record.path.length + 1
  apart : (record.writes.map Prod.fst).Pairwise Incomparable

section
variable {record : FWriteRecord κ}

theorem containsPath_iff {path : List κ} :
    record.containsPath path = true ↔ ∃ p ∈ record.writes, p.1 <+: path := by
  unfold containsPath writes
  cases record.write with
  | overwrite node => simp [FPath.contains_iff]
  | merge changedChildren => simp only [List.any_eq_true, FPath.contains_iff]

theorem plain_overwrite (path : List κ) {node : FNode κ} (h : node.Normal) (writeId : Int) :
    Plain ⟨path, .overwrite node, writeId, true⟩ := by
  have hw : writes ⟨path, .overwrite node, writeId, true⟩ = [(path, node)] := rfl
  constructor
  · rfl
  · rw [hw]
    simpa using h
  · rw [hw]
    simp
  · rw [hw]
    exact List.pairwise_singleton _ _

theorem plain_merge (path : List κ) {changedChildren : FCompoundWrite κ}
    (h : Compound changedChildren.writeTree)
    (hshallow : ∀ p ∈ forEach changedChildren.writeTree, p.1.length ≤ 1) (writeId : Int) :
    Plain ⟨path, .merge changedChildren, writeId, true⟩ := by
  have hw : writes ⟨path, .merge changedChildren, writeId, true⟩ = changedChildren.writesAt path := rfl
  have hmem : ∀ p ∈ changedChildren.writesAt path, ∃ q ∈ forEach changedChildren.writeTree,
      (path ++ q.1, q.2) = p := fun p hp => List.mem_map.1 hp
  constructor
  · rfl
  · rw [hw]
    intro p hp
    obtain ⟨q, hq, rfl⟩ := hmem p hp
    exact h.normal_of_valueAtPath ((mem_forEach h.canonical).1 hq)
  · rw [hw]
    intro p hp
    obtain ⟨q, hq, rfl⟩ := hmem p hp
    have hlen := hshallow q hq
    refine ⟨List.prefix_append path q.1, ?_⟩
    simp only [List.length_append]
    omega
  · rw [hw, FCompoundWrite.writesAt, List.map_map, List.pairwise_map]
    refine (List.pairwise_map.1 (nodup_forEach h.canonical)).imp_of_mem fun {p q} hp hq hne => ?_
    have hvp := (mem_forEach h.canonical).1 hp
    have hvq := (mem_forEach h.canonical).1 hq
    refine ⟨fun hpre => ?_, fun hpre => ?_⟩
    · exact hne (h.eq_of_contains hvp hvq ((List.prefix_append_right_inj path).1 hpre))
    · exact hne (h.eq_of_contains hvq hvp ((List.prefix_append_right_inj path).1 hpre)).symm

end

end FWriteRecord

/-! ## The layer of the writes -/

namespace FCompoundWrite

omit [LinearOrder κ] in
theorem eq_of_writeTree {w w' : FCompoundWrite κ} (h : w.writeTree = w'.writeTree) : w = w' := by
  cases w
  cases w'
  exact congrArg mk h

theorem writeTree_addWrites {w : FCompoundWrite κ} {writes : List (List κ × FNode κ)}
    (h : Compound w.writeTree) (hw : ∀ p ∈ writes, p.2.Normal) :
    (w.addWrites writes).writeTree = layers writes w.writeTree := by
  induction writes generalizing w with
  | nil => rfl
  | cons p writes ih =>
    have hstep := writeTree_addWrite p.2 p.1 h
    have hcompound : Compound (w.addWrite p.2 p.1).writeTree :=
      hstep ▸ h.layer (hw p List.mem_cons_self) p.1
    have hrest := ih hcompound fun q hq => hw q (List.mem_cons_of_mem p hq)
    rw [hstep] at hrest
    exact hrest

theorem addWrites_append (w : FCompoundWrite κ) (writes writes' : List (List κ × FNode κ)) :
    w.addWrites (writes ++ writes') = (w.addWrites writes).addWrites writes' := List.foldl_append ..

theorem writeTree_removeWriteAtPath (w : FCompoundWrite κ) (path : List κ) :
    (w.removeWriteAtPath path).writeTree = setTree empty path w.writeTree := by
  unfold removeWriteAtPath
  cases path with
  | nil => rw [List.isEmpty_nil, if_pos rfl, setTree_nil]; rfl
  | cons k path => rfl

end FCompoundWrite

namespace FWriteTree

/-- All writes with their paths from the root, the oldest first. -/
def pending (tree : FWriteTree κ) : List (List κ × FNode κ) := tree.allWrites.flatMap FWriteRecord.writes

theorem layerRecord_root (w : FCompoundWrite κ) (record : FWriteRecord κ) :
    layerRecord [] w record = w.addWrites record.writes := by
  unfold layerRecord FWriteRecord.writes
  cases record.write with
  | overwrite node => rfl
  | merge changedChildren => rfl

/-- Built from scratch, the layer is that of all writes. -/
theorem layerTreeFromWrites_root (writes : List (FWriteRecord κ)) :
    layerTreeFromWrites writes defaultFilter [] =
      FCompoundWrite.emptyWrite.addWrites (writes.flatMap FWriteRecord.writes) := by
  have hfold : ∀ w : FCompoundWrite κ, writes.foldl (layerRecord []) w =
      w.addWrites (writes.flatMap FWriteRecord.writes) := by
    intro w
    induction writes generalizing w with
    | nil => rfl
    | cons record writes ih =>
      rw [List.foldl_cons, ih, layerRecord_root, List.flatMap_cons, FCompoundWrite.addWrites_append]
  unfold layerTreeFromWrites
  rw [show writes.filter defaultFilter = writes from List.filter_eq_self.2 fun _ _ => rfl]
  exact hfold _

/-- The visible writes are the layer of all pending writes. -/
structure Layered (tree : FWriteTree κ) : Prop where
  plain : ∀ record ∈ tree.allWrites, record.Plain
  visible : tree.visibleWrites = layerTreeFromWrites tree.allWrites defaultFilter []
  ids : (tree.allWrites.map (·.writeId)).Pairwise (· < ·)
  last : ∀ record ∈ tree.allWrites, record.writeId ≤ tree.lastWriteId

section
variable {tree tree' : FWriteTree κ} {writes : List (FWriteRecord κ)}

theorem normal_writes (h : ∀ record ∈ writes, record.Plain) :
    ∀ p ∈ writes.flatMap FWriteRecord.writes, p.2.Normal := by
  intro p hp
  obtain ⟨record, hr, hp⟩ := List.mem_flatMap.1 hp
  exact (h record hr).normal p hp

theorem writeTree_layerTreeFromWrites (h : ∀ record ∈ writes, record.Plain) :
    (layerTreeFromWrites writes defaultFilter []).writeTree =
      layers (writes.flatMap FWriteRecord.writes) empty := by
  rw [layerTreeFromWrites_root]
  exact FCompoundWrite.writeTree_addWrites compound_empty (normal_writes h)

theorem Layered.compound (h : Layered tree) : Compound tree.visibleWrites.writeTree := by
  rw [h.visible, writeTree_layerTreeFromWrites h.plain]
  exact compound_empty.layers (normal_writes h.plain)

theorem layered_init : Layered (init : FWriteTree κ) :=
  ⟨fun _ h => (List.not_mem_nil h).elim, rfl, List.Pairwise.nil, fun _ h => (List.not_mem_nil h).elim⟩

/-- One more record on top. -/
theorem Layered.push (h : Layered tree) {record : FWriteRecord κ} (hr : record.Plain)
    (hid : tree.lastWriteId < record.writeId) :
    Layered ⟨tree.visibleWrites.addWrites record.writes, tree.allWrites ++ [record], record.writeId⟩ := by
  constructor
  · intro r hr'
    rcases List.mem_append.1 hr' with hr' | hr'
    · exact h.plain r hr'
    · rwa [List.mem_singleton.1 hr']
  · simp only
    rw [h.visible, layerTreeFromWrites_root, layerTreeFromWrites_root, List.flatMap_append,
      FCompoundWrite.addWrites_append, List.flatMap_singleton]
  · rw [List.map_append, List.pairwise_append]
    refine ⟨h.ids, List.pairwise_singleton _ _, ?_⟩
    intro a ha b hb
    obtain ⟨r, hr', rfl⟩ := List.mem_map.1 ha
    rw [List.map_singleton, List.mem_singleton] at hb
    have := h.last r hr'
    omega
  · intro r hr'
    rcases List.mem_append.1 hr' with hr' | hr'
    · have := h.last r hr'
      simp only
      omega
    · rw [List.mem_singleton.1 hr']

theorem Layered.addOverwrite (h : Layered tree) (path : List κ) {newData : FNode κ} {writeId : Int}
    (hnew : newData.Normal) (hid : tree.lastWriteId < writeId) :
    ∃ tree', tree.addOverwriteAtPath path newData writeId true = .ok tree' ∧ Layered tree' ∧
      tree'.lastWriteId = writeId := by
  have hpush := h.push (FWriteRecord.plain_overwrite path hnew writeId) hid
  refine ⟨_, ?_, hpush, rfl⟩
  unfold addOverwriteAtPath
  rw [decide_eq_true hid]
  rfl

theorem Layered.addMerge (h : Layered tree) (path : List κ) {changedChildren : FCompoundWrite κ}
    {writeId : Int} (hc : Compound changedChildren.writeTree)
    (hshallow : ∀ p ∈ forEach changedChildren.writeTree, p.1.length ≤ 1)
    (hid : tree.lastWriteId < writeId) :
    ∃ tree', tree.addMergeAtPath path changedChildren writeId = .ok tree' ∧ Layered tree' ∧
      tree'.lastWriteId = writeId := by
  have hpush := h.push (FWriteRecord.plain_merge path hc hshallow writeId) hid
  refine ⟨_, ?_, hpush, rfl⟩
  unfold addMergeAtPath
  rw [decide_eq_true hid]
  rfl

end

end FWriteTree

end ShopingList
