import ShopingList.Firebase.WriteTree

/-!
# Views

A view keeps two nodes for its path: what the server has sent, and that with the
pending writes, which is what its listeners are told. `FViewProcessor` brings both up
to date operation by operation, one child at a time where it can, and collects the
changes of the children on the way. The only filter here is `FIndexedFilter`: no
query of the program has a limit or a range.
-/

namespace ShopingList

open FImmutableTree hiding node child children isEmpty empty value

variable {κ : Type} [LinearOrder κ]

namespace FNode

def isLeafNode : FNode κ → Bool
  | leaf _ => true
  | children _ => false

def hasChild (childName : κ) (n : FNode κ) : Bool := !(getImmediateChild childName n).isEmpty

/-- The children that `enumerateChildrenUsingBlock:` calls its block with. -/
def enumerateChildren : FNode κ → List (κ × FNode κ)
  | leaf _ => []
  | children kids => kids

mutual

/-- `isEqual:` asks the child of the other node whether it is equal to the own one. -/
def isEqual : FNode κ → FNode κ → Bool
  | leaf value, leaf otherValue => otherValue == value
  | leaf _, children _ => false
  | children _, leaf _ => false
  | children kids, children otherKids =>
    if kids.isEmpty && otherKids.isEmpty then true
    else if kids.length == otherKids.length then kidsEqual kids (.children otherKids)
    else false

def kidsEqual : List (κ × FNode κ) → FNode κ → Bool
  | [], _ => true
  | (key, node) :: kids, other => isEqual node (getImmediateChild key other) && kidsEqual kids other

end

end FNode

open FNode

/-- The exceptions and assertions of the views. -/
inductive FViewException where
  /-- "Illegal combination of changes". -/
  | illegalCombination
  /-- "A child remove without an old child only makes sense on a leaf node." -/
  | removeWithoutChild
  /-- "If change path is empty, we must have complete server data". -/
  | incompleteServerData
  /-- "Old and new snapshots should be equal.", in a debug build. -/
  | snapshotsDiffer
  /-- "Once a server snap is complete, it should never go back." -/
  | serverSnapWentBack
  deriving DecidableEq, Repr

/-! ## Changes of children -/

/-- An `FChange` of a child, its key apart. -/
inductive FChildChange (κ : Type) where
  | childAdded (indexedNode : FNode κ)
  | childRemoved (indexedNode : FNode κ)
  | childChanged (indexedNode oldIndexedNode : FNode κ)
  deriving Repr

/-- The `changeMap`: at most one change for a key. -/
abbrev FChildChangeAccumulator (κ : Type) := List (κ × FChildChange κ)

namespace FChildChangeAccumulator

def trackChildChange (childKey : κ) (change : FChildChange κ) (changeMap : FChildChangeAccumulator κ) :
    Except FViewException (FChildChangeAccumulator κ) :=
  match SortedDict.get childKey changeMap with
  | none => .ok (SortedDict.set childKey change changeMap)
  | some oldChange =>
    match change, oldChange with
    | .childAdded node, .childRemoved oldNode => .ok (SortedDict.set childKey (.childChanged node oldNode) changeMap)
    | .childRemoved _, .childAdded _ => .ok (SortedDict.remove childKey changeMap)
    | .childRemoved _, .childChanged _ oldNode => .ok (SortedDict.set childKey (.childRemoved oldNode) changeMap)
    | .childChanged node _, .childAdded _ => .ok (SortedDict.set childKey (.childAdded node) changeMap)
    | .childChanged node _, .childChanged _ oldNode =>
      .ok (SortedDict.set childKey (.childChanged node oldNode) changeMap)
    | _, _ => .error .illegalCombination

end FChildChangeAccumulator

namespace FIndexedFilter

open FChildChangeAccumulator

/-- The changes of the server's node are not tracked: the accumulator is nil. -/
def trackChild (node : FNode κ) (childKey : κ) (oldChildSnap newChildSnap : FNode κ) :
    Option (FChildChangeAccumulator κ) → Except FViewException (Option (FChildChangeAccumulator κ))
  | none => .ok none
  | some accumulator =>
    if newChildSnap.isEmpty then
      if node.hasChild childKey then some <$> trackChildChange childKey (.childRemoved oldChildSnap) accumulator
      else if node.isLeafNode then .ok (some accumulator)
      else .error .removeWithoutChild
    else if oldChildSnap.isEmpty then some <$> trackChildChange childKey (.childAdded newChildSnap) accumulator
    else some <$> trackChildChange childKey (.childChanged newChildSnap oldChildSnap) accumulator

/-- `debug` says whether the build defines `DEBUG`. -/
def updateChildIn (debug : Bool) (node : FNode κ) (childKey : κ) (newChildSnap : FNode κ) (affectedPath : List κ)
    (optChangeAccumulator : Option (FChildChangeAccumulator κ)) :
    Except FViewException (FNode κ × Option (FChildChangeAccumulator κ)) := do
  let oldChildSnap := getImmediateChild childKey node
  -- a child can enter or leave the view although the affected path is empty before and after
  if isEqual (getChild affectedPath oldChildSnap) (getChild affectedPath newChildSnap) &&
      oldChildSnap.isEmpty == newChildSnap.isEmpty then
    if debug && !isEqual oldChildSnap newChildSnap then throw .snapshotsDiffer
    return (node, optChangeAccumulator)
  let accumulator ← trackChild node childKey oldChildSnap newChildSnap optChangeAccumulator
  if node.isLeafNode && newChildSnap.isEmpty then return (node, accumulator)
  return (updateImmediateChild childKey newChildSnap node, accumulator)

/-- The first block of `updateFullNode:`, for a child of the old node. -/
def trackOld (newSnap : FNode κ) (accumulator : FChildChangeAccumulator κ) (child : κ × FNode κ) :
    Except FViewException (FChildChangeAccumulator κ) :=
  if newSnap.hasChild child.1 then .ok accumulator
  else trackChildChange child.1 (.childRemoved child.2) accumulator

/-- The second block, for a child of the new node. -/
def trackNew (oldSnap : FNode κ) (accumulator : FChildChangeAccumulator κ) (child : κ × FNode κ) :
    Except FViewException (FChildChangeAccumulator κ) :=
  if oldSnap.hasChild child.1 then
    let oldChildSnap := getImmediateChild child.1 oldSnap
    if isEqual oldChildSnap child.2 then .ok accumulator
    else trackChildChange child.1 (.childChanged child.2 oldChildSnap) accumulator
  else trackChildChange child.1 (.childAdded child.2) accumulator

/-- With an accumulator; without one the new node is the result. -/
def updateFullNode (oldSnap newSnap : FNode κ) (accumulator : FChildChangeAccumulator κ) :
    Except FViewException (FNode κ × FChildChangeAccumulator κ) := do
  let accumulator ← oldSnap.enumerateChildren.foldlM (trackOld newSnap) accumulator
  let accumulator ← newSnap.enumerateChildren.foldlM (trackNew oldSnap) accumulator
  return (newSnap, accumulator)

end FIndexedFilter

/-! ## Caches -/

structure FCacheNode (κ : Type) where
  node : FNode κ
  isFullyInitialized : Bool
  isFiltered : Bool

namespace FCacheNode

def isCompleteForChild (childKey : κ) (cache : FCacheNode κ) : Bool :=
  cache.isFullyInitialized && !cache.isFiltered || cache.node.hasChild childKey

def isCompleteForPath (cache : FCacheNode κ) : List κ → Bool
  | [] => cache.isFullyInitialized && !cache.isFiltered
  | childKey :: _ => cache.isCompleteForChild childKey

end FCacheNode

structure FViewCache (κ : Type) where
  cachedEventSnap : FCacheNode κ
  cachedServerSnap : FCacheNode κ

namespace FViewCache

def updateEventSnap (eventSnap : FNode κ) (complete filtered : Bool) (cache : FViewCache κ) : FViewCache κ :=
  { cache with cachedEventSnap := ⟨eventSnap, complete, filtered⟩ }

def updateServerSnap (serverSnap : FNode κ) (complete filtered : Bool) (cache : FViewCache κ) : FViewCache κ :=
  { cache with cachedServerSnap := ⟨serverSnap, complete, filtered⟩ }

def completeEventSnap (cache : FViewCache κ) : Option (FNode κ) :=
  if cache.cachedEventSnap.isFullyInitialized then some cache.cachedEventSnap.node else none

def completeServerSnap (cache : FViewCache κ) : Option (FNode κ) :=
  if cache.cachedServerSnap.isFullyInitialized then some cache.cachedServerSnap.node else none

end FViewCache

/-! ## The writes at a path -/

namespace FWriteTree

def shadowingWriteAtPath (path : List κ) (tree : FWriteTree κ) : Option (FNode κ) :=
  tree.visibleWrites.completeNodeAtPath path

/-- The children that the writes and the given ones make known as a whole. -/
def calculateCompleteEventChildrenAtPath (treePath : List κ) (completeServerChildren : FNode κ)
    (tree : FWriteTree κ) : FNode κ :=
  match tree.visibleWrites.completeNodeAtPath treePath with
  | some topLevelSet =>
    topLevelSet.enumerateChildren.foldl (fun completeChildren c => updateImmediateChild c.1 c.2 completeChildren)
      emptyNode
  | none =>
    let merge := tree.visibleWrites.childCompoundWriteAtPath treePath
    let completeChildren := completeServerChildren.enumerateChildren.foldl
      (fun completeChildren c =>
        updateImmediateChild c.1 ((merge.childCompoundWriteAtPath [c.1]).applyToNode c.2) completeChildren)
      emptyNode
    merge.completeChildren.foldl (fun completeChildren c => updateImmediateChild c.1 c.2 completeChildren)
      completeChildren

end FWriteTree

structure FWriteTreeRef (κ : Type) where
  path : List κ
  writeTree : FWriteTree κ

namespace FWriteTreeRef

def calculateCompleteEventCacheWithCompleteServerCache (completeServerCache : Option (FNode κ))
    (ref : FWriteTreeRef κ) :
    Option (FNode κ) :=
  ref.writeTree.calculateCompleteEventCacheAtPath ref.path completeServerCache none false

def calculateCompleteEventChildrenWithCompleteServerChildren (completeServerChildren : FNode κ)
    (ref : FWriteTreeRef κ) : FNode κ :=
  ref.writeTree.calculateCompleteEventChildrenAtPath ref.path completeServerChildren

def calculateEventCacheAfterServerOverwriteWithChildPath (childPath : List κ) (existingServerSnap : FNode κ)
    (ref : FWriteTreeRef κ) : Option (FNode κ) :=
  ref.writeTree.calculateEventCacheAfterServerOverwriteAtPath ref.path childPath existingServerSnap

def shadowingWriteAtPath (path : List κ) (ref : FWriteTreeRef κ) : Option (FNode κ) :=
  ref.writeTree.shadowingWriteAtPath (ref.path ++ path)

def calculateCompleteChild (childKey : κ) (existingServerCache : FCacheNode κ) (ref : FWriteTreeRef κ) :
    Option (FNode κ) :=
  ref.writeTree.calculateCompleteChildAtPath ref.path childKey
    (if existingServerCache.isCompleteForChild childKey then
      some (getImmediateChild childKey existingServerCache.node) else none)

end FWriteTreeRef

/-! ## Operations -/

/-- `affectedTree` has a value at each path that the write wrote. -/
inductive FOperation (κ : Type) where
  | overwrite (fromUser : Bool) (path : List κ) (snap : FNode κ)
  | merge (fromUser : Bool) (path : List κ) (changedChildren : FCompoundWrite κ)
  | ackUserWrite (path : List κ) (affectedTree : FImmutableTree κ Unit) (revert : Bool)
  | listenComplete (path : List κ)

namespace FOperation

def path : FOperation κ → List κ
  | overwrite _ path _ => path
  | merge _ path _ => path
  | ackUserWrite path _ _ => path
  | listenComplete path => path

/-- An operation that is not at its path yet goes one step along it. -/
def operationForChild (childKey : κ) : FOperation κ → Option (FOperation κ)
  | overwrite fromUser [] snap => some (overwrite fromUser [] (getImmediateChild childKey snap))
  | overwrite fromUser (_ :: path) snap => some (overwrite fromUser path snap)
  | merge fromUser [] changedChildren =>
    let childTree := changedChildren.childCompoundWriteAtPath [childKey]
    if childTree.isEmpty then none
    else
      match childTree.writeTree.value with
      | some rootWrite => some (overwrite fromUser [] rootWrite)
      | none => some (merge fromUser [] childTree)
  | merge fromUser (_ :: path) changedChildren => some (merge fromUser path changedChildren)
  | ackUserWrite [] affectedTree revert =>
    if affectedTree.value.isSome then some (ackUserWrite [] affectedTree revert)
    else some (ackUserWrite [] (subtreeAtPath [childKey] affectedTree) revert)
  | ackUserWrite (_ :: path) affectedTree revert => some (ackUserWrite path affectedTree revert)
  | listenComplete [] => some (listenComplete [])
  | listenComplete (_ :: path) => some (listenComplete path)

end FOperation

/-! ## The processor -/

namespace FViewProcessor

open FIndexedFilter

variable (debug : Bool)

/-- A view cache on its way through an operation, and the changes so far. -/
abbrev Progress (κ : Type) := FViewCache κ × FChildChangeAccumulator κ

/-- An update of a child of the event snap. -/
def updateEventChild (eventNode : FNode κ) (childKey : κ) (newChild : FNode κ) (affectedPath : List κ)
    (accumulator : FChildChangeAccumulator κ) : Except FViewException (FNode κ × FChildChangeAccumulator κ) := do
  let (node, accumulator) ← updateChildIn debug eventNode childKey newChild affectedPath (some accumulator)
  return (node, accumulator.getD [])

/-- `completeChild:` of `FWriteTreeCompleteChildSource`. -/
def completeChild (writes : FWriteTreeRef κ) (viewCache : FViewCache κ) (optCompleteServerCache : Option (FNode κ))
    (childKey : κ) : Option (FNode κ) :=
  let node := viewCache.cachedEventSnap
  if node.isCompleteForChild childKey then some (getImmediateChild childKey node.node)
  else
    match optCompleteServerCache with
    | some complete => writes.calculateCompleteChild childKey ⟨complete, true, false⟩
    | none => writes.calculateCompleteChild childKey viewCache.cachedServerSnap

/-- The node that `generateEventCacheAfterServerEvent:` takes at an empty path. -/
def nodeWithLocalWrites (viewCache : FViewCache κ) (writesCache : FWriteTreeRef κ) : FNode κ :=
  if viewCache.cachedServerSnap.isFiltered then
    let completeChildren :=
      match viewCache.completeServerSnap with
      | some (.children kids) => .children kids
      | _ => emptyNode
    writesCache.calculateCompleteEventChildrenWithCompleteServerChildren completeChildren
  else (writesCache.calculateCompleteEventCacheWithCompleteServerCache viewCache.completeServerSnap).getD emptyNode

/-- The child it takes at another path; none if it is not known as a whole. -/
def newEventChild (viewCache : FViewCache κ) (childKey : κ) (childChangePath : List κ)
    (writesCache : FWriteTreeRef κ) : Option (FNode κ) :=
  let oldEventSnap := viewCache.cachedEventSnap
  if oldEventSnap.isCompleteForChild childKey then
    let oldEventChild := getImmediateChild childKey oldEventSnap.node
    match writesCache.calculateEventCacheAfterServerOverwriteWithChildPath (childKey :: childChangePath)
        viewCache.cachedServerSnap.node with
    | some eventChildUpdate => some (updateChild eventChildUpdate childChangePath oldEventChild)
    | none => some oldEventChild
  else writesCache.calculateCompleteChild childKey viewCache.cachedServerSnap

def generateEventCacheAfterServerEvent (viewCache : FViewCache κ) (changePath : List κ)
    (writesCache : FWriteTreeRef κ) (accumulator : FChildChangeAccumulator κ) : Except FViewException (Progress κ) := do
  let oldEventSnap := viewCache.cachedEventSnap
  if (writesCache.shadowingWriteAtPath changePath).isSome then return (viewCache, accumulator)
  let (newEventCache, accumulator) ←
    match changePath with
    | [] =>
      if viewCache.cachedServerSnap.isFullyInitialized then
        updateFullNode oldEventSnap.node (nodeWithLocalWrites viewCache writesCache) accumulator
      else throw .incompleteServerData
    | childKey :: childChangePath =>
      match newEventChild viewCache childKey childChangePath writesCache with
      | some newChild => updateEventChild debug oldEventSnap.node childKey newChild childChangePath accumulator
      | none => pure (oldEventSnap.node, accumulator)
  return (viewCache.updateEventSnap newEventCache (oldEventSnap.isFullyInitialized || changePath.isEmpty) false,
    accumulator)

/-- An update for another listener does not change an incomplete node. -/
def applyServerOverwriteTo (oldViewCache : FViewCache κ) (changePath : List κ) (changedSnap : FNode κ)
    (writesCache : FWriteTreeRef κ) (accumulator : FChildChangeAccumulator κ) : Except FViewException (Progress κ) := do
  let oldServerSnap := oldViewCache.cachedServerSnap
  match changePath with
  | [] =>
    generateEventCacheAfterServerEvent debug (oldViewCache.updateServerSnap changedSnap true false) [] writesCache
      accumulator
  | childKey :: childChangePath =>
    if !oldServerSnap.isCompleteForPath changePath && changePath.length > 1 then return (oldViewCache, accumulator)
    let newChildNode := updateChild changedSnap childChangePath (getImmediateChild childKey oldServerSnap.node)
    let (newServerCache, _) ← updateChildIn debug oldServerSnap.node childKey newChildNode childChangePath none
    generateEventCacheAfterServerEvent debug
      (oldViewCache.updateServerSnap newServerCache oldServerSnap.isFullyInitialized false) changePath writesCache
      accumulator

def applyUserOverwriteTo (oldViewCache : FViewCache κ) (changePath : List κ) (changedSnap : FNode κ)
    (writesCache : FWriteTreeRef κ) (optCompleteCache : Option (FNode κ)) (accumulator : FChildChangeAccumulator κ) :
    Except FViewException (Progress κ) := do
  let oldEventSnap := oldViewCache.cachedEventSnap
  match changePath with
  | [] =>
    let (newEventCache, accumulator) ← updateFullNode oldEventSnap.node changedSnap accumulator
    return (oldViewCache.updateEventSnap newEventCache true false, accumulator)
  | childKey :: childChangePath =>
    let oldChild := getImmediateChild childKey oldEventSnap.node
    let newChild :=
      if childChangePath.isEmpty then changedSnap
      else
        match completeChild writesCache oldViewCache optCompleteCache childKey with
        | some childNode => updateChild changedSnap childChangePath childNode
        | none => emptyNode
    if isEqual oldChild newChild then return (oldViewCache, accumulator)
    let (newEventSnap, accumulator) ←
      updateEventChild debug oldEventSnap.node childKey newChild childChangePath accumulator
    return (oldViewCache.updateEventSnap newEventSnap oldEventSnap.isFullyInitialized false, accumulator)

/-- `cache:hasChild:`, for the front of a path; an empty path has none. -/
def cacheHasChild (viewCache : FViewCache κ) : List κ → Bool
  | [] => viewCache.cachedEventSnap.isFullyInitialized && !viewCache.cachedEventSnap.isFiltered
  | childKey :: _ => viewCache.cachedEventSnap.isCompleteForChild childKey

/-- The writes that affect children in view come first. -/
def applyUserMergeTo (viewCache : FViewCache κ) (path : List κ) (changedChildren : FCompoundWrite κ)
    (writesCache : FWriteTreeRef κ) (serverCache : Option (FNode κ)) (accumulator : FChildChangeAccumulator κ) :
    Except FViewException (Progress κ) := do
  let writes := changedChildren.writesAt path
  let apply (progress : Progress κ) (write : List κ × FNode κ) : Except FViewException (Progress κ) :=
    applyUserOverwriteTo debug progress.1 write.1 write.2 writesCache serverCache progress.2
  let progress ← (writes.filter fun write => cacheHasChild viewCache write.1).foldlM apply (viewCache, accumulator)
  (writes.filter fun write => !cacheHasChild viewCache write.1).foldlM apply progress

/-- The child merges of an `NSDictionary`, here in the order of their keys. -/
def applyServerMergeTo (viewCache : FViewCache κ) (path : List κ) (changedChildren : FCompoundWrite κ)
    (writesCache : FWriteTreeRef κ) (accumulator : FChildChangeAccumulator κ) : Except FViewException (Progress κ) := do
  let serverSnap := viewCache.cachedServerSnap
  if serverSnap.node.isEmpty && !serverSnap.isFullyInitialized then return (viewCache, accumulator)
  let actualMerge :=
    if path.isEmpty then changedChildren else FCompoundWrite.emptyWrite.addCompoundWrite changedChildren path
  let childCompoundWrites := actualMerge.writeTree.children
  let apply (progress : Progress κ) (childMerge : κ × FImmutableTree κ (FNode κ)) :
      Except FViewException (Progress κ) :=
    let newChild := (FCompoundWrite.mk childMerge.2).applyToNode (getImmediateChild childMerge.1 serverSnap.node)
    applyServerOverwriteTo debug progress.1 [childMerge.1] newChild writesCache progress.2
  let isUnknownDeepMerge (childMerge : κ × FImmutableTree κ (FNode κ)) : Bool :=
    !serverSnap.isCompleteForChild childMerge.1 && childMerge.2.value.isNone
  let progress ← (childCompoundWrites.filter fun c => serverSnap.node.hasChild c.1).foldlM apply
    (viewCache, accumulator)
  (childCompoundWrites.filter fun c => !serverSnap.node.hasChild c.1 && !isUnknownDeepMerge c).foldlM apply progress

/-- What the server's node holds at the affected paths is applied again, now that no write shadows it. -/
def ackUserWriteOn (viewCache : FViewCache κ) (ackPath : List κ) (affectedTree : FImmutableTree κ Unit)
    (writesCache : FWriteTreeRef κ) (accumulator : FChildChangeAccumulator κ) : Except FViewException (Progress κ) :=
  let serverCache := viewCache.cachedServerSnap
  if (writesCache.shadowingWriteAtPath ackPath).isSome then .ok (viewCache, accumulator)
  else
    match affectedTree.value with
    | some _ =>
      if ackPath.isEmpty && serverCache.isFullyInitialized || serverCache.isCompleteForPath ackPath then
        applyServerOverwriteTo debug viewCache ackPath (getChild ackPath serverCache.node) writesCache accumulator
      else if ackPath.isEmpty then
        let changedChildren := serverCache.node.enumerateChildren.foldl
          (fun (changedChildren : FCompoundWrite κ) c => changedChildren.addWrite c.2 [c.1]) .emptyWrite
        applyServerMergeTo debug viewCache ackPath changedChildren writesCache accumulator
      else .ok (viewCache, accumulator)
    | none =>
      let changedChildren := (forEach affectedTree).foldl
        (fun (changedChildren : FCompoundWrite κ) merge =>
          let serverCachePath := ackPath ++ merge.1
          if serverCache.isCompleteForPath serverCachePath then
            changedChildren.addWrite (getChild serverCachePath serverCache.node) merge.1
          else changedChildren) .emptyWrite
      applyServerMergeTo debug viewCache ackPath changedChildren writesCache accumulator

/-- The event snap without the write, before the case of a leaf that was hidden. -/
def revertedEventCache (viewCache : FViewCache κ) (path : List κ) (writesCache : FWriteTreeRef κ)
    (accumulator : FChildChangeAccumulator κ) : Except FViewException (FNode κ × FChildChangeAccumulator κ) :=
  let oldEventCache := viewCache.cachedEventSnap.node
  let serverSnap := viewCache.cachedServerSnap
  match path with
  | [] =>
    let newNode :=
      if serverSnap.isFullyInitialized then
        (writesCache.calculateCompleteEventCacheWithCompleteServerCache viewCache.completeServerSnap).getD emptyNode
      else writesCache.calculateCompleteEventChildrenWithCompleteServerChildren serverSnap.node
    updateFullNode oldEventCache newNode accumulator
  | childKey :: childPath =>
    let newChild :=
      match writesCache.calculateCompleteChild childKey serverSnap with
      | some newChild => some newChild
      | none =>
        if serverSnap.isCompleteForChild childKey then some (getImmediateChild childKey oldEventCache) else none
    match newChild with
    | some newChild => updateEventChild debug oldEventCache childKey newChild childPath accumulator
    | none =>
      if oldEventCache.hasChild childKey then
        updateEventChild debug oldEventCache childKey emptyNode childPath accumulator
      else .ok (oldEventCache, accumulator)

def revertUserWriteOn (viewCache : FViewCache κ) (path : List κ) (writesCache : FWriteTreeRef κ)
    (accumulator : FChildChangeAccumulator κ) : Except FViewException (Progress κ) := do
  if (writesCache.shadowingWriteAtPath path).isSome then return (viewCache, accumulator)
  let serverSnap := viewCache.cachedServerSnap
  let (newEventCache, accumulator) ← revertedEventCache debug viewCache path writesCache accumulator
  let complete :=
    (writesCache.calculateCompleteEventCacheWithCompleteServerCache viewCache.completeServerSnap).getD emptyNode
  -- all the children written may be gone again, and the node a leaf
  let (newEventCache, accumulator) ←
    if !path.isEmpty && newEventCache.isEmpty && serverSnap.isFullyInitialized && complete.isLeafNode then
      updateFullNode newEventCache complete accumulator
    else pure (newEventCache, accumulator)
  return (viewCache.updateEventSnap newEventCache
    (serverSnap.isFullyInitialized || (writesCache.shadowingWriteAtPath []).isSome) false, accumulator)

def listenComplete (viewCache : FViewCache κ) (path : List κ) (writesCache : FWriteTreeRef κ)
    (accumulator : FChildChangeAccumulator κ) : Except FViewException (Progress κ) :=
  let oldServerNode := viewCache.cachedServerSnap
  generateEventCacheAfterServerEvent debug
    (viewCache.updateServerSnap oldServerNode.node (oldServerNode.isFullyInitialized || path.isEmpty)
      oldServerNode.isFiltered) path writesCache accumulator

def process (oldViewCache : FViewCache κ) (writesCache : FWriteTreeRef κ) (optCompleteCache : Option (FNode κ)) :
    FOperation κ → Except FViewException (Progress κ)
  | .overwrite true path snap => applyUserOverwriteTo debug oldViewCache path snap writesCache optCompleteCache []
  | .overwrite false path snap => applyServerOverwriteTo debug oldViewCache path snap writesCache []
  | .merge true path changedChildren =>
    applyUserMergeTo debug oldViewCache path changedChildren writesCache optCompleteCache []
  | .merge false path changedChildren => applyServerMergeTo debug oldViewCache path changedChildren writesCache []
  | .ackUserWrite path affectedTree false => ackUserWriteOn debug oldViewCache path affectedTree writesCache []
  | .ackUserWrite path _ true => revertUserWriteOn debug oldViewCache path writesCache []
  | .listenComplete path => listenComplete debug oldViewCache path writesCache []

/-- The value that `maybeAddValueFromOldViewCache:` adds to the changes. -/
def maybeAddValue (oldViewCache newViewCache : FViewCache κ) (changes : FChildChangeAccumulator κ) : Option (FNode κ) :=
  let eventSnap := newViewCache.cachedEventSnap
  if eventSnap.isFullyInitialized then
    let isLeafOrEmpty := eventSnap.node.isLeafNode || eventSnap.node.isEmpty
    if !changes.isEmpty || !oldViewCache.cachedEventSnap.isFullyInitialized ||
        isLeafOrEmpty && !isEqual eventSnap.node oldViewCache.cachedEventSnap.node then some eventSnap.node
    else none
  else none

/-- The new cache, the changes of the children and the value. -/
def applyOperationOn (oldViewCache : FViewCache κ) (operation : FOperation κ) (writesCache : FWriteTreeRef κ)
    (optCompleteCache : Option (FNode κ)) :
    Except FViewException (FViewCache κ × FChildChangeAccumulator κ × Option (FNode κ)) := do
  let (newViewCache, changes) ← process debug oldViewCache writesCache optCompleteCache operation
  return (newViewCache, changes, maybeAddValue oldViewCache newViewCache changes)

end FViewProcessor

end ShopingList
