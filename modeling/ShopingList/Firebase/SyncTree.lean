import ShopingList.Firebase.Views

/-!
# A listener and the writes

`FSyncTree` hands every operation down to the views at their places. For the view of a
listener this goes on as long as the client runs: the user writes, the server sends data
and answers the writes in their order, and those that it rejects are reverted. What the
listener was told last is always the server's data with the pending writes, read at its
place (`told_of_reachable`).
-/

namespace ShopingList

open FNode

open FImmutableTree hiding node child children isEmpty value

variable {κ : Type} [LinearOrder κ]

/-! ## Layers at a place -/

namespace FCompoundWrite

section
variable {t t' : FImmutableTree κ (FNode κ)} {new : FNode κ} {p v r : List κ} {writes rest : List (List κ × FNode κ)}

/-- A write below the place is one below the path that is left. -/
theorem below_layer_append (v r : List κ) (new : FNode κ) (t : FImmutableTree κ (FNode κ)) :
    below v (layer new (v ++ r) t) = layer new r (below v t) := by
  induction v generalizing t with
  | nil => rfl
  | cons k v ih =>
    rw [List.cons_append]
    cases hv : t.value with
    | some w =>
      rw [layer_of_value k (v ++ r) hv, below_of_value rfl, below_of_value hv, ← List.cons_append, getChild_updateChild]
      cases r with
      | nil => rw [updateChild_nil]; rfl
      | cons k' r => rw [layer_of_value k' r rfl]
    | none =>
      have hvalue : (setChild k (layer new (v ++ r) (FImmutableTree.child k t)) t).value = none := by
        rw [value_setChild, hv]
      rw [layer_cons k (v ++ r) hv, below_cons hvalue, child_setChild, if_pos rfl, ih, below_cons hv]

/-- A write above the place is its part there. -/
theorem below_layer_of_above (p r : List κ) (new : FNode κ) (t : FImmutableTree κ (FNode κ)) :
    below (p ++ r) (layer new p t) = ofValue (some (getChild r new)) := by
  rw [below_append]
  have hlayer := below_layer_append p [] new t
  rw [List.append_nil] at hlayer
  rw [hlayer, layer]
  cases r with
  | nil => rfl
  | cons k r => exact below_of_value rfl

/-- A write elsewhere does not show there. -/
theorem below_layer_of_apart (h : Incomparable p v) (new : FNode κ) (t : FImmutableTree κ (FNode κ)) :
    below v (layer new p t) = below v t := by
  induction v generalizing p t with
  | nil => exact absurd List.nil_prefix h.2
  | cons k v ih =>
    cases p with
    | nil => exact absurd List.nil_prefix h.1
    | cons k' p =>
      cases hv : t.value with
      | some w =>
        rw [layer_of_value k' p hv, below_of_value rfl, below_of_value hv, getChild_updateChild_of_ne h.1 h.2]
      | none =>
        have hvalue : (setChild k' (layer new p (FImmutableTree.child k' t)) t).value = none := by
          rw [value_setChild, hv]
        rw [layer_cons k' p hv, below_cons hvalue, below_cons hv, child_setChild]
        split
        · rename_i hk
          subst hk
          refine ih ⟨fun hp => h.1 ?_, fun hp => h.2 ?_⟩ _
          · exact List.cons_prefix_cons.2 ⟨rfl, hp⟩
          · exact List.cons_prefix_cons.2 ⟨rfl, hp⟩
        · rfl

/-- What a write makes of the layer at a place depends on that layer only. -/
theorem below_layer_congr (h : below v t = below v t') (new : FNode κ) (p : List κ) :
    below v (layer new p t) = below v (layer new p t') := by
  by_cases hv : v <+: p
  · obtain ⟨r, rfl⟩ := hv
    rw [below_layer_append, below_layer_append, h]
  · by_cases hp : p <+: v
    · obtain ⟨r, rfl⟩ := hp
      rw [below_layer_of_above, below_layer_of_above]
    · rw [below_layer_of_apart ⟨hp, hv⟩, below_layer_of_apart ⟨hp, hv⟩, h]

theorem below_layers_congr (h : below v t = below v t') : below v (layers writes t) = below v (layers writes t') := by
  induction writes generalizing t t' with
  | nil => exact h
  | cons e writes ih => exact ih (below_layer_congr h e.2 e.1)

/-- A write at the place or above it hides what was there. -/
theorem below_layers_covered (h : ∃ e ∈ writes, e.1 <+: v) :
    below v (layers writes t) = below v (layers writes t') := by
  induction writes generalizing t t' with
  | nil =>
    obtain ⟨e, he, -⟩ := h
    cases he
  | cons e writes ih =>
    obtain ⟨e', he', hpre⟩ := h
    rcases List.mem_cons.1 he' with rfl | he'
    · obtain ⟨r, hr⟩ := hpre
      have hsame : below v (layer e'.2 e'.1 t) = below v (layer e'.2 e'.1 t') := by
        rw [← hr, below_layer_of_above, below_layer_of_above]
      change below v (layers writes (layer e'.2 e'.1 t)) = below v (layers writes (layer e'.2 e'.1 t'))
      exact below_layers_congr hsame
    · exact ih ⟨e', he', hpre⟩

theorem sameBut_below (h : SameBut (v ++ r) t t') : SameBut r (below v t) (below v t') := by
  induction v generalizing t t' with
  | nil => exact h
  | cons k v ih =>
    obtain ⟨hv, hv', hchild, -⟩ := h
    rw [below_cons hv, below_cons hv']
    exact ih hchild

theorem openAt_below (v r : List κ) (t : FImmutableTree κ (FNode κ)) : OpenAt r (below v t) ↔ OpenAt (v ++ r) t := by
  rw [← not_iff_not, ← value_below_isSome, ← value_below_isSome, below_append]

theorem exists_of_not_openAt (h : ¬ OpenAt p (layers writes empty)) : ∃ e ∈ writes, e.1 <+: p := by
  by_contra hnone
  refine h fun q hq => ?_
  by_contra hv
  obtain ⟨w, hv⟩ := Option.ne_none_iff_exists'.1 hv
  obtain ⟨e, he, rfl⟩ := path_of_layers_empty hv
  exact hnone ⟨e, he, hq⟩

/-- Without the oldest write the layer changes at its path only. -/
theorem changedAt_layers (p : List κ) (hw : ∀ e ∈ (p, new) :: rest, e.2.Normal) :
    ChangedAt p (layers ((p, new) :: rest) empty) (layers rest empty) := by
  refine ⟨fun hopen => ?_, fun hclosed => ?_⟩
  · have hfree : FreeAbove p (empty : FImmutableTree κ (FNode κ)) := fun q _ _ => valueAtPath_empty q
    exact (sameBut_layer hfree).layers (openAt_of_layers hopen).2
  · have hcover := exists_of_not_openAt hclosed
    have hnone : ∀ e ∈ ([] : List (List κ × FNode κ)), e.1 <+: p → e.1 = p := fun _ he => absurd he List.not_mem_nil
    exact layers_covered p new hw hnone hcover

/-- So it does at a place above the path; -/
theorem changedAt_below (hw : ∀ e ∈ (v ++ r, new) :: rest, e.2.Normal) :
    ChangedAt r (below v (layers ((v ++ r, new) :: rest) empty)) (below v (layers rest empty)) := by
  obtain ⟨hopen, hclosed⟩ := changedAt_layers (v ++ r) hw
  refine ⟨fun h => sameBut_below (hopen ((openAt_below v r _).1 h)), fun h => ?_⟩
  rw [hclosed fun ho => h ((openAt_below v r _).2 ho)]

/-- at a place below it a later write may hide it, and elsewhere it does not show. -/
theorem changedAt_below_nil (p r : List κ) (new : FNode κ) (rest : List (List κ × FNode κ)) :
    ChangedAt [] (below (p ++ r) (layers ((p, new) :: rest) empty)) (below (p ++ r) (layers rest empty)) := by
  refine ⟨fun _ => trivial, fun h => ?_⟩
  have hcover : ∃ e ∈ rest, e.1 <+: p ++ r := exists_of_not_openAt fun ho => h ((openAt_below (p ++ r) [] _).2 (by
    rwa [List.append_nil]))
  exact below_layers_covered hcover

theorem below_layers_of_apart (h : Incomparable p v) :
    below v (layers ((p, new) :: rest) empty) = below v (layers rest empty) := by
  change below v (layers rest (layer new p empty)) = below v (layers rest empty)
  exact below_layers_congr (below_layer_of_apart h new empty)

end

end FCompoundWrite

/-! ## The writes of the client -/

namespace FRepo

section
variable {repo repo' : FRepo κ}

theorem allWrites_set {path : List κ} {node : FNode κ} (hset : repo.set path node = .ok repo') :
    ∃ w : FWriteRecord κ, w.write = .overwrite node ∧
      repo'.pendingWriteTree.allWrites = repo.pendingWriteTree.allWrites ++ [w] := by
  unfold FRepo.set FWriteTree.addOverwriteAtPath at hset
  by_cases hid : repo.writeIdCounter > repo.pendingWriteTree.lastWriteId
  · simp only [decide_eq_true hid] at hset
    cases hset
    exact ⟨_, rfl, rfl⟩
  · simp only [decide_eq_false hid] at hset
    cases hset

theorem Inv.writeTree_eq (h : Inv repo) :
    repo.pendingWriteTree.visibleWrites.writeTree = layers repo.pendingWriteTree.pending empty := by
  rw [h.layered.visible, FWriteTree.writeTree_layerTreeFromWrites h.layered.plain]
  rfl

/-- The answer to the oldest write leaves the others, and says whether the visible writes have changed. -/
theorem Inv.ackOldest (h : Inv repo) {w : FWriteRecord κ} {rest : List (FWriteRecord κ)} {answer : Bool}
    {tree : FWriteTree κ}
    (hall : repo.pendingWriteTree.allWrites = w :: rest)
    (hremove : repo.pendingWriteTree.removeWriteId w.writeId = .ok (answer, tree)) :
    Inv { repo with pendingWriteTree := tree } ∧ tree.allWrites = rest ∧
      (answer = false → tree.visibleWrites = repo.pendingWriteTree.visibleWrites) := by
  have hids := h.layered.ids
  rw [hall] at hids
  have holder : ∀ before w' after, repo.pendingWriteTree.allWrites = before ++ w' :: after → w'.writeId = w.writeId →
      FWriteTree.NoneOlderAbove before w' := by
    intro before w' after hsplit hid
    rw [hall] at hsplit
    rw [(eq_oldest hids hsplit hid).1]
    intro p hp
    cases hp
  have hack : repo.ackWrite w.writeId = .ok { repo with pendingWriteTree := tree } := by
    unfold ackWrite
    rw [hremove]
    rfl
  refine ⟨h.ack holder hack, ?_⟩
  obtain ⟨before, w', after, hsplit, hid, hcases⟩ := FWriteTree.removeWriteId_cases hremove
  rw [hall] at hsplit
  obtain ⟨rfl, rfl⟩ := eq_oldest hids hsplit hid
  rcases hcases with ⟨-, rfl, rfl⟩ | ⟨-, rfl, rfl⟩ | ⟨-, rfl, rfl⟩
  · exact ⟨rfl, fun _ => rfl⟩
  · exact ⟨rfl, fun ha => nomatch ha⟩
  · exact ⟨rfl, fun ha => nomatch ha⟩

end

end FRepo

/-! ## Operations on their way to a view -/

namespace FSyncTree

/-- The operation that `applyOperationHelper:` hands down to the view at a place, if it gets there. -/
def operationAt : List κ → FOperation κ → Option (FOperation κ)
  | [], operation => some operation
  | childKey :: place, operation =>
    match operation.path with
    | [] => (operation.operationForChild childKey).bind (operationAt place)
    | front :: _ =>
      if front = childKey then (operation.operationForChild childKey).bind (operationAt place) else none

section
variable {place p r : List κ} {snap : FNode κ}

/-- Above the path of the operation the view gets it with the path that is left. -/
theorem operationAt_append (op : List κ → FOperation κ) (hpath : ∀ p, (op p).path = p)
    (hchild : ∀ k p, (op (k :: p)).operationForChild k = some (op p)) (place r : List κ) :
    operationAt place (op (place ++ r)) = some (op r) := by
  induction place with
  | nil => rfl
  | cons k place ih =>
    rw [List.cons_append, operationAt, hpath]
    simp only [if_true]
    rw [hchild, Option.bind_some, ih]

/-- Elsewhere it gets nothing. -/
theorem operationAt_of_apart (op : List κ → FOperation κ) (hpath : ∀ p, (op p).path = p)
    (hchild : ∀ k p, (op (k :: p)).operationForChild k = some (op p)) (h : Incomparable p place) :
    operationAt place (op p) = none := by
  induction place generalizing p with
  | nil => exact absurd List.nil_prefix h.2
  | cons k place ih =>
    cases p with
    | nil => exact absurd List.nil_prefix h.1
    | cons k' p =>
      rw [operationAt, hpath]
      simp only
      split
      · rename_i hk
        subst hk
        rw [hchild, Option.bind_some]
        refine ih ⟨fun hp => h.1 ?_, fun hp => h.2 ?_⟩
        · exact List.cons_prefix_cons.2 ⟨rfl, hp⟩
        · exact List.cons_prefix_cons.2 ⟨rfl, hp⟩
      · rfl

/-- Below it, it gets its part. -/
theorem operationAt_below (op : List κ → FOperation κ) (hpath : ∀ p, (op p).path = p)
    (hchild : ∀ k p, (op (k :: p)).operationForChild k = some (op p)) (p r : List κ) :
    operationAt (p ++ r) (op p) = operationAt r (op []) := by
  induction p with
  | nil => rfl
  | cons k p ih =>
    rw [List.cons_append, operationAt, hpath]
    simp only [if_true]
    rw [hchild, Option.bind_some, ih]

theorem operationAt_overwrite (fromUser : Bool) (place : List κ) (snap : FNode κ) :
    operationAt place (.overwrite fromUser [] snap) = some (.overwrite fromUser [] (getChild place snap)) := by
  induction place generalizing snap with
  | nil => rfl
  | cons k place ih => exact ih (getImmediateChild k snap)

theorem operationAt_ackUserWrite (place : List κ) (revert : Bool) :
    operationAt place (.ackUserWrite [] (ofValue (some ())) revert) =
      some (.ackUserWrite [] (ofValue (some ())) revert) := by
  induction place with
  | nil => rfl
  | cons k place ih => exact ih

end

end FSyncTree

namespace FSyncPoint

/-- The cache of a new view, for the data of the server that is known. -/
def initialViewCache (serverCache : FCacheNode κ) (writesCache : FWriteTreeRef κ) : FViewCache κ :=
  match writesCache.calculateCompleteEventCacheWithCompleteServerCache
      (if serverCache.isFullyInitialized then some serverCache.node else none) with
  | some eventCache => ⟨⟨eventCache, true, false⟩, ⟨serverCache.node, serverCache.isFullyInitialized, false⟩⟩
  | none =>
    ⟨⟨writesCache.calculateCompleteEventChildrenWithCompleteServerChildren serverCache.node, false, false⟩,
      ⟨serverCache.node, serverCache.isFullyInitialized, false⟩⟩

end FSyncPoint

namespace FView

/-- `applyOperation:` with its assertion. -/
def applyOperation (debug : Bool) (viewCache : FViewCache κ) (operation : FOperation κ) (writesCache : FWriteTreeRef κ)
    (optCompleteServerCache : Option (FNode κ)) :
    Except FViewException (FViewCache κ × FChildChangeAccumulator κ × Option (FNode κ)) := do
  let result ← FViewProcessor.applyOperationOn debug viewCache operation writesCache optCompleteServerCache
  if result.1.cachedServerSnap.isFullyInitialized || !viewCache.cachedServerSnap.isFullyInitialized then return result
  throw .serverSnapWentBack

end FView

/-! ## Runs -/

/-- The client as a value listener sees it: `server` is what the server has sent so far, `told` the value of its
last event. -/
structure Listener (κ : Type) where
  repo : FRepo κ
  server : FNode κ
  viewCache : FViewCache κ
  told : Option (FNode κ)

namespace Listener

/-- An operation reaches the view of the listener at its place. -/
def apply (debug : Bool) (place : List κ) (operation : FOperation κ) (optCompleteServerCache : Option (FNode κ))
    (listener : Listener κ) :
    Except FViewException (Listener κ) :=
  match FSyncTree.operationAt place operation with
  | none => .ok listener
  | some operation => do
    let result ← FView.applyOperation debug listener.viewCache operation ⟨place, listener.repo.pendingWriteTree⟩
      optCompleteServerCache
    return { listener with viewCache := result.1, told := result.2.2 <|> listener.told }

/-- The affected tree of an overwrite. -/
def affectedTree : FImmutableTree κ Unit := FImmutableTree.setValue (some ()) [] empty

/-- The server answers the oldest write: it stays, or it is reverted. A write that stays does not go through a text
of the server's data. The complete data of other views may be at hand. -/
inductive Answer (debug : Bool) (place : List κ) (revert : Bool) : Listener κ → Listener κ → Prop where
  | shown {listener listener' : Listener κ} {w : FWriteRecord κ} {rest : List (FWriteRecord κ)} {tree : FWriteTree κ}
      {complete : Option (FNode κ)} (others : ∀ n ∈ complete, n.Normal)
      (oldest : listener.repo.pendingWriteTree.allWrites = w :: rest)
      (room : revert = false → NoTextAbove w.path listener.server)
      (hack : listener.repo.pendingWriteTree.removeWriteId w.writeId = .ok (true, tree))
      (h : apply debug place (.ackUserWrite w.path affectedTree revert) complete
        { listener with repo := { listener.repo with pendingWriteTree := tree } } = .ok listener') :
      Answer debug place revert listener listener'
  | hidden {listener : Listener κ} {w : FWriteRecord κ} {rest : List (FWriteRecord κ)} {tree : FWriteTree κ}
      (oldest : listener.repo.pendingWriteTree.allWrites = w :: rest)
      (hack : listener.repo.pendingWriteTree.removeWriteId w.writeId = .ok (false, tree)) :
      Answer debug place revert listener { listener with repo := { listener.repo with pendingWriteTree := tree } }

/-- The user writes, the server sends data, or it answers. New data of the server and removals do not go through a
text of its data either. -/
inductive Step (debug : Bool) (place : List κ) : Listener κ → Listener κ → Prop where
  | set {listener listener' : Listener κ} {repo : FRepo κ} {path : List κ} {node : FNode κ}
      {complete : Option (FNode κ)}
      (normal : node.Normal) (others : ∀ n ∈ complete, n.Normal)
      (room : node.isEmpty = true → NoTextAbove path listener.server) (hset : listener.repo.set path node = .ok repo)
      (h : apply debug place (.overwrite true path node) complete { listener with repo } = .ok listener') :
      Step debug place listener listener'
  | server {listener listener' : Listener κ} {path : List κ} {snap : FNode κ} {complete : Option (FNode κ)}
      (normal : snap.Normal) (others : ∀ n ∈ complete, n.Normal) (room : NoTextAbove path listener.server)
      (h : apply debug place (.overwrite false path snap) complete
        { listener with server := updateChild snap path listener.server } = .ok listener') :
      Step debug place listener listener'
  | answer {listener listener' : Listener κ} {revert : Bool} (h : Answer debug place revert listener listener') :
      Step debug place listener listener'

/-- The listener is added at a place where the data of the server is complete, and told the value at once. -/
def opened (place : List κ) (repo : FRepo κ) (server : FNode κ) : Listener κ :=
  let viewCache := FSyncPoint.initialViewCache ⟨getChild place server, true, false⟩ ⟨place, repo.pendingWriteTree⟩
  ⟨repo, server, viewCache, viewCache.completeEventSnap⟩

/-- A listener is added at any time, while no merge is pending. -/
inductive Reachable (debug : Bool) (place : List κ) : Listener κ → Prop where
  | opened {repo : FRepo κ} {server : FNode κ} (reachable : repo.Reachable) (normal : server.Normal)
      (overwrites : ∀ r ∈ repo.pendingWriteTree.allWrites, ∃ node, r.write = .overwrite node) :
      Reachable debug place (opened place repo server)
  | step {listener listener' : Listener κ} (before : Reachable debug place listener)
      (h : Step debug place listener listener') :
      Reachable debug place listener'

/-- The writes at the place. -/
def layer (place : List κ) (listener : Listener κ) : FImmutableTree κ (FNode κ) :=
  FWriteTreeRef.layer ⟨place, listener.repo.pendingWriteTree⟩

/-- What every step keeps. -/
structure Inv (place : List κ) (listener : Listener κ) : Prop where
  repo : listener.repo.Inv
  overwrites : ∀ r ∈ listener.repo.pendingWriteTree.allWrites, ∃ node, r.write = .overwrite node
  server : listener.server.Normal
  normal : listener.viewCache.Normal
  shows : Shows (listener.layer place) (getChild place listener.server) listener.viewCache
  told : listener.told = listener.viewCache.completeEventSnap

section
variable {debug : Bool} {place : List κ} {listener listener' : Listener κ} {operation : FOperation κ}
  {complete : Option (FNode κ)} {t : FImmutableTree κ (FNode κ)} {s : FNode κ}

theorem apply_of_none (hat : FSyncTree.operationAt place operation = none) :
    apply debug place operation complete listener = .ok listener := by
  unfold apply
  rw [hat]

/-- What an operation of the view does to it, it does to the listener. -/
theorem apply_shows (listener : Listener κ) (hw : Compound listener.repo.pendingWriteTree.visibleWrites.writeTree)
    (hn : listener.viewCache.Normal) (htold : listener.told = listener.viewCache.completeEventSnap)
    (others : ∀ n ∈ complete, n.Normal) {operation' : FOperation κ}
    (hat : FSyncTree.operationAt place operation = some operation') (hop : operation'.Normal)
    (hrelease : FViewProcessor.process debug listener.viewCache ⟨place, listener.repo.pendingWriteTree⟩ complete
      operation' = FViewProcessor.process false listener.viewCache ⟨place, listener.repo.pendingWriteTree⟩ complete
        operation')
    (hprocess : ∀ cache changes, FViewProcessor.process debug listener.viewCache
      ⟨place, listener.repo.pendingWriteTree⟩ complete operation' = .ok (cache, changes) → Shows t s cache) :
    ∃ listener', apply debug place operation complete listener = .ok listener' ∧ listener'.repo = listener.repo ∧
      listener'.server = listener.server ∧ listener'.viewCache.Normal ∧ Shows t s listener'.viewCache ∧
      listener'.told = listener'.viewCache.completeEventSnap := by
  have hw' : Compound (FWriteTreeRef.mk place listener.repo.pendingWriteTree).writeTree.visibleWrites.writeTree := hw
  obtain ⟨⟨cache, changes⟩, hok, hn', hturns⟩ :=
    (FViewProcessor.process_proceeds hw' hn others hop).exists_ok FViewException.not_ofDebug_false
  rw [← hrelease] at hok
  have hshows := hprocess cache changes hok
  obtain ⟨hsome, hnone⟩ := FViewProcessor.maybeAddValue_spec hn hn' hturns
  unfold apply FView.applyOperation FViewProcessor.applyOperationOn
  rw [hat]
  simp only [hok, bind, Except.bind, pure, Except.pure, hshows.server, Bool.true_or, if_true]
  refine ⟨_, rfl, rfl, rfl, hn', hshows, ?_⟩
  -- a value is told, or the event snap is the one told before
  cases hvalue : FViewProcessor.maybeAddValue listener.viewCache cache changes with
  | some n => exact (hsome n hvalue).symm
  | none =>
    have hfull : cache.completeEventSnap = some (FCompoundWrite.applySubtreeWrite t [] s) := by
      unfold FViewCache.completeEventSnap
      rw [hshows.event]
      rfl
    rcases hnone hvalue with hincomplete | hsame
    · rw [hfull] at hincomplete
      cases hincomplete
    · exact htold.trans hsame.symm

theorem layer_eq (h : listener.repo.Inv) :
    listener.layer place = FCompoundWrite.below place (layers listener.repo.pendingWriteTree.pending empty) := by
  rw [← h.writeTree_eq]
  rfl

theorem NoTextAbove.getChild {server : FNode κ} {r : List κ} (h : NoTextAbove (place ++ r) server) :
    NoTextAbove r (FNode.getChild place server) := fun q hq hne => by
  rw [← leafAt_append]
  exact h (place ++ q) ((List.prefix_append_right_inj place).2 hq) fun he => hne (List.append_cancel_left he)

/-- The three ways in which a path and a place may lie. -/
theorem place_cases (place path : List κ) :
    (∃ r, path = place ++ r) ∨ (∃ r, place = path ++ r) ∨ Incomparable path place := by
  by_cases hplace : place <+: path
  · obtain ⟨r, rfl⟩ := hplace
    exact .inl ⟨r, rfl⟩
  · by_cases hpath : path <+: place
    · obtain ⟨r, rfl⟩ := hpath
      exact .inr (.inl ⟨r, rfl⟩)
    · exact .inr (.inr ⟨hpath, hplace⟩)

/-- A write of the user, in the layer and in the view. -/
theorem Inv.set (h : Inv place listener) {repo : FRepo κ} {path : List κ} {node : FNode κ} (normal : node.Normal)
    (others : ∀ n ∈ complete, n.Normal) (room : node.isEmpty = true → NoTextAbove path listener.server)
    (hset : listener.repo.set path node = .ok repo) :
    ∃ listener', apply debug place (.overwrite true path node) complete { listener with repo } = .ok listener' ∧
      Inv place listener' := by
  have hrepo : repo.Inv := by
    obtain ⟨repo', hset', hinv⟩ : ∃ repo', listener.repo.set path node = .ok repo' ∧ repo'.Inv := h.repo.set normal
    rw [hset] at hset'
    cases hset'
    exact hinv
  have hoverwrites : ∀ r ∈ repo.pendingWriteTree.allWrites, ∃ node, r.write = .overwrite node := by
    obtain ⟨w, hw, hall⟩ := FRepo.allWrites_set hset
    intro r hr
    rw [hall] at hr
    rcases List.mem_append.1 hr with hr | hr
    · exact h.overwrites r hr
    · rw [List.mem_singleton.1 hr]
      exact ⟨node, hw⟩
  have hlayers : layers repo.pendingWriteTree.pending empty =
      FImmutableTree.layer node path (layers listener.repo.pendingWriteTree.pending empty) := by
    rw [FRepo.pending_set hset, layers_append]
    rfl
  have ht : Compound (listener.layer place) := FWriteTreeRef.compound_layer h.repo.layered.compound
  have hw : Compound repo.pendingWriteTree.visibleWrites.writeTree := hrepo.layered.compound
  suffices hshown : ∃ listener',
      apply debug place (.overwrite true path node) complete { listener with repo } = .ok listener' ∧
      listener'.repo = repo ∧ listener'.server = listener.server ∧ listener'.viewCache.Normal ∧
      Shows (FCompoundWrite.below place
          (FImmutableTree.layer node path (layers listener.repo.pendingWriteTree.pending empty)))
        (getChild place listener.server) listener'.viewCache ∧
      listener'.told = listener'.viewCache.completeEventSnap by
    obtain ⟨listener', happly, hr, hs, hn, hshows, htold⟩ := hshown
    refine ⟨listener', happly, hr ▸ hrepo, hr ▸ hoverwrites, hs ▸ h.server, hn, ?_, htold⟩
    rw [layer_eq (hr ▸ hrepo), hr, hs, hlayers]
    exact hshows
  have hcurrent : listener.layer place =
      FCompoundWrite.below place (layers listener.repo.pendingWriteTree.pending empty) := layer_eq h.repo
  rcases place_cases place path with ⟨r, rfl⟩ | ⟨r, rfl⟩ | hapart
  · have hat := FSyncTree.operationAt_append (fun p => .overwrite true p node) (fun _ => rfl) (fun _ _ => rfl) place r
    rw [FCompoundWrite.below_layer_append, ← hcurrent]
    refine apply_shows { listener with repo } hw h.normal h.told others hat normal
      (FViewProcessor.applyUserOverwriteTo_release h.normal h.shows normal _) fun cache changes hprocess => ?_
    refine FViewProcessor.applyUserOverwriteTo_shows h.normal ht h.shows normal (fun he q hq hne _ => ?_) hprocess
    exact NoTextAbove.getChild (room he) q hq hne
  · have hat : FSyncTree.operationAt (path ++ r) (.overwrite true path node) =
        some (.overwrite true [] (getChild r node)) := by
      rw [FSyncTree.operationAt_below (fun p => .overwrite true p node) (fun _ => rfl) (fun _ _ => rfl),
        FSyncTree.operationAt_overwrite]
    rw [FCompoundWrite.below_layer_of_above]
    have hrelease : FViewProcessor.applyUserOverwriteTo debug listener.viewCache [] (getChild r node)
        ⟨path ++ r, repo.pendingWriteTree⟩ complete [] = _ :=
      FViewProcessor.applyUserOverwriteTo_release h.normal h.shows (normal.getChild r) complete
    refine apply_shows { listener with repo } hw h.normal h.told others hat (normal.getChild r) hrelease
      fun cache changes hprocess => ?_
    have hroot : FViewProcessor.applyUserOverwriteTo debug listener.viewCache [] (getChild r node)
        ⟨path ++ r, repo.pendingWriteTree⟩ complete [] = .ok (cache, changes) := hprocess
    refine FViewProcessor.applyUserOverwriteTo_shows h.normal ht h.shows (normal.getChild r)
      (fun _ q hq hne _ => ?_) hroot
    exact absurd (List.prefix_nil.1 hq) hne
  · have hat := FSyncTree.operationAt_of_apart (fun p => .overwrite true p node) (fun _ => rfl) (fun _ _ => rfl) hapart
    rw [FCompoundWrite.below_layer_of_apart hapart, ← hcurrent]
    exact ⟨_, apply_of_none hat, rfl, rfl, h.normal, h.shows, h.told⟩

/-- New data of the server. -/
theorem Inv.serverData (h : Inv place listener) {path : List κ} {snap : FNode κ} (normal : snap.Normal)
    (others : ∀ n ∈ complete, n.Normal) (room : NoTextAbove path listener.server) :
    ∃ listener', apply debug place (.overwrite false path snap) complete
        { listener with server := updateChild snap path listener.server } = .ok listener' ∧ Inv place listener' := by
  have hw : Compound listener.repo.pendingWriteTree.visibleWrites.writeTree := h.repo.layered.compound
  have ht : Compound (listener.layer place) := FWriteTreeRef.compound_layer h.repo.layered.compound
  suffices hshown : ∃ listener', apply debug place (.overwrite false path snap) complete
        { listener with server := updateChild snap path listener.server } = .ok listener' ∧
      listener'.repo = listener.repo ∧ listener'.server = updateChild snap path listener.server ∧
      listener'.viewCache.Normal ∧
      Shows (listener.layer place) (getChild place (updateChild snap path listener.server)) listener'.viewCache ∧
      listener'.told = listener'.viewCache.completeEventSnap by
    obtain ⟨listener', happly, hr, hs, hn, hshows, htold⟩ := hshown
    refine ⟨listener', happly, hr ▸ h.repo, hr ▸ h.overwrites, hs ▸ h.server.updateChild normal path, hn, ?_, htold⟩
    rw [layer, hr, hs]
    exact hshows
  rcases place_cases place path with ⟨r, rfl⟩ | ⟨r, rfl⟩ | hapart
  · have hat := FSyncTree.operationAt_append (fun p => .overwrite false p snap) (fun _ => rfl) (fun _ _ => rfl) place r
    rw [getChild_updateChild]
    refine apply_shows { listener with server := updateChild snap (place ++ r) listener.server } hw h.normal h.told
      others hat normal (FViewProcessor.applyServerOverwriteTo_release hw h.normal h.shows normal)
      fun cache changes hprocess => ?_
    exact FViewProcessor.applyServerOverwriteTo_shows hw h.normal ht h.shows normal (changedAt_self r _)
      (NoTextAbove.getChild room) hprocess
  · have hat : FSyncTree.operationAt (path ++ r) (.overwrite false path snap) =
        some (.overwrite false [] (getChild r snap)) := by
      rw [FSyncTree.operationAt_below (fun p => .overwrite false p snap) (fun _ => rfl) (fun _ _ => rfl),
        FSyncTree.operationAt_overwrite]
    rw [getChild_append, getChild_updateChild_self]
    have hrelease : FViewProcessor.applyServerOverwriteTo debug listener.viewCache [] (getChild r snap)
        ⟨path ++ r, listener.repo.pendingWriteTree⟩ [] = _ :=
      FViewProcessor.applyServerOverwriteTo_release hw h.normal h.shows (normal.getChild r)
    refine apply_shows { listener with server := updateChild snap path listener.server } hw h.normal h.told
      others hat (normal.getChild r) hrelease fun cache changes hprocess => ?_
    have hroot : FViewProcessor.applyServerOverwriteTo debug listener.viewCache [] (getChild r snap)
        ⟨path ++ r, listener.repo.pendingWriteTree⟩ [] = .ok (cache, changes) := hprocess
    have hshows := FViewProcessor.applyServerOverwriteTo_shows hw h.normal ht h.shows (normal.getChild r)
      (changedAt_self [] _) (fun q hq hne => absurd (List.prefix_nil.1 hq) hne) hroot
    rwa [updateChild_nil] at hshows
  · have hat := FSyncTree.operationAt_of_apart (fun p => .overwrite false p snap) (fun _ => rfl) (fun _ _ => rfl) hapart
    rw [getChild_updateChild_of_ne hapart.1 hapart.2]
    exact ⟨_, apply_of_none hat, rfl, rfl, h.normal, h.shows, h.told⟩

/-- The answer to the oldest write. -/
theorem Inv.answer (h : Inv place listener) {revert : Bool} {w : FWriteRecord κ} {rest : List (FWriteRecord κ)}
    {tree : FWriteTree κ}
    (others : ∀ n ∈ complete, n.Normal) (oldest : listener.repo.pendingWriteTree.allWrites = w :: rest)
    (room : revert = false → NoTextAbove w.path listener.server)
    (hack : listener.repo.pendingWriteTree.removeWriteId w.writeId = .ok (true, tree)) :
    ∃ listener', apply debug place (.ackUserWrite w.path affectedTree revert) complete
        { listener with repo := { listener.repo with pendingWriteTree := tree } } = .ok listener' ∧
      Inv place listener' := by
  obtain ⟨hrepo, hrest, -⟩ := h.repo.ackOldest oldest hack
  obtain ⟨node, hnode⟩ := h.overwrites w (oldest ▸ List.mem_cons_self)
  have hoverwrites : ∀ r ∈ tree.allWrites, ∃ node, r.write = .overwrite node := fun r hr =>
    h.overwrites r (oldest ▸ List.mem_cons_of_mem w (hrest ▸ hr))
  have hpending : listener.repo.pendingWriteTree.pending = (w.path, node) :: tree.pending := by
    unfold FWriteTree.pending
    rw [oldest, hrest, List.flatMap_cons, FWriteRecord.writes, hnode]
    rfl
  have hwrites : ∀ e ∈ (w.path, node) :: tree.pending, e.2.Normal := by
    rw [← hpending]
    exact FWriteTree.normal_writes h.repo.layered.plain
  have ht : Compound (listener.layer place) := FWriteTreeRef.compound_layer h.repo.layered.compound
  have hw : Compound tree.visibleWrites.writeTree := hrepo.layered.compound
  have hbefore : listener.layer place = FCompoundWrite.below place (layers ((w.path, node) :: tree.pending) empty) := by
    rw [layer_eq h.repo, hpending]
  have hafter : FWriteTreeRef.layer ⟨place, tree⟩ = FCompoundWrite.below place (layers tree.pending empty) := by
    rw [← hrepo.writeTree_eq]
    rfl
  suffices hshown : ∃ listener', apply debug place (.ackUserWrite w.path affectedTree revert) complete
        { listener with repo := { listener.repo with pendingWriteTree := tree } } = .ok listener' ∧
      listener'.repo = { listener.repo with pendingWriteTree := tree } ∧
      listener'.server = listener.server ∧ listener'.viewCache.Normal ∧
      Shows (FWriteTreeRef.layer ⟨place, tree⟩) (getChild place listener.server) listener'.viewCache ∧
      listener'.told = listener'.viewCache.completeEventSnap by
    obtain ⟨listener', happly, hr, hs, hn, hshows, htold⟩ := hshown
    refine ⟨listener', happly, hr ▸ hrepo, hr ▸ hoverwrites, hs ▸ h.server, hn, ?_, htold⟩
    rw [layer, hr, hs]
    exact hshows
  have hoverwrite : (affectedTree : FImmutableTree κ Unit).value = some () := rfl
  generalize hpath : w.path = path at *
  rcases place_cases place path with ⟨r, rfl⟩ | ⟨r, rfl⟩ | hapart
  · have hat := FSyncTree.operationAt_append (fun p => .ackUserWrite p affectedTree revert) (fun _ => rfl)
      (fun _ _ => rfl) place r
    have hchanged : ChangedAt r (listener.layer place) (FWriteTreeRef.layer ⟨place, tree⟩) := by
      rw [hbefore, hafter]
      exact FCompoundWrite.changedAt_below hwrites
    refine apply_shows { listener with repo := { listener.repo with pendingWriteTree := tree } } hw h.normal h.told
      others hat trivial
      (FViewProcessor.answer_release hw h.normal ht h.shows hchanged revert hoverwrite complete)
      fun cache changes hprocess => ?_
    exact FViewProcessor.answer_shows hw h.normal ht h.shows hchanged (fun hr => NoTextAbove.getChild (room hr))
      hoverwrite hprocess
  · have hat : FSyncTree.operationAt (path ++ r) (.ackUserWrite path affectedTree revert) =
        some (.ackUserWrite [] affectedTree revert) := by
      rw [FSyncTree.operationAt_below (fun p => .ackUserWrite p affectedTree revert) (fun _ => rfl) (fun _ _ => rfl)]
      exact FSyncTree.operationAt_ackUserWrite r revert
    have hchanged : ChangedAt [] (listener.layer (path ++ r)) (FWriteTreeRef.layer ⟨path ++ r, tree⟩) := by
      rw [hbefore, hafter]
      exact FCompoundWrite.changedAt_below_nil path r node tree.pending
    refine apply_shows { listener with repo := { listener.repo with pendingWriteTree := tree } } hw h.normal h.told
      others hat trivial
      (FViewProcessor.answer_release hw h.normal ht h.shows hchanged revert hoverwrite complete)
      fun cache changes hprocess => ?_
    exact FViewProcessor.answer_shows hw h.normal ht h.shows hchanged
      (fun _ q hq hne => absurd (List.prefix_nil.1 hq) hne) hoverwrite hprocess
  · have hat := FSyncTree.operationAt_of_apart (fun p => .ackUserWrite p affectedTree revert) (fun _ => rfl)
      (fun _ _ => rfl) hapart
    rw [hafter, ← FCompoundWrite.below_layers_of_apart hapart, ← hbefore]
    exact ⟨_, apply_of_none hat, rfl, rfl, h.normal, h.shows, h.told⟩

/-- An answer that changes nothing visible reaches no view. -/
theorem Inv.answerHidden (h : Inv place listener) {w : FWriteRecord κ} {rest : List (FWriteRecord κ)}
    {tree : FWriteTree κ}
    (oldest : listener.repo.pendingWriteTree.allWrites = w :: rest)
    (hack : listener.repo.pendingWriteTree.removeWriteId w.writeId = .ok (false, tree)) :
    Inv place { listener with repo := { listener.repo with pendingWriteTree := tree } } := by
  obtain ⟨hrepo, hrest, hvisible⟩ := h.repo.ackOldest oldest hack
  refine ⟨hrepo, fun r hr => ?_, h.server, h.normal, ?_, h.told⟩
  · exact h.overwrites r (oldest ▸ List.mem_cons_of_mem w (hrest ▸ hr))
  · have hsame : FWriteTreeRef.layer ⟨place, tree⟩ = listener.layer place := by
      unfold layer FWriteTreeRef.layer
      rw [hvisible rfl]
    rw [layer, hsame]
    exact h.shows

theorem inv_opened {repo : FRepo κ} {server : FNode κ} (hrepo : repo.Inv) (normal : server.Normal)
    (overwrites : ∀ r ∈ repo.pendingWriteTree.allWrites, ∃ node, r.write = .overwrite node) :
    Inv place (opened place repo server) := by
  have hw : Compound (FWriteTreeRef.mk place repo.pendingWriteTree).writeTree.visibleWrites.writeTree :=
    hrepo.layered.compound
  have hcache : FSyncPoint.initialViewCache ⟨getChild place server, true, false⟩ ⟨place, repo.pendingWriteTree⟩ =
      ⟨⟨FCompoundWrite.applySubtreeWrite (FWriteTreeRef.layer ⟨place, repo.pendingWriteTree⟩) []
        (getChild place server), true, false⟩, ⟨getChild place server, true, false⟩⟩ := by
    unfold FSyncPoint.initialViewCache
    simp only [if_true, FWriteTreeRef.completeEventCache_eq hw]
  refine ⟨hrepo, overwrites, normal, ?_, ?_, rfl⟩
  · unfold opened
    rw [hcache]
    exact ⟨FCompoundWrite.normal_applySubtreeWrite (FWriteTreeRef.compound_layer hw) (normal.getChild place) [],
      normal.getChild place⟩
  · unfold opened layer
    rw [hcache]
    exact ⟨rfl, rfl⟩

theorem inv_of_reachable (h : Reachable debug place listener) : Inv place listener := by
  induction h with
  | opened reachable normal overwrites => exact inv_opened (FRepo.inv_of_reachable reachable) normal overwrites
  | step _ hstep ih =>
    cases hstep with
    | set normal others room hset h =>
      obtain ⟨listener', happly, hinv⟩ := ih.set normal others room hset
      rw [h] at happly
      cases happly
      exact hinv
    | server normal others room h =>
      obtain ⟨listener', happly, hinv⟩ := ih.serverData normal others room
      rw [h] at happly
      cases happly
      exact hinv
    | answer hanswer =>
      cases hanswer with
      | shown others oldest room hack h =>
        obtain ⟨listener', happly, hinv⟩ := ih.answer others oldest room hack
        rw [h] at happly
        cases happly
        exact hinv
      | hidden oldest hack => exact ih.answerHidden oldest hack

/-- **What a listener was told last is the server's data with the pending writes, at its place.** -/
theorem told_of_reachable (h : Reachable debug place listener) :
    listener.told = some (getChild place
        (listener.repo.pendingWriteTree.visibleWrites.applyToNode listener.server)) ∧
      listener.viewCache.completeEventSnap = listener.told ∧
      listener.viewCache.completeServerSnap = some (getChild place listener.server) := by
  obtain ⟨hrepo, -, -, -, ⟨hserver, hevent⟩, htold⟩ := inv_of_reachable h
  have hsnap : listener.viewCache.completeEventSnap = some (getChild place
      (listener.repo.pendingWriteTree.visibleWrites.applyToNode listener.server)) := by
    unfold FViewCache.completeEventSnap
    rw [hevent, if_pos rfl, FCompoundWrite.applyToNode,
      FCompoundWrite.getChild_applySubtreeWrite hrepo.layered.compound]
    rfl
  refine ⟨htold.trans hsnap, htold.symm, ?_⟩
  unfold FViewCache.completeServerSnap
  rw [hserver]
  rfl

/-- Milk is put on a list whose bread the server has sent. -/
theorem told_of_reachable_milk : ∃ l : Listener String, Reachable true ["Food"] l ∧
    l.server = .children [("Food", .children [("Bread", .leaf "1")])] ∧
      l.told = some (.children [("Bread", .leaf "1"), ("Milk", .leaf "2")]) ∧
      l.told = some (getChild ["Food"] (l.repo.pendingWriteTree.visibleWrites.applyToNode l.server)) := by
  have hbread : (FNode.children [("Bread", .leaf "1")]).Normal :=
    normal_emptyNode.updateChild (normal_leaf "1") ["Bread"]
  have hserver : (FNode.children [("Food", .children [("Bread", .leaf "1")])]).Normal :=
    normal_emptyNode.updateChild hbread ["Food"]
  have hnone : ∀ n ∈ (none : Option FNode), n.Normal := fun _ hmem => nomatch hmem
  have hset : FRepo.init.set ["Food", "Milk"] (.leaf "2") = .ok _ := rfl
  have h₀ : Reachable true ["Food"] (opened ["Food"] .init (.children [("Food", .children [("Bread", .leaf "1")])])) :=
    .opened .refl hserver fun r hr => absurd hr List.not_mem_nil
  have h₁ := h₀.step (.set (normal_leaf "2") hnone (fun he => nomatch he) hset rfl)
  exact ⟨_, h₁, rfl, rfl, (told_of_reachable h₁).1⟩

/-- **In every reachable state each operation goes through**, whatever complete data other views have at hand: a write
of the user, new data of the server, and the answer to the oldest write, for or against it. -/
theorem step_of_reachable (h : Reachable debug place listener) (others : ∀ n ∈ complete, n.Normal) :
    (∀ path node, node.Normal → (node.isEmpty = true → NoTextAbove path listener.server) →
      ∃ repo listener', listener.repo.set path node = .ok repo ∧
        apply debug place (.overwrite true path node) complete { listener with repo } = .ok listener') ∧
    (∀ path snap, snap.Normal → NoTextAbove path listener.server →
      ∃ listener', apply debug place (.overwrite false path snap) complete
        { listener with server := updateChild snap path listener.server } = .ok listener') ∧
    (∀ w rest, listener.repo.pendingWriteTree.allWrites = w :: rest →
      ∃ answer tree, listener.repo.pendingWriteTree.removeWriteId w.writeId = .ok (answer, tree) ∧
        tree.allWrites = rest ∧ (answer = true → ∀ revert, (revert = false → NoTextAbove w.path listener.server) →
          ∃ listener', apply debug place (.ackUserWrite w.path affectedTree revert) complete
            { listener with repo := { listener.repo with pendingWriteTree := tree } } = .ok listener')) := by
  have hinv := inv_of_reachable h
  refine ⟨fun path node normal room => ?_, fun path snap normal room => ?_, fun w rest oldest => ?_⟩
  · obtain ⟨repo, hset, -⟩ : ∃ repo', listener.repo.set path node = .ok repo' ∧ repo'.Inv := hinv.repo.set normal
    obtain ⟨listener', happly, -⟩ := hinv.set normal others room hset
    exact ⟨repo, listener', hset, happly⟩
  · obtain ⟨listener', happly, -⟩ := hinv.serverData normal others room
    exact ⟨listener', happly⟩
  · obtain ⟨answer, tree, hack⟩ := FWriteTree.removeWriteId_ok
      ⟨w, (oldest ▸ List.mem_cons_self : w ∈ listener.repo.pendingWriteTree.allWrites), rfl⟩
    refine ⟨answer, tree, hack, (hinv.repo.ackOldest oldest hack).2.1, ?_⟩
    rintro rfl revert room
    obtain ⟨listener', happly, -⟩ := hinv.answer others oldest room hack
    exact ⟨listener', happly⟩

/-- Milk is put on a list that nobody has written to yet. -/
theorem step_of_reachable_milk : ∃ repo listener', FRepo.init.set ["Food", "Milk"] (.leaf "2") = .ok repo ∧
    apply true ["Food"] (.overwrite true ["Food", "Milk"] (.leaf "2")) (some emptyNode)
      { opened ["Food"] .init emptyNode with repo } = .ok listener' := by
  have hothers : ∀ n ∈ some (emptyNode : FNode), n.Normal := fun n hmem => by
    cases hmem
    exact normal_emptyNode
  exact (step_of_reachable (.opened .refl normal_emptyNode fun _ hr => absurd hr List.not_mem_nil) hothers).1
    ["Food", "Milk"] (.leaf "2") (normal_leaf "2") fun he => nomatch he

end

end Listener

end ShopingList
