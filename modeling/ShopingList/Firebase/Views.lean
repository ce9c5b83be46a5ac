import ShopingList.Firebase.Processing

/-!
# Views against the whole

A view is brought up to date child by child. Where its server data is complete this
gives what applying the pending writes to that data again as a whole gives (`Shows`),
for the writes of the user, for new data of the server and for the answers to the
writes, as long as no text of the server's data stands above the place that changes. A
write that is reverted may stand below such a text, which then shows again.
-/

namespace ShopingList

open FNode

open FImmutableTree hiding node child children isEmpty empty value

variable {κ : Type} [LinearOrder κ]

/-! ## Layers below a change -/

/-- No text of the node strictly above the path. -/
def FNode.NoTextAbove (path : List κ) (n : FNode κ) : Prop := ∀ q, q <+: path → q ≠ path → leafAt q n = none

namespace FNode

section
variable {n : FNode κ} {k : κ} {path : List κ}

theorem NoTextAbove.leafValue (h : NoTextAbove (k :: path) n) : leafValue n = none :=
  h [] List.nil_prefix (List.cons_ne_nil k path).symm

theorem NoTextAbove.child (h : NoTextAbove (k :: path) n) : NoTextAbove path (getImmediateChild k n) := fun q hq hne =>
  h (k :: q) (List.cons_prefix_cons.2 ⟨rfl, hq⟩) fun he => hne (List.cons.inj he).2

/-- One step of a write at a path. -/
theorem updateImmediateChild_updateChild (new : FNode κ) (k : κ) (path : List κ) (n : FNode κ) :
    updateImmediateChild k (updateChild new path (getImmediateChild k n)) n = updateChild new (k :: path) n := by
  cases n with
  | leaf v =>
    rw [updateChild]
    split
    · rename_i he
      rw [eq_emptyNode he, getImmediateChild, updateChild_emptyNode]
      rfl
    · rfl
  | children kids => rw [updateChild]

end

end FNode

namespace FCompoundWrite

section
variable {t t' : FImmutableTree κ (FNode κ)} {s new : FNode κ} {p q : List κ}

theorem below_append (p q : List κ) (t : FImmutableTree κ (FNode κ)) : below (p ++ q) t = below q (below p t) := by
  induction p generalizing t with
  | nil => rfl
  | cons k p ih =>
    rw [List.cons_append]
    cases hv : t.value with
    | some v =>
      rw [below_of_value hv, below_of_value hv]
      cases q with
      | nil => rw [List.append_nil]; rfl
      | cons k' q =>
        rw [below_of_value rfl, ← List.cons_append, getChild_append]
    | none => rw [below_cons hv, below_cons hv, ih]

/-- What a layer holds for a path is a node if and only if it has a value there or above. -/
theorem value_below_isSome (p : List κ) : (below p t).value.isSome = true ↔ ¬ OpenAt p t := by
  induction p generalizing t with
  | nil =>
    rw [below, Option.isSome_iff_ne_none, not_iff_not]
    exact ⟨openAt_nil, OpenAt.value⟩
  | cons k p ih =>
    cases hv : t.value with
    | some v =>
      rw [below_of_value hv]
      refine ⟨fun _ hopen => ?_, fun _ => rfl⟩
      rw [hopen.value] at hv
      cases hv
    | none =>
      rw [below_cons hv, ih, not_iff_not]
      exact ⟨fun h => h.cons hv, OpenAt.child⟩

/-- **Where the layer is open, a change of the node is a change of the written node.** The layer may
have been another one below the path before. -/
theorem applySubtreeWrite_updateChild (h : SameBut p t t') (ht : Compound t) (ht' : Compound t') (hs : s.Normal)
    (hnew : new.Normal) (hopen : OpenAt p t') (htext : NoTextAbove p s) :
    applySubtreeWrite t' [] (updateChild new p s) =
      updateChild (applySubtreeWrite (below p t') [] new) p (applySubtreeWrite t [] s) := by
  induction p generalizing t t' s with
  | nil => rw [updateChild_nil, updateChild_nil, below]
  | cons k p ih =>
    have hv' := hopen.value
    obtain ⟨hv, -, hchild, hother⟩ := h
    have hbelow := normal_applySubtreeWrite (compound_below ht' (k :: p)) hnew []
    refine (normal_applySubtreeWrite ht' (hs.updateChild hnew _) []).ext_child
      ((normal_applySubtreeWrite ht hs []).updateChild hbelow _) ?_ fun k' => ?_
    · have hupdated : leafValue (updateChild new (k :: p) s) = none := by
        rw [leafValue_updateChild_cons, htext.leafValue, ite_self]
      rw [leafValue_applySubtreeWrite_nil ht' hv' hupdated, leafValue_updateChild_cons,
        leafValue_applySubtreeWrite_nil ht hv htext.leafValue, ite_self]
    · rw [getImmediateChild_applySubtreeWrite_nil ht'.canonical hv']
      by_cases hk : k' = k
      · subst hk
        rw [getImmediateChild_updateChild, getImmediateChild_updateChild,
          getImmediateChild_applySubtreeWrite_nil ht.canonical hv, below_cons hv']
        exact ih hchild (ht.child k') (ht'.child k') (hs.getChild [k']) hopen.child htext.child
      · rw [getImmediateChild_updateChild_ne hk, getImmediateChild_updateChild_ne hk,
          getImmediateChild_applySubtreeWrite_nil ht.canonical hv, hother k' hk]

/-- Where it is not, the change does not show. -/
theorem applySubtreeWrite_shadowed (ht : Compound t) (hs : s.Normal) (hnew : new.Normal) (hshadow : ¬ OpenAt p t)
    (htext : NoTextAbove p s) :
    applySubtreeWrite t [] (updateChild new p s) = applySubtreeWrite t [] s := by
  induction p generalizing t s with
  | nil =>
    cases hv : t.value with
    | some v => rw [applySubtreeWrite_of_value hv, applySubtreeWrite_of_value hv]
    | none => exact absurd (openAt_nil hv) hshadow
  | cons k p ih =>
    cases hv : t.value with
    | some v => rw [applySubtreeWrite_of_value hv, applySubtreeWrite_of_value hv]
    | none =>
      refine (normal_applySubtreeWrite ht (hs.updateChild hnew _) []).ext_child (normal_applySubtreeWrite ht hs []) ?_
        fun k' => ?_
      · have hupdated : leafValue (updateChild new (k :: p) s) = none := by
          rw [leafValue_updateChild_cons, htext.leafValue, ite_self]
        rw [leafValue_applySubtreeWrite_nil ht hv hupdated, leafValue_applySubtreeWrite_nil ht hv htext.leafValue]
      · rw [getImmediateChild_applySubtreeWrite_nil ht.canonical hv,
          getImmediateChild_applySubtreeWrite_nil ht.canonical hv]
        by_cases hk : k' = k
        · subst hk
          rw [getImmediateChild_updateChild]
          exact ih (ht.child k') (hs.getChild [k']) (fun hopen => hshadow (hopen.cons hv)) htext.child
        · rw [getImmediateChild_updateChild_ne hk]

/-! ### Texts that make room -/

/-- A text stays through the writes of children that write nothing. -/
theorem leafValue_applyChildWrites {cs : List (κ × FImmutableTree κ (FNode κ))} {n : FNode κ}
    (h : ∀ e ∈ cs, ∀ m, leafValue (applySubtreeWrite e.2 (q ++ [e.1]) m) =
      if (applySubtreeWrite e.2 [] emptyNode).isEmpty then leafValue m else none) :
    leafValue (applyChildWrites cs q n) =
      if cs.all fun e => (applySubtreeWrite e.2 [] emptyNode).isEmpty then leafValue n else none := by
  induction cs generalizing n with
  | nil => rfl
  | cons e cs ih =>
    rw [applyChildWrites, ih fun e' he' => h e' (List.mem_cons_of_mem e he'), h e List.mem_cons_self, List.all_cons]
    cases (applySubtreeWrite e.2 [] emptyNode).isEmpty with
    | true => rw [if_pos rfl, Bool.true_and]
    | false => rw [if_neg Bool.false_ne_true, ite_self, Bool.false_and, if_neg Bool.false_ne_true]

theorem eq_emptyNode_of_children {n : FNode κ} (hn : n.Normal) (hleaf : leafValue n = none)
    (h : ∀ k, getImmediateChild k n = emptyNode) : n = emptyNode :=
  hn.ext_child normal_emptyNode hleaf h

/-- The writes write nothing if none of the children's does. -/
theorem isEmpty_applyChildWrites {cs : List (κ × FImmutableTree κ (FNode κ))}
    (h : Compound (.node none cs)) : (applyChildWrites cs [] emptyNode).isEmpty =
      cs.all fun e => (applySubtreeWrite e.2 [] emptyNode).isEmpty := by
  have hsorted : SortedDict.Sorted cs := by
    cases h with
    | node hsorted _ _ => exact hsorted
  have hwritten : (applyChildWrites cs [] emptyNode).Normal := by
    have hnormal := normal_applySubtreeWrite h normal_emptyNode []
    rwa [applySubtreeWrite] at hnormal
  have hleaf : leafValue (applyChildWrites cs [] emptyNode) = none := by
    have hnone := leafValue_applySubtreeWrite_nil h rfl (show leafValue emptyNode = none from rfl)
    rwa [applySubtreeWrite] at hnone
  rw [Bool.eq_iff_iff, List.all_eq_true]
  constructor
  · intro he e hmem
    have hchild := getImmediateChild_applyChildWrites_nil (n := emptyNode) hsorted e.1
    rw [eq_emptyNode he, SortedDict.get_of_mem hsorted (show (e.1, e.2) ∈ cs from hmem)] at hchild
    exact (congrArg FNode.isEmpty hchild).symm
  · intro hall
    rw [eq_emptyNode_of_children hwritten hleaf fun k => ?_]
    · rfl
    · rw [getImmediateChild_applyChildWrites_nil hsorted]
      cases hget : SortedDict.get k cs with
      | none => rfl
      | some c => exact eq_emptyNode (hall (k, c) (SortedDict.mem_of_get hget))

theorem leafValue_applySubtreeWrite_cons (h : Compound t) (k : κ) (p : List κ) (n : FNode κ) :
    leafValue (applySubtreeWrite t (k :: p) n) =
      if (applySubtreeWrite t [] emptyNode).isEmpty then leafValue n else none := by
  induction h generalizing k p n with
  | @write v _ =>
    rw [applySubtreeWrite_of_value (t := ofValue (some v)) rfl]
    exact leafValue_updateChild_cons v k p n
  | @node cs hsorted hne hbelow ih =>
    rw [applySubtreeWrite, applySubtreeWrite, isEmpty_applyChildWrites (.node hsorted hne hbelow)]
    exact leafValue_applyChildWrites fun e he m => ih e he k (p ++ [e.1]) m

/-- Where the root is not written, a text makes room if something is. -/
theorem leafValue_applySubtreeWrite_root (h : Compound t) (hv : t.value = none) (n : FNode κ) :
    leafValue (applySubtreeWrite t [] n) =
      if (applySubtreeWrite t [] emptyNode).isEmpty then leafValue n else none := by
  cases h with
  | write _ => cases hv
  | @node cs hsorted hne hbelow =>
    rw [applySubtreeWrite, applySubtreeWrite, isEmpty_applyChildWrites (.node hsorted hne hbelow)]
    exact leafValue_applyChildWrites fun e he m => leafValue_applySubtreeWrite_cons (hbelow e he) e.1 [] m

/-- Layers that are the same but at a path write the same if they do so at the path. -/
theorem SameBut.written_eq {n : FNode κ} (h : SameBut p t t') (ht : Compound t) (ht' : Compound t') (hn : n.Normal)
    (heq : getChild p (applySubtreeWrite t [] n) = getChild p (applySubtreeWrite t' [] n)) :
    applySubtreeWrite t [] n = applySubtreeWrite t' [] n := by
  induction p generalizing t t' n with
  | nil => exact heq
  | cons k p ih =>
    obtain ⟨hv, hv', hchild, hother⟩ := h
    have hchildren : ∀ m : FNode κ, m.Normal → getImmediateChild k m = getImmediateChild k n → ∀ k',
        getImmediateChild k' (applySubtreeWrite t [] m) = getImmediateChild k' (applySubtreeWrite t' [] m) := by
      intro m hm hmn k'
      rw [getImmediateChild_applySubtreeWrite_nil ht.canonical hv,
        getImmediateChild_applySubtreeWrite_nil ht'.canonical hv']
      by_cases hk : k' = k
      · subst hk
        refine ih hchild (ht.child k') (ht'.child k') (hm.getChild [k']) ?_
        rw [getChild, getChild, getImmediateChild_applySubtreeWrite_nil ht.canonical hv,
          getImmediateChild_applySubtreeWrite_nil ht'.canonical hv', ← hmn] at heq
        exact heq
      · rw [hother k' hk]
    refine (normal_applySubtreeWrite ht hn []).ext_child (normal_applySubtreeWrite ht' hn []) ?_ (hchildren n hn rfl)
    cases n with
    | children kids =>
      rw [leafValue_applySubtreeWrite_nil ht hv rfl, leafValue_applySubtreeWrite_nil ht' hv' rfl]
    | leaf v =>
      have hempty : applySubtreeWrite t [] emptyNode = applySubtreeWrite t' [] emptyNode := by
        refine (normal_applySubtreeWrite ht normal_emptyNode []).ext_child
          (normal_applySubtreeWrite ht' normal_emptyNode []) ?_ (hchildren emptyNode normal_emptyNode rfl)
        rw [leafValue_applySubtreeWrite_nil ht hv rfl, leafValue_applySubtreeWrite_nil ht' hv' rfl]
      rw [leafValue_applySubtreeWrite_root ht hv, leafValue_applySubtreeWrite_root ht' hv', hempty]

/-- One child is taken back: what is left is the written node, or it is empty where a text shows again. -/
theorem SameBut.reverted {k : κ} (h : SameBut (k :: p) t t') (ht : Compound t) (ht' : Compound t') (hs : s.Normal) :
    updateImmediateChild k (getImmediateChild k (applySubtreeWrite t' [] s)) (applySubtreeWrite t [] s) =
        applySubtreeWrite t' [] s ∨
      (updateImmediateChild k (getImmediateChild k (applySubtreeWrite t' [] s)) (applySubtreeWrite t [] s)).isEmpty =
          true ∧ (applySubtreeWrite t' [] s).isLeafNode = true := by
  obtain ⟨hv, hv', -, hother⟩ := h
  have hE := normal_applySubtreeWrite ht hs []
  have hE' := normal_applySubtreeWrite ht' hs []
  have hchildren : ∀ k', getImmediateChild k' (updateImmediateChild k
      (getImmediateChild k (applySubtreeWrite t' [] s)) (applySubtreeWrite t [] s)) =
        getImmediateChild k' (applySubtreeWrite t' [] s) := by
    intro k'
    rw [getImmediateChild_updateImmediateChild]
    split
    · rename_i hk
      rw [hk]
    · rename_i hk
      rw [getImmediateChild_applySubtreeWrite_nil ht.canonical hv,
        getImmediateChild_applySubtreeWrite_nil ht'.canonical hv', hother k' hk]
  have hnode : (updateImmediateChild k (getImmediateChild k (applySubtreeWrite t' [] s))
      (applySubtreeWrite t [] s)).Normal := hE.updateImmediateChild (hE'.getChild [k]) k
  have hleaf : leafValue (updateImmediateChild k (getImmediateChild k (applySubtreeWrite t' [] s))
      (applySubtreeWrite t [] s)) = none ∨ leafValue (updateImmediateChild k
        (getImmediateChild k (applySubtreeWrite t' [] s)) (applySubtreeWrite t [] s)) = leafValue s := by
    rw [← FNode.updateChild_singleton, leafValue_updateChild_cons, leafValue_applySubtreeWrite_root ht hv]
    split
    · split
      · exact .inr rfl
      · exact .inl rfl
    · exact .inl rfl
  generalize hnew : updateImmediateChild k (getImmediateChild k (applySubtreeWrite t' [] s))
    (applySubtreeWrite t [] s) = node at hchildren hnode hleaf ⊢
  have hroot := leafValue_applySubtreeWrite_root ht' hv' s
  cases hclear : (applySubtreeWrite t' [] emptyNode).isEmpty with
  | true =>
    rw [hclear, if_pos rfl] at hroot
    rcases hleaf with hnone | hsame
    · cases s with
      | children kids => exact .inl (hnode.ext_child hE' (hnone.trans hroot.symm) hchildren)
      | leaf v =>
        -- the text shows again, and it has no children
        cases hwritten : applySubtreeWrite t' [] (.leaf v) with
        | children kids =>
          rw [hwritten] at hroot
          cases hroot
        | leaf w =>
          refine .inr ⟨?_, rfl⟩
          rw [eq_emptyNode_of_children hnode hnone fun k' => ?_]
          · rfl
          · rw [hchildren k', hwritten]
            rfl
    · exact .inl (hnode.ext_child hE' (hsame.trans hroot.symm) hchildren)
  | false =>
    rw [hclear, if_neg Bool.false_ne_true] at hroot
    refine .inl (hnode.ext_child hE' ?_ hchildren)
    rw [hroot]
    cases node with
    | children kids => rfl
    | leaf w =>
      -- a text has no children, and something is written
      have hchildless : ∀ k', getImmediateChild k' (applySubtreeWrite t' [] s) = emptyNode := fun k' =>
        (hchildren k').symm
      have hs' : leafValue s = some w := (hleaf.resolve_left fun hnone => nomatch hnone).symm
      have hempty : applySubtreeWrite t' [] emptyNode = emptyNode := by
        refine eq_emptyNode_of_children (normal_applySubtreeWrite ht' normal_emptyNode [])
          (leafValue_applySubtreeWrite_nil ht' hv' rfl) fun k' => ?_
        have hchild := hchildless k'
        rw [getImmediateChild_applySubtreeWrite_nil ht'.canonical hv'] at hchild ⊢
        cases s with
        | leaf v => exact hchild
        | children kids => cases hs'
      rw [hempty] at hclear
      cases hclear

end

end FCompoundWrite

namespace FImmutableTree

section
variable {t t' : FImmutableTree κ (FNode κ)} {p : List κ}

theorem sameBut_self (h : OpenAt p t) : SameBut p t t := by
  induction p generalizing t with
  | nil => trivial
  | cons k p ih => exact ⟨h.value, h.value, ih h.child, fun _ _ => rfl⟩

/-- Only what lies at the path has changed, and nothing where the new layer hides it. -/
def ChangedAt (p : List κ) (t t' : FImmutableTree κ (FNode κ)) : Prop :=
  (OpenAt p t' → SameBut p t t') ∧ (¬ OpenAt p t' → t = t')

theorem changedAt_self (p : List κ) (t : FImmutableTree κ (FNode κ)) : ChangedAt p t t := ⟨sameBut_self, fun _ => rfl⟩

end

end FImmutableTree

/-! ## What a view is told of the writes -/

namespace FWriteTreeRef

/-- The writes below the path of the view. -/
def layer (ref : FWriteTreeRef κ) : FImmutableTree κ (FNode κ) :=
  FCompoundWrite.below ref.path ref.writeTree.visibleWrites.writeTree

section
variable {ref : FWriteTreeRef κ} {n : FNode κ} {path : List κ}

theorem compound_layer (hw : Compound ref.writeTree.visibleWrites.writeTree) : Compound ref.layer :=
  FCompoundWrite.compound_below hw ref.path

theorem shadowingWriteAtPath_isSome (ref : FWriteTreeRef κ) (path : List κ) :
    (ref.shadowingWriteAtPath path).isSome = true ↔ ¬ OpenAt path ref.layer := by
  unfold shadowingWriteAtPath FWriteTree.shadowingWriteAtPath
  rw [FCompoundWrite.completeNodeAtPath_eq, FCompoundWrite.below_append, FCompoundWrite.value_below_isSome]
  rfl

theorem openAt_of_shadowing (hshadow : (ref.shadowingWriteAtPath path).isSome = false) : OpenAt path ref.layer := by
  by_contra hclosed
  rw [(shadowingWriteAtPath_isSome ref path).2 hclosed] at hshadow
  cases hshadow

theorem applyToNode_child (hw : Compound ref.writeTree.visibleWrites.writeTree) (path : List κ) (n : FNode κ) :
    (ref.writeTree.visibleWrites.childCompoundWriteAtPath (ref.path ++ path)).applyToNode n =
      FCompoundWrite.applySubtreeWrite (FCompoundWrite.below path ref.layer) [] n := by
  unfold FCompoundWrite.applyToNode
  rw [FCompoundWrite.writeTree_childCompoundWriteAtPath hw, FCompoundWrite.below_append]
  rfl

/-- Without a filter the whole is the server's node with the writes. -/
theorem completeEventCache_eq (hw : Compound ref.writeTree.visibleWrites.writeTree) (n : FNode κ) :
    ref.calculateCompleteEventCacheWithCompleteServerCache (some n) =
      some (FCompoundWrite.applySubtreeWrite ref.layer [] n) := by
  unfold calculateCompleteEventCacheWithCompleteServerCache
  rw [FWriteTree.eventCache_visible]
  cases hc : ref.writeTree.visibleWrites.completeNodeAtPath ref.path with
  | some node =>
    rw [FCompoundWrite.completeNodeAtPath_eq] at hc
    rw [layer, FCompoundWrite.applySubtreeWrite_of_value hc]
  | none =>
    have happly := applyToNode_child hw [] n
    rw [List.append_nil, FCompoundWrite.below] at happly
    simp only [Option.isNone_some, Bool.false_and, Bool.false_eq_true, if_false, Option.getD_some]
    rw [← happly]
    split
    · rename_i he
      rw [FWriteTree.eq_empty_of_isEmpty he]
    · rfl

theorem eventCacheAfterServerOverwrite_open (hw : Compound ref.writeTree.visibleWrites.writeTree)
    (hopen : OpenAt path ref.layer) (n : FNode κ) :
    ref.calculateEventCacheAfterServerOverwriteWithChildPath path n =
      some (FCompoundWrite.applySubtreeWrite (FCompoundWrite.below path ref.layer) [] (getChild path n)) := by
  have hnone : ref.writeTree.visibleWrites.hasCompleteWriteAtPath (ref.path ++ path) = false := by
    rw [Bool.eq_false_iff]
    intro hhas
    exact (shadowingWriteAtPath_isSome ref path).1 hhas hopen
  have happly := applyToNode_child hw path (getChild path n)
  unfold calculateEventCacheAfterServerOverwriteWithChildPath FWriteTree.calculateEventCacheAfterServerOverwriteAtPath
  simp only [hnone, Bool.false_eq_true, if_false]
  rw [← happly]
  split
  · rename_i he
    rw [FWriteTree.eq_empty_of_isEmpty he]
  · rfl

end

end FWriteTreeRef

/-! ## Operations on a complete view -/

/-- The server data is complete, and the event snap is the whole of it with the writes. -/
structure Shows (t : FImmutableTree κ (FNode κ)) (s : FNode κ) (cache : FViewCache κ) : Prop where
  server : cache.cachedServerSnap = ⟨s, true, false⟩
  event : cache.cachedEventSnap = ⟨FCompoundWrite.applySubtreeWrite t [] s, true, false⟩

namespace FViewProcessor

open FIndexedFilter

section
variable {cache cache' : FViewCache κ} {ref : FWriteTreeRef κ} {changes changes' : FChildChangeAccumulator κ}
  {s snap e : FNode κ} {t : FImmutableTree κ (FNode κ)} {path : List κ} {debug : Bool}

/-- A child that is written at the affected path is the same beside it. -/
theorem eq_of_written {node new : FNode κ} {k : κ} (hn : node.Normal)
    (hsame : getChild path (getImmediateChild k node) =
      getChild path (updateChild new path (getImmediateChild k node))) :
    getImmediateChild k node = updateChild new path (getImmediateChild k node) := by
  rw [getChild_updateChild_self] at hsame
  rw [← hsame]
  exact (updateChild_getChild (hn.getChild [k]) path).symm

/-- A child that is updated at the affected path is one step of a write at the path. -/
theorem updateChildIn_eq {node new node' : FNode κ} {k : κ}
    {accumulator accumulator' : Option (FChildChangeAccumulator κ)} (hn : node.Normal) (hnew : new.Normal)
    (h : updateChildIn debug node k (updateChild new path (getImmediateChild k node)) path accumulator =
      .ok (node', accumulator')) : node' = updateChild new (k :: path) node := by
  have hupdated := updated_of_updateChildIn hn ((hn.getChild [k]).updateChild hnew path) h
  rw [← updateImmediateChild_updateChild]
  exact hupdated.eq hn fun hsame _ => eq_of_written hn hsame

theorem updateEventChild_eq {node new node' : FNode κ} {k : κ} (hn : node.Normal) (hnew : new.Normal)
    (h : updateEventChild debug node k (updateChild new path (getImmediateChild k node)) path changes =
      .ok (node', changes')) : node' = updateChild new (k :: path) node := by
  unfold updateEventChild at h
  cases hupdate : updateChildIn debug node k (updateChild new path (getImmediateChild k node)) path (some changes) with
  | error e =>
    rw [hupdate] at h
    cases h
  | ok result =>
    obtain ⟨node₁, accumulator⟩ := result
    rw [hupdate] at h
    cases h
    exact updateChildIn_eq hn hnew hupdate

theorem updateFullNode_eq {node new node' : FNode κ} (h : updateFullNode node new changes = .ok (node', changes')) :
    node' = new := by
  unfold updateFullNode at h
  cases hold : node.enumerateChildren.foldlM (trackOld new) changes with
  | error exception =>
    rw [hold] at h
    cases h
  | ok changes₁ =>
    rw [hold] at h
    cases hnew : new.enumerateChildren.foldlM (trackNew node) changes₁ with
    | error exception =>
      simp only [bind, Except.bind, hnew] at h
      cases h
    | ok changes₂ =>
      simp only [bind, Except.bind, hnew] at h
      cases h
      rfl

/-- Where no write hides it, the child of the event snap gets the data of the server with the writes. -/
theorem newEventChild_eq {k : κ} {p : List κ} (hw : Compound ref.writeTree.visibleWrites.writeTree)
    (hserver : cache.cachedServerSnap = ⟨s, true, false⟩) (hevent : cache.cachedEventSnap = ⟨e, true, false⟩)
    (hopen : OpenAt (k :: p) ref.layer) :
    newEventChild cache k p ref = some (updateChild
      (FCompoundWrite.applySubtreeWrite (FCompoundWrite.below (k :: p) ref.layer) [] (getChild (k :: p) s)) p
      (getImmediateChild k e)) := by
  unfold newEventChild FCacheNode.isCompleteForChild
  rw [hserver, hevent]
  simp only [Bool.not_false, Bool.and_true, Bool.true_or, if_true,
    FWriteTreeRef.eventCacheAfterServerOverwrite_open hw hopen]

/-- After data of the server the event snap is the same where a write hides it, and else the data with the
writes is written into it. -/
theorem generateEventCacheAfterServerEvent_eq (hw : Compound ref.writeTree.visibleWrites.writeTree) (hn : cache.Normal)
    (hserver : cache.cachedServerSnap = ⟨s, true, false⟩) (hevent : cache.cachedEventSnap = ⟨e, true, false⟩)
    (h : generateEventCacheAfterServerEvent debug cache path ref changes = .ok (cache', changes')) :
    cache'.cachedServerSnap = ⟨s, true, false⟩ ∧
      (¬ OpenAt path ref.layer ∧ cache'.cachedEventSnap = ⟨e, true, false⟩ ∨
        OpenAt path ref.layer ∧ cache'.cachedEventSnap =
          ⟨updateChild (FCompoundWrite.applySubtreeWrite (FCompoundWrite.below path ref.layer) [] (getChild path s))
            path e, true, false⟩) := by
  have hs : s.Normal := by
    have hnormal := hn.server
    rwa [hserver] at hnormal
  have he : e.Normal := by
    have hnormal := hn.event
    rwa [hevent] at hnormal
  unfold generateEventCacheAfterServerEvent at h
  cases hshadow : (ref.shadowingWriteAtPath path).isSome with
  | true =>
    simp only [hshadow, if_true] at h
    cases h
    exact ⟨hserver, .inl ⟨(FWriteTreeRef.shadowingWriteAtPath_isSome ref path).1 hshadow, hevent⟩⟩
  | false =>
    have hopen : OpenAt path ref.layer := FWriteTreeRef.openAt_of_shadowing hshadow
    simp only [hshadow, Bool.false_eq_true, if_false] at h
    cases path with
    | nil =>
      have hnode : nodeWithLocalWrites cache ref = FCompoundWrite.applySubtreeWrite ref.layer [] s := by
        unfold nodeWithLocalWrites FViewCache.completeServerSnap
        rw [hserver]
        simp only [Bool.false_eq_true, if_false, if_true, FWriteTreeRef.completeEventCache_eq hw, Option.getD_some]
      simp only [hserver, hnode, if_true] at h
      cases hupdate : updateFullNode cache.cachedEventSnap.node
          (FCompoundWrite.applySubtreeWrite ref.layer [] s) changes with
      | error exception =>
        rw [hupdate] at h
        cases h
      | ok result =>
        obtain ⟨node₁, changes₁⟩ := result
        rw [hupdate] at h
        cases h
        refine ⟨hserver, .inr ⟨hopen, ?_⟩⟩
        rw [updateChild_nil, getChild, FCompoundWrite.below, ← updateFullNode_eq hupdate, hevent]
        rfl
    | cons k p =>
      simp only [newEventChild_eq hw hserver hevent hopen, hevent] at h
      cases hupdate : updateEventChild debug e k (updateChild
          (FCompoundWrite.applySubtreeWrite (FCompoundWrite.below (k :: p) ref.layer) [] (getChild (k :: p) s)) p
          (getImmediateChild k e)) p changes with
      | error exception =>
        rw [hupdate] at h
        cases h
      | ok result =>
        obtain ⟨node₁, changes₁⟩ := result
        rw [hupdate] at h
        cases h
        have hnew := FCompoundWrite.normal_applySubtreeWrite
          (FCompoundWrite.compound_below (FWriteTreeRef.compound_layer hw) (k :: p)) (hs.getChild (k :: p)) []
        exact ⟨hserver, .inr ⟨hopen, by rw [updateEventChild_eq he hnew hupdate]; rfl⟩⟩

/-- New data of the server at a path, for a view whose writes have changed there. -/
theorem generateEventCacheAfterServerEvent_shows (hw : Compound ref.writeTree.visibleWrites.writeTree)
    (hn : cache.Normal) (ht : Compound t) (hs : s.Normal) (hsnap : snap.Normal) (hchanged : ChangedAt path t ref.layer)
    (htext : NoTextAbove path s) (hserver : cache.cachedServerSnap = ⟨updateChild snap path s, true, false⟩)
    (hevent : cache.cachedEventSnap = ⟨FCompoundWrite.applySubtreeWrite t [] s, true, false⟩)
    (h : generateEventCacheAfterServerEvent debug cache path ref changes = .ok (cache', changes')) :
    Shows ref.layer (updateChild snap path s) cache' := by
  have hlayer := FWriteTreeRef.compound_layer hw
  obtain ⟨hserver', ⟨hclosed, hevent'⟩ | ⟨hopen, hevent'⟩⟩ :=
    generateEventCacheAfterServerEvent_eq hw hn hserver hevent h
  · refine ⟨hserver', ?_⟩
    rw [hevent', hchanged.2 hclosed, FCompoundWrite.applySubtreeWrite_shadowed hlayer hs hsnap hclosed htext]
  · refine ⟨hserver', ?_⟩
    rw [hevent', getChild_updateChild_self,
      FCompoundWrite.applySubtreeWrite_updateChild (hchanged.1 hopen) ht hlayer hs hsnap hopen htext]

theorem applyServerOverwriteTo_shows (hw : Compound ref.writeTree.visibleWrites.writeTree) (hn : cache.Normal)
    (ht : Compound t) (hshows : Shows t s cache) (hsnap : snap.Normal) (hchanged : ChangedAt path t ref.layer)
    (htext : NoTextAbove path s)
    (h : applyServerOverwriteTo debug cache path snap ref changes = .ok (cache', changes')) :
    Shows ref.layer (updateChild snap path s) cache' := by
  obtain ⟨hserver, hevent⟩ := hshows
  have hs : s.Normal := by
    have hnormal := hn.server
    rwa [hserver] at hnormal
  have hgenerate : ∀ server, server = updateChild snap path s →
      generateEventCacheAfterServerEvent debug (cache.updateServerSnap server true false) path ref changes =
        .ok (cache', changes') → Shows ref.layer (updateChild snap path s) cache' := by
    rintro server rfl hgenerate
    have hn' : (cache.updateServerSnap (updateChild snap path s) true false).Normal :=
      ⟨hn.event, hs.updateChild hsnap path⟩
    exact generateEventCacheAfterServerEvent_shows hw hn' ht hs hsnap hchanged htext rfl hevent hgenerate
  unfold applyServerOverwriteTo at h
  cases path with
  | nil =>
    rw [updateChild_nil] at hgenerate
    exact hgenerate snap rfl h
  | cons k p =>
    have hcomplete : cache.cachedServerSnap.isCompleteForPath (k :: p) = true := by
      rw [hserver]
      rfl
    simp only [hcomplete, Bool.not_true, Bool.false_and, Bool.false_eq_true, if_false] at h
    cases hupdate : updateChildIn debug cache.cachedServerSnap.node k
        (updateChild snap p (getImmediateChild k cache.cachedServerSnap.node)) p none with
    | error exception =>
      rw [hupdate] at h
      cases h
    | ok result =>
      obtain ⟨server, accumulator⟩ := result
      have hnode := updateChildIn_eq hn.server hsnap hupdate
      rw [hupdate] at h
      simp only [hserver] at h hnode
      exact hgenerate server hnode h

/-- The answer to an overwrite of the user: its write is gone, and what the server has shows again. -/
theorem ackUserWriteOn_shows (hw : Compound ref.writeTree.visibleWrites.writeTree) (hn : cache.Normal) (ht : Compound t)
    (hshows : Shows t s cache) (hchanged : ChangedAt path t ref.layer) (htext : NoTextAbove path s)
    {affectedTree : FImmutableTree κ Unit} (hoverwrite : affectedTree.value = some ())
    (h : ackUserWriteOn debug cache path affectedTree ref changes = .ok (cache', changes')) :
    Shows ref.layer s cache' := by
  have hs : s.Normal := by
    have hnormal := hn.server
    rwa [hshows.server] at hnormal
  unfold ackUserWriteOn at h
  cases hshadow : (ref.shadowingWriteAtPath path).isSome with
  | true =>
    simp only [hshadow, if_true] at h
    cases h
    rwa [← hchanged.2 ((FWriteTreeRef.shadowingWriteAtPath_isSome ref path).1 hshadow)]
  | false =>
    have hcomplete : (path.isEmpty && cache.cachedServerSnap.isFullyInitialized ||
        cache.cachedServerSnap.isCompleteForPath path) = true := by
      rw [hshows.server]
      cases path <;> rfl
    simp only [hshadow, hoverwrite, hcomplete, Bool.false_eq_true, if_false, if_true] at h
    have hsnap : (getChild path cache.cachedServerSnap.node).Normal := hn.server.getChild path
    have hshown := applyServerOverwriteTo_shows hw hn ht hshows hsnap hchanged htext h
    rw [hshows.server] at hshown
    rwa [updateChild_getChild hs] at hshown

/-- A complete child of the view that is made again. -/
theorem calculateCompleteChild_eq (hw : Compound ref.writeTree.visibleWrites.writeTree) (k : κ) :
    ref.calculateCompleteChild k ⟨s, true, false⟩ =
      some (getImmediateChild k (FCompoundWrite.applySubtreeWrite ref.layer [] s)) := by
  have hchild : getImmediateChild k (FCompoundWrite.applySubtreeWrite ref.layer [] s) =
      FCompoundWrite.applySubtreeWrite (FCompoundWrite.below [k] ref.layer) [] (getImmediateChild k s) :=
    FCompoundWrite.getChild_applySubtreeWrite (FWriteTreeRef.compound_layer hw) [k]
  unfold FWriteTreeRef.calculateCompleteChild FWriteTree.calculateCompleteChildAtPath
  cases hc : ref.writeTree.visibleWrites.completeNodeAtPath (ref.path ++ [k]) with
  | some node =>
    simp only [hc]
    rw [FCompoundWrite.completeNodeAtPath_eq, FCompoundWrite.below_append] at hc
    rw [hchild, FWriteTreeRef.layer, FCompoundWrite.applySubtreeWrite_of_value hc]
  | none =>
    simp only [hc]
    rw [hchild, ← FWriteTreeRef.applyToNode_child hw [k]]
    rfl

/-- The children are made again at the path: the view is what is shown, or empty where a text shows again. -/
theorem revertedEventCache_eq {node : FNode κ} (hw : Compound ref.writeTree.visibleWrites.writeTree) (hn : cache.Normal)
    (ht : Compound t) (hshows : Shows t s cache) (hsame : SameBut path t ref.layer)
    (h : revertedEventCache debug cache path ref changes = .ok (node, changes')) :
    node = FCompoundWrite.applySubtreeWrite ref.layer [] s ∨
      path.isEmpty = false ∧ node.isEmpty = true ∧
        (FCompoundWrite.applySubtreeWrite ref.layer [] s).isLeafNode = true := by
  obtain ⟨hserver, hevent⟩ := hshows
  have hs : s.Normal := by
    have hnormal := hn.server
    rwa [hserver] at hnormal
  have he : (FCompoundWrite.applySubtreeWrite t [] s).Normal := FCompoundWrite.normal_applySubtreeWrite ht hs []
  have hlayer := FWriteTreeRef.compound_layer hw
  unfold revertedEventCache at h
  cases path with
  | nil =>
    unfold FViewCache.completeServerSnap at h
    simp only [hserver, if_true, FWriteTreeRef.completeEventCache_eq hw, Option.getD_some] at h
    exact .inl (updateFullNode_eq h)
  | cons k p =>
    simp only [hserver, hevent, calculateCompleteChild_eq hw] at h
    have hchild : (getImmediateChild k (FCompoundWrite.applySubtreeWrite ref.layer [] s)).Normal :=
      (FCompoundWrite.normal_applySubtreeWrite hlayer hs []).getChild [k]
    unfold updateEventChild at h
    cases hupdate : updateChildIn debug (FCompoundWrite.applySubtreeWrite t [] s) k
        (getImmediateChild k (FCompoundWrite.applySubtreeWrite ref.layer [] s)) p (some changes) with
    | error exception =>
      rw [hupdate] at h
      cases h
    | ok result =>
      obtain ⟨node₁, accumulator⟩ := result
      rw [hupdate] at h
      cases h
      rcases updated_of_updateChildIn he hchild hupdate with hnode | ⟨hnode, hpath, -⟩
      · rw [hnode]
        rcases FCompoundWrite.SameBut.reverted hsame ht hlayer hs with hshown | ⟨hempty, hleaf⟩
        · exact .inl hshown
        · exact .inr ⟨rfl, hempty, hleaf⟩
      · -- at the path nothing has changed, and elsewhere nothing can
        exact .inl (hnode.trans (FCompoundWrite.SameBut.written_eq hsame ht hlayer hs hpath))

/-- A write that the server rejects is taken back, also from over a text. -/
theorem revertUserWriteOn_shows (hw : Compound ref.writeTree.visibleWrites.writeTree) (hn : cache.Normal)
    (ht : Compound t) (hshows : Shows t s cache) (hchanged : ChangedAt path t ref.layer)
    (h : revertUserWriteOn debug cache path ref changes = .ok (cache', changes')) : Shows ref.layer s cache' := by
  unfold revertUserWriteOn at h
  cases hshadow : (ref.shadowingWriteAtPath path).isSome with
  | true =>
    simp only [hshadow, if_true] at h
    cases h
    rwa [← hchanged.2 ((FWriteTreeRef.shadowingWriteAtPath_isSome ref path).1 hshadow)]
  | false =>
    have hopen : OpenAt path ref.layer := FWriteTreeRef.openAt_of_shadowing hshadow
    have hcomplete : (ref.calculateCompleteEventCacheWithCompleteServerCache cache.completeServerSnap).getD emptyNode =
        FCompoundWrite.applySubtreeWrite ref.layer [] s := by
      unfold FViewCache.completeServerSnap
      rw [hshows.server]
      simp only [if_true, FWriteTreeRef.completeEventCache_eq hw, Option.getD_some]
    simp only [hshadow, Bool.false_eq_true, if_false, hcomplete] at h
    cases hreverted : revertedEventCache debug cache path ref changes with
    | error exception =>
      rw [hreverted] at h
      cases h
    | ok result =>
      obtain ⟨node, changes₁⟩ := result
      have hnode := revertedEventCache_eq hw hn ht hshows (hchanged.1 hopen) hreverted
      rw [hreverted] at h
      simp only [bind, Except.bind, pure, Except.pure, hshows.server, Bool.true_or, Bool.and_true] at h
      cases hagain : !path.isEmpty && node.isEmpty &&
          (FCompoundWrite.applySubtreeWrite ref.layer [] s).isLeafNode with
      | true =>
        simp only [hagain, if_true] at h
        cases hfull : updateFullNode node (FCompoundWrite.applySubtreeWrite ref.layer [] s) changes₁ with
        | error exception =>
          rw [hfull] at h
          cases h
        | ok result =>
          obtain ⟨node₂, changes₂⟩ := result
          rw [hfull] at h
          cases h
          exact ⟨hshows.server, by rw [← updateFullNode_eq hfull]; rfl⟩
      | false =>
        simp only [hagain, Bool.false_eq_true, if_false] at h
        cases h
        rcases hnode with rfl | ⟨hpath, hempty, hleaf⟩
        · exact ⟨hshows.server, rfl⟩
        · rw [hpath, hempty, hleaf] at hagain
          cases hagain

/-- The answer to an overwrite of the user, whatever it is; only a write that stays may not go through a text. -/
theorem answer_shows (hw : Compound ref.writeTree.visibleWrites.writeTree) (hn : cache.Normal) (ht : Compound t)
    (hshows : Shows t s cache) (hchanged : ChangedAt path t ref.layer) {revert : Bool}
    (htext : revert = false → NoTextAbove path s) {affectedTree : FImmutableTree κ Unit}
    (hoverwrite : affectedTree.value = some ()) {complete : Option (FNode κ)}
    (h : process debug cache ref complete (.ackUserWrite path affectedTree revert) = .ok (cache', changes')) :
    Shows ref.layer s cache' := by
  cases revert with
  | false => exact ackUserWriteOn_shows hw hn ht hshows hchanged (htext rfl) hoverwrite h
  | true => exact revertUserWriteOn_shows hw hn ht hshows hchanged h

/-- A write of the user goes into the event snap as into the layer. -/
theorem applyUserOverwriteTo_shows (hn : cache.Normal) (ht : Compound t) (hshows : Shows t s cache)
    (hsnap : snap.Normal) {complete : Option (FNode κ)}
    (habove : snap.isEmpty = true → ∀ q, q <+: path → q ≠ path → OpenAt q t → leafAt q s = none)
    (h : applyUserOverwriteTo debug cache path snap ref complete changes = .ok (cache', changes')) :
    Shows (layer snap path t) s cache' := by
  have hs : s.Normal := by
    have hnormal := hn.server
    rwa [hshows.server] at hnormal
  have he : (FCompoundWrite.applySubtreeWrite t [] s).Normal := FCompoundWrite.normal_applySubtreeWrite ht hs []
  suffices hwritten : cache'.cachedServerSnap = cache.cachedServerSnap ∧ cache'.cachedEventSnap =
      ⟨updateChild snap path (FCompoundWrite.applySubtreeWrite t [] s), true, false⟩ by
    refine ⟨hwritten.1.trans hshows.server, ?_⟩
    rw [hwritten.2, FCompoundWrite.applySubtreeWrite_layer ht hs hsnap habove]
  unfold applyUserOverwriteTo at h
  cases path with
  | nil =>
    simp only at h
    cases hupdate : updateFullNode cache.cachedEventSnap.node snap changes with
    | error exception =>
      rw [hupdate] at h
      cases h
    | ok result =>
      obtain ⟨node₁, changes₁⟩ := result
      rw [hupdate] at h
      cases h
      rw [updateChild_nil, ← updateFullNode_eq hupdate]
      exact ⟨rfl, rfl⟩
  | cons k p =>
    have hwritten : ∀ c, c = updateChild snap p (getImmediateChild k cache.cachedEventSnap.node) →
        (if isEqual (getImmediateChild k cache.cachedEventSnap.node) c then .ok (cache, changes)
          else updateEventChild debug cache.cachedEventSnap.node k c p changes >>= fun x =>
            .ok (cache.updateEventSnap x.1 cache.cachedEventSnap.isFullyInitialized false, x.2)) =
          (.ok (cache', changes') : Except FViewException (Progress κ)) →
        cache'.cachedServerSnap = cache.cachedServerSnap ∧ cache'.cachedEventSnap =
          ⟨updateChild snap (k :: p) (FCompoundWrite.applySubtreeWrite t [] s), true, false⟩ := by
      rintro c rfl hc
      rw [hshows.event] at hc
      simp only at hc
      have hchild : (updateChild snap p (getImmediateChild k (FCompoundWrite.applySubtreeWrite t [] s))).Normal :=
        (he.getChild [k]).updateChild hsnap p
      cases hsame : isEqual (getImmediateChild k (FCompoundWrite.applySubtreeWrite t [] s))
          (updateChild snap p (getImmediateChild k (FCompoundWrite.applySubtreeWrite t [] s))) with
      | true =>
        rw [hsame, if_pos rfl] at hc
        cases hc
        have heq : getImmediateChild k (FCompoundWrite.applySubtreeWrite t [] s) = _ :=
          (isEqual_eq_true (he.getChild [k]) hchild).1 hsame
        refine ⟨rfl, hshows.event.trans ?_⟩
        rw [← updateImmediateChild_updateChild, ← heq, updateImmediateChild_self he]
      | false =>
        rw [hsame, if_neg Bool.false_ne_true] at hc
        cases hupdate : updateEventChild debug (FCompoundWrite.applySubtreeWrite t [] s) k
            (updateChild snap p (getImmediateChild k (FCompoundWrite.applySubtreeWrite t [] s))) p changes with
        | error exception =>
          rw [hupdate] at hc
          cases hc
        | ok result =>
          obtain ⟨node₁, changes₁⟩ := result
          rw [hupdate] at hc
          cases hc
          rw [← updateEventChild_eq he hsnap hupdate]
          exact ⟨rfl, rfl⟩
    cases p with
    | nil =>
      refine hwritten snap ?_ h
      rw [updateChild_nil]
    | cons k' p =>
      have hcomplete : completeChild ref cache complete k = some (getImmediateChild k cache.cachedEventSnap.node) := by
        unfold completeChild FCacheNode.isCompleteForChild
        rw [hshows.event]
        rfl
      simp only [hcomplete] at h
      exact hwritten _ rfl h

/-! ### Debug builds

A view that shows the whole never meets the assertion of a debug build: a child that is written at the affected
path, or from which a write is taken back there, stays the same beside it. -/

theorem updateEventChild_release {node c : FNode κ} {k : κ} (hn : node.Normal) (hc : c.Normal)
    (haff : getChild path (getImmediateChild k node) = getChild path c → getImmediateChild k node = c) :
    updateEventChild debug node k c path changes = updateEventChild false node k c path changes := by
  unfold updateEventChild
  rw [updateChildIn_release hn hc fun hsame _ => haff hsame]

theorem updateEventChild_written {node new : FNode κ} (k : κ) (hn : node.Normal) (hnew : new.Normal) :
    updateEventChild debug node k (updateChild new path (getImmediateChild k node)) path changes =
      updateEventChild false node k (updateChild new path (getImmediateChild k node)) path changes :=
  updateEventChild_release hn ((hn.getChild [k]).updateChild hnew path) (eq_of_written hn)

theorem generateEventCacheAfterServerEvent_release (hw : Compound ref.writeTree.visibleWrites.writeTree)
    (hn : cache.Normal) (hserver : cache.cachedServerSnap = ⟨s, true, false⟩)
    (hevent : cache.cachedEventSnap = ⟨e, true, false⟩) :
    generateEventCacheAfterServerEvent debug cache path ref changes =
      generateEventCacheAfterServerEvent false cache path ref changes := by
  have hs : s.Normal := by
    have hnormal := hn.server
    rwa [hserver] at hnormal
  have he : e.Normal := by
    have hnormal := hn.event
    rwa [hevent] at hnormal
  unfold generateEventCacheAfterServerEvent
  cases path with
  | nil => rfl
  | cons k p =>
    cases hshadow : (ref.shadowingWriteAtPath (k :: p)).isSome with
    | true => simp only [if_true]
    | false =>
      have hnew := FCompoundWrite.normal_applySubtreeWrite
        (FCompoundWrite.compound_below (FWriteTreeRef.compound_layer hw) (k :: p)) (hs.getChild (k :: p)) []
      simp only [newEventChild_eq hw hserver hevent (FWriteTreeRef.openAt_of_shadowing hshadow), hevent]
      rw [updateEventChild_written k he hnew]

theorem applyServerOverwriteTo_release (hw : Compound ref.writeTree.visibleWrites.writeTree) (hn : cache.Normal)
    (hshows : Shows t s cache) (hsnap : snap.Normal) :
    applyServerOverwriteTo debug cache path snap ref changes =
      applyServerOverwriteTo false cache path snap ref changes := by
  have hs : s.Normal := by
    have hnormal := hn.server
    rwa [hshows.server] at hnormal
  unfold applyServerOverwriteTo
  cases path with
  | nil =>
    have hn' : (cache.updateServerSnap snap true false).Normal := ⟨hn.event, hsnap⟩
    exact generateEventCacheAfterServerEvent_release hw hn' rfl hshows.event
  | cons k p =>
    have hchild := (hn.server.getChild [k]).updateChild hsnap p
    have hrelease : updateChildIn debug cache.cachedServerSnap.node k
        (updateChild snap p (getImmediateChild k cache.cachedServerSnap.node)) p none = _ :=
      updateChildIn_release hn.server hchild fun hsame _ => eq_of_written hn.server hsame
    simp only [hrelease]
    cases hupdate : updateChildIn false cache.cachedServerSnap.node k
        (updateChild snap p (getImmediateChild k cache.cachedServerSnap.node)) p none with
    | error exception => rfl
    | ok result =>
      obtain ⟨server, accumulator⟩ := result
      have hnode := updateChildIn_eq hn.server hsnap hupdate
      have hn' : (cache.updateServerSnap server cache.cachedServerSnap.isFullyInitialized false).Normal :=
        ⟨hn.event, hnode ▸ hn.server.updateChild hsnap (k :: p)⟩
      have hserver' : (cache.updateServerSnap server cache.cachedServerSnap.isFullyInitialized false).cachedServerSnap =
          ⟨server, true, false⟩ := by
        rw [hshows.server]
        rfl
      have hgenerate : generateEventCacheAfterServerEvent debug
          (cache.updateServerSnap server cache.cachedServerSnap.isFullyInitialized false) (k :: p) ref changes = _ :=
        generateEventCacheAfterServerEvent_release hw hn' hserver' hshows.event
      simp only [bind, Except.bind, hgenerate]

theorem revertedEventCache_release (hw : Compound ref.writeTree.visibleWrites.writeTree)
    (hn : cache.Normal) (ht : Compound t) (hshows : Shows t s cache) (hsame : SameBut path t ref.layer) :
    revertedEventCache debug cache path ref changes = revertedEventCache false cache path ref changes := by
  have hs : s.Normal := by
    have hnormal := hn.server
    rwa [hshows.server] at hnormal
  have hlayer := FWriteTreeRef.compound_layer hw
  unfold revertedEventCache
  cases path with
  | nil => rfl
  | cons k p =>
    simp only [hshows.server, hshows.event, calculateCompleteChild_eq hw]
    refine updateEventChild_release (FCompoundWrite.normal_applySubtreeWrite ht hs [])
      ((FCompoundWrite.normal_applySubtreeWrite hlayer hs []).getChild [k]) fun hpath => ?_
    rw [FCompoundWrite.SameBut.written_eq hsame ht hlayer hs hpath]

/-- The answer to an overwrite of the user. -/
theorem answer_release (hw : Compound ref.writeTree.visibleWrites.writeTree) (hn : cache.Normal) (ht : Compound t)
    (hshows : Shows t s cache) (hchanged : ChangedAt path t ref.layer) (revert : Bool)
    {affectedTree : FImmutableTree κ Unit} (hoverwrite : affectedTree.value = some ()) (complete : Option (FNode κ)) :
    process debug cache ref complete (.ackUserWrite path affectedTree revert) =
      process false cache ref complete (.ackUserWrite path affectedTree revert) := by
  cases revert with
  | false =>
    simp only [process]
    unfold ackUserWriteOn
    have hcomplete : (path.isEmpty && cache.cachedServerSnap.isFullyInitialized ||
        cache.cachedServerSnap.isCompleteForPath path) = true := by
      rw [hshows.server]
      cases path <;> rfl
    simp only [hoverwrite, hcomplete, if_true]
    rw [applyServerOverwriteTo_release hw hn hshows (hn.server.getChild path)]
  | true =>
    simp only [process]
    unfold revertUserWriteOn
    cases hshadow : (ref.shadowingWriteAtPath path).isSome with
    | true => simp only [if_true]
    | false =>
      rw [revertedEventCache_release hw hn ht hshows (hchanged.1 (FWriteTreeRef.openAt_of_shadowing hshadow))]

theorem applyUserOverwriteTo_release (hn : cache.Normal) (hshows : Shows t s cache) (hsnap : snap.Normal)
    (complete : Option (FNode κ)) :
    applyUserOverwriteTo debug cache path snap ref complete changes =
      applyUserOverwriteTo false cache path snap ref complete changes := by
  unfold applyUserOverwriteTo
  cases path with
  | nil => rfl
  | cons k p =>
    cases p with
    | nil =>
      have hwritten : updateEventChild debug cache.cachedEventSnap.node k snap [] changes = _ :=
        updateEventChild_release hn.event hsnap fun hsame => hsame
      simp only [List.isEmpty_nil, if_true, hwritten]
    | cons k' p =>
      have hcomplete : completeChild ref cache complete k = some (getImmediateChild k cache.cachedEventSnap.node) := by
        unfold completeChild FCacheNode.isCompleteForChild
        rw [hshows.event]
        rfl
      simp only [hcomplete, List.isEmpty_cons, Bool.false_eq_true, if_false]
      rw [updateEventChild_written k hn.event hsnap]

end

end FViewProcessor

end ShopingList
