import ShopingList.Firebase.Stored
import ShopingList.Firebase.ImmutableTree

/-!
# Layers of writes

An `FCompoundWrite` is a tree of nodes to be written at their paths. A write below
a written path goes into the node written there, a write above it replaces it, so
no written path is below another (`Compound`). `applyToNode` writes the nodes into
a node: what it makes of a child is what the writes below that child make of it
(`getChild_applyToNode`), and one more write in the layer is one more write of the
node, except that a removal leaves a text that stood above it
(`applySubtreeWrite_layer`).
-/

namespace ShopingList

variable {κ : Type} [LinearOrder κ]

namespace FPath

/-- `contains:`. The loop runs over the pieces of the first path. -/
def contains (path other : List κ) : Bool :=
  if path.length > other.length then false else (path.zip other).all fun p => p.1 == p.2

theorem contains_iff {path other : List κ} : contains path other = true ↔ path <+: other := by
  unfold contains
  induction path generalizing other with
  | nil => simp
  | cons k path ih =>
    cases other with
    | nil => simp
    | cons k' other =>
      rw [List.cons_prefix_cons, ← ih]
      by_cases hlen : path.length > other.length
      · simp [hlen]
      · simp [hlen]

end FPath

open FNode

open FImmutableTree hiding node child children

structure FCompoundWrite (κ : Type) where
  writeTree : FImmutableTree κ (FNode κ)

namespace FCompoundWrite

def emptyWrite : FCompoundWrite κ := ⟨ofValue none⟩

/-- The path of `rootMost` contains `path`, so the relative path is the rest of it. -/
def addWrite (node : FNode κ) (path : List κ) (write : FCompoundWrite κ) : FCompoundWrite κ :=
  if path.isEmpty then ⟨ofValue (some node)⟩
  else
    match findRootMostValueAndPath path write.writeTree with
    | some (rootMostPath, rootMostValue) =>
      let relativePath := path.drop rootMostPath.length
      let value := updateChild node relativePath rootMostValue
      ⟨setValue (some value) rootMostPath write.writeTree⟩
    | none => ⟨setTree (ofValue (some node)) path write.writeTree⟩

/-- Further writes, one after the other. -/
def addWrites (writes : List (List κ × FNode κ)) (write : FCompoundWrite κ) : FCompoundWrite κ :=
  writes.foldl (fun newWrite p => newWrite.addWrite p.2 p.1) write

/-- The writes of a layer with the paths they have below `path`. -/
def writesAt (path : List κ) (write : FCompoundWrite κ) : List (List κ × FNode κ) :=
  (forEach write.writeTree).map fun p => (path ++ p.1, p.2)

def addCompoundWrite (write compoundWrite : FCompoundWrite κ) (path : List κ) : FCompoundWrite κ :=
  write.addWrites (compoundWrite.writesAt path)

/-- A write at a higher location stays as it is. -/
def removeWriteAtPath (path : List κ) (write : FCompoundWrite κ) : FCompoundWrite κ :=
  if path.isEmpty then emptyWrite else ⟨setTree empty path write.writeTree⟩

def completeNodeAtPath (path : List κ) (write : FCompoundWrite κ) : Option (FNode κ) :=
  match findRootMostValueAndPath path write.writeTree with
  | some (rootMostPath, rootMostValue) => some (getChild (path.drop rootMostPath.length) rootMostValue)
  | none => none

def hasCompleteWriteAtPath (path : List κ) (write : FCompoundWrite κ) : Bool :=
  (write.completeNodeAtPath path).isSome

/-- The children with their keys that the layer writes as a whole. -/
def completeChildren (write : FCompoundWrite κ) : List (κ × FNode κ) :=
  match write.writeTree.value with
  | some (.children kids) => kids
  | some (.leaf _) => []
  | none => write.writeTree.children.filterMap fun p => p.2.value.map fun node => (p.1, node)

def childCompoundWriteAtPath (path : List κ) (write : FCompoundWrite κ) : FCompoundWrite κ :=
  if path.isEmpty then write
  else
    match write.completeNodeAtPath path with
    | some shadowingNode => ⟨ofValue (some shadowingNode)⟩
    | none => ⟨subtreeAtPath path write.writeTree⟩

mutual

/-- There is a write only at a leaf of the tree. -/
def applySubtreeWrite : FImmutableTree κ (FNode κ) → List κ → FNode κ → FNode κ
  | .node (some value) _, relativePath, node => updateChild value relativePath node
  | .node none childTrees, relativePath, node => applyChildWrites childTrees relativePath node

/-- The writes of the children, in the order of their keys. -/
def applyChildWrites : List (κ × FImmutableTree κ (FNode κ)) → List κ → FNode κ → FNode κ
  | [], _, node => node
  | (childKey, childTree) :: childTrees, relativePath, node =>
    applyChildWrites childTrees relativePath
      (applySubtreeWrite childTree (relativePath ++ [childKey]) node)

end

def applyToNode (node : FNode κ) (write : FCompoundWrite κ) : FNode κ :=
  applySubtreeWrite write.writeTree [] node

def isEmpty (write : FCompoundWrite κ) : Bool := write.writeTree.isEmpty

end FCompoundWrite

/-! ## The trees of layers -/

namespace FImmutableTree

/-- A written node has no tree below it, and no node of the tree is empty. -/
inductive Compound : FImmutableTree κ (FNode κ) → Prop where
  | write {value : FNode κ} (normal : FNode.Normal value) : Compound (ofValue (some value))
  | node {children : List (κ × FImmutableTree κ (FNode κ))} (sorted : SortedDict.Sorted children)
      (nonempty : ∀ p ∈ children, p.2.isEmpty = false) (below : ∀ p ∈ children, Compound p.2) :
      Compound (node none children)

section
variable {t c : FImmutableTree κ (FNode κ)}

theorem compound_empty : Compound (empty : FImmutableTree κ (FNode κ)) := .node SortedDict.sorted_nil (by simp)
    (by simp)

theorem Compound.canonical (h : Compound t) : Canonical t := by
  induction h with
  | write _ => exact canonical_ofValue _
  | node hsorted hne _ ih => exact .node hsorted hne ih

theorem Compound.child (h : Compound t) (k : κ) : Compound (child k t) := by
  cases h with
  | write _ => exact compound_empty
  | node hsorted hne hbelow =>
    unfold FImmutableTree.child
    rw [children_node]
    cases hget : SortedDict.get k _ with
    | none => exact compound_empty
    | some c => exact hbelow _ (SortedDict.mem_of_get hget)

theorem Compound.setChild (h : Compound t) (hv : t.value = none) (hc : Compound c) (k : κ) :
    Compound (setChild k c t) := by
  cases h with
  | write _ => cases hv
  | node hsorted hne hbelow =>
    have hcanonical := (Compound.node hsorted hne hbelow).canonical.setChild hc.canonical k
    unfold FImmutableTree.setChild at hcanonical ⊢
    rw [children_node] at hcanonical ⊢
    obtain ⟨hsorted', hne', -⟩ := hcanonical
    refine .node hsorted' hne' fun p hp => ?_
    split at hp
    · exact hbelow p (List.mem_filter.1 hp).1
    · rcases SortedDict.mem_set hp with rfl | hp
      · exact hc
      · exact hbelow p hp

/-- No value at the path or above it. -/
def OpenAt (p : List κ) (t : FImmutableTree κ (FNode κ)) : Prop := ∀ q, q <+: p → valueAtPath q t = none

theorem openAt_nil (h : t.value = none) : OpenAt [] t := by
  intro q hq
  rw [List.prefix_nil.1 hq, valueAtPath_nil, h]

theorem OpenAt.cons {k : κ} {p : List κ} (h : OpenAt p (FImmutableTree.child k t))
    (hv : t.value = none) : OpenAt (k :: p) t := by
  intro q hq
  cases q with
  | nil => rw [valueAtPath_nil, hv]
  | cons k' q =>
    obtain ⟨rfl, hq'⟩ := List.cons_prefix_cons.1 hq
    rw [valueAtPath_cons]
    exact h q hq'

theorem Compound.of_value (h : Compound t) {v : FNode κ} (hv : t.value = some v) :
    t = ofValue (some v) ∧ FNode.Normal v := by
  cases h with
  | write hn =>
    cases hv
    exact ⟨rfl, hn⟩
  | node => cases hv

/-- What a write at a path makes of the tree, one step at a time. -/
def layer (new : FNode κ) : List κ → FImmutableTree κ (FNode κ) → FImmutableTree κ (FNode κ)
  | [], _ => ofValue (some new)
  | k :: p, t =>
    match t.value with
    | some v => ofValue (some (updateChild new (k :: p) v))
    | none => setChild k (layer new p (child k t)) t

theorem layer_of_value {new v : FNode κ} (k : κ) (p : List κ) (h : t.value = some v) :
    layer new (k :: p) t = ofValue (some (updateChild new (k :: p) v)) := by
  rw [layer, h]

theorem layer_cons {new : FNode κ} (k : κ) (p : List κ) (h : t.value = none) :
    layer new (k :: p) t = setChild k (layer new p (child k t)) t := by
  rw [layer, h]

theorem Compound.layer {new : FNode κ} (h : Compound t) (hnew : FNode.Normal new) (p : List κ) :
    Compound (layer new p t) := by
  induction p generalizing t with
  | nil => exact .write hnew
  | cons k p ih =>
    cases hv : t.value with
    | some v =>
      rw [layer_of_value k p hv]
      exact .write ((h.of_value hv).2.updateChild hnew _)
    | none =>
      rw [layer_cons k p hv]
      exact h.setChild hv (ih (h.child k)) k

end

end FImmutableTree

namespace FCompoundWrite

/-- **`addWrite:atPath:` in single steps.** -/
theorem writeTree_addWrite (new : FNode κ) (p : List κ) {w : FCompoundWrite κ} (h : Compound w.writeTree) :
    (w.addWrite new p).writeTree = layer new p w.writeTree := by
  obtain ⟨t⟩ := w
  induction p generalizing t with
  | nil => rfl
  | cons k p ih =>
    unfold addWrite
    rw [List.isEmpty_cons, if_neg Bool.false_ne_true]
    simp only at h ⊢
    cases hv : t.value with
    | some v =>
      obtain ⟨rfl, -⟩ := h.of_value hv
      rw [findRootMost_of_value _ _ hv, layer_of_value k p hv]
      rfl
    | none =>
      rw [findRootMost_cons k p t hv, layer_cons k p hv]
      have hchild := h.child k
      have hstep := ih (FImmutableTree.child k t) hchild
      unfold addWrite at hstep
      cases p with
      | nil =>
        cases hvc : (FImmutableTree.child k t).value with
        | none =>
          rw [findRootMost_nil _ hvc, Option.map_none]
          simp only [setTree_cons, setTree_nil, layer]
        | some v =>
          obtain ⟨hof, -⟩ := hchild.of_value hvc
          rw [findRootMost_of_value _ _ hvc, Option.map_some]
          simp only [setValue_cons, setValue_nil, layer]
          rw [hof]
          simp [ofValue]
      | cons k' p =>
        rw [List.isEmpty_cons, if_neg Bool.false_ne_true] at hstep
        simp only at hstep
        cases hfind : findRootMostValueAndPath (k' :: p) (FImmutableTree.child k t) with
        | none =>
          rw [hfind] at hstep
          rw [Option.map_none, ← hstep]
          exact setTree_cons ..
        | some q =>
          rw [hfind] at hstep
          rw [Option.map_some, ← hstep]
          simp only [List.length_cons, List.drop_succ_cons]
          exact setValue_cons ..

/-! ## Reading through a layer -/

/-- What a layer holds for a path, one step at a time: the rest of a node written
above, or the writes below. -/
def below : List κ → FImmutableTree κ (FNode κ) → FImmutableTree κ (FNode κ)
  | [], t => t
  | k :: p, t =>
    match t.value with
    | some v => ofValue (some (getChild (k :: p) v))
    | none => below p (FImmutableTree.child k t)

section
variable {t : FImmutableTree κ (FNode κ)} {w : FCompoundWrite κ} {k : κ} {p : List κ}

theorem below_of_value {v : FNode κ} (h : t.value = some v) :
    below (k :: p) t = ofValue (some (getChild (k :: p) v)) := by
  rw [below, h]

theorem below_cons (h : t.value = none) : below (k :: p) t = below p (FImmutableTree.child k t) := by
  rw [below, h]

theorem compound_below (h : Compound t) (p : List κ) : Compound (below p t) := by
  induction p generalizing t with
  | nil => exact h
  | cons k p ih =>
    cases hv : t.value with
    | some v =>
      rw [below_of_value hv]
      exact .write ((h.of_value hv).2.getChild _)
    | none =>
      rw [below_cons hv]
      exact ih (h.child k)

/-- A complete write is what the layer holds for the path as a whole. -/
theorem completeNodeAtPath_eq : w.completeNodeAtPath p = (below p w.writeTree).value := by
  obtain ⟨t⟩ := w
  unfold completeNodeAtPath
  simp only
  induction p generalizing t with
  | nil =>
    cases hv : t.value with
    | some v =>
      rw [findRootMost_of_value _ _ hv, below, hv]
      rfl
    | none => rw [findRootMost_nil _ hv, below, hv]
  | cons k p ih =>
    cases hv : t.value with
    | some v =>
      rw [findRootMost_of_value _ _ hv, below_of_value hv]
      rfl
    | none =>
      rw [findRootMost_cons _ _ _ hv, below_cons hv, ← ih]
      cases findRootMostValueAndPath p (FImmutableTree.child k t) with
      | none => rfl
      | some q => rfl

theorem subtreeAtPath_of_below (h : (below p t).value = none) : subtreeAtPath p t = below p t := by
  induction p generalizing t with
  | nil => rw [subtreeAtPath_nil, below]
  | cons k p ih =>
    cases hv : t.value with
    | some v =>
      rw [below_of_value hv] at h
      cases h
    | none =>
      rw [below_cons hv] at h ⊢
      rw [subtreeAtPath_cons, ih h]

theorem writeTree_childCompoundWriteAtPath (h : Compound w.writeTree) :
    (w.childCompoundWriteAtPath p).writeTree = below p w.writeTree := by
  unfold childCompoundWriteAtPath
  cases p with
  | nil => rfl
  | cons k p =>
    rw [List.isEmpty_cons, if_neg Bool.false_ne_true, completeNodeAtPath_eq]
    cases hv : (below (k :: p) w.writeTree).value with
    | some v => exact ((compound_below h _).of_value hv).1.symm
    | none => exact subtreeAtPath_of_below hv

end

/-! ## The written node -/

/-- What holds of a node and is kept by the writes of every child holds in the end. -/
theorem applyChildWrites_induct {motive : FNode κ → Prop} {cs : List (κ × FImmutableTree κ (FNode κ))}
    {p : List κ} {n : FNode κ} (hn : motive n)
    (hstep : ∀ e ∈ cs, ∀ m, motive m → motive (applySubtreeWrite e.2 (p ++ [e.1]) m)) :
    motive (applyChildWrites cs p n) := by
  induction cs generalizing n with
  | nil => exact hn
  | cons e cs ih =>
    rw [applyChildWrites]
    apply ih (hstep e List.mem_cons_self n hn)
    exact fun e' he' => hstep e' (List.mem_cons_of_mem e he')

section
variable {t : FImmutableTree κ (FNode κ)} {n : FNode κ}

theorem normal_applySubtreeWrite (h : Compound t) (hn : n.Normal) (p : List κ) :
    (applySubtreeWrite t p n).Normal := by
  induction h generalizing n p with
  | write hv => exact hn.updateChild hv p
  | node _ _ _ ih =>
    rw [applySubtreeWrite]
    exact applyChildWrites_induct hn fun e he m hm => ih e he hm _

/-- Writes below a node with children leave it one. -/
theorem leafValue_applySubtreeWrite (h : Compound t) (hn : n.leafValue = none) {p : List κ}
    (hp : p ≠ []) : (applySubtreeWrite t p n).leafValue = none := by
  induction h generalizing n p with
  | @write v _ =>
    cases p with
    | nil => exact absurd rfl hp
    | cons k p =>
      rw [ofValue, applySubtreeWrite, leafValue_updateChild_cons]
      split
      · exact hn
      · rfl
  | node _ _ _ ih =>
    rw [applySubtreeWrite]
    exact applyChildWrites_induct (motive := fun m => m.leafValue = none) hn
      fun e he m hm => ih e he hm (List.append_ne_nil_of_right_ne_nil p (List.cons_ne_nil _ _))

/-- So do the writes below a node with children where the root is not written. -/
theorem leafValue_applySubtreeWrite_nil (h : Compound t) (hv : t.value = none) (hn : n.leafValue = none) :
    (applySubtreeWrite t [] n).leafValue = none := by
  cases h with
  | write _ => cases hv
  | node _ _ hbelow =>
    rw [applySubtreeWrite]
    exact applyChildWrites_induct (motive := fun m => m.leafValue = none) hn
      fun e he m hm => leafValue_applySubtreeWrite (hbelow e he) hm (List.cons_ne_nil _ _)

mutual

/-- The writes below a key are the writes into the child. -/
theorem getImmediateChild_applySubtreeWrite (k : κ) (p : List κ) :
    ∀ (t : FImmutableTree κ (FNode κ)) (n : FNode κ), getImmediateChild k (applySubtreeWrite t (k :: p) n) =
      applySubtreeWrite t p (getImmediateChild k n)
  | .node (some v) _, n => getImmediateChild_updateChild v k p n
  | .node none childTrees, n => getImmediateChild_applyChildWrites k p childTrees n

theorem getImmediateChild_applyChildWrites (k : κ) (p : List κ) :
    ∀ (childTrees : List (κ × FImmutableTree κ (FNode κ))) (n : FNode κ),
      getImmediateChild k (applyChildWrites childTrees (k :: p) n) =
        applyChildWrites childTrees p (getImmediateChild k n)
  | [], _ => rfl
  | (childKey, childTree) :: childTrees, n => by
    rw [applyChildWrites, applyChildWrites, getImmediateChild_applyChildWrites k p childTrees,
      List.cons_append, getImmediateChild_applySubtreeWrite k (p ++ [childKey]) childTree n]

end

mutual

/-- They leave the other children alone. -/
theorem getImmediateChild_applySubtreeWrite_ne {k k' : κ} (hk : k' ≠ k) (p : List κ) :
    ∀ (t : FImmutableTree κ (FNode κ)) (n : FNode κ),
      getImmediateChild k' (applySubtreeWrite t (k :: p) n) = getImmediateChild k' n
  | .node (some v) _, n => getImmediateChild_updateChild_ne hk v p n
  | .node none childTrees, n => getImmediateChild_applyChildWrites_ne hk p childTrees n

theorem getImmediateChild_applyChildWrites_ne {k k' : κ} (hk : k' ≠ k) (p : List κ) :
    ∀ (childTrees : List (κ × FImmutableTree κ (FNode κ))) (n : FNode κ),
      getImmediateChild k' (applyChildWrites childTrees (k :: p) n) = getImmediateChild k' n
  | [], _ => rfl
  | (childKey, childTree) :: childTrees, n => by
    rw [applyChildWrites, getImmediateChild_applyChildWrites_ne hk p childTrees, List.cons_append,
      getImmediateChild_applySubtreeWrite_ne hk (p ++ [childKey]) childTree n]

end

theorem applySubtreeWrite_of_value {v : FNode κ} (h : t.value = some v) :
    applySubtreeWrite t [] n = v := by
  obtain ⟨x, cs⟩ := t
  rw [value_node] at h
  subst h
  exact updateChild_nil v n

theorem getImmediateChild_applyChildWrites_nil {cs : List (κ × FImmutableTree κ (FNode κ))}
    (h : SortedDict.Sorted cs) (k : κ) :
    getImmediateChild k (applyChildWrites cs [] n) =
      applySubtreeWrite ((SortedDict.get k cs).getD empty) [] (getImmediateChild k n) := by
  induction cs generalizing n with
  | nil => rfl
  | cons e cs ih =>
    obtain ⟨hlt, h⟩ := SortedDict.sorted_cons.1 h
    rw [applyChildWrites, ih h, List.nil_append, SortedDict.get]
    by_cases hk : k = e.1
    · have hnone : SortedDict.get k cs = none := SortedDict.get_of_below fun q hq => hk ▸ hlt q hq
      rw [if_pos hk, hnone, ← hk, getImmediateChild_applySubtreeWrite]
      rfl
    · rw [if_neg hk, getImmediateChild_applySubtreeWrite_ne hk]

/-- A child of the written node is the child with the writes below its key. -/
theorem getImmediateChild_applySubtreeWrite_nil (h : Canonical t) (hv : t.value = none) (k : κ) :
    getImmediateChild k (applySubtreeWrite t [] n) =
      applySubtreeWrite (FImmutableTree.child k t) [] (getImmediateChild k n) := by
  cases h with
  | node hsorted _ _ =>
    rw [value_node] at hv
    subst hv
    exact getImmediateChild_applyChildWrites_nil hsorted k

/-- **A path in the written node is the path with the writes below it.** -/
theorem getChild_applySubtreeWrite (h : Compound t) (p : List κ) :
    getChild p (applySubtreeWrite t [] n) = applySubtreeWrite (below p t) [] (getChild p n) := by
  induction p generalizing t n with
  | nil => rfl
  | cons k p ih =>
    cases hv : t.value with
    | some v =>
      rw [applySubtreeWrite_of_value hv, below_of_value hv]
      exact (applySubtreeWrite_of_value rfl).symm
    | none =>
      rw [below_cons hv, getChild, getImmediateChild_applySubtreeWrite_nil h.canonical hv, ih (h.child k)]
      rfl

end

theorem getChild_applyToNode {w : FCompoundWrite κ} (h : Compound w.writeTree) (p : List κ) (n : FNode κ) :
    getChild p (w.applyToNode n) = (w.childCompoundWriteAtPath p).applyToNode (getChild p n) := by
  unfold applyToNode
  rw [writeTree_childCompoundWriteAtPath h, getChild_applySubtreeWrite h]

/-! ## A layer and its writes -/

end FCompoundWrite

namespace FNode

/-- The writes, one after the other. -/
def writeAll (writes : List (List κ × FNode κ)) (n : FNode κ) : FNode κ :=
  writes.foldl (fun n p => updateChild p.2 p.1 n) n

theorem Normal.ext_child {a b : FNode κ} (ha : Normal a) (hb : Normal b) (hv : leafValue a = leafValue b)
    (hc : ∀ k, FNode.getImmediateChild k a = FNode.getImmediateChild k b) : a = b := by
  refine ha.ext hb fun path => ?_
  cases path with
  | nil => exact hv
  | cons k path =>
    unfold leafAt
    rw [FNode.getChild, FNode.getChild, hc]

end FNode

namespace FCompoundWrite

section
variable {t : FImmutableTree κ (FNode κ)} {n new : FNode κ}

/-- One more write in the layer is one more write of the node. A removal must not go through
a text that no value of the layer replaces. -/
theorem applySubtreeWrite_layer {p : List κ} (ht : Compound t) (hn : n.Normal) (hnew : new.Normal)
    (habove : new.isEmpty = true → ∀ q, q <+: p → q ≠ p → OpenAt q t → leafValue (getChild q n) = none) :
    applySubtreeWrite (layer new p t) [] n = updateChild new p (applySubtreeWrite t [] n) := by
  induction p generalizing t n with
  | nil => rw [layer, updateChild_nil, applySubtreeWrite_of_value rfl]
  | cons k p ih =>
    cases hv : t.value with
    | some v =>
      rw [layer_of_value k p hv, applySubtreeWrite_of_value hv]
      exact applySubtreeWrite_of_value rfl
    | none =>
      have hlayer : Compound (layer new (k :: p) t) := ht.layer hnew _
      have hwritten : (applySubtreeWrite t [] n).Normal := normal_applySubtreeWrite ht hn []
      have hchild := ih (ht.child k) (hn.getChild [k]) fun he q hq hne hopen =>
        habove he (k :: q) (List.cons_prefix_cons.2 ⟨rfl, hq⟩) (fun hk => hne (List.cons.inj hk).2)
          (hopen.cons hv)
      have hvalue : (layer new (k :: p) t).value = none := by
        rw [layer_cons k p hv, value_setChild, hv]
      have hbelow : getImmediateChild k (applySubtreeWrite (layer new (k :: p) t) [] n) =
          updateChild new p (getImmediateChild k (applySubtreeWrite t [] n)) := by
        rw [getImmediateChild_applySubtreeWrite_nil hlayer.canonical hvalue, layer_cons k p hv,
          child_setChild, if_pos rfl, getImmediateChild_applySubtreeWrite_nil ht.canonical hv]
        exact hchild
      refine (normal_applySubtreeWrite hlayer hn []).ext_child (hwritten.updateChild hnew _) ?_ fun k' => ?_
      · rw [leafValue_updateChild_cons]
        split
        · -- a removal: the node has children, before and after
          rename_i he
          have hroot : leafValue n = none :=
            habove he [] List.nil_prefix (List.cons_ne_nil k p).symm (openAt_nil hv)
          rw [leafValue_applySubtreeWrite_nil hlayer hvalue hroot, leafValue_applySubtreeWrite_nil ht hv hroot]
        · rename_i he
          rw [Bool.not_eq_true] at he
          cases hleaf : applySubtreeWrite (layer new (k :: p) t) [] n with
          | children kids => rfl
          | leaf v =>
            rw [hleaf] at hbelow
            have hfull := isEmpty_updateChild he p (getImmediateChild k (applySubtreeWrite t [] n))
            rw [← hbelow] at hfull
            cases hfull
      · by_cases hk : k' = k
        · subst hk
          rw [hbelow, getImmediateChild_updateChild]
        · rw [getImmediateChild_updateChild_ne hk,
            getImmediateChild_applySubtreeWrite_nil hlayer.canonical hvalue, layer_cons k p hv,
            child_setChild, if_neg hk, getImmediateChild_applySubtreeWrite_nil ht.canonical hv]

end

end FCompoundWrite

end ShopingList
