import ShopingList.Lib.SortedDict
import Mathlib.Data.String.Basic

/-!
# Trees of values

An `FImmutableTree` holds values at paths. The children of a node are an immutable
sorted dictionary, here the sorted list of its entries; the keys are in the linear order
that the comparator is on keys that it tells apart. `child` and `setChild` are the
one step down and back that the methods repeat along a path; a tree without empty
subtrees (`Canonical`) is known by its value and its children (`Canonical.ext`).
-/

namespace ShopingList

inductive FImmutableTree (κ ν : Type) where
  | node (value : Option ν) (children : List (κ × FImmutableTree κ ν))

namespace FImmutableTree

variable {κ ν : Type}

def value : FImmutableTree κ ν → Option ν
  | node value _ => value

def children : FImmutableTree κ ν → List (κ × FImmutableTree κ ν)
  | node _ children => children

/-- `initWithValue:`. -/
def ofValue (aValue : Option ν) : FImmutableTree κ ν := node aValue []

def empty : FImmutableTree κ ν := ofValue none

def isEmpty (tree : FImmutableTree κ ν) : Bool := tree.value.isNone && tree.children.isEmpty

section
variable [LinearOrder κ]

/-- The first node on the path whose value fits, with the path to it. -/
def findRootMostMatchingPath (predicate : ν → Bool) :
    List κ → FImmutableTree κ ν → Option (List κ × ν)
  | [], node value _ => (value.filter predicate).map fun v => ([], v)
  | front :: path, node value children =>
    match value.filter predicate with
    | some v => some ([], v)
    | none =>
      match SortedDict.get front children with
      | some child => (findRootMostMatchingPath predicate path child).map fun p => (front :: p.1, p.2)
      | none => none

def findRootMostValueAndPath (relativePath : List κ) (tree : FImmutableTree κ ν) :
    Option (List κ × ν) :=
  findRootMostMatchingPath (fun _ => true) relativePath tree

def subtreeAtPath : List κ → FImmutableTree κ ν → FImmutableTree κ ν
  | [], tree => tree
  | front :: path, node _ children =>
    match SortedDict.get front children with
    | some childTree => subtreeAtPath path childTree
    | none => empty

def setValue (newValue : Option ν) : List κ → FImmutableTree κ ν → FImmutableTree κ ν
  | [], node _ children => node newValue children
  | front :: path, node value children =>
    let child := (SortedDict.get front children).getD empty
    node value (SortedDict.set front (setValue newValue path child) children)

def removeValueAtPath : List κ → FImmutableTree κ ν → FImmutableTree κ ν
  | [], node _ children => if children.isEmpty then empty else node none children
  | front :: path, node value children =>
    match SortedDict.get front children with
    | none => node value children
    | some child =>
      let newChild := removeValueAtPath path child
      let newChildren :=
        if newChild.isEmpty then SortedDict.remove front children
        else SortedDict.set front newChild children
      if value.isNone && newChildren.isEmpty then empty else node value newChildren

def valueAtPath : List κ → FImmutableTree κ ν → Option ν
  | [], node value _ => value
  | front :: path, node _ children =>
    match SortedDict.get front children with
    | some child => valueAtPath path child
    | none => none

def setTree (newTree : FImmutableTree κ ν) : List κ → FImmutableTree κ ν → FImmutableTree κ ν
  | [], _ => newTree
  | front :: path, node value children =>
    let child := (SortedDict.get front children).getD empty
    let newChild := setTree newTree path child
    node value (if newChild.isEmpty then SortedDict.remove front children
      else SortedDict.set front newChild children)

end

mutual

/-- The values with their paths, in the order of the calls of the block: a node
comes after the nodes below it. -/
def forEachPathSoFar (pathSoFar : List κ) : FImmutableTree κ ν → List (List κ × ν)
  | node value children =>
    forEachChildPathSoFar pathSoFar children ++ (value.map fun v => (pathSoFar, v)).toList

def forEachChildPathSoFar (pathSoFar : List κ) :
    List (κ × FImmutableTree κ ν) → List (List κ × ν)
  | [] => []
  | (childKey, childTree) :: children =>
    forEachPathSoFar (pathSoFar ++ [childKey]) childTree ++ forEachChildPathSoFar pathSoFar children

end

def forEach (tree : FImmutableTree κ ν) : List (List κ × ν) := forEachPathSoFar [] tree

/-! ## One step down -/

@[simp] theorem value_node (v : Option ν) (cs : List (κ × FImmutableTree κ ν)) :
    (node v cs).value = v := rfl

@[simp] theorem children_node (v : Option ν) (cs : List (κ × FImmutableTree κ ν)) :
    (node v cs).children = cs := rfl

@[simp] theorem value_empty : (empty : FImmutableTree κ ν).value = none := rfl

@[simp] theorem isEmpty_empty : (empty : FImmutableTree κ ν).isEmpty = true := rfl

variable [LinearOrder κ]

/-- The child at a key, `empty` when there is none. -/
def child (key : κ) (tree : FImmutableTree κ ν) : FImmutableTree κ ν :=
  (SortedDict.get key tree.children).getD empty

/-- The tree with another child at a key. -/
def setChild (key : κ) (newChild : FImmutableTree κ ν) (tree : FImmutableTree κ ν) : FImmutableTree κ ν :=
  node tree.value (if newChild.isEmpty then SortedDict.remove key tree.children
    else SortedDict.set key newChild tree.children)

@[simp] theorem child_empty (k : κ) : child k (empty : FImmutableTree κ ν) = empty := rfl

@[simp] theorem child_ofValue (k : κ) (v : Option ν) : child k (ofValue v) = empty := rfl

@[simp] theorem value_setChild (k : κ) (c t : FImmutableTree κ ν) :
    (setChild k c t).value = t.value := rfl

omit [LinearOrder κ] in
theorem eq_empty {t : FImmutableTree κ ν} (h : t.isEmpty = true) : t = empty := by
  obtain ⟨v, cs⟩ := t
  unfold isEmpty at h
  rw [Bool.and_eq_true, value_node, children_node, Option.isNone_iff_eq_none, List.isEmpty_iff] at h
  obtain ⟨rfl, rfl⟩ := h
  rfl

@[simp] theorem child_setChild (k k' : κ) (c t : FImmutableTree κ ν) :
    child k' (setChild k c t) = if k' = k then c else child k' t := by
  unfold child setChild
  rw [children_node]
  by_cases hc : c.isEmpty = true
  · rw [if_pos hc, SortedDict.get_remove, eq_empty hc]
    split <;> rfl
  · rw [if_neg hc, SortedDict.get_set]
    split <;> rfl

/-! ## The methods in single steps -/

section
variable (k : κ) (p : List κ) (t s : FImmutableTree κ ν)

@[simp] theorem valueAtPath_nil : valueAtPath [] t = t.value := by
  cases t
  rfl

theorem valueAtPath_empty : valueAtPath p (empty : FImmutableTree κ ν) = none := by
  cases p <;> rfl

@[simp] theorem valueAtPath_cons : valueAtPath (k :: p) t = valueAtPath p (child k t) := by
  obtain ⟨v, cs⟩ := t
  rw [valueAtPath, child, children_node]
  cases SortedDict.get k cs with
  | some c => rfl
  | none => exact (valueAtPath_empty p).symm

@[simp] theorem subtreeAtPath_nil : subtreeAtPath [] t = t := by
  cases t
  rfl

theorem subtreeAtPath_empty : subtreeAtPath p (empty : FImmutableTree κ ν) = empty := by
  cases p <;> rfl

@[simp] theorem subtreeAtPath_cons : subtreeAtPath (k :: p) t = subtreeAtPath p (child k t) := by
  obtain ⟨v, cs⟩ := t
  rw [subtreeAtPath, child, children_node]
  cases SortedDict.get k cs with
  | some c => rfl
  | none => exact (subtreeAtPath_empty p).symm

@[simp] theorem setTree_nil : setTree s [] t = s := by
  cases t
  rfl

@[simp] theorem setTree_cons : setTree s (k :: p) t = setChild k (setTree s p (child k t)) t := by
  cases t
  rfl

@[simp] theorem setValue_nil (v : Option ν) : setValue v [] t = node v t.children := by
  cases t
  rfl

theorem isEmpty_setValue (v : ν) : (setValue (some v) p t).isEmpty = false := by
  induction p generalizing t with
  | nil =>
    cases t
    rfl
  | cons k p ih =>
    obtain ⟨w, cs⟩ := t
    rw [setValue, isEmpty, Bool.and_eq_false_iff]
    right
    rw [children_node, List.isEmpty_eq_false_iff]
    intro h
    have hget := SortedDict.get_set k k (setValue (some v) p ((SortedDict.get k cs).getD empty)) cs
    rw [h, if_pos rfl] at hget
    cases hget

theorem setValue_cons (v : ν) :
    setValue (some v) (k :: p) t = setChild k (setValue (some v) p (child k t)) t := by
  obtain ⟨w, cs⟩ := t
  rw [setValue, setChild, isEmpty_setValue]
  rfl

theorem findRootMost_of_value {v : ν} (h : t.value = some v) :
    findRootMostValueAndPath p t = some ([], v) := by
  obtain ⟨w, cs⟩ := t
  rw [value_node] at h
  subst h
  cases p <;> rfl

theorem findRootMost_empty : findRootMostValueAndPath p (empty : FImmutableTree κ ν) = none := by
  cases p <;> rfl

theorem findRootMost_nil (h : t.value = none) : findRootMostValueAndPath [] t = none := by
  obtain ⟨w, cs⟩ := t
  rw [value_node] at h
  subst h
  rfl

theorem findRootMost_cons (h : t.value = none) :
    findRootMostValueAndPath (k :: p) t =
      (findRootMostValueAndPath p (child k t)).map fun q => (k :: q.1, q.2) := by
  obtain ⟨w, cs⟩ := t
  rw [value_node] at h
  subst h
  unfold findRootMostValueAndPath child
  rw [findRootMostMatchingPath, children_node]
  cases hget : SortedDict.get k cs with
  | some c => rfl
  | none =>
    rw [Option.getD_none]
    exact (congrArg (Option.map _) (findRootMost_empty p)).symm

/-- The value found is at a prefix of the path, and no shorter prefix has one. -/
theorem findRootMost_eq_some {q : List κ} {v : ν}
    (h : findRootMostValueAndPath p t = some (q, v)) :
    q <+: p ∧ valueAtPath q t = some v ∧ ∀ r, r <+: q → r ≠ q → valueAtPath r t = none := by
  induction p generalizing t q with
  | nil =>
    cases hv : t.value with
    | none =>
      rw [findRootMost_nil t hv] at h
      cases h
    | some w =>
      rw [findRootMost_of_value [] t hv] at h
      cases h
      refine ⟨List.nil_prefix, by rw [valueAtPath_nil, hv], fun r hr hne => absurd (List.prefix_nil.1 hr) hne⟩
  | cons k p ih =>
    cases hv : t.value with
    | some w =>
      rw [findRootMost_of_value _ t hv] at h
      cases h
      refine ⟨List.nil_prefix, by rw [valueAtPath_nil, hv], fun r hr hne => absurd (List.prefix_nil.1 hr) hne⟩
    | none =>
      rw [findRootMost_cons k p t hv] at h
      obtain ⟨⟨q', v'⟩, hq, he⟩ := Option.map_eq_some_iff.1 h
      cases he
      obtain ⟨hpre, hval, habove⟩ := ih _ hq
      refine ⟨List.cons_prefix_cons.2 ⟨rfl, hpre⟩, by rw [valueAtPath_cons, hval], ?_⟩
      intro r hr hne
      cases r with
      | nil => rw [valueAtPath_nil, hv]
      | cons k' r =>
        obtain ⟨rfl, hr'⟩ := List.cons_prefix_cons.1 hr
        rw [valueAtPath_cons]
        exact habove r hr' fun he => hne (by rw [he])

theorem findRootMost_eq_none (h : findRootMostValueAndPath p t = none) {q : List κ} (hq : q <+: p) :
    valueAtPath q t = none := by
  induction p generalizing t q with
  | nil =>
    cases hv : t.value with
    | some w =>
      rw [findRootMost_of_value [] t hv] at h
      cases h
    | none => rw [List.prefix_nil.1 hq, valueAtPath_nil, hv]
  | cons k p ih =>
    cases hv : t.value with
    | some w =>
      rw [findRootMost_of_value _ t hv] at h
      cases h
    | none =>
      rw [findRootMost_cons k p t hv, Option.map_eq_none_iff] at h
      cases q with
      | nil => rw [valueAtPath_nil, hv]
      | cons k' q =>
        obtain ⟨rfl, hq'⟩ := List.cons_prefix_cons.1 hq
        rw [valueAtPath_cons]
        exact ih _ h hq'

end

/-! ## Trees without empty subtrees -/

/-- The children are sorted, and none of them is empty, at every node. -/
inductive Canonical : FImmutableTree κ ν → Prop where
  | node {value : Option ν} {children : List (κ × FImmutableTree κ ν)}
      (sorted : SortedDict.Sorted children) (nonempty : ∀ p ∈ children, p.2.isEmpty = false)
      (below : ∀ p ∈ children, Canonical p.2) : Canonical (node value children)

section
variable {t s c : FImmutableTree κ ν}

theorem canonical_ofValue (v : Option ν) : Canonical (ofValue v : FImmutableTree κ ν) :=
  .node SortedDict.sorted_nil (by simp) (by simp)

theorem canonical_empty : Canonical (empty : FImmutableTree κ ν) := canonical_ofValue none

theorem Canonical.child (h : Canonical t) (k : κ) : Canonical (child k t) := by
  obtain ⟨-, -, hbelow⟩ := h
  unfold FImmutableTree.child
  rw [children_node]
  cases hget : SortedDict.get k _ with
  | none => exact canonical_empty
  | some c => exact hbelow _ (SortedDict.mem_of_get hget)

theorem Canonical.setChild (h : Canonical t) (hc : Canonical c) (k : κ) : Canonical (setChild k c t) := by
  obtain ⟨hsorted, hne, hbelow⟩ := h
  unfold FImmutableTree.setChild
  rw [children_node]
  by_cases he : c.isEmpty = true
  · rw [if_pos he]
    exact .node (SortedDict.sorted_remove hsorted) (fun p hp => hne p (List.mem_filter.1 hp).1)
      fun p hp => hbelow p (List.mem_filter.1 hp).1
  · rw [if_neg he]
    rw [Bool.not_eq_true] at he
    refine .node (SortedDict.sorted_set hsorted) (fun p hp => ?_) fun p hp => ?_
    · rcases SortedDict.mem_set hp with rfl | hp
      · exact he
      · exact hne p hp
    · rcases SortedDict.mem_set hp with rfl | hp
      · exact hc
      · exact hbelow p hp

theorem Canonical.get_eq (h : Canonical t) (k : κ) : SortedDict.get k t.children =
    if (FImmutableTree.child k t).isEmpty then none else some (FImmutableTree.child k t) := by
  obtain ⟨-, hne, -⟩ := h
  unfold FImmutableTree.child
  rw [children_node]
  cases hget : SortedDict.get k _ with
  | none => rfl
  | some c =>
    rw [Option.getD_some, hne _ (SortedDict.mem_of_get hget)]
    rfl

/-- A tree is known by its value and its children. -/
theorem Canonical.ext (ht : Canonical t) (hs : Canonical s) (hv : t.value = s.value)
    (hc : ∀ k, FImmutableTree.child k t = FImmutableTree.child k s) : t = s := by
  have hget : ∀ k, SortedDict.get k t.children = SortedDict.get k s.children := fun k => by
    rw [ht.get_eq, hs.get_eq, hc]
  obtain ⟨ht, -, -⟩ := ht
  obtain ⟨hs, -, -⟩ := hs
  rw [value_node, value_node] at hv
  rw [hv, SortedDict.ext ht hs hget]

theorem Canonical.setTree (ht : Canonical t) (hs : Canonical s) (p : List κ) :
    Canonical (setTree s p t) := by
  induction p generalizing t with
  | nil => rwa [setTree_nil]
  | cons k p ih =>
    rw [setTree_cons]
    exact ht.setChild (ih (ht.child k)) k

theorem Canonical.setValue (h : Canonical t) (v : ν) (p : List κ) :
    Canonical (setValue (some v) p t) := by
  induction p generalizing t with
  | nil =>
    obtain ⟨hsorted, hne, hbelow⟩ := h
    rw [setValue_nil]
    exact .node hsorted hne hbelow
  | cons k p ih =>
    rw [setValue_cons]
    exact h.setChild (ih (h.child k)) k

/-- A tree that is not empty has a value somewhere. -/
theorem Canonical.exists_value (h : Canonical t) (hne : t.isEmpty = false) :
    ∃ p v, valueAtPath p t = some v := by
  induction h with
  | @node value children hsorted hnonempty _ ih =>
    cases value with
    | some v => exact ⟨[], v, rfl⟩
    | none =>
      cases children with
      | nil => cases hne
      | cons e children =>
        obtain ⟨p, v, hv⟩ := ih e List.mem_cons_self (hnonempty e List.mem_cons_self)
        refine ⟨e.1 :: p, v, ?_⟩
        rw [valueAtPath_cons, FImmutableTree.child, children_node,
          SortedDict.get_of_mem hsorted (List.mem_cons_self : (e.1, e.2) ∈ _)]
        exact hv

/-- **The values determine the tree.** -/
theorem Canonical.ext_valueAtPath (ht : Canonical t) (hs : Canonical s)
    (h : ∀ p, valueAtPath p t = valueAtPath p s) : t = s := by
  induction ht generalizing s with
  | @node value children hsorted hnonempty hbelow ih =>
    have ht : Canonical (FImmutableTree.node value children) := .node hsorted hnonempty hbelow
    refine ht.ext hs (by simpa using h []) fun k => ?_
    have hchild : ∀ p, valueAtPath p (FImmutableTree.child k (.node value children)) =
        valueAtPath p (FImmutableTree.child k s) := fun p => by
      rw [← valueAtPath_cons, ← valueAtPath_cons]
      exact h _
    cases hget : SortedDict.get k children with
    | some c =>
      have hc : FImmutableTree.child k (.node value children) = c := by
        rw [FImmutableTree.child, children_node, hget]
        rfl
      rw [hc] at hchild ⊢
      exact ih _ (SortedDict.mem_of_get hget) (hs.child k) hchild
    | none =>
      have hc : FImmutableTree.child k (.node value children) = empty := by
        rw [FImmutableTree.child, children_node, hget]
        rfl
      rw [hc] at hchild ⊢
      -- the other tree has no value there
      by_contra hne
      have hfull : (FImmutableTree.child k s).isEmpty = false := by
        rw [← Bool.not_eq_true]
        exact fun he => hne (eq_empty he).symm
      obtain ⟨p, v, hv⟩ := (hs.child k).exists_value hfull
      rw [← hchild, valueAtPath_empty] at hv
      cases hv

end

/-! ## Values after an update -/

section
variable (p q : List κ) (t s : FImmutableTree κ ν)

theorem valueAtPath_setTree_append : valueAtPath (p ++ q) (setTree s p t) = valueAtPath q s := by
  induction p generalizing t with
  | nil => rw [setTree_nil, List.nil_append]
  | cons k p ih => rw [List.cons_append, setTree_cons, valueAtPath_cons, child_setChild, if_pos rfl, ih]

variable {p q} in
theorem valueAtPath_setTree_of_not (h : ¬ p <+: q) : valueAtPath q (setTree s p t) = valueAtPath q t := by
  induction p generalizing q t with
  | nil => exact absurd List.nil_prefix h
  | cons k p ih =>
    rw [setTree_cons]
    cases q with
    | nil => rw [valueAtPath_nil, valueAtPath_nil, value_setChild]
    | cons k' q =>
      rw [valueAtPath_cons, valueAtPath_cons, child_setChild]
      split
      · rename_i hk
        rw [hk]
        exact ih _ fun hp => h (List.cons_prefix_cons.2 ⟨hk.symm, hp⟩)
      · rfl

theorem valueAtPath_setValue (v : ν) :
    valueAtPath q (setValue (some v) p t) = if q = p then some v else valueAtPath q t := by
  induction p generalizing q t with
  | nil =>
    cases q with
    | nil => rw [valueAtPath_nil, setValue_nil, if_pos rfl, value_node]
    | cons k q =>
      rw [valueAtPath_cons, valueAtPath_cons, if_neg (List.cons_ne_nil k q), setValue_nil]
      rfl
  | cons k p ih =>
    rw [setValue_cons]
    cases q with
    | nil => rw [valueAtPath_nil, valueAtPath_nil, value_setChild, if_neg (List.cons_ne_nil k p).symm]
    | cons k' q =>
      rw [valueAtPath_cons, valueAtPath_cons, child_setChild]
      by_cases hk : k' = k
      · subst hk
        rw [if_pos rfl, ih]
        simp only [List.cons.injEq, true_and]
      · rw [if_neg hk, if_neg fun he => hk (List.cons.inj he).1]

theorem removeValueAtPath_empty : removeValueAtPath p (empty : FImmutableTree κ ν) = empty := by
  cases p <;> rfl

omit [LinearOrder κ] in
/-- The test for an empty result only shares the object. -/
theorem ite_empty_node (v : Option ν) (cs : List (κ × FImmutableTree κ ν)) :
    (if v.isNone && cs.isEmpty then empty else node v cs) = node v cs := by
  split
  · rename_i h
    exact (eq_empty (t := node v cs) h).symm
  · rfl

theorem removeValueAtPath_cons (k : κ) :
    removeValueAtPath (k :: p) t = setChild k (removeValueAtPath p (child k t)) t := by
  obtain ⟨v, cs⟩ := t
  unfold child setChild
  rw [removeValueAtPath, children_node, value_node]
  cases hget : SortedDict.get k cs with
  | none =>
    have hkeys : ∀ e ∈ cs, e.1 ≠ k := fun e he hk =>
      SortedDict.get_eq_none.1 hget e.2 (by rw [← hk]; exact he)
    rw [Option.getD_none, removeValueAtPath_empty, isEmpty_empty, if_pos rfl,
      SortedDict.remove_of_notMem hkeys]
  | some c =>
    rw [Option.getD_some]
    exact ite_empty_node v _

theorem valueAtPath_removeValueAtPath :
    valueAtPath q (removeValueAtPath p t) = if q = p then none else valueAtPath q t := by
  induction p generalizing q t with
  | nil =>
    obtain ⟨v, cs⟩ := t
    rw [removeValueAtPath]
    split
    · rename_i h
      rw [List.isEmpty_iff] at h
      subst h
      cases q with
      | nil => rfl
      | cons k q =>
        rw [valueAtPath_empty, valueAtPath_cons]
        exact (valueAtPath_empty q).symm
    · cases q with
      | nil => rfl
      | cons k q => rfl
  | cons k p ih =>
    rw [removeValueAtPath_cons]
    cases q with
    | nil => rw [valueAtPath_nil, valueAtPath_nil, value_setChild, if_neg (List.cons_ne_nil k p).symm]
    | cons k' q =>
      rw [valueAtPath_cons, valueAtPath_cons, child_setChild]
      by_cases hk : k' = k
      · subst hk
        rw [if_pos rfl, ih]
        simp only [List.cons.injEq, true_and]
      · rw [if_neg hk, if_neg fun he => hk (List.cons.inj he).1]

variable {t} in
theorem Canonical.removeValueAtPath (h : Canonical t) : Canonical (removeValueAtPath p t) := by
  induction p generalizing t with
  | nil =>
    obtain ⟨hsorted, hne, hbelow⟩ := h
    rw [FImmutableTree.removeValueAtPath]
    split
    · exact canonical_empty
    · exact .node hsorted hne hbelow
  | cons k p ih =>
    rw [removeValueAtPath_cons]
    exact h.setChild (ih (h.child k)) k

end

/-! ## The enumeration -/

omit [LinearOrder κ] in
mutual

theorem forEachPathSoFar_eq (pathSoFar : List κ) : ∀ t : FImmutableTree κ ν,
    forEachPathSoFar pathSoFar t = (forEachPathSoFar [] t).map fun e => (pathSoFar ++ e.1, e.2)
  | node value children => by
    rw [forEachPathSoFar, forEachPathSoFar, List.map_append, ← forEachChildPathSoFar_eq]
    cases value with
    | none => rfl
    | some v => simp

theorem forEachChildPathSoFar_eq (pathSoFar : List κ) : ∀ children : List (κ × FImmutableTree κ ν),
    forEachChildPathSoFar pathSoFar children =
      (forEachChildPathSoFar [] children).map fun e => (pathSoFar ++ e.1, e.2)
  | [] => rfl
  | (childKey, childTree) :: children => by
    rw [forEachChildPathSoFar, forEachChildPathSoFar, forEachPathSoFar_eq (pathSoFar ++ [childKey]),
      forEachPathSoFar_eq ([] ++ [childKey]), forEachChildPathSoFar_eq pathSoFar children]
    simp

end

omit [LinearOrder κ] in
theorem forEach_node (value : Option ν) (children : List (κ × FImmutableTree κ ν)) :
    forEach (node value children) =
      children.flatMap (fun e => (forEach e.2).map fun q => (e.1 :: q.1, q.2)) ++
        (value.map fun v => ([], v)).toList := by
  unfold forEach
  rw [forEachPathSoFar]
  congr 1
  induction children with
  | nil => rfl
  | cons e children ih =>
    rw [forEachChildPathSoFar, ih, List.flatMap_cons, forEachPathSoFar_eq]
    rfl

/-- **The enumeration calls the block for the values of the tree.** -/
theorem mem_forEach {t : FImmutableTree κ ν} (h : Canonical t) {p : List κ} {v : ν} :
    (p, v) ∈ forEach t ↔ valueAtPath p t = some v := by
  induction h generalizing p v with
  | @node value children hsorted _ _ ih =>
    rw [forEach_node, List.mem_append, List.mem_flatMap]
    cases p with
    | nil => simp
    | cons k p =>
      rw [valueAtPath_cons, child, children_node]
      constructor
      · rintro (⟨⟨k', c⟩, hc, he⟩ | he)
        · obtain ⟨⟨q, w⟩, hq, he⟩ := List.mem_map.1 he
          cases he
          rw [SortedDict.get_of_mem hsorted hc]
          exact (ih _ hc).1 hq
        · cases value <;> simp at he
      · intro hv
        cases hget : SortedDict.get k children with
        | none =>
          rw [hget, Option.getD_none, valueAtPath_empty] at hv
          cases hv
        | some c =>
          rw [hget, Option.getD_some] at hv
          have hc := SortedDict.mem_of_get hget
          exact .inl ⟨(k, c), hc, List.mem_map.2 ⟨(p, v), (ih _ hc).2 hv, rfl⟩⟩

/-- It calls the block once for each of them. -/
theorem nodup_forEach {t : FImmutableTree κ ν} (h : Canonical t) : ((forEach t).map Prod.fst).Nodup := by
  induction h with
  | @node value children hsorted _ _ ih =>
    rw [forEach_node, List.map_append, List.nodup_append, List.map_flatMap]
    refine ⟨?_, by cases value <;> simp, ?_⟩
    · rw [List.nodup_flatMap]
      constructor
      · intro e he
        rw [List.map_map]
        have hcomp : (Prod.fst ∘ fun q : List κ × ν => (e.1 :: q.1, q.2)) = (e.1 :: ·) ∘ Prod.fst := rfl
        rw [hcomp, ← List.map_map]
        exact (ih e he).map fun a b hab => (List.cons.inj hab).2
      · refine (List.pairwise_map.1 (SortedDict.nodup_keys hsorted)).imp ?_
        intro a b hab x hx hx'
        obtain ⟨q, hq, rfl⟩ := List.mem_map.1 hx
        obtain ⟨q', hq', he⟩ := List.mem_map.1 hx'
        obtain ⟨r, -, rfl⟩ := List.mem_map.1 hq
        obtain ⟨r', -, rfl⟩ := List.mem_map.1 hq'
        exact hab (List.cons.inj he).1.symm
    · intro a ha b hb hab
      obtain ⟨e, -, he⟩ := List.mem_flatMap.1 ha
      obtain ⟨q, hq, rfl⟩ := List.mem_map.1 he
      obtain ⟨r, -, rfl⟩ := List.mem_map.1 hq
      cases value <;> simp at hb
      subst hb
      cases hab

/-! ## Runs -/

/-- The updates of a tree. -/
inductive Update (κ ν : Type) where
  | setValue (newValue : ν) (path : List κ)
  | removeValueAtPath (path : List κ)
  | setTree (newTree : FImmutableTree κ ν) (path : List κ)

def Update.apply (tree : FImmutableTree κ ν) : Update κ ν → FImmutableTree κ ν
  | .setValue newValue path => tree.setValue (some newValue) path
  | .removeValueAtPath path => tree.removeValueAtPath path
  | .setTree newTree path => newTree.setTree path tree

/-- The update of a map from paths to values. -/
def Update.onValues (values : List κ → Option ν) : Update κ ν → List κ → Option ν
  | .setValue newValue path => Function.update values path (some newValue)
  | .removeValueAtPath path => Function.update values path none
  | .setTree newTree path => fun q =>
    if path <+: q then newTree.valueAtPath (q.drop path.length) else values q

/-- A tree laid at a path has no empty subtrees, as one that was made by updates. -/
def Update.Proper : Update κ ν → Prop
  | .setTree newTree _ => Canonical newTree
  | _ => True

/-- The tree is the map of the values, as far as its methods tell. -/
structure Stores (tree : FImmutableTree κ ν) (values : List κ → Option ν) : Prop where
  valueAtPath : ∀ p, tree.valueAtPath p = values p
  subtreeAtPath : ∀ p q, (tree.subtreeAtPath p).valueAtPath q = values (p ++ q)
  isEmpty : tree.isEmpty = true ↔ ∀ p, values p = none
  forEach : ∀ p v, (p, v) ∈ tree.forEach ↔ values p = some v
  once : (tree.forEach.map Prod.fst).Nodup
  rootMost : ∀ p q v, tree.findRootMostValueAndPath p = some (q, v) ↔
    q <+: p ∧ values q = some v ∧ ∀ r, r <+: q → r ≠ q → values r = none

section
variable {t : FImmutableTree κ ν}

theorem valueAtPath_subtreeAtPath (p q : List κ) (t : FImmutableTree κ ν) :
    valueAtPath q (subtreeAtPath p t) = valueAtPath (p ++ q) t := by
  induction p generalizing t with
  | nil => rw [subtreeAtPath_nil, List.nil_append]
  | cons k p ih => rw [subtreeAtPath_cons, ih, List.cons_append, valueAtPath_cons]

theorem Canonical.isEmpty_iff (h : Canonical t) : t.isEmpty = true ↔ ∀ p, valueAtPath p t = none := by
  constructor
  · intro he p
    rw [eq_empty he, valueAtPath_empty]
  · intro hnone
    by_contra hne
    obtain ⟨p, v, hv⟩ := h.exists_value (Bool.eq_false_iff.2 hne)
    rw [hnone] at hv
    cases hv

/-- A value with none above it is the one that is found. -/
theorem findRootMost_iff {p q : List κ} {v : ν} : findRootMostValueAndPath p t = some (q, v) ↔
    q <+: p ∧ valueAtPath q t = some v ∧ ∀ r, r <+: q → r ≠ q → valueAtPath r t = none := by
  refine ⟨findRootMost_eq_some p t, fun ⟨hpre, hv, habove⟩ => ?_⟩
  cases hf : findRootMostValueAndPath p t with
  | none =>
    rw [findRootMost_eq_none p t hf hpre] at hv
    cases hv
  | some found =>
    obtain ⟨q', v'⟩ := found
    obtain ⟨hpre', hv', habove'⟩ := findRootMost_eq_some p t hf
    have hq : q' = q := by
      by_contra hne
      rcases List.prefix_or_prefix_of_prefix hpre' hpre with h | h
      · rw [habove q' h hne] at hv'
        cases hv'
      · rw [habove' q h (Ne.symm hne)] at hv
        cases hv
    subst hq
    rw [hv] at hv'
    cases hv'
    rfl

theorem Canonical.stores (h : Canonical t) : t.Stores fun p => valueAtPath p t where
  valueAtPath _ := rfl
  subtreeAtPath p q := valueAtPath_subtreeAtPath p q t
  isEmpty := h.isEmpty_iff
  forEach _ _ := mem_forEach h
  once := nodup_forEach h
  rootMost _ _ _ := findRootMost_iff

theorem apply_update (h : Canonical t) {u : Update κ ν} (hu : u.Proper) :
    Canonical (u.apply t) ∧ ∀ q, valueAtPath q (u.apply t) = u.onValues (fun p => valueAtPath p t) q := by
  cases u with
  | setValue newValue path =>
    refine ⟨h.setValue newValue path, fun q => ?_⟩
    rw [Update.onValues, Function.update_apply]
    exact valueAtPath_setValue path q t newValue
  | removeValueAtPath path =>
    refine ⟨h.removeValueAtPath path, fun q => ?_⟩
    rw [Update.onValues, Function.update_apply]
    exact valueAtPath_removeValueAtPath path q t
  | setTree newTree path =>
    refine ⟨h.setTree hu path, fun q => ?_⟩
    simp only [Update.onValues]
    by_cases hq : path <+: q
    · obtain ⟨r, rfl⟩ := hq
      rw [if_pos (List.prefix_append path r), List.drop_left]
      exact valueAtPath_setTree_append path r t newTree
    · rw [if_neg hq]
      exact valueAtPath_setTree_of_not t newTree hq

/-- **After any updates the tree is the map of the updates**, and the only such tree without empty subtrees. -/
theorem stores_run (updates : List (Update κ ν)) (h : ∀ u ∈ updates, u.Proper) :
    (updates.foldl Update.apply empty).Stores (updates.foldl Update.onValues fun _ => none) ∧
      ∀ s : FImmutableTree κ ν, Canonical s →
        (∀ p, s.valueAtPath p = updates.foldl Update.onValues (fun _ => none) p) →
          s = updates.foldl Update.apply empty := by
  have hrun : ∀ (t : FImmutableTree κ ν) (values : List κ → Option ν), Canonical t →
      (fun p => t.valueAtPath p) = values → Canonical (updates.foldl Update.apply t) ∧
        (fun p => (updates.foldl Update.apply t).valueAtPath p) = updates.foldl Update.onValues values := by
    induction updates with
    | nil => exact fun t values ht hv => ⟨ht, hv⟩
    | cons u updates ih =>
      intro t values ht hv
      obtain ⟨hc, hvalues⟩ := apply_update ht (h u List.mem_cons_self)
      refine ih (fun u' hu' => h u' (List.mem_cons_of_mem u hu')) _ _ hc ?_
      rw [← hv]
      exact funext hvalues
  obtain ⟨hc, hvalues⟩ := hrun empty (fun _ => none) canonical_empty (funext valueAtPath_empty)
  rw [← hvalues]
  exact ⟨hc.stores, fun s hs heq => hs.ext_valueAtPath hc heq⟩

theorem stores_run_two : ([.setValue 1 ["a", "b"], .setTree (.ofValue (some 2)) ["a"]].foldl Update.apply
      (empty : FImmutableTree String Nat)).Stores
    ([.setValue 1 ["a", "b"], .setTree (.ofValue (some 2)) ["a"]].foldl Update.onValues fun _ => none) := by
  refine (stores_run [.setValue 1 ["a", "b"], .setTree (.ofValue (some 2)) ["a"]] fun u hu => ?_).1
  rcases List.mem_cons.1 hu with rfl | hu
  · trivial
  · rw [List.mem_singleton.1 hu]
    exact canonical_ofValue (some 2)

end

end FImmutableTree

end ShopingList
