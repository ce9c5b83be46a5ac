import ShopingList.Lib.SortedDict
import ShopingList.Firebase.Path
import ShopingList.Firebase.KeyOrder
import Mathlib.Data.String.Basic

/-!
# Nodes of the realtime database

An `FNode` is a leaf or a node with children (`FLeafNode`, `FChildrenNode`);
the empty node has no children. Dictionaries of strings, which is what the
program writes and reads, are trees of the same shape, so one type serves for
both: `nodeFrom` turns a dictionary into a node (keys checked, empty children
dropped, no two keys tied) and `allValues`/`objectForKey` read `snapshot.value`, which is an array
instead of a dictionary when the keys look like indices.

The order in which an `NSDictionary` lists its values is not specified: every
reader takes it as a parameter.
-/

namespace ShopingList

open FValidation FUtilities

/-- The keys of the children are in a linear order. On strings `keyComparator` is one as long as no two of the keys
have one place for it, which `nodeFrom` sees to. -/
inductive FNode (κ : Type := String) where
  | leaf (value : String)
  | children (kids : List (κ × FNode κ))
  deriving Repr

namespace FNode

variable {κ : Type}

def emptyNode : FNode κ := .children []

def isEmpty : FNode κ → Bool
  | .leaf _ => false
  | .children kids => kids.isEmpty

/-- `FIRDataSnapshot.hasChildren`. -/
def hasChildren : FNode κ → Bool
  | .leaf _ => false
  | .children kids => !kids.isEmpty

def leafValue : FNode κ → Option String
  | .leaf v => some v
  | .children _ => none

variable [LinearOrder κ]

def getImmediateChild (childName : κ) : FNode κ → FNode κ
  | .leaf _ => emptyNode
  | .children kids => (SortedDict.get childName kids).getD emptyNode

def getChild : List κ → FNode κ → FNode κ
  | [], n => n
  | front :: path, n => getChild path (getImmediateChild front n)

def updateImmediateChild (childName : κ) (newChildNode : FNode κ) : FNode κ → FNode κ
  | .leaf v => if newChildNode.isEmpty then .leaf v else .children [(childName, newChildNode)]
  | .children kids =>
    if newChildNode.isEmpty then .children (SortedDict.remove childName kids)
    else .children (SortedDict.set childName newChildNode kids)

/-- Writing an empty node below a leaf leaves the leaf. -/
def updateChild (newChildNode : FNode κ) : List κ → FNode κ → FNode κ
  | [], _ => newChildNode
  | front :: path, .leaf v =>
    if newChildNode.isEmpty then .leaf v
    else updateImmediateChild front (updateChild newChildNode path emptyNode) (.leaf v)
  | front :: path, .children kids =>
    updateImmediateChild front
      (updateChild newChildNode path (getImmediateChild front (.children kids))) (.children kids)

/-- The string stored at a path, if the path ends in a leaf. -/
def leafAt (path : List κ) (n : FNode κ) : Option String := leafValue (getChild path n)

/-! ## Writing -/

/-- `keyComparator` gives two of the keys one place. -/
def tied (kids : List (String × FNode)) : Bool :=
  kids.any fun p => kids.any fun q => sameOrdering p.1 q.1

mutual

/-- `FSnapshotUtilities nodeFrom:` on strings and dictionaries; the children go into a
dictionary of `keyComparator`. The payload keys `.priority` and `.value` only ever meet
dictionaries here, which are refused. A dictionary with the one key `.sv` is a leaf
for the SDK, a value that the server computes; what the server stores for it is
not known, so here it is refused like the other payload keys. -/
def nodeFrom : FNode → Except NSException FNode
  | .leaf v => .ok (.leaf v)
  | .children kids => do
    let children ← nodeFromKids kids
    if tied children then throw .sameOrdering
    return .children children

def nodeFromKids : List (String × FNode) → Except NSException (List (String × FNode))
  | [] => .ok []
  | (key, val) :: dval => do
    if !isValidKey key then throw .invalidData
    let childNode ← nodeFrom val
    let children ← nodeFromKids dval
    return if childNode.isEmpty then children else (key, childNode) :: children

end

/-- `[ref setValue:value]`, applied to the whole database. -/
def setValue (path : List String) (value : FNode) (db : FNode) : Except NSException FNode := do
  return updateChild (← nodeFrom value) path db

def removeValue (path : List κ) (db : FNode κ) : FNode κ := updateChild emptyNode path db

/-! ## Reading -/

/-- `FUtilities intForString:`. -/
def intForString (s : String) : Option Nat :=
  if s ≠ "" ∧ s.toList.all (·.isDigit) then
    some (s.toList.foldl (fun n c => 10 * n + (c.toNat - '0'.toNat)) 0)
  else none

/-- The index a key stands for; leading zeroes that are not exactly "0" make it a string. -/
def integerKey (key : String) : Option Nat :=
  if key.toList.head? = some '0' ∧ key.toList.length > 1 then none else intForString key

/-- `valForExport:` converts the children to an array. -/
def isArray (kids : List (String × FNode)) : Bool :=
  kids.all (fun p => (integerKey p.1).isSome) &&
    (kids.filterMap fun p => integerKey p.1).foldl max 0 < 2 * kids.length

/-- The order in which dictionaries list their values. -/
structure DictOrder where
  allValues : List (String × FNode) → List FNode
  perm : ∀ d, (allValues d).Perm (d.map Prod.snd)

/-- The values in the order of the keys. -/
def DictOrder.byKey : DictOrder := ⟨fun d => d.map Prod.snd, fun _ => .refl _⟩

/-- `value.allValues`: strings, arrays and `NSNull` do not have it. -/
def allValues (order : DictOrder) : FNode → Except NSException (List FNode)
  | .leaf _ => .error .invalidArgument
  | .children kids =>
    if kids.isEmpty || isArray kids then .error .invalidArgument else .ok (order.allValues kids)

/-- `value[key]`: strings, arrays and `NSNull` do not have it. -/
def objectForKey (key : String) : FNode → Except NSException (Option FNode)
  | .leaf _ => .error .invalidArgument
  | .children kids =>
    if kids.isEmpty || isArray kids then .error .invalidArgument else .ok (SortedDict.get key kids)

/-- `value[key]` in a place where a string is expected. Only list names with a
slash in them put a dictionary there; the first message sent to it raises. -/
def stringForKey (key : String) (value : FNode) : Except NSException (Option String) := do
  match ← objectForKey key value with
  | none => return none
  | some (.leaf v) => return some v
  | some (.children _) => throw .invalidArgument

/-! ## Children after an update -/

omit [LinearOrder κ] in
@[simp] theorem isEmpty_emptyNode : isEmpty (emptyNode : FNode κ) = true := rfl

omit [LinearOrder κ] in
theorem eq_emptyNode {n : FNode κ} (h : n.isEmpty = true) : n = emptyNode := by
  cases n with
  | leaf v => cases h
  | children kids =>
    rw [isEmpty, List.isEmpty_iff] at h
    rw [h, emptyNode]

@[simp] theorem getImmediateChild_emptyNode (k : κ) :
    getImmediateChild k emptyNode = emptyNode := rfl

@[simp] theorem getChild_emptyNode (p : List κ) : getChild p emptyNode = emptyNode := by
  induction p with
  | nil => rfl
  | cons k p ih => simpa [getChild] using ih

theorem getChild_leaf_cons (k : κ) (p : List κ) (v : String) :
    getChild (k :: p) (.leaf v) = emptyNode := getChild_emptyNode p

@[simp] theorem getImmediateChild_updateImmediateChild (k k' : κ) (c n : FNode κ) :
    getImmediateChild k' (updateImmediateChild k c n) =
      if k' = k then c else getImmediateChild k' n := by
  cases n with
  | leaf v =>
    rw [updateImmediateChild]
    by_cases hc : c.isEmpty = true
    · rw [if_pos hc, eq_emptyNode hc]
      simp [getImmediateChild]
    · rw [if_neg hc]
      by_cases hk : k' = k <;> simp [getImmediateChild, SortedDict.get, hk]
  | children kids =>
    rw [updateImmediateChild]
    by_cases hc : c.isEmpty = true
    · rw [if_pos hc, eq_emptyNode hc]
      by_cases hk : k' = k <;> simp [getImmediateChild, hk]
    · rw [if_neg hc]
      by_cases hk : k' = k <;> simp [getImmediateChild, hk]

theorem getChild_append (p q : List κ) (n : FNode κ) :
    getChild (p ++ q) n = getChild q (getChild p n) := by
  induction p generalizing n with
  | nil => rfl
  | cons k p ih => exact ih _

@[simp] theorem updateChild_nil (new n : FNode κ) : updateChild new [] n = new := by
  cases n <;> rfl

theorem updateChild_emptyNode (p : List κ) : updateChild emptyNode p emptyNode = emptyNode := by
  induction p with
  | nil => rfl
  | cons k p ih =>
    rw [show emptyNode = FNode.children [] from rfl, updateChild]
    rw [show getImmediateChild k (.children []) = emptyNode from rfl]
    rw [show FNode.children [] = emptyNode from rfl, ih]
    rfl

/-- A write passes through a child as a write into that child. -/
theorem getImmediateChild_updateChild (new : FNode κ) (k : κ) (r : List κ) (n : FNode κ) :
    getImmediateChild k (updateChild new (k :: r) n) = updateChild new r (getImmediateChild k n) := by
  cases n with
  | leaf v =>
    rw [updateChild]
    split
    · rename_i h
      rw [eq_emptyNode h]
      exact (updateChild_emptyNode r).symm
    · rw [getImmediateChild_updateImmediateChild, if_pos rfl]
      rfl
  | children kids => simp [updateChild]

theorem getChild_updateChild (new : FNode κ) (q r : List κ) (n : FNode κ) :
    getChild q (updateChild new (q ++ r) n) = updateChild new r (getChild q n) := by
  induction q generalizing n with
  | nil => rfl
  | cons k q ih =>
    rw [getChild, List.cons_append, getImmediateChild_updateChild, ih, getChild]

theorem getChild_updateChild_self (new : FNode κ) (p : List κ) (n : FNode κ) :
    getChild p (updateChild new p n) = new := by
  simpa using getChild_updateChild new p [] n

theorem getImmediateChild_updateChild_ne {k k' : κ} (h : k' ≠ k) (new : FNode κ)
    (r : List κ) (n : FNode κ) :
    getImmediateChild k' (updateChild new (k :: r) n) = getImmediateChild k' n := by
  cases n with
  | leaf v =>
    rw [updateChild]
    split
    · rfl
    · simp [h]
  | children kids => simp [updateChild, h]

/-- A write leaves alone every path that leaves the written one. -/
theorem getChild_updateChild_of_ne {new : FNode κ} {q p : List κ} (h1 : ¬ p <+: q)
    (h2 : ¬ q <+: p) (n : FNode κ) : getChild q (updateChild new p n) = getChild q n := by
  induction q generalizing p n with
  | nil => exact absurd List.nil_prefix h2
  | cons k q ih =>
    cases p with
    | nil => exact absurd List.nil_prefix h1
    | cons k' p =>
      rw [getChild, getChild]
      by_cases hk : k = k'
      · subst hk
        rw [getImmediateChild_updateChild]
        refine ih (fun h => h1 ?_) (fun h => h2 ?_) _
        · exact List.cons_prefix_cons.2 ⟨rfl, h⟩
        · exact List.cons_prefix_cons.2 ⟨rfl, h⟩
      · rw [getImmediateChild_updateChild_ne hk]

/-! ## Leaves after an update -/

@[simp] theorem leafAt_emptyNode (p : List κ) : leafAt p emptyNode = none := by
  rw [leafAt, getChild_emptyNode]
  rfl

theorem leafAt_append (p q : List κ) (n : FNode κ) :
    leafAt (p ++ q) n = leafAt q (getChild p n) := by
  rw [leafAt, leafAt, getChild_append]

theorem leafAt_updateChild_below (new : FNode κ) (p q : List κ) (n : FNode κ) :
    leafAt (p ++ q) (updateChild new p n) = leafAt q new := by
  rw [leafAt_append, getChild_updateChild_self]

/-- A write of a non-empty node leaves no empty node. -/
theorem isEmpty_updateChild {new : FNode κ} (h : new.isEmpty = false) (p : List κ) (n : FNode κ) :
    (updateChild new p n).isEmpty = false := by
  by_contra hn
  rw [Bool.not_eq_false] at hn
  have := getChild_updateChild_self new p n
  rw [eq_emptyNode hn, getChild_emptyNode] at this
  rw [← this] at h
  cases h

/-- A write below a node makes it a node with children, unless it writes nothing. -/
theorem leafValue_updateChild_cons (new : FNode κ) (k : κ) (r : List κ) (n : FNode κ) :
    leafValue (updateChild new (k :: r) n) = if new.isEmpty then leafValue n else none := by
  cases n with
  | leaf v =>
    rw [updateChild]
    split
    · rfl
    · rename_i h
      rw [Bool.not_eq_true] at h
      rw [updateImmediateChild, isEmpty_updateChild h]
      rfl
  | children kids =>
    rw [updateChild, updateImmediateChild]
    split <;> simp [leafValue]

/-- Off the written path a leaf stays, or it made room for the written node. -/
theorem leafAt_updateChild_off (new : FNode κ) {p q : List κ} (h : ¬ p <+: q) (n : FNode κ) :
    leafAt q (updateChild new p n) = leafAt q n ∨ leafAt q (updateChild new p n) = none := by
  by_cases h2 : q <+: p
  · obtain ⟨r, rfl⟩ := h2
    rw [leafAt, leafAt, getChild_updateChild]
    cases r with
    | nil => exact absurd (by simp) h
    | cons k r =>
      rw [leafValue_updateChild_cons]
      split
      · exact .inl rfl
      · exact .inr rfl
  · left
    rw [leafAt, leafAt, getChild_updateChild_of_ne h h2]

theorem leafAt_updateChild {new : FNode κ} {p q : List κ} {n : FNode κ} {v : String}
    (h : leafAt q (updateChild new p n) = some v) :
    (∃ r, q = p ++ r ∧ leafAt r new = some v) ∨ leafAt q n = some v := by
  by_cases hp : p <+: q
  · obtain ⟨r, rfl⟩ := hp
    rw [leafAt_updateChild_below] at h
    exact .inl ⟨r, rfl, h⟩
  · rcases leafAt_updateChild_off new hp n with e | e
    · exact .inr (e ▸ h)
    · rw [e] at h
      cases h

/-- A removal keeps the leaves that are not below the removed path and adds none. -/
theorem leafAt_removeValue (p q : List κ) (db : FNode κ) :
    leafAt q (removeValue p db) = if p <+: q then none else leafAt q db := by
  split
  · rename_i h
    obtain ⟨r, rfl⟩ := h
    rw [removeValue, leafAt_updateChild_below, leafAt_emptyNode]
  · rename_i h
    by_cases h2 : q <+: p
    · obtain ⟨r, rfl⟩ := h2
      rw [removeValue, leafAt, leafAt, getChild_updateChild]
      cases r with
      | nil => exact absurd (by simp) h
      | cons k r => rw [leafValue_updateChild_cons, isEmpty_emptyNode, if_pos rfl]
    · rw [removeValue, leafAt, leafAt, getChild_updateChild_of_ne h h2]

end FNode

end ShopingList
