import Mathlib.Algebra.GroupWithZero.Nat
import ShopingList.Lib.SortedDict

/-!
# Left-leaning red-black trees

`FLLRBEmptyNode` and `FLLRBValueNode`, the trees below the children of a big
node. The comparator is a linear order of the keys. Nothing is changed in
place: every method answers a new node, made by `copyWith`, where nil keeps a
field. `entries` is the tree read from left to right; every method is described
by what it does to the entries, and the rotations do nothing to them.

`removeMin`, `fixUp`, the moves, the rotations and `colorFlip` are methods of
value nodes only; no caller sends them to the empty node, which stays here.
-/

namespace ShopingList

/-- `RED` is `@true` and `BLACK` is `@false`. -/
inductive FLLRBColor where
  | black
  | red
  deriving DecidableEq, Repr

inductive FLLRBNode (α β : Type) where
  | emptyNode
  | valueNode (key : α) (value : β) (color : FLLRBColor) (left right : FLLRBNode α β)
  deriving Repr

/-- What `check` throws. -/
inductive FLLRBCheck (β : Type) where
  /-- "Red node has a red child" -/
  | redChild
  /-- "Right child is red" -/
  | rightRed
  /-- "(%@ -> %@)blackDepth: %d ; self.right check: %d" -/
  | blackDepth (value : β) (color : FLLRBColor) (left right : Nat)
  deriving Repr

namespace FLLRBColor

/-- `[NSNumber numberWithBool:![color boolValue]]`. -/
def flip : FLLRBColor → FLLRBColor
  | black => red
  | red => black

@[simp] theorem flip_black : flip black = red := rfl

@[simp] theorem flip_red : flip red = black := rfl

@[simp] theorem flip_flip (c : FLLRBColor) : c.flip.flip = c := by
  cases c <;> rfl

end FLLRBColor

namespace FLLRBNode

variable {α β : Type}

def isEmpty : FLLRBNode α β → Bool
  | emptyNode => true
  | valueNode .. => false

def isRed : FLLRBNode α β → Bool
  | emptyNode => false
  | valueNode _ _ c _ _ => c = .red

def key : FLLRBNode α β → Option α
  | emptyNode => none
  | valueNode k _ _ _ _ => some k

def value : FLLRBNode α β → Option β
  | emptyNode => none
  | valueNode _ v _ _ _ => some v

/-- The empty node has nil here, which answers `isRed` with NO as it does. -/
def left : FLLRBNode α β → FLLRBNode α β
  | emptyNode => emptyNode
  | valueNode _ _ _ l _ => l

def right : FLLRBNode α β → FLLRBNode α β
  | emptyNode => emptyNode
  | valueNode _ _ _ _ r => r

def color : FLLRBNode α β → FLLRBColor
  | emptyNode => .black
  | valueNode _ _ c _ _ => c

def copyWith (aKey : Option α) (aValue : Option β) (aColor : Option FLLRBColor)
    (aLeft aRight : Option (FLLRBNode α β)) : FLLRBNode α β → FLLRBNode α β
  | emptyNode => emptyNode
  | valueNode k v c l r =>
    valueNode (aKey.getD k) (aValue.getD v) (aColor.getD c) (aLeft.getD l) (aRight.getD r)

def count : FLLRBNode α β → Nat
  | emptyNode => 0
  | valueNode _ _ _ l r => l.count + 1 + r.count

/-- The action answers YES to stop; what it does besides is the state. -/
def inorderTraversal {σ : Type} (action : α → β → StateM σ Bool) : FLLRBNode α β → StateM σ Bool
  | emptyNode => return false
  | valueNode k v _ l r => do
    if ← l.inorderTraversal action then return true
    if ← action k v then return true
    r.inorderTraversal action

def reverseTraversal {σ : Type} (action : α → β → StateM σ Bool) : FLLRBNode α β → StateM σ Bool
  | emptyNode => return false
  | valueNode k v _ l r => do
    if ← r.reverseTraversal action then return true
    if ← action k v then return true
    l.reverseTraversal action

def min : FLLRBNode α β → FLLRBNode α β
  | emptyNode => emptyNode
  | valueNode k v c l r => if l.isEmpty then valueNode k v c l r else l.min

def minKey (n : FLLRBNode α β) : Option α := n.min.key

def maxKey : FLLRBNode α β → Option α
  | emptyNode => none
  | valueNode k _ _ _ r => if r.isEmpty then some k else r.maxKey

def rotateLeft (n : FLLRBNode α β) : FLLRBNode α β :=
  let nl := n.copyWith none none (some .red) none (some n.right.left)
  n.right.copyWith none none (some n.color) (some nl) none

def rotateRight (n : FLLRBNode α β) : FLLRBNode α β :=
  let nr := n.copyWith none none (some .red) (some n.left.right) none
  n.left.copyWith none none (some n.color) none (some nr)

def colorFlip (n : FLLRBNode α β) : FLLRBNode α β :=
  let nleft := n.left.copyWith none none (some n.left.color.flip) none none
  let nright := n.right.copyWith none none (some n.right.color.flip) none none
  n.copyWith none none (some n.color.flip) (some nleft) (some nright)

def fixUp (n : FLLRBNode α β) : FLLRBNode α β :=
  let n := if n.right.isRed && !n.left.isRed then n.rotateLeft else n
  let n := if n.left.isRed && n.left.left.isRed then n.rotateRight else n
  if n.left.isRed && n.right.isRed then n.colorFlip else n

def moveRedLeft (n : FLLRBNode α β) : FLLRBNode α β :=
  let n := n.colorFlip
  if n.right.left.isRed then
    (n.copyWith none none none none (some n.right.rotateRight)).rotateLeft.colorFlip
  else n

def moveRedRight (n : FLLRBNode α β) : FLLRBNode α β :=
  let n := n.colorFlip
  if n.left.left.isRed then n.rotateRight.colorFlip else n

section Insert

variable [LinearOrder α]

def insertKey (aKey : α) (aValue : β) : FLLRBNode α β → FLLRBNode α β
  | emptyNode => valueNode aKey aValue .red emptyNode emptyNode
  | valueNode k v c l r =>
    let n := valueNode k v c l r
    match compare aKey k with
    | .lt => (n.copyWith none none none (some (l.insertKey aKey aValue)) none).fixUp
    | .eq => (n.copyWith none (some aValue) none none none).fixUp
    | .gt => (n.copyWith none none none none (some (r.insertKey aKey aValue))).fixUp

end Insert

/-- The invariants of a left-leaning tree, and the black depth below the node. -/
def check : FLLRBNode α β → Except (FLLRBCheck β) Nat
  | emptyNode => .ok 0
  | valueNode _ v c l r => do
    if c = .red && l.isRed then throw .redChild
    if r.isRed then throw .rightRed
    let blackDepth ← l.check
    let rightDepth ← r.check
    if blackDepth ≠ rightDepth then throw (.blackDepth v c blackDepth rightDepth)
    return blackDepth + if c = .red then 0 else 1

/-- `pow(2.0, [self check]) <= [self count] + 1`. -/
def checkMaxDepth (n : FLLRBNode α β) : Except (FLLRBCheck β) Bool := do
  let blackDepth ← n.check
  return 2 ^ blackDepth ≤ n.count + 1

/-! ## The entries -/

/-- The keys and values from left to right. -/
def entries : FLLRBNode α β → List (α × β)
  | emptyNode => []
  | valueNode k v _ l r => l.entries ++ (k, v) :: r.entries

theorem length_entries (t : FLLRBNode α β) : t.entries.length = t.count := by
  induction t with
  | emptyNode => rfl
  | valueNode k v c l r ihl ihr =>
    rw [entries, count, List.length_append, List.length_cons, ihl, ihr]
    omega

theorem isEmpty_eq (t : FLLRBNode α β) : t.isEmpty = t.entries.isEmpty := by
  cases t <;> simp [isEmpty, entries]

theorem eq_emptyNode {t : FLLRBNode α β} (h : t.isEmpty = true) : t = emptyNode := by
  cases t with
  | emptyNode => rfl
  | valueNode => cases h

section Fields

variable (k : α) (v : β) (c : FLLRBColor) (l r : FLLRBNode α β)

@[simp] theorem isEmpty_valueNode : (valueNode k v c l r).isEmpty = false := rfl

@[simp] theorem left_valueNode : (valueNode k v c l r).left = l := rfl

@[simp] theorem right_valueNode : (valueNode k v c l r).right = r := rfl

@[simp] theorem color_valueNode : (valueNode k v c l r).color = c := rfl

@[simp] theorem isRed_red : (valueNode k v .red l r).isRed = true := rfl

@[simp] theorem isRed_black : (valueNode k v .black l r).isRed = false := rfl

@[simp] theorem isRed_emptyNode : (emptyNode : FLLRBNode α β).isRed = false := rfl

@[simp] theorem copyWith_valueNode (k' : Option α) (v' : Option β) (c' : Option FLLRBColor)
    (l' r' : Option (FLLRBNode α β)) : (valueNode k v c l r).copyWith k' v' c' l' r' =
      valueNode (k'.getD k) (v'.getD v) (c'.getD c) (l'.getD l) (r'.getD r) := rfl

end Fields

@[simp] theorem entries_copyWith_color (c : FLLRBColor) (t : FLLRBNode α β) :
    (t.copyWith none none (some c) none none).entries = t.entries := by
  cases t <;> rfl

/-- A red node is a value node. -/
theorem exists_of_isRed {t : FLLRBNode α β} (h : t.isRed = true) :
    ∃ k v l r, t = valueNode k v .red l r := by
  cases t with
  | emptyNode => cases h
  | valueNode k v c l r =>
    rw [isRed, decide_eq_true_eq] at h
    exact ⟨k, v, l, r, by rw [h]⟩

theorem entries_rotateLeft {t : FLLRBNode α β} (h : t.right.isEmpty = false) :
    t.rotateLeft.entries = t.entries := by
  cases t with
  | emptyNode => rfl
  | valueNode k v c l r =>
    cases r with
    | emptyNode => cases h
    | valueNode => simp [rotateLeft, entries]

theorem entries_rotateRight {t : FLLRBNode α β} (h : t.left.isEmpty = false) :
    t.rotateRight.entries = t.entries := by
  cases t with
  | emptyNode => rfl
  | valueNode k v c l r =>
    cases l with
    | emptyNode => cases h
    | valueNode => simp [rotateRight, entries]

@[simp] theorem entries_colorFlip (t : FLLRBNode α β) : t.colorFlip.entries = t.entries := by
  cases t with
  | emptyNode => rfl
  | valueNode k v c l r => simp [colorFlip, entries]

theorem isEmpty_of_isRed {t : FLLRBNode α β} (h : t.isRed = true) : t.isEmpty = false := by
  obtain ⟨k, v, l, r, rfl⟩ := exists_of_isRed h
  rfl

@[simp] theorem entries_fixUp (t : FLLRBNode α β) : t.fixUp.entries = t.entries := by
  have h1 : ∀ n : FLLRBNode α β,
      (if n.right.isRed && !n.left.isRed then n.rotateLeft else n).entries = n.entries := by
    intro n
    split
    · rename_i h
      rw [Bool.and_eq_true] at h
      exact entries_rotateLeft (isEmpty_of_isRed h.1)
    · rfl
  have h2 : ∀ n : FLLRBNode α β,
      (if n.left.isRed && n.left.left.isRed then n.rotateRight else n).entries = n.entries := by
    intro n
    split
    · rename_i h
      rw [Bool.and_eq_true] at h
      exact entries_rotateRight (isEmpty_of_isRed h.1)
    · rfl
  have h3 : ∀ n : FLLRBNode α β,
      (if n.left.isRed && n.right.isRed then n.colorFlip else n).entries = n.entries := by
    intro n
    split
    · exact entries_colorFlip n
    · rfl
  rw [fixUp, h3, h2, h1]

@[simp] theorem entries_moveRedLeft (t : FLLRBNode α β) : t.moveRedLeft.entries = t.entries := by
  rw [moveRedLeft]
  split
  · rename_i h
    obtain ⟨k, v, l, r, hr⟩ := exists_of_isRed h
    have hn := entries_colorFlip t
    generalize t.colorFlip = n at h hr hn
    cases n with
    | emptyNode => cases h
    | valueNode k' v' c' l' r' =>
      cases r' with
      | emptyNode => cases h
      | valueNode k'' v'' c'' l'' r'' =>
        simp only [right_valueNode, left_valueNode] at hr
        subst hr
        simpa [rotateRight, rotateLeft, entries] using hn
  · exact entries_colorFlip t

@[simp] theorem entries_moveRedRight (t : FLLRBNode α β) : t.moveRedRight.entries = t.entries := by
  rw [moveRedRight]
  split
  · rename_i h
    have hl : t.colorFlip.left.isEmpty = false := by
      cases hl : t.colorFlip.left with
      | emptyNode =>
        rw [hl] at h
        cases h
      | valueNode => rfl
    rw [entries_colorFlip, entries_rotateRight hl, entries_colorFlip]
  · exact entries_colorFlip t

theorem entries_eq_nil {t : FLLRBNode α β} : t.entries = [] ↔ t = emptyNode := by
  cases t <;> simp [entries]

theorem entries_eq (t : FLLRBNode α β) (h : t.isEmpty = false) :
    ∃ k v, t.key = some k ∧ t.value = some v ∧
      t.entries = t.left.entries ++ (k, v) :: t.right.entries := by
  cases t with
  | emptyNode => cases h
  | valueNode k v c l r => exact ⟨k, v, rfl, rfl, rfl⟩

/-- A move keeps the number of entries, so what is below it has fewer. -/
theorem count_left_lt {s t : FLLRBNode α β} (h : s.entries = t.entries) (ht : t.isEmpty = false) :
    s.left.count < t.count := by
  have hs : s.isEmpty = false := by rw [isEmpty_eq, h, ← isEmpty_eq, ht]
  obtain ⟨k, v, -, -, he⟩ := entries_eq s hs
  rw [← length_entries, ← length_entries, ← h, he, List.length_append, List.length_cons]
  omega

theorem count_right_lt {s t : FLLRBNode α β} (h : s.entries = t.entries) (ht : t.isEmpty = false) :
    s.right.count < t.count := by
  have hs : s.isEmpty = false := by rw [isEmpty_eq, h, ← isEmpty_eq, ht]
  obtain ⟨k, v, -, -, he⟩ := entries_eq s hs
  rw [← length_entries, ← length_entries, ← h, he, List.length_append, List.length_cons]
  omega

theorem count_fixUp (t : FLLRBNode α β) : t.fixUp.count = t.count := by
  rw [← length_entries, entries_fixUp, length_entries]

/-! ## Removal -/

/-- How `removeMin` prepares a step to the left. -/
def stepMin (n : FLLRBNode α β) : FLLRBNode α β :=
  if !n.left.isRed && !n.left.left.isRed then n.moveRedLeft else n

@[simp] theorem entries_stepMin (t : FLLRBNode α β) : t.stepMin.entries = t.entries := by
  rw [stepMin]
  split
  · exact entries_moveRedLeft t
  · rfl

def removeMin : FLLRBNode α β → FLLRBNode α β
  | emptyNode => emptyNode
  | valueNode k v c l r =>
    if l.isEmpty then emptyNode
    else
      let n := (valueNode k v c l r).stepMin
      (n.copyWith none none none (some n.left.removeMin) none).fixUp
termination_by t => t.count
decreasing_by exact count_left_lt (entries_stepMin _) rfl

/-- How `remove` prepares a step to the left. -/
def stepLeft (n : FLLRBNode α β) : FLLRBNode α β :=
  if !n.left.isEmpty && !n.left.isRed && !n.left.left.isRed then n.moveRedLeft else n

/-- Both methods take the same step from a node with a left child. -/
theorem stepMin_eq {n : FLLRBNode α β} (h : n.left.isEmpty = false) : n.stepMin = n.stepLeft := by
  rw [stepMin, stepLeft, h, Bool.not_false, Bool.true_and]

/-- How `remove` prepares a step to the right, before it compares the keys again. -/
def stepRight (n : FLLRBNode α β) : FLLRBNode α β :=
  let n := if n.left.isRed then n.rotateRight else n
  if !n.right.isEmpty && !n.right.isRed && !n.right.left.isRed then n.moveRedRight else n

/-- The smallest entry of the right side takes the place of the node's own. -/
def takeSmallest (n : FLLRBNode α β) : FLLRBNode α β :=
  let smallest := n.right.min
  n.copyWith smallest.key smallest.value none none (some n.right.removeMin)

@[simp] theorem entries_stepLeft (t : FLLRBNode α β) : t.stepLeft.entries = t.entries := by
  rw [stepLeft]
  split
  · exact entries_moveRedLeft t
  · rfl

theorem entries_rotateRight_of_isRed (t : FLLRBNode α β) :
    (if t.left.isRed then t.rotateRight else t).entries = t.entries := by
  split
  · rename_i h
    exact entries_rotateRight (isEmpty_of_isRed h)
  · rfl

@[simp] theorem entries_stepRight (t : FLLRBNode α β) : t.stepRight.entries = t.entries := by
  have h := entries_rotateRight_of_isRed t
  unfold stepRight
  generalize (if t.left.isRed then t.rotateRight else t) = m at h ⊢
  simp only
  split
  · rw [entries_moveRedRight, h]
  · exact h

theorem count_copyWith_left (n l : FLLRBNode α β) :
    (n.copyWith none none none (some l) none).count + n.left.count ≤ n.count + l.count := by
  cases n with
  | emptyNode => simp [copyWith, count, left]
  | valueNode k v c l' r =>
    simp only [copyWith_valueNode, Option.getD_some, Option.getD_none, count, left_valueNode]
    omega

theorem count_removeMin_le (t : FLLRBNode α β) : t.removeMin.count ≤ t.count := by
  fun_induction removeMin t with
  | case1 => exact Nat.le_refl _
  | case2 => exact Nat.zero_le _
  | case3 k v c l r h m ih =>
    have hm : m.entries = (valueNode k v c l r).entries := entries_stepMin _
    have hcount := count_copyWith_left m m.left.removeMin
    rw [← length_entries m, hm, length_entries] at hcount
    rw [count_fixUp]
    omega

theorem count_right_takeSmallest_le (n : FLLRBNode α β) :
    n.takeSmallest.right.count ≤ n.right.count := by
  cases n with
  | emptyNode => exact Nat.le_refl _
  | valueNode k v c l r => exact count_removeMin_le r

variable [LinearOrder α] in
/-- After `takeSmallest` the source removes the key once more, from the right
side, where it is not. -/
def remove (aKey : α) : FLLRBNode α β → FLLRBNode α β
  | emptyNode => emptyNode
  | valueNode k v c l r =>
    if compare aKey k = .lt then
      let n := (valueNode k v c l r).stepLeft
      (n.copyWith none none none (some (n.left.remove aKey)) none).fixUp
    else
      let n := (valueNode k v c l r).stepRight
      if n.key.map (compare aKey) = some .eq then
        if n.right.isEmpty then emptyNode
        else
          let m := n.takeSmallest
          (m.copyWith none none none none (some (m.right.remove aKey))).fixUp
      else (n.copyWith none none none none (some (n.right.remove aKey))).fixUp
termination_by t => t.count
decreasing_by
  · exact count_left_lt (entries_stepLeft _) rfl
  · exact Nat.lt_of_le_of_lt (count_right_takeSmallest_le _) (count_right_lt (entries_stepRight _) rfl)
  · exact count_right_lt (entries_stepRight _) rfl

end FLLRBNode

end ShopingList
