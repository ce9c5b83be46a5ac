import ShopingList.Firebase.ImmutableDictionary

/-!
# Walking through the dictionaries

`enumerateKeysAndObjects…` calls a block with the entries until it sets `stop`;
`isEqual:` walks through one dictionary and looks the keys up in the other. The
enumerators hand out one key after the other: of an array by position, of a tree
with a stack of nodes whose own key and far side are still to come.

A tree enumerator going back without a start key compares every key as if it
were too large and hands out nothing.
-/

namespace ShopingList

open SortedDict

/-- `next` hands out the keys and then nil. -/
inductive Enumerates {ε α : Type} (next : ε → Option (α × ε)) : ε → List α → Prop
  | done {e : ε} : next e = none → Enumerates next e []
  | step {e e' : ε} {key : α} {keys : List α} : next e = some (key, e') → Enumerates next e' keys →
      Enumerates next e (key :: keys)

/-! ## Blocks -/

section Blocks

variable {α β σ : Type}

/-- A block over a list of entries; it answers YES to stop. -/
def visit (block : α → β → StateM σ Bool) : List (α × β) → StateM σ Bool
  | [] => return false
  | (key, value) :: es => do
    if ← block key value then return true
    visit block es

theorem visit_append (block : α → β → StateM σ Bool) (l r : List (α × β)) :
    visit block (l ++ r) = (do
      if ← visit block l then return true
      visit block r) := by
  induction l with
  | nil => rfl
  | cons p l ih =>
    funext s
    rw [List.cons_append, visit, visit, ih]
    simp only [bind, StateT.bind]
    rcases block p.1 p.2 s with ⟨stop, s'⟩
    cases stop <;> rfl

theorem inorderTraversal_eq (block : α → β → StateM σ Bool) (t : FLLRBNode α β) :
    t.inorderTraversal block = visit block t.entries := by
  induction t with
  | emptyNode => rfl
  | valueNode k v c l r ihl ihr =>
    rw [FLLRBNode.inorderTraversal, FLLRBNode.entries, visit_append, ihl, ihr]
    rfl

theorem reverseTraversal_eq (block : α → β → StateM σ Bool) (t : FLLRBNode α β) :
    t.reverseTraversal block = visit block t.entries.reverse := by
  induction t with
  | emptyNode => rfl
  | valueNode k v c l r ihl ihr =>
    rw [FLLRBNode.reverseTraversal, FLLRBNode.entries, List.reverse_append, List.reverse_cons,
      List.append_assoc, visit_append, ihl, ihr]
    rfl

end Blocks

namespace FImmutableSortedDictionary

variable {α β σ : Type}

/-- The loop of an array, the traversal of a tree. -/
def enumerateKeysAndObjectsReverse (reverse : Bool) (block : α → β → StateM σ Bool) :
    FImmutableSortedDictionary α β → StateM σ Unit
  | array d => do
    let _ ← visit block (if reverse then (d.keys.zip d.values).reverse else d.keys.zip d.values)
  | tree d => do
    let _ ← if reverse then d.root.reverseTraversal block else d.root.inorderTraversal block

/-- Both classes call the block with the entries in order, or from the last back. -/
theorem enumerate_eq [LinearOrder α] (reverse : Bool) (block : α → β → StateM σ Bool)
    (d : FImmutableSortedDictionary α β) :
    d.enumerateKeysAndObjectsReverse reverse block = (do
      let _ ← visit block (if reverse then d.entries.reverse else d.entries)) := by
  cases d with
  | array d => rfl
  | tree d =>
    rw [enumerateKeysAndObjectsReverse, inorderTraversal_eq, reverseTraversal_eq]
    cases reverse <;> rfl

section IsEqual

variable [LinearOrder α] [BEq β]

/-- The block of `isEqual:`; the state is its variable `isEqual`. -/
def isEqualBlock (other : FImmutableSortedDictionary α β) (key : α) (value : β) : StateM Bool Bool :=
  fun isEqual =>
    let isEqual := isEqual && (other.get key == some value)
    (!isEqual, isEqual)

def isEqual (d other : FImmutableSortedDictionary α β) : Bool :=
  if d.count ≠ other.count then false
  else (d.enumerateKeysAndObjectsReverse false other.isEqualBlock true).2

/-- The walk ends early or with the answer. -/
theorem visit_isEqualBlock (other : FImmutableSortedDictionary α β) (es : List (α × β)) :
    (visit other.isEqualBlock es true).2 = es.all fun e => other.get e.1 == some e.2 := by
  induction es with
  | nil => rfl
  | cons e es ih =>
    rw [visit, List.all_cons]
    simp only [bind, StateT.bind, isEqualBlock, Bool.true_and]
    cases other.get e.1 == some e.2 with
    | false => rfl
    | true => exact ih

/-- Equality is that of the entries: an array and a tree can be equal. -/
theorem isEqual_iff [LawfulBEq β] {d other : FImmutableSortedDictionary α β} (hd : d.Valid)
    (hother : other.Valid) : d.isEqual other = true ↔ d.entries = other.entries := by
  have hwalk : (d.enumerateKeysAndObjectsReverse false other.isEqualBlock true).2 =
      d.entries.all fun e => other.get e.1 == some e.2 := by
    rw [enumerate_eq]
    exact visit_isEqualBlock other d.entries
  rw [isEqual, count_eq hd, count_eq hother]
  simp only [hwalk]
  constructor
  · intro h
    split at h
    · cases h
    · rename_i hlen
      rw [List.all_eq_true] at h
      have hsub : d.entries ⊆ other.entries := fun e he => by
        have := beq_iff_eq.1 (h e he)
        rw [get_eq hother] at this
        exact mem_of_get this
      exact SortedDict.eq_of_subset hd.sorted hother.sorted hsub (not_not.1 hlen).ge
  · intro h
    rw [if_neg (by simp [h]), List.all_eq_true]
    intro e he
    rw [beq_iff_eq, get_eq hother]
    exact get_of_mem hother.sorted (h ▸ he)

/-- A tree that shrinks below the threshold stays a tree. -/
theorem isEqual_iff_array_tree : ∃ (t : FTreeSortedDictionary Nat Nat) (a : FArraySortedDictionary Nat Nat),
    fromDictionary ((List.range 27).map fun k => (k, k)) = .ok (tree t) ∧
      fromDictionary ((List.range' 3 24).map fun k => (k, k)) = .ok (array a) ∧
      ((((tree t).removeKey 0).removeKey 1).removeKey 2).isEqual (array a) = true := by
  have hspec : ∀ ks : List Nat, ks.Nodup → ks.length + 1 < 2 ^ 32 → ∃ d : FImmutableSortedDictionary Nat Nat,
      fromDictionary (ks.map fun k => (k, k)) = .ok d ∧ d.Valid ∧
        d.entries = SortedDict.ofList (ks.map fun k => (k, k)) := fun ks hks hlen =>
    fromDictionary_spec (by rwa [List.map_map, show (Prod.fst ∘ fun k : Nat => (k, k)) = id from rfl, List.map_id])
      (by rwa [List.length_map])
  obtain ⟨d, hd, hv, hes⟩ := hspec (List.range 27) (by decide) (by decide)
  obtain ⟨a, ha, hva, hea⟩ := hspec (List.range' 3 24) (by decide) (by decide)
  obtain ⟨t, rfl⟩ := exists_tree (by decide) hd
  obtain ⟨a, rfl⟩ := exists_array (by decide) ha
  obtain ⟨hv₀, he₀⟩ := removeKey_spec hv 0
  obtain ⟨hv₁, he₁⟩ := removeKey_spec hv₀ 1
  obtain ⟨hv₂, he₂⟩ := removeKey_spec hv₁ 2
  refine ⟨t, a, hd, ha, (isEqual_iff hv₂ hva).2 ?_⟩
  rw [he₂, he₁, he₀, hes, hea]
  decide

end IsEqual

end FImmutableSortedDictionary

/-! ## Tree enumerators -/

/-- The stack has its last object first. -/
structure FTreeSortedDictionaryEnumerator (α β : Type) where
  stack : List (FLLRBNode α β)
  isReverse : Bool
  deriving Repr

namespace FTreeSortedDictionaryEnumerator

variable {α β : Type}

/-- The loop that pushes a node and what comes before it. -/
def pushAll (isReverse : Bool) :
    FLLRBNode α β → List (FLLRBNode α β) → List (FLLRBNode α β)
  | .emptyNode, stack => stack
  | .valueNode k v c l r, stack =>
    if isReverse then pushAll isReverse r (.valueNode k v c l r :: stack)
    else pushAll isReverse l (.valueNode k v c l r :: stack)

def nextObject (e : FTreeSortedDictionaryEnumerator α β) :
    Option (α × FTreeSortedDictionaryEnumerator α β) :=
  match e.stack with
  | .valueNode k _ _ l r :: stack =>
    some (k, { e with stack := pushAll e.isReverse (if e.isReverse then l else r) stack })
  | _ => none

/-- The keys of a tree in the order of the walk. -/
def walk (isReverse : Bool) (t : FLLRBNode α β) : List α :=
  let keys := t.entries.map Prod.fst
  if isReverse then keys.reverse else keys

/-- The node's own key and its far side. -/
def pending (isReverse : Bool) : FLLRBNode α β → List α
  | .emptyNode => []
  | .valueNode k _ _ l r => k :: walk isReverse (if isReverse then l else r)

/-- The keys still to come. -/
def remaining (e : FTreeSortedDictionaryEnumerator α β) : List α :=
  e.stack.flatMap (pending e.isReverse)

theorem walk_valueNode (isReverse : Bool) (k : α) (v : β) (c : FLLRBColor) (l r : FLLRBNode α β) :
    walk isReverse (.valueNode k v c l r) =
      walk isReverse (if isReverse then r else l) ++ k :: walk isReverse (if isReverse then l else r) := by
  cases isReverse <;> simp [walk, FLLRBNode.entries]

theorem pushAll_pending (isReverse : Bool) (t : FLLRBNode α β) (stack : List (FLLRBNode α β)) :
    (pushAll isReverse t stack).flatMap (pending isReverse) =
      walk isReverse t ++ stack.flatMap (pending isReverse) := by
  induction t generalizing stack with
  | emptyNode => cases isReverse <;> rfl
  | valueNode k v c l r ihl ihr =>
    rw [pushAll, walk_valueNode]
    cases isReverse with
    | true =>
      rw [if_pos rfl, ihr, List.flatMap_cons, pending]
      simp
    | false =>
      rw [if_neg Bool.false_ne_true, ihl, List.flatMap_cons, pending]
      simp

theorem pushAll_nonempty (isReverse : Bool) {t : FLLRBNode α β} {stack : List (FLLRBNode α β)}
    (h : ∀ n ∈ stack, n.isEmpty = false) : ∀ n ∈ pushAll isReverse t stack, n.isEmpty = false := by
  induction t generalizing stack with
  | emptyNode => exact h
  | valueNode k v c l r ihl ihr =>
    have hcons : ∀ n ∈ FLLRBNode.valueNode k v c l r :: stack, n.isEmpty = false := by
      intro n hn
      rcases List.mem_cons.1 hn with rfl | hn
      · rfl
      · exact h n hn
    rw [pushAll]
    split
    · exact ihr hcons
    · exact ihl hcons

/-- An enumerator hands out what its stack stands for. -/
theorem enumerates_remaining (e : FTreeSortedDictionaryEnumerator α β)
    (h : ∀ n ∈ e.stack, n.isEmpty = false) : Enumerates nextObject e e.remaining := by
  induction hn : e.remaining.length generalizing e with
  | zero =>
    have hnil : e.remaining = [] := List.length_eq_zero_iff.1 hn
    rw [hnil]
    refine .done ?_
    rw [nextObject]
    split
    · rename_i hs
      simp [remaining, hs, pending] at hnil
    · rfl
  | succ n ih =>
    obtain ⟨stack, isReverse⟩ := e
    cases stack with
    | nil => cases hn
    | cons node stack =>
      cases node with
      | emptyNode => cases h _ List.mem_cons_self
      | valueNode k v c l r =>
        have hpush := pushAll_pending isReverse (if isReverse then l else r) stack
        have hrem : remaining ⟨.valueNode k v c l r :: stack, isReverse⟩ = k ::
            remaining ⟨pushAll isReverse (if isReverse then l else r) stack, isReverse⟩ := by
          simp only [remaining, hpush, List.flatMap_cons, pending, List.cons_append]
        rw [hrem] at hn ⊢
        refine .step rfl (ih _ (pushAll_nonempty isReverse fun n hn => ?_) (by simpa using hn))
        exact h n (List.mem_cons_of_mem _ hn)

section Start

variable [LinearOrder α]

/-- The comparison with the start key, flipped going back. -/
def startOrdering (startKey : Option α) (isReverse : Bool) (key : α) : Ordering :=
  let cmp := match startKey with
    | some s => compare key s
    | none => .gt
  if isReverse then cmp.swap else cmp

/-- The loop of the initializer. -/
def pushFrom (startKey : Option α) (isReverse : Bool) :
    FLLRBNode α β → List (FLLRBNode α β) → List (FLLRBNode α β)
  | .emptyNode, stack => stack
  | .valueNode k v c l r, stack =>
    match startOrdering startKey isReverse k with
    | .lt => if isReverse then pushFrom startKey isReverse l stack else pushFrom startKey isReverse r stack
    | .eq => .valueNode k v c l r :: stack
    | .gt =>
      if isReverse then pushFrom startKey isReverse r (.valueNode k v c l r :: stack)
      else pushFrom startKey isReverse l (.valueNode k v c l r :: stack)

def new (d : FTreeSortedDictionary α β) (startKey : Option α) (isReverse : Bool) :
    FTreeSortedDictionaryEnumerator α β :=
  ⟨pushFrom startKey isReverse d.root [], isReverse⟩

/-- The keys from the start key on, in the order of the walk. -/
def walkFrom (startKey : Option α) (isReverse : Bool) (t : FLLRBNode α β) : List α :=
  (walk isReverse t).filter fun k => startOrdering startKey isReverse k ≠ .lt

theorem pushFrom_nonempty (startKey : Option α) (isReverse : Bool) {t : FLLRBNode α β}
    {stack : List (FLLRBNode α β)} (h : ∀ n ∈ stack, n.isEmpty = false) :
    ∀ n ∈ pushFrom startKey isReverse t stack, n.isEmpty = false := by
  induction t generalizing stack with
  | emptyNode => exact h
  | valueNode k v c l r ihl ihr =>
    have hcons : ∀ n ∈ FLLRBNode.valueNode k v c l r :: stack, n.isEmpty = false := by
      intro n hn
      rcases List.mem_cons.1 hn with rfl | hn
      · rfl
      · exact h n hn
    rw [pushFrom]
    split
    · split
      · exact ihl h
      · exact ihr h
    · exact hcons
    · split
      · exact ihr hcons
      · exact ihl hcons

/-- Comes earlier in the walk. -/
def Before (isReverse : Bool) (a b : α) : Prop := if isReverse then b < a else a < b

theorem startOrdering_lt {startKey : Option α} {isReverse : Bool} {a b : α}
    (h : Before isReverse a b) (hb : startOrdering startKey isReverse b ≠ .gt) :
    startOrdering startKey isReverse a = .lt := by
  cases startKey with
  | none => cases isReverse <;> simp_all [startOrdering]
  | some s =>
    cases isReverse with
    | false =>
      have h : a < b := h
      have hb : b ≤ s := not_lt.1 fun hs => hb (compare_gt_iff_gt.2 hs)
      exact compare_lt_iff_lt.2 (h.trans_le hb)
    | true =>
      have h : b < a := h
      have hb : s ≤ b := not_lt.1 fun hs => hb (by simp [startOrdering, compare_lt_iff_lt.2 hs])
      simp [startOrdering, compare_gt_iff_gt.2 (hb.trans_lt h)]

theorem startOrdering_gt {startKey : Option α} {isReverse : Bool} {a b : α}
    (h : Before isReverse a b) (ha : startOrdering startKey isReverse a ≠ .lt) :
    startOrdering startKey isReverse b = .gt := by
  cases startKey with
  | none => cases isReverse <;> simp_all [startOrdering]
  | some s =>
    cases isReverse with
    | false =>
      have h : a < b := h
      have ha : s ≤ a := not_lt.1 fun hs => ha (compare_lt_iff_lt.2 hs)
      exact compare_gt_iff_gt.2 (ha.trans_lt h)
    | true =>
      have h : b < a := h
      have ha : a ≤ s := not_lt.1 fun hs => ha (by simp [startOrdering, compare_gt_iff_gt.2 hs])
      simp [startOrdering, compare_lt_iff_lt.2 (h.trans_le ha)]

/-- The near side of a node comes before it, the far side after it. -/
theorem before_of_sorted (isReverse : Bool) {k : α} {v : β} {c : FLLRBColor} {l r : FLLRBNode α β}
    (h : Sorted (FLLRBNode.valueNode k v c l r).entries) :
    (∀ a ∈ walk isReverse (if isReverse then r else l), Before isReverse a k) ∧
      ∀ b ∈ walk isReverse (if isReverse then l else r), Before isReverse k b := by
  rw [FLLRBNode.entries] at h
  obtain ⟨-, -, hlk, hkr⟩ := sorted_split.1 h
  cases isReverse with
  | false =>
    refine ⟨fun a ha => ?_, fun b hb => ?_⟩
    · obtain ⟨q, hq, rfl⟩ := List.mem_map.1 ha
      exact hlk q hq
    · obtain ⟨q, hq, rfl⟩ := List.mem_map.1 hb
      exact hkr q hq
  | true =>
    refine ⟨fun a ha => ?_, fun b hb => ?_⟩
    · obtain ⟨q, hq, rfl⟩ := List.mem_map.1 (List.mem_reverse.1 ha)
      exact hkr q hq
    · obtain ⟨q, hq, rfl⟩ := List.mem_map.1 (List.mem_reverse.1 hb)
      exact hlk q hq

theorem pushFrom_pending (startKey : Option α) (isReverse : Bool) {t : FLLRBNode α β}
    (h : Sorted t.entries) (stack : List (FLLRBNode α β)) :
    (pushFrom startKey isReverse t stack).flatMap (pending isReverse) =
      walkFrom startKey isReverse t ++ stack.flatMap (pending isReverse) := by
  induction t generalizing stack with
  | emptyNode => cases isReverse <;> rfl
  | valueNode k v c l r ihl ihr =>
    obtain ⟨hnear, hfar⟩ := before_of_sorted isReverse h
    rw [FLLRBNode.entries] at h
    obtain ⟨hl, hr, -, -⟩ := sorted_split.1 h
    rw [pushFrom, walkFrom, walk_valueNode, List.filter_append, List.filter_cons]
    have hlt : startOrdering startKey isReverse k ≠ .gt →
        (walk isReverse (if isReverse then r else l)).filter
          (fun k => startOrdering startKey isReverse k ≠ .lt) = [] := fun hk =>
      List.filter_eq_nil_iff.2 fun a ha => by simp [startOrdering_lt (hnear a ha) hk]
    have hgt : startOrdering startKey isReverse k ≠ .lt →
        (walk isReverse (if isReverse then l else r)).filter
          (fun k => startOrdering startKey isReverse k ≠ .lt) =
            walk isReverse (if isReverse then l else r) := fun hk =>
      List.filter_eq_self.2 fun b hb => by simp [startOrdering_gt (hfar b hb) hk]
    split
    · rename_i hcmp
      have hk : ¬ decide (startOrdering startKey isReverse k ≠ .lt) = true := by simp [hcmp]
      rw [hlt (by simp [hcmp]), if_neg hk]
      cases isReverse with
      | true => exact ihl hl stack
      | false => exact ihr hr stack
    · rename_i hcmp
      have hk : decide (startOrdering startKey isReverse k ≠ .lt) = true := by simp [hcmp]
      rw [hlt (by simp [hcmp]), if_pos hk, hgt (by simp [hcmp])]
      rfl
    · rename_i hcmp
      have hk : decide (startOrdering startKey isReverse k ≠ .lt) = true := by simp [hcmp]
      rw [if_pos hk, hgt (by simp [hcmp])]
      cases isReverse with
      | true =>
        rw [if_pos rfl, ihr hr, List.flatMap_cons, pending, walkFrom]
        simp
      | false =>
        rw [if_neg Bool.false_ne_true, ihl hl, List.flatMap_cons, pending, walkFrom]
        simp

/-- The keys an enumerator of a valid tree hands out. -/
theorem enumerates_new {d : FTreeSortedDictionary α β} (h : Sorted d.entries) (startKey : Option α)
    (isReverse : Bool) :
    Enumerates nextObject (new d startKey isReverse) (walkFrom startKey isReverse d.root) := by
  have hrem : (new d startKey isReverse).remaining = walkFrom startKey isReverse d.root := by
    have := pushFrom_pending startKey isReverse h []
    rw [List.flatMap_nil, List.append_nil] at this
    exact this
  rw [← hrem]
  exact enumerates_remaining _ (pushFrom_nonempty startKey isReverse (by simp))

end Start

end FTreeSortedDictionaryEnumerator

/-! ## Array enumerators -/

structure FArraySortedDictionaryEnumerator (α : Type) where
  keys : List α
  pos : Int
  isReverse : Bool
  deriving Repr

namespace FArraySortedDictionaryEnumerator

variable {α : Type}

def nextObject (e : FArraySortedDictionaryEnumerator α) :
    Option (α × FArraySortedDictionaryEnumerator α) :=
  if 0 ≤ e.pos then
    (e.keys[e.pos.toNat]?).map fun key =>
      (key, { e with pos := if e.isReverse then e.pos - 1 else e.pos + 1 })
  else none

theorem enumerates_forward (keys : List α) (pos : Nat) :
    Enumerates nextObject ⟨keys, pos, false⟩ (keys.drop pos) := by
  induction hn : keys.length - pos generalizing pos with
  | zero =>
    rw [List.drop_eq_nil_of_le (by omega)]
    exact .done (by simp [nextObject]; omega)
  | succ n ih =>
    have hlt : pos < keys.length := by omega
    rw [List.drop_eq_getElem_cons hlt]
    exact .step (by simp [nextObject, hlt]) (ih (pos + 1) (by omega))

theorem enumerates_backward (keys : List α) (pos : Nat) (h : pos ≤ keys.length) :
    Enumerates nextObject ⟨keys, pos - 1, true⟩ (keys.take pos).reverse := by
  induction pos with
  | zero => exact .done rfl
  | succ pos ih =>
    have hlt : pos < keys.length := by omega
    rw [List.take_succ_eq_append_getElem hlt, List.reverse_append, List.reverse_singleton,
      List.singleton_append]
    refine .step ?_ (ih (by omega))
    simp [nextObject, hlt]

end FArraySortedDictionaryEnumerator

/-- The enumerators of the two classes. -/
inductive FKeyEnumerator (α β : Type) where
  | array (e : FArraySortedDictionaryEnumerator α)
  | tree (e : FTreeSortedDictionaryEnumerator α β)
  deriving Repr

def FKeyEnumerator.nextObject {α β : Type} : FKeyEnumerator α β → Option (α × FKeyEnumerator α β)
  | array e => e.nextObject.map fun p => (p.1, array p.2)
  | tree e => e.nextObject.map fun p => (p.1, tree p.2)

theorem Enumerates.array {α β : Type} {e : FArraySortedDictionaryEnumerator α} {keys : List α}
    (h : Enumerates FArraySortedDictionaryEnumerator.nextObject e keys) :
    Enumerates FKeyEnumerator.nextObject (.array e : FKeyEnumerator α β) keys := by
  induction h with
  | done h => exact .done (by simp [FKeyEnumerator.nextObject, h])
  | step h _ ih => exact .step (by simp [FKeyEnumerator.nextObject, h]) ih

theorem Enumerates.tree {α β : Type} {e : FTreeSortedDictionaryEnumerator α β} {keys : List α}
    (h : Enumerates FTreeSortedDictionaryEnumerator.nextObject e keys) :
    Enumerates FKeyEnumerator.nextObject (.tree e : FKeyEnumerator α β) keys := by
  induction h with
  | done h => exact .done (by simp [FKeyEnumerator.nextObject, h])
  | step h _ ih => exact .step (by simp [FKeyEnumerator.nextObject, h]) ih

namespace FImmutableSortedDictionary

variable {α β : Type} [LinearOrder α]

def keyEnumerator : FImmutableSortedDictionary α β → FKeyEnumerator α β
  | array d => .array ⟨d.keys, 0, false⟩
  | tree d => .tree (.new d none false)

def keyEnumeratorFrom (startKey : α) : FImmutableSortedDictionary α β → FKeyEnumerator α β
  | array d => .array ⟨d.keys, FArraySortedDictionary.findInsertPositionForKey startKey d.keys, false⟩
  | tree d => .tree (.new d (some startKey) false)

def reverseKeyEnumerator : FImmutableSortedDictionary α β → FKeyEnumerator α β
  | array d => .array ⟨d.keys, d.keys.length - 1, true⟩
  | tree d => .tree (.new d none true)

/-- Without an exact match the position is after the closest one. -/
def reverseKeyEnumeratorFrom (startKey : α) : FImmutableSortedDictionary α β → FKeyEnumerator α β
  | array d =>
    let startPos := FArraySortedDictionary.findInsertPositionForKey startKey d.keys
    let exactMatch := d.keys[startPos]?.map fun key => compare key startKey
    .array ⟨d.keys, if exactMatch = some .eq then startPos else startPos - 1, true⟩
  | tree d => .tree (.new d (some startKey) true)

def keys (d : FImmutableSortedDictionary α β) : List α := d.entries.map Prod.fst

theorem findInsertPositionForKey_split {ks : List α} (h : ks.Pairwise (· < ·)) (s : α) :
    ks.take (FArraySortedDictionary.findInsertPositionForKey s ks) = ks.filter (· < s) ∧
      ks.drop (FArraySortedDictionary.findInsertPositionForKey s ks) = ks.filter (s ≤ ·) := by
  induction ks with
  | nil => exact ⟨rfl, rfl⟩
  | cons k ks ih =>
    obtain ⟨hk, hks⟩ := List.pairwise_cons.1 h
    obtain ⟨h1, h2⟩ := ih hks
    rw [FArraySortedDictionary.findInsertPositionForKey]
    split
    · rename_i hcmp
      have hlt : k < s := compare_lt_iff_lt.1 hcmp
      simp [hlt, hlt.not_ge, h1, h2]
    · rename_i hcmp
      have hge : s ≤ k := not_lt.1 fun hlt => hcmp (compare_lt_iff_lt.2 hlt)
      have hnil : ks.filter (· < s) = [] :=
        List.filter_eq_nil_iff.2 fun a ha => by simpa using (hge.trans (hk a ha).le)
      have hall : ks.filter (s ≤ ·) = ks :=
        List.filter_eq_self.2 fun a ha => by simpa using (hge.trans (hk a ha).le)
      simp [hge, hge.not_gt, hnil, hall]

/-- Below the insert position, and the key itself if it is there. -/
theorem filter_le_eq {ks : List α} (h : ks.Pairwise (· < ·)) (s : α) :
    let pos := FArraySortedDictionary.findInsertPositionForKey s ks
    ks.filter (· ≤ s) =
      ks.take (if ks[pos]?.map (fun key => compare key s) = some .eq then pos + 1 else pos) := by
  intro pos
  obtain ⟨htake, hdrop⟩ := findInsertPositionForKey_split h s
  have hsplit : ks.filter (· ≤ s) = ks.take pos ++ (ks.drop pos).filter (· ≤ s) := by
    conv_lhs => rw [← List.take_append_drop pos ks]
    rw [List.filter_append, htake, List.filter_filter]
    congr 1
    refine List.filter_congr fun a _ => ?_
    by_cases ha : a < s <;> simp [ha, le_of_lt]
  have hafter : ∀ ks' : List α, ks'.Pairwise (· < ·) → (∀ a ∈ ks', s ≤ a) →
      ks'.filter (· ≤ s) = ks'.take (if ks'[0]?.map (fun key => compare key s) = some .eq then 1 else 0) := by
    intro ks' hks' hle
    cases ks' with
    | nil => rfl
    | cons k ks' =>
      obtain ⟨hk, -⟩ := List.pairwise_cons.1 hks'
      have hnil : ks'.filter (· ≤ s) = [] := List.filter_eq_nil_iff.2 fun a ha => by
        simpa using (hle k List.mem_cons_self).trans_lt (hk a ha)
      rw [List.filter_cons, hnil]
      by_cases hks : k = s
      · simp [hks]
      · have hlt : s < k := lt_of_le_of_ne (hle k List.mem_cons_self) (Ne.symm hks)
        simp [hlt.not_ge, compare_gt_iff_gt.2 hlt]
  have hdrop' : ∀ a ∈ ks.drop pos, s ≤ a := by
    intro a ha
    rw [hdrop] at ha
    simpa using (List.mem_filter.1 ha).2
  rw [hsplit, hafter _ (h.sublist (List.drop_sublist ..)) hdrop', List.getElem?_drop, Nat.add_zero]
  split
  · rw [List.take_add]
  · rw [List.take_zero, List.append_nil]

theorem pairwise_keys {d : FImmutableSortedDictionary α β} (h : d.Valid) : d.keys.Pairwise (· < ·) :=
  h.sorted

theorem keys_array {d : FArraySortedDictionary α β} (h : d.Valid) :
    (array d : FImmutableSortedDictionary α β).keys = d.keys := by
  have hlen := h.length_eq
  rw [keys, entries, FArraySortedDictionary.entries, List.map_fst_zip (by omega)]

theorem enumerates_keyEnumerator {d : FImmutableSortedDictionary α β} (h : d.Valid) :
    Enumerates FKeyEnumerator.nextObject d.keyEnumerator d.keys := by
  cases d with
  | array d =>
    rw [keys_array h]
    exact (FArraySortedDictionaryEnumerator.enumerates_forward d.keys 0).array
  | tree d =>
    have henum := FTreeSortedDictionaryEnumerator.enumerates_new (d := d)
      (FTreeSortedDictionary.Valid.sorted h) none false
    rw [FTreeSortedDictionaryEnumerator.walkFrom, List.filter_eq_self.2] at henum
    · exact henum.tree
    · intro a _
      rfl

theorem enumerates_keyEnumeratorFrom {d : FImmutableSortedDictionary α β} (h : d.Valid) (startKey : α) :
    Enumerates FKeyEnumerator.nextObject (d.keyEnumeratorFrom startKey)
      (d.keys.filter (startKey ≤ ·)) := by
  have hkeys := pairwise_keys h
  cases d with
  | array d =>
    rw [keys_array h] at hkeys ⊢
    rw [← (findInsertPositionForKey_split hkeys startKey).2]
    exact (FArraySortedDictionaryEnumerator.enumerates_forward d.keys _).array
  | tree d =>
    have henum := FTreeSortedDictionaryEnumerator.enumerates_new (d := d)
      (FTreeSortedDictionary.Valid.sorted h) (some startKey) false
    rw [FTreeSortedDictionaryEnumerator.walkFrom] at henum
    have heq : ∀ a : α, decide (FTreeSortedDictionaryEnumerator.startOrdering (some startKey) false a ≠ .lt) =
        decide (startKey ≤ a) := fun a => by
      refine decide_eq_decide.2 ?_
      rw [FTreeSortedDictionaryEnumerator.startOrdering]
      exact (not_congr compare_lt_iff_lt).trans not_lt
    simp only [heq] at henum
    exact henum.tree

theorem enumerates_reverseKeyEnumeratorFrom {d : FImmutableSortedDictionary α β} (h : d.Valid)
    (startKey : α) :
    Enumerates FKeyEnumerator.nextObject (d.reverseKeyEnumeratorFrom startKey)
      (d.keys.filter (· ≤ startKey)).reverse := by
  have hkeys := pairwise_keys h
  cases d with
  | array d =>
    rw [keys_array h] at hkeys ⊢
    rw [filter_le_eq hkeys startKey, reverseKeyEnumeratorFrom]
    have hle := FArraySortedDictionary.findInsertPositionForKey_le startKey d.keys
    split
    · rename_i hmatch
      have hlt : FArraySortedDictionary.findInsertPositionForKey startKey d.keys < d.keys.length := by
        obtain ⟨a, ha, -⟩ := Option.map_eq_some_iff.1 hmatch
        exact (List.getElem?_eq_some_iff.1 ha).1
      have henum := FArraySortedDictionaryEnumerator.enumerates_backward d.keys _ (Nat.succ_le_of_lt hlt)
      rw [show ((FArraySortedDictionary.findInsertPositionForKey startKey d.keys + 1 : Nat) : Int) - 1 =
        FArraySortedDictionary.findInsertPositionForKey startKey d.keys by omega] at henum
      exact henum.array
    · exact (FArraySortedDictionaryEnumerator.enumerates_backward d.keys _ hle).array
  | tree d =>
    have henum := FTreeSortedDictionaryEnumerator.enumerates_new (d := d)
      (FTreeSortedDictionary.Valid.sorted h) (some startKey) true
    rw [FTreeSortedDictionaryEnumerator.walkFrom] at henum
    have heq : ∀ a : α, decide (FTreeSortedDictionaryEnumerator.startOrdering (some startKey) true a ≠ .lt) =
        decide (a ≤ startKey) := fun a => by
      refine decide_eq_decide.2 ?_
      rw [FTreeSortedDictionaryEnumerator.startOrdering, ne_eq]
      simp only [if_true]
      rw [Ordering.swap_eq_lt, compare_gt_iff_gt, not_lt]
    simp only [heq] at henum
    rw [FTreeSortedDictionaryEnumerator.walk, if_pos rfl, List.filter_reverse] at henum
    exact henum.tree

/-- Without a start key an array is walked back and a tree is not. -/
theorem enumerates_reverseKeyEnumerator {d : FImmutableSortedDictionary α β} (h : d.Valid) :
    Enumerates FKeyEnumerator.nextObject d.reverseKeyEnumerator
      (match d with
        | array _ => d.keys.reverse
        | tree _ => []) := by
  cases d with
  | array d =>
    change Enumerates _ _ (array d).keys.reverse
    rw [keys_array h]
    have henum := FArraySortedDictionaryEnumerator.enumerates_backward d.keys _ (Nat.le_refl _)
    rw [List.take_length] at henum
    exact henum.array
  | tree d =>
    have henum := FTreeSortedDictionaryEnumerator.enumerates_new (d := d)
      (FTreeSortedDictionary.Valid.sorted h) none true
    rw [FTreeSortedDictionaryEnumerator.walkFrom, List.filter_eq_nil_iff.2] at henum
    · exact henum.tree
    · intro a _
      simp [FTreeSortedDictionaryEnumerator.startOrdering]

/-- **The enumerators after any updates.** Three of them hand out the keys of the map, all or from the start
key on, in their order; the reverse one without a start key hands out all of an array and nothing of a tree. -/
theorem enumerates_run (dictionary : List (α × β)) (updates : List (Update α β))
    (h : (dictionary.map Prod.fst).Nodup) (hlen : dictionary.length + 1 < 2 ^ 32) :
    ∃ d d', fromDictionary dictionary = .ok d ∧ run updates d = .ok d' ∧
      let keys := (updates.foldl Update.onEntries (SortedDict.ofList dictionary)).map Prod.fst
      Enumerates FKeyEnumerator.nextObject d'.keyEnumerator keys ∧
        (∀ startKey, Enumerates FKeyEnumerator.nextObject (d'.keyEnumeratorFrom startKey)
          (keys.filter (startKey ≤ ·))) ∧
        (∀ startKey, Enumerates FKeyEnumerator.nextObject (d'.reverseKeyEnumeratorFrom startKey)
          (keys.filter (· ≤ startKey)).reverse) ∧
        Enumerates FKeyEnumerator.nextObject d'.reverseKeyEnumerator
          (match d' with
            | array _ => keys.reverse
            | tree _ => []) := by
  obtain ⟨d, hd, hv, hes⟩ := fromDictionary_spec h hlen
  obtain ⟨d', hd', hv', hes'⟩ := run_spec hv updates
  refine ⟨d, d', hd, hd', ?_⟩
  intro keys
  have hkeys : d'.keys = keys := by
    unfold FImmutableSortedDictionary.keys
    rw [hes', hes]
  rw [← hkeys]
  refine ⟨enumerates_keyEnumerator hv', enumerates_keyEnumeratorFrom hv', enumerates_reverseKeyEnumeratorFrom hv', ?_⟩
  have hreverse := enumerates_reverseKeyEnumerator hv'
  cases d' with
  | array d' => exact hreverse
  | tree d' => exact hreverse

/-- A tree of thirty entries, after an insertion and a removal. -/
theorem enumerates_run_tree : ∃ d d' : FImmutableSortedDictionary Nat Nat,
    fromDictionary ((List.range 30).map fun k => (k, k)) = .ok d ∧
      run [.insertKey 40 1, .removeKey 2] d = .ok d' ∧
      Enumerates FKeyEnumerator.nextObject (d'.keyEnumeratorFrom 28) [28, 29, 40] ∧
      Enumerates FKeyEnumerator.nextObject (d'.reverseKeyEnumeratorFrom 4) [4, 3, 1, 0] := by
  obtain ⟨d, d', hd, hd', -, hfrom, hreverse, -⟩ := enumerates_run ((List.range 30).map fun k => (k, k))
    [Update.insertKey 40 1, .removeKey 2] (by decide) (by decide)
  have hforward : ([Update.insertKey 40 1, .removeKey 2].foldl Update.onEntries
      (SortedDict.ofList ((List.range 30).map fun k => (k, k)))).map Prod.fst = [0, 1] ++ List.range' 3 27 ++ [40] := by
    decide
  rw [hforward] at hfrom hreverse
  exact ⟨d, d', hd, hd', hfrom 28, hreverse 4⟩

end FImmutableSortedDictionary

end ShopingList
