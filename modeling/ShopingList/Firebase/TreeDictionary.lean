import ShopingList.Firebase.Balance
import Mathlib.Data.List.Sort

/-!
# Dictionaries on left-leaning trees

`FTreeSortedDictionary`. Inserting and removing go through `FLLRBNode` and paint
the root black. A dictionary of many keys is built in one go: the number of keys
is written with the digits 1 and 2, and every digit gives one or two pennants, a
black node or a black and a red one on top of perfect black trees, hung below
each other on the left.

`Valid` is what all of them keep; on a valid dictionary every method is the one
of sorted lists of entries.
-/

namespace ShopingList

open SortedDict

/-- What the sorted dictionaries raise. -/
inductive FDictionaryException (α : Type) where
  /-- `NonexistentKey`: "getPredecessorKey called with nonexistent key." -/
  | nonexistentKey (key : α)
  /-- `NSInternalInconsistencyException`: "Can't get predecessor key for non-existent key" -/
  | internalInconsistency
  /-- `NSInvalidArgumentException`: "Can't create FImmutableSortedDictionary with keys
  with same ordering!" -/
  | sameOrdering
  /-- `NSRangeException` of an array. -/
  | range
  deriving DecidableEq, Repr

structure FTreeSortedDictionary (α β : Type) where
  root : FLLRBNode α β
  deriving Repr

namespace FTreeSortedDictionary

variable {α β : Type}

/-- `initWithComparator:`. -/
def empty : FTreeSortedDictionary α β := ⟨.emptyNode⟩

def isEmpty (d : FTreeSortedDictionary α β) : Bool := d.root.isEmpty

def count (d : FTreeSortedDictionary α β) : Nat := d.root.count

def minKey (d : FTreeSortedDictionary α β) : Option α := d.root.minKey

def maxKey (d : FTreeSortedDictionary α β) : Option α := d.root.maxKey

theorem maxKey_eq (t : FLLRBNode α β) : t.maxKey = t.entries.getLast?.map Prod.fst := by
  induction t with
  | emptyNode => rfl
  | valueNode k v c l r ihl ihr =>
    rw [FLLRBNode.maxKey, FLLRBNode.entries, List.getLast?_append_cons]
    split
    · rename_i h
      rw [FLLRBNode.eq_emptyNode h]
      rfl
    · rename_i h
      rw [ihr, List.getLast?_cons]
      cases hr : r.entries.getLast? with
      | none =>
        rw [List.getLast?_eq_none_iff, FLLRBNode.entries_eq_nil] at hr
        exact absurd (by rw [hr]; rfl) h
      | some p => rfl

theorem minKey_eq (t : FLLRBNode α β) : t.minKey = t.entries.head?.map Prod.fst := by
  cases h : t.isEmpty with
  | true =>
    rw [FLLRBNode.eq_emptyNode h]
    rfl
  | false =>
    obtain ⟨k, v, hk, -, hh⟩ := FLLRBNode.head_entries_min h
    rw [FLLRBNode.minKey, hk, hh]
    rfl

variable [LinearOrder α]

def insertKey (aKey : α) (aValue : β) (d : FTreeSortedDictionary α β) : FTreeSortedDictionary α β :=
  ⟨(d.root.insertKey aKey aValue).copyWith none none (some .black) none none⟩

/-- The loop of `get:`. -/
def getFrom (key : α) : FLLRBNode α β → Option β
  | .emptyNode => none
  | .valueNode k v _ l r =>
    match compare key k with
    | .eq => some v
    | .lt => getFrom key l
    | .gt => getFrom key r

def get (key : α) (d : FTreeSortedDictionary α β) : Option β := getFrom key d.root

def contains (key : α) (d : FTreeSortedDictionary α β) : Bool := (d.get key).isSome

def removeKey (aKey : α) (d : FTreeSortedDictionary α β) : FTreeSortedDictionary α β :=
  if d.contains aKey then ⟨(d.root.remove aKey).copyWith none none (some .black) none none⟩ else d

/-- The loop of `getPredecessorKey:`; its inner loop, down the right children, is
that of `maxKey`. -/
def predecessorFrom (key : α) (rightParent : Option α) :
    FLLRBNode α β → Except (FDictionaryException α) (Option α)
  | .emptyNode => .error (.nonexistentKey key)
  | .valueNode k _ _ l r =>
    match compare key k with
    | .eq => .ok (if !l.isEmpty then l.maxKey else rightParent)
    | .lt => predecessorFrom key rightParent l
    | .gt => predecessorFrom key (some k) r

def getPredecessorKey (key : α) (d : FTreeSortedDictionary α β) :
    Except (FDictionaryException α) (Option α) :=
  predecessorFrom key none d.root

def entries (d : FTreeSortedDictionary α β) : List (α × β) := d.root.entries

/-- A black root, the three invariants below it, and keys in order. -/
structure Valid (d : FTreeSortedDictionary α β) : Prop where
  balanced : ∃ n, FLLRBNode.LLRB .black n d.root
  sorted : Sorted d.entries

theorem valid_empty : (empty : FTreeSortedDictionary α β).Valid :=
  ⟨⟨_, .emptyNode⟩, sorted_nil⟩

/-! ## Look-ups -/

theorem getFrom_eq {t : FLLRBNode α β} (h : Sorted t.entries) (k : α) :
    getFrom k t = SortedDict.get k t.entries := by
  induction t with
  | emptyNode => rfl
  | valueNode k' v c l r ihl ihr =>
    rw [FLLRBNode.entries] at h ⊢
    obtain ⟨hl, hr, hlk, hkr⟩ := sorted_split.1 h
    rw [getFrom, get_append, SortedDict.get]
    split
    · rename_i hcmp
      obtain rfl := compare_eq_iff_eq.1 hcmp
      rw [get_of_above hlk, if_pos rfl]
      rfl
    · rename_i hcmp
      have hlt : k < k' := compare_lt_iff_lt.1 hcmp
      rw [ihl hl, if_neg hlt.ne, get_of_below fun q hq => hlt.trans (hkr q hq), Option.or_none]
    · rename_i hcmp
      have hgt : k' < k := compare_gt_iff_gt.1 hcmp
      rw [ihr hr, if_neg hgt.ne', get_of_above fun q hq => (hlk q hq).trans hgt]
      rfl

theorem get_eq {d : FTreeSortedDictionary α β} (h : d.Valid) (k : α) :
    d.get k = SortedDict.get k d.entries :=
  getFrom_eq h.sorted k

/-- The key before a key; the first key has none. -/
theorem predecessorFrom_eq {t : FLLRBNode α β} {k : α} {v : β} (h : Sorted t.entries)
    (hk : (k, v) ∈ t.entries) (rightParent : Option α) :
    predecessorFrom k rightParent t =
      .ok (((t.entries.filter fun p => p.1 < k).getLast?.map Prod.fst).or rightParent) := by
  induction t generalizing rightParent with
  | emptyNode => cases hk
  | valueNode k' v' c l r ihl ihr =>
    rw [FLLRBNode.entries] at h hk ⊢
    obtain ⟨hl, hr, hlk, hkr⟩ := sorted_split.1 h
    rw [predecessorFrom, List.filter_append, List.filter_cons]
    split
    · rename_i hcmp
      obtain rfl := compare_eq_iff_eq.1 hcmp
      have hL : (l.entries.filter fun p => p.1 < k) = l.entries :=
        List.filter_eq_self.2 fun q hq => decide_eq_true (hlk q hq)
      have hR : (r.entries.filter fun p => p.1 < k) = [] :=
        List.filter_eq_nil_iff.2 fun q hq => by simpa using (hkr q hq).le
      rw [hL, hR, if_neg (show ¬ decide ((k, v').1 < k) = true by simp), List.append_nil,
        FLLRBNode.isEmpty_eq, maxKey_eq]
      cases hlast : l.entries.getLast? with
      | none =>
        rw [List.getLast?_eq_none_iff.1 hlast]
        rfl
      | some p =>
        have : l.entries.isEmpty = false := by
          cases hl : l.entries with
          | nil =>
            rw [hl] at hlast
            cases hlast
          | cons => rfl
        rw [this]
        rfl
    · rename_i hcmp
      have hlt : k < k' := compare_lt_iff_lt.1 hcmp
      have hR : (r.entries.filter fun p => p.1 < k) = [] :=
        List.filter_eq_nil_iff.2 fun q hq => by simpa using (hlt.trans (hkr q hq)).le
      have hkl : (k, v) ∈ l.entries := by
        rcases List.mem_append.1 hk with hk | hk
        · exact hk
        · rcases List.mem_cons.1 hk with hk | hk
          · cases hk
            exact absurd hlt (lt_irrefl _)
          · exact absurd (hlt.trans (hkr _ hk)) (lt_irrefl _)
      rw [ihl hl hkl, hR, if_neg (show ¬ decide ((k', v').1 < k) = true by simpa using hlt.le),
        List.append_nil]
    · rename_i hcmp
      have hgt : k' < k := compare_gt_iff_gt.1 hcmp
      have hkr' : (k, v) ∈ r.entries := by
        rcases List.mem_append.1 hk with hk | hk
        · exact absurd ((hlk _ hk).trans hgt) (lt_irrefl _)
        · rcases List.mem_cons.1 hk with hk | hk
          · cases hk
            exact absurd hgt (lt_irrefl _)
          · exact hk
      rw [ihr hr hkr', if_pos (decide_eq_true hgt), List.getLast?_append_cons, List.getLast?_cons]
      cases (r.entries.filter fun p => p.1 < k).getLast? <;> rfl

theorem predecessorFrom_absent {t : FLLRBNode α β} {k : α} (h : Sorted t.entries)
    (hk : SortedDict.get k t.entries = none) (rightParent : Option α) :
    predecessorFrom k rightParent t = .error (.nonexistentKey k) := by
  induction t generalizing rightParent with
  | emptyNode => rfl
  | valueNode k' v' c l r ihl ihr =>
    rw [FLLRBNode.entries] at h hk
    obtain ⟨hl, hr, -, -⟩ := sorted_split.1 h
    rw [get_append, Option.or_eq_none_iff, SortedDict.get] at hk
    obtain ⟨hkl, hkr⟩ := hk
    rw [predecessorFrom]
    split
    · rename_i hcmp
      rw [if_pos (compare_eq_iff_eq.1 hcmp)] at hkr
      cases hkr
    · exact ihl hl hkl _
    · rename_i hcmp
      rw [if_neg (compare_gt_iff_gt.1 hcmp).ne'] at hkr
      exact ihr hr hkr _

/-! ## Updates -/

theorem entries_insertKey {d : FTreeSortedDictionary α β} (h : d.Valid) (k : α) (v : β) :
    (d.insertKey k v).entries = SortedDict.set k v d.entries := by
  rw [entries, insertKey, FLLRBNode.entries_copyWith_color, FLLRBNode.entries_insertKey k v h.sorted]
  rfl

theorem valid_insertKey {d : FTreeSortedDictionary α β} (h : d.Valid) (k : α) (v : β) :
    (d.insertKey k v).Valid := by
  refine ⟨?_, by rw [entries_insertKey h]; exact sorted_set h.sorted⟩
  obtain ⟨n, hn⟩ := h.balanced
  obtain ⟨c, hc⟩ := FLLRBNode.llrb_insertKey k v hn
  exact hc.blacken

theorem entries_removeKey {d : FTreeSortedDictionary α β} (h : d.Valid) (k : α) :
    (d.removeKey k).entries = SortedDict.remove k d.entries := by
  obtain ⟨n, hn⟩ := h.balanced
  rw [removeKey, contains, get_eq h]
  split
  · rw [entries, FLLRBNode.entries_copyWith_color]
    exact (FLLRBNode.remove_root hn h.sorted).2
  · rename_i hk
    rw [Option.not_isSome_iff_eq_none, get_eq_none] at hk
    refine (remove_of_notMem fun q hq => ?_).symm
    rintro rfl
    exact hk q.2 hq

theorem valid_removeKey {d : FTreeSortedDictionary α β} (h : d.Valid) (k : α) :
    (d.removeKey k).Valid := by
  refine ⟨?_, by rw [entries_removeKey h]; exact sorted_remove h.sorted⟩
  obtain ⟨n, hn⟩ := h.balanced
  rw [removeKey]
  split
  · exact (FLLRBNode.remove_root hn h.sorted).1
  · exact ⟨n, hn⟩

end FTreeSortedDictionary

end ShopingList
