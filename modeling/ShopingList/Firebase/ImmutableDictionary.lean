import ShopingList.Firebase.Pennants

/-!
# Immutable sorted dictionaries

`FImmutableSortedDictionary` is an array of keys beside an array of values while
it is small and a left-leaning tree once a key is added to 25 others; it never
goes back. `entries` forgets which of the two it is. Whatever is inserted and
removed, the entries are those of the sorted association list (`entries_run`),
which is how the nodes of the database hold their children.
-/

namespace ShopingList

open SortedDict

/-- `SORTED_DICTIONARY_ARRAY_TO_RB_TREE_SIZE_THRESHOLD`. -/
def sortedDictionaryArrayToRbTreeSizeThreshold : Nat := 25

structure FArraySortedDictionary (α β : Type) where
  keys : List α
  values : List β
  deriving Repr

/-- The two classes of the cluster. -/
inductive FImmutableSortedDictionary (α β : Type) where
  | array (d : FArraySortedDictionary α β)
  | tree (d : FTreeSortedDictionary α β)
  deriving Repr

namespace FArraySortedDictionary

variable {α β : Type}

def empty : FArraySortedDictionary α β := ⟨[], []⟩

def count (d : FArraySortedDictionary α β) : Nat := d.keys.length

variable [LinearOrder α]

def findInsertPositionForKey (key : α) : List α → Nat
  | [] => 0
  | k :: keys => if compare k key = .lt then findInsertPositionForKey key keys + 1 else 0

/-- `NSNotFound` is `none`. -/
def findKey (key : α) : List α → Option Nat
  | [] => none
  | k :: keys =>
    match compare key k with
    | .eq => some 0
    | .lt => none
    | .gt => (findKey key keys).map (· + 1)

def fromDictionary (dictionary : List (α × β)) :
    Except (FDictionaryException α) (FArraySortedDictionary α β) := do
  let sortedKeyList := FTreeSortedDictionary.sortedKeys dictionary
  if FTreeSortedDictionary.sameOrdering sortedKeyList then throw .sameOrdering
  return ⟨sortedKeyList.map Prod.fst, sortedKeyList.map Prod.snd⟩

/-- Above the threshold the entries go to a mutable dictionary and from there to a tree. -/
def insertKey (key : α) (value : β) (d : FArraySortedDictionary α β) :
    Except (FDictionaryException α) (FImmutableSortedDictionary α β) :=
  match findKey key d.keys with
  | none =>
    if d.count ≥ sortedDictionaryArrayToRbTreeSizeThreshold then do
      let dict := SortedDict.set key value (SortedDict.ofList (d.keys.zip d.values))
      return .tree (← FTreeSortedDictionary.fromDictionary dict)
    else
      let newPos := findInsertPositionForKey key d.keys
      .ok (.array ⟨d.keys.insertIdx newPos key, d.values.insertIdx newPos value⟩)
  | some pos => .ok (.array ⟨d.keys.set pos key, d.values.set pos value⟩)

def removeKey (key : α) (d : FArraySortedDictionary α β) : FArraySortedDictionary α β :=
  match findKey key d.keys with
  | none => d
  | some pos => ⟨d.keys.eraseIdx pos, d.values.eraseIdx pos⟩

def get (key : α) (d : FArraySortedDictionary α β) : Option β :=
  match findKey key d.keys with
  | none => none
  | some pos => d.values[pos]?

def getPredecessorKey (key : α) (d : FArraySortedDictionary α β) :
    Except (FDictionaryException α) (Option α) :=
  match findKey key d.keys with
  | none => .error .internalInconsistency
  | some 0 => .ok none
  | some (pos + 1) => .ok d.keys[pos]?

def entries (d : FArraySortedDictionary α β) : List (α × β) := d.keys.zip d.values

/-- As many values as keys, the keys in order and few. -/
structure Valid (d : FArraySortedDictionary α β) : Prop where
  length_eq : d.keys.length = d.values.length
  sorted : Sorted d.entries
  few : d.count ≤ sortedDictionaryArrayToRbTreeSizeThreshold

/-! ## Positions -/

section Positions

variable {key k : α} {keys : List α} {values : List β}

theorem zip_insertIdx (value : β) (hlen : keys.length = values.length) (h : findKey key keys = none) :
    (keys.insertIdx (findInsertPositionForKey key keys) key).zip
        (values.insertIdx (findInsertPositionForKey key keys) value) =
      SortedDict.set key value (keys.zip values) := by
  induction keys generalizing values with
  | nil =>
    cases values with
    | nil => rfl
    | cons => cases hlen
  | cons k keys ih =>
    cases values with
    | nil => cases hlen
    | cons v values =>
      rw [findKey] at h
      rw [findInsertPositionForKey, List.zip_cons_cons, SortedDict.set]
      split at h
      · cases h
      · rename_i hcmp
        have hlt : key < k := compare_lt_iff_lt.1 hcmp
        rw [if_neg (fun hc => hlt.not_gt (compare_lt_iff_lt.1 hc)), if_pos hlt]
        rfl
      · rename_i hcmp
        have hgt : k < key := compare_gt_iff_gt.1 hcmp
        rw [if_pos (compare_lt_iff_lt.2 hgt), if_neg hgt.not_gt, if_neg hgt.ne']
        rw [Option.map_eq_none_iff] at h
        rw [List.insertIdx_succ_cons, List.insertIdx_succ_cons, List.zip_cons_cons,
          ih (by simpa using hlen) h]

theorem findInsertPositionForKey_le (key : α) (keys : List α) :
    findInsertPositionForKey key keys ≤ keys.length := by
  induction keys with
  | nil => exact Nat.le_refl _
  | cons k keys ih =>
    rw [findInsertPositionForKey, List.length_cons]
    split <;> omega

theorem zip_set (value : β) {pos : Nat} (hlen : keys.length = values.length) (h : findKey key keys = some pos) :
    (keys.set pos key).zip (values.set pos value) = SortedDict.set key value (keys.zip values) := by
  induction keys generalizing values pos with
  | nil => cases h
  | cons k keys ih =>
    cases values with
    | nil => cases hlen
    | cons v values =>
      rw [findKey] at h
      rw [List.zip_cons_cons, SortedDict.set]
      split at h
      · rename_i hcmp
        obtain rfl := compare_eq_iff_eq.1 hcmp
        cases h
        rw [if_neg (lt_irrefl _), if_pos rfl]
        rfl
      · cases h
      · rename_i hcmp
        have hgt : k < key := compare_gt_iff_gt.1 hcmp
        obtain ⟨p, hp, rfl⟩ := Option.map_eq_some_iff.1 h
        rw [if_neg hgt.not_gt, if_neg hgt.ne', List.set_cons_succ, List.set_cons_succ,
          List.zip_cons_cons, ih (by simpa using hlen) hp]

theorem zip_eraseIdx {pos : Nat} (hlen : keys.length = values.length) (hs : Sorted (keys.zip values))
    (h : findKey key keys = some pos) :
    (keys.eraseIdx pos).zip (values.eraseIdx pos) = SortedDict.remove key (keys.zip values) := by
  induction keys generalizing values pos with
  | nil => cases h
  | cons k keys ih =>
    cases values with
    | nil => cases hlen
    | cons v values =>
      rw [List.zip_cons_cons] at hs ⊢
      obtain ⟨hk, hs⟩ := sorted_cons.1 hs
      rw [findKey] at h
      split at h
      · rename_i hcmp
        obtain rfl := compare_eq_iff_eq.1 hcmp
        cases h
        rw [remove_cons_self, remove_of_below hk]
        rfl
      · cases h
      · rename_i hcmp
        have hgt : k < key := compare_gt_iff_gt.1 hcmp
        obtain ⟨p, hp, rfl⟩ := Option.map_eq_some_iff.1 h
        rw [remove_cons_ne hgt.ne, List.eraseIdx_cons_succ, List.eraseIdx_cons_succ,
          List.zip_cons_cons, ih (by simpa using hlen) hs hp]

/-- The position of a key is that of its entry, with the smaller keys before it. -/
theorem findKey_eq_some {pos : Nat} (hlen : keys.length = values.length)
    (hs : Sorted (keys.zip values)) (h : findKey key keys = some pos) :
    ∃ v, values[pos]? = some v ∧ (keys.zip values)[pos]? = some (key, v) ∧
      (keys.zip values).filter (fun p => p.1 < key) = (keys.zip values).take pos := by
  induction keys generalizing values pos with
  | nil => cases h
  | cons k keys ih =>
    cases values with
    | nil => cases hlen
    | cons v values =>
      rw [List.zip_cons_cons] at hs ⊢
      obtain ⟨hk, hs⟩ := sorted_cons.1 hs
      rw [findKey] at h
      split at h
      · rename_i hcmp
        obtain rfl := compare_eq_iff_eq.1 hcmp
        cases h
        refine ⟨v, rfl, rfl, List.filter_eq_nil_iff.2 fun q hq => ?_⟩
        rcases List.mem_cons.1 hq with rfl | hq
        · simp
        · simpa using (hk q hq).le
      · cases h
      · rename_i hcmp
        have hgt : k < key := compare_gt_iff_gt.1 hcmp
        obtain ⟨p, hp, rfl⟩ := Option.map_eq_some_iff.1 h
        obtain ⟨w, hw, hz, hf⟩ := ih (by simpa using hlen) hs hp
        refine ⟨w, by simpa using hw, by simpa using hz, ?_⟩
        rw [List.filter_cons, if_pos (decide_eq_true hgt), hf, List.take_succ_cons]

theorem findKey_eq_none (hs : Sorted (keys.zip values)) (h : findKey key keys = none) :
    SortedDict.get key (keys.zip values) = none := by
  induction keys generalizing values with
  | nil => rfl
  | cons k keys ih =>
    cases values with
    | nil => rfl
    | cons v values =>
      rw [List.zip_cons_cons] at hs ⊢
      obtain ⟨hk, hs⟩ := sorted_cons.1 hs
      rw [findKey] at h
      rw [SortedDict.get]
      split at h
      · cases h
      · rename_i hcmp
        have hlt : key < k := compare_lt_iff_lt.1 hcmp
        rw [if_neg hlt.ne, get_of_below fun q hq => hlt.trans (hk q hq)]
      · rename_i hcmp
        rw [Option.map_eq_none_iff] at h
        rw [if_neg (compare_gt_iff_gt.1 hcmp).ne', ih hs h]

end Positions

/-! ## Array dictionaries -/

section Array

variable {d : FArraySortedDictionary α β} {key : α} {value : β}

theorem valid_empty : (empty : FArraySortedDictionary α β).Valid :=
  ⟨rfl, sorted_nil, Nat.zero_le _⟩

theorem get_eq (h : d.Valid) (key : α) : d.get key = SortedDict.get key d.entries := by
  rw [get]
  cases hpos : findKey key d.keys with
  | none => exact (findKey_eq_none h.sorted hpos).symm
  | some pos =>
    obtain ⟨v, hv, hz, -⟩ := findKey_eq_some h.length_eq h.sorted hpos
    rw [get_of_mem h.sorted (List.mem_of_getElem? hz)]
    exact hv

theorem entries_removeKey (h : d.Valid) (key : α) :
    (d.removeKey key).entries = SortedDict.remove key d.entries := by
  rw [removeKey]
  cases hpos : findKey key d.keys with
  | none =>
    have hnone := get_eq_none.1 (findKey_eq_none h.sorted hpos)
    refine (remove_of_notMem fun q hq => ?_).symm
    rintro rfl
    exact hnone q.2 hq
  | some pos => exact zip_eraseIdx h.length_eq h.sorted hpos

theorem valid_removeKey (h : d.Valid) (key : α) : (d.removeKey key).Valid := by
  refine ⟨?_, by rw [entries_removeKey h]; exact sorted_remove h.sorted, ?_⟩
  · rw [removeKey]
    split
    · exact h.length_eq
    · simp only [List.length_eraseIdx, h.length_eq]
  · rw [removeKey]
    split
    · exact h.few
    · refine le_trans ?_ h.few
      simp only [count, List.length_eraseIdx]
      split <;> omega

theorem getPredecessorKey_eq (h : d.Valid) {v : β} (hk : (key, v) ∈ d.entries) :
    d.getPredecessorKey key = .ok ((d.entries.filter fun p => p.1 < key).getLast?.map Prod.fst) := by
  rw [getPredecessorKey]
  cases hpos : findKey key d.keys with
  | none => exact absurd hk (get_eq_none.1 (findKey_eq_none h.sorted hpos) v)
  | some pos =>
    obtain ⟨w, hw, hz, hf⟩ := findKey_eq_some h.length_eq h.sorted hpos
    rw [entries, hf]
    cases pos with
    | zero => rfl
    | succ pos =>
      obtain ⟨hlt, -⟩ := List.getElem?_eq_some_iff.1 hz
      have hlt' : pos < (d.keys.zip d.values).length := by omega
      rw [List.take_succ_eq_append_getElem hlt', List.getLast?_concat, Option.map_some,
        List.getElem_zip]
      exact congrArg Except.ok (List.getElem?_eq_getElem _)

theorem getPredecessorKey_absent (h : d.Valid) (hk : SortedDict.get key d.entries = none) :
    d.getPredecessorKey key = .error .internalInconsistency := by
  rw [getPredecessorKey]
  cases hpos : findKey key d.keys with
  | none => rfl
  | some pos =>
    obtain ⟨w, -, hz, -⟩ := findKey_eq_some h.length_eq h.sorted hpos
    exact absurd (List.mem_of_getElem? hz) (get_eq_none.1 hk w)

theorem length_entries (h : d.Valid) : d.entries.length = d.count := by
  rw [entries, List.length_zip, ← h.length_eq, Nat.min_self]
  rfl

end Array

end FArraySortedDictionary

namespace FImmutableSortedDictionary

variable {α β : Type}

/-- `dictionaryWithComparator:`. -/
def empty : FImmutableSortedDictionary α β := .array .empty

def count : FImmutableSortedDictionary α β → Nat
  | array d => d.count
  | tree d => d.count

def isEmpty : FImmutableSortedDictionary α β → Bool
  | array d => d.keys.isEmpty
  | tree d => d.isEmpty

def minKey : FImmutableSortedDictionary α β → Option α
  | array d => d.keys.head?
  | tree d => d.minKey

def maxKey : FImmutableSortedDictionary α β → Option α
  | array d => d.keys.getLast?
  | tree d => d.maxKey

variable [LinearOrder α]

def fromDictionary (dictionary : List (α × β)) :
    Except (FDictionaryException α) (FImmutableSortedDictionary α β) := do
  if dictionary.length ≤ sortedDictionaryArrayToRbTreeSizeThreshold then
    return .array (← FArraySortedDictionary.fromDictionary dictionary)
  else return .tree (← FTreeSortedDictionary.fromDictionary dictionary)

def insertKey (key : α) (value : β) :
    FImmutableSortedDictionary α β → Except (FDictionaryException α) (FImmutableSortedDictionary α β)
  | array d => d.insertKey key value
  | tree d => .ok (.tree (d.insertKey key value))

def removeKey (key : α) : FImmutableSortedDictionary α β → FImmutableSortedDictionary α β
  | array d => .array (d.removeKey key)
  | tree d => .tree (d.removeKey key)

def get (key : α) : FImmutableSortedDictionary α β → Option β
  | array d => d.get key
  | tree d => d.get key

def getPredecessorKey (key : α) :
    FImmutableSortedDictionary α β → Except (FDictionaryException α) (Option α)
  | array d => d.getPredecessorKey key
  | tree d => d.getPredecessorKey key

def entries : FImmutableSortedDictionary α β → List (α × β)
  | array d => d.entries
  | tree d => d.entries

def Valid : FImmutableSortedDictionary α β → Prop
  | array d => d.Valid
  | tree d => d.Valid

section Methods

variable {d : FImmutableSortedDictionary α β}

theorem valid_empty : (empty : FImmutableSortedDictionary α β).Valid :=
  FArraySortedDictionary.valid_empty

theorem Valid.sorted (h : d.Valid) : Sorted d.entries := by
  cases d with
  | array d => exact FArraySortedDictionary.Valid.sorted h
  | tree d => exact FTreeSortedDictionary.Valid.sorted h

theorem get_eq (h : d.Valid) (key : α) : d.get key = SortedDict.get key d.entries := by
  cases d with
  | array d => exact FArraySortedDictionary.get_eq h key
  | tree d => exact FTreeSortedDictionary.get_eq h key

theorem count_eq (h : d.Valid) : d.count = d.entries.length := by
  cases d with
  | array d => exact (FArraySortedDictionary.length_entries h).symm
  | tree d => exact (FLLRBNode.length_entries d.root).symm

theorem removeKey_spec (h : d.Valid) (key : α) :
    (d.removeKey key).Valid ∧ (d.removeKey key).entries = SortedDict.remove key d.entries := by
  cases d with
  | array d =>
    exact ⟨FArraySortedDictionary.valid_removeKey h key, FArraySortedDictionary.entries_removeKey h key⟩
  | tree d =>
    exact ⟨FTreeSortedDictionary.valid_removeKey h key, FTreeSortedDictionary.entries_removeKey h key⟩

/-- An array is full with 25 keys; the tree of 26 is built from the threshold on. -/
theorem insertKey_spec (h : d.Valid) (key : α) (value : β) :
    ∃ d', d.insertKey key value = .ok d' ∧ d'.Valid ∧
      d'.entries = SortedDict.set key value d.entries := by
  cases d with
  | tree d =>
    exact ⟨_, rfl, FTreeSortedDictionary.valid_insertKey h key value,
      FTreeSortedDictionary.entries_insertKey h key value⟩
  | array d =>
    have h : d.Valid := h
    rw [insertKey, FArraySortedDictionary.insertKey]
    cases hpos : FArraySortedDictionary.findKey key d.keys with
    | some pos =>
      have hzip := FArraySortedDictionary.zip_set value h.length_eq hpos
      refine ⟨_, rfl, ⟨?_, ?_, ?_⟩, hzip⟩
      · simp [h.length_eq]
      · exact (congrArg Sorted hzip).mpr (sorted_set h.sorted)
      · simpa [FArraySortedDictionary.count] using h.few
    | none =>
      simp only
      split
      · have hsorted : Sorted (SortedDict.set key value (SortedDict.ofList (d.keys.zip d.values))) :=
          sorted_set (sorted_ofList _)
        have hset : SortedDict.ofList (d.keys.zip d.values) = d.entries :=
          (eq_ofList_of_perm h.sorted (nodup_keys h.sorted) (.refl _)).symm
        have hlen : (SortedDict.set key value d.entries).length ≤ d.entries.length + 1 :=
          length_set_le ..
        have hfew := h.few
        rw [← FArraySortedDictionary.length_entries h] at hfew
        rw [hset] at hsorted ⊢
        obtain ⟨t, ht, hv, hes⟩ := FTreeSortedDictionary.fromDictionary_eq (nodup_keys hsorted)
          (by unfold sortedDictionaryArrayToRbTreeSizeThreshold at hfew; omega)
        rw [ht]
        refine ⟨_, rfl, hv, ?_⟩
        rw [← eq_ofList_of_perm hsorted (nodup_keys hsorted) (.refl _)] at hes
        exact hes
      · rename_i hfew
        have hzip := FArraySortedDictionary.zip_insertIdx value h.length_eq hpos
        have hpos : FArraySortedDictionary.findInsertPositionForKey key d.keys ≤ d.keys.length :=
          FArraySortedDictionary.findInsertPositionForKey_le ..
        refine ⟨_, rfl, ⟨?_, ?_, ?_⟩, hzip⟩
        · simp only [List.length_insertIdx, h.length_eq]
        · exact (congrArg Sorted hzip).mpr (sorted_set h.sorted)
        · rw [FArraySortedDictionary.count] at hfew ⊢
          rw [List.length_insertIdx, if_pos hpos]
          omega

theorem isEmpty_eq (h : d.Valid) : d.isEmpty = d.entries.isEmpty := by
  cases d with
  | array d =>
    have hlen := FArraySortedDictionary.length_entries h
    rw [FArraySortedDictionary.count] at hlen
    rw [isEmpty, entries, Bool.eq_iff_iff, List.isEmpty_iff_length_eq_zero,
      List.isEmpty_iff_length_eq_zero, hlen]
  | tree d => exact FLLRBNode.isEmpty_eq d.root

theorem minKey_eq (h : d.Valid) : d.minKey = d.entries.head?.map Prod.fst := by
  cases d with
  | array d =>
    have hlen := FArraySortedDictionary.Valid.length_eq h
    rw [← List.head?_map, minKey, entries, FArraySortedDictionary.entries, List.map_fst_zip (by omega)]
  | tree d => exact FTreeSortedDictionary.minKey_eq d.root

theorem maxKey_eq (h : d.Valid) : d.maxKey = d.entries.getLast?.map Prod.fst := by
  cases d with
  | array d =>
    have hlen := FArraySortedDictionary.Valid.length_eq h
    rw [← List.getLast?_map, maxKey, entries, FArraySortedDictionary.entries,
      List.map_fst_zip (by omega)]
  | tree d => exact FTreeSortedDictionary.maxKey_eq d.root

theorem getPredecessorKey_eq (h : d.Valid) {key : α} {v : β} (hk : d.get key = some v) :
    d.getPredecessorKey key = .ok ((d.entries.filter fun p => p.1 < key).getLast?.map Prod.fst) := by
  rw [get_eq h] at hk
  cases d with
  | array d => exact FArraySortedDictionary.getPredecessorKey_eq h (mem_of_get hk)
  | tree d =>
    have := FTreeSortedDictionary.predecessorFrom_eq (Valid.sorted h) (mem_of_get hk) none
    rwa [Option.or_none] at this

/-- The two classes raise different exceptions. -/
theorem getPredecessorKey_absent (h : d.Valid) {key : α} (hk : d.get key = none) :
    d.getPredecessorKey key = .error (match d with
      | array _ => .internalInconsistency
      | tree _ => .nonexistentKey key) := by
  rw [get_eq h] at hk
  cases d with
  | array d => exact FArraySortedDictionary.getPredecessorKey_absent h hk
  | tree d => exact FTreeSortedDictionary.predecessorFrom_absent (Valid.sorted h) hk none

theorem exists_array {dictionary : List (α × β)} {d : FImmutableSortedDictionary α β}
    (hfew : dictionary.length ≤ sortedDictionaryArrayToRbTreeSizeThreshold) (h : fromDictionary dictionary = .ok d) :
    ∃ a, d = array a := by
  rw [fromDictionary, if_pos hfew] at h
  cases ha : FArraySortedDictionary.fromDictionary dictionary with
  | error e =>
    rw [ha] at h
    cases h
  | ok a =>
    rw [ha] at h
    cases h
    exact ⟨a, rfl⟩

theorem exists_tree {dictionary : List (α × β)} {d : FImmutableSortedDictionary α β}
    (hmany : ¬ dictionary.length ≤ sortedDictionaryArrayToRbTreeSizeThreshold) (h : fromDictionary dictionary = .ok d) :
    ∃ t, d = tree t := by
  rw [fromDictionary, if_neg hmany] at h
  cases ht : FTreeSortedDictionary.fromDictionary dictionary with
  | error e =>
    rw [ht] at h
    cases h
  | ok t =>
    rw [ht] at h
    cases h
    exact ⟨t, rfl⟩

theorem fromDictionary_spec {dictionary : List (α × β)} (h : (dictionary.map Prod.fst).Nodup)
    (hlen : dictionary.length + 1 < 2 ^ 32) :
    ∃ d, fromDictionary dictionary = .ok d ∧ d.Valid ∧ d.entries = SortedDict.ofList dictionary := by
  rw [fromDictionary]
  split
  · rename_i hfew
    have hsorted := FTreeSortedDictionary.sorted_sortedKeys h
    have hzip : ∀ l : List (α × β), (l.map Prod.fst).zip (l.map Prod.snd) = l := fun l => by
      rw [List.zip_map', List.map_id']
    rw [FArraySortedDictionary.fromDictionary, FTreeSortedDictionary.sameOrdering_of_sorted hsorted]
    refine ⟨_, rfl, ⟨by simp, ?_, ?_⟩, ?_⟩
    · rw [FArraySortedDictionary.entries, hzip]
      exact hsorted
    · simpa [FArraySortedDictionary.count, FTreeSortedDictionary.sortedKeys] using hfew
    · rw [entries, FArraySortedDictionary.entries, hzip, FTreeSortedDictionary.sortedKeys_eq h]
  · obtain ⟨t, ht, hv, hes⟩ := FTreeSortedDictionary.fromDictionary_eq h hlen
    rw [ht]
    exact ⟨_, rfl, hv, hes⟩

end Methods

/-! ## Runs -/

/-- The updates of a dictionary. -/
inductive Update (α β : Type) where
  | insertKey (key : α) (value : β)
  | removeKey (key : α)
  deriving Repr

def Update.apply (d : FImmutableSortedDictionary α β) :
    Update α β → Except (FDictionaryException α) (FImmutableSortedDictionary α β)
  | .insertKey key value => d.insertKey key value
  | .removeKey key => .ok (d.removeKey key)

/-- The update of a map. -/
def Update.onEntries (es : List (α × β)) : Update α β → List (α × β)
  | .insertKey key value => SortedDict.set key value es
  | .removeKey key => SortedDict.remove key es

def run (updates : List (Update α β)) (d : FImmutableSortedDictionary α β) :
    Except (FDictionaryException α) (FImmutableSortedDictionary α β) :=
  updates.foldlM Update.apply d

theorem apply_spec {d : FImmutableSortedDictionary α β} (h : d.Valid) (u : Update α β) :
    ∃ d', u.apply d = .ok d' ∧ d'.Valid ∧ d'.entries = u.onEntries d.entries := by
  cases u with
  | insertKey key value => exact insertKey_spec h key value
  | removeKey key => exact ⟨_, rfl, removeKey_spec h key⟩

theorem run_spec {d : FImmutableSortedDictionary α β} (h : d.Valid) (updates : List (Update α β)) :
    ∃ d', run updates d = .ok d' ∧ d'.Valid ∧ d'.entries = updates.foldl Update.onEntries d.entries := by
  induction updates generalizing d with
  | nil => exact ⟨d, rfl, h, rfl⟩
  | cons u updates ih =>
    obtain ⟨d₁, h₁, hv₁, hes₁⟩ := apply_spec h u
    obtain ⟨d', h', hv', hes'⟩ := ih hv₁
    refine ⟨d', ?_, hv', by rw [hes', hes₁, List.foldl_cons]⟩
    rw [run, List.foldlM_cons, h₁]
    exact h'

/-- What a dictionary looks like inside: a short array, or a tree that passes its
own `check`, with a way down of at most twice the logarithm of the size. -/
def Shapely : FImmutableSortedDictionary α β → Prop
  | array d => d.keys.length = d.values.length ∧ d.count ≤ sortedDictionaryArrayToRbTreeSizeThreshold
  | tree d => (∃ n, d.root.check = .ok n) ∧ d.root.isRed = false ∧
      d.root.checkMaxDepth.toOption = some true ∧ 2 ^ d.root.depth ≤ (d.count + 1) ^ 2

theorem Valid.shapely {d : FImmutableSortedDictionary α β} (h : d.Valid) : d.Shapely := by
  cases d with
  | array d => exact ⟨FArraySortedDictionary.Valid.length_eq h, FArraySortedDictionary.Valid.few h⟩
  | tree d =>
    obtain ⟨⟨n, hn⟩, -⟩ := h
    have hcheck := FLLRBNode.check_eq_ok_iff.2 ⟨_, hn⟩
    refine ⟨⟨n, hcheck⟩, hn.isRed_of_black, ?_, ?_⟩
    · rw [FLLRBNode.checkMaxDepth, hcheck]
      exact congrArg some (decide_eq_true hn.two_pow_le)
    · have hdepth := hn.depth_le
      simp only [reduceCtorEq, if_false, Nat.add_zero] at hdepth
      calc 2 ^ d.root.depth ≤ 2 ^ (2 * n) := Nat.pow_le_pow_right (by omega) hdepth
        _ = (2 ^ n) ^ 2 := by rw [Nat.mul_comm, Nat.pow_mul]
        _ ≤ (d.count + 1) ^ 2 := Nat.pow_le_pow_left hn.two_pow_le 2

/-- The dictionary is the map of the entries, as far as its methods tell. -/
structure Implements (d : FImmutableSortedDictionary α β) (es : List (α × β)) : Prop where
  sorted : Sorted es
  shapely : d.Shapely
  entries : d.entries = es
  get : ∀ key, d.get key = SortedDict.get key es
  count : d.count = es.length
  isEmpty : d.isEmpty = es.isEmpty
  minKey : d.minKey = es.head?.map Prod.fst
  maxKey : d.maxKey = es.getLast?.map Prod.fst
  predecessor : ∀ key, (d.getPredecessorKey key).toOption =
    if (SortedDict.get key es).isSome then some ((es.filter fun p => p.1 < key).getLast?.map Prod.fst)
    else none

theorem Valid.implements {d : FImmutableSortedDictionary α β} (h : d.Valid) :
    d.Implements d.entries where
  sorted := h.sorted
  shapely := h.shapely
  entries := rfl
  get := get_eq h
  count := count_eq h
  isEmpty := isEmpty_eq h
  minKey := minKey_eq h
  maxKey := maxKey_eq h
  predecessor key := by
    rw [← get_eq h]
    cases hk : d.get key with
    | none =>
      rw [getPredecessorKey_absent h hk]
      rfl
    | some v =>
      rw [getPredecessorKey_eq h hk]
      rfl

/-- Whatever is inserted and removed after a dictionary is made, nothing raises
and the result is the map of the updates. -/
theorem implements_run (dictionary : List (α × β)) (updates : List (Update α β))
    (h : (dictionary.map Prod.fst).Nodup) (hlen : dictionary.length + 1 < 2 ^ 32) :
    ∃ d d', fromDictionary dictionary = .ok d ∧ run updates d = .ok d' ∧
      d'.Implements (updates.foldl Update.onEntries (SortedDict.ofList dictionary)) := by
  obtain ⟨d, hd, hv, hes⟩ := fromDictionary_spec h hlen
  obtain ⟨d', hd', hv', hes'⟩ := run_spec hv updates
  refine ⟨d, d', hd, hd', ?_⟩
  rw [← hes, ← hes']
  exact hv'.implements

/-- Twenty-five entries make an array, and two more a tree. -/
theorem implements_run_tree : ∃ d d' : FImmutableSortedDictionary Nat Nat,
    fromDictionary ((List.range 25).map fun k => (k, k)) = .ok d ∧
      run [.insertKey 40 1, .insertKey 30 2, .removeKey 7] d = .ok d' ∧
      d'.Implements ([Update.insertKey 40 1, .insertKey 30 2, .removeKey 7].foldl Update.onEntries
        (SortedDict.ofList ((List.range 25).map fun k => (k, k)))) :=
  implements_run ((List.range 25).map fun k => (k, k)) [.insertKey 40 1, .insertKey 30 2, .removeKey 7] (by decide)
    (by decide)

end FImmutableSortedDictionary

end ShopingList
