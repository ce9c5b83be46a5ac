import ShopingList.Firebase.TreeDictionary

/-!
# Building a tree from a dictionary

`[FTreeSortedDictionary fromDictionary:withComparator:]`. The number of keys is
written with the digits 1 and 2; from the most significant digit on, every digit
gives one or two pennants of the size of its place, a black node, or a black and
a red one, with a perfect black tree on the right. Each pennant is the left child
of the one before. The keys are taken from the largest down.

The number is kept as an `unsigned int`, one more than the keys.
-/

namespace ShopingList

open SortedDict FLLRBNode

namespace FTreeSortedDictionary

/-- `(unsigned int)(log(num) / log(2))`. -/
def logBase2 (num : Nat) : Nat := num.log2

def bitMask (x : Nat) : Nat := if x ≥ 32 then 2 ^ 32 - 1 else 2 ^ x - 1

/-- A base {1,2} number: 0 stands for the digit 1 and 1 for the digit 2. -/
structure Base12List where
  bits : Nat
  count : Nat
  current : Nat
  deriving DecidableEq, Repr

namespace Base12List

/-- `base1_2List_new`; `current` is an `unsigned short`. -/
def new (length : Nat) : Base12List :=
  let count := logBase2 ((length + 1) % 2 ^ 32)
  { bits := (length + 1) % 2 ^ 32 &&& bitMask count
    count
    current := (count + 65535) % 65536 }

/-- `base1_2List_next`. -/
def next (list : Base12List) : Bool × Base12List :=
  (!list.bits.testBit list.current, { list with current := (list.current + 65535) % 65536 })

/-- The colours and sizes of the pennants of the last `n` digits, in the order they are built. -/
def pennants (list : Base12List) : Nat → List (FLLRBColor × Nat)
  | 0 => []
  | n + 1 =>
    let (isOne, list') := list.next
    let chunkSize := 2 ^ n
    if isOne then (.black, chunkSize) :: list'.pennants n
    else (.black, chunkSize) :: (.red, chunkSize) :: list'.pennants n

end Base12List

variable {α β : Type}

/-- `array[index]`. -/
def objectAt (keys : List (α × β)) (index : Nat) : Except (FDictionaryException α) (α × β) :=
  match keys[index]? with
  | some p => .ok p
  | none => .error .range

/-- The keys come with their values, `dictionary[key]`. A tree of no keys is nil,
which `initWithKey:` makes the empty node. -/
def buildBalancedTree (keys : List (α × β)) (startIndex length : Nat) :
    Except (FDictionaryException α) (FLLRBNode α β) :=
  let bounded := min (keys.length - startIndex) length
  if bounded = 0 then .ok emptyNode
  else if bounded = 1 then do
    let (key, value) ← objectAt keys startIndex
    return valueNode key value .black emptyNode emptyNode
  else do
    let middle := bounded / 2
    let left ← buildBalancedTree keys startIndex middle
    let right ← buildBalancedTree keys (startIndex + middle + 1) middle
    let (key, value) ← objectAt keys (startIndex + middle)
    return valueNode key value .black left right
termination_by length
decreasing_by all_goals omega

/-- `buildPennant` for one pennant after the other; `node.left` of a pennant is
set when the next one is there. -/
def buildPennants (keys : List (α × β)) :
    List (FLLRBColor × Nat) → Nat → Except (FDictionaryException α) (FLLRBNode α β)
  | [], _ => .ok emptyNode
  | (color, chunkSize) :: pennants, index => do
    let startIndex := index - chunkSize + 1
    let index := index - chunkSize
    let (key, value) ← objectAt keys index
    let childTree ← buildBalancedTree keys startIndex (chunkSize - 1)
    let left ← buildPennants keys pennants index
    return valueNode key value color left childTree

def rootFrom12List (list : Base12List) (keyList : List (α × β)) :
    Except (FDictionaryException α) (FLLRBNode α β) :=
  buildPennants keyList (list.pennants list.count) keyList.length

section FromDictionary

variable [LinearOrder α]

/-- The keys of a dictionary in order. -/
def sortedKeys (dictionary : List (α × β)) : List (α × β) :=
  dictionary.mergeSort fun p q => compare p.1 q.1 != .gt

/-- Two neighbours are not ascending. -/
def sameOrdering (sortedKeyList : List (α × β)) : Bool :=
  (sortedKeyList.zip sortedKeyList.tail).any fun p => compare p.1.1 p.2.1 != .lt

/-- The dictionary is the list of its entries in any order. -/
def fromDictionary (dictionary : List (α × β)) :
    Except (FDictionaryException α) (FTreeSortedDictionary α β) := do
  let sortedKeyList := sortedKeys dictionary
  if sameOrdering sortedKeyList then throw .sameOrdering
  return ⟨← rootFrom12List (.new sortedKeyList.length) sortedKeyList⟩

end FromDictionary

/-! ## Perfect trees -/

theorem take_drop_cons {keys : List (α × β)} {s n : Nat} {p : α × β} (h : keys[s]? = some p) :
    (keys.drop s).take (n + 1) = p :: (keys.drop (s + 1)).take n := by
  obtain ⟨hs, rfl⟩ := List.getElem?_eq_some_iff.1 h
  rw [List.drop_eq_getElem_cons hs, List.take_succ_cons]

theorem objectAt_eq (keys : List (α × β)) {i : Nat} (h : i < keys.length) :
    ∃ p, keys[i]? = some p ∧ objectAt keys i = .ok p := by
  refine ⟨keys[i], List.getElem?_eq_getElem h, ?_⟩
  rw [objectAt, List.getElem?_eq_getElem h]

/-- Trees of one less than a power of two are perfect. -/
theorem buildBalancedTree_eq (keys : List (α × β)) (n s : Nat) (h : s + (2 ^ n - 1) ≤ keys.length) :
    ∃ t, buildBalancedTree keys s (2 ^ n - 1) = .ok t ∧ LLRB .black n t ∧
      t.entries = (keys.drop s).take (2 ^ n - 1) := by
  induction n generalizing s with
  | zero =>
    refine ⟨emptyNode, ?_, .emptyNode, rfl⟩
    rw [buildBalancedTree]
    simp
  | succ n ih =>
    have hpos : 0 < 2 ^ n := Nat.two_pow_pos n
    have hpow : 2 ^ (n + 1) = 2 * 2 ^ n := by rw [Nat.pow_succ]; omega
    have hmin : min (keys.length - s) (2 ^ (n + 1) - 1) = 2 ^ (n + 1) - 1 := by omega
    rw [buildBalancedTree]
    simp only [hmin]
    rw [if_neg (by omega)]
    by_cases hone : 2 ^ (n + 1) - 1 = 1
    · obtain rfl : n = 0 := by
        by_contra hn
        have : 2 ^ 1 ≤ 2 ^ n := Nat.pow_le_pow_right (by omega) (by omega)
        omega
      obtain ⟨p, hp, hat⟩ := objectAt_eq keys (i := s) (by omega)
      rw [if_pos hone, hat]
      refine ⟨_, rfl, .black .emptyNode .emptyNode, ?_⟩
      rw [hone, take_drop_cons hp]
      rfl
    · rw [if_neg hone]
      have hmid : (2 ^ (n + 1) - 1) / 2 = 2 ^ n - 1 := by omega
      rw [hmid]
      obtain ⟨tl, hl, hbl, hel⟩ := ih s (by omega)
      obtain ⟨tr, hr, hbr, her⟩ := ih (s + (2 ^ n - 1) + 1) (by omega)
      obtain ⟨p, hp, hat⟩ := objectAt_eq keys (i := s + (2 ^ n - 1)) (by omega)
      rw [hl, hr, hat]
      refine ⟨_, rfl, .black hbl hbr, ?_⟩
      have hsum : 2 ^ (n + 1) - 1 = (2 ^ n - 1) + ((2 ^ n - 1) + 1) := by omega
      rw [FLLRBNode.entries, hel, her, hsum, List.take_add, List.drop_drop, take_drop_cons hp]

/-! ## Pennants -/

/-- One pennant on top of the rest. -/
theorem buildPennants_cons {keys : List (α × β)} (color : FLLRBColor) {n index : Nat}
    {pennants : List (FLLRBColor × Nat)} {t : FLLRBNode α β} (h : index + 2 ^ n ≤ keys.length)
    (ht : buildPennants keys pennants index = .ok t) (hes : t.entries = keys.take index) :
    ∃ k v child, buildPennants keys ((color, 2 ^ n) :: pennants) (index + 2 ^ n) =
        .ok (valueNode k v color t child) ∧ LLRB .black n child ∧
      (valueNode k v color t child).entries = keys.take (index + 2 ^ n) := by
  have hpos : 0 < 2 ^ n := Nat.two_pow_pos n
  obtain ⟨p, hp, hat⟩ := objectAt_eq keys (i := index) (by omega)
  obtain ⟨child, hc, hbc, hec⟩ := buildBalancedTree_eq keys n (index + 1) (by omega)
  have hindex : index + 2 ^ n - 2 ^ n = index := by omega
  refine ⟨p.1, p.2, child, ?_, hbc, ?_⟩
  · rw [buildPennants]
    simp only [hindex, hat, hc, ht]
    rfl
  · have hsum : 2 ^ n = (2 ^ n - 1) + 1 := by omega
    rw [FLLRBNode.entries, hes, hec, List.take_add, hsum, take_drop_cons hp]
    rfl

/-- The keys of the pennants of the last `n` digits. -/
def pennantKeys (list : Base12List) (n : Nat) : Nat := ((list.pennants n).map Prod.snd).sum

theorem pennantKeys_eq (list : Base12List) (n : Nat) (hn : n < 65536)
    (hc : list.current = (n + 65535) % 65536) :
    pennantKeys list n = 2 ^ n - 1 + list.bits % 2 ^ n := by
  induction n generalizing list with
  | zero => simp [pennantKeys, Base12List.pennants, Nat.mod_one]
  | succ n ih =>
    have hcur : list.current = n := by omega
    have hnext := ih list.next.2 (by omega) (congrArg (fun c => (c + 65535) % 65536) hcur)
    have hpow : 2 ^ (n + 1) = 2 * 2 ^ n := by rw [Nat.pow_succ]; omega
    have hpos : 0 < 2 ^ n := Nat.two_pow_pos n
    have hmod : list.bits % 2 ^ (n + 1) = list.bits % 2 ^ n + 2 ^ n * (list.bits / 2 ^ n % 2) :=
      Nat.mod_pow_succ
    have hbits : list.next.2.bits = list.bits := by simp only [Base12List.next]
    rw [hbits] at hnext
    unfold pennantKeys at hnext ⊢
    rw [Base12List.pennants]
    have hdigit := Nat.testBit_eq_decide_div_mod_eq (x := list.bits) (i := n)
    simp only [Base12List.next, hcur] at hnext ⊢
    cases hbit : list.bits.testBit n with
    | true =>
      rw [hbit, eq_comm, decide_eq_true_eq] at hdigit
      simp only [Bool.not_true, Bool.false_eq_true, if_false, List.map_cons, List.sum_cons, hnext,
        hmod, hdigit]
      omega
    | false =>
      rw [hbit, eq_comm, decide_eq_false_iff_not] at hdigit
      have hzero : list.bits / 2 ^ n % 2 = 0 := by omega
      simp only [Bool.not_false, if_true, List.map_cons, List.sum_cons, hnext, hmod, hzero]
      omega

/-- The pennants of the last `n` digits have black depth `n`. -/
theorem buildPennants_eq (keys : List (α × β)) (list : Base12List) (n : Nat)
    (h : pennantKeys list n ≤ keys.length) :
    ∃ t, buildPennants keys (list.pennants n) (pennantKeys list n) = .ok t ∧ LLRB .black n t ∧
      t.entries = keys.take (pennantKeys list n) := by
  induction n generalizing list with
  | zero => exact ⟨emptyNode, rfl, .emptyNode, rfl⟩
  | succ n ih =>
    have hpos : 0 < 2 ^ n := Nat.two_pow_pos n
    unfold pennantKeys at h ih ⊢
    rw [Base12List.pennants] at h ⊢
    cases hone : list.next.1 with
    | true =>
      simp only [hone, if_true, List.map_cons, List.sum_cons] at h ⊢
      obtain ⟨t, ht, hb, hes⟩ := ih list.next.2 (by omega)
      rw [Nat.add_comm] at h ⊢
      obtain ⟨k, v, child, hbuild, hbc, hes'⟩ := buildPennants_cons .black h ht hes
      exact ⟨_, hbuild, .black hb hbc, hes'⟩
    | false =>
      simp only [hone, Bool.false_eq_true, if_false, List.map_cons, List.sum_cons] at h ⊢
      obtain ⟨t, ht, hb, hes⟩ := ih list.next.2 (by omega)
      rw [Nat.add_comm, Nat.add_comm (2 ^ n)] at h ⊢
      obtain ⟨k, v, child, hbuild, hbc, hes'⟩ :=
        buildPennants_cons .red (n := n) (by omega) ht hes
      obtain ⟨k', v', child', hbuild', hbc', hes''⟩ :=
        buildPennants_cons .black h hbuild hes'
      exact ⟨_, hbuild', .black (.red hb hbc) hbc', hes''⟩

/-- The digits of the number add up to it. -/
theorem pennantKeys_new {length : Nat} (h : length + 1 < 2 ^ 32) :
    pennantKeys (.new length) (Base12List.new length).count = length := by
  have hmod : (length + 1) % 2 ^ 32 = length + 1 := Nat.mod_eq_of_lt h
  have hlog : (length + 1).log2 < 32 := (Nat.log2_lt (by omega)).2 h
  have hle : 2 ^ (length + 1).log2 ≤ length + 1 := Nat.log2_self_le (by omega)
  have hlt : length + 1 < 2 ^ ((length + 1).log2 + 1) := Nat.lt_log2_self
  have hcount : (Base12List.new length).count = (length + 1).log2 := by
    simp only [Base12List.new, hmod, logBase2]
  have hmask : bitMask (length + 1).log2 = 2 ^ (length + 1).log2 - 1 := by
    rw [bitMask, if_neg (by omega)]
  have hbits : (Base12List.new length).bits = (length + 1) % 2 ^ (length + 1).log2 := by
    simp only [Base12List.new, hmod, logBase2, hmask, Nat.and_two_pow_sub_one_eq_mod]
  have hcurrent : (Base12List.new length).current = ((length + 1).log2 + 65535) % 65536 := by
    simp only [Base12List.new, hmod, logBase2]
  rw [hcount, pennantKeys_eq _ _ (by omega) hcurrent, hbits, Nat.mod_mod]
  have hrest : (length + 1) % 2 ^ (length + 1).log2 = length + 1 - 2 ^ (length + 1).log2 := by
    rw [Nat.mod_eq_sub_mod hle, Nat.mod_eq_of_lt]
    rw [Nat.pow_succ] at hlt
    omega
  omega

/-- The tree of all keys. -/
theorem rootFrom12List_eq {keys : List (α × β)} (h : keys.length + 1 < 2 ^ 32) :
    ∃ t n, rootFrom12List (.new keys.length) keys = .ok t ∧ LLRB .black n t ∧ t.entries = keys := by
  have hkeys := pennantKeys_new h
  obtain ⟨t, ht, hb, hes⟩ := buildPennants_eq keys (.new keys.length)
    (Base12List.new keys.length).count (by omega)
  rw [hkeys] at ht hes
  exact ⟨t, _, ht, hb, by rw [hes, List.take_length]⟩

/-! ## Dictionaries -/

section FromDictionary

variable [LinearOrder α] {dictionary : List (α × β)}

theorem compare_ne_gt_iff {a b : α} : (compare a b != .gt) = true ↔ a ≤ b := by
  rw [bne_iff_ne, ne_eq, compare_gt_iff_gt, not_lt]

theorem sorted_sortedKeys (h : (dictionary.map Prod.fst).Nodup) : Sorted (sortedKeys dictionary) := by
  have hperm : (sortedKeys dictionary).Perm dictionary := List.mergeSort_perm ..
  have hle : (sortedKeys dictionary).Pairwise fun p q => p.1 ≤ q.1 := by
    refine (List.pairwise_mergeSort ?_ ?_ dictionary).imp fun h => compare_ne_gt_iff.1 h
    · intro a b c hab hbc
      exact compare_ne_gt_iff.2 ((compare_ne_gt_iff.1 hab).trans (compare_ne_gt_iff.1 hbc))
    · intro a b
      rw [Bool.or_eq_true, compare_ne_gt_iff, compare_ne_gt_iff]
      exact le_total _ _
  have hne : (sortedKeys dictionary).Pairwise fun p q => p.1 ≠ q.1 :=
    List.pairwise_map.1 (((hperm.map Prod.fst).nodup_iff).2 h)
  rw [Sorted, List.pairwise_map]
  exact (hle.and hne).imp fun h => lt_of_le_of_ne h.1 h.2

theorem sortedKeys_eq (h : (dictionary.map Prod.fst).Nodup) :
    sortedKeys dictionary = SortedDict.ofList dictionary :=
  eq_ofList_of_perm (sorted_sortedKeys h) h (List.mergeSort_perm ..)

/-- Keys in strict order have no two of the same ordering. -/
theorem sameOrdering_of_sorted {keys : List (α × β)} (h : Sorted keys) : sameOrdering keys = false := by
  rw [sameOrdering, List.any_eq_false]
  intro p hp
  induction keys with
  | nil => cases hp
  | cons q keys ih =>
    obtain ⟨hq, hkeys⟩ := sorted_cons.1 h
    cases keys with
    | nil => cases hp
    | cons q' keys =>
      rw [List.tail_cons, List.zip_cons_cons] at hp
      rcases List.mem_cons.1 hp with rfl | hp
      · have := compare_lt_iff_lt.2 (hq q' List.mem_cons_self)
        simp [this]
      · exact ih hkeys hp

/-- A dictionary becomes a valid tree with its entries in order. -/
theorem fromDictionary_eq (h : (dictionary.map Prod.fst).Nodup) (hlen : dictionary.length + 1 < 2 ^ 32) :
    ∃ d, fromDictionary dictionary = .ok d ∧ d.Valid ∧ d.entries = SortedDict.ofList dictionary := by
  have hsorted := sorted_sortedKeys h
  have hlen' : (sortedKeys dictionary).length + 1 < 2 ^ 32 := by
    rwa [sortedKeys, List.length_mergeSort]
  obtain ⟨t, n, ht, hb, hes⟩ := rootFrom12List_eq hlen'
  refine ⟨⟨t⟩, ?_, ⟨⟨n, hb⟩, ?_⟩, ?_⟩
  · rw [fromDictionary]
    simp only [sameOrdering_of_sorted hsorted, ht]
    rfl
  · rw [entries, hes]
    exact hsorted
  · rw [entries, hes, sortedKeys_eq h]

end FromDictionary

end FTreeSortedDictionary

end ShopingList
