import Mathlib.Order.Lattice
import Mathlib.Data.List.Nodup
import Mathlib.Data.List.Pairwise
import Mathlib.Data.List.Perm.Subperm

/-!
# Finite maps as sorted association lists

`set` and `remove` keep the keys strictly increasing, so a map has one
representation: `ext` turns equal look-ups into equal maps. `ofList` builds a
map from entries in any order; with distinct keys the order does not matter.
-/

namespace SortedDict

variable {α β γ : Type} [LinearOrder α]

/-- Strictly increasing keys. -/
def Sorted (d : List (α × β)) : Prop := (d.map Prod.fst).Pairwise (· < ·)

def get (k : α) : List (α × β) → Option β
  | [] => none
  | (k', v) :: d => if k = k' then some v else get k d

def set (k : α) (v : β) : List (α × β) → List (α × β)
  | [] => [(k, v)]
  | (k', v') :: d =>
    if k < k' then (k, v) :: (k', v') :: d
    else if k = k' then (k, v) :: d
    else (k', v') :: set k v d

def remove (k : α) (d : List (α × β)) : List (α × β) := d.filter fun p => p.1 ≠ k

/-- The map holding the entries of `l`; a later entry replaces an earlier one. -/
def ofList (l : List (α × β)) : List (α × β) := l.foldl (fun d p => set p.1 p.2 d) []

@[simp] theorem get_nil (k : α) : get k ([] : List (α × β)) = none := rfl

theorem sorted_nil : Sorted ([] : List (α × β)) := List.Pairwise.nil

theorem sorted_cons {p : α × β} {d : List (α × β)} :
    Sorted (p :: d) ↔ (∀ q ∈ d, p.1 < q.1) ∧ Sorted d := by
  simp [Sorted, List.pairwise_cons]

/-! ## Look-ups -/

@[simp] theorem get_set (k k' : α) (v : β) (d : List (α × β)) :
    get k' (set k v d) = if k' = k then some v else get k' d := by
  induction d with
  | nil => simp [set, get]
  | cons p d ih =>
    obtain ⟨j, w⟩ := p
    rw [set]
    split
    · rfl
    · split
      · rename_i h1 h2
        subst h2
        by_cases h : k' = k <;> simp [get, h]
      · rename_i h1 h2
        simp only [get, ih]
        by_cases h : k' = j
        · simp [h, Ne.symm h2]
        · simp [h]

@[simp] theorem get_remove (k k' : α) (d : List (α × β)) :
    get k' (remove k d) = if k' = k then none else get k' d := by
  induction d with
  | nil => simp [remove, get]
  | cons p d ih =>
    obtain ⟨j, w⟩ := p
    rw [remove, List.filter_cons]
    by_cases hj : j = k
    · subst hj
      simp only [ne_eq, not_true_eq_false, decide_false, Bool.false_eq_true, if_false]
      rw [show List.filter _ d = remove j d from rfl, ih]
      by_cases h : k' = j <;> simp [get, h]
    · simp only [ne_eq, hj, not_false_eq_true, decide_true, if_true]
      rw [show List.filter _ d = remove k d from rfl, get, ih, get]
      by_cases h : k' = j
      · simp [h, hj]
      · simp [h]

theorem mem_of_get {k : α} {v : β} : ∀ {d : List (α × β)}, get k d = some v → (k, v) ∈ d
  | (k', v') :: d, h => by
    rw [get] at h
    split at h
    · rename_i e
      cases h
      exact e ▸ List.mem_cons_self
    · exact List.mem_cons_of_mem _ (mem_of_get h)

theorem get_of_mem {k : α} {v : β} {d : List (α × β)} (hd : Sorted d) (h : (k, v) ∈ d) :
    get k d = some v := by
  induction d with
  | nil => cases h
  | cons p d ih =>
    obtain ⟨j, w⟩ := p
    obtain ⟨hlt, hd⟩ := sorted_cons.1 hd
    rw [get]
    rcases List.mem_cons.1 h with e | h
    · cases e
      simp
    · have : j < k := hlt _ h
      rw [if_neg this.ne']
      exact ih hd h

theorem get_eq_none {k : α} {d : List (α × β)} : get k d = none ↔ ∀ v, (k, v) ∉ d := by
  induction d with
  | nil => simp
  | cons p d ih =>
    obtain ⟨j, w⟩ := p
    rw [get]
    by_cases h : k = j
    · subst h
      simp only [if_true, reduceCtorEq, false_iff, not_forall, not_not]
      exact ⟨w, List.mem_cons_self⟩
    · simp [h, ih]

theorem get_filter {p : β → Bool} {d : List (α × β)} (hd : (d.map Prod.fst).Nodup) (k : α) :
    get k (d.filter fun e => p e.2) = (get k d).filter p := by
  induction d with
  | nil => rfl
  | cons q d ih =>
    obtain ⟨j, w⟩ := q
    rw [List.map_cons, List.nodup_cons] at hd
    rw [List.filter_cons, get]
    by_cases hk : k = j
    · subst hk
      have hno : get k d = none :=
        get_eq_none.2 fun v hv => hd.1 (List.mem_map.2 ⟨(k, v), hv, rfl⟩)
      cases hp : p w with
      | true => simp [get, Option.filter, hp]
      | false => simp [ih hd.2, hno, Option.filter, hp]
    · cases hp : p w with
      | true => simp [get, hk, ih hd.2]
      | false => simp [hk, ih hd.2]

/-! ## Sortedness -/

theorem mem_set {p : α × β} {k : α} {v : β} {d : List (α × β)} (h : p ∈ set k v d) :
    p = (k, v) ∨ p ∈ d := by
  induction d with
  | nil => simpa [set] using h
  | cons q d ih =>
    obtain ⟨j, w⟩ := q
    rw [set] at h
    split at h
    · simpa using h
    · split at h
      · rcases List.mem_cons.1 h with h | h
        · exact .inl h
        · exact .inr (List.mem_cons_of_mem _ h)
      · rcases List.mem_cons.1 h with h | h
        · exact .inr (h ▸ List.mem_cons_self)
        · exact (ih h).imp id (List.mem_cons_of_mem _)

theorem length_set_le (k : α) (v : β) (d : List (α × β)) : (set k v d).length ≤ d.length + 1 := by
  induction d with
  | nil => exact Nat.le_refl _
  | cons p d ih =>
    rw [set]
    split
    · exact Nat.le_refl _
    · split
      · exact Nat.le_succ _
      · exact Nat.succ_le_succ ih

theorem sorted_set {k : α} {v : β} {d : List (α × β)} (hd : Sorted d) : Sorted (set k v d) := by
  induction d with
  | nil => simp [set, Sorted]
  | cons p d ih =>
    obtain ⟨j, w⟩ := p
    obtain ⟨hlt, hd'⟩ := sorted_cons.1 hd
    rw [set]
    split
    · rename_i h
      refine sorted_cons.2 ⟨fun q hq => ?_, hd⟩
      rcases List.mem_cons.1 hq with rfl | hq
      · exact h
      · exact h.trans (hlt q hq)
    · split
      · rename_i _ h
        subst h
        exact sorted_cons.2 ⟨hlt, hd'⟩
      · rename_i h1 h2
        refine sorted_cons.2 ⟨fun q hq => ?_, ih hd'⟩
        rcases mem_set hq with rfl | hq
        · exact lt_of_le_of_ne (not_lt.1 h1) (Ne.symm h2)
        · exact hlt q hq

theorem sorted_remove {k : α} {d : List (α × β)} (hd : Sorted d) : Sorted (remove k d) := by
  unfold Sorted remove at *
  exact hd.sublist (List.filter_sublist.map _)

theorem sorted_map_val {f : β → γ} {d : List (α × β)} (hd : Sorted d) :
    Sorted (d.map fun p => (p.1, f p.2)) := by
  unfold Sorted at *
  simpa [List.map_map, Function.comp_def] using hd

theorem nodup_keys {d : List (α × β)} (hd : Sorted d) : (d.map Prod.fst).Nodup :=
  List.Pairwise.imp (fun h => ne_of_lt h) hd

/-- A key has one entry. -/
theorem filter_key {k : α} {v : β} {d : List (α × β)} (hd : Sorted d) (h : (k, v) ∈ d) :
    d.filter (fun p => p.1 = k) = [(k, v)] := by
  induction d with
  | nil => cases h
  | cons p d ih =>
    obtain ⟨hlt, hd⟩ := sorted_cons.1 hd
    rw [List.filter_cons]
    rcases List.mem_cons.1 h with rfl | h
    · rw [if_pos (decide_eq_true rfl)]
      congr 1
      rw [List.filter_eq_nil_iff]
      intro q hq he
      exact (hlt q hq).ne' (of_decide_eq_true he)
    · rw [if_neg (by simpa using (hlt _ h).ne), ih hd h]

/-- Two sorted maps with the same look-ups are the same map. -/
theorem ext {a b : List (α × β)} (ha : Sorted a) (hb : Sorted b) (h : ∀ k, get k a = get k b) :
    a = b := by
  induction a generalizing b with
  | nil =>
    cases b with
    | nil => rfl
    | cons q b =>
      have := h q.1
      simp [get] at this
  | cons p a ih =>
    obtain ⟨j, w⟩ := p
    obtain ⟨hltA, ha'⟩ := sorted_cons.1 ha
    cases b with
    | nil =>
      have := h j
      simp [get] at this
    | cons q b =>
      obtain ⟨j', w'⟩ := q
      obtain ⟨hltB, hb'⟩ := sorted_cons.1 hb
      have hjA : (j, w) ∈ (j', w') :: b := mem_of_get (by rw [← h j]; simp [get])
      have hjB : (j', w') ∈ (j, w) :: a := mem_of_get (by rw [h j']; simp [get])
      -- the least key of one map is the least key of the other
      have hjj : j = j' := by
        rcases List.mem_cons.1 hjA with e | hjA
        · cases e; rfl
        · rcases List.mem_cons.1 hjB with e | hjB
          · cases e; rfl
          · exact absurd ((hltB _ hjA).trans (hltA _ hjB)) (lt_irrefl _)
      subst hjj
      have hw : w = w' := by
        have := h j
        simpa [get] using this
      subst hw
      congr 1
      refine ih ha' hb' fun k => ?_
      by_cases hk : k = j
      · have hA : get k a = none := get_eq_none.2 fun v hv => by
          have := hltA _ hv
          simp [hk] at this
        have hB : get k b = none := get_eq_none.2 fun v hv => by
          have := hltB _ hv
          simp [hk] at this
        rw [hA, hB]
      · have := h k
        simpa [get, hk] using this

/-- A sorted map among the entries of another one that is not longer is that map. -/
theorem eq_of_subset {a b : List (α × β)} (ha : Sorted a) (hb : Sorted b) (hsub : a ⊆ b)
    (hlen : b.length ≤ a.length) : a = b := by
  have hperm : a.Perm b := (List.subperm_of_subset (nodup_keys ha).of_map hsub).perm_of_length_le hlen
  refine ext ha hb fun k => Option.ext fun v => ?_
  exact ⟨fun h => get_of_mem hb (hperm.mem_iff.1 (mem_of_get h)),
    fun h => get_of_mem ha (hperm.mem_iff.2 (mem_of_get h))⟩

/-! ## A map around one of its entries -/

theorem sorted_split {l r : List (α × β)} {p : α × β} :
    Sorted (l ++ p :: r) ↔
      Sorted l ∧ Sorted r ∧ (∀ q ∈ l, q.1 < p.1) ∧ ∀ q ∈ r, p.1 < q.1 := by
  constructor
  · intro h
    rw [Sorted, List.map_append, List.pairwise_append] at h
    obtain ⟨hl, hr, hlr⟩ := h
    have hr : Sorted (p :: r) := hr
    obtain ⟨hpr, hr⟩ := sorted_cons.1 hr
    exact ⟨hl, hr, fun q hq => hlr _ (List.mem_map_of_mem hq) _ (by simp), hpr⟩
  · rintro ⟨hl, hr, hlp, hpr⟩
    rw [Sorted, List.map_append, List.pairwise_append]
    refine ⟨hl, sorted_cons.2 ⟨hpr, hr⟩, ?_⟩
    intro a ha b hb
    obtain ⟨q, hq, rfl⟩ := List.mem_map.1 ha
    rcases List.mem_cons.1 hb with rfl | hb
    · exact hlp q hq
    · obtain ⟨q', hq', rfl⟩ := List.mem_map.1 hb
      exact (hlp q hq).trans (hpr q' hq')

theorem get_append {k : α} {l r : List (α × β)} : get k (l ++ r) = (get k l).or (get k r) := by
  induction l with
  | nil => rfl
  | cons p l ih =>
    rw [List.cons_append, get, get]
    split
    · rfl
    · exact ih

theorem get_of_below {k : α} {d : List (α × β)} (h : ∀ q ∈ d, k < q.1) : get k d = none :=
  get_eq_none.2 fun _ hv => lt_irrefl _ (h _ hv)

theorem get_of_above {k : α} {d : List (α × β)} (h : ∀ q ∈ d, q.1 < k) : get k d = none :=
  get_eq_none.2 fun _ hv => lt_irrefl _ (h _ hv)

theorem set_split_lt {k : α} {v : β} {l r : List (α × β)} {p : α × β} (h : k < p.1) :
    set k v (l ++ p :: r) = set k v l ++ p :: r := by
  induction l with
  | nil => simp [set, h]
  | cons q l ih =>
    rw [List.cons_append, set, set]
    split
    · rfl
    · split
      · rfl
      · rw [ih, List.cons_append]

theorem set_split_eq {k : α} {v w : β} {l r : List (α × β)} (h : ∀ q ∈ l, q.1 < k) :
    set k v (l ++ (k, w) :: r) = l ++ (k, v) :: r := by
  induction l with
  | nil => simp [set]
  | cons q l ih =>
    have hq := h q List.mem_cons_self
    rw [List.cons_append, set, if_neg hq.not_gt, if_neg hq.ne',
      ih fun q' hq' => h q' (List.mem_cons_of_mem _ hq')]
    rfl

theorem set_split_gt {k : α} {v : β} {l r : List (α × β)} {p : α × β} (hl : ∀ q ∈ l, q.1 < p.1)
    (h : p.1 < k) : set k v (l ++ p :: r) = l ++ p :: set k v r := by
  induction l with
  | nil => simp [set, h.not_gt, h.ne']
  | cons q l ih =>
    have hq := (hl q List.mem_cons_self).trans h
    rw [List.cons_append, set, if_neg hq.not_gt, if_neg hq.ne',
      ih fun q' hq' => hl q' (List.mem_cons_of_mem _ hq')]
    rfl

@[simp] theorem remove_append (k : α) (l r : List (α × β)) :
    remove k (l ++ r) = remove k l ++ remove k r := List.filter_append ..

theorem remove_cons_self (k : α) (v : β) (d : List (α × β)) :
    remove k ((k, v) :: d) = remove k d := by
  simp [remove]

theorem remove_cons_ne {k : α} {p : α × β} (h : p.1 ≠ k) (d : List (α × β)) :
    remove k (p :: d) = p :: remove k d := by
  simp [remove, h]

theorem remove_of_notMem {k : α} {d : List (α × β)} (h : ∀ q ∈ d, q.1 ≠ k) : remove k d = d := by
  rw [remove, List.filter_eq_self]
  exact fun q hq => decide_eq_true (h q hq)

theorem remove_of_below {k : α} {d : List (α × β)} (h : ∀ q ∈ d, k < q.1) : remove k d = d :=
  remove_of_notMem fun q hq => (h q hq).ne'

theorem remove_of_above {k : α} {d : List (α × β)} (h : ∀ q ∈ d, q.1 < k) : remove k d = d :=
  remove_of_notMem fun q hq => (h q hq).ne

/-! ## Maps from lists of entries -/

theorem foldl_set_get {k : α} (l : List (α × β)) (d : List (α × β)) (h : ∀ v, (k, v) ∉ l) :
    get k (l.foldl (fun d p => set p.1 p.2 d) d) = get k d := by
  induction l generalizing d with
  | nil => rfl
  | cons p l ih =>
    rw [List.foldl_cons, ih _ fun v hv => h v (List.mem_cons_of_mem _ hv), get_set, if_neg]
    rintro rfl
    exact h p.2 List.mem_cons_self

theorem sorted_foldl_set (l : List (α × β)) {d : List (α × β)} (hd : Sorted d) :
    Sorted (l.foldl (fun d p => set p.1 p.2 d) d) := by
  induction l generalizing d with
  | nil => exact hd
  | cons p l ih => exact ih (sorted_set hd)

theorem foldl_set_get_mem {k : α} {v : β} (l : List (α × β)) (d : List (α × β))
    (hl : (l.map Prod.fst).Nodup) (h : (k, v) ∈ l) :
    get k (l.foldl (fun d p => set p.1 p.2 d) d) = some v := by
  induction l generalizing d with
  | nil => cases h
  | cons p l ih =>
    rw [List.map_cons, List.nodup_cons] at hl
    rw [List.foldl_cons]
    rcases List.mem_cons.1 h with e | h
    · subst e
      rw [foldl_set_get _ _ fun w hw => hl.1 (List.mem_map.2 ⟨(k, w), hw, rfl⟩)]
      simp
    · exact ih _ hl.2 h

/-- A dictionary keeps the last entry of a key. -/
theorem get_foldl_set (k : α) (l d : List (α × β)) :
    get k (l.foldl (fun d p => set p.1 p.2 d) d) =
      (((l.filter fun p => p.1 = k).getLast?).map Prod.snd).or (get k d) := by
  induction l generalizing d with
  | nil => rfl
  | cons p l ih =>
    rw [List.foldl_cons, ih, get_set, List.filter_cons]
    by_cases hk : k = p.1
    · subst hk
      simp only [if_true, decide_true, List.getLast?_cons, Option.map_some]
      cases (l.filter fun q => q.1 = p.1).getLast? <;> rfl
    · rw [if_neg hk, if_neg (by simpa using Ne.symm hk)]

theorem sorted_ofList (l : List (α × β)) : Sorted (ofList l) := sorted_foldl_set l sorted_nil

theorem get_ofList_mem {k : α} {v : β} {l : List (α × β)} (hl : (l.map Prod.fst).Nodup)
    (h : (k, v) ∈ l) : get k (ofList l) = some v :=
  foldl_set_get_mem l [] hl h

theorem get_ofList_none {k : α} {l : List (α × β)} (h : ∀ v, (k, v) ∉ l) :
    get k (ofList l) = none := by
  rw [ofList, foldl_set_get l [] h, get_nil]

theorem mem_foldl_set {p : α × β} (l d : List (α × β))
    (h : p ∈ l.foldl (fun d p => set p.1 p.2 d) d) : p ∈ l ∨ p ∈ d := by
  induction l generalizing d with
  | nil => exact .inr h
  | cons q l ih =>
    rcases ih _ h with h | h
    · exact .inl (List.mem_cons_of_mem _ h)
    · rcases mem_set h with rfl | h
      · exact .inl List.mem_cons_self
      · exact .inr h

theorem mem_ofList {p : α × β} {l : List (α × β)} (h : p ∈ ofList l) : p ∈ l :=
  (mem_foldl_set l [] h).resolve_right (by simp)

/-- Every key of the list has an entry, though maybe a later one. -/
theorem key_mem_ofList {p : α × β} {l : List (α × β)} (h : p ∈ l) : ∃ v, (p.1, v) ∈ ofList l := by
  have hfold : ∀ d : List (α × β), (p ∈ l ∨ (get p.1 d).isSome) →
      (get p.1 (l.foldl (fun d p => set p.1 p.2 d) d)).isSome := by
    clear h
    induction l with
    | nil => simp
    | cons q l ih =>
      intro d hd
      rw [List.foldl_cons]
      refine ih _ ?_
      rw [get_set]
      rcases hd with hd | hd
      · rcases List.mem_cons.1 hd with rfl | hd
        · exact .inr (by simp)
        · exact .inl hd
      · right
        split
        · rfl
        · exact hd
  obtain ⟨v, hv⟩ := Option.isSome_iff_exists.1 (hfold [] (.inl h))
  exact ⟨v, mem_of_get hv⟩

/-- The map of a list with distinct keys holds the list's entries. -/
theorem perm_ofList {l : List (α × β)} (hl : (l.map Prod.fst).Nodup) : (ofList l).Perm l := by
  refine (List.perm_ext_iff_of_nodup (List.Nodup.of_map _ (nodup_keys (sorted_ofList l)))
    (List.Nodup.of_map _ hl)).2 ?_
  rintro ⟨k, v⟩
  constructor
  · intro h
    have hget := get_of_mem (sorted_ofList l) h
    by_contra hn
    obtain ⟨w, hw⟩ : ∃ w, (k, w) ∈ l := by
      by_contra hno
      rw [get_ofList_none fun w hw => hno ⟨w, hw⟩] at hget
      cases hget
    rw [get_ofList_mem hl hw] at hget
    cases hget
    exact hn hw
  · exact fun h => mem_of_get (get_ofList_mem hl h)

/-- A sorted list of the same entries is the map. -/
theorem eq_ofList_of_perm {a l : List (α × β)} (ha : Sorted a) (hl : (l.map Prod.fst).Nodup)
    (h : a.Perm l) : a = ofList l := by
  refine ext ha (sorted_ofList l) fun k => Option.ext fun v => ?_
  constructor
  · intro hv
    exact get_ofList_mem hl (h.mem_iff.1 (mem_of_get hv))
  · intro hv
    exact get_of_mem ha (h.mem_iff.2 (mem_ofList (mem_of_get hv)))

theorem set_map_val (f : β → γ) (k : α) (v : β) (d : List (α × β)) :
    set k (f v) (d.map fun p => (p.1, f p.2)) = (set k v d).map fun p => (p.1, f p.2) := by
  induction d with
  | nil => rfl
  | cons p d ih =>
    rw [List.map_cons, set, set]
    split
    · rfl
    · split
      · rfl
      · rw [ih, List.map_cons]

theorem ofList_map_val (f : β → γ) (l : List (α × β)) :
    ofList (l.map fun p => (p.1, f p.2)) = (ofList l).map fun p => (p.1, f p.2) := by
  have hfold : ∀ d : List (α × β), (l.map fun p => (p.1, f p.2)).foldl (fun d p => set p.1 p.2 d)
      (d.map fun p => (p.1, f p.2)) = (l.foldl (fun d p => set p.1 p.2 d) d).map fun p => (p.1, f p.2) := by
    induction l with
    | nil => exact fun _ => rfl
    | cons p l ih =>
      intro d
      have hp := set_map_val f p.1 p.2 d
      simp only [List.map_cons, List.foldl_cons]
      rw [hp, ih]
  exact hfold []

end SortedDict
