import ShopingList.Lib.SeparateKeys
import ShopingList.Classes.CompareList

/-!
# What a merge returns

`compare_spec` describes the result of `compare` as lists of objects: which lists
and items it holds, and that the objects of the inputs are not changed.
`later_compare_iff` says which of two items of one name it takes.
-/

namespace ShopingList

open KeyedMerge

namespace CompareList

/-! ## New lists -/

theorem mem_resLists {dates : DateAlloc} {next : Nat} {listB as : List ShopingListsClass}
    {x : ShopingListsClass} (h : x ∈ resLists dates next listB as) :
    ∃ a ∈ as, ∃ addr, next ≤ addr ∧ x = resList dates addr a listB := by
  induction as generalizing next with
  | nil => cases h
  | cons a as ih =>
    rw [resLists] at h
    rcases List.mem_cons.1 h with rfl | h
    · exact ⟨a, List.mem_cons_self, next, Nat.le_refl next, rfl⟩
    · obtain ⟨b, hb, addr, hle, rfl⟩ := ih h
      exact ⟨b, List.mem_cons_of_mem _ hb, addr, by omega, rfl⟩

theorem exists_resLists (dates : DateAlloc) (next : Nat) (listB : List ShopingListsClass)
    {as : List ShopingListsClass} {a : ShopingListsClass} (h : a ∈ as) :
    ∃ addr, resList dates addr a listB ∈ resLists dates next listB as := by
  induction as generalizing next with
  | nil => cases h
  | cons b as ih =>
    rcases List.mem_cons.1 h with rfl | h
    · exact ⟨next, List.mem_cons_self⟩
    · obtain ⟨addr, hm⟩ := ih (next + 1) h
      exact ⟨addr, List.mem_cons_of_mem _ hm⟩

theorem counterPart {listB : List ShopingListsClass} {b : ShopingListsClass} {n : String}
    (hB : Separate ShopingListsClass.listName listB) (hb : b ∈ listB) (hn : b.listName = some n) :
    listB.find? (fun x => isEqualToString x.listName (some n)) = some b := by
  cases hf : listB.find? (fun x => isEqualToString x.listName (some n)) with
  | none => exact absurd (isEqualToString_iff.2 ⟨n, hn, rfl⟩) (List.find?_eq_none.1 hf b hb)
  | some c =>
    have hs := List.find?_some (p := fun x : ShopingListsClass => isEqualToString x.listName (some n)) hf
    obtain ⟨m, hc, hm⟩ := isEqualToString_iff.1 hs
    cases hm
    rw [hB.eq_of_key (List.mem_of_find?_eq_some hf) hb hc hn]

theorem pickItem_choice (dates : DateAlloc) (listName : Option String) (a b : ItemClass) :
    pickItem dates listName a b = a ∨ pickItem dates listName a b = b := by
  unfold pickItem
  split
  · exact .inl rfl
  · exact .inr rfl

theorem pickItem_itemName (dates : DateAlloc) (listName : Option String) {a b : ItemClass}
    (h : sameKey ItemClass.itemName a b = true) :
    (pickItem dates listName a b).itemName = a.itemName := by
  obtain ⟨k, ha, hb⟩ := sameKey_iff.1 h
  rcases pickItem_choice dates listName a b with e | e
  · rw [e]
  · rw [e, ha, hb]

theorem mem_resultItems {dates : DateAlloc} {listName : Option String} {itemsA counterItems : List ItemClass}
    {i : ItemClass} (h : i ∈ resultItems dates listName itemsA counterItems) :
    i ∈ itemsA ∨ i ∈ counterItems := by
  rw [resultItems_eq] at h
  rcases mem_mergeBy h with ⟨hi, -⟩ | ⟨hi, -⟩ | ⟨a, ha, b, hb, -, rfl⟩
  · exact .inl hi
  · exact .inr hi
  · rcases pickItem_choice dates listName a b with e | e
    · exact .inl (by rwa [e])
    · exact .inr (by rwa [e])

/-! ## The result -/

/-- The list of both versions `a` and `b` of a list named `n`. -/
structure BothLists (a b : ShopingListsClass) (n : String) (l : ShopingListsClass) : Prop where
  listName : l.listName = some n
  separate : Separate ItemClass.itemName l.listItems
  itemNames : ∀ k, k ∈ l.listItems.filterMap ItemClass.itemName ↔
    k ∈ a.listItems.filterMap ItemClass.itemName ∨ k ∈ b.listItems.filterMap ItemClass.itemName
  items : ∀ i ∈ l.listItems, i ∈ a.listItems ∨ i ∈ b.listItems

/-- What `[CompareList compare:listA and:listB]` returns and leaves; new objects take the
addresses from `next` on. -/
structure MergeOf (next : Nat) (listA listB : List ShopingListsClass) (r : Result) : Prop where
  separate : Separate ShopingListsClass.listName r.combinedLists
  listNames : ∀ n, n ∈ r.combinedLists.filterMap ShopingListsClass.listName ↔
    n ∈ listA.filterMap ShopingListsClass.listName ∨ n ∈ listB.filterMap ShopingListsClass.listName
  onlyA : ∀ a ∈ listA, isUnique a listB = true → a ∈ r.combinedLists
  onlyB : ∀ b ∈ listB, isUnique b listA = true → b ∈ r.combinedLists
  both : ∀ a ∈ listA, ∀ b ∈ listB, ∀ n, a.listName = some n → b.listName = some n →
    ∃ l ∈ r.combinedLists, BothLists a b n l
  /-- A list of the result is an input object as it was, or a new object. -/
  objects : ∀ l ∈ r.combinedLists, l ∈ listA ∨ l ∈ listB ∨ next ≤ l.addr
  leftA : ∀ l ∈ r.listA, l ∈ listA
  leftB : ∀ l ∈ r.listB, l ∈ listB

section
variable {dates : DateAlloc} {next : Nat} {listA listB : List ShopingListsClass}

theorem names_combinedLists (dates : DateAlloc) (next : Nat) (listA listB : List ShopingListsClass) :
    (compare dates next listA listB).combinedLists.filterMap ShopingListsClass.listName =
      (mergeLists dates (listA.map (·.encodeWithCoder)) (listB.map (·.encodeWithCoder))).filterMap
        ListData.listName := by
  rw [← compare_encode dates next, List.filterMap_map]
  rfl

theorem names_encode (ls : List ShopingListsClass) :
    (ls.map (·.encodeWithCoder)).filterMap ListData.listName = ls.filterMap ShopingListsClass.listName := by
  rw [List.filterMap_map]
  rfl

theorem separate_combinedLists (hA : Separate ShopingListsClass.listName listA)
    (hB : Separate ShopingListsClass.listName listB) :
    Separate ShopingListsClass.listName (compare dates next listA listB).combinedLists := by
  rw [Separate, names_combinedLists]
  have hcomb : ∀ a b : ListData, (combine dates a b).listName = a.listName := fun _ _ => rfl
  exact separate_unionBy hcomb ((Separate.map fun _ => rfl).2 hA) ((Separate.map fun _ => rfl).2 hB)

/-- The new list for two lists of one name. -/
theorem exists_resList (dates : DateAlloc) (next : Nat) (hB : Separate ShopingListsClass.listName listB)
    {a b : ShopingListsClass}
    (ha : a ∈ listA) (hb : b ∈ listB) {n : String} (han : a.listName = some n)
    (hbn : b.listName = some n) : ∃ l ∈ (compare dates next listA listB).combinedLists,
      l.listName = some n ∧ l.listItems = resultItems dates (some n) a.listItems b.listItems := by
  have hu : (!isUnique a listB) = true := by
    simp only [isUnique, Bool.not_not, List.any_eq_true]
    exact ⟨b, hb, isEqualToString_iff.2 ⟨n, han, hbn⟩⟩
  obtain ⟨addr, hm⟩ := exists_resLists dates next (listB.filter fun b => !isUnique b listA)
    (List.mem_filter.2 ⟨ha, hu⟩ : a ∈ listA.filter fun a => !isUnique a listB)
  refine ⟨resList dates addr a (listB.filter fun b => !isUnique b listA), ?_, han, ?_⟩
  · rw [combinedLists_eq]
    exact List.mem_append_right _ hm
  have hcounter := counterPart_left listB ha
  rw [han, counterPart hB hb hbn] at hcounter
  simp only [resList, han, hcounter, Option.map_some, Option.getD_some]

/-- **What a merge returns**, whatever the comparisons of dates say. -/
theorem compare_spec (dates : DateAlloc) (next : Nat) (hA : Separate ShopingListsClass.listName listA)
    (hB : Separate ShopingListsClass.listName listB)
    (hAi : ∀ a ∈ listA, Separate ItemClass.itemName a.listItems)
    (hBi : ∀ b ∈ listB, Separate ItemClass.itemName b.listItems) :
    MergeOf next listA listB (compare dates next listA listB) where
  separate := separate_combinedLists hA hB
  listNames n := by
    rw [names_combinedLists, ← names_encode, ← names_encode]
    have hcomb : ∀ a b : ListData, (combine dates a b).listName = a.listName := fun _ _ => rfl
    exact mem_keys_unionBy hcomb n
  onlyA a ha hu := by
    rw [combinedLists_eq]
    exact List.mem_append_left _ (List.mem_append_left _ (List.mem_filter.2 ⟨ha, hu⟩))
  onlyB b hb hu := by
    rw [combinedLists_eq]
    exact List.mem_append_left _ (List.mem_append_right _ (List.mem_filter.2 ⟨hb, hu⟩))
  both a ha b hb n han hbn := by
    obtain ⟨l, hl, hn, hitems⟩ := exists_resList dates next hB ha hb han hbn
    have hpick : ∀ i j, sameKey ItemClass.itemName i j = true →
        (pickItem dates (some n) i j).itemName = i.itemName :=
      fun _ _ => pickItem_itemName dates (some n)
    refine ⟨l, hl, hn, ?_, fun k => ?_, fun i hi => ?_⟩
    · rw [hitems, resultItems_eq]
      exact separate_mergeBy hpick (hAi a ha) (hBi b hb)
    · rw [hitems, resultItems_eq]
      exact mem_keys_mergeBy hpick (hBi b hb) k
    · rw [hitems] at hi
      exact mem_resultItems hi
  objects l hl := by
    rw [combinedLists_eq, List.mem_append, List.mem_append] at hl
    rcases hl with (hl | hl) | hl
    · exact .inl (List.mem_filter.1 hl).1
    · exact .inr (.inl (List.mem_filter.1 hl).1)
    · obtain ⟨a, -, addr, hle, rfl⟩ := mem_resLists hl
      exact .inr (.inr hle)
  leftA l hl := by
    rw [(compare_left dates next listA listB).1] at hl
    exact (List.mem_filter.1 hl).1
  leftB l hl := by
    rw [(compare_left dates next listA listB).2] at hl
    exact (List.mem_filter.1 hl).1

end

/-! ## Last writer -/

/-- The instant that a time stands for. -/
def instantOf (time : Option String) : Option Nat := (dateFromString 0 time).map NSDate.instant

theorem dateFromString_eq (addr : Nat) (time : Option String) :
    dateFromString addr time = (instantOf time).map fun t => ⟨addr, t⟩ := by
  unfold instantOf dateFromString
  split
  · split
    · simp only [Option.map_bind, Option.bind_eq_bind, Function.comp_def]
      iterate 5 refine congrArg _ (funext fun _ => ?_)
      split <;> rfl
    · rfl
  · rfl

/-- The comparison looks at the addresses only. -/
theorem isNewer_iff (dates : DateAlloc) (listName itemName : Option String)
    {anyTime counterTime : Option String} {t t' : Nat} (ht : instantOf anyTime = some t)
    (ht' : instantOf counterTime = some t') :
    isNewer dates listName itemName anyTime counterTime = true ↔
      (dates listName itemName).2 < (dates listName itemName).1 := by
  simp only [isNewer, dateFromString_eq, ht, ht', pointerGt, Option.map_some, Option.getD_some,
    decide_eq_true_eq]

/-- Two versions `a` and `b` of a list named `n`, in inputs with distinct names, with the
versions `i` and `j` of an item named `k`, of the instants `t` and `t'`. -/
structure TwoVersions (listA listB : List ShopingListsClass) (a b : ShopingListsClass) (n : String)
    (i j : ItemClass) (k : String) (t t' : Nat) : Prop where
  separateA : Separate ShopingListsClass.listName listA
  separateB : Separate ShopingListsClass.listName listB
  itemsA : ∀ l ∈ listA, Separate ItemClass.itemName l.listItems
  itemsB : ∀ l ∈ listB, Separate ItemClass.itemName l.listItems
  listA : a ∈ listA ∧ a.listName = some n
  listB : b ∈ listB ∧ b.listName = some n
  itemA : i ∈ a.listItems ∧ i.itemName = some k
  itemB : j ∈ b.listItems ∧ j.itemName = some k
  instantA : instantOf i.itemTime = some t
  instantB : instantOf j.itemTime = some t'
  ne : t ≠ t'

/-- The item named `k` of the list named `n` of a result is the later one of `i` and `j`. -/
def TakesLater (r : Result) (n : String) (i j : ItemClass) (k : String) (t t' : Nat) : Prop :=
  ∀ l ∈ r.combinedLists, l.listName = some n → ∀ x ∈ l.listItems, x.itemName = some k →
    x = if t' < t then i else j

/-- **When the later item wins**: when its date object has the higher address. -/
theorem later_compare_iff (dates : DateAlloc) (next : Nat) {listA listB : List ShopingListsClass}
    {a b : ShopingListsClass} {i j : ItemClass} {n k : String} {t t' : Nat}
    (h : TwoVersions listA listB a b n i j k t t') :
    TakesLater (compare dates next listA listB) n i j k t t' ↔
      (t' < t ↔ (dates (some n) (some k)).2 < (dates (some n) (some k)).1) := by
  obtain ⟨hA, hB, hAi, hBi, ⟨ha, han⟩, ⟨hb, hbn⟩, ⟨hi, hik⟩, ⟨hj, hjk⟩, ht, ht', hne⟩ := h
  obtain ⟨l, hl, hln, hitems⟩ := exists_resList dates next hB ha hb han hbn
  have hpick : ∀ i j, sameKey ItemClass.itemName i j = true →
      (pickItem dates (some n) i j).itemName = i.itemName := fun _ _ => pickItem_itemName dates (some n)
  have hmem : pickItem dates (some n) i j ∈ l.listItems := by
    rw [hitems, resultItems_eq]
    exact mem_mergeBy_both hi hj (sameKey_iff.2 ⟨k, hik, hjk⟩)
  have hname : (pickItem dates (some n) i j).itemName = some k :=
    (hpick i j (sameKey_iff.2 ⟨k, hik, hjk⟩)).trans hik
  have hsep : Separate ItemClass.itemName l.listItems := by
    rw [hitems, resultItems_eq]
    exact separate_mergeBy hpick (hAi a ha) (hBi b hb)
  -- the result has one list of this name, and that one item of this name
  have hone : TakesLater (compare dates next listA listB) n i j k t t' ↔
      pickItem dates (some n) i j = if t' < t then i else j := by
    refine ⟨fun h => h l hl hln _ hmem hname, fun h l' hl' hn' x hx hk => ?_⟩
    have hll := (separate_combinedLists hA hB).eq_of_key hl hl' hln hn'
    subst hll
    rw [← h]
    exact hsep.eq_of_key hx hmem hk hname
  have hij : i ≠ j := by
    rintro rfl
    rw [ht] at ht'
    exact hne (Option.some.inj ht')
  rw [hone, pickItem, hik]
  have hnewer := isNewer_iff dates (some n) (some k) ht ht'
  by_cases hd : (dates (some n) (some k)).2 < (dates (some n) (some k)).1
  · rw [if_pos (hnewer.2 hd)]
    by_cases hlt : t' < t
    · simp [hlt, hd]
    · simp [hlt, hd, hij]
  · rw [if_neg fun h => hd (hnewer.1 h)]
    by_cases hlt : t' < t
    · simp [hlt, hd, hij.symm]
    · simp [hlt, hd]

/-! ## Two versions of a list -/

def oldMilk : ItemClass := ⟨2, some "Milk", some "01-02-2020 10:02", false⟩

def newMilk : ItemClass := ⟨5, some "Milk", some "02-02-2020 10:02", true⟩

def oldFood : ShopingListsClass := ⟨1, some "Food", .null, [oldMilk, ⟨3, some "Bread", none, false⟩]⟩

def newFood : ShopingListsClass := ⟨4, some "Food", .null, [newMilk, ⟨6, some "Salt", none, false⟩]⟩

def tools : ShopingListsClass := ⟨7, some "Tools", .null, []⟩

theorem compare_spec_food : MergeOf 8 [oldFood] [tools, newFood]
    (compare (fun _ _ => (9, 8)) 8 [oldFood] [tools, newFood]) :=
  compare_spec _ 8 (by decide) (by decide) (by decide) (by decide)

theorem twoVersions_food : TwoVersions [oldFood] [tools, newFood] oldFood newFood "Food" oldMilk newMilk
    "Milk" 1061935802 1061937242 :=
  ⟨by decide, by decide, by decide, by decide, by decide, by decide, by decide, by decide, by decide,
    by decide, by decide⟩

/-- The date object of the later item happens to have the higher address. -/
theorem later_compare_food :
    TakesLater (compare (fun _ _ => (8, 9)) 8 [oldFood] [tools, newFood]) "Food" oldMilk newMilk
        "Milk" 1061935802 1061937242 ↔
      (1061937242 < 1061935802 ↔ 9 < 8) :=
  later_compare_iff (fun _ _ => (8, 9)) 8 twoVersions_food

theorem not_later_compare : ¬ ∀ (dates : DateAlloc) (next : Nat) (listA listB : List ShopingListsClass)
    (a b : ShopingListsClass) (i j : ItemClass) (n k : String) (t t' : Nat),
    TwoVersions listA listB a b n i j k t t' → TakesLater (compare dates next listA listB) n i j k t t' := by
  intro h
  have hmilk := h (fun _ _ => (9, 8)) 8 _ _ _ _ _ _ _ _ _ _ twoVersions_food
  have hitem : (compare (fun _ _ => (9, 8)) 8 [oldFood] [tools, newFood]).combinedLists =
      [tools, ⟨8, some "Food", .null, [oldMilk, ⟨3, some "Bread", none, false⟩,
        ⟨6, some "Salt", none, false⟩]⟩] := by decide
  rw [TakesLater, hitem] at hmilk
  have hold := hmilk _ (List.mem_cons_of_mem _ List.mem_cons_self) rfl oldMilk List.mem_cons_self rfl
  revert hold
  decide

end CompareList

end ShopingList
