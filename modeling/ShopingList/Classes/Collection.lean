import ShopingList.Lib.Replica
import ShopingList.Firebase.Path
import ShopingList.Firebase.KeyOrder
import ShopingList.Classes.CompareList

/-!
# Collections of lists

`Legal` lists can be stored next to each other: names are keys of the database,
distinct among the lists and among the items of one list. `view` forgets order and
owners and makes a collection a `Replica.Store`; `view_mergeLists` says that
the merge is `Replica.merge` there.
-/

namespace ShopingList

open FValidation KeyedMerge

/-- The same name and, up to order, the same items. -/
structure SameItems (a b : ListData) : Prop where
  listName : a.listName = b.listName
  listItems : a.listItems.Perm b.listItems

structure SameList (a b : ListData) : Prop extends SameItems a b where
  listOwner : a.listOwner = b.listOwner

/-- Every name of a list or an item satisfies `P`. -/
structure Named (P : String → Prop) (ls : List ListData) : Prop where
  listNames : ∀ l ∈ ls, ∀ n, l.listName = some n → P n
  itemNames : ∀ l ∈ ls, ∀ i ∈ l.listItems, ∀ n, i.itemName = some n → P n

/-- The database tells the names of the items apart. -/
def Untied (is : List ItemData) : Prop :=
  ∀ i ∈ is, ∀ j ∈ is, ∀ m ∈ i.itemName, ∀ n ∈ j.itemName, FUtilities.sameOrdering m n = false

instance (is : List ItemData) : Decidable (Untied is) :=
  inferInstanceAs (Decidable (∀ i ∈ is, ∀ j ∈ is, ∀ m ∈ i.itemName, ∀ n ∈ j.itemName, _ = _))

/-- Lists with distinct names, whose items have distinct names. -/
structure Collection (ls : List ListData) : Prop where
  lists : Distinct ListData.listName ls
  items : ∀ l ∈ ls, Distinct ItemData.itemName l.listItems

structure Legal (ls : List ListData) : Prop extends Named (isValidKey · = true) ls where
  lists : Distinct ListData.listName ls
  items : ∀ l ∈ ls, Distinct ItemData.itemName l.listItems

theorem Legal.collection {ls : List ListData} (h : Legal ls) : Collection ls := ⟨h.lists, h.items⟩

instance (P : String → Prop) [DecidablePred P] (ls : List ListData) : Decidable (Named P ls) :=
  decidable_of_iff ((∀ l ∈ ls, ∀ n ∈ l.listName, P n) ∧
      ∀ l ∈ ls, ∀ i ∈ l.listItems, ∀ n ∈ i.itemName, P n)
    ⟨fun h => ⟨h.1, h.2⟩, fun h => ⟨h.listNames, h.itemNames⟩⟩

instance (ls : List ListData) : Decidable (Legal ls) :=
  decidable_of_iff (Named (isValidKey · = true) ls ∧ Distinct ListData.listName ls ∧
      ∀ l ∈ ls, Distinct ItemData.itemName l.listItems)
    ⟨fun h => ⟨h.1, h.2.1, h.2.2⟩, fun h => ⟨h.toNamed, h.lists, h.items⟩⟩

theorem Named.imp {P Q : String → Prop} {ls : List ListData} (h : Named P ls) (hPQ : ∀ n, P n → Q n) :
    Named Q ls :=
  ⟨fun l hl n hn => hPQ n (h.listNames l hl n hn), fun l hl i hi n hn => hPQ n (h.itemNames l hl i hi n hn)⟩

/-- Names that are no zeroes are told apart. -/
theorem Named.untied {ls : List ListData} (h : Named (FUtilities.isZeroes · = false) ls) :
    ∀ l ∈ ls, Untied l.listItems := by
  intro l hl i hi j hj m hm n hn
  rw [Bool.eq_false_iff]
  intro htied
  have hzero := (FUtilities.isZeroes_of_sameOrdering htied).1
  rw [h.itemNames l hl i hi m hm] at hzero
  cases hzero

theorem SameItems.refl (a : ListData) : SameItems a a := ⟨rfl, .refl _⟩

theorem SameItems.symm {a b : ListData} (h : SameItems a b) : SameItems b a :=
  ⟨h.listName.symm, h.listItems.symm⟩

theorem SameItems.trans {a b c : ListData} (h : SameItems a b) (h' : SameItems b c) :
    SameItems a c := ⟨h.listName.trans h'.listName, h.listItems.trans h'.listItems⟩

theorem Named.of_upToOrder {P : String → Prop} {as bs : List ListData}
    (h : UpToOrder SameItems as bs) (hb : Named P bs) : Named P as := by
  constructor
  · intro a ha n hn
    obtain ⟨b, hbm, hab⟩ := h.mem_left ha
    exact hb.listNames b hbm n (hab.listName ▸ hn)
  · intro a ha i hi n hn
    obtain ⟨b, hbm, hab⟩ := h.mem_left ha
    exact hb.itemNames b hbm i (hab.listItems.mem_iff.1 hi) n hn

theorem Collection.of_upToOrder {as bs : List ListData} (h : UpToOrder SameItems as bs)
    (hb : Collection bs) : Collection as := by
  refine ⟨h.distinct (fun a b hab => hab.listName) hb.lists, ?_⟩
  intro a ha
  obtain ⟨b, hbm, hab⟩ := h.mem_left ha
  exact (hb.items b hbm).perm hab.listItems.symm

theorem Legal.of_upToOrder {as bs : List ListData} (h : UpToOrder SameItems as bs)
    (hb : Legal bs) : Legal as :=
  have ha := hb.collection.of_upToOrder h
  ⟨hb.toNamed.of_upToOrder h, ha.lists, ha.items⟩

/-! ## Owners -/

def ListData.withOwner (u : UserData) (l : ListData) : ListData := { l with listOwner := u }

@[simp] theorem ListData.withOwner_listName (u : UserData) (l : ListData) :
    (l.withOwner u).listName = l.listName := rfl

@[simp] theorem ListData.withOwner_listItems (u : UserData) (l : ListData) :
    (l.withOwner u).listItems = l.listItems := rfl

theorem upToOrder_withOwner (u : UserData) (ls : List ListData) :
    UpToOrder SameItems (ls.map (·.withOwner u)) ls := by
  refine ⟨_, .refl _, ?_⟩
  rw [List.forall₂_map_left_iff, List.forall₂_same]
  exact fun l _ => ⟨rfl, .refl _⟩

/-! ## The merge of collections -/

namespace CompareList

theorem pickData_choice (dates : DateAlloc) (listName : Option String) (a b : ItemData) :
    pickData dates listName a b = a ∨ pickData dates listName a b = b := by
  unfold pickData
  split
  · exact .inl rfl
  · exact .inr rfl

theorem pickData_itemName (dates : DateAlloc) (listName : Option String) {a b : ItemData}
    (h : sameKey ItemData.itemName a b = true) :
    (pickData dates listName a b).itemName = a.itemName := by
  obtain ⟨n, ha, hb⟩ := sameKey_iff.1 h
  rcases pickData_choice dates listName a b with e | e
  · rw [e]
  · rw [e, ha, hb]

variable {dates : DateAlloc} {as bs : List ListData}

theorem mem_mergeItems {listName : Option String} {is js : List ItemData} {x : ItemData}
    (h : x ∈ mergeItems dates listName is js) : x ∈ is ∨ x ∈ js := by
  rcases mem_mergeBy h with h | h | ⟨a, ha, b, hb, -, rfl⟩
  · exact .inl h.1
  · exact .inr h.1
  · rcases pickData_choice dates listName a b with e | e
    · exact .inl (by rwa [e])
    · exact .inr (by rwa [e])

theorem named_mergeLists {P : String → Prop} (ha : Named P as) (hb : Named P bs) :
    Named P (mergeLists dates as bs) := by
  constructor
  · intro l hl n hn
    rcases mem_unionBy hl with h | h | ⟨a, hal, b, -, -, rfl⟩
    · exact ha.listNames l h.1 n hn
    · exact hb.listNames l h.1 n hn
    · exact ha.listNames a hal n hn
  · intro l hl i hi n hn
    rcases mem_unionBy hl with h | h | ⟨a, hal, b, hbl, -, rfl⟩
    · exact ha.itemNames l h.1 i hi n hn
    · exact hb.itemNames l h.1 i hi n hn
    · rcases mem_mergeItems hi with hi | hi
      · exact ha.itemNames a hal i hi n hn
      · exact hb.itemNames b hbl i hi n hn

theorem distinct_mergeItems (listName : Option String) {is js : List ItemData}
    (ha : Distinct ItemData.itemName is) (hb : Distinct ItemData.itemName js) :
    Distinct ItemData.itemName (mergeItems dates listName is js) :=
  distinct_mergeBy ha hb fun _ _ => pickData_itemName dates listName

/-- The merge of two collections is one. -/
theorem collection_mergeLists (ha : Collection as) (hb : Collection bs) : Collection (mergeLists dates as bs) := by
  refine ⟨distinct_unionBy ha.lists hb.lists fun _ _ => rfl, fun l hl => ?_⟩
  rcases mem_unionBy hl with h | h | ⟨a, hal, b, hbl, -, rfl⟩
  · exact ha.items l h.1
  · exact hb.items l h.1
  · exact distinct_mergeItems a.listName (ha.items a hal) (hb.items b hbl)

theorem legal_mergeLists (ha : Legal as) (hb : Legal bs) : Legal (mergeLists dates as bs) :=
  have hm := collection_mergeLists ha.collection hb.collection
  ⟨named_mergeLists ha.toNamed hb.toNamed, hm.lists, hm.items⟩

/-- The choice of the merge, as a `Replica.Pick`. -/
def pickAt (dates : DateAlloc) : Replica.Pick String String ItemData := fun listName _ =>
  pickData dates (some listName)

theorem chooses_pickAt (dates : DateAlloc) : Replica.Chooses (pickAt dates) :=
  fun listName _ a b => pickData_choice dates (some listName) a b

end CompareList

/-! ## Collections as stores -/

/-- The items under their names, under the names of their lists. -/
def view (ls : List ListData) : Replica.Store String String ItemData := fun listName =>
  (lookup ListData.listName listName ls).map fun l itemName =>
    lookup ItemData.itemName itemName l.listItems

theorem view_of_upToOrder {as bs : List ListData} (h : UpToOrder SameItems as bs) (hb : Collection bs) :
    view as = view bs := by
  funext k
  have hk := h.lookup (fun a b hab => hab.listName) hb.lists k
  unfold view
  cases hla : lookup ListData.listName k as with
  | none =>
    rw [hla] at hk
    cases hlb : lookup ListData.listName k bs with
    | none => rfl
    | some b => rw [hlb] at hk; cases hk
  | some a =>
    rw [hla] at hk
    cases hlb : lookup ListData.listName k bs with
    | none => rw [hlb] at hk; cases hk
    | some b =>
      rw [hlb] at hk
      cases hk with
      | some hab =>
        refine congrArg some (funext fun i => ?_)
        exact ((hb.items b (lookup_some hlb).1).perm hab.listItems.symm).lookup_perm hab.listItems i

theorem upToOrder_of_view {as bs : List ListData} (ha : Collection as) (hb : Collection bs)
    (h : view as = view bs) : UpToOrder SameItems as bs := by
  refine perm_of_lookup ha.lists hb.lists fun k => ?_
  have hk := congrFun h k
  unfold view at hk
  cases hla : lookup ListData.listName k as with
  | none =>
    rw [hla] at hk
    cases hlb : lookup ListData.listName k bs with
    | none => exact .none
    | some b => rw [hlb] at hk; cases hk
  | some a =>
    rw [hla] at hk
    cases hlb : lookup ListData.listName k bs with
    | none => rw [hlb] at hk; cases hk
    | some b =>
      rw [hlb] at hk
      simp only [Option.map_some, Option.some.injEq] at hk
      obtain ⟨ham, han⟩ := lookup_some hla
      obtain ⟨hbm, hbn⟩ := lookup_some hlb
      refine .some ⟨han.trans hbn.symm, ?_⟩
      obtain ⟨l, hl, hf⟩ := perm_of_lookup (R := Eq) (ha.items a ham) (hb.items b hbm) fun i => by
        rw [congrFun hk i]
        cases lookup ItemData.itemName i b.listItems
        · exact .none
        · exact .some rfl
      rw [List.forall₂_eq_eq_eq] at hf
      exact hf ▸ hl

/-- **The merge of the program merges stores.** -/
theorem view_mergeLists (dates : DateAlloc) {as bs : List ListData} (ha : Distinct ListData.listName as)
    (hb : ∀ b ∈ bs, Distinct ItemData.itemName b.listItems) :
    view (CompareList.mergeLists dates as bs) =
      Replica.merge (CompareList.pickAt dates) (view as) (view bs) := by
  funext k
  have hk : lookup ListData.listName k (unionBy ListData.listName (CompareList.combine dates) as bs) =
      Option.merge (CompareList.combine dates) (lookup ListData.listName k as)
        (lookup ListData.listName k bs) := by
    refine lookup_unionBy ha ?_ k
    exact fun _ _ => rfl
  simp only [view, Replica.merge, CompareList.mergeLists, hk]
  cases hla : lookup ListData.listName k as with
  | none => cases lookup ListData.listName k bs <;> simp
  | some a =>
    cases hlb : lookup ListData.listName k bs with
    | none => simp
    | some b =>
      obtain ⟨ham, han⟩ := lookup_some hla
      obtain ⟨hbm, -⟩ := lookup_some hlb
      simp only [Option.merge_some_some, Option.map_some, CompareList.combine,
        CompareList.mergeItems, han]
      refine congrArg some (funext fun i => ?_)
      exact lookup_mergeBy (hb b hbm) (fun _ _ => CompareList.pickData_itemName dates (some k)) i

end ShopingList
