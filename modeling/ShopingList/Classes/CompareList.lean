import ShopingList.Lib.KeyedMerge
import ShopingList.Classes.Objects
import ShopingList.Classes.DateAndTime

/-!
# The merge

`compare` is the source's chain of loops: the lists whose name is in one input
only, the removal of these from both inputs, and one new list for every list
left in the first. `compare_encode` states it as a keyed union of list contents:
`KeyedMerge.unionBy` over list names, with `KeyedMerge.mergeBy` over item names
inside the lists that are on both sides.

The merge compares the addresses of two date objects made for the occasion.
Where they are made is a parameter, given per list name and item name.
-/

namespace ShopingList

/-- The addresses at which a merge makes the two date objects of an item, the
one read from the first input first. -/
abbrev DateAlloc := Option String → Option String → Nat × Nat

namespace CompareList

/-- Whether the name of `a` is not a name of `others`. -/
def isUnique (a : ShopingListsClass) (others : List ShopingListsClass) : Bool :=
  !others.any fun anyList => isEqualToString a.listName anyList.listName

/-- `removeObject:`. -/
def removeObject {α : Type} [DecidableEq α] (anObject : α) (array : List α) : List α :=
  array.filter fun x => x ≠ anObject

/-- One turn of the loop that removes the lists already added from the inputs. -/
def removeOne (lists : List ShopingListsClass × List ShopingListsClass) (any : ShopingListsClass) :
    List ShopingListsClass × List ShopingListsClass :=
  if any ∈ lists.1 then (removeObject any lists.1, lists.2)
  else if any ∈ lists.2 then (lists.1, removeObject any lists.2)
  else lists

/-- `readTimeAnyItem > readTimeCounterItem`. -/
def isNewer (dates : DateAlloc) (listName itemName anyTime counterTime : Option String) : Bool :=
  let (addrAny, addrCounter) := dates listName itemName
  pointerGt (dateFromString addrAny anyTime) (dateFromString addrCounter counterTime)

/-- The item added for a pair of items of one name. -/
def pickItem (dates : DateAlloc) (listName : Option String) (anyItem counterItem : ItemClass) :
    ItemClass :=
  if isNewer dates listName anyItem.itemName anyItem.itemTime counterItem.itemTime then anyItem
  else counterItem

/-- `thisListResultItems`. -/
def resultItems (dates : DateAlloc) (listName : Option String) (itemsA counterItems : List ItemClass) :
    List ItemClass :=
  itemsA.flatMap (fun anyItem =>
    let thisItemWasFound := counterItems.any fun c => isEqualToString anyItem.itemName c.itemName
    (counterItems.filter fun c => isEqualToString anyItem.itemName c.itemName).map
      (pickItem dates listName anyItem) ++ if thisItemWasFound then [] else [anyItem]) ++
  counterItems.filter fun c => !itemsA.any fun anyItem => isEqualToString c.itemName anyItem.itemName

/-- The new list for a list of both inputs; without counterpart its items are those of nil. -/
def resList (dates : DateAlloc) (addr : Nat) (anyListA : ShopingListsClass)
    (listB : List ShopingListsClass) : ShopingListsClass :=
  let counterPartList := listB.find? fun b => isEqualToString b.listName anyListA.listName
  let counterItems := (counterPartList.map (·.listItems)).getD []
  ⟨addr, anyListA.listName, anyListA.listOwner,
    resultItems dates anyListA.listName anyListA.listItems counterItems⟩

def resLists (dates : DateAlloc) (next : Nat) (listB : List ShopingListsClass) :
    List ShopingListsClass → List ShopingListsClass
  | [] => []
  | anyListA :: listA => resList dates next anyListA listB :: resLists dates (next + 1) listB listA

/-- The result and what is left of the two inputs. -/
structure Result where
  combinedLists : List ShopingListsClass
  listA : List ShopingListsClass
  listB : List ShopingListsClass

/-- `[CompareList compare:listA and:listB]`; new lists take the addresses from `next` on. -/
def compare (dates : DateAlloc) (next : Nat) (listA listB : List ShopingListsClass) : Result :=
  let unique := listA.filter (isUnique · listB) ++ listB.filter (isUnique · listA)
  let (leftA, leftB) := unique.foldl removeOne (listA, listB)
  ⟨unique ++ resLists dates next leftB leftA, leftA, leftB⟩

/-! ## The removal loop -/

theorem mem_removeObject {α : Type} [DecidableEq α] {x y : α} {l : List α} :
    x ∈ removeObject y l ↔ x ∈ l ∧ x ≠ y := by
  simp [removeObject]

theorem filter_removeObject {α : Type} [DecidableEq α] (p : α → Bool) {y : α} (h : p y = false)
    (l : List α) : (removeObject y l).filter p = l.filter p := by
  rw [removeObject, List.filter_filter]
  refine List.filter_congr fun x _ => ?_
  by_cases hx : x = y
  · subst hx
    simp [h]
  · simp [hx]

/-- What a turn removes, and that it adds nothing. -/
theorem mem_removeOne (lists : List ShopingListsClass × List ShopingListsClass)
    (any x : ShopingListsClass) :
    (x ∈ (removeOne lists any).1 ↔ x ∈ lists.1 ∧ x ≠ any) ∧
    (x ∈ (removeOne lists any).2 → x ∈ lists.2) ∧
    (any ∉ lists.1 → any ∉ (removeOne lists any).2) := by
  unfold removeOne
  split
  · rename_i h
    exact ⟨mem_removeObject, id, fun h' => absurd h h'⟩
  · rename_i h
    have hne : x ∈ lists.1 → x ≠ any := fun hx e => h (e ▸ hx)
    split
    · exact ⟨⟨fun hx => ⟨hx, hne hx⟩, And.left⟩, fun hx => (mem_removeObject.1 hx).1,
        fun _ hx => (mem_removeObject.1 hx).2 rfl⟩
    · rename_i h2
      exact ⟨⟨fun hx => ⟨hx, hne hx⟩, And.left⟩, id, fun _ => h2⟩

theorem mem_foldl_removeOne (u : List ShopingListsClass)
    (lists : List ShopingListsClass × List ShopingListsClass) {x : ShopingListsClass} :
    (x ∈ (u.foldl removeOne lists).1 ↔ x ∈ lists.1 ∧ x ∉ u) ∧
    (x ∈ (u.foldl removeOne lists).2 → x ∈ lists.2) ∧
    (x ∈ u → x ∉ lists.1 → x ∉ (u.foldl removeOne lists).2) := by
  induction u generalizing lists with
  | nil => simp
  | cons any u ih =>
    obtain ⟨h1, h2, h3⟩ := mem_removeOne lists any x
    obtain ⟨i1, i2, i3⟩ := ih (removeOne lists any)
    rw [List.foldl_cons]
    refine ⟨?_, fun hx => h2 (i2 hx), fun hu hx => ?_⟩
    · rw [i1, h1, List.mem_cons, not_or, and_assoc]
    · rcases List.mem_cons.1 hu with rfl | hu
      · exact fun hm => h3 hx (i2 hm)
      · exact i3 hu fun hm => hx (h1.1 hm).1

/-- Removing objects that a test refuses leaves the others, in order. -/
theorem filter_foldl_removeOne (pA pB : ShopingListsClass → Bool) (u : List ShopingListsClass)
    (lists : List ShopingListsClass × List ShopingListsClass)
    (hA : ∀ x ∈ u, x ∈ lists.1 → pA x = false) (hB : ∀ x ∈ u, x ∈ lists.2 → pB x = false) :
    (u.foldl removeOne lists).1.filter pA = lists.1.filter pA ∧
    (u.foldl removeOne lists).2.filter pB = lists.2.filter pB := by
  induction u generalizing lists with
  | nil => exact ⟨rfl, rfl⟩
  | cons any u ih =>
    rw [List.foldl_cons]
    obtain ⟨e1, e2⟩ := ih (removeOne lists any)
      (fun x hx hm => hA x (List.mem_cons_of_mem _ hx) ((mem_removeOne lists any x).1.1 hm).1)
      (fun x hx hm => hB x (List.mem_cons_of_mem _ hx) ((mem_removeOne lists any x).2.1 hm))
    rw [e1, e2]
    unfold removeOne
    split
    · rename_i h
      exact ⟨filter_removeObject _ (hA any List.mem_cons_self h) _, rfl⟩
    · split
      · rename_i h
        exact ⟨rfl, filter_removeObject _ (hB any List.mem_cons_self h) _⟩
      · exact ⟨rfl, rfl⟩

theorem isUnique_self {a : ShopingListsClass} {l : List ShopingListsClass} (ha : a ∈ l)
    (h : isUnique a l = true) : a.listName = none := by
  cases hn : a.listName with
  | none => rfl
  | some n =>
    simp only [isUnique, Bool.not_eq_true', List.any_eq_false] at h
    exact absurd (isEqualToString_iff.2 ⟨n, hn, hn⟩) (h a ha)

theorem isUnique_of_none {a : ShopingListsClass} (h : a.listName = none)
    (l : List ShopingListsClass) : isUnique a l = true := by
  simp [isUnique, isEqualToString, h]

/-- What is left of the inputs: the lists with a namesake on the other side. -/
theorem compare_left (dates : DateAlloc) (next : Nat) (listA listB : List ShopingListsClass) :
    (compare dates next listA listB).listA = listA.filter (fun a => !isUnique a listB) ∧
    (compare dates next listA listB).listB = listB.filter (fun b => !isUnique b listA) := by
  simp only [compare]
  rw [List.foldl_append]
  generalize huA : listA.filter (isUnique · listB) = uA
  generalize huB : listB.filter (isUnique · listA) = uB
  have memA : ∀ {x}, x ∈ uA ↔ x ∈ listA ∧ isUnique x listB = true := by
    intro x; rw [← huA, List.mem_filter]
  have memB : ∀ {x}, x ∈ uB ↔ x ∈ listB ∧ isUnique x listA = true := by
    intro x; rw [← huB, List.mem_filter]
  set mid := uA.foldl removeOne (listA, listB) with hmid
  have hmidA : ∀ {x}, x ∈ mid.1 ↔ x ∈ listA ∧ x ∉ uA := (mem_foldl_removeOne uA (listA, listB)).1
  have hmidB : ∀ {x}, x ∈ mid.2 → x ∈ listB := (mem_foldl_removeOne uA (listA, listB)).2.1
  -- a list of the second kind is not among the first input any more
  have hdisj : ∀ x ∈ uB, x ∉ mid.1 := by
    intro x hx hm
    obtain ⟨hxA, hxu⟩ := hmidA.1 hm
    exact hxu (memA.2 ⟨hxA, isUnique_of_none (isUnique_self hxA (memB.1 hx).2) _⟩)
  obtain ⟨f1, f2⟩ := filter_foldl_removeOne (fun a => !isUnique a listB)
    (fun b => !isUnique b listA) uA (listA, listB)
    (fun x hx _ => by simp [(memA.1 hx).2])
    (fun x hx hm => by simp [isUnique_of_none (isUnique_self hm (memA.1 hx).2)])
  obtain ⟨g1, g2⟩ := filter_foldl_removeOne (fun a => !isUnique a listB)
    (fun b => !isUnique b listA) uB mid
    (fun x hx hm => absurd hm (hdisj x hx)) (fun x hx _ => by simp [(memB.1 hx).2])
  constructor
  · rw [← f1, ← hmid, ← g1, eq_comm, List.filter_eq_self]
    intro x hx
    obtain ⟨hx, -⟩ := (mem_foldl_removeOne uB mid).1.1 hx
    obtain ⟨hxA, hxu⟩ := hmidA.1 hx
    by_contra hn
    exact hxu (memA.2 ⟨hxA, by simpa using hn⟩)
  · rw [← f2, ← hmid, ← g2, eq_comm, List.filter_eq_self]
    intro x hx
    by_contra hn
    have hxB := hmidB ((mem_foldl_removeOne uB mid).2.1 hx)
    have hxu : x ∈ uB := memB.2 ⟨hxB, by simpa using hn⟩
    exact (mem_foldl_removeOne uB mid).2.2 hxu (hdisj x hxu) hx

/-! ## The merge as a keyed union of contents -/

/-- The contents picked for a pair of items of one name. -/
def pickData (dates : DateAlloc) (listName : Option String) (a b : ItemData) : ItemData :=
  if isNewer dates listName a.itemName a.itemTime b.itemTime then a else b

def mergeItems (dates : DateAlloc) (listName : Option String) : List ItemData → List ItemData →
    List ItemData :=
  KeyedMerge.mergeBy ItemData.itemName (pickData dates listName)

/-- The contents of the new list for two lists of one name. -/
def combine (dates : DateAlloc) (a b : ListData) : ListData :=
  ⟨a.listName, a.listOwner, mergeItems dates a.listName a.listItems b.listItems⟩

def mergeLists (dates : DateAlloc) : List ListData → List ListData → List ListData :=
  KeyedMerge.unionBy ListData.listName (combine dates)

theorem isEqualToString_eq_sameKey {α : Type} (key : α → Option String) (a b : α) :
    isEqualToString (key a) (key b) = KeyedMerge.sameKey key a b := by
  unfold isEqualToString KeyedMerge.sameKey
  cases key a <;> cases key b <;> rfl

theorem resultItems_eq (dates : DateAlloc) (listName : Option String) (as bs : List ItemClass) :
    resultItems dates listName as bs =
      KeyedMerge.mergeBy ItemClass.itemName (pickItem dates listName) as bs := by
  simp only [resultItems, KeyedMerge.mergeBy, isEqualToString_eq_sameKey ItemClass.itemName]
  congr 1
  refine List.flatMap_congr fun a _ => ?_
  by_cases h : bs.any (KeyedMerge.sameKey ItemClass.itemName a) = true
  · simp [h]
  · have hnil : bs.filter (KeyedMerge.sameKey ItemClass.itemName a) = [] := by
      rw [List.filter_eq_nil_iff]
      intro b hb hs
      exact h (List.any_eq_true.2 ⟨b, hb, hs⟩)
    simp [h, hnil]

theorem encode_resultItems (dates : DateAlloc) (listName : Option String)
    (as bs : List ItemClass) :
    (resultItems dates listName as bs).map (·.encodeWithCoder) =
      mergeItems dates listName (as.map (·.encodeWithCoder)) (bs.map (·.encodeWithCoder)) := by
  rw [resultItems_eq]
  refine KeyedMerge.map_mergeBy (fun _ => rfl) fun a b _ => ?_
  rw [pickItem, pickData, apply_ite ItemClass.encodeWithCoder]
  rfl

theorem encode_resLists (dates : DateAlloc) (next : Nat) (listB as : List ShopingListsClass)
    (h : ∀ a ∈ as, ∃ b ∈ listB, isEqualToString b.listName a.listName = true) :
    (resLists dates next listB as).map (·.encodeWithCoder) = as.map fun a =>
      ((listB.find? fun b => isEqualToString b.listName a.listName).elim a.encodeWithCoder
        fun b => combine dates a.encodeWithCoder b.encodeWithCoder) := by
  induction as generalizing next with
  | nil => rfl
  | cons a as ih =>
    rw [resLists, List.map_cons, List.map_cons, ih _ fun x hx => h x (List.mem_cons_of_mem _ hx)]
    congr 1
    cases hf : listB.find? fun b => isEqualToString b.listName a.listName with
    | none =>
      obtain ⟨b, hb, hs⟩ := h a List.mem_cons_self
      exact absurd hs (List.find?_eq_none.1 hf b hb)
    | some b =>
      simp only [resList, hf, ShopingListsClass.encodeWithCoder, Option.map_some, Option.getD_some,
        encode_resultItems, Option.elim_some, combine]

/-- What the first phase removes from the second input has no counterpart in the first one. -/
theorem counterPart_left {listA : List ShopingListsClass} (listB : List ShopingListsClass)
    {a : ShopingListsClass} (ha : a ∈ listA) :
    (listB.filter fun b => !isUnique b listA).find? (fun b => isEqualToString b.listName a.listName) =
      listB.find? fun b => isEqualToString b.listName a.listName := by
  rw [List.find?_filter]
  congr 1
  funext b
  rw [Bool.eq_iff_iff, decide_eq_true_iff]
  refine ⟨And.right, fun h => ⟨?_, h⟩⟩
  simp only [isUnique, Bool.not_not, List.any_eq_true]
  exact ⟨a, ha, h⟩

/-- The result: the lists that are in one input only, then the new ones. -/
theorem combinedLists_eq (dates : DateAlloc) (next : Nat) (listA listB : List ShopingListsClass) :
    (compare dates next listA listB).combinedLists =
      (listA.filter (isUnique · listB) ++ listB.filter (isUnique · listA)) ++
        resLists dates next (listB.filter fun b => !isUnique b listA)
          (listA.filter fun a => !isUnique a listB) := by
  obtain ⟨hA, hB⟩ := compare_left dates next listA listB
  rw [← hA, ← hB]
  rfl

/-- **The loops compute the keyed union.** -/
theorem compare_encode (dates : DateAlloc) (next : Nat) (listA listB : List ShopingListsClass) :
    (compare dates next listA listB).combinedLists.map (·.encodeWithCoder) =
      mergeLists dates (listA.map (·.encodeWithCoder)) (listB.map (·.encodeWithCoder)) := by
  have hkey : ∀ l : ShopingListsClass, l.encodeWithCoder.listName = l.listName := fun _ => rfl
  rw [combinedLists_eq, mergeLists, KeyedMerge.unionBy, List.map_append, List.map_append,
    encode_resLists]
  · have hfind : ∀ a ∈ listA, _ := fun a ha => counterPart_left listB ha
    simp only [List.filter_map, List.map_map, Function.comp_def,
      KeyedMerge.any_sameKey_map hkey, List.find?_map, KeyedMerge.sameKey_map hkey]
    simp only [isUnique, Bool.not_not, isEqualToString_eq_sameKey ShopingListsClass.listName]
      at hfind ⊢
    congr 1
    refine List.map_congr_left fun a ha => ?_
    rw [hfind a (List.mem_filter.1 ha).1]
    cases listB.find? (fun b => KeyedMerge.sameKey ShopingListsClass.listName b a) <;> rfl
  · intro a ha
    rw [List.mem_filter] at ha
    simp only [isUnique, Bool.not_not, List.any_eq_true] at ha
    obtain ⟨haA, b, hb, hs⟩ := ha
    obtain ⟨n, hn, hm⟩ := isEqualToString_iff.1 hs
    refine ⟨b, List.mem_filter.2 ⟨hb, ?_⟩, isEqualToString_iff.2 ⟨n, hm, hn⟩⟩
    simp only [isUnique, Bool.not_not, List.any_eq_true]
    exact ⟨a, haA, isEqualToString_iff.2 ⟨n, hm, hn⟩⟩

end CompareList

end ShopingList
