import ShopingList.App.Schema

/-!
# Writes of single items

`SaveItemToCloud` writes the name of an item under another key than `SaveListOnCloud`, so the two saves of a
list with a new item agree only where neither writes (`savesLikeList_iff`). It writes below the node of the
list's owner, and `DeleteItemFromCloud` removes below that of the current user (`undoes_iff`).
-/

namespace ShopingList

open FNode FValidation

/-! ## Saves of an item and of its list -/

/-- The item is added to the items, or takes the place of the one of its name. -/
inductive Updates (i : ItemClass) : List ItemClass → List ItemClass → Prop
  | added {before after : List ItemClass} (h : ∀ j ∈ before ++ after, j.itemName ≠ i.itemName) :
    Updates i (before ++ after) (before ++ i :: after)
  | changed {before after : List ItemClass} {j : ItemClass} (h : j.itemName = i.itemName) :
    Updates i (before ++ j :: after) (before ++ i :: after)

/-- A list that `SaveListOnCloud.save` has stored for its owner, with one item of every name. -/
structure SavedOwn (curUser : UserClass) (l : ShopingListsClass) (db : FNode) : Prop where
  saved : ∃ u db₀, SaveListOnCloud.save (some u) curUser l db₀ = .ok db
  owner : l.listOwner.uidText = curUser.uidText
  items : (l.listItems.map (·.itemName)).Nodup

/-- The save of the item and that of the list `l` it is in leave one tree below `Data`, of which
one list is read. -/
def SavesLikeList (currentUser : Option FIRUser) (curUser : UserClass) (i : ItemClass) (l : ShopingListsClass)
    (db : FNode) : Prop :=
  ∃ byItem byList, SaveItemToCloud.saveItemToCloudWithItem currentUser i l db = .ok byItem ∧
    SaveListOnCloud.save currentUser curUser l db = .ok byList ∧
    getChild dataNode byItem = getChild dataNode byList ∧
    ∀ order ref, listRef curUser.uidText l.listName = .ok ref →
      ReadDataFromCloud.readList order (getChild ref byItem) = ReadDataFromCloud.readList order (getChild ref byList)

theorem Updates.mem {i : ItemClass} {is is' : List ItemClass} (h : Updates i is is') : i ∈ is' := by
  cases h <;> simp

theorem itemDic_some (a : Nat) (n : String) (t : Option String) (p : Bool) :
    SaveItemToCloud.itemDic ⟨a, some n, t, p⟩ = .children ([("Item name", .leaf n),
      ("purchased", .leaf (SaveListOnCloud.purchasedString p))] ++ (t.map fun t => ("time", FNode.leaf t)).toList) := by
  cases t <;>
    simp [SaveItemToCloud.itemDic, dictionary, objectsAndKeys, SortedDict.ofList, SortedDict.set,
      -String.lt_iff_ltb]

/-- `SaveItemToCloud` stores the name where no reader looks for it. -/
theorem leafAt_itemDic {i : ItemClass} {n : String} (h : i.itemName = some n) :
    leafAt ["item Name"] (SaveItemToCloud.itemDic i) = none ∧
    leafAt ["Item name"] (SaveItemToCloud.itemDic i) = some n ∧
    leafAt ["purchased"] (SaveItemToCloud.itemDic i) = some (SaveListOnCloud.purchasedString i.itemPuchased) := by
  obtain ⟨a, _, t, p⟩ := i
  cases h
  rw [itemDic_some]
  cases t <;> simp [leafAt, getChild, getImmediateChild, SortedDict.get, leafValue, emptyNode]

/-- `SaveListOnCloud` stores the name of every item. -/
theorem leafAt_listNode_item {l : ListData} {i : ItemData} {n : String} (hi : i ∈ l.listItems)
    (hn : i.itemName = some n) : leafAt ["listItems", n, "item Name"] (listNode l) = some n := by
  have hentry : (n, itemNode i) ∈ entriesBy ItemData.itemName itemNode l.listItems := mem_entriesBy.2 ⟨i, hi, hn, rfl⟩
  obtain ⟨v, hv⟩ := SortedDict.key_mem_ofList hentry
  obtain ⟨j, -, hj, rfl⟩ := mem_itemsNode hv
  have hchild : getImmediateChild n (itemsNode l.listItems) = itemNode j :=
    (normal_itemsNode l.listItems).getImmediateChild hv
  rw [leafAt, getChild, getImmediateChild_listItems, getChild, hchild]
  exact (leafAt_itemNode hj).1

/-- Signed in, the two saves leave different trees. -/
theorem not_savesLikeList {u : FIRUser} {curUser : UserClass} {i : ItemClass} {l : ShopingListsClass} {db : FNode}
    (hown : l.listOwner.uidText = curUser.uidText) (hi : i ∈ l.listItems) :
    ¬ SavesLikeList (some u) curUser i l db := by
  rintro ⟨byItem, byList, hitem, hlist, htree, -⟩
  obtain ⟨ref, path, href, hpath, rfl⟩ := saveItem_ok_iff.1 hitem
  obtain ⟨hkeys, -, ref', href', rfl⟩ := save_ok_iff.1 hlist
  rw [← hown, href] at href'
  cases href'
  obtain ⟨n, hn, hkey⟩ := hkeys i hi
  rw [hn, itemRef_of_key ref hkey] at hpath
  cases hpath
  obtain ⟨r, rfl⟩ := exists_below_dataNode href
  have hname : leafAt (dataNode ++ (r ++ ["listItems", n, "item Name"]))
      (updateChild (listNode l.encodeWithCoder) (dataNode ++ r) db) = some n := by
    rw [← List.append_assoc, leafAt_updateChild_below]
    exact leafAt_listNode_item (List.mem_map_of_mem hi) hn
  have hnone : leafAt (dataNode ++ (r ++ ["listItems", n, "item Name"]))
      (updateChild (SaveItemToCloud.itemDic i) (dataNode ++ r ++ ["listItems", n]) db) = none := by
    have hp : dataNode ++ (r ++ ["listItems", n, "item Name"]) =
        dataNode ++ r ++ ["listItems", n] ++ ["item Name"] := by simp
    rw [hp, leafAt_updateChild_below]
    exact (leafAt_itemDic hn).1
  rw [leafAt_append, ← htree, ← leafAt_append, hnone] at hname
  cases hname

/-- **The save of an item leaves what the save of its list leaves** if and only if nobody is signed in. -/
theorem savesLikeList_iff {currentUser : Option FIRUser} {curUser : UserClass} {i : ItemClass}
    {l : ShopingListsClass} {is : List ItemClass} {db : FNode} (hl : SavedOwn curUser l db)
    (hu : Updates i l.listItems is) :
    SavesLikeList currentUser curUser i { l with listItems := is } db ↔ currentUser = none := by
  cases currentUser with
  | none =>
    refine iff_of_true ⟨db, db, rfl, rfl, rfl, fun order ref _ => rfl⟩ rfl
  | some u => exact iff_of_false (not_savesLikeList hl.owner hu.mem) (by simp)

/-- The list `Food` after its first save. -/
def foodTree : FNode := updateChild (listNode foodList.encodeWithCoder) ["Data", "u1", "Food"] emptyNode

def bread : ItemClass := ⟨4, some "Bread", some "01-02-2020 12:00", true⟩

theorem savedOwn_food : SavedOwn ann foodList foodTree :=
  ⟨⟨annUser, emptyNode, rfl⟩, rfl, by decide⟩

theorem updates_bread : Updates bread foodList.listItems (foodList.listItems ++ [bread]) := by
  have hnew : ∀ j ∈ foodList.listItems ++ [], j.itemName ≠ bread.itemName := by decide
  have h := Updates.added hnew
  exact h

theorem savesLikeList_iff_bread : SavesLikeList (some annUser) ann bread
    { foodList with listItems := foodList.listItems ++ [bread] } foodTree ↔ some annUser = none :=
  savesLikeList_iff savedOwn_food updates_bread

theorem not_savesLikeList_all : ¬ ∀ (u : FIRUser) (curUser : UserClass) (i : ItemClass) (l : ShopingListsClass)
    (is : List ItemClass) (db : FNode), SavedOwn curUser l db → LegalKey i.itemName → Updates i l.listItems is →
      SavesLikeList (some u) curUser i { l with listItems := is } db := fun h =>
  not_savesLikeList rfl (updates_bread.mem) (h annUser ann bread foodList _ foodTree savedOwn_food (by decide)
    updates_bread)

/-! ## A save of an item and its deletion -/

/-- The place of an item in a list of the user `uid`. -/
def itemPath (uid listName : Option String) (itemName : String) : List String :=
  dataNode ++ FPath.pieces (uid.getD "") ++ FPath.pieces (listName.getD "") ++ ["listItems", itemName]

/-- The deletion of an item takes back its save, and whatever the tree is, it changes no text at a place
other than the item's. -/
def Undoes (currentUser : Option FIRUser) (curUser : UserClass) (l : ShopingListsClass) (i : ItemClass)
    (itemName : String) (db : FNode) : Prop :=
  (SaveItemToCloud.saveItemToCloudWithItem currentUser i l db >>=
    DeleteItemFromCloud.deleteItem currentUser curUser i l) = .ok db ∧
  ∀ db₁ db₂, DeleteItemFromCloud.deleteItem currentUser curUser i l db₁ = .ok db₂ →
    ∀ q, ¬ itemPath l.listOwner.uidText l.listName itemName <+: q → leafAt q db₂ = leafAt q db₁

/-- The two users have one node, the list has a place there, and no text is stored above the item's. -/
def OneNode (curUser : UserClass) (l : ShopingListsClass) (itemName : String) (db : FNode) : Prop :=
  isValidPathString l.listOwner.uidText = true ∧ isValidPathString curUser.uidText = true ∧
    isValidPathString l.listName = true ∧
    FPath.pieces (l.listOwner.uidText.getD "") = FPath.pieces (curUser.uidText.getD "") ∧
    ∀ k < (itemPath l.listOwner.uidText l.listName itemName).length,
      leafAt ((itemPath l.listOwner.uidText l.listName itemName).take k) db = none

instance (curUser : UserClass) (l : ShopingListsClass) (itemName : String) (db : FNode) :
    Decidable (OneNode curUser l itemName db) :=
  inferInstanceAs (Decidable (_ ∧ _ ∧ _ ∧ _ ∧ _))

theorem child_ok_iff {path p : List String} {s : Option String} :
    child path s = .ok p ↔ isValidPathString s = true ∧ p = path ++ FPath.pieces (s.getD "") := by
  constructor
  · intro h
    obtain ⟨n, rfl, rfl⟩ := child_ok h
    exact ⟨isValidPathString_of_child h, rfl⟩
  · rintro ⟨hv, rfl⟩
    cases s with
    | none => cases hv
    | some n => rw [child, if_pos hv, Option.getD_some]

section
variable {u : FIRUser} {curUser : UserClass} {l : ShopingListsClass} {i : ItemClass} {n : String} {db db' : FNode}

/-- A write at the place of an item. -/
theorem itemWrite_iff {uid listName : Option String} {write : List String → FNode} (hkey : isValidKey n = true) :
    (∃ ref path, listRef uid listName = .ok ref ∧ itemRef ref (some n) = .ok path ∧ db' = write path) ↔
      isValidPathString uid = true ∧ isValidPathString listName = true ∧ db' = write (itemPath uid listName n) := by
  simp only [listRef, Raising.bind_ok_iff, child_ok_iff, itemRef_of_key _ hkey]
  constructor
  · rintro ⟨ref, path, ⟨base, ⟨hu, rfl⟩, hl, rfl⟩, h, rfl⟩
    cases h
    exact ⟨hu, hl, rfl⟩
  · rintro ⟨hu, hl, rfl⟩
    exact ⟨_, _, ⟨_, ⟨hu, rfl⟩, hl, rfl⟩, rfl, rfl⟩

theorem saveItem_iff (hn : i.itemName = some n) (hkey : isValidKey n = true) :
    SaveItemToCloud.saveItemToCloudWithItem (some u) i l db = .ok db' ↔
      isValidPathString l.listOwner.uidText = true ∧ isValidPathString l.listName = true ∧
        db' = updateChild (SaveItemToCloud.itemDic i) (itemPath l.listOwner.uidText l.listName n) db := by
  rw [saveItem_ok_iff, hn]
  exact itemWrite_iff hkey

theorem deleteItem_iff (hn : i.itemName = some n) (hkey : isValidKey n = true) :
    DeleteItemFromCloud.deleteItem (some u) curUser i l db = .ok db' ↔
      isValidPathString curUser.uidText = true ∧ isValidPathString l.listName = true ∧
        db' = removeValue (itemPath curUser.uidText l.listName n) db := by
  rw [deleteItem_ok_iff, hn]
  exact itemWrite_iff hkey

/-- A removal at another place than the item's leaves the item, or takes texts besides it. -/
theorem eq_of_undoes {p p' : List String} (hn : i.itemName = some n)
    (hempty : getChild p db = emptyNode)
    (hback : removeValue p' (updateChild (SaveItemToCloud.itemDic i) p db) = db)
    (hframe : ∀ db₁ q, ¬ p <+: q → leafAt q (removeValue p' db₁) = leafAt q db₁) : p = p' := by
  obtain ⟨-, hname, hpurchased⟩ := leafAt_itemDic hn
  -- the removal is at or below the item: a text at `p'` would go
  have hbelow : p <+: p' := by
    by_contra hno
    have hgone := hframe (updateChild (.leaf "") p' emptyNode) p' hno
    rw [leafAt_removeValue, if_pos (List.prefix_refl p')] at hgone
    have hleaf := leafAt_updateChild_below (.leaf "") p' [] emptyNode
    rw [List.append_nil, ← hgone] at hleaf
    cases hleaf
  -- and not below it, where only one of its texts would go
  have hthere : ∀ k v, leafAt [k] (SaveItemToCloud.itemDic i) = some v → p' <+: p ++ [k] := by
    intro k v hv
    by_contra hno
    have hstays : leafAt (p ++ [k]) db = some v := by
      rw [← hback, leafAt_removeValue, if_neg hno, leafAt_updateChild_below]
      exact hv
    rw [leafAt_append, hempty, leafAt_emptyNode] at hstays
    cases hstays
  obtain ⟨r, rfl⟩ := hbelow
  have h1 := (List.prefix_append_right_inj p).1 (hthere _ _ hname)
  have h2 := (List.prefix_append_right_inj p).1 (hthere _ _ hpurchased)
  cases r with
  | nil => exact (List.append_nil p).symm
  | cons k r =>
    have e1 := (List.cons_prefix_cons.1 h1).1
    have e2 := (List.cons_prefix_cons.1 h2).1
    rw [e1] at e2
    exact absurd e2 (by decide)

/-- A save through a text replaces it. -/
theorem above_of_undoes {p : List String} {new : FNode} (hne : new.isEmpty = false)
    (hback : removeValue p (updateChild new p db) = db) : ∀ k < p.length, leafAt (p.take k) db = none := by
  intro k hk
  have hp : p.take k ++ p.drop k = p := List.take_append_drop k p
  have hnot : ¬ p <+: p.take k := fun h => by
    have hlen := h.length_le
    rw [List.length_take] at hlen
    omega
  rw [← hback, leafAt_removeValue, if_neg hnot, leafAt, ← hp, List.take_left' (by simp; omega), getChild_updateChild]
  cases hdrop : p.drop k with
  | nil =>
    rw [List.drop_eq_nil_iff] at hdrop
    omega
  | cons j r =>
    rw [leafValue_updateChild_cons, hne]
    rfl

theorem itemPath_inj {uid uid' listName : Option String}
    (h : itemPath uid listName n = itemPath uid' listName n) :
    FPath.pieces (uid.getD "") = FPath.pieces (uid'.getD "") := by
  unfold itemPath at h
  exact List.append_cancel_left (List.append_cancel_right (List.append_cancel_right h))

/-- **A deletion takes back the save of a new item**, and nothing else, if and only if the owner of the list
and the current user have one node, the list has a place in it, and the save replaces no text. -/
theorem undoes_iff (hn : i.itemName = some n) (hkey : isValidKey n = true) (hdb : Normal db)
    (hnew : getChild (itemPath l.listOwner.uidText l.listName n) db = emptyNode) :
    Undoes (some u) curUser l i n db ↔ OneNode curUser l n db := by
  have hdic : (SaveItemToCloud.itemDic i).isEmpty = false := by
    by_contra he
    rw [Bool.not_eq_false] at he
    have hname := (leafAt_itemDic hn).2.1
    rw [eq_emptyNode he, leafAt_emptyNode] at hname
    cases hname
  constructor
  · rintro ⟨hback, hframe⟩
    obtain ⟨db', hsave, hdelete⟩ := Raising.bind_ok_iff.1 hback
    obtain ⟨howner, hlist, rfl⟩ := (saveItem_iff hn hkey).1 hsave
    obtain ⟨hcur, -, hdb'⟩ := (deleteItem_iff hn hkey).1 hdelete
    have heq := eq_of_undoes hn hnew hdb'.symm fun db₁ q hq =>
      hframe db₁ _ ((deleteItem_iff hn hkey).2 ⟨hcur, hlist, rfl⟩) q hq
    rw [← heq] at hdb'
    exact ⟨howner, hcur, hlist, itemPath_inj heq, above_of_undoes hdic hdb'.symm⟩
  · rintro ⟨howner, hcur, hlist, hpieces, habove⟩
    have heq : itemPath curUser.uidText l.listName n = itemPath l.listOwner.uidText l.listName n := by
      rw [itemPath, itemPath, hpieces]
    constructor
    · refine Raising.bind_ok_iff.2 ⟨_, (saveItem_iff hn hkey).2 ⟨howner, hlist, rfl⟩, ?_⟩
      refine (deleteItem_iff hn hkey).2 ⟨hcur, hlist, ?_⟩
      rw [heq]
      exact (removeValue_updateChild hdb (normal_dictionary _) hnew habove).symm
    · intro db₁ db₂ hdelete q hq
      obtain ⟨-, -, rfl⟩ := (deleteItem_iff hn hkey).1 hdelete
      rw [heq, leafAt_removeValue, if_neg hq]

end

/-! ## A list of another user -/

/-- A list of Bob's that Ann has from an invitation. -/
def bobFood : ShopingListsClass := ⟨7, some "Food", ⟨some "Bob", some "bob@mail", some ⟨8, "u2"⟩⟩, []⟩

theorem undoes_iff_bread : Undoes (some annUser) ann foodList bread "Bread" foodTree ↔
    OneNode ann foodList "Bread" foodTree :=
  undoes_iff rfl (by decide) (normal_emptyNode.updateChild (normal_listNode _) _) rfl

theorem not_undoes : ¬ ∀ (u : FIRUser) (curUser : UserClass) (l : ShopingListsClass) (i : ItemClass) (n : String)
    (db : FNode), i.itemName = some n → isValidKey n = true → Normal db →
      getChild (itemPath l.listOwner.uidText l.listName n) db = emptyNode → Undoes (some u) curUser l i n db := by
  intro h
  have hbread := h annUser ann bobFood bread "Bread" emptyNode rfl (by decide) normal_emptyNode rfl
  have hnode := (undoes_iff rfl (by decide) normal_emptyNode rfl).1 hbread
  revert hnode
  decide

end ShopingList
