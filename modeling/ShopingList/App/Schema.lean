import ShopingList.Lib.Run
import ShopingList.Classes.CloudCodec

/-!
# The shape of the tree under `Data`

Any number of clients call the four writers in any order; a call that raises has
written nothing. `CloudSchema` is what the readers expect of the tree:
a list is stored under its name, an item under its name and with the keys that
`ReadDataFromCloud` and `FetchInvitationnData` ask for. `cloudSchema_run` says
which calls keep it.
-/

namespace ShopingList

open FNode FValidation

/-- A name that is a key of the database. -/
def LegalKey (name : Option String) : Prop := ∃ n, name = some n ∧ isValidKey n = true

instance (name : Option String) : Decidable (LegalKey name) :=
  decidable_of_iff (∃ n ∈ name, isValidKey n = true) Iff.rfl

/-- A call of a writer by some client. -/
inductive Call where
  | save (currentUser : Option FIRUser) (curUser : UserClass) (inpList : ShopingListsClass)
  | saveItem (currentUser : Option FIRUser) (inpItem : ItemClass) (inpList : ShopingListsClass)
  | deleteItem (currentUser : Option FIRUser) (curUser : UserClass) (inpItem : ItemClass)
      (inpList : ShopingListsClass)
  | deleteList (currentUser : Option FIRUser) (inpList : ShopingListsClass)

namespace Call

def perform : Call → FNode → Except NSException FNode
  | save currentUser curUser inpList, db => SaveListOnCloud.save currentUser curUser inpList db
  | saveItem currentUser inpItem inpList, db =>
    SaveItemToCloud.saveItemToCloudWithItem currentUser inpItem inpList db
  | deleteItem currentUser curUser inpItem inpList, db =>
    DeleteItemFromCloud.deleteItem currentUser curUser inpItem inpList db
  | deleteList currentUser inpList, db => DeleteListFromCloud.deleteFromCloud currentUser inpList db

def step (c : Call) (db : FNode) : FNode :=
  match c.perform db with
  | .ok db' => db'
  | .error _ => db

/-- All names of the call are keys. -/
def Legal : Call → Prop
  | save _ curUser inpList => LegalKey curUser.uidText ∧ LegalKey inpList.listName ∧
      ∀ i ∈ inpList.listItems, LegalKey i.itemName
  | saveItem _ inpItem inpList => LegalKey inpList.listOwner.uidText ∧ LegalKey inpList.listName ∧
      LegalKey inpItem.itemName
  | deleteItem _ curUser inpItem inpList => LegalKey curUser.uidText ∧ LegalKey inpList.listName ∧
      LegalKey inpItem.itemName
  | deleteList _ inpList => LegalKey inpList.listOwner.uidText ∧ LegalKey inpList.listName

/-- No item is saved by `SaveItemToCloud`, and saved lists have items with a time. -/
def Keeps : Call → Prop
  | save currentUser _ inpList =>
    currentUser = none ∨ ∀ i ∈ inpList.listItems, i.itemTime.isSome = true
  | saveItem currentUser _ _ => currentUser = none
  | deleteItem .. => True
  | deleteList .. => True

instance : ∀ c : Call, Decidable c.Legal
  | save _ _ _ => inferInstanceAs (Decidable (_ ∧ _ ∧ _))
  | saveItem _ _ _ => inferInstanceAs (Decidable (_ ∧ _ ∧ _))
  | deleteItem _ _ _ _ => inferInstanceAs (Decidable (_ ∧ _ ∧ _))
  | deleteList _ _ => inferInstanceAs (Decidable (_ ∧ _))

instance : ∀ c : Call, Decidable c.Keeps
  | save _ _ _ => inferInstanceAs (Decidable (_ ∨ _))
  | saveItem _ _ _ => inferInstanceAs (Decidable (_ = _))
  | deleteItem _ _ _ _ => inferInstanceAs (Decidable True)
  | deleteList _ _ => inferInstanceAs (Decidable True)

end Call

/-- What the readers ask of the node of the item `i`. -/
structure ItemSchema (i : String) (n : FNode) : Prop where
  itemName : leafAt ["item Name"] n = some i
  purchased : leafAt ["purchased"] n = some "True" ∨ leafAt ["purchased"] n = some "False"
  time : (leafAt ["time"] n).isSome = true

/-- What the readers ask of the node of the list `k`. -/
structure ListSchema (k : String) (n : FNode) : Prop where
  listName : leafAt ["listName"] n = some k
  items : ∀ i, (getChild ["listItems", i] n).isEmpty = false → ItemSchema i (getChild ["listItems", i] n)

/-- Every list of every user, and every item of it, that exists is as the readers expect. -/
def CloudSchema (db : FNode) : Prop :=
  ∀ u k, (getChild ["Data", u, k] db).isEmpty = false → ListSchema k (getChild ["Data", u, k] db)

theorem cloudSchema_emptyNode : CloudSchema emptyNode := by
  intro u k h
  rw [getChild_emptyNode] at h
  cases h

/-! ## What a write does to a list -/

/-- A write at or below a list changes that list and no other. -/
theorem getChild_list (u k u' k' : String) (r : List String) (new db : FNode) :
    getChild ["Data", u, k] (updateChild new ("Data" :: u' :: k' :: r) db) =
      if u = u' ∧ k = k' then updateChild new r (getChild ["Data", u, k] db)
      else getChild ["Data", u, k] db := by
  split
  · rename_i h
    obtain ⟨rfl, rfl⟩ := h
    exact getChild_updateChild new ["Data", u, k] r db
  · rename_i h
    refine getChild_updateChild_of_ne (fun hp => h ?_) (fun hp => h ?_) db
    · simp only [List.cons_prefix_cons] at hp
      exact ⟨hp.2.1.symm, hp.2.2.1.symm⟩
    · simp only [List.cons_prefix_cons] at hp
      exact ⟨hp.2.1, hp.2.2.1⟩

theorem listRef_of_keys {uid listName : Option String} {ref : List String} (hu : LegalKey uid)
    (hl : LegalKey listName) (h : listRef uid listName = .ok ref) :
    ∃ u k, uid = some u ∧ listName = some k ∧ ref = ["Data", u, k] := by
  obtain ⟨u, rfl, hu⟩ := hu
  obtain ⟨k, rfl, hk⟩ := hl
  obtain ⟨base, hb, h⟩ := Raising.bind_ok_iff.1 h
  rw [dataNode, child_of_isValidKey hu] at hb
  cases hb
  rw [child_of_isValidKey hk] at h
  cases h
  exact ⟨u, k, rfl, rfl, rfl⟩

theorem itemSchema_itemNode {i : ItemData} {n : String} (hn : i.itemName = some n)
    (ht : i.itemTime.isSome = true) : ItemSchema n (itemNode i) := by
  obtain ⟨h1, h2, h3⟩ := leafAt_itemNode hn
  refine ⟨h1, ?_, by rw [h3]; exact ht⟩
  rw [h2]
  cases i.itemPuchased
  · exact .inr rfl
  · exact .inl rfl

/-- A saved list whose items have times is as expected. -/
theorem listSchema_listNode {l : ListData} {k : String} (hn : l.listName = some k)
    (ht : ∀ i ∈ l.listItems, i.itemTime.isSome = true) : ListSchema k (listNode l) := by
  refine ⟨leafAt_listName hn, fun i hi => ?_⟩
  rw [getChild, getImmediateChild_listItems, getChild] at hi ⊢
  obtain ⟨j, hj, hjn, he⟩ := getImmediateChild_itemsNode hi
  rw [getChild, he]
  exact itemSchema_itemNode hjn (ht j hj)

/-- The removal of an item leaves the list as expected. -/
theorem listSchema_removeItem {n : FNode} {k i : String} (h : n.isEmpty = false → ListSchema k n)
    (he : (removeValue ["listItems", i] n).isEmpty = false) :
    ListSchema k (removeValue ["listItems", i] n) := by
  have hn : n.isEmpty = false := by
    by_contra hn
    rw [Bool.not_eq_false] at hn
    rw [eq_emptyNode hn, removeValue, updateChild_emptyNode] at he
    cases he
  obtain ⟨hname, hitems⟩ := h hn
  refine ⟨?_, fun j hj => ?_⟩
  · rw [leafAt_removeValue, if_neg (by simp), hname]
  · by_cases hij : j = i
    · subst hij
      rw [removeValue, getChild_updateChild_self] at hj
      cases hj
    · have hkeep : getChild ["listItems", j] (removeValue ["listItems", i] n) =
          getChild ["listItems", j] n :=
        getChild_updateChild_of_ne (by simp [Ne.symm hij]) (by simp [hij]) n
      rw [hkeep] at hj ⊢
      exact hitems j hj

/-! ## Runs -/

/-- A write to one list keeps the schema if the list stays as expected. -/
theorem cloudSchema_updateChild {db new : FNode} {u k : String} {r : List String}
    (hdb : CloudSchema db)
    (h : (updateChild new r (getChild ["Data", u, k] db)).isEmpty = false →
      ListSchema k (updateChild new r (getChild ["Data", u, k] db))) :
    CloudSchema (updateChild new ("Data" :: u :: k :: r) db) := by
  intro u' k' he
  rw [getChild_list] at he ⊢
  split at he
  · rename_i heq
    obtain ⟨rfl, rfl⟩ := heq
    rw [if_pos ⟨rfl, rfl⟩]
    exact h he
  · rename_i hne
    rw [if_neg hne]
    exact hdb u' k' he

theorem cloudSchema_perform {c : Call} {db db' : FNode} (hl : c.Legal) (hk : c.Keeps)
    (hdb : CloudSchema db) (h : c.perform db = .ok db') : CloudSchema db' := by
  cases c with
  | save cu curUser l =>
    obtain ⟨hu, hn, -⟩ := hl
    cases cu with
    | none => cases h; exact hdb
    | some cu =>
      obtain ⟨-, -, ref, href, rfl⟩ := save_ok_iff.1 h
      obtain ⟨u, k, -, hk', rfl⟩ := listRef_of_keys hu hn href
      have ht := hk.resolve_left (by simp)
      refine cloudSchema_updateChild hdb fun _ => ?_
      rw [updateChild_nil]
      exact listSchema_listNode hk' (List.forall_mem_map.2 ht)
  | saveItem cu i l =>
    cases hk
    cases h
    exact hdb
  | deleteItem cu curUser i l =>
    obtain ⟨hu, hn, hi⟩ := hl
    cases cu with
    | none => cases h; exact hdb
    | some cu =>
      obtain ⟨ref, path, href, hpath, rfl⟩ := deleteItem_ok_iff.1 h
      obtain ⟨u, k, -, -, rfl⟩ := listRef_of_keys hu hn href
      obtain ⟨i', hi', hkey⟩ := hi
      rw [hi', itemRef_of_key _ hkey] at hpath
      cases hpath
      exact cloudSchema_updateChild hdb (listSchema_removeItem (hdb u k))
  | deleteList cu l =>
    obtain ⟨hu, hn⟩ := hl
    cases cu with
    | none => cases h; exact hdb
    | some cu =>
      obtain ⟨ref, href, rfl⟩ := deleteList_ok_iff.1 h
      obtain ⟨u, k, -, -, rfl⟩ := listRef_of_keys hu hn href
      refine cloudSchema_updateChild hdb fun he => ?_
      rw [updateChild_nil] at he
      cases he

theorem cloudSchema_step {c : Call} {db : FNode} (hl : c.Legal) (hk : c.Keeps)
    (hdb : CloudSchema db) : CloudSchema (c.step db) := by
  unfold Call.step
  split
  · rename_i h
    exact cloudSchema_perform hl hk hdb h
  · exact hdb

/-- **The schema is kept** by every run of the writers, by any clients, in which no
signed-in client saves a single item and saved items have a time. -/
theorem cloudSchema_run {calls : List Call} {db : FNode} (hdb : CloudSchema db)
    (hl : ∀ c ∈ calls, c.Legal) (hk : ∀ c ∈ calls, c.Keeps) :
    CloudSchema (Run.run Call.step calls db) := by
  induction calls generalizing db with
  | nil => exact hdb
  | cons c calls ih =>
    exact ih (cloudSchema_step (hl c List.mem_cons_self) (hk c List.mem_cons_self) hdb)
      (fun c' h => hl c' (List.mem_cons_of_mem _ h)) (fun c' h => hk c' (List.mem_cons_of_mem _ h))

/-- A client of the user `u1`. -/
def annUser : FIRUser := ⟨"u1", some "ann@mail", some "Ann"⟩

def ann : UserClass := ⟨some "Ann", some "ann@mail", some ⟨1, "u1"⟩⟩

def foodList : ShopingListsClass := ⟨2, some "Food", ann, [⟨3, some "Milk", some "01-02-2020 10:02", false⟩]⟩

theorem cloudSchema_run_foodList : CloudSchema (Run.run Call.step
    [.save (some annUser) ann foodList,
      .deleteItem (some annUser) ann ⟨3, some "Milk", some "01-02-2020 10:02", false⟩ foodList,
      .deleteList (some annUser) foodList] emptyNode) :=
  cloudSchema_run cloudSchema_emptyNode (by decide) (by decide)

/-- A saved item is not stored as the readers expect: its name is under `Item name`. -/
theorem not_cloudSchema_saveItem : ¬ ∀ (calls : List Call), (∀ c ∈ calls, c.Legal) →
    CloudSchema (Run.run Call.step calls emptyNode) := by
  intro h
  have hs := h [.save (some annUser) ann foodList,
      .saveItem (some annUser) ⟨3, some "Milk", some "01-02-2020 10:02", true⟩ foodList]
    (by decide) "u1" "Food" (by decide)
  have := (hs.items "Milk" (by decide)).itemName
  revert this
  decide

end ShopingList
