import ShopingList.Classes.CloudCodec

/-!
# Reading saved lists back

`getChild_saveAll` says what a user's node holds after a loop of saves,
`readLists_cloudNode` what the callback of `ReadDataFromCloud.read` makes of
such a node, and `callback_saveAll` puts the two together.
-/

namespace ShopingList

open FNode FValidation KeyedMerge

/-! ## Items, owners, lists -/

/-- What is read of a list's node is stored there. -/
theorem readList_ok {order : DictOrder} {any : FNode} {l : ListData}
    (h : ReadDataFromCloud.readList order any = .ok l) : leafAt ["listName"] any = l.listName ∧
      (ReadDataFromCloud.readItems order (some (getImmediateChild "listItems" any)) = .ok l.listItems ∨
        l.listItems = []) := by
  obtain ⟨listName, hname, h⟩ := Raising.bind_ok_iff.1 h
  obtain ⟨owner, -, h⟩ := Raising.bind_ok_iff.1 h
  obtain ⟨onlineUser, -, h⟩ := Raising.bind_ok_iff.1 h
  obtain ⟨items, hitems, h⟩ := Raising.bind_ok_iff.1 h
  obtain ⟨listitems, hread, h⟩ := Raising.bind_ok_iff.1 h
  cases h
  rw [objectForKey_ok hitems]
  refine ⟨stringForKey_ok hname, ?_⟩
  cases items with
  | none =>
    cases hread
    exact .inr rfl
  | some c => exact .inl hread

theorem readItem_itemNode {i : ItemData} {n : String} (h : i.itemName = some n) :
    ReadDataFromCloud.readItem (itemNode i) = .ok i := by
  obtain ⟨nm, t, p⟩ := i
  cases h
  have hkey : integerKey "item Name" = none := by decide
  have hget : ∀ key, objectForKey key (itemNode ⟨some n, t, p⟩) = .ok (SortedDict.get key
      ([("item Name", .leaf n), ("purchased", .leaf (SaveListOnCloud.purchasedString p))] ++
        (t.map fun t => ("time", FNode.leaf t)).toList)) := by
    intro key
    rw [itemNode_some]
    exact objectForKey_children List.mem_cons_self hkey key
  have hp : (isEqualToString (some (SaveListOnCloud.purchasedString p)) (some "True") ||
      isEqualToString (some (SaveListOnCloud.purchasedString p)) (some "true")) = p := by
    cases p <;> decide
  cases t <;>
    simp [ReadDataFromCloud.readItem, stringForKey, hget, SortedDict.get, bind, Except.bind, pure,
      Except.pure, hp]

theorem readOwner_listKids (l : ListData) :
    ReadDataFromCloud.readOwner (SortedDict.get "listUser" (listKids l)) =
      .ok (storedOwner l.listOwner) := by
  rw [get_listKids_user]
  obtain ⟨n, e, u⟩ := l.listOwner
  have h1 : integerKey "userName" = none := by decide
  cases n with
  | none => rfl
  | some n =>
    cases e with
    | none =>
      have hn : ownerNode ⟨some n, none, u⟩ = .children [("userName", .leaf n)] := by
        simp [ownerNode, dictionary, objectsAndKeys, SortedDict.ofList, SortedDict.set]
      have hget := fun key => objectForKey_children
        (List.mem_singleton_self (("userName", FNode.leaf n) : String × FNode)) h1 key
      rw [hn, if_neg (by simp [isEmpty])]
      simp [ReadDataFromCloud.readOwner, stringForKey, hget, SortedDict.get, bind, Except.bind, pure,
        Except.pure, storedOwner]
    | some e =>
      have hn : ownerNode ⟨some n, some e, u⟩ = .children ([("Email", .leaf e)] ++
          (u.map fun u => ("uid", FNode.leaf u)).toList ++ [("userName", .leaf n)]) := by
        cases u <;>
          simp [ownerNode, dictionary, objectsAndKeys, SortedDict.ofList, SortedDict.set,
            -String.lt_iff_ltb]
      have hmem : ("userName", FNode.leaf n) ∈ ([("Email", .leaf e)] ++
          (u.map fun u => ("uid", FNode.leaf u)).toList ++ [("userName", .leaf n)] : List (String × FNode)) := by simp
      have hget := fun key => objectForKey_children hmem h1 key
      rw [hn, if_neg (by simp [isEmpty])]
      cases u <;>
        simp_all [ReadDataFromCloud.readOwner, stringForKey, SortedDict.get, bind, Except.bind, pure,
          Except.pure, storedOwner]

theorem eq_nil_of_isEmpty {α : Type} {key : α → Option String} {node : α → FNode} {l : List α}
    (hd : Distinct key l) (h : (nodeBy key node l).isEmpty = true) : l = [] := by
  have hp : (SortedDict.ofList (entriesBy key node l)).Perm (entriesBy key node l) :=
    SortedDict.perm_ofList (entriesBy_nodup hd)
  rw [nodeBy, isEmpty, List.isEmpty_iff] at h
  rw [h] at hp
  have hv : (entriesBy key node l).map Prod.snd = l.map node := entriesBy_values hd
  rw [← hp.nil_eq] at hv
  exact List.map_eq_nil_iff.1 hv.symm

/-- The items are read back, if they can be read. -/
theorem readItems_listKids {order : DictOrder} {l : ListData} {is : List ItemData}
    (hd : Distinct ItemData.itemName l.listItems)
    (h : ReadDataFromCloud.readItems order (SortedDict.get "listItems" (listKids l)) = .ok is) :
    is.Perm l.listItems := by
  rw [get_listKids_items] at h
  cases he : (itemsNode l.listItems).isEmpty with
  | true =>
    rw [he, if_pos rfl] at h
    cases h
    rw [eq_nil_of_isEmpty hd he]
  | false =>
    rw [he, if_neg (by simp)] at h
    obtain ⟨vals, hv, hm⟩ := Raising.bind_ok_iff.1 h
    obtain ⟨js, hp, rfl⟩ := allValues_nodeBy hd hv
    have hread : (js.map itemNode).mapM ReadDataFromCloud.readItem = .ok js := by
      rw [List.mapM_map, Raising.mapM_ok fun j hj => ?_, List.map_id]
      obtain ⟨n, hn⟩ := hd.keyed j (hp.mem_iff.1 hj)
      exact readItem_itemNode hn
    rw [hread] at hm
    cases hm
    exact hp

theorem readItems_total (order : DictOrder) {l : ListData}
    (h : ∀ i ∈ l.listItems, ∀ n, i.itemName = some n → integerKey n = none) :
    ∃ is, ReadDataFromCloud.readItems order (SortedDict.get "listItems" (listKids l)) = .ok is := by
  rw [get_listKids_items]
  split
  · exact ⟨[], rfl⟩
  · rename_i he
    rw [itemsNode, nodeBy, isEmpty, List.isEmpty_iff] at he
    obtain ⟨p, hp⟩ := List.exists_mem_of_ne_nil _ he
    have hmem : ∀ q ∈ SortedDict.ofList (entriesBy ItemData.itemName itemNode l.listItems),
        ∃ i ∈ l.listItems, i.itemName = some q.1 ∧ itemNode i = q.2 :=
      fun q hq => mem_entriesBy.1 (SortedDict.mem_ofList hq)
    obtain ⟨i, hi, hn, -⟩ := hmem p hp
    have hv := allValues_children order hp (h i hi p.1 hn)
    -- every value is the node of an item with a name
    have hread : ∀ n ∈ order.allValues
        (SortedDict.ofList (entriesBy ItemData.itemName itemNode l.listItems)),
        ∃ j, ReadDataFromCloud.readItem n = .ok j := by
      intro n hn
      obtain ⟨q, hq, rfl⟩ := List.mem_map.1 ((order.perm _).mem_iff.1 hn)
      obtain ⟨j, -, hj, hjn⟩ := hmem q hq
      exact ⟨j, by rw [← hjn]; exact readItem_itemNode hj⟩
    obtain ⟨is, his⟩ := Raising.mapM_total hread
    exact ⟨is, by rw [ReadDataFromCloud.readItems, itemsNode, nodeBy, hv]; exact his⟩

/-- What reading a saved list amounts to. -/
theorem readList_listNode (order : DictOrder) {l : ListData} {n : String} (h : l.listName = some n) :
    ReadDataFromCloud.readList order (listNode l) = (do
      let is ← ReadDataFromCloud.readItems order (SortedDict.get "listItems" (listKids l))
      return ⟨l.listName, storedOwner l.listOwner, is⟩) := by
  have hmem : ("listName", FNode.leaf (l.listName.getD "")) ∈ listKids l :=
    List.mem_filter.2 ⟨by simp, rfl⟩
  have hkey : integerKey "listName" = none := by decide
  have hget := objectForKey_children hmem hkey
  have hname : stringForKey "listName" (listNode l) = .ok l.listName := by
    rw [stringForKey, listNode, hget, get_listKids_name, h]
    rfl
  rw [ReadDataFromCloud.readList, hname]
  simp only [listNode, hget, bind, Except.bind, readOwner_listKids]

/-- The list read for a saved one. -/
structure ReadBack (a b : ListData) : Prop extends SameItems a b where
  listOwner : a.listOwner = storedOwner b.listOwner

/-- A collection is read back, if it can be read, whatever its lists are stored under. -/
theorem readLists_nodeBy {key : ListData → Option String} {order : DictOrder} {ls ls' : List ListData}
    (hk : Distinct key ls) (hl : Collection ls)
    (h : ReadDataFromCloud.readLists order (nodeBy key listNode ls) = .ok ls') : UpToOrder ReadBack ls' ls := by
  obtain ⟨vals, hv, hm⟩ := Raising.bind_ok_iff.1 h
  obtain ⟨ms, hp, rfl⟩ := allValues_nodeBy hk hv
  refine UpToOrder.perm ⟨ls', .refl _, ?_⟩ hp
  have hf := Raising.forall₂_of_mapM hm
  rw [List.forall₂_map_left_iff] at hf
  have hf' := (List.forall₂_and_left (p := (· ∈ ls)) ms ls').2 ⟨fun l hl => hp.mem_iff.1 hl, hf⟩
  refine hf'.flip.imp ?_
  rintro l' l ⟨hmem, hread⟩
  obtain ⟨n, hn⟩ := hl.lists.keyed l hmem
  rw [readList_listNode order hn] at hread
  obtain ⟨is, his, hr⟩ := Raising.bind_ok_iff.1 hread
  cases hr
  exact ⟨⟨rfl, readItems_listKids (hl.items l hmem) his⟩, rfl⟩

theorem readLists_cloudNode {order : DictOrder} {ls ls' : List ListData} (hl : Legal ls)
    (h : ReadDataFromCloud.readLists order (cloudNode ls) = .ok ls') : UpToOrder ReadBack ls' ls :=
  readLists_nodeBy hl.lists hl.collection h

/-- Names that are no indices can be read. -/
theorem readLists_total (order : DictOrder) {ls : List ListData} (hl : Legal ls) (hne : ls ≠ [])
    (hi : Named (integerKey · = none) ls) :
    ∃ ls', ReadDataFromCloud.readLists order (cloudNode ls) = .ok ls' := by
  obtain ⟨l, hlm⟩ := List.exists_mem_of_ne_nil _ hne
  obtain ⟨n, hn⟩ := hl.lists.keyed l hlm
  have he : (n, listNode l) ∈ SortedDict.ofList (entriesBy ListData.listName listNode ls) :=
    (SortedDict.perm_ofList (entriesBy_nodup hl.lists)).mem_iff.2 (mem_entriesBy.2 ⟨l, hlm, hn, rfl⟩)
  have hv := allValues_children order he (hi.listNames l hlm n hn)
  obtain ⟨ms, hp, hms⟩ := allValues_nodeBy hl.lists hv
  have hread : ∀ v ∈ ms.map listNode, ∃ l', ReadDataFromCloud.readList order v = .ok l' := by
    intro v hv
    obtain ⟨m, hm, rfl⟩ := List.mem_map.1 hv
    have hm := hp.mem_iff.1 hm
    obtain ⟨k, hk⟩ := hl.lists.keyed m hm
    obtain ⟨is, his⟩ := readItems_total order (hi.itemNames m hm)
    rw [readList_listNode order hk, his]
    exact ⟨_, rfl⟩
  obtain ⟨ls', h⟩ := Raising.mapM_total hread
  exact ⟨ls', by rw [ReadDataFromCloud.readLists, cloudNode, nodeBy, hv, hms]; exact h⟩

/-! ## Saving a collection -/

theorem updateChild_singleton {new : FNode} (h : new.isEmpty = false) (k : String)
    (kids : List (String × FNode)) :
    updateChild new [k] (.children kids) = .children (SortedDict.set k new kids) := by
  rw [updateChild, updateChild_nil, updateImmediateChild, if_neg (by simp [h])]

theorem listRef_of_key {uid : Option String} {base : List String} {n : String}
    (hb : child dataNode uid = .ok base) (hn : isValidKey n = true) :
    listRef uid (some n) = .ok (base ++ [n]) :=
  Raising.bind_ok_iff.2 ⟨base, hb, child_of_isValidKey hn⟩

/-- The saves of lists with legal names succeed and set one child each. -/
theorem getChild_saveAll {u : FIRUser} {curUser : UserClass} {base : List String}
    (hb : child dataNode curUser.uidText = .ok base) {lists : List ShopingListsClass} {db : FNode}
    {kids : List (String × FNode)} (hl : ∀ l ∈ lists, ∃ n, l.listName = some n)
    (hi : ∀ l ∈ lists, ∀ i ∈ l.listItems, ∃ n, i.itemName = some n)
    (hn : Named (isValidKey · = true) (lists.map (·.encodeWithCoder)))
    (ht : ∀ l ∈ lists, Untied l.encodeWithCoder.listItems) (hdb : getChild base db = .children kids) :
    ∃ db', Raising.loop (SaveListOnCloud.save (some u) curUser) lists db = .ok db' ∧
      getChild base db' = .children ((entriesBy ListData.listName listNode
        (lists.map (·.encodeWithCoder))).foldl (fun d p => SortedDict.set p.1 p.2 d) kids) := by
  induction lists generalizing db kids with
  | nil => exact ⟨db, rfl, hdb⟩
  | cons l lists ih =>
    obtain ⟨n, hln⟩ := hl l List.mem_cons_self
    have hmem : l.encodeWithCoder ∈ (l :: lists).map (·.encodeWithCoder) := List.mem_cons_self
    have hkey : isValidKey n = true := hn.listNames _ hmem n hln
    have hsave : SaveListOnCloud.save (some u) curUser l db =
        .ok (updateChild (listNode l.encodeWithCoder) (base ++ [n]) db) := save_ok_iff.2
      ⟨fun i him => by
        obtain ⟨k, hk⟩ := hi l List.mem_cons_self i him
        exact ⟨k, hk, hn.itemNames _ hmem _ (List.mem_map_of_mem him) k hk⟩,
        ht l List.mem_cons_self, base ++ [n], by rw [hln]; exact listRef_of_key hb hkey, rfl⟩
    have hstep : getChild base (updateChild (listNode l.encodeWithCoder) (base ++ [n]) db) =
        .children (SortedDict.set n (listNode l.encodeWithCoder) kids) := by
      rw [getChild_updateChild, hdb, updateChild_singleton (isEmpty_listNode _)]
    obtain ⟨db', hloop, hdb'⟩ := ih (fun m hm => hl m (List.mem_cons_of_mem _ hm))
      (fun m hm => hi m (List.mem_cons_of_mem _ hm))
      ⟨fun m hm => hn.listNames m (List.mem_cons_of_mem _ hm),
        fun m hm => hn.itemNames m (List.mem_cons_of_mem _ hm)⟩
      (fun m hm => ht m (List.mem_cons_of_mem _ hm)) hstep
    refine ⟨db', by rw [Raising.loop, hsave]; exact hloop, ?_⟩
    have hen : l.encodeWithCoder.listName = some n := hln
    rw [hdb', List.map_cons, entriesBy_cons hen, List.foldl_cons]

/-- The callback makes objects with the contents that are read. -/
theorem callback_children {order : DictOrder} {kids : List (String × FNode)} {m : AppData}
    {ls : List ListData} (hne : kids ≠ [])
    (h : ReadDataFromCloud.readLists order (.children kids) = .ok ls) :
    ReadDataFromCloud.callback order (.children kids) m = .ok { m with
      onlineLST := some ⟨m.next, ShopingListsClass.decodeLists (m.next + 1) ls⟩
      next := m.next + 1 + (ls.map ListData.size).sum } := by
  have hc : hasChildren (.children kids) = true := by
    rw [hasChildren, Bool.not_eq_true', List.isEmpty_eq_false_iff]
    exact hne
  rw [ReadDataFromCloud.callback, if_pos hc, h]
  rfl

theorem contents_decodeLists (addr next : Nat) (ls : List ListData) :
    contents (some ⟨addr, ShopingListsClass.decodeLists next ls⟩) = ls := by
  simp [contents]

theorem storedOwner_of_some {u : UserData} {n e i : String} (h : u = ⟨some n, some e, some i⟩) :
    storedOwner u = u := by
  rw [h]
  rfl

/-- **Round trip.** The callback after the saves of a collection, in whatever
order, sets `onlineLST` to the collection, up to the order of lists and items. -/
theorem callback_saveAll (order : DictOrder) {u : FIRUser} {name email : String}
    {base : List String} {m : AppData} {lists : List ShopingListsClass} {db : FNode}
    (hbase : child dataNode (some u.uid) = .ok base)
    (hcur : m.curUser.encodeWithCoder = ⟨some name, some email, some u.uid⟩)
    (hown : ∀ l ∈ lists, l.listOwner.encodeWithCoder = ⟨some name, some email, some u.uid⟩)
    (hne : lists ≠ []) (hl : Legal (lists.map (·.encodeWithCoder)))
    (hi : Named (integerLike · = false) (lists.map (·.encodeWithCoder)))
    (hdb : getChild base db = emptyNode) :
    ∃ db' m', Raising.loop (SaveListOnCloud.save (some u) m.curUser) lists db = .ok db' ∧
      ReadDataFromCloud.callback order (getChild base db') m = .ok m' ∧
      UpToOrder SameList (contents m'.onlineLST) (lists.map (·.encodeWithCoder)) := by
  have huid : m.curUser.uidText = some u.uid := congrArg UserData.uid hcur
  obtain ⟨db', hloop, hchild⟩ := getChild_saveAll (u := u) (by rw [huid]; exact hbase)
    (fun l hm => hl.lists.keyed _ (List.mem_map_of_mem hm))
    (fun l hm i him => (hl.items _ (List.mem_map_of_mem hm)).keyed _ (List.mem_map_of_mem him))
    hl.toNamed (fun l hm => (hi.imp fun _ => isZeroes_of_integerLike).untied _ (List.mem_map_of_mem hm)) hdb
  have hcloud : getChild base db' = cloudNode (lists.map (·.encodeWithCoder)) := hchild
  have hne' : lists.map (·.encodeWithCoder) ≠ [] := by simpa using hne
  obtain ⟨ls, hread⟩ := readLists_total order hl hne' (hi.imp fun _ => integerKey_of_integerLike)
  have hkids : SortedDict.ofList (entriesBy ListData.listName listNode
      (lists.map (·.encodeWithCoder))) ≠ [] := by
    intro h
    have he : (cloudNode (lists.map (·.encodeWithCoder))).isEmpty = true := by
      rw [cloudNode, nodeBy, h]
      rfl
    rw [eq_emptyNode he] at hread
    cases hread
  refine ⟨db', _, hloop, by rw [hcloud]; exact callback_children hkids hread, ?_⟩
  rw [contents_decodeLists]
  obtain ⟨l, hp, hf⟩ := readLists_cloudNode hl hread
  refine ⟨l, hp, ?_⟩
  have hf' := (List.forall₂_and_left (p := (· ∈ lists.map (·.encodeWithCoder))) _ _).2
    ⟨fun _ h => h, hf.flip⟩
  refine hf'.flip.imp ?_
  rintro a b ⟨hb, hab⟩
  obtain ⟨c, hc, rfl⟩ := List.mem_map.1 hb
  exact ⟨hab.toSameItems, hab.listOwner.trans (storedOwner_of_some (hown c hc))⟩

/-- Two lists of Ann, the second one empty. -/
def annLists : List ShopingListsClass :=
  let ann : UserClass := ⟨some "Ann", some "ann@mail", some ⟨1, "u1"⟩⟩
  [⟨2, some "Food", ann, [⟨3, some "Milk", some "01-02-2020 10:02", false⟩, ⟨4, some "Bread", none, true⟩]⟩,
    ⟨5, some "Tools", ann, []⟩]

theorem callback_saveAll_annLists :
    ∃ db' m', Raising.loop (SaveListOnCloud.save (some ⟨"u1", some "ann@mail", some "Ann"⟩)
        ⟨some "Ann", some "ann@mail", some ⟨1, "u1"⟩⟩) annLists emptyNode = .ok db' ∧
      ReadDataFromCloud.callback .byKey (getChild ["Data", "u1"] db')
        { AppData.init with curUser := ⟨some "Ann", some "ann@mail", some ⟨1, "u1"⟩⟩ } = .ok m' ∧
      UpToOrder SameList (contents m'.onlineLST) (annLists.map (·.encodeWithCoder)) :=
  callback_saveAll .byKey (u := ⟨"u1", some "ann@mail", some "Ann"⟩)
    (m := { AppData.init with curUser := ⟨some "Ann", some "ann@mail", some ⟨1, "u1"⟩⟩ })
    (by decide) rfl (by decide) (by decide) (by decide) (by decide) rfl

end ShopingList
