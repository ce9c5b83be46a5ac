import ShopingList.App.TwoFiles

/-!
# Distinct names

`Names` says that the lists of the current user, those read from disk and those read
from the cloud have distinct names, and items with distinct names. `names_run`
keeps it along the runs in which every name that comes in is new.
-/

namespace ShopingList

open KeyedMerge ListViewController

/-- Lists and items have names, and different ones. -/
structure UniqueNames (ls : List ShopingListsClass) : Prop where
  lists : Distinct ShopingListsClass.listName ls
  items : ∀ l ∈ ls, Distinct ItemClass.itemName l.listItems

/-- The same for contents. -/
structure UniqueData (ls : List ListData) : Prop where
  lists : Distinct ListData.listName ls
  items : ∀ l ∈ ls, Distinct ItemData.itemName l.listItems

instance (ls : List ShopingListsClass) : Decidable (UniqueNames ls) :=
  decidable_of_iff (Distinct ShopingListsClass.listName ls ∧ ∀ l ∈ ls, Distinct ItemClass.itemName l.listItems)
    ⟨fun h => ⟨h.1, h.2⟩, fun h => ⟨h.lists, h.items⟩⟩

instance (ls : List ListData) : Decidable (UniqueData ls) :=
  decidable_of_iff (Distinct ListData.listName ls ∧ ∀ l ∈ ls, Distinct ItemData.itemName l.listItems)
    ⟨fun h => ⟨h.1, h.2⟩, fun h => ⟨h.lists, h.items⟩⟩

/-! ## Collections -/

section
variable {ls : List ShopingListsClass}

theorem distinct_map_iff {α β κ : Type} {key : α → Option κ} {key' : β → Option κ} {f : α → β} {l : List α}
    (hf : ∀ a, key' (f a) = key a) : Distinct key' (l.map f) ↔ Distinct key l := by
  refine ⟨fun h => ⟨?_, fun a ha => ?_⟩, fun h => h.map fun a _ => hf a⟩
  · have hn := h.nodup
    rwa [List.map_map, show key' ∘ f = key from funext hf] at hn
  · rw [← hf]
    exact h.keyed _ (List.mem_map_of_mem ha)

theorem uniqueNames_iff : UniqueNames ls ↔ UniqueData (ls.map (·.encodeWithCoder)) := by
  have hl : Distinct ListData.listName (ls.map (·.encodeWithCoder)) ↔
      Distinct ShopingListsClass.listName ls := distinct_map_iff fun _ => rfl
  have hi : ∀ l : ShopingListsClass, Distinct ItemData.itemName l.encodeWithCoder.listItems ↔
      Distinct ItemClass.itemName l.listItems := fun l => distinct_map_iff fun _ => rfl
  constructor
  · rintro ⟨hlists, hitems⟩
    exact ⟨hl.2 hlists, List.forall_mem_map.2 fun l hm => (hi l).2 (hitems l hm)⟩
  · rintro ⟨hlists, hitems⟩
    exact ⟨hl.1 hlists, fun l hm => (hi l).1 (hitems _ (List.mem_map_of_mem hm))⟩

theorem UniqueNames.nil : UniqueNames [] := ⟨⟨List.nodup_nil, fun _ h => nomatch h⟩, fun _ h => nomatch h⟩

theorem UniqueNames.sublist {ls' : List ShopingListsClass} (h : UniqueNames ls) (hs : ls'.Sublist ls) :
    UniqueNames ls' := ⟨h.lists.sublist hs, fun l hl => h.items l (hs.subset hl)⟩

theorem UniqueNames.filter (h : UniqueNames ls) (p : ShopingListsClass → Bool) : UniqueNames (ls.filter p) :=
  h.sublist List.filter_sublist

theorem UniqueNames.append {ls' : List ShopingListsClass} (h : UniqueNames ls) (h' : UniqueNames ls')
    (hne : ∀ a ∈ ls, ∀ b ∈ ls', a.listName ≠ b.listName) : UniqueNames (ls ++ ls') :=
  ⟨h.lists.append h'.lists hne, fun l hl => (List.mem_append.1 hl).elim (h.items l) (h'.items l)⟩

theorem UniqueNames.map {f : ShopingListsClass → ShopingListsClass} (h : UniqueNames ls)
    (hn : ∀ l ∈ ls, (f l).listName = l.listName)
    (hi : ∀ l ∈ ls, Distinct ItemClass.itemName (f l).listItems) : UniqueNames (ls.map f) :=
  ⟨h.lists.map hn, List.forall_mem_map.2 hi⟩

/-- An assignment that keeps the names. -/
theorem UniqueNames.map_names {f : ShopingListsClass → ShopingListsClass} (h : UniqueNames ls)
    (hn : ∀ l, (f l).listName = l.listName)
    (hi : ∀ l, (f l).listItems.map ItemClass.itemName = l.listItems.map ItemClass.itemName) :
    UniqueNames (ls.map f) := by
  refine h.map (fun l _ => hn l) fun l hl => ⟨?_, fun i hi' => ?_⟩
  · rw [hi]
    exact (h.items l hl).nodup
  · have hm : i.itemName ∈ l.listItems.map ItemClass.itemName := hi l ▸ List.mem_map_of_mem hi'
    obtain ⟨j, hj, he⟩ := List.mem_map.1 hm
    rw [← he]
    exact (h.items l hl).keyed j hj

/-- Another owner for some of the lists. -/
theorem UniqueNames.withOwner (h : UniqueNames ls) (p : ShopingListsClass → Prop) [DecidablePred p]
    (u : UserClass) : UniqueNames (ls.map fun x => if p x then x.withOwner u else x) := by
  refine h.map_names (fun x => ?_) fun x => ?_
  · split <;> rfl
  · split <;> rfl

theorem uniqueNames_decodeLists {next : Nat} {ls : List ListData} (h : UniqueData ls) :
    UniqueNames (ShopingListsClass.decodeLists next ls) := by
  rw [uniqueNames_iff, ShopingListsClass.encode_decodeLists]
  exact h

/-- The new list. -/
theorem uniqueNames_singleton {l : ShopingListsClass} {n : String} (hn : l.listName = some n)
    (hi : Distinct ItemClass.itemName l.listItems) : UniqueNames [l] := by
  refine ⟨⟨List.nodup_singleton _, fun x hx => ?_⟩, fun x hx => ?_⟩
  · rw [List.mem_singleton.1 hx]
    exact ⟨n, hn⟩
  · rw [List.mem_singleton.1 hx]
    exact hi

/-- **The merge keeps names distinct.** -/
theorem uniqueData_mergeLists {dates : DateAlloc} {as bs : List ListData} (ha : UniqueData as)
    (hb : UniqueData bs) : UniqueData (CompareList.mergeLists dates as bs) := by
  refine ⟨distinct_unionBy ha.lists hb.lists fun _ _ => rfl, fun l hl => ?_⟩
  rcases mem_unionBy hl with h | h | ⟨a, hal, b, hbl, -, rfl⟩
  · exact ha.items l h.1
  · exact hb.items l h.1
  · exact CompareList.distinct_mergeItems a.listName (ha.items a hal) (hb.items b hbl)

end

/-! ## Memories -/

/-- The list belongs to the user. -/
def belongs (u : UserClass) (l : ShopingListsClass) : Bool := isEqualToString l.listOwner.uidText u.uidText

theorem belongs_curUser {m : AppData} (h : m.curUser.uid.isSome = true) {l : ShopingListsClass}
    (hl : l.listOwner.uidText = m.curUser.uidText) : belongs m.curUser l = true := by
  obtain ⟨uid, huid⟩ := Option.isSome_iff_exists.1 h
  have htext : m.curUser.uidText = some uid.text := by rw [UserClass.uidText, huid]; rfl
  exact isEqualToString_iff.2 ⟨uid.text, hl.trans htext, htext⟩

/-- The lists of the current user. -/
def userLists (m : AppData) : List ShopingListsClass := (elems m.curLST).filter (belongs m.curUser)

structure Names (m : AppData) : Prop where
  user : m.curUser.uid.isSome = true
  own : UniqueNames (userLists m)
  offline : UniqueNames (elems m.offlineLST)
  online : UniqueNames (elems m.onlineLST)

/-- `curLST` and `offlineLST` are one array. -/
def SameArray (m : AppData) : Prop := m.curLST.map NSMutableArray.addr = m.offlineLST.map NSMutableArray.addr

instance (m : AppData) : Decidable (SameArray m) := inferInstanceAs (Decidable (_ = _))

section
variable {m : AppData} {o : List Observer}

theorem sublist_filter_of_imp {α : Type} {p q : α → Bool} {l : List α} (h : ∀ a ∈ l, p a = true → q a = true) :
    (l.filter p).Sublist (l.filter q) := by
  have he : l.filter p = (l.filter q).filter p := by
    rw [List.filter_filter]
    refine List.filter_congr fun a ha => ?_
    cases hp : p a with
    | false => rfl
    | true => rw [h a ha hp]; rfl
  rw [he]
  exact List.filter_sublist

/-- What `WriteData` keeps belongs to the user. -/
theorem ownLists_sublist (h : Strings m o) (hu : m.curUser.uid.isSome = true) :
    (WriteDataToDisk.ownLists m).Sublist (userLists m) := by
  refine sublist_filter_of_imp fun l hl hp => ?_
  obtain ⟨uid, huid⟩ := Option.isSome_iff_exists.1 hu
  have ht := h.uidText_eq mem_users_curUser (mem_users_list (AppData.mem_lists_curLST hl)) hp
  refine isEqualToString_iff.2 ⟨uid.text, ?_, ?_⟩
  · rw [← ht, UserClass.uidText, huid]
    rfl
  · rw [UserClass.uidText, huid]
    rfl

/-- An assignment that keeps names and owners. -/
theorem Names.mapLists {f : ShopingListsClass → ShopingListsClass} (h : Names m)
    (ho : ∀ l, (f l).listOwner = l.listOwner) (hn : ∀ l, (f l).listName = l.listName)
    (hi : ∀ l ∈ userLists m ++ elems m.offlineLST ++ elems m.onlineLST,
      Distinct ItemClass.itemName (f l).listItems) : Names (m.mapLists f) := by
  have hb : belongs m.curUser ∘ f = belongs m.curUser := by
    funext l
    rw [Function.comp_apply, belongs, ho, belongs]
  refine ⟨h.user, ?_, ?_, ?_⟩
  · rw [userLists, AppData.mapLists_curLST, AppData.mapLists_curUser, List.filter_map, hb]
    exact h.own.map (fun l _ => hn l) fun l hl =>
      hi l (List.mem_append_left _ (List.mem_append_left _ hl))
  · rw [AppData.mapLists_offlineLST]
    exact h.offline.map (fun l _ => hn l) fun l hl =>
      hi l (List.mem_append_left _ (List.mem_append_right _ hl))
  · rw [AppData.mapLists_onlineLST]
    exact h.online.map (fun l _ => hn l) fun l hl => hi l (List.mem_append_right _ hl)

theorem Names.items (h : Names m) {l : ShopingListsClass}
    (hl : l ∈ userLists m ++ elems m.offlineLST ++ elems m.onlineLST) :
    Distinct ItemClass.itemName l.listItems := by
  rw [List.mem_append, List.mem_append] at hl
  rcases hl with (hl | hl) | hl
  · exact h.own.items l hl
  · exact h.offline.items l hl
  · exact h.online.items l hl

theorem names_collect (h : Names m) (hs : Strings m o) : Names (WriteDataToDisk.collect m) :=
  ⟨h.user, h.own, h.own.sublist (ownLists_sublist hs h.user), h.online⟩

theorem uniqueData_archive (h : Names m) (hs : Strings m o) :
    UniqueData (contents (WriteDataToDisk.collect m).offlineLST) :=
  uniqueNames_iff.1 (names_collect h hs).offline

/-- An array after a change of one array. -/
theorem uniqueNames_updated {array a : Option NSMutableArray}
    {f : List ShopingListsClass → List ShopingListsClass} (ha : UniqueNames (elems a))
    (hf : UniqueNames (f (elems a))) : UniqueNames (elems (a.map fun b =>
      if array.map NSMutableArray.addr = some b.addr then { b with objs := f b.objs } else b)) := by
  rcases AppData.elems_updated array a f with e | e
  · rw [e]
    exact hf
  · rw [e]
    exact ha

/-- A removal from `curLST`. -/
theorem names_removeObject (h : Names m) (l : ShopingListsClass) :
    Names (m.updateArray m.curLST (CompareList.removeObject l)) := by
  refine ⟨h.user, ?_, uniqueNames_updated h.offline (h.offline.filter _),
    uniqueNames_updated h.online (h.online.filter _)⟩
  rw [userLists]
  rcases AppData.elems_updated m.curLST m.curLST (CompareList.removeObject l) with e | e
  · rw [AppData.updateArray, AppData.mapArrays_curLST, e, AppData.mapArrays_curUser,
      CompareList.removeObject, List.filter_comm]
    exact h.own.filter _
  · rw [AppData.updateArray, AppData.mapArrays_curLST, e]
    exact h.own

/-- The array is another one. -/
theorem elems_updated_of_ne {array a : Option NSMutableArray}
    {f : List ShopingListsClass → List ShopingListsClass}
    (h : array.map NSMutableArray.addr ≠ a.map NSMutableArray.addr) : elems (a.map fun b =>
      if array.map NSMutableArray.addr = some b.addr then { b with objs := f b.objs } else b) = elems a := by
  cases a with
  | none => rfl
  | some b =>
    rw [Option.map_some, if_neg]
    exact h

/-- Lists that come into `curLST`. -/
theorem names_append {news : List ShopingListsClass} (h : Names m) (ha : Arrays m o)
    (hown : UniqueNames (userLists m ++ news.filter (belongs m.curUser)))
    (hsame : SameArray m → UniqueNames (elems m.offlineLST ++ news)) :
    Names (m.updateArray m.curLST (· ++ news)) := by
  refine ⟨h.user, ?_, ?_, ?_⟩
  · rw [userLists]
    rcases AppData.elems_updated m.curLST m.curLST (· ++ news) with e | e
    · rw [AppData.updateArray, AppData.mapArrays_curLST, e, AppData.mapArrays_curUser, List.filter_append]
      exact hown
    · rw [AppData.updateArray, AppData.mapArrays_curLST, e]
      exact h.own
  · by_cases hs : SameArray m
    · rcases AppData.elems_updated m.curLST m.offlineLST (· ++ news) with e | e
      · rw [AppData.updateArray, AppData.mapArrays_offlineLST, e]
        exact hsame hs
      · rw [AppData.updateArray, AppData.mapArrays_offlineLST, e]
        exact h.offline
    · rw [AppData.updateArray, AppData.mapArrays_offlineLST, elems_updated_of_ne (f := (· ++ news)) hs]
      exact h.offline
  · rw [AppData.updateArray, AppData.mapArrays_onlineLST]
    cases hon : m.onlineLST with
    | none => exact UniqueNames.nil
    | some b =>
      rw [elems_updated_of_ne (f := (· ++ news)), ← hon]
      · exact h.online
      · cases hc : m.curLST with
        | none => simp
        | some a =>
          intro he
          exact ha.online b hon a (.inl hc) (Option.some.inj he)

/-- The name is not that of one of the lists. -/
def NewName (text : String) (ls : List ShopingListsClass) : Prop := ∀ l ∈ ls, l.listName ≠ some text

instance (text : String) (ls : List ShopingListsClass) : Decidable (NewName text ls) :=
  inferInstanceAs (Decidable (∀ _ ∈ _, _))

theorem names_newList {text : String} (h : Names m) (ha : Arrays m o) (hown : NewName text (userLists m))
    (hsame : SameArray m → NewName text (elems m.offlineLST)) : Names (withNewList text m) := by
  have hone : UniqueNames [(⟨m.next, some text, m.curUser, []⟩ : ShopingListsClass)] :=
    uniqueNames_singleton rfl ⟨List.nodup_nil, fun _ h => nomatch h⟩
  have happ := names_append h ha (h.own.append (hone.filter (belongs m.curUser)) fun a ham b hbm => ?_)
    fun hs => h.offline.append hone fun a ham b hbm => ?_
  · exact ⟨happ.user, happ.own, happ.offline, happ.online⟩
  · rw [List.mem_singleton.1 (List.mem_filter.1 hbm).1]
    exact hown a ham
  · rw [List.mem_singleton.1 hbm]
    exact hsame hs a ham

/-- The name is not that of an item of the list. -/
def NewItemName (text : String) (l : ShopingListsClass) : Prop := ∀ i ∈ l.listItems, i.itemName ≠ some text

theorem names_newItem {text : String} {now : Moment} {l : ShopingListsClass} (h : Names m)
    (hnew : l ∈ userLists m ++ elems m.offlineLST ++ elems m.onlineLST → NewItemName text l) :
    Names (withNewItem text now l m) := by
  have hmap : Names (m.assignList l { l with listItems := l.listItems ++
      [⟨m.next, some text, some (DateAndTime.dateAndTimeNow now), false⟩] }) := by
    refine h.mapLists (fun x => ?_) (fun x => ?_) fun x hx => ?_
    · split
      · rename_i he
        rw [he]
      · rfl
    · split
      · rename_i he
        rw [he]
      · rfl
    · split
      · rename_i he
        subst he
        refine (h.items hx).append ⟨List.nodup_singleton _, fun i hi => ?_⟩ fun i hi j hj => ?_
        · rw [List.mem_singleton.1 hi]
          exact ⟨text, rfl⟩
        · rw [List.mem_singleton.1 hj]
          exact hnew hx i hi
      · exact h.items hx
  exact ⟨hmap.user, hmap.own, hmap.offline, hmap.online⟩

theorem names_toggled {i : ItemClass} {now : Moment} (h : Names m) : Names (m.assignItem i (i.toggled now)) := by
  refine h.mapLists (fun _ => rfl) (fun _ => rfl) fun x hx => ?_
  refine (h.items hx).map fun y _ => ?_
  split
  · rename_i he
    rw [he]
    rfl
  · rfl

theorem names_deleteItem {i : ItemClass} {l : ShopingListsClass} (h : Names m) :
    Names (m.assignList l { l with listItems := CompareList.removeObject i l.listItems }) := by
  refine h.mapLists (fun x => ?_) (fun x => ?_) fun x hx => ?_
  · split
    · rename_i he
      rw [he]
    · rfl
  · split
    · rename_i he
      rw [he]
    · rfl
  · split
    · rename_i he
      subst he
      exact (h.items hx).sublist List.filter_sublist
    · exact h.items hx

/-- The lists after a merge, before they get their owner. -/
theorem uniqueNames_merge (dates : DateAlloc) (h : Names m) : UniqueNames (elems (merge dates m).curLST) ∧
    UniqueNames (elems (merge dates m).offlineLST) ∧ UniqueNames (elems (merge dates m).onlineLST) := by
  obtain ⟨hA, hB⟩ := CompareList.compare_left dates (m.next + 1) (elems m.onlineLST) (elems m.offlineLST)
  have hleftA := h.online.filter fun a => !CompareList.isUnique a (elems m.offlineLST)
  have hleftB := h.offline.filter fun b => !CompareList.isUnique b (elems m.onlineLST)
  rw [← hA] at hleftA
  rw [← hB] at hleftB
  refine ⟨?_, ?_, ?_⟩
  · rw [uniqueNames_iff]
    show UniqueData (contents (merge dates m).curLST)
    rw [contents_merge]
    exact uniqueData_mergeLists (uniqueNames_iff.1 h.online) (uniqueNames_iff.1 h.offline)
  · exact uniqueNames_updated (f := fun _ => _) (uniqueNames_updated (f := fun _ => _) h.offline hleftA) hleftB
  · exact uniqueNames_updated (f := fun _ => _) (uniqueNames_updated (f := fun _ => _) h.online hleftA) hleftB

theorem names_ownedMerge (dates : DateAlloc) (h : Names m) : Names (ownedMerge dates m) := by
  obtain ⟨hcur, hoff, hon⟩ := uniqueNames_merge dates h
  refine ⟨h.user, ?_, ?_, ?_⟩
  · rw [userLists, ownedMerge, AppData.mapLists_curLST]
    exact (hcur.withOwner _ _).filter _
  · rw [ownedMerge, AppData.mapLists_offlineLST]
    exact hoff.withOwner _ _
  · rw [ownedMerge, AppData.mapLists_onlineLST]
    exact hon.withOwner _ _

theorem names_readCallback {order : FNode.DictOrder} {snapshot : FNode} {m' : AppData} (h : Names m)
    (hnew : ∀ lists, ReadDataFromCloud.readLists order snapshot = .ok lists → UniqueData lists)
    (hm : ReadDataFromCloud.callback order snapshot m = .ok m') : Names m' := by
  obtain rfl | ⟨ls, hls, rfl⟩ := readCallback_ok hm
  · exact h
  · exact ⟨h.user, h.own, h.offline, uniqueNames_decodeLists (hnew ls hls)⟩

/-- A memory with the same user and the same arrays of lists. -/
theorem Names.congr {m' : AppData} (h : Names m) (hu : m'.curUser = m.curUser)
    (hc : elems m'.curLST = elems m.curLST) (hoff : elems m'.offlineLST = elems m.offlineLST)
    (hon : elems m'.onlineLST = elems m.onlineLST) : Names m' := by
  refine ⟨hu ▸ h.user, ?_, hoff ▸ h.offline, hon ▸ h.online⟩
  rw [userLists, hu, hc]
  exact h.own

theorem names_coordsCallback {order : FNode.DictOrder} {snapshot : FNode} {m' : AppData} (h : Names m)
    (hm : ReadInvitations.callback order snapshot m = .ok m') : Names m' := by
  obtain rfl | ⟨values, coords, -, rfl⟩ := coordsCallback_ok hm
  · exact h
  · exact h.congr rfl rfl rfl rfl

/-- Observers fill fetched arrays only. -/
theorem names_notify {order : FNode.DictOrder} {sameString : String → Bool} {ob : Observer}
    {snapshot : FNode} {m' : AppData} (h : Names m) (ha : Arrays m o) (hob : ob ∈ o)
    (hm : FetchInvitationnData.block order sameString ob.coords ob.fetchedArr snapshot m = .ok m') :
    Names m' := by
  obtain rfl | ⟨found, rfl⟩ := fetchBlock_ok hm
  · exact h
  · exact h.congr rfl (congrArg elems (ha.map_fill hob _ (.inl rfl)))
      (congrArg elems (ha.map_fill hob _ (.inr (.inl rfl)))) (congrArg elems (ha.map_fill hob _ (.inr (.inr rfl))))

end

/-! ## Files -/

/-- What the stored lists have of it. -/
def UniqueFiles (f : Files) : Prop := ∀ lists, f.dataPlist = some lists → UniqueData lists

theorem uniqueNames_readDisk {f : Files} {m : AppData} (hf : UniqueFiles f)
    (h : UniqueNames (elems m.offlineLST)) :
    UniqueNames (elems (ReadDataFromDisk.readData f m).offlineLST) := by
  unfold ReadDataFromDisk.readData
  cases hd : f.dataPlist with
  | none => exact h
  | some lists => exact uniqueNames_decodeLists (hf lists hd)

/-- What a running process keeps. -/
structure NamesKept (m : AppData) (f : Files) (o : List Observer) : Prop where
  strings : Strings m o
  arrays : Arrays m o
  names : Names m
  plist : ∃ u, f.userPlist = some u ∧ u.uid.isSome = true
  files : UniqueFiles f

section
variable {m m' : AppData} {f f' : Files} {o : List Observer} {now : Moment}

theorem NamesKept.writes (hs : Strings m o) (ha : Arrays m o) (hn : Names m)
    (hp : ∃ u, f.userPlist = some u ∧ u.uid.isSome = true) (hw : Writes m f m' f') : NamesKept m' f' o := by
  cases hw
  refine ⟨strings_collect hs, arrays_collect ha, names_collect hn hs, hp, fun lists hl => ?_⟩
  cases hl
  exact uniqueData_archive hn hs

theorem onlineLST_readDisk (f : Files) (m : AppData) :
    (ReadDataFromDisk.readData f m).onlineLST = m.onlineLST ∧
      (ReadDataFromDisk.readData f m).curLST = m.curLST := by
  unfold ReadDataFromDisk.readData
  split <;> exact ⟨rfl, rfl⟩

/-- `readData` for a user who is stored. -/
theorem names_readDiskFiles (hp : ∃ u, f.userPlist = some u ∧ u.uid.isSome = true) (hf : UniqueFiles f)
    (hoff : UniqueNames (elems m.offlineLST)) (hon : UniqueNames (elems m.onlineLST)) :
    Names (readDisk now f m).1 ∧ (readDisk now f m).2 = f := by
  obtain ⟨u, hu, huid⟩ := hp
  have hsome : (ReadUserFromDisk.read f m).curUser.uid.isSome = true := by
    simp only [ReadUserFromDisk.read, hu, UserClass.initWithCoder, Option.isSome_map]
    exact huid
  simp only [readDisk_stored hu huid, and_true]
  obtain ⟨user, n, he⟩ := readUser_eq f m
  rw [he] at hsome ⊢
  have hoffline : UniqueNames (elems (ReadDataFromDisk.readData f { m with curUser := user, next := n }).offlineLST) :=
    uniqueNames_readDisk hf hoff
  refine ⟨?_, hoffline.filter _, hoffline, ?_⟩
  · rw [uidText_readDisk]
    exact hsome
  · show UniqueNames (elems (ReadDataFromDisk.readData f _).onlineLST)
    rw [(onlineLST_readDisk f _).1]
    exact hon

/-- The second read of `data.plist`. -/
theorem names_readAgain (h : Names m) (hf : UniqueFiles f) : Names (ReadDataFromDisk.readData f m) := by
  obtain ⟨hon, hcur⟩ := onlineLST_readDisk f m
  refine ⟨uidText_readDisk f m ▸ h.user, ?_, uniqueNames_readDisk hf h.offline, hon ▸ h.online⟩
  rw [userLists, hcur, uidText_readDisk]
  exact h.own

theorem NamesKept.readsData (hs : Strings m o) (ha : Arrays m o)
    (hp : ∃ u, f.userPlist = some u ∧ u.uid.isSome = true) (hf : UniqueFiles f)
    (hoff : UniqueNames (elems m.offlineLST)) (hon : UniqueNames (elems m.onlineLST))
    (hr : ReadsData now f m m' f') : NamesKept m' f' o := by
  obtain ⟨hnames, hfiles⟩ : Names (readDisk now f m).1 ∧ (readDisk now f m).2 = f :=
    names_readDiskFiles hp hf hoff hon
  refine ⟨strings_readsData hs hr, arrays_readsData ha hr, ?_, ?_, ?_⟩
  · cases hr with
    | once => exact hnames
    | twice =>
      rw [hfiles]
      exact names_readAgain hnames hf
  · cases hr <;> rwa [hfiles]
  · cases hr <;> rwa [hfiles]

/-- The memory of a first launch has one list, with one item. -/
theorem names_firstLists (now : Moment) (n : Nat) :
    Names (PrepareFirstLists.prepare now { AppData.init with curUser := defaultUser, next := n }) := by
  have hitem : Distinct ItemClass.itemName
      [⟨n, some "test item", some (DateAndTime.dateAndTimeNow now), false⟩] := by
    refine ⟨List.nodup_singleton _, fun i hi => ?_⟩
    rw [List.mem_singleton.1 hi]
    exact ⟨"test item", rfl⟩
  have hone : UniqueNames [⟨n + 1, some "Sample List ", defaultUser,
      [⟨n, some "test item", some (DateAndTime.dateAndTimeNow now), false⟩]⟩] :=
    uniqueNames_singleton rfl hitem
  exact ⟨rfl, hone.filter _, UniqueNames.nil, UniqueNames.nil⟩

/-- A launch, with or without a stored user. -/
theorem NamesKept.launch (hf : UniqueFiles f) (hr : ReadsData now f AppData.init m' f') :
    NamesKept m' f' [] := by
  by_cases hp : ∃ u, f.userPlist = some u ∧ u.uid.isSome = true
  · exact .readsData strings_init arrays_init hp hf UniqueNames.nil UniqueNames.nil hr
  have hif := readUser_none hp
  have hstrings := strings_default (strings_readUser strings_init f)
  have harrays : Arrays { ReadUserFromDisk.read f AppData.init with curUser := defaultUser } [] :=
    (arrays_readUser arrays_init f).other (Nat.le_refl _)
  have hnames : Names (PrepareFirstLists.prepare now
      { ReadUserFromDisk.read f AppData.init with curUser := defaultUser }) := by
    obtain ⟨user, n, he⟩ := readUser_eq f AppData.init
    rw [he]
    exact names_firstLists now n
  have hkept : NamesKept (readDisk now f AppData.init).1 (readDisk now f AppData.init).2 [] := by
    simp only [readDisk, if_pos hif]
    exact .writes (strings_prepare hstrings now) (arrays_prepare harrays now) hnames
      ⟨defaultUser.encodeWithCoder, rfl, rfl⟩ .write
  cases hr with
  | once => exact hkept
  | twice =>
    exact ⟨strings_readDisk hkept.strings _, arrays_readDisk hkept.arrays _,
      names_readAgain hkept.names hkept.files, hkept.plist, hkept.files⟩

end

/-! ## Steps and runs -/

/-- Lists that come in: their names are distinct, and none is a name of the lists that are there. -/
structure Joins (ls news : List ShopingListsClass) : Prop where
  unique : UniqueNames news
  new : ∀ a ∈ ls, ∀ b ∈ news, a.listName ≠ b.listName

/-- The names that a turn of a running process brings in are new. -/
def NamesNew (a : Action) (s : Sys) : Prop :=
  s.running = true →
  match a with
  | .newList text => NewName text (userLists s.mem) ∧
      (SameArray s.mem → NewName text (elems s.mem.offlineLST))
  | .addItem text _ => ∀ l, shownList s = some l →
      l ∈ userLists s.mem ++ elems s.mem.offlineLST ++ elems s.mem.onlineLST → NewItemName text l
  | .fire k env =>
    match s.pending[k]? with
    | some (.readCallback _ _ snapshot) =>
      ∀ lists, ReadDataFromCloud.readLists env.order snapshot = .ok lists → UniqueData lists
    | some .appendBlock =>
      Joins (userLists s.mem) ((elems s.mem.invitationLST).filter (belongs s.mem.curUser)) ∧
        (SameArray s.mem → Joins (elems s.mem.offlineLST) (elems s.mem.invitationLST))
    | some (.registerBlock _ _ user) => ∀ l ∈ elems s.mem.curLST, l.listOwner.uidText ≠ some user.uid
    | _ => True
  | _ => True

/-- The lists that `SetTheUser` gives to the new user. -/
def mine (m : AppData) : List ShopingListsClass :=
  (elems m.curLST).filter fun any => samePointer any.listOwner.uid m.curUser.uid

/-- The names of the lists read, when some get a new owner. -/
theorem uniqueNames_setWithName {m : AppData} (n e : Option String) (uid : String) (h : Names m) :
    UniqueNames (elems (SetTheUser.setWithName n e uid m).offlineLST) ∧
      UniqueNames (elems (SetTheUser.setWithName n e uid m).onlineLST) := by
  have hoff := h.offline.withOwner (· ∈ mine m) ⟨n, e, some ⟨m.next, uid⟩⟩
  have hon := h.online.withOwner (· ∈ mine m) ⟨n, e, some ⟨m.next, uid⟩⟩
  rw [← AppData.mapLists_offlineLST] at hoff
  rw [← AppData.mapLists_onlineLST] at hon
  exact ⟨hoff, hon⟩

/-- The lists of a new account are those of the user before. -/
theorem names_setWithName {m : AppData} {o : List Observer} (n e : Option String) {uid : String}
    (h : Names m) (hs : Strings m o) (hnew : ∀ l ∈ elems m.curLST, l.listOwner.uidText ≠ some uid) :
    Names (SetTheUser.setWithName n e uid m) := by
  let tempUser : UserClass := ⟨n, e, some ⟨m.next, uid⟩⟩
  let f : ShopingListsClass → ShopingListsClass := fun any =>
    if any ∈ mine m then any.withOwner tempUser else any
  obtain ⟨hoff, hon⟩ := uniqueNames_setWithName n e uid h
  refine ⟨rfl, ?_, hoff, hon⟩
  show UniqueNames ((elems (m.mapLists f).curLST).filter (belongs tempUser))
  rw [AppData.mapLists_curLST, List.filter_map]
  refine (h.own.sublist (sublist_filter_of_imp fun l hl hb => ?_)).withOwner (· ∈ mine m) tempUser
  -- a list of the new user had the uid object of the old one
  by_cases hm : l ∈ mine m
  · obtain ⟨uid', huid⟩ := Option.isSome_iff_exists.1 h.user
    have ht := hs.uidText_eq (mem_users_list (AppData.mem_lists_curLST hl)) mem_users_curUser
      (List.mem_filter.1 hm).2
    have htext : m.curUser.uidText = some uid'.text := by rw [UserClass.uidText, huid]; rfl
    exact isEqualToString_iff.2 ⟨uid'.text, ht.trans htext, htext⟩
  · have hfl : f l = l := if_neg hm
    rw [Function.comp_apply, hfl] at hb
    obtain ⟨t, hl', ht⟩ := isEqualToString_iff.1 hb
    cases ht
    exact absurd hl' (hnew l hl)

/-- **One step.** -/
theorem namesKept_outcome {s : Sys} {a : Action} {m : AppData} {f : Files} {o : List Observer}
    (h : NamesKept s.mem s.files s.observers) (hr : s.running = true) (hnew : NamesNew a s)
    (hne : ∀ now, a ≠ .launch now) (ho : Outcome s a m f o) : NamesKept m f o := by
  obtain ⟨hs, ha, hn, hp, hf⟩ := h
  have hstrings := strings_outcome hs ho
  have harrays := arrays_outcome ha ho
  have hsame : ∀ {m' : AppData}, Names m' → m' = m → f = s.files → NamesKept m f o := by
    rintro m' hn' rfl rfl
    exact ⟨hstrings, harrays, hn', hp, hf⟩
  have hnew := hnew hr
  cases ho with
  | same => exact ⟨hs, ha, hn, hp, hf⟩
  | launch hr => exact absurd rfl (hne _)
  | login hread => exact .readsData hs ha hp hf hn.offline hn.online hread
  | newList hw => exact .writes (strings_newList hs _) (arrays_newList ha _) (names_newList hn ha hnew.1 hnew.2) hp hw
  | deleteOwn hl hown hw =>
    exact .writes (strings_removeObject hs _ _) (ha.updateArray _ _) (names_removeObject hn _) hp hw
  | reject hl hown => exact hsame (names_removeObject hn _) rfl rfl
  | write hw => exact .writes hs ha hn hp hw
  | addItem hl hw =>
    exact .writes (strings_newItem hs _ _ _) (arrays_newItem ha _ _ _) (names_newItem hn (hnew _ hl)) hp hw
  | toggleItem hl hi hw => exact .writes (strings_assignItem hs _ _) (ha.mapLists _) (names_toggled hn) hp hw
  | deleteItem hl hi hw => exact .writes (strings_assignList hs _ _) (ha.mapLists _) (names_deleteItem hn) hp hw
  | readCallback hk hm =>
    simp only [hk] at hnew
    exact hsame (names_readCallback hn hnew hm) rfl rfl
  | mergeBlock hk hw =>
    exact .writes (strings_ownedMerge hs _) (arrays_ownedMerge ha _) (names_ownedMerge _ hn) hp hw
  | fetched hk hw =>
    obtain ⟨-, -, hnames, hplist, hfiles⟩ :=
      NamesKept.writes (strings_ownedMerge hs _) (arrays_ownedMerge ha _) (names_ownedMerge _ hn) hp hw
    exact ⟨hstrings, harrays, hnames.congr rfl rfl rfl rfl, hplist, hfiles⟩
  | coordsCallback hk hm => exact hsame (names_coordsCallback hn hm) rfl rfl
  | appendBlock hk =>
    simp only [hk] at hnew
    exact hsame (names_append hn ha (hn.own.append hnew.1.unique hnew.1.new)
      fun hsa => hn.offline.append (hnew.2 hsa).unique (hnew.2 hsa).new) rfl rfl
  | loginBlock hk hread =>
    obtain ⟨hoff, hon⟩ := uniqueNames_setWithName _ _ _ hn
    refine .readsData (strings_setWithName hs _ _ _) (arrays_setWithName ha _ _ _) ?_ ?_ hoff hon hread
    · exact ⟨_, rfl, rfl⟩
    · exact hf
  | registerBlock hk =>
    simp only [hk] at hnew
    exact ⟨hstrings, harrays, names_setWithName _ _ hn hs hnew, ⟨_, rfl, rfl⟩, hf⟩
  | notify hk hm => exact hsame (names_notify hn ha (List.mem_of_getElem? hk) hm) rfl rfl

theorem namesKept_step {s : Sys} {a : Action} (hs : Kept NamesKept UniqueFiles s) (hnew : NamesNew a s) :
    Kept NamesKept UniqueFiles (step a s) :=
  hs.step (fun _ _ _ h => h.files) (fun _ _ _ _ hread => .launch hs.1 hread)
    (fun hr hne h _ _ _ ho => namesKept_outcome h hr hnew hne ho)

/-- **The current user's lists have distinct names**, and so have the items of each, in every state
of a run whose steps bring in new names only. -/
theorem names_run {s : Sys} {as : List Action} (hr : s.running = false) (hf : UniqueFiles s.files)
    (hnew : Run.Along step NamesNew as s) (hrun : (Run.run step as s).running = true) :
    UniqueNames (userLists (Run.run step as s).mem) :=
  have hs : Kept NamesKept UniqueFiles s := ⟨hf, fun h => by rw [hr] at h; cases h⟩
  have hkept := Run.run_induct (fun _ _ hnew hs => namesKept_step hs hnew) hnew hs
  (hkept.2 hrun).names.own

theorem names_run_tools : UniqueNames (userLists (Run.run step
    [.launch annEnv.now, .newList "Tools", .openItems 1, .addItem "Saw" annEnv.now] newDevice).mem) := by
  refine names_run rfl (fun lists h => by cases h) ⟨fun _ => trivial, fun _ => ⟨by decide, by decide⟩,
    fun _ => trivial, fun _ l hl _ => ?_, trivial⟩ (by decide)
  have hshown : (shownList (Run.run step [.launch annEnv.now, .newList "Tools", .openItems 1] newDevice)).map
      (·.listItems) = some [] := by decide
  have hitems : l.listItems = [] := by
    have hl' := congrArg (Option.map (·.listItems)) hl
    exact Option.some.inj (hl'.symm.trans hshown)
  rw [NewItemName, hitems]
  exact fun i hi => nomatch hi

/-- A list with the name of another. -/
theorem not_names_run : ¬ ∀ (s : Sys) (as : List Action), s.running = false → UniqueFiles s.files →
    (Run.run step as s).running = true → UniqueNames (userLists (Run.run step as s).mem) := by
  intro h
  have hfood := h newDevice [.launch annEnv.now, .newList "Food", .newList "Food"] rfl
    (fun lists h => by cases h) (by decide)
  revert hfood
  decide

end ShopingList
