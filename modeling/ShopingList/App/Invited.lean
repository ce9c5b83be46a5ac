import ShopingList.App.Memory

/-!
# Lists from invitations

The observers of `FetchInvitationList` make a list object for each invitation, and the
inner block adds it to the user's lists in `curLST`. `Hands` says that an invited
list keeps the uid object of its owner, who is not the current user, and that it is none
of the lists read from the cloud; every operation on the memory keeps it, except a
merge with an invited list in `offlineLST`.
-/

namespace ShopingList

open Addresses ListViewController FNode

/-- The lists that were made from invitations. -/
def invitedLists (m : AppData) : List ShopingListsClass := m.fetched.flatMap (·.objs)

/-- The list object was made from an invitation. -/
def Invited (m : AppData) (l : ShopingListsClass) : Prop := ∃ x ∈ invitedLists m, x.addr = l.addr

instance (m : AppData) (l : ShopingListsClass) : Decidable (Invited m l) :=
  inferInstanceAs (Decidable (∃ x ∈ invitedLists m, _))

/-- The user has another uid object than the current user. -/
def Other (m : AppData) (u : UserClass) : Prop := samePointer u.uid m.curUser.uid = false

/-- What a running process keeps of the lists; the owners in invitations that were read
satisfy `R`. -/
structure Hands (R : UserClass → Prop) (m : AppData) (o : List Observer) : Prop where
  below : ∀ l ∈ m.lists, l.addr < m.next
  invited : ∀ l ∈ m.lists, Invited m l → Other m l.listOwner ∧ R l.listOwner
  online : ∀ l ∈ elems m.onlineLST, ¬ Invited m l
  coords : ∀ c ∈ m.invitationsCoords, Other m c.listOwner ∧ R c.listOwner
  observers : ∀ ob ∈ o, Other m ob.coords.listOwner ∧ R ob.coords.listOwner

/-! ## New addresses -/

theorem addr_decodeLists {next : Nat} {ls : List ListData} {l : ShopingListsClass}
    (h : l ∈ ShopingListsClass.decodeLists next ls) :
    next ≤ l.addr ∧ l.addr < next + (ls.map ListData.size).sum := by
  induction ls generalizing next with
  | nil => cases h
  | cons d ls ih =>
    have hsize : d.size = 2 + d.listItems.length := rfl
    rw [ShopingListsClass.decodeLists] at h
    rw [List.map_cons, List.sum_cons]
    rcases List.mem_cons.1 h with rfl | h
    · show next ≤ next ∧ next < _
      omega
    · have := ih h
      omega

theorem addr_makeLists {coords : InvitationClass} {next : Nat} {found : List (List ItemData)}
    {l : ShopingListsClass} (h : l ∈ FetchInvitationnData.makeLists coords next found) :
    next ≤ l.addr ∧ l.addr < next + (found.map fun items => 1 + items.length).sum := by
  induction found generalizing next with
  | nil => cases h
  | cons items found ih =>
    rw [FetchInvitationnData.makeLists] at h
    rw [List.map_cons, List.sum_cons]
    rcases List.mem_cons.1 h with rfl | h
    · show next ≤ next ∧ next < _
      omega
    · have := ih h
      omega

theorem addr_resLists {dates : DateAlloc} {next : Nat} {listB as : List ShopingListsClass}
    {l : ShopingListsClass} (h : l ∈ CompareList.resLists dates next listB as) :
    next ≤ l.addr ∧ l.addr < next + as.length := by
  induction as generalizing next with
  | nil => cases h
  | cons a as ih =>
    rw [CompareList.resLists] at h
    rw [List.length_cons]
    rcases List.mem_cons.1 h with rfl | h
    · show next ≤ next ∧ next < _
      omega
    · have := ih h
      omega

/-- A merged list is a list of one of the inputs, or new. -/
theorem mem_merge {dates : DateAlloc} {m : AppData} {l : ShopingListsClass}
    (h : l ∈ elems (merge dates m).curLST) : l ∈ elems m.onlineLST ∨ l ∈ elems m.offlineLST ∨
      m.next < l.addr ∧ l.addr < (merge dates m).next := by
  rw [merge, elems_some, CompareList.combinedLists_eq, List.mem_append, List.mem_append] at h
  rcases h with (h | h) | h
  · exact .inl (List.mem_filter.1 h).1
  · exact .inr (.inl (List.mem_filter.1 h).1)
  · have haddr := addr_resLists h
    rw [← (CompareList.compare_left dates (m.next + 1) (elems m.onlineLST) (elems m.offlineLST)).1] at haddr
    refine .inr (.inr ⟨haddr.1, ?_⟩)
    exact haddr.2

/-! ## Invited lists -/

section
variable {R : UserClass → Prop} {m m' : AppData} {o o' : List Observer} {l : ShopingListsClass}

theorem mem_lists_of_invited (h : l ∈ invitedLists m) : l ∈ m.lists := by
  obtain ⟨a, ha, hl⟩ := List.mem_flatMap.1 h
  exact AppData.mem_lists.2 ⟨a, AppData.mem_arrays.2 (.inr (.inr (.inr (.inr ha)))), hl⟩

theorem Invited.of_fetched (hf : m'.fetched = m.fetched) (h : Invited m' l) : Invited m l := by
  unfold Invited invitedLists at h ⊢
  rwa [hf] at h

theorem invited_mapLists {f : ShopingListsClass → ShopingListsClass} (hf : ∀ x, (f x).addr = x.addr) :
    Invited (m.mapLists f) l ↔ Invited m l := by
  have hlists : invitedLists (m.mapLists f) = (invitedLists m).map f := by
    simp [invitedLists, AppData.mapLists, AppData.mapArrays, List.flatMap_map, List.map_flatMap]
  rw [Invited, Invited, hlists]
  constructor
  · rintro ⟨x, hx, he⟩
    obtain ⟨y, hy, rfl⟩ := List.mem_map.1 hx
    exact ⟨y, hy, (hf y).symm.trans he⟩
  · rintro ⟨y, hy, he⟩
    exact ⟨f y, List.mem_map_of_mem hy, (hf y).trans he⟩

/-- The arrays of own lists and of the lists from the cloud are not fetched ones. -/
theorem Arrays.ne_fetched {array : Option NSMutableArray} (ha : Arrays m o)
    (harray : array = m.curLST ∨ array = m.offlineLST ∨ array = m.onlineLST) {b : NSMutableArray}
    (hb : b ∈ m.fetched) : array.map NSMutableArray.addr ≠ some b.addr := by
  intro he
  obtain ⟨a, hc, haddr⟩ := Option.map_eq_some_iff.1 he
  subst hc
  exact ha.fetched b hb a (harray.imp Eq.symm (.imp Eq.symm Eq.symm)) haddr

theorem fetched_updateArray {array : Option NSMutableArray} (f : List ShopingListsClass → List ShopingListsClass)
    (h : ∀ b ∈ m.fetched, array.map NSMutableArray.addr ≠ some b.addr) :
    (m.updateArray array f).fetched = m.fetched := by
  refine (List.map_congr_left fun b hb => ?_).trans (List.map_id _)
  rw [if_neg (h b hb)]
  rfl

theorem Arrays.ne_online {array : Option NSMutableArray} (ha : Arrays m o)
    (harray : array = m.curLST ∨ array = m.offlineLST) {b : NSMutableArray} (hb : m.onlineLST = some b) :
    array.map NSMutableArray.addr ≠ some b.addr := by
  intro he
  obtain ⟨a, hc, haddr⟩ := Option.map_eq_some_iff.1 he
  subst hc
  exact ha.online b hb a (harray.imp Eq.symm Eq.symm) haddr

theorem online_updateArray {array : Option NSMutableArray} (f : List ShopingListsClass → List ShopingListsClass)
    (h : ∀ b, m.onlineLST = some b → array.map NSMutableArray.addr ≠ some b.addr) :
    (m.updateArray array f).onlineLST = m.onlineLST := by
  show m.onlineLST.map _ = m.onlineLST
  cases hon : m.onlineLST with
  | none => rfl
  | some b => rw [Option.map_some, if_neg (h b hon)]

/-- An invited list is an old object. -/
theorem Hands.not_invited (h : Hands R m o) (hl : m.next ≤ l.addr) : ¬ Invited m l := by
  rintro ⟨x, hx, he⟩
  have := h.below x (mem_lists_of_invited hx)
  omega

theorem Hands.imp {R' : UserClass → Prop} (h : Hands R m o) (hR : ∀ u, R u → R' u) : Hands R' m o :=
  ⟨h.below, fun l hl hi => (h.invited l hl hi).imp id (hR _), h.online, fun c hc => (h.coords c hc).imp id (hR _),
    fun ob hob => (h.observers ob hob).imp id (hR _)⟩

/-- What a turn makes of the lists: old ones with their owners, and new ones. -/
structure Grows (m m' : AppData) : Prop where
  le : m.next ≤ m'.next
  user : m'.curUser = m.curUser
  lists : ∀ l ∈ m'.lists, (∃ x ∈ m.lists, x.addr = l.addr ∧ x.listOwner = l.listOwner) ∨
    m.next ≤ l.addr ∧ l.addr < m'.next
  invited : ∀ l, Invited m' l → Invited m l
  online : ∀ l ∈ elems m'.onlineLST, (∃ x ∈ elems m.onlineLST, x.addr = l.addr) ∨ m.next ≤ l.addr
  coords : m'.invitationsCoords = m.invitationsCoords

theorem Hands.grow (h : Hands R m o) (hg : Grows m m') (ho : ∀ ob ∈ o', ob ∈ o ∨ ob.coords ∈ m.invitationsCoords) :
    Hands R m' o' := by
  have hother : ∀ u, Other m u ∧ R u → Other m' u ∧ R u := fun u hu => by rwa [Other, hg.user]
  refine ⟨fun l hl => ?_, fun l hl hi => ?_, fun l hl hi => ?_, fun c hc => ?_, fun ob hob => ?_⟩
  · rcases hg.lists l hl with ⟨x, hx, he, -⟩ | ⟨-, hlt⟩
    · exact he ▸ Nat.lt_of_lt_of_le (h.below x hx) hg.le
    · exact hlt
  · rcases hg.lists l hl with ⟨x, hx, he, howner⟩ | ⟨hle, -⟩
    · obtain ⟨y, hy, hye⟩ := hg.invited l hi
      exact hother _ (howner ▸ h.invited x hx ⟨y, hy, hye.trans he.symm⟩)
    · exact absurd (hg.invited l hi) (h.not_invited hle)
  · rcases hg.online l hl with ⟨x, hx, he⟩ | hle
    · obtain ⟨y, hy, hye⟩ := hg.invited l hi
      exact h.online x hx ⟨y, hy, hye.trans he.symm⟩
    · exact h.not_invited hle (hg.invited l hi)
  · exact hother _ (h.coords c (hg.coords ▸ hc))
  · rcases ho ob hob with hob | hob
    · exact hother _ (h.observers ob hob)
    · exact hother _ (h.coords _ hob)

theorem Grows.refl (m : AppData) : Grows m m :=
  ⟨Nat.le_refl _, rfl, fun l hl => .inl ⟨l, hl, rfl, rfl⟩, fun _ h => h, fun l hl => .inl ⟨l, hl, rfl⟩, rfl⟩

theorem Grows.trans {m'' : AppData} (h : Grows m m') (h' : Grows m' m'') : Grows m m'' := by
  refine ⟨Nat.le_trans h.le h'.le, h'.user.trans h.user, fun l hl => ?_, fun l hi => h.invited l (h'.invited l hi),
    fun l hl => ?_, h'.coords.trans h.coords⟩
  · rcases h'.lists l hl with ⟨x, hx, he, howner⟩ | ⟨hle, hlt⟩
    · rcases h.lists x hx with ⟨y, hy, he', howner'⟩ | ⟨hle, hlt⟩
      · exact .inl ⟨y, hy, he'.trans he, howner'.trans howner⟩
      · rw [he] at hle hlt
        exact .inr ⟨hle, Nat.lt_of_lt_of_le hlt h'.le⟩
    · exact .inr ⟨Nat.le_trans h.le hle, hlt⟩
  · rcases h'.online l hl with ⟨x, hx, he⟩ | hle
    · rcases h.online x hx with ⟨y, hy, he'⟩ | hle
      · exact .inl ⟨y, hy, he'.trans he⟩
      · exact .inr (he ▸ hle)
    · exact .inr (Nat.le_trans h.le hle)

/-! ## Turns -/

/-- The arrays that a property may get. -/
theorem Grows.assign (hle : m.next ≤ m'.next) (hu : m'.curUser = m.curUser) (hf : m'.fetched = m.fetched)
    (hc : m'.invitationsCoords = m.invitationsCoords)
    (ha : ∀ a ∈ m'.arrays, a ∈ m.arrays ∨
      ∀ l ∈ a.objs, l ∈ m.lists ∨ m.next ≤ l.addr ∧ l.addr < m'.next)
    (hon : ∀ l ∈ elems m'.onlineLST, l ∈ elems m.onlineLST ∨ m.next ≤ l.addr) : Grows m m' := by
  refine ⟨hle, hu, fun l hl => ?_, fun l hi => hi.of_fetched hf, fun l hl => ?_, hc⟩
  · rcases AppData.mem_lists_of_arrays ha hl with hl | hl | hl
    · exact .inl ⟨l, hl, rfl, rfl⟩
    · exact .inl ⟨l, hl, rfl, rfl⟩
    · exact .inr hl
  · exact (hon l hl).imp (fun hl => ⟨l, hl, rfl⟩) id

theorem grows_collect (m : AppData) : Grows m (WriteDataToDisk.collect m) := by
  refine .assign (Nat.le_succ _) rfl rfl rfl (fun a ha => ?_) fun l hl => .inl hl
  rcases AppData.mem_arrays_offlineLST ha with ha | ha
  · exact .inl ha
  · cases ha
    exact .inr fun l hl => .inl (AppData.mem_lists_curLST (List.mem_filter.1 hl).1)

theorem grows_readDisk (f : Files) (m : AppData) : Grows m (ReadDataFromDisk.readData f m) := by
  unfold ReadDataFromDisk.readData
  split
  · rename_i lists _
    refine .assign (by show m.next ≤ m.next + 1 + _; omega) rfl rfl rfl (fun a ha => ?_) fun l hl => .inl hl
    rcases AppData.mem_arrays_offlineLST ha with ha | ha
    · exact .inl ha
    · cases ha
      refine .inr fun l hl => .inr ?_
      have := addr_decodeLists hl
      show m.next ≤ l.addr ∧ l.addr < m.next + 1 + _
      omega
  · exact .refl m

theorem grows_own (m : AppData) : Grows m { m with curLST := m.offlineLST } := by
  refine .assign (Nat.le_refl _) rfl rfl rfl (fun a ha => .inl ?_) fun l hl => .inl hl
  rcases AppData.mem_arrays_curLST ha with ha | ha
  · exact ha
  · exact AppData.mem_arrays.2 (.inr (.inl ha))

theorem grows_readCallback {order : DictOrder} {snapshot : FNode}
    (h : ReadDataFromCloud.callback order snapshot m = .ok m') : Grows m m' := by
  obtain rfl | ⟨lists, -, rfl⟩ := readCallback_ok h
  · exact .refl _
  · have haddr : ∀ l ∈ ShopingListsClass.decodeLists (m.next + 1) lists,
        m.next ≤ l.addr ∧ l.addr < m.next + 1 + (lists.map ListData.size).sum := by
      intro l hl
      have := addr_decodeLists hl
      omega
    refine .assign (by show m.next ≤ m.next + 1 + _; omega) rfl rfl rfl (fun a ha => ?_)
      fun l hl => .inr (haddr l hl).1
    rcases AppData.mem_arrays_onlineLST ha with ha | ha
    · exact .inl ha
    · cases ha
      exact .inr fun l hl => .inr (haddr l hl)

/-- A change of `curLST` that adds known or new lists. -/
theorem grows_updateArray {f : List ShopingListsClass → List ShopingListsClass} {n : Nat} (ha : Arrays m o)
    (hn : m.next ≤ n) (hf : ∀ objs, ∀ x ∈ f objs, x ∈ objs ∨ x ∈ m.lists ∨ m.next ≤ x.addr ∧ x.addr < n) :
    Grows m { m.updateArray m.curLST f with next := n } := by
  have hfetched := fetched_updateArray f fun b hb => ha.ne_fetched (.inl rfl) hb
  refine ⟨hn, rfl, fun l hl => ?_, fun l hi => hi.of_fetched hfetched, fun l hl => .inl ⟨l, ?_, rfl⟩, rfl⟩
  · rcases AppData.mem_lists_updateArray hf hl with hl | hl | hl
    · exact .inl ⟨l, hl, rfl, rfl⟩
    · exact .inl ⟨l, hl, rfl, rfl⟩
    · exact .inr hl
  · exact online_updateArray f (fun b hb => ha.ne_online (.inl rfl) hb) ▸ hl

theorem grows_removeObject (ha : Arrays m o) (l : ShopingListsClass) :
    Grows m (m.updateArray m.curLST (CompareList.removeObject l)) :=
  grows_updateArray ha (Nat.le_refl _) fun _ _ hx => .inl (CompareList.mem_removeObject.1 hx).1

theorem grows_append (ha : Arrays m o) : Grows m (m.updateArray m.curLST (· ++ elems m.invitationLST)) := by
  refine grows_updateArray (f := (· ++ elems m.invitationLST)) ha (Nat.le_refl _) fun objs x hx => ?_
  rcases List.mem_append.1 hx with hx | hx
  · exact .inl hx
  · exact .inr (.inl (AppData.mem_lists_of_elems
      (fun a ha => AppData.mem_arrays.2 (.inr (.inr (.inr (.inl ha))))) hx))

theorem grows_newList (ha : Arrays m o) (text : String) : Grows m (withNewList text m) := by
  refine grows_updateArray ha (Nat.le_succ _) fun objs x hx => ?_
  rcases List.mem_append.1 hx with hx | hx
  · exact .inl hx
  · rw [List.mem_singleton.1 hx]
    exact .inr (.inr ⟨Nat.le_refl _, Nat.lt_succ_self _⟩)

theorem grows_prepare (ha : Arrays m o) (now : Moment) : Grows m (PrepareFirstLists.prepare now m) := by
  refine grows_updateArray ha (Nat.le_add_right _ _) fun objs x hx => ?_
  rcases List.mem_append.1 hx with hx | hx
  · exact .inl hx
  · rw [List.mem_singleton.1 hx]
    exact .inr (.inr ⟨Nat.le_succ _, Nat.lt_succ_self _⟩)

/-- An assignment that keeps addresses and owners. -/
theorem grows_mapLists {f : ShopingListsClass → ShopingListsClass} {n : Nat} (hn : m.next ≤ n)
    (haddr : ∀ x, (f x).addr = x.addr) (howner : ∀ x, (f x).listOwner = x.listOwner) :
    Grows m { m.mapLists f with next := n } := by
  refine ⟨hn, rfl, fun l hl => ?_, fun l hi => (invited_mapLists haddr).1 hi, fun l hl => ?_, rfl⟩
  · obtain ⟨x, hx, rfl⟩ := AppData.mem_lists_mapLists.1 hl
    exact .inl ⟨x, hx, (haddr x).symm, (howner x).symm⟩
  · have hl' : l ∈ elems (m.mapLists f).onlineLST := hl
    rw [AppData.mapLists_onlineLST] at hl'
    obtain ⟨x, hx, rfl⟩ := List.mem_map.1 hl'
    exact .inl ⟨x, hx, (haddr x).symm⟩

theorem grows_assignList (l : ShopingListsClass) (items : List ItemClass) {n : Nat} (hn : m.next ≤ n) :
    Grows m { m.assignList l { l with listItems := items } with next := n } := by
  refine grows_mapLists hn (fun x => ?_) fun x => ?_
  · split
    · rename_i he
      rw [he]
    · rfl
  · split
    · rename_i he
      rw [he]
    · rfl

theorem grows_merge (ha : Arrays m o) (dates : DateAlloc) : Grows m (merge dates m) := by
  let result := CompareList.compare dates (m.next + 1) (elems m.onlineLST) (elems m.offlineLST)
  obtain ⟨hA, hB⟩ := CompareList.compare_left dates (m.next + 1) (elems m.onlineLST) (elems m.offlineLST)
  have hon : ∀ l ∈ elems m.onlineLST, l ∈ m.lists := fun l hl =>
    AppData.mem_lists_of_elems (fun a ha => AppData.mem_arrays.2 (.inr (.inr (.inl ha)))) hl
  have hoff : ∀ l ∈ elems m.offlineLST, l ∈ m.lists := fun l hl =>
    AppData.mem_lists_of_elems (fun a ha => AppData.mem_arrays.2 (.inr (.inl ha))) hl
  have hfetched : ((m.updateArray m.onlineLST fun _ => result.listA).updateArray m.offlineLST
      fun _ => result.listB).fetched = m.fetched := by
    have hone := fetched_updateArray (fun _ => result.listA) fun b hb => ha.ne_fetched (.inr (.inr rfl)) hb
    rw [fetched_updateArray _ fun b hb => ha.ne_fetched (.inr (.inl rfl)) (hone ▸ hb), hone]
  refine ⟨by show m.next ≤ m.next + 1 + _; omega, rfl, fun l hl => ?_, fun l hi => hi.of_fetched hfetched,
    fun l hl => .inl ⟨l, ?_, rfl⟩, rfl⟩
  · have hnew : ∀ a ∈ (merge dates m).arrays, a ∈ ((m.updateArray m.onlineLST fun _ => result.listA).updateArray
        m.offlineLST fun _ => result.listB).arrays ∨ ∀ x ∈ a.objs, x ∈ elems (merge dates m).curLST := by
      intro a ha
      rcases AppData.mem_arrays_curLST ha with ha | ha
      · exact .inl ha
      · cases ha
        exact .inr fun x hx => hx
    have hold : ∀ x ∈ m.lists, (∃ y ∈ m.lists, y.addr = x.addr ∧ y.listOwner = x.listOwner) ∨
        m.next ≤ x.addr ∧ x.addr < (merge dates m).next := fun x hx => .inl ⟨x, hx, rfl, rfl⟩
    rcases AppData.mem_lists_of_arrays hnew hl with hl | hl
    · rcases AppData.mem_lists_updateArray (P := (· ∈ m.lists))
        (fun _ x hx => .inr (hoff x (List.mem_filter.1 (hB ▸ hx)).1)) hl with hl | hl
      · rcases AppData.mem_lists_updateArray (P := (· ∈ m.lists))
          (fun _ x hx => .inr (hon x (List.mem_filter.1 (hA ▸ hx)).1)) hl with hl | hl
        · exact hold l hl
        · exact hold l hl
      · exact hold l hl
    · rcases mem_merge hl with hl | hl | ⟨hlt, hlt'⟩
      · exact hold l (hon l hl)
      · exact hold l (hoff l hl)
      · exact .inr ⟨Nat.le_of_lt hlt, hlt'⟩
  · have hl' : l ∈ elems ((m.updateArray m.onlineLST fun _ => result.listA).updateArray m.offlineLST
        fun _ => result.listB).onlineLST := hl
    have hne : ∀ b, (m.updateArray m.onlineLST fun _ => result.listA).onlineLST = some b →
        m.offlineLST.map NSMutableArray.addr ≠ some b.addr := by
      intro b hb
      obtain ⟨b', hb', rfl⟩ := Option.map_eq_some_iff.1 hb
      have := ha.ne_online (.inr rfl) hb'
      split <;> exact this
    have hone : l ∈ elems (m.updateArray m.onlineLST fun _ => result.listA).onlineLST :=
      online_updateArray (fun _ => result.listB) hne ▸ hl'
    rcases AppData.elems_updated m.onlineLST m.onlineLST (fun _ => result.listA) with e | e
    · have hl := e ▸ hone
      exact (List.mem_filter.1 (hA ▸ hl)).1
    · exact e ▸ hone

/-- The array of a new fetch. -/
theorem grows_fetched (m : AppData) :
    Grows m { m with fetched := m.fetched ++ [⟨m.next, []⟩], next := m.next + 1 } := by
  have hlists : ∀ a ∈ ({ m with fetched := m.fetched ++ [⟨m.next, []⟩], next := m.next + 1 } : AppData).arrays,
      a ∈ m.arrays ∨ ∀ l ∈ a.objs, l ∈ m.lists := by
    intro a ha
    rw [AppData.mem_arrays] at ha ⊢
    simp only [List.mem_append, List.mem_singleton] at ha
    rcases ha with ha | ha | ha | ha | ha | rfl
    · exact .inl (.inl ha)
    · exact .inl (.inr (.inl ha))
    · exact .inl (.inr (.inr (.inl ha)))
    · exact .inl (.inr (.inr (.inr (.inl ha))))
    · exact .inl (.inr (.inr (.inr (.inr ha))))
    · exact .inr fun l hl => by cases hl
  refine ⟨Nat.le_succ _, rfl, fun l hl => ?_, fun l hi => ?_, fun l hl => .inl ⟨l, hl, rfl⟩, rfl⟩
  · rcases AppData.mem_lists_of_arrays hlists hl with hl | hl
    · exact .inl ⟨l, hl, rfl, rfl⟩
    · exact .inl ⟨l, hl, rfl, rfl⟩
  · obtain ⟨x, hx, he⟩ := hi
    refine ⟨x, ?_, he⟩
    simpa [invitedLists] using hx

/-- Lists that are not invited get another owner. -/
theorem Hands.mapLists_owner (h : Hands R m o) {p : ShopingListsClass → Prop} [DecidablePred p] (u : UserClass)
    (hp : ∀ x ∈ m.lists, p x → ¬ Invited m x) : Hands R (m.mapLists fun x => if p x then x.withOwner u else x) o := by
  have haddr : ∀ x : ShopingListsClass, (if p x then x.withOwner u else x).addr = x.addr := by
    intro x
    split <;> rfl
  refine ⟨fun l hl => ?_, fun l hl hi => ?_, fun l hl hi => ?_, h.coords, h.observers⟩
  · obtain ⟨x, hx, rfl⟩ := AppData.mem_lists_mapLists.1 hl
    exact (haddr x).symm ▸ h.below x hx
  · obtain ⟨x, hx, rfl⟩ := AppData.mem_lists_mapLists.1 hl
    obtain ⟨y, hy, he⟩ := (invited_mapLists haddr).1 hi
    have hix : Invited m x := ⟨y, hy, he.trans (haddr x)⟩
    rw [if_neg fun hpx => hp x hx hpx hix]
    exact h.invited x hx hix
  · rw [AppData.mapLists_onlineLST] at hl
    obtain ⟨x, hx, rfl⟩ := List.mem_map.1 hl
    obtain ⟨y, hy, he⟩ := (invited_mapLists haddr).1 hi
    exact h.online x hx ⟨y, hy, he.trans (haddr x)⟩

/-- After a merge of lists of the user's own, none of the merged lists is an invited one. -/
theorem not_invited_merge (h : Hands R m o) (hoff : ∀ l ∈ elems m.offlineLST, ¬ Invited m l)
    (dates : DateAlloc) (hl : l ∈ elems (merge dates m).curLST) : ¬ Invited m l := by
  rcases mem_merge hl with hl | hl | ⟨hlt, -⟩
  · exact h.online l hl
  · exact hoff l hl
  · exact h.not_invited (Nat.le_of_lt hlt)

theorem hands_ownedMerge (h : Hands R m o) (ha : Arrays m o) (hoff : ∀ l ∈ elems m.offlineLST, ¬ Invited m l)
    (dates : DateAlloc) : Hands R (ownedMerge dates m) o := by
  have hg := grows_merge ha dates
  refine Hands.mapLists_owner (h.grow hg fun ob hob => .inl hob) m.curUser fun x _ hx hi => ?_
  exact not_invited_merge h hoff dates hx (hg.invited x hi)

/-- The uid object of a new user is none of the old ones. -/
theorem other_new {u v : UserClass} {text : String} (hs : Strings m o) (hv : v ∈ users m o)
    (hu : u.uid = some ⟨m.next, text⟩) : samePointer v.uid u.uid = false := by
  rw [hu]
  cases hx : v.uid with
  | none => rfl
  | some x =>
    have := hs.lt x ⟨v, hv, hx⟩
    simp only [samePointer, Option.map_some, beq_eq_false_iff_ne, ne_eq, Option.some.injEq]
    omega

theorem Hands.newUser {u : UserClass} {text : String} (h : Hands R m o) (hs : Strings m o)
    (hu : u.uid = some ⟨m.next, text⟩) : Hands R { m with curUser := u, next := m.next + 1 } o :=
  ⟨fun l hl => Nat.lt_succ_of_lt (h.below l hl),
    fun l hl hi => ⟨other_new hs (mem_users_list hl) hu, (h.invited l hl hi).2⟩, h.online,
    fun c hc => ⟨other_new hs (mem_users_coords hc) hu, (h.coords c hc).2⟩,
    fun ob hob => ⟨other_new hs (mem_users_observer hob) hu, (h.observers ob hob).2⟩⟩

theorem hands_setWithName (h : Hands R m o) (hs : Strings m o) (n e : Option String) (uid : String) :
    Hands R (SetTheUser.setWithName n e uid m) o := by
  refine Hands.mapLists_owner (p := (· ∈ (elems m.curLST).filter fun any =>
    samePointer any.listOwner.uid m.curUser.uid)) (h.newUser hs (u := ⟨n, e, some ⟨m.next, uid⟩⟩) rfl) _
    fun x hx hmine hi => ?_
  have hother := (h.invited x hx hi).1
  rw [Other, (List.mem_filter.1 hmine).2] at hother
  cases hother

theorem hands_readUser (h : Hands R m o) (hs : Strings m o) {f : Files} {u : UserData} (hu : f.userPlist = some u)
    (huid : u.uid.isSome = true) : Hands R (ReadUserFromDisk.read f m) o := by
  obtain ⟨text, ht⟩ := Option.isSome_iff_exists.1 huid
  have hnew : (UserClass.initWithCoder m.next u).uid = some ⟨m.next, text⟩ := by
    rw [UserClass.initWithCoder, ht]
    rfl
  simp only [ReadUserFromDisk.read, hu]
  exact h.newUser hs hnew

theorem hands_coordsCallback (h : Hands R m o) (hs : Strings m o) (huid : m.curUser.uid.isSome = true)
    {order : DictOrder} {snapshot : FNode} (hm : ReadInvitations.callback order snapshot m = .ok m')
    (hR : m.next < m'.next → ∀ c ∈ m'.invitationsCoords, R c.listOwner) : Hands R m' o := by
  obtain rfl | ⟨values, coords, hcoords, rfl⟩ := coordsCallback_ok hm
  · exact h
  · refine ⟨fun l hl => Nat.lt_of_lt_of_le (h.below l hl) (Nat.le_add_right _ _), h.invited, h.online,
      fun c hc => ?_, h.observers⟩
    obtain ⟨uid, hu⟩ := Option.isSome_iff_exists.1 huid
    have hlt := hs.lt uid ⟨m.curUser, mem_users_curUser, hu⟩
    have hpos : 0 < coords.length := List.length_pos_of_mem hc
    refine ⟨?_, hR (by show m.next < m.next + coords.length; omega) c hc⟩
    show samePointer c.listOwner.uid m.curUser.uid = false
    rw [hu]
    cases hx : c.listOwner.uid with
    | none => rfl
    | some x =>
      have hge := (allocated_readAll hcoords).ge x ⟨c.listOwner, ⟨c, hc, rfl⟩, hx⟩
      simp only [samePointer, Option.map_some, beq_eq_false_iff_ne, ne_eq, Option.some.injEq]
      omega

/-- The lists after a fetch: those of before, and new ones. -/
theorem mem_lists_fill {fetchedArr n : Nat} {news : List ShopingListsClass}
    (hl : l ∈ AppData.lists { m.mapArrays (fun b =>
          if b.addr = fetchedArr then { b with objs := b.objs ++ news } else b) with
        invitationLST := (m.mapArrays fun b =>
          if b.addr = fetchedArr then { b with objs := b.objs ++ news } else b).fetched.find?
            fun b => b.addr = fetchedArr
        next := n }) : l ∈ m.lists ∨ l ∈ news := by
  obtain ⟨a, ha, hla⟩ := AppData.mem_lists.1 hl
  obtain ⟨b, hb, hlb⟩ := AppData.mem_lists_mapArrays.1
    (AppData.mem_lists.2 ⟨a, AppData.mem_arrays_invitationLST ha, hla⟩)
  split at hlb
  · exact (List.mem_append.1 hlb).imp (fun hl => AppData.mem_lists.2 ⟨b, hb, hl⟩) id
  · exact .inl (AppData.mem_lists.2 ⟨b, hb, hlb⟩)

theorem hands_notify (h : Hands R m o) (ha : Arrays m o) {order : DictOrder} {sameString : String → Bool}
    {ob : Observer} (hob : ob ∈ o) {snapshot : FNode}
    (hm : FetchInvitationnData.block order sameString ob.coords ob.fetchedArr snapshot m = .ok m') :
    Hands R m' o := by
  obtain rfl | ⟨found, rfl⟩ := fetchBlock_ok hm
  · exact h
  · let news := FetchInvitationnData.makeLists ob.coords m.next found
    let g : NSMutableArray → NSMutableArray := fun b =>
      if b.addr = ob.fetchedArr then { b with objs := b.objs ++ news } else b
    have hg : ∀ b, ∀ l ∈ (g b).objs, l ∈ b.objs ∨ l ∈ news := by
      intro b l hl
      simp only [g] at hl
      split at hl
      · exact List.mem_append.1 hl
      · exact .inl hl
    have haddr : ∀ l ∈ news, m.next ≤ l.addr ∧ l.addr < m.next + (found.map fun items => 1 + items.length).sum :=
      fun l hl => addr_makeLists hl
    have hlists : ∀ l, l ∈ AppData.lists { m.mapArrays g with
        invitationLST := (m.mapArrays g).fetched.find? fun b => b.addr = ob.fetchedArr
        next := m.next + (found.map fun items => 1 + items.length).sum } → l ∈ m.lists ∨ l ∈ news :=
      fun l hl => mem_lists_fill hl
    have hinv : ∀ l, Invited { m.mapArrays g with
        invitationLST := (m.mapArrays g).fetched.find? fun b => b.addr = ob.fetchedArr
        next := m.next + (found.map fun items => 1 + items.length).sum } l →
          Invited m l ∨ m.next ≤ l.addr := by
      rintro l ⟨x, hx, he⟩
      obtain ⟨a, ha, hxa⟩ := List.mem_flatMap.1 hx
      obtain ⟨b, hb, rfl⟩ := List.mem_map.1 ha
      rcases hg b x hxa with hx | hx
      · exact .inl ⟨x, List.mem_flatMap.2 ⟨b, hb, hx⟩, he⟩
      · exact .inr (he ▸ (haddr x hx).1)
    refine ⟨fun l hl => ?_, fun l hl hi => ?_, fun l hl hi => ?_, h.coords, h.observers⟩
    · rcases hlists l hl with hl | hl
      · exact Nat.lt_of_lt_of_le (h.below l hl) (Nat.le_add_right _ _)
      · exact (haddr l hl).2
    · rcases hlists l hl with hl | hl
      · have hlt := h.below l hl
        exact h.invited l hl ((hinv l hi).resolve_right (by omega))
      · rw [owner_makeLists hl]
        exact h.observers ob hob
    · have hl' : l ∈ elems m.onlineLST := by
        have hl' : l ∈ elems (m.onlineLST.map g) := hl
        rwa [show m.onlineLST.map g = m.onlineLST from ha.map_fill hob news (.inr (.inr rfl))] at hl'
      have hlt := h.below l (AppData.mem_lists_of_elems (fun a ha => AppData.mem_arrays.2 (.inr (.inr (.inl ha)))) hl')
      exact h.online l hl' ((hinv l hi).resolve_right (by omega))

end

/-! ## Addresses of lists -/

/-- Every list lies below the bound of the addresses. -/
def Below (m : AppData) : Prop := ∀ l ∈ m.lists, l.addr < m.next

section
variable {m m' : AppData} {o : List Observer} {f f' : Files} {now : Moment}

theorem Below.grow (h : Below m) (hg : Grows m m') : Below m' := by
  intro l hl
  rcases hg.lists l hl with ⟨x, hx, he, -⟩ | ⟨-, hlt⟩
  · exact he ▸ Nat.lt_of_lt_of_le (h x hx) hg.le
  · exact hlt

theorem Below.newUser (h : Below m) (u : UserClass) {n : Nat} (hn : m.next ≤ n) :
    Below { m with curUser := u, next := n } :=
  fun l hl => Nat.lt_of_lt_of_le (h l hl) hn

theorem Below.mapLists {g : ShopingListsClass → ShopingListsClass} (h : Below m)
    (haddr : ∀ x, (g x).addr = x.addr) : Below (m.mapLists g) := by
  intro l hl
  obtain ⟨x, hx, rfl⟩ := AppData.mem_lists_mapLists.1 hl
  exact (haddr x).symm ▸ h x hx

theorem below_writes (h : Below m) (hw : Writes m f m' f') : Below m' := by
  cases hw
  exact h.grow (grows_collect m)

theorem below_readsData (h : Below m) (ha : Arrays m o) (hr : ReadsData now f m m' f') : Below m' := by
  have hread : Below (ReadUserFromDisk.read f m) := by
    unfold ReadUserFromDisk.read
    split
    · exact h.newUser _ (Nat.le_succ _)
    · exact h
  have hone : Below (readDisk now f m).1 := by
    simp only [readDisk]
    split
    · have harrays : Arrays { ReadUserFromDisk.read f m with curUser := defaultUser } o :=
        (arrays_readUser ha f).other (Nat.le_refl _)
      exact ((hread.newUser defaultUser (Nat.le_refl _)).grow (grows_prepare harrays now)).grow (grows_collect _)
    · exact (hread.grow (grows_readDisk f _)).grow (grows_own _)
  cases hr with
  | once => exact hone
  | twice => exact hone.grow (grows_readDisk _ _)

theorem below_ownedMerge (h : Below m) (ha : Arrays m o) (dates : DateAlloc) : Below (ownedMerge dates m) := by
  refine (h.grow (grows_merge ha dates)).mapLists fun x => ?_
  split <;> rfl

theorem below_setWithName (h : Below m) (n e : Option String) (uid : String) :
    Below (SetTheUser.setWithName n e uid m) := by
  have hown : Below (m.mapLists fun any => if any ∈ (elems m.curLST).filter fun any =>
      samePointer any.listOwner.uid m.curUser.uid then
        { any with listOwner := ⟨n, e, some ⟨m.next, uid⟩⟩ } else any) := by
    refine h.mapLists fun x => ?_
    split <;> rfl
  exact hown.newUser _ (Nat.le_succ _)

theorem below_notify (h : Below m) {order : DictOrder} {sameString : String → Bool} {coords : InvitationClass}
    {fetchedArr : Nat} {snapshot : FNode}
    (hm : FetchInvitationnData.block order sameString coords fetchedArr snapshot m = .ok m') : Below m' := by
  obtain rfl | ⟨found, rfl⟩ := fetchBlock_ok hm
  · exact h
  · intro l hl
    rcases mem_lists_fill hl with hl | hl
    · exact Nat.lt_of_lt_of_le (h l hl) (Nat.le_add_right _ _)
    · exact (addr_makeLists hl).2

theorem below_init : Below AppData.init := by
  intro l hl
  cases hl

/-- **New lists get new addresses.** -/
theorem below_outcome {s : Sys} {a : Action} (h : Below s.mem) (ha : Arrays s.mem s.observers)
    (ho : Outcome s a m f o) : Below m := by
  cases ho with
  | same => exact h
  | launch hr => exact below_readsData below_init arrays_init hr
  | login hr => exact below_readsData h ha hr
  | newList hw => exact below_writes (h.grow (grows_newList ha _)) hw
  | deleteOwn hl hown hw => exact below_writes (h.grow (grows_removeObject ha _)) hw
  | reject hl hown => exact h.grow (grows_removeObject ha _)
  | write hw => exact below_writes h hw
  | addItem hl hw => exact below_writes (h.grow (grows_assignList _ _ (Nat.le_succ _))) hw
  | toggleItem hl hi hw => exact below_writes (m := s.mem.assignItem _ _) (h.mapLists fun _ => rfl) hw
  | deleteItem hl hi hw => exact below_writes (h.grow (grows_assignList _ _ (Nat.le_refl _))) hw
  | readCallback hk hm => exact h.grow (grows_readCallback hm)
  | mergeBlock hk hw => exact below_writes (below_ownedMerge h ha _) hw
  | fetched hk hw => exact (below_writes (below_ownedMerge h ha _) hw).grow (grows_fetched _)
  | coordsCallback hk hm =>
    obtain rfl | ⟨values, coords, -, rfl⟩ := coordsCallback_ok hm
    · exact h
    · exact fun l hl => Nat.lt_of_lt_of_le (h l hl) (Nat.le_add_right _ _)
  | appendBlock hk => exact h.grow (grows_append ha)
  | loginBlock hk hr => exact below_readsData (below_setWithName h _ _ _) (arrays_setWithName ha _ _ _) hr
  | registerBlock hk => exact below_setWithName h _ _ _
  | notify hk hm => exact below_notify h hm

end

end ShopingList
