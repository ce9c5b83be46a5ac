import ShopingList.Lib.Addresses
import ShopingList.Classes.MergeResult
import ShopingList.App.Outcomes

/-!
# The memory of a running app

What every turn keeps of the objects in memory. `Strings`: a uid string is known
by its address, so that equal pointers hold equal texts. `Arrays`: an array is known
by its address, and the arrays of own lists, of the lists read from the cloud and of the
fetched invitations are different ones. `strings_outcome` and `arrays_outcome`
say it of the outcomes of a turn.
-/

namespace ShopingList

open Addresses ListViewController FNode

namespace AppData

/-- All references to arrays. -/
def arrays (m : AppData) : List NSMutableArray :=
  m.curLST.toList ++ m.offlineLST.toList ++ m.onlineLST.toList ++ m.invitationLST.toList ++ m.fetched

/-- All references to lists. -/
def lists (m : AppData) : List ShopingListsClass := m.arrays.flatMap (·.objs)

theorem arrays_mapArrays (f : NSMutableArray → NSMutableArray) (m : AppData) :
    (m.mapArrays f).arrays = m.arrays.map f := by
  simp [arrays, mapArrays, Option.toList_map]

theorem mem_lists {m : AppData} {l : ShopingListsClass} : l ∈ m.lists ↔ ∃ a ∈ m.arrays, l ∈ a.objs :=
  List.mem_flatMap

theorem mem_arrays {m : AppData} {a : NSMutableArray} : a ∈ m.arrays ↔ m.curLST = some a ∨
    m.offlineLST = some a ∨ m.onlineLST = some a ∨ m.invitationLST = some a ∨ a ∈ m.fetched := by
  simp only [arrays, List.mem_append, Option.mem_toList, or_assoc]

/-- After an assignment to a property the arrays are the old ones and the assigned one. -/
theorem mem_arrays_offlineLST {m : AppData} {b : Option NSMutableArray} {n : Nat} {a : NSMutableArray}
    (h : a ∈ ({ m with offlineLST := b, next := n } : AppData).arrays) : a ∈ m.arrays ∨ b = some a := by
  rw [mem_arrays] at h ⊢
  tauto

theorem mem_arrays_onlineLST {m : AppData} {b : Option NSMutableArray} {n : Nat} {a : NSMutableArray}
    (h : a ∈ ({ m with onlineLST := b, next := n } : AppData).arrays) : a ∈ m.arrays ∨ b = some a := by
  rw [mem_arrays] at h ⊢
  tauto

theorem mem_arrays_curLST {m : AppData} {b : Option NSMutableArray} {n : Nat} {a : NSMutableArray}
    (h : a ∈ ({ m with curLST := b, next := n } : AppData).arrays) : a ∈ m.arrays ∨ b = some a := by
  rw [mem_arrays] at h ⊢
  tauto

/-- `invitationLST` becomes one of the fetched arrays. -/
theorem mem_arrays_invitationLST {m : AppData} {p : NSMutableArray → Bool} {n : Nat} {a : NSMutableArray}
    (h : a ∈ ({ m with invitationLST := m.fetched.find? p, next := n } : AppData).arrays) : a ∈ m.arrays := by
  rw [mem_arrays] at h ⊢
  rcases h with h | h | h | h | h
  · exact .inl h
  · exact .inr (.inl h)
  · exact .inr (.inr (.inl h))
  · exact .inr (.inr (.inr (.inr (List.mem_of_find?_eq_some h))))
  · exact .inr (.inr (.inr (.inr h)))

theorem mem_lists_of_arrays {m m' : AppData} {l : ShopingListsClass} {P : ShopingListsClass → Prop}
    (ha : ∀ a ∈ m'.arrays, a ∈ m.arrays ∨ ∀ x ∈ a.objs, P x) (h : l ∈ m'.lists) : l ∈ m.lists ∨ P l := by
  obtain ⟨a, ham, hl⟩ := mem_lists.1 h
  rcases ha a ham with ham | hP
  · exact .inl (mem_lists.2 ⟨a, ham, hl⟩)
  · exact .inr (hP l hl)

theorem mem_lists_of_elems {m : AppData} {array : Option NSMutableArray} {l : ShopingListsClass}
    (ha : ∀ a, array = some a → a ∈ m.arrays) (h : l ∈ elems array) : l ∈ m.lists := by
  cases array with
  | none => cases h
  | some a => exact mem_lists.2 ⟨a, ha a rfl, h⟩

theorem mem_lists_curLST {m : AppData} {l : ShopingListsClass} (h : l ∈ elems m.curLST) : l ∈ m.lists :=
  mem_lists_of_elems (fun _ ha => mem_arrays.2 (.inl ha)) h

theorem mem_lists_mapArrays {f : NSMutableArray → NSMutableArray} {m : AppData} {l : ShopingListsClass} :
    l ∈ (m.mapArrays f).lists ↔ ∃ a ∈ m.arrays, l ∈ (f a).objs := by
  rw [mem_lists, arrays_mapArrays]
  simp

theorem mem_lists_mapLists {f : ShopingListsClass → ShopingListsClass} {m : AppData}
    {l : ShopingListsClass} : l ∈ (m.mapLists f).lists ↔ ∃ x ∈ m.lists, f x = l := by
  rw [mapLists, mem_lists_mapArrays]
  simp only [List.mem_map, mem_lists]
  constructor
  · rintro ⟨a, ha, x, hx, rfl⟩
    exact ⟨x, ⟨a, ha, hx⟩, rfl⟩
  · rintro ⟨x, ⟨a, ha, hx⟩, rfl⟩
    exact ⟨a, ha, x, hx, rfl⟩

/-- A change of one array brings in the objects that it adds. -/
theorem mem_lists_updateArray {array : Option NSMutableArray}
    {f : List ShopingListsClass → List ShopingListsClass} {m : AppData} {l : ShopingListsClass}
    {P : ShopingListsClass → Prop} (hf : ∀ objs, ∀ x ∈ f objs, x ∈ objs ∨ P x)
    (h : l ∈ (m.updateArray array f).lists) : l ∈ m.lists ∨ P l := by
  rw [updateArray, mem_lists_mapArrays] at h
  obtain ⟨a, ha, hl⟩ := h
  split at hl
  · rcases hf _ l hl with hl | hl
    · exact .inl (mem_lists.2 ⟨a, ha, hl⟩)
    · exact .inr hl
  · exact .inl (mem_lists.2 ⟨a, ha, hl⟩)

end AppData

/-! ## Callbacks -/

section
variable {order : DictOrder} {snapshot : FNode} {m m' : AppData}

/-- The callback of a read replaces `onlineLST` or changes nothing. -/
theorem readCallback_ok (h : ReadDataFromCloud.callback order snapshot m = .ok m') : m' = m ∨
    ∃ lists, ReadDataFromCloud.readLists order snapshot = .ok lists ∧ m' = { m with
      onlineLST := some ⟨m.next, ShopingListsClass.decodeLists (m.next + 1) lists⟩
      next := m.next + 1 + (lists.map ListData.size).sum } := by
  unfold ReadDataFromCloud.callback at h
  split at h
  · obtain ⟨lists, hlists, h⟩ := Raising.bind_ok_iff.1 h
    cases h
    exact .inr ⟨lists, hlists, rfl⟩
  · cases h
    exact .inl rfl

/-- The callback of the coordinates replaces them or changes nothing. -/
theorem coordsCallback_ok (h : ReadInvitations.callback order snapshot m = .ok m') : m' = m ∨
    ∃ values coords, ReadInvitations.readAll m.next values = .ok coords ∧
      m' = { m with invitationsCoords := coords, next := m.next + coords.length } := by
  unfold ReadInvitations.callback at h
  split at h
  · obtain ⟨dic, -, h⟩ := Raising.bind_ok_iff.1 h
    cases dic with
    | none =>
      cases h
      exact .inl rfl
    | some dic =>
      obtain ⟨values, -, h⟩ := Raising.bind_ok_iff.1 h
      obtain ⟨coords, hcoords, h⟩ := Raising.bind_ok_iff.1 h
      cases h
      exact .inr ⟨values, coords, hcoords, rfl⟩
  · cases h
    exact .inl rfl

/-- An observer adds the lists that it makes to its array, which becomes `invitationLST`. -/
theorem fetchBlock_ok {sameString : String → Bool} {coords : InvitationClass} {fetchedArr : Nat}
    (h : FetchInvitationnData.block order sameString coords fetchedArr snapshot m = .ok m') : m' = m ∨
    ∃ found : List (List ItemData), m' = { m.mapArrays fun b => if b.addr = fetchedArr then
          { b with objs := b.objs ++ FetchInvitationnData.makeLists coords m.next found } else b with
        invitationLST := (m.mapArrays fun b => if b.addr = fetchedArr then
          { b with objs := b.objs ++ FetchInvitationnData.makeLists coords m.next found } else b).fetched.find?
            fun b => b.addr = fetchedArr
        next := m.next + (found.map fun items => 1 + items.length).sum } := by
  unfold FetchInvitationnData.block at h
  split at h
  · obtain ⟨values, -, h⟩ := Raising.bind_ok_iff.1 h
    obtain ⟨found, -, h⟩ := Raising.bind_ok_iff.1 h
    simp only at h
    split at h
    · cases h
      exact .inl rfl
    · cases h
      exact .inr ⟨found, rfl⟩
  · cases h
    exact .inl rfl

end

/-! ## Strings -/

/-- The users that the memory refers to; the literal `defUid` is there from the start. -/
def users (m : AppData) (o : List Observer) : Set UserClass :=
  {u | u = defaultUser ∨ u = m.curUser ∨ (∃ l ∈ m.lists, l.listOwner = u) ∨
    (∃ c ∈ m.invitationsCoords, c.listOwner = u) ∨ ∃ ob ∈ o, ob.coords.listOwner = u}

/-- The uids of the users. -/
def uids (U : Set UserClass) : Set NSString := {t | ∃ u ∈ U, u.uid = some t}

/-- A uid string is known by its address. -/
def Strings (m : AppData) (o : List Observer) : Prop :=
  Addressed NSString.addr m.next (uids (users m o))

theorem uids_union (U V : Set UserClass) : uids (U ∪ V) = uids U ∪ uids V := by
  ext t
  simp only [uids, Set.mem_ofPred_eq, Set.mem_union]
  constructor
  · rintro ⟨u, hu | hu, ht⟩
    · exact .inl ⟨u, hu, ht⟩
    · exact .inr ⟨u, hu, ht⟩
  · rintro (⟨u, hu, ht⟩ | ⟨u, hu, ht⟩)
    · exact ⟨u, .inl hu, ht⟩
    · exact ⟨u, .inr hu, ht⟩

theorem uids_mono {U V : Set UserClass} (h : U ⊆ V) : uids U ⊆ uids V := fun _ ⟨u, hu, ht⟩ => ⟨u, h hu, ht⟩

section
variable {m m' : AppData} {o o' : List Observer}

theorem Strings.grow {F : Set UserClass} (h : Strings m o)
    (hF : Allocated NSString.addr m.next m'.next (uids F)) (hs : users m' o' ⊆ users m o ∪ F) : Strings m' o' := by
  refine Addressed.grow h hF ?_
  rw [← uids_union]
  exact uids_mono hs

/-- No new string. -/
theorem Strings.mono (h : Strings m o) (hs : users m' o' ⊆ users m o) (hle : m.next ≤ m'.next) :
    Strings m' o' := Addressed.mono h (uids_mono hs) hle

/-- **Equal pointers hold equal texts.** -/
theorem Strings.uidText_eq {u v : UserClass} (h : Strings m o) (hu : u ∈ users m o) (hv : v ∈ users m o)
    (hp : samePointer u.uid v.uid = true) : u.uidText = v.uidText := by
  unfold samePointer at hp
  rw [UserClass.uidText, UserClass.uidText]
  cases hx : u.uid with
  | none =>
    rw [hx] at hp
    cases hy : v.uid with
    | none => rfl
    | some y => rw [hy] at hp; cases hp
  | some x =>
    rw [hx] at hp
    cases hy : v.uid with
    | none => rw [hy] at hp; cases hp
    | some y =>
      rw [hy] at hp
      rw [h.inj ⟨u, hu, hx⟩ ⟨v, hv, hy⟩ (by simpa using hp)]

/-- The lists have owners among the users. -/
theorem users_subset {U : Set UserClass} (hcur : m'.curUser ∈ users m o ∪ U)
    (hlists : ∀ l ∈ m'.lists, l.listOwner ∈ users m o ∪ U)
    (hcoords : ∀ c ∈ m'.invitationsCoords, c.listOwner ∈ users m o ∪ U)
    (ho : ∀ ob ∈ o', ob.coords.listOwner ∈ users m o ∪ U) : users m' o' ⊆ users m o ∪ U := by
  rintro u (rfl | rfl | ⟨l, hl, rfl⟩ | ⟨c, hc, rfl⟩ | ⟨ob, hob, rfl⟩)
  · exact .inl (.inl rfl)
  · exact hcur
  · exact hlists l hl
  · exact hcoords c hc
  · exact ho ob hob

theorem mem_users_curUser : m.curUser ∈ users m o := .inr (.inl rfl)

theorem mem_users_list {l : ShopingListsClass} (h : l ∈ m.lists) : l.listOwner ∈ users m o :=
  .inr (.inr (.inl ⟨l, h, rfl⟩))

theorem mem_users_coords {c : InvitationClass} (h : c ∈ m.invitationsCoords) : c.listOwner ∈ users m o :=
  .inr (.inr (.inr (.inl ⟨c, h, rfl⟩)))

theorem mem_users_observer {ob : Observer} (h : ob ∈ o) : ob.coords.listOwner ∈ users m o :=
  .inr (.inr (.inr (.inr ⟨ob, h, rfl⟩)))

/-- A change of the lists whose owners remain among the users. -/
theorem users_subset_lists (hcur : m'.curUser = m.curUser) (hc : m'.invitationsCoords = m.invitationsCoords)
    (hlists : ∀ l ∈ m'.lists, l.listOwner ∈ users m o) : users m' o ⊆ users m o := by
  have h : users m' o ⊆ users m o ∪ ∅ := users_subset
    (.inl (hcur ▸ mem_users_curUser)) (fun l hl => .inl (hlists l hl))
    (fun c hm => .inl (mem_users_coords (hc ▸ hm))) (fun ob hob => .inl (mem_users_observer hob))
  rwa [Set.union_empty] at h

end

/-! ### New strings -/

/-- The owners of lists. -/
def ownersOf (ls : List ShopingListsClass) : Set UserClass := {u | ∃ l ∈ ls, l.listOwner = u}

theorem allocated_user (addr : Nat) (u : UserData) : Allocated NSString.addr addr (addr + 1)
    (uids {UserClass.initWithCoder addr u}) := by
  obtain ⟨name, email, uid⟩ := u
  cases uid with
  | none =>
    refine (Allocated.empty (by omega)).mono ?_
    rintro t ⟨u, rfl, ht⟩
    cases ht
  | some text =>
    refine (Allocated.singleton (⟨addr, text⟩ : NSString) (Nat.le_refl _) (Nat.lt_succ_self _)).mono ?_
    rintro t ⟨u, rfl, ht⟩
    cases ht
    rfl

/-- The uids of decoded lists are new strings. -/
theorem allocated_decodeLists (next : Nat) (ls : List ListData) : Allocated NSString.addr next
    (next + (ls.map ListData.size).sum) (uids (ownersOf (ShopingListsClass.decodeLists next ls))) := by
  induction ls generalizing next with
  | nil =>
    refine (Allocated.empty (by simp)).mono ?_
    rintro t ⟨u, ⟨l, hl, -⟩, -⟩
    cases hl
  | cons l ls ih =>
    have hone : Allocated NSString.addr next (next + l.size)
        (uids {UserClass.initWithCoder (next + 1) l.listOwner}) := by
      have hu := allocated_user (next + 1) l.listOwner
      have hsize : l.size = 2 + l.listItems.length := rfl
      refine ⟨by omega, fun t ht => ?_, fun t ht => ?_, hu.inj⟩
      · have := hu.ge t ht
        omega
      · have := hu.lt t ht
        omega
    have hrest := ih (next + l.size)
    rw [List.map_cons, List.sum_cons, ← Nat.add_assoc]
    refine (hone.union hrest).mono ?_
    rintro t ⟨u, ⟨l', hl', rfl⟩, ht⟩
    rw [ShopingListsClass.decodeLists] at hl'
    rcases List.mem_cons.1 hl' with rfl | hl'
    · exact .inl ⟨_, rfl, ht⟩
    · exact .inr ⟨_, ⟨l', hl', rfl⟩, ht⟩

/-! ### The operations -/

/-- The uids of invitations that are read are new strings. -/
theorem allocated_readAll {addr : Nat} {values : List FNode} {coords : List InvitationClass}
    (h : ReadInvitations.readAll addr values = .ok coords) : Allocated NSString.addr addr (addr + coords.length)
      (uids {u | ∃ c ∈ coords, c.listOwner = u}) := by
  induction values generalizing addr coords with
  | nil =>
    cases h
    refine (Allocated.empty (by simp)).mono ?_
    rintro t ⟨u, ⟨c, hc, -⟩, -⟩
    cases hc
  | cons any values ih =>
    rw [ReadInvitations.readAll] at h
    obtain ⟨c, hc, h⟩ := Raising.bind_ok_iff.1 h
    obtain ⟨cs, hcs, h⟩ := Raising.bind_ok_iff.1 h
    cases h
    obtain ⟨n, -, hc⟩ := Raising.bind_ok_iff.1 hc
    obtain ⟨name, -, hc⟩ := Raising.bind_ok_iff.1 hc
    obtain ⟨email, -, hc⟩ := Raising.bind_ok_iff.1 hc
    obtain ⟨uid, -, hc⟩ := Raising.bind_ok_iff.1 hc
    cases hc
    rw [List.length_cons, Nat.add_comm cs.length 1, ← Nat.add_assoc]
    refine ((allocated_user addr ⟨name, email, uid⟩).union (ih hcs)).mono ?_
    rintro t ⟨u, ⟨c, hc, rfl⟩, ht⟩
    rcases List.mem_cons.1 hc with rfl | hc
    · exact .inl ⟨_, rfl, ht⟩
    · exact .inr ⟨_, ⟨c, hc, rfl⟩, ht⟩

theorem owner_makeLists {coords : InvitationClass} {next : Nat} {found : List (List ItemData)}
    {l : ShopingListsClass} (h : l ∈ FetchInvitationnData.makeLists coords next found) :
    l.listOwner = coords.listOwner := by
  induction found generalizing next with
  | nil => cases h
  | cons items found ih =>
    rw [FetchInvitationnData.makeLists] at h
    rcases List.mem_cons.1 h with rfl | h
    · rfl
    · exact ih h

/-- The lists of a merge have the owners of the lists that went in. -/
theorem owner_combinedLists {dates : DateAlloc} {next : Nat} {as bs : List ShopingListsClass}
    {l : ShopingListsClass} (hl : l ∈ (CompareList.compare dates next as bs).combinedLists) :
    ∃ x, (x ∈ as ∨ x ∈ bs) ∧ l.listOwner = x.listOwner := by
  rw [CompareList.combinedLists_eq, List.mem_append, List.mem_append] at hl
  rcases hl with (hl | hl) | hl
  · exact ⟨l, .inl (List.mem_filter.1 hl).1, rfl⟩
  · exact ⟨l, .inr (List.mem_filter.1 hl).1, rfl⟩
  · obtain ⟨a, ha, addr, -, rfl⟩ := CompareList.mem_resLists hl
    exact ⟨a, .inl (List.mem_filter.1 ha).1, rfl⟩

section
variable {m : AppData} {o : List Observer} (h : Strings m o)
include h

theorem strings_readUser (files : Files) : Strings (ReadUserFromDisk.read files m) o := by
  unfold ReadUserFromDisk.read
  cases files.userPlist with
  | none => exact h
  | some user =>
    exact h.grow (allocated_user m.next user) (users_subset (.inr rfl) (fun l hl => .inl (mem_users_list hl))
      (fun c hc => .inl (mem_users_coords hc)) fun ob hob => .inl (mem_users_observer hob))

/-- A property gets an array of decoded lists. -/
theorem strings_decoded {m' : AppData} (ls : List ListData) (hcur : m'.curUser = m.curUser)
    (hc : m'.invitationsCoords = m.invitationsCoords)
    (hnext : m'.next = m.next + 1 + (ls.map ListData.size).sum)
    (ha : ∀ a ∈ m'.arrays, a ∈ m.arrays ∨ a.objs = ShopingListsClass.decodeLists (m.next + 1) ls) :
    Strings m' o := by
  have hfresh := allocated_decodeLists (m.next + 1) ls
  refine h.grow (F := ownersOf (ShopingListsClass.decodeLists (m.next + 1) ls)) ⟨by omega, fun t ht => ?_,
    fun t ht => by rw [hnext]; exact hfresh.lt t ht, hfresh.inj⟩
    (users_subset (.inl (hcur ▸ mem_users_curUser)) (fun l hl => ?_)
      (fun c hm => .inl (mem_users_coords (hc ▸ hm))) fun ob hob => .inl (mem_users_observer hob))
  · have := hfresh.ge t ht
    omega
  · have hP := AppData.mem_lists_of_arrays (P := fun l => l ∈ ShopingListsClass.decodeLists (m.next + 1) ls)
      (fun a ham => (ha a ham).imp id fun e x hx => e ▸ hx) hl
    rcases hP with hl | hl
    · exact .inl (mem_users_list hl)
    · exact .inr ⟨l, hl, rfl⟩

theorem strings_readDisk (files : Files) : Strings (ReadDataFromDisk.readData files m) o := by
  unfold ReadDataFromDisk.readData
  cases files.dataPlist with
  | none => exact h
  | some lists =>
    refine strings_decoded h lists rfl rfl rfl fun a ha => ?_
    rcases AppData.mem_arrays_offlineLST ha with ha | ha
    · exact .inl ha
    · cases ha
      exact .inr rfl

/-- A property gets an array of lists of known users. -/
theorem strings_assigned {m' : AppData} (hcur : m'.curUser = m.curUser)
    (hc : m'.invitationsCoords = m.invitationsCoords) (hnext : m.next ≤ m'.next)
    (ha : ∀ a ∈ m'.arrays, a ∈ m.arrays ∨ ∀ l ∈ a.objs, l.listOwner ∈ users m o) : Strings m' o := by
  refine h.mono (users_subset_lists hcur hc fun l hl => ?_) hnext
  rcases AppData.mem_lists_of_arrays ha hl with hl | hl
  · exact mem_users_list hl
  · exact hl

theorem strings_own : Strings { m with curLST := m.offlineLST } o := by
  refine strings_assigned h rfl rfl (Nat.le_refl _) fun a ha => .inl ?_
  rcases AppData.mem_arrays_curLST ha with ha | ha
  · exact ha
  · exact AppData.mem_arrays.2 (.inr (.inl ha))

theorem strings_default : Strings { m with curUser := defaultUser } o := by
  refine h.mono ?_ (Nat.le_refl _)
  rintro u (hu | hu | hu)
  · exact .inl hu
  · exact .inl hu
  · exact .inr (.inr hu)

theorem strings_collect : Strings (WriteDataToDisk.collect m) o := by
  refine strings_assigned h rfl rfl (Nat.le_succ _) fun a ha => ?_
  rcases AppData.mem_arrays_offlineLST ha with ha | ha
  · exact .inl ha
  · cases ha
    exact .inr fun l hl => mem_users_list (AppData.mem_lists_curLST (List.mem_filter.1 hl).1)

/-- A change of the objects of one array that adds lists of known users. -/
theorem strings_updateArray {array : Option NSMutableArray} {f : List ShopingListsClass → List ShopingListsClass}
    (hf : ∀ objs, ∀ x ∈ f objs, x ∈ objs ∨ x.listOwner ∈ users m o) :
    Strings (m.updateArray array f) o := by
  refine h.mono (users_subset_lists rfl rfl fun l hl => ?_) (Nat.le_refl _)
  rcases AppData.mem_lists_updateArray hf hl with hl | hl
  · exact mem_users_list hl
  · exact hl

/-- An assignment to lists that keeps their owners, or makes them known users. -/
theorem strings_mapLists {f : ShopingListsClass → ShopingListsClass}
    (hf : ∀ l ∈ m.lists, (f l).listOwner ∈ users m o) : Strings (m.mapLists f) o := by
  refine h.mono (users_subset_lists rfl rfl fun l hl => ?_) (Nat.le_refl _)
  obtain ⟨x, hx, rfl⟩ := AppData.mem_lists_mapLists.1 hl
  exact hf x hx

theorem strings_next {n : Nat} (hn : m.next ≤ n) : Strings { m with next := n } o :=
  Addressed.mono h (Set.Subset.refl _) hn

theorem strings_prepare (now : Moment) : Strings (PrepareFirstLists.prepare now m) o := by
  refine strings_next (strings_updateArray h fun objs x hx => ?_) (Nat.le_add_right _ _)
  rcases List.mem_append.1 hx with hx | hx
  · exact .inl hx
  · rw [List.mem_singleton.1 hx]
    exact .inr mem_users_curUser

theorem strings_newList (text : String) : Strings (withNewList text m) o := by
  refine strings_next (strings_updateArray h fun objs x hx => ?_) (Nat.le_succ _)
  rcases List.mem_append.1 hx with hx | hx
  · exact .inl hx
  · rw [List.mem_singleton.1 hx]
    exact .inr mem_users_curUser

theorem strings_removeObject (array : Option NSMutableArray) (l : ShopingListsClass) :
    Strings (m.updateArray array (CompareList.removeObject l)) o :=
  strings_updateArray h fun _ _ hx => .inl (CompareList.mem_removeObject.1 hx).1

theorem strings_append : Strings (m.updateArray m.curLST (· ++ elems m.invitationLST)) o := by
  refine strings_updateArray h fun objs x hx => ?_
  rcases List.mem_append.1 hx with hx | hx
  · exact .inl hx
  · exact .inr (mem_users_list (AppData.mem_lists_of_elems
      (fun a ha => AppData.mem_arrays.2 (.inr (.inr (.inr (.inl ha))))) hx))

/-- An assignment to the items of a list. -/
theorem strings_assignList (l : ShopingListsClass) (items : List ItemClass) :
    Strings (m.assignList l { l with listItems := items }) o := by
  refine strings_mapLists h fun x hx => ?_
  split
  · rename_i he
    subst he
    exact (mem_users_list hx : x.listOwner ∈ users m o)
  · exact mem_users_list hx

theorem strings_newItem (text : String) (now : Moment) (l : ShopingListsClass) :
    Strings (withNewItem text now l m) o :=
  strings_next (strings_assignList h l _) (Nat.le_succ _)

theorem strings_assignItem (i i' : ItemClass) : Strings (m.assignItem i i') o :=
  strings_mapLists h fun x hx => (mem_users_list hx : x.listOwner ∈ users m o)

theorem strings_setWithName (n e : Option String) (uid : String) :
    Strings (SetTheUser.setWithName n e uid m) o := by
  have hfresh : Allocated NSString.addr m.next (m.next + 1) (uids {⟨n, e, some ⟨m.next, uid⟩⟩}) :=
    allocated_user m.next ⟨n, e, some uid⟩
  refine h.grow hfresh (users_subset (.inr rfl) (fun l hl => ?_) (fun c hc => .inl (mem_users_coords hc))
    fun ob hob => .inl (mem_users_observer hob))
  obtain ⟨x, hx, rfl⟩ := AppData.mem_lists_mapLists.1 hl
  split
  · exact .inr rfl
  · exact .inl (mem_users_list hx)

theorem strings_merge (dates : DateAlloc) : Strings (merge dates m) o := by
  let result := CompareList.compare dates (m.next + 1) (elems m.onlineLST) (elems m.offlineLST)
  have hon : ∀ l ∈ elems m.onlineLST, l.listOwner ∈ users m o := fun l hl =>
    mem_users_list (AppData.mem_lists_of_elems (fun a ha => AppData.mem_arrays.2 (.inr (.inr (.inl ha)))) hl)
  have hoff : ∀ l ∈ elems m.offlineLST, l.listOwner ∈ users m o := fun l hl =>
    mem_users_list (AppData.mem_lists_of_elems (fun a ha => AppData.mem_arrays.2 (.inr (.inl ha))) hl)
  have hA : ∀ l ∈ result.listA, l.listOwner ∈ users m o := fun l hl => by
    rw [(CompareList.compare_left dates (m.next + 1) _ _).1] at hl
    exact hon l (List.mem_filter.1 hl).1
  have hB : ∀ l ∈ result.listB, l.listOwner ∈ users m o := fun l hl => by
    rw [(CompareList.compare_left dates (m.next + 1) _ _).2] at hl
    exact hoff l (List.mem_filter.1 hl).1
  refine h.mono (users_subset_lists rfl rfl fun l hl => ?_) (by show m.next ≤ m.next + 1 + _; omega)
  have hnew : ∀ a ∈ (merge dates m).arrays, a ∈ ((m.updateArray m.onlineLST fun _ => result.listA).updateArray
      m.offlineLST fun _ => result.listB).arrays ∨ ∀ x ∈ a.objs, x.listOwner ∈ users m o := by
    intro a ha
    rcases AppData.mem_arrays_curLST ha with ha | ha
    · exact .inl ha
    · cases ha
      refine .inr fun x hx => ?_
      obtain ⟨y, hy | hy, he⟩ := owner_combinedLists hx
      · exact he ▸ hon y hy
      · exact he ▸ hoff y hy
  rcases AppData.mem_lists_of_arrays hnew hl with hl | hl
  · rcases AppData.mem_lists_updateArray (fun _ x hx => .inr (hB x hx)) hl with hl | hl
    · rcases AppData.mem_lists_updateArray (fun _ x hx => .inr (hA x hx)) hl with hl | hl
      · exact mem_users_list hl
      · exact hl
    · exact hl
  · exact hl

theorem strings_ownedMerge (dates : DateAlloc) : Strings (ownedMerge dates m) o := by
  refine strings_mapLists (strings_merge h dates) fun l hl => ?_
  split
  · exact mem_users_curUser
  · exact mem_users_list hl

theorem strings_readCallback {order : DictOrder} {snapshot : FNode} {m' : AppData}
    (hm : ReadDataFromCloud.callback order snapshot m = .ok m') : Strings m' o := by
  obtain rfl | ⟨ls, -, rfl⟩ := readCallback_ok hm
  · exact h
  · refine strings_decoded h ls rfl rfl rfl fun a ha => ?_
    rcases AppData.mem_arrays_onlineLST ha with ha | ha
    · exact .inl ha
    · cases ha
      exact .inr rfl

theorem strings_fetched : Strings { m with
    fetched := m.fetched ++ [⟨m.next, []⟩], next := m.next + 1 }
    (o ++ m.invitationsCoords.map (⟨·, m.next⟩)) := by
  refine h.mono ?_ (Nat.le_succ _)
  rintro u (rfl | rfl | ⟨l, hl, rfl⟩ | ⟨c, hc, rfl⟩ | ⟨ob, hob, rfl⟩)
  · exact .inl rfl
  · exact mem_users_curUser
  · obtain ⟨a, ha, hla⟩ := AppData.mem_lists.1 hl
    rw [AppData.mem_arrays] at ha
    simp only [List.mem_append, List.mem_singleton] at ha
    have hold : a ∈ m.arrays ∨ a = ⟨m.next, []⟩ := by
      rw [AppData.mem_arrays]
      tauto
    rcases hold with ha | rfl
    · exact mem_users_list (AppData.mem_lists.2 ⟨a, ha, hla⟩)
    · cases hla
  · exact mem_users_coords hc
  · rcases List.mem_append.1 hob with hob | hob
    · exact mem_users_observer hob
    · obtain ⟨c, hc, rfl⟩ := List.mem_map.1 hob
      exact mem_users_coords hc

theorem strings_coordsCallback {order : DictOrder} {snapshot : FNode} {m' : AppData}
    (hm : ReadInvitations.callback order snapshot m = .ok m') : Strings m' o := by
  obtain rfl | ⟨values, coords, hcoords, rfl⟩ := coordsCallback_ok hm
  · exact h
  · exact h.grow (allocated_readAll hcoords) (users_subset (.inl mem_users_curUser)
      (fun l hl => .inl (mem_users_list hl)) (fun c hc => .inr ⟨c, hc, rfl⟩)
      fun ob hob => .inl (mem_users_observer hob))

theorem strings_notify {order : DictOrder} {sameString : String → Bool} {ob : Observer} (hob : ob ∈ o)
    {snapshot : FNode} {m' : AppData}
    (hm : FetchInvitationnData.block order sameString ob.coords ob.fetchedArr snapshot m = .ok m') :
    Strings m' o := by
  obtain rfl | ⟨found, rfl⟩ := fetchBlock_ok hm
  · exact h
  · refine h.mono (users_subset_lists rfl rfl fun l hl => ?_) (Nat.le_add_right _ _)
    obtain ⟨a, ha, hla⟩ := AppData.mem_lists.1 hl
    have hmap := AppData.mem_lists_mapArrays.1
      (AppData.mem_lists.2 ⟨a, AppData.mem_arrays_invitationLST ha, hla⟩)
    obtain ⟨b, hb, hlb⟩ := hmap
    split at hlb
    · rcases List.mem_append.1 hlb with hlb | hlb
      · exact mem_users_list (AppData.mem_lists.2 ⟨b, hb, hlb⟩)
      · rw [owner_makeLists hlb]
        exact mem_users_observer hob
    · exact mem_users_list (AppData.mem_lists.2 ⟨b, hb, hlb⟩)

theorem strings_readDiskFiles (now : Moment) (f : Files) : Strings (readDisk now f m).1 o := by
  have hread := strings_readUser h f
  simp only [readDisk]
  split
  · exact strings_collect (strings_prepare (strings_default hread) now)
  · exact strings_own (strings_readDisk hread f)

theorem strings_readsData {now : Moment} {f f' : Files} {m' : AppData} (hr : ReadsData now f m m' f') :
    Strings m' o := by
  cases hr with
  | once => exact strings_readDiskFiles h now f
  | twice => exact strings_readDisk (strings_readDiskFiles h now f) _

theorem strings_writes {f f' : Files} {m' : AppData} (hw : Writes m f m' f') : Strings m' o := by
  cases hw
  exact strings_collect h

end

theorem strings_init : Strings AppData.init [] := by
  have huids : uids (users AppData.init []) ⊆ {⟨0, "defUid"⟩} := by
    rintro t ⟨u, rfl | rfl | ⟨l, hl, -⟩ | ⟨c, hc, -⟩ | ⟨ob, hob, -⟩, ht⟩
    · cases ht
      rfl
    · cases ht
    · cases hl
    · cases hc
    · cases hob
  refine ⟨fun t ht => ?_, (Set.injOn_singleton _ _).mono huids⟩
  rw [huids ht]
  exact Nat.zero_lt_succ 2

/-- **Uid strings stay known by their addresses.** -/
theorem strings_outcome {s : Sys} {a : Action} {m : AppData} {f : Files} {o : List Observer}
    (h : Strings s.mem s.observers) (ho : Outcome s a m f o) : Strings m o := by
  cases ho with
  | same => exact h
  | launch hr => exact strings_readsData strings_init hr
  | login hr => exact strings_readsData h hr
  | newList hw => exact strings_writes (strings_newList h _) hw
  | deleteOwn hl hown hw => exact strings_writes (strings_removeObject h _ _) hw
  | reject hl hown => exact strings_removeObject h _ _
  | write hw => exact strings_writes h hw
  | addItem hl hw => exact strings_writes (strings_newItem h _ _ _) hw
  | toggleItem hl hi hw => exact strings_writes (strings_assignItem h _ _) hw
  | deleteItem hl hi hw => exact strings_writes (strings_assignList h _ _) hw
  | readCallback hk hm => exact strings_readCallback h hm
  | mergeBlock hk hw => exact strings_writes (strings_ownedMerge h _) hw
  | fetched hk hw => exact strings_fetched (strings_writes (strings_ownedMerge h _) hw)
  | coordsCallback hk hm => exact strings_coordsCallback h hm
  | appendBlock hk => exact strings_append h
  | loginBlock hk hr => exact strings_readsData (strings_setWithName h _ _ _) hr
  | registerBlock hk => exact strings_setWithName h _ _ _
  | notify hk hm => exact strings_notify h (List.mem_of_getElem? hk) hm

/-! ## Arrays -/

/-- An array is known by its address. The lists read from the cloud and the fetched invitations
have arrays of their own, and observers fill fetched arrays. -/
structure Arrays (m : AppData) (o : List Observer) : Prop where
  addressed : Addressed NSMutableArray.addr m.next {a | a ∈ m.arrays}
  online : ∀ b, m.onlineLST = some b → ∀ a, m.curLST = some a ∨ m.offlineLST = some a → a.addr ≠ b.addr
  fetched : ∀ b ∈ m.fetched, ∀ a, m.curLST = some a ∨ m.offlineLST = some a ∨ m.onlineLST = some a →
    a.addr ≠ b.addr
  invitation : ∀ a, m.invitationLST = some a → a ∈ m.fetched
  observers : ∀ ob ∈ o, ∃ b ∈ m.fetched, b.addr = ob.fetchedArr

section
variable {m : AppData} {o : List Observer} (h : Arrays m o)
include h

/-- A change of objects that keeps the addresses of the arrays. -/
theorem Arrays.mapArrays {f : NSMutableArray → NSMutableArray} (hf : ∀ a, (f a).addr = a.addr) :
    Arrays (m.mapArrays f) o := by
  refine ⟨⟨fun a ha => ?_, fun a ha b hb he => ?_⟩, fun b hb a ha => ?_, fun b hb a ha => ?_, fun a ha => ?_,
    fun ob hob => ?_⟩
  · simp only [Set.mem_ofPred_eq, AppData.arrays_mapArrays, List.mem_map] at ha
    obtain ⟨a', ha', rfl⟩ := ha
    rw [hf]
    exact h.addressed.lt a' ha'
  · simp only [Set.mem_ofPred_eq, AppData.arrays_mapArrays, List.mem_map] at ha hb
    obtain ⟨a', ha', rfl⟩ := ha
    obtain ⟨b', hb', rfl⟩ := hb
    rw [hf, hf] at he
    rw [h.addressed.inj ha' hb' he]
  · obtain ⟨b', hb', rfl⟩ := Option.map_eq_some_iff.1 hb
    rcases ha with ha | ha
    · obtain ⟨a', ha', rfl⟩ := Option.map_eq_some_iff.1 ha
      rw [hf, hf]
      exact h.online b' hb' a' (.inl ha')
    · obtain ⟨a', ha', rfl⟩ := Option.map_eq_some_iff.1 ha
      rw [hf, hf]
      exact h.online b' hb' a' (.inr ha')
  · obtain ⟨b', hb', rfl⟩ := List.mem_map.1 hb
    rcases ha with ha | ha | ha
    · obtain ⟨a', ha', rfl⟩ := Option.map_eq_some_iff.1 ha
      rw [hf, hf]
      exact h.fetched b' hb' a' (.inl ha')
    · obtain ⟨a', ha', rfl⟩ := Option.map_eq_some_iff.1 ha
      rw [hf, hf]
      exact h.fetched b' hb' a' (.inr (.inl ha'))
    · obtain ⟨a', ha', rfl⟩ := Option.map_eq_some_iff.1 ha
      rw [hf, hf]
      exact h.fetched b' hb' a' (.inr (.inr ha'))
  · obtain ⟨a', ha', rfl⟩ := Option.map_eq_some_iff.1 ha
    exact List.mem_map_of_mem (h.invitation a' ha')
  · obtain ⟨b, hb, he⟩ := h.observers ob hob
    exact ⟨f b, List.mem_map_of_mem hb, (hf b).trans he⟩

theorem Arrays.updateArray (array : Option NSMutableArray)
    (f : List ShopingListsClass → List ShopingListsClass) : Arrays (m.updateArray array f) o := by
  refine h.mapArrays fun a => ?_
  split <;> rfl

theorem Arrays.mapLists (f : ShopingListsClass → ShopingListsClass) : Arrays (m.mapLists f) o :=
  h.mapArrays fun _ => rfl

/-- A change of the user, of the invitations and of the bound. -/
theorem Arrays.other {u : UserClass} {coords : List InvitationClass} {n : Nat} (hn : m.next ≤ n) :
    Arrays { m with curUser := u, invitationsCoords := coords, next := n } o :=
  ⟨h.addressed.mono (Set.Subset.refl _) hn, h.online, h.fetched, h.invitation, h.observers⟩

/-- A new array is none of the others. -/
theorem Arrays.ne_next {a : NSMutableArray} (ha : a ∈ m.arrays) : a.addr ≠ m.next :=
  Nat.ne_of_lt (h.addressed.lt a ha)

theorem Arrays.addressed_new {m' : AppData} (objs : List ShopingListsClass) (hn : m.next < m'.next)
    (hs : ∀ a ∈ m'.arrays, a ∈ m.arrays ∨ a = ⟨m.next, objs⟩) :
    Addressed NSMutableArray.addr m'.next {a | a ∈ m'.arrays} :=
  h.addressed.grow (Allocated.singleton (⟨m.next, objs⟩ : NSMutableArray) (Nat.le_refl _) hn) fun a ha => hs a ha

theorem Arrays.newOffline {objs : List ShopingListsClass} {n : Nat} (hn : m.next < n) :
    Arrays { m with offlineLST := some ⟨m.next, objs⟩, next := n } o := by
  have hmem := @AppData.mem_arrays m
  refine ⟨h.addressed_new objs hn fun a ha => ?_, fun b hb a ha => ?_, fun b hb a ha => ?_, h.invitation,
    h.observers⟩
  · exact (AppData.mem_arrays_offlineLST ha).imp id fun e => (Option.some.inj e).symm
  · rcases ha with ha | ha
    · exact h.online b hb a (.inl ha)
    · cases ha
      exact (h.ne_next (hmem.2 (.inr (.inr (.inl hb))))).symm
  · rcases ha with ha | ha | ha
    · exact h.fetched b hb a (.inl ha)
    · cases ha
      exact (h.ne_next (hmem.2 (.inr (.inr (.inr (.inr hb)))))).symm
    · exact h.fetched b hb a (.inr (.inr ha))

theorem Arrays.newCurrent {objs : List ShopingListsClass} {n : Nat} (hn : m.next < n) :
    Arrays { m with curLST := some ⟨m.next, objs⟩, next := n } o := by
  have hmem := @AppData.mem_arrays m
  refine ⟨h.addressed_new objs hn fun a ha => ?_, fun b hb a ha => ?_, fun b hb a ha => ?_, h.invitation,
    h.observers⟩
  · exact (AppData.mem_arrays_curLST ha).imp id fun e => (Option.some.inj e).symm
  · rcases ha with ha | ha
    · cases ha
      exact (h.ne_next (hmem.2 (.inr (.inr (.inl hb))))).symm
    · exact h.online b hb a (.inr ha)
  · rcases ha with ha | ha
    · cases ha
      exact (h.ne_next (hmem.2 (.inr (.inr (.inr (.inr hb)))))).symm
    · exact h.fetched b hb a (.inr ha)

theorem Arrays.newOnline {objs : List ShopingListsClass} {n : Nat} (hn : m.next < n) :
    Arrays { m with onlineLST := some ⟨m.next, objs⟩, next := n } o := by
  have hmem := @AppData.mem_arrays m
  refine ⟨h.addressed_new objs hn fun a ha => ?_, fun b hb a ha => ?_, fun b hb a ha => ?_, h.invitation,
    h.observers⟩
  · exact (AppData.mem_arrays_onlineLST ha).imp id fun e => (Option.some.inj e).symm
  · cases hb
    rcases ha with ha | ha
    · exact h.ne_next (hmem.2 (.inl ha))
    · exact h.ne_next (hmem.2 (.inr (.inl ha)))
  · rcases ha with ha | ha | ha
    · exact h.fetched b hb a (.inl ha)
    · exact h.fetched b hb a (.inr (.inl ha))
    · cases ha
      exact (h.ne_next (hmem.2 (.inr (.inr (.inr (.inr hb)))))).symm

/-- `curLST = offlineLST`. -/
theorem Arrays.own : Arrays { m with curLST := m.offlineLST } o := by
  refine ⟨⟨fun a ha => h.addressed.lt a ?_, fun a ha b hb => h.addressed.inj ?_ ?_⟩, fun b hb a ha => ?_,
    fun b hb a ha => ?_, h.invitation, h.observers⟩
  · exact (AppData.mem_arrays_curLST ha).elim id fun e => AppData.mem_arrays.2 (.inr (.inl e))
  · exact (AppData.mem_arrays_curLST ha).elim id fun e => AppData.mem_arrays.2 (.inr (.inl e))
  · exact (AppData.mem_arrays_curLST hb).elim id fun e => AppData.mem_arrays.2 (.inr (.inl e))
  · exact h.online b hb a (.inr (ha.elim id id))
  · exact h.fetched b hb a (.inr (ha.elim .inl id))

theorem Arrays.newFetched : Arrays { m with
    fetched := m.fetched ++ [⟨m.next, []⟩], next := m.next + 1 }
    (o ++ m.invitationsCoords.map (⟨·, m.next⟩)) := by
  have hmem := @AppData.mem_arrays m
  refine ⟨h.addressed_new [] (Nat.lt_succ_self _) fun a ha => ?_, h.online,
    fun b hb a ha => ?_, fun a ha => List.mem_append_left _ (h.invitation a ha), fun ob hob => ?_⟩
  · rw [AppData.mem_arrays] at ha
    simp only [List.mem_append, List.mem_singleton] at ha
    rw [AppData.mem_arrays]
    tauto
  · rcases List.mem_append.1 hb with hb | hb
    · exact h.fetched b hb a ha
    · rw [List.mem_singleton.1 hb]
      refine h.ne_next (hmem.2 ?_)
      rcases ha with ha | ha | ha
      · exact .inl ha
      · exact .inr (.inl ha)
      · exact .inr (.inr (.inl ha))
  · rcases List.mem_append.1 hob with hob | hob
    · obtain ⟨b, hb, he⟩ := h.observers ob hob
      exact ⟨b, List.mem_append_left _ hb, he⟩
    · obtain ⟨c, -, rfl⟩ := List.mem_map.1 hob
      exact ⟨⟨m.next, []⟩, List.mem_append_right _ List.mem_cons_self, rfl⟩

/-- `invitationLST` becomes a fetched array. -/
theorem Arrays.newInvitation {p : NSMutableArray → Bool} {n : Nat} (hn : m.next ≤ n) :
    Arrays { m with invitationLST := m.fetched.find? p, next := n } o :=
  ⟨⟨fun a ha => Nat.lt_of_lt_of_le (h.addressed.lt a (AppData.mem_arrays_invitationLST ha)) hn,
    fun _ ha _ hb => h.addressed.inj (AppData.mem_arrays_invitationLST ha) (AppData.mem_arrays_invitationLST hb)⟩,
    h.online, h.fetched, fun _ ha => List.mem_of_find?_eq_some ha, h.observers⟩

/-- An observer fills none of the arrays of lists that the user or the sync works on. -/
theorem Arrays.map_fill {ob : Observer} (hob : ob ∈ o) (news : List ShopingListsClass) {a : Option NSMutableArray}
    (harray : a = m.curLST ∨ a = m.offlineLST ∨ a = m.onlineLST) :
    (a.map fun b => if b.addr = ob.fetchedArr then { b with objs := b.objs ++ news } else b) = a := by
  obtain ⟨b, hb, he⟩ := h.observers ob hob
  cases a with
  | none => rfl
  | some x =>
    have hne := h.fetched b hb x (harray.imp Eq.symm (.imp Eq.symm Eq.symm))
    rw [Option.map_some, if_neg (he ▸ hne)]

/-! ### The operations -/

theorem arrays_readUser (files : Files) : Arrays (ReadUserFromDisk.read files m) o := by
  unfold ReadUserFromDisk.read
  split
  · exact h.other (Nat.le_succ _)
  · exact h

theorem arrays_readDisk (files : Files) : Arrays (ReadDataFromDisk.readData files m) o := by
  unfold ReadDataFromDisk.readData
  split
  · exact h.newOffline (by omega)
  · exact h

theorem arrays_collect : Arrays (WriteDataToDisk.collect m) o := h.newOffline (Nat.lt_succ_self _)

theorem arrays_prepare (now : Moment) : Arrays (PrepareFirstLists.prepare now m) o :=
  (h.updateArray _ _).other (Nat.le_add_right _ _)

theorem arrays_newList (text : String) : Arrays (withNewList text m) o :=
  (h.updateArray _ _).other (Nat.le_succ _)

theorem arrays_newItem (text : String) (now : Moment) (l : ShopingListsClass) :
    Arrays (withNewItem text now l m) o := (h.mapLists _).other (Nat.le_succ _)

theorem arrays_setWithName (n e : Option String) (uid : String) :
    Arrays (SetTheUser.setWithName n e uid m) o := (h.mapLists _).other (Nat.le_succ _)

theorem arrays_merge (dates : DateAlloc) : Arrays (merge dates m) o :=
  ((h.updateArray _ _).updateArray _ _).newCurrent (by show m.next < m.next + 1 + _; omega)

theorem arrays_ownedMerge (dates : DateAlloc) : Arrays (ownedMerge dates m) o := (arrays_merge h dates).mapLists _

theorem arrays_readCallback {order : DictOrder} {snapshot : FNode} {m' : AppData}
    (hm : ReadDataFromCloud.callback order snapshot m = .ok m') : Arrays m' o := by
  obtain rfl | ⟨ls, -, rfl⟩ := readCallback_ok hm
  · exact h
  · exact h.newOnline (by omega)

theorem arrays_coordsCallback {order : DictOrder} {snapshot : FNode} {m' : AppData}
    (hm : ReadInvitations.callback order snapshot m = .ok m') : Arrays m' o := by
  obtain rfl | ⟨values, coords, -, rfl⟩ := coordsCallback_ok hm
  · exact h
  · exact h.other (Nat.le_add_right _ _)

theorem arrays_notify {order : DictOrder} {sameString : String → Bool} {coords : InvitationClass}
    {fetchedArr : Nat} {snapshot : FNode} {m' : AppData}
    (hm : FetchInvitationnData.block order sameString coords fetchedArr snapshot m = .ok m') : Arrays m' o := by
  obtain rfl | ⟨found, rfl⟩ := fetchBlock_ok hm
  · exact h
  · refine (h.mapArrays fun a => ?_).newInvitation (Nat.le_add_right _ _)
    split <;> rfl

theorem arrays_readDiskFiles (now : Moment) (f : Files) : Arrays (readDisk now f m).1 o := by
  have hread := arrays_readUser h f
  simp only [readDisk]
  split
  · exact arrays_collect (arrays_prepare (hread.other (Nat.le_refl _)) now)
  · exact (arrays_readDisk hread f).own

theorem arrays_readsData {now : Moment} {f f' : Files} {m' : AppData} (hr : ReadsData now f m m' f') :
    Arrays m' o := by
  cases hr with
  | once => exact arrays_readDiskFiles h now f
  | twice => exact arrays_readDisk (arrays_readDiskFiles h now f) _

theorem arrays_writes {f f' : Files} {m' : AppData} (hw : Writes m f m' f') : Arrays m' o := by
  cases hw
  exact arrays_collect h

end

theorem arrays_init : Arrays AppData.init [] := by
  refine ⟨⟨fun a ha => ?_, fun a ha b hb he => ?_⟩, fun b hb a ha => ?_, fun b hb => ?_, fun a ha => ?_,
    fun ob hob => ?_⟩
  · have : ∀ a ∈ AppData.init.arrays, a.addr < AppData.init.next := by decide
    exact this a ha
  · have : ∀ a ∈ AppData.init.arrays, ∀ b ∈ AppData.init.arrays, a.addr = b.addr → a = b := by decide
    exact this a ha b hb he
  · cases hb
    rcases ha with ha | ha
    · cases ha
      decide
    · cases ha
  · cases hb
  · cases ha
  · cases hob

/-- **The arrays stay apart.** -/
theorem arrays_outcome {s : Sys} {a : Action} {m : AppData} {f : Files} {o : List Observer}
    (h : Arrays s.mem s.observers) (ho : Outcome s a m f o) : Arrays m o := by
  cases ho with
  | same => exact h
  | launch hr => exact arrays_readsData arrays_init hr
  | login hr => exact arrays_readsData h hr
  | newList hw => exact arrays_writes (arrays_newList h _) hw
  | deleteOwn hl hown hw => exact arrays_writes (h.updateArray _ _) hw
  | reject hl hown => exact h.updateArray _ _
  | write hw => exact arrays_writes h hw
  | addItem hl hw => exact arrays_writes (arrays_newItem h _ _ _) hw
  | toggleItem hl hi hw => exact arrays_writes (h.mapLists _) hw
  | deleteItem hl hi hw => exact arrays_writes (h.mapLists _) hw
  | readCallback hk hm => exact arrays_readCallback h hm
  | mergeBlock hk hw => exact arrays_writes (arrays_ownedMerge h _) hw
  | fetched hk hw => exact (arrays_writes (arrays_ownedMerge h _) hw).newFetched
  | coordsCallback hk hm => exact arrays_coordsCallback h hm
  | appendBlock hk => exact h.updateArray _ _
  | loginBlock hk hr => exact arrays_readsData (arrays_setWithName h _ _ _) hr
  | registerBlock hk => exact arrays_setWithName h _ _ _
  | notify hk hm => exact arrays_notify h hm

end ShopingList
