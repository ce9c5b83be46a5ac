import ShopingList.App.Machine

/-!
# The app without an account

With nobody signed in every edit ends with `WriteData`, and a relaunch reads the
two files. `WriteData` keeps the lists whose owner has the very uid object of
the current user, which a list read from `data.plist` never has. `Stored` says
that the files hold what the memory holds; `stored_run` keeps it along the runs
whose writes find no such list, and `curLST_relaunch` is what a user sees of it.
-/

namespace ShopingList

/-- The events of a user without an account. -/
def Offline : Action → Prop
  | .launch _ | .newList _ | .deleteList _ | .openItems _ | .back | .addItem _ _ | .toggleItem _ _
  | .deleteItem _ => True
  | _ => False

instance : DecidablePred Offline
  | .launch _ | .newList _ | .deleteList _ | .openItems _ | .back | .addItem _ _ | .toggleItem _ _
  | .deleteItem _ => inferInstanceAs (Decidable True)
  | .login _ | .register _ _ | .logout | .refresh _ | .fire _ _ | .complete _ _ | .notify _ _ =>
    inferInstanceAs (Decidable False)

/-- The lists that a write finds belong to the current user's uid object. -/
def Held (lists : List ShopingListsClass) (s : Sys) : Prop :=
  ∀ l ∈ lists, samePointer s.mem.curUser.uid l.listOwner.uid = true

instance (lists : List ShopingListsClass) (s : Sys) : Decidable (Held lists s) :=
  inferInstanceAs (Decidable (∀ _ ∈ _, _))

/-- A step that writes finds only such lists, apart from one that it deletes. -/
def HeldAtWrite : Action → Sys → Prop
  | .newList _, s | .addItem _ _, s | .toggleItem _ _, s | .deleteItem _, s =>
    Held (elems s.mem.curLST) s
  | .deleteList row, s =>
    Held ((elems s.mem.curLST).filter fun l => (elems s.mem.curLST)[row]? ≠ some l) s
  | _, _ => True

instance : ∀ a s, Decidable (HeldAtWrite a s)
  | .newList _, _ | .addItem _ _, _ | .toggleItem _ _, _ | .deleteItem _, _ | .deleteList _, _ =>
    inferInstanceAs (Decidable (Held _ _))
  | .launch _, _ | .openItems _, _ | .back, _ | .login _, _ | .register _ _, _ | .logout, _
  | .refresh _, _ | .fire _ _, _ | .complete _ _, _ | .notify _ _, _ => inferInstanceAs (Decidable True)

/-- The files of a user who owns all the lists. -/
structure OwnFiles (u : UserData) (ls : List ListData) : Prop where
  uid : u.uid.isSome = true
  own : ∀ l ∈ ls, l.listOwner.uid = u.uid

/-- The files hold what the memory holds, and the user owns it. -/
structure Stored (s : Sys) : Prop where
  user : s.files.userPlist = some s.mem.curUser.encodeWithCoder
  data : s.files.dataPlist = some (contents s.mem.curLST)
  cur : s.mem.curLST.isSome = true
  files : OwnFiles s.mem.curUser.encodeWithCoder (contents s.mem.curLST)
  signedOut : s.currentUser = none

/-- What a write needs to store everything. -/
structure Ready (s : Sys) : Prop where
  user : s.files.userPlist = some s.mem.curUser.encodeWithCoder
  cur : s.mem.curLST.isSome = true
  files : OwnFiles s.mem.curUser.encodeWithCoder (contents s.mem.curLST)
  signedOut : s.currentUser = none
  held : Held (elems s.mem.curLST) s

theorem Stored.congr {s t : Sys} (hs : Stored s) (hm : t.mem = s.mem) (hf : t.files = s.files)
    (hc : t.currentUser = s.currentUser) : Stored t :=
  ⟨by rw [hf, hm]; exact hs.user, by rw [hf, hm]; exact hs.data, by rw [hm]; exact hs.cur,
    by rw [hm]; exact hs.files, by rw [hc]; exact hs.signedOut⟩

theorem Ready.writeData {s : Sys} (h : Ready s) : Stored s.writeData :=
  ⟨h.user, writeData_dataPlist_of_samePointer h.held, h.cur, h.files, h.signedOut⟩

/-- The end of every edit. -/
theorem Ready.stored {s : Sys} (h : Ready s) (w : FNode → Except NSException FNode) :
    Stored (settle (s.writeData.onCloud w)) :=
  h.writeData.congr (by simp) (by simp) (by simp)

/-! ## The edits -/

/-- A change of lists that leaves their owners alone. -/
theorem ready_mapLists {s : Sys} {f : ShopingListsClass → ShopingListsClass} (next : Nat)
    (hs : Stored s) (hh : Held (elems s.mem.curLST) s) (hf : ∀ l, (f l).listOwner = l.listOwner) :
    Ready (s.withMem { s.mem.mapLists f with next := next }) := by
  have hel : elems (s.withMem { s.mem.mapLists f with next := next }).mem.curLST =
      (elems s.mem.curLST).map f := AppData.mapLists_curLST s.mem f
  refine ⟨hs.user, ?_, ⟨hs.files.uid, ?_⟩, hs.signedOut, ?_⟩
  · show (s.mem.curLST.map _).isSome = true
    rw [Option.isSome_map]
    exact hs.cur
  · intro d hd
    rw [contents, hel, List.map_map] at hd
    obtain ⟨l, hl, rfl⟩ := List.mem_map.1 hd
    have he : (f l).encodeWithCoder.listOwner = l.encodeWithCoder.listOwner := by
      simp [ShopingListsClass.encodeWithCoder, hf l]
    show (f l).encodeWithCoder.listOwner.uid = s.mem.curUser.encodeWithCoder.uid
    rw [he]
    exact hs.files.own _ (List.mem_map_of_mem hl)
  · intro l' hl'
    rw [hel] at hl'
    obtain ⟨l, hl, rfl⟩ := List.mem_map.1 hl'
    rw [hf l]
    exact hh l hl

theorem stored_addNewList {s : Sys} {text : String} (hs : Stored s)
    (hh : Held (elems s.mem.curLST) s) : Stored (settle (ListViewController.addNewList text s)) := by
  unfold ListViewController.addNewList
  refine Ready.stored ?_ _
  have hel : ∀ m : AppData, m.curLST = s.mem.curLST → ∀ l, elems (m.addObject m.curLST l).curLST =
      elems s.mem.curLST ++ [l] := by
    intro m hm l
    rw [AppData.addObject, elems_updateArray_self, hm, if_pos hs.cur]
  refine ⟨hs.user, ?_, ⟨hs.files.uid, ?_⟩, hs.signedOut, ?_⟩
  · show (s.mem.curLST.map _).isSome = true
    rw [Option.isSome_map]
    exact hs.cur
  · intro d hd
    simp only [contents, Sys.reload, Sys.withMem, hel s.mem rfl] at hd
    obtain ⟨l, hl, rfl⟩ := List.mem_map.1 hd
    rcases List.mem_append.1 hl with hl | hl
    · exact hs.files.own _ (List.mem_map_of_mem hl)
    · rw [List.mem_singleton.1 hl]
      rfl
  · intro l hl
    simp only [Sys.reload, Sys.withMem, hel s.mem rfl] at hl
    rcases List.mem_append.1 hl with hl | hl
    · exact hh l hl
    · rw [List.mem_singleton.1 hl]
      simp [samePointer, Sys.reload, Sys.withMem, AppData.addObject, AppData.updateArray]

theorem stored_addItem {s : Sys} {k : Nat} {text : String} {now : Moment} (hs : Stored s)
    (hh : Held (elems s.mem.curLST) s) : Stored (settle (itemViewController.addItem k text now s)) := by
  unfold itemViewController.addItem
  cases hk : objectAt s.mem.curLST k with
  | error e => exact hs.congr rfl rfl rfl
  | ok o =>
    cases o with
    | none => exact Ready.stored ⟨hs.user, hs.cur, hs.files, hs.signedOut, hh⟩ _
    | some l =>
      refine Ready.stored (ready_mapLists _ hs hh fun x => ?_) _
      split
      · rename_i h
        rw [h]
      · rfl

theorem stored_toggleItem {s : Sys} {k row : Nat} {now : Moment} (hs : Stored s)
    (hh : Held (elems s.mem.curLST) s) : Stored (settle (itemViewController.toggleItem k row now s)) := by
  unfold itemViewController.toggleItem
  cases hk : objectAt s.mem.curLST k with
  | error e => exact hs.congr rfl rfl rfl
  | ok o =>
    cases o with
    | none => exact Ready.stored ⟨hs.user, hs.cur, hs.files, hs.signedOut, hh⟩ _
    | some l =>
      cases hi : l.listItems[row]? with
      | none =>
        simp only [hi]
        exact hs.congr rfl rfl rfl
      | some i =>
        simp only [hi]
        refine Ready.stored (ready_mapLists s.mem.next hs hh ?_) _
        exact fun _ => rfl

theorem stored_deleteItem {s : Sys} {k row : Nat} (hs : Stored s)
    (hh : Held (elems s.mem.curLST) s) : Stored (settle (itemViewController.deleteItem k row s)) := by
  unfold itemViewController.deleteItem
  cases hk : objectAt s.mem.curLST k with
  | error e => exact hs.congr rfl rfl rfl
  | ok o =>
    cases o with
    | none => exact Ready.stored ⟨hs.user, hs.cur, hs.files, hs.signedOut, hh⟩ _
    | some l =>
      cases hi : l.listItems[row]? with
      | none =>
        simp only [hi]
        exact hs.congr rfl rfl rfl
      | some i =>
        simp only [hi]
        refine Ready.stored (ready_mapLists s.mem.next hs hh fun x => ?_) _
        split
        · rename_i h
          rw [h]
        · rfl

theorem stored_deleteList {s : Sys} {row : Nat} (hs : Stored s)
    (hh : HeldAtWrite (.deleteList row) s) :
    Stored (settle (ListViewController.deleteList row s)) := by
  unfold ListViewController.deleteList
  cases hk : objectAt s.mem.curLST row with
  | error e => exact hs.congr rfl rfl rfl
  | ok o =>
    have hrows : ∀ t : Turn, Stored (settle t) →
        Stored (settle (ListViewController.deleteRows row <$> t)) := by
      intro t ht
      obtain ⟨rows, h⟩ := settle_deleteRows row t
      rw [h]
      exact ht.congr rfl rfl rfl
    cases o with
    | none => exact hrows _ (hs.congr (by simp) (by simp) (by simp))
    | some l =>
      have hget := objectAt_some hk
      have hl : l ∈ elems s.mem.curLST := List.mem_of_getElem? hget
      have hel : elems (s.mem.updateArray s.mem.curLST (CompareList.removeObject l)).curLST =
          CompareList.removeObject l (elems s.mem.curLST) := by
        rw [elems_updateArray_self, if_pos hs.cur]
      refine hrows _ ?_
      -- the user owns the list
      rw [if_pos]
      · refine Ready.stored ?_ _
        refine ⟨hs.user, ?_, ⟨hs.files.uid, ?_⟩, hs.signedOut, ?_⟩
        · show (s.mem.curLST.map _).isSome = true
          rw [Option.isSome_map]
          exact hs.cur
        · intro d hd
          simp only [contents, Sys.withMem, hel] at hd
          obtain ⟨x, hx, rfl⟩ := List.mem_map.1 hd
          exact hs.files.own _ (List.mem_map_of_mem (CompareList.mem_removeObject.1 hx).1)
        · intro x hx
          simp only [Sys.withMem, hel] at hx
          obtain ⟨hx, hne⟩ := CompareList.mem_removeObject.1 hx
          refine hh x (List.mem_filter.2 ⟨hx, ?_⟩)
          rw [hget]
          simpa using Ne.symm hne
      · have h1 : l.listOwner.uidText = s.mem.curUser.uidText :=
          hs.files.own _ (List.mem_map_of_mem hl)
        obtain ⟨u, hu⟩ := Option.isSome_iff_exists.1 hs.files.uid
        exact isEqualToString_iff.2 ⟨u, h1.trans hu, hu⟩

/-! ## Launches -/

/-- A launch over the files of a user reads them. -/
theorem stored_launch {s : Sys} {now : Moment} {u : UserData} {ls : List ListData}
    (hu : s.files.userPlist = some u) (hd : s.files.dataPlist = some ls) (ho : OwnFiles u ls)
    (hc : s.currentUser = none) :
    Stored (settle (launch now s)) ∧ contents (settle (launch now s)).mem.curLST = ls := by
  obtain ⟨t, ht⟩ := Option.isSome_iff_exists.1 ho.uid
  have hread : ∀ m : AppData, ReadUserFromDisk.read s.files m =
      { m with curUser := .initWithCoder m.next u, next := m.next + 1 } := by
    intro m
    rw [ReadUserFromDisk.read, hu]
  have hdata : ∀ m : AppData, ReadDataFromDisk.readData s.files m = { m with
      offlineLST := some ⟨m.next, ShopingListsClass.decodeLists (m.next + 1) ls⟩
      next := m.next + 1 + (ls.map ListData.size).sum } := by
    intro m
    rw [ReadDataFromDisk.readData, hd]
  have huid : (UserClass.initWithCoder AppData.init.next u).uid.isNone = false := by
    simp [UserClass.initWithCoder, ht]
  have hlaunch : settle (launch now s) = Sys.reload { s with
      mem := { AppData.init with
        curUser := .initWithCoder AppData.init.next u
        offlineLST := some ⟨AppData.init.next + 1, ShopingListsClass.decodeLists (AppData.init.next + 2) ls⟩
        curLST := some ⟨AppData.init.next + 1, ShopingListsClass.decodeLists (AppData.init.next + 2) ls⟩
        next := AppData.init.next + 2 + (ls.map ListData.size).sum }
      running := true, rows := [], screen := none, pending := [], observers := [] } := by
    simp only [launch, ListViewController.readData, ListViewController.readFiles, hread, huid,
      Bool.false_eq_true, if_false, hdata, Sys.withMem, hc]
    rfl
  rw [hlaunch]
  have hcont : contents (some ⟨AppData.init.next + 1,
      ShopingListsClass.decodeLists (AppData.init.next + 2) ls⟩) = ls := by
    simp [contents]
  refine ⟨⟨?_, ?_, rfl, ?_, hc⟩, hcont⟩
  · simpa [Sys.reload] using hu
  · show s.files.dataPlist = some (contents _)
    rw [hd]
    exact congrArg some hcont.symm
  · show OwnFiles (UserClass.encodeWithCoder _) (contents _)
    simp only [Sys.reload, UserClass.encode_init]
    rw [hcont]
    exact ho

/-- The first launch of all makes the default user and a sample list. -/
theorem stored_firstLaunch {s : Sys} {now : Moment} (hf : s.files = ⟨none, none⟩)
    (hc : s.currentUser = none) : Stored (settle (launch now s)) := by
  have hread : ReadUserFromDisk.read s.files AppData.init = AppData.init := by
    rw [ReadUserFromDisk.read, hf]
  have hlaunch : settle (launch now s) = Sys.reload (Sys.writeData { s with
      mem := PrepareFirstLists.prepare now { AppData.init with
        curUser := ⟨some "ME", some "defEmail", some ⟨0, "defUid"⟩⟩ }
      files := ⟨some ⟨some "ME", some "defEmail", some "defUid"⟩, s.files.dataPlist⟩
      running := true, rows := [], screen := none, pending := [], observers := [] }) := by
    simp only [launch, ListViewController.readData, ListViewController.readFiles, hread]
    rw [if_pos (by decide)]
    simp only [Sys.writeData, hc]
    rfl
  rw [hlaunch]
  have hready : ∀ t : Sys, Ready t → Stored t.writeData.reload := fun t ht =>
    ht.writeData.congr rfl rfl rfl
  refine hready _ ⟨rfl, rfl, ⟨rfl, ?_⟩, hc, ?_⟩
  · intro d hd
    have : d ∈ contents (some ⟨1, [_]⟩) := hd
    rw [List.mem_singleton.1 this]
    rfl
  · intro l hl
    have : l ∈ elems (some ⟨1, [_]⟩) := hl
    rw [List.mem_singleton.1 this]
    rfl

/-! ## Runs -/

theorem stored_step {a : Action} {s : Sys} (ho : Offline a) (hw : HeldAtWrite a s) (hs : Stored s) :
    Stored (step a s) := by
  refine step_cases hs fun t ht => ?_
  cases a with
  | launch now =>
    cases ht
    exact (stored_launch hs.user hs.data hs.files hs.signedOut).1
  | newList text =>
    simp only [event, Option.ite_none_right_eq_some, Option.some.injEq] at ht
    obtain ⟨-, rfl⟩ := ht
    exact stored_addNewList hs hw
  | deleteList row =>
    simp only [event, Option.ite_none_right_eq_some, Option.some.injEq] at ht
    obtain ⟨-, rfl⟩ := ht
    exact stored_deleteList hs hw
  | openItems row =>
    simp only [event, Option.ite_none_right_eq_some, Option.some.injEq] at ht
    obtain ⟨-, rfl⟩ := ht
    unfold ListViewController.openItems
    cases objectAt s.mem.curLST row with
    | error e => exact hs.congr rfl rfl rfl
    | ok l => exact hs.congr rfl rfl rfl
  | back =>
    obtain ⟨screen, -, rfl⟩ := Option.map_eq_some_iff.1 ht
    exact hs.congr rfl rfl rfl
  | addItem text now =>
    simp only [event, Option.ite_none_right_eq_some, Option.map_eq_some_iff] at ht
    obtain ⟨-, screen, -, rfl⟩ := ht
    exact stored_addItem hs hw
  | toggleItem row now =>
    obtain ⟨screen, -, rfl⟩ := Option.map_eq_some_iff.1 ht
    exact stored_toggleItem hs hw
  | deleteItem row =>
    obtain ⟨screen, -, rfl⟩ := Option.map_eq_some_iff.1 ht
    exact stored_deleteItem hs hw
  | login _ | register _ _ | logout | refresh _ | fire _ _ | complete _ _ | notify _ _ => cases ho

theorem stored_run {as : List Action} {s : Sys} (ho : ∀ a ∈ as, Offline a)
    (hw : Run.Along step HeldAtWrite as s) (hs : Stored s) : Stored (Run.run step as s) := by
  induction as generalizing s with
  | nil => exact hs
  | cons a as ih =>
    exact ih (fun b hb => ho b (List.mem_cons_of_mem _ hb)) hw.2
      (stored_step (ho a List.mem_cons_self) hw.1 hs)

/-- The files a signed-out launch can start from: those of a user and his lists,
or none at all. -/
def OfflineFiles (files : Files) : Prop :=
  files = ⟨none, none⟩ ∨
    ∃ u ls, files.userPlist = some u ∧ files.dataPlist = some ls ∧ OwnFiles u ls

/-- **A relaunch shows the lists as they were** in every signed-out run whose writes
find only lists with the current user's uid object; `data.plist` holds them all. -/
theorem curLST_relaunch {s : Sys} {now : Moment} {as : List Action} (hf : OfflineFiles s.files)
    (hc : s.currentUser = none) (ho : ∀ a ∈ as, Offline a)
    (hw : Run.Along step HeldAtWrite (.launch now :: as) s) (now' : Moment) :
    contents (step (.launch now') (Run.run step (.launch now :: as) s)).mem.curLST =
      contents (Run.run step (.launch now :: as) s).mem.curLST ∧
    (Run.run step (.launch now :: as) s).files.dataPlist =
      some (contents (Run.run step (.launch now :: as) s).mem.curLST) := by
  have h1 : Stored (step (.launch now) s) := by
    rcases hf with hf | ⟨u, ls, hu, hd, hown⟩
    · exact stored_firstLaunch hf hc
    · exact (stored_launch hu hd hown hc).1
  have hs : Stored (Run.run step as (step (.launch now) s)) := stored_run ho hw.2 h1
  exact ⟨(stored_launch hs.user hs.data hs.files hs.signedOut).2, hs.data⟩

/-- An installation of the user `ME` with one list. -/
def meDevice (currentUser : Option FIRUser) (lists : List ListData) : Device where
  files := ⟨some ⟨some "ME", some "defEmail", some "defUid"⟩, some lists⟩
  currentUser := currentUser
  mem := .init
  running := false
  rows := []
  screen := none
  pending := []
  observers := []
  syncs := 0

def meList : ListData := ⟨some "Food", ⟨some "ME", some "defEmail", some "defUid"⟩, []⟩

def noon : Moment := ⟨2020, 2, 1, 12, 0⟩

/-- A new list, an item in it and a deletion of the old list, in one session. -/
theorem curLST_relaunch_me :
    contents (step (.launch noon) (Run.run step [.launch noon, .deleteList 0, .newList "Tools",
      .openItems 0, .addItem "Saw" noon] ⟨meDevice none [meList], .emptyNode⟩)).mem.curLST =
      contents (Run.run step [.launch noon, .deleteList 0, .newList "Tools", .openItems 0,
        .addItem "Saw" noon] ⟨meDevice none [meList], .emptyNode⟩).mem.curLST ∧
    (Run.run step [.launch noon, .deleteList 0, .newList "Tools", .openItems 0,
        .addItem "Saw" noon] ⟨meDevice none [meList], .emptyNode⟩).files.dataPlist =
      some (contents (Run.run step [.launch noon, .deleteList 0, .newList "Tools", .openItems 0,
        .addItem "Saw" noon] ⟨meDevice none [meList], .emptyNode⟩).mem.curLST) :=
  curLST_relaunch (.inr ⟨_, _, rfl, rfl, ⟨rfl, by decide⟩⟩) rfl (by decide) (by decide) noon

/-- A list from `data.plist` is lost when a list is added next to it. -/
theorem not_curLST_relaunch : ¬ ∀ (s : Sys) (now now' : Moment) (as : List Action),
    OfflineFiles s.files → s.currentUser = none → (∀ a ∈ as, Offline a) →
    contents (step (.launch now') (Run.run step (.launch now :: as) s)).mem.curLST =
      contents (Run.run step (.launch now :: as) s).mem.curLST := by
  intro h
  have := h ⟨meDevice none [meList], .emptyNode⟩ noon noon [.newList "Tools"]
    (.inr ⟨_, _, rfl, rfl, ⟨rfl, by decide⟩⟩) rfl (by decide)
  revert this
  decide

end ShopingList
