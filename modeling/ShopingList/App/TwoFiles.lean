import ShopingList.App.Memory

/-!
# The two files

`user.plist` and `data.plist` are written at different times. `FilesAgree` says that
the lists of the one belong to the user of the other, by the texts of the uids;
`along_filesAgree_iff` says along which runs it holds after every step.
-/

namespace ShopingList

open ListViewController

/-- Every list of `data.plist` belongs to the user of `user.plist`. -/
def FilesAgree (f : Files) : Prop :=
  ∀ lists, f.dataPlist = some lists → ∀ l ∈ lists, ∃ uid, l.listOwner.uid = some uid ∧
    f.userPlist.bind UserData.uid = some uid

instance (f : Files) : Decidable (FilesAgree f) :=
  decidable_of_iff (∀ lists ∈ f.dataPlist, ∀ l ∈ lists, ∃ uid ∈ l.listOwner.uid,
    f.userPlist.bind UserData.uid = some uid) Iff.rfl

/-- The uid that `SetTheUser` gets in a step. -/
def newUid (a : Action) (s : Sys) : Option String :=
  match a with
  | .fire k _ =>
    if s.running then
      match s.pending[k]? with
      | some (.loginBlock user) => some user.uid
      | some (.registerBlock _ _ user) => some user.uid
      | _ => none
    else none
  | _ => none

/-- A user is set only when the lists on disk are his already. -/
def SetsOwner (a : Action) (s : Sys) : Prop :=
  ∀ uid, newUid a s = some uid → ∀ lists, s.files.dataPlist = some lists →
    ∀ l ∈ lists, l.listOwner.uid = some uid

/-- What a running process keeps: its user is that of `user.plist`, and the files agree. -/
structure UserKept (m : AppData) (f : Files) (o : List Observer) : Prop where
  strings : Strings m o
  user : ∃ uid, m.curUser.uidText = some uid ∧ f.userPlist.bind UserData.uid = some uid
  files : FilesAgree f

/-! ## Outcomes -/

section
variable {m m' : AppData} {f f' : Files} {o o' : List Observer}

/-- What `WriteData` stores belongs to the current user. -/
theorem uid_ownLists (h : Strings m o) {l : ShopingListsClass} (hl : l ∈ WriteDataToDisk.ownLists m) :
    l.listOwner.uidText = m.curUser.uidText := by
  obtain ⟨hm, hp⟩ := List.mem_filter.1 hl
  exact (h.uidText_eq mem_users_curUser (mem_users_list (AppData.mem_lists_curLST hm)) hp).symm

theorem filesAgree_archive {uid : String} (h : Strings m o) (hc : m.curUser.uidText = some uid)
    (hu : f.userPlist.bind UserData.uid = some uid) :
    FilesAgree (WriteDataToDisk.archive (WriteDataToDisk.collect m) f) := by
  rintro lists he l hl
  cases he
  obtain ⟨l', hl', rfl⟩ := List.mem_map.1 hl
  exact ⟨uid, (uid_ownLists h hl').trans hc, hu⟩

theorem UserKept.writes {uid : String} (h : Strings m o) (hc : m.curUser.uidText = some uid)
    (hu : f.userPlist.bind UserData.uid = some uid) (hw : Writes m f m' f') : UserKept m' f' o := by
  cases hw
  exact ⟨strings_collect h, ⟨uid, hc, hu⟩, filesAgree_archive h hc hu⟩

theorem uidText_readDisk (files : Files) (m : AppData) :
    (ReadDataFromDisk.readData files m).curUser = m.curUser := by
  unfold ReadDataFromDisk.readData
  split <;> rfl

/-- The files after `readData` agree if they did, or if there was no user. -/
theorem UserKept.readDisk (now : Moment) (h : Strings m o) (hf : FilesAgree f)
    (hm : f.userPlist = none → m.curUser.uidText = none) :
    UserKept (readDisk now f m).1 (readDisk now f m).2 o := by
  have hstrings := strings_readDiskFiles h now f
  have hread := strings_readUser h f
  revert hstrings
  simp only [ShopingList.readDisk]
  split
  · intro hstrings
    refine ⟨hstrings, ⟨"defUid", rfl, rfl⟩, ?_⟩
    exact filesAgree_archive (strings_prepare (strings_default hread) now) rfl rfl
  · rename_i huid
    intro hstrings
    refine ⟨hstrings, ?_, hf⟩
    rw [uidText_readDisk]
    cases hu : f.userPlist with
    | none =>
      simp only [ReadUserFromDisk.read, hu] at huid
      have := hm hu
      rw [UserClass.uidText, Option.map_eq_none_iff] at this
      rw [this] at huid
      exact absurd rfl huid
    | some user =>
      simp only [ReadUserFromDisk.read, hu] at huid ⊢
      rw [UserClass.uidText_init]
      cases hn : user.uid with
      | none => exact absurd (by simp [UserClass.initWithCoder, hn]) huid
      | some uid => exact ⟨uid, rfl, hn⟩

theorem UserKept.readsData {now : Moment} (h : Strings m o) (hf : FilesAgree f)
    (hm : f.userPlist = none → m.curUser.uidText = none) (hr : ReadsData now f m m' f') :
    UserKept m' f' o := by
  obtain ⟨hs, huser, hfiles⟩ := UserKept.readDisk now h hf hm
  cases hr with
  | once => exact ⟨hs, huser, hfiles⟩
  | twice =>
    refine ⟨strings_readDisk hs _, ?_, hfiles⟩
    rw [uidText_readDisk]
    exact huser

theorem UserKept.same {m' : AppData} (h : UserKept m f o) (hs : Strings m' o') (hc : m'.curUser = m.curUser) :
    UserKept m' f o' := ⟨hs, hc ▸ h.user, h.files⟩

end

section
variable {order : FNode.DictOrder} {snapshot : FNode} {m m' : AppData}

theorem curUser_readCallback (h : ReadDataFromCloud.callback order snapshot m = .ok m') :
    m'.curUser = m.curUser := by
  obtain rfl | ⟨ls, -, rfl⟩ := readCallback_ok h <;> rfl

theorem curUser_coordsCallback (h : ReadInvitations.callback order snapshot m = .ok m') :
    m'.curUser = m.curUser := by
  obtain rfl | ⟨values, coords, -, rfl⟩ := coordsCallback_ok h <;> rfl

theorem curUser_fetchBlock {sameString : String → Bool} {coords : InvitationClass} {fetchedArr : Nat}
    (h : FetchInvitationnData.block order sameString coords fetchedArr snapshot m = .ok m') :
    m'.curUser = m.curUser := by
  obtain rfl | ⟨found, rfl⟩ := fetchBlock_ok h <;> rfl

end

/-! ## Steps and runs -/

theorem newUid_loginBlock {s : Sys} {k : Nat} {env : Env} {user : FIRUser} (hr : s.running = true)
    (hk : s.pending[k]? = some (.loginBlock user)) : newUid (.fire k env) s = some user.uid := by
  simp only [newUid, hr, hk, if_true]

theorem newUid_registerBlock {s : Sys} {k : Nat} {env : Env} {n e : String} {user : FIRUser}
    (hr : s.running = true) (hk : s.pending[k]? = some (.registerBlock n e user)) :
    newUid (.fire k env) s = some user.uid := by
  simp only [newUid, hr, hk, if_true]

/-- The files after `SetTheUser`. -/
theorem filesAgree_setTheUser {n e : Option String} {uid : String} {s : Sys} :
    FilesAgree (s.setTheUser n e uid).files ↔
      ∀ lists, s.files.dataPlist = some lists → ∀ l ∈ lists, l.listOwner.uid = some uid := by
  constructor
  · intro h lists hd l hl
    obtain ⟨uid', ho, hu⟩ := h lists hd l hl
    cases hu
    exact ho
  · intro h lists hd l hl
    exact ⟨uid, h lists hd l hl, rfl⟩

/-- **One step.** -/
theorem userKept_outcome {s : Sys} {a : Action} {m : AppData} {f : Files} {o : List Observer}
    (h : UserKept s.mem s.files s.observers) (hr : s.running = true) (hset : SetsOwner a s)
    (hne : ∀ now, a ≠ .launch now) (ho : Outcome s a m f o) : UserKept m f o := by
  obtain ⟨uid, hc, hu⟩ := h.user
  have hplist : s.files.userPlist = none → s.mem.curUser.uidText = none := fun hn => by
    rw [hn] at hu
    cases hu
  cases ho with
  | same => exact h
  | launch hr => exact absurd rfl (hne _)
  | login hr => exact .readsData h.strings h.files hplist hr
  | newList hw => exact .writes (strings_newList h.strings _) hc hu hw
  | deleteOwn hl hown hw => exact .writes (strings_removeObject h.strings _ _) hc hu hw
  | reject hl hown => exact h.same (strings_removeObject h.strings _ _) rfl
  | write hw => exact .writes h.strings hc hu hw
  | addItem hl hw => exact .writes (strings_newItem h.strings _ _ _) hc hu hw
  | toggleItem hl hi hw => exact .writes (strings_assignItem h.strings _ _) hc hu hw
  | deleteItem hl hi hw => exact .writes (strings_assignList h.strings _ _) hc hu hw
  | readCallback hk hm => exact h.same (strings_readCallback h.strings hm) (curUser_readCallback hm)
  | mergeBlock hk hw => exact .writes (strings_ownedMerge h.strings _) hc hu hw
  | fetched hk hw =>
    have hwrites := UserKept.writes (strings_ownedMerge h.strings _) hc hu hw
    exact hwrites.same (strings_fetched hwrites.strings) rfl
  | coordsCallback hk hm =>
    exact h.same (strings_coordsCallback h.strings hm) (curUser_coordsCallback hm)
  | appendBlock hk => exact h.same (strings_append h.strings) rfl
  | loginBlock hk hread =>
    refine .readsData (strings_setWithName h.strings _ _ _) ?_ ?_ hread
    · exact filesAgree_setTheUser.2 (hset _ (newUid_loginBlock hr hk))
    · intro hn
      cases hn
  | registerBlock hk =>
    exact ⟨strings_setWithName h.strings _ _ _, ⟨_, rfl, rfl⟩,
      filesAgree_setTheUser.2 (hset _ (newUid_registerBlock hr hk))⟩
  | notify hk hm =>
    exact h.same (strings_notify h.strings (List.mem_of_getElem? hk) hm) (curUser_fetchBlock hm)

theorem userKept_step {s : Sys} {a : Action} (hs : Kept UserKept FilesAgree s) (hset : SetsOwner a s) :
    Kept UserKept FilesAgree (step a s) :=
  hs.step (fun _ _ _ h => h.files)
    (fun _ _ _ _ hread => .readsData strings_init hs.1 (fun _ => rfl) hread)
    (fun hr hne h _ _ _ ho => userKept_outcome h hr hset hne ho)

theorem readUser_eq (f : Files) (m : AppData) :
    ∃ u n, ReadUserFromDisk.read f m = { m with curUser := u, next := n } := by
  unfold ReadUserFromDisk.read
  split
  · exact ⟨_, _, rfl⟩
  · exact ⟨m.curUser, m.next, rfl⟩

/-- Without a stored user a new process has none. -/
theorem readUser_none {f : Files} (h : ¬ ∃ u, f.userPlist = some u ∧ u.uid.isSome = true) :
    (ReadUserFromDisk.read f AppData.init).curUser.uid.isNone = true := by
  unfold ReadUserFromDisk.read
  split
  · rename_i u hu
    rw [UserClass.initWithCoder, Option.isNone_map, Option.isNone_iff_eq_none]
    by_contra hne
    exact h ⟨u, hu, Option.ne_none_iff_isSome.1 hne⟩
  · rfl

/-- The files of a stored user are read, and none is written. -/
theorem readDisk_stored {now : Moment} {f : Files} {m : AppData} {u : UserData} (hu : f.userPlist = some u)
    (huid : u.uid.isSome = true) : readDisk now f m =
      ({ ReadDataFromDisk.readData f (ReadUserFromDisk.read f m) with
        curLST := (ReadDataFromDisk.readData f (ReadUserFromDisk.read f m)).offlineLST }, f) := by
  have hif : ¬ (ReadUserFromDisk.read f m).curUser.uid.isNone = true := by
    simp [ReadUserFromDisk.read, hu, UserClass.initWithCoder, Option.isNone_iff_eq_none,
      Option.ne_none_iff_isSome.2 huid]
  simp only [readDisk, if_neg hif]

theorem files_readsData {now : Moment} {f f' : Files} {m m' : AppData} {u : UserData} (hu : f.userPlist = some u)
    (huid : u.uid.isSome = true) (h : ReadsData now f m m' f') : f' = f := by
  have hdisk : (readDisk now f m).2 = f := by rw [readDisk_stored hu huid]
  cases h with
  | once => exact hdisk
  | twice => exact hdisk

/-- What a step that sets a user leaves on disk. -/
theorem files_of_newUid {s : Sys} {a : Action} {uid : String} (h : newUid a s = some uid) :
    ∃ n e, (step a s).files = (s.setTheUser n e uid).files := by
  unfold newUid at h
  split at h
  · rename_i k env
    split at h
    · rename_i hr
      rw [step_running hr]
      split at h
      · rename_i user hk
        cases h
        refine ⟨user.displayName, user.email, ?_⟩
        rw [event, hk]
        have hread := (readsData env.now
          ((s.without k).setTheUser user.displayName user.email user.uid)).1
        exact files_readsData rfl rfl hread
      · rename_i n e user hk
        cases h
        refine ⟨some n, some e, ?_⟩
        rw [event, hk]
        exact (sameData_registerBlock n e user (s.without k)).2.1
      · cases h
    · cases h
  · cases h

/-- A block that sets a user for the lists of another leaves files that do not agree. -/
theorem setsOwner_of_filesAgree {s : Sys} {a : Action} (h : FilesAgree (step a s).files) : SetsOwner a s := by
  intro uid huid
  obtain ⟨n, e, hfiles⟩ := files_of_newUid huid
  rw [hfiles] at h
  exact filesAgree_setTheUser.1 h

/-- **The two files agree after every step** of exactly the runs in which a user is set only
when the lists on disk are his already. -/
theorem along_filesAgree_iff {s : Sys} (as : List Action) (hr : s.running = false) (hf : FilesAgree s.files) :
    Run.Along step SetsOwner as s ↔ Run.Along step (fun a s => FilesAgree (step a s).files) as s := by
  refine Run.along_iff (P := Kept UserKept FilesAgree) (fun a s hset hs => userKept_step hs hset)
    (fun a s hs => ⟨fun hset => (userKept_step hs hset).1, setsOwner_of_filesAgree⟩)
    ⟨hf, fun h => by rw [hr] at h; cases h⟩

/-! ## The first device of Ann -/

/-- A device with no files; `ann` will sign in. -/
def newDevice : Sys where
  files := ⟨none, none⟩
  currentUser := none
  mem := AppData.init
  running := false
  rows := []
  screen := none
  pending := []
  observers := []
  syncs := 0
  db := .emptyNode

theorem along_filesAgree_iff_new : Run.Along step SetsOwner [.launch annEnv.now, .newList "Tools"] newDevice ↔
    Run.Along step (fun a s => FilesAgree (step a s).files) [.launch annEnv.now, .newList "Tools"] newDevice :=
  along_filesAgree_iff _ rfl fun _ h => by cases h

/-- A login, with the sample list of the first launch on disk. -/
theorem not_along_filesAgree : ¬ ∀ (s : Sys) (as : List Action), s.running = false → FilesAgree s.files →
    Run.Along step (fun a s => FilesAgree (step a s).files) as s := by
  intro h
  have hlogin := (h newDevice [.launch annEnv.now, .login annEnv.now, .complete 0 (some annAccount),
    .fire 0 annEnv] rfl fun _ h => by cases h).2.2.2.1
  revert hlogin
  decide

end ShopingList
