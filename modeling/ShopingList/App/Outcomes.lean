import ShopingList.App.Writes

/-!
# What a turn makes of memory and files

`Outcome s a m f o` says that an event `a` in the state `s` may leave the memory
`m`, the files `f` and the observers `o`. `event_outcome` is the case split over
the turns of the main loop, made once: what is said of a run of the device follows
from it outcome by outcome.
-/

namespace ShopingList

open ListViewController

def defaultUser : UserClass := ⟨some "ME", some "defEmail", some ⟨0, "defUid"⟩⟩

/-- Memory and files after the part of `readData` for the files. -/
def readDisk (now : Moment) (f : Files) (m : AppData) : AppData × Files :=
  let m := ReadUserFromDisk.read f m
  if m.curUser.uid.isNone then
    let m := { m with curUser := defaultUser }
    let m' := WriteDataToDisk.collect (PrepareFirstLists.prepare now m)
    (m', WriteDataToDisk.archive m' (WriteUserToDisk.write m f))
  else
    let m := ReadDataFromDisk.readData f m
    ({ m with curLST := m.offlineLST }, f)

/-- Memory and files after `readData`: for a signed-in user `data.plist` is read again. -/
inductive ReadsData (now : Moment) (f : Files) (m : AppData) : AppData → Files → Prop
  | once : ReadsData now f m (readDisk now f m).1 (readDisk now f m).2
  | twice : ReadsData now f m (ReadDataFromDisk.readData (readDisk now f m).2 (readDisk now f m).1)
      (readDisk now f m).2

/-- Memory and files after `WriteData`. -/
inductive Writes (m : AppData) (f : Files) : AppData → Files → Prop
  | write : Writes m f (WriteDataToDisk.collect m) (WriteDataToDisk.archive (WriteDataToDisk.collect m) f)

/-- The memory after the loop of a merge block: the lists belong to the current user. -/
def ownedMerge (dates : DateAlloc) (m : AppData) : AppData :=
  (merge dates m).mapLists fun x =>
    if x ∈ elems (merge dates m).curLST then x.withOwner m.curUser else x

/-- The memory with a new list. -/
def withNewList (listName : String) (m : AppData) : AppData :=
  { m.addObject m.curLST ⟨m.next, some listName, m.curUser, []⟩ with next := m.next + 1 }

/-- The memory with a new item in the list `l`. -/
def withNewItem (text : String) (now : Moment) (l : ShopingListsClass) (m : AppData) : AppData :=
  { m.assignList l { l with listItems := l.listItems ++
      [⟨m.next, some text, some (DateAndTime.dateAndTimeNow now), false⟩] } with next := m.next + 1 }

/-- The item with the other purchased value, at the time `now`. -/
def ItemClass.toggled (now : Moment) (i : ItemClass) : ItemClass :=
  { i with
    itemPuchased := !i.itemPuchased
    itemTime := some (DateAndTime.dateAndTimeNow now) }

/-- What an event leaves. -/
inductive Outcome (s : Sys) : Action → AppData → Files → List Observer → Prop
  | same (a : Action) : Outcome s a s.mem s.files s.observers
  | launch {now m f} (h : ReadsData now s.files AppData.init m f) :
      Outcome s (.launch now) m f []
  | login {now m f} (h : ReadsData now s.files s.mem m f) : Outcome s (.login now) m f s.observers
  | newList {text m f} (h : Writes (withNewList text s.mem) s.files m f) :
      Outcome s (.newList text) m f s.observers
  | deleteOwn {row l m f} (hl : objectAt s.mem.curLST row = .ok (some l))
      (hown : isEqualToString l.listOwner.uidText s.mem.curUser.uidText = true)
      (h : Writes (s.mem.updateArray s.mem.curLST (CompareList.removeObject l)) s.files m f) :
      Outcome s (.deleteList row) m f s.observers
  | reject {row l} (hl : objectAt s.mem.curLST row = .ok (some l))
      (hown : isEqualToString l.listOwner.uidText s.mem.curUser.uidText = false) :
      Outcome s (.deleteList row) (s.mem.updateArray s.mem.curLST (CompareList.removeObject l)) s.files
        s.observers
  | write {a m f} (h : Writes s.mem s.files m f) : Outcome s a m f s.observers
  | addItem {text now l m f} (hl : shownList s = some l) (h : Writes (withNewItem text now l s.mem) s.files m f) :
      Outcome s (.addItem text now) m f s.observers
  | toggleItem {row now l i m f} (hl : shownList s = some l) (hi : l.listItems[row]? = some i)
      (h : Writes (s.mem.assignItem i (i.toggled now)) s.files m f) :
      Outcome s (.toggleItem row now) m f s.observers
  | deleteItem {row l i m f} (hl : shownList s = some l) (hi : l.listItems[row]? = some i)
      (h : Writes (s.mem.assignList l { l with listItems := CompareList.removeObject i l.listItems })
        s.files m f) : Outcome s (.deleteItem row) m f s.observers
  | readCallback {k env n ref snapshot m} (hk : s.pending[k]? = some (.readCallback n ref snapshot))
      (h : ReadDataFromCloud.callback env.order snapshot s.mem = .ok m) :
      Outcome s (.fire k env) m s.files s.observers
  /-- The block up to the write to disk. -/
  | mergeBlock {k env n m f} (hk : s.pending[k]? = some (.mergeBlock n))
      (h : Writes (ownedMerge env.dates s.mem) s.files m f) : Outcome s (.fire k env) m f s.observers
  /-- The whole block, with its observers. -/
  | fetched {k env n m f} (hk : s.pending[k]? = some (.mergeBlock n))
      (h : Writes (ownedMerge env.dates s.mem) s.files m f) :
      Outcome s (.fire k env) { m with fetched := m.fetched ++ [⟨m.next, []⟩], next := m.next + 1 } f
        (s.observers ++ m.invitationsCoords.map (⟨·, m.next⟩))
  | coordsCallback {k env ref snapshot m} (hk : s.pending[k]? = some (.coordsCallback ref snapshot))
      (h : ReadInvitations.callback env.order snapshot s.mem = .ok m) :
      Outcome s (.fire k env) m s.files s.observers
  | appendBlock {k env} (hk : s.pending[k]? = some .appendBlock) :
      Outcome s (.fire k env) (s.mem.updateArray s.mem.curLST (· ++ elems s.mem.invitationLST)) s.files
        s.observers
  | loginBlock {k env user m f} (hk : s.pending[k]? = some (.loginBlock user))
      (h : ReadsData env.now (s.setTheUser user.displayName user.email user.uid).files
        (s.setTheUser user.displayName user.email user.uid).mem m f) :
      Outcome s (.fire k env) m f s.observers
  | registerBlock {k env n e user} (hk : s.pending[k]? = some (.registerBlock n e user)) :
      Outcome s (.fire k env) (s.setTheUser (some n) (some e) user.uid).mem
        (s.setTheUser (some n) (some e) user.uid).files s.observers
  | notify {k env o m} (hk : s.observers[k]? = some o)
      (h : FetchInvitationnData.block env.order env.sameString o.coords o.fetchedArr
        (FNode.getChild ("Data" :: (o.coords.listOwner.uidText.map FPath.pieces).getD []) s.db) s.mem = .ok m) :
      Outcome s (.notify k env) m s.files s.observers

/-- The state `t` holds an outcome of the event, or the process has ended and left the files. -/
def HasOutcome (s : Sys) (a : Action) (t : Sys) : Prop :=
  Outcome s a t.mem t.files t.observers ∨ t.running = false ∧ t.files = s.files

/-! ## The turns -/

theorem readFiles_eq (now : Moment) (s : Sys) : (readFiles now s).mem = (readDisk now s.files s.mem).1 ∧
    (readFiles now s).files = (readDisk now s.files s.mem).2 ∧ (readFiles now s).observers = s.observers := by
  simp only [readFiles, readDisk]
  split
  · exact ⟨rfl, rfl, rfl⟩
  · exact ⟨rfl, rfl, rfl⟩

theorem readsData (now : Moment) (s : Sys) :
    ReadsData now s.files s.mem (settle (readData now s)).mem (settle (readData now s)).files ∧
      (settle (readData now s)).observers = s.observers := by
  obtain ⟨hm, hf, hobs⟩ := readFiles_eq now s
  have htwice : ReadsData now s.files s.mem
      (ReadDataFromDisk.readData (readFiles now s).files (readFiles now s).mem) (readFiles now s).files := by
    rw [hm, hf]
    exact .twice
  unfold readData
  simp only
  split
  · refine ⟨?_, hobs⟩
    simp only [settle, hm, hf]
    exact .once
  · unfold beginSync
    simp only
    split
    · exact ⟨htwice, hobs⟩
    · exact ⟨htwice, hobs⟩

theorem observers_onCloud (w : FNode → Except NSException FNode) (s : Sys) :
    (settle (s.onCloud w)).observers = s.observers := by
  obtain ⟨_, _, h⟩ := settle_onCloud w s
  rw [h]

/-- The end of an edit. -/
theorem HasOutcome.onCloud {s : Sys} {a : Action} (t : Sys)
    (h : ∀ m f, Writes t.mem t.files m f → Outcome s a m f t.observers)
    (w : FNode → Except NSException FNode) : HasOutcome s a (settle (t.writeData.onCloud w)) := by
  left
  rw [onCloud_mem, onCloud_files, observers_onCloud]
  exact h _ _ .write

theorem HasOutcome.deleteRows {s : Sys} {a : Action} {t : Turn} (h : HasOutcome s a (settle t)) (row : Nat) :
    HasOutcome s a (settle (deleteRows row <$> t)) := by
  obtain ⟨rows, hrows⟩ := settle_deleteRows row t
  rw [hrows]
  exact h

theorem outcome_onMem {s : Sys} {a : Action} {g : AppData → Except NSException AppData} (t : Sys)
    (ht : t.files = s.files ∧ t.mem = s.mem ∧ t.observers = s.observers)
    (h : ∀ m, g s.mem = .ok m → Outcome s a m s.files s.observers) : HasOutcome s a (settle (t.onMem g)) := by
  obtain ⟨hf, hm, ho⟩ := ht
  left
  unfold Sys.onMem
  cases hg : g t.mem with
  | error e =>
    simp only [settle, hf, hm, ho]
    exact .same a
  | ok m =>
    simp only [settle, Sys.withMem, hf, ho]
    exact h m (hm ▸ hg)

theorem outcome_addNewList (text : String) (s : Sys) :
    HasOutcome s (.newList text) (settle (addNewList text s)) :=
  HasOutcome.onCloud (s := s) (s.withMem (withNewList text s.mem)).reload (fun _ _ h => .newList h) _

theorem outcome_deleteList (row : Nat) (s : Sys) :
    HasOutcome s (.deleteList row) (settle (ListViewController.deleteList row s)) := by
  rw [ListViewController.deleteList]
  cases ho : objectAt s.mem.curLST row with
  | error e => exact .inl (.same _)
  | ok o =>
    cases o with
    | none =>
      refine HasOutcome.deleteRows (.inl ?_) row
      rw [onCloud_mem, onCloud_files, observers_onCloud]
      exact .same _
    | some l =>
      refine HasOutcome.deleteRows ?_ row
      split
      · rename_i hown
        exact HasOutcome.onCloud (s := s)
          (s.withMem (s.mem.updateArray s.mem.curLST (CompareList.removeObject l)))
          (fun _ _ h => .deleteOwn ho hown h) _
      · rename_i hown
        rw [Bool.not_eq_true] at hown
        left
        rw [onCloud_mem, onCloud_files, observers_onCloud]
        exact .reject ho hown

section
variable {s : Sys} {screen : ItemScreen} (hs : s.screen = some screen)
include hs

theorem outcome_addItem (text : String) (now : Moment) : HasOutcome s (.addItem text now)
    (settle (itemViewController.addItem screen.curLSTInt text now s)) := by
  have hshown := shownList_eq hs
  rw [itemViewController.addItem]
  cases ho : objectAt s.mem.curLST screen.curLSTInt with
  | error e => exact .inl (.same _)
  | ok o =>
    rw [ho] at hshown
    cases o with
    | none => exact HasOutcome.onCloud s (fun _ _ h => .write h) _
    | some l =>
      exact HasOutcome.onCloud (s := s) (s.withMem (withNewItem text now l s.mem))
        (fun _ _ h => .addItem hshown h) _

theorem outcome_toggleItem (row : Nat) (now : Moment) : HasOutcome s (.toggleItem row now)
    (settle (itemViewController.toggleItem screen.curLSTInt row now s)) := by
  have hshown := shownList_eq hs
  rw [itemViewController.toggleItem]
  cases ho : objectAt s.mem.curLST screen.curLSTInt with
  | error e => exact .inl (.same _)
  | ok o =>
    rw [ho] at hshown
    cases o with
    | none => exact HasOutcome.onCloud s (fun _ _ h => .write h) _
    | some l =>
      cases hi : l.listItems[row]? with
      | none =>
        simp only [hi]
        exact .inl (.same _)
      | some i =>
        simp only [hi]
        exact HasOutcome.onCloud (s := s) (s.withMem (s.mem.assignItem i (i.toggled now)))
          (fun _ _ h => .toggleItem hshown hi h) _

theorem outcome_deleteItem (row : Nat) : HasOutcome s (.deleteItem row)
    (settle (itemViewController.deleteItem screen.curLSTInt row s)) := by
  have hshown := shownList_eq hs
  rw [itemViewController.deleteItem]
  cases ho : objectAt s.mem.curLST screen.curLSTInt with
  | error e => exact .inl (.same _)
  | ok o =>
    rw [ho] at hshown
    cases o with
    | none => exact HasOutcome.onCloud s (fun _ _ h => .write h) _
    | some l =>
      cases hi : l.listItems[row]? with
      | none =>
        simp only [hi]
        exact .inl (.same _)
      | some i =>
        simp only [hi]
        exact HasOutcome.onCloud (s := s)
          (s.withMem (s.mem.assignList l { l with listItems := CompareList.removeObject i l.listItems }))
          (fun _ _ h => .deleteItem hshown hi h) _

end

/-! ## Blocks and callbacks -/

/-- After the saves and the write to disk the block makes an array for what it fetches. -/
theorem settle_fetch_cases (s : Sys) :
    let t := settle (do let s ← readCoordinates s
                        let s ← fetchInvitationList s
                        return s.await .appendBlock)
    t.files = s.files ∧ (t.mem = s.mem ∧ t.observers = s.observers ∨
      t.mem = { s.mem with fetched := s.mem.fetched ++ [⟨s.mem.next, []⟩], next := s.mem.next + 1 } ∧
        t.observers = s.observers ++ s.mem.invitationsCoords.map (⟨·, s.mem.next⟩)) := by
  unfold readCoordinates fetchInvitationList
  cases child userNode (s.currentUser.map (·.uid)) with
  | error e => exact ⟨rfl, .inl ⟨rfl, rfl⟩⟩
  | ok ref =>
    simp only [Sys.await, bind, Except.bind]
    cases s.mem.invitationsCoords.mapM fun coords => child dataNode coords.listOwner.uidText with
    | error e => exact ⟨rfl, .inl ⟨rfl, rfl⟩⟩
    | ok refs => exact ⟨rfl, .inr ⟨rfl, rfl⟩⟩

/-- The saves of a block give the lists to the current user. -/
theorem saveMerged_mem {dates : DateAlloc} {s s' : Sys} (h : saveMerged dates s = .ok s') :
    ∃ db, s' = { s with mem := ownedMerge dates s.mem, db := db } := by
  rw [saveMerged] at h
  cases hl : Raising.loop (SaveListOnCloud.save s.currentUser s.mem.curUser)
      ((elems (merge dates s.mem).curLST).map (·.withOwner s.mem.curUser)) s.db with
  | error e =>
    obtain ⟨m, hm⟩ := loop_saveOne_error (s := s.withMem (merge dates s.mem)) hl
    rw [hm] at h
    cases h
  | ok db =>
    rw [loop_saveOne_ok (s := s.withMem (merge dates s.mem)) hl] at h
    cases h
    exact ⟨db, rfl⟩

/-- **What a whole block leaves**: the memory of the merge, two calls that wait, and observers. -/
theorem mergeBlock_completes {dates : DateAlloc} {s s' : Sys} (h : ListViewController.mergeBlock dates s = .ok s') :
    ∃ ref snapshot, let m := WriteDataToDisk.collect (ownedMerge dates s.mem)
      s'.currentUser = s.currentUser ∧
      s'.mem = { m with fetched := m.fetched ++ [⟨m.next, []⟩], next := m.next + 1 } ∧
      s'.pending = s.pending ++ [.coordsCallback ref snapshot, .appendBlock] ∧
      s'.observers = s.observers ++ m.invitationsCoords.map (⟨·, m.next⟩) := by
  rw [mergeBlock_eq] at h
  obtain ⟨s₁, hsave, h⟩ := Raising.bind_ok_iff.1 h
  obtain ⟨db, rfl⟩ := saveMerged_mem hsave
  obtain ⟨s₂, hcoords, h⟩ := Raising.bind_ok_iff.1 h
  obtain ⟨s₃, hfetch, h⟩ := Raising.bind_ok_iff.1 h
  cases h
  unfold readCoordinates at hcoords
  split at hcoords
  · cases hcoords
  · cases hcoords
    unfold fetchInvitationList at hfetch
    simp only at hfetch
    split at hfetch
    · cases hfetch
    · cases hfetch
      exact ⟨_, _, rfl, rfl, List.append_assoc s.pending [_] [_], rfl⟩

theorem files_saveMerged_error {dates : DateAlloc} {s s' : Sys} {e : NSException}
    (h : saveMerged dates s = .error (e, s')) : s'.files = s.files := by
  rw [saveMerged] at h
  cases hl : Raising.loop (SaveListOnCloud.save s.currentUser s.mem.curUser)
      ((elems (merge dates s.mem).curLST).map (·.withOwner s.mem.curUser)) s.db with
  | error e =>
    obtain ⟨m, hm⟩ := loop_saveOne_error (s := s.withMem (merge dates s.mem)) hl
    rw [hm] at h
    cases h
    rfl
  | ok db =>
    rw [loop_saveOne_ok (s := s.withMem (merge dates s.mem)) hl] at h
    cases h

theorem outcome_mergeBlock {s : Sys} {k n : Nat} {env : Env} (hk : s.pending[k]? = some (.mergeBlock n)) :
    HasOutcome s (.fire k env) (settle (ListViewController.mergeBlock env.dates (s.without k))) := by
  rw [mergeBlock_eq]
  cases hsave : saveMerged env.dates (s.without k) with
  | error e =>
    obtain ⟨e, s'⟩ := e
    exact .inr ⟨rfl, (files_saveMerged_error hsave).trans rfl⟩
  | ok s₁ =>
    obtain ⟨db, rfl⟩ := saveMerged_mem hsave
    left
    have hfetch := settle_fetch_cases
      (Sys.writeData { (s.without k) with mem := ownedMerge env.dates (s.without k).mem, db := db })
    obtain ⟨hf, ⟨hm, ho⟩ | ⟨hm, ho⟩⟩ := hfetch
    · simp only [bind, Except.bind] at hf hm ho ⊢
      rw [hf, hm, ho]
      exact .mergeBlock hk .write
    · simp only [bind, Except.bind] at hf hm ho ⊢
      rw [hf, hm, ho]
      exact .fetched hk .write

/-- The same memory, files and observers. -/
def SameData (s t : Sys) : Prop := t.mem = s.mem ∧ t.files = s.files ∧ t.observers = s.observers

/-- The device is the same but for the table, and may have stopped. -/
def OnlyCloud (s t : Sys) : Prop :=
  ∃ db running rows, t = { s with db := db, running := running, rows := rows }

theorem OnlyCloud.trans {s t u : Sys} (h : OnlyCloud s t) (h' : OnlyCloud t u) : OnlyCloud s u := by
  obtain ⟨_, _, _, rfl⟩ := h
  obtain ⟨db, running, rows, rfl⟩ := h'
  exact ⟨db, running, rows, rfl⟩

theorem onlyCloud_onCloud (w : FNode → Except NSException FNode) (s : Sys) :
    OnlyCloud s (settle (s.onCloud w)) := by
  obtain ⟨db, running, h⟩ := settle_onCloud w s
  exact ⟨db, running, s.rows, h⟩

theorem onlyCloud_bind {s : Sys} {t : Turn} {g : Sys → Turn} (h : OnlyCloud s (settle t))
    (hg : ∀ s', OnlyCloud s s' → OnlyCloud s (settle (g s'))) : OnlyCloud s (settle (t >>= g)) := by
  cases t with
  | ok s' => exact hg s' h
  | error e => exact h

theorem onlyCloud_loop {s : Sys} {step : ShopingListsClass → Sys → Except NSException Sys}
    (h : ∀ a s s', step a s = .ok s' → OnlyCloud s s') (as : List ShopingListsClass) :
    OnlyCloud s (settle (Raising.loop step as s)) := by
  have ho : OnlyCloud s (Raising.outcome (Raising.loop step as s)) :=
    Raising.outcome_loop (fun a _ t t' ht hstep => ht.trans (h a t t' hstep)) ⟨_, _, _, rfl⟩
  cases hl : Raising.loop step as s with
  | ok s' =>
    rw [hl] at ho
    exact ho
  | error e =>
    rw [hl] at ho
    exact ho.trans ⟨_, false, _, rfl⟩

theorem onlyCloud_registerBlock (n e : String) (user : FIRUser) (s : Sys) :
    OnlyCloud (s.setTheUser (some n) (some e) user.uid)
      (settle (ListViewController.registerBlock n e user s)) := by
  unfold ListViewController.registerBlock
  refine onlyCloud_bind (onlyCloud_onCloud _ _) fun s' hs' => ?_
  have hreload : OnlyCloud s' s'.reload := ⟨_, _, _, rfl⟩
  refine (hs'.trans hreload).trans (onlyCloud_loop (fun a t t' h => ?_) _)
  split at h
  · cases h
    exact ⟨_, _, _, rfl⟩
  · cases h

theorem sameData_registerBlock (n e : String) (user : FIRUser) (s : Sys) :
    SameData (s.setTheUser (some n) (some e) user.uid)
      (settle (ListViewController.registerBlock n e user s)) := by
  obtain ⟨db, running, rows, h⟩ := onlyCloud_registerBlock n e user s
  rw [h]
  exact ⟨rfl, rfl, rfl⟩

theorem outcome_fire {s : Sys} {k : Nat} {env : Env} {p : Pending} {t : Turn} (hk : s.pending[k]? = some p)
    (h : Pending.run env (s.without k) p = some t) : HasOutcome s (.fire k env) (settle t) := by
  cases p with
  | readCallback n ref snapshot =>
    cases h
    exact outcome_onMem (s.without k) ⟨rfl, rfl, rfl⟩ fun m hm => .readCallback hk hm
  | mergeBlock n =>
    cases h
    exact outcome_mergeBlock hk
  | coordsCallback ref snapshot =>
    cases h
    exact outcome_onMem (s.without k) ⟨rfl, rfl, rfl⟩ fun m hm => .coordsCallback hk hm
  | appendBlock =>
    cases h
    exact .inl (.appendBlock hk)
  | loginBlock user =>
    cases h
    obtain ⟨hread, hobs⟩ := readsData env.now
      ((s.without k).setTheUser user.displayName user.email user.uid)
    left
    rw [show (settle (loginBlock user env.now (s.without k))).observers = s.observers from hobs]
    exact .loginBlock hk hread
  | registerBlock n e user =>
    cases h
    obtain ⟨hm, hf, ho⟩ := sameData_registerBlock n e user (s.without k)
    left
    rw [hm, hf, ho]
    exact .registerBlock hk
  | signIn => cases h
  | createUser n e => cases h
  | commitProfile n e user => cases h

theorem outcome_launch (now : Moment) (s : Sys) : HasOutcome s (.launch now) (settle (launch now s)) := by
  have h := readsData now { s with
    mem := AppData.init, running := true, rows := [], screen := none, pending := [], observers := [] }
  have hreload : ∀ t : Turn, SameData (settle t) (settle (Sys.reload <$> t)) := by
    intro t
    cases t with
    | ok s => exact ⟨rfl, rfl, rfl⟩
    | error e => exact ⟨rfl, rfl, rfl⟩
  obtain ⟨hm, hf, ho⟩ := hreload (readData now { s with
    mem := AppData.init, running := true, rows := [], screen := none, pending := [], observers := [] })
  left
  rw [launch, hm, hf, ho, h.2]
  exact .launch h.1

theorem outcome_same {s t : Sys} {a : Action} (h : SameData s t) : HasOutcome s a t := by
  obtain ⟨hm, hf, ho⟩ := h
  left
  rw [hm, hf, ho]
  exact .same a

/-- **What an event leaves in memory and files.** -/
theorem event_outcome {s : Sys} {a : Action} {t : Turn} (h : event s a = some t) :
    HasOutcome s a (settle t) := by
  cases a with
  | launch now =>
    cases h
    exact outcome_launch now s
  | newList text =>
    obtain ⟨-, h⟩ := Option.ite_none_right_eq_some.1 h
    cases h
    exact outcome_addNewList text s
  | deleteList row =>
    obtain ⟨-, h⟩ := Option.ite_none_right_eq_some.1 h
    cases h
    exact outcome_deleteList row s
  | openItems row =>
    obtain ⟨-, h⟩ := Option.ite_none_right_eq_some.1 h
    cases h
    refine outcome_same ?_
    unfold ListViewController.openItems
    cases objectAt s.mem.curLST row <;> exact ⟨rfl, rfl, rfl⟩
  | back =>
    obtain ⟨screen, -, h⟩ := Option.map_eq_some_iff.1 h
    cases h
    exact .inl (.same _)
  | addItem text now =>
    obtain ⟨-, h⟩ := Option.ite_none_right_eq_some.1 h
    obtain ⟨screen, hs, h⟩ := Option.map_eq_some_iff.1 h
    cases h
    exact outcome_addItem hs text now
  | toggleItem row now =>
    obtain ⟨screen, hs, h⟩ := Option.map_eq_some_iff.1 h
    cases h
    exact outcome_toggleItem hs row now
  | deleteItem row =>
    obtain ⟨screen, hs, h⟩ := Option.map_eq_some_iff.1 h
    cases h
    exact outcome_deleteItem hs row
  | login now =>
    obtain ⟨-, h⟩ := Option.ite_none_right_eq_some.1 h
    cases h
    obtain ⟨hread, hobs⟩ := readsData now s
    have hlogin : Outcome s (.login now) (settle (readData now s)).mem (settle (readData now s)).files
        (settle (readData now s)).observers := by
      rw [hobs]
      exact .login hread
    left
    cases hr : readData now s with
    | ok s' =>
      rw [hr] at hlogin
      exact hlogin
    | error e =>
      rw [hr] at hlogin
      exact hlogin
  | register n e =>
    obtain ⟨-, h⟩ := Option.ite_none_right_eq_some.1 h
    cases h
    exact .inl (.same _)
  | logout =>
    obtain ⟨-, h⟩ := Option.ite_none_right_eq_some.1 h
    cases h
    exact .inl (.same _)
  | refresh k =>
    cases h
    exact .inl (.same _)
  | fire k env =>
    obtain ⟨p, hk, h⟩ := Option.bind_eq_some_iff.1 h
    exact outcome_fire hk h
  | complete k user =>
    obtain ⟨p, -, h⟩ := Option.bind_eq_some_iff.1 h
    refine outcome_same ?_
    cases p <;> cases user <;> cases h <;> exact ⟨rfl, rfl, rfl⟩
  | notify k env =>
    obtain ⟨o, hk, h⟩ := Option.map_eq_some_iff.1 h
    cases h
    exact outcome_onMem s ⟨rfl, rfl, rfl⟩ fun m hm => .notify hk hm

/-! ## Invariants -/

/-- `Q` holds of the files, and `P` of a running process. -/
def Kept (P : AppData → Files → List Observer → Prop) (Q : Files → Prop) (s : Sys) : Prop :=
  Q s.files ∧ (s.running = true → P s.mem s.files s.observers)

theorem launch_data (now : Moment) (s : Sys) :
    ReadsData now s.files AppData.init (step (.launch now) s).mem (step (.launch now) s).files ∧
      (step (.launch now) s).observers = [] := by
  have h := readsData now { s with
    mem := AppData.init, running := true, rows := [], screen := none, pending := [], observers := [] }
  have hstep : SameData (settle (readData now { s with
      mem := AppData.init, running := true, rows := [], screen := none, pending := [], observers := [] }))
      (step (.launch now) s) := by
    show SameData _ (settle (launch now s))
    rw [launch]
    cases readData now { s with
        mem := AppData.init, running := true, rows := [], screen := none, pending := [], observers := [] } with
    | ok s => exact ⟨rfl, rfl, rfl⟩
    | error e => exact ⟨rfl, rfl, rfl⟩
  obtain ⟨hm, hf, ho⟩ := hstep
  rw [hm, hf, ho]
  exact h

/-- **The invariant rule**: `P'` after a launch, and from `P` by every outcome. -/
theorem Kept.step {P P' : AppData → Files → List Observer → Prop} {Q : Files → Prop} {a : Action} {s : Sys}
    (hs : Kept P Q s) (hQ : ∀ m f o, P' m f o → Q f)
    (hlaunch : ∀ now m f, a = .launch now → ReadsData now s.files AppData.init m f → P' m f [])
    (hstep : s.running = true → (∀ now, a ≠ .launch now) → P s.mem s.files s.observers →
      ∀ m f o, Outcome s a m f o → P' m f o) : Kept P' Q (step a s) := by
  by_cases hl : ∃ now, a = .launch now
  · obtain ⟨now, rfl⟩ := hl
    obtain ⟨hread, hobs⟩ := launch_data now s
    have hP := hlaunch now _ _ rfl hread
    rw [← hobs] at hP
    exact ⟨hQ _ _ _ hP, fun _ => hP⟩
  · have hne : ∀ now, a ≠ .launch now := fun now e => hl ⟨now, e⟩
    cases hr : s.running with
    | false =>
      rw [step_stopped hr hne]
      exact ⟨hs.1, fun h => by rw [hr] at h; cases h⟩
    | true =>
      have hout := hstep hr hne (hs.2 hr)
      refine step_cases (P := Kept P' Q) ⟨hs.1, fun _ => hout _ _ _ (.same a)⟩ fun t ht => ?_
      rcases event_outcome ht with ho | ⟨hstop, hf⟩
      · have hP := hout _ _ _ ho
        exact ⟨hQ _ _ _ hP, fun _ => hP⟩
      · refine ⟨hf ▸ hs.1, fun h => ?_⟩
        rw [hstop] at h
        cases h

end ShopingList
