import ShopingList.Lib.Run
import ShopingList.Classes.Cloud

/-!
# The running app

A `Device` is one installation: its files, the session of `FIRAuth`, the memory
of the process, what the screens show and the work the process waits for. A `Sys`
is a device and the database. `turn` is one turn of the main loop: an event of
the user, a callback or a delayed block. A turn can raise, which ends the
process; files, session and database stay as the exception found them.

The work that waits runs in any order: a callback comes with a snapshot taken at
some time since the request (`refresh` takes a newer one), a block of
`dispatch_after` at any time after it was scheduled.
-/

namespace ShopingList

open FNode

/-- The item screen: the index of its list, and the name in its title. -/
structure ItemScreen where
  curLSTInt : Nat
  nameOfList : Option String
  deriving DecidableEq, Repr

/-- What the process waits for. -/
inductive Pending where
  /-- The callback of `ReadDataFromCloud.read`, for the read of one `readData`. -/
  | readCallback (sync : Nat) (ref : List String) (snapshot : FNode)
  /-- The block of the same `readData` that merges and saves. -/
  | mergeBlock (sync : Nat)
  /-- The callback of `ReadInvitations.readCoordinates`. -/
  | coordsCallback (ref : List String) (snapshot : FNode)
  /-- The inner block, which appends the invitations and reloads the table. -/
  | appendBlock
  | signIn
  | loginBlock (user : FIRUser)
  | createUser (inpName inpEmail : String)
  | commitProfile (inpName inpEmail : String) (user : FIRUser)
  | registerBlock (inpName inpEmail : String) (user : FIRUser)

/-- An observer that `FetchInvitationList` registered. -/
structure Observer where
  coords : InvitationClass
  fetchedArr : Nat

structure Device where
  files : Files
  currentUser : Option FIRUser
  mem : AppData
  running : Bool
  /-- The names in the rows of the list table at its last reload. -/
  rows : List (Option String)
  screen : Option ItemScreen
  pending : List Pending
  observers : List Observer
  /-- The number of reads requested by `readData`. -/
  syncs : Nat

structure Sys extends Device where
  db : FNode

/-- What happens outside the program during a turn. -/
structure Env where
  order : DictOrder
  dates : DateAlloc
  /-- Which texts the strings of two snapshots hold as one object. -/
  sameString : String → Bool
  now : Moment

/-- The state after a turn, or the exception and the state that it found. -/
abbrev Turn := Except (NSException × Sys) Sys

namespace Sys

def withMem (m : AppData) (s : Sys) : Sys := { s with mem := m }

def await (p : Pending) (s : Sys) : Sys := { s with pending := s.pending ++ [p] }

/-- `reloadData` of the list table. -/
def reload (s : Sys) : Sys := { s with rows := (elems s.mem.curLST).map (·.listName) }

/-- `[WriteDataToDisk WriteData]`. -/
def writeData (s : Sys) : Sys :=
  { s with
    mem := WriteDataToDisk.collect s.mem
    files := WriteDataToDisk.archive (WriteDataToDisk.collect s.mem) s.files }

/-- A call of a class that writes the database. -/
def onCloud (write : FNode → Except NSException FNode) (s : Sys) : Turn :=
  match write s.db with
  | .ok db => .ok { s with db := db }
  | .error e => .error (e, s)

/-- A computation on the memory of the process. -/
def onMem (f : AppData → Except NSException AppData) (s : Sys) : Turn :=
  match f s.mem with
  | .ok m => .ok (s.withMem m)
  | .error e => .error (e, s)

def setTheUser (inpName inpEmail : Option String) (inpUid : String) (s : Sys) : Sys :=
  let m := SetTheUser.setWithName inpName inpEmail inpUid s.mem
  { s with mem := m, files := WriteUserToDisk.write m s.files }

end Sys

/-- `array[index]`; nil has nil at every index. -/
def objectAt (array : Option NSMutableArray) (index : Nat) :
    Except NSException (Option ShopingListsClass) :=
  match array with
  | none => .ok none
  | some a =>
    match a.objs[index]? with
    | some l => .ok (some l)
    | none => .error .range

namespace ListViewController

/-! ## `readData` -/

/-- The part of `readData` for the files. -/
def readFiles (now : Moment) (s : Sys) : Sys :=
  let m := ReadUserFromDisk.read s.files s.mem
  if m.curUser.uid.isNone then
    let m := { m with curUser := ⟨some "ME", some "defEmail", some ⟨0, "defUid"⟩⟩ }
    { s with
      mem := PrepareFirstLists.prepare now m
      files := WriteUserToDisk.write m s.files : Sys }.writeData
  else
    let m := ReadDataFromDisk.readData s.files m
    s.withMem { m with curLST := m.offlineLST }

/-- The part of `readData` for a signed-in user. -/
def beginSync (user : FIRUser) (s : Sys) : Turn :=
  let s := s.withMem (ReadDataFromDisk.readData s.files s.mem)
  match child dataNode (some user.uid) with
  | .error e => .error (e, s)
  | .ok ref =>
    .ok ({ s with syncs := s.syncs + 1 : Sys }.await (.readCallback s.syncs ref (getChild ref s.db))
      |>.await (.mergeBlock s.syncs))

def readData (now : Moment) (s : Sys) : Turn :=
  let s := readFiles now s
  match s.currentUser with
  | none => .ok s
  | some user => beginSync user s

/-! ## The blocks of `readData` -/

/-- `curLST = [CompareList compare:onlineLST and:offlineLST]`; the inputs lose the lists that are
on one side only. -/
def merge (dates : DateAlloc) (m : AppData) : AppData :=
  let result := CompareList.compare dates (m.next + 1) (elems m.onlineLST) (elems m.offlineLST)
  let m' := (m.updateArray m.onlineLST fun _ => result.listA).updateArray m.offlineLST fun _ => result.listB
  { m' with
    curLST := some ⟨m.next, result.combinedLists⟩
    next := m.next + 1 + result.listA.length }

/-- One turn of the loop: the current user becomes the owner of the list, which is saved. -/
def saveOne (any : ShopingListsClass) (s : Sys) : Except NSException Sys :=
  let any' := { any with listOwner := s.mem.curUser }
  match SaveListOnCloud.save s.currentUser s.mem.curUser any' s.db with
  | .ok db => .ok { s with mem := s.mem.assignList any any', db := db }
  | .error e => .error e

/-- `[FetchInvitationnData FetchInvitationList]`: an observer for each invitation. -/
def fetchInvitationList (s : Sys) : Turn :=
  let fetchedArr := s.mem.next
  match s.mem.invitationsCoords.mapM fun coords => child dataNode coords.listOwner.uidText with
  | .error e => .error (e, s)
  | .ok _ =>
    .ok { s with
      mem := { s.mem with fetched := s.mem.fetched ++ [⟨fetchedArr, []⟩], next := s.mem.next + 1 }
      observers := s.observers ++ s.mem.invitationsCoords.map (⟨·, fetchedArr⟩) }

/-- `[ReadInvitations readCoordinates]`. -/
def readCoordinates (s : Sys) : Turn :=
  match child userNode (s.currentUser.map (·.uid)) with
  | .error e => .error (e, s)
  | .ok ref => .ok (s.await (.coordsCallback ref (getChild ref s.db)))

/-- The block after one second. -/
def mergeBlock (dates : DateAlloc) (s : Sys) : Turn := do
  let s := s.withMem (merge dates s.mem)
  let s ← Raising.loop saveOne (elems s.mem.curLST) s
  let s ← readCoordinates s.writeData
  let s ← fetchInvitationList s
  return s.await .appendBlock

/-- The block 0.75 seconds later. -/
def appendBlock (s : Sys) : Sys :=
  (s.withMem (s.mem.updateArray s.mem.curLST (· ++ elems s.mem.invitationLST))).reload

/-! ## Lists -/

def addNewList (listName : String) (s : Sys) : Turn :=
  let newList : ShopingListsClass := ⟨s.mem.next, some listName, s.mem.curUser, []⟩
  let s := s.withMem { s.mem.addObject s.mem.curLST newList with next := s.mem.next + 1 }
  s.reload.writeData.onCloud (SaveListOnCloud.save s.currentUser s.mem.curUser newList)

/-- The row of a deleted list leaves the table. -/
def deleteRows (row : Nat) (s : Sys) : Sys := { s with rows := s.rows.eraseIdx row }

/-- `commitEditingStyle` of the list table. -/
def deleteList (row : Nat) (s : Sys) : Turn :=
  match objectAt s.mem.curLST row with
  | .error e => .error (e, s)
  | .ok none =>
    (deleteRows row) <$> s.onCloud (RemoveInvitation.removeWithInivitation s.currentUser ⟨none, .null⟩)
  | .ok (some listToDelete) =>
    let s := s.withMem (s.mem.updateArray s.mem.curLST (CompareList.removeObject listToDelete))
    (deleteRows row) <$>
      if isEqualToString listToDelete.listOwner.uidText s.mem.curUser.uidText then
        s.writeData.onCloud (DeleteListFromCloud.deleteFromCloud s.currentUser listToDelete)
      else
        s.onCloud (RemoveInvitation.removeWithInivitation s.currentUser
          ⟨listToDelete.listName, listToDelete.listOwner⟩)

/-- The segue to the item screen, and its `viewDidLoad`. -/
def openItems (row : Nat) (s : Sys) : Turn :=
  match objectAt s.mem.curLST row with
  | .error e => .error (e, s)
  | .ok l => .ok { s with screen := some ⟨row, l.bind (·.listName)⟩ }

/-! ## Accounts -/

/-- The block of `loginWithEmail:AndPassword:`. -/
def loginBlock (user : FIRUser) (now : Moment) (s : Sys) : Turn :=
  readData now (s.setTheUser user.displayName user.email user.uid)

/-- The block of `registerUserWithName:AndEmail:AndPassWord:`. -/
def registerBlock (inpName inpEmail : String) (user : FIRUser) (s : Sys) : Turn := do
  let s := s.setTheUser (some inpName) (some inpEmail) user.uid
  let newUser : FNode := .children (SortedDict.ofList
    [("name", .leaf inpName), ("email", .leaf inpEmail), ("uiid", .leaf user.uid)])
  let s ← s.onCloud fun db => do setValue (← child userNode (some user.uid)) newUser db
  let s := s.reload
  Raising.loop (fun any s =>
    match SaveListOnCloud.save s.currentUser s.mem.curUser any s.db with
    | .ok db => .ok { s with db := db }
    | .error e => .error e) (elems s.mem.curLST) s

end ListViewController

namespace itemViewController

/-- `textFieldDidEndEditing`, for a text that is not empty. -/
def addItem (curLSTInt : Nat) (text : String) (now : Moment) (s : Sys) : Turn :=
  let newItem : ItemClass := ⟨s.mem.next, some text, some (DateAndTime.dateAndTimeNow now), false⟩
  match objectAt s.mem.curLST curLSTInt with
  | .error e => .error (e, s)
  | .ok none => s.writeData.onCloud (SaveItemToCloud.saveItemToCloudWithItem s.currentUser newItem .null)
  | .ok (some list) =>
    let list' := { list with listItems := list.listItems ++ [newItem] }
    let s := s.withMem { s.mem.assignList list list' with next := s.mem.next + 1 }
    s.writeData.onCloud (SaveItemToCloud.saveItemToCloudWithItem s.currentUser newItem list')

/-- `didSelectRowAtIndexPath`. -/
def toggleItem (curLSTInt row : Nat) (now : Moment) (s : Sys) : Turn :=
  match objectAt s.mem.curLST curLSTInt with
  | .error e => .error (e, s)
  | .ok none => s.writeData.onCloud
      (SaveItemToCloud.saveItemToCloudWithItem s.currentUser ⟨0, none, none, false⟩ .null)
  | .ok (some list) =>
    match list.listItems[row]? with
    | none => .error (.range, s)
    | some item =>
      let item' := { item with
        itemPuchased := !item.itemPuchased
        itemTime := some (DateAndTime.dateAndTimeNow now) }
      let s := s.withMem (s.mem.assignItem item item')
      s.writeData.onCloud (SaveItemToCloud.saveItemToCloudWithItem s.currentUser item' list)

/-- `commitEditingStyle` of the item table. -/
def deleteItem (curLSTInt row : Nat) (s : Sys) : Turn :=
  match objectAt s.mem.curLST curLSTInt with
  | .error e => .error (e, s)
  | .ok none => s.writeData.onCloud
      (DeleteItemFromCloud.deleteItem s.currentUser s.mem.curUser ⟨0, none, none, false⟩ .null)
  | .ok (some list) =>
    match list.listItems[row]? with
    | none => .error (.range, s)
    | some itemToRemove =>
      let list' := { list with listItems := CompareList.removeObject itemToRemove list.listItems }
      let s := s.withMem (s.mem.assignList list list')
      s.writeData.onCloud
        (DeleteItemFromCloud.deleteItem s.currentUser s.mem.curUser itemToRemove list')

end itemViewController

/-! ## Turns of the main loop -/

inductive Action where
  /-- The app is started, after it was killed if it was running. -/
  | launch (now : Moment)
  | newList (text : String)
  | deleteList (row : Nat)
  | openItems (row : Nat)
  | back
  | addItem (text : String) (now : Moment)
  | toggleItem (row : Nat) (now : Moment)
  | deleteItem (row : Nat)
  | login (now : Moment)
  | register (inpName inpEmail : String)
  | logout
  /-- The server answers a read with what it holds now. -/
  | refresh (k : Nat)
  /-- A callback or a block runs. -/
  | fire (k : Nat) (env : Env)
  /-- `FIRAuth` completes a request, with an error or a user. -/
  | complete (k : Nat) (user : Option FIRUser)
  /-- An observer gets a value event. -/
  | notify (k : Nat) (env : Env)

open ListViewController itemViewController

/-- A new process over the files, and the first appearance of the list screen. -/
def launch (now : Moment) (s : Sys) : Turn :=
  Sys.reload <$> readData now { s with
    mem := AppData.init, running := true, rows := [], screen := none, pending := [], observers := [] }

def Pending.run (env : Env) (s : Sys) : Pending → Option Turn
  | readCallback _ _ snapshot => some (s.onMem (ReadDataFromCloud.callback env.order snapshot))
  | mergeBlock _ => some (ListViewController.mergeBlock env.dates s)
  | coordsCallback _ snapshot => some (s.onMem (ReadInvitations.callback env.order snapshot))
  | appendBlock => some (.ok (ListViewController.appendBlock s))
  | loginBlock user => some (ListViewController.loginBlock user env.now s)
  | registerBlock inpName inpEmail user =>
    some (ListViewController.registerBlock inpName inpEmail user s)
  | signIn | createUser _ _ | commitProfile _ _ _ => none

def Pending.complete (user : Option FIRUser) (s : Sys) : Pending → Option Turn
  | signIn =>
    match user with
    | none => some (.ok s)
    | some user => some (.ok ({ s with currentUser := some user : Sys }.await (.loginBlock user)))
  | createUser inpName inpEmail =>
    match user with
    | none => some (.ok s)
    | some user =>
      some (.ok ({ s with currentUser := some user : Sys }.await (.commitProfile inpName inpEmail user)))
  | commitProfile inpName inpEmail user' =>
    match user with
    | none => some (.ok s)
    | some _ =>
      let named := s.currentUser.map fun u =>
        if u.uid = user'.uid then { u with displayName := some inpName } else u
      some (.ok ({ s with currentUser := named : Sys }.await (.registerBlock inpName inpEmail user')))
  | _ => none

/-- The snapshot of a read is taken anew. -/
def Pending.refresh (db : FNode) : Pending → Pending
  | readCallback sync ref _ => .readCallback sync ref (getChild ref db)
  | coordsCallback ref _ => .coordsCallback ref (getChild ref db)
  | p => p

def Sys.without (k : Nat) (s : Sys) : Sys := { s with pending := s.pending.eraseIdx k }

/-- A turn of a running process; `none` if there is no such event. -/
def event (s : Sys) : Action → Option Turn
  | .launch now => some (launch now s)
  | .newList text => if s.screen.isNone ∧ text ≠ "" then some (addNewList text s) else none
  | .deleteList row =>
    if s.screen.isNone ∧ row < s.rows.length then some (ListViewController.deleteList row s) else none
  | .openItems row =>
    if s.screen.isNone ∧ row < s.rows.length then some (ListViewController.openItems row s) else none
  | .back => s.screen.map fun _ => .ok { s with screen := none : Sys }.reload
  | .addItem text now =>
    if text ≠ "" then s.screen.map fun screen => itemViewController.addItem screen.curLSTInt text now s
    else none
  | .toggleItem row now => s.screen.map fun screen => itemViewController.toggleItem screen.curLSTInt row now s
  | .deleteItem row => s.screen.map fun screen => itemViewController.deleteItem screen.curLSTInt row s
  | .login now =>
    if s.screen.isNone then some ((Sys.await .signIn) <$> readData now s) else none
  | .register inpName inpEmail =>
    if s.screen.isNone ∧ inpName ≠ "" ∧ inpEmail ≠ "" then
      some (.ok (s.await (.createUser inpName inpEmail))) else none
  | .logout => if s.screen.isNone then some (.ok { s with currentUser := none }) else none
  | .refresh k => some (.ok { s with pending := s.pending.modify k (Pending.refresh s.db) })
  | .fire k env => s.pending[k]?.bind (Pending.run env (s.without k))
  | .complete k user => s.pending[k]?.bind (Pending.complete user (s.without k))
  | .notify k env => s.observers[k]?.map fun o => s.onMem fun m =>
      FetchInvitationnData.block env.order env.sameString o.coords o.fetchedArr
        (getChild ("Data" :: (o.coords.listOwner.uidText.map FPath.pieces).getD []) s.db) m

/-- An uncaught exception ends the process. -/
def settle : Turn → Sys
  | .ok s => s
  | .error (_, s) => { s with running := false }

/-- What an action makes of the system; an action that is no event changes nothing. -/
def step (a : Action) (s : Sys) : Sys :=
  match a with
  | .launch now => settle (launch now s)
  | a => if s.running then ((event s a).map settle).getD s else s

/-! ## What turns leave alone -/

section
variable (w : FNode → Except NSException FNode) (s : Sys)

@[simp] theorem settle_ok : settle (.ok s) = s := rfl

/-- A write to the database changes nothing on the device. -/
theorem settle_onCloud : ∃ db running, settle (s.onCloud w) = { s with db := db, running := running } := by
  unfold Sys.onCloud
  cases w s.db with
  | ok db => exact ⟨db, s.running, rfl⟩
  | error e => exact ⟨s.db, false, rfl⟩

@[simp] theorem onCloud_mem : (settle (s.onCloud w)).mem = s.mem := by
  obtain ⟨_, _, h⟩ := settle_onCloud w s
  rw [h]

@[simp] theorem onCloud_files : (settle (s.onCloud w)).files = s.files := by
  obtain ⟨_, _, h⟩ := settle_onCloud w s
  rw [h]

@[simp] theorem onCloud_currentUser : (settle (s.onCloud w)).currentUser = s.currentUser := by
  obtain ⟨_, _, h⟩ := settle_onCloud w s
  rw [h]

@[simp] theorem onCloud_rows : (settle (s.onCloud w)).rows = s.rows := by
  obtain ⟨_, _, h⟩ := settle_onCloud w s
  rw [h]

@[simp] theorem onCloud_screen : (settle (s.onCloud w)).screen = s.screen := by
  obtain ⟨_, _, h⟩ := settle_onCloud w s
  rw [h]

@[simp] theorem onCloud_pending : (settle (s.onCloud w)).pending = s.pending := by
  obtain ⟨_, _, h⟩ := settle_onCloud w s
  rw [h]

end

/-- Taking a row out of the table changes only the table. -/
theorem settle_deleteRows (row : Nat) (t : Turn) : ∃ rows,
    settle (ListViewController.deleteRows row <$> t) = { settle t with rows := rows } := by
  cases t with
  | ok s => exact ⟨_, rfl⟩
  | error e => exact ⟨_, rfl⟩

@[simp] theorem writeData_curLST (s : Sys) : s.writeData.mem.curLST = s.mem.curLST := rfl

@[simp] theorem writeData_curUser (s : Sys) : s.writeData.mem.curUser = s.mem.curUser := rfl

@[simp] theorem writeData_userPlist (s : Sys) : s.writeData.files.userPlist = s.files.userPlist := rfl

theorem writeData_dataPlist (s : Sys) : s.writeData.files.dataPlist =
    some ((WriteDataToDisk.ownLists s.mem).map (·.encodeWithCoder)) := rfl

/-- A write keeps every list whose owner has the current user's uid object. -/
theorem writeData_dataPlist_of_samePointer {s : Sys}
    (h : ∀ l ∈ elems s.mem.curLST, samePointer s.mem.curUser.uid l.listOwner.uid = true) :
    s.writeData.files.dataPlist = some (contents s.mem.curLST) := by
  rw [writeData_dataPlist, WriteDataToDisk.ownLists, List.filter_eq_self.2 h]
  rfl

theorem objectAt_some {array : Option NSMutableArray} {index : Nat} {l : ShopingListsClass}
    (h : objectAt array index = .ok (some l)) : (elems array)[index]? = some l := by
  unfold objectAt at h
  cases array with
  | none => cases h
  | some a =>
    simp only at h
    cases hg : a.objs[index]? with
    | none => rw [hg] at h; cases h
    | some l' => rw [hg] at h; cases h; exact hg

theorem elems_updateArray_self (m : AppData) (f : List ShopingListsClass → List ShopingListsClass) :
    elems (m.updateArray m.curLST f).curLST = if m.curLST.isSome then f (elems m.curLST) else [] := by
  rw [AppData.updateArray_self]
  cases m.curLST <;> rfl

/-- A step is an event that happens, or nothing. -/
theorem step_cases {P : Sys → Prop} {a : Action} {s : Sys} (h0 : P s)
    (h : ∀ t, event s a = some t → P (settle t)) : P (step a s) := by
  have hrun : P (if s.running then ((event s a).map settle).getD s else s) := by
    split
    · cases he : event s a with
      | none => exact h0
      | some t => exact h t he
    · exact h0
  cases a with
  | launch now => exact h _ rfl
  | _ => exact hrun

theorem step_running {a : Action} {s : Sys} (hr : s.running = true) :
    step a s = ((event s a).map settle).getD s := by
  cases a with
  | launch now => rfl
  | _ => exact if_pos hr

theorem step_stopped {a : Action} {s : Sys} (hr : s.running = false) (h : ∀ now, a ≠ .launch now) :
    step a s = s := by
  cases a with
  | launch now => exact absurd rfl (h now)
  | _ => exact if_neg (by simp [hr])

/-- A turn that raises stops the process. -/
theorem ok_of_running {t : Turn} (h : (settle t).running = true) : ∃ s, t = .ok s := by
  cases t with
  | ok s => exact ⟨s, rfl⟩
  | error e => cases h

/-! ## A device of Ann -/

def annAccount : FIRUser := ⟨"u1", some "ann@mail", some "Ann"⟩

def annData : UserData := ⟨some "Ann", some "ann@mail", some "u1"⟩

def annItems (itemNames : List String) : List ItemData :=
  itemNames.map fun n => ⟨some n, some "01-02-2020 10:02", false⟩

/-- The device after a launch, before the sync. -/
def annSys (db : FNode) (disk : List ListData) : Sys where
  files := ⟨some annData, some disk⟩
  currentUser := some annAccount
  mem := { AppData.init with curUser := .initWithCoder 3 annData, next := 4 }
  running := true
  rows := []
  screen := none
  pending := []
  observers := []
  syncs := 0
  db := db

def annEnv : Env := ⟨.byKey, fun _ _ => (1, 2), fun _ => true, ⟨2020, 2, 1, 12, 0⟩⟩

end ShopingList
