import ShopingList.Classes.CompareList

/-!
# The shared data and the two files

`AppData` is the singleton. Its array properties are references: an array has an
address, and two properties can hold the same array (`curLST = offlineLST`). An
assignment through one reference is seen through every other, so a change of an
array, a list or an item is applied to every array of the program (`mapArrays`).

`user.plist` and `data.plist` hold archives.
-/

namespace ShopingList

/-- An array of lists. -/
structure NSMutableArray where
  addr : Nat
  objs : List ShopingListsClass
  deriving DecidableEq, Repr

structure InvitationClass where
  listName : Option String
  listOwner : UserClass
  deriving DecidableEq, Repr

structure AppData where
  /-- No object has this address or a later one. -/
  next : Nat
  curUser : UserClass
  curLST : Option NSMutableArray
  offlineLST : Option NSMutableArray
  onlineLST : Option NSMutableArray
  invitationLST : Option NSMutableArray
  invitationsCoords : List InvitationClass
  /-- The arrays the blocks of `FetchInvitationList` captured. -/
  fetched : List NSMutableArray
  deriving DecidableEq, Repr

/-- The objects of an array; nil has none. -/
def elems (array : Option NSMutableArray) : List ShopingListsClass :=
  (array.map NSMutableArray.objs).getD []

@[simp] theorem elems_some (a : NSMutableArray) : elems (some a) = a.objs := rfl

@[simp] theorem elems_none : elems none = [] := rfl

/-- The contents of an array. -/
def contents (array : Option NSMutableArray) : List ListData :=
  (elems array).map (·.encodeWithCoder)

/-- The files of the documents directory. -/
structure Files where
  userPlist : Option UserData
  dataPlist : Option (List ListData)
  deriving DecidableEq, Repr

namespace AppData

/-- `[[AppData alloc] init]`; `offlineLST` and the invitations stay nil. -/
def init : AppData where
  next := 3
  curUser := .null
  curLST := some ⟨1, []⟩
  offlineLST := none
  onlineLST := some ⟨2, []⟩
  invitationLST := none
  invitationsCoords := []
  fetched := []

/-- A change of objects, made in every array that holds them. -/
def mapArrays (f : NSMutableArray → NSMutableArray) (m : AppData) : AppData :=
  { m with
    curLST := m.curLST.map f
    offlineLST := m.offlineLST.map f
    onlineLST := m.onlineLST.map f
    invitationLST := m.invitationLST.map f
    fetched := m.fetched.map f }

/-- A change of the objects of one array; nil ignores it. -/
def updateArray (array : Option NSMutableArray)
    (f : List ShopingListsClass → List ShopingListsClass) (m : AppData) : AppData :=
  m.mapArrays fun b =>
    if array.map NSMutableArray.addr = some b.addr then { b with objs := f b.objs } else b

def addObject (array : Option NSMutableArray) (anObject : ShopingListsClass) (m : AppData) : AppData :=
  m.updateArray array fun objs => objs ++ [anObject]

/-- An assignment to properties of list objects. -/
def mapLists (f : ShopingListsClass → ShopingListsClass) (m : AppData) : AppData :=
  m.mapArrays fun b => { b with objs := b.objs.map f }

/-- The object `l` becomes `l'`. -/
def assignList (l l' : ShopingListsClass) (m : AppData) : AppData :=
  m.mapLists fun x => if x = l then l' else x

/-- The object `i` becomes `i'`. -/
def assignItem (i i' : ItemClass) (m : AppData) : AppData :=
  m.mapLists fun x => { x with listItems := x.listItems.map fun y => if y = i then i' else y }

end AppData

namespace ReadUserFromDisk

def read (files : Files) (m : AppData) : AppData :=
  match files.userPlist with
  | some user => { m with curUser := .initWithCoder m.next user, next := m.next + 1 }
  | none => m

end ReadUserFromDisk

namespace ReadDataFromDisk

/-- Without a file `offlineLST` stays what it was. -/
def readData (files : Files) (m : AppData) : AppData :=
  match files.dataPlist with
  | some lists =>
    { m with
      offlineLST := some ⟨m.next, ShopingListsClass.decodeLists (m.next + 1) lists⟩
      next := m.next + 1 + (lists.map ListData.size).sum }
  | none => m

end ReadDataFromDisk

namespace WriteUserToDisk

def write (m : AppData) (files : Files) : Files :=
  { files with userPlist := some m.curUser.encodeWithCoder }

end WriteUserToDisk

namespace WriteDataToDisk

/-- The lists the loop keeps: the uid of the owner is the string object of the
current user's uid. -/
def ownLists (m : AppData) : List ShopingListsClass :=
  (elems m.curLST).filter fun any => samePointer m.curUser.uid any.listOwner.uid

/-- Fills a new `offlineLST`. -/
def collect (m : AppData) : AppData :=
  { m with offlineLST := some ⟨m.next, ownLists m⟩, next := m.next + 1 }

/-- Archives `offlineLST`. -/
def archive (m : AppData) (files : Files) : Files :=
  { files with dataPlist := some (contents m.offlineLST) }

end WriteDataToDisk

namespace SetTheUser

/-- The part of `setWithName:AndEmail:AndUid:` before the write to disk; the uid
is a string object of its own. -/
def setWithName (inpName inpEmail : Option String) (inpUid : String) (m : AppData) : AppData :=
  let tempUser : UserClass := ⟨inpName, inpEmail, some ⟨m.next, inpUid⟩⟩
  let mine := (elems m.curLST).filter fun any => samePointer any.listOwner.uid m.curUser.uid
  { m.mapLists fun any => if any ∈ mine then { any with listOwner := tempUser } else any with
    curUser := tempUser
    next := m.next + 1 }

end SetTheUser

namespace PrepareFirstLists

def prepare (now : Moment) (m : AppData) : AppData :=
  let sampleItem : ItemClass := ⟨m.next, some "test item", some (DateAndTime.dateAndTimeNow now), false⟩
  let list1 : ShopingListsClass := ⟨m.next + 1, some "Sample List ", m.curUser, [sampleItem]⟩
  { m.addObject m.curLST list1 with next := m.next + 2 }

end PrepareFirstLists

/-! ## What the changes do to the arrays -/

namespace AppData

variable (m : AppData)

@[simp] theorem mapArrays_curLST (f : NSMutableArray → NSMutableArray) :
    (m.mapArrays f).curLST = m.curLST.map f := rfl

@[simp] theorem mapArrays_offlineLST (f : NSMutableArray → NSMutableArray) :
    (m.mapArrays f).offlineLST = m.offlineLST.map f := rfl

@[simp] theorem mapArrays_onlineLST (f : NSMutableArray → NSMutableArray) :
    (m.mapArrays f).onlineLST = m.onlineLST.map f := rfl

@[simp] theorem mapArrays_curUser (f : NSMutableArray → NSMutableArray) :
    (m.mapArrays f).curUser = m.curUser := rfl

theorem elems_map_objs (f : ShopingListsClass → ShopingListsClass) (a : Option NSMutableArray) :
    elems (a.map fun b => { b with objs := b.objs.map f }) = (elems a).map f := by
  cases a <;> rfl

@[simp] theorem mapLists_curLST (f : ShopingListsClass → ShopingListsClass) :
    elems (m.mapLists f).curLST = (elems m.curLST).map f := elems_map_objs f _

@[simp] theorem mapLists_offlineLST (f : ShopingListsClass → ShopingListsClass) :
    elems (m.mapLists f).offlineLST = (elems m.offlineLST).map f := elems_map_objs f _

@[simp] theorem mapLists_onlineLST (f : ShopingListsClass → ShopingListsClass) :
    elems (m.mapLists f).onlineLST = (elems m.onlineLST).map f := elems_map_objs f _

@[simp] theorem mapLists_invitationLST (f : ShopingListsClass → ShopingListsClass) :
    elems (m.mapLists f).invitationLST = (elems m.invitationLST).map f := elems_map_objs f _

@[simp] theorem mapLists_curUser (f : ShopingListsClass → ShopingListsClass) :
    (m.mapLists f).curUser = m.curUser := rfl

/-- After a change of an array every array is the changed one or as before. -/
theorem elems_updated (array a : Option NSMutableArray)
    (f : List ShopingListsClass → List ShopingListsClass) :
    elems (a.map fun b =>
        if array.map NSMutableArray.addr = some b.addr then { b with objs := f b.objs } else b) =
      f (elems a) ∨
    elems (a.map fun b =>
        if array.map NSMutableArray.addr = some b.addr then { b with objs := f b.objs } else b) =
      elems a := by
  cases a with
  | none => exact .inr rfl
  | some b =>
    rw [Option.map_some]
    split
    · exact .inl rfl
    · exact .inr rfl

theorem updateArray_self (f : List ShopingListsClass → List ShopingListsClass) :
    (m.updateArray m.curLST f).curLST = m.curLST.map fun a => { a with objs := f a.objs } := by
  unfold updateArray
  cases h : m.curLST with
  | none => simp [h]
  | some a => simp [h]

end AppData

end ShopingList
