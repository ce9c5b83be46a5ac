import ShopingList.Lib.Raising
import ShopingList.Firebase.Node
import ShopingList.Classes.AppData

/-!
# The classes that write and read the realtime database

The lists of a user are stored at `Data/uid/listName`, the invitations to a user at
`Users/uid/invitations`. A writer either writes once, at its end, or raises
before it has written anything: it returns the new database or the exception.
-/

namespace ShopingList

open FNode

/-- The signed-in user of `FIRAuth`. -/
structure FIRUser where
  uid : String
  email : Option String
  displayName : Option String
  deriving DecidableEq, Repr

def dataNode : List String := ["Data"]

def userNode : List String := ["Users"]

/-- The entries of `initWithObjectsAndKeys:`, which ends at the first nil object. -/
def objectsAndKeys : List (Option String × String) → List (String × FNode)
  | (some anObject, key) :: rest => (key, .leaf anObject) :: objectsAndKeys rest
  | _ => []

def dictionary (l : List (Option String × String)) : FNode :=
  .children (SortedDict.ofList (objectsAndKeys l))

/-- A key or an object that must not be nil. -/
def nonNil {α : Type} : Option α → Except NSException α
  | some a => .ok a
  | none => .error .invalidArgument

/-! ## Writers -/

namespace SaveListOnCloud

def purchasedString (itemPuchased : Bool) : String := if itemPuchased then "True" else "False"

def newItemAsADictionary (any : ItemClass) : FNode :=
  dictionary [(any.itemName, "item Name"), (some (purchasedString any.itemPuchased), "purchased"),
    (any.itemTime, "time")]

/-- One turn of the loop over the items: an entry of `items`. -/
def itemEntry (any : ItemClass) : Except NSException (String × FNode) := do
  return (← nonNil any.itemName, newItemAsADictionary any)

def listOwnerDic (listOwner : UserClass) : FNode :=
  dictionary [(listOwner.name, "userName"), (listOwner.email, "Email"), (listOwner.uidText, "uid")]

def listDic (inpList : ShopingListsClass) : Except NSException FNode := do
  let listName ← nonNil inpList.listName
  let items ← inpList.listItems.mapM itemEntry
  return .children (SortedDict.ofList [("listName", .leaf listName),
    ("listUser", listOwnerDic inpList.listOwner), ("listItems", .children (SortedDict.ofList items))])

/-- The list goes below the current user's node, whoever its owner is. -/
def save (currentUser : Option FIRUser) (curUser : UserClass) (inpList : ShopingListsClass)
    (db : FNode) : Except NSException FNode :=
  if currentUser.isNone then .ok db
  else do
    let value ← listDic inpList
    let ref ← child (← child dataNode curUser.uidText) inpList.listName
    setValue ref value db

end SaveListOnCloud

namespace SaveItemToCloud

/-- The key of the name is `Item name`, not the `item Name` of `SaveListOnCloud`. -/
def itemDic (inpItem : ItemClass) : FNode :=
  dictionary [(inpItem.itemName, "Item name"),
    (some (SaveListOnCloud.purchasedString inpItem.itemPuchased), "purchased"), (inpItem.itemTime, "time")]

def saveItemToCloudWithItem (currentUser : Option FIRUser) (inpItem : ItemClass)
    (inpList : ShopingListsClass) (db : FNode) : Except NSException FNode :=
  if currentUser.isNone then .ok db
  else do
    let ref ← child (← child dataNode inpList.listOwner.uidText) inpList.listName
    let ref ← child (← child ref (some "listItems")) inpItem.itemName
    setValue ref (itemDic inpItem) db

end SaveItemToCloud

namespace DeleteItemFromCloud

/-- The path starts at the current user's node, not at that of the owner of the list. -/
def deleteItem (currentUser : Option FIRUser) (curUser : UserClass) (inpItem : ItemClass)
    (inpList : ShopingListsClass) (db : FNode) : Except NSException FNode :=
  if currentUser.isNone then .ok db
  else do
    let ref ← child (← child dataNode curUser.uidText) inpList.listName
    let itemNode ← child (← child ref (some "listItems")) inpItem.itemName
    return removeValue itemNode db

end DeleteItemFromCloud

namespace DeleteListFromCloud

def deleteFromCloud (currentUser : Option FIRUser) (inpList : ShopingListsClass) (db : FNode) :
    Except NSException FNode :=
  if currentUser.isNone then .ok db
  else do
    let nodeToRemove ← child (← child dataNode inpList.listOwner.uidText) inpList.listName
    return removeValue nodeToRemove db

end DeleteListFromCloud

namespace RemoveInvitation

/-- `%@` prints nil as `(null)`. -/
def formatted (s : Option String) : String := s.getD "(null)"

def removeWithInivitation (currentUser : Option FIRUser) (inpInvitation : InvitationClass) (db : FNode) :
    Except NSException FNode :=
  if currentUser.isNone then .ok db
  else do
    let invitationTitle :=
      formatted inpInvitation.listOwner.uidText ++ "|" ++ formatted inpInvitation.listName
    let ref ← child (← child userNode inpInvitation.listOwner.uidText) (some "invitations")
    let invitationRef ← child ref (some invitationTitle)
    return removeValue invitationRef db

end RemoveInvitation

/-! ## Readers -/

namespace ReadDataFromCloud

def readItem (eachItem : FNode) : Except NSException ItemData := do
  let readItemName ← stringForKey "item Name" eachItem
  let itemPurchasedS ← stringForKey "purchased" eachItem
  let itemTime ← stringForKey "time" eachItem
  return ⟨readItemName, itemTime,
    isEqualToString itemPurchasedS (some "True") || isEqualToString itemPurchasedS (some "true")⟩

/-- The owner of a list; the keys of nil are nil. -/
def readOwner : Option FNode → Except NSException UserData
  | none => .ok ⟨none, none, none⟩
  | some listOwner => do
    return ⟨← stringForKey "userName" listOwner, ← stringForKey "Email" listOwner,
      ← stringForKey "uid" listOwner⟩

def readItems (order : DictOrder) : Option FNode → Except NSException (List ItemData)
  | none => .ok []
  | some thisListItems => do (← allValues order thisListItems).mapM readItem

def readList (order : DictOrder) (any : FNode) : Except NSException ListData := do
  let listName ← stringForKey "listName" any
  let onlineUser ← readOwner (← objectForKey "listUser" any)
  let listitems ← readItems order (← objectForKey "listItems" any)
  return ⟨listName, onlineUser, listitems⟩

/-- The contents of `onlineList`, for a snapshot with children. -/
def readLists (order : DictOrder) (snapshot : FNode) : Except NSException (List ListData) := do
  (← allValues order snapshot).mapM (readList order)

/-- The callback of `read`. A snapshot without children leaves `onlineLST` as it is. -/
def callback (order : DictOrder) (snapshot : FNode) (m : AppData) : Except NSException AppData :=
  if snapshot.hasChildren then do
    let lists ← readLists order snapshot
    return { m with
      onlineLST := some ⟨m.next, ShopingListsClass.decodeLists (m.next + 1) lists⟩
      next := m.next + 1 + (lists.map ListData.size).sum }
  else .ok m

end ReadDataFromCloud

namespace ReadInvitations

/-- An invitation; the uid of its list's owner is a new string. -/
def readInvitation (addr : Nat) (any : FNode) : Except NSException InvitationClass := do
  let thisListName ← stringForKey "listName" any
  let thisUser : UserData := ⟨← stringForKey "ListOwner" any, ← stringForKey "email" any,
    ← stringForKey "uid" any⟩
  return ⟨thisListName, .initWithCoder addr thisUser⟩

def readAll : Nat → List FNode → Except NSException (List InvitationClass)
  | _, [] => .ok []
  | addr, any :: rest => do return (← readInvitation addr any) :: (← readAll (addr + 1) rest)

/-- The callback of `readCoordinates`. -/
def callback (order : DictOrder) (snapshot : FNode) (m : AppData) : Except NSException AppData :=
  if snapshot.hasChildren then do
    match ← objectForKey "invitations" snapshot with
    | none => return m
    | some dic =>
      let coordsReads ← readAll m.next (← allValues order dic)
      return { m with invitationsCoords := coordsReads, next := m.next + coordsReads.length }
  else .ok m

end ReadInvitations

namespace FetchInvitationnData

/-- Like `readItem`, but only the string `True` is a purchased item. -/
def readItem (item : FNode) : Except NSException ItemData := do
  let itemPurchased := isEqualToString (← stringForKey "purchased" item) (some "True")
  return ⟨← stringForKey "item Name" item, ← stringForKey "time" item, itemPurchased⟩

def readItems (order : DictOrder) : Option FNode → Except NSException (List ItemData)
  | none => .ok []
  | some listItems => do (← allValues order listItems).mapM readItem

/-- `anyCoords.listName == onelist[@"listName"]`. The strings come from two
snapshots; `samePointer` says which texts are kept as one object. -/
def sameString (samePointer : String → Bool) (a : Option String) (b : Option FNode) : Bool :=
  match a, b with
  | none, none => true
  | some x, some (.leaf y) => decide (x = y) && samePointer x
  | _, _ => false

/-- The items of the lists of a snapshot that the block takes for the invited one. -/
def fetchedItems (order : DictOrder) (samePointer : String → Bool) (listName : Option String) :
    List FNode → Except NSException (List (List ItemData))
  | [] => .ok []
  | onelist :: rest => do
    if sameString samePointer listName (← objectForKey "listName" onelist) then
      let itemsFetched ← readItems order (← objectForKey "listItems" onelist)
      return itemsFetched :: (← fetchedItems order samePointer listName rest)
    else fetchedItems order samePointer listName rest

/-- The lists made from these items, from the address `next` on. -/
def makeLists (coords : InvitationClass) (next : Nat) : List (List ItemData) → List ShopingListsClass
  | [] => []
  | itemsFetched :: rest =>
    ⟨next, coords.listName, coords.listOwner, ItemClass.decodeItems (next + 1) itemsFetched⟩ ::
      makeLists coords (next + 1 + itemsFetched.length) rest

/-- The block of an observer, on a snapshot of the owner's node. `fetchedArr` is an
array captured by the block. -/
def block (order : DictOrder) (samePointer : String → Bool) (anyCoords : InvitationClass)
    (fetchedArr : Nat) (snapshot : FNode) (m : AppData) : Except NSException AppData :=
  if snapshot.hasChildren then do
    let found ← fetchedItems order samePointer anyCoords.listName (← allValues order snapshot)
    let lists := makeLists anyCoords m.next found
    if lists.isEmpty then return m
    let m := m.mapArrays fun b => if b.addr = fetchedArr then { b with objs := b.objs ++ lists } else b
    return { m with
      invitationLST := m.fetched.find? fun b => b.addr = fetchedArr
      next := m.next + (found.map fun items => 1 + items.length).sum }
  else .ok m

end FetchInvitationnData

end ShopingList
