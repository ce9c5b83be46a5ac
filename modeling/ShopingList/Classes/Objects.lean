import Mathlib.Data.List.Basic

/-!
# Objects of the program

`UserClass`, `ItemClass` and `ShopingListsClass` objects carry the address of the
object next to its fields. Object identity (`containsObject:`, `removeObject:`,
`==`) is equality of these records: one address belongs to one object, so records
with the same address are equal. A message to nil returns nil, so a missing user is the
user whose fields are all nil.

`UserData`, `ItemData` and `ListData` are the contents without addresses:
what an archive stores (`encodeWithCoder`) and what a reader builds new objects
from (`initWithCoder`).
-/

namespace ShopingList

/-- An `NSString`; `==` compares the addresses, `isEqualToString:` the texts. -/
structure NSString where
  addr : Nat
  text : String
  deriving DecidableEq, Repr

/-- `a == b` on references to strings. -/
def samePointer (a b : Option NSString) : Bool := a.map NSString.addr == b.map NSString.addr

/-- `[a isEqualToString:b]`; a message to nil answers `NO`. -/
def isEqualToString (a b : Option String) : Bool :=
  match a, b with
  | some x, some y => decide (x = y)
  | _, _ => false

structure UserClass where
  name : Option String
  email : Option String
  uid : Option NSString
  deriving DecidableEq, Repr

structure ItemClass where
  addr : Nat
  itemName : Option String
  itemTime : Option String
  itemPuchased : Bool
  deriving DecidableEq, Repr

structure ShopingListsClass where
  addr : Nat
  listName : Option String
  listOwner : UserClass
  listItems : List ItemClass
  deriving DecidableEq, Repr

structure UserData where
  name : Option String
  email : Option String
  uid : Option String
  deriving DecidableEq, Repr

structure ItemData where
  itemName : Option String
  itemTime : Option String
  itemPuchased : Bool
  deriving DecidableEq, Repr

structure ListData where
  listName : Option String
  listOwner : UserData
  listItems : List ItemData
  deriving DecidableEq, Repr

/-- What nil looks like through its messages. -/
def UserClass.null : UserClass := ⟨none, none, none⟩

def ShopingListsClass.null : ShopingListsClass := ⟨0, none, .null, []⟩

/-- The text of the uid. -/
def UserClass.uidText (u : UserClass) : Option String := u.uid.map NSString.text

/-! ## Archives -/

def UserClass.encodeWithCoder (u : UserClass) : UserData := ⟨u.name, u.email, u.uidText⟩

def ItemClass.encodeWithCoder (i : ItemClass) : ItemData := ⟨i.itemName, i.itemTime, i.itemPuchased⟩

def ShopingListsClass.encodeWithCoder (l : ShopingListsClass) : ListData :=
  ⟨l.listName, l.listOwner.encodeWithCoder, l.listItems.map (·.encodeWithCoder)⟩

/-- A decoded user; its uid is a new string. Strings that were one object in an
archive come back as one; the program only ever compares the uid of a list's
owner with that of the current user, which come from different archives. -/
def UserClass.initWithCoder (addr : Nat) (u : UserData) : UserClass :=
  ⟨u.name, u.email, u.uid.map fun text => ⟨addr, text⟩⟩

def ItemClass.initWithCoder (addr : Nat) (i : ItemData) : ItemClass :=
  ⟨addr, i.itemName, i.itemTime, i.itemPuchased⟩

def ItemClass.decodeItems (next : Nat) : List ItemData → List ItemClass
  | [] => []
  | i :: is => .initWithCoder next i :: decodeItems (next + 1) is

/-- The list takes `next`, the uid of its owner `next + 1`, its items the addresses after. -/
def ShopingListsClass.initWithCoder (next : Nat) (l : ListData) : ShopingListsClass :=
  ⟨next, l.listName, .initWithCoder (next + 1) l.listOwner, ItemClass.decodeItems (next + 2) l.listItems⟩

/-- The addresses a decoded list takes. -/
def ListData.size (l : ListData) : Nat := 2 + l.listItems.length

def ShopingListsClass.decodeLists (next : Nat) : List ListData → List ShopingListsClass
  | [] => []
  | l :: ls => .initWithCoder next l :: decodeLists (next + l.size) ls

@[simp] theorem UserClass.encode_init (addr : Nat) (u : UserData) :
    (UserClass.initWithCoder addr u).encodeWithCoder = u := by
  obtain ⟨n, e, uid⟩ := u
  cases uid <;> rfl

@[simp] theorem UserClass.uidText_init (addr : Nat) (u : UserData) :
    (UserClass.initWithCoder addr u).uidText = u.uid := by
  obtain ⟨n, e, uid⟩ := u
  cases uid <;> rfl

@[simp] theorem ItemClass.encode_decodeItems (next : Nat) (is : List ItemData) :
    (ItemClass.decodeItems next is).map (·.encodeWithCoder) = is := by
  induction is generalizing next with
  | nil => rfl
  | cons i is ih => rw [ItemClass.decodeItems, List.map_cons, ih]; rfl

/-- Archives preserve contents. -/
@[simp] theorem ShopingListsClass.encode_init (next : Nat) (l : ListData) :
    (ShopingListsClass.initWithCoder next l).encodeWithCoder = l := by
  simp [encodeWithCoder, initWithCoder]

@[simp] theorem ShopingListsClass.encode_decodeLists (next : Nat) (ls : List ListData) :
    (ShopingListsClass.decodeLists next ls).map (·.encodeWithCoder) = ls := by
  induction ls generalizing next with
  | nil => rfl
  | cons l ls ih => rw [ShopingListsClass.decodeLists, List.map_cons, ih, encode_init]

theorem isEqualToString_iff {a b : Option String} :
    isEqualToString a b = true ↔ ∃ s, a = some s ∧ b = some s := by
  unfold isEqualToString
  cases a <;> cases b <;> simp [eq_comm]

end ShopingList
