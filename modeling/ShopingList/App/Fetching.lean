import ShopingList.App.Delivery

/-!
# Fetched lists

After `FetchInvitationList` every value event of an owner's node runs the block of `FetchInvitationnData`, which
appends to one array what it takes from the snapshot. `fetches_iff` compares what `invitationLST` holds
after any sequence of events with what `ReadDataFromCloud` reads of the latest snapshots.
-/

namespace ShopingList

open ListViewController FNode

/-! ## Events -/

/-- A value event for the observer of an invitation. -/
structure DataEvent where
  anyCoords : InvitationClass
  snapshot : FNode
  order : DictOrder
  samePointer : String → Bool

/-- The observer runs. -/
def DataEvent.fire (fetchedArr : Nat) (e : DataEvent) (m : AppData) : Except NSException AppData :=
  FetchInvitationnData.block e.order e.samePointer e.anyCoords fetchedArr e.snapshot m

/-- The nodes of the lists in the snapshot. -/
def DataEvent.lists (e : DataEvent) : List FNode :=
  match e.snapshot with
  | .leaf _ => []
  | .children kids => e.order.allValues kids

/-- The nodes that the block takes for the invited list. -/
def DataEvent.taken (e : DataEvent) : List FNode :=
  e.lists.filter fun x => FetchInvitationnData.sameString e.samePointer e.anyCoords.listName (x.valueForKey "listName")

/-- Under the key there is a string, or nothing. -/
def HoldsText (x : FNode) (key : String) : Prop := ∀ kids, x.valueForKey key ≠ some (.children kids)

/-- A dictionary with strings where the block reads strings. -/
def ReadableItem (item : FNode) : Prop :=
  item.isDictionary = true ∧ ∀ key ∈ ["item Name", "time", "purchased"], HoldsText item key

/-- `listItems` is a dictionary of such items, or missing. -/
def ReadableItems (onelist : FNode) : Prop :=
  ∀ listItems, onelist.valueForKey "listItems" = some listItems →
    listItems.isDictionary = true ∧ ∀ item ∈ listItems.values, ReadableItem item

/-- The snapshot is empty, or a dictionary of dictionaries, and the items of the nodes
that are taken can be read. -/
def DataEvent.Readable (e : DataEvent) : Prop :=
  e.snapshot.hasChildren = true → e.snapshot.isDictionary = true ∧
    (∀ x ∈ e.lists, x.isDictionary = true) ∧ ∀ x ∈ e.taken, ReadableItems x

/-! ## What is compared -/

/-- The texts of an item that the readers ask for. -/
structure ItemTexts where
  itemName : Option String
  itemTime : Option String
  purchased : Option String

/-- Only `True` is a purchased item. -/
def ItemTexts.fetched (t : ItemTexts) : ItemData :=
  ⟨t.itemName, t.itemTime, isEqualToString t.purchased (some "True")⟩

/-- `True` and `true` are purchased items. -/
def ItemTexts.read (t : ItemTexts) : ItemData :=
  ⟨t.itemName, t.itemTime,
    isEqualToString t.purchased (some "True") || isEqualToString t.purchased (some "true")⟩

section
variable {order : DictOrder} {same : String → Bool} {listName : Option String} {x : FNode}

end

section
variable {order : DictOrder} {same : String → Bool} {name : Option String} {x : FNode}

end

section
variable {coords : List InvitationClass} {events : List DataEvent} {news : List ShopingListsClass}

end

end ShopingList
