import ShopingList.Firebase.Stored
import ShopingList.Classes.Cloud
import ShopingList.Classes.Collection

/-!
# Saved lists and what is read back

`listNode` is the node that `SaveListOnCloud.save` leaves for a list
(`save_ok_iff`), `cloudNode` the node of a user after all lists of a collection
are saved. `readLists_cloudNode` reads a collection back up to the order of lists
and items.
-/

namespace ShopingList

open FNode FValidation KeyedMerge

/-! ## Nodes with one child for each entry -/

section
variable {α : Type} (key : α → Option String) (node : α → FNode)

def entriesBy (l : List α) : List (String × FNode) :=
  l.filterMap fun a => (key a).map fun n => (n, node a)

def nodeBy (l : List α) : FNode := .children (SortedDict.ofList (entriesBy key node l))

variable {key node}

theorem mem_entriesBy {l : List α} {p : String × FNode} :
    p ∈ entriesBy key node l ↔ ∃ a ∈ l, key a = some p.1 ∧ node a = p.2 := by
  simp only [entriesBy, List.mem_filterMap, Option.map_eq_some_iff]
  constructor
  · rintro ⟨a, ha, n, hn, rfl⟩
    exact ⟨a, ha, hn, rfl⟩
  · rintro ⟨a, ha, hn, hp⟩
    exact ⟨a, ha, p.1, hn, by rw [hp]⟩

theorem entriesBy_cons {a : α} {n : String} (h : key a = some n) (l : List α) :
    entriesBy key node (a :: l) = (n, node a) :: entriesBy key node l := by
  simp [entriesBy, h]

theorem entriesBy_keys {l : List α} (h : Distinct key l) :
    ((entriesBy key node l).map Prod.fst).map some = l.map key := by
  induction l with
  | nil => rfl
  | cons a l ih =>
    obtain ⟨n, hn⟩ := h.keyed a List.mem_cons_self
    rw [entriesBy_cons hn, List.map_cons, List.map_cons, ih h.of_cons, List.map_cons, hn]

theorem entriesBy_nodup {l : List α} (h : Distinct key l) :
    ((entriesBy key node l).map Prod.fst).Nodup := by
  refine List.Nodup.of_map some ?_
  rw [entriesBy_keys h]
  exact h.nodup

theorem entriesBy_values {l : List α} (h : Distinct key l) :
    (entriesBy key node l).map Prod.snd = l.map node := by
  induction l with
  | nil => rfl
  | cons a l ih =>
    obtain ⟨n, hn⟩ := h.keyed a List.mem_cons_self
    rw [entriesBy_cons hn, List.map_cons, List.map_cons, ih h.of_cons]

theorem get_entriesBy {l : List α} (h : Distinct key l) (k : String) :
    SortedDict.get k (SortedDict.ofList (entriesBy key node l)) = (lookup key k l).map node := by
  cases hl : lookup key k l with
  | none =>
    refine SortedDict.get_ofList_none fun v hv => ?_
    obtain ⟨a, ha, hk, -⟩ := mem_entriesBy.1 hv
    exact lookup_none.1 hl a ha hk
  | some a =>
    obtain ⟨ha, hk⟩ := lookup_some hl
    exact SortedDict.get_ofList_mem (entriesBy_nodup h) (mem_entriesBy.2 ⟨a, ha, hk, rfl⟩)

/-- Entries of one name: the last one is stored. -/
theorem get_entriesBy_last (l : List α) (k : String) :
    SortedDict.get k (SortedDict.ofList (entriesBy key node l)) = (last key k l).map node := by
  have hf : (entriesBy key node l).filter (fun p => p.1 = k) =
      (l.filter fun a => decide (key a = some k)).map fun a => (k, node a) := by
    induction l with
    | nil => rfl
    | cons a l ih =>
      cases hn : key a with
      | none => simpa [entriesBy, hn] using ih
      | some n =>
        rw [entriesBy_cons hn, List.filter_cons, ih, List.filter_cons, hn]
        by_cases hk : n = k <;> simp [hk]
  rw [SortedDict.ofList, SortedDict.get_foldl_set, hf, List.getLast?_map, SortedDict.get_nil,
    Option.or_none, Option.map_map, last]
  rfl

theorem perm_map_inv {β : Type} {f : α → β} {l : List α} {m : List β} (h : m.Perm (l.map f)) :
    ∃ l' : List α, l'.Perm l ∧ m = l'.map f := by
  have hc := congrFun (congrFun (List.eq_map_comp_perm f) m) l
  rw [← hc] at h
  obtain ⟨l', he, hp⟩ := h
  exact ⟨l', hp, he⟩

/-- The values of a node are the nodes of the entries, in some order. -/
theorem allValues_nodeBy {order : DictOrder} {l : List α} {vals : List FNode} (h : Distinct key l)
    (hv : allValues order (nodeBy key node l) = .ok vals) : ∃ l' : List α, l'.Perm l ∧ vals = l'.map node := by
  rw [nodeBy, allValues] at hv
  split at hv
  · cases hv
  · cases hv
    refine perm_map_inv ((order.perm _).trans ?_)
    rw [← entriesBy_values h]
    exact (SortedDict.perm_ofList (entriesBy_nodup h)).map _

end

/-! ## Reading dictionaries -/

/-- A key that the database takes for an integer: an index of an array, or a zero that
`keyComparator` may not tell from another one. -/
def integerLike (key : String) : Bool := (integerKey key).isSome || FUtilities.isZeroes key

theorem integerKey_of_integerLike {key : String} (h : integerLike key = false) : integerKey key = none := by
  rw [integerLike, Bool.or_eq_false_iff, Option.isSome_eq_false_iff, Option.isNone_iff_eq_none] at h
  exact h.1

theorem isZeroes_of_integerLike {key : String} (h : integerLike key = false) :
    FUtilities.isZeroes key = false := by
  rw [integerLike, Bool.or_eq_false_iff] at h
  exact h.2

/-- A key that is no index makes the exported value a dictionary. -/
theorem isArray_eq_false {kids : List (String × FNode)} {p : String × FNode} (hp : p ∈ kids)
    (hk : integerKey p.1 = none) : isArray kids = false := by
  rw [isArray, Bool.and_eq_false_iff]
  left
  rw [List.all_eq_false]
  exact ⟨p, hp, by simp [hk]⟩

theorem objectForKey_children {kids : List (String × FNode)} {p : String × FNode} (hp : p ∈ kids)
    (hk : integerKey p.1 = none) (key : String) :
    objectForKey key (.children kids) = .ok (SortedDict.get key kids) := by
  rw [objectForKey, isArray_eq_false hp hk, if_neg]
  rw [Bool.or_false, List.isEmpty_iff]
  exact List.ne_nil_of_mem hp

theorem allValues_children (order : DictOrder) {kids : List (String × FNode)} {p : String × FNode}
    (hp : p ∈ kids) (hk : integerKey p.1 = none) :
    allValues order (.children kids) = .ok (order.allValues kids) := by
  rw [allValues, isArray_eq_false hp hk, if_neg]
  rw [Bool.or_false, List.isEmpty_iff]
  exact List.ne_nil_of_mem hp

/-! ## Nodes of items, owners and lists -/

def itemNode (i : ItemData) : FNode :=
  dictionary [(i.itemName, "item Name"),
    (some (SaveListOnCloud.purchasedString i.itemPuchased), "purchased"), (i.itemTime, "time")]

def ownerNode (u : UserData) : FNode :=
  dictionary [(u.name, "userName"), (u.email, "Email"), (u.uid, "uid")]

def itemsNode (is : List ItemData) : FNode := nodeBy ItemData.itemName itemNode is

/-- The children of a list's node; the database keeps no empty child. -/
def listKids (l : ListData) : List (String × FNode) :=
  [("listItems", itemsNode l.listItems), ("listName", .leaf (l.listName.getD "")),
    ("listUser", ownerNode l.listOwner)].filter fun p => !p.2.isEmpty

/-- The node of a list that has a name. -/
def listNode (l : ListData) : FNode := .children (listKids l)

def cloudNode (ls : List ListData) : FNode := nodeBy ListData.listName listNode ls

theorem itemNode_some (n : String) (t : Option String) (p : Bool) :
    itemNode ⟨some n, t, p⟩ = .children ([("item Name", .leaf n),
      ("purchased", .leaf (SaveListOnCloud.purchasedString p))] ++
        (t.map fun t => ("time", FNode.leaf t)).toList) := by
  cases t <;>
    simp [itemNode, dictionary, objectsAndKeys, SortedDict.ofList, SortedDict.set,
      -String.lt_iff_ltb]

/-! ## Children of these nodes -/

theorem get_listKids (l : ListData) (key : String) : SortedDict.get key (listKids l) =
    (SortedDict.get key [("listItems", itemsNode l.listItems),
      ("listName", .leaf (l.listName.getD "")), ("listUser", ownerNode l.listOwner)]).filter
        fun n => !n.isEmpty := by
  refine SortedDict.get_filter (p := fun n : FNode => !n.isEmpty) ?_ key
  simp

theorem get_listKids_items (l : ListData) : SortedDict.get "listItems" (listKids l) =
    if (itemsNode l.listItems).isEmpty then none else some (itemsNode l.listItems) := by
  cases h : (itemsNode l.listItems).isEmpty <;> simp [get_listKids, SortedDict.get, Option.filter, h]

theorem get_listKids_name (l : ListData) :
    SortedDict.get "listName" (listKids l) = some (.leaf (l.listName.getD "")) := by
  simp [get_listKids, SortedDict.get, isEmpty, Option.filter]

theorem get_listKids_user (l : ListData) : SortedDict.get "listUser" (listKids l) =
    if (ownerNode l.listOwner).isEmpty then none else some (ownerNode l.listOwner) := by
  cases h : (ownerNode l.listOwner).isEmpty <;> simp [get_listKids, SortedDict.get, Option.filter, h]

theorem leafAt_listName {l : ListData} {n : String} (h : l.listName = some n) :
    leafAt ["listName"] (listNode l) = some n := by
  rw [leafAt, getChild, listNode, getImmediateChild, get_listKids_name, h]
  rfl

theorem getImmediateChild_listItems (l : ListData) :
    getImmediateChild "listItems" (listNode l) = itemsNode l.listItems := by
  rw [listNode, getImmediateChild, get_listKids_items]
  split
  · rename_i h
    exact (eq_emptyNode h).symm
  · rfl

/-- A child of the items' node is the node of an item of that name. -/
theorem getImmediateChild_itemsNode {is : List ItemData} {n : String}
    (h : (getImmediateChild n (itemsNode is)).isEmpty = false) :
    ∃ i ∈ is, i.itemName = some n ∧ getImmediateChild n (itemsNode is) = itemNode i := by
  rw [itemsNode, nodeBy, getImmediateChild] at h ⊢
  cases hg : SortedDict.get n (SortedDict.ofList (entriesBy ItemData.itemName itemNode is)) with
  | none => rw [hg] at h; cases h
  | some v =>
    obtain ⟨i, hi, hn, rfl⟩ := mem_entriesBy.1 (SortedDict.mem_ofList (SortedDict.mem_of_get hg))
    exact ⟨i, hi, hn, rfl⟩

theorem leafAt_itemNode {i : ItemData} {n : String} (h : i.itemName = some n) :
    leafAt ["item Name"] (itemNode i) = some n ∧
    leafAt ["purchased"] (itemNode i) = some (SaveListOnCloud.purchasedString i.itemPuchased) ∧
    leafAt ["time"] (itemNode i) = i.itemTime := by
  obtain ⟨nm, t, p⟩ := i
  cases h
  rw [itemNode_some]
  cases t <;> simp [leafAt, getChild, getImmediateChild, SortedDict.get, leafValue, emptyNode]

/-- What is read of an owner: the dictionary ends at the first missing field. -/
def storedOwner (u : UserData) : UserData :=
  match u.name, u.email with
  | none, _ => ⟨none, none, none⟩
  | some n, none => ⟨some n, none, none⟩
  | some n, some e => ⟨some n, some e, u.uid⟩

/-! ## `nodeFrom` on these dictionaries -/

theorem nodeFromKids_eq {kids : List (String × FNode)} (h : ∀ p ∈ kids, nodeFrom p.2 = .ok p.2) :
    nodeFromKids kids = if kids.all fun p => isValidKey p.1 then
      .ok (kids.filter fun p => !p.2.isEmpty) else .error .invalidData := by
  induction kids with
  | nil => rfl
  | cons p kids ih =>
    obtain ⟨k, v⟩ := p
    rw [nodeFromKids, h (k, v) List.mem_cons_self, ih fun q hq => h q (List.mem_cons_of_mem _ hq),
      List.all_cons, List.filter_cons]
    cases hk : isValidKey k with
    | false => rfl
    | true =>
      cases hall : kids.all fun p => isValidKey p.1 with
      | false => rfl
      | true => cases hv : v.isEmpty <;> simp [hv, bind, Except.bind, pure, Except.pure]

theorem nodeFrom_children {kids : List (String × FNode)} (h : ∀ p ∈ kids, nodeFrom p.2 = .ok p.2)
    (hne : ∀ p ∈ kids, p.2.isEmpty = false) : nodeFrom (.children kids) =
      if kids.all fun p => isValidKey p.1 then
        if tied kids then .error .sameOrdering else .ok (.children kids)
      else .error .invalidData := by
  have hself : kids.filter (fun p => !p.2.isEmpty) = kids :=
    List.filter_eq_self.2 fun p hp => by rw [hne p hp]; rfl
  rw [nodeFrom, nodeFromKids_eq h, hself]
  split
  · cases ht : tied kids with
    | true => simp only [bind, Except.bind, ht]; rfl
    | false => simp only [bind, Except.bind, ht]; rfl
  · rfl

/-- Among keys that are no zeroes none are tied. -/
theorem tied_eq_false {kids : List (String × FNode)} (h : ∀ p ∈ kids, FUtilities.isZeroes p.1 = false) :
    tied kids = false := by
  rw [tied, List.any_eq_false]
  intro p hp hany
  obtain ⟨q, -, hq⟩ := List.any_eq_true.1 hany
  have hzero := (FUtilities.isZeroes_of_sameOrdering hq).1
  rw [h p hp] at hzero
  cases hzero

theorem tied_nodeBy {α : Type} {key : α → Option String} {node : α → FNode} {l : List α} :
    tied (SortedDict.ofList (entriesBy key node l)) = false ↔
      ∀ a ∈ l, ∀ b ∈ l, ∀ m ∈ key a, ∀ n ∈ key b, FUtilities.sameOrdering m n = false := by
  simp only [tied, List.any_eq_false, Bool.not_eq_true]
  constructor
  · intro h a ha b hb m hm n hn
    obtain ⟨v, hv⟩ := SortedDict.key_mem_ofList (mem_entriesBy.2 ⟨a, ha, hm, rfl⟩ : (m, node a) ∈ _)
    obtain ⟨w, hw⟩ := SortedDict.key_mem_ofList (mem_entriesBy.2 ⟨b, hb, hn, rfl⟩ : (n, node b) ∈ _)
    exact h _ hv _ hw
  · intro h p hp q hq
    obtain ⟨a, ha, hm, -⟩ := mem_entriesBy.1 (SortedDict.mem_ofList hp)
    obtain ⟨b, hb, hn, -⟩ := mem_entriesBy.1 (SortedDict.mem_ofList hq)
    exact h a ha b hb p.1 hm q.1 hn

theorem mem_objectsAndKeys {l : List (Option String × String)} {p : String × FNode}
    (h : p ∈ objectsAndKeys l) : ∃ a, p.2 = .leaf a ∧ p.1 ∈ l.map Prod.snd := by
  induction l with
  | nil => cases h
  | cons q l ih =>
    obtain ⟨o, k⟩ := q
    cases o with
    | none => cases h
    | some a =>
      rw [objectsAndKeys] at h
      rcases List.mem_cons.1 h with rfl | h
      · exact ⟨a, rfl, List.mem_cons_self⟩
      · obtain ⟨b, hb, hm⟩ := ih h
        exact ⟨b, hb, List.mem_cons_of_mem _ hm⟩

/-- A key of the program's own dictionaries. -/
def FieldKey (k : String) : Prop := isValidKey k = true ∧ FUtilities.isZeroes k = false

instance (k : String) : Decidable (FieldKey k) := inferInstanceAs (Decidable (_ ∧ _))

theorem nodeFrom_dictionary {l : List (Option String × String)} (h : ∀ k ∈ l.map Prod.snd, FieldKey k) :
    nodeFrom (dictionary l) = .ok (dictionary l) := by
  have hmem : ∀ p ∈ SortedDict.ofList (objectsAndKeys l), ∃ a, p.2 = .leaf a ∧ p.1 ∈ l.map Prod.snd :=
    fun p hp => mem_objectsAndKeys (SortedDict.mem_ofList hp)
  have hleaf : ∀ p ∈ SortedDict.ofList (objectsAndKeys l), nodeFrom p.2 = .ok p.2 ∧ p.2.isEmpty = false := by
    intro p hp
    obtain ⟨a, ha, -⟩ := hmem p hp
    rw [ha]
    exact ⟨rfl, rfl⟩
  have hkeys : ∀ p ∈ SortedDict.ofList (objectsAndKeys l), FieldKey p.1 := by
    intro p hp
    obtain ⟨-, -, hk⟩ := hmem p hp
    exact h p.1 hk
  rw [dictionary, nodeFrom_children (fun p hp => (hleaf p hp).1) fun p hp => (hleaf p hp).2,
    if_pos (List.all_eq_true.2 fun p hp => (hkeys p hp).1), tied_eq_false fun p hp => (hkeys p hp).2]
  rfl

@[simp] theorem nodeFrom_itemNode (i : ItemData) : nodeFrom (itemNode i) = .ok (itemNode i) := by
  have h : ∀ k ∈ ["item Name", "purchased", "time"], FieldKey k := by decide
  exact nodeFrom_dictionary h

@[simp] theorem nodeFrom_ownerNode (u : UserData) : nodeFrom (ownerNode u) = .ok (ownerNode u) := by
  have h : ∀ k ∈ ["userName", "Email", "uid"], FieldKey k := by decide
  exact nodeFrom_dictionary h

theorem isEmpty_itemNode {i : ItemData} {n : String} (h : i.itemName = some n) :
    (itemNode i).isEmpty = false := by
  obtain ⟨nm, t, p⟩ := i
  cases h
  rw [itemNode_some]
  rfl

/-- Items are stored if and only if all their names are keys, which the database tells apart. -/
theorem nodeFrom_itemsNode {is : List ItemData} {node : FNode}
    (hs : ∀ i ∈ is, ∃ n, i.itemName = some n) :
    nodeFrom (itemsNode is) = .ok node ↔
      (∀ i ∈ is, ∃ n, i.itemName = some n ∧ isValidKey n = true) ∧ Untied is ∧ node = itemsNode is := by
  have hmem : ∀ p ∈ SortedDict.ofList (entriesBy ItemData.itemName itemNode is),
      ∃ i ∈ is, i.itemName = some p.1 ∧ itemNode i = p.2 :=
    fun p hp => mem_entriesBy.1 (SortedDict.mem_ofList hp)
  have hnode : ∀ p ∈ SortedDict.ofList (entriesBy ItemData.itemName itemNode is),
      nodeFrom p.2 = .ok p.2 ∧ p.2.isEmpty = false := by
    intro p hp
    obtain ⟨i, -, hn, he⟩ := hmem p hp
    rw [← he]
    exact ⟨nodeFrom_itemNode i, isEmpty_itemNode hn⟩
  have hkeys : ((SortedDict.ofList (entriesBy ItemData.itemName itemNode is)).all fun p => isValidKey p.1) = true ↔
      ∀ i ∈ is, ∃ n, i.itemName = some n ∧ isValidKey n = true := by
    rw [List.all_eq_true]
    constructor
    · intro hall i hi
      obtain ⟨n, hn⟩ := hs i hi
      have he : (n, itemNode i) ∈ entriesBy ItemData.itemName itemNode is :=
        mem_entriesBy.2 ⟨i, hi, hn, rfl⟩
      obtain ⟨v, hv⟩ := SortedDict.key_mem_ofList he
      exact ⟨n, hn, hall _ hv⟩
    · intro h p hp
      obtain ⟨i, hi, hn, -⟩ := hmem p hp
      obtain ⟨m, hm, hk⟩ := h i hi
      rw [hn] at hm
      cases hm
      exact hk
  have htied : tied (SortedDict.ofList (entriesBy ItemData.itemName itemNode is)) = false ↔ Untied is := tied_nodeBy
  rw [itemsNode, nodeBy, nodeFrom_children (fun p hp => (hnode p hp).1) fun p hp => (hnode p hp).2, ← hkeys,
    ← htied]
  split
  · rename_i hall
    split
    · rename_i ht
      simp [ht]
    · rename_i ht
      simp [hall, ht, eq_comm]
  · rename_i hall
    simp [hall]

/-- `FValidation isValidLeafValue:` on the dictionary of the items: with the one key `.sv` it
is a value that the server computes, and the save does not raise. -/
def isServerValue (l : ListData) : Bool :=
  !l.listItems.isEmpty && l.listItems.all fun i => i.itemName == some ".sv"

/-! ## These nodes are normal -/

theorem normal_dictionary (l : List (Option String × String)) : Normal (dictionary l) := by
  refine normal_children (SortedDict.sorted_ofList _) fun p hp => ?_
  obtain ⟨a, ha, -⟩ := mem_objectsAndKeys (SortedDict.mem_ofList hp)
  rw [ha]
  exact ⟨rfl, normal_leaf a⟩

theorem leavesIn_dictionary (l : List (Option String × String)) :
    LeavesIn (fun r => ∃ k ∈ l.map Prod.snd, r = [k]) (dictionary l) := by
  refine leavesIn_children fun p hp => ?_
  obtain ⟨a, ha, hk⟩ := mem_objectsAndKeys (SortedDict.mem_ofList hp)
  rw [ha]
  exact leavesIn_leaf ⟨p.1, hk, rfl⟩ a

theorem mem_itemsNode {is : List ItemData} {p : String × FNode}
    (h : p ∈ SortedDict.ofList (entriesBy ItemData.itemName itemNode is)) :
    ∃ i ∈ is, i.itemName = some p.1 ∧ itemNode i = p.2 :=
  mem_entriesBy.1 (SortedDict.mem_ofList h)

theorem normal_itemsNode (is : List ItemData) : Normal (itemsNode is) := by
  refine normal_children (SortedDict.sorted_ofList _) fun p hp => ?_
  obtain ⟨i, -, hn, he⟩ := mem_itemsNode hp
  rw [← he]
  exact ⟨isEmpty_itemNode hn, normal_dictionary _⟩

theorem normal_listNode (l : ListData) : Normal (listNode l) := by
  have hsorted : SortedDict.Sorted [("listItems", itemsNode l.listItems),
      ("listName", .leaf (l.listName.getD "")), ("listUser", ownerNode l.listOwner)] := by
    simp only [SortedDict.Sorted, List.map_cons, List.map_nil]
    decide
  refine normal_children (hsorted.sublist (List.filter_sublist.map Prod.fst)) fun p hp => ?_
  obtain ⟨hp, hne⟩ := List.mem_filter.1 hp
  refine ⟨by simpa using hne, ?_⟩
  simp only [List.mem_cons, List.not_mem_nil, or_false] at hp
  rcases hp with rfl | rfl | rfl
  · exact normal_itemsNode _
  · exact normal_leaf _
  · exact normal_dictionary _

/-! ## What a save writes -/

@[simp] theorem isEmpty_listNode (l : ListData) : (listNode l).isEmpty = false := by
  have h : ("listName", FNode.leaf (l.listName.getD "")) ∈ listKids l :=
    List.mem_filter.2 ⟨by simp, rfl⟩
  rw [listNode, isEmpty, List.isEmpty_eq_false_iff]
  exact List.ne_nil_of_mem h

theorem mapM_itemEntry {is : List ItemClass} (h : ∀ i ∈ is, ∃ n, i.itemName = some n) :
    is.mapM SaveListOnCloud.itemEntry =
      .ok (entriesBy ItemData.itemName itemNode (is.map (·.encodeWithCoder))) := by
  induction is with
  | nil => rfl
  | cons i is ih =>
    obtain ⟨n, hn⟩ := h i List.mem_cons_self
    have hi : SaveListOnCloud.itemEntry i = .ok (n, itemNode i.encodeWithCoder) := by
      rw [SaveListOnCloud.itemEntry, hn]
      rfl
    have hn' : i.encodeWithCoder.itemName = some n := hn
    rw [List.mapM_cons, hi, ih fun j hj => h j (List.mem_cons_of_mem _ hj), List.map_cons,
      entriesBy_cons hn']
    rfl

theorem itemName_of_itemEntry {i : ItemClass} {p : String × FNode}
    (h : SaveListOnCloud.itemEntry i = .ok p) : ∃ n, i.itemName = some n := by
  cases hn : i.itemName with
  | none =>
    rw [SaveListOnCloud.itemEntry, hn] at h
    cases h
  | some n => exact ⟨n, rfl⟩

/-- The dictionary of a list, for a list and items with names. -/
def rawList (l : ListData) : FNode :=
  .children [("listItems", itemsNode l.listItems), ("listName", .leaf (l.listName.getD "")),
    ("listUser", ownerNode l.listOwner)]

theorem listDic_ok_iff {l : ShopingListsClass} {v : FNode} :
    SaveListOnCloud.listDic l = .ok v ↔ (∃ n, l.listName = some n) ∧
      (∀ i ∈ l.listItems, ∃ k, i.itemName = some k) ∧ v = rawList l.encodeWithCoder := by
  have hraw : ∀ n, l.listName = some n → FNode.children (SortedDict.ofList
      [("listName", .leaf n), ("listUser", SaveListOnCloud.listOwnerDic l.listOwner),
        ("listItems", itemsNode (l.listItems.map (·.encodeWithCoder)))]) = rawList l.encodeWithCoder := by
    intro n hn
    have he : l.encodeWithCoder.listName.getD "" = n := by
      rw [show l.encodeWithCoder.listName = some n from hn]
      rfl
    rw [rawList, he]
    simp [SortedDict.ofList, SortedDict.set, -String.lt_iff_ltb]
    exact ⟨rfl, rfl⟩
  simp only [SaveListOnCloud.listDic, Raising.bind_ok_iff]
  constructor
  · rintro ⟨n, hn, es, hes, hv⟩
    have hs : ∀ i ∈ l.listItems, ∃ k, i.itemName = some k := by
      intro i hi
      obtain ⟨p, hp⟩ := Raising.ok_of_mapM hes hi
      exact itemName_of_itemEntry hp
    rw [mapM_itemEntry hs] at hes
    cases hes
    have hn : l.listName = some n := by
      cases hl : l.listName with
      | none => rw [hl] at hn; cases hn
      | some m => rw [hl] at hn; cases hn; rfl
    cases hv
    exact ⟨⟨n, hn⟩, hs, hraw n hn⟩
  · rintro ⟨⟨n, hn⟩, hs, rfl⟩
    exact ⟨n, by rw [hn]; rfl, _, mapM_itemEntry hs, by rw [← hraw n hn]; rfl⟩

theorem nodeFrom_rawList {l : ListData} {node : FNode}
    (hs : ∀ i ∈ l.listItems, ∃ k, i.itemName = some k) :
    nodeFrom (rawList l) = .ok node ↔ (∀ i ∈ l.listItems, ∃ k, i.itemName = some k ∧ isValidKey k = true) ∧
      Untied l.listItems ∧ node = listNode l := by
  have hkeys : ∀ k ∈ ["listItems", "listName", "listUser"], FieldKey k := by decide
  have h1 : isValidKey "listItems" = true := (hkeys _ (by simp)).1
  have h2 : isValidKey "listName" = true := (hkeys _ (by simp)).1
  have h3 : isValidKey "listUser" = true := (hkeys _ (by simp)).1
  have htied : tied (listKids l) = false := tied_eq_false fun p hp => by
    have hp := (List.mem_filter.1 hp).1
    simp only [List.mem_cons, List.not_mem_nil, or_false] at hp
    rcases hp with rfl | rfl | rfl
    · exact (hkeys _ (by simp)).2
    · exact (hkeys _ (by simp)).2
    · exact (hkeys _ (by simp)).2
  rw [rawList, nodeFrom]
  cases hi : nodeFrom (itemsNode l.listItems) with
  | error e =>
    refine iff_of_false ?_ fun h => ?_
    · rw [nodeFromKids, hi, h1]
      intro h
      cases h
    · rw [(nodeFrom_itemsNode hs).2 ⟨h.1, h.2.1, rfl⟩] at hi
      cases hi
  | ok node' =>
    obtain ⟨hv, huntied, rfl⟩ := (nodeFrom_itemsNode hs).1 hi
    rw [nodeFromKids_eq (by simp [hi, nodeFrom]), if_pos (by simp [h1, h2, h3])]
    show (if tied (listKids l) then Except.error NSException.sameOrdering else Except.ok (listNode l)) = _ ↔ _
    rw [htied]
    constructor
    · intro h
      cases h
      exact ⟨hv, huntied, rfl⟩
    · rintro ⟨-, -, rfl⟩
      rfl

/-- The place of a list of the user `uid`. -/
def listRef (uid listName : Option String) : Except NSException (List String) := do
  child (← child dataNode uid) listName

theorem listRef_ok {uid listName : Option String} {ref : List String}
    (h : listRef uid listName = .ok ref) : ∃ base n, child dataNode uid = .ok base ∧
      listName = some n ∧ ref = base ++ FPath.pieces n := by
  obtain ⟨base, hb, h⟩ := Raising.bind_ok_iff.1 h
  obtain ⟨n, hn, hr⟩ := child_ok h
  exact ⟨base, n, hb, hn, hr⟩

/-- The places of lists are below `Data`. -/
theorem exists_below_dataNode {uid listName : Option String} {ref : List String} (h : listRef uid listName = .ok ref) :
    ∃ r, ref = dataNode ++ r := by
  obtain ⟨base, n, hb, -, rfl⟩ := listRef_ok h
  obtain ⟨u, -, rfl⟩ := child_ok hb
  exact ⟨_, List.append_assoc _ _ _⟩

/-- When a save succeeds, and what it writes. -/
theorem save_ok_iff {u : FIRUser} {curUser : UserClass} {l : ShopingListsClass} {db db' : FNode} :
    SaveListOnCloud.save (some u) curUser l db = .ok db' ↔
      (∀ i ∈ l.listItems, ∃ k, i.itemName = some k ∧ isValidKey k = true) ∧
      Untied l.encodeWithCoder.listItems ∧
      ∃ ref, listRef curUser.uidText l.listName = .ok ref ∧
        db' = updateChild (listNode l.encodeWithCoder) ref db := by
  have hall : (∀ i ∈ l.encodeWithCoder.listItems, ∃ k, i.itemName = some k ∧ isValidKey k = true) ↔
      ∀ i ∈ l.listItems, ∃ k, i.itemName = some k ∧ isValidKey k = true := List.forall_mem_map
  have hnamed : (∀ i ∈ l.listItems, ∃ k, i.itemName = some k) →
      ∀ i ∈ l.encodeWithCoder.listItems, ∃ k, i.itemName = some k := fun h i hi => by
    obtain ⟨j, hj, rfl⟩ := List.mem_map.1 hi
    exact h j hj
  rw [SaveListOnCloud.save, if_neg (by simp)]
  simp only [Raising.bind_ok_iff, listDic_ok_iff, setValue]
  constructor
  · rintro ⟨v, ⟨-, hs, rfl⟩, base, hbase, ref, href, node, hnode, hdb⟩
    obtain ⟨hv, huntied, rfl⟩ := (nodeFrom_rawList (hnamed hs)).1 hnode
    cases hdb
    exact ⟨hall.1 hv, huntied, ref, Raising.bind_ok_iff.2 ⟨base, hbase, href⟩, rfl⟩
  · rintro ⟨hv, huntied, ref, href, rfl⟩
    obtain ⟨base, hbase, href⟩ := Raising.bind_ok_iff.1 href
    obtain ⟨n, hn, -⟩ := child_ok href
    have hs : ∀ i ∈ l.listItems, ∃ k, i.itemName = some k := fun i hi => (hv i hi).imp fun k hk => hk.1
    exact ⟨_, ⟨⟨n, hn⟩, hs, rfl⟩, base, hbase, ref, href, _,
      (nodeFrom_rawList (hnamed hs)).2 ⟨hall.2 hv, huntied, rfl⟩, rfl⟩

/-! ## The other writers -/

/-- The place of an item of the list at `ref`. -/
def itemRef (ref : List String) (itemName : Option String) : Except NSException (List String) := do
  child (← child ref (some "listItems")) itemName

theorem itemRef_ok {ref path : List String} {itemName : Option String}
    (h : itemRef ref itemName = .ok path) :
    ∃ n, itemName = some n ∧ path = ref ++ "listItems" :: FPath.pieces n := by
  have hkey : isValidKey "listItems" = true := by decide
  obtain ⟨base, hb, h⟩ := Raising.bind_ok_iff.1 h
  rw [child_of_isValidKey hkey] at hb
  cases hb
  obtain ⟨n, hn, hp⟩ := child_ok h
  exact ⟨n, hn, by rw [hp, List.append_assoc, List.singleton_append]⟩

theorem itemRef_of_key (ref : List String) {n : String} (hn : isValidKey n = true) :
    itemRef ref (some n) = .ok (ref ++ ["listItems", n]) := by
  have hkey : isValidKey "listItems" = true := by decide
  refine Raising.bind_ok_iff.2 ⟨_, child_of_isValidKey hkey, ?_⟩
  rw [child_of_isValidKey hn, List.append_assoc]
  rfl

theorem nodeFrom_itemDic (i : ItemClass) :
    nodeFrom (SaveItemToCloud.itemDic i) = .ok (SaveItemToCloud.itemDic i) := by
  have h : ∀ k ∈ ["Item name", "purchased", "time"], FieldKey k := by decide
  exact nodeFrom_dictionary h

theorem saveItem_ok_iff {u : FIRUser} {i : ItemClass} {l : ShopingListsClass} {db db' : FNode} :
    SaveItemToCloud.saveItemToCloudWithItem (some u) i l db = .ok db' ↔
      ∃ ref path, listRef l.listOwner.uidText l.listName = .ok ref ∧
        itemRef ref i.itemName = .ok path ∧ db' = updateChild (SaveItemToCloud.itemDic i) path db := by
  rw [SaveItemToCloud.saveItemToCloudWithItem, if_neg (by simp)]
  simp only [Raising.bind_ok_iff, listRef, itemRef, setValue, nodeFrom_itemDic]
  constructor
  · rintro ⟨base, hb, ref, hr, items, hi, path, hp, node, hn, hdb⟩
    cases hn
    cases hdb
    exact ⟨ref, path, ⟨base, hb, hr⟩, ⟨items, hi, hp⟩, rfl⟩
  · rintro ⟨ref, path, ⟨base, hb, hr⟩, ⟨items, hi, hp⟩, rfl⟩
    exact ⟨base, hb, ref, hr, items, hi, path, hp, _, rfl, rfl⟩

theorem deleteItem_ok_iff {u : FIRUser} {curUser : UserClass} {i : ItemClass}
    {l : ShopingListsClass} {db db' : FNode} :
    DeleteItemFromCloud.deleteItem (some u) curUser i l db = .ok db' ↔
      ∃ ref path, listRef curUser.uidText l.listName = .ok ref ∧
        itemRef ref i.itemName = .ok path ∧ db' = removeValue path db := by
  rw [DeleteItemFromCloud.deleteItem, if_neg (by simp)]
  simp only [Raising.bind_ok_iff, listRef, itemRef]
  constructor
  · rintro ⟨base, hb, ref, hr, items, hi, path, hp, hdb⟩
    cases hdb
    exact ⟨ref, path, ⟨base, hb, hr⟩, ⟨items, hi, hp⟩, rfl⟩
  · rintro ⟨ref, path, ⟨base, hb, hr⟩, ⟨items, hi, hp⟩, rfl⟩
    exact ⟨base, hb, ref, hr, items, hi, path, hp, rfl⟩

theorem deleteList_ok_iff {u : FIRUser} {l : ShopingListsClass} {db db' : FNode} :
    DeleteListFromCloud.deleteFromCloud (some u) l db = .ok db' ↔
      ∃ ref, listRef l.listOwner.uidText l.listName = .ok ref ∧ db' = removeValue ref db := by
  rw [DeleteListFromCloud.deleteFromCloud, if_neg (by simp)]
  simp only [Raising.bind_ok_iff, listRef]
  constructor
  · rintro ⟨base, hb, ref, hr, hdb⟩
    cases hdb
    exact ⟨ref, ⟨base, hb, hr⟩, rfl⟩
  · rintro ⟨ref, ⟨base, hb, hr⟩, rfl⟩
    exact ⟨base, hb, ref, hr, rfl⟩

end ShopingList
