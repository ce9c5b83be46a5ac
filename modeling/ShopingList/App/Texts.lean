import ShopingList.App.Waits
import ShopingList.App.Memory
import ShopingList.App.Calls
import ShopingList.App.World

/-!
# Where the names and times of items come from

The names and times of items travel through the memories of many devices, through their
files, the database and the snapshots that are on their way. `World.texts` collects all that
are anywhere. No turn makes one up: whatever the devices do, in any order, each of them was
there when the devices were off or has been entered since (`texts_run`).
-/

namespace ShopingList

open FNode ListViewController

inductive Text where
  | name (text : String)
  | time (text : String)
  deriving DecidableEq, Repr

def ItemData.texts (i : ItemData) : Set Text :=
  {x | (∃ n, i.itemName = some n ∧ x = .name n) ∨ ∃ t, i.itemTime = some t ∧ x = .time t}

def ListData.texts (l : ListData) : Set Text := {x | ∃ i ∈ l.listItems, x ∈ i.texts}

/-- What a string under `key` is stored for: `SaveItemToCloud` writes names under `Item name`, which
nothing reads. -/
def fieldText (key text : String) : Option Text :=
  if key = "item Name" ∨ key = "Item name" then some (.name text)
  else if key = "time" then some (.time text) else none

/-! ## Trees -/

namespace FNode

/-- A leaf of that text is the child `key` of some node of the tree. -/
inductive Occurs (key text : String) : FNode → Prop
  | here {kids : List (String × FNode)} (h : (key, .leaf text) ∈ kids) : Occurs key text (.children kids)
  | deeper {kids : List (String × FNode)} {p : String × FNode} (h : p ∈ kids) (ho : Occurs key text p.2) :
      Occurs key text (.children kids)

def texts (n : FNode) : Set Text := {x | ∃ key text, Occurs key text n ∧ fieldText key text = some x}

section
variable {key text k : String} {n new c : FNode} {kids : List (String × FNode)}

theorem not_occurs_emptyNode : ¬ Occurs key text emptyNode := by
  intro h
  cases h with
  | here h => cases h
  | deeper h => cases h

/-- The text is in the child `k`, or is that child. -/
def InChild (key text k : String) (n : FNode) : Prop := k = key ∧ n = .leaf text ∨ Occurs key text n

theorem occurs_of_mem {p : String × FNode} (hp : p ∈ kids) (h : InChild key text p.1 p.2) :
    Occurs key text (.children kids) := by
  obtain ⟨k, c⟩ := p
  rcases h with ⟨rfl, rfl⟩ | h
  · exact .here hp
  · exact .deeper hp h

theorem occurs_children (h : Occurs key text (.children kids)) : ∃ p ∈ kids, InChild key text p.1 p.2 := by
  cases h with
  | here h => exact ⟨_, h, .inl ⟨rfl, rfl⟩⟩
  | deeper h ho => exact ⟨_, h, .inr ho⟩

theorem occurs_getImmediateChild (h : InChild key text k (getImmediateChild k n)) : Occurs key text n := by
  cases n with
  | leaf v =>
    rcases h with ⟨-, he⟩ | h
    · cases he
    · exact absurd h not_occurs_emptyNode
  | children kids =>
    rw [getImmediateChild] at h
    cases hget : SortedDict.get k kids with
    | none =>
      rw [hget] at h
      rcases h with ⟨-, he⟩ | h
      · cases he
      · exact absurd h not_occurs_emptyNode
    | some c =>
      rw [hget] at h
      exact occurs_of_mem (SortedDict.mem_of_get hget) h

theorem occurs_getChild {path : List String} (h : Occurs key text (getChild path n)) : Occurs key text n := by
  induction path generalizing n with
  | nil => exact h
  | cons k path ih => exact occurs_getImmediateChild (.inr (ih h))

theorem occurs_updateImmediateChild (h : Occurs key text (updateImmediateChild k c n)) :
    Occurs key text n ∨ InChild key text k c := by
  cases n with
  | leaf v =>
    rw [updateImmediateChild] at h
    split at h
    · exact .inl h
    · obtain ⟨p, hp, hin⟩ := occurs_children h
      rw [List.mem_singleton.1 hp] at hin
      exact .inr hin
  | children kids =>
    rw [updateImmediateChild] at h
    split at h
    · obtain ⟨p, hp, hin⟩ := occurs_children h
      exact .inl (occurs_of_mem (List.mem_filter.1 hp).1 hin)
    · obtain ⟨p, hp, hin⟩ := occurs_children h
      rcases SortedDict.mem_set hp with rfl | hp
      · exact .inr hin
      · exact .inl (occurs_of_mem hp hin)

/-- A write of a node that is no leaf brings in the texts of that node. -/
theorem inChild_updateChild (hnew : ∀ v, new ≠ .leaf v) {path : List String}
    (h : InChild key text k (updateChild new path n)) : InChild key text k n ∨ Occurs key text new := by
  induction path generalizing k n with
  | nil =>
    rw [updateChild_nil] at h
    rcases h with ⟨-, he⟩ | h
    · exact absurd he (hnew _)
    · exact .inr h
  | cons front path ih =>
    cases n with
    | leaf v =>
      rw [updateChild] at h
      split at h
      · exact .inl h
      rcases h with ⟨rfl, he⟩ | ho
      · rw [updateImmediateChild] at he
        split at he
        · exact .inl (.inl ⟨rfl, he⟩)
        · cases he
      · rcases occurs_updateImmediateChild ho with ho | hin
        · exact .inl (.inr ho)
        · refine .inr ((ih hin).resolve_left ?_)
          rintro (⟨-, he⟩ | ho)
          · cases he
          · exact not_occurs_emptyNode ho
    | children kids =>
      rw [updateChild] at h
      rcases h with ⟨-, he⟩ | ho
      · rw [updateImmediateChild] at he
        split at he <;> cases he
      · rcases occurs_updateImmediateChild ho with ho | hin
        · exact .inl (.inr ho)
        · exact (ih hin).imp_left fun hin => .inr (occurs_getImmediateChild hin)

theorem texts_updateChild (hnew : ∀ v, new ≠ .leaf v) (path : List String) (n : FNode) :
    texts (updateChild new path n) ⊆ texts n ∪ texts new := by
  rintro x ⟨key, text, ho, hx⟩
  -- as the child of a node, under a key that is not read
  rcases inChild_updateChild (k := key ++ "?") hnew (.inr ho) with (⟨hk, -⟩ | ho) | ho
  · have hlen := congrArg String.length hk
    simp at hlen
  · exact .inl ⟨key, text, ho, hx⟩
  · exact .inr ⟨key, text, ho, hx⟩

theorem texts_getChild (path : List String) (n : FNode) : texts (getChild path n) ⊆ texts n := by
  rintro x ⟨key, text, ho, hx⟩
  exact ⟨key, text, occurs_getChild ho, hx⟩

theorem texts_emptyNode : texts emptyNode = ∅ := by
  refine Set.eq_empty_of_forall_notMem ?_
  rintro x ⟨key, text, ho, -⟩
  exact not_occurs_emptyNode ho

theorem texts_child {p : String × FNode} (hp : p ∈ kids) : texts p.2 ⊆ texts (.children kids) := by
  rintro x ⟨key, text, ho, hx⟩
  exact ⟨key, text, .deeper hp ho, hx⟩

/-- The texts of a dictionary of strings. -/
theorem texts_dictionary {l : List (Option String × String)} {x : Text} (hx : x ∈ texts (dictionary l)) :
    ∃ key text, (some text, key) ∈ l ∧ fieldText key text = some x := by
  obtain ⟨key, text, ho, hx⟩ := hx
  obtain ⟨p, hp, hin⟩ := occurs_children ho
  have hmem : ∀ {l : List (Option String × String)}, p ∈ objectsAndKeys l → ∃ t, p.2 = .leaf t ∧ (some t, p.1) ∈ l := by
    intro l hp
    induction l with
    | nil => cases hp
    | cons q l ih =>
      obtain ⟨o, k⟩ := q
      cases o with
      | none => cases hp
      | some a =>
        rw [objectsAndKeys] at hp
        rcases List.mem_cons.1 hp with rfl | hp
        · exact ⟨a, rfl, List.mem_cons_self⟩
        · obtain ⟨t, ht, hm⟩ := ih hp
          exact ⟨t, ht, List.mem_cons_of_mem _ hm⟩
  obtain ⟨t, ht, hm⟩ := hmem (SortedDict.mem_ofList hp)
  rw [ht] at hin
  rcases hin with ⟨rfl, he⟩ | ho
  · cases he
    exact ⟨p.1, text, hm, hx⟩
  · cases ho

end

end FNode

/-! ## What is written and read -/

section
variable {x : Text} {i : ItemData} {l : ListData}

theorem texts_itemNode : texts (itemNode i) ⊆ i.texts := by
  intro x hx
  obtain ⟨key, text, hm, hf⟩ := texts_dictionary hx
  simp only [List.mem_cons, Prod.mk.injEq, List.not_mem_nil, or_false] at hm
  rcases hm with ⟨hn, rfl⟩ | ⟨-, rfl⟩ | ⟨ht, rfl⟩
  · cases hf
    exact .inl ⟨text, hn.symm, rfl⟩
  · cases hf
  · cases hf
    exact .inr ⟨text, ht.symm, rfl⟩

theorem texts_itemDic {i : ItemClass} : texts (SaveItemToCloud.itemDic i) ⊆ i.encodeWithCoder.texts := by
  intro x hx
  obtain ⟨key, text, hm, hf⟩ := texts_dictionary hx
  simp only [List.mem_cons, Prod.mk.injEq, List.not_mem_nil, or_false] at hm
  rcases hm with ⟨hn, rfl⟩ | ⟨-, rfl⟩ | ⟨ht, rfl⟩
  · cases hf
    exact .inl ⟨text, hn.symm, rfl⟩
  · cases hf
  · cases hf
    exact .inr ⟨text, ht.symm, rfl⟩

theorem texts_listNode : texts (listNode l) ⊆ l.texts := by
  rintro x ⟨key, text, ho, hf⟩
  obtain ⟨p, hp, hin⟩ := occurs_children ho
  have hp := (List.mem_filter.1 hp).1
  simp only [List.mem_cons, List.not_mem_nil, or_false] at hp
  rcases hp with rfl | rfl | rfl
  · rcases hin with ⟨-, he⟩ | ho
    · cases he
    obtain ⟨q, hq, hin⟩ := occurs_children ho
    obtain ⟨i, hi, -, he⟩ := mem_itemsNode hq
    rcases hin with ⟨-, hl⟩ | ho
    · rw [← he] at hl
      cases hl
    · rw [← he] at ho
      exact ⟨i, hi, texts_itemNode ⟨key, text, ho, hf⟩⟩
  · rcases hin with ⟨rfl, -⟩ | ho
    · cases hf
    · cases ho
  · rcases hin with ⟨-, he⟩ | ho
    · cases he
    obtain ⟨key', text', hm, hf'⟩ := texts_dictionary (l := [(l.listOwner.name, "userName"),
      (l.listOwner.email, "Email"), (l.listOwner.uid, "uid")]) ⟨key, text, ho, hf⟩
    simp only [List.mem_cons, Prod.mk.injEq, List.not_mem_nil, or_false] at hm
    rcases hm with ⟨-, rfl⟩ | ⟨-, rfl⟩ | ⟨-, rfl⟩ <;> cases hf'

variable {order : DictOrder} {n : FNode}

theorem occurs_stringForKey {key text : String} (h : stringForKey key n = .ok (some text)) :
    Occurs key text n := by
  have hleaf := stringForKey_ok h
  rw [leafAt, FNode.getChild, FNode.getChild] at hleaf
  refine occurs_getImmediateChild (k := key) (.inl ⟨rfl, ?_⟩)
  cases hc : getImmediateChild key n with
  | leaf v =>
    rw [hc] at hleaf
    cases hleaf
    rfl
  | children kids =>
    rw [hc] at hleaf
    cases hleaf

/-- What a reader takes for an item. -/
theorem texts_fields {name time : Option String} {purchased : Bool} (hn : stringForKey "item Name" n = .ok name)
    (ht : stringForKey "time" n = .ok time) : (⟨name, time, purchased⟩ : ItemData).texts ⊆ texts n := by
  rintro x (⟨t, rfl, rfl⟩ | ⟨t, rfl, rfl⟩)
  · exact ⟨_, t, occurs_stringForKey hn, rfl⟩
  · exact ⟨_, t, occurs_stringForKey ht, rfl⟩

theorem texts_readItem (h : ReadDataFromCloud.readItem n = .ok i) : i.texts ⊆ texts n := by
  obtain ⟨name, hname, h⟩ := Raising.bind_ok_iff.1 h
  obtain ⟨purchased, -, h⟩ := Raising.bind_ok_iff.1 h
  obtain ⟨time, htime, h⟩ := Raising.bind_ok_iff.1 h
  cases h
  exact texts_fields hname htime

theorem texts_fetchItem (h : FetchInvitationnData.readItem n = .ok i) : i.texts ⊆ texts n := by
  obtain ⟨purchased, -, h⟩ := Raising.bind_ok_iff.1 h
  obtain ⟨name, hname, h⟩ := Raising.bind_ok_iff.1 h
  obtain ⟨time, htime, h⟩ := Raising.bind_ok_iff.1 h
  cases h
  exact texts_fields hname htime

theorem texts_allValues {vals : List FNode} (h : allValues order n = .ok vals) {c : FNode} (hc : c ∈ vals) :
    texts c ⊆ texts n := by
  cases n with
  | leaf v => cases h
  | children kids =>
    rw [allValues] at h
    split at h
    · cases h
    · cases h
      obtain ⟨p, hp, rfl⟩ := List.mem_map.1 ((order.perm kids).subset hc)
      exact texts_child hp

theorem texts_objectForKey {key : String} {c : FNode} (h : objectForKey key n = .ok (some c)) :
    texts c ⊆ texts n := by
  have hchild := objectForKey_ok h
  rw [Option.getD_some] at hchild
  have hpath : getChild [key] n = c := hchild
  exact hpath ▸ texts_getChild [key] n

/-- The items below a node, read one by one. -/
theorem texts_mapM {readItem : FNode → Except NSException ItemData}
    (hread : ∀ {n i}, readItem n = .ok i → i.texts ⊆ texts n) {items : List ItemData}
    (h : (do (← allValues order n).mapM readItem) = Except.ok items) (hi : i ∈ items) : i.texts ⊆ texts n := by
  obtain ⟨vals, hvals, h⟩ := Raising.bind_ok_iff.1 h
  obtain ⟨v, hv, hvi⟩ := Raising.mem_of_mapM h hi
  exact (hread hvi).trans (texts_allValues hvals hv)

theorem texts_readList (h : ReadDataFromCloud.readList order n = .ok l) : l.texts ⊆ texts n := by
  obtain ⟨listName, -, h⟩ := Raising.bind_ok_iff.1 h
  obtain ⟨owner, -, h⟩ := Raising.bind_ok_iff.1 h
  obtain ⟨onlineUser, -, h⟩ := Raising.bind_ok_iff.1 h
  obtain ⟨items, hitems, h⟩ := Raising.bind_ok_iff.1 h
  obtain ⟨listitems, hread, h⟩ := Raising.bind_ok_iff.1 h
  cases h
  rintro x ⟨i, hi, hx⟩
  cases items with
  | none =>
    cases hread
    cases hi
  | some c => exact texts_objectForKey hitems (texts_mapM texts_readItem hread hi hx)

theorem texts_readLists {ls : List ListData} (h : ReadDataFromCloud.readLists order n = .ok ls) (hl : l ∈ ls) :
    l.texts ⊆ texts n := by
  obtain ⟨vals, hvals, h⟩ := Raising.bind_ok_iff.1 h
  obtain ⟨any, hany, hlist⟩ := Raising.mem_of_mapM h hl
  exact (texts_readList hlist).trans (texts_allValues hvals hany)

/-- The items that an observer takes. -/
theorem texts_fetchedItems {samePointer : String → Bool} {listName : Option String} {values : List FNode}
    {found : List (List ItemData)}
    (h : FetchInvitationnData.fetchedItems order samePointer listName values = .ok found) {V : Set Text}
    (hV : ∀ v ∈ values, texts v ⊆ V) : ∀ items ∈ found, ∀ i ∈ items, i.texts ⊆ V := by
  induction values generalizing found with
  | nil =>
    cases h
    simp
  | cons onelist rest ih =>
    have hrest : ∀ v ∈ rest, texts v ⊆ V := fun v hv => hV v (List.mem_cons_of_mem _ hv)
    rw [FetchInvitationnData.fetchedItems] at h
    obtain ⟨title, -, h⟩ := Raising.bind_ok_iff.1 h
    split at h
    · obtain ⟨listItems, hitems, h⟩ := Raising.bind_ok_iff.1 h
      obtain ⟨itemsFetched, hread, h⟩ := Raising.bind_ok_iff.1 h
      obtain ⟨others, hothers, h⟩ := Raising.bind_ok_iff.1 h
      cases h
      intro items hmem i hi
      rcases List.mem_cons.1 hmem with rfl | hmem
      · cases listItems with
        | none =>
          cases hread
          cases hi
        | some c =>
          exact ((texts_mapM texts_fetchItem hread hi).trans (texts_objectForKey hitems)).trans
            (hV onelist List.mem_cons_self)
      · exact ih hothers hrest items hmem i hi
    · exact ih h hrest

end

/-! ## Memory -/

/-- All texts in the lists of a process are in `V`. -/
def MemoryIn (V : Set Text) (m : AppData) : Prop := ∀ l ∈ m.lists, l.encodeWithCoder.texts ⊆ V

def FilesIn (V : Set Text) (f : Files) : Prop := ∀ ls, f.dataPlist = some ls → ∀ l ∈ ls, ListData.texts l ⊆ V

section
variable {V : Set Text} {m m' : AppData} {f f' : Files} {l : ShopingListsClass}

/-- The items of a list after a change of one of them. -/
theorem texts_items {l l' : ShopingListsClass} (h : ∀ i ∈ l'.listItems, i ∈ l.listItems ∨ i.encodeWithCoder.texts ⊆ V)
    (hl : l.encodeWithCoder.texts ⊆ V) : l'.encodeWithCoder.texts ⊆ V := by
  rintro x ⟨i, hi, hx⟩
  obtain ⟨j, hj, rfl⟩ := List.mem_map.1 hi
  rcases h j hj with hold | hnew
  · exact hl ⟨_, List.mem_map_of_mem hold, hx⟩
  · exact hnew hx

theorem texts_decodeLists {next : Nat} {ls : List ListData} (h : l ∈ ShopingListsClass.decodeLists next ls) :
    l.encodeWithCoder ∈ ls := by
  rw [← ShopingListsClass.encode_decodeLists next ls]
  exact List.mem_map_of_mem h

/-- Lists that come from the arrays, or are in `V`. -/
theorem MemoryIn.of_lists (h : MemoryIn V m)
    (hl : ∀ l ∈ m'.lists, l ∈ m.lists ∨ l.encodeWithCoder.texts ⊆ V) : MemoryIn V m' :=
  fun l hm => (hl l hm).elim (h l) id

theorem MemoryIn.of_arrays (h : MemoryIn V m)
    (ha : ∀ a ∈ m'.arrays, a ∈ m.arrays ∨ ∀ l ∈ a.objs, l.encodeWithCoder.texts ⊆ V) : MemoryIn V m' :=
  h.of_lists fun _ hl => AppData.mem_lists_of_arrays ha hl

theorem MemoryIn.updateArray (h : MemoryIn V m) {array : Option NSMutableArray}
    {g : List ShopingListsClass → List ShopingListsClass}
    (hg : ∀ objs, ∀ x ∈ g objs, x ∈ objs ∨ x.encodeWithCoder.texts ⊆ V) : MemoryIn V (m.updateArray array g) :=
  h.of_lists fun _ hl => AppData.mem_lists_updateArray hg hl

theorem memoryIn_mapLists {g : ShopingListsClass → ShopingListsClass}
    (hg : ∀ l ∈ m.lists, (g l).encodeWithCoder.texts ⊆ V) : MemoryIn V (m.mapLists g) := by
  intro l hl
  obtain ⟨x, hx, rfl⟩ := AppData.mem_lists_mapLists.1 hl
  exact hg x hx

/-- Only the count of addresses and the arrays matter. -/
theorem MemoryIn.congr (h : MemoryIn V m) (ha : m'.arrays = m.arrays) : MemoryIn V m' :=
  h.of_arrays fun _ hm => .inl (ha ▸ hm)

theorem MemoryIn.of_elems (h : MemoryIn V m) {array : Option NSMutableArray} (ha : ∀ a, array = some a → a ∈ m.arrays)
    (hl : l ∈ elems array) : l.encodeWithCoder.texts ⊆ V :=
  h l (AppData.mem_lists_of_elems ha hl)

theorem MemoryIn.readDataPlist (h : MemoryIn V m) (hf : FilesIn V f) : MemoryIn V (ReadDataFromDisk.readData f m) := by
  unfold ReadDataFromDisk.readData
  cases hd : f.dataPlist with
  | none => exact h
  | some lists =>
    refine h.of_arrays fun a ha => ?_
    rcases AppData.mem_arrays_offlineLST ha with ha | ha
    · exact .inl ha
    · cases ha
      exact .inr fun l hl => hf lists hd _ (texts_decodeLists hl)

theorem memoryIn_init : MemoryIn V AppData.init := by
  intro l hl
  obtain ⟨a, ha, hla⟩ := AppData.mem_lists.1 hl
  rcases AppData.mem_arrays.1 ha with h | h | h | h | h <;> cases h <;> cases hla

/-- What `WriteData` stores was in the memory. -/
theorem MemoryIn.writes (h : MemoryIn V m) (hw : Writes m f m' f') : MemoryIn V m' ∧ FilesIn V f' := by
  cases hw
  have hown : ∀ l ∈ WriteDataToDisk.ownLists m, l.encodeWithCoder.texts ⊆ V := fun l hl =>
    h l (AppData.mem_lists_curLST (List.mem_filter.1 hl).1)
  refine ⟨h.of_arrays fun a ha => ?_, fun ls hls l hl => ?_⟩
  · rcases AppData.mem_arrays_offlineLST ha with ha | ha
    · exact .inl ha
    · cases ha
      exact .inr hown
  · cases hls
    obtain ⟨x, hx, rfl⟩ := List.mem_map.1 hl
    exact hown x hx

/-- The texts that the sample list brings in. -/
def sampleTexts (now : Moment) : Set Text := {.name "test item", .time (DateAndTime.dateAndTimeNow now)}

theorem MemoryIn.prepare (h : MemoryIn V m) {now : Moment} (hV : sampleTexts now ⊆ V) :
    MemoryIn V (PrepareFirstLists.prepare now m) := by
  refine MemoryIn.congr (m := m.addObject m.curLST _) (h.updateArray fun objs x hx => ?_) rfl
  rcases List.mem_append.1 hx with hx | hx
  · exact .inl hx
  · rw [List.mem_singleton.1 hx]
    refine .inr ?_
    rintro y ⟨i, hi, hy⟩
    rw [List.mem_singleton.1 hi] at hy
    rcases hy with ⟨n, hn, rfl⟩ | ⟨t, ht, rfl⟩
    · cases hn
      exact hV (.inl rfl)
    · cases ht
      exact hV (.inr rfl)

theorem arrays_eq_readUser (f : Files) (m : AppData) : (ReadUserFromDisk.read f m).arrays = m.arrays := by
  obtain ⟨u, n, he⟩ := readUser_eq f m
  rw [he]
  rfl

theorem MemoryIn.readFiles (h : MemoryIn V m) (hf : FilesIn V f) {now : Moment}
    (hV : (ReadUserFromDisk.read f m).curUser.uid.isNone = true → sampleTexts now ⊆ V) :
    MemoryIn V (readDisk now f m).1 ∧ FilesIn V (readDisk now f m).2 := by
  have hread : MemoryIn V (ReadUserFromDisk.read f m) := h.congr (arrays_eq_readUser f m)
  simp only [readDisk]
  split
  · rename_i hnone
    have hprepared := MemoryIn.prepare (m := { ReadUserFromDisk.read f m with curUser := defaultUser })
      (hread.congr rfl) (hV hnone)
    exact hprepared.writes .write
  · refine ⟨(hread.readDataPlist hf).of_arrays fun a ha => .inl ?_, hf⟩
    rcases AppData.mem_arrays_curLST ha with ha | ha
    · exact ha
    · exact AppData.mem_arrays.2 (.inr (.inl ha))

theorem MemoryIn.readsData (h : MemoryIn V m) (hf : FilesIn V f) {now : Moment}
    (hV : (ReadUserFromDisk.read f m).curUser.uid.isNone = true → sampleTexts now ⊆ V)
    (hr : ReadsData now f m m' f') : MemoryIn V m' ∧ FilesIn V f' := by
  obtain ⟨hm, hfiles⟩ := h.readFiles hf hV
  cases hr with
  | once => exact ⟨hm, hfiles⟩
  | twice => exact ⟨hm.readDataPlist hfiles, hfiles⟩

/-- A merge takes every item from one of its sides. -/
theorem MemoryIn.of_merge (h : MemoryIn V m) (dates : DateAlloc) : MemoryIn V (merge dates m) := by
  have hon : ∀ l ∈ contents m.onlineLST, ListData.texts l ⊆ V := by
    intro l hl
    obtain ⟨x, hx, rfl⟩ := List.mem_map.1 hl
    exact h.of_elems (fun a ha => AppData.mem_arrays.2 (.inr (.inr (.inl ha)))) hx
  have hoff : ∀ l ∈ contents m.offlineLST, ListData.texts l ⊆ V := by
    intro l hl
    obtain ⟨x, hx, rfl⟩ := List.mem_map.1 hl
    exact h.of_elems (fun a ha => AppData.mem_arrays.2 (.inr (.inl ha))) hx
  have hmerged : ∀ l ∈ contents (merge dates m).curLST, ListData.texts l ⊆ V := by
    intro l hl
    rw [contents_merge, CompareList.mergeLists] at hl
    rcases KeyedMerge.mem_unionBy hl with ⟨ha, -⟩ | ⟨hb, -⟩ | ⟨a, ha, b, hb, -, rfl⟩
    · exact hon l ha
    · exact hoff l hb
    · rintro x ⟨i, hi, hx⟩
      rcases KeyedMerge.mem_mergeBy hi with ⟨hi, -⟩ | ⟨hi, -⟩ | ⟨j, hj, k, hk, -, rfl⟩
      · exact hon a ha ⟨i, hi, hx⟩
      · exact hoff b hb ⟨i, hi, hx⟩
      · rw [CompareList.pickData] at hx
        split at hx
        · exact hon a ha ⟨j, hj, hx⟩
        · exact hoff b hb ⟨k, hk, hx⟩
  have hleft := CompareList.compare_left dates (m.next + 1) (elems m.onlineLST)
    (elems m.offlineLST)
  intro l hl
  obtain ⟨a, ha, hla⟩ := AppData.mem_lists.1 hl
  rcases AppData.mem_arrays_curLST ha with ha | ha
  · have hold := AppData.mem_lists.2 ⟨a, ha, hla⟩
    have hA : ∀ l ∈ (CompareList.compare dates (m.next + 1) (elems m.onlineLST) (elems m.offlineLST)).listA,
        l.encodeWithCoder.texts ⊆ V := fun l hl => by
      rw [hleft.1] at hl
      exact hon _ (List.mem_map_of_mem (List.mem_filter.1 hl).1)
    have hB : ∀ l ∈ (CompareList.compare dates (m.next + 1) (elems m.onlineLST) (elems m.offlineLST)).listB,
        l.encodeWithCoder.texts ⊆ V := fun l hl => by
      rw [hleft.2] at hl
      exact hoff _ (List.mem_map_of_mem (List.mem_filter.1 hl).1)
    rcases AppData.mem_lists_updateArray (fun _ x hx => .inr (hB x hx)) hold with hold | hin
    · rcases AppData.mem_lists_updateArray (fun _ x hx => .inr (hA x hx)) hold with hold | hin
      · exact h l hold
      · exact hin
    · exact hin
  · cases ha
    exact hmerged _ (List.mem_map_of_mem hla)

theorem MemoryIn.merged (h : MemoryIn V m) (dates : DateAlloc) : MemoryIn V (ownedMerge dates m) := by
  refine memoryIn_mapLists fun l hl => ?_
  split <;> exact h.of_merge dates l hl

theorem texts_makeLists {coords : InvitationClass} {next : Nat} {found : List (List ItemData)}
    (hl : l ∈ FetchInvitationnData.makeLists coords next found) (hV : ∀ items ∈ found, ∀ i ∈ items, i.texts ⊆ V) :
    l.encodeWithCoder.texts ⊆ V := by
  induction found generalizing next with
  | nil => cases hl
  | cons items found ih =>
    rw [FetchInvitationnData.makeLists] at hl
    rcases List.mem_cons.1 hl with rfl | hl
    · rintro x ⟨i, hi, hx⟩
      have hi : i ∈ (ItemClass.decodeItems (next + 1) items).map (·.encodeWithCoder) := hi
      rw [ItemClass.encode_decodeItems] at hi
      exact hV items List.mem_cons_self i hi hx
    · exact ih hl fun items' h' => hV items' (List.mem_cons_of_mem _ h')

/-- An observer takes items from its snapshot. -/
theorem MemoryIn.notify (h : MemoryIn V m) {order : DictOrder} {samePointer : String → Bool}
    {coords : InvitationClass} {fetchedArr : Nat} {snapshot : FNode} (hs : texts snapshot ⊆ V)
    (hm : FetchInvitationnData.block order samePointer coords fetchedArr snapshot m = .ok m') : MemoryIn V m' := by
  unfold FetchInvitationnData.block at hm
  split at hm
  · obtain ⟨values, hvalues, hm⟩ := Raising.bind_ok_iff.1 hm
    obtain ⟨found, hfound, hm⟩ := Raising.bind_ok_iff.1 hm
    simp only at hm
    split at hm
    · cases hm
      exact h
    · cases hm
      have hV := texts_fetchedItems hfound fun v hv => (texts_allValues hvalues hv).trans hs
      intro l hl
      obtain ⟨a, ha, hla⟩ := AppData.mem_lists.1 hl
      have hmap := AppData.mem_lists_mapArrays.1
        (AppData.mem_lists.2 ⟨a, AppData.mem_arrays_invitationLST ha, hla⟩)
      obtain ⟨b, hb, hlb⟩ := hmap
      split at hlb
      · rcases List.mem_append.1 hlb with hlb | hlb
        · exact h l (AppData.mem_lists.2 ⟨b, hb, hlb⟩)
        · exact texts_makeLists hlb hV
      · exact h l (AppData.mem_lists.2 ⟨b, hb, hlb⟩)
  · cases hm
    exact h

theorem MemoryIn.readCallback (h : MemoryIn V m) {order : DictOrder} {snapshot : FNode} (hs : texts snapshot ⊆ V)
    (hm : ReadDataFromCloud.callback order snapshot m = .ok m') : MemoryIn V m' := by
  obtain rfl | ⟨lists, hlists, rfl⟩ := readCallback_ok hm
  · exact h
  · refine h.of_arrays fun a ha => ?_
    rcases AppData.mem_arrays_onlineLST ha with ha | ha
    · exact .inl ha
    · cases ha
      exact .inr fun l hl => (texts_readLists hlists (texts_decodeLists hl)).trans hs

theorem MemoryIn.setWithName (h : MemoryIn V m) (n e : Option String) (uid : String) :
    MemoryIn V (SetTheUser.setWithName n e uid m) := by
  refine MemoryIn.congr (m := m.mapLists _) (memoryIn_mapLists fun l hl => ?_) rfl
  split <;> exact h l hl

end

/-! ## Turns -/

/-- The texts that an event brings in from the outside. -/
def Action.entered : Action → Set Text
  | .launch now | .login now => sampleTexts now
  | .addItem text now => {.name text, .time (DateAndTime.dateAndTimeNow now)}
  | .toggleItem _ now => {.time (DateAndTime.dateAndTimeNow now)}
  | _ => ∅

section
variable {V : Set Text} {s : Sys} {a : Action}

theorem mem_lists_shownList {l : ShopingListsClass} (hl : shownList s = some l) : l ∈ s.mem.lists := by
  obtain ⟨screen, -, ho⟩ := shownList_some hl
  exact AppData.mem_lists_curLST (List.mem_of_getElem? (objectAt_some ho))

/-- **What an event leaves** in memory and files was there, or has been entered. -/
theorem memoryIn_outcome {m : AppData} {f : Files} {o : List Observer} (h : MemoryIn V s.mem)
    (hf : FilesIn V s.files)
    (hreads : ∀ sync ref snapshot, .readCallback sync ref snapshot ∈ s.pending → texts snapshot ⊆ V)
    (hdb : texts (getChild ["Data"] s.db) ⊆ V) (he : a.entered ⊆ V) (ho : Outcome s a m f o) :
    MemoryIn V m ∧ FilesIn V f := by
  have hremove : ∀ (array : Option NSMutableArray) (l : ShopingListsClass),
      MemoryIn V (s.mem.updateArray array (CompareList.removeObject l)) := fun array l =>
    h.updateArray fun _ _ hx => .inl (CompareList.mem_removeObject.1 hx).1
  have hassign : ∀ {l l' : ShopingListsClass}, l'.encodeWithCoder.texts ⊆ V → MemoryIn V (s.mem.assignList l l') :=
    fun hl' => memoryIn_mapLists fun x hx => by
      split
      · exact hl'
      · exact h x hx
  cases ho with
  | same => exact ⟨h, hf⟩
  | launch hr => exact memoryIn_init.readsData hf (fun _ => he) hr
  | login hr => exact h.readsData hf (fun _ => he) hr
  | @newList text _ _ hw =>
    have hnew : MemoryIn V (withNewList text s.mem) := by
      refine MemoryIn.congr (m := s.mem.addObject s.mem.curLST _) (h.updateArray fun objs x hx => ?_) rfl
      rcases List.mem_append.1 hx with hx | hx
      · exact .inl hx
      · rw [List.mem_singleton.1 hx]
        refine .inr ?_
        rintro y ⟨i, hi, -⟩
        cases hi
    exact hnew.writes hw
  | deleteOwn hl hown hw => exact (hremove _ _).writes hw
  | reject hl hown => exact ⟨hremove _ _, hf⟩
  | write hw => exact h.writes hw
  | @addItem text now l _ _ hl hw =>
    have hnew : MemoryIn V (withNewItem text now l s.mem) := by
      refine MemoryIn.congr (m := s.mem.assignList l _) (hassign ?_) rfl
      refine texts_items (fun i hi => ?_) (h _ (mem_lists_shownList hl))
      rcases List.mem_append.1 hi with hi | hi
      · exact .inl hi
      · rw [List.mem_singleton.1 hi]
        refine .inr ?_
        rintro y (⟨n, hn, rfl⟩ | ⟨t, ht, rfl⟩)
        · cases hn
          exact he (.inl rfl)
        · cases ht
          exact he (.inr rfl)
    exact hnew.writes hw
  | @toggleItem row now l i _ _ hl hi hw =>
    refine MemoryIn.writes (memoryIn_mapLists fun x hx => ?_) hw
    refine texts_items (l := x) (fun j hj => ?_) (h x hx)
    obtain ⟨y, hy, rfl⟩ := List.mem_map.1 hj
    split
    · rename_i heq
      refine .inr ?_
      rintro z (⟨n, hn, rfl⟩ | ⟨t, ht, rfl⟩)
      · exact h x hx ⟨_, List.mem_map_of_mem hy, .inl ⟨n, heq ▸ hn, rfl⟩⟩
      · cases ht
        exact he rfl
    · exact .inl hy
  | deleteItem hl hi hw =>
    refine MemoryIn.writes (hassign ?_) hw
    exact texts_items (fun j hj => .inl (CompareList.mem_removeObject.1 hj).1) (h _ (mem_lists_shownList hl))
  | readCallback hk hm => exact ⟨h.readCallback (hreads _ _ _ (List.mem_of_getElem? hk)) hm, hf⟩
  | mergeBlock hk hw => exact (h.merged _).writes hw
  | fetched hk hw =>
    obtain ⟨hm, hfiles⟩ := (h.merged _).writes hw
    refine ⟨hm.of_arrays fun b hb => ?_, hfiles⟩
    rw [AppData.mem_arrays] at hb ⊢
    simp only [List.mem_append, List.mem_singleton] at hb
    rcases hb with hb | hb | hb | hb | hb | rfl
    · exact .inl (.inl hb)
    · exact .inl (.inr (.inl hb))
    · exact .inl (.inr (.inr (.inl hb)))
    · exact .inl (.inr (.inr (.inr (.inl hb))))
    · exact .inl (.inr (.inr (.inr (.inr hb))))
    · exact .inr fun l hl => by cases hl
  | coordsCallback hk hm =>
    obtain rfl | ⟨values, coords, -, rfl⟩ := coordsCallback_ok hm
    · exact ⟨h, hf⟩
    · exact ⟨h.congr rfl, hf⟩
  | appendBlock hk =>
    refine ⟨h.updateArray fun objs x hx => ?_, hf⟩
    rcases List.mem_append.1 hx with hx | hx
    · exact .inl hx
    · exact .inr (h.of_elems (fun a ha => AppData.mem_arrays.2 (.inr (.inr (.inr (.inl ha))))) hx)
  | loginBlock hk hr =>
    refine MemoryIn.readsData (h.setWithName _ _ _) ?_ (fun hnone => ?_) hr
    · exact hf
    · cases hnone
  | registerBlock hk => exact ⟨h.setWithName _ _ _, hf⟩
  | notify hk hm =>
    exact ⟨h.notify ((texts_getChild _ (getChild ["Data"] s.db)).trans hdb) hm, hf⟩

/-- What a call writes is in `V`. -/
def Call.In (V : Set Text) : Call → Prop
  | .save _ _ l => l.encodeWithCoder.texts ⊆ V
  | .saveItem _ i _ => i.encodeWithCoder.texts ⊆ V
  | _ => True

/-- A write below `Data` of a node that is no leaf. -/
theorem texts_write {db new : FNode} {ref : List String} (hdb : texts (getChild ["Data"] db) ⊆ V)
    (href : ∃ r, ref = "Data" :: r) (hleaf : ∀ v, new ≠ .leaf v) (hnew : texts new ⊆ V) :
    texts (getChild ["Data"] (updateChild new ref db)) ⊆ V := by
  obtain ⟨r, rfl⟩ := href
  rw [show "Data" :: r = ["Data"] ++ r from rfl, getChild_updateChild]
  exact (texts_updateChild hleaf _ _).trans (Set.union_subset hdb hnew)

theorem texts_call {c : Call} {db : FNode} (hc : c.In V) (hdb : texts (getChild ["Data"] db) ⊆ V) :
    texts (getChild ["Data"] (c.step db)) ⊆ V := by
  have hempty : texts emptyNode ⊆ V := by
    rw [texts_emptyNode]
    exact Set.empty_subset V
  have hbelow : ∀ {ref path : List String} {n : Option String}, (∃ r, ref = "Data" :: r) →
      itemRef ref n = .ok path → ∃ r, path = "Data" :: r := by
    rintro ref path n ⟨r, rfl⟩ hpath
    obtain ⟨n, -, rfl⟩ := itemRef_ok hpath
    exact ⟨_, rfl⟩
  rw [Call.step]
  cases hp : c.perform db with
  | error e => exact hdb
  | ok db' =>
    cases c with
    | save session curUser l =>
      cases session with
      | none =>
        cases hp
        exact hdb
      | some user =>
        obtain ⟨-, -, ref, href, rfl⟩ := save_ok_iff.1 hp
        exact texts_write hdb (exists_below_dataNode href) (fun v he => by cases he) (texts_listNode.trans hc)
    | saveItem session i l =>
      cases session with
      | none =>
        cases hp
        exact hdb
      | some user =>
        obtain ⟨ref, path, href, hpath, rfl⟩ := saveItem_ok_iff.1 hp
        exact texts_write hdb (hbelow (exists_below_dataNode href) hpath) (fun v he => by cases he)
          (texts_itemDic.trans hc)
    | deleteItem session curUser i l =>
      cases session with
      | none =>
        cases hp
        exact hdb
      | some user =>
        obtain ⟨ref, path, href, hpath, rfl⟩ := deleteItem_ok_iff.1 hp
        exact texts_write hdb (hbelow (exists_below_dataNode href) hpath) (fun v he => by cases he) hempty
    | deleteList session l =>
      cases session with
      | none =>
        cases hp
        exact hdb
      | some user =>
        obtain ⟨ref, href, rfl⟩ := deleteList_ok_iff.1 hp
        exact texts_write hdb (exists_below_dataNode href) (fun v he => by cases he) hempty

/-- The calls of a turn write what is in the memory, or has been entered. -/
theorem callIn_cloudCalls {c : Call} (h : MemoryIn V s.mem) (he : a.entered ⊆ V) (hc : c ∈ cloudCalls a s) :
    c.In V := by
  obtain ⟨hr, ho⟩ := callOf_cloudCalls hc
  cases ho with
  | newList text =>
    rintro x ⟨i, hi, -⟩
    cases hi
  | deleteList ho hown => trivial
  | @addItem text now l newItem hl =>
    simp only [cloudCalls, if_pos hr] at hc
    split at hc
    · obtain ⟨l', -, hcall⟩ := List.mem_map.1 hc
      simp only [Call.saveItem.injEq] at hcall
      obtain ⟨-, rfl, -⟩ := hcall
      rintro x (⟨n, hn, rfl⟩ | ⟨t, ht, rfl⟩)
      · cases hn
        exact he (.inl rfl)
      · cases ht
        exact he (.inr rfl)
    · cases hc
  | toggleItem hl hi =>
    rintro x (⟨n, hn, rfl⟩ | ⟨t, ht, rfl⟩)
    · exact h _ (mem_lists_shownList hl) ⟨_, List.mem_map_of_mem (List.mem_of_getElem? hi), .inl ⟨n, hn, rfl⟩⟩
    · cases ht
      exact he rfl
  | deleteItem hl hi => trivial
  | @merged k env n l hk hl =>
    have hin : l.encodeWithCoder.texts ⊆ V := h.of_merge env.dates l (AppData.mem_lists_curLST hl)
    exact hin
  | registered hk hl => exact h.setWithName _ _ _ _ (AppData.mem_lists_curLST hl)

/-- The snapshots of reads of lists. -/
def ReadsIn (V : Set Text) (ps : List Pending) : Prop := ∀ sync ref snapshot,
  .readCallback sync ref snapshot ∈ ps → (∃ r, ref = "Data" :: r) ∧ texts snapshot ⊆ V

def DeviceIn (V : Set Text) (d : Device) : Prop :=
  FilesIn V d.files ∧ (d.running = true → MemoryIn V d.mem ∧ ReadsIn V d.pending)

theorem readsIn_step (hd : s.running = true → ReadsIn V s.pending) (hdb : texts (getChild ["Data"] s.db) ⊆ V)
    (hrun : (step a s).running = true) : ReadsIn V (step a s).pending := by
  have hnow : ∀ {ref : List String}, (∃ r, ref = "Data" :: r) → texts (getChild ref s.db) ⊆ V := by
    rintro ref ⟨r, rfl⟩
    exact (texts_getChild r (getChild ["Data"] s.db)).trans hdb
  intro sync ref snapshot hp
  obtain ⟨hcomes, hr⟩ := step_comes hrun hp
  generalize hpend : Pending.readCallback sync ref snapshot = p at hcomes
  cases hcomes with
  | kept hne hm => exact hd (hr hne) sync ref snapshot (hpend ▸ hm)
  | @refreshed k q hm =>
    cases q with
    | readCallback n r' sn =>
      cases hpend
      obtain ⟨href, -⟩ := hd (hr (by simp)) _ _ _ hm
      exact ⟨href, hnow href⟩
    | _ => cases hpend
  | requested hreq hm =>
    cases hreq with
    | nobody => cases hm
    | read hu href =>
      simp only [List.mem_cons, List.not_mem_nil, or_false, ← hpend] at hm
      rcases hm with hm | hm
      · cases hm
        obtain ⟨n, -, rfl⟩ := child_ok href
        exact ⟨⟨_, rfl⟩, hnow ⟨_, rfl⟩⟩
      · cases hm
  | asked hm =>
    rw [← hpend] at hm
    rcases hm with hm | ⟨_, _, hm⟩ | ⟨_, _, hm⟩ | hm <;> cases hm
  | signed hm =>
    rw [← hpend] at hm
    rcases hm with hm | ⟨_, _, hm⟩ <;> cases hm
  | named => cases hpend

/-- **One step** of a device keeps its texts and those of the database in `V`. -/
theorem textsIn_step (hd : DeviceIn V s.toDevice) (hdb : texts (getChild ["Data"] s.db) ⊆ V) (he : a.entered ⊆ V) :
    DeviceIn V (step a s).toDevice ∧ texts (getChild ["Data"] (step a s).db) ⊆ V := by
  have hkept : Kept (fun m f _ => MemoryIn V m ∧ FilesIn V f) (FilesIn V) s :=
    ⟨hd.1, fun hr => ⟨(hd.2 hr).1, hd.1⟩⟩
  have hnext : Kept (fun m f _ => MemoryIn V m ∧ FilesIn V f) (FilesIn V) (step a s) := by
    refine hkept.step (fun _ _ _ h => h.2) (fun now m f ha hr => ?_) fun hr hne h m f o ho => ?_
    · subst ha
      exact memoryIn_init.readsData hd.1 (fun _ => he) hr
    · exact memoryIn_outcome h.1 h.2 (fun sync ref snapshot hp => ((hd.2 hr).2 sync ref snapshot hp).2) hdb he ho
  refine ⟨⟨hnext.1, fun hrun => ⟨(hnext.2 hrun).1, readsIn_step (fun hr => (hd.2 hr).2) hdb hrun⟩⟩, ?_⟩
  refine (db_calls a s).induct (P := fun db => texts (getChild ["Data"] db) ⊆ V) (fun db₀ hsame h => ?_)
    (fun c hc db h => ?_) hdb
  · rw [hsame []]
    exact h
  · exact texts_call (callIn_cloudCalls (hd.2 (callOf_cloudCalls hc).1).1 he hc) h

end

/-! ## Runs of all devices -/

/-- What happens to a world: a turn of one device, or a write below `Users`, such as an invitation. -/
inductive Deed (ι : Type) where
  | turn (c : ι) (a : Action)
  | users (path : List String) (node : FNode)

namespace Deed

variable {ι : Type}

def perform [DecidableEq ι] : Deed ι → World ι → World ι
  | .turn c a, w => w.step (c, a)
  | .users path node, w => { w with db := updateChild node ("Users" :: path) w.db }

/-- The texts of items that it brings in. -/
def entered : Deed ι → Set Text
  | .turn _ a => a.entered
  | .users _ _ => ∅

end Deed

/-- The texts of the lists on a device: in its files, and in memory and the reads on their way while it runs. -/
def Device.texts (d : Device) : Set Text :=
  {x | (∃ ls, d.files.dataPlist = some ls ∧ ∃ l ∈ ls, x ∈ l.texts) ∨
    d.running = true ∧ ((∃ l ∈ d.mem.lists, x ∈ l.encodeWithCoder.texts) ∨
      ∃ sync ref snapshot, .readCallback sync ref snapshot ∈ d.pending ∧ x ∈ FNode.texts snapshot)}

section
variable {ι : Type}

def World.texts (w : World ι) : Set Text :=
  {x | (∃ c, x ∈ (w.client c).texts) ∨ x ∈ FNode.texts (getChild ["Data"] w.db)}

structure WorldIn (V : Set Text) (w : World ι) : Prop where
  devices : ∀ c, DeviceIn V (w.client c)
  cloud : FNode.texts (getChild ["Data"] w.db) ⊆ V

theorem worldIn_perform [DecidableEq ι] {V : Set Text} {d : Deed ι} {w : World ι} (hw : WorldIn V w)
    (he : d.entered ⊆ V) :
    WorldIn V (d.perform w) := by
  cases d with
  | turn c a =>
    obtain ⟨hdevice, hcloud⟩ := textsIn_step (s := w.sys c) (hw.devices c) hw.cloud he
    refine ⟨fun b => ?_, hcloud⟩
    show DeviceIn V (Function.update w.client c _ b)
    by_cases hb : b = c
    · subst hb
      rw [Function.update_self]
      exact hdevice
    · rw [Function.update_of_ne hb]
      exact hw.devices b
  | users path node =>
    refine ⟨hw.devices, ?_⟩
    show FNode.texts (getChild ["Data"] (updateChild node ("Users" :: path) w.db)) ⊆ V
    rw [SameLists.users node path w.db []]
    exact hw.cloud

theorem WorldIn.texts_subset {V : Set Text} {w : World ι} (hw : WorldIn V w) : w.texts ⊆ V := by
  rintro x (⟨c, ⟨ls, hls, l, hl, hx⟩ | ⟨hr, ⟨l, hl, hx⟩ | ⟨sync, ref, snapshot, hp, hx⟩⟩⟩ | hx)
  · exact (hw.devices c).1 ls hls l hl hx
  · exact ((hw.devices c).2 hr).1 l hl hx
  · exact (((hw.devices c).2 hr).2 sync ref snapshot hp).2 hx
  · exact hw.cloud hx

/-- **No name and no time of an item is made up**, in any run of the devices. -/
theorem texts_run [DecidableEq ι] {w : World ι} (hoff : ∀ c, (w.client c).running = false) (ds : List (Deed ι)) :
    (Run.run Deed.perform ds w).texts ⊆ w.texts ∪ {x | ∃ d ∈ ds, x ∈ d.entered} := by
  let V : Set Text := w.texts ∪ {x | ∃ d ∈ ds, x ∈ d.entered}
  have hstart : WorldIn V w := by
    refine ⟨fun c => ⟨fun ls hls l hl x hx => .inl (.inl ⟨c, .inl ⟨ls, hls, l, hl, hx⟩⟩), fun hr => ?_⟩,
      fun x hx => .inl (.inr hx)⟩
    rw [hoff c] at hr
    cases hr
  have halong : Run.Along Deed.perform (fun d _ => d.entered ⊆ V) ds w := by
    refine Run.along_iff_split.2 fun before d after he => ?_
    intro x hx
    exact .inr ⟨d, he ▸ List.mem_append_right before List.mem_cons_self, hx⟩
  exact (Run.run_induct (P := WorldIn V) (fun d w hd hw => worldIn_perform hw hd) halong hstart).texts_subset

end

/-- Ann adds milk on one device, and invites somebody while the other one reads. -/
def sharingMilk : List (Deed Bool) :=
  [.turn true (.launch annEnv.now), .turn true (.newList "Food"), .turn true (.openItems 0),
    .turn true (.addItem "Milk" annEnv.now), .turn false (.launch annEnv.now),
    .users ["u2", "invitations", "u1|Food"] (.children [("listName", .leaf "Food")]), .turn false (.fire 0 annEnv)]

theorem texts_run_milk : (Run.run Deed.perform sharingMilk (annWorld [] [])).texts ⊆
    (annWorld [] []).texts ∪ {x | ∃ d ∈ sharingMilk, x ∈ d.entered} := texts_run (fun _ => rfl) _

end ShopingList
