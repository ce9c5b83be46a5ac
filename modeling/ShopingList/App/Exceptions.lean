import ShopingList.App.Schema
import ShopingList.App.MergeBlock

/-!
# Exceptions of a sync

The trees that the four writers leave below `Data` (`AppTree`), what the callback of
`ReadDataFromCloud.read` makes of them, and the saves of the merged lists. `clean_iff` says
for which trees and which `data.plist` a sync sends no message to nil keys and no
`allValues` to an array.
-/

namespace ShopingList

open FNode FValidation KeyedMerge ListViewController

/-! ## What the writers leave -/

def OwnerLeaf (r : List String) : Prop := ∃ k ∈ ["userName", "Email", "uid"], r = [k]

/-- The name of an item is below one key or the other. -/
def ItemLeaf (r : List String) : Prop := ∃ k ∈ ["item Name", "Item name", "purchased", "time"], r = [k]

def ListLeaf (r : List String) : Prop :=
  r = ["listName"] ∨ (∃ q, r = "listUser" :: q ∧ OwnerLeaf q) ∨ ∃ i q, r = "listItems" :: i :: q ∧ ItemLeaf q

def DataLeaf (r : List String) : Prop := ∃ u k q, r = "Data" :: u :: k :: q ∧ ListLeaf q

/-- A tree whose values are at the places of lists, owners and items. -/
structure AppTree (db : FNode) : Prop where
  normal : Normal db
  leaves : LeavesIn DataLeaf db

theorem leavesIn_itemNode (i : ItemData) : LeavesIn ItemLeaf (itemNode i) := by
  have hsub : ∀ k ∈ ["item Name", "purchased", "time"],
      k ∈ ["item Name", "Item name", "purchased", "time"] := by decide
  exact (leavesIn_dictionary _).mono fun r ⟨k, hk, hr⟩ => ⟨k, hsub k hk, hr⟩

theorem leavesIn_itemDic (i : ItemClass) : LeavesIn ItemLeaf (SaveItemToCloud.itemDic i) := by
  have hsub : ∀ k ∈ ["Item name", "purchased", "time"],
      k ∈ ["item Name", "Item name", "purchased", "time"] := by decide
  exact (leavesIn_dictionary _).mono fun r ⟨k, hk, hr⟩ => ⟨k, hsub k hk, hr⟩

theorem leavesIn_listNode (l : ListData) : LeavesIn ListLeaf (listNode l) := by
  refine leavesIn_children fun p hp => ?_
  have hp := (List.mem_filter.1 hp).1
  simp only [List.mem_cons, List.not_mem_nil, or_false] at hp
  rcases hp with rfl | rfl | rfl
  · refine leavesIn_children fun p hp => ?_
    obtain ⟨i, -, -, he⟩ := mem_itemsNode hp
    rw [← he]
    exact (leavesIn_itemNode i).mono fun q hq => .inr (.inr ⟨_, q, rfl, hq⟩)
  · exact leavesIn_leaf (.inl rfl) _
  · exact (leavesIn_dictionary _).mono fun q hq => .inr (.inl ⟨q, rfl, hq⟩)

theorem appTree_emptyNode : AppTree emptyNode := ⟨normal_emptyNode, leavesIn_emptyNode⟩

theorem AppTree.removeValue {db : FNode} (h : AppTree db) (p : List String) : AppTree (removeValue p db) :=
  ⟨h.normal.updateChild normal_emptyNode p, h.leaves.updateChild leavesIn_emptyNode⟩

theorem appTree_perform {c : Call} {db db' : FNode} (hl : c.Legal) (h : AppTree db)
    (hp : c.perform db = .ok db') : AppTree db' := by
  cases c with
  | save cu curUser l =>
    obtain ⟨hu, hn, -⟩ := hl
    cases cu with
    | none => cases hp; exact h
    | some cu =>
      obtain ⟨-, -, ref, href, rfl⟩ := save_ok_iff.1 hp
      obtain ⟨u, k, -, -, rfl⟩ := listRef_of_keys hu hn href
      exact ⟨h.normal.updateChild (normal_listNode _) _,
        h.leaves.updateChild ((leavesIn_listNode _).mono fun q hq => ⟨u, k, q, rfl, hq⟩)⟩
  | saveItem cu i l =>
    obtain ⟨hu, hn, name, hi, hkey⟩ := hl
    cases cu with
    | none => cases hp; exact h
    | some cu =>
      obtain ⟨ref, path, href, hpath, rfl⟩ := saveItem_ok_iff.1 hp
      obtain ⟨u, k, -, -, rfl⟩ := listRef_of_keys hu hn href
      rw [hi, itemRef_of_key _ hkey] at hpath
      cases hpath
      exact ⟨h.normal.updateChild (normal_dictionary _) _, h.leaves.updateChild
        ((leavesIn_itemDic i).mono fun q hq => ⟨u, k, _, rfl, .inr (.inr ⟨name, q, rfl, hq⟩)⟩)⟩
  | deleteItem cu curUser i l =>
    cases cu with
    | none => cases hp; exact h
    | some cu =>
      obtain ⟨ref, path, -, -, rfl⟩ := deleteItem_ok_iff.1 hp
      exact h.removeValue path
  | deleteList cu l =>
    cases cu with
    | none => cases hp; exact h
    | some cu =>
      obtain ⟨ref, -, rfl⟩ := deleteList_ok_iff.1 hp
      exact h.removeValue ref

theorem appTree_step {c : Call} {db : FNode} (hl : c.Legal) (h : AppTree db) : AppTree (c.step db) := by
  unfold Call.step
  split
  · rename_i hp
    exact appTree_perform hl h hp
  · exact h

/-- **Every tree of the app** has its values at the places that the readers know. -/
theorem appTree_run {calls : List Call} (hl : ∀ c ∈ calls, c.Legal) {db : FNode} (h : AppTree db) :
    AppTree (Run.run Call.step calls db) := by
  induction calls generalizing db with
  | nil => exact h
  | cons c calls ih =>
    obtain ⟨hc, hl⟩ := List.forall_mem_cons.1 hl
    exact ih hl (appTree_step hc h)

/-! ## Reading such a tree -/

/-- Where the reader sends `allValues`, it finds a dictionary. -/
def Readable (x : FNode) : Prop :=
  x.exportsDictionary = true ∧ ∀ n ∈ x.values, (getChild ["listItems"] n).exportsDictionary = true

/-- The fields that hold the names are there. -/
def NamedNode (n : FNode) : Prop :=
  (leafAt ["listName"] n).isSome = true ∧
    ∀ i ∈ (getChild ["listItems"] n).values, (leafAt ["item Name"] i).isSome = true

/-- The list and its items have names. -/
def HasNames (l : ListData) : Prop :=
  l.listName.isSome = true ∧ ∀ i ∈ l.listItems, i.itemName.isSome = true

instance (x : FNode) : Decidable (Readable x) := inferInstanceAs (Decidable (_ ∧ ∀ n ∈ x.values, _))

instance (n : FNode) : Decidable (NamedNode n) := inferInstanceAs (Decidable (_ ∧ ∀ i ∈ _, _))

instance (l : ListData) : Decidable (HasNames l) := inferInstanceAs (Decidable (_ ∧ ∀ i ∈ l.listItems, _))

section
variable {order : DictOrder} {n x : FNode}

/-- A node with the values of an item, an owner or a list. -/
structure NodeOf (L : List String → Prop) (n : FNode) : Prop where
  normal : Normal n
  leaves : LeavesIn L n
  nonempty : n.isEmpty = false

theorem itemLeaf_keys {k : String} {r : List String} (h : ItemLeaf (k :: r)) :
    integerKey k = none ∧ r = [] := by
  obtain ⟨k', hk, he⟩ := h
  have hkeys : ∀ k ∈ ["item Name", "Item name", "purchased", "time"], integerKey k = none := by decide
  cases he
  exact ⟨hkeys _ hk, rfl⟩

theorem ownerLeaf_keys {k : String} {r : List String} (h : OwnerLeaf (k :: r)) :
    integerKey k = none ∧ r = [] := by
  obtain ⟨k', hk, he⟩ := h
  have hkeys : ∀ k ∈ ["userName", "Email", "uid"], integerKey k = none := by decide
  cases he
  exact ⟨hkeys _ hk, rfl⟩

theorem listLeaf_keys {k : String} {r : List String} (h : ListLeaf (k :: r)) :
    integerKey k = none ∧ (k = "listName" → r = []) := by
  have hname : integerKey "listName" = none := by decide
  have huser : integerKey "listUser" = none := by decide
  have hitems : integerKey "listItems" = none := by decide
  rcases h with he | ⟨q, he, -⟩ | ⟨i, q, he, -⟩
  · cases he
    exact ⟨hname, fun _ => rfl⟩
  · cases he
    exact ⟨huser, fun e => absurd e (by decide)⟩
  · cases he
    exact ⟨hitems, fun e => absurd e (by decide)⟩

/-- A node whose values are below keys of one level is read key by key. -/
theorem NodeOf.stringForKey {L : List String → Prop} (h : NodeOf L n) (hroot : ¬ L [])
    (hkeys : ∀ k r, L (k :: r) → integerKey k = none ∧ r = []) (key : String) :
    FNode.stringForKey key n = .ok (leafAt [key] n) :=
  h.leaves.stringForKey h.normal
    (h.leaves.exportsDictionary h.normal hroot fun k r hr => (hkeys k r hr).1) h.nonempty
    fun r hr => (hkeys key r hr).2

theorem readItem_ok (h : NodeOf ItemLeaf n) : ∃ i, ReadDataFromCloud.readItem n = .ok i ∧
    i.itemName = leafAt ["item Name"] n := by
  have hget := h.stringForKey (by rintro ⟨k, -, he⟩; cases he) fun k r => itemLeaf_keys
  simp only [ReadDataFromCloud.readItem, hget]
  exact ⟨_, rfl, rfl⟩

theorem readOwner_ok (h : NodeOf OwnerLeaf n) : ∃ u, ReadDataFromCloud.readOwner (some n) = .ok u := by
  have hget := h.stringForKey (by rintro ⟨k, -, he⟩; cases he) fun k r => ownerLeaf_keys
  simp only [ReadDataFromCloud.readOwner, hget]
  exact ⟨_, rfl⟩

/-- The values at the places of items. -/
def ItemsLeaf (r : List String) : Prop := ∃ i q, r = i :: q ∧ ItemLeaf q

theorem listLeaf_user {r : List String} (h : ListLeaf ("listUser" :: r)) : OwnerLeaf r := by
  rcases h with he | ⟨q, he, hq⟩ | ⟨i, q, he, -⟩
  · exact absurd he (by simp)
  · cases he
    exact hq
  · exact absurd he (by simp)

theorem listLeaf_items {r : List String} (h : ListLeaf ("listItems" :: r)) : ItemsLeaf r := by
  rcases h with he | ⟨q, he, -⟩ | ⟨i, q, he, hq⟩
  · exact absurd he (by simp)
  · exact absurd he (by simp)
  · cases he
    exact ⟨i, q, rfl, hq⟩

/-- The children of a node whose values are one level down. -/
theorem nodeOf_values {L : List String → Prop} (hn : Normal n)
    (hl : LeavesIn (fun r => ∃ k q, r = k :: q ∧ L q) n) {c : FNode} (hc : c ∈ n.values) : NodeOf L c := by
  cases n with
  | leaf v => cases hc
  | children kids =>
    obtain ⟨⟨k, c⟩, hmem, rfl⟩ := List.mem_map.1 hc
    have hget := hn.getImmediateChild hmem
    have hleaves : LeavesIn L (FNode.getChild [k] (.children kids)) := (hl.getChild [k]).mono fun r hr => by
      obtain ⟨k', q, he, hq⟩ := hr
      cases he
      exact hq
    rw [FNode.getChild, hget] at hleaves
    exact ⟨hget ▸ hn.getChild [k], hleaves, (hn [] kids rfl).2 (k, c) hmem⟩

/-- `allValues` of a node with children. -/
theorem allValues_cases (order : DictOrder) (hne : x.isEmpty = false) :
    x.exportsDictionary = false ∧ (∃ e, allValues order x = .error e) ∨
      x.exportsDictionary = true ∧ ∃ vals, allValues order x = .ok vals ∧ vals.Perm x.values := by
  cases x with
  | leaf v => exact .inl ⟨rfl, _, rfl⟩
  | children kids =>
    rw [isEmpty] at hne
    rw [exportsDictionary, allValues, hne]
    cases isArray kids with
    | true => exact .inl ⟨rfl, _, rfl⟩
    | false => exact .inr ⟨rfl, _, rfl, order.perm kids⟩

theorem readItems_cases (order : DictOrder) {c : FNode} (hn : Normal c) (hl : LeavesIn ItemsLeaf c) :
    c.exportsDictionary = false ∧
        (∃ e, ReadDataFromCloud.readItems order (if c.isEmpty then none else some c) = .error e) ∨
      c.exportsDictionary = true ∧
        ∃ is, ReadDataFromCloud.readItems order (if c.isEmpty then none else some c) = .ok is ∧
          ((∀ i ∈ is, i.itemName.isSome = true) ↔ ∀ v ∈ c.values, (leafAt ["item Name"] v).isSome = true) := by
  cases he : c.isEmpty with
  | true =>
    rw [eq_emptyNode he]
    exact .inr ⟨rfl, [], rfl, by simp [values, emptyNode]⟩
  | false =>
    simp only [Bool.false_eq_true, if_false, ReadDataFromCloud.readItems]
    rcases allValues_cases order he with ⟨hd, e, hv⟩ | ⟨hd, vals, hv, hp⟩
    · exact .inl ⟨hd, e, by rw [hv]; rfl⟩
    · have hread : ∀ v ∈ vals, ∃ i, ReadDataFromCloud.readItem v = .ok i ∧ i.itemName = leafAt ["item Name"] v :=
        fun v hvm => readItem_ok (nodeOf_values hn hl (hp.subset hvm))
      rcases Raising.mapM_cases (D := fun _ => True) fun v hvm => .inr ⟨trivial, hread v hvm⟩ with
        ⟨hno, -⟩ | ⟨-, is, his, hf⟩
      · exact absurd (fun _ _ => trivial) hno
      refine .inr ⟨hd, is, by rw [hv]; exact his, ?_⟩
      rw [← Raising.forall_iff_of_forall₂ hf fun v i h => iff_of_eq (congrArg (·.isSome = true) h.symm)]
      exact ⟨fun h v hvm => h v (hp.symm.subset hvm), fun h v hvm => h v (hp.subset hvm)⟩

theorem readList_cases (order : DictOrder) (h : NodeOf ListLeaf n) :
    (getChild ["listItems"] n).exportsDictionary = false ∧
        (∃ e, ReadDataFromCloud.readList order n = .error e) ∨
      (getChild ["listItems"] n).exportsDictionary = true ∧
        ∃ l, ReadDataFromCloud.readList order n = .ok l ∧ l.listName = leafAt ["listName"] n ∧
          (HasNames l ↔ NamedNode n) := by
  have hroot : ¬ ListLeaf [] := by
    rintro (he | ⟨q, he, -⟩ | ⟨i, q, he, -⟩) <;> cases he
  have hd := h.leaves.exportsDictionary h.normal hroot fun k r hr => (listLeaf_keys hr).1
  have hname : FNode.stringForKey "listName" n = .ok (leafAt ["listName"] n) :=
    h.leaves.stringForKey h.normal hd h.nonempty fun r hr => (listLeaf_keys hr).2 rfl
  have hget := objectForKey_of_exports h.normal hd h.nonempty
  have howner : ∃ u, ReadDataFromCloud.readOwner (if (getChild ["listUser"] n).isEmpty then none
      else some (getChild ["listUser"] n)) = .ok u := by
    split
    · exact ⟨_, rfl⟩
    · rename_i he
      exact readOwner_ok ⟨h.normal.getChild _, (h.leaves.getChild ["listUser"]).mono fun r => listLeaf_user,
        by simpa using he⟩
  obtain ⟨u, hu⟩ := howner
  have hitems : LeavesIn ItemsLeaf (getChild ["listItems"] n) :=
    (h.leaves.getChild ["listItems"]).mono fun r => listLeaf_items
  rw [ReadDataFromCloud.readList, hname, hget, hget]
  simp only [bind, Except.bind, hu]
  rcases readItems_cases order (h.normal.getChild ["listItems"]) hitems with ⟨hd, e, he⟩ | ⟨hd, is, his, hnames⟩
  · exact .inl ⟨hd, e, by rw [he]⟩
  · exact .inr ⟨hd, _, by rw [his]; rfl, rfl, and_congr Iff.rfl hnames⟩

end

/-! ## Names after a merge -/

/-- The merge takes this list of `data.plist`: no list of its name is online, or it is the first
of its name. -/
def Taken (online : List (Option String)) (offline : List ListData) (b : ListData) : Prop :=
  b.listName = none ∨ b.listName ∉ online ∨ offline.find? (fun x => x.listName = b.listName) = some b

instance (online : List (Option String)) (offline : List ListData) (b : ListData) :
    Decidable (Taken online offline b) := inferInstanceAs (Decidable (_ ∨ _ ∨ _))

theorem named_mergeItems (dates : DateAlloc) (listName : Option String) (is js : List ItemData) :
    (∀ i ∈ CompareList.mergeItems dates listName is js, i.itemName.isSome = true) ↔
      (∀ i ∈ is, i.itemName.isSome = true) ∧ ∀ j ∈ js, j.itemName.isSome = true := by
  constructor
  · intro h
    refine ⟨fun i hi => ?_, fun j hj => ?_⟩
    · cases hn : i.itemName with
      | some n => rfl
      | none =>
        have hmem := h i (mem_mergeBy_left hi fun b _ => sameKey_none hn b)
        rwa [hn] at hmem
    · cases hn : j.itemName with
      | some n => rfl
      | none =>
        have hmem := h j (mem_mergeBy_right hj fun a _ => sameKey_none hn a)
        rwa [hn] at hmem
  · rintro ⟨hi, hj⟩ x hx
    rcases CompareList.mem_mergeItems hx with hx | hx
    · exact hi x hx
    · exact hj x hx

/-- The lists of a merge have names if the lists that it takes have. -/
theorem hasNames_mergeLists (dates : DateAlloc) (as bs : List ListData) :
    (∀ l ∈ CompareList.mergeLists dates as bs, HasNames l) ↔
      (∀ a ∈ as, HasNames a) ∧ ∀ b ∈ bs, Taken (as.map (·.listName)) bs b → HasNames b := by
  have hfind : ∀ a ∈ as, ∀ n, a.listName = some n →
      bs.find? (fun b => sameKey ListData.listName b a) = bs.find? fun b => b.listName = some n := by
    intro a _ n hn
    congr 1
    funext b
    rw [sameKey, hn]
    cases b.listName <;> simp
  constructor
  · intro h
    refine ⟨fun a ha => ?_, fun b hb ht => ?_⟩
    · cases hf : bs.find? (fun b => sameKey ListData.listName b a) with
      | none =>
        refine h a (mem_unionBy_left ha fun b hb => ?_)
        rw [sameKey_comm]
        simpa using List.find?_eq_none.1 hf b hb
      | some b =>
        obtain ⟨hname, hitems⟩ := h _ (mem_unionBy_both ha hf)
        exact ⟨hname, ((named_mergeItems dates _ _ _).1 hitems).1⟩
    · by_cases hno : ∀ a ∈ as, sameKey ListData.listName b a = false
      · exact h b (mem_unionBy_right hb hno)
      · simp only [not_forall, Bool.not_eq_false] at hno
        obtain ⟨a, ha, hab⟩ := hno
        obtain ⟨n, hbn, han⟩ := sameKey_iff.1 hab
        have hfirst : bs.find? (fun x => x.listName = some n) = some b := by
          rcases ht with hnone | hout | hfirst
          · rw [hbn] at hnone
            cases hnone
          · exact absurd (List.mem_map.2 ⟨a, ha, han.trans hbn.symm⟩) hout
          · rwa [hbn] at hfirst
        obtain ⟨-, hitems⟩ := h _ (mem_unionBy_both ha ((hfind a ha n han).trans hfirst))
        exact ⟨hbn ▸ rfl, ((named_mergeItems dates _ _ _).1 hitems).2⟩
  · rintro ⟨ha, hb⟩ l hl
    rcases mem_unionBy_find hl with ⟨hl, -⟩ | ⟨hl, hno⟩ | ⟨a, hal, b, hf, rfl⟩
    · exact ha l hl
    · refine hb l hl ?_
      cases hn : l.listName with
      | none => exact .inl hn
      | some n =>
        refine .inr (.inl fun hmem => ?_)
        obtain ⟨a, ha, han⟩ := List.mem_map.1 hmem
        have := hno a ha
        rw [sameKey_iff.2 ⟨n, hn, han.trans hn⟩] at this
        cases this
    · have hs : sameKey ListData.listName b a = true := by simpa using List.find?_some hf
      obtain ⟨n, hbn, han⟩ := sameKey_iff.1 hs
      have hfirst := (hfind a hal n han).symm.trans hf
      have hbnames := hb b (List.mem_of_find?_eq_some hf) (.inr (.inr (by rw [hbn]; exact hfirst)))
      exact ⟨(ha a hal).1, (named_mergeItems dates _ _ _).2 ⟨(ha a hal).2, hbnames.2⟩⟩

/-! ## One sync -/

/-- The names of the lists that the merge finds online: a snapshot without children leaves
`onlineLST` as it is. -/
def onlineNames (x : FNode) (m : AppData) : List (Option String) :=
  if x.hasChildren then x.values.map (leafAt ["listName"]) else (contents m.onlineLST).map (·.listName)

/-- The lists that the merge finds online have names. -/
def OnlineNamed (x : FNode) (m : AppData) : Prop :=
  if x.hasChildren then ∀ n ∈ x.values, NamedNode n else ∀ a ∈ contents m.onlineLST, HasNames a

instance (x : FNode) (m : AppData) : Decidable (OnlineNamed x m) :=
  inferInstanceAs (Decidable (if x.hasChildren then ∀ n ∈ x.values, NamedNode n else
    ∀ a ∈ contents m.onlineLST, HasNames a))

/-- The callback for the snapshot `x` raises nothing, and no save of a merged list inserts a
nil key or value. -/
structure Clean (env : Env) (currentUser : Option FIRUser) (x : FNode) (m : AppData) : Prop where
  reads : ∃ m', ReadDataFromCloud.callback env.order x m = .ok m'
  saves : ∀ m', ReadDataFromCloud.callback env.order x m = .ok m' →
    ∀ l ∈ elems (merge env.dates m').curLST, ∀ db,
      SaveListOnCloud.save currentUser m'.curUser (l.withOwner m'.curUser) db ≠ .error .invalidArgument

section
variable {env : Env} {cu : Option FIRUser} {x : FNode} {m : AppData}

/-- What the callback makes of the node of a user. -/
theorem callback_cases (order : DictOrder) (hn : Normal x)
    (hl : LeavesIn (fun r => ∃ k q, r = k :: q ∧ ListLeaf q) x) :
    (¬ Readable x ∧ ∃ e, ReadDataFromCloud.callback order x m = .error e) ∨
      Readable x ∧ ∃ m', ReadDataFromCloud.callback order x m = .ok m' ∧ m'.offlineLST = m.offlineLST ∧
        ((∀ a ∈ contents m'.onlineLST, HasNames a) ↔ OnlineNamed x m) ∧
        ∀ name, name ∈ (contents m'.onlineLST).map (·.listName) ↔ name ∈ onlineNames x m := by
  cases hc : x.hasChildren with
  | false =>
    obtain ⟨kids, rfl⟩ := hl.children (by rintro ⟨k, q, he, -⟩; cases he)
    have hkids : kids = [] := by simpa [hasChildren] using hc
    subst hkids
    exact .inr ⟨⟨rfl, by simp [values]⟩, m, rfl, rfl, Iff.rfl, fun _ => Iff.rfl⟩
  | true =>
    have hne : x.isEmpty = false := by
      cases x with
      | leaf v => rfl
      | children kids => simpa [hasChildren, isEmpty] using hc
    rw [ReadDataFromCloud.callback, if_pos hc, ReadDataFromCloud.readLists, OnlineNamed, if_pos hc, onlineNames,
      if_pos hc]
    rcases allValues_cases order hne with ⟨hd, e, hv⟩ | ⟨hd, vals, hv, hp⟩
    · refine .inl ⟨fun h => ?_, e, by rw [hv]; rfl⟩
      rw [h.1] at hd
      cases hd
    rw [hv]
    simp only [bind, Except.bind]
    -- each child raises, or gives one list of the same name
    have hlist : ∀ v ∈ vals, (¬ (getChild ["listItems"] v).exportsDictionary = true ∧
          ∃ e, ReadDataFromCloud.readList order v = .error e) ∨
        (getChild ["listItems"] v).exportsDictionary = true ∧ ∃ l, ReadDataFromCloud.readList order v = .ok l ∧
          (l.listName = leafAt ["listName"] v ∧ (HasNames l ↔ NamedNode v)) := fun v hvm =>
      (readList_cases order (nodeOf_values hn hl (hp.subset hvm))).imp (And.imp_left fun hd => by rw [hd]; decide) id
    rcases Raising.mapM_cases hlist with ⟨hno, e, he⟩ | ⟨hall, ls, hls, hf⟩
    · exact .inl ⟨fun h => hno fun v hvm => h.2 v (hp.subset hvm), e, by rw [he]⟩
    rw [hls]
    refine .inr ⟨⟨hd, fun v hvm => hall v (hp.symm.subset hvm)⟩, _, rfl, rfl, ?_, fun name => ?_⟩
    · rw [contents_decodeLists, ← Raising.forall_iff_of_forall₂ hf fun v l h => h.2.symm]
      exact ⟨fun h v hvm => h v (hp.symm.subset hvm), fun h v hvm => h v (hp.subset hvm)⟩
    · rw [contents_decodeLists]
      have hnames : ls.map (·.listName) = vals.map (leafAt ["listName"]) := by
        rw [← List.forall₂_eq_eq_eq, List.forall₂_map_left_iff, List.forall₂_map_right_iff]
        exact hf.flip.imp fun l v h => h.1
      rw [hnames]
      exact (hp.map _).mem_iff

theorem child_error {path : List String} {s : Option String} {e : NSException} (h : child path s = .error e) :
    e = .invalidPath := by
  unfold child at h
  split at h
  · split at h
    · cases h
    · cases h
      rfl
  · cases h
    rfl

mutual

theorem nodeFrom_error : ∀ {n : FNode} {e : NSException}, nodeFrom n = .error e → e ≠ .invalidArgument
  | .leaf _, _, h => by cases h
  | .children kids, e, h => by
    rw [nodeFrom] at h
    cases hk : nodeFromKids kids with
    | ok kids' =>
      simp only [hk, bind, Except.bind] at h
      split at h <;> cases h
      exact nofun
    | error e' =>
      rw [hk] at h
      cases h
      exact nodeFromKids_error hk

theorem nodeFromKids_error : ∀ {kids : List (String × FNode)} {e : NSException},
    nodeFromKids kids = .error e → e ≠ .invalidArgument
  | [], _, h => by cases h
  | (key, val) :: dval, e, h => by
    rw [nodeFromKids] at h
    split at h
    · cases h
      exact nofun
    · cases hval : nodeFrom val with
      | error e' =>
        rw [hval] at h
        cases h
        exact nodeFrom_error hval
      | ok childNode =>
        cases hdval : nodeFromKids dval with
        | error e' =>
          rw [hval, hdval] at h
          cases h
          exact nodeFromKids_error hdval
        | ok children =>
          rw [hval, hdval] at h
          cases h

end

theorem listDic_error {l : ShopingListsClass} {e : NSException} (h : SaveListOnCloud.listDic l = .error e) :
    e = .invalidArgument := by
  unfold SaveListOnCloud.listDic at h
  cases hname : l.listName with
  | none =>
    rw [hname] at h
    cases h
    rfl
  | some n =>
    rw [hname] at h
    cases hitems : l.listItems.mapM SaveListOnCloud.itemEntry with
    | ok items =>
      rw [hitems] at h
      cases h
    | error e' =>
      rw [hitems] at h
      cases h
      obtain ⟨i, -, hi⟩ := Raising.error_of_mapM hitems
      cases hn : i.itemName with
      | none =>
        rw [SaveListOnCloud.itemEntry, hn] at hi
        cases hi
        rfl
      | some n =>
        rw [SaveListOnCloud.itemEntry, hn] at hi
        cases hi

/-- A save inserts nil exactly for a list without names. -/
theorem save_clean_iff {u : FIRUser} {curUser : UserClass} {l : ShopingListsClass} {db : FNode} :
    SaveListOnCloud.save (some u) curUser l db ≠ .error .invalidArgument ↔ HasNames l.encodeWithCoder := by
  have hnames : HasNames l.encodeWithCoder ↔
      (∃ n, l.listName = some n) ∧ ∀ i ∈ l.listItems, ∃ k, i.itemName = some k := by
    rw [HasNames, Option.isSome_iff_exists]
    refine and_congr Iff.rfl ?_
    constructor
    · intro h i hi
      exact Option.isSome_iff_exists.1 (h _ (List.mem_map_of_mem hi))
    · intro h i hi
      obtain ⟨j, hj, rfl⟩ := List.mem_map.1 hi
      exact Option.isSome_iff_exists.2 (h j hj)
  rw [hnames, SaveListOnCloud.save, if_neg (by simp)]
  cases hdic : SaveListOnCloud.listDic l with
  | error e =>
    rw [listDic_error hdic]
    refine iff_of_false (fun h => h rfl) fun h => ?_
    rw [listDic_ok_iff.2 ⟨h.1, h.2, rfl⟩] at hdic
    cases hdic
  | ok value =>
    obtain ⟨h1, h2, -⟩ := listDic_ok_iff.1 hdic
    refine iff_of_true (fun h => ?_) ⟨h1, h2⟩
    simp only [bind, Except.bind] at h
    cases hbase : child dataNode curUser.uidText with
    | error e =>
      rw [hbase, child_error hbase] at h
      cases h
    | ok base =>
      cases href : child base l.listName with
      | error e =>
        simp only [hbase, href, child_error href] at h
        cases h
      | ok ref =>
        cases hnode : nodeFrom value with
        | error e =>
          simp only [hbase, href, setValue, hnode, bind, Except.bind] at h
          cases h
          exact nodeFrom_error hnode rfl
        | ok node =>
          simp only [hbase, href, setValue, hnode, bind, Except.bind] at h
          cases h

theorem taken_congr {as bs : List (Option String)} (h : ∀ name, name ∈ as ↔ name ∈ bs)
    (offline : List ListData) (b : ListData) : Taken as offline b ↔ Taken bs offline b := by
  rw [Taken, Taken, h]

theorem AppTree.user {db : FNode} (h : AppTree db) (u : String) : Normal (getChild ["Data", u] db) ∧
    LeavesIn (fun r => ∃ k q, r = k :: q ∧ ListLeaf q) (getChild ["Data", u] db) := by
  refine ⟨h.normal.getChild _, (h.leaves.getChild ["Data", u]).mono fun r hr => ?_⟩
  obtain ⟨u', k, q, he, hq⟩ := hr
  simp only [List.cons_append, List.nil_append, List.cons.injEq, true_and] at he
  exact ⟨k, q, he.2, hq⟩

/-- The saves after a merge insert nil exactly if a list that the merge takes lacks a name. -/
theorem saves_clean_iff {u : FIRUser} (dates : DateAlloc) (m : AppData) :
    (∀ l ∈ elems (merge dates m).curLST, ∀ db,
        SaveListOnCloud.save (some u) m.curUser (l.withOwner m.curUser) db ≠ .error .invalidArgument) ↔
      (∀ a ∈ contents m.onlineLST, HasNames a) ∧ ∀ b ∈ contents m.offlineLST,
        Taken ((contents m.onlineLST).map (·.listName)) (contents m.offlineLST) b → HasNames b := by
  have hnames : ∀ l : ShopingListsClass,
      HasNames (l.withOwner m.curUser).encodeWithCoder ↔ HasNames l.encodeWithCoder := fun l => Iff.rfl
  rw [← hasNames_mergeLists dates, ← contents_merge]
  constructor
  · intro h d hd
    obtain ⟨l, hl, rfl⟩ := List.mem_map.1 hd
    exact (hnames l).1 (save_clean_iff.1 (h l hl emptyNode))
  · intro h l hl db
    exact save_clean_iff.2 ((hnames l).2 (h _ (List.mem_map_of_mem hl)))

/-- **A sync is clean** exactly if the keys of the tree make no array where the reader asks for a
dictionary and, for a signed-in user, every list and item that it merges has a name. -/
theorem clean_iff {calls : List Call} (hl : ∀ c ∈ calls, c.Legal) (u : String) :
    Clean env cu (getChild ["Data", u] (Run.run Call.step calls emptyNode)) m ↔
      Readable (getChild ["Data", u] (Run.run Call.step calls emptyNode)) ∧
        (cu.isSome = true → OnlineNamed (getChild ["Data", u] (Run.run Call.step calls emptyNode)) m ∧
          ∀ b ∈ contents m.offlineLST,
            Taken (onlineNames (getChild ["Data", u] (Run.run Call.step calls emptyNode)) m)
              (contents m.offlineLST) b → HasNames b) := by
  obtain ⟨hn, hleaves⟩ := (appTree_run hl appTree_emptyNode).user u
  generalize getChild ["Data", u] (Run.run Call.step calls emptyNode) = x at hn hleaves ⊢
  rcases callback_cases (m := m) env.order hn hleaves with ⟨hr, e, he⟩ | ⟨hr, m', hm', hoff, hnamed, hnames⟩
  · refine iff_of_false (fun h => ?_) fun h => hr h.1
    obtain ⟨m', hm'⟩ := h.reads
    rw [he] at hm'
    cases hm'
  have hiff : (∀ l ∈ elems (merge env.dates m').curLST, ∀ db, SaveListOnCloud.save cu m'.curUser
      (l.withOwner m'.curUser) db ≠ .error .invalidArgument) ↔ (cu.isSome = true → OnlineNamed x m ∧
        ∀ b ∈ contents m.offlineLST, Taken (onlineNames x m) (contents m.offlineLST) b → HasNames b) := by
    cases cu with
    | none => exact iff_of_true (fun l _ db h => by cases h) fun h => by cases h
    | some user =>
      rw [saves_clean_iff, hnamed, hoff]
      refine ⟨fun h _ => ⟨h.1, fun b hb ht => h.2 b hb ((taken_congr hnames _ _).2 ht)⟩, fun h => ?_⟩
      exact ⟨(h rfl).1, fun b hb ht => (h rfl).2 b hb ((taken_congr hnames _ _).1 ht)⟩
  constructor
  · intro h
    exact ⟨hr, hiff.1 (h.saves m' hm')⟩
  · rintro ⟨-, h⟩
    refine ⟨⟨m', hm'⟩, fun m'' hm'' => ?_⟩
    rw [hm'] at hm''
    cases hm''
    exact hiff.2 h

end

/-! ## Ann's list -/

def milkItem : ItemClass := ⟨3, some "Milk", some "01-02-2020 10:02", true⟩

/-- The memory of Ann's device with the lists of `data.plist`. -/
def annMemory (disk : List ShopingListsClass) : AppData :=
  { AppData.init with curUser := ann, offlineLST := some ⟨4, disk⟩, next := 5 }

theorem clean_iff_food : Clean annEnv (some annUser) (getChild ["Data", "u1"]
    (Run.run Call.step [.save (some annUser) ann foodList] emptyNode)) (annMemory [foodList]) :=
  (clean_iff (by decide) "u1").2 ⟨by decide, fun _ => ⟨by decide, by decide⟩⟩

/-- The item that `SaveItemToCloud` has saved comes back without a name. -/
theorem not_clean : ¬ ∀ (calls : List Call) (u : String) (env : Env) (cu : Option FIRUser) (m : AppData),
    (∀ c ∈ calls, c.Legal) → Clean env cu (getChild ["Data", u] (Run.run Call.step calls emptyNode)) m := by
  intro h
  have hclean := h [.save (some annUser) ann foodList, .saveItem (some annUser) milkItem foodList] "u1" annEnv
    (some annUser) (annMemory [foodList]) (by decide)
  exact hclean.saves _ rfl _ List.mem_cons_self emptyNode rfl

/-- Lists with the names of small numbers come back as an array. -/
example : ¬ Readable (getChild ["Data", "u1"] (Run.run Call.step
    [.save (some annUser) ann { foodList with listName := some "1" }] emptyNode)) := by decide

end ShopingList
