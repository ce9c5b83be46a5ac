import ShopingList.Classes.Places
import ShopingList.App.SyncLaws

/-!
# Two devices of one account

Two devices that sync in turns are two replicas with the cloud between them.
Where both have an item of one name the merge compares the addresses of two date
objects, so a copy can be displaced at every sync; `agree_alternate_iff` says when
the devices agree after two syncs each.
-/

namespace ShopingList

open FNode FValidation KeyedMerge ListViewController

section
variable {env : Env} {user : FIRUser} {base : List String} {cloud disk : List ListData} {s s' : Sys}

/-! ## Completed syncs -/

/-- The item names of what is saved are accepted by the database. -/
theorem itemNames_of_savesTo {dates : DateAlloc} {db : FNode} (hc : s.currentUser = some user)
    (h : SavesTo dates s db) : ∀ l ∈ mergedOf dates s.mem, ∀ i ∈ l.listItems,
      ∃ k, i.itemName = some k ∧ isValidKey k = true := by
  intro l hl i hi
  rw [← contents_saved] at hl
  obtain ⟨a, ha, rfl⟩ := List.mem_map.1 hl
  obtain ⟨x, y, hsave⟩ := Raising.ok_of_loop h a ha
  rw [hc] at hsave
  obtain ⟨hitems, -⟩ := save_ok_iff.1 hsave
  obtain ⟨j, hj, rfl⟩ := List.mem_map.1 hi
  exact hitems j hj

/-- The callback changes `onlineLST` only. -/
theorem callback_frame {order : DictOrder} {snapshot : FNode} {m m' : AppData}
    (h : ReadDataFromCloud.callback order snapshot m = .ok m') :
    m'.offlineLST = m.offlineLST ∧ m'.curUser = m.curUser := by
  rw [ReadDataFromCloud.callback] at h
  split at h
  · obtain ⟨ls, -, hm⟩ := Raising.bind_ok_iff.1 h
    cases hm
    exact ⟨rfl, rfl⟩
  · cases h
    exact ⟨rfl, rfl⟩

/-- The callback sets `onlineLST` to the lists that the node shows. -/
theorem callback_shows {m m' : AppData} {order : DictOrder} {node : FNode} (hs : ShowsLists order node cloud)
    (ho : cloud = [] → elems m.onlineLST = []) (h : ReadDataFromCloud.callback order node m = .ok m') :
    UpToOrder SameItems (contents m'.onlineLST) cloud := by
  rw [ReadDataFromCloud.callback] at h
  split at h
  · obtain ⟨ls, hread, hm⟩ := Raising.bind_ok_iff.1 h
    cases hm
    rw [contents_decodeLists]
    exact hs.read ls hread
  · rename_i hno
    cases h
    have hnil := hs.nil (by simpa using hno)
    rw [contents, ho hnil, hnil]
    exact ⟨[], .refl _, .nil⟩

/-- A completed sync has read the cloud and saved the merge; memory and disk hold it. -/
theorem sync_saved (hb : child dataNode (some user.uid) = .ok base) (h : SignedIn user disk s.toDevice)
    (r : sync false env user s = .ok s') :
    ∃ m, ReadDataFromCloud.callback env.order (getChild base s.db) (fromDisk s) = .ok m ∧
      SavesTo env.dates (beforeBlock m [] s) s'.db ∧
      SignedIn user (mergedOf env.dates m) s'.toDevice ∧ contents s'.mem.curLST = mergedOf env.dates m ∧
      mergedOf env.dates m = merged env.dates s.mem.curUser.encodeWithCoder (contents m.onlineLST) disk ∧
      (elems m.onlineLST = [] → elems s'.mem.onlineLST = []) := by
  cases hm : ReadDataFromCloud.callback env.order (getChild base s.db) (fromDisk s) with
  | error e =>
    obtain ⟨x, hx⟩ := sync_error env hb hm
    rw [hx] at r
    cases r
  | ok m =>
    obtain ⟨hoff, -, hcur, -⟩ := contents_fromDisk h.dataPlist
    obtain ⟨hoff', hcur'⟩ := callback_frame hm
    rw [sync_callbackFirst hb hm] at r
    obtain ⟨db, hdb⟩ := savesTo_of_ok r
    obtain ⟨rest, observers, running, m', hblock, huser, -, hcontents, honline⟩ := mergeBlock_savesTo hdb
    rw [r, settle_ok] at hblock
    subst hblock
    refine ⟨m, rfl, hdb, ⟨h.currentUser, ?_, rfl⟩, hcontents, ?_, honline⟩
    · rw [show m'.curUser = s.mem.curUser from huser.trans (hcur'.trans hcur), h.uid]
    · rw [mergedOf, hoff', hoff, hcur', hcur]

/-- What a completed sync leaves: one collection in memory, on disk and, if its lists have distinct
places, in the cloud. -/
structure Synced (env : Env) (user : FIRUser) (base : List String) (cloud disk m : List ListData) (s' : Sys) :
    Prop where
  signedIn : SignedIn user m s'.toDevice
  curLST : contents s'.mem.curLST = m
  collection : Collection m
  view : view m = Replica.merge (CompareList.pickAt env.dates) (view cloud) (view disk)
  onlineLST : m = [] → elems s'.mem.onlineLST = []
  itemNames : ∀ l ∈ m, ∀ i ∈ l.listItems, ∃ k, i.itemName = some k ∧ isValidKey k = true
  holds : Distinct ListData.place m → HoldsLists (getChild base s'.db) m
  normal : (getChild base s'.db).Normal

theorem isSome_view_iff {ls : List ListData} (h : Collection ls) (k : String) :
    (view ls k).isSome = true ↔ ∃ l ∈ ls, l.listName = some k := by
  rw [isSome_view]
  constructor
  · intro hs
    obtain ⟨l, hl⟩ := Option.isSome_iff_exists.1 hs
    exact ⟨l, lookup_some hl⟩
  · rintro ⟨l, hl, hn⟩
    rw [h.lists.lookup hl hn]
    rfl

/-- The names of a merge are those of the two collections. -/
theorem listNames_of_view {dates : DateAlloc} {m : List ListData} (hc : Collection cloud) (hd : Collection disk)
    (hm : Collection m) (hview : view m = Replica.merge (CompareList.pickAt dates) (view cloud) (view disk))
    (k : String) : (∃ l ∈ m, l.listName = some k) ↔ ∃ l ∈ cloud ++ disk, l.listName = some k := by
  rw [← isSome_view_iff hm, hview, Replica.isSome_merge, Bool.or_eq_true, isSome_view_iff hc, isSome_view_iff hd]
  simp only [List.mem_append, or_and_right, exists_or]

/-- **A completed sync** makes the device and the cloud hold the merge of the two. -/
theorem sync_merges (hb : child dataNode (some user.uid) = .ok base) (h : SignedIn user disk s.toDevice)
    (hd : Collection disk) (hc : Collection cloud) (hs : ShowsLists env.order (getChild base s.db) cloud)
    (hn : (getChild base s.db).Normal) (ho : cloud = [] → elems s.mem.onlineLST = [])
    (r : sync false env user s = .ok s') : ∃ m, Synced env user base cloud disk m s' := by
  obtain ⟨m, hm, hsaves, hin, hcur, hM, honline⟩ := sync_saved hb h r
  obtain ⟨-, hon, hcur', -⟩ := contents_fromDisk h.dataPlist
  have hread := callback_shows hs (fun e => by rw [hon]; exact ho e) hm
  have hb' : child dataNode m.curUser.uidText = .ok base := by rw [(callback_frame hm).2, hcur', h.uid, hb]
  have honlineColl : Collection (contents m.onlineLST) := hc.of_upToOrder hread
  have hcoll : Collection (mergedOf env.dates m) := by
    rw [hM]
    exact (CompareList.collection_mergeLists honlineColl hd).of_upToOrder (upToOrder_withOwner _ _)
  have hview : view (mergedOf env.dates m) =
      Replica.merge (CompareList.pickAt env.dates) (view cloud) (view disk) := by
    rw [hM, merged, view_of_upToOrder (upToOrder_withOwner _ _) (CompareList.collection_mergeLists honlineColl hd),
      view_mergeLists env.dates honlineColl.lists hd.items, view_of_upToOrder hread hc]
  have hnames := listNames_of_view hc hd hcoll hview
  have hitems := itemNames_of_savesTo (s := beforeBlock m [] s) h.currentUser hsaves
  rw [SavesTo, show (beforeBlock m [] s).currentUser = some user from h.currentUser] at hsaves
  refine ⟨mergedOf env.dates m, hin, hcur, hcoll, hview, fun he => honline ?_, hitems,
    fun hplaces => ⟨hplaces, fun c => ?_⟩, normal_of_loop hb' hsaves hn⟩
  · refine List.eq_nil_iff_forall_not_mem.2 fun x hx => ?_
    obtain ⟨b, hb, -⟩ := hread.mem_left (List.mem_map_of_mem hx)
    obtain ⟨k, hk⟩ := hc.lists.keyed b hb
    obtain ⟨l, hl, -⟩ := (hnames k).2 ⟨b, List.mem_append_left _ hb, hk⟩
    rw [he] at hl
    cases hl
  · have hchild := getImmediateChild_of_loop hb' hsaves (by rw [beforeBlock, contents_saved]; exact hplaces) c
    rw [beforeBlock, contents_saved] at hchild
    rw [hchild]
    cases hl : lookup ListData.place c (mergedOf env.dates m) with
    | some l => rfl
    | none =>
      -- every child of the snapshot is one of the lists that are saved
      refine eq_emptyNode ?_
      by_contra hne
      obtain ⟨a, ha, hac⟩ := hs.children c (Bool.eq_false_iff.2 hne)
      obtain ⟨k, hk⟩ := hc.lists.keyed a ha
      obtain ⟨x, hx, hxk⟩ := (hnames k).2 ⟨a, List.mem_append_left _ ha, hk⟩
      exact lookup_none.1 hl x hx ((ListData.place_congr (hxk.trans hk.symm)).trans hac)

/-- Where nothing is left nothing was read. -/
theorem Synced.nil {m : List ListData} (h : Synced env user base cloud disk m s') (hc : Collection cloud)
    (hd : Collection disk) (hm : m = []) : cloud = [] := by
  refine List.eq_nil_iff_forall_not_mem.2 fun l hl => ?_
  obtain ⟨k, hk⟩ := hc.lists.keyed l hl
  obtain ⟨x, hx, -⟩ := (listNames_of_view hc hd h.collection h.view k).2 ⟨l, List.mem_append_left _ hl, hk⟩
  rw [hm] at hx
  cases hx

/-- Every list of the merge has the name of a list of the cloud or of the disk. -/
theorem Synced.names {m all : List ListData} (h : Synced env user base cloud disk m s') (hc : Collection cloud)
    (hd : Collection disk) (hall : ∀ l ∈ cloud ++ disk, ∃ l' ∈ all, l.listName = l'.listName) :
    ∀ l ∈ m, ∃ l' ∈ all, l.listName = l'.listName := by
  intro l hl
  obtain ⟨k, hk⟩ := h.collection.lists.keyed l hl
  obtain ⟨a, ha, hak⟩ := (listNames_of_view hc hd h.collection h.view k).1 ⟨l, hl, hk⟩
  obtain ⟨l', hl', he⟩ := hall a ha
  exact ⟨l', hl', hk.trans (hak.symm.trans he)⟩

/-- No items that were merged and saved have only the name of the server's values. -/
theorem Synced.noServerValue {m : List ListData} (h : Synced env user base cloud disk m s') (hc : Collection cloud)
    (hd : Collection disk) : ∀ l ∈ cloud ++ disk, isServerValue l = false := by
  intro l hl
  rw [Bool.eq_false_iff]
  intro hsv
  rw [isServerValue, Bool.and_eq_true, List.all_eq_true] at hsv
  obtain ⟨hne, hall⟩ := hsv
  obtain ⟨i, hi⟩ : ∃ i, i ∈ l.listItems := List.exists_mem_of_ne_nil _ (by simpa using hne)
  have hname : i.itemName = some ".sv" := by simpa using hall i hi
  have hsome : ∀ ls, Collection ls → l ∈ ls → ∀ k, l.listName = some k →
      (Replica.value (ShopingList.view ls) k ".sv").isSome = true := by
    intro ls hls hm k hk
    rw [value_view, hls.lists.lookup hm hk, Option.bind_some, (hls.items l hm).lookup hi hname]
    rfl
  -- the merge has an item of this name too
  obtain ⟨k, hk⟩ : ∃ k, l.listName = some k :=
    (List.mem_append.1 hl).elim (hc.lists.keyed l) (hd.lists.keyed l)
  have hmerged : (Replica.value (ShopingList.view m) k ".sv").isSome = true := by
    rw [h.view, Replica.value_merge, Option.isSome_merge, Bool.or_eq_true]
    exact (List.mem_append.1 hl).imp (hsome cloud hc · k hk) (hsome disk hd · k hk)
  rw [value_view] at hmerged
  obtain ⟨j, hj⟩ := Option.isSome_iff_exists.1 hmerged
  obtain ⟨x, hx, hj⟩ := Option.bind_eq_some_iff.1 hj
  obtain ⟨k', hk', hkey⟩ := h.itemNames x (lookup_some hx).1 j (lookup_some hj).1
  rw [(lookup_some hj).2] at hk'
  cases hk'
  revert hkey
  decide

/-! ## Names that stay -/

/-- A merge has a list for each name on disk. -/
theorem exists_mem_merged (dates : DateAlloc) (u : UserData) (online : List ListData) {l : ListData} {n : String}
    (hl : l ∈ disk) (hn : l.listName = some n) :
    ∃ x ∈ merged dates u online disk, x.listName = some n := by
  suffices h : ∃ x ∈ CompareList.mergeLists dates online disk, x.listName = some n by
    obtain ⟨x, hx, hxn⟩ := h
    exact ⟨x.withOwner u, List.mem_map_of_mem hx, hxn⟩
  by_cases h : ∃ a ∈ online, sameKey ListData.listName l a = true
  · obtain ⟨a, ha, hla⟩ := h
    obtain ⟨k, hk, hak⟩ := sameKey_iff.1 hla
    rw [hn] at hk
    cases hk
    have hfind : (disk.find? fun b => sameKey ListData.listName b a).isSome = true :=
      List.find?_isSome.2 ⟨l, hl, hla⟩
    obtain ⟨b, hb⟩ := Option.isSome_iff_exists.1 hfind
    exact ⟨_, mem_unionBy_both ha hb, hak⟩
  · simp only [not_exists, not_and, Bool.not_eq_true] at h
    exact ⟨l, mem_unionBy_right hl h, hn⟩

/-- A completed sync keeps the names on disk. -/
theorem sync_keepsNames (hb : child dataNode (some user.uid) = .ok base) (h : SignedIn user disk s.toDevice)
    (r : sync false env user s = .ok s') :
    ∃ m, SignedIn user m s'.toDevice ∧ contents s'.mem.curLST = m ∧
      ∀ l ∈ disk, ∀ n, l.listName = some n → ∃ x ∈ m, x.listName = some n := by
  obtain ⟨m, -, -, hin, hcontents, hM, -⟩ := sync_saved hb h r
  refine ⟨_, hin, hcontents, fun l hl n hn => ?_⟩
  rw [hM]
  exact exists_mem_merged env.dates s.mem.curUser.encodeWithCoder _ hl hn

end

/-! ## Two devices -/

/-- The lists of two devices and the cloud agree on lists and items. -/
def Agree (base : List String) (m₁ m₂ : AppData) (db : FNode) : Prop :=
  UpToOrder SameItems (contents m₁.curLST) (contents m₂.curLST) ∧
    HoldsLists (getChild base db) (contents m₂.curLST)

/-- The stored copy of an item. -/
def copyOf (ls : List ListData) (listName itemName : String) : Option ItemData :=
  Replica.value (view ls) listName itemName

/-- The comparison of the merge for two copies of one item. -/
def Newer (env : Env) (listName itemName : String) (a b : ItemData) : Prop :=
  CompareList.isNewer env.dates (some listName) (some itemName) a.itemTime b.itemTime = true

theorem pickAt_iff {env : Env} {k i : String} {a b : ItemData} (ha : a.itemName = some i) (hne : a ≠ b) :
    CompareList.pickAt env.dates k i a b = a ↔ Newer env k i a b := by
  rw [CompareList.pickAt, CompareList.pickData, ha, Newer]
  split
  · rename_i h
    simp [h]
  · rename_i h
    simp [h, hne.symm]

theorem copyOf_itemName {ls : List ListData} {k i : String} {a : ItemData}
    (h : copyOf ls k i = some a) : a.itemName = some i := by
  rw [copyOf, value_view] at h
  obtain ⟨l, -, hl⟩ := Option.bind_eq_some_iff.1 h
  exact (lookup_some hl).2

/-- The copy that the first sync of the first device leaves. -/
def firstCopy (env : Env) (cloud disk : List ListData) (listName itemName : String) : Option ItemData :=
  Option.merge (CompareList.pickAt env.dates listName itemName) (copyOf cloud listName itemName)
    (copyOf disk listName itemName)

theorem firstCopy_itemName {env : Env} {cloud disk : List ListData} {k i : String} {a : ItemData}
    (h : firstCopy env cloud disk k i = some a) : a.itemName = some i := by
  rw [firstCopy] at h
  cases hc : copyOf cloud k i with
  | none =>
    rw [hc, Option.merge_none_left] at h
    exact copyOf_itemName h
  | some x =>
    cases hd : copyOf disk k i with
    | none =>
      rw [hc, hd] at h
      cases h
      exact copyOf_itemName hc
    | some y =>
      rw [hc, hd, Option.merge_some_some] at h
      cases h
      rcases CompareList.chooses_pickAt env.dates k i x y with e | e
      · rw [e]
        exact copyOf_itemName hc
      · rw [e]
        exact copyOf_itemName hd

/-- A signed-in device whose process has not read the cloud yet. -/
structure Fresh (user : FIRUser) (disk : List ListData) (d : Device) : Prop extends SignedIn user disk d where
  collection : Collection disk
  onlineLST : elems d.mem.onlineLST = []

/-- The syncs `d₁`, `d₂`, `d₁`, `d₂`, each of them completed. -/
structure Alternate (env₁ env₂ env₃ env₄ : Env) (user₁ user₂ : FIRUser) (d₁ d₂ : Device) (db : FNode)
    (s₁ s₂ s₃ s₄ : Sys) : Prop where
  first : sync false env₁ user₁ ⟨d₁, db⟩ = .ok s₁
  second : sync false env₂ user₂ ⟨d₂, s₁.db⟩ = .ok s₂
  third : sync false env₃ user₁ ⟨s₁.toDevice, s₂.db⟩ = .ok s₃
  fourth : sync false env₄ user₂ ⟨s₂.toDevice, s₃.db⟩ = .ok s₄

section
variable {env₁ env₂ env₃ env₄ : Env} {user₁ user₂ : FIRUser} {base : List String}
    {cloud disk₁ disk₂ : List ListData} {d₁ d₂ : Device} {db : FNode} {s₁ s₂ s₃ s₄ : Sys}

/-- All names of the cloud and the disks stay, so devices and cloud that agree have them side by side. -/
theorem sideBySide_of_agree (hb₁ : child dataNode (some user₁.uid) = .ok base)
    (hb₂ : child dataNode (some user₂.uid) = .ok base) (hc : CloudContent env₁.order (getChild base db) cloud)
    (h₁ : Fresh user₁ disk₁ d₁) (h₂ : Fresh user₂ disk₂ d₂)
    (r : Alternate env₁ env₂ env₃ env₄ user₁ user₂ d₁ d₂ db s₁ s₂ s₃ s₄)
    (h : Agree base s₃.mem s₄.mem s₄.db) : SideBySide (cloud ++ disk₁ ++ disk₂) := by
  obtain ⟨m₁, hs₁⟩ := sync_merges (s := ⟨d₁, db⟩) hb₁ h₁.toSignedIn h₁.collection hc.collection hc.shows hc.normal
    (fun _ => h₁.onlineLST) r.first
  obtain ⟨m₂, hin₂, -, hnames₂⟩ := sync_keepsNames (s := ⟨d₂, s₁.db⟩) hb₂ h₂.toSignedIn r.second
  obtain ⟨m₃, -, hcur₃, hnames₃⟩ := sync_keepsNames (s := ⟨s₁.toDevice, s₂.db⟩) hb₁ hs₁.signedIn r.third
  obtain ⟨m₄, -, hcur₄, hnames₄⟩ := sync_keepsNames (s := ⟨s₂.toDevice, s₃.db⟩) hb₂ hin₂ r.fourth
  refine sideBySide_of_distinct h.2.places fun l hl => ?_
  obtain ⟨k, hk⟩ : ∃ k, l.listName = some k := by
    rcases List.mem_append.1 hl with hl | hl
    · exact (List.mem_append.1 hl).elim (hc.collection.lists.keyed l) (h₁.collection.lists.keyed l)
    · exact h₂.collection.lists.keyed l hl
  rcases List.mem_append.1 hl with hl | hl
  · obtain ⟨x, hx, hxk⟩ := (listNames_of_view hc.collection h₁.collection hs₁.collection hs₁.view k).2 ⟨l, hl, hk⟩
    obtain ⟨y, hy, hyk⟩ := hnames₃ x hx k hxk
    rw [← hcur₃] at hy
    obtain ⟨z, hz, hyz⟩ := h.1.mem_left hy
    exact ⟨z, hz, hk.trans (hyk.symm.trans hyz.listName)⟩
  · obtain ⟨x, hx, hxk⟩ := hnames₂ l hl k hk
    obtain ⟨y, hy, hyk⟩ := hnames₄ x hx k hxk
    exact ⟨y, hcur₄ ▸ hy, hk.trans hyk.symm⟩

/-- Of two different copies of an item one is given up: the first device's at the first sync
of the second one, or the second device's at the third sync, or the first one's at the fourth. -/
def GivesWay (env₁ env₂ env₃ env₄ : Env) (cloud disk₁ disk₂ : List ListData) : Prop :=
  ∀ listName itemName a b, firstCopy env₁ cloud disk₁ listName itemName = some a →
    copyOf disk₂ listName itemName = some b → a ≠ b →
      Newer env₂ listName itemName a b ∨ Newer env₃ listName itemName b a ∨
        Newer env₄ listName itemName a b

theorem agree_of_sideBySide (hb₁ : child dataNode (some user₁.uid) = .ok base)
    (hb₂ : child dataNode (some user₂.uid) = .ok base) (hc : CloudContent env₁.order (getChild base db) cloud)
    (h₁ : Fresh user₁ disk₁ d₁) (h₂ : Fresh user₂ disk₂ d₂)
    (r : Alternate env₁ env₂ env₃ env₄ user₁ user₂ d₁ d₂ db s₁ s₂ s₃ s₄)
    (hside : SideBySide (cloud ++ disk₁ ++ disk₂)) :
    (∀ l ∈ cloud ++ disk₁ ++ disk₂, isServerValue l = false) ∧
      (Agree base s₃.mem s₄.mem s₄.db ↔ GivesWay env₁ env₂ env₃ env₄ cloud disk₁ disk₂) := by
  have hdisk₁ : ∀ l ∈ cloud ++ disk₁, ∃ l' ∈ cloud ++ disk₁ ++ disk₂, l.listName = l'.listName :=
    fun l hl => ⟨l, List.mem_append_left _ hl, rfl⟩
  have hdisk₂ : ∀ l ∈ disk₂, ∃ l' ∈ cloud ++ disk₁ ++ disk₂, l.listName = l'.listName :=
    fun l hl => ⟨l, List.mem_append_right _ hl, rfl⟩
  obtain ⟨m₁, hs₁⟩ := sync_merges (s := ⟨d₁, db⟩) hb₁ h₁.toSignedIn h₁.collection hc.collection hc.shows hc.normal
    (fun _ => h₁.onlineLST) r.first
  have hnames₁ := hs₁.names hc.collection h₁.collection hdisk₁
  have hp₁ := hs₁.holds (hside.distinct hs₁.collection.lists hnames₁)
  obtain ⟨m₂, hs₂⟩ := sync_merges (s := ⟨d₂, s₁.db⟩) hb₂ h₂.toSignedIn h₂.collection hs₁.collection
    (hp₁.shows hs₁.normal hs₁.collection) hs₁.normal (fun _ => h₂.onlineLST) r.second
  have hnames₂ := hs₂.names hs₁.collection h₂.collection (List.forall_mem_append.2 ⟨hnames₁, hdisk₂⟩)
  have hp₂ := hs₂.holds (hside.distinct hs₂.collection.lists hnames₂)
  obtain ⟨m₃, hs₃⟩ := sync_merges (s := ⟨s₁.toDevice, s₂.db⟩) hb₁ hs₁.signedIn hs₁.collection hs₂.collection
    (hp₂.shows hs₂.normal hs₂.collection) hs₂.normal
    (fun e => hs₁.onlineLST (hs₂.nil hs₁.collection h₂.collection e)) r.third
  have hnames₃ := hs₃.names hs₂.collection hs₁.collection (List.forall_mem_append.2 ⟨hnames₂, hnames₁⟩)
  have hp₃ := hs₃.holds (hside.distinct hs₃.collection.lists hnames₃)
  obtain ⟨m₄, hs₄⟩ := sync_merges (s := ⟨s₂.toDevice, s₃.db⟩) hb₂ hs₂.signedIn hs₂.collection hs₃.collection
    (hp₃.shows hs₃.normal hs₃.collection) hs₃.normal
    (fun e => hs₂.onlineLST (hs₃.nil hs₂.collection hs₁.collection e)) r.fourth
  have hnames₄ := hs₄.names hs₃.collection hs₂.collection (List.forall_mem_append.2 ⟨hnames₃, hnames₂⟩)
  have hp₄ := hs₄.holds (hside.distinct hs₄.collection.lists hnames₄)
  refine ⟨List.forall_mem_append.2 ⟨hs₁.noServerValue hc.collection h₁.collection, fun l hl =>
    hs₂.noServerValue hs₁.collection h₂.collection l (List.mem_append_right _ hl)⟩, ?_⟩
  have hagree : Agree base s₃.mem s₄.mem s₄.db ↔ view m₃ = view m₄ := by
    rw [Agree, hs₃.curLST, hs₄.curLST]
    exact ⟨fun h => view_of_upToOrder h.1 hs₄.collection,
      fun h => ⟨upToOrder_of_view hs₃.collection hs₄.collection h, hp₄⟩⟩
  rw [hagree, Replica.alternate_eq_iff (CompareList.chooses_pickAt _) (CompareList.chooses_pickAt _)
    (CompareList.chooses_pickAt _) hs₁.view hs₂.view hs₃.view hs₄.view]
  refine forall₂_congr fun k i => forall₂_congr fun a b => forall₂_congr fun ha hb => ?_
  have hai : a.itemName = some i := firstCopy_itemName ha
  have hbi : b.itemName = some i := copyOf_itemName hb
  by_cases hne : a = b
  · simp [hne]
  · rw [pickAt_iff hai hne, pickAt_iff hbi (Ne.symm hne), pickAt_iff hai hne]
    simp [hne]

/-- **When two devices agree** after two syncs each: the lists have places next to each other, none
has only the name of the server's values for items, and of two different copies of an item one gives way. -/
theorem agree_alternate_iff (hb₁ : child dataNode (some user₁.uid) = .ok base)
    (hb₂ : child dataNode (some user₂.uid) = .ok base) (hc : CloudContent env₁.order (getChild base db) cloud)
    (h₁ : Fresh user₁ disk₁ d₁) (h₂ : Fresh user₂ disk₂ d₂)
    (r : Alternate env₁ env₂ env₃ env₄ user₁ user₂ d₁ d₂ db s₁ s₂ s₃ s₄) :
    Agree base s₃.mem s₄.mem s₄.db ↔ SideBySide (cloud ++ disk₁ ++ disk₂) ∧
      (∀ l ∈ cloud ++ disk₁ ++ disk₂, isServerValue l = false) ∧
        GivesWay env₁ env₂ env₃ env₄ cloud disk₁ disk₂ := by
  constructor
  · intro h
    have hside := sideBySide_of_agree hb₁ hb₂ hc h₁ h₂ r h
    obtain ⟨hstored, hiff⟩ := agree_of_sideBySide hb₁ hb₂ hc h₁ h₂ r hside
    exact ⟨hside, hstored, hiff.1 h⟩
  · rintro ⟨hside, -, h⟩
    exact (agree_of_sideBySide hb₁ hb₂ hc h₁ h₂ r hside).2.2 h

end

/-! ## Two devices of Ann -/

def milkList (itemPuchased : Bool) : ListData :=
  ⟨some "Food", annData, [⟨some "Milk", some "01-02-2020 10:02", itemPuchased⟩]⟩

/-- A device that has milk, purchased or not. -/
def milkDevice (itemPuchased : Bool) : Device := (annSys emptyNode [milkList itemPuchased]).toDevice

def annSync (env : Env) (d : Device) (db : FNode) : Sys := settle (sync false env annAccount ⟨d, db⟩)

theorem annSync_eq {env : Env} {d : Device} {db : FNode}
    (h : (sync false env annAccount ⟨d, db⟩).isOk = true) :
    sync false env annAccount ⟨d, db⟩ = .ok (annSync env d db) := by
  unfold annSync
  cases hs : sync false env annAccount ⟨d, db⟩ with
  | ok s => rfl
  | error e => rw [hs] at h; cases h

/-- A list that the cloud has under `Tools`. -/
def toolsList : ListData := ⟨some "/Tools", annData, annItems ["Saw"]⟩

def toolsCloud : FNode := updateChild (listNode toolsList) ["Data", "u1", "Tools"] emptyNode

theorem cloudContent_tools : CloudContent .byKey (getChild ["Data", "u1"] toolsCloud) [toolsList] where
  normal := (normal_emptyNode.updateChild (normal_listNode _) _).getChild _
  read := .inr rfl
  collection := ⟨by decide, by decide⟩
  ownNames c n h := by
    have hnode : getChild ["Data", "u1"] toolsCloud = updateChild (listNode toolsList) ["Tools"] emptyNode := rfl
    by_cases hc : c = "Tools"
    · subst hc
      have hn : n = "/Tools" := (Option.some.inj h).symm
      rw [hn]
      decide
    · rw [hnode, leafAt, getChild, getImmediateChild_updateChild_ne hc, getImmediateChild_emptyNode,
        getChild_emptyNode] at h
      cases h

theorem cloudContent_emptyNode (order : DictOrder) : CloudContent order emptyNode [] where
  normal := normal_emptyNode
  read := .inl ⟨rfl, rfl⟩
  collection := ⟨by decide, by decide⟩
  ownNames c n h := by
    rw [leafAt_emptyNode] at h
    cases h

/-- The syncs of the two devices, where date objects are made as `env` says. -/
def milkSync₁ (env : Env) (db : FNode) : Sys := annSync env (milkDevice false) db

def milkSync₂ (env : Env) (db : FNode) : Sys := annSync env (milkDevice true) (milkSync₁ env db).db

def milkSync₃ (env : Env) (db : FNode) : Sys := annSync env (milkSync₁ env db).toDevice (milkSync₂ env db).db

def milkSync₄ (env : Env) (db : FNode) : Sys := annSync env (milkSync₂ env db).toDevice (milkSync₃ env db).db

theorem fresh_milkDevice (itemPuchased : Bool) : Fresh annAccount [milkList itemPuchased] (milkDevice itemPuchased) := by
  cases itemPuchased <;> exact ⟨⟨rfl, by decide, rfl⟩, ⟨by decide, by decide⟩, rfl⟩

/-- With the first date object at the higher address. -/
def descendingEnv : Env := { annEnv with dates := fun _ _ => (2, 1) }

theorem alternate_tools : Alternate descendingEnv descendingEnv descendingEnv descendingEnv annAccount annAccount
    (milkDevice false) (milkDevice true) toolsCloud (milkSync₁ descendingEnv toolsCloud)
    (milkSync₂ descendingEnv toolsCloud) (milkSync₃ descendingEnv toolsCloud)
    (milkSync₄ descendingEnv toolsCloud) where
  first := annSync_eq (by decide)
  second := annSync_eq (by decide)
  third := annSync_eq (by decide +kernel)
  fourth := annSync_eq (by decide +kernel)

theorem agree_alternate_milk : Agree ["Data", "u1"] (milkSync₃ descendingEnv toolsCloud).mem
      (milkSync₄ descendingEnv toolsCloud).mem (milkSync₄ descendingEnv toolsCloud).db ↔
    SideBySide [toolsList, milkList false, milkList true] ∧
      (∀ l ∈ [toolsList, milkList false, milkList true], isServerValue l = false) ∧
        GivesWay descendingEnv descendingEnv descendingEnv descendingEnv [toolsList] [milkList false]
          [milkList true] :=
  agree_alternate_iff (by decide) (by decide) cloudContent_tools (fresh_milkDevice false)
    (fresh_milkDevice true) alternate_tools

/-- With date objects at ascending addresses every merge takes the copy on disk. -/
theorem not_agree_alternate : ¬ ∀ (env₁ env₂ env₃ env₄ : Env) (user₁ user₂ : FIRUser)
    (base : List String) (cloud disk₁ disk₂ : List ListData) (d₁ d₂ : Device) (db : FNode)
    (s₁ s₂ s₃ s₄ : Sys), child dataNode (some user₁.uid) = .ok base →
    child dataNode (some user₂.uid) = .ok base → CloudContent env₁.order (getChild base db) cloud →
    Fresh user₁ disk₁ d₁ → Fresh user₂ disk₂ d₂ →
    Alternate env₁ env₂ env₃ env₄ user₁ user₂ d₁ d₂ db s₁ s₂ s₃ s₄ →
    Agree base s₃.mem s₄.mem s₄.db := by
  intro h
  have hagree := h annEnv annEnv annEnv annEnv annAccount annAccount ["Data", "u1"] [] [milkList false]
    [milkList true] (milkDevice false) (milkDevice true) emptyNode (milkSync₁ annEnv emptyNode)
    (milkSync₂ annEnv emptyNode) (milkSync₃ annEnv emptyNode) (milkSync₄ annEnv emptyNode) (by decide) (by decide)
    (cloudContent_emptyNode _) (fresh_milkDevice false) (fresh_milkDevice true)
    ⟨annSync_eq (by decide), annSync_eq (by decide), annSync_eq (by decide), annSync_eq (by decide)⟩
  have hmem : ∀ a ∈ contents (milkSync₃ annEnv emptyNode).mem.curLST,
      ∃ b ∈ contents (milkSync₄ annEnv emptyNode).mem.curLST, a.listItems.Perm b.listItems := fun a ha => by
    obtain ⟨b, hb, hab⟩ := hagree.1.mem_left ha
    exact ⟨b, hb, hab.listItems⟩
  revert hmem
  decide

end ShopingList
