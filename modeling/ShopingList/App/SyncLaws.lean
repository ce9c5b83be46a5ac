import ShopingList.App.Sync

/-!
# What a sync keeps

A sync whose callback runs first loses nothing of the snapshot and is idempotent
(`sync_twice`). If the block runs first it writes the lists of `data.plist` over
those of the cloud, and `stored_sync_iff` says which items survive.
-/

namespace ShopingList

open FNode FValidation KeyedMerge ListViewController

/-- A name that is a single key of the database and not taken for an integer. -/
def PlainKey (n : String) : Prop := isValidKey n = true ∧ integerLike n = false

instance : DecidablePred PlainKey := fun _ => inferInstanceAs (Decidable (_ ∧ _))

/-- The database after Ann has saved a list with milk and bread. -/
def annCloud : FNode :=
  updateChild (listNode ⟨some "Food", annData, annItems ["Milk", "Bread"]⟩) ["Data", "u1", "Food"] emptyNode

theorem savedTree_annCloud : SavedTree PlainKey ["Data", "u1"] annCloud :=
  .save (.empty (show getChild ["Data", "u1"] emptyNode = emptyNode from rfl)) (by decide) (by decide)
    (show SaveListOnCloud.save (some annAccount) (.initWithCoder 3 annData)
      (.initWithCoder 4 ⟨some "Food", annData, annItems ["Milk", "Bread"]⟩) emptyNode = .ok annCloud from rfl)

section
variable {env env' : Env} {user : FIRUser} {base : List String} {cloud disk : List ListData} {s : Sys}

/-! ## Two syncs -/

theorem upToOrder_sameList {as bs : List ListData} {u : UserData} (h : UpToOrder SameItems as bs)
    (ha : ∀ l ∈ as, l.listOwner = u) (hb : ∀ l ∈ bs, l.listOwner = u) : UpToOrder SameList as bs := by
  obtain ⟨l, hp, hf⟩ := h
  refine ⟨l, hp, ?_⟩
  have hl : ∀ x ∈ l, x.listOwner = u := fun x hx => ha x (hp.mem_iff.2 hx)
  clear hp ha
  induction hf with
  | nil => exact .nil
  | @cons a b l bs hab _ ih =>
    refine .cons ⟨hab, ?_⟩ (ih (fun x hx => hb x (List.mem_cons_of_mem _ hx))
      fun x hx => hl x (List.mem_cons_of_mem _ hx))
    rw [hl a List.mem_cons_self, hb b List.mem_cons_self]

/-- A saved tree and a readable `data.plist` can be synced. -/
theorem syncable_of_savedTree (h : SignedIn user disk s.toDevice) (hs : SavedTree PlainKey base s.db)
    (ho : elems s.mem.onlineLST = []) :
    ∃ cloud, Syncable user base cloud disk s ∧ Named (integerLike · = false) cloud := by
  obtain ⟨cloud, hl, hn, hcloud⟩ := hs.exists_cloudNode fun n hn => hn.1
  exact ⟨cloud, ⟨h, hl, hcloud, fun _ => ho⟩,
    hn.imp fun _ h => h.2⟩

/-- **A second sync changes nothing** but the order of lists and items on the device. -/
theorem sync_twice (hb : child dataNode (some user.uid) = .ok base)
    (h : SignedIn user disk s.toDevice) (hs : SavedTree PlainKey base s.db) (hd : Legal disk)
    (hi : Named (integerLike · = false) disk) (ho : elems s.mem.onlineLST = [])
    (hinv : s.mem.invitationsCoords = []) :
    ∃ s₁ s₂ disk₁ disk₂, sync false env user s = .ok s₁ ∧ sync false env' user s₁ = .ok s₂ ∧
      s₁.files.dataPlist = some disk₁ ∧ s₂.files.dataPlist = some disk₂ ∧
      UpToOrder SameList (contents s₂.mem.curLST) (contents s₁.mem.curLST) ∧
      UpToOrder SameList disk₂ disk₁ ∧ getChild base s₂.db = getChild base s₁.db := by
  obtain ⟨cloud, h, hn⟩ := syncable_of_savedTree h hs ho
  have hm := canMerge_of_named env h hd hn (hi.imp fun _ => isZeroes_of_integerLike)
  obtain ⟨s₁, hs₁⟩ := sync_ok hb h hd hinv hm
  obtain ⟨m₁, h₁, hcur₁, hm₁, huser₁, hinv₁⟩ := sync_spec hb h hd hm
  rw [hs₁, settle_ok] at h₁ hcur₁ huser₁ hinv₁
  have hn₁ := hm₁.named _ hn hi
  have hread := canMerge_of_named env' h₁ h₁.legalCloud hn₁ (hn₁.imp fun _ => isZeroes_of_integerLike)
  obtain ⟨s₂, hs₂⟩ := sync_ok hb h₁ h₁.legalCloud (hinv₁.trans hinv) hread
  obtain ⟨m₂, h₂, hcur₂, hm₂, -, -⟩ := sync_spec hb h₁ h₁.legalCloud hread
  rw [hs₂, settle_ok] at h₂ hcur₂
  -- both inputs of the second merge are the result of the first
  have hview : view m₂ = view m₁ :=
    hm₂.view.trans (Replica.merge_self (CompareList.chooses_pickAt env'.dates) _)
  have hsame : UpToOrder SameList m₂ m₁ :=
    upToOrder_sameList (upToOrder_of_view h₂.legalCloud.collection h₁.legalCloud.collection hview)
      (by rw [← huser₁]; exact hm₂.owner) hm₁.owner
  refine ⟨s₁, s₂, m₁, m₂, hs₁, hs₂, h₁.dataPlist, h₂.dataPlist, ?_, hsame, ?_⟩
  · rw [hcur₂, hcur₁]
    exact hsame
  · rw [h₂.stored, h₁.stored, cloudNode_congr hsame h₁.legalCloud]

theorem sync_twice_ann : ∃ s₁ s₂ disk₁ disk₂,
    sync false annEnv annAccount (annSys annCloud [⟨some "Food", annData, annItems ["Milk", "Salt"]⟩]) =
      .ok s₁ ∧
    sync false annEnv annAccount s₁ = .ok s₂ ∧
    s₁.files.dataPlist = some disk₁ ∧ s₂.files.dataPlist = some disk₂ ∧
    UpToOrder SameList (contents s₂.mem.curLST) (contents s₁.mem.curLST) ∧
    UpToOrder SameList disk₂ disk₁ ∧
    getChild ["Data", "u1"] s₂.db = getChild ["Data", "u1"] s₁.db :=
  sync_twice (by decide) ⟨rfl, by decide, rfl⟩ savedTree_annCloud (by decide) (by decide) rfl rfl

/-! ## The snapshot after a sync -/

/-- Every list name and every item name stored before is stored after. -/
def StaysStored (before after : FNode) : Prop :=
  (∀ listName, storedList before listName → storedList after listName) ∧
    ∀ listName itemName, storedItem before listName itemName → storedItem after listName itemName

theorem value_view (ls : List ListData) (k i : String) : Replica.value (view ls) k i =
    (lookup ListData.listName k ls).bind fun l => lookup ItemData.itemName i l.listItems := by
  rw [Replica.value, view]
  cases lookup ListData.listName k ls <;> rfl

theorem staysStored_callbackFirst (hb : child dataNode (some user.uid) = .ok base)
    (h : Syncable user base cloud disk s) (hd : Legal disk) (hn : Named (integerLike · = false) cloud)
    (hz : Named (FUtilities.isZeroes · = false) disk) :
    StaysStored (getChild base s.db) (getChild base (settle (sync false env user s)).db) := by
  obtain ⟨m, hm, -, hmerge, -⟩ := sync_spec hb h hd (canMerge_of_named env h hd hn hz)
  rw [h.stored, hm.stored]
  constructor
  · intro k hk
    rw [storedList_cloudNode h.legalCloud, ← isSome_view] at hk
    rw [storedList_cloudNode hm.legalCloud, ← isSome_view, hmerge.view, Replica.isSome_merge, hk,
      Bool.true_or]
  · intro k i hk
    rw [storedItem_cloudNode h.legalCloud, ← value_view] at hk
    rw [storedItem_cloudNode hm.legalCloud, ← value_view, hmerge.view, Replica.value_merge]
    obtain ⟨a, ha⟩ := Option.isSome_iff_exists.1 hk
    rw [ha]
    cases Replica.value (view disk) k i <;> rfl

theorem merged_nil (dates : DateAlloc) (u : UserData) (offline : List ListData) :
    merged dates u [] offline = offline.map (·.withOwner u) := by
  simp [merged, CompareList.mergeLists, unionBy]

/-- With the block first the cloud gets the lists of `data.plist`. -/
theorem cloud_blockFirst (env : Env) (hb : child dataNode (some user.uid) = .ok base)
    (h : Syncable user base cloud disk s) (hd : Legal disk) (hz : Named (FUtilities.isZeroes · = false) disk)
    (ho : elems s.mem.onlineLST = []) :
    ∃ kids, getChild base (settle (sync true env user s)).db = .children kids ∧
      ∀ k, SortedDict.get k kids = (((lookup ListData.listName k disk).map
        (·.withOwner s.mem.curUser.encodeWithCoder)).or (lookup ListData.listName k cloud)).map listNode := by
  obtain ⟨hoff, hon, hcur, hinv⟩ := contents_fromDisk h.dataPlist
  have hM : mergedOf env.dates (fromDisk s) = disk.map (·.withOwner s.mem.curUser.encodeWithCoder) := by
    rw [mergedOf, hoff, hcur, show contents (fromDisk s).onlineLST = [] by rw [contents, hon, ho]; rfl,
      merged_nil]
  have hlegal : Legal (disk.map (·.withOwner s.mem.curUser.encodeWithCoder)) :=
    hd.of_upToOrder (upToOrder_withOwner _ _)
  have huntied : ∀ l ∈ disk.map (·.withOwner s.mem.curUser.encodeWithCoder), Untied l.listItems :=
    (hz.of_upToOrder (upToOrder_withOwner _ _)).untied
  have hbase : child dataNode (fromDisk s).curUser.uidText = .ok base := by rw [hcur, h.uid, hb]
  obtain ⟨rest, observers, running, db, m', hblock, -, -, -, -, hdb⟩ :=
    mergeBlock_spec env.dates (beforeBlock (fromDisk s) [request base s] s)
      h.currentUser hbase (by rw [← hM] at hlegal; exact hlegal) (by rw [← hM] at huntied; exact huntied)
      h.stored
  have hM' : mergedOf env.dates (beforeBlock (fromDisk s) [request base s] s).mem =
      disk.map (·.withOwner s.mem.curUser.encodeWithCoder) := hM
  have hcloud := db_sync_blockFirst env hb ⟨rest, by rw [hblock]; simp [beforeBlock]⟩
  rw [hblock] at hcloud
  rw [hcloud]
  refine ⟨_, hdb, fun k => ?_⟩
  rw [hM', get_setAll hlegal.lists, get_entriesBy h.legalCloud.lists,
    lookup_map fun a _ => ListData.withOwner_listName _ a]
  cases lookup ListData.listName k disk <;> cases lookup ListData.listName k cloud <;> rfl

/-- **What survives a sync**: everything, unless the block runs first and
`data.plist` has a list of the same name without the item. -/
theorem stored_sync_iff {blockFirst : Bool} (hb : child dataNode (some user.uid) = .ok base)
    (h : SignedIn user disk s.toDevice) (hs : SavedTree PlainKey base s.db) (hd : Legal disk)
    (hz : Named (FUtilities.isZeroes · = false) disk) (ho : elems s.mem.onlineLST = []) :
    StaysStored (getChild base s.db) (getChild base (settle (sync blockFirst env user s)).db) ↔
      blockFirst = false ∨ ∀ listName itemName, storedItem (getChild base s.db) listName itemName →
        ∀ d ∈ disk, d.listName = some listName → ∃ i ∈ d.listItems, i.itemName = some itemName := by
  obtain ⟨cloud, h, hn⟩ := syncable_of_savedTree h hs ho
  cases blockFirst with
  | false => exact iff_of_true (staysStored_callbackFirst hb h hd hn hz) (.inl rfl)
  | true =>
    obtain ⟨kids, hkids, hget⟩ := cloud_blockFirst env hb h hd hz ho
    have hitem : ∀ k i, storedItem (getChild base (settle (sync true env user s)).db) k i =
        (((lookup ListData.listName k disk).or (lookup ListData.listName k cloud)).bind fun l =>
          lookup ItemData.itemName i l.listItems).isSome := by
      intro k i
      rw [hkids, storedItem_children (hget k)]
      · cases lookup ListData.listName k disk <;> rfl
      · intro l hl
        cases hk : lookup ListData.listName k disk with
        | none =>
          rw [hk] at hl
          exact h.legalCloud.items l (lookup_some hl).1
        | some d =>
          rw [hk] at hl
          cases hl
          exact hd.items d (lookup_some hk).1
    have hlist : ∀ k, storedList (getChild base s.db) k →
        storedList (getChild base (settle (sync true env user s)).db) k := by
      intro k hk
      rw [h.stored, storedList_cloudNode h.legalCloud] at hk
      rw [hkids, storedList_children (hget k), Option.isSome_or, hk, Bool.or_true]
    constructor
    · rintro ⟨-, hstays⟩
      refine .inr fun k i hk d hdm hdk => ?_
      have hafter := hstays k i hk
      rw [hitem, hd.lists.lookup hdm hdk] at hafter
      obtain ⟨j, hj⟩ := Option.isSome_iff_exists.1 hafter
      exact ⟨j, lookup_some hj⟩
    · rintro (hfalse | hcond)
      · cases hfalse
      · refine ⟨hlist, fun k i hk => ?_⟩
        rw [hitem]
        cases hkd : lookup ListData.listName k disk with
        | none =>
          rw [h.stored, storedItem_cloudNode h.legalCloud] at hk
          exact hk
        | some d =>
          obtain ⟨hdm, hdk⟩ := lookup_some hkd
          obtain ⟨j, hj, hji⟩ := hcond k i hk d hdm hdk
          rw [Option.some_or, Option.bind_some, (hd.items d hdm).lookup hj hji]
          rfl

end

theorem stored_sync_ann :
    StaysStored (getChild ["Data", "u1"] annCloud) (getChild ["Data", "u1"]
      (settle (sync true annEnv annAccount (annSys annCloud [⟨some "Tools", annData, annItems ["Saw"]⟩]))).db) ↔
    true = false ∨ ∀ listName itemName, storedItem (getChild ["Data", "u1"] annCloud) listName itemName →
      ∀ d ∈ [(⟨some "Tools", annData, annItems ["Saw"]⟩ : ListData)], d.listName = some listName →
        ∃ i ∈ d.listItems, i.itemName = some itemName :=
  stored_sync_iff (s := annSys annCloud [⟨some "Tools", annData, annItems ["Saw"]⟩]) (by decide)
    ⟨rfl, by decide, rfl⟩ savedTree_annCloud (by decide) (by decide) rfl

/-- The bread in the cloud is lost when the block overtakes the callback and the
device has the list without it. -/
theorem not_stored_sync : ¬ ∀ (blockFirst : Bool) (env : Env) (user : FIRUser) (base : List String)
    (disk : List ListData) (s : Sys), child dataNode (some user.uid) = .ok base →
    SignedIn user disk s.toDevice → SavedTree PlainKey base s.db → Legal disk →
    Named (integerLike · = false) disk → elems s.mem.onlineLST = [] →
    StaysStored (getChild base s.db) (getChild base (settle (sync blockFirst env user s)).db) := by
  intro h
  have hs := (h true annEnv annAccount ["Data", "u1"] [⟨some "Food", annData, annItems ["Milk"]⟩]
    (annSys annCloud [⟨some "Food", annData, annItems ["Milk"]⟩]) (by decide)
    ⟨rfl, by decide, rfl⟩ savedTree_annCloud (by decide) (by decide) rfl).2 "Food" "Bread" (by decide)
  revert hs
  decide

end ShopingList
