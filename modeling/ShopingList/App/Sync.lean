import ShopingList.App.MergeBlock

/-!
# One sync

`sync` is the part of `readData` for a signed-in user: the request, then the
callback of the read and the block that merges and saves, in either order.
`sync_spec` says what a sync with the callback first leaves behind: one
collection in memory, on disk and in the cloud, whose view is the merge of the
views of cloud and disk.
-/

namespace ShopingList

open FNode FValidation KeyedMerge ListViewController

/-- The callback or the block at position `k` runs. -/
def fire (k : Nat) (env : Env) (s : Sys) : Turn := (event s (.fire k env)).getD (.ok s)

/-- A request of `readData`, its callback and its block. -/
def sync (blockFirst : Bool) (env : Env) (user : FIRUser) (s : Sys) : Turn := do
  let k := s.pending.length
  let s ← beginSync user s
  if blockFirst then
    fire k env (← fire (k + 1) env s)
  else
    fire k env (← fire k env s)

theorem fire_readCallback {k n : Nat} {env : Env} {ref : List String} {snapshot : FNode} {s : Sys}
    (h : s.pending[k]? = some (.readCallback n ref snapshot)) :
    fire k env s = (s.without k).onMem (ReadDataFromCloud.callback env.order snapshot) := by
  simp [fire, event, h, Pending.run]

theorem fire_mergeBlock {k n : Nat} {e : Env} {s : Sys} (h : s.pending[k]? = some (.mergeBlock n)) :
    fire k e s = mergeBlock e.dates (s.without k) := by
  simp [fire, event, h, Pending.run]

/-- The memory once `data.plist` is read. -/
abbrev fromDisk (s : Sys) : AppData := ReadDataFromDisk.readData s.files s.mem

/-- The request for the lists at `base`. -/
abbrev request (base : List String) (s : Sys) : Pending :=
  .readCallback s.syncs base (getChild base s.db)

/-- A state of the sync before its block has run. -/
def beforeBlock (m : AppData) (rest : List Pending) (s : Sys) : Sys :=
  { s with mem := m, pending := s.pending ++ rest, syncs := s.syncs + 1 }

section
variable {env : Env} {user : FIRUser} {base : List String} {s : Sys} {m : AppData}

theorem beginSync_ok (hb : child dataNode (some user.uid) = .ok base) :
    beginSync user s =
      .ok (beforeBlock (fromDisk s) [request base s, .mergeBlock s.syncs] s) := by
  simp [beginSync, hb, Sys.await, Sys.withMem, beforeBlock]

theorem fire_request : fire s.pending.length env (beforeBlock m [request base s, .mergeBlock s.syncs] s) =
    (beforeBlock m [.mergeBlock s.syncs] s).onMem
      (ReadDataFromCloud.callback env.order (getChild base s.db)) := by
  have hk : (beforeBlock m [request base s, .mergeBlock s.syncs] s).pending[s.pending.length]? =
      some (request base s) := by simp [beforeBlock]
  rw [fire_readCallback hk]
  congr 1
  simp [Sys.without, beforeBlock, List.eraseIdx_append_of_length_le]

/-- With the callback first the block finds what the callback has read. -/
theorem sync_callbackFirst (hb : child dataNode (some user.uid) = .ok base)
    (hm : ReadDataFromCloud.callback env.order (getChild base s.db) (fromDisk s) = .ok m) :
    sync false env user s = mergeBlock env.dates (beforeBlock m [] s) := by
  have hcallback : (beforeBlock (fromDisk s) [.mergeBlock s.syncs] s).onMem
      (ReadDataFromCloud.callback env.order (getChild base s.db)) =
      .ok (beforeBlock m [.mergeBlock s.syncs] s) := by
    simp only [Sys.onMem, beforeBlock, hm]
    rfl
  have hk : (beforeBlock m [.mergeBlock s.syncs] s).pending[s.pending.length]? =
      some (.mergeBlock s.syncs) := by simp [beforeBlock]
  rw [sync, beginSync_ok hb]
  simp only [bind, Except.bind, fire_request, hcallback]
  refine (fire_mergeBlock hk).trans (congrArg _ ?_)
  simp [Sys.without, beforeBlock, List.eraseIdx_append_of_length_le]

theorem sync_error (env : Env) (hb : child dataNode (some user.uid) = .ok base) {e : NSException}
    (he : ReadDataFromCloud.callback env.order (getChild base s.db) (fromDisk s) = .error e) :
    ∃ x, sync false env user s = .error x := by
  have hcallback : (beforeBlock (fromDisk s) [.mergeBlock s.syncs] s).onMem
      (ReadDataFromCloud.callback env.order (getChild base s.db)) =
      .error (e, beforeBlock (fromDisk s) [.mergeBlock s.syncs] s) := by
    simp only [Sys.onMem, beforeBlock, he]
  rw [sync, beginSync_ok hb]
  simp only [bind, Except.bind, fire_request, hcallback]
  exact ⟨_, rfl⟩

/-- With the block first the callback comes too late to change the cloud. -/
theorem db_sync_blockFirst (env : Env) (hb : child dataNode (some user.uid) = .ok base)
    (hp : ∃ rest, (settle (mergeBlock env.dates
      (beforeBlock (fromDisk s) [request base s] s))).pending = s.pending ++ request base s :: rest) :
    (settle (sync true env user s)).db = (settle (mergeBlock env.dates
      (beforeBlock (fromDisk s) [request base s] s))).db := by
  have hwithout : (beforeBlock (fromDisk s) [request base s, .mergeBlock s.syncs] s).without
      (s.pending.length + 1) = beforeBlock (fromDisk s) [request base s] s := by
    simp [Sys.without, beforeBlock, List.eraseIdx_append_of_length_le]
  have hk : (beforeBlock (fromDisk s) [request base s, .mergeBlock s.syncs] s).pending[
      s.pending.length + 1]? = some (.mergeBlock s.syncs) := by simp [beforeBlock]
  have hblock := hwithout ▸ fire_mergeBlock (e := env) hk
  rw [sync, beginSync_ok hb]
  simp only [bind, Except.bind, if_pos, hblock]
  cases hturn : mergeBlock env.dates (beforeBlock (fromDisk s) [request base s] s) with
  | error e => rfl
  | ok s' =>
    rw [hturn] at hp
    obtain ⟨rest, hrest⟩ := hp
    simp only [settle] at hrest ⊢
    have hk : s'.pending[s.pending.length]? = some (request base s) := by
      rw [hrest]
      simp
    rw [fire_readCallback hk, Sys.onMem]
    cases ReadDataFromCloud.callback env.order (getChild base s.db) (s'.without s.pending.length).mem <;>
      rfl

end

/-! ## What a sync leaves -/

/-- A device signed in as `user` that holds `disk` in `data.plist`. -/
structure SignedIn (user : FIRUser) (disk : List ListData) (d : Device) : Prop where
  currentUser : d.currentUser = some user
  uid : d.mem.curUser.uidText = some user.uid
  dataPlist : d.files.dataPlist = some disk

/-- Such a device and a cloud that holds `cloud` at `base`; a stale `onlineLST` would
be read only if the cloud has no lists. -/
structure Syncable (user : FIRUser) (base : List String) (cloud disk : List ListData) (s : Sys) : Prop
    extends SignedIn user disk s.toDevice where
  legalCloud : Legal cloud
  stored : getChild base s.db = cloudNode cloud
  onlineLST : cloud = [] → elems s.mem.onlineLST = []

section
variable {env : Env} {user : FIRUser} {base : List String} {cloud disk : List ListData} {s : Sys}

theorem contents_fromDisk (h : s.files.dataPlist = some disk) :
    contents (fromDisk s).offlineLST = disk ∧ (fromDisk s).onlineLST = s.mem.onlineLST ∧
      (fromDisk s).curUser = s.mem.curUser ∧
      (fromDisk s).invitationsCoords = s.mem.invitationsCoords := by
  simp [fromDisk, ReadDataFromDisk.readData, h, contents]

/-- What the callback makes of a saved collection. -/
theorem callback_cloudNode {m m' : AppData} (hl : Legal cloud) (h0 : cloud = [] → elems m.onlineLST = [])
    (h : ReadDataFromCloud.callback env.order (cloudNode cloud) m = .ok m') :
    UpToOrder ReadBack (contents m'.onlineLST) cloud ∧
      (cloud = [] → elems m'.onlineLST = []) ∧ m'.offlineLST = m.offlineLST ∧
      m'.curUser = m.curUser ∧ m'.invitationsCoords = m.invitationsCoords := by
  rw [ReadDataFromCloud.callback] at h
  split at h
  · rename_i hc
    obtain ⟨ls, hread, hm⟩ := Raising.bind_ok_iff.1 h
    cases hm
    refine ⟨?_, ?_, rfl, rfl, rfl⟩
    · rw [contents_decodeLists]
      exact readLists_cloudNode hl hread
    · rintro rfl
      cases hc
  · rename_i hc
    cases h
    have he : (cloudNode cloud).isEmpty = true := by
      simpa [cloudNode, nodeBy, hasChildren, isEmpty] using hc
    have hnil : cloud = [] := eq_nil_of_isEmpty hl.lists he
    refine ⟨?_, h0, rfl, rfl, rfl⟩
    rw [contents, h0 hnil, hnil]
    exact ⟨[], .refl _, .nil⟩

/-- The collection a sync leaves, from what was read online. -/
theorem merged_spec (dates : DateAlloc) (u : UserData) {online : List ListData} (hc : Legal cloud)
    (hd : Legal disk) (h : UpToOrder ReadBack online cloud) :
    Legal (merged dates u online disk) ∧
    view (merged dates u online disk) =
      Replica.merge (CompareList.pickAt dates) (view cloud) (view disk) ∧
    (∀ l ∈ merged dates u online disk, l.listOwner = u) ∧
    ∀ P, Named P cloud → Named P disk → Named P (merged dates u online disk) := by
  have hsame : UpToOrder SameItems online cloud := h.imp fun _ _ hab => hab.toSameItems
  have ho : Legal online := .of_upToOrder hsame hc
  have hm : Legal (CompareList.mergeLists dates online disk) := CompareList.legal_mergeLists ho hd
  have hw := upToOrder_withOwner u (CompareList.mergeLists dates online disk)
  refine ⟨hm.of_upToOrder hw, ?_, fun l hl => ?_, fun P hpc hpd => ?_⟩
  · rw [merged, view_of_upToOrder hw hm.collection, view_mergeLists dates ho.lists hd.items,
      view_of_upToOrder hsame hc.collection]
  · obtain ⟨x, -, rfl⟩ := List.mem_map.1 hl
    rfl
  · exact (CompareList.named_mergeLists (hpc.of_upToOrder hsame) hpd).of_upToOrder hw

theorem isSome_view (ls : List ListData) (k : String) :
    (view ls k).isSome = (lookup ListData.listName k ls).isSome := by
  rw [view, Option.isSome_map]

/-- What the block of a sync works on, once the callback has read the cloud. -/
theorem sync_eq_mergeBlock (hb : child dataNode (some user.uid) = .ok base)
    (h : Syncable user base cloud disk s) {m : AppData}
    (hm : ReadDataFromCloud.callback env.order (cloudNode cloud) (fromDisk s) = .ok m) :
    ∃ online, sync false env user s = mergeBlock env.dates (beforeBlock m [] s) ∧
      m.curUser = s.mem.curUser ∧ m.invitationsCoords = s.mem.invitationsCoords ∧
      (cloud = [] → elems m.onlineLST = []) ∧ UpToOrder ReadBack online cloud ∧
      mergedOf env.dates m = merged env.dates s.mem.curUser.encodeWithCoder online disk := by
  obtain ⟨hoff, hon, hcur, hinv⟩ := contents_fromDisk h.dataPlist
  obtain ⟨hread, hnil, hoff', hcur', hinv'⟩ := callback_cloudNode h.legalCloud
    (fun e => by rw [hon]; exact h.onlineLST e) hm
  refine ⟨contents m.onlineLST, sync_callbackFirst hb (by rw [h.stored]; exact hm),
    hcur'.trans hcur, hinv'.trans hinv, hnil, hread, ?_⟩
  rw [mergedOf, hoff', hoff, hcur', hcur]

/-- The collection that a sync leaves. -/
structure SyncedTo (dates : DateAlloc) (u : UserData) (cloud disk m : List ListData) : Prop where
  view : view m = Replica.merge (CompareList.pickAt dates) (view cloud) (view disk)
  owner : ∀ l ∈ m, l.listOwner = u
  named : ∀ P, Named P cloud → Named P disk → Named P m

/-- The callback of a sync reads the cloud, and no list of the merge has tied items. -/
def CanMerge (env : Env) (cloud : List ListData) (s : Sys) : Prop :=
  ∃ m, ReadDataFromCloud.callback env.order (cloudNode cloud) (fromDisk s) = .ok m ∧
    ∀ l ∈ mergedOf env.dates m, Untied l.listItems

/-- **One sync**, if its callback can read the cloud and its lists can be saved. -/
theorem sync_spec (hb : child dataNode (some user.uid) = .ok base)
    (h : Syncable user base cloud disk s) (hd : Legal disk)
    (hm : CanMerge env cloud s) :
    ∃ m, Syncable user base m m (settle (sync false env user s)) ∧
      contents (settle (sync false env user s)).mem.curLST = m ∧
      SyncedTo env.dates s.mem.curUser.encodeWithCoder cloud disk m ∧
      (settle (sync false env user s)).mem.curUser = s.mem.curUser ∧
      (settle (sync false env user s)).mem.invitationsCoords = s.mem.invitationsCoords := by
  obtain ⟨m, hm, huntied⟩ := hm
  obtain ⟨online, hsync, huser, hinv, hnil, hread, hM⟩ := sync_eq_mergeBlock hb h hm
  obtain ⟨hlegal, hview, howner, hnamed⟩ := merged_spec env.dates
    s.mem.curUser.encodeWithCoder h.legalCloud hd hread
  rw [← hM] at hlegal hview howner hnamed
  have hbase : child dataNode m.curUser.uidText = .ok base := by rw [huser, h.uid, hb]
  obtain ⟨rest, observers, running, db, m', hblock, hu, hi, hcont, honline, hdb⟩ :=
    mergeBlock_spec env.dates (beforeBlock m [] s) h.currentUser hbase hlegal huntied h.stored
  have hkeys : ∀ k, (lookup ListData.listName k cloud).isSome →
      (lookup ListData.listName k (mergedOf env.dates m)).isSome := by
    intro k hk
    rw [← isSome_view] at hk ⊢
    rw [hview, Replica.isSome_merge, hk, Bool.true_or]
  have hnil' : mergedOf env.dates m = [] → elems m'.onlineLST = [] := by
    intro he
    refine honline (hnil ?_)
    refine List.eq_nil_iff_forall_not_mem.2 fun l hl => ?_
    obtain ⟨k, hk⟩ := h.legalCloud.lists.keyed l hl
    have hs := hkeys k (by rw [h.legalCloud.lists.lookup hl hk]; rfl)
    rw [he] at hs
    cases hs
  rw [hsync, hblock]
  refine ⟨mergedOf env.dates m, ⟨⟨h.currentUser, ?_, rfl⟩, hlegal, ?_, hnil'⟩, hcont,
    ⟨hview, howner, hnamed⟩, hu.trans huser, hi.trans hinv⟩
  · rw [show m'.curUser = s.mem.curUser from hu.trans huser, h.uid]
  · exact hdb.trans (setAll_cloudNode h.legalCloud hlegal hkeys)

/-- A sync without invitations completes. -/
theorem sync_ok (hb : child dataNode (some user.uid) = .ok base)
    (h : Syncable user base cloud disk s) (hd : Legal disk) (hi : s.mem.invitationsCoords = [])
    (hm : CanMerge env cloud s) : ∃ s', sync false env user s = .ok s' := by
  obtain ⟨m, hm, huntied⟩ := hm
  obtain ⟨online, hsync, huser, hinv, -, hread, hM⟩ := sync_eq_mergeBlock hb h hm
  obtain ⟨hlegal, -⟩ := merged_spec env.dates s.mem.curUser.encodeWithCoder h.legalCloud hd hread
  rw [hsync]
  refine mergeBlock_ok (s := beforeBlock m [] s) h.currentUser hb ?_ ?_ huntied h.stored (hinv.trans hi)
  · rw [show (beforeBlock m [] s).mem.curUser = s.mem.curUser from huser, h.uid]
  · rw [show (beforeBlock m [] s).mem = m from rfl, hM]
    exact hlegal

/-- Names that are no indices can be read. -/
theorem callback_total (env : Env) (hl : Legal cloud) (hn : Named (integerKey · = none) cloud) (m : AppData) :
    ∃ m', ReadDataFromCloud.callback env.order (cloudNode cloud) m = .ok m' := by
  rw [ReadDataFromCloud.callback]
  split
  · rename_i hc
    have hne : cloud ≠ [] := by
      rintro rfl
      cases hc
    obtain ⟨ls, hls⟩ := readLists_total env.order hl hne hn
    rw [hls]
    exact ⟨_, rfl⟩
  · exact ⟨m, rfl⟩

/-- Names that the database does not take for integers can be merged. -/
theorem canMerge_of_named (env : Env) (h : Syncable user base cloud disk s) (hd : Legal disk)
    (hc : Named (integerLike · = false) cloud) (hdisk : Named (FUtilities.isZeroes · = false) disk) :
    CanMerge env cloud s := by
  obtain ⟨m, hm⟩ := callback_total env h.legalCloud (hc.imp fun _ => integerKey_of_integerLike) (fromDisk s)
  obtain ⟨hoff, hon, -, -⟩ := contents_fromDisk h.dataPlist
  obtain ⟨hread, -, hoff', -⟩ :=
    callback_cloudNode h.legalCloud (fun e => by rw [hon]; exact h.onlineLST e) hm
  obtain ⟨-, -, -, hnamed⟩ := merged_spec env.dates m.curUser.encodeWithCoder h.legalCloud hd hread
  refine ⟨m, hm, ?_⟩
  rw [mergedOf, hoff', hoff]
  exact (hnamed _ (hc.imp fun _ => isZeroes_of_integerLike) hdisk).untied

end

end ShopingList
