import ShopingList.Classes.CloudTree
import ShopingList.App.Machine

/-!
# The block that merges and saves

The loop of `saveOne` as one change of the memory and one loop of saves
(`loop_saveOne_ok`), and what the whole block leaves in memory, on disk and in
the cloud, in terms of the contents that it finds (`mergeBlock_spec`).
-/

namespace ShopingList

open FNode FValidation KeyedMerge

def ShopingListsClass.withOwner (u : UserClass) (l : ShopingListsClass) : ShopingListsClass :=
  { l with listOwner := u }

theorem contents_map_withOwner (u : UserClass) (ls : List ShopingListsClass) :
    (ls.map (·.withOwner u)).map (·.encodeWithCoder) =
      (ls.map (·.encodeWithCoder)).map (·.withOwner u.encodeWithCoder) := by
  rw [List.map_map, List.map_map]
  rfl

theorem mapLists_mapLists (f g : ShopingListsClass → ShopingListsClass) (m : AppData) :
    (m.mapLists f).mapLists g = m.mapLists (g ∘ f) := by
  simp [AppData.mapLists, AppData.mapArrays, Option.map_map, Function.comp_def, List.map_map]

theorem mapLists_id (m : AppData) : m.mapLists id = m := by
  simp [AppData.mapLists, AppData.mapArrays]

namespace ListViewController

/-! ## The loop of saves -/

theorem saveOne_ok {a : ShopingListsClass} {s : Sys} {db : FNode}
    (h : SaveListOnCloud.save s.currentUser s.mem.curUser (a.withOwner s.mem.curUser) s.db = .ok db) :
    saveOne a s =
      .ok { s with mem := s.mem.assignList a (a.withOwner s.mem.curUser), db := db } := by
  have hsave : SaveListOnCloud.save s.currentUser s.mem.curUser { a with listOwner := s.mem.curUser } s.db =
      .ok db := h
  simp only [saveOne, hsave]
  rfl

theorem saveOne_error {a : ShopingListsClass} {s : Sys} {e : NSException}
    (h : SaveListOnCloud.save s.currentUser s.mem.curUser (a.withOwner s.mem.curUser) s.db = .error e) :
    saveOne a s = .error e := by
  have hsave : SaveListOnCloud.save s.currentUser s.mem.curUser { a with listOwner := s.mem.curUser } s.db =
      .error e := h
  simp only [saveOne, hsave]

/-- The loop gives the lists to the current user and saves them. -/
theorem loop_saveOne_ok {as : List ShopingListsClass} {s : Sys} {db : FNode}
    (h : Raising.loop (SaveListOnCloud.save s.currentUser s.mem.curUser)
      (as.map (·.withOwner s.mem.curUser)) s.db = .ok db) :
    Raising.loop saveOne as s = .ok { s with
      mem := s.mem.mapLists fun x => if x ∈ as then x.withOwner s.mem.curUser else x
      db := db } := by
  induction as generalizing s with
  | nil =>
    have hid : (fun x => if x ∈ ([] : List ShopingListsClass) then x.withOwner s.mem.curUser else x) =
        id := by
      funext x
      simp
    cases h
    rw [hid, mapLists_id]
    rfl
  | cons a as ih =>
    rw [List.map_cons, Raising.loop] at h
    cases hsave : SaveListOnCloud.save s.currentUser s.mem.curUser (a.withOwner s.mem.curUser) s.db with
    | error e => rw [hsave] at h; cases h
    | ok db' =>
      rw [hsave] at h
      rw [Raising.loop, saveOne_ok hsave]
      refine (ih h).trans ?_
      simp only [AppData.assignList, mapLists_mapLists, AppData.mapLists_curUser]
      congr 4
      funext x
      -- an object that has got its owner is not touched again
      simp only [Function.comp_apply, List.mem_cons]
      by_cases hx : x = a
      · subst hx
        simp [ShopingListsClass.withOwner]
      · simp [hx]

/-- Where a save raises, the earlier ones have been written. -/
theorem loop_saveOne_error {as : List ShopingListsClass} {s : Sys} {db : FNode} {e : NSException}
    (h : Raising.loop (SaveListOnCloud.save s.currentUser s.mem.curUser)
      (as.map (·.withOwner s.mem.curUser)) s.db = .error (e, db)) :
    ∃ m, Raising.loop saveOne as s = .error (e, { s with mem := m, db := db }) := by
  induction as generalizing s with
  | nil => cases h
  | cons a as ih =>
    rw [List.map_cons, Raising.loop] at h
    rw [Raising.loop]
    cases hsave : SaveListOnCloud.save s.currentUser s.mem.curUser (a.withOwner s.mem.curUser) s.db with
    | error e' =>
      rw [hsave] at h
      cases h
      rw [saveOne_error hsave]
      exact ⟨s.mem, rfl⟩
    | ok db' =>
      rw [hsave] at h
      rw [saveOne_ok hsave]
      obtain ⟨m, hm⟩ := ih (s := { s with mem := s.mem.assignList a (a.withOwner s.mem.curUser), db := db' }) h
      exact ⟨m, hm⟩

theorem db_loop_saveOne (as : List ShopingListsClass) (s : Sys) :
    (Raising.outcome (Raising.loop saveOne as s)).db =
      Raising.outcome (Raising.loop (SaveListOnCloud.save s.currentUser s.mem.curUser)
        (as.map (·.withOwner s.mem.curUser)) s.db) := by
  cases h : Raising.loop (SaveListOnCloud.save s.currentUser s.mem.curUser)
      (as.map (·.withOwner s.mem.curUser)) s.db with
  | ok db =>
    rw [loop_saveOne_ok h]
    rfl
  | error e =>
    obtain ⟨m, hm⟩ := loop_saveOne_error h
    rw [hm]
    rfl

/-! ## The merge block -/

/-- After the saves and the write to disk the block changes no list and no file. -/
theorem settle_fetch (s : Sys) : ∃ rest observers running next fetched,
    settle (do let s ← readCoordinates s
               let s ← fetchInvitationList s
               return s.await .appendBlock) =
      { s with
        pending := s.pending ++ rest, observers := observers, running := running
        mem := { s.mem with next := next, fetched := fetched } } := by
  unfold readCoordinates fetchInvitationList
  cases child userNode (s.currentUser.map (·.uid)) with
  | error e =>
    exact ⟨[], s.observers, false, s.mem.next, s.mem.fetched, by rw [List.append_nil]; rfl⟩
  | ok ref =>
    simp only [Sys.await, bind, Except.bind]
    cases s.mem.invitationsCoords.mapM fun coords => child dataNode coords.listOwner.uidText with
    | error e => exact ⟨_, s.observers, false, s.mem.next, s.mem.fetched, rfl⟩
    | ok refs =>
      refine ⟨[.coordsCallback ref (getChild ref s.db), .appendBlock],
        s.observers ++ s.mem.invitationsCoords.map (⟨·, s.mem.next⟩), s.running, s.mem.next + 1,
        s.mem.fetched ++ [⟨s.mem.next, []⟩], ?_⟩
      simp [settle, pure, Except.pure]

/-- Without invitations nothing raises after the saves. -/
theorem fetch_ok {user : FIRUser} {base : List String} {s : Sys} (hc : s.currentUser = some user)
    (hb : child dataNode (some user.uid) = .ok base) (hi : s.mem.invitationsCoords = []) :
    ∃ s', (do let s ← readCoordinates s
              let s ← fetchInvitationList s
              return s.await .appendBlock) = .ok s' := by
  have hu : ∃ ref, child userNode (some user.uid) = .ok ref := by
    simp only [child] at hb ⊢
    split at hb
    · rename_i h
      exact ⟨_, if_pos h⟩
    · cases hb
  obtain ⟨ref, href⟩ := hu
  unfold readCoordinates fetchInvitationList
  rw [hc, Option.map_some, href]
  simp only [Sys.await, bind, Except.bind, hi]
  exact ⟨_, rfl⟩

theorem contents_merge (dates : DateAlloc) (m : AppData) : contents (merge dates m).curLST =
    CompareList.mergeLists dates (contents m.onlineLST) (contents m.offlineLST) :=
  CompareList.compare_encode dates (m.next + 1) (elems m.onlineLST) (elems m.offlineLST)

/-- A merge with nothing online keeps `onlineLST` empty. -/
theorem merge_onlineLST_nil {dates : DateAlloc} {m : AppData} (h : elems m.onlineLST = []) :
    elems (merge dates m).onlineLST = [] := by
  have hl := CompareList.compare_left dates (m.next + 1) (elems m.onlineLST) (elems m.offlineLST)
  rw [h] at hl
  obtain ⟨hA, hB⟩ := hl
  have hB' : (CompareList.compare dates (m.next + 1) [] (elems m.offlineLST)).listB = [] := by
    rw [hB]
    simp [CompareList.isUnique]
  rw [List.filter_nil] at hA
  simp only [merge, h, hA, hB']
  rcases AppData.elems_updated m.offlineLST (m.updateArray m.onlineLST fun _ => []).onlineLST
    (fun _ => []) with e | e
  · exact e
  · refine Eq.trans e ?_
    rcases AppData.elems_updated m.onlineLST m.onlineLST (fun _ => []) with e | e
    · exact e
    · exact e.trans h

/-- The merge, the owner and the saves: what the block has done before it fetches invitations. -/
def saveMerged (dates : DateAlloc) (s : Sys) : Turn :=
  Raising.loop saveOne (elems (merge dates s.mem).curLST) (s.withMem (merge dates s.mem))

theorem mergeBlock_eq (dates : DateAlloc) (s : Sys) : mergeBlock dates s = (do
    let s ← saveMerged dates s
    let s ← readCoordinates s.writeData
    let s ← fetchInvitationList s
    return s.await .appendBlock) := rfl

/-- What the block does to the database: the saves, up to the first that raises. -/
theorem db_mergeBlock (dates : DateAlloc) (s : Sys) : (settle (mergeBlock dates s)).db =
    Raising.outcome (Raising.loop (SaveListOnCloud.save s.currentUser s.mem.curUser)
      ((elems (merge dates s.mem).curLST).map (·.withOwner s.mem.curUser)) s.db) := by
  refine Eq.trans ?_ (db_loop_saveOne (elems (merge dates s.mem).curLST) (s.withMem (merge dates s.mem)))
  rw [mergeBlock_eq]
  cases hsave : saveMerged dates s with
  | error e =>
    rw [saveMerged] at hsave
    rw [hsave]
    rfl
  | ok s₁ =>
    obtain ⟨rest, observers, running, next, fetched, hf⟩ := settle_fetch s₁.writeData
    rw [saveMerged] at hsave
    rw [hsave]
    have hdb := congrArg Sys.db hf
    exact hdb

/-- The lists a merge leaves for the user `u`. -/
def merged (dates : DateAlloc) (u : UserData) (online offline : List ListData) : List ListData :=
  (CompareList.mergeLists dates online offline).map (·.withOwner u)

/-- The contents that the block merges, saves and writes to disk. -/
def mergedOf (dates : DateAlloc) (m : AppData) : List ListData :=
  merged dates m.curUser.encodeWithCoder (contents m.onlineLST) (contents m.offlineLST)

theorem contents_saved (dates : DateAlloc) (m : AppData) :
    ((elems (merge dates m).curLST).map (·.withOwner m.curUser)).map (·.encodeWithCoder) =
      mergedOf dates m := by
  rw [contents_map_withOwner, mergedOf, merged, ← contents_merge]
  rfl

/-- The saves of the block turn the database into `db`. -/
def SavesTo (dates : DateAlloc) (s : Sys) (db : FNode) : Prop :=
  Raising.loop (SaveListOnCloud.save s.currentUser s.mem.curUser)
    ((elems (merge dates s.mem).curLST).map (·.withOwner s.mem.curUser)) s.db = .ok db

theorem saveMerged_ok {dates : DateAlloc} {s : Sys} {db : FNode} (hdb : SavesTo dates s db) :
    ∃ m, saveMerged dates s = .ok { s with mem := m, db := db } ∧
      m.curUser = s.mem.curUser ∧ m.invitationsCoords = s.mem.invitationsCoords ∧
      elems m.curLST = (elems (merge dates s.mem).curLST).map (·.withOwner s.mem.curUser) ∧
      (elems s.mem.onlineLST = [] → elems m.onlineLST = []) := by
  refine ⟨_, loop_saveOne_ok (s := s.withMem (merge dates s.mem)) hdb, rfl, rfl, ?_, ?_⟩
  · rw [AppData.mapLists_curLST]
    exact List.map_congr_left fun x hx => if_pos hx
  · intro h
    rw [AppData.mapLists_onlineLST, Sys.withMem, merge_onlineLST_nil h, List.map_nil]

/-- The saves of a legal merge succeed. -/
theorem exists_savesTo {dates : DateAlloc} {s : Sys} {user : FIRUser} {base : List String}
    {kids : List (String × FNode)} (hc : s.currentUser = some user)
    (hb : child dataNode s.mem.curUser.uidText = .ok base) (hl : Legal (mergedOf dates s.mem))
    (ht : ∀ l ∈ mergedOf dates s.mem, Untied l.listItems) (hdb : getChild base s.db = .children kids) :
    ∃ db, SavesTo dates s db ∧
      getChild base db = .children ((entriesBy ListData.listName listNode
        (mergedOf dates s.mem)).foldl (fun d p => SortedDict.set p.1 p.2 d) kids) := by
  rw [← contents_saved] at hl ht
  obtain ⟨db, hloop, hdb'⟩ := getChild_saveAll (u := user) hb
    (fun l hm => hl.lists.keyed _ (List.mem_map_of_mem hm))
    (fun l hm i hi => (hl.items _ (List.mem_map_of_mem hm)).keyed _ (List.mem_map_of_mem hi))
    hl.toNamed (fun l hm => ht _ (List.mem_map_of_mem hm)) hdb
  rw [← hc] at hloop
  rw [contents_saved] at hdb'
  exact ⟨db, hloop, hdb'⟩

/-- **What the block leaves** once its saves have succeeded: one collection, in memory and on disk. -/
theorem mergeBlock_savesTo {dates : DateAlloc} {s : Sys} {db : FNode} (hdb : SavesTo dates s db) :
    ∃ rest observers running m, settle (mergeBlock dates s) =
        { s with
          pending := s.pending ++ rest, observers := observers, running := running, db := db, mem := m
          files := { s.files with dataPlist := some (mergedOf dates s.mem) } } ∧
      m.curUser = s.mem.curUser ∧ m.invitationsCoords = s.mem.invitationsCoords ∧
      contents m.curLST = mergedOf dates s.mem ∧
      (elems s.mem.onlineLST = [] → elems m.onlineLST = []) := by
  obtain ⟨m, hsave, huser, hinv, hcur, honline⟩ := saveMerged_ok hdb
  obtain ⟨rest, observers, running, next, fetched, hf⟩ :=
    settle_fetch (Sys.writeData { s with mem := m, db := db })
  have hcontents : contents m.curLST = mergedOf dates s.mem := by
    rw [contents, hcur, contents_saved]
  have hown : ∀ l ∈ elems m.curLST, samePointer m.curUser.uid l.listOwner.uid = true := by
    intro l hm
    rw [hcur] at hm
    obtain ⟨x, -, rfl⟩ := List.mem_map.1 hm
    simp [samePointer, ShopingListsClass.withOwner, huser]
  have hfiles : (Sys.writeData { s with mem := m, db := db }).files =
      { s.files with dataPlist := some (mergedOf dates s.mem) } := by
    have hp := writeData_dataPlist_of_samePointer (s := { s with mem := m, db := db }) hown
    rw [hcontents] at hp
    rw [← hp]
    rfl
  refine ⟨rest, observers, running, { (Sys.writeData { s with mem := m, db := db }).mem with
    next := next, fetched := fetched }, ?_, huser, hinv, hcontents, honline⟩
  rw [mergeBlock_eq, hsave]
  refine hf.trans ?_
  rw [hfiles]
  rfl

/-- What the block leaves of a legal merge: the same collection in the cloud. -/
theorem mergeBlock_spec (dates : DateAlloc) (s : Sys) {user : FIRUser} {base : List String}
    {kids : List (String × FNode)} (hc : s.currentUser = some user)
    (hb : child dataNode s.mem.curUser.uidText = .ok base) (hl : Legal (mergedOf dates s.mem))
    (ht : ∀ l ∈ mergedOf dates s.mem, Untied l.listItems) (hdb : getChild base s.db = .children kids) :
    ∃ rest observers running db m, settle (mergeBlock dates s) =
        { s with
          pending := s.pending ++ rest, observers := observers, running := running, db := db, mem := m
          files := { s.files with dataPlist := some (mergedOf dates s.mem) } } ∧
      m.curUser = s.mem.curUser ∧ m.invitationsCoords = s.mem.invitationsCoords ∧
      contents m.curLST = mergedOf dates s.mem ∧
      (elems s.mem.onlineLST = [] → elems m.onlineLST = []) ∧
      getChild base db = .children ((entriesBy ListData.listName listNode
        (mergedOf dates s.mem)).foldl (fun d p => SortedDict.set p.1 p.2 d) kids) := by
  obtain ⟨db, hsaves, hnode⟩ := exists_savesTo hc hb hl ht hdb
  obtain ⟨rest, observers, running, m, hblock, huser, hinv, hcontents, honline⟩ := mergeBlock_savesTo hsaves
  exact ⟨rest, observers, running, db, m, hblock, huser, hinv, hcontents, honline, hnode⟩

/-- The saves of a block that has returned have succeeded. -/
theorem savesTo_of_ok {dates : DateAlloc} {s s' : Sys} (h : mergeBlock dates s = .ok s') :
    ∃ db, SavesTo dates s db := by
  cases hloop : Raising.loop (SaveListOnCloud.save s.currentUser s.mem.curUser)
      ((elems (merge dates s.mem).curLST).map (·.withOwner s.mem.curUser)) s.db with
  | ok db => exact ⟨db, hloop⟩
  | error e =>
    obtain ⟨m, hm⟩ := loop_saveOne_error (s := s.withMem (merge dates s.mem)) hloop
    rw [mergeBlock_eq, saveMerged, hm] at h
    cases h

theorem mergeBlock_ok {dates : DateAlloc} {s : Sys} {user : FIRUser} {base : List String}
    {kids : List (String × FNode)} (hc : s.currentUser = some user)
    (hb : child dataNode (some user.uid) = .ok base) (hu : s.mem.curUser.uidText = some user.uid)
    (hl : Legal (mergedOf dates s.mem))
    (ht : ∀ l ∈ mergedOf dates s.mem, Untied l.listItems) (hdb : getChild base s.db = .children kids)
    (hi : s.mem.invitationsCoords = []) : ∃ s', mergeBlock dates s = .ok s' := by
  obtain ⟨db, hsaves, -⟩ := exists_savesTo hc (hu ▸ hb) hl ht hdb
  obtain ⟨m, hsave, -, hinv, -⟩ := saveMerged_ok hsaves
  rw [mergeBlock_eq, hsave]
  exact fetch_ok (s := Sys.writeData { s with mem := m, db := db }) hc hb (hinv.trans hi)

end ListViewController

end ShopingList
