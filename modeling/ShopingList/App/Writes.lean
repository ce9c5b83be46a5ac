import ShopingList.App.MergeBlock

/-!
# What a client writes

`db_step` says what a step of a client that neither adds lists nor deletes anything
does to the database: nothing, the write of one item (`written`), or the saves of
its merge block (`savedLists`).
-/

namespace ShopingList

open FNode FValidation KeyedMerge ListViewController

/-! ## Events that save an item -/

/-- The list on the item screen. -/
def shownList (s : Sys) : Option ShopingListsClass :=
  s.screen.bind fun screen => (objectAt s.mem.curLST screen.curLSTInt).toOption.join

/-- The item that an event of the user saves with `SaveItemToCloud`, and its list. -/
def savedItem (a : Action) (s : Sys) : Option (ItemClass × ShopingListsClass) :=
  match a with
  | .addItem text now =>
    if text ≠ "" then
      (shownList s).map fun list =>
        (⟨s.mem.next, some text, some (DateAndTime.dateAndTimeNow now), false⟩, list)
    else none
  | .toggleItem row now =>
    (shownList s).bind fun list => list.listItems[row]?.map fun item =>
      (⟨item.addr, item.itemName, some (DateAndTime.dateAndTimeNow now), !item.itemPuchased⟩, list)
  | _ => none

/-- Where an item of a list is stored. -/
def itemPlace (item : ItemClass) (list : ShopingListsClass) : Except NSException (List String) := do
  itemRef (← listRef list.listOwner.uidText list.listName) item.itemName

/-- The place and the values that an event writes to the database. -/
def written (a : Action) (s : Sys) : Option (List String × ItemData) :=
  if s.running ∧ s.currentUser.isSome then
    (savedItem a s).bind fun p =>
      (itemPlace p.1 p.2).toOption.map fun path => (path, p.1.encodeWithCoder)
  else none

/-! ## Merge blocks -/

/-- The place of a list below the node of `uid`. -/
def listPlace (uid : Option String) (l : ListData) : Option (List String) :=
  (listRef uid l.listName).toOption

def saveable (uid : Option String) (l : ListData) : Bool :=
  (listPlace uid l).isSome && (l.listItems.all fun i => i.itemName.any isValidKey) && decide (Untied l.listItems)

/-- The lists that the block saves: those before the first one whose save raises. -/
def savedLists (dates : DateAlloc) (m : AppData) : List ListData :=
  (mergedOf dates m).takeWhile (saveable m.curUser.uidText)

/-- The save of one list. -/
def putList (uid : Option String) (db : FNode) (l : ListData) : FNode :=
  updateChild (listNode l) ((listPlace uid l).getD []) db

/-- The block that an action runs, for a signed-in user. -/
def mergeOf (a : Action) (s : Sys) : Option Env :=
  match a with
  | .fire k env =>
    match s.pending[k]? with
    | some (.mergeBlock _) => if s.running ∧ s.currentUser.isSome then some env else none
    | _ => none
  | _ => none

/-- A block runs after the callback of its own read, and none saves the lists of a new account. -/
def Pending.inTurn (d : Device) : Pending → Bool
  | .mergeBlock sync => d.pending.all fun p =>
    match p with
    | .readCallback n _ _ => n ≠ sync
    | _ => true
  | .registerBlock _ _ _ => false
  | _ => true

/-- No list is added, nothing is deleted, and callbacks come before their blocks. -/
def Action.inProtocol (d : Device) : Action → Bool
  | .newList _ | .deleteList _ | .deleteItem _ => false
  | .fire k _ => d.pending[k]?.all (Pending.inTurn d)
  | _ => true

/-! ## What a step does to the database -/

theorem db_onMem (f : AppData → Except NSException AppData) (s : Sys) : (settle (s.onMem f)).db = s.db := by
  unfold Sys.onMem
  cases f s.mem <;> rfl

theorem db_readFiles (now : Moment) (s : Sys) : (readFiles now s).db = s.db := by
  simp only [readFiles]
  split <;> rfl

theorem db_readData (now : Moment) (s : Sys) : (settle (readData now s)).db = s.db := by
  rw [← db_readFiles now s]
  unfold readData
  simp only
  split
  · rfl
  · unfold beginSync
    simp only
    split <;> rfl

theorem db_map_settle {f : Sys → Sys} (hf : ∀ s, (f s).db = s.db) (t : Turn) :
    (settle (f <$> t)).db = (settle t).db := by
  cases t with
  | ok s => exact hf s
  | error e => rfl

theorem db_launch (now : Moment) (s : Sys) : (settle (launch now s)).db = s.db :=
  (db_map_settle (f := Sys.reload) (fun _ => rfl) _).trans (db_readData now _)

theorem db_openItems (row : Nat) (s : Sys) : (settle (openItems row s)).db = s.db := by
  unfold openItems
  cases objectAt s.mem.curLST row <;> rfl

/-- The node that `SaveItemToCloud` writes for an item. -/
def savedNode (v : ItemData) : FNode :=
  dictionary [(v.itemName, "Item name"),
    (some (SaveListOnCloud.purchasedString v.itemPuchased), "purchased"), (v.itemTime, "time")]

/-- What a save of an item does, whether or not it raises. -/
theorem db_saveItem (user : Option FIRUser) (s : Sys) (item : ItemClass) (list : ShopingListsClass) :
    (settle (s.onCloud (SaveItemToCloud.saveItemToCloudWithItem user item list))).db =
      (if user.isSome then (itemPlace item list).toOption else none).elim s.db
        fun path => updateChild (savedNode item.encodeWithCoder) path s.db := by
  unfold Sys.onCloud
  cases user with
  | none => rfl
  | some u =>
    rw [Option.isSome_some, if_pos rfl]
    cases hp : itemPlace item list with
    | error e =>
      cases hs : SaveItemToCloud.saveItemToCloudWithItem (some u) item list s.db with
      | error e => rfl
      | ok db =>
        obtain ⟨ref, path, hr, hi, -⟩ := saveItem_ok_iff.1 hs
        rw [itemPlace, hr] at hp
        exact absurd (hi.symm.trans hp) (by simp)
    | ok path =>
      obtain ⟨ref, hr, hi⟩ := Raising.bind_ok_iff.1 hp
      rw [saveItem_ok_iff.2 ⟨ref, path, hr, hi, rfl⟩]
      rfl

theorem itemPlace_null (item : ItemClass) : (itemPlace item .null).toOption = none := rfl

theorem written_eq {a : Action} {s : Sys} (hr : s.running = true) {item : ItemClass}
    {list : ShopingListsClass} (h : savedItem a s = some (item, list)) :
    written a s = (if s.currentUser.isSome then (itemPlace item list).toOption else none).map
      fun path => (path, item.encodeWithCoder) := by
  rw [written, h]
  by_cases hu : s.currentUser.isSome = true
  · rw [if_pos ⟨hr, hu⟩, if_pos hu]
    rfl
  · rw [if_neg fun hc => hu hc.2, if_neg hu]
    rfl

theorem written_none {a : Action} {s : Sys} (h : savedItem a s = none) : written a s = none := by
  rw [written, h]
  split <;> rfl

/-- The database after a turn that saves an item. -/
def afterWrite (w : Option (List String × ItemData)) (db : FNode) : FNode :=
  w.elim db fun p => updateChild (savedNode p.2) p.1 db

theorem shownList_eq {s : Sys} {screen : ItemScreen} (h : s.screen = some screen) :
    shownList s = (objectAt s.mem.curLST screen.curLSTInt).toOption.join := by
  rw [shownList, h]
  rfl

theorem objectAt_of_join {array : Option NSMutableArray} {index : Nat} {l : ShopingListsClass}
    (h : (objectAt array index).toOption.join = some l) : objectAt array index = .ok (some l) := by
  cases ho : objectAt array index with
  | error e =>
    rw [ho] at h
    cases h
  | ok o =>
    rw [ho] at h
    rw [show o = some l from h]

/-- The shown list is an element of `curLST`. -/
theorem shownList_some {s : Sys} {l : ShopingListsClass} (h : shownList s = some l) :
    ∃ screen, s.screen = some screen ∧ objectAt s.mem.curLST screen.curLSTInt = .ok (some l) := by
  obtain ⟨screen, hs, ho⟩ := Option.bind_eq_some_iff.1 h
  exact ⟨screen, hs, objectAt_of_join ho⟩

theorem db_addItem {text : String} {now : Moment} {screen : ItemScreen} {s : Sys} (hr : s.running = true)
    (hs : s.screen = some screen) (ht : text ≠ "") :
    (settle (itemViewController.addItem screen.curLSTInt text now s)).db =
      afterWrite (written (.addItem text now) s) s.db := by
  have hshown := shownList_eq hs
  rw [itemViewController.addItem]
  cases ho : objectAt s.mem.curLST screen.curLSTInt with
  | error e =>
    rw [ho] at hshown
    rw [written_none (by rw [savedItem, if_pos ht, hshown]; rfl)]
    rfl
  | ok o =>
    rw [ho] at hshown
    cases o with
    | none =>
      rw [written_none (by rw [savedItem, if_pos ht, hshown]; rfl)]
      refine (db_saveItem _ s.writeData _ .null).trans ?_
      rw [itemPlace_null, ite_self]
      rfl
    | some list =>
      have hi : savedItem (.addItem text now) s =
          some (⟨s.mem.next, some text, some (DateAndTime.dateAndTimeNow now), false⟩, list) := by
        rw [savedItem, if_pos ht, hshown]
        rfl
      rw [written_eq hr hi, afterWrite, Option.elim_map]
      simp only
      exact (db_saveItem _ _ _ _).trans rfl

theorem db_toggleItem {row : Nat} {now : Moment} {screen : ItemScreen} {s : Sys} (hr : s.running = true)
    (hs : s.screen = some screen) :
    (settle (itemViewController.toggleItem screen.curLSTInt row now s)).db =
      afterWrite (written (.toggleItem row now) s) s.db := by
  have hshown := shownList_eq hs
  rw [itemViewController.toggleItem]
  cases ho : objectAt s.mem.curLST screen.curLSTInt with
  | error e =>
    rw [ho] at hshown
    rw [written_none (by rw [savedItem, hshown]; rfl)]
    rfl
  | ok o =>
    rw [ho] at hshown
    cases o with
    | none =>
      rw [written_none (by rw [savedItem, hshown]; rfl)]
      refine (db_saveItem _ s.writeData _ .null).trans ?_
      rw [itemPlace_null, ite_self]
      rfl
    | some list =>
      cases hrow : list.listItems[row]? with
      | none =>
        have hi : savedItem (.toggleItem row now) s = none := by
          rw [savedItem, hshown]
          simp [Except.toOption, hrow]
        rw [written_none hi]
        simp only [hrow]
        rfl
      | some item =>
        have hi : savedItem (.toggleItem row now) s = some (⟨item.addr, item.itemName,
            some (DateAndTime.dateAndTimeNow now), !item.itemPuchased⟩, list) := by
          rw [savedItem, hshown]
          simp [Except.toOption, hrow]
        rw [written_eq hr hi, afterWrite, Option.elim_map]
        simp only [hrow]
        exact (db_saveItem _ _ _ _).trans rfl

theorem saveable_iff {uid : Option String} {l : ListData} : saveable uid l = true ↔
    (∃ ref, listRef uid l.listName = .ok ref) ∧
      (∀ i ∈ l.listItems, ∃ k, i.itemName = some k ∧ isValidKey k = true) ∧ Untied l.listItems := by
  have href : (listPlace uid l).isSome = true ↔ ∃ ref, listRef uid l.listName = .ok ref := by
    rw [listPlace]
    cases listRef uid l.listName <;> simp [Except.toOption]
  simp only [saveable, Bool.and_eq_true, href, List.all_eq_true, Option.any_eq_true, decide_eq_true_eq,
    and_assoc]

theorem listPlace_ok {uid : Option String} {l : ListData} {ref : List String}
    (h : listRef uid l.listName = .ok ref) : listPlace uid l = some ref := by
  rw [listPlace, h]
  rfl

/-- What a block does to the database of a signed-in user. -/
theorem db_mergeBlock_signedIn (dates : DateAlloc) {s : Sys} (hu : s.currentUser.isSome = true) :
    (settle (mergeBlock dates s)).db =
      (savedLists dates s.mem).foldl (putList s.mem.curUser.uidText) s.db := by
  obtain ⟨user, hu⟩ := Option.isSome_iff_exists.1 hu
  have hnamed : ∀ l : ShopingListsClass,
      (∀ i ∈ l.encodeWithCoder.listItems, ∃ k, i.itemName = some k ∧ isValidKey k = true) ↔
        ∀ i ∈ l.listItems, ∃ k, i.itemName = some k ∧ isValidKey k = true :=
    fun l => List.forall_mem_map
  rw [db_mergeBlock, hu, Raising.outcome_loop_takeWhile
    (p := fun l => saveable s.mem.curUser.uidText l.encodeWithCoder)
    (f := fun l db => putList s.mem.curUser.uidText db l.encodeWithCoder)]
  · simp only [savedLists, ← contents_saved, List.takeWhile_map, List.foldl_map]
    rfl
  · intro l db hl
    obtain ⟨⟨ref, href⟩, hitems, huntied⟩ := saveable_iff.1 hl
    refine save_ok_iff.2 ⟨(hnamed l).1 hitems, huntied, ref, href, ?_⟩
    rw [putList, listPlace_ok href]
    rfl
  · intro l db hl
    cases hs : SaveListOnCloud.save (some user) s.mem.curUser l db with
    | error e => exact ⟨e, rfl⟩
    | ok db' =>
      obtain ⟨hitems, huntied, ref, href, -⟩ := save_ok_iff.1 hs
      rw [saveable_iff.2 ⟨⟨ref, href⟩, (hnamed l).2 hitems, huntied⟩] at hl
      cases hl

/-- Without a session a save writes nothing. -/
theorem db_mergeBlock_signedOut (dates : DateAlloc) {s : Sys} (hu : s.currentUser = none) :
    (settle (mergeBlock dates s)).db = s.db := by
  rw [db_mergeBlock, hu]
  exact Raising.outcome_loop (P := fun db => db = s.db)
    (fun _ _ _ _ h hs => by cases hs; exact h) rfl

theorem db_fire {k : Nat} {env : Env} {s : Sys} {p : Pending} (hp : s.pending[k]? = some p)
    (hblock : ∀ n, p ≠ .mergeBlock n) (hregister : ∀ n e u, p ≠ .registerBlock n e u) :
    (((event s (.fire k env)).map settle).getD s).db = s.db := by
  rw [event, hp, Option.bind_some]
  cases p with
  | readCallback n ref snapshot => exact db_onMem _ (s.without k)
  | mergeBlock n => exact absurd rfl (hblock n)
  | coordsCallback ref snapshot => exact db_onMem _ (s.without k)
  | appendBlock => rfl
  | loginBlock user => exact db_readData env.now _
  | registerBlock n e u => exact absurd rfl (hregister n e u)
  | signIn => rfl
  | createUser _ _ => rfl
  | commitProfile _ _ _ => rfl

theorem db_complete (k : Nat) (user : Option FIRUser) (s : Sys) :
    (((event s (.complete k user)).map settle).getD s).db = s.db := by
  rw [event]
  cases s.pending[k]? with
  | none => rfl
  | some p => cases p <;> cases user <;> rfl

theorem mergeOf_eq_none {a : Action} {s : Sys}
    (h : ∀ k env, a = .fire k env → ∀ n, s.pending[k]? ≠ some (.mergeBlock n)) : mergeOf a s = none := by
  unfold mergeOf
  split
  · rename_i k env
    split
    · rename_i n hk
      exact absurd hk (h k env rfl n)
    · rfl
  · rfl

/-- **What a step does to the database.** -/
theorem db_step {a : Action} {s : Sys} (h : a.inProtocol s.toDevice = true) :
    (step a s).db = (mergeOf a s).elim (afterWrite (written a s) s.db) fun env =>
      (savedLists env.dates s.mem).foldl (putList s.mem.curUser.uidText) s.db := by
  cases hr : s.running with
  | false =>
    have hw : written a s = none := if_neg (by simp [hr])
    have hm : mergeOf a s = none := by
      unfold mergeOf
      split
      · split <;> simp [hr]
      · rfl
    rw [hw, hm]
    by_cases hl : ∃ now, a = .launch now
    · obtain ⟨now, rfl⟩ := hl
      exact db_launch now s
    · rw [step_stopped hr fun now e => hl ⟨now, e⟩]
      rfl
  | true =>
    have hidle (hm : mergeOf a s = none) (hw : savedItem a s = none) :
        (mergeOf a s).elim (afterWrite (written a s) s.db) (fun env =>
          (savedLists env.dates s.mem).foldl (putList s.mem.curUser.uidText) s.db) = s.db := by
      rw [hm, written_none hw]
      rfl
    rw [step_running hr]
    cases a with
    | launch now => exact (db_launch now s).trans (hidle rfl rfl).symm
    | newList text => cases h
    | deleteList row => cases h
    | openItems row =>
      rw [hidle rfl rfl, event]
      split
      · exact db_openItems row s
      · rfl
    | back =>
      rw [hidle rfl rfl, event]
      cases s.screen <;> rfl
    | addItem text now =>
      rw [event]
      split
      · rename_i ht
        cases hs : s.screen with
        | none => exact (hidle rfl (by rw [savedItem, if_pos ht, shownList, hs]; rfl)).symm
        | some screen => exact db_addItem hr hs ht
      · rename_i ht
        exact (hidle rfl (if_neg ht)).symm
    | toggleItem row now =>
      rw [event]
      cases hs : s.screen with
      | none => exact (hidle rfl (by rw [savedItem, shownList, hs]; rfl)).symm
      | some screen => exact db_toggleItem hr hs
    | deleteItem row => cases h
    | login now =>
      rw [hidle rfl rfl, event]
      split
      · exact (db_map_settle (f := Sys.await .signIn) (fun _ => rfl) _).trans (db_readData now s)
      · rfl
    | register n e =>
      rw [hidle rfl rfl, event]
      split <;> rfl
    | logout =>
      rw [hidle rfl rfl, event]
      split <;> rfl
    | refresh k => exact (hidle rfl rfl).symm
    | fire k env =>
      cases hp : s.pending[k]? with
      | none =>
        rw [hidle (mergeOf_eq_none fun k' e hk n => by cases hk; simp [hp]) rfl, event, hp]
        rfl
      | some p =>
        by_cases hb : ∃ n, p = .mergeBlock n
        · obtain ⟨n, rfl⟩ := hb
          have he : event s (.fire k env) = some (mergeBlock env.dates (s.without k)) := by
            rw [event, hp]
            rfl
          rw [he, mergeOf, hp]
          by_cases hu : s.currentUser.isSome = true
          · simp only [hr, hu, and_self, if_true]
            exact db_mergeBlock_signedIn env.dates (s := s.without k) hu
          · rw [Option.not_isSome_iff_eq_none] at hu
            simp only [hu, Option.isSome_none, Bool.false_eq_true, and_false, if_false]
            rw [written_none rfl]
            exact db_mergeBlock_signedOut env.dates (s := s.without k) hu
        · rw [hidle (mergeOf_eq_none fun k' e hk n => by
            cases hk
            rw [hp]
            exact fun e => hb ⟨n, Option.some.inj e⟩) rfl]
          refine db_fire hp (fun n e => hb ⟨n, e⟩) fun n e u he => ?_
          subst he
          simp only [Action.inProtocol, hp, Option.all_some, Pending.inTurn] at h
          cases h
    | complete k user => exact (db_complete k user s).trans (hidle rfl rfl).symm
    | notify k env =>
      rw [hidle rfl rfl, event]
      cases s.observers[k]? with
      | none => rfl
      | some o => exact db_onMem _ s

end ShopingList
