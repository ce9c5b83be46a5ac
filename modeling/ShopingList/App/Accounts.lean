import ShopingList.App.Screens
import ShopingList.App.Sync

/-!
# One account after another

`signInAndSync` is a sign-in on the list screen with the sync that follows. What it
writes below the node of the new user depends on that node, on `data.plist` and,
if the node has no lists, on the `onlineLST` of the process; everything else that
the former user left on the device is without effect (`node_signInAndSync`).
-/

namespace ShopingList

open FNode KeyedMerge ListViewController

/-! ## Saves of equal contents -/

section
variable {user : FIRUser} {base : List String} {c₁ c₂ : UserClass} {db₁ db₂ : FNode}

/-- A save depends on the contents of the list and the uid, and changes the user's node only by them. -/
theorem save_transfer {a₁ a₂ : ShopingListsClass} {db₁' : FNode} (hu : c₁.uidText = c₂.uidText)
    (hb : child dataNode c₁.uidText = .ok base) (ha : a₁.encodeWithCoder = a₂.encodeWithCoder)
    (hn : getChild base db₁ = getChild base db₂)
    (h : SaveListOnCloud.save (some user) c₁ a₁ db₁ = .ok db₁') :
    ∃ db₂', SaveListOnCloud.save (some user) c₂ a₂ db₂ = .ok db₂' ∧
      getChild base db₁' = getChild base db₂' := by
  obtain ⟨hitems, huntied, ref, href, rfl⟩ := save_ok_iff.1 h
  have hname : a₁.listName = a₂.listName := congrArg ListData.listName ha
  have hitems' : a₁.listItems.map (·.encodeWithCoder) = a₂.listItems.map (·.encodeWithCoder) :=
    congrArg ListData.listItems ha
  refine ⟨updateChild (listNode a₂.encodeWithCoder) ref db₂, save_ok_iff.2
    ⟨fun i hi => ?_, ha ▸ huntied, ref, ?_, rfl⟩, ?_⟩
  · have hm : i.encodeWithCoder ∈ a₁.listItems.map (·.encodeWithCoder) := by
      rw [hitems']
      exact List.mem_map_of_mem hi
    obtain ⟨j, hj, he⟩ := List.mem_map.1 hm
    have hnm : j.itemName = i.itemName := congrArg ItemData.itemName he
    rw [← hnm]
    exact hitems j hj
  · rw [← hu, ← hname]
    exact href
  · obtain ⟨base', n, hb', -, rfl⟩ := listRef_ok href
    rw [hb] at hb'
    cases hb'
    rw [getChild_updateChild, getChild_updateChild, hn, ha]

theorem node_saves {as₁ as₂ : List ShopingListsClass} (hu : c₁.uidText = c₂.uidText)
    (hb : child dataNode c₁.uidText = .ok base)
    (ha : as₁.map (·.encodeWithCoder) = as₂.map (·.encodeWithCoder))
    (hn : getChild base db₁ = getChild base db₂) :
    getChild base (Raising.outcome (Raising.loop (SaveListOnCloud.save (some user) c₁) as₁ db₁)) =
      getChild base (Raising.outcome (Raising.loop (SaveListOnCloud.save (some user) c₂) as₂ db₂)) := by
  induction as₁ generalizing as₂ db₁ db₂ with
  | nil =>
    cases as₂ with
    | nil => exact hn
    | cons a as => cases ha
  | cons a₁ as₁ ih =>
    cases as₂ with
    | nil => cases ha
    | cons a₂ as₂ =>
      obtain ⟨hhead, htail⟩ := List.cons.inj ha
      rw [Raising.loop, Raising.loop]
      cases h₁ : SaveListOnCloud.save (some user) c₁ a₁ db₁ with
      | ok db₁' =>
        obtain ⟨db₂', h₂, hn'⟩ := save_transfer hu hb hhead hn h₁
        rw [h₂]
        exact ih htail hn'
      | error e =>
        cases h₂ : SaveListOnCloud.save (some user) c₂ a₂ db₂ with
        | ok db₂' =>
          obtain ⟨db₁', h, -⟩ := save_transfer hu.symm (hu ▸ hb) hhead.symm hn.symm h₂
          rw [h] at h₁
          cases h₁
        | error e' => exact hn

end

/-! ## The block in two runs -/

/-- The contents of lists without their owners. -/
def unowned (ls : List ListData) : List ListData := ls.map (·.withOwner ⟨none, none, none⟩)

/-- A merge replaces all owners and does not look at them. -/
theorem merged_unowned (dates : DateAlloc) (u : UserData) (online offline : List ListData) :
    merged dates u online offline = merged dates u (unowned online) (unowned offline) := by
  have h : unowned (CompareList.mergeLists dates online offline) =
      CompareList.mergeLists dates (unowned online) (unowned offline) :=
    map_unionBy (fun _ => rfl) fun _ _ => rfl
  rw [merged, merged, ← h, unowned, List.map_map]
  rfl

/-- What the block of the user `u` reads is the same in two runs, and so is the node at `base`. -/
structure SameInput (base : List String) (u : UserData) (s₁ s₂ : Sys) : Prop where
  curUser₁ : s₁.mem.curUser.encodeWithCoder = u
  curUser₂ : s₂.mem.curUser.encodeWithCoder = u
  onlineLST : unowned (contents s₁.mem.onlineLST) = unowned (contents s₂.mem.onlineLST)
  offlineLST : unowned (contents s₁.mem.offlineLST) = unowned (contents s₂.mem.offlineLST)
  node : getChild base s₁.db = getChild base s₂.db

theorem node_mergeBlock {dates : DateAlloc} {user : FIRUser} {base : List String} {u : UserData}
    {s₁ s₂ : Sys} (hb : child dataNode u.uid = .ok base) (h₁ : s₁.currentUser = some user)
    (h₂ : s₂.currentUser = some user) (h : SameInput base u s₁ s₂) :
    getChild base (settle (mergeBlock dates s₁)).db = getChild base (settle (mergeBlock dates s₂)).db := by
  have hu₁ : s₁.mem.curUser.uidText = u.uid := congrArg UserData.uid h.curUser₁
  have hu₂ : s₂.mem.curUser.uidText = u.uid := congrArg UserData.uid h.curUser₂
  have hsaved : mergedOf dates s₁.mem = mergedOf dates s₂.mem := by
    rw [mergedOf, mergedOf, merged_unowned, h.curUser₁, h.onlineLST, h.offlineLST, ← merged_unowned,
      h.curUser₂]
  rw [db_mergeBlock, db_mergeBlock, h₁, h₂]
  refine node_saves (hu₁.trans hu₂.symm) (hu₁ ▸ hb) ?_ h.node
  rw [contents_saved, contents_saved, hsaved]

/-! ## Signing in -/

/-- On the list screen, with a stored user but nobody signed in. -/
structure SignedOut (disk : List ListData) (s : Sys) : Prop where
  running : s.running = true
  screen : s.screen = none
  currentUser : s.currentUser = none
  userPlist : ∃ u, s.files.userPlist = some u ∧ u.uid.isSome
  dataPlist : s.files.dataPlist = some disk

/-- A login, its completion for `b`, the block of the login, and the callback and the block of
the sync; `k` turns are pending before. -/
def signInAndSync (k : Nat) (env : Env) (b : FIRUser) : List Action :=
  [.login env.now, .complete k (some b), .fire k env, .fire k env, .fire k env]

theorem readFiles_of_userPlist (now : Moment) {s : Sys} {u : UserData} (hu : s.files.userPlist = some u)
    (huid : u.uid.isSome) : ∃ m, readFiles now s = s.withMem m ∧ m.curUser.encodeWithCoder = u ∧
      m.onlineLST = s.mem.onlineLST := by
  have hread : ReadUserFromDisk.read s.files s.mem =
      { s.mem with curUser := .initWithCoder s.mem.next u, next := s.mem.next + 1 } := by
    rw [ReadUserFromDisk.read, hu]
  have hsome : (UserClass.initWithCoder s.mem.next u).uid.isNone = false := by
    obtain ⟨uid, h⟩ := Option.isSome_iff_exists.1 huid
    simp [UserClass.initWithCoder, h]
  simp only [readFiles, hread, hsome]
  refine ⟨_, rfl, ?_, ?_⟩
  · simp only [ReadDataFromDisk.readData]
    split <;> exact UserClass.encode_init _ _
  · simp only [ReadDataFromDisk.readData]
    split <;> rfl

theorem step_fire {k : Nat} {env : Env} {s : Sys} (hr : s.running = true) :
    step (.fire k env) s = settle (fire k env s) := by
  show (if s.running then ((event s (.fire k env)).map settle).getD s else s) = _
  rw [if_pos hr, fire]
  cases event s (.fire k env) <;> rfl

/-- The owners change when a user is set, nothing else does. -/
theorem unowned_setTheUser (inpName inpEmail : Option String) (inpUid : String) (m : AppData) :
    unowned (contents (SetTheUser.setWithName inpName inpEmail inpUid m).onlineLST) =
      unowned (contents m.onlineLST) := by
  have h := AppData.mapLists_onlineLST m fun any =>
    if any ∈ (elems m.curLST).filter fun any => samePointer any.listOwner.uid m.curUser.uid then
      { any with listOwner := ⟨inpName, inpEmail, some ⟨m.next, inpUid⟩⟩ } else any
  have honline : elems (SetTheUser.setWithName inpName inpEmail inpUid m).onlineLST = _ := h
  rw [contents, honline, unowned, unowned, contents, List.map_map, List.map_map, List.map_map]
  refine List.map_congr_left fun x _ => ?_
  simp only [Function.comp_apply]
  split <;> rfl

section
variable {env : Env} {b : FIRUser} {base : List String} {disk : List ListData} {s : Sys}

/-- The state that `b`'s read request is made in. -/
structure AtRequest (b : FIRUser) (disk : List ListData) (s t : Sys) : Prop where
  running : t.running = true
  currentUser : t.currentUser = some b
  curUser : t.mem.curUser.encodeWithCoder = ⟨b.displayName, b.email, some b.uid⟩
  db : t.db = s.db
  dataPlist : t.files.dataPlist = some disk
  onlineLST : unowned (contents t.mem.onlineLST) = unowned (contents s.mem.onlineLST)
  pending : t.pending = s.pending

theorem run_signIn (env : Env) (hb : child dataNode (some b.uid) = .ok base) (h : SignedOut disk s) :
    ∃ t, AtRequest b disk s t ∧
      Run.run step [.login env.now, .complete s.pending.length (some b), .fire s.pending.length env] s =
        beforeBlock (fromDisk t) [request base t, .mergeBlock t.syncs] t := by
  obtain ⟨u, hu, huid⟩ := h.userPlist
  obtain ⟨m, hm, -, hon⟩ := readFiles_of_userPlist env.now hu huid
  have h1 : step (.login env.now) s = (s.withMem m).await .signIn := by
    show (if s.running then ((event s (.login env.now)).map settle).getD s else s) = _
    rw [if_pos h.running]
    simp [event, h.screen, readData, hm, Sys.withMem, h.currentUser]
  have h2 : step (.complete s.pending.length (some b)) ((s.withMem m).await .signIn) =
      ({ s.withMem m with currentUser := some b } : Sys).await (.loginBlock b) := by
    show (if s.running then _ else _) = _
    rw [if_pos h.running]
    simp [event, Sys.await, Sys.withMem, Pending.complete, Sys.without,
      List.eraseIdx_append_of_length_le]
  -- the block of the login sets the user and reads the files anew
  generalize hx : ({ s.withMem m with currentUser := some b } : Sys) = x at h2
  obtain ⟨m', hm', hcur', hon'⟩ := readFiles_of_userPlist env.now
    (s := x.setTheUser b.displayName b.email b.uid) rfl rfl
  have h3 : step (.fire s.pending.length env) (x.await (.loginBlock b)) =
      settle (beginSync b ((x.setTheUser b.displayName b.email b.uid).withMem m')) := by
    have hk : (x.await (.loginBlock b)).pending[s.pending.length]? = some (.loginBlock b) := by
      rw [← hx]
      simp [Sys.await, Sys.withMem]
    have hwithout : (x.await (.loginBlock b)).without s.pending.length = x := by
      rw [← hx]
      simp [Sys.await, Sys.without, Sys.withMem, List.eraseIdx_append_of_length_le]
    have hcurrent : ((x.setTheUser b.displayName b.email b.uid).withMem m').currentUser = some b := by
      rw [← hx]
      rfl
    rw [step_fire (by rw [← hx]; exact h.running), fire]
    simp only [event, hk, Option.bind_some, Pending.run, hwithout, Option.getD_some, loginBlock, readData,
      hm', hcurrent]
  refine ⟨(x.setTheUser b.displayName b.email b.uid).withMem m', ?_, ?_⟩
  · subst hx
    refine ⟨h.running, rfl, hcur', rfl, h.dataPlist, ?_, rfl⟩
    show unowned (contents m'.onlineLST) = _
    rw [hon']
    refine (unowned_setTheUser _ _ _ m).trans ?_
    rw [hon]
  · simp only [Run.run, h1, h2, h3, beginSync_ok hb]
    rfl

/-- What the whole sign-in makes of the database. -/
theorem db_signInAndSync (env : Env) (hb : child dataNode (some b.uid) = .ok base) (h : SignedOut disk s) :
    ∃ t, AtRequest b disk s t ∧ (Run.run step (signInAndSync s.pending.length env b) s).db =
      match ReadDataFromCloud.callback env.order (getChild base s.db) (fromDisk t) with
      | .ok m => (settle (mergeBlock env.dates (beforeBlock m [] t))).db
      | .error _ => s.db := by
  obtain ⟨t, ht, hrun⟩ := run_signIn env hb h
  refine ⟨t, ht, ?_⟩
  have hsplit : signInAndSync s.pending.length env b =
      [.login env.now, .complete s.pending.length (some b), .fire s.pending.length env] ++
        [.fire s.pending.length env, .fire s.pending.length env] := rfl
  rw [hsplit, Run.run_append, hrun, ← ht.pending, ← ht.db]
  have hr : (beforeBlock (fromDisk t) [request base t, .mergeBlock t.syncs] t).running = true := ht.running
  have hmem : (beforeBlock (fromDisk t) [.mergeBlock t.syncs] t).mem = fromDisk t := rfl
  simp only [Run.run, step_fire hr, fire_request, Sys.onMem, hmem]
  cases hm : ReadDataFromCloud.callback env.order (getChild base t.db) (fromDisk t) with
  | error e => rfl
  | ok m =>
    have hr' : (beforeBlock m [.mergeBlock t.syncs] t).running = true := ht.running
    have hk : (beforeBlock m [.mergeBlock t.syncs] t).pending[t.pending.length]? =
        some (.mergeBlock t.syncs) := by simp [beforeBlock]
    have hwithout : (beforeBlock m [.mergeBlock t.syncs] t).without t.pending.length =
        beforeBlock m [] t := by
      simp [Sys.without, beforeBlock, List.eraseIdx_append_of_length_le]
    have hblock : step (.fire t.pending.length env) (beforeBlock m [.mergeBlock t.syncs] t) =
        settle (mergeBlock env.dates (beforeBlock m [] t)) := by
      rw [step_fire hr', fire_mergeBlock hk, hwithout]
    exact congrArg Sys.db hblock

end

/-- The callback on one snapshot in two runs. -/
theorem callback_two {order : DictOrder} {node : FNode} {m₁ m₂ : AppData}
    (ho : node.hasChildren = true ∨
      unowned (contents m₁.onlineLST) = unowned (contents m₂.onlineLST)) :
    (∃ e, ReadDataFromCloud.callback order node m₁ = .error e ∧
      ReadDataFromCloud.callback order node m₂ = .error e) ∨
    ∃ m₁' m₂', ReadDataFromCloud.callback order node m₁ = .ok m₁' ∧
      ReadDataFromCloud.callback order node m₂ = .ok m₂' ∧
      unowned (contents m₁'.onlineLST) = unowned (contents m₂'.onlineLST) ∧
      (m₁'.curUser = m₁.curUser ∧ m₁'.offlineLST = m₁.offlineLST) ∧
      m₂'.curUser = m₂.curUser ∧ m₂'.offlineLST = m₂.offlineLST := by
  simp only [ReadDataFromCloud.callback]
  cases hc : node.hasChildren with
  | false =>
    rw [hc] at ho
    refine .inr ⟨m₁, m₂, rfl, rfl, ho.resolve_left (by simp), ⟨rfl, rfl⟩, rfl, rfl⟩
  | true =>
    cases hread : ReadDataFromCloud.readLists order node with
    | error e => exact .inl ⟨e, rfl, rfl⟩
    | ok ls =>
      refine .inr ⟨_, _, rfl, rfl, ?_, ⟨rfl, rfl⟩, rfl, rfl⟩
      simp only [contents_decodeLists]

/-- **Isolation but for `data.plist`.** Two devices with the same `data.plist`, before
the same node of `b`, write the same below it when `b` signs in: what they hold
in memory has no effect, except an `onlineLST` that an empty node does not replace. -/
theorem node_signInAndSync {env : Env} {b : FIRUser} {base : List String} {disk : List ListData}
    {s₁ s₂ : Sys} (hb : child dataNode (some b.uid) = .ok base) (h₁ : SignedOut disk s₁)
    (h₂ : SignedOut disk s₂) (hn : getChild base s₁.db = getChild base s₂.db)
    (ho : (getChild base s₁.db).hasChildren = true ∨
      unowned (contents s₁.mem.onlineLST) = unowned (contents s₂.mem.onlineLST)) :
    getChild base (Run.run step (signInAndSync s₁.pending.length env b) s₁).db =
      getChild base (Run.run step (signInAndSync s₂.pending.length env b) s₂).db := by
  obtain ⟨t₁, ht₁, hdb₁⟩ := db_signInAndSync env hb h₁
  obtain ⟨t₂, ht₂, hdb₂⟩ := db_signInAndSync env hb h₂
  obtain ⟨hoff₁, hon₁, hcur₁, -⟩ := contents_fromDisk ht₁.dataPlist
  obtain ⟨hoff₂, hon₂, hcur₂, -⟩ := contents_fromDisk ht₂.dataPlist
  have ho' : (getChild base s₁.db).hasChildren = true ∨
      unowned (contents (fromDisk t₁).onlineLST) = unowned (contents (fromDisk t₂).onlineLST) := by
    rw [hon₁, hon₂, ht₁.onlineLST, ht₂.onlineLST]
    exact ho
  rw [hdb₁, hdb₂, ← hn]
  rcases callback_two ho' with ⟨e, hm₁, hm₂⟩ |
    ⟨m₁, m₂, hm₁, hm₂, hon, ⟨hu₁, hl₁⟩, hu₂, hl₂⟩
  · rw [hm₁, hm₂]
    exact hn
  · rw [hm₁, hm₂]
    refine node_mergeBlock (u := ⟨b.displayName, b.email, some b.uid⟩) hb ht₁.currentUser ht₂.currentUser
      ⟨?_, ?_, hon, ?_, ?_⟩
    · show m₁.curUser.encodeWithCoder = _
      rw [hu₁, hcur₁, ht₁.curUser]
    · show m₂.curUser.encodeWithCoder = _
      rw [hu₂, hcur₂, ht₂.curUser]
    · show unowned (contents m₁.offlineLST) = unowned (contents m₂.offlineLST)
      rw [hl₁, hl₂, hoff₁, hoff₂]
    · show getChild base t₁.db = getChild base t₂.db
      rw [ht₁.db, ht₂.db, hn]

/-! ## Ann, then Bob -/

def bobAccount : FIRUser := ⟨"u2", some "bob@mail", some "Bob"⟩

/-- Ann's device while nobody is signed in, and a cloud in which Bob has a list. -/
def sharedSys (running : Bool) (disk : List ListData) : Sys :=
  { annSys (.children [("Data", .children [("u2", cloudNode [⟨some "Work",
      ⟨some "Bob", some "bob@mail", some "u2"⟩, annItems ["Pen"]⟩])])]) disk with
    currentUser := none, running := running }

/-- The device with another list of Ann in `curLST` and in `onlineLST`. -/
def sharedSysStale (disk : List ListData) : Sys :=
  let stale : List ShopingListsClass := [.initWithCoder 10 ⟨some "Gifts", annData, annItems ["Ring"]⟩]
  (sharedSys true disk).withMem
    { (sharedSys true disk).mem with curLST := some ⟨8, stale⟩, onlineLST := some ⟨9, stale⟩ }

theorem node_signInAndSync_shared : getChild ["Data", "u2"] (Run.run step
      (signInAndSync (sharedSys true [⟨some "Food", annData, annItems ["Milk"]⟩]).pending.length annEnv
        bobAccount) (sharedSys true [⟨some "Food", annData, annItems ["Milk"]⟩])).db =
    getChild ["Data", "u2"] (Run.run step
      (signInAndSync (sharedSysStale [⟨some "Food", annData, annItems ["Milk"]⟩]).pending.length annEnv
        bobAccount) (sharedSysStale [⟨some "Food", annData, annItems ["Milk"]⟩])).db :=
  node_signInAndSync (by decide) ⟨rfl, rfl, rfl, ⟨annData, rfl, rfl⟩, rfl⟩
    ⟨rfl, rfl, rfl, ⟨annData, rfl, rfl⟩, rfl⟩ rfl (.inl (by decide))

/-- `a` signs in, syncs, adds a list and signs out; then `b` signs in and syncs. -/
def twoAccounts (a b : FIRUser) (text : String) (env : Env) : List Action :=
  [.launch env.now, .login env.now, .complete 0 (some a), .fire 0 env, .fire 0 env, .fire 0 env,
    .fire 0 env, .fire 0 env, .newList text, .logout] ++ signInAndSync 0 env b

/-- Ann's list on the disk is written below Bob's node. -/
theorem not_node_twoAccounts : ¬ ∀ (a b : FIRUser) (text : String) (env : Env) (s : Sys)
    (disk₁ disk₂ : List ListData), a.uid ≠ b.uid → a.uid ≠ "defUid" → b.uid ≠ "defUid" →
    s.running = false → s.currentUser = none → s.files.userPlist = some ⟨a.displayName, a.email, some a.uid⟩ →
    (∀ l ∈ disk₁ ++ disk₂, l.listOwner.uid = some a.uid) →
    getChild ["Data", b.uid] (Run.run step (twoAccounts a b text env)
        { s with files := { s.files with dataPlist := some disk₁ } }).db =
      getChild ["Data", b.uid] (Run.run step (twoAccounts a b text env)
        { s with files := { s.files with dataPlist := some disk₂ } }).db := by
  intro h
  have hnode := h annAccount bobAccount "Food" annEnv (sharedSys false [])
    [⟨some "Gifts", annData, annItems ["Ring"]⟩] [] (by decide) (by decide) (by decide) rfl rfl rfl (by decide)
  have hitem := congrArg (fun n => storedItem n "Gifts" "Ring") hnode
  revert hitem
  decide

end ShopingList
