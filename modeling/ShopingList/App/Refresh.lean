import Mathlib.Data.List.Induction
import ShopingList.App.Delivery

/-!
# Reads that refresh

A callback without lists leaves `onlineLST` as it is, one without invitations leaves
`invitationsCoords`. A run refreshes both if and only if each such callback finds nothing left
(`refreshes_iff`), and what it finds was read earlier in the session (`leftover_read`).
-/

namespace ShopingList

open FNode ListViewController

/-! ## What a snapshot holds -/

/-- The lists of a snapshot; one without children has none. -/
def snapshotLists (order : DictOrder) (snapshot : FNode) : Except NSException (List ListData) :=
  if snapshot.hasChildren then ReadDataFromCloud.readLists order snapshot else .ok []

/-- The contents of an invitation. -/
def InvitationClass.data (c : InvitationClass) : Option String × UserData :=
  (c.listName, c.listOwner.encodeWithCoder)

def invitationData (any : FNode) : Except NSException (Option String × UserData) := do
  return (← stringForKey "listName" any, ⟨← stringForKey "ListOwner" any, ← stringForKey "email" any,
    ← stringForKey "uid" any⟩)

/-- The snapshot of a user has no invitations. -/
def NoInvitations (snapshot : FNode) : Prop :=
  snapshot.hasChildren = false ∨ objectForKey "invitations" snapshot = .ok none

/-- The invitations in the snapshot of a user. -/
def snapshotInvitations (order : DictOrder) (snapshot : FNode) :
    Except NSException (List (Option String × UserData)) :=
  if snapshot.hasChildren then do
    match ← objectForKey "invitations" snapshot with
    | none => return []
    | some dic => (← allValues order dic).mapM invitationData
  else .ok []

section
variable {order : DictOrder} {snapshot : FNode} {m m' : AppData}

theorem readAll_data {next : Nat} {values : List FNode} {coords : List InvitationClass}
    (h : ReadInvitations.readAll next values = .ok coords) :
    values.mapM invitationData = .ok (coords.map (·.data)) := by
  induction values generalizing next coords with
  | nil =>
    cases h
    rfl
  | cons any values ih =>
    obtain ⟨c, hc, h⟩ := Raising.bind_ok_iff.1 h
    obtain ⟨cs, hcs, h⟩ := Raising.bind_ok_iff.1 h
    cases h
    have hone : invitationData any = .ok c.data := by
      obtain ⟨name, hname, hc⟩ := Raising.bind_ok_iff.1 hc
      obtain ⟨user, huser, hc⟩ := Raising.bind_ok_iff.1 hc
      obtain ⟨email, hemail, hc⟩ := Raising.bind_ok_iff.1 hc
      obtain ⟨uid, huid, hc⟩ := Raising.bind_ok_iff.1 hc
      cases hc
      rw [invitationData, hname, huser, hemail, huid, InvitationClass.data, UserClass.encode_init]
      rfl
    rw [List.mapM_cons, hone, ih hcs]
    rfl

/-- **After a read** `onlineLST` holds the lists of the snapshot, unless it has none and something is left. -/
theorem readCallback_refreshes (h : ReadDataFromCloud.callback order snapshot m = .ok m') :
    snapshotLists order snapshot = .ok (contents m'.onlineLST) ↔
      (snapshot.hasChildren = false → elems m.onlineLST = []) := by
  unfold ReadDataFromCloud.callback at h
  unfold snapshotLists
  split at h
  · rename_i hchildren
    obtain ⟨lists, hlists, h⟩ := Raising.bind_ok_iff.1 h
    cases h
    rw [if_pos hchildren, hlists]
    refine iff_of_true ?_ fun hno => ?_
    · rw [contents, elems_some, ShopingListsClass.encode_decodeLists]
    · rw [hchildren] at hno
      cases hno
  · rename_i hchildren
    cases h
    rw [if_neg hchildren]
    constructor
    · intro he _
      exact List.map_eq_nil_iff.1 (Except.ok.inj he).symm
    · intro he
      rw [contents, he (Bool.not_eq_true _ ▸ hchildren)]
      rfl

theorem coordsCallback_none (m : AppData) (h : NoInvitations snapshot) :
    ReadInvitations.callback order snapshot m = .ok m := by
  unfold ReadInvitations.callback
  split
  · rename_i hchildren
    obtain hno | hnone := h
    · rw [hchildren] at hno
      cases hno
    · rw [hnone]
      rfl
  · rfl

/-- **After a read of the coordinates** these are the invitations of the snapshot, unless it has none and
something is left. -/
theorem coordsCallback_refreshes (h : ReadInvitations.callback order snapshot m = .ok m') :
    snapshotInvitations order snapshot = .ok (m'.invitationsCoords.map (·.data)) ↔
      (NoInvitations snapshot → m.invitationsCoords = []) := by
  have hkept : (Except.ok [] : Except NSException (List (Option String × UserData))) =
      .ok (m.invitationsCoords.map (·.data)) ↔ m.invitationsCoords = [] := by
    rw [Except.ok.injEq, eq_comm, List.map_eq_nil_iff]
  unfold ReadInvitations.callback at h
  unfold snapshotInvitations NoInvitations
  split at h
  · rename_i hchildren
    obtain ⟨dic, hdic, h⟩ := Raising.bind_ok_iff.1 h
    rw [if_pos hchildren, hdic]
    cases dic with
    | none =>
      cases h
      exact hkept.trans ⟨fun he _ => he, fun he => he (.inr rfl)⟩
    | some dic =>
      obtain ⟨values, hvalues, h⟩ := Raising.bind_ok_iff.1 h
      obtain ⟨coords, hcoords, h⟩ := Raising.bind_ok_iff.1 h
      cases h
      refine iff_of_true ?_ ?_
      · show (allValues order dic >>= fun values => values.mapM invitationData) = _
        rw [hvalues]
        exact readAll_data hcoords
      · rintro (hno | hno)
        · rw [hchildren] at hno
          cases hno
        · cases hno
  · rename_i hchildren
    cases h
    rw [if_neg hchildren]
    exact hkept.trans ⟨fun he _ => he, fun he => he (.inl (Bool.not_eq_true _ ▸ hchildren))⟩

end

/-! ## Runs -/

/-- A turn, or writes of other clients. -/
inductive ServedAction where
  | turn (a : Action)
  | written (db : FNode)

def servedStep (e : ServedAction) (s : Sys) : Sys :=
  match e with
  | .turn a => step a s
  | .written db => { s with db := db }

/-- What a callback for the snapshot leaves in the memory. -/
def Pending.Refreshed (order : DictOrder) (m : AppData) : Pending → Prop
  | .readCallback _ _ snapshot => snapshotLists order snapshot = .ok (contents m.onlineLST)
  | .coordsCallback _ snapshot => snapshotInvitations order snapshot = .ok (m.invitationsCoords.map (·.data))
  | _ => True

/-- A callback for a snapshot with nothing finds nothing in the memory. -/
def Pending.FindsNothing (m : AppData) : Pending → Prop
  | .readCallback _ _ snapshot => snapshot.hasChildren = false → elems m.onlineLST = []
  | .coordsCallback _ snapshot => NoInvitations snapshot → m.invitationsCoords = []
  | _ => True

/-- A callback that returns has refreshed the memory. -/
def Refreshes (e : ServedAction) (s : Sys) : Prop :=
  match e with
  | .turn (.fire k env) => ∀ p, s.running = true → s.pending[k]? = some p →
      (step (.fire k env) s).running = true → p.Refreshed env.order (step (.fire k env) s).mem
  | _ => True

/-- Nothing is left for a callback to clear. -/
def NothingLeft (e : ServedAction) (s : Sys) : Prop :=
  match e with
  | .turn (.fire k _) => ∀ p, s.running = true → s.pending[k]? = some p → p.FindsNothing s.mem
  | _ => True

theorem settle_onMem_iff {s : Sys} {f : AppData → Except NSException AppData} {P : AppData → Prop}
    (hr : s.running = true) :
    ((settle (s.onMem f)).running = true → P (settle (s.onMem f)).mem) ↔ ∀ m, f s.mem = .ok m → P m := by
  unfold Sys.onMem
  cases hm : f s.mem with
  | ok m =>
    refine ⟨fun h m' hm' => ?_, fun h _ => h m rfl⟩
    cases hm'
    exact h hr
  | error e => exact iff_of_true (fun h => by cases h) fun m h => by cases h

/-- A callback refreshes the memory exactly if it finds nothing where its snapshot has nothing. -/
theorem refreshes_fire {k : Nat} {env : Env} {p : Pending} {s : Sys} (hr : s.running = true)
    (hk : s.pending[k]? = some p) :
    ((step (.fire k env) s).running = true → p.Refreshed env.order (step (.fire k env) s).mem) ↔
      p.FindsNothing s.mem := by
  cases p with
  | readCallback n ref snapshot =>
    rw [fire_eq_settle hr hk rfl]
    refine (settle_onMem_iff (s := s.without k)
      (P := fun m => (Pending.readCallback n ref snapshot).Refreshed env.order m) hr).trans
      ⟨fun h hno => ?_, fun h m hm => ?_⟩
    · have hkept : ReadDataFromCloud.callback env.order snapshot s.mem = .ok s.mem :=
        if_neg (by rw [hno]; exact Bool.false_ne_true)
      exact (readCallback_refreshes hkept).1 (h _ hkept) hno
    · exact (readCallback_refreshes hm).2 h
  | coordsCallback ref snapshot =>
    rw [fire_eq_settle hr hk rfl]
    refine (settle_onMem_iff (s := s.without k)
      (P := fun m => (Pending.coordsCallback ref snapshot).Refreshed env.order m) hr).trans
      ⟨fun h hno => ?_, fun h m hm => ?_⟩
    · have hkept : ReadInvitations.callback env.order snapshot s.mem = .ok s.mem := coordsCallback_none s.mem hno
      exact (coordsCallback_refreshes hkept).1 (h _ hkept) hno
    · exact (coordsCallback_refreshes hm).2 h
  | _ => exact iff_of_true (fun _ => trivial) trivial

theorem refreshes_step (e : ServedAction) (s : Sys) : Refreshes e s ↔ NothingLeft e s := by
  unfold Refreshes NothingLeft
  split
  · exact forall_congr' fun p => forall_congr' fun hr => forall_congr' fun hk => refreshes_fire hr hk
  · exact Iff.rfl

/-- **A run refreshes what it reads** if and only if every callback with nothing to read finds nothing left. -/
theorem refreshes_iff (es : List ServedAction) (s : Sys) :
    Run.Along servedStep Refreshes es s ↔ Run.Along servedStep NothingLeft es s :=
  Run.along_iff (P := fun _ => True) (fun _ _ _ _ => trivial) (fun e s _ => refreshes_step e s) trivial

/-! ## Where a leftover comes from -/

def Pending.HasLists : Pending → Prop
  | .readCallback _ _ snapshot => snapshot.hasChildren = true
  | _ => False

def Pending.HasInvitations : Pending → Prop
  | .coordsCallback _ snapshot => ¬ NoInvitations snapshot
  | _ => False

/-- The action runs such a callback. -/
def Fires (P : Pending → Prop) (a : Action) (s : Sys) : Prop :=
  ∃ k env p, a = .fire k env ∧ s.pending[k]? = some p ∧ P p

/-- Such a callback has run since the last launch. -/
def ReadBefore (P : Pending → Prop) (es : List ServedAction) (s : Sys) : Prop :=
  ∃ before a after, es = before ++ .turn a :: after ∧ (∀ now, .turn (.launch now) ∉ after) ∧
    Fires P a (Run.run servedStep before s)

/-- Nothing new is in `onlineLST` or among the coordinates. -/
structure NoneRead (m m' : AppData) : Prop where
  lists : elems m.onlineLST = [] → elems m'.onlineLST = []
  invitations : m'.invitationsCoords = m.invitationsCoords

section
variable {m m' m'' : AppData} {o : List Observer} {f f' : Files}

theorem NoneRead.refl (m : AppData) : NoneRead m m := ⟨id, rfl⟩

theorem NoneRead.trans (h : NoneRead m m') (h' : NoneRead m' m'') : NoneRead m m'' :=
  ⟨fun he => h'.lists (h.lists he), h'.invitations.trans h.invitations⟩

theorem NoneRead.of_eq (hl : m'.onlineLST = m.onlineLST) (hi : m'.invitationsCoords = m.invitationsCoords) :
    NoneRead m m' := ⟨fun he => by rw [hl]; exact he, hi⟩

theorem noneRead_mapLists (f : ShopingListsClass → ShopingListsClass) (m : AppData) : NoneRead m (m.mapLists f) := by
  refine ⟨fun he => ?_, rfl⟩
  rw [AppData.mapLists_onlineLST, he]
  rfl

theorem noneRead_curLST (ha : Arrays m o) (f : List ShopingListsClass → List ShopingListsClass) :
    NoneRead m (m.updateArray m.curLST f) :=
  .of_eq (online_updateArray f fun _ hb => ha.ne_online (.inl rfl) hb) rfl

theorem noneRead_addObject (ha : Arrays m o) (l : ShopingListsClass) : NoneRead m (m.addObject m.curLST l) :=
  noneRead_curLST ha _

theorem noneRead_newList (ha : Arrays m o) (text : String) : NoneRead m (withNewList text m) :=
  (noneRead_addObject ha _).trans (.of_eq rfl rfl)

theorem noneRead_prepare (ha : Arrays m o) (now : Moment) : NoneRead m (PrepareFirstLists.prepare now m) :=
  (noneRead_addObject ha _).trans (.of_eq rfl rfl)

theorem noneRead_newItem (text : String) (now : Moment) (l : ShopingListsClass) (m : AppData) :
    NoneRead m (withNewItem text now l m) := (noneRead_mapLists _ m).trans (.of_eq rfl rfl)

theorem noneRead_setWithName (n e : Option String) (uid : String) (m : AppData) :
    NoneRead m (SetTheUser.setWithName n e uid m) := (noneRead_mapLists _ m).trans (.of_eq rfl rfl)

theorem noneRead_ownedMerge (dates : DateAlloc) (m : AppData) : NoneRead m (ownedMerge dates m) := by
  have hmerge : NoneRead m (merge dates m) := ⟨merge_onlineLST_nil, rfl⟩
  exact hmerge.trans (noneRead_mapLists _ _)

theorem noneRead_writes (hw : Writes m f m' f') : NoneRead m m' := by
  cases hw
  exact .of_eq rfl rfl

theorem noneRead_readUser (files : Files) (m : AppData) : NoneRead m (ReadUserFromDisk.read files m) := by
  unfold ReadUserFromDisk.read
  split
  · exact .of_eq rfl rfl
  · exact .refl m

theorem noneRead_readData (files : Files) (m : AppData) : NoneRead m (ReadDataFromDisk.readData files m) := by
  unfold ReadDataFromDisk.readData
  split
  · exact .of_eq rfl rfl
  · exact .refl m

theorem noneRead_readDisk (ha : Arrays m o) (now : Moment) (f : Files) : NoneRead m (readDisk now f m).1 := by
  have huser := noneRead_readUser f m
  have hau := arrays_readUser ha f
  simp only [readDisk]
  split
  · have huser' : NoneRead m { ReadUserFromDisk.read f m with curUser := defaultUser } :=
      huser.trans (.of_eq rfl rfl)
    exact (huser'.trans (noneRead_prepare (hau.other (Nat.le_refl _)) now)).trans (.of_eq rfl rfl)
  · exact (huser.trans (noneRead_readData f _)).trans (.of_eq rfl rfl)

theorem noneRead_readsData (ha : Arrays m o) {now : Moment} (hr : ReadsData now f m m' f') : NoneRead m m' := by
  have hdisk := noneRead_readDisk ha now f
  cases hr with
  | once => exact hdisk
  | twice => exact hdisk.trans (noneRead_readData _ _)

theorem noneRead_notify (ha : Arrays m o) {order : DictOrder} {sameString : String → Bool} {ob : Observer}
    (hob : ob ∈ o) {snapshot : FNode}
    (hm : FetchInvitationnData.block order sameString ob.coords ob.fetchedArr snapshot m = .ok m') : NoneRead m m' := by
  obtain rfl | ⟨found, rfl⟩ := fetchBlock_ok hm
  · exact .refl _
  · exact .of_eq (ha.map_fill hob _ (.inr (.inr rfl))) rfl

end

/-- **Only a read brings something in.** -/
theorem read_outcome {s : Sys} {a : Action} {m : AppData} {f : Files} {o : List Observer}
    (ha : Arrays s.mem s.observers) (hne : ∀ now, a ≠ .launch now) (ho : Outcome s a m f o) :
    (elems s.mem.onlineLST = [] → elems m.onlineLST ≠ [] → Fires Pending.HasLists a s) ∧
      (s.mem.invitationsCoords = [] → m.invitationsCoords ≠ [] → Fires Pending.HasInvitations a s) := by
  have hnone : ∀ {m'}, NoneRead s.mem m' →
      (elems s.mem.onlineLST = [] → elems m'.onlineLST ≠ [] → Fires Pending.HasLists a s) ∧
        (s.mem.invitationsCoords = [] → m'.invitationsCoords ≠ [] → Fires Pending.HasInvitations a s) := fun h =>
    ⟨fun he hn => absurd (h.lists he) hn, fun he hn => absurd (h.invitations.trans he) hn⟩
  cases ho with
  | same => exact hnone (.refl _)
  | launch hr => exact absurd rfl (hne _)
  | login hr => exact hnone (noneRead_readsData ha hr)
  | newList hw => exact hnone ((noneRead_newList ha _).trans (noneRead_writes hw))
  | deleteOwn hl hown hw => exact hnone ((noneRead_curLST ha _).trans (noneRead_writes hw))
  | reject hl hown => exact hnone (noneRead_curLST ha _)
  | write hw => exact hnone (noneRead_writes hw)
  | addItem hl hw => exact hnone ((noneRead_newItem _ _ _ _).trans (noneRead_writes hw))
  | toggleItem hl hi hw => exact hnone ((noneRead_mapLists _ _).trans (noneRead_writes hw))
  | deleteItem hl hi hw => exact hnone ((noneRead_mapLists _ _).trans (noneRead_writes hw))
  | readCallback hk hm =>
    refine ⟨fun he hn => ⟨_, _, _, rfl, hk, ?_⟩, fun he hn => absurd he ?_⟩
    · by_contra hno
      rw [Pending.HasLists, Bool.not_eq_true] at hno
      unfold ReadDataFromCloud.callback at hm
      rw [hno] at hm
      cases hm
      exact hn he
    · obtain rfl | ⟨lists, -, rfl⟩ := readCallback_ok hm <;> exact hn
  | mergeBlock hk hw => exact hnone ((noneRead_ownedMerge _ _).trans (noneRead_writes hw))
  | fetched hk hw =>
    exact hnone (((noneRead_ownedMerge _ _).trans (noneRead_writes hw)).trans (.of_eq rfl rfl))
  | coordsCallback hk hm =>
    refine ⟨fun he hn => absurd he ?_, fun he hn => ⟨_, _, _, rfl, hk, fun hno => ?_⟩⟩
    · obtain rfl | ⟨values, coords, -, rfl⟩ := coordsCallback_ok hm <;> exact hn
    · rw [coordsCallback_none _ hno] at hm
      cases hm
      exact hn he
  | appendBlock hk => exact hnone (noneRead_curLST ha _)
  | loginBlock hk hr =>
    exact hnone ((noneRead_setWithName _ _ _ _).trans (noneRead_readsData (arrays_setWithName ha _ _ _) hr))
  | registerBlock hk => exact hnone (noneRead_setWithName _ _ _ _)
  | notify hk hm => exact hnone (noneRead_notify ha (List.mem_of_getElem? hk) hm)

/-- What a running process holds was read since it was launched. -/
structure FromReads (es : List ServedAction) (s : Sys) (m : AppData) : Prop where
  lists : elems m.onlineLST ≠ [] → ReadBefore Pending.HasLists es s
  invitations : m.invitationsCoords ≠ [] → ReadBefore Pending.HasInvitations es s

section
variable {P : Pending → Prop} {es : List ServedAction} {e : ServedAction} {s : Sys}

theorem ReadBefore.later (h : ReadBefore P es s) (hne : ∀ now, e ≠ .turn (.launch now)) :
    ReadBefore P (es ++ [e]) s := by
  obtain ⟨before, a, after, rfl, hafter, hfires⟩ := h
  refine ⟨before, a, after ++ [e], by simp, fun now hm => ?_, hfires⟩
  rcases List.mem_append.1 hm with hm | hm
  · exact hafter now hm
  · exact hne now (List.mem_singleton.1 hm).symm

theorem ReadBefore.now {a : Action} (h : Fires P a (Run.run servedStep es s)) : ReadBefore P (es ++ [.turn a]) s :=
  ⟨es, a, [], rfl, fun _ => List.not_mem_nil, h⟩

/-- **Whatever is left was read** by a callback of the same session. -/
theorem leftover_read (es : List ServedAction) (hr : s.running = false) :
    Kept (fun m _ o => Arrays m o ∧ FromReads es s m) (fun _ => True) (Run.run servedStep es s) := by
  induction es using List.reverseRecOn with
  | nil => exact ⟨trivial, fun h => by rw [Run.run, hr] at h; cases h⟩
  | append_singleton es e ih =>
    rw [Run.run_append]
    cases e with
    | written db =>
      refine ⟨trivial, fun h => ?_⟩
      obtain ⟨ha, hread⟩ := ih.2 h
      have hne : ∀ now, ServedAction.written db ≠ .turn (.launch now) := fun _ he => by cases he
      exact ⟨ha, fun hl => (hread.lists hl).later hne, fun hi => (hread.invitations hi).later hne⟩
    | turn a =>
      refine ih.step (fun _ _ _ _ => trivial) (fun now m f ha hm => ?_) fun _ hne hs m f o ho => ?_
      · have hnone := noneRead_readsData arrays_init hm
        exact ⟨arrays_readsData arrays_init hm, fun hl => absurd (hnone.lists rfl) hl,
          fun hi => absurd hnone.invitations hi⟩
      · obtain ⟨ha, hread⟩ := hs
        have hne' : ∀ now, ServedAction.turn a ≠ .turn (.launch now) := fun now he =>
          hne now (ServedAction.turn.inj he)
        obtain ⟨hlists, hcoords⟩ := read_outcome ha hne ho
        refine ⟨arrays_outcome ha ho, fun hl => ?_, fun hi => ?_⟩
        · by_cases he : elems (Run.run servedStep es s).mem.onlineLST = []
          · exact .now (hlists he hl)
          · exact (hread.lists he).later hne'
        · by_cases he : (Run.run servedStep es s).mem.invitationsCoords = []
          · exact .now (hcoords he hi)
          · exact (hread.invitations he).later hne'

/-- In a session no callback with nothing comes after one with something. -/
def SomethingLast (es : List ServedAction) (s : Sys) : Prop :=
  ∀ before k env after p, es = before ++ .turn (.fire k env) :: after →
    (Run.run servedStep before s).pending[k]? = some p →
      (ReadBefore Pending.HasLists before s → ∀ n ref snapshot, p = .readCallback n ref snapshot →
        snapshot.hasChildren = true) ∧
      (ReadBefore Pending.HasInvitations before s → ∀ ref snapshot, p = .coordsCallback ref snapshot →
        ¬ NoInvitations snapshot)

/-- **A run refreshes what it reads** if nothing is read only before something is. -/
theorem refreshes_of_somethingLast (hr : s.running = false) (h : SomethingLast es s) :
    Run.Along servedStep Refreshes es s := by
  refine Run.along_iff_split.2 fun before e after he => (refreshes_step e _).2 ?_
  unfold NothingLeft
  split
  · rename_i k env
    intro p hrun hk
    obtain ⟨-, hread⟩ := (leftover_read before hr).2 hrun
    obtain ⟨hlists, hcoords⟩ := h before k env after p he hk
    cases p with
    | readCallback n ref snapshot =>
      intro hno
      by_contra hleft
      rw [hlists (hread.lists hleft) n ref snapshot rfl] at hno
      cases hno
    | coordsCallback ref snapshot =>
      intro hno
      by_contra hleft
      exact hcoords (hread.invitations hleft) ref snapshot rfl hno
    | _ => trivial
  · trivial

end

/-! ### Ann deletes her only list -/

/-- Ann's only list is stored. -/
def foodSys : Sys :=
  { annSys (updateChild (.children [("listItems", .children [("Milk", .children [("item Name", .leaf "Milk"),
      ("purchased", .leaf "False"), ("time", .leaf "01-02-2020 10:02")])]), ("listName", .leaf "Food"),
      ("listUser", .children [("Email", .leaf "ann@mail"), ("uid", .leaf "u1"), ("userName", .leaf "Ann")])])
      ["Data", "u1", "Food"] emptyNode) [⟨some "Food", annData, annItems ["Milk"]⟩] with running := false }

/-- Ann syncs, deletes her only list and syncs again. -/
def foodActions : List ServedAction :=
  [.turn (.launch annEnv.now), .turn (.fire 0 annEnv), .turn (.fire 0 annEnv), .turn (.deleteList 0),
    .turn (.login annEnv.now), .turn (.fire 2 annEnv)]

theorem not_refreshes : ¬ ∀ (es : List ServedAction) (s : Sys), s.running = false →
    Run.Along servedStep Refreshes es s := by
  intro h
  obtain ⟨-, -, -, -, -, hlast, -⟩ := h foodActions foodSys rfl
  have hread := hlast _ rfl rfl rfl
  have hnone := congrArg List.length (Except.ok.inj hread)
  revert hnone
  decide

end ShopingList
