import ShopingList.App.NewLists
import ShopingList.App.Screens
import ShopingList.App.World

/-!
# Names that no path can hold

`addNewList` writes `data.plist` before it saves the list, and the save of a name such as
`Dr. No` raises: it is no path string. The file keeps the list. From then on every process
of the device reads it, merges it and raises again in its merge block, for as long as the
user only looks at his lists (`stuck_run`); what other devices do meanwhile does not matter.
-/

namespace ShopingList

open FNode FValidation ListViewController

/-- The events of a process whose user only looks at his lists. -/
def Action.looks : Action → Bool
  | .launch _ | .openItems _ | .back | .refresh _ | .fire _ _ | .complete _ _ | .notify _ _ => true
  | _ => false

/-- What waits after a launch, before the merge block has run. -/
inductive Pending.OfSync : Pending → Prop where
  | readCallback (sync : Nat) (ref : List String) (snapshot : FNode) : OfSync (.readCallback sync ref snapshot)
  | mergeBlock (sync : Nat) : OfSync (.mergeBlock sync)

/-- The files hold a list of that name, for a signed-in user. -/
structure StuckFiles (text : String) (d : Device) : Prop where
  signedIn : d.currentUser.isSome = true
  user : ∃ u, d.files.userPlist = some u ∧ u.uid.isSome = true
  list : ∃ lists, d.files.dataPlist = some lists ∧ some text ∈ lists.map ListData.listName

/-- A process that has read the files and has not merged yet. -/
structure StuckProcess (text : String) (d : Device) : Prop where
  offline : some text ∈ names d.mem.offlineLST
  sync : ∀ p ∈ d.pending, p.OfSync
  merges : ∃ sync, .mergeBlock sync ∈ d.pending
  observers : d.observers = []

structure Stuck (text : String) (d : Device) : Prop where
  files : StuckFiles text d
  process : d.running = true → StuckProcess text d

section
variable {text : String} {s : Sys}

/-! ## The merge block -/

/-- What is offline is in the merge. -/
theorem mem_mergeOrder {online offline : List (Option String)} (h : some text ∈ offline) :
    some text ∈ mergeOrder online offline := by
  unfold mergeOrder
  by_cases hon : some text ∈ online
  · refine List.mem_append_right _ (List.mem_filter.2 ⟨hon, ?_⟩)
    exact List.any_eq_true.2 ⟨_, h, isEqualToString_iff.2 ⟨text, rfl, rfl⟩⟩
  · refine List.mem_append_left _ (List.mem_append_right _ (List.mem_filter.2 ⟨h, ?_⟩))
    rw [Bool.not_eq_true', List.any_eq_false]
    intro b hb heq
    obtain ⟨t, ht, rfl⟩ := isEqualToString_iff.1 heq
    cases ht
    exact hon hb

/-- A list of that name is not saved. -/
theorem save_illegal (hbad : isValidPathString (some text) = false) {currentUser : Option FIRUser}
    (hs : currentUser.isSome = true) {u : UserClass} {l : ShopingListsClass} (hl : l.listName = some text)
    {db db' : FNode} : SaveListOnCloud.save currentUser u l db ≠ .ok db' := by
  intro h
  obtain ⟨user, rfl⟩ := Option.isSome_iff_exists.1 hs
  rw [SaveListOnCloud.save, if_neg (by simp)] at h
  obtain ⟨value, -, h⟩ := Raising.bind_ok_iff.1 h
  obtain ⟨base, -, h⟩ := Raising.bind_ok_iff.1 h
  obtain ⟨ref, href, -⟩ := Raising.bind_ok_iff.1 h
  have hvalid := isValidPathString_of_child href
  rw [hl, hbad] at hvalid
  cases hvalid

/-- The block raises before it writes a file. -/
theorem mergeBlock_stops (hbad : isValidPathString (some text) = false) (hs : s.currentUser.isSome = true)
    (ho : some text ∈ names s.mem.offlineLST) (dates : DateAlloc) :
    ∃ m db, settle (mergeBlock dates s) = { s with mem := m, db := db, running := false } := by
  have hmem : some text ∈ names (merge dates s.mem).curLST := by
    rw [names_merge]
    exact mem_mergeOrder ho
  obtain ⟨l, hl, hname⟩ := List.mem_map.1 hmem
  cases hloop : Raising.loop (SaveListOnCloud.save s.currentUser (merge dates s.mem).curUser)
      ((elems (merge dates s.mem).curLST).map (·.withOwner (merge dates s.mem).curUser)) s.db with
  | ok db =>
    obtain ⟨x, y, hsave⟩ := Raising.ok_of_loop hloop _ (List.mem_map_of_mem hl)
    have hname' : (l.withOwner (merge dates s.mem).curUser).listName = some text := hname
    exact absurd hsave (save_illegal hbad hs hname')
  | error e =>
    obtain ⟨e, db⟩ := e
    obtain ⟨m, hsave⟩ := loop_saveOne_error (s := s.withMem (merge dates s.mem)) hloop
    refine ⟨m, db, ?_⟩
    rw [mergeBlock_eq, saveMerged, hsave]
    rfl

/-! ## Steps of the device -/

/-- A turn of a stuck device that leaves its process as it was, or stops it. -/
structure KeepsStuck (text : String) (d d' : Device) : Prop where
  stuck : Stuck text d'
  files : d'.files = d.files

theorem KeepsStuck.of_process {d d' : Device} (h : StuckFiles text d) (hf : d'.files = d.files)
    (hu : d'.currentUser = d.currentUser) (hp : d'.running = true → StuckProcess text d') :
    KeepsStuck text d d' := by
  refine ⟨⟨⟨?_, ?_, ?_⟩, hp⟩, hf⟩
  · rw [hu]
    exact h.signedIn
  · rw [hf]
    exact h.user
  · rw [hf]
    exact h.list

/-- A launch reads the list and waits for its merge block. -/
theorem stuck_launch (h : StuckFiles text s.toDevice) (now : Moment) :
    KeepsStuck text s.toDevice (step (.launch now) s).toDevice := by
  obtain ⟨u, hu, huid⟩ := h.user
  obtain ⟨lists, hlists, hname⟩ := h.list
  obtain ⟨user, huser⟩ := Option.isSome_iff_exists.1 h.signedIn
  let s₀ : Sys := { s with
    mem := AppData.init, running := true, rows := [], screen := none, pending := [], observers := [] }
  have hread : ¬ (ReadUserFromDisk.read s.files AppData.init).curUser.uid.isNone = true := by
    simp [ReadUserFromDisk.read, hu, UserClass.initWithCoder, Option.isNone_iff_eq_none,
      Option.ne_none_iff_isSome.2 huid]
  have hfiles : ∃ m, readFiles now s₀ = s₀.withMem m := ⟨_, if_neg hread⟩
  obtain ⟨m, hm⟩ := hfiles
  show KeepsStuck text _ (settle (Sys.reload <$> readData now s₀)).toDevice
  rw [readData, hm]
  have huser₀ : (s₀.withMem m).currentUser = some user := huser
  simp only [huser₀, beginSync]
  cases hc : child dataNode (some user.uid) with
  | error e => exact .of_process h rfl rfl fun hr => by cases hr
  | ok ref =>
    refine .of_process h rfl rfl fun _ => ⟨?_, ?_, ?_, rfl⟩
    · show some text ∈ names (ReadDataFromDisk.readData s.files m).offlineLST
      rw [ReadDataFromDisk.readData, hlists, names_eq_contents, contents, elems_some,
        ShopingListsClass.encode_decodeLists]
      exact hname
    · intro p hp
      have hmem : p ∈ [Pending.readCallback s.syncs ref (getChild ref s.db), .mergeBlock s.syncs] := hp
      simp only [List.mem_cons, List.not_mem_nil, or_false] at hmem
      rcases hmem with rfl | rfl
      · exact .readCallback _ _ _
      · exact .mergeBlock _
    · exact ⟨_, List.mem_append_right _ List.mem_cons_self⟩

/-- What runs next is the callback of the read, or the block that stops the process. -/
theorem stuck_fire (hbad : isValidPathString (some text) = false) (h : StuckFiles text s.toDevice)
    (hr : s.running = true) (hp : StuckProcess text s.toDevice) (k : Nat) (env : Env) :
    KeepsStuck text s.toDevice (step (.fire k env) s).toDevice := by
  rw [step_running hr, event]
  cases hk : s.pending[k]? with
  | none => exact .of_process h rfl rfl fun _ => hp
  | some p =>
    cases hp.sync p (List.mem_of_getElem? hk) with
    | readCallback sync ref snapshot =>
      show KeepsStuck text _ (settle ((s.without k).onMem (ReadDataFromCloud.callback env.order snapshot))).toDevice
      cases hm : ReadDataFromCloud.callback env.order snapshot (s.without k).mem with
      | error e =>
        rw [Sys.onMem, hm]
        exact .of_process h rfl rfl fun hr => by cases hr
      | ok m =>
        rw [Sys.onMem, hm]
        refine .of_process h rfl rfl fun _ => ⟨?_, ?_, ?_, hp.observers⟩
        · obtain rfl | ⟨lists, -, rfl⟩ := readCallback_ok hm <;> exact hp.offline
        · exact fun q hq => hp.sync q (List.mem_of_mem_eraseIdx hq)
        · obtain ⟨n, hn⟩ := hp.merges
          obtain ⟨i, hi⟩ := List.mem_iff_getElem?.1 hn
          refine ⟨n, List.mem_eraseIdx_iff_getElem?.2 ⟨i, ?_, hi⟩⟩
          rintro rfl
          rw [hk] at hi
          cases hi
    | mergeBlock sync =>
      obtain ⟨m, db, hstop⟩ := mergeBlock_stops (s := s.without k) hbad h.signedIn hp.offline env.dates
      show KeepsStuck text _ (settle (mergeBlock env.dates (s.without k))).toDevice
      rw [hstop]
      exact .of_process h rfl rfl fun hr => by cases hr

theorem Pending.OfSync.refresh {p : Pending} (h : p.OfSync) (db : FNode) : (p.refresh db).OfSync := by
  cases h with
  | readCallback sync ref snapshot => exact .readCallback _ _ _
  | mergeBlock sync => exact .mergeBlock _

theorem Pending.OfSync.complete {p : Pending} (h : p.OfSync) (user : Option FIRUser) (s : Sys) :
    p.complete user s = none := by
  cases h <;> rfl

/-- A new snapshot for the read. -/
theorem stuck_refresh (h : StuckFiles text s.toDevice) (hr : s.running = true)
    (hp : StuckProcess text s.toDevice) (k : Nat) :
    KeepsStuck text s.toDevice (step (.refresh k) s).toDevice := by
  rw [step_running hr, event]
  refine .of_process h rfl rfl fun _ => ⟨hp.offline, ?_, ?_, hp.observers⟩
  · intro p hq
    have hmodify : p ∈ s.pending.modify k (Pending.refresh s.db) := hq
    obtain ⟨i, hi⟩ := List.mem_iff_getElem?.1 hmodify
    rw [List.getElem?_modify] at hi
    obtain ⟨q, hmem, rfl⟩ := Option.map_eq_some_iff.1 hi
    have hq := hp.sync q (List.mem_of_getElem? hmem)
    split
    · exact hq.refresh s.db
    · exact hq
  · obtain ⟨n, hn⟩ := hp.merges
    obtain ⟨i, hi⟩ := List.mem_iff_getElem?.1 hn
    refine ⟨n, List.mem_iff_getElem?.2 ⟨i, ?_⟩⟩
    show (s.pending.modify k (Pending.refresh s.db))[i]? = _
    rw [List.getElem?_modify, hi]
    show some (if k = i then _ else _) = _
    split <;> rfl

/-- **One event of a user who only looks** leaves the device stuck, with its files as they were. -/
theorem stuck_step {a : Action} (hbad : isValidPathString (some text) = false) (h : Stuck text s.toDevice)
    (ha : a.looks = true) : KeepsStuck text s.toDevice (step a s).toDevice := by
  have hsame : KeepsStuck text s.toDevice s.toDevice := ⟨h, rfl⟩
  by_cases hl : ∃ now, a = .launch now
  · obtain ⟨now, rfl⟩ := hl
    exact stuck_launch h.files now
  cases hr : s.running with
  | false =>
    rw [step_stopped hr fun now e => hl ⟨now, e⟩]
    exact hsame
  | true =>
    have hp := h.process hr
    cases a with
    | launch now => exact absurd ⟨now, rfl⟩ hl
    | openItems row =>
      rw [step_running hr, event]
      split
      · show KeepsStuck text _ (settle (ListViewController.openItems row s)).toDevice
        unfold ListViewController.openItems
        split
        · exact .of_process h.files rfl rfl fun hr => by cases hr
        · exact .of_process h.files rfl rfl fun _ => ⟨hp.offline, hp.sync, hp.merges, hp.observers⟩
      · exact hsame
    | back =>
      rw [step_running hr, event]
      cases s.screen with
      | none => exact hsame
      | some screen =>
        exact .of_process h.files rfl rfl fun _ => ⟨hp.offline, hp.sync, hp.merges, hp.observers⟩
    | refresh k => exact stuck_refresh h.files hr hp k
    | fire k env => exact stuck_fire hbad h.files hr hp k env
    | complete k user =>
      rw [step_running hr, event]
      cases hk : s.pending[k]? with
      | none => exact hsame
      | some p =>
        have hnone := (hp.sync p (List.mem_of_getElem? hk)).complete user (s.without k)
        rw [Option.bind_some, hnone]
        exact hsame
    | notify k env =>
      have hnone : s.observers[k]? = none := by
        rw [hp.observers]
        rfl
      rw [step_running hr, event, hnone]
      exact hsame
    | _ => cases ha

/-- **The new list** is on disk when its save raises. -/
theorem stuck_newList (hbad : isValidPathString (some text) = false) (hk : ArrayKept s.mem s.files)
    (hr : s.running = true) (hsigned : s.currentUser.isSome = true) (hscreen : s.screen = none)
    (hne : text ≠ "") :
    (step (.newList text) s).running = false ∧ StuckFiles text (step (.newList text) s).toDevice := by
  let t := ((s.withMem (withNewList text s.mem)).reload).writeData
  have hraise : settle (addNewList text s) = { t with running := false } := by
    show settle (t.onCloud (SaveListOnCloud.save s.currentUser s.mem.curUser (newList text s.mem))) = _
    unfold Sys.onCloud
    cases hsave : SaveListOnCloud.save s.currentUser s.mem.curUser (newList text s.mem) t.db with
    | ok db => exact absurd hsave (save_illegal hbad hsigned rfl)
    | error e => rfl
  have hstep : step (.newList text) s = settle (addNewList text s) := by
    rw [step_running hr, event, if_pos ⟨by rw [hscreen]; rfl, hne⟩]
    rfl
  obtain ⟨-, lists, hlists, hmem⟩ := (addsList_iff text s).2 hk.current
  refine ⟨by rw [hstep, hraise], ⟨?_, ?_, lists, ?_, ?_⟩⟩
  · rw [hstep, hraise]
    exact hsigned
  · rw [hstep, hraise]
    exact hk.user
  · rw [hstep]
    exact hlists
  · exact List.mem_map.2 ⟨_, hmem, rfl⟩

end

/-! ## Runs of all devices -/

namespace World

variable {ι : Type} [DecidableEq ι] {c : ι}

theorem sys_step_self (a : Action) (w : World ι) : (w.step (c, a)).sys c = ShopingList.step a (w.sys c) := by
  show ({ Function.update w.client c (ShopingList.step a (w.sys c)).toDevice c with
    db := (ShopingList.step a (w.sys c)).db } : Sys) = _
  rw [Function.update_self]

theorem client_step_of_ne {x : ι × Action} (h : x.1 ≠ c) (w : World ι) : (w.step x).client c = w.client c := by
  show Function.update w.client x.1 _ c = w.client c
  exact Function.update_of_ne (Ne.symm h) _ _

theorem client_step_self (a : Action) (w : World ι) :
    (w.step (c, a)).client c = (ShopingList.step a (w.sys c)).toDevice := Function.update_self _ _ _

end World

section
variable {ι : Type} [DecidableEq ι] {c : ι} {text : String} {w : World ι}

/-- Whatever the devices do, the processes of `c` have a list table. -/
theorem arrayKept_world (before : List (ι × Action)) (hr : (w.client c).running = false)
    (hf : FilesPaired (w.client c).files) :
    Kept (fun m f _ => ArrayKept m f) FilesPaired ((Run.run World.step before w).sys c) := by
  refine Run.run_invariant (P := fun (w : World ι) => Kept (fun m f _ => ArrayKept m f) FilesPaired (w.sys c)) ?_ before
    ⟨hf, fun h => by rw [show (w.sys c).running = false from hr] at h; cases h⟩
  rintro ⟨b, a⟩ w h
  by_cases hb : b = c
  · subst hb
    rw [World.sys_step_self]
    exact arrayKept_step (e := .turn a) trivial h
  · have hsame := World.client_step_of_ne (x := (b, a)) hb w
    refine ⟨?_, ?_⟩
    · show FilesPaired ((w.step (b, a)).client c).files
      rw [hsame]
      exact h.1
    · show ((w.step (b, a)).client c).running = true → ArrayKept ((w.step (b, a)).client c).mem
        ((w.step (b, a)).client c).files
      rw [hsame]
      exact h.2

/-- **A device stays stuck** in every run in which its user only looks. -/
theorem stuck_world {after : List (ι × Action)} (hbad : isValidPathString (some text) = false)
    (hafter : ∀ x ∈ after, x.1 = c → x.2.looks = true) (h : Stuck text (w.client c)) :
    KeepsStuck text (w.client c) ((Run.run World.step after w).client c) := by
  induction after generalizing w with
  | nil => exact ⟨h, rfl⟩
  | cons x after ih =>
    have hone : KeepsStuck text (w.client c) ((w.step x).client c) := by
      obtain ⟨b, a⟩ := x
      by_cases hb : b = c
      · subst hb
        rw [World.client_step_self]
        exact stuck_step (s := w.sys b) hbad h (hafter _ List.mem_cons_self rfl)
      · rw [World.client_step_of_ne hb]
        exact ⟨h, rfl⟩
    have hrest := ih (fun y hy => hafter y (List.mem_cons_of_mem x hy)) hone.stuck
    exact ⟨hrest.stuck, hrest.files.trans hone.files⟩

/-- **A list whose name is no path string stops the app for good**: its process, and then every process
that is started as long as the user only looks, which never gets past its merge block. -/
theorem stuck_run (before after : List (ι × Action)) (hr : (w.client c).running = false)
    (hf : FilesPaired (w.client c).files)
    (hrun : ((Run.run World.step before w).client c).running = true)
    (hsigned : ((Run.run World.step before w).client c).currentUser.isSome = true)
    (hscreen : ((Run.run World.step before w).client c).screen = none) (hne : text ≠ "")
    (hbad : isValidPathString (some text) = false) (hafter : ∀ x ∈ after, x.1 = c → x.2.looks = true) :
    let w₁ := (Run.run World.step before w).step (c, .newList text)
    let w₂ := Run.run World.step after w₁
    (w₁.client c).running = false ∧ (w₂.client c).files = (w₁.client c).files ∧
      (∃ lists, (w₂.client c).files.dataPlist = some lists ∧ some text ∈ lists.map ListData.listName) ∧
      ((w₂.client c).running = true → (∃ sync, .mergeBlock sync ∈ (w₂.client c).pending) ∧
        ∀ k sync env, (w₂.client c).pending[k]? = some (.mergeBlock sync) →
          ((w₂.step (c, .fire k env)).client c).running = false) := by
  intro w₁ w₂
  have hkept := (arrayKept_world before hr hf).2 hrun
  obtain ⟨hstopped, hfiles⟩ := stuck_newList hbad hkept hrun hsigned hscreen hne
  rw [← World.client_step_self] at hfiles
  have hstopped₁ : (w₁.client c).running = false := by
    rw [World.client_step_self]
    exact hstopped
  have hstuck : Stuck text (w₁.client c) := ⟨hfiles, fun h => by rw [hstopped₁] at h; cases h⟩
  have hkeeps : KeepsStuck text (w₁.client c) (w₂.client c) := stuck_world hbad hafter hstuck
  refine ⟨hstopped₁, hkeeps.files, hkeeps.stuck.files.list, fun hrun₂ => ⟨(hkeeps.stuck.process hrun₂).merges, ?_⟩⟩
  intro k sync env hk
  have hpend : (w₂.sys c).pending[k]? = some (.mergeBlock sync) := hk
  have hrun₃ : (w₂.sys c).running = true := hrun₂
  obtain ⟨m, db, hstop⟩ := mergeBlock_stops (s := (w₂.sys c).without k) hbad hkeeps.stuck.files.signedIn
    (hkeeps.stuck.process hrun₂).offline env.dates
  have hfire : ShopingList.step (.fire k env) (w₂.sys c) = settle (mergeBlock env.dates ((w₂.sys c).without k)) := by
    rw [step_running hrun₃, event, hpend]
    rfl
  rw [World.client_step_self, hfire, hstop]

end

/-! ## A list of Ann -/

theorem stuck_run_drNo :
    let w₁ := (Run.run World.step [(true, .launch annEnv.now)] (annWorld [] [])).step (true, .newList "Dr. No")
    let w₂ := Run.run World.step [(true, .launch annEnv.now), (false, .launch annEnv.now), (true, .fire 0 annEnv)] w₁
    (w₁.client true).running = false ∧ (w₂.client true).running = true ∧
      ((w₂.step (true, .fire 0 annEnv)).client true).running = false := by
  intro w₁ w₂
  have hbad : isValidPathString (some "Dr. No") = false := by decide
  have hrunning : (w₂.client true).running = true := by decide
  have hmerge : (w₂.client true).pending[0]? = some (.mergeBlock 1) := rfl
  obtain ⟨hstopped, -, -, hagain⟩ := stuck_run (w := annWorld [] []) (c := true) [(true, .launch annEnv.now)]
    [(true, .launch annEnv.now), (false, .launch annEnv.now), (true, .fire 0 annEnv)] rfl (fun _ => rfl)
    (by decide) (by decide) (by decide) (by decide) hbad (by decide)
  exact ⟨hstopped, hrunning, (hagain hrunning).2 0 1 annEnv hmerge⟩

end ShopingList
