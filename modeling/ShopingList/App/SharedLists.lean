import ShopingList.App.Calls
import ShopingList.App.Invited
import ShopingList.App.TwoFiles

/-!
# Shared lists keep their owners

What every turn keeps of invited lists (`HandsKept`), and what a turn stores and
saves. `keepsHands_run` concludes that no loop saves an invited list, and that no
write stores one, in the runs whose blocks find none where they take every list for the
user's own.
-/

namespace ShopingList

open Addresses ListViewController FNode

/-! ## Files -/

/-- `data.plist` is as before, or holds lists of which none is invited. -/
def Stores (f : Files) (m' : AppData) (f' : Files) : Prop :=
  f'.dataPlist = f.dataPlist ∨
    f'.dataPlist = some (contents m'.offlineLST) ∧ ∀ l ∈ elems m'.offlineLST, ¬ Invited m' l

/-- The current user is the one of `user.plist`. -/
def SameUser (m : AppData) (f : Files) : Prop :=
  ∃ uid, m.curUser.uidText = some uid ∧ f.userPlist.bind UserData.uid = some uid

/-- What a running process keeps. -/
structure HandsKept (R : UserClass → Prop) (m : AppData) (f : Files) (o : List Observer) : Prop where
  strings : Strings m o
  arrays : Arrays m o
  hands : Hands R m o
  user : SameUser m f

section
variable {R R' : UserClass → Prop} {m m' : AppData} {f f' : Files} {o : List Observer} {now : Moment}

theorem SameUser.isSome (h : SameUser m f) : m.curUser.uid.isSome = true := by
  obtain ⟨uid, hu, -⟩ := h
  obtain ⟨t, ht, -⟩ := Option.map_eq_some_iff.1 hu
  rw [ht]
  rfl

theorem SameUser.stored (h : SameUser m f) : ∃ u, f.userPlist = some u ∧ u.uid.isSome = true := by
  obtain ⟨uid, -, hf⟩ := h
  obtain ⟨u, hu, huid⟩ := Option.bind_eq_some_iff.1 hf
  exact ⟨u, hu, huid ▸ rfl⟩

theorem SameUser.congr (h : SameUser m f) (hc : m'.curUser = m.curUser) : SameUser m' f := by
  unfold SameUser
  rw [hc]
  exact h

/-- `readData` for a stored user. -/
theorem SameUser.readsData (hp : ∃ u, f.userPlist = some u ∧ u.uid.isSome = true) (hr : ReadsData now f m m' f') :
    SameUser m' f' := by
  obtain ⟨u, hu, huid⟩ := hp
  have hone : SameUser (readDisk now f m).1 f := by
    obtain ⟨uid, huid⟩ := Option.isSome_iff_exists.1 huid
    rw [readDisk_stored hu (huid ▸ rfl)]
    refine ⟨uid, ?_, by rw [hu]; exact huid⟩
    rw [uidText_readDisk]
    simp only [ReadUserFromDisk.read, hu, UserClass.uidText_init]
    exact huid
  rw [files_readsData hu huid hr]
  cases hr with
  | once => exact hone
  | twice => exact hone.congr (uidText_readDisk _ _)

/-- A launch stores the default user if there is none. -/
theorem SameUser.launch (hr : ReadsData now f AppData.init m' f') : SameUser m' f' := by
  by_cases hp : ∃ u, f.userPlist = some u ∧ u.uid.isSome = true
  · exact SameUser.readsData hp hr
  have hone : SameUser (readDisk now f AppData.init).1 (readDisk now f AppData.init).2 := by
    simp only [readDisk, if_pos (readUser_none hp)]
    exact ⟨"defUid", rfl, rfl⟩
  cases hr with
  | once => exact hone
  | twice => exact hone.congr (uidText_readDisk _ _)

theorem SameUser.writes (hw : Writes m f m' f') (h : SameUser m f) : SameUser m' f' := by
  cases hw
  exact h

/-- **The current user stays the stored one.** -/
theorem sameUser_outcome {s : Sys} {a : Action} (h : SameUser s.mem s.files) (hne : ∀ now, a ≠ .launch now)
    (ho : Outcome s a m f o) : SameUser m f := by
  cases ho with
  | same => exact h
  | launch hr => exact absurd rfl (hne _)
  | login hr => exact .readsData h.stored hr
  | newList hw => exact SameUser.writes hw h
  | deleteOwn hl hown hw => exact SameUser.writes hw h
  | reject hl hown => exact h
  | write hw => exact SameUser.writes hw h
  | addItem hl hw => exact SameUser.writes hw h
  | toggleItem hl hi hw => exact SameUser.writes hw h
  | deleteItem hl hi hw => exact SameUser.writes hw h
  | readCallback hk hm => exact h.congr (curUser_readCallback hm)
  | mergeBlock hk hw => exact SameUser.writes hw h
  | fetched hk hw =>
    have hmerged := SameUser.writes hw h
    exact hmerged
  | coordsCallback hk hm => exact h.congr (curUser_coordsCallback hm)
  | appendBlock hk => exact h
  | loginBlock hk hr =>
    refine .readsData ?_ hr
    exact ⟨_, rfl, rfl⟩
  | registerBlock hk => exact ⟨_, rfl, rfl⟩
  | notify hk hm => exact h.congr (curUser_fetchBlock hm)

/-- A write stores the lists with the uid object of the current user. -/
theorem stores_writes (h : Hands R m o) (hw : Writes m f m' f') : Stores f m' f' := by
  cases hw
  refine .inr ⟨rfl, fun l hl hi => ?_⟩
  obtain ⟨hmem, hp⟩ := List.mem_filter.1 hl
  have hother := (h.invited l (AppData.mem_lists_curLST hmem) ((grows_collect m).invited l hi)).1
  rw [Other, samePointer, beq_eq_false_iff_ne] at hother
  exact hother (by simpa [samePointer] using (beq_iff_eq.1 hp).symm)

theorem hands_writes (h : Hands R m o) (hw : Writes m f m' f') : Hands R m' o := by
  cases hw
  exact h.grow (grows_collect m) fun ob hob => .inl hob

theorem HandsKept.writes (hs : Strings m o) (ha : Arrays m o) (h : Hands R m o) (hu : SameUser m f)
    (hw : Writes m f m' f') : HandsKept R m' f' o ∧ Stores f m' f' := by
  exact ⟨⟨strings_writes hs hw, arrays_writes ha hw, hands_writes h hw, SameUser.writes hw hu⟩, stores_writes h hw⟩

/-- `readData` for a stored user. -/
theorem HandsKept.readsData (hs : Strings m o) (ha : Arrays m o) (h : Hands R m o)
    (hp : ∃ u, f.userPlist = some u ∧ u.uid.isSome = true) (hr : ReadsData now f m m' f') :
    HandsKept R m' f' o ∧ Stores f m' f' := by
  have huser := SameUser.readsData hp hr
  obtain ⟨u, hu, huid⟩ := hp
  have hf := files_readsData hu huid hr
  have hold : ∀ ob ∈ o, ob ∈ o ∨ ob.coords ∈ (ReadUserFromDisk.read f m).invitationsCoords := fun ob hob => .inl hob
  have hread := grows_readDisk f (ReadUserFromDisk.read f m)
  have hone : Hands R (readDisk now f m).1 o := by
    rw [readDisk_stored hu huid]
    exact (hands_readUser h hs hu huid).grow (hread.trans (grows_own _)) hold
  refine ⟨⟨strings_readsData hs hr, arrays_readsData ha hr, ?_, huser⟩, .inl (by rw [hf])⟩
  cases hr with
  | once => exact hone
  | twice => exact hone.grow (grows_readDisk _ _) fun ob hob => .inl hob

/-- Nothing is invited in a new process. -/
theorem not_invited_init {u : UserClass} {n : Nat} (l : ShopingListsClass) :
    ¬ Invited { AppData.init with curUser := u, next := n } l := by
  rintro ⟨x, hx, -⟩
  cases hx

theorem hands_init {u : UserClass} {n : Nat} : Hands R { AppData.init with curUser := u, next := n } [] := by
  refine ⟨fun l hl => ?_, fun l _ hi => absurd hi (not_invited_init l), fun l _ => not_invited_init l,
    fun c hc => ?_, fun ob hob => ?_⟩
  · cases hl
  · cases hc
  · cases hob

theorem HandsKept.launch (hr : ReadsData now f AppData.init m' f') : HandsKept R m' f' [] ∧ Stores f m' f' := by
  by_cases hp : ∃ u, f.userPlist = some u ∧ u.uid.isSome = true
  · exact HandsKept.readsData strings_init arrays_init hands_init hp hr
  have hif := readUser_none hp
  obtain ⟨user, n, he⟩ := readUser_eq f AppData.init
  -- the default user and the sample list
  let base : AppData := { ReadUserFromDisk.read f AppData.init with curUser := defaultUser }
  have harrays : Arrays base [] := (arrays_readUser arrays_init f).other (Nat.le_refl _)
  have hbase : Hands R base [] ∧ ∀ l, ¬ Invited base l := by
    show Hands R { ReadUserFromDisk.read f AppData.init with curUser := defaultUser } [] ∧
      ∀ l, ¬ Invited { ReadUserFromDisk.read f AppData.init with curUser := defaultUser } l
    rw [he]
    exact ⟨hands_init, not_invited_init⟩
  have hgrows : Grows base (readDisk now f AppData.init).1 := by
    simp only [readDisk, if_pos hif]
    exact (grows_prepare harrays now).trans (grows_collect _)
  have hdisk : (readDisk now f AppData.init).2.dataPlist =
      some (contents (readDisk now f AppData.init).1.offlineLST) := by
    simp only [readDisk, if_pos hif]
    rfl
  have hkept : HandsKept R (readDisk now f AppData.init).1 (readDisk now f AppData.init).2 [] := by
    exact ⟨strings_readDiskFiles strings_init now f, arrays_readDiskFiles arrays_init now f,
      hbase.1.grow hgrows fun ob hob => .inl hob, SameUser.launch .once⟩
  cases hr with
  | once => exact ⟨hkept, .inr ⟨hdisk, fun l _ hi => hbase.2 l (hgrows.invited l hi)⟩⟩
  | twice =>
    have hread := grows_readDisk (readDisk now f AppData.init).2 (readDisk now f AppData.init).1
    refine ⟨⟨strings_readDisk hkept.strings _, arrays_readDisk hkept.arrays _,
      hkept.hands.grow hread fun ob hob => .inl hob, hkept.user.congr (uidText_readDisk _ _)⟩,
      .inr ⟨?_, fun l _ hi => ?_⟩⟩
    · simp only [ReadDataFromDisk.readData, hdisk, contents, elems_some, ShopingListsClass.encode_decodeLists]
    · exact hbase.2 l (hgrows.invited l (hread.invited l hi))

end

/-! ## Steps and runs -/

/-- The lists that a block takes for the user's own: a merge block gives those of `offlineLST` to
the current user, the block of a registration saves those of `curLST`. -/
def takenAsOwn (s : Sys) : Pending → List ShopingListsClass
  | .mergeBlock _ => elems s.mem.offlineLST
  | .registerBlock _ _ _ => if s.currentUser.isSome then elems s.mem.curLST else []
  | _ => []

/-- A block that runs takes no invited list for the user's own. -/
def SparesInvited (a : Action) (s : Sys) : Prop :=
  s.running = true →
    match a with
    | .fire k _ => ∀ p ∈ s.pending[k]?, ∀ l ∈ takenAsOwn s p, ¬ Invited s.mem l
    | _ => True

instance (a : Action) (s : Sys) : Decidable (SparesInvited a s) :=
  match a with
  | .fire k _ => inferInstanceAs (Decidable (_ → ∀ p ∈ s.pending[k]?, ∀ l ∈ takenAsOwn s p, ¬ Invited s.mem l))
  | .launch _ | .newList _ | .deleteList _ | .openItems _ | .back | .addItem _ _ | .toggleItem _ _
  | .deleteItem _ | .login _ | .register _ _ | .logout | .refresh _ | .complete _ _ | .notify _ _ =>
    .isTrue fun _ => trivial

/-- The lists that an action saves with `SaveListOnCloud`. -/
def savedBy (a : Action) (s : Sys) : List ShopingListsClass :=
  (cloudCalls a s).filterMap fun c =>
    match c with
    | .save _ _ inpList => some inpList
    | _ => none

/-- An invited list is not saved, not stored, and keeps an owner who is not the current user. -/
structure KeepsHands (a : Action) (s : Sys) : Prop where
  saves : s.currentUser.isSome = true → ∀ l ∈ savedBy a s, ¬ Invited s.mem l
  stores : Stores s.files (step a s).mem (step a s).files
  owner : (step a s).running = true → ∀ l ∈ (step a s).mem.lists, Invited (step a s).mem l →
    Other (step a s).mem l.listOwner

/-- The merge blocks find no invited list in `offlineLST`. -/
def MergesOwn (a : Action) (s : Sys) : Prop :=
  ∀ k env n, a = .fire k env → s.pending[k]? = some (.mergeBlock n) → ∀ l ∈ elems s.mem.offlineLST, ¬ Invited s.mem l

/-- The owners in the invitations that a callback reads satisfy `R`. -/
def ReadsOwners (R : UserClass → Prop) (a : Action) (s : Sys) : Prop :=
  ∀ k env ref snapshot m, a = .fire k env → s.pending[k]? = some (.coordsCallback ref snapshot) →
    ReadInvitations.callback env.order snapshot s.mem = .ok m → s.mem.next < m.next →
      ∀ c ∈ m.invitationsCoords, R c.listOwner

/-- **What an outcome keeps.** -/
theorem handsKept_outcome {R R' : UserClass → Prop} {s : Sys} {a : Action} {m : AppData} {f : Files}
    {o : List Observer} (h : HandsKept R s.mem s.files s.observers) (hmerge : MergesOwn a s)
    (hR : ∀ u, R u → R' u) (hreads : ReadsOwners R' a s) (hne : ∀ now, a ≠ .launch now)
    (ho : Outcome s a m f o) : HandsKept R' m f o ∧ Stores s.files m f := by
  obtain ⟨hs, ha, hh, hu⟩ := h
  have hh := hh.imp hR
  have hstrings := strings_outcome hs ho
  have harrays := arrays_outcome ha ho
  have huser := sameUser_outcome hu hne ho
  have hsame : Hands R' m o → f.dataPlist = s.files.dataPlist → HandsKept R' m f o ∧ Stores s.files m f :=
    fun hh' hd => ⟨⟨hstrings, harrays, hh', huser⟩, .inl hd⟩
  have hgrow : ∀ {m' : AppData}, Grows s.mem m' → Hands R' m' s.observers := fun hg =>
    hh.grow hg fun ob hob => .inl hob
  cases ho with
  | same => exact hsame hh rfl
  | launch hr => exact absurd rfl (hne _)
  | login hread => exact HandsKept.readsData hs ha hh hu.stored hread
  | newList hw =>
    exact HandsKept.writes (strings_newList hs _) (arrays_newList ha _) (hgrow (grows_newList ha _)) hu hw
  | deleteOwn hl hown hw =>
    exact HandsKept.writes (strings_removeObject hs _ _) (ha.updateArray _ _) (hgrow (grows_removeObject ha _)) hu hw
  | reject hl hown => exact hsame (hgrow (grows_removeObject ha _)) rfl
  | write hw => exact HandsKept.writes hs ha hh hu hw
  | addItem hl hw =>
    exact HandsKept.writes (strings_newItem hs _ _ _) (arrays_newItem ha _ _ _)
      (hgrow (grows_assignList _ _ (Nat.le_succ _))) hu hw
  | toggleItem hl hi hw =>
    exact HandsKept.writes (strings_assignItem hs _ _) (ha.mapLists _)
      (hgrow (grows_mapLists (Nat.le_refl _) (by intro x; rfl) (by intro x; rfl))) hu hw
  | deleteItem hl hi hw =>
    exact HandsKept.writes (strings_assignList hs _ _) (ha.mapLists _)
      (hgrow (grows_assignList _ _ (Nat.le_refl _))) hu hw
  | readCallback hk hm => exact hsame (hgrow (grows_readCallback hm)) rfl
  | mergeBlock hk hw =>
    exact HandsKept.writes (strings_ownedMerge hs _) (arrays_ownedMerge ha _)
      (hands_ownedMerge hh ha (hmerge _ _ _ rfl hk) _) hu hw
  | fetched hk hw =>
    obtain ⟨hkept, hstores⟩ := HandsKept.writes (strings_ownedMerge hs _) (arrays_ownedMerge ha _)
      (hands_ownedMerge hh ha (hmerge _ _ _ rfl hk) _) hu hw
    refine ⟨⟨hstrings, harrays, hkept.hands.grow (grows_fetched _) fun ob hob => ?_, hkept.user⟩, ?_⟩
    · rcases List.mem_append.1 hob with hob | hob
      · exact .inl hob
      · obtain ⟨c, hc, rfl⟩ := List.mem_map.1 hob
        exact .inr hc
    · exact hstores.imp id fun h => ⟨h.1, fun l hl hi => h.2 l hl ((grows_fetched _).invited l hi)⟩
  | coordsCallback hk hm =>
    exact hsame (hands_coordsCallback hh hs hu.isSome hm (hreads _ _ _ _ _ rfl hk hm)) rfl
  | appendBlock hk => exact hsame (hgrow (grows_append ha)) rfl
  | loginBlock hk hread =>
    obtain ⟨hkept, hstores⟩ := HandsKept.readsData (f := WriteUserToDisk.write _ s.files)
      (strings_setWithName hs _ _ _) (arrays_setWithName ha _ _ _) (hands_setWithName hh hs _ _ _)
      ⟨_, rfl, rfl⟩ hread
    exact ⟨hkept, hstores⟩
  | registerBlock hk => exact hsame (hands_setWithName hh hs _ _ _) rfl
  | notify hk hm =>
    exact hsame (hands_notify hh ha (List.mem_of_getElem? hk) hm) rfl

theorem handsKept_step {R R' : UserClass → Prop} {s : Sys} {a : Action}
    (hs : Kept (HandsKept R) (fun _ => True) s) (hmerge : s.running = true → MergesOwn a s)
    (hR : (∀ now, a ≠ .launch now) → ∀ u, R u → R' u) (hreads : s.running = true → ReadsOwners R' a s) :
    Kept (HandsKept R') (fun _ => True) (step a s) :=
  hs.step (fun _ _ _ _ => trivial) (fun _ _ _ _ hread => (HandsKept.launch hread).1)
    (fun hr hne h _ _ _ ho => (handsKept_outcome h (hmerge hr) (hR hne) (hreads hr) hne ho).1)

theorem mergesOwn_of_spares {s : Sys} {a : Action} (hc : SparesInvited a s) (hr : s.running = true) :
    MergesOwn a s := by
  rintro k env n rfl hk
  exact hc hr _ hk

theorem stores_step {s : Sys} {a : Action} (hs : Kept (HandsKept fun _ => True) (fun _ => True) s)
    (hc : SparesInvited a s) : Stores s.files (step a s).mem (step a s).files := by
  by_cases hl : ∃ now, a = .launch now
  · obtain ⟨now, rfl⟩ := hl
    exact (HandsKept.launch (R := fun _ => True) (launch_data now s).1).2
  · have hne : ∀ now, a ≠ .launch now := fun now e => hl ⟨now, e⟩
    cases hr : s.running with
    | false =>
      rw [step_stopped hr hne]
      exact .inl rfl
    | true =>
      refine step_cases (P := fun t => Stores s.files t.mem t.files) (.inl rfl) fun t ht => ?_
      rcases event_outcome ht with ho | ⟨-, hf⟩
      · have hkept : HandsKept (fun _ => True) (settle t).mem (settle t).files (settle t).observers ∧
            Stores s.files (settle t).mem (settle t).files :=
          handsKept_outcome (hs.2 hr) (mergesOwn_of_spares hc hr) (fun _ _ => trivial)
            (fun _ _ _ _ _ _ _ _ _ _ _ => trivial) hne ho
        exact hkept.2
      · exact .inl (by rw [hf])

/-- The lists of a loop of saves. -/
theorem mem_savedBy_loop {s : Sys} {curUser : UserClass} {ls : List ShopingListsClass} {l : ShopingListsClass}
    (h : l ∈ (saveCalls s curUser ls).filterMap fun c =>
      match c with
      | .save _ _ inpList => some inpList
      | _ => none) : l ∈ ls := by
  obtain ⟨c, hc, he⟩ := List.mem_filterMap.1 h
  obtain ⟨x, hx, rfl⟩ := List.mem_map.1 hc
  cases he
  exact hx

/-- **No loop saves an invited list.** -/
theorem not_invited_savedBy {s : Sys} {a : Action} {l : ShopingListsClass} {R : UserClass → Prop}
    (h : Hands R s.mem s.observers) (hr : s.running = true) (hc : SparesInvited a s)
    (huser : s.currentUser.isSome = true)
    (hl : l ∈ savedBy a s) : ¬ Invited s.mem l := by
  have hc := hc hr
  simp only [savedBy, cloudCalls, if_pos hr] at hl
  cases a with
  | newList text =>
    simp only at hl
    split at hl
    · rw [List.mem_singleton.1 hl]
      exact h.not_invited (Nat.le_refl _)
    · cases hl
  | fire k env =>
    simp only at hl hc
    split at hl
    · rename_i n hk
      have hc := hc _ hk
      obtain ⟨x, hx, rfl⟩ := List.mem_map.1 (mem_savedBy_loop hl)
      show ¬ Invited s.mem x
      exact not_invited_merge h hc _ hx
    · rename_i n e user hk
      have hc := hc _ hk
      rw [takenAsOwn, if_pos huser] at hc
      have hmem := mem_savedBy_loop hl
      simp only [SetTheUser.setWithName, AppData.mapLists_curLST] at hmem
      obtain ⟨x, hx, rfl⟩ := List.mem_map.1 hmem
      rintro ⟨y, hy, he⟩
      refine hc x hx ⟨y, hy, he.trans ?_⟩
      split <;> rfl
    · cases hl
  | deleteList row =>
    obtain ⟨c, hmem, he⟩ := List.mem_filterMap.1 hl
    simp only at hmem
    split at hmem
    · split at hmem
      · split at hmem
        · rw [List.mem_singleton.1 hmem] at he
          cases he
        · cases hmem
      · cases hmem
    · cases hmem
  | addItem text now =>
    obtain ⟨c, hmem, he⟩ := List.mem_filterMap.1 hl
    simp only at hmem
    split at hmem
    · obtain ⟨x, -, rfl⟩ := List.mem_map.1 hmem
      cases he
    · cases hmem
  | toggleItem row now =>
    obtain ⟨c, hmem, he⟩ := List.mem_filterMap.1 hl
    obtain ⟨x, -, hmem⟩ := List.mem_flatMap.1 hmem
    obtain ⟨i, -, rfl⟩ := List.mem_map.1 hmem
    cases he
  | deleteItem row =>
    obtain ⟨c, hmem, he⟩ := List.mem_filterMap.1 hl
    obtain ⟨x, -, hmem⟩ := List.mem_flatMap.1 hmem
    obtain ⟨i, -, rfl⟩ := List.mem_map.1 hmem
    cases he
  | _ => cases hl

theorem keepsHands_step {s : Sys} {a : Action} (hc : SparesInvited a s)
    (hs : Kept (HandsKept fun _ => True) (fun _ => True) s) :
    Kept (HandsKept fun _ => True) (fun _ => True) (step a s) :=
  handsKept_step hs (mergesOwn_of_spares hc) (fun _ _ _ => trivial) fun _ _ _ _ _ _ _ _ _ _ _ _ => trivial

theorem keepsHands {s : Sys} {a : Action} (hc : SparesInvited a s)
    (hs : Kept (HandsKept fun _ => True) (fun _ => True) s) : KeepsHands a s := by
  refine ⟨fun huser l hl => ?_, stores_step hs hc,
    fun hr l hl hi => (((keepsHands_step hc hs).2 hr).hands.invited l hl hi).1⟩
  cases hr : s.running with
  | false =>
    have hnone : savedBy a s = [] := by simp [savedBy, cloudCalls, hr]
    rw [hnone] at hl
    cases hl
  | true => exact not_invited_savedBy (hs.2 hr).hands hr hc huser hl

/-- **Invited lists never change hands** in a run whose blocks find none where they take
every list for the user's own. -/
theorem keepsHands_run {s : Sys} (as : List Action) (hr : s.running = false)
    (hc : Run.Along step SparesInvited as s) : Run.Along step KeepsHands as s :=
  Run.along_of_invariant (P := Kept (HandsKept fun _ => True) fun _ => True)
    (fun _ _ hc hs => keepsHands_step hc hs) (fun _ _ hc hs => keepsHands hc hs) hc
    ⟨trivial, fun h => by rw [hr] at h; cases h⟩

/-! ## An invitation to Ann -/

def bobData : UserData := ⟨some "Bob", some "bob@mail", some "u2"⟩

/-- Bob's list in the cloud, and his invitation to Ann. -/
def partyDb : FNode := .children [
  ("Data", .children [("u2", cloudNode [⟨some "Party", bobData, annItems ["Cake"]⟩])]),
  ("Users", .children [("u1", .children [("invitations", .children [("u2|Party", .children
    [("ListOwner", .leaf "Bob"), ("email", .leaf "bob@mail"), ("listName", .leaf "Party"), ("uid", .leaf "u2")])])])])]

/-- Ann's device before its launch. -/
def partySys : Sys := { annSys partyDb [⟨some "Tools", annData, annItems ["Saw"]⟩] with running := false }

/-- The second sync of the process fetches the invitation that the first one has read; the block
of the first one appends the list. -/
def partyLoads : List Action :=
  [.launch annEnv.now, .fire 1 annEnv, .fire 1 annEnv, .login annEnv.now, .fire 3 annEnv, .notify 0 annEnv,
    .fire 1 annEnv]

theorem keepsHands_run_party : Run.Along step KeepsHands
    (partyLoads ++ [.openItems 1, .addItem "Salt" annEnv.now]) partySys :=
  keepsHands_run _ rfl (by decide)

/-- Ann signs out, and Carl signs up on the device: the list of Bob is saved as Carl's. -/
def carlSignsUp : List Action :=
  [.logout, .register "Carl" "carl@mail", .complete 5 (some ⟨"u3", some "carl@mail", none⟩),
    .complete 5 (some ⟨"u3", some "carl@mail", none⟩)]

theorem not_keepsHands_run : ¬ ∀ (s : Sys) (as : List Action), s.running = false →
    Run.Along step KeepsHands as s := by
  intro h
  have hrun := h partySys (partyLoads ++ carlSignsUp ++ [.fire 5 annEnv]) rfl
  obtain ⟨-, hkeeps, -⟩ := Run.along_append.1 hrun
  have hsaved := hkeeps.saves (by decide)
  revert hsaved
  decide

end ShopingList
