import ShopingList.App.TwoFiles

/-!
# New lists and processes that are killed

A turn writes `user.plist` before `data.plist`, and the process may be killed in between
(`KillAction`). `addNewList` sends `addObject:` to `curLST`, which is nil after a launch that finds
the one file without the other: `addsList_iff` says when the new list is stored, and
`addsList_run` in which runs it always is.
-/

namespace ShopingList

open ListViewController

/-- What happens to a device whose process may be killed. -/
inductive KillAction where
  | turn (a : Action)
  /-- The process is killed in the turn of `a`, after its write of `user.plist` and before that of
  `data.plist`; it may have written the database. -/
  | killed (a : Action) (db : FNode)

def killStep (e : KillAction) (s : Sys) : Sys :=
  match e with
  | .turn a => step a s
  | .killed a db => { s with
      files := ⟨(step a s).files.userPlist, s.files.dataPlist⟩
      running := false
      db := db }

/-- The list that `addNewList` makes. -/
def newList (text : String) (m : AppData) : ShopingListsClass := ⟨m.next, some text, m.curUser, []⟩

/-- The new list is the last one of `curLST`, and is in `data.plist`. -/
def AddsList (text : String) (s : Sys) : Prop :=
  (elems (settle (addNewList text s)).mem.curLST).getLast? = some (newList text s.mem) ∧
    ∃ lists ∈ (settle (addNewList text s)).files.dataPlist, (newList text s.mem).encodeWithCoder ∈ lists

instance (text : String) (s : Sys) : Decidable (AddsList text s) :=
  inferInstanceAs (Decidable (_ ∧ ∃ lists ∈ _, _))

/-- **A new list is stored** unless `curLST` is nil. -/
theorem addsList_iff (text : String) (s : Sys) : AddsList text s ↔ s.mem.curLST.isSome = true := by
  let t := (s.withMem (withNewList text s.mem)).reload
  have hsettle : settle (addNewList text s) =
      settle (t.writeData.onCloud (SaveListOnCloud.save s.currentUser s.mem.curUser (newList text s.mem))) := rfl
  have hcur : elems (settle (addNewList text s)).mem.curLST =
      if s.mem.curLST.isSome then elems s.mem.curLST ++ [newList text s.mem] else [] := by
    rw [hsettle, onCloud_mem]
    exact elems_updateArray_self s.mem (· ++ [newList text s.mem])
  constructor
  · rintro ⟨hlast, -⟩
    by_contra hnone
    rw [hcur, if_neg hnone] at hlast
    cases hlast
  · intro hsome
    rw [if_pos hsome] at hcur
    refine ⟨by rw [hcur, List.getLast?_concat],
      (WriteDataToDisk.ownLists t.mem).map (·.encodeWithCoder), ?_, List.mem_map_of_mem ?_⟩
    · rw [hsettle, onCloud_files]
      rfl
    · have hown : t.mem.curLST = (settle (addNewList text s)).mem.curLST := by
        rw [hsettle, onCloud_mem]
        rfl
      refine List.mem_filter.2 ⟨?_, ?_⟩
      · rw [hown, hcur]
        exact List.mem_append_right _ List.mem_cons_self
      · exact beq_self_eq_true _

/-! ## Files that are there -/

/-- A stored user comes with stored lists. -/
def FilesPaired (f : Files) : Prop :=
  (∃ u, f.userPlist = some u ∧ u.uid.isSome = true) → f.dataPlist.isSome = true

/-- A running process has both files, and an array. -/
structure ArrayKept (m : AppData) (f : Files) : Prop where
  user : ∃ u, f.userPlist = some u ∧ u.uid.isSome = true
  data : f.dataPlist.isSome = true
  current : m.curLST.isSome = true

section
variable {now : Moment} {m m' : AppData} {f f' : Files}

theorem ArrayKept.writes (h : ArrayKept m f) (hc : m'.curLST.isSome = true) {m₁ : AppData} {f₁ : Files}
    (hw : Writes m' f m₁ f₁) : ArrayKept m₁ f₁ := by
  cases hw
  exact ⟨h.user, rfl, hc⟩

theorem ArrayKept.congr (h : ArrayKept m f) (hc : m'.curLST.isSome = true) : ArrayKept m' f := ⟨h.user, h.data, hc⟩

theorem isSome_readDisk (hd : f.dataPlist.isSome = true) :
    (ReadDataFromDisk.readData f m).offlineLST.isSome = true := by
  obtain ⟨lists, hlists⟩ := Option.isSome_iff_exists.1 hd
  rw [ReadDataFromDisk.readData, hlists]
  rfl

theorem curLST_readDisk : (ReadDataFromDisk.readData f m).curLST = m.curLST := by
  unfold ReadDataFromDisk.readData
  split <;> rfl

/-- `readData` with both files. -/
theorem ArrayKept.readsData (hu : ∃ u, f.userPlist = some u ∧ u.uid.isSome = true)
    (hd : f.dataPlist.isSome = true) (hr : ReadsData now f m m' f') : ArrayKept m' f' := by
  obtain ⟨u, hplist, huid⟩ := hu
  have hf := files_readsData hplist huid hr
  have hone : (readDisk now f m).1.curLST.isSome = true := by
    rw [readDisk_stored hplist huid]
    exact isSome_readDisk hd
  rw [hf]
  refine ⟨⟨u, hplist, huid⟩, hd, ?_⟩
  cases hr with
  | once => exact hone
  | twice =>
    rw [curLST_readDisk]
    exact hone

/-- The first launch writes both files. -/
theorem ArrayKept.launch (hp : FilesPaired f) (hr : ReadsData now f AppData.init m' f') : ArrayKept m' f' := by
  by_cases hu : ∃ u, f.userPlist = some u ∧ u.uid.isSome = true
  · exact ArrayKept.readsData hu (hp hu) hr
  have hif := readUser_none hu
  obtain ⟨user, n, he⟩ := readUser_eq f AppData.init
  have hfirst : ArrayKept (readDisk now f AppData.init).1 (readDisk now f AppData.init).2 := by
    simp only [readDisk, if_pos hif]
    refine ⟨⟨_, rfl, rfl⟩, rfl, ?_⟩
    show ((ReadUserFromDisk.read f AppData.init).curLST.map _).isSome = true
    rw [Option.isSome_map, he]
    rfl
  cases hr with
  | once => exact hfirst
  | twice =>
    refine hfirst.congr ?_
    rw [curLST_readDisk]
    exact hfirst.current

end

/-! ## Runs -/

/-- **Every outcome** leaves an array and both files. -/
theorem arrayKept_outcome {s : Sys} {a : Action} {m : AppData} {f : Files} {o : List Observer}
    (h : ArrayKept s.mem s.files) (hne : ∀ now, a ≠ .launch now) (ho : Outcome s a m f o) : ArrayKept m f := by
  have hmap : ∀ g : NSMutableArray → NSMutableArray, (s.mem.curLST.map g).isSome = true := fun g => by
    rw [Option.isSome_map]
    exact h.current
  cases ho with
  | same => exact h
  | launch hr => exact absurd rfl (hne _)
  | login hr => exact .readsData h.user h.data hr
  | newList hw => exact h.writes (hmap _) hw
  | deleteOwn hl hown hw => exact h.writes (hmap _) hw
  | reject hl hown => exact h.congr (hmap _)
  | write hw => exact h.writes h.current hw
  | addItem hl hw => exact h.writes (hmap _) hw
  | toggleItem hl hi hw => exact h.writes (hmap _) hw
  | deleteItem hl hi hw => exact h.writes (hmap _) hw
  | readCallback hk hm =>
    refine h.congr ?_
    obtain rfl | ⟨lists, -, rfl⟩ := readCallback_ok hm <;> exact h.current
  | mergeBlock hk hw => exact h.writes rfl hw
  | fetched hk hw =>
    have hmerged := h.writes rfl hw
    exact hmerged.congr hmerged.current
  | coordsCallback hk hm =>
    refine h.congr ?_
    obtain rfl | ⟨values, coords, -, rfl⟩ := coordsCallback_ok hm <;> exact h.current
  | appendBlock hk => exact h.congr (hmap _)
  | loginBlock hk hr =>
    refine .readsData ?_ ?_ hr
    · exact ⟨_, rfl, rfl⟩
    · exact h.data
  | registerBlock hk => exact ⟨⟨_, rfl, rfl⟩, h.data, hmap _⟩
  | notify hk hm =>
    refine h.congr ?_
    obtain rfl | ⟨found, rfl⟩ := fetchBlock_ok hm
    · exact h.current
    · exact hmap _

/-- A launch is not killed between its two writes before there is a `data.plist`. -/
def KillsLate (e : KillAction) (s : Sys) : Prop :=
  match e with
  | .killed (.launch _) _ => s.files.dataPlist.isSome = true
  | _ => True

instance (e : KillAction) (s : Sys) : Decidable (KillsLate e s) := by
  unfold KillsLate
  split <;> infer_instance

theorem arrayKept_step {e : KillAction} {s : Sys} (hc : KillsLate e s)
    (hs : Kept (fun m f _ => ArrayKept m f) FilesPaired s) :
    Kept (fun m f _ => ArrayKept m f) FilesPaired (killStep e s) := by
  cases e with
  | turn a =>
    exact hs.step (fun _ _ _ h _ => h.data) (fun _ _ _ _ hread => .launch hs.1 hread)
      fun _ hne h _ _ _ ho => arrayKept_outcome h hne ho
  | killed a db =>
    refine ⟨?_, fun h => by cases h⟩
    by_cases hl : ∃ now, a = .launch now
    · obtain ⟨now, rfl⟩ := hl
      exact fun _ => hc
    have hne : ∀ now, a ≠ .launch now := fun now e => hl ⟨now, e⟩
    by_cases hrun : s.running = true
    · exact fun _ => (hs.2 hrun).data
    -- without a process nothing is written
    · show FilesPaired ⟨(step a s).files.userPlist, s.files.dataPlist⟩
      rw [step_stopped (Bool.eq_false_iff.2 hrun) hne]
      exact hs.1

/-- **A new list is never dropped** in a run in which no launch is killed between the first writes of
the two files. -/
theorem addsList_run {s : Sys} (es : List KillAction) (text : String) (hr : s.running = false)
    (hf : FilesPaired s.files) (hc : Run.Along killStep KillsLate es s)
    (hrun : (Run.run killStep es s).running = true) : AddsList text (Run.run killStep es s) := by
  have hkept := Run.run_induct (P := Kept (fun m f _ => ArrayKept m f) FilesPaired)
    (fun _ _ hc hs => arrayKept_step hc hs) hc ⟨hf, fun h => by rw [hr] at h; cases h⟩
  exact (addsList_iff text _).2 (hkept.2 hrun).current

/-! ## A new device -/

theorem addsList_run_tools : AddsList "Tools" (Run.run killStep
    [.turn (.launch annEnv.now), .killed (.newList "Food") .emptyNode, .turn (.launch annEnv.now)] newDevice) :=
  addsList_run _ "Tools" rfl (fun ⟨_, h, _⟩ => by cases h) (by decide) (by decide)

/-- The first launch is killed before it writes `data.plist`. -/
theorem not_addsList_run : ¬ ∀ (s : Sys) (es : List KillAction) (text : String), s.running = false →
    FilesPaired s.files → text ≠ "" → (Run.run killStep es s).running = true →
      AddsList text (Run.run killStep es s) := by
  intro h
  have hrun := h newDevice [.killed (.launch annEnv.now) .emptyNode, .turn (.launch annEnv.now)] "Tools" rfl
    (fun ⟨_, h, _⟩ => by cases h) (by decide) (by decide)
  revert hrun
  decide

end ShopingList
