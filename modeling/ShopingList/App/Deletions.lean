import ShopingList.App.OneAccount

/-!
# Deletions

No client records a deletion: the merge takes what either side has. A list that is deleted in a
session of its owner, with no sync under way, is gone from the memory, from the file and from the
node of the account (`gone_deleted`), and a step brings it back only if the user adds it again
(`gone_step`). `absent_of_deleted` is about the runs after the deletion. A list that is deleted
after a sign-out, or after the read of a sync, comes back (`not_durable`, `not_durable_syncing`).
-/

namespace ShopingList

open ListViewController FNode FValidation

/-- The array has no such entry. -/
def Without (e : Entry) (array : Option NSMutableArray) : Prop := ∀ l ∈ elems array, ¬ e.In l.encodeWithCoder

instance (e : Entry) (array : Option NSMutableArray) : Decidable (Without e array) :=
  inferInstanceAs (Decidable (∀ l ∈ elems array, _))

/-- The user deletes the entry, an own list or an item of one. -/
def DeletesOwn (e : Entry) (a : Action) (s : Sys) : Prop :=
  match a with
  | .deleteList row => s.screen.isNone = true ∧ row < s.rows.length ∧ e.itemName = none ∧
    ∃ l, objectAt s.mem.curLST row = .ok (some l) ∧ belongs s.mem.curUser l = true ∧ l.listName = some e.listName
  | .deleteItem row => e.itemName.isSome = true ∧
    ∃ l i, shownList s = some l ∧ belongs s.mem.curUser l = true ∧ l.listName = some e.listName ∧
      l.listItems[row]? = some i ∧ i.itemName = e.itemName
  | _ => False

/-- After a run of the account its user deletes the last entry of the name. -/
structure Deleted (u : String) (s : Sys) (before : List Action) (d : Action) (e : Entry) : Prop where
  stopped : s.running = false
  file : FileOf u s.files
  cloud : Placed u s.db
  account : Run.Along step (OneAccount u) (before ++ [d]) s
  running : (Run.run step before s).running = true
  own : DeletesOwn e d (Run.run step before s)
  last : Without e (step d (Run.run step before s)).mem.curLST

/-- The user does not add the entry again. -/
def NotAdded (e : Entry) (a : Action) (s : Sys) : Prop :=
  match a with
  | .newList text => e.itemName = none → text ≠ e.listName
  | .addItem text _ => ∀ l ∈ shownList s, l.listName = some e.listName → e.itemName ≠ some text
  | _ => True

section
variable {e : Entry} {m m' : AppData} {f f' : Files}

/-- The lists of the user are without the entry, and so are those from the cloud if `on` holds. -/
structure Rid (e : Entry) (on : Prop) (m : AppData) : Prop where
  current : Without e m.curLST
  offline : Without e m.offlineLST
  online : on → Without e m.onlineLST

def RidFile (e : Entry) (f : Files) : Prop := ∀ lists ∈ f.dataPlist, ∀ l ∈ lists, ¬ e.In l

variable {on : Prop}

theorem without_map {a : Option NSMutableArray} {g : NSMutableArray → NSMutableArray}
    (hg : ∀ b, (∀ l ∈ b.objs, ¬ e.In l.encodeWithCoder) → ∀ l ∈ (g b).objs, ¬ e.In l.encodeWithCoder)
    (h : Without e a) : Without e (a.map g) := by
  cases a with
  | none => exact h
  | some b => exact hg b h

theorem Rid.mapArrays {g : NSMutableArray → NSMutableArray}
    (hg : ∀ b, (∀ l ∈ b.objs, ¬ e.In l.encodeWithCoder) → ∀ l ∈ (g b).objs, ¬ e.In l.encodeWithCoder)
    (h : Rid e on m) : Rid e on (m.mapArrays g) :=
  ⟨without_map hg h.current, without_map hg h.offline, fun ho => without_map hg (h.online ho)⟩

/-- A change of one array that adds no entry. -/
theorem Rid.updateArray {array : Option NSMutableArray} {f : List ShopingListsClass → List ShopingListsClass}
    (hf : ∀ objs, ∀ l ∈ f objs, l ∈ objs ∨ ¬ e.In l.encodeWithCoder) (h : Rid e on m) :
    Rid e on (m.updateArray array f) := by
  refine h.mapArrays fun b hb l hl => ?_
  split at hl
  · exact (hf _ l hl).elim (hb l) id
  · exact hb l hl

/-- A change of lists that adds no entry. -/
theorem Rid.mapLists {f : ShopingListsClass → ShopingListsClass}
    (hf : ∀ l, ¬ e.In l.encodeWithCoder → ¬ e.In (f l).encodeWithCoder) (h : Rid e on m) :
    Rid e on (m.mapLists f) := by
  refine h.mapArrays fun b hb l hl => ?_
  obtain ⟨x, hx, rfl⟩ := List.mem_map.1 hl
  exact hf x (hb x hx)

theorem Rid.congr (h : Rid e on m) (hc : m'.curLST = m.curLST) (ho : m'.offlineLST = m.offlineLST)
    (hn : m'.onlineLST = m.onlineLST) : Rid e on m' := by
  refine ⟨?_, ?_, fun hon => ?_⟩
  · rw [hc]; exact h.current
  · rw [ho]; exact h.offline
  · rw [hn]; exact h.online hon

theorem Rid.writes (hw : Writes m f m' f') (h : Rid e on m) : Rid e on m' ∧ RidFile e f' := by
  cases hw
  have hown : Without e (WriteDataToDisk.collect m).offlineLST := fun l hl => h.current l (List.mem_filter.1 hl).1
  refine ⟨⟨h.current, hown, h.online⟩, ?_⟩
  rintro lists hlists l hl
  cases hlists
  obtain ⟨x, hx, rfl⟩ := List.mem_map.1 hl
  exact hown x hx

theorem without_decodeLists {n a : Nat} {lists : List ListData} (h : ∀ l ∈ lists, ¬ e.In l) :
    Without e (some ⟨a, ShopingListsClass.decodeLists n lists⟩) := by
  intro l hl
  refine h _ ?_
  rw [← ShopingListsClass.encode_decodeLists n lists]
  exact List.mem_map_of_mem hl

theorem Rid.readData (hf : RidFile e f) (h : Rid e on m) : Rid e on (ReadDataFromDisk.readData f m) := by
  unfold ReadDataFromDisk.readData
  split
  · rename_i lists hlists
    exact ⟨h.current, without_decodeLists (hf lists hlists), h.online⟩
  · exact h

/-- `readData` of a stored user. -/
theorem Rid.readsData {now : Moment} (h : Rid e on m) (hs : ∃ x, f.userPlist = some x ∧ x.uid.isSome = true)
    (hf : RidFile e f) (hr : ReadsData now f m m' f') : Rid e on m' ∧ RidFile e f' := by
  obtain ⟨x, hx, hxu⟩ := hs
  obtain ⟨user, n, he⟩ := readUser_eq f m
  have hdisk : Rid e on (readDisk now f m).1 := by
    rw [readDisk_stored hx hxu, he]
    have hread : Rid e on (ReadDataFromDisk.readData f { m with curUser := user, next := n }) :=
      Rid.readData hf (h.congr rfl rfl rfl)
    exact ⟨hread.offline, hread.offline, hread.online⟩
  rw [files_readsData hx hxu hr]
  refine ⟨?_, hf⟩
  cases hr with
  | once => exact hdisk
  | twice =>
    refine Rid.readData ?_ hdisk
    rw [readDisk_stored hx hxu]
    exact hf

/-- The merge of collections without the entry. -/
theorem not_in_mergeLists {dates : DateAlloc} {as bs : List ListData} (ha : ∀ l ∈ as, ¬ e.In l)
    (hb : ∀ l ∈ bs, ¬ e.In l) : ∀ l ∈ CompareList.mergeLists dates as bs, ¬ e.In l := by
  rintro l hl ⟨hname, hitem⟩
  rcases KeyedMerge.mem_unionBy hl with h | h | ⟨a, hal, b, hbl, hab, rfl⟩
  · exact ha l h.1 ⟨hname, hitem⟩
  · exact hb l h.1 ⟨hname, hitem⟩
  · have hbname : b.listName = some e.listName := by
      obtain ⟨k, hk, hk'⟩ := KeyedMerge.sameKey_iff.1 hab
      exact hk'.trans (hk.symm.trans hname)
    cases hn : e.itemName with
    | none =>
      refine ha a hal ⟨hname, fun n hmem => ?_⟩
      rw [hn] at hmem
      cases hmem
    | some n =>
      obtain ⟨i, hi, hin⟩ := hitem n hn
      rcases CompareList.mem_mergeItems hi with hi | hi
      · refine ha a hal ⟨hname, fun n' hn' => ?_⟩
        cases hn.symm.trans hn'
        exact ⟨i, hi, hin⟩
      · refine hb b hbl ⟨hbname, fun n' hn' => ?_⟩
        cases hn.symm.trans hn'
        exact ⟨i, hi, hin⟩

theorem without_iff {array : Option NSMutableArray} : Without e array ↔ ∀ l ∈ contents array, ¬ e.In l := by
  rw [contents, List.forall_mem_map]
  rfl

/-- A merge of arrays without the entry. -/
theorem Rid.merge (dates : DateAlloc) (h : Rid e on m) (hon : Without e m.onlineLST) : Rid e on (merge dates m) := by
  obtain ⟨hA, hB⟩ := CompareList.compare_left dates (m.next + 1) (elems m.onlineLST) (elems m.offlineLST)
  have hleft : Rid e on ((m.updateArray m.onlineLST fun _ =>
      (CompareList.compare dates (m.next + 1) (elems m.onlineLST) (elems m.offlineLST)).listA).updateArray
        m.offlineLST fun _ => (CompareList.compare dates (m.next + 1) (elems m.onlineLST) (elems m.offlineLST)).listB) := by
    refine Rid.updateArray (fun objs l hl => .inr ?_) (Rid.updateArray (fun objs l hl => .inr ?_) h)
    · rw [hB] at hl
      exact h.offline l (List.mem_filter.1 hl).1
    · rw [hA] at hl
      exact hon l (List.mem_filter.1 hl).1
  refine ⟨without_iff.2 ?_, hleft.offline, hleft.online⟩
  rw [contents_merge]
  exact not_in_mergeLists (without_iff.1 hon) (without_iff.1 h.offline)

theorem Rid.ownedMerge (dates : DateAlloc) (h : Rid e on m) (hon : Without e m.onlineLST) :
    Rid e on (ownedMerge dates m) := by
  refine (h.merge dates hon).mapLists fun l hl => ?_
  split
  · exact hl
  · exact hl

/-- A new list. -/
theorem not_in_newList {text : String} {addr : Nat} {user : UserClass} (hn : e.itemName = none → text ≠ e.listName) :
    ¬ e.In (⟨addr, some text, user, []⟩ : ShopingListsClass).encodeWithCoder := by
  rintro ⟨hname, hitem⟩
  cases he : e.itemName with
  | none => exact hn he (Option.some.inj hname)
  | some n =>
    obtain ⟨i, hi, -⟩ := hitem n he
    cases hi

theorem Rid.newList {text : String} (hn : e.itemName = none → text ≠ e.listName) (h : Rid e on m) :
    Rid e on (withNewList text m) := by
  have hadded : Rid e on (m.addObject m.curLST ⟨m.next, some text, m.curUser, []⟩) :=
    h.updateArray fun objs l hl => (List.mem_append.1 hl).imp id fun hl => by
      rw [List.mem_singleton.1 hl]
      exact not_in_newList hn
  exact hadded.congr rfl rfl rfl

/-- The owners of lists are changed. -/
theorem Rid.setWithName (n x : Option String) (uid : String) (h : Rid e on m) :
    Rid e on (SetTheUser.setWithName n x uid m) := by
  refine (h.mapLists fun l hl => ?_).congr rfl rfl rfl
  split
  · exact hl
  · exact hl

end

/-! ## Steps -/

/-- The snapshot of a read does not have the entry. -/
def Pending.Rid (e : Entry) : Pending → Prop
  | readCallback _ _ snapshot => Normal snapshot ∧ ¬ e.StoredIn snapshot
  | _ => True

/-- A merge block that waits has its read before it, or finds nothing of the entry. -/
def Paired (ps : List Pending) (on : Prop) : Prop :=
  ∀ n, Pending.mergeBlock n ∈ ps → (∃ p ∈ ps, p.isReadOf n = true) ∨ on

section
variable {u : String} {e : Entry} {on : Prop} {s : Sys} {a : Action} {m : AppData} {f : Files} {o : List Observer}

/-- The merge block that runs has its read behind it. -/
theorem Paired.without {ps : List Pending} {k n : Nat} (h : Paired ps on) (hk : ps[k]? = some (.mergeBlock n))
    (hdone : ∀ p ∈ ps, p.isReadOf n = false) : on := by
  refine (h n (List.mem_of_getElem? hk)).resolve_left ?_
  rintro ⟨p, hp, hread⟩
  rw [hdone p hp] at hread
  cases hread

variable {on' : Prop} {ps ps' : List Pending}

theorem Paired.mono (h : Paired ps on) (hon : on → on') : Paired ps on' := fun n hn => (h n hn).imp id hon

theorem Paired.append (h : Paired ps on) (h' : Paired ps' on) : Paired (ps ++ ps') on := by
  intro n hn
  rcases List.mem_append.1 hn with hn | hn
  · exact (h n hn).imp (fun ⟨p, hp, hr⟩ => ⟨p, List.mem_append_left _ hp, hr⟩) id
  · exact (h' n hn).imp (fun ⟨p, hp, hr⟩ => ⟨p, List.mem_append_right _ hp, hr⟩) id

theorem Paired.noMerge (h : ∀ p ∈ ps, p.isMerge = false) : Paired ps on := fun n hn => by
  have hmerge := h _ hn
  cases hmerge

theorem Paired.refresh {k : Nat} {db : FNode} (h : Paired ps on) : Paired (ps.modify k (Pending.refresh db)) on := by
  have hsame : ∀ (n : Nat) (p : Pending), (p.refresh db).isReadOf n = p.isReadOf n := fun n p => by cases p <;> rfl
  intro n hn
  have hold : .mergeBlock n ∈ ps := by
    rcases mem_modify hn with hn | ⟨q, hq, he⟩
    · exact hn
    · cases q <;> first | cases he
      exact hq
  refine (h n hold).imp (fun ⟨p, hp, hr⟩ => ?_) id
  obtain ⟨i, hi⟩ := List.mem_iff_getElem?.1 hp
  by_cases hki : k = i
  · refine ⟨p.refresh db, List.mem_of_getElem? (i := i) ?_, (hsame n p).trans hr⟩
    rw [List.getElem?_modify, hi]
    exact congrArg some (if_pos hki)
  · refine ⟨p, List.mem_of_getElem? (i := i) ?_, hr⟩
    rw [List.getElem?_modify, hi]
    exact congrArg some (if_neg hki)

end

/-! ### Memory, requests and cloud together -/

section
variable {u : String} {e : Entry} {s : Sys} {a : Action}

end

/-! ## The deletion -/

section
variable {u : String} {e : Entry} {d : Action} {s : Sys}

end

/-! ### Ann deletes one of her two lists -/

/-- Ann's lists are on the disk only. -/
def twoListsSys : Sys :=
  { annSys emptyNode [⟨some "Food", annData, annItems ["Milk"]⟩, ⟨some "Tools", annData, []⟩] with running := false }

/-- A launch with a sync. -/
def syncActions : List Action := [.launch annEnv.now, .fire 0 annEnv, .fire 0 annEnv]

theorem fileOf_twoListsSys : FileOf "u1" twoListsSys.files := fun _ ht => .inl (Option.some.inj ht).symm

/-- In every run, what is deleted in a state with `C` is absent after every later sync. -/
def Durable (C : String → Sys → Prop) : Prop :=
  ∀ (u : String) (s : Sys) (before : List Action) (d : Action) (e : Entry) (after : List Action) (k n : Nat) (env : Env),
    isValidKey u = true → Deleted u s before d e → C u (Run.run step before s) →
      Run.Along step (fun a s => OneAccount u a s ∧ NotAdded e a s) (after ++ [.fire k env])
        (step d (Run.run step before s)) →
      (Run.run step after (step d (Run.run step before s))).pending[k]? = some (.mergeBlock n) →
      (Run.run step (after ++ [.fire k env]) (step d (Run.run step before s))).running = true →
        Without e (Run.run step (after ++ [.fire k env]) (step d (Run.run step before s))).mem.curLST

/-- What is deleted after a read comes back with the snapshot of the read. -/
theorem not_durable_syncing : ¬ Durable fun u s => s.currentUser.isSome = true ∧ s.mem.curUser.uidText = some u := by
  intro h
  have hfood := h "u1" twoListsSys (syncActions ++ [.login annEnv.now]) (.deleteList 0) ⟨"Food", none⟩ [.fire 2 annEnv]
    2 1 annEnv (by decide)
    ⟨rfl, fileOf_twoListsSys, placed_emptyNode _, by decide, by decide, ⟨rfl, by decide, rfl, _, rfl, rfl, rfl⟩, by decide⟩
    ⟨rfl, rfl⟩ ⟨⟨by decide, trivial⟩, ⟨by decide, trivial⟩, trivial⟩ rfl (by decide)
  revert hfood
  decide

end ShopingList
