import ShopingList.App.MergeBlock

/-!
# What the screens show

The list table and the item screen keep an index into `curLST`. `Shown` says that
the indices still stand for the names on the screen. Turns that add at the end
keep it; a turn that replaces `curLST` keeps it only if the new order agrees with
the screens (`KeepsShown`). `targets_run` concludes that the events of such a run
change the lists that were shown and leave the others as they were.
-/

namespace ShopingList

open FNode ListViewController

def names (array : Option NSMutableArray) : List (Option String) := (elems array).map (·.listName)

/-- The open item screen, or else the rows of the list table, agree with the names of the lists. -/
def Shown (screen : Option ItemScreen) (rows ns : List (Option String)) : Prop :=
  match screen with
  | some screen => ns[screen.curLSTInt]? = some screen.nameOfList
  | none => rows <+: ns

instance (screen : Option ItemScreen) (rows ns : List (Option String)) :
    Decidable (Shown screen rows ns) :=
  match screen with
  | some screen => inferInstanceAs (Decidable (ns[screen.curLSTInt]? = some screen.nameOfList))
  | none => inferInstanceAs (Decidable (rows <+: ns))

/-- A running process shows what it has. -/
def Aligned (s : Sys) : Prop := s.running = true → Shown s.screen s.rows (names s.mem.curLST)

/-- The names of a merge: those of the first input only, those of the second only, those of both. -/
def mergeOrder (online offline : List (Option String)) : List (Option String) :=
  online.filter (fun a => !offline.any (isEqualToString a)) ++
    offline.filter (fun b => !online.any (isEqualToString b)) ++
    online.filter fun a => offline.any (isEqualToString a)

/-- The names of the lists that `readData` would read from the disk. -/
def diskNames (s : Sys) : List (Option String) :=
  match s.files.dataPlist with
  | some lists => lists.map (·.listName)
  | none => names s.mem.offlineLST

/-- The names in the array by which a block replaces `curLST`. -/
def newOrder (s : Sys) : Pending → Option (List (Option String))
  | .mergeBlock _ => some (mergeOrder (names s.mem.onlineLST) (names s.mem.offlineLST))
  | .loginBlock _ => some (diskNames s)
  | _ => none

/-- A turn that replaces `curLST` keeps the order on the screens; a deleted list
is in `curLST` once. -/
def KeepsShown (a : Action) (s : Sys) : Prop :=
  match a with
  | .deleteList row => ∀ l ∈ (elems s.mem.curLST)[row]?, (elems s.mem.curLST).count l = 1
  | .login _ => (ReadUserFromDisk.read s.files s.mem).curUser.uid.isSome →
      Shown s.screen s.rows (diskNames s)
  | .fire k _ => ∀ p ∈ s.pending[k]?, ∀ ns ∈ newOrder s p, Shown s.screen s.rows ns
  | _ => True

instance (a : Action) (s : Sys) : Decidable (KeepsShown a s) :=
  match a with
  | .deleteList _ => inferInstanceAs (Decidable (∀ l ∈ _, _))
  | .login _ => inferInstanceAs (Decidable (_ → Shown s.screen s.rows (diskNames s)))
  | .fire k _ => inferInstanceAs (Decidable (∀ p ∈ s.pending[k]?, ∀ ns ∈ newOrder s p, _))
  | .launch _ | .newList _ | .openItems _ | .back | .addItem _ _ | .toggleItem _ _ | .deleteItem _
  | .register _ _ | .logout | .refresh _ | .complete _ _ | .notify _ _ => .isTrue trivial

/-- `curLST` has a list of the name at the index. -/
def ListAt (k : Nat) (name : Option String) (s : Sys) (l : ShopingListsClass) : Prop :=
  objectAt s.mem.curLST k = .ok (some l) ∧ l.listName = name

/-- The objects of `curLST` are changed one by one. -/
def Becomes (f : ShopingListsClass → ShopingListsClass) (s s' : Sys) : Prop :=
  elems s'.mem.curLST = (elems s.mem.curLST).map f

/-- An event of the user changes, or deletes, the list that the screen shows for it. -/
def Targets (a : Action) (s : Sys) : Prop :=
  s.running = true →
    match a with
    | .addItem text now => text ≠ "" → ∀ screen ∈ s.screen,
      ∃ l, ListAt screen.curLSTInt screen.nameOfList s l ∧
        Becomes (fun x => if x = l then
          { l with listItems := l.listItems ++
            [⟨s.mem.next, some text, some (DateAndTime.dateAndTimeNow now), false⟩] } else x) s (step a s)
    | .toggleItem row now => ∀ screen ∈ s.screen,
      ∃ l, ListAt screen.curLSTInt screen.nameOfList s l ∧ ∀ item ∈ l.listItems[row]?,
        Becomes (fun x => { x with listItems := x.listItems.map fun y => if y = item then
          { item with
            itemPuchased := !item.itemPuchased
            itemTime := some (DateAndTime.dateAndTimeNow now) } else y }) s (step a s)
    | .deleteItem row => ∀ screen ∈ s.screen,
      ∃ l, ListAt screen.curLSTInt screen.nameOfList s l ∧ ∀ item ∈ l.listItems[row]?,
        Becomes (fun x => if x = l then
          { l with listItems := l.listItems.filter fun y => y ≠ item } else x) s (step a s)
    | .deleteList row => s.screen = none → ∀ n ∈ s.rows[row]?,
      ∃ l, ListAt row n s l ∧ elems (step a s).mem.curLST = (elems s.mem.curLST).eraseIdx row
    | _ => True

/-! ## The screens against the names -/

section
variable {screen : Option ItemScreen} {rows ns ns' : List (Option String)}

theorem Shown.append (h : Shown screen rows ns) (hp : ns <+: ns') : Shown screen rows ns' := by
  cases screen with
  | none => exact List.IsPrefix.trans h hp
  | some screen =>
    obtain ⟨t, rfl⟩ := hp
    have hlt : screen.curLSTInt < ns.length := (List.getElem?_eq_some_iff.1 h).1
    exact (List.getElem?_append_left hlt).trans h

theorem Shown.reload (h : Shown screen rows ns) : Shown screen ns ns := by
  cases screen with
  | none => exact List.prefix_refl ns
  | some screen => exact h

end

/-! ## Turns that change no name -/

/-- The screens and the names of `curLST` are as before. -/
structure SameView (s s' : Sys) : Prop where
  screen : s'.screen = s.screen
  rows : s'.rows = s.rows
  names : names s'.mem.curLST = names s.mem.curLST

theorem SameView.trans {s s' s'' : Sys} (h : SameView s s') (h' : SameView s' s'') : SameView s s'' :=
  ⟨h'.screen.trans h.screen, h'.rows.trans h.rows, h'.names.trans h.names⟩

theorem SameView.shown {s s' : Sys} (h : SameView s s')
    (hs : Shown s.screen s.rows (ShopingList.names s.mem.curLST)) :
    Shown s'.screen s'.rows (ShopingList.names s'.mem.curLST) := by
  rw [h.screen, h.rows, h.names]
  exact hs

theorem onCloud_ok {w : FNode → Except NSException FNode} {s s' : Sys} (h : s.onCloud w = .ok s') :
    ∃ db, s' = { s with db := db } := by
  unfold Sys.onCloud at h
  cases hw : w s.db with
  | ok db => rw [hw] at h; cases h; exact ⟨db, rfl⟩
  | error e => rw [hw] at h; cases h

theorem onMem_ok {f : AppData → Except NSException AppData} {s s' : Sys} (h : s.onMem f = .ok s') :
    ∃ m, f s.mem = .ok m ∧ s' = s.withMem m := by
  unfold Sys.onMem at h
  cases hf : f s.mem with
  | ok m => rw [hf] at h; cases h; exact ⟨m, rfl, rfl⟩
  | error e => rw [hf] at h; cases h

theorem deleteRows_ok {w : FNode → Except NSException FNode} {row : Nat} {s s' : Sys}
    (h : deleteRows row <$> s.onCloud w = .ok s') : ∃ db, s' = deleteRows row { s with db := db } := by
  unfold Sys.onCloud at h
  cases hw : w s.db with
  | ok db => rw [hw] at h; cases h; exact ⟨db, rfl⟩
  | error e => rw [hw] at h; cases h

theorem sameView_onCloud {w : FNode → Except NSException FNode} {s s' : Sys}
    (h : s.onCloud w = .ok s') : SameView s s' := by
  obtain ⟨db, rfl⟩ := onCloud_ok h
  exact ⟨rfl, rfl, rfl⟩

theorem names_map {f : ShopingListsClass → ShopingListsClass} (hf : ∀ x, (f x).listName = x.listName)
    (array : Option NSMutableArray) :
    names (array.map fun b => { b with objs := b.objs.map f }) = names array := by
  rw [names, names, AppData.elems_map_objs, List.map_map]
  exact List.map_congr_left fun x _ => hf x

theorem names_mapLists {f : ShopingListsClass → ShopingListsClass} (hf : ∀ x, (f x).listName = x.listName)
    (m : AppData) : names (m.mapLists f).curLST = names m.curLST := names_map hf m.curLST

theorem names_assignList {l l' : ShopingListsClass} (h : l'.listName = l.listName) (m : AppData) :
    names (m.assignList l l').curLST = names m.curLST := by
  refine names_mapLists (fun x => ?_) m
  split
  · rename_i hx
    rw [hx, h]
  · rfl

section
variable {now : Moment} {k row : Nat} {s s' : Sys}

open itemViewController

theorem sameView_addItem {text : String} (h : addItem k text now s = .ok s') : SameView s s' := by
  unfold addItem at h
  cases ho : objectAt s.mem.curLST k with
  | error e => simp only [ho] at h; cases h
  | ok o =>
    cases o with
    | none =>
      simp only [ho] at h
      refine .trans ?_ (sameView_onCloud h)
      exact ⟨rfl, rfl, rfl⟩
    | some list =>
      simp only [ho] at h
      refine .trans ?_ (sameView_onCloud h)
      exact ⟨rfl, rfl, names_assignList (by rfl) s.mem⟩

theorem sameView_toggleItem (h : toggleItem k row now s = .ok s') : SameView s s' := by
  unfold toggleItem at h
  cases ho : objectAt s.mem.curLST k with
  | error e => simp only [ho] at h; cases h
  | ok o =>
    cases o with
    | none =>
      simp only [ho] at h
      refine .trans ?_ (sameView_onCloud h)
      exact ⟨rfl, rfl, rfl⟩
    | some list =>
      cases hi : list.listItems[row]? with
      | none => simp only [ho, hi] at h; cases h
      | some item =>
        simp only [ho, hi] at h
        refine .trans ?_ (sameView_onCloud h)
        exact ⟨rfl, rfl, names_mapLists (by intro x; rfl) s.mem⟩

theorem sameView_deleteItem (h : itemViewController.deleteItem k row s = .ok s') : SameView s s' := by
  unfold itemViewController.deleteItem at h
  cases ho : objectAt s.mem.curLST k with
  | error e => simp only [ho] at h; cases h
  | ok o =>
    cases o with
    | none =>
      simp only [ho] at h
      refine .trans ?_ (sameView_onCloud h)
      exact ⟨rfl, rfl, rfl⟩
    | some list =>
      cases hi : list.listItems[row]? with
      | none => simp only [ho, hi] at h; cases h
      | some item =>
        simp only [ho, hi] at h
        refine .trans ?_ (sameView_onCloud h)
        exact ⟨rfl, rfl, names_assignList (by rfl) s.mem⟩

end

/-! ## Turns that replace `curLST` -/

theorem names_eq_contents (array : Option NSMutableArray) :
    names array = (contents array).map (·.listName) := by
  rw [names, contents, List.map_map]
  rfl

theorem listName_mergeLists (dates : DateAlloc) (online offline : List ListData) :
    (CompareList.mergeLists dates online offline).map (·.listName) =
      mergeOrder (online.map (·.listName)) (offline.map (·.listName)) := by
  have hany : ∀ (a : ListData) (ls : List ListData), ls.any (KeyedMerge.sameKey ListData.listName a) =
      (ls.map (·.listName)).any (isEqualToString a.listName) := by
    intro a ls
    rw [List.any_map]
    exact congrArg _ (funext fun b => (CompareList.isEqualToString_eq_sameKey ListData.listName a b).symm)
  have hcomb : ∀ a : ListData, ((offline.find? fun b => KeyedMerge.sameKey ListData.listName b a).elim a
      (CompareList.combine dates a)).listName = a.listName := by
    intro a
    cases offline.find? fun b => KeyedMerge.sameKey ListData.listName b a <;> rfl
  simp only [CompareList.mergeLists, KeyedMerge.unionBy, mergeOrder, List.map_append, List.filter_map,
    List.map_map, hany]
  refine congrArg _ (List.map_congr_left fun a _ => hcomb a)

theorem names_merge (dates : DateAlloc) (m : AppData) : names (merge dates m).curLST =
    mergeOrder (names m.onlineLST) (names m.offlineLST) := by
  rw [names_eq_contents, contents_merge, listName_mergeLists, names_eq_contents, names_eq_contents]

theorem sameView_saveOne {a : ShopingListsClass} {s s' : Sys} (h : saveOne a s = .ok s') :
    SameView s s' := by
  unfold saveOne at h
  cases hs : SaveListOnCloud.save s.currentUser s.mem.curUser { a with listOwner := s.mem.curUser } s.db with
  | error e => simp only [hs] at h; cases h
  | ok db =>
    simp only [hs] at h
    cases h
    exact ⟨rfl, rfl, names_assignList (by rfl) _⟩

/-- After the block the names are in the order of the merge, and the screens as before. -/
theorem view_mergeBlock {dates : DateAlloc} {s s' : Sys} (h : mergeBlock dates s = .ok s') :
    s'.screen = s.screen ∧ s'.rows = s.rows ∧
      names s'.mem.curLST = mergeOrder (names s.mem.onlineLST) (names s.mem.offlineLST) := by
  rw [mergeBlock_eq] at h
  obtain ⟨s₁, hsave, hfetch⟩ := Raising.bind_ok_iff.1 h
  have hloop : SameView (s.withMem (merge dates s.mem)) s₁ :=
    Raising.of_loop_ok hsave (fun a _ t t' ht hstep => ht.trans (sameView_saveOne hstep)) ⟨rfl, rfl, rfl⟩
  obtain ⟨rest, observers, running, next, fetched, hf⟩ := settle_fetch s₁.writeData
  rw [hfetch, settle_ok] at hf
  rw [hf]
  exact ⟨hloop.screen, hloop.rows, hloop.names.trans (names_merge dates s.mem)⟩

/-- What an array gets at its end leaves the names before it. -/
theorem names_updateArray {f : List ShopingListsClass → List ShopingListsClass} (m : AppData)
    (hf : ∀ objs, objs <+: f objs) : names m.curLST <+: names (m.updateArray m.curLST f).curLST := by
  rw [names, names, elems_updateArray_self]
  cases hc : m.curLST with
  | none => exact List.prefix_refl _
  | some a => exact (hf a.objs).map _

/-- `readFiles` adds a list at the end or takes the lists of the disk. -/
theorem names_readFiles (now : Moment) (s : Sys) :
    if (ReadUserFromDisk.read s.files s.mem).curUser.uid.isSome then
      names (readFiles now s).mem.curLST = diskNames s
    else names s.mem.curLST <+: names (readFiles now s).mem.curLST := by
  have hcur : (ReadUserFromDisk.read s.files s.mem).curLST = s.mem.curLST := by
    unfold ReadUserFromDisk.read
    split <;> rfl
  have hoff : (ReadUserFromDisk.read s.files s.mem).offlineLST = s.mem.offlineLST := by
    unfold ReadUserFromDisk.read
    split <;> rfl
  cases hu : (ReadUserFromDisk.read s.files s.mem).curUser.uid with
  | none =>
    rw [if_neg (by simp), readFiles, if_pos (by simp [hu])]
    rw [← hcur]
    exact names_updateArray _ fun objs => List.prefix_append objs _
  | some uid =>
    rw [if_pos (by simp), readFiles, if_neg (by simp [hu])]
    show names (ReadDataFromDisk.readData s.files _).offlineLST = _
    unfold ReadDataFromDisk.readData diskNames
    cases hd : s.files.dataPlist with
    | none => rw [hoff]
    | some lists =>
      simp only [names_eq_contents, contents, elems_some, ShopingListsClass.encode_decodeLists]

theorem view_readFiles (now : Moment) (s : Sys) :
    (readFiles now s).screen = s.screen ∧ (readFiles now s).rows = s.rows := by
  simp only [readFiles]
  split <;> exact ⟨rfl, rfl⟩

theorem view_readData {now : Moment} {s s' : Sys} (h : readData now s = .ok s') :
    s'.screen = s.screen ∧ s'.rows = s.rows ∧ s'.mem.curLST = (readFiles now s).mem.curLST := by
  obtain ⟨hscreen, hrows⟩ := view_readFiles now s
  unfold readData at h
  cases hc : (readFiles now s).currentUser with
  | none =>
    simp only [hc] at h
    cases h
    exact ⟨hscreen, hrows, rfl⟩
  | some user =>
    simp only [hc, beginSync] at h
    cases hb : child dataNode (some user.uid) with
    | error e => simp only [hb] at h; cases h
    | ok ref =>
      simp only [hb] at h
      cases h
      refine ⟨hscreen, hrows, ?_⟩
      show (ReadDataFromDisk.readData _ _).curLST = _
      unfold ReadDataFromDisk.readData
      split <;> rfl

/-! ## What each turn does to the screens -/

/-- The screens of a system agree with its lists. -/
abbrev Consistent (s : Sys) : Prop := Shown s.screen s.rows (names s.mem.curLST)

section
variable {now : Moment} {row : Nat} {s s' : Sys}

theorem consistent_addNewList {text : String} (hscreen : s.screen = none)
    (h : addNewList text s = .ok s') : Consistent s' := by
  obtain ⟨db, rfl⟩ := onCloud_ok h
  simp only [Consistent, Shown, Sys.writeData, Sys.reload, Sys.withMem, WriteDataToDisk.collect, hscreen]
  exact List.prefix_refl _

theorem objectAt_of_names {array : Option NSMutableArray} {k : Nat} {n : Option String}
    (h : (names array)[k]? = some n) :
    ∃ l, objectAt array k = .ok (some l) ∧ l.listName = n := by
  cases array with
  | none => cases h
  | some a =>
    rw [names, elems_some, List.getElem?_map] at h
    obtain ⟨l, hl, hn⟩ := Option.map_eq_some_iff.1 h
    exact ⟨l, by simp [objectAt, hl], hn⟩

/-- A row of the table is a name of the list at its index. -/
theorem getElem?_names {rows ns : List (Option String)} (hrow : row < rows.length)
    (h : rows <+: ns) : ns[row]? = some rows[row] := by
  obtain ⟨t, rfl⟩ := h
  rw [List.getElem?_append_left hrow, List.getElem?_eq_getElem hrow]

theorem consistent_launch (h : launch now s = .ok s') : Consistent s' := by
  unfold launch at h
  cases hr : readData now { s with
      mem := AppData.init, running := true, rows := [], screen := none, pending := [], observers := [] } with
  | error e => rw [hr] at h; cases h
  | ok s₁ =>
    rw [hr] at h
    cases h
    obtain ⟨hscreen, -, -⟩ := view_readData hr
    show Shown s₁.screen (names s₁.mem.curLST) (names s₁.mem.curLST)
    rw [hscreen]
    exact List.prefix_refl _

theorem filter_ne_eq_eraseIdx {α : Type} [DecidableEq α] {l : α} {ls : List α} {i : Nat}
    (h : ls[i]? = some l) (hc : ls.count l = 1) : CompareList.removeObject l ls = ls.eraseIdx i := by
  induction ls generalizing i with
  | nil => cases h
  | cons a ls ih =>
    cases i with
    | zero =>
      have hal : a = l := by simpa using h
      subst hal
      have hno : a ∉ ls := by
        intro hm
        have := List.count_pos_iff.2 hm
        rw [List.count_cons_self] at hc
        omega
      rw [List.eraseIdx_cons_zero, CompareList.removeObject, List.filter_cons_of_neg (by simp)]
      exact List.filter_eq_self.2 fun x hx => decide_eq_true fun e => hno (e ▸ hx)
    | succ i =>
      rw [List.getElem?_cons_succ] at h
      have hm : l ∈ ls := List.mem_of_getElem? h
      have hne : a ≠ l := by
        rintro rfl
        have := List.count_pos_iff.2 hm
        rw [List.count_cons_self] at hc
        omega
      rw [List.count_cons_of_ne hne] at hc
      rw [List.eraseIdx_cons_succ, ← ih h hc, CompareList.removeObject, List.filter_cons_of_pos (by simp [hne])]
      rfl

/-- A list that `curLST` holds once leaves the others at their places. -/
theorem elems_removeObject {m : AppData} {l : ShopingListsClass} (hl : (elems m.curLST)[row]? = some l)
    (hc : (elems m.curLST).count l = 1) :
    elems (m.updateArray m.curLST (CompareList.removeObject l)).curLST = (elems m.curLST).eraseIdx row := by
  have hsome : m.curLST.isSome = true := by
    cases hn : m.curLST with
    | none => rw [hn] at hl; cases hl
    | some a => rfl
  rw [elems_updateArray_self, if_pos hsome, filter_ne_eq_eraseIdx hl hc]

theorem consistent_deleteList (hscreen : s.screen = none) (hrow : row < s.rows.length)
    (hs : Consistent s) (hc : KeepsShown (.deleteList row) s)
    (h : ListViewController.deleteList row s = .ok s') : Consistent s' := by
  rw [Consistent, hscreen] at hs
  obtain ⟨l, ho, -⟩ := objectAt_of_names (getElem?_names hrow hs)
  have hl := objectAt_some ho
  -- what is left of the names, and of the rows
  have hnames : ((elems s.mem.curLST).eraseIdx row).map (·.listName) = (names s.mem.curLST).eraseIdx row := by
    rw [names, List.eraseIdx_map]
  have hpre : s.rows.eraseIdx row <+: (names s.mem.curLST).eraseIdx row := by
    obtain ⟨t, ht⟩ := hs
    rw [← ht, List.eraseIdx_append_of_lt_length hrow]
    exact List.prefix_append _ _
  have hcur : names (s.mem.updateArray s.mem.curLST (CompareList.removeObject l)).curLST =
      (names s.mem.curLST).eraseIdx row := by
    rw [← hnames, names, elems_removeObject hl (hc l hl)]
  unfold ListViewController.deleteList at h
  simp only [ho] at h
  -- the array loses the list before the table loses the row
  have hshown : Shown s.screen (s.rows.eraseIdx row)
      (names (s.mem.updateArray s.mem.curLST (CompareList.removeObject l)).curLST) := by
    rw [hscreen, hcur]
    exact hpre
  split at h
  all_goals
    obtain ⟨db, rfl⟩ := deleteRows_ok h
    exact hshown

theorem consistent_openItems (hscreen : s.screen = none) (hrow : row < s.rows.length)
    (hs : Consistent s) (h : openItems row s = .ok s') : Consistent s' := by
  rw [Consistent, hscreen] at hs
  obtain ⟨l, ho, -⟩ := objectAt_of_names (getElem?_names hrow hs)
  unfold openItems at h
  simp only [ho] at h
  cases h
  show (names s.mem.curLST)[row]? = some l.listName
  rw [names, List.getElem?_map, objectAt_some ho]
  rfl

theorem consistent_readData (hs : Consistent s)
    (hc : (ReadUserFromDisk.read s.files s.mem).curUser.uid.isSome → Shown s.screen s.rows (diskNames s))
    (h : readData now s = .ok s') : Consistent s' := by
  obtain ⟨hscreen, hrows, hcur⟩ := view_readData h
  have hnames := names_readFiles now s
  rw [Consistent, hscreen, hrows, hcur]
  split at hnames
  · rename_i hu
    rw [hnames]
    exact hc hu
  · exact hs.append hnames

theorem sameView_setTheUser (inpName inpEmail : Option String) (inpUid : String) (s : Sys) :
    SameView s (s.setTheUser inpName inpEmail inpUid) := by
  refine ⟨rfl, rfl, names_map (fun x => ?_) s.mem.curLST⟩
  split <;> rfl

theorem diskNames_setTheUser (inpName inpEmail : Option String) (inpUid : String) (s : Sys) :
    diskNames (s.setTheUser inpName inpEmail inpUid) = diskNames s := by
  have hoff : names (s.setTheUser inpName inpEmail inpUid).mem.offlineLST = names s.mem.offlineLST := by
    refine names_map (fun x => ?_) s.mem.offlineLST
    split <;> rfl
  rw [diskNames, diskNames, hoff]
  rfl

theorem consistent_loginBlock {user : FIRUser} (hs : Consistent s)
    (hc : Shown s.screen s.rows (diskNames s)) (h : loginBlock user now s = .ok s') : Consistent s' := by
  refine consistent_readData ((sameView_setTheUser _ _ _ s).shown hs) (fun _ => ?_) h
  rw [diskNames_setTheUser]
  exact hc

theorem consistent_registerBlock {inpName inpEmail : String} {user : FIRUser} (hs : Consistent s)
    (h : registerBlock inpName inpEmail user s = .ok s') : Consistent s' := by
  unfold registerBlock at h
  obtain ⟨s₁, hcloud, hloop⟩ := Raising.bind_ok_iff.1 h
  have h₁ : Consistent s₁ :=
    ((sameView_setTheUser _ _ _ s).trans (sameView_onCloud hcloud)).shown hs
  have h₂ : SameView s₁.reload s' := by
    refine Raising.of_loop_ok hloop (fun a _ t t' ht hstep => ?_) ⟨rfl, rfl, rfl⟩
    split at hstep
    · cases hstep
      exact ⟨ht.screen, ht.rows, ht.names⟩
    · cases hstep
  exact h₂.shown h₁.reload

theorem consistent_appendBlock (hs : Consistent s) : Consistent (appendBlock s) :=
  (hs.append (names_updateArray s.mem fun objs => List.prefix_append objs _)).reload

theorem curLST_readCallback {order : DictOrder} {snapshot : FNode} {m m' : AppData}
    (h : ReadDataFromCloud.callback order snapshot m = .ok m') : m'.curLST = m.curLST := by
  unfold ReadDataFromCloud.callback at h
  split at h
  · obtain ⟨lists, -, hm⟩ := Raising.bind_ok_iff.1 h
    cases hm
    rfl
  · cases h
    rfl

theorem curLST_coordsCallback {order : DictOrder} {snapshot : FNode} {m m' : AppData}
    (h : ReadInvitations.callback order snapshot m = .ok m') : m'.curLST = m.curLST := by
  unfold ReadInvitations.callback at h
  split at h
  · obtain ⟨o, -, hm⟩ := Raising.bind_ok_iff.1 h
    cases o with
    | none => cases hm; rfl
    | some dic =>
      obtain ⟨vals, -, hm⟩ := Raising.bind_ok_iff.1 hm
      obtain ⟨coords, -, hm⟩ := Raising.bind_ok_iff.1 hm
      cases hm
      rfl
  · cases h
    rfl

/-- The block of an observer only adds lists at the end of an array. -/
theorem names_fetchBlock {order : DictOrder} {samePointer : String → Bool} {coords : InvitationClass}
    {fetchedArr : Nat} {snapshot : FNode} {m m' : AppData}
    (h : FetchInvitationnData.block order samePointer coords fetchedArr snapshot m = .ok m') :
    names m.curLST <+: names m'.curLST := by
  unfold FetchInvitationnData.block at h
  split at h
  · obtain ⟨vals, -, h⟩ := Raising.bind_ok_iff.1 h
    obtain ⟨found, -, h⟩ := Raising.bind_ok_iff.1 h
    simp only at h
    split at h
    · cases h
      exact List.prefix_refl _
    · cases h
      cases hc : m.curLST with
      | none => simp [hc, names]
      | some a =>
        simp only [AppData.mapArrays_curLST, hc, Option.map_some]
        split
        · simp [names]
        · exact List.prefix_refl _
  · cases h
    exact List.prefix_refl _

end

/-! ## Runs -/

theorem consistent_fire {k : Nat} {env : Env} {s s' : Sys} {p : Pending} (hk : s.pending[k]? = some p)
    (hs : Consistent s) (hc : KeepsShown (.fire k env) s)
    (h : Pending.run env (s.without k) p = some (.ok s')) : Consistent s' := by
  have hc := hc p hk
  cases p with
  | readCallback n ref snapshot =>
    obtain ⟨m, hm, rfl⟩ := onMem_ok (Option.some.inj h)
    have hcur := curLST_readCallback hm
    show Shown s.screen s.rows (names m.curLST)
    rw [hcur]
    exact hs
  | mergeBlock n =>
    obtain ⟨hscreen, hrows, hnames⟩ := view_mergeBlock (Option.some.inj h)
    rw [Consistent, hscreen, hrows, hnames]
    exact hc _ rfl
  | coordsCallback ref snapshot =>
    obtain ⟨m, hm, rfl⟩ := onMem_ok (Option.some.inj h)
    have hcur := curLST_coordsCallback hm
    show Shown s.screen s.rows (names m.curLST)
    rw [hcur]
    exact hs
  | appendBlock =>
    cases h
    exact consistent_appendBlock hs
  | loginBlock user => exact consistent_loginBlock (s := s.without k) hs (hc _ rfl) (Option.some.inj h)
  | registerBlock inpName inpEmail user =>
    exact consistent_registerBlock (s := s.without k) hs (Option.some.inj h)
  | signIn => cases h
  | createUser inpName inpEmail => cases h
  | commitProfile inpName inpEmail user => cases h

theorem consistent_complete {k : Nat} {user : Option FIRUser} {s s' : Sys} {p : Pending}
    (hs : Consistent s) (h : Pending.complete user (s.without k) p = some (.ok s')) : Consistent s' := by
  cases p <;> cases user <;> cases h <;> exact hs

/-- **One turn** keeps the screens right. -/
theorem consistent_event {a : Action} {s s' : Sys} (hc : KeepsShown a s) (hs : Consistent s)
    (h : event s a = some (.ok s')) : Consistent s' := by
  cases a with
  | launch now => exact consistent_launch (Option.some.inj h)
  | newList text =>
    obtain ⟨hg, h⟩ := Option.ite_none_right_eq_some.1 h
    exact consistent_addNewList (Option.isNone_iff_eq_none.1 hg.1) (Option.some.inj h)
  | deleteList row =>
    obtain ⟨hg, h⟩ := Option.ite_none_right_eq_some.1 h
    exact consistent_deleteList (Option.isNone_iff_eq_none.1 hg.1) hg.2 hs hc (Option.some.inj h)
  | openItems row =>
    obtain ⟨hg, h⟩ := Option.ite_none_right_eq_some.1 h
    exact consistent_openItems (Option.isNone_iff_eq_none.1 hg.1) hg.2 hs (Option.some.inj h)
  | back =>
    obtain ⟨screen, -, h⟩ := Option.map_eq_some_iff.1 h
    cases h
    exact List.prefix_refl _
  | addItem text now =>
    obtain ⟨-, h⟩ := Option.ite_none_right_eq_some.1 h
    obtain ⟨screen, -, h⟩ := Option.map_eq_some_iff.1 h
    exact (sameView_addItem h).shown hs
  | toggleItem row now =>
    obtain ⟨screen, -, h⟩ := Option.map_eq_some_iff.1 h
    exact (sameView_toggleItem h).shown hs
  | deleteItem row =>
    obtain ⟨screen, -, h⟩ := Option.map_eq_some_iff.1 h
    exact (sameView_deleteItem h).shown hs
  | login now =>
    obtain ⟨-, h⟩ := Option.ite_none_right_eq_some.1 h
    cases hr : readData now s with
    | error e => rw [hr] at h; cases h
    | ok s₁ =>
      rw [hr] at h
      cases h
      have h₁ : Consistent s₁ := consistent_readData hs hc hr
      exact h₁
  | register inpName inpEmail =>
    obtain ⟨-, h⟩ := Option.ite_none_right_eq_some.1 h
    cases h
    exact hs
  | logout =>
    obtain ⟨-, h⟩ := Option.ite_none_right_eq_some.1 h
    cases h
    exact hs
  | refresh k =>
    cases h
    exact hs
  | fire k env =>
    obtain ⟨p, hk, h⟩ := Option.bind_eq_some_iff.1 h
    exact consistent_fire hk hs hc h
  | complete k user =>
    obtain ⟨p, -, h⟩ := Option.bind_eq_some_iff.1 h
    exact consistent_complete hs h
  | notify k env =>
    obtain ⟨o, -, h⟩ := Option.map_eq_some_iff.1 h
    obtain ⟨m, hm, rfl⟩ := onMem_ok h
    exact hs.append (names_fetchBlock hm)

theorem aligned_settle {t : Turn} (h : ∀ s', t = .ok s' → Consistent s') : Aligned (settle t) := by
  cases t with
  | ok s => exact fun _ => h s rfl
  | error e =>
    intro hr
    cases hr

theorem aligned_step {a : Action} {s : Sys} (hc : KeepsShown a s) (hs : Aligned s) :
    Aligned (step a s) := by
  by_cases hr : s.running = true
  · refine step_cases hs fun t ht => aligned_settle fun s' e => ?_
    exact consistent_event hc (hs hr) (e ▸ ht)
  · cases a with
    | launch now => exact aligned_settle fun s' e => consistent_launch e
    | _ => simpa only [step, if_neg hr] using hs

/-! ## What the user's events do to `curLST` -/

section
variable {k row : Nat} {now : Moment} {s : Sys} {l : ShopingListsClass}

theorem becomes_addItem {text : String} (ho : objectAt s.mem.curLST k = .ok (some l)) :
    Becomes (fun x => if x = l then
      { l with listItems := l.listItems ++
        [⟨s.mem.next, some text, some (DateAndTime.dateAndTimeNow now), false⟩] } else x)
      s (settle (itemViewController.addItem k text now s)) := by
  simp only [Becomes, itemViewController.addItem, ho, onCloud_mem, writeData_curLST]
  exact AppData.mapLists_curLST s.mem _

theorem becomes_toggleItem {item : ItemClass} (ho : objectAt s.mem.curLST k = .ok (some l))
    (hi : l.listItems[row]? = some item) :
    Becomes (fun x => { x with listItems := x.listItems.map fun y => if y = item then
      { item with
        itemPuchased := !item.itemPuchased
        itemTime := some (DateAndTime.dateAndTimeNow now) } else y })
      s (settle (itemViewController.toggleItem k row now s)) := by
  simp only [Becomes, itemViewController.toggleItem, ho, hi, onCloud_mem, writeData_curLST]
  exact AppData.mapLists_curLST s.mem _

theorem becomes_deleteItem {item : ItemClass} (ho : objectAt s.mem.curLST k = .ok (some l))
    (hi : l.listItems[row]? = some item) :
    Becomes (fun x => if x = l then { l with listItems := l.listItems.filter fun y => y ≠ item } else x)
      s (settle (itemViewController.deleteItem k row s)) := by
  simp only [Becomes, itemViewController.deleteItem, ho, hi, onCloud_mem, writeData_curLST]
  exact AppData.mapLists_curLST s.mem _

theorem elems_deleteList (ho : objectAt s.mem.curLST row = .ok (some l))
    (hc : (elems s.mem.curLST).count l = 1) :
    elems (settle (ListViewController.deleteList row s)).mem.curLST =
      (elems s.mem.curLST).eraseIdx row := by
  have herase := elems_removeObject (objectAt_some ho) hc
  simp only [ListViewController.deleteList, ho]
  -- the table loses its row, the cloud loses the list or the invitation
  obtain ⟨rows, hrows⟩ := settle_deleteRows row
    (if isEqualToString l.listOwner.uidText s.mem.curUser.uidText then
      (s.withMem (s.mem.updateArray s.mem.curLST (CompareList.removeObject l))).writeData.onCloud
        (DeleteListFromCloud.deleteFromCloud s.currentUser l)
    else
      (s.withMem (s.mem.updateArray s.mem.curLST (CompareList.removeObject l))).onCloud
        (RemoveInvitation.removeWithInivitation s.currentUser ⟨l.listName, l.listOwner⟩))
  refine (congrArg (fun t : Sys => elems t.mem.curLST) hrows).trans ?_
  split
  · rw [onCloud_mem, writeData_curLST]
    exact herase
  · rw [onCloud_mem]
    exact herase

end

/-- A step of an open item screen. -/
theorem step_of_screen {a : Action} {s : Sys} {t : Turn} (hr : s.running = true)
    (h : event s a = some t) : step a s = settle t := by
  rw [step_running hr, h]
  rfl

theorem targets_of_aligned {a : Action} {s : Sys} (hc : KeepsShown a s) (hs : Aligned s) :
    Targets a s := by
  intro hr
  have hs := hs hr
  have hitem : ∀ screen, s.screen = some screen →
      ∃ l, ListAt screen.curLSTInt screen.nameOfList s l := by
    intro screen hscreen
    rw [hscreen] at hs
    exact objectAt_of_names hs
  cases a with
  | addItem text now =>
    intro htext screen hscreen
    obtain ⟨l, hl⟩ := hitem screen hscreen
    refine ⟨l, hl, ?_⟩
    have he : event s (.addItem text now) =
        some (itemViewController.addItem screen.curLSTInt text now s) := by
      simp only [event, if_pos htext, Option.mem_def.1 hscreen, Option.map_some]
    rw [step_of_screen hr he]
    exact becomes_addItem hl.1
  | toggleItem row now =>
    intro screen hscreen
    obtain ⟨l, hl⟩ := hitem screen hscreen
    refine ⟨l, hl, fun item hi => ?_⟩
    have he : event s (.toggleItem row now) =
        some (itemViewController.toggleItem screen.curLSTInt row now s) := by
      simp only [event, Option.mem_def.1 hscreen, Option.map_some]
    rw [step_of_screen hr he]
    exact becomes_toggleItem hl.1 hi
  | deleteItem row =>
    intro screen hscreen
    obtain ⟨l, hl⟩ := hitem screen hscreen
    refine ⟨l, hl, fun item hi => ?_⟩
    have he : event s (.deleteItem row) =
        some (itemViewController.deleteItem screen.curLSTInt row s) := by
      simp only [event, Option.mem_def.1 hscreen, Option.map_some]
    rw [step_of_screen hr he]
    exact becomes_deleteItem hl.1 hi
  | deleteList row =>
    intro hscreen n hn
    rw [hscreen] at hs
    obtain ⟨hrow, rfl⟩ := List.getElem?_eq_some_iff.1 (Option.mem_def.1 hn)
    obtain ⟨l, hl⟩ := objectAt_of_names (getElem?_names hrow hs)
    refine ⟨l, hl, ?_⟩
    have he : event s (.deleteList row) = some (ListViewController.deleteList row s) :=
      if_pos ⟨by rw [hscreen]; rfl, hrow⟩
    rw [step_of_screen hr he]
    exact elems_deleteList hl.1 (hc l (objectAt_some hl.1))
  | _ => trivial

/-- **Events change the lists that the screens show**, and no others, in every run
in which the blocks that replace `curLST` keep the order on the screens. -/
theorem targets_run {as : List Action} {s : Sys} (h : s.running = false)
    (hc : Run.Along step KeepsShown as s) : Run.Along step Targets as s :=
  Run.along_of_invariant (P := Aligned) (D := Targets) (fun _ _ => aligned_step)
    (fun _ _ => targets_of_aligned) hc fun hr => by rw [h] at hr; cases hr

/-- Ann's device before its launch, with tools on the disk and food in the cloud. -/
def toolsSys : Sys :=
  { annSys (.children [("Data", .children [("u1", cloudNode [⟨some "Food", annData, annItems ["Milk"]⟩])])])
      [⟨some "Tools", annData, annItems ["Saw"]⟩] with running := false }

/-- The table is opened at the first row once the lists are merged and shown. -/
theorem targets_run_tools : Run.Along step Targets
    [.launch annEnv.now, .fire 0 annEnv, .openItems 0, .addItem "Nail" annEnv.now, .back, .deleteList 0] toolsSys :=
  targets_run rfl (by decide)

/-- The merge puts the food before the tools while the tools are open. -/
theorem not_targets_run : ¬ ∀ (as : List Action) (s : Sys), s.running = false →
    Run.Along step Targets as s := by
  intro h
  have hrun := h ([.launch annEnv.now, .openItems 0, .fire 0 annEnv, .fire 0 annEnv] ++
    [.addItem "Nail" annEnv.now]) toolsSys rfl
  obtain ⟨-, ht, -⟩ := Run.along_append.1 hrun
  obtain ⟨l, ⟨hl, hn⟩, -⟩ := ht (by decide) (by decide) ⟨0, some "Tools"⟩ (by decide)
  have hname : (names (Run.run step [.launch annEnv.now, .openItems 0, .fire 0 annEnv, .fire 0 annEnv]
      toolsSys).mem.curLST)[0]? = some (some "Tools") := by
    rw [names, List.getElem?_map, objectAt_some hl]
    exact congrArg some hn
  revert hname
  decide

end ShopingList
