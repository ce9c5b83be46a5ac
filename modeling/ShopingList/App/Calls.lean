import ShopingList.App.Frame
import ShopingList.App.Outcomes

/-!
# The calls of a turn

`cloudCalls` lists the calls of the four classes that write below `Data` in a turn, in
order. `db_calls` says that they are all that happens below `Data`: the turn makes them one
after the other, up to the first that raises.
-/

namespace ShopingList

open FNode ListViewController

/-- The saves of a loop over lists. -/
def saveCalls (s : Sys) (curUser : UserClass) (ls : List ShopingListsClass) : List Call :=
  ls.map (.save s.currentUser curUser)

/-- The calls of an event of the user or a block, if none raises. A message about a nil
list is left out: it returns or raises before it writes. -/
def cloudCalls (a : Action) (s : Sys) : List Call :=
  if s.running then
    match a with
    | .newList text =>
      if s.screen.isNone ∧ text ≠ "" then
        [.save s.currentUser s.mem.curUser ⟨s.mem.next, some text, s.mem.curUser, []⟩]
      else []
    | .deleteList row =>
      if s.screen.isNone ∧ row < s.rows.length then
        match (objectAt s.mem.curLST row).toOption.join with
        | some l =>
          if isEqualToString l.listOwner.uidText s.mem.curUser.uidText then
            [.deleteList s.currentUser l]
          else []
        | none => []
      else []
    | .addItem text now =>
      if text ≠ "" then
        (shownList s).toList.map fun l =>
          let newItem : ItemClass := ⟨s.mem.next, some text, some (DateAndTime.dateAndTimeNow now), false⟩
          .saveItem s.currentUser newItem { l with listItems := l.listItems ++ [newItem] }
      else []
    | .toggleItem row now =>
      (shownList s).toList.flatMap fun l => l.listItems[row]?.toList.map fun i =>
        .saveItem s.currentUser (i.toggled now) l
    | .deleteItem row =>
      (shownList s).toList.flatMap fun l => l.listItems[row]?.toList.map fun i =>
        .deleteItem s.currentUser s.mem.curUser i
          { l with listItems := CompareList.removeObject i l.listItems }
    | .fire k env =>
      match s.pending[k]? with
      | some (.mergeBlock _) => saveCalls s s.mem.curUser
          ((elems (merge env.dates s.mem).curLST).map (·.withOwner s.mem.curUser))
      | some (.registerBlock n e user) =>
        let m := SetTheUser.setWithName (some n) (some e) user.uid s.mem
        saveCalls s m.curUser (elems m.curLST)
      | _ => []
    | _ => []
  else []

/-- The calls of a turn, one by one. -/
inductive CallOf (s : Sys) : Action → Call → Prop
  | newList (text : String) :
      CallOf s (.newList text) (.save s.currentUser s.mem.curUser ⟨s.mem.next, some text, s.mem.curUser, []⟩)
  | deleteList {row l} (ho : objectAt s.mem.curLST row = .ok (some l))
      (hown : isEqualToString l.listOwner.uidText s.mem.curUser.uidText = true) :
      CallOf s (.deleteList row) (.deleteList s.currentUser l)
  | addItem {text now l newItem} (hl : shownList s = some l) :
      CallOf s (.addItem text now) (.saveItem s.currentUser newItem { l with listItems := l.listItems ++ [newItem] })
  | toggleItem {row now l i} (hl : shownList s = some l) (hi : l.listItems[row]? = some i) :
      CallOf s (.toggleItem row now) (.saveItem s.currentUser (i.toggled now) l)
  | deleteItem {row l i} (hl : shownList s = some l) (hi : l.listItems[row]? = some i) :
      CallOf s (.deleteItem row) (.deleteItem s.currentUser s.mem.curUser i
        { l with listItems := CompareList.removeObject i l.listItems })
  | merged {k env n l} (hk : s.pending[k]? = some (.mergeBlock n)) (hl : l ∈ elems (merge env.dates s.mem).curLST) :
      CallOf s (.fire k env) (.save s.currentUser s.mem.curUser (l.withOwner s.mem.curUser))
  | registered {k env n e user l} (hk : s.pending[k]? = some (.registerBlock n e user))
      (hl : l ∈ elems (SetTheUser.setWithName (some n) (some e) user.uid s.mem).curLST) :
      CallOf s (.fire k env)
        (.save s.currentUser (SetTheUser.setWithName (some n) (some e) user.uid s.mem).curUser l)

/-- **Every call** is made by a running process, and is one of these. -/
theorem callOf_cloudCalls {a : Action} {s : Sys} {c : Call} (h : c ∈ cloudCalls a s) :
    s.running = true ∧ CallOf s a c := by
  unfold cloudCalls at h
  split at h
  case isFalse => cases h
  rename_i hrun
  refine ⟨hrun, ?_⟩
  cases a with
  | newList text =>
    simp only at h
    split at h
    · rw [List.mem_singleton.1 h]
      exact .newList text
    · cases h
  | deleteList row =>
    simp only at h
    split at h
    · split at h
      · split at h
        · rename_i l ho hown
          rw [List.mem_singleton.1 h]
          exact .deleteList (objectAt_of_join ho) hown
        · cases h
      · cases h
    · cases h
  | addItem text now =>
    simp only at h
    split at h
    · obtain ⟨l, hl, rfl⟩ := List.mem_map.1 h
      exact .addItem (Option.mem_toList.1 hl)
    · cases h
  | toggleItem row now =>
    obtain ⟨l, hl, h⟩ := List.mem_flatMap.1 h
    obtain ⟨i, hi, rfl⟩ := List.mem_map.1 h
    exact .toggleItem (Option.mem_toList.1 hl) (Option.mem_toList.1 hi)
  | deleteItem row =>
    obtain ⟨l, hl, h⟩ := List.mem_flatMap.1 h
    obtain ⟨i, hi, rfl⟩ := List.mem_map.1 h
    exact .deleteItem (Option.mem_toList.1 hl) (Option.mem_toList.1 hi)
  | fire k env =>
    simp only at h
    split at h
    · rename_i n hk
      obtain ⟨_, hx, rfl⟩ := List.mem_map.1 h
      obtain ⟨l, hl, rfl⟩ := List.mem_map.1 hx
      exact .merged hk hl
    · rename_i n e user hk
      obtain ⟨l, hl, rfl⟩ := List.mem_map.1 h
      exact .registered hk hl
    · cases h
  | _ => cases h

/-- The same tree below `Data`. -/
def SameLists (db db' : FNode) : Prop := ∀ p, getChild ("Data" :: p) db' = getChild ("Data" :: p) db

/-- The calls made turn the one database into the other, apart from what is not below `Data`. -/
def Made (calls : List Call) (db db' : FNode) : Prop :=
  ∃ db₀ made, SameLists db db₀ ∧ made <+: calls ∧ db' = Run.run Call.step made db₀

theorem SameLists.refl (db : FNode) : SameLists db db := fun _ => rfl

/-- A write below `Users`. -/
theorem SameLists.users (new : FNode) (r : List String) (db : FNode) :
    SameLists db (updateChild new ("Users" :: r) db) := by
  intro p
  rw [getChild, getChild, getImmediateChild_updateChild_ne (by decide)]

/-- Nothing is written. -/
theorem Made.none (calls : List Call) (db : FNode) : Made calls db db :=
  ⟨db, [], .refl db, List.nil_prefix, rfl⟩

theorem Made.one (c : Call) (db : FNode) : Made [c] db (c.step db) :=
  ⟨db, [c], .refl db, List.prefix_refl _, rfl⟩

/-- What the calls keep. -/
theorem Made.induct {P : FNode → Prop} {calls : List Call} {db db' : FNode} (h : Made calls db db')
    (hsame : ∀ db₀, SameLists db db₀ → P db → P db₀) (hcall : ∀ c ∈ calls, ∀ db, P db → P (c.step db))
    (hdb : P db) : P db' := by
  obtain ⟨db₀, made, hlists, hpre, rfl⟩ := h
  have hmade : ∀ c ∈ made, ∀ db, P db → P (c.step db) := fun c hc => hcall c (hpre.subset hc)
  have hstart := hsame db₀ hlists hdb
  clear hlists hpre hdb
  induction made generalizing db₀ with
  | nil => exact hstart
  | cons c made ih =>
    exact ih (c.step db₀) (fun c' hc' => hmade c' (List.mem_cons_of_mem _ hc'))
      (hmade c List.mem_cons_self db₀ hstart)

/-! ## Turns -/

theorem db_onCloud_call (c : Call) (s : Sys) : (settle (s.onCloud c.perform)).db = c.step s.db := by
  unfold Sys.onCloud Call.step
  cases c.perform s.db <;> rfl

/-- The end of an edit. -/
theorem Made.onCloud (c : Call) (s : Sys) : Made [c] s.db (settle (s.onCloud c.perform)).db := by
  rw [db_onCloud_call]
  exact .one c s.db

/-- A loop of saves makes its calls up to the first that raises. -/
theorem loop_saves (s : Sys) (curUser : UserClass) (ls : List ShopingListsClass) (db : FNode) :
    ∃ made, made <+: saveCalls s curUser ls ∧
      Raising.outcome (Raising.loop (SaveListOnCloud.save s.currentUser curUser) ls db) =
        Run.run Call.step made db := by
  induction ls generalizing db with
  | nil => exact ⟨[], List.nil_prefix, rfl⟩
  | cons l ls ih =>
    rw [Raising.loop]
    cases hs : SaveListOnCloud.save s.currentUser curUser l db with
    | error e => exact ⟨[], List.nil_prefix, rfl⟩
    | ok db' =>
      obtain ⟨made, hpre, he⟩ := ih db'
      refine ⟨.save s.currentUser curUser l :: made, List.cons_prefix_cons.2 ⟨rfl, hpre⟩, ?_⟩
      have hstep : (Call.save s.currentUser curUser l).step db = db' := by
        rw [Call.step, Call.perform, hs]
      rw [Run.run, hstep]
      exact he

/-- References below `Users` stay below it. -/
theorem users_of_child {q p : List String} {pathString : Option String}
    (h : child ("Users" :: q) pathString = .ok p) : ∃ r, p = "Users" :: r := by
  obtain ⟨n, -, rfl⟩ := child_ok h
  exact ⟨q ++ FPath.pieces n, rfl⟩

theorem sameLists_removeInvitation {user : Option FIRUser} {inv : InvitationClass} {db db' : FNode}
    (h : RemoveInvitation.removeWithInivitation user inv db = .ok db') : SameLists db db' := by
  unfold RemoveInvitation.removeWithInivitation at h
  split at h
  · cases h
    exact .refl db
  · obtain ⟨base, hbase, h⟩ := Raising.bind_ok_iff.1 h
    obtain ⟨r₁, rfl⟩ := users_of_child hbase
    obtain ⟨ref, href, h⟩ := Raising.bind_ok_iff.1 h
    obtain ⟨r₂, rfl⟩ := users_of_child href
    obtain ⟨node, hnode, h⟩ := Raising.bind_ok_iff.1 h
    obtain ⟨r₃, rfl⟩ := users_of_child hnode
    cases h
    exact .users _ _ db

theorem made_reject (calls : List Call) (inv : InvitationClass) (s : Sys) : Made calls s.db
    (settle (s.onCloud (RemoveInvitation.removeWithInivitation s.currentUser inv))).db := by
  unfold Sys.onCloud
  cases hw : RemoveInvitation.removeWithInivitation s.currentUser inv s.db with
  | error e => exact .none _ _
  | ok db => exact ⟨db, [], sameLists_removeInvitation hw, List.nil_prefix, rfl⟩

/-- The deletion of an own list. -/
theorem db_deleteList {row : Nat} {l : ShopingListsClass} {s : Sys} (ho : objectAt s.mem.curLST row = .ok (some l))
    (hown : isEqualToString l.listOwner.uidText s.mem.curUser.uidText = true) :
    (settle (ListViewController.deleteList row s)).db = (Call.deleteList s.currentUser l).step s.db := by
  let t := s.withMem (s.mem.updateArray s.mem.curLST (CompareList.removeObject l))
  rw [ListViewController.deleteList, ho]
  simp only
  rw [db_map_settle (f := deleteRows row) fun _ => rfl,
    if_pos (show isEqualToString l.listOwner.uidText t.mem.curUser.uidText = true from hown)]
  exact db_onCloud_call (.deleteList s.currentUser l) t.writeData

/-- A message about a nil list writes nothing. -/
theorem step_deleteItem_null (session : Option FIRUser) (curUser : UserClass) (i : ItemClass) (db : FNode) :
    (Call.deleteItem session curUser i .null).step db = db := by
  rw [Call.step]
  cases hp : (Call.deleteItem session curUser i .null).perform db with
  | error e => rfl
  | ok db' =>
    cases session with
    | none =>
      cases hp
      rfl
    | some user =>
      obtain ⟨ref, path, href, -, -⟩ := deleteItem_ok_iff.1 hp
      obtain ⟨base, -, href⟩ := Raising.bind_ok_iff.1 href
      cases href

/-- The deletion of an item. -/
theorem db_deleteItem {curLSTInt row : Nat} {l : ShopingListsClass} {i : ItemClass} {s : Sys}
    (ho : objectAt s.mem.curLST curLSTInt = .ok (some l)) (hi : l.listItems[row]? = some i) :
    (settle (itemViewController.deleteItem curLSTInt row s)).db = (Call.deleteItem s.currentUser s.mem.curUser i
      { l with listItems := CompareList.removeObject i l.listItems }).step s.db := by
  rw [itemViewController.deleteItem, ho]
  simp only [hi]
  exact db_onCloud_call (.deleteItem s.currentUser s.mem.curUser i _) (s.withMem (s.mem.assignList l
    { l with listItems := CompareList.removeObject i l.listItems })).writeData

theorem made_deleteList {row : Nat} {s : Sys} (hr : s.running = true)
    (hg : s.screen.isNone = true ∧ row < s.rows.length) : Made (cloudCalls (.deleteList row) s) s.db
      (settle (ListViewController.deleteList row s)).db := by
  simp only [cloudCalls, if_pos hr, if_pos hg]
  cases ho : objectAt s.mem.curLST row with
  | error e =>
    rw [ListViewController.deleteList, ho]
    exact .none _ _
  | ok o =>
    cases o with
    | none =>
      rw [ListViewController.deleteList, ho, db_map_settle (f := deleteRows row) fun _ => rfl]
      exact made_reject _ _ _
    | some l =>
      simp only [Except.toOption, Option.join_some]
      by_cases hown : isEqualToString l.listOwner.uidText s.mem.curUser.uidText = true
      · rw [if_pos hown, db_deleteList ho hown]
        exact .one _ _
      · let t := s.withMem (s.mem.updateArray s.mem.curLST (CompareList.removeObject l))
        rw [ListViewController.deleteList, ho]
        simp only
        rw [db_map_settle (f := deleteRows row) fun _ => rfl, if_neg hown,
          if_neg (show ¬ isEqualToString l.listOwner.uidText t.mem.curUser.uidText = true from hown)]
        exact made_reject _ _ t

section
variable {s : Sys} {screen : ItemScreen} (hs : s.screen = some screen)
include hs

theorem made_addItem (hr : s.running = true) {text : String} {now : Moment} (ht : text ≠ "") :
    Made (cloudCalls (.addItem text now) s) s.db
      (settle (itemViewController.addItem screen.curLSTInt text now s)).db := by
  simp only [cloudCalls, if_pos hr, if_pos ht, shownList_eq hs]
  rw [itemViewController.addItem]
  cases ho : objectAt s.mem.curLST screen.curLSTInt with
  | error e => exact .none _ _
  | ok o =>
    cases o with
    | none =>
      rw [db_saveItem, itemPlace_null, ite_self]
      exact .none _ _
    | some l =>
      exact Made.onCloud (.saveItem s.currentUser ⟨s.mem.next, some text,
        some (DateAndTime.dateAndTimeNow now), false⟩ _) (s.withMem (withNewItem text now l s.mem)).writeData

theorem made_toggleItem (hr : s.running = true) (row : Nat) (now : Moment) :
    Made (cloudCalls (.toggleItem row now) s) s.db
      (settle (itemViewController.toggleItem screen.curLSTInt row now s)).db := by
  simp only [cloudCalls, if_pos hr, shownList_eq hs]
  rw [itemViewController.toggleItem]
  cases ho : objectAt s.mem.curLST screen.curLSTInt with
  | error e => exact .none _ _
  | ok o =>
    cases o with
    | none =>
      rw [db_saveItem, itemPlace_null, ite_self]
      exact .none _ _
    | some l =>
      cases hi : l.listItems[row]? with
      | none =>
        simp only [hi]
        exact .none _ _
      | some i =>
        simp only [Except.toOption, Option.join_some, Option.toList_some, List.flatMap_singleton, hi,
          List.map_cons, List.map_nil]
        exact Made.onCloud (.saveItem s.currentUser (i.toggled now) l)
          (s.withMem (s.mem.assignItem i (i.toggled now))).writeData

theorem made_deleteItem (hr : s.running = true) (row : Nat) :
    Made (cloudCalls (.deleteItem row) s) s.db
      (settle (itemViewController.deleteItem screen.curLSTInt row s)).db := by
  simp only [cloudCalls, if_pos hr, shownList_eq hs]
  cases ho : objectAt s.mem.curLST screen.curLSTInt with
  | error e =>
    rw [itemViewController.deleteItem, ho]
    exact .none _ _
  | ok o =>
    cases o with
    | none =>
      have hmade := db_onCloud_call
        (.deleteItem s.currentUser s.mem.curUser ⟨0, none, none, false⟩ .null) s.writeData
      rw [step_deleteItem_null] at hmade
      rw [itemViewController.deleteItem, ho]
      show Made _ s.db (settle (s.writeData.onCloud
        (Call.deleteItem s.currentUser s.mem.curUser ⟨0, none, none, false⟩ .null).perform)).db
      rw [hmade]
      exact .none _ _
    | some l =>
      cases hi : l.listItems[row]? with
      | none =>
        rw [itemViewController.deleteItem, ho]
        simp only [hi]
        exact .none _ _
      | some i =>
        simp only [Except.toOption, Option.join_some, Option.toList_some, List.flatMap_singleton, hi,
          List.map_cons, List.map_nil]
        rw [db_deleteItem ho hi]
        exact .one _ _

end

theorem made_mergeBlock {k n : Nat} {env : Env} {s : Sys} (hr : s.running = true)
    (hk : s.pending[k]? = some (.mergeBlock n)) : Made (cloudCalls (.fire k env) s) s.db
      (settle (ListViewController.mergeBlock env.dates (s.without k))).db := by
  simp only [cloudCalls, if_pos hr, hk]
  obtain ⟨made, hpre, he⟩ := loop_saves s s.mem.curUser
    ((elems (merge env.dates s.mem).curLST).map (·.withOwner s.mem.curUser)) s.db
  exact ⟨s.db, made, .refl _, hpre, (db_mergeBlock env.dates (s.without k)).trans he⟩

/-- The loop of saves of a registration. -/
theorem db_loop_register (ls : List ShopingListsClass) (t : Sys) :
    (settle (Raising.loop (fun any s =>
      match SaveListOnCloud.save s.currentUser s.mem.curUser any s.db with
      | .ok db => .ok { s with db := db }
      | .error e => .error e) ls t)).db =
    Raising.outcome (Raising.loop (SaveListOnCloud.save t.currentUser t.mem.curUser) ls t.db) := by
  induction ls generalizing t with
  | nil => rfl
  | cons l ls ih =>
    rw [Raising.loop, Raising.loop]
    cases hs : SaveListOnCloud.save t.currentUser t.mem.curUser l t.db with
    | error e => rfl
    | ok db => exact ih { t with db := db }

theorem made_registerBlock {k : Nat} {env : Env} {s : Sys} {n e : String} {user : FIRUser}
    (hr : s.running = true) (hk : s.pending[k]? = some (.registerBlock n e user)) :
    Made (cloudCalls (.fire k env) s) s.db
      (settle (ListViewController.registerBlock n e user (s.without k))).db := by
  simp only [cloudCalls, if_pos hr, hk]
  let t := (s.without k).setTheUser (some n) (some e) user.uid
  let newUser : FNode := .children (SortedDict.ofList
    [("name", .leaf n), ("email", .leaf e), ("uiid", .leaf user.uid)])
  rw [ListViewController.registerBlock]
  cases hw : t.onCloud fun db => do setValue (← child userNode (some user.uid)) newUser db with
  | error x =>
    obtain ⟨x, t'⟩ := x
    have hdb : t'.db = s.db := by
      unfold Sys.onCloud at hw
      split at hw
      · cases hw
      · cases hw
        rfl
    show Made _ s.db t'.db
    rw [hdb]
    exact .none _ _
  | ok t₁ =>
    have ht₁ : ∃ db₁, SameLists s.db db₁ ∧ t₁ = { t with db := db₁ } := by
      unfold Sys.onCloud at hw
      split at hw
      · rename_i db₁ hdb
        cases hw
        obtain ⟨ref, href, hdb⟩ := Raising.bind_ok_iff.1 hdb
        obtain ⟨r, rfl⟩ := users_of_child href
        obtain ⟨value, -, hdb⟩ := Raising.bind_ok_iff.1 hdb
        cases hdb
        exact ⟨_, .users _ _ _, rfl⟩
      · cases hw
    obtain ⟨db₁, hsame, rfl⟩ := ht₁
    obtain ⟨made, hpre, he⟩ := loop_saves s t.mem.curUser (elems t.mem.curLST) db₁
    exact ⟨db₁, made, hsame, hpre, (db_loop_register _ (Sys.reload { t with db := db₁ })).trans he⟩

theorem made_fire {k : Nat} {env : Env} {s : Sys} (hr : s.running = true) :
    Made (cloudCalls (.fire k env) s) s.db (((event s (.fire k env)).map settle).getD s).db := by
  cases hk : s.pending[k]? with
  | none =>
    rw [event, hk]
    exact .none _ _
  | some p =>
    by_cases hm : ∃ n, p = .mergeBlock n
    · obtain ⟨n, rfl⟩ := hm
      rw [event, hk]
      exact made_mergeBlock hr hk
    by_cases hb : ∃ n e u, p = .registerBlock n e u
    · obtain ⟨n, e, u, rfl⟩ := hb
      rw [event, hk]
      exact made_registerBlock hr hk
    · rw [db_fire hk (fun n e => hm ⟨n, e⟩) fun n e u he => hb ⟨n, e, u, he⟩]
      exact .none _ _

/-- **What a step does below `Data`**: the calls of its turn. -/
theorem db_calls (a : Action) (s : Sys) : Made (cloudCalls a s) s.db (step a s).db := by
  cases hr : s.running with
  | false =>
    by_cases hl : ∃ now, a = .launch now
    · obtain ⟨now, rfl⟩ := hl
      rw [show (step (.launch now) s).db = s.db from db_launch now s]
      exact .none _ _
    · rw [step_stopped hr fun now e => hl ⟨now, e⟩]
      exact .none _ _
  | true =>
    rw [step_running hr]
    cases a with
    | launch now => exact (db_launch now s).symm ▸ .none _ _
    | newList text =>
      rw [event]
      split
      · rename_i hg
        simp only [cloudCalls, if_pos hr, if_pos hg]
        exact Made.onCloud (.save s.currentUser s.mem.curUser ⟨s.mem.next, some text, s.mem.curUser, []⟩)
          (s.withMem (withNewList text s.mem)).reload.writeData
      · exact .none _ _
    | deleteList row =>
      rw [event]
      split
      · rename_i hg
        exact made_deleteList hr hg
      · exact .none _ _
    | openItems row =>
      rw [event]
      split
      · exact (db_openItems row s).symm ▸ .none _ _
      · exact .none _ _
    | back =>
      rw [event]
      cases s.screen <;> exact .none _ _
    | addItem text now =>
      rw [event]
      split
      · rename_i ht
        cases hs : s.screen with
        | none => exact .none _ _
        | some screen => exact made_addItem hs hr ht
      · exact .none _ _
    | toggleItem row now =>
      rw [event]
      cases hs : s.screen with
      | none => exact .none _ _
      | some screen => exact made_toggleItem hs hr row now
    | deleteItem row =>
      rw [event]
      cases hs : s.screen with
      | none => exact .none _ _
      | some screen => exact made_deleteItem hs hr row
    | login now =>
      rw [event]
      split
      · have hdb : (settle ((Sys.await .signIn) <$> readData now s)).db = s.db :=
          (db_map_settle (f := Sys.await .signIn) (fun _ => rfl) _).trans (db_readData now s)
        exact hdb.symm ▸ .none _ _
      · exact .none _ _
    | register n e =>
      rw [event]
      split <;> exact .none _ _
    | logout =>
      rw [event]
      split <;> exact .none _ _
    | refresh k => exact .none _ _
    | fire k env => exact made_fire hr
    | complete k user => exact (db_complete k user s).symm ▸ .none _ _
    | notify k env =>
      rw [event]
      cases s.observers[k]? with
      | none => exact .none _ _
      | some o => exact (db_onMem _ s).symm ▸ .none _ _

end ShopingList
