import ShopingList.App.Writes
import Mathlib.Data.List.TakeWhile
import Mathlib.Logic.Function.Basic

/-!
# Clients that share the database

A `World` is a family of devices and one database; a step is a step of one client.
`track` follows the values last written at one place. `holds_run` says when they
stay stored, through every interleaving of the clients' steps.
-/

namespace ShopingList

open FNode FValidation KeyedMerge ListViewController

/-- Devices and the database they share. -/
structure World (ι : Type) where
  client : ι → Device
  db : FNode

namespace World

variable {ι : Type}

/-- A client and the database. -/
def sys (w : World ι) (c : ι) : Sys := { w.client c with db := w.db }

/-- An action of one client. -/
def step [DecidableEq ι] (x : ι × Action) (w : World ι) : World ι :=
  let s := ShopingList.step x.2 (w.sys x.1)
  ⟨Function.update w.client x.1 s.toDevice, s.db⟩

end World

/-! ## The values of an item -/

/-- The purchased value and the time stored at an item's place. -/
def Holds (path : List String) (v : ItemData) (db : FNode) : Prop :=
  leafAt (path ++ ["purchased"]) db = some (SaveListOnCloud.purchasedString v.itemPuchased) ∧
    leafAt (path ++ ["time"]) db = v.itemTime

/-- A write at `ref` does not reach these values. -/
def Off (path ref : List String) : Prop :=
  ∀ key ∈ ["purchased", "time"], ¬ ref <+: path ++ [key] ∧ ¬ path ++ [key] <+: ref

/-- The item has the values of `v`. -/
def Carries (v : ItemData) (item : Option ItemData) : Prop :=
  ∃ i ∈ item, i.itemPuchased = v.itemPuchased ∧ i.itemTime = v.itemTime

instance (path : List String) (v : ItemData) (db : FNode) : Decidable (Holds path v db) :=
  inferInstanceAs (Decidable (_ ∧ _))

instance (path ref : List String) : Decidable (Off path ref) :=
  inferInstanceAs (Decidable (∀ key ∈ _, _))

instance (v : ItemData) (item : Option ItemData) : Decidable (Carries v item) :=
  inferInstanceAs (Decidable (∃ i ∈ item, _))

theorem Holds.updateChild {path ref : List String} {v : ItemData} {db : FNode} (h : Holds path v db)
    (ho : Off path ref) (new : FNode) : Holds path v (updateChild new ref db) := by
  have hleaf : ∀ key ∈ ["purchased", "time"],
      leafAt (path ++ [key]) (FNode.updateChild new ref db) = leafAt (path ++ [key]) db := by
    intro key hkey
    obtain ⟨h1, h2⟩ := ho key hkey
    rw [leafAt, leafAt, getChild_updateChild_of_ne h1 h2]
  exact ⟨(hleaf "purchased" (by decide)).trans h.1, (hleaf "time" (by decide)).trans h.2⟩

/-- A write at the item's place, or at the place of its list. -/
theorem holds_of_getChild {path ref r : List String} {v : ItemData} {new db : FNode}
    (hp : path = ref ++ r)
    (h1 : leafAt ["purchased"] (getChild r new) = some (SaveListOnCloud.purchasedString v.itemPuchased))
    (h2 : leafAt ["time"] (getChild r new) = v.itemTime) : Holds path v (updateChild new ref db) := by
  subst hp
  constructor
  · rw [List.append_assoc, leafAt_updateChild_below, leafAt_append, h1]
  · rw [List.append_assoc, leafAt_updateChild_below, leafAt_append, h2]

theorem holds_savedNode {v : ItemData} {n : String} (hn : v.itemName = some n) (path : List String)
    (db : FNode) : Holds path v (updateChild (savedNode v) path db) := by
  obtain ⟨nm, t, p⟩ := v
  cases hn
  have hnode : savedNode ⟨some n, t, p⟩ = .children ([("Item name", .leaf n),
      ("purchased", .leaf (SaveListOnCloud.purchasedString p))] ++
        (t.map fun t => ("time", FNode.leaf t)).toList) := by
    cases t <;> simp [savedNode, dictionary, objectsAndKeys, SortedDict.ofList, SortedDict.set,
      -String.lt_iff_ltb]
  refine holds_of_getChild (r := []) (List.append_nil path).symm ?_ ?_ <;>
    cases t <;> simp [hnode, leafAt, getChild, getImmediateChild, SortedDict.get, leafValue, emptyNode]

/-- What is stored of an item when its list is saved. -/
theorem getChild_listNode (l : ListData) (n : String) : getChild ["listItems", n] (listNode l) =
    ((last ItemData.itemName n l.listItems).map itemNode).getD emptyNode := by
  rw [getChild, getImmediateChild_listItems, getChild, itemsNode, nodeBy, getImmediateChild,
    get_entriesBy_last]
  rfl

theorem holds_listNode {ref : List String} {n : String} {v : ItemData} {l : ListData}
    (h : Carries v (last ItemData.itemName n l.listItems)) (db : FNode) :
    Holds (ref ++ ["listItems", n]) v (updateChild (listNode l) ref db) := by
  obtain ⟨i, hi, hpurchased, htime⟩ := h
  obtain ⟨-, h1, h2⟩ := leafAt_itemNode (last_some hi).2
  refine holds_of_getChild rfl ?_ ?_
  · rw [getChild_listNode, hi, Option.map_some, Option.getD_some, h1, hpurchased]
  · rw [getChild_listNode, hi, Option.map_some, Option.getD_some, h2, htime]

/-! ## Merge blocks that have the latest values -/

/-- The item named `n` that a merge takes into the list `a` of `onlineLST`. -/
def takenItem (dates : DateAlloc) (offline : List ListData) (n : String) (a : ListData) :
    Option ItemData :=
  Option.merge (CompareList.pickData dates a.listName) (last ItemData.itemName n a.listItems)
    ((offline.find? fun b => sameKey ListData.listName b a).bind fun b =>
      last ItemData.itemName n b.listItems)

/-- In the lists at `ref`, online and offline, the item named `n` has the values of `v`
or is replaced by one that has. -/
structure Supplied (v : ItemData) (n : String) (dates : DateAlloc) (uid : Option String)
    (ref : List String) (online offline : List ListData) : Prop where
  ofOnline : ∀ a ∈ online, listPlace uid a = some ref → Carries v (takenItem dates offline n a)
  ofOffline : ∀ b ∈ offline, listPlace uid b = some ref →
    (∀ a ∈ online, sameKey ListData.listName b a = false) →
      Carries v (last ItemData.itemName n b.listItems)

theorem Supplied.carries {v : ItemData} {n : String} {dates : DateAlloc} {uid : Option String}
    {ref : List String} {u : UserData} {online offline : List ListData} {l : ListData}
    (h : Supplied v n dates uid ref online offline) (hl : l ∈ merged dates u online offline)
    (hr : listPlace uid l = some ref) : Carries v (last ItemData.itemName n l.listItems) := by
  obtain ⟨x, hx, rfl⟩ := List.mem_map.1 hl
  rw [ListData.withOwner_listItems]
  have hplace : listPlace uid x = some ref := hr
  rcases mem_unionBy_find hx with ⟨ha, hno⟩ | ⟨hb, hno⟩ | ⟨a, ha, b, hf, rfl⟩
  · have hnone : (offline.find? fun b => sameKey ListData.listName b x) = none := by
      rw [List.find?_eq_none]
      intro b hb
      rw [sameKey_comm, hno b hb]
      simp
    have hc := h.ofOnline x ha hplace
    rw [takenItem, hnone, Option.bind_none] at hc
    cases hlast : last ItemData.itemName n x.listItems with
    | none => rw [hlast] at hc; exact hc
    | some i => rw [hlast] at hc; exact hc
  · exact h.ofOffline x hb hplace hno
  · have hc := h.ofOnline a ha hplace
    rw [takenItem, hf, Option.bind_some] at hc
    rw [CompareList.combine, CompareList.mergeItems,
      last_mergeBy fun i j hij => CompareList.pickData_itemName dates a.listName hij]
    exact hc

instance (v : ItemData) (n : String) (dates : DateAlloc) (uid : Option String) (ref : List String)
    (online offline : List ListData) : Decidable (Supplied v n dates uid ref online offline) :=
  decidable_of_iff ((∀ a ∈ online, listPlace uid a = some ref → Carries v (takenItem dates offline n a)) ∧
      ∀ b ∈ offline, listPlace uid b = some ref →
        (∀ a ∈ online, sameKey ListData.listName b a = false) →
          Carries v (last ItemData.itemName n b.listItems))
    ⟨fun h => ⟨h.1, h.2⟩, fun h => ⟨h.ofOnline, h.ofOffline⟩⟩

/-- The saves of a block stay off the item, or the client has its values; no list that is
merged is a value of the server. -/
structure MergeKeeps (path : List String) (v : ItemData) (dates : DateAlloc) (m : AppData) : Prop where
  stored : ∀ l ∈ mergedOf dates m, isServerValue l = false
  saved : ∀ l ∈ savedLists dates m, ∀ ref ∈ listPlace m.curUser.uidText l, Off path ref ∨
    ∃ n ∈ path, path = ref ++ ["listItems", n] ∧
      Supplied v n dates m.curUser.uidText ref (contents m.onlineLST) (contents m.offlineLST)

instance (path : List String) (v : ItemData) (dates : DateAlloc) (m : AppData) :
    Decidable (MergeKeeps path v dates m) :=
  decidable_of_iff ((∀ l ∈ mergedOf dates m, isServerValue l = false) ∧
      ∀ l ∈ savedLists dates m, ∀ ref ∈ listPlace m.curUser.uidText l, Off path ref ∨
        ∃ n ∈ path, path = ref ++ ["listItems", n] ∧
          Supplied v n dates m.curUser.uidText ref (contents m.onlineLST) (contents m.offlineLST))
    ⟨fun h => ⟨h.1, h.2⟩, fun h => ⟨h.stored, h.saved⟩⟩

theorem holds_saves {path : List String} {v : ItemData} {dates : DateAlloc} {m : AppData} {db : FNode}
    (h : MergeKeeps path v dates m) (hv : Holds path v db) :
    Holds path v ((savedLists dates m).foldl (putList m.curUser.uidText) db) := by
  have hmem : ∀ l ∈ savedLists dates m,
      l ∈ mergedOf dates m ∧ ∃ ref, listPlace m.curUser.uidText l = some ref := by
    intro l hl
    obtain ⟨⟨ref, href⟩, -⟩ := saveable_iff.1 (List.mem_takeWhile_imp hl)
    exact ⟨(List.takeWhile_sublist _).subset hl, ref, listPlace_ok href⟩
  refine List.foldlRecOn _ _ hv fun db hdb l hl => ?_
  obtain ⟨hmerged, ref, href⟩ := hmem l hl
  rw [putList, href, Option.getD_some]
  rcases h.saved l hl ref href with hoff | ⟨n, -, rfl, hsupplied⟩
  · exact hdb.updateChild hoff _
  · exact holds_listNode (hsupplied.carries hmerged href) db

/-! ## Runs -/

section
variable {ι : Type} [DecidableEq ι]

/-- The values that an action writes at `path`. -/
def writtenAt (path : List String) (x : ι × Action) (w : World ι) : Option ItemData :=
  ((written x.2 (w.sys x.1)).filter fun p => p.1 = path).map Prod.snd

/-- A step, and the values last written at `path`. -/
def track (path : List String) (x : ι × Action) (t : World ι × Option ItemData) :
    World ι × Option ItemData :=
  (t.1.step x, (writtenAt path x t.1).or t.2)

/-- The values that a run last writes at `path`. -/
def latest (path : List String) (as : List (ι × Action)) (w : World ι) : Option ItemData :=
  (Run.run (track path) as (w, none)).2

/-- A step of the two protocols: read, callback, merge block and save of an item. -/
def InProtocol (x : ι × Action) (w : World ι) : Prop := x.2.inProtocol (w.client x.1) = true

/-- A step that keeps the values `t.2` of the item at `path`, if it has been written. -/
structure KeepsItem (path : List String) (x : ι × Action) (t : World ι × Option ItemData) : Prop where
  inProtocol : InProtocol x t.1
  writes : ∀ v ∈ t.2, ∀ p ∈ written x.2 (t.1.sys x.1), p.1 = path ∨ Off path p.1
  merges : ∀ v ∈ t.2, ∀ env ∈ mergeOf x.2 (t.1.sys x.1),
    MergeKeeps path v env.dates (t.1.client x.1).mem

instance (x : ι × Action) (w : World ι) : Decidable (InProtocol x w) :=
  inferInstanceAs (Decidable (_ = true))

instance (path : List String) (x : ι × Action) (t : World ι × Option ItemData) :
    Decidable (KeepsItem path x t) :=
  decidable_of_iff (InProtocol x t.1 ∧
      (∀ v ∈ t.2, ∀ p ∈ written x.2 (t.1.sys x.1), p.1 = path ∨ Off path p.1) ∧
      ∀ v ∈ t.2, ∀ env ∈ mergeOf x.2 (t.1.sys x.1), MergeKeeps path v env.dates (t.1.client x.1).mem)
    ⟨fun h => ⟨h.1, h.2.1, h.2.2⟩, fun h => ⟨h.inProtocol, h.writes, h.merges⟩⟩

theorem run_track (path : List String) (as : List (ι × Action)) (w : World ι) (o : Option ItemData) :
    (Run.run (track path) as (w, o)).1 = Run.run World.step as w := by
  induction as generalizing w o with
  | nil => rfl
  | cons x as ih => exact ih _ _

theorem written_of_mergeOf {a : Action} {s : Sys} {env : Env} (h : mergeOf a s = some env) :
    written a s = none := by
  cases a with
  | fire k env => exact written_none rfl
  | _ => cases h

/-- A saved item has a name. -/
theorem itemName_of_written {a : Action} {s : Sys} {p : List String × ItemData}
    (h : written a s = some p) : ∃ n, p.2.itemName = some n := by
  obtain ⟨-, h⟩ := Option.ite_none_right_eq_some.1 h
  obtain ⟨⟨item, list⟩, -, h⟩ := Option.bind_eq_some_iff.1 h
  obtain ⟨path, hpath, rfl⟩ := Option.map_eq_some_iff.1 h
  cases hp : itemPlace item list with
  | error e => rw [hp] at hpath; cases hpath
  | ok path' =>
    obtain ⟨ref, -, hi⟩ := Raising.bind_ok_iff.1 hp
    obtain ⟨n, hn, -⟩ := itemRef_ok hi
    exact ⟨n, hn⟩

/-- **One step of one client** keeps the values last written. -/
theorem holds_step {path : List String} {x : ι × Action} {t : World ι × Option ItemData}
    (hc : KeepsItem path x t) (h : ∀ v ∈ t.2, Holds path v t.1.db) :
    ∀ v ∈ (track path x t).2, Holds path v (track path x t).1.db := by
  obtain ⟨w, latest⟩ := t
  intro v hv
  have hdb : (track path x (w, latest)).1.db = (mergeOf x.2 (w.sys x.1)).elim
      (afterWrite (written x.2 (w.sys x.1)) w.db) fun env =>
        (savedLists env.dates (w.client x.1).mem).foldl (putList (w.client x.1).mem.curUser.uidText) w.db :=
    db_step (s := w.sys x.1) hc.inProtocol
  rw [hdb]
  rw [track, writtenAt] at hv
  cases hm : mergeOf x.2 (w.sys x.1) with
  | some env =>
    rw [written_of_mergeOf hm] at hv
    exact holds_saves (hc.merges v hv env hm) (h v hv)
  | none =>
    cases hw : written x.2 (w.sys x.1) with
    | none =>
      rw [hw] at hv
      exact h v hv
    | some p =>
      obtain ⟨n, hn⟩ := itemName_of_written hw
      rw [hw] at hv
      by_cases hp : p.1 = path
      · simp only [Option.filter_some, hp, decide_true, if_true, Option.map_some, Option.some_or] at hv
        cases hv
        exact hp ▸ holds_savedNode hn p.1 w.db
      · simp only [Option.filter_some, hp, decide_false, Bool.false_eq_true, if_false, Option.map_none,
          Option.none_or] at hv
        exact (h v hv).updateChild ((hc.writes v hv p hw).resolve_left hp) _

/-- **The values last written stay stored**, whatever the clients do in between. -/
theorem holds_run {path : List String} {as : List (ι × Action)} {w : World ι}
    (h : Run.Along (track path) (KeepsItem path) as (w, none)) :
    ∀ v ∈ latest path as w, Holds path v (Run.run World.step as w).db := by
  have hrun := Run.run_induct (P := fun t => ∀ v ∈ t.2, Holds path v t.1.db)
    (fun x t hc hs => holds_step hc hs) h fun v hv => by cases hv
  rwa [run_track] at hrun

end

/-! ## Two devices of Ann -/

/-- Both have the same `data.plist`. -/
def annWorld (cloud disk : List ListData) : World Bool where
  client := fun _ => { (annSys emptyNode disk).toDevice with running := false }
  db := .children [("Data", .children [("u1", cloudNode cloud)])]

def milkPlace : List String := ["Data", "u1", "Food", "listItems", "Milk"]

def milk : ItemData := ⟨some "Milk", some (DateAndTime.dateAndTimeNow annEnv.now), false⟩

/-- A device has added a list and opened it, before the callback of its read. -/
def addingMilk : World Bool :=
  Run.run World.step [(true, .launch annEnv.now), (true, .newList "Food"), (true, .openItems 0)]
    (annWorld [⟨some "Tools", annData, annItems ["Saw"]⟩] [])

/-- The merge block of the device has the milk, and so has a later read of the other one. -/
theorem holds_run_milk : Holds milkPlace milk (Run.run World.step
    [(true, .addItem "Milk" annEnv.now), (true, .fire 0 annEnv), (true, .fire 0 annEnv),
      (false, .launch annEnv.now), (false, .fire 0 annEnv), (false, .fire 0 annEnv)] addingMilk).db :=
  holds_run (by decide) milk (by decide)

/-- The other device reads the list, the milk is added, the other device saves what it has read. -/
theorem not_holds_run : ¬ ∀ (path : List String) (as : List (Bool × Action)) (w : World Bool),
    Run.Along World.step InProtocol as w →
      ∀ v ∈ latest path as w, Holds path v (Run.run World.step as w).db := by
  intro h
  have hrun := h milkPlace
    [(true, .launch annEnv.now), (false, .launch annEnv.now), (true, .openItems 0),
      (true, .addItem "Milk" annEnv.now), (false, .fire 0 annEnv), (false, .fire 0 annEnv)]
    (annWorld [⟨some "Food", annData, annItems ["Bread"]⟩] [⟨some "Food", annData, annItems ["Bread"]⟩])
    (by decide) milk (by decide)
  revert hrun
  decide

end ShopingList
