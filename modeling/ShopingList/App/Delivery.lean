import ShopingList.Firebase.Stored
import ShopingList.App.SharedLists
import ShopingList.App.Screens

/-!
# Delivery of invitations

The merge block of a sync leaves a callback for the coordinates, the block that appends
the invitations, and one observer for each invitation that is in memory; these run in
any order (`SyncRun`). `listed_syncRun` computes the lists that the user has once all
of them have run, and `delivered_iff` says when every stored invitation is among them once:
of own lists of the name, observers in time and lists of an earlier sync there is one.
-/

namespace ShopingList

open ListViewController FNode

/-! ## Invitations in the cloud -/

/-- What tells one invited list from another: its name and the uid of its owner. -/
abbrev Coords := Option String × Option String

def ShopingListsClass.coords (l : ShopingListsClass) : Coords := (l.listName, l.listOwner.uidText)

def InvitationClass.coords (c : InvitationClass) : Coords := (c.listName, c.listOwner.uidText)

/-- The lists of an array, by their coordinates. -/
def listed (array : Option NSMutableArray) : List Coords := (elems array).map (·.coords)

/-- The invitations stored for a user. -/
def invitationsTo (user : FIRUser) (db : FNode) : List Coords :=
  (getChild ("Users" :: FPath.pieces user.uid ++ ["invitations"]) db).values.map fun x =>
    (leafAt ["listName"] x, leafAt ["uid"] x)

/-- The list exists in the cloud. -/
def InCloud (c : Coords) (db : FNode) : Prop :=
  ∃ name ∈ c.1, ∃ uid ∈ c.2, ∃ x ∈ (getChild ("Data" :: FPath.pieces uid) db).values,
    leafAt ["listName"] x = some name

instance (c : Coords) (db : FNode) : Decidable (InCloud c db) :=
  inferInstanceAs (Decidable (∃ name ∈ c.1, ∃ uid ∈ c.2, ∃ x ∈ _, _))

/-- Each invited list is in `curLST` exactly once. -/
def Delivered (user : FIRUser) (db : FNode) (m : AppData) : Prop :=
  ∀ c ∈ invitationsTo user db, InCloud c db → (listed m.curLST).count c = 1

/-! ## The callbacks of a sync -/

/-- What a sync waits for after its merge block. -/
inductive Waiting where
  | block (p : Pending)
  | observer (o : Observer)

def Waiting.isAppend : Waiting → Bool
  | .block .appendBlock => true
  | _ => false

def Pending.isRead : Pending → Bool
  | .readCallback _ _ _ => true
  | _ => false

/-- The process runs these callbacks and blocks, one after the other. -/
inductive Follows : List (Waiting × Env) → Sys → Sys → Prop
  | nil (s : Sys) : Follows [] s s
  | block {k : Nat} {p : Pending} {env : Env} {es : List (Waiting × Env)} {s s' : Sys}
      (hk : s.pending[k]? = some p) (h : Follows es (step (.fire k env) s) s') :
      Follows ((.block p, env) :: es) s s'
  | observer {k : Nat} {o : Observer} {env : Env} {es : List (Waiting × Env)} {s s' : Sys}
      (hk : s.observers[k]? = some o) (h : Follows es (step (.notify k env) s) s') :
      Follows ((.observer o, env) :: es) s s'

/-- What the merge block of `s` has left, in the state `t` after it. -/
def leftWaiting (s t : Sys) : List Waiting :=
  (t.pending.drop (s.pending.length - 1)).map .block ++
    (t.observers.drop s.observers.length).map .observer

/-- One sync without an exception: its merge block, then all that it has left, in the order of
`es`; callbacks of reads may come in between. -/
structure SyncRun (k : Nat) (env : Env) (es : List (Waiting × Env)) (s s' : Sys) : Prop where
  mergeBlock : ∃ n, s.pending[k]? = some (.mergeBlock n)
  order : ∃ reads : List Pending, (∀ p ∈ reads, p.isRead = true) ∧
    (es.map Prod.fst).Perm (leftWaiting s (step (.fire k env) s) ++ reads.map .block)
  follows : Follows es (step (.fire k env) s) s'
  completes : s'.running = true

/-! ## What is delivered -/

/-- The number of lists that an observer makes of the cloud. -/
def finds (env : Env) (coords : InvitationClass) (db : FNode) : Nat :=
  (getChild ("Data" :: (coords.listOwner.uidText.map FPath.pieces).getD []) db).values.countP fun x =>
    FetchInvitationnData.sameString env.sameString coords.listName (x.valueForKey "listName")

def made (db : FNode) : Waiting × Env → List Coords
  | (.block _, _) => []
  | (.observer o, env) =>
    List.replicate (finds env o.coords db) (o.coords.listName, o.coords.listOwner.uidText)

/-- The lists that the observers make before the block that appends them. -/
def inTime (db : FNode) (es : List (Waiting × Env)) : List Coords :=
  (es.takeWhile fun e => !e.1.isAppend).flatMap (made db)

/-- The merged lists, which become the user's. -/
def ownCoords (dates : DateAlloc) (m : AppData) : List Coords :=
  (elems (merge dates m).curLST).map fun l => (l.listName, m.curUser.uidText)

/-- The invited lists of an earlier sync. -/
def earlierCoords (dates : DateAlloc) (m : AppData) : List Coords :=
  (elems m.invitationLST).map fun l =>
    (l.listName, if l ∈ elems (merge dates m).curLST then m.curUser.uidText else l.listOwner.uidText)

/-- What `curLST` holds after the sync. -/
def expected (dates : DateAlloc) (m : AppData) (db : FNode) (es : List (Waiting × Env)) : List Coords :=
  ownCoords dates m ++ if inTime db es = [] then earlierCoords dates m else inTime db es

/-! ## When an invited list comes once -/

/-- The user's lists of the name once the merge block has run: those that were read from the
cloud, or if there are none those of the disk. -/
def ownLists (c : Coords) (m : AppData) : Nat :=
  if c.2 = m.curUser.uidText then
    if (names m.onlineLST).count c.1 = 0 then (names m.offlineLST).count c.1 else (names m.onlineLST).count c.1
  else 0

/-- The callbacks that run before the block that appends. -/
def early (es : List (Waiting × Env)) : List (Waiting × Env) := es.takeWhile fun e => !e.1.isAppend

/-- An observer of the invitation, for which the name is one string object with that of the node. -/
def Waiting.observes (c : Coords) : Waiting × Env → Bool
  | (.block _, _) => false
  | (.observer o, env) => decide (o.coords.coords = c) && c.1.any env.sameString

/-- The observers of the invitation that run in time. -/
def observedInTime (c : Coords) (es : List (Waiting × Env)) : Nat := (early es).countP (Waiting.observes c)

/-- The lists of the name below the owner's node. -/
def storedLists (c : Coords) (db : FNode) : Nat :=
  (getChild ("Data" :: (c.2.map FPath.pieces).getD []) db).values.countP fun x => leafAt ["listName"] x = c.1

/-- An observer in time finds a list of the name of its invitation. -/
def SomeFound (db : FNode) (es : List (Waiting × Env)) : Prop :=
  ∃ e ∈ early es, 0 < (match e.1 with
    | .block _ => 0
    | .observer o => finds e.2 o.coords db)

instance (db : FNode) (es : List (Waiting × Env)) : Decidable (SomeFound db es) :=
  inferInstanceAs (Decidable (∃ e ∈ early es, _))

/-- The merge makes this list object the user's: it is in one input, which alone has its name. -/
def MergeTakes (m : AppData) (l : ShopingListsClass) : Prop :=
  l ∈ elems m.onlineLST ∧ CompareList.isUnique l (elems m.offlineLST) = true ∨
    l ∈ elems m.offlineLST ∧ CompareList.isUnique l (elems m.onlineLST) = true

instance (m : AppData) (l : ShopingListsClass) : Decidable (MergeTakes m l) :=
  inferInstanceAs (Decidable (_ ∧ _ ∨ _ ∧ _))

/-- The lists with these coordinates that an earlier sync has left in `invitationLST`. -/
def leftLists (c : Coords) (m : AppData) : Nat :=
  (elems m.invitationLST).countP fun l =>
    (l.listName, if MergeTakes m l then m.curUser.uidText else l.listOwner.uidText) = c

/-- The user has the list already and nothing adds it, or has it not and one list is added: by the
one observer in time if some observer finds something, otherwise from `invitationLST`. -/
def ComesOnce (c : Coords) (m : AppData) (db : FNode) (es : List (Waiting × Env)) : Prop :=
  if SomeFound db es then
    ownLists c m = 1 ∧ observedInTime c es = 0 ∨
      ownLists c m = 0 ∧ observedInTime c es = 1 ∧ storedLists c db = 1
  else ownLists c m = 1 ∧ leftLists c m = 0 ∨ ownLists c m = 0 ∧ leftLists c m = 1

instance (c : Coords) (m : AppData) (db : FNode) (es : List (Waiting × Env)) : Decidable (ComesOnce c m db es) :=
  inferInstanceAs (Decidable (if SomeFound db es then _ ∧ _ ∨ _ ∧ _ ∧ _ else _ ∧ _ ∨ _ ∧ _))

/-! ## Single events -/

/-- An array that an observer fills becomes `invitationLST`. -/
def fill (fetchedArr : Nat) (news : List ShopingListsClass) (next : Nat) (m : AppData) : AppData :=
  let m := m.mapArrays fun b => if b.addr = fetchedArr then { b with objs := b.objs ++ news } else b
  { m with
    invitationLST := m.fetched.find? fun b => b.addr = fetchedArr
    next := next }

section
variable {env : Env} {db : FNode} {s s' : Sys} {es : List (Waiting × Env)}

theorem Follows.running (h : Follows es s s') (hr : s'.running = true) : s.running = true := by
  induction h with
  | nil => exact hr
  | @block k _ env _ s _ _ _ ih =>
    cases hs : s.running with
    | true => rfl
    | false =>
      rw [step_stopped hs (by intro now e; cases e), hs] at ih
      exact ih hr
  | @observer k _ env _ s _ _ _ ih =>
    cases hs : s.running with
    | true => rfl
    | false =>
      rw [step_stopped hs (by intro now e; cases e), hs] at ih
      exact ih hr

/-- `invitationLST` is a fetched array. -/
theorem invitation_updateArray {m : AppData} {array : Option NSMutableArray}
    (f : List ShopingListsClass → List ShopingListsClass) (ha : ∀ a, m.invitationLST = some a → a ∈ m.fetched)
    (h : ∀ b ∈ m.fetched, array.map NSMutableArray.addr ≠ some b.addr) :
    (m.updateArray array f).invitationLST = m.invitationLST := by
  show m.invitationLST.map _ = m.invitationLST
  cases hinv : m.invitationLST with
  | none => rfl
  | some b => rw [Option.map_some, if_neg (h b (ha b hinv))]

theorem settle_onMem {f : AppData → Except NSException AppData}
    (h : (settle (s.onMem f)).running = true) :
    ∃ m, f s.mem = .ok m ∧ settle (s.onMem f) = s.withMem m := by
  unfold Sys.onMem at h ⊢
  cases hm : f s.mem with
  | error e =>
    rw [hm] at h
    cases h
  | ok m => exact ⟨m, rfl, rfl⟩

theorem fire_eq_settle {k : Nat} {p : Pending} {t : Turn} (hr : s.running = true) (hk : s.pending[k]? = some p)
    (ht : Pending.run env (s.without k) p = some t) : step (.fire k env) s = settle t := by
  rw [step_running hr, event, hk, Option.bind_some, ht]
  rfl

theorem notify_eq_settle {k : Nat} {o : Observer} (hr : s.running = true) (hk : s.observers[k]? = some o) :
    step (.notify k env) s = settle (s.onMem (FetchInvitationnData.block env.order env.sameString o.coords
      o.fetchedArr (getChild ("Data" :: (o.coords.listOwner.uidText.map FPath.pieces).getD []) s.db))) := by
  rw [step_running hr, event, hk]
  rfl

/-- The block reads the items of every node that has the name. -/
theorem fetchedItems_ok {order : DictOrder} {same : String → Bool} {name : Option String}
    {nodes : List FNode} {found : List (List ItemData)}
    (h : FetchInvitationnData.fetchedItems order same name nodes = .ok found) :
    List.Forall₂ (fun x items => ∃ value, objectForKey "listItems" x = .ok value ∧
        FetchInvitationnData.readItems order value = .ok items)
      (nodes.filter fun x => FetchInvitationnData.sameString same name (x.valueForKey "listName")) found := by
  induction nodes generalizing found with
  | nil =>
    cases h
    exact .nil
  | cons x nodes ih =>
    obtain ⟨v, hv, h⟩ := Raising.bind_ok_iff.1 h
    rw [List.filter_cons, (objectForKey_iff.1 hv).2]
    split at h
    · rename_i hsame
      obtain ⟨value, hvalue, h⟩ := Raising.bind_ok_iff.1 h
      obtain ⟨items, hitems, h⟩ := Raising.bind_ok_iff.1 h
      obtain ⟨rest, hrest, h⟩ := Raising.bind_ok_iff.1 h
      cases h
      rw [if_pos hsame]
      exact .cons ⟨value, hvalue, hitems⟩ (ih hrest)
    · rename_i hsame
      rw [if_neg hsame]
      exact ih h

theorem coords_makeLists (coords : InvitationClass) (next : Nat) (found : List (List ItemData)) :
    (FetchInvitationnData.makeLists coords next found).map (·.coords) =
      List.replicate found.length (coords.listName, coords.listOwner.uidText) := by
  induction found generalizing next with
  | nil => rfl
  | cons items found ih =>
    rw [FetchInvitationnData.makeLists, List.map_cons, ih, List.length_cons, List.replicate_succ]
    rfl

/-- The children of the snapshot, as the dictionary has them. -/
def childNodes (order : DictOrder) : FNode → List FNode
  | .leaf _ => []
  | .children kids => order.allValues kids

theorem childNodes_of_allValues {order : DictOrder} {snapshot : FNode} {values : List FNode}
    (h : allValues order snapshot = .ok values) : childNodes order snapshot = values := by
  cases snapshot with
  | leaf v => cases h
  | children kids =>
    rw [allValues] at h
    split at h
    · cases h
    · cases h
      rfl

theorem perm_childNodes (order : DictOrder) (snapshot : FNode) : (childNodes order snapshot).Perm snapshot.values := by
  cases snapshot with
  | leaf v => exact .refl _
  | children kids => exact order.perm kids

theorem childNodes_of_noChildren {order : DictOrder} {snapshot : FNode} (h : ¬ snapshot.hasChildren = true) :
    childNodes order snapshot = [] := by
  have hnil : snapshot.values = [] := by
    cases snapshot with
    | leaf v => rfl
    | children kids =>
      simp only [hasChildren, Bool.not_eq_true', Bool.not_eq_false, List.isEmpty_iff] at h
      rw [h]
      rfl
  exact List.perm_nil.1 (hnil ▸ perm_childNodes order snapshot)

/-- **What an observer makes of a snapshot.** -/
theorem fetchBlock_reads {order : DictOrder} {same : String → Bool} {coords : InvitationClass} {fetchedArr : Nat}
    {snapshot : FNode} {m m' : AppData}
    (h : FetchInvitationnData.block order same coords fetchedArr snapshot m = .ok m') :
    ∃ found : List (List ItemData), List.Forall₂ (fun x items => ∃ value, objectForKey "listItems" x = .ok value ∧
          FetchInvitationnData.readItems order value = .ok items)
        ((childNodes order snapshot).filter fun x =>
          FetchInvitationnData.sameString same coords.listName (x.valueForKey "listName")) found ∧
      (found = [] ∧ m' = m ∨ found ≠ [] ∧ m' = fill fetchedArr (FetchInvitationnData.makeLists coords m.next found)
        (m.next + (found.map fun items => 1 + items.length).sum) m) := by
  unfold FetchInvitationnData.block at h
  split at h
  · obtain ⟨values, hvalues, h⟩ := Raising.bind_ok_iff.1 h
    obtain ⟨found, hfound, h⟩ := Raising.bind_ok_iff.1 h
    refine ⟨found, childNodes_of_allValues hvalues ▸ fetchedItems_ok hfound, ?_⟩
    simp only at h
    cases found with
    | nil =>
      cases h
      exact .inl ⟨rfl, rfl⟩
    | cons items found =>
      cases h
      exact .inr ⟨List.cons_ne_nil _ _, rfl⟩
  · rename_i hc
    cases h
    refine ⟨[], ?_, .inl ⟨rfl, rfl⟩⟩
    rw [childNodes_of_noChildren hc]
    exact .nil

/-- How many lists an observer finds. -/
theorem fetchBlock_finds {order : DictOrder} {o : Observer} {snapshot : FNode} {m m' : AppData}
    (h : FetchInvitationnData.block order env.sameString o.coords o.fetchedArr snapshot m = .ok m') :
    ∃ found : List (List ItemData), found.length = (snapshot.values.countP fun x =>
        FetchInvitationnData.sameString env.sameString o.coords.listName (x.valueForKey "listName")) ∧
      (found = [] ∧ m' = m ∨ found ≠ [] ∧ m' = fill o.fetchedArr
        (FetchInvitationnData.makeLists o.coords m.next found)
        (m.next + (found.map fun items => 1 + items.length).sum) m) := by
  obtain ⟨found, hf, hm⟩ := fetchBlock_reads h
  refine ⟨found, ?_, hm⟩
  rw [← hf.length_eq, ← List.countP_eq_length_filter]
  exact (perm_childNodes order snapshot).countP_eq _

end

/-! ## The state of a sync -/

/-- A state of the sync, in which the observers have made the lists `done`; `invitationLST` had the
lists `earlier` before. -/
structure Progress (fetchedArr : Nat) (db : FNode) (earlier cur done : List Coords) (s : Sys) : Prop where
  db : s.db = db
  arrays : Arrays s.mem s.observers
  current : s.mem.curLST.isSome = true
  curLST : listed s.mem.curLST = cur
  fetched : listed (s.mem.fetched.find? fun b => b.addr = fetchedArr) = done
  invitation : listed s.mem.invitationLST = if done = [] then earlier else done

/-- The callbacks and blocks of one sync, whose observers fill one array. -/
def OfSync (fetchedArr : Nat) : Waiting → Prop
  | .block (.coordsCallback _ _) | .block (.readCallback _ _ _) | .block .appendBlock => True
  | .block _ => False
  | .observer o => o.fetchedArr = fetchedArr

section
variable {fetchedArr : Nat} {env : Env} {db : FNode} {earlier cur done : List Coords} {s s' : Sys}
  {es : List (Waiting × Env)}

/-- A callback that leaves these arrays. -/
theorem Progress.callback {m : AppData} {k : Nat} (h : Progress fetchedArr db earlier cur done s)
    (ha : Arrays m s.observers) (hcur : m.curLST = s.mem.curLST) (hf : m.fetched = s.mem.fetched)
    (hi : m.invitationLST = s.mem.invitationLST) :
    Progress fetchedArr db earlier cur done ((s.without k).withMem m) where
  db := h.db
  arrays := ha
  current := by rw [Sys.withMem, hcur]; exact h.current
  curLST := by rw [Sys.withMem, hcur]; exact h.curLST
  fetched := by rw [Sys.withMem, hf]; exact h.fetched
  invitation := by rw [Sys.withMem, hi]; exact h.invitation

theorem progress_read {k n : Nat} {ref : List String} {snapshot : FNode} (hr : s.running = true)
    (h : Progress fetchedArr db earlier cur done s) (hk : s.pending[k]? = some (.readCallback n ref snapshot))
    (hr' : (step (.fire k env) s).running = true) :
    Progress fetchedArr db earlier cur done (step (.fire k env) s) := by
  rw [fire_eq_settle hr hk rfl] at hr' ⊢
  obtain ⟨m, hm, he⟩ := settle_onMem hr'
  rw [he]
  have ha := arrays_readCallback h.arrays hm
  obtain rfl | ⟨lists, -, rfl⟩ := readCallback_ok hm
  · exact h.callback ha rfl rfl rfl
  · exact h.callback ha rfl rfl rfl

theorem progress_coords {k : Nat} {ref : List String} {snapshot : FNode} (hr : s.running = true)
    (h : Progress fetchedArr db earlier cur done s) (hk : s.pending[k]? = some (.coordsCallback ref snapshot))
    (hr' : (step (.fire k env) s).running = true) :
    Progress fetchedArr db earlier cur done (step (.fire k env) s) := by
  rw [fire_eq_settle hr hk rfl] at hr' ⊢
  obtain ⟨m, hm, he⟩ := settle_onMem hr'
  rw [he]
  have ha := arrays_coordsCallback h.arrays hm
  obtain rfl | ⟨values, coords, -, rfl⟩ := coordsCallback_ok hm
  · exact h.callback ha rfl rfl rfl
  · exact h.callback ha rfl rfl rfl

/-- The filled array is looked up at its address. -/
theorem find_fill (news : List ShopingListsClass) (fetched : List NSMutableArray) :
    ((fetched.map fun b => if b.addr = fetchedArr then { b with objs := b.objs ++ news } else b).find?
        fun b => b.addr = fetchedArr) =
      (fetched.find? fun b => b.addr = fetchedArr).map fun b => { b with objs := b.objs ++ news } := by
  induction fetched with
  | nil => rfl
  | cons b fetched ih =>
    by_cases hb : b.addr = fetchedArr
    · simp [hb]
    · simpa [hb] using ih

theorem progress_notify {k : Nat} {o : Observer} (hr : s.running = true)
    (h : Progress fetchedArr db earlier cur done s) (hk : s.observers[k]? = some o)
    (ho : o.fetchedArr = fetchedArr) (hr' : (step (.notify k env) s).running = true) :
    Progress fetchedArr db earlier cur (done ++ made db (.observer o, env)) (step (.notify k env) s) := by
  rw [notify_eq_settle hr hk] at hr' ⊢
  obtain ⟨m, hm, he⟩ := settle_onMem hr'
  rw [he]
  have ha := arrays_notify h.arrays hm
  have hob : o ∈ s.observers := List.mem_of_getElem? hk
  obtain ⟨found, hlen, ⟨rfl, rfl⟩ | ⟨hne, rfl⟩⟩ := fetchBlock_finds hm
  · have hmade : made db (.observer o, env) = [] := by
      rw [made, finds, ← h.db, ← hlen]
      rfl
    rw [hmade, List.append_nil]
    exact h
  · subst ho
    let news := FetchInvitationnData.makeLists o.coords s.mem.next found
    have hmade : news.map (·.coords) = made db (.observer o, env) := by
      rw [coords_makeLists, made, finds, ← h.db, ← hlen]
    obtain ⟨b, hb⟩ : ∃ b, s.mem.fetched.find? (fun b => b.addr = o.fetchedArr) = some b := by
      obtain ⟨b, hb, he⟩ := h.arrays.observers o hob
      exact Option.isSome_iff_exists.1 (List.find?_isSome.2 ⟨b, hb, by simpa using he⟩)
    have hdone : b.objs.map (·.coords) = done := by
      have := h.fetched
      rwa [hb] at this
    have hcur : (s.mem.curLST.map fun b => if b.addr = o.fetchedArr then
        { b with objs := b.objs ++ news } else b) = s.mem.curLST := h.arrays.map_fill hob news (.inl rfl)
    have hfetched : listed ((s.mem.fetched.map fun b => if b.addr = o.fetchedArr then
        { b with objs := b.objs ++ news } else b).find? fun b => b.addr = o.fetchedArr) =
          done ++ made db (.observer o, env) := by
      rw [find_fill, hb, Option.map_some, listed, elems_some, List.map_append, hdone, hmade]
    have hsome : done ++ made db (.observer o, env) ≠ [] := by
      rw [← hmade, coords_makeLists]
      simpa using fun _ => hne
    refine ⟨h.db, ha, ?_, ?_, hfetched, ?_⟩
    · exact (congrArg Option.isSome hcur).trans h.current
    · exact (congrArg listed hcur).trans h.curLST
    · rw [if_neg hsome]
      exact hfetched

/-- The block that appends. -/
theorem progress_append {k : Nat} (hr : s.running = true) (h : Progress fetchedArr db earlier cur done s)
    (hk : s.pending[k]? = some .appendBlock) :
    Progress fetchedArr db earlier (cur ++ if done = [] then earlier else done) done
      (step (.fire k env) s) := by
  let m := s.mem.updateArray s.mem.curLST (· ++ elems s.mem.invitationLST)
  have hne : ∀ b ∈ s.mem.fetched, s.mem.curLST.map NSMutableArray.addr ≠ some b.addr := fun b hb =>
    h.arrays.ne_fetched (.inl rfl) hb
  have hfetched : m.fetched = s.mem.fetched := fetched_updateArray _ hne
  have hinvitation : m.invitationLST = s.mem.invitationLST :=
    invitation_updateArray _ h.arrays.invitation hne
  have hstep : step (.fire k env) s = ((s.without k).withMem m).reload := fire_eq_settle hr hk rfl
  have ha : Arrays m s.observers := h.arrays.updateArray _ _
  rw [hstep]
  refine ⟨h.db, ha, ?_, ?_, ?_, ?_⟩
  · show m.curLST.isSome = true
    rw [AppData.updateArray_self, Option.isSome_map]
    exact h.current
  · show listed m.curLST = _
    rw [listed, elems_updateArray_self, if_pos h.current, List.map_append]
    exact congr (congrArg _ h.curLST) h.invitation
  · show listed (m.fetched.find? fun b => b.addr = fetchedArr) = done
    rw [hfetched]
    exact h.fetched
  · exact (congrArg listed hinvitation).trans h.invitation

theorem Follows.append {es' : List (Waiting × Env)} (h : Follows (es ++ es') s s') :
    ∃ t, Follows es s t ∧ Follows es' t s' := by
  induction es generalizing s with
  | nil => exact ⟨s, .nil s, h⟩
  | cons e es ih =>
    cases h with
    | block hk h =>
      obtain ⟨t, ht, ht'⟩ := ih h
      exact ⟨t, .block hk ht, ht'⟩
    | observer hk h =>
      obtain ⟨t, ht, ht'⟩ := ih h
      exact ⟨t, .observer hk ht, ht'⟩

/-- **A run without the block that appends.** -/
theorem progress_follows (h : Progress fetchedArr db earlier cur done s) (hf : Follows es s s')
    (hr : s'.running = true) (hes : ∀ e ∈ es, OfSync fetchedArr e.1 ∧ e.1.isAppend = false) :
    Progress fetchedArr db earlier cur (done ++ es.flatMap (made db)) s' := by
  induction hf generalizing done with
  | nil => simpa using h
  | @block k p env es s s' hk hf ih =>
    obtain ⟨he, htail⟩ := List.forall_mem_cons.1 hes
    have hrs := hf.running hr
    have hr₀ : s.running = true := (Follows.block hk (.nil _)).running hrs
    cases p with
    | readCallback n ref snapshot => exact ih (progress_read hr₀ h hk hrs) hr htail
    | coordsCallback ref snapshot => exact ih (progress_coords hr₀ h hk hrs) hr htail
    | appendBlock => cases he.2
    | _ => exact he.1.elim
  | @observer k o env es s s' hk hf ih =>
    obtain ⟨he, htail⟩ := List.forall_mem_cons.1 hes
    have hrs := hf.running hr
    have hr₀ : s.running = true := (Follows.observer hk (.nil _)).running hrs
    rw [List.flatMap_cons, ← List.append_assoc]
    exact ih (progress_notify hr₀ h hk he.1 hrs) hr htail

end

/-! ## One sync -/

section
variable {dates : DateAlloc} {env : Env} {s s' : Sys} {es : List (Waiting × Env)} {k : Nat}

theorem listed_curLST_ownedMerge (dates : DateAlloc) (m : AppData) :
    listed (ownedMerge dates m).curLST = ownCoords dates m := by
  rw [listed, ownedMerge, AppData.mapLists_curLST, List.map_map]
  exact List.map_congr_left fun l hl => by rw [Function.comp_apply, if_pos hl]; rfl

theorem listed_invitationLST_ownedMerge {o : List Observer} {m : AppData} (ha : Arrays m o) (dates : DateAlloc) :
    listed (ownedMerge dates m).invitationLST = earlierCoords dates m := by
  have hmerge : (merge dates m).invitationLST = m.invitationLST := by
    have hon : ∀ b ∈ m.fetched, m.onlineLST.map NSMutableArray.addr ≠ some b.addr := fun b hb =>
      ha.ne_fetched (.inr (.inr rfl)) hb
    have hoff : ∀ b ∈ m.fetched, m.offlineLST.map NSMutableArray.addr ≠ some b.addr := fun b hb =>
      ha.ne_fetched (.inr (.inl rfl)) hb
    let result := CompareList.compare dates (m.next + 1) (elems m.onlineLST) (elems m.offlineLST)
    have hone := invitation_updateArray (fun _ => result.listA) ha.invitation hon
    have hfetched := fetched_updateArray (fun _ => result.listA) hon
    have htwo : ((m.updateArray m.onlineLST fun _ => result.listA).updateArray m.offlineLST
        fun _ => result.listB).invitationLST = m.invitationLST := by
      refine (invitation_updateArray _ (fun a h => ?_) fun b hb => hoff b (hfetched ▸ hb)).trans hone
      rw [hone] at h
      rw [hfetched]
      exact ha.invitation a h
    exact htwo
  rw [listed, ownedMerge, AppData.mapLists_invitationLST, hmerge, List.map_map]
  refine List.map_congr_left fun l _ => ?_
  rw [Function.comp_apply]
  split <;> rfl

/-- The state in which the callbacks of a sync begin. -/
theorem progress_mergeBlock (ha : Arrays s.mem s.observers) (h : ListViewController.mergeBlock dates s = .ok s') :
    Progress (WriteDataToDisk.collect (ownedMerge dates s.mem)).next s'.db (earlierCoords dates s.mem)
      (ownCoords dates s.mem) [] s' := by
  obtain ⟨ref, snapshot, -, hmem, -, hobs⟩ := mergeBlock_completes h
  have hcollect : Arrays (WriteDataToDisk.collect (ownedMerge dates s.mem)) s.observers :=
    arrays_collect (arrays_ownedMerge ha dates)
  have hnone : (ownedMerge dates s.mem).fetched.find?
      (fun b => b.addr = (WriteDataToDisk.collect (ownedMerge dates s.mem)).next) = none := by
    rw [List.find?_eq_none]
    intro b hb
    simpa using hcollect.ne_next (AppData.mem_arrays.2 (.inr (.inr (.inr (.inr hb)))))
  refine ⟨rfl, ?_, ?_, ?_, ?_, ?_⟩
  · rw [hmem, hobs]
    exact hcollect.newFetched
  · rw [hmem]
    rfl
  · rw [hmem]
    exact listed_curLST_ownedMerge dates s.mem
  · rw [hmem]
    show listed (List.find? _ ((ownedMerge dates s.mem).fetched ++ [⟨_, []⟩])) = []
    rw [List.find?_append, hnone]
    simp [listed]
  · rw [hmem, if_pos rfl]
    exact listed_invitationLST_ownedMerge ha dates

/-- The order of a sync: one block that appends, and callbacks of the sync before and after it. -/
theorem split_order {fetchedArr : Nat} {coords : List InvitationClass} {ref : List String} {snapshot : FNode}
    {reads : List Pending} (hreads : ∀ p ∈ reads, p.isRead = true)
    (hp : (es.map Prod.fst).Perm ([.block (.coordsCallback ref snapshot), .block .appendBlock] ++
      coords.map (fun c => .observer ⟨c, fetchedArr⟩) ++ reads.map .block)) :
    ∃ before env after, es = before ++ (.block .appendBlock, env) :: after ∧
      ∀ e ∈ before ++ after, OfSync fetchedArr e.1 ∧ e.1.isAppend = false := by
  have hmem : Waiting.block .appendBlock ∈ es.map Prod.fst := hp.symm.subset (by simp)
  obtain ⟨⟨_, env⟩, he, rfl⟩ := List.mem_map.1 hmem
  obtain ⟨before, after, rfl⟩ := List.append_of_mem he
  refine ⟨before, env, after, rfl, fun e he => ?_⟩
  have hrest : ((before ++ after).map Prod.fst).Perm (.block (.coordsCallback ref snapshot) ::
      (coords.map (fun c => .observer ⟨c, fetchedArr⟩) ++ reads.map .block)) := by
    have hone := (List.perm_middle.map Prod.fst).symm.trans hp
    exact List.Perm.cons_inv (hone.trans (List.Perm.swap _ _ _))
  have hmem := hrest.subset (List.mem_map_of_mem he)
  rcases List.mem_cons.1 hmem with heq | hmem
  · rw [heq]
    exact ⟨trivial, rfl⟩
  · rcases List.mem_append.1 hmem with hmem | hmem
    · obtain ⟨c, -, heq⟩ := List.mem_map.1 hmem
      rw [← heq]
      exact ⟨rfl, rfl⟩
    · obtain ⟨p, hp, heq⟩ := List.mem_map.1 hmem
      have hr := hreads p hp
      rw [← heq]
      cases p with
      | readCallback n ref snapshot => exact ⟨trivial, rfl⟩
      | _ => cases hr

theorem inTime_append {before after : List (Waiting × Env)} {env : Env} {db : FNode}
    (h : ∀ e ∈ before, e.1.isAppend = false) :
    inTime db (before ++ (.block .appendBlock, env) :: after) = before.flatMap (made db) := by
  have hlast : List.takeWhile (fun e : Waiting × Env => !e.1.isAppend)
      ((.block .appendBlock, env) :: after) = [] := rfl
  rw [inTime, List.takeWhile_append_of_pos fun e he => by rw [h e he]; rfl, hlast, List.append_nil]

/-- The process runs when the sync begins. -/
theorem SyncRun.running (h : SyncRun k env es s s') : s.running = true := by
  obtain ⟨n, hk⟩ := h.mergeBlock
  exact (Follows.block hk (.nil _)).running (h.follows.running h.completes)

/-- **What a sync leaves in `curLST`**, in whatever order its callbacks run. -/
theorem listed_syncRun (ha : Arrays s.mem s.observers) (h : SyncRun k env es s s') :
    listed s'.mem.curLST = expected env.dates s.mem (step (.fire k env) s).db es := by
  obtain ⟨⟨n, hk⟩, ⟨reads, hreads, hperm⟩, hf, hr⟩ := h
  have hrs := hf.running hr
  have hr₀ : s.running = true := (Follows.block hk (.nil _)).running hrs
  have hstep : step (.fire k env) s = settle (ListViewController.mergeBlock env.dates (s.without k)) :=
    fire_eq_settle hr₀ hk rfl
  obtain ⟨s₁, hs₁⟩ := ok_of_running (hstep ▸ hrs)
  rw [hstep, hs₁, settle_ok] at hperm hf ⊢
  obtain ⟨ref, snapshot, -, -, hpend, hobs⟩ := mergeBlock_completes hs₁
  have hlt : k < s.pending.length := (List.getElem?_eq_some_iff.1 hk).1
  have hlen : (s.without k).pending.length = s.pending.length - 1 := List.length_eraseIdx_of_lt hlt
  have hdrop : s₁.observers.drop s.observers.length = _ := (congrArg _ hobs).trans List.drop_left
  rw [leftWaiting, hpend, ← hlen, List.drop_left, hdrop, List.map_map] at hperm
  obtain ⟨before, env', after, rfl, hes⟩ := split_order hreads hperm
  have hbefore := fun e he => hes e (List.mem_append_left _ he)
  have hafter := fun e he => hes e (List.mem_append_right _ he)
  -- the callbacks before the block that appends, the block, and the callbacks after it
  have hstart := progress_mergeBlock (s := s.without k) ha hs₁
  obtain ⟨t, hfirst, hf⟩ := hf.append
  cases hf with
  | block hk' hlast =>
    have hrt := hlast.running hr
    have hr₁ : t.running = true := (Follows.block hk' (.nil _)).running hrt
    have htime := progress_follows hstart hfirst hr₁ hbefore
    rw [List.nil_append] at htime
    have hend := progress_follows (progress_append hr₁ htime hk') hlast hr hafter
    rw [hend.curLST, expected, inTime_append fun e he => (hbefore e he).2]
    rfl

/-- Of two names the one that the merge keeps. -/
theorem count_mergeOrder (name : String) (online offline : List (Option String)) :
    (mergeOrder online offline).count (some name) =
      if online.count (some name) = 0 then offline.count (some name) else online.count (some name) := by
  have hany : ∀ ns : List (Option String), ns.any (isEqualToString (some name)) = true ↔ some name ∈ ns := by
    intro ns
    rw [List.any_eq_true]
    refine ⟨fun ⟨x, hx, h⟩ => ?_, fun h => ⟨_, h, isEqualToString_iff.2 ⟨name, rfl, rfl⟩⟩⟩
    obtain ⟨n, hn, rfl⟩ := isEqualToString_iff.1 h
    rwa [hn]
  have hfilter : ∀ (ns : List (Option String)) (p : Option String → Bool),
      (ns.filter p).count (some name) = if p (some name) then ns.count (some name) else 0 := by
    intro ns p
    split
    · rename_i h
      exact List.count_filter h
    · rename_i h
      exact List.count_eq_zero.2 fun hm => h (List.mem_filter.1 hm).2
  simp only [mergeOrder, List.count_append, hfilter, Bool.not_eq_true', ← Bool.not_eq_true, hany,
    List.count_eq_zero]
  by_cases h₁ : some name ∈ online <;> by_cases h₂ : some name ∈ offline <;>
    simp [h₁, h₂, List.count_eq_zero_of_not_mem]

theorem count_ownCoords (name uid : String) (dates : DateAlloc) (m : AppData) :
    (ownCoords dates m).count (some name, some uid) = ownLists (some name, some uid) m := by
  have hcount : (ownCoords dates m).count (some name, some uid) =
      if some uid = m.curUser.uidText then (names (merge dates m).curLST).count (some name) else 0 := by
    rw [ownCoords, names, List.count_eq_countP, List.count_eq_countP, List.countP_map, List.countP_map]
    split
    · rename_i h
      refine List.countP_congr fun l _ => ?_
      simp only [Function.comp_apply, beq_iff_eq, Prod.mk.injEq, ← h, and_true]
    · rename_i h
      refine List.countP_eq_zero.2 fun l _ he => ?_
      exact h (congrArg Prod.snd (beq_iff_eq.1 he)).symm
  rw [hcount, names_merge, count_mergeOrder]
  rfl

theorem count_made {c : Coords} {name uid : String} (hc : c = (some name, some uid)) (e : Waiting × Env)
    (db : FNode) : (made db e).count c = if Waiting.observes c e then storedLists c db else 0 := by
  obtain ⟨w, env⟩ := e
  cases w with
  | block p => rfl
  | observer o =>
    rw [made, List.count_replicate, Waiting.observes]
    by_cases ho : o.coords.coords = c
    · have hname : o.coords.listName = c.1 := congrArg Prod.fst ho
      have huid : o.coords.listOwner.uidText = c.2 := congrArg Prod.snd ho
      have hbeq : ((o.coords.listName, o.coords.listOwner.uidText) == c) = true := beq_iff_eq.2 ho
      rw [if_pos hbeq, decide_eq_true ho, Bool.true_and, finds, storedLists, hname, huid, hc]
      -- one string object, or no list is found
      have hsame : ∀ x : FNode, FetchInvitationnData.sameString env.sameString (some name)
          (x.valueForKey "listName") = true ↔ env.sameString name = true ∧ leafAt ["listName"] x = some name := by
        intro x
        have hvalue : leafAt ["listName"] x = (x.valueForKey "listName").bind leafValue := by
          rw [leafAt, FNode.getChild, FNode.getChild]
          cases x with
          | leaf v => rfl
          | children kids =>
            rw [getImmediateChild, valueForKey]
            cases SortedDict.get "listName" kids <;> rfl
        rw [hvalue]
        cases x.valueForKey "listName" with
        | none => simp [FetchInvitationnData.sameString]
        | some y =>
          cases y with
          | leaf v =>
            simp only [FetchInvitationnData.sameString, Bool.and_eq_true, decide_eq_true_eq, Option.bind_some,
              leafValue, Option.some.injEq]
            exact ⟨fun h => ⟨h.2, h.1.symm⟩, fun h => ⟨h.2.symm, h.1⟩⟩
          | children kids => simp [FetchInvitationnData.sameString, leafValue]
      rw [Option.any_some]
      split
      · rename_i h
        refine List.countP_congr fun x _ => ?_
        rw [hsame, decide_eq_true_iff]
        simp [h]
      · rename_i h
        refine List.countP_eq_zero.2 fun x _ hx => ?_
        exact h ((hsame x).1 hx).1
    · have hbeq : ((o.coords.listName, o.coords.listOwner.uidText) == c) = false := beq_eq_false_iff_ne.2 ho
      rw [hbeq, decide_eq_false ho]
      rfl

theorem count_inTime {c : Coords} {name uid : String} (hc : c = (some name, some uid)) (db : FNode)
    (es : List (Waiting × Env)) : (inTime db es).count c = observedInTime c es * storedLists c db := by
  rw [inTime, observedInTime, early]
  generalize es.takeWhile (fun e => !e.1.isAppend) = es
  induction es with
  | nil => simp
  | cons e es ih =>
    rw [List.flatMap_cons, List.count_append, ih, count_made hc, List.countP_cons]
    split
    · rw [Nat.add_mul, Nat.one_mul, Nat.add_comm]
    · rw [Nat.zero_add, Nat.add_zero]

theorem inTime_eq_nil {db : FNode} : inTime db es = [] ↔ ¬ SomeFound db es := by
  rw [inTime, SomeFound, early, List.flatMap_eq_nil_iff]
  push Not
  refine forall₂_congr fun e _ => ?_
  obtain ⟨w, env⟩ := e
  cases w with
  | block p => simp [made]
  | observer o => simp [made]

/-- What the merge takes over, of the lists that were there. -/
theorem mergeTakes_iff {m : AppData} (h : Below m) (dates : DateAlloc) {l : ShopingListsClass} (hl : l ∈ m.lists) :
    l ∈ elems (merge dates m).curLST ↔ MergeTakes m l := by
  rw [merge, elems_some, CompareList.combinedLists_eq, List.mem_append, List.mem_append, List.mem_filter,
    List.mem_filter, MergeTakes]
  refine or_iff_left fun hnew => ?_
  have hge := (addr_resLists hnew).1
  have hlt := h l hl
  omega

theorem count_earlierCoords {m : AppData} (h : Below m) (dates : DateAlloc) (c : Coords) :
    (earlierCoords dates m).count c = leftLists c m := by
  rw [earlierCoords, leftLists, List.count_eq_countP, List.countP_map]
  refine List.countP_congr fun l hl => ?_
  have hmem : l ∈ m.lists :=
    AppData.mem_lists_of_elems (fun a ha => AppData.mem_arrays.2 (.inr (.inr (.inr (.inl ha))))) hl
  simp only [Function.comp_apply, beq_iff_eq, decide_eq_true_eq, mergeTakes_iff h dates hmem]

/-- A stored list that is in the cloud comes once under `ComesOnce`, and only then. -/
theorem count_expected {m : AppData} (h : Below m) {c : Coords} {db : FNode} (hc : InCloud c db) :
    (expected dates m db es).count c = 1 ↔ ComesOnce c m db es := by
  obtain ⟨name, hname, uid, huid, x, hx, hlist⟩ := hc
  obtain ⟨c₁, c₂⟩ := c
  obtain rfl : c₁ = some name := hname
  obtain rfl : c₂ = some uid := huid
  have hstored : 0 < storedLists (some name, some uid) db :=
    List.countP_pos_iff.2 ⟨x, hx, decide_eq_true hlist⟩
  have hprod : observedInTime (some name, some uid) es * storedLists (some name, some uid) db = 0 ↔
      observedInTime (some name, some uid) es = 0 := by
    rw [Nat.mul_eq_zero]
    omega
  have hone : observedInTime (some name, some uid) es * storedLists (some name, some uid) db = 1 ↔
      observedInTime (some name, some uid) es = 1 ∧ storedLists (some name, some uid) db = 1 :=
    ⟨fun h => ⟨Nat.eq_one_of_mul_eq_one_right h, Nat.eq_one_of_mul_eq_one_left h⟩, fun h => by rw [h.1, h.2]⟩
  rw [expected, List.count_append, count_ownCoords, ComesOnce]
  by_cases hfound : SomeFound db es
  · rw [if_neg (fun h => inTime_eq_nil.1 h hfound), if_pos hfound, count_inTime rfl, ← hprod, ← hone]
    omega
  · rw [if_pos (inTime_eq_nil.2 hfound), if_neg hfound, count_earlierCoords h]
    omega

theorem memory_run (as : List Action) (hr : s.running = false) :
    Kept (fun m _ o => Arrays m o ∧ Below m) (fun _ => True) (Run.run step as s) := by
  refine Run.run_invariant (fun a s hs => ?_) as ⟨trivial, fun h => by rw [hr] at h; cases h⟩
  refine hs.step (fun _ _ _ _ => trivial) (fun _ _ _ _ hread => ?_) fun _ _ h _ _ _ ho => ?_
  · exact ⟨arrays_readsData arrays_init hread, below_readsData below_init arrays_init hread⟩
  · exact ⟨arrays_outcome h.1 ho, below_outcome h.2 h.1 ho⟩

/-- **The invitations of a sync are delivered** exactly if of each the user has the list already, or gets it from
one observer that runs before the block that appends, or has it left from an earlier sync. -/
theorem delivered_iff {as : List Action} {user : FIRUser} (hr : s.running = false)
    (h : SyncRun k env es (Run.run step as s) s') :
    Delivered user (step (.fire k env) (Run.run step as s)).db s'.mem ↔
      ∀ c ∈ invitationsTo user (step (.fire k env) (Run.run step as s)).db,
        InCloud c (step (.fire k env) (Run.run step as s)).db →
          ComesOnce c (Run.run step as s).mem (step (.fire k env) (Run.run step as s)).db es := by
  obtain ⟨harrays, hbelow⟩ := (memory_run as hr).2 h.running
  rw [Delivered, listed_syncRun harrays h]
  exact forall₂_congr fun c _ => forall_congr' fun hc => count_expected hbelow hc

end

/-! ## The invitation to Ann -/

/-- A first sync, which reads the invitation, and the request of a second one. -/
def partyReads : List Action :=
  [.launch annEnv.now, .fire 1 annEnv, .fire 1 annEnv, .fire 1 annEnv, .login annEnv.now]

/-- What the merge block at `k` leaves after `as`, on Ann's device: the last first. -/
def partyOrder (as : List Action) (k : Nat) : List (Waiting × Env) :=
  (leftWaiting (Run.run step as partySys) (Run.run step (as ++ [.fire k annEnv]) partySys)).reverse.map (·, annEnv)

theorem partyOrder_perm (as : List Action) (k : Nat) : ∃ reads : List Pending,
    (∀ p ∈ reads, p.isRead = true) ∧ ((partyOrder as k).map Prod.fst).Perm
      (leftWaiting (Run.run step as partySys) (step (.fire k annEnv) (Run.run step as partySys)) ++
        reads.map .block) := by
  have hfst : (partyOrder as k).map Prod.fst = (leftWaiting (Run.run step as partySys)
      (step (.fire k annEnv) (Run.run step as partySys))).reverse := by
    rw [partyOrder, Run.run_append, List.map_map]
    exact List.map_id _
  refine ⟨[], by simp, ?_⟩
  rw [hfst, List.map_nil, List.append_nil]
  exact List.reverse_perm _

/-- The observer of the second sync makes the list, which is then appended. -/
theorem syncRun_party : SyncRun 2 annEnv (partyOrder partyReads 2) (Run.run step partyReads partySys)
    (Run.run step (partyReads ++ [.fire 2 annEnv, .notify 0 annEnv, .fire 4 annEnv, .fire 3 annEnv]) partySys) where
  mergeBlock := ⟨1, rfl⟩
  order := partyOrder_perm _ _
  follows := .observer (k := 0) rfl (.block (k := 4) rfl (.block (k := 3) rfl (.nil _)))
  completes := by decide

theorem delivered_iff_party : Delivered annAccount
    (step (.fire 2 annEnv) (Run.run step partyReads partySys)).db
    (Run.run step (partyReads ++ [.fire 2 annEnv, .notify 0 annEnv, .fire 4 annEnv, .fire 3 annEnv]) partySys).mem :=
  (delivered_iff rfl syncRun_party).2 (by decide)

/-- The first sync has no observer for the invitation that it reads. -/
theorem syncRun_first : SyncRun 1 annEnv (partyOrder [.launch annEnv.now] 1)
    (Run.run step [.launch annEnv.now] partySys)
    (Run.run step [.launch annEnv.now, .fire 1 annEnv, .fire 2 annEnv, .fire 1 annEnv] partySys) where
  mergeBlock := ⟨0, rfl⟩
  order := partyOrder_perm _ _
  follows := .block (k := 2) rfl (.block (k := 1) rfl (.nil _))
  completes := by decide

theorem not_delivered : ¬ ∀ (s s' : Sys) (as : List Action) (k : Nat) (env : Env) (es : List (Waiting × Env))
    (user : FIRUser), s.running = false → (Run.run step as s).currentUser = some user →
      SyncRun k env es (Run.run step as s) s' →
        Delivered user (step (.fire k env) (Run.run step as s)).db s'.mem := by
  intro h
  have hrun := h _ _ _ _ _ _ annAccount rfl rfl syncRun_first ⟨some "Party", some "u2"⟩
  revert hrun
  decide

end ShopingList
