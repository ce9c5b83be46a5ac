import ShopingList.App.Screens
import ShopingList.App.SharedLists
import ShopingList.App.UniqueNames

/-!
# Sessions and the app's own user

The writers ask `FIRAuth` whether someone is signed in, and make their paths of the app's own
`curUser` and of the owners of lists. A sign-in changes the session at once and `curUser` in a
block half a second later. `InSession` relates the two in every state of a run
that is `Orderly`; `ownPaths_run` concludes that the writers stay below the node of
the session's user, and of the owners of lists from invitations to him.
-/

namespace ShopingList

open Addresses ListViewController FNode

/-- The invitations that a process has read, each with the node of the user it is to. -/
abbrev Reads := List (List String × InvitationClass)

/-- The invitations that an action reads; a callback that finds some takes new addresses. -/
def newReads (a : Action) (s : Sys) : Reads :=
  match a with
  | .fire k env =>
    match s.pending[k]? with
    | some (.coordsCallback ref snapshot) =>
      match ReadInvitations.callback env.order snapshot s.mem with
      | .ok m => if s.mem.next < m.next then m.invitationsCoords.map (ref, ·) else []
      | .error _ => []
    | _ => []
  | _ => []

/-- A step, and the invitations that its process has read. -/
def stepReads (a : Action) (t : Sys × Reads) : Sys × Reads :=
  (step a t.1,
    match a with
    | .launch _ => []
    | _ => if t.1.running then t.2 ++ newReads a t.1 else t.2)

/-- The node is that of the user. -/
def ReadFor (ref : List String) (user : FIRUser) : Prop :=
  (child userNode (some user.uid)).toOption = some ref

instance (ref : List String) (user : FIRUser) : Decidable (ReadFor ref user) :=
  inferInstanceAs (Decidable (_ = _))

/-- The uid is that of the owner of a list from an invitation to the user. -/
def InvitedTo (m : AppData) (reads : Reads) (user : FIRUser) (uid : Option String) : Prop :=
  ∃ l ∈ m.lists, Invited m l ∧ l.listOwner.uidText = uid ∧
    ∃ x ∈ reads, ReadFor x.1 user ∧ l.listOwner = x.2.listOwner

/-- The calls of a step, with someone signed in: they go below his node, or below that of the owner
of a list that he is invited to, and no list is saved below the default uid. -/
structure OwnPaths (a : Action) (t : Sys × Reads) : Prop where
  target : ∀ user, t.1.currentUser = some user → ∀ c ∈ cloudCalls a t.1,
    c.target.1 = some user.uid ∨ InvitedTo t.1.mem t.2 user c.target.1
  default : ∀ user, t.1.currentUser = some user → user.uid ≠ "defUid" →
    ∀ session curUser l, .save session curUser l ∈ cloudCalls a t.1 → curUser.uidText ≠ some "defUid"

/-! ## Orderly runs -/

/-- The user whose sign-in or registration waits for its block. -/
def Pending.user : Pending → Option FIRUser
  | loginBlock user => some user
  | commitProfile _ _ user => some user
  | registerBlock _ _ user => some user
  | _ => none

def Pending.isMerge : Pending → Bool
  | mergeBlock _ => true
  | _ => false

/-- Nobody's sign-in or registration waits for its block. -/
def NoFlow (s : Sys) : Prop := ∀ p ∈ s.pending, p.user = none

/-- No merge block waits. -/
def NoMerge (s : Sys) : Prop := ∀ p ∈ s.pending, p.isMerge = false

instance (s : Sys) : Decidable (NoFlow s) := inferInstanceAs (Decidable (∀ p ∈ s.pending, _))

instance (s : Sys) : Decidable (NoMerge s) := inferInstanceAs (Decidable (∀ p ∈ s.pending, _))

/-- A request is completed: one at a time, for the user whose invitations the process has read, and
the profile of a new account is changed. -/
def CompletesInOrder (user : Option FIRUser) (t : Sys × Reads) : Pending → Prop
  | .signIn | .createUser _ _ => ∀ u ∈ user, NoFlow t.1 ∧ ∀ x ∈ t.2, ReadFor x.1 u
  | .commitProfile _ _ _ => t.1.currentUser.isSome = true → user.isSome = true
  | _ => True

/-- A block or callback runs. A merge block does not run before the block of a sign-in, and finds no
invited list in `offlineLST`; the lists of a new account have the uid object of the user before; the
invitations are those of the session's user. -/
def FiresInOrder (a : Action) (s : Sys) : Pending → Prop
  | .mergeBlock _ => (s.currentUser.isSome = true → NoFlow s) ∧ ∀ l ∈ elems s.mem.offlineLST, ¬ Invited s.mem l
  | .registerBlock _ _ _ => s.currentUser.isSome = true → ∀ l ∈ elems s.mem.curLST, l ∈ mine s.mem
  | .coordsCallback _ _ => ∀ x ∈ newReads a s, ∀ user ∈ s.currentUser, ReadFor x.1 user
  | _ => True

/-- The app follows the session: a launch finds the session's user on disk, requests are completed and
blocks run in order, and edits wait for the block of a sign-in; an item waits for the merge
block too, unless it is in a list of the current user. -/
def Orderly (a : Action) (t : Sys × Reads) : Prop :=
  match a with
  | .launch _ => ∀ user ∈ t.1.currentUser, t.1.files.userPlist.bind UserData.uid = some user.uid
  | .newList _ | .deleteList _ | .deleteItem _ => t.1.currentUser.isSome = true → NoFlow t.1
  | .addItem _ _ | .toggleItem _ _ => t.1.currentUser.isSome = true →
    NoFlow t.1 ∧ (NoMerge t.1 ∨ ∀ l ∈ shownList t.1, belongs t.1.mem.curUser l = true)
  | .complete k user => ∀ p ∈ t.1.pending[k]?, CompletesInOrder user t p
  | .fire k _ => ∀ p ∈ t.1.pending[k]?, FiresInOrder a t.1 p
  | _ => True

instance (user : Option FIRUser) (t : Sys × Reads) (p : Pending) : Decidable (CompletesInOrder user t p) :=
  match p with
  | .signIn | .createUser _ _ => inferInstanceAs (Decidable (∀ u ∈ user, _ ∧ ∀ x ∈ t.2, _))
  | .commitProfile _ _ _ => inferInstanceAs (Decidable (_ → _))
  | .readCallback _ _ _ | .mergeBlock _ | .coordsCallback _ _ | .appendBlock | .loginBlock _
  | .registerBlock _ _ _ => .isTrue trivial

instance (a : Action) (s : Sys) (p : Pending) : Decidable (FiresInOrder a s p) :=
  match p with
  | .mergeBlock _ => inferInstanceAs (Decidable ((_ → _) ∧ ∀ l ∈ elems s.mem.offlineLST, _))
  | .registerBlock _ _ _ => inferInstanceAs (Decidable (_ → ∀ l ∈ elems s.mem.curLST, _))
  | .coordsCallback _ _ => inferInstanceAs (Decidable (∀ x ∈ newReads a s, ∀ user ∈ s.currentUser, _))
  | .readCallback _ _ _ | .appendBlock | .signIn | .loginBlock _ | .createUser _ _ | .commitProfile _ _ _ =>
    .isTrue trivial

instance (a : Action) (t : Sys × Reads) : Decidable (Orderly a t) :=
  match a with
  | .launch _ => inferInstanceAs (Decidable (∀ user ∈ t.1.currentUser, _))
  | .newList _ | .deleteList _ | .deleteItem _ => inferInstanceAs (Decidable (_ → _))
  | .addItem _ _ | .toggleItem _ _ =>
    inferInstanceAs (Decidable (_ → _ ∧ (_ ∨ ∀ l ∈ shownList t.1, belongs t.1.mem.curUser l = true)))
  | .complete k user => inferInstanceAs (Decidable (∀ p ∈ t.1.pending[k]?, CompletesInOrder user t p))
  | .fire k env => inferInstanceAs (Decidable (∀ p ∈ t.1.pending[k]?, FiresInOrder (.fire k env) t.1 p))
  | .openItems _ | .back | .login _ | .register _ _ | .logout | .refresh _ | .notify _ _ => .isTrue trivial

/-! ## The session in a running process -/

/-- The current user's lists and those from invitations. -/
def OwnOrInvited (m : AppData) : Prop := ∀ l ∈ elems m.curLST, belongs m.curUser l = true ∨ Invited m l

structure InSession (s : Sys) (reads : Reads) : Prop where
  flows : ∀ p ∈ s.pending, ∀ v, p.user = some v → ∀ u, s.currentUser = some u → v.uid = u.uid
  user : NoFlow s → ∀ u, s.currentUser = some u → s.mem.curUser.uidText = some u.uid
  lists : s.currentUser.isSome = true → NoFlow s → NoMerge s → OwnOrInvited s.mem
  reads : ∀ x ∈ reads, ∀ u, s.currentUser = some u → ReadFor x.1 u

/-- The owner in one of the invitations. -/
def OwnerIn (reads : Reads) (u : UserClass) : Prop := ∃ x ∈ reads, u = x.2.listOwner

/-- What an orderly run keeps. -/
structure SessionKept (t : Sys × Reads) : Prop where
  hands : Kept (HandsKept (OwnerIn t.2)) (fun _ => True) t.1
  session : t.1.running = true → InSession t.1 t.2

/-! ### Calls -/

/-- The calls of an orderly step are for the user, or for an item of one who invited the user. -/
theorem target_cloudCalls {a : Action} {t : Sys × Reads} {user : FIRUser} {c : Call} (h : SessionKept t)
    (hc : Orderly a t) (huser : t.1.currentUser = some user) (hmem : c ∈ cloudCalls a t.1) :
    c.target.1 = some user.uid ∨
      (∃ session i l, c = .saveItem session i l) ∧ InvitedTo t.1.mem t.2 user c.target.1 := by
  obtain ⟨s, reads⟩ := t
  obtain ⟨hr, hcall⟩ := callOf_cloudCalls hmem
  have hsome : s.currentUser.isSome = true := huser ▸ rfl
  obtain ⟨hflows, hcur, hlists, hreads⟩ := h.session hr
  simp only at hr hflows hcur hlists hreads huser hcall
  -- an own list is at the user's place
  have hplace : ∀ {l : ShopingListsClass}, NoFlow s →
      isEqualToString l.listOwner.uidText s.mem.curUser.uidText = true → l.listOwner.uidText = some user.uid := by
    intro l hflow hown
    obtain ⟨uid, h1, h2⟩ := isEqualToString_iff.1 hown
    rw [h1, ← h2]
    exact hcur hflow user huser
  -- an item of the list on the screen
  have hitem : ∀ {l}, shownList s = some l → NoFlow s →
      (NoMerge s ∨ ∀ l ∈ shownList s, belongs s.mem.curUser l = true) →
      l.listOwner.uidText = some user.uid ∨ InvitedTo s.mem reads user l.listOwner.uidText := by
    intro l hl hflow hown
    obtain ⟨screen, -, ho⟩ := shownList_some hl
    have hcl : l ∈ elems s.mem.curLST := List.mem_of_getElem? (objectAt_some ho)
    have hbelongs : belongs s.mem.curUser l = true ∨ Invited s.mem l := by
      rcases hown with hmerge | hown
      · exact hlists hsome hflow hmerge l hcl
      · exact .inl (hown l hl)
    rcases hbelongs with hb | hi
    · exact .inl (hplace hflow hb)
    · obtain ⟨-, x, hx, hox⟩ := (h.hands.2 hr).hands.invited l (AppData.mem_lists_curLST hcl) hi
      exact .inr ⟨l, AppData.mem_lists_curLST hcl, hi, rfl, x, hx, hreads x hx user huser, hox⟩
  cases hcall with
  | newList text => exact .inl (hcur (hc hsome) user huser)
  | deleteList ho hown => exact .inl (hplace (hc hsome) hown)
  | addItem hl =>
    obtain ⟨hflow, hown⟩ := hc hsome
    exact (hitem hl hflow hown).imp id fun hi => ⟨⟨_, _, _, rfl⟩, hi⟩
  | toggleItem hl hi =>
    obtain ⟨hflow, hown⟩ := hc hsome
    exact (hitem hl hflow hown).imp id fun hi => ⟨⟨_, _, _, rfl⟩, hi⟩
  | deleteItem hl hi => exact .inl (hcur (hc hsome) user huser)
  | merged hk hl => exact .inl (hcur ((hc _ hk).1 hsome) user huser)
  | registered hk hl =>
    left
    rw [← hflows _ (List.mem_of_getElem? hk) _ rfl user huser]
    rfl

theorem ownPaths {a : Action} {t : Sys × Reads} (hc : Orderly a t) (h : SessionKept t) : OwnPaths a t := by
  refine ⟨fun user huser c hmem => ?_, fun user huser hne session curUser l hmem => ?_⟩
  · exact (target_cloudCalls h hc huser hmem).imp id And.right
  · rcases target_cloudCalls h hc huser hmem with htarget | ⟨⟨_, _, _, hsave⟩, -⟩
    · intro hdef
      have he := htarget.symm.trans hdef
      exact hne (Option.some.inj he)
    · cases hsave

/-! ### What waits after a turn -/

/-- The same session, and the same sign-ins, registrations and merge blocks that wait. -/
structure SameWaits (s t : Sys) : Prop where
  session : t.currentUser = s.currentUser
  waits : ∀ p : Pending, p.user.isSome = true ∨ p.isMerge = true → (p ∈ t.pending ↔ p ∈ s.pending)

section
variable {s t : Sys} {reads reads' : Reads}

theorem SameWaits.of_eq (hu : t.currentUser = s.currentUser) (hp : t.pending = s.pending) : SameWaits s t :=
  ⟨hu, fun _ _ => by rw [hp]⟩

theorem SameWaits.noFlow (h : SameWaits s t) : NoFlow t ↔ NoFlow s := by
  constructor
  · intro ht p hp
    by_contra hne
    have hsome := Option.ne_none_iff_isSome.1 hne
    exact hne (ht p ((h.waits p (.inl hsome)).2 hp))
  · intro hs p hp
    by_contra hne
    have hsome := Option.ne_none_iff_isSome.1 hne
    exact hne (hs p ((h.waits p (.inl hsome)).1 hp))

theorem SameWaits.noMerge (h : SameWaits s t) (ht : NoMerge t) : NoMerge s := by
  intro p hp
  by_contra hne
  rw [Bool.not_eq_false] at hne
  have := ht p ((h.waits p (.inr hne)).2 hp)
  rw [hne] at this
  cases this

/-- Something else ran or was requested. -/
theorem SameWaits.erased {k : Nat} {p : Pending} {news : List Pending} (hk : s.pending[k]? = some p)
    (hp : p.user = none ∧ p.isMerge = false) (hu : t.currentUser = s.currentUser)
    (ht : t.pending = s.pending.eraseIdx k ++ news) (hn : ∀ q ∈ news, q.user = none ∧ q.isMerge = false) :
    SameWaits s t := by
  refine ⟨hu, fun q hq => ?_⟩
  rw [ht, List.mem_append]
  constructor
  · rintro (hmem | hmem)
    · exact List.mem_of_mem_eraseIdx hmem
    · obtain ⟨h1, h2⟩ := hn q hmem
      rcases hq with hq | hq
      · rw [h1] at hq
        cases hq
      · rw [h2] at hq
        cases hq
  · intro hmem
    obtain ⟨i, hi⟩ := List.getElem?_of_mem hmem
    refine .inl (List.mem_eraseIdx_iff_getElem?.2 ⟨i, fun hik => ?_, hi⟩)
    subst hik
    cases hk.symm.trans hi
    rcases hq with hq | hq
    · rw [hp.1] at hq
      cases hq
    · rw [hp.2] at hq
      cases hq

/-- What keeps the blocks, the user and the owners of the lists keeps the session. -/
theorem InSession.same (h : InSession s reads) (hw : SameWaits s t)
    (hcur : t.mem.curUser.uidText = s.mem.curUser.uidText)
    (hlists : OwnOrInvited s.mem → OwnOrInvited t.mem)
    (hreads : ∀ x ∈ reads', x ∈ reads ∨ ∀ u, s.currentUser = some u → ReadFor x.1 u) : InSession t reads' := by
  refine ⟨fun p hp v hv u hu => ?_, fun hflow u hu => ?_, fun hsome hflow hmerge => ?_, fun x hx u hu => ?_⟩
  · rw [hw.session] at hu
    exact h.flows p ((hw.waits p (.inl (hv ▸ rfl))).1 hp) v hv u hu
  · rw [hw.session] at hu
    rw [hcur]
    exact h.user (hw.noFlow.1 hflow) u hu
  · rw [hw.session] at hsome
    exact hlists (h.lists hsome (hw.noFlow.1 hflow) (hw.noMerge hmerge))
  · rw [hw.session] at hu
    exact (hreads x hx).elim (fun hx => h.reads x hx u hu) fun hall => hall u hu

end

/-! ### Own lists -/

section
variable {m m' : AppData} {o : List Observer}

theorem OwnOrInvited.congr (h : OwnOrInvited m) (hc : elems m'.curLST = elems m.curLST)
    (hu : m'.curUser = m.curUser) (hf : m'.fetched = m.fetched) : OwnOrInvited m' := by
  intro l hl
  rw [hc] at hl
  rw [hu]
  refine (h l hl).imp id fun hi => ?_
  unfold Invited invitedLists at hi ⊢
  rwa [hf]

/-- A change of `curLST` that adds own or invited lists. -/
theorem OwnOrInvited.updateArray (h : OwnOrInvited m) (ha : Arrays m o) {n : Nat}
    {f : List ShopingListsClass → List ShopingListsClass}
    (hf : ∀ objs, ∀ x ∈ f objs, x ∈ objs ∨ belongs m.curUser x = true ∨ Invited m x) :
    OwnOrInvited { m.updateArray m.curLST f with next := n } := by
  have hfetched := fetched_updateArray f fun b hb => ha.ne_fetched (.inl rfl) hb
  have hinv : ∀ l, Invited m l → Invited { m.updateArray m.curLST f with next := n } l := by
    rintro l ⟨x, hx, he⟩
    refine ⟨x, ?_, he⟩
    show x ∈ (m.updateArray m.curLST f).fetched.flatMap _
    rwa [hfetched]
  intro l hl
  have hl : l ∈ elems (m.updateArray m.curLST f).curLST := hl
  rw [elems_updateArray_self] at hl
  split at hl
  · rcases hf _ l hl with hl | hl
    · exact (h l hl).imp id (hinv l)
    · exact hl.imp id (hinv l)
  · cases hl

theorem OwnOrInvited.mapLists (h : OwnOrInvited m) {n : Nat} {f : ShopingListsClass → ShopingListsClass}
    (haddr : ∀ x, (f x).addr = x.addr) (howner : ∀ x, (f x).listOwner = x.listOwner) :
    OwnOrInvited { m.mapLists f with next := n } := by
  intro l hl
  have hl : l ∈ elems (m.mapLists f).curLST := hl
  rw [AppData.mapLists_curLST] at hl
  obtain ⟨x, hx, rfl⟩ := List.mem_map.1 hl
  refine (h x hx).imp (fun hb => ?_) fun hi => ?_
  · rw [belongs, howner]
    exact hb
  · obtain ⟨y, hy, he⟩ := hi
    exact (invited_mapLists haddr).2 ⟨y, hy, he.trans (haddr x).symm⟩

end

/-- An outcome that sets no user and takes no lists from elsewhere. -/
def Quiet (a : Action) (s : Sys) : Prop :=
  match a with
  | .launch _ | .login _ => False
  | .fire k _ => ∀ p ∈ s.pending[k]?, p.user = none ∧ p.isMerge = false
  | _ => True

theorem own_outcome {s : Sys} {a : Action} {m : AppData} {f : Files} {o : List Observer}
    (ha : Arrays s.mem s.observers) (hu : s.mem.curUser.uid.isSome = true) (hq : Quiet a s)
    (ho : Outcome s a m f o) : m.curUser = s.mem.curUser ∧ (OwnOrInvited s.mem → OwnOrInvited m) := by
  have hwrites : ∀ {m' m : AppData} {f' f : Files}, Writes m' f' m f → m'.curUser = s.mem.curUser →
      (OwnOrInvited s.mem → OwnOrInvited m') →
        m.curUser = s.mem.curUser ∧ (OwnOrInvited s.mem → OwnOrInvited m) := by
    intro m' m f' f hw hcur hown
    cases hw
    exact ⟨hcur, fun h => (hown h).congr rfl rfl rfl⟩
  cases ho with
  | same => exact ⟨rfl, id⟩
  | launch hr => exact hq.elim
  | login hr => exact hq.elim
  | newList hw =>
    refine hwrites hw rfl fun h => h.updateArray ha fun objs x hx => ?_
    rcases List.mem_append.1 hx with hx | hx
    · exact .inl hx
    · rw [List.mem_singleton.1 hx]
      exact .inr (.inl (belongs_curUser hu rfl))
  | deleteOwn hl hown hw =>
    exact hwrites hw rfl fun h => h.updateArray ha fun objs x hx => .inl (CompareList.mem_removeObject.1 hx).1
  | reject hl hown =>
    exact ⟨rfl, fun h => h.updateArray ha fun objs x hx => .inl (CompareList.mem_removeObject.1 hx).1⟩
  | write hw => exact hwrites hw rfl id
  | addItem hl hw =>
    refine hwrites hw rfl fun h => h.mapLists (fun x => ?_) fun x => ?_
    · split
      · rename_i he
        rw [he]
      · rfl
    · split
      · rename_i he
        rw [he]
      · rfl
  | toggleItem hl hi hw => exact hwrites hw rfl fun h => h.mapLists (by intro x; rfl) (by intro x; rfl)
  | deleteItem hl hi hw =>
    refine hwrites hw rfl fun h => h.mapLists (fun x => ?_) fun x => ?_
    · split
      · rename_i he
        rw [he]
      · rfl
    · split
      · rename_i he
        rw [he]
      · rfl
  | readCallback hk hm =>
    obtain rfl | ⟨lists, -, rfl⟩ := readCallback_ok hm
    · exact ⟨rfl, id⟩
    · exact ⟨rfl, fun h => h.congr rfl rfl rfl⟩
  | mergeBlock hk hw => cases (hq _ hk).2
  | fetched hk hw => cases (hq _ hk).2
  | coordsCallback hk hm =>
    obtain rfl | ⟨values, coords, -, rfl⟩ := coordsCallback_ok hm
    · exact ⟨rfl, id⟩
    · exact ⟨rfl, fun h => h.congr rfl rfl rfl⟩
  | appendBlock hk =>
    refine ⟨rfl, fun h => h.updateArray (f := (· ++ elems s.mem.invitationLST)) ha fun objs x hx => ?_⟩
    rcases List.mem_append.1 hx with hx | hx
    · exact .inl hx
    · cases hi : s.mem.invitationLST with
      | none =>
        rw [hi] at hx
        cases hx
      | some b =>
        rw [hi] at hx
        exact .inr (.inr ⟨x, List.mem_flatMap.2 ⟨b, ha.invitation b hi, hx⟩, rfl⟩)
  | loginBlock hk hr => cases (hq _ hk).1
  | registerBlock hk => cases (hq _ hk).1
  | notify hk hm =>
    obtain rfl | ⟨found, rfl⟩ := fetchBlock_ok hm
    · exact ⟨rfl, id⟩
    · refine ⟨rfl, fun h l hl => ?_⟩
      have hcl : l ∈ elems s.mem.curLST := by
        have hl' : l ∈ elems (s.mem.curLST.map _) := hl
        rwa [ha.map_fill (List.mem_of_getElem? hk) _ (.inl rfl)] at hl'
      refine (h l hcl).imp id ?_
      rintro ⟨x, hx, he⟩
      obtain ⟨b, hb, hxb⟩ := List.mem_flatMap.1 hx
      refine ⟨x, List.mem_flatMap.2 ⟨_, List.mem_map_of_mem hb, ?_⟩, he⟩
      split
      · exact List.mem_append_left _ hxb
      · exact hxb

/-! ### Turns -/

/-- What `readData` requests: a read of the signed-in user and its merge block. -/
inductive Requests (s : Sys) : List Pending → Prop
  | nobody (h : s.currentUser = none) : Requests s []
  | read {user : FIRUser} {ref : List String} {n : Nat} (h : s.currentUser = some user)
      (href : child dataNode (some user.uid) = .ok ref) :
      Requests s [.readCallback n ref (getChild ref s.db), .mergeBlock n]

theorem Requests.user {s : Sys} {news : List Pending} (h : Requests s news) {p : Pending} (hp : p ∈ news) :
    p.user = none := by
  cases h with
  | nobody => cases hp
  | read =>
    simp only [List.mem_cons, List.not_mem_nil, or_false] at hp
    rcases hp with rfl | rfl <;> rfl

theorem Requests.isMerge {s : Sys} {news : List Pending} (h : Requests s news)
    (hs : s.currentUser.isSome = true) : ∃ p ∈ news, p.isMerge = true := by
  cases h with
  | nobody hn =>
    rw [hn] at hs
    cases hs
  | read => exact ⟨_, List.mem_cons_of_mem _ List.mem_cons_self, rfl⟩

theorem pending_readData {now : Moment} {s s' : Sys} (h : readData now s = .ok s') :
    s'.currentUser = s.currentUser ∧ ∃ news, s'.pending = s.pending ++ news ∧ Requests s news := by
  have hfiles : (readFiles now s).currentUser = s.currentUser ∧ (readFiles now s).pending = s.pending := by
    simp only [readFiles]
    split <;> exact ⟨rfl, rfl⟩
  obtain ⟨hu, hp⟩ := hfiles
  simp only [readData] at h
  cases hc : s.currentUser with
  | none =>
    simp only [hu, hc] at h
    cases h
    exact ⟨hu.trans hc, [], by rw [hp, List.append_nil], .nobody hc⟩
  | some user =>
    simp only [hu, hc, beginSync] at h
    cases hb : child dataNode (some user.uid) with
    | error e => simp only [hb] at h; cases h
    | ok ref =>
      simp only [hb] at h
      cases h
      have hread := Requests.read (n := (readFiles now s).syncs) hc hb
      rw [← db_readFiles now s] at hread
      exact ⟨hu.trans hc, _, (congrArg (· ++ _ ++ _) hp).trans (List.append_assoc _ _ _), hread⟩

/-- After the block the lists belong to the current user. -/
theorem waits_mergeBlock {dates : DateAlloc} {s s' : Sys} (h : mergeBlock dates s = .ok s') :
    s'.currentUser = s.currentUser ∧
      (∃ ref snapshot, s'.pending = s.pending ++ [.coordsCallback ref snapshot, .appendBlock]) ∧
      s'.mem.curUser = s.mem.curUser ∧ ∀ l ∈ elems s'.mem.curLST, l.listOwner = s.mem.curUser := by
  obtain ⟨ref, snapshot, huser, hmem, hpend, -⟩ := mergeBlock_completes h
  rw [hmem]
  refine ⟨huser, ⟨ref, snapshot, hpend⟩, rfl, fun l hl => ?_⟩
  have hl : l ∈ elems (ownedMerge dates s.mem).curLST := hl
  rw [ownedMerge, AppData.mapLists_curLST] at hl
  obtain ⟨x, hx, rfl⟩ := List.mem_map.1 hl
  rw [if_pos hx]
  rfl

/-- The events that are no block, no request and no answer. -/
def Action.isEdit : Action → Bool
  | .newList _ | .deleteList _ | .openItems _ | .back | .addItem _ _ | .toggleItem _ _ | .deleteItem _
  | .notify _ _ => true
  | _ => false

theorem pending_edit {a : Action} {s : Sys} {t : Turn} (ha : a.isEdit = true) (h : event s a = some t) :
    (settle t).currentUser = s.currentUser ∧ (settle t).pending = s.pending := by
  have hrows : ∀ {row : Nat} {t : Turn}, (settle t).currentUser = s.currentUser ∧ (settle t).pending = s.pending →
      (settle (deleteRows row <$> t)).currentUser = s.currentUser ∧
        (settle (deleteRows row <$> t)).pending = s.pending := by
    intro row t ht
    obtain ⟨rows, hrows⟩ := settle_deleteRows row t
    rw [hrows]
    exact ht
  have hcloud : ∀ {s' : Sys} (w : FNode → Except NSException FNode), s'.currentUser = s.currentUser →
      s'.pending = s.pending → (settle (s'.onCloud w)).currentUser = s.currentUser ∧
        (settle (s'.onCloud w)).pending = s.pending := fun w hu hp =>
    ⟨(onCloud_currentUser w _).trans hu, (onCloud_pending w _).trans hp⟩
  cases a with
  | newList text =>
    obtain ⟨-, h⟩ := Option.ite_none_right_eq_some.1 h
    cases h
    exact hcloud _ rfl rfl
  | deleteList row =>
    obtain ⟨-, h⟩ := Option.ite_none_right_eq_some.1 h
    cases h
    unfold ListViewController.deleteList
    split
    · exact ⟨rfl, rfl⟩
    · exact hrows (hcloud _ rfl rfl)
    · refine hrows ?_
      split <;> exact hcloud _ rfl rfl
  | openItems row =>
    obtain ⟨-, h⟩ := Option.ite_none_right_eq_some.1 h
    cases h
    unfold ListViewController.openItems
    split <;> exact ⟨rfl, rfl⟩
  | back =>
    obtain ⟨screen, -, h⟩ := Option.map_eq_some_iff.1 h
    cases h
    exact ⟨rfl, rfl⟩
  | addItem text now =>
    obtain ⟨-, h⟩ := Option.ite_none_right_eq_some.1 h
    obtain ⟨screen, -, h⟩ := Option.map_eq_some_iff.1 h
    cases h
    unfold itemViewController.addItem
    simp only
    split
    · exact ⟨rfl, rfl⟩
    · exact hcloud _ rfl rfl
    · exact hcloud _ rfl rfl
  | toggleItem row now =>
    obtain ⟨screen, -, h⟩ := Option.map_eq_some_iff.1 h
    cases h
    unfold itemViewController.toggleItem
    split
    · exact ⟨rfl, rfl⟩
    · exact hcloud _ rfl rfl
    · split
      · exact ⟨rfl, rfl⟩
      · exact hcloud _ rfl rfl
  | deleteItem row =>
    obtain ⟨screen, -, h⟩ := Option.map_eq_some_iff.1 h
    cases h
    unfold itemViewController.deleteItem
    split
    · exact ⟨rfl, rfl⟩
    · exact hcloud _ rfl rfl
    · split
      · exact ⟨rfl, rfl⟩
      · exact hcloud _ rfl rfl
  | notify k env =>
    obtain ⟨o, -, h⟩ := Option.map_eq_some_iff.1 h
    cases h
    unfold Sys.onMem
    split <;> exact ⟨rfl, rfl⟩
  | _ => cases ha

/-! ### Steps -/

section
variable {s t : Sys} {reads : Reads}

/-- A request waits for its answer. -/
theorem SameWaits.await {p : Pending} (hp : p.user = none ∧ p.isMerge = false) : SameWaits s (s.await p) := by
  refine ⟨rfl, fun q hq => ?_⟩
  show q ∈ s.pending ++ [p] ↔ _
  rw [List.mem_append, List.mem_singleton]
  refine ⟨fun h => h.resolve_right ?_, .inl⟩
  rintro rfl
  rcases hq with hq | hq
  · rw [hp.1] at hq
    cases hq
  · rw [hp.2] at hq
    cases hq

theorem SameWaits.refresh (k : Nat) (db : FNode) :
    SameWaits s { s with pending := s.pending.modify k (Pending.refresh db) } := by
  have hkind : ∀ p : Pending, (p.refresh db).user = p.user ∧ (p.refresh db).isMerge = p.isMerge := by
    intro p
    cases p <;> exact ⟨rfl, rfl⟩
  have hid : ∀ p : Pending, p.user.isSome = true ∨ p.isMerge = true → p.refresh db = p := by
    intro p hp
    cases p <;> first | rfl | (rcases hp with hp | hp <;> cases hp)
  refine ⟨rfl, fun p hp => ?_⟩
  simp only [List.mem_iff_getElem?, List.getElem?_modify]
  refine exists_congr fun i => ?_
  constructor
  · intro h
    obtain ⟨q, hq, he⟩ := Option.map_eq_some_iff.1 h
    split at he
    · subst he
      rw [(hkind q).1, (hkind q).2] at hp
      rw [hid q hp]
      exact hq
    · cases he
      exact hq
  · intro h
    rw [h]
    split
    · exact congrArg some (hid p hp)
    · rfl

/-- In a state where someone's sign-in waits, or nobody is signed in, nothing else is asked. -/
theorem inSession_flow {p : Pending} {v : FIRUser} (hp : p ∈ t.pending) (hv : p.user = some v)
    (hflows : ∀ p ∈ t.pending, ∀ v, p.user = some v → ∀ u, t.currentUser = some u → v.uid = u.uid)
    (hreads : ∀ x ∈ reads, ∀ u, t.currentUser = some u → ReadFor x.1 u) : InSession t reads := by
  have hno : ¬ NoFlow t := fun h => by
    rw [h p hp] at hv
    cases hv
  exact ⟨hflows, fun h => absurd h hno, fun _ h => absurd h hno, hreads⟩

theorem inSession_none (h : t.currentUser = none) : InSession t reads := by
  have hno : ∀ {P : FIRUser → Prop} u, t.currentUser = some u → P u := fun u hu => by
    rw [h] at hu
    cases hu
  refine ⟨fun _ _ _ _ => hno, fun _ => hno, fun hs => ?_, fun _ _ => hno⟩
  rw [h] at hs
  cases hs

/-- After `readData` of a signed-in user a merge block waits. -/
theorem inSession_readData {news : List Pending} {ps : List Pending} (hp : t.pending = ps ++ news)
    (hmerge : t.currentUser.isSome = true → ∃ p ∈ news, p.isMerge = true)
    (hflows : ∀ p ∈ t.pending, ∀ v, p.user = some v → ∀ u, t.currentUser = some u → v.uid = u.uid)
    (hcur : NoFlow t → ∀ u, t.currentUser = some u → t.mem.curUser.uidText = some u.uid)
    (hreads : ∀ x ∈ reads, ∀ u, t.currentUser = some u → ReadFor x.1 u) : InSession t reads := by
  refine ⟨hflows, hcur, fun hsome _ hno => ?_, hreads⟩
  obtain ⟨p, hmem, hm⟩ := hmerge hsome
  have := hno p (hp ▸ List.mem_append_right _ hmem)
  rw [hm] at this
  cases this

theorem inSession_complete {k : Nat} {user : Option FIRUser} {turn : Turn} (h : InSession s reads)
    (hc : Orderly (.complete k user) (s, reads)) (ht : event s (.complete k user) = some turn) :
    InSession (settle turn) reads := by
  obtain ⟨p, hk, ht⟩ := Option.bind_eq_some_iff.1 ht
  have hcp := hc p hk
  have hold : ∀ q ∈ (s.without k).pending, q ∈ s.pending := fun q hq => List.mem_of_mem_eraseIdx hq
  have hfail : p.user = none ∧ p.isMerge = false → InSession (s.without k) reads := fun hp =>
    h.same (.erased hk hp rfl (List.append_nil _).symm fun _ h => by cases h) rfl id fun x hx => .inl hx
  have hsign : ∀ (u : FIRUser) (q : Pending), q.user = some u → NoFlow s ∧ (∀ x ∈ reads, ReadFor x.1 u) →
      InSession (({ s.without k with currentUser := some u } : Sys).await q) reads := by
    rintro u q hq ⟨hno, hreads⟩
    refine inSession_flow (p := q) (List.mem_append_right _ List.mem_cons_self) hq (fun q' hq' v hv u' hu' => ?_)
      fun x hx u' hu' => ?_
    · cases hu'
      rcases List.mem_append.1 hq' with hq' | hq'
      · rw [hno q' (hold q' hq')] at hv
        cases hv
      · rw [List.mem_singleton.1 hq', hq] at hv
        cases hv
        rfl
    · cases hu'
      exact hreads x hx
  cases p with
  | signIn =>
    cases user with
    | none => cases ht; exact hfail ⟨rfl, rfl⟩
    | some u => cases ht; exact hsign u _ rfl (hcp u rfl)
  | createUser n e =>
    cases user with
    | none => cases ht; exact hfail ⟨rfl, rfl⟩
    | some u => cases ht; exact hsign u _ rfl (hcp u rfl)
  | commitProfile n e v =>
    cases user with
    | none =>
      cases ht
      refine inSession_none (t := s.without k) ?_
      cases hu : s.currentUser with
      | none => exact hu
      | some u =>
        have hcp' := hcp (by rw [hu]; rfl)
        cases hcp'
    | some u =>
      cases ht
      have hnamed : ∀ u', (s.currentUser.map fun u => if u.uid = v.uid then { u with displayName := some n } else u) =
          some u' → ∃ u, s.currentUser = some u ∧ u'.uid = u.uid := by
        intro u' hu'
        obtain ⟨u, hu, rfl⟩ := Option.map_eq_some_iff.1 hu'
        refine ⟨u, hu, ?_⟩
        split <;> rfl
      refine inSession_flow (p := .registerBlock n e v) (List.mem_append_right _ List.mem_cons_self) rfl
        (fun q hq v' hv u' hu' => ?_) fun x hx u' hu' => ?_
      · obtain ⟨u, hu, he⟩ := hnamed u' hu'
        rw [he]
        rcases List.mem_append.1 hq with hq | hq
        · exact h.flows q (hold q hq) v' hv u hu
        · rw [List.mem_singleton.1 hq] at hv
          cases hv
          exact h.flows _ (List.mem_of_getElem? hk) v rfl u hu
      · obtain ⟨u, hu, he⟩ := hnamed u' hu'
        have hr := h.reads x hx u hu
        rwa [ReadFor, ← he] at hr
  | _ => cases ht

/-- What a callback of the coordinates reads is for the session's user. -/
theorem readFor_newReads {a : Action} (hc : Orderly a (s, reads)) : ∀ x ∈ newReads a s,
    ∀ u, s.currentUser = some u → ReadFor x.1 u := by
  intro x hx u hu
  cases a with
  | fire k env =>
    cases hk : s.pending[k]? with
    | none =>
      simp only [newReads, hk] at hx
      cases hx
    | some p =>
      cases p with
      | coordsCallback ref snapshot => exact hc _ hk x hx u hu
      | _ =>
        simp only [newReads, hk] at hx
        cases hx
  | _ => cases hx

theorem readFor_later {a : Action} (h : InSession s reads) (hc : Orderly a (s, reads)) :
    ∀ x ∈ reads ++ newReads a s, ∀ u, s.currentUser = some u → ReadFor x.1 u := by
  intro x hx u hu
  rcases List.mem_append.1 hx with hx | hx
  · exact h.reads x hx u hu
  · exact readFor_newReads hc x hx u hu

theorem inSession_mergeBlock {k n : Nat} {env : Env} {s' : Sys} (h : InSession s reads)
    (hc : Orderly (.fire k env) (s, reads)) (hk : s.pending[k]? = some (.mergeBlock n))
    (hs' : ListViewController.mergeBlock env.dates (s.without k) = .ok s') (huser : SameUser s'.mem s'.files) :
    InSession s' (reads ++ newReads (.fire k env) s) := by
  obtain ⟨hu, ⟨ref, snapshot, hpend⟩, hcur, howner⟩ := waits_mergeBlock hs'
  refine ⟨fun q hq v hv u hu' => ?_, fun _ u hu' => ?_, fun _ _ _ l hl => .inl ?_, fun x hx u hu' => ?_⟩
  · rw [hpend] at hq
    rcases List.mem_append.1 hq with hq | hq
    · exact h.flows q (List.mem_of_mem_eraseIdx hq) v hv u (hu.symm.trans hu')
    · simp only [List.mem_cons, List.not_mem_nil, or_false] at hq
      rcases hq with rfl | rfl <;> cases hv
  · have hu' : s.currentUser = some u := hu.symm.trans hu'
    rw [hcur]
    exact h.user ((hc _ hk).1 (hu' ▸ rfl)) u hu'
  · refine belongs_curUser huser.isSome ?_
    rw [howner l hl]
    exact congrArg UserClass.uidText hcur.symm
  · exact readFor_later h hc x hx u (hu.symm.trans hu')

theorem inSession_loginBlock {k : Nat} {env : Env} {v : FIRUser} {s' : Sys} (h : InSession s reads)
    (hc : Orderly (.fire k env) (s, reads)) (hk : s.pending[k]? = some (.loginBlock v))
    (hs' : readData env.now ((s.without k).setTheUser v.displayName v.email v.uid) = .ok s')
    (huser : SameUser s'.mem s'.files) : InSession s' (reads ++ newReads (.fire k env) s) := by
  obtain ⟨hu, news, hpend, hreq⟩ := pending_readData hs'
  have hfiles := files_readsData (u := ⟨v.displayName, v.email, some v.uid⟩) rfl rfl
    (readsData env.now ((s.without k).setTheUser v.displayName v.email v.uid)).1
  rw [hs'] at hfiles
  have hu0 : s'.currentUser = s.currentUser := hu
  refine inSession_readData hpend (fun hsome => hreq.isMerge (hu ▸ hsome)) (fun q hq w hw u hu' => ?_)
    (fun _ u hu' => ?_) fun x hx u hu' => readFor_later h hc x hx u (hu0.symm.trans hu')
  · rw [hpend] at hq
    rcases List.mem_append.1 hq with hq | hq
    · exact h.flows q (List.mem_of_mem_eraseIdx hq) w hw u (hu0.symm.trans hu')
    · rw [hreq.user hq] at hw
      cases hw
  · obtain ⟨uid, hcur, hplist⟩ := huser
    rw [hcur, ← h.flows _ (List.mem_of_getElem? hk) v rfl u (hu0.symm.trans hu'), ← hplist,
      show s'.files = _ from hfiles]
    rfl

theorem inSession_registerBlock {k : Nat} {env : Env} {n e : String} {v : FIRUser} (h : InSession s reads)
    (hc : Orderly (.fire k env) (s, reads)) (hk : s.pending[k]? = some (.registerBlock n e v)) :
    InSession (settle (ListViewController.registerBlock n e v (s.without k))) (reads ++ newReads (.fire k env) s) := by
  obtain ⟨db, running, rows, hs'⟩ := onlyCloud_registerBlock n e v (s.without k)
  rw [hs']
  refine ⟨fun q hq w hw u hu => h.flows q (List.mem_of_mem_eraseIdx hq) w hw u hu, fun _ u hu => ?_,
    fun hsome _ _ l hl => .inl ?_, readFor_later h hc⟩
  · rw [← h.flows _ (List.mem_of_getElem? hk) v rfl u hu]
    rfl
  · have hl : l ∈ elems (SetTheUser.setWithName (some n) (some e) v.uid s.mem).curLST := hl
    simp only [SetTheUser.setWithName, AppData.mapLists_curLST] at hl
    obtain ⟨x, hx, rfl⟩ := List.mem_map.1 hl
    have hmine : x ∈ (elems s.mem.curLST).filter fun any => samePointer any.listOwner.uid s.mem.curUser.uid :=
      hc _ hk hsome x hx
    refine belongs_curUser rfl ?_
    rw [if_pos hmine]
    rfl

theorem inSession_fire {k : Nat} {env : Env} {turn : Turn} (h : InSession s reads)
    (hkept : HandsKept (OwnerIn reads) s.mem s.files s.observers) (hc : Orderly (.fire k env) (s, reads))
    (ht : event s (.fire k env) = some turn) (hrun : (settle turn).running = true)
    (huser : SameUser (settle turn).mem (settle turn).files) (ho : HasOutcome s (.fire k env) (settle turn)) :
    InSession (settle turn) (reads ++ newReads (.fire k env) s) := by
  obtain ⟨p, hk, ht⟩ := Option.bind_eq_some_iff.1 ht
  -- a callback, or the inner block
  have hquiet : p.user = none ∧ p.isMerge = false → (settle turn).currentUser = s.currentUser →
      (settle turn).pending = s.pending.eraseIdx k → InSession (settle turn) (reads ++ newReads (.fire k env) s) := by
    intro hp hu hpend
    have hq : Quiet (.fire k env) s := fun q hq => by
      cases hk.symm.trans hq
      exact hp
    have hout := ho.resolve_right fun hstop => by rw [hstop.1] at hrun; cases hrun
    obtain ⟨hcur, hown⟩ := own_outcome hkept.arrays hkept.user.isSome hq hout
    exact h.same (.erased hk hp hu (hpend.trans (List.append_nil _).symm) fun _ h => by cases h)
      (by rw [hcur]) hown fun x hx => (List.mem_append.1 hx).imp id (readFor_newReads hc x)
  cases p with
  | readCallback n ref snapshot =>
    cases ht
    obtain ⟨s', hs'⟩ := ok_of_running hrun
    obtain ⟨m, -, rfl⟩ := onMem_ok hs'
    rw [hs'] at hquiet ⊢
    exact hquiet ⟨rfl, rfl⟩ rfl rfl
  | coordsCallback ref snapshot =>
    cases ht
    obtain ⟨s', hs'⟩ := ok_of_running hrun
    obtain ⟨m, -, rfl⟩ := onMem_ok hs'
    rw [hs'] at hquiet ⊢
    exact hquiet ⟨rfl, rfl⟩ rfl rfl
  | appendBlock =>
    cases ht
    exact hquiet ⟨rfl, rfl⟩ rfl rfl
  | mergeBlock n =>
    cases ht
    obtain ⟨s', hs'⟩ := ok_of_running hrun
    rw [hs'] at huser ⊢
    exact inSession_mergeBlock h hc hk hs' huser
  | loginBlock v =>
    cases ht
    obtain ⟨s', hs'⟩ := ok_of_running hrun
    rw [hs'] at huser ⊢
    exact inSession_loginBlock h hc hk hs' huser
  | registerBlock n e v =>
    cases ht
    exact inSession_registerBlock h hc hk
  | _ => cases ht

/-- The sign-in that the user asks for waits behind a new sync. -/
theorem inSession_login {now : Moment} {s' : Sys} (h : InSession s reads)
    (hkept : HandsKept (OwnerIn reads) s.mem s.files s.observers) (hc : Orderly (.login now) (s, reads))
    (hr : readData now s = .ok s') (huser : SameUser s'.mem s'.files) :
    InSession (s'.await .signIn) (reads ++ newReads (.login now) s) := by
  obtain ⟨hu, news, hpend, hreq⟩ := pending_readData hr
  obtain ⟨u, hstored, huid⟩ := hkept.user.stored
  have hfiles := files_readsData hstored huid (readsData now s).1
  rw [hr] at hfiles
  have hsign : (s'.await .signIn).pending = s.pending ++ (news ++ [.signIn]) := by
    rw [← List.append_assoc, ← hpend]
    rfl
  have hold : ∀ p ∈ (s'.await .signIn).pending, ∀ v, p.user = some v → p ∈ s.pending := by
    intro p hp v hv
    rw [hsign] at hp
    rcases List.mem_append.1 hp with hp | hp
    · exact hp
    · rcases List.mem_append.1 hp with hp | hp
      · rw [hreq.user hp] at hv
        cases hv
      · rw [List.mem_singleton.1 hp] at hv
        cases hv
  refine inSession_readData hsign (fun hsome => ?_) (fun p hp v hv w hw => ?_) (fun hflow w hw => ?_)
    fun x hx w hw => readFor_later h hc x hx w (hu.symm.trans hw)
  · obtain ⟨p, hp, hm⟩ := hreq.isMerge (hu ▸ hsome)
    exact ⟨p, List.mem_append_left _ hp, hm⟩
  · exact h.flows p (hold p hp v hv) v hv w (hu.symm.trans hw)
  · obtain ⟨uid, hcur, hplist⟩ := huser
    obtain ⟨uid', hcur', hplist'⟩ := hkept.user
    have hno : NoFlow s := fun p hp => hflow p (hsign ▸ List.mem_append_left _ hp)
    have hw' := h.user hno w (hu.symm.trans hw)
    rw [show s'.files = s.files from hfiles, hplist'] at hplist
    rw [show (s'.await .signIn).mem = s'.mem from rfl, hcur, ← hw', hcur', hplist]

theorem inSession_event {a : Action} {turn : Turn} (h : InSession s reads)
    (hkept : HandsKept (OwnerIn reads) s.mem s.files s.observers) (hc : Orderly a (s, reads))
    (hne : ∀ now, a ≠ .launch now) (ht : event s a = some turn) (hrun : (settle turn).running = true)
    (huser : SameUser (settle turn).mem (settle turn).files) :
    InSession (settle turn) (reads ++ newReads a s) := by
  have ho := event_outcome ht
  have hreads : ∀ x ∈ reads ++ newReads a s, x ∈ reads ∨ ∀ u, s.currentUser = some u → ReadFor x.1 u :=
    fun x hx => (List.mem_append.1 hx).imp id (readFor_newReads hc x)
  -- an event that leaves the blocks, and the user
  have hquiet : Quiet a s → SameWaits s (settle turn) → InSession (settle turn) (reads ++ newReads a s) := by
    intro hq hw
    have hout := ho.resolve_right fun hstop => by rw [hstop.1] at hrun; cases hrun
    obtain ⟨hcur, hown⟩ := own_outcome hkept.arrays hkept.user.isSome hq hout
    exact h.same hw (by rw [hcur]) hown hreads
  cases a with
  | launch now => exact absurd rfl (hne now)
  | login now =>
    obtain ⟨-, ht⟩ := Option.ite_none_right_eq_some.1 ht
    cases ht
    cases hr : readData now s with
    | error e =>
      rw [hr] at hrun
      cases hrun
    | ok s' =>
      rw [hr] at huser
      exact inSession_login h hkept hc hr huser
  | register n e =>
    obtain ⟨-, ht⟩ := Option.ite_none_right_eq_some.1 ht
    cases ht
    exact hquiet trivial (.await ⟨rfl, rfl⟩)
  | logout =>
    obtain ⟨-, ht⟩ := Option.ite_none_right_eq_some.1 ht
    cases ht
    exact inSession_none rfl
  | refresh k =>
    cases ht
    exact hquiet trivial (.refresh k s.db)
  | fire k env => exact inSession_fire h hkept hc ht hrun huser ho
  | complete k user =>
    rw [show newReads (.complete k user) s = [] from rfl, List.append_nil]
    exact inSession_complete h hc ht
  | _ => exact hquiet trivial (.of_eq (pending_edit rfl ht).1 (pending_edit rfl ht).2)

/-- A new process of a session whose user is stored. -/
theorem inSession_launch {now : Moment} (hc : Orderly (.launch now) (s, reads))
    (hrun : (step (.launch now) s).running = true)
    (huser : SameUser (step (.launch now) s).mem (step (.launch now) s).files) :
    InSession (step (.launch now) s) [] := by
  let s₀ : Sys := { s with
    mem := AppData.init, running := true, rows := [], screen := none, pending := [], observers := [] }
  have hstep : step (.launch now) s = settle (Sys.reload <$> readData now s₀) := rfl
  rw [hstep] at hrun huser ⊢
  cases hr : readData now s₀ with
  | error e =>
    rw [hr] at hrun
    cases hrun
  | ok s₁ =>
    rw [hr] at huser
    obtain ⟨hu, news, hpend, hreq⟩ := pending_readData hr
    have hnew : s₁.reload.pending = [] ++ news := hpend
    refine inSession_readData hnew (fun hsome => hreq.isMerge (hu ▸ hsome))
      (fun p hp v hv => ?_) (fun _ u hu' => ?_) fun x hx => by cases hx
    · have hp : p ∈ s₁.pending := hp
      rw [hpend] at hp
      rw [hreq.user hp] at hv
      cases hv
    · have hu0 : s.currentUser = some u := hu.symm.trans hu'
      have hplist : s.files.userPlist.bind UserData.uid = some u.uid := hc u hu0
      obtain ⟨stored, hstored, huid⟩ := Option.bind_eq_some_iff.1 hplist
      have hfiles := files_readsData (f := s₀.files) hstored (huid ▸ rfl) (readsData now s₀).1
      rw [hr] at hfiles
      obtain ⟨uid, hcur, hp⟩ := huser
      have hp : s₁.files.userPlist.bind UserData.uid = some uid := hp
      rw [show s₁.files = s.files from hfiles, hplist] at hp
      rw [hcur, hp]

end

/-- **One step** keeps the session. -/
theorem sessionKept_step {a : Action} {t : Sys × Reads} (hc : Orderly a t) (h : SessionKept t) :
    SessionKept (stepReads a t) := by
  obtain ⟨s, reads⟩ := t
  have hhands : Kept (HandsKept (OwnerIn (stepReads a (s, reads)).2)) (fun _ => True) (step a s) := by
    refine handsKept_step h.hands (fun _ => ?_) (fun hne u hu => ?_) fun hr => ?_
    · rintro k env n rfl hk
      exact (hc _ hk).2
    · obtain ⟨x, hx, he⟩ := hu
      refine ⟨x, ?_, he⟩
      cases a with
      | launch now => exact absurd rfl (hne now)
      | _ =>
        simp only [stepReads]
        split
        · exact List.mem_append_left _ hx
        · exact hx
    · rintro k env ref snapshot m rfl hk hm hlt c hmem
      refine ⟨(ref, c), ?_, rfl⟩
      have hr : s.running = true := hr
      simp only [stepReads, if_pos hr]
      refine List.mem_append_right _ ?_
      simp only [newReads, hk, hm, if_pos hlt]
      exact List.mem_map_of_mem hmem
  refine ⟨hhands, fun hrun => ?_⟩
  have huser := (hhands.2 hrun).user
  by_cases hl : ∃ now, a = .launch now
  · obtain ⟨now, rfl⟩ := hl
    exact inSession_launch hc hrun huser
  · have hne : ∀ now, a ≠ .launch now := fun now e => hl ⟨now, e⟩
    cases hr : s.running with
    | false =>
      have hstop : (stepReads a (s, reads)).1 = s := step_stopped hr hne
      rw [hstop, hr] at hrun
      cases hrun
    | true =>
      have hreads : (stepReads a (s, reads)).2 = reads ++ newReads a s := by
        cases a with
        | launch now => exact absurd rfl (hne now)
        | _ => exact if_pos hr
      have hin := h.session hr
      rw [hreads]
      have hstep : (stepReads a (s, reads)).1 = ((event s a).map settle).getD s := step_running hr
      rw [hstep] at hrun ⊢
      have huser : SameUser (((event s a).map settle).getD s).mem (((event s a).map settle).getD s).files := by
        rw [← hstep]
        exact huser
      cases ht : event s a with
      | none =>
        exact hin.same (.of_eq rfl rfl) rfl id fun x hx =>
          (List.mem_append.1 hx).imp id (readFor_newReads hc x)
      | some turn =>
        rw [ht] at hrun huser
        exact inSession_event hin (h.hands.2 hr) hc hne ht hrun huser

/-- **The writers stay below the node of the session's user**, and of the owners of lists that he is
invited to, in every orderly run. -/
theorem ownPaths_run {s : Sys} (as : List Action) (hr : s.running = false)
    (hc : Run.Along stepReads Orderly as (s, [])) : Run.Along stepReads OwnPaths as (s, []) :=
  Run.along_of_invariant (P := SessionKept) (fun _ _ => sessionKept_step) (fun _ _ hc h => ownPaths hc h) hc
    ⟨⟨trivial, fun h => by rw [hr] at h; cases h⟩, fun h => by rw [hr] at h; cases h⟩

/-! ## A sign-in of Ann -/

/-- A list made without an account becomes hers in the merge block, and gets an item after it. -/
theorem ownPaths_run_tools : Run.Along stepReads OwnPaths
    [.launch annEnv.now, .newList "Tools", .login annEnv.now, .complete 0 (some annAccount), .fire 0 annEnv,
      .fire 0 annEnv, .fire 0 annEnv, .openItems 0, .addItem "Saw" annEnv.now] (newDevice, []) :=
  ownPaths_run _ rfl (by decide)

/-- Ann adds a list in the half second between the answer of `FIRAuth` and the block. -/
theorem not_ownPaths_run : ¬ ∀ (s : Sys) (as : List Action), s.running = false →
    Run.Along stepReads OwnPaths as (s, []) := by
  intro h
  let signsIn : List Action := [.launch annEnv.now, .login annEnv.now, .complete 0 (some annAccount)]
  obtain ⟨-, hpaths, -⟩ := Run.along_append.1 (h newDevice (signsIn ++ [.newList "Tools"]) rfl)
  have htarget : ∀ c ∈ cloudCalls (.newList "Tools") (Run.run stepReads signsIn (newDevice, [])).1,
      c.target.1 = some "u1" := by
    intro c hc
    refine (hpaths.target annAccount (by decide) c hc).resolve_right ?_
    rintro ⟨l, -, -, -, x, hx, -⟩
    cases hx
  revert htarget
  decide

end ShopingList
