import ShopingList.App.Machine
import ShopingList.App.Schema

/-!
# Sharing a list

`inviteUserWithEmail` registers an observer of the node of all users, which stays
registered: its block runs for every value event from then on, with the variable
`inviteeUser` that one run leaves to the next. A run that raises ends the process.
`sentOnce_iff` says which sequences of value events make the block send
one invitation, to the user with the entered address.
-/

namespace ShopingList

open FNode

namespace itemViewController

/-- What the block captures. -/
structure Share where
  inpEmail : String
  ownerUser : UserClass
  listName : Option String

/-- A value event of the node of all users: the database at that time. -/
structure UsersEvent where
  order : DictOrder
  db : FNode

def UsersEvent.snapshot (e : UsersEvent) : FNode := getChild userNode e.db

/-- An invitation that was sent: the event, the node written, and the database after it. -/
structure Sent where
  event : UsersEvent
  invitationNode : List String
  db : FNode

/-- The variable that the runs of the block share, and what they have sent. -/
structure ShareState where
  inviteeUser : Option UserData
  sent : List Sent

/-- The loop over `AllUsers`, up to the `break`. -/
def findInvitee (inpEmail : String) : List FNode → Except NSException (Option UserData)
  | [] => .ok none
  | any :: rest => do
    if isEqualToString (← stringForKey "email" any) (some inpEmail) then
      return some ⟨← stringForKey "name" any, ← stringForKey "email" any, ← stringForKey "uiid" any⟩
    else findInvitee inpEmail rest

/-- The user that the loop finds in the snapshot of an event. -/
def UsersEvent.finds (inpEmail : String) (e : UsersEvent) : Except NSException (Option UserData) := do
  findInvitee inpEmail (← allValues e.order e.snapshot)

def Share.inivitationTitle (share : Share) : String :=
  RemoveInvitation.formatted share.ownerUser.uidText ++ "|" ++ RemoveInvitation.formatted share.listName

def Share.inviteeDic (share : Share) : FNode :=
  dictionary [(share.listName, "listName"), (share.ownerUser.name, "ListOwner"),
    (share.ownerUser.email, "email"), (share.ownerUser.uidText, "uid")]

/-- The node of the invitation below the node of the user `uid`. -/
def Share.invitationNode (share : Share) (uid : Option String) : Except NSException (List String) := do
  child (← child (← child userNode uid) (some "invitations")) (some share.inivitationTitle)

/-- The block, for one event. -/
def Share.block (share : Share) (e : UsersEvent) (s : ShareState) : Except NSException ShareState := do
  let inviteeUser := (← e.finds share.inpEmail).or s.inviteeUser
  match inviteeUser with
  | none => return s
  | some user =>
    let invitationNode ← share.invitationNode user.uid
    let db ← setValue invitationNode share.inviteeDic e.db
    return ⟨some user, s.sent ++ [⟨e, invitationNode, db⟩]⟩

/-- `[self inviteUserWithEmail:inpEmail]`, up to the registration of the block. -/
def inviteUserWithEmail (curLSTInt : Nat) (inpEmail : String) (s : Sys) : Except NSException Share := do
  let list := ((← objectAt s.mem.curLST curLSTInt).getD .null)
  return ⟨inpEmail, list.listOwner, list.listName⟩

/-- The invitations that the block of a call sends in a sequence of value events. -/
def Share.sent (share : Share) (events : List UsersEvent) : List Sent :=
  (Raising.outcome (Raising.loop share.block events ⟨none, []⟩)).sent

/-! ## One event -/

variable {share : Share} {e : UsersEvent} {s : ShareState}

/-- The values of an invitation are strings under fixed keys. -/
theorem setValue_inviteeDic (share : Share) (path : List String) (db : FNode) :
    setValue path share.inviteeDic db = .ok (updateChild share.inviteeDic path db) := by
  have hkeys : ∀ k ∈ ["listName", "ListOwner", "email", "uid"], FieldKey k := by decide
  have hdic : nodeFrom share.inviteeDic = .ok share.inviteeDic := nodeFrom_dictionary hkeys
  rw [setValue, hdic]
  rfl

theorem block_error {x : NSException} (h : e.finds share.inpEmail = .error x) :
    share.block e s = .error x := by
  rw [Share.block, h]
  rfl

/-- Before the first match the block sends nothing. -/
theorem block_idle (h : e.finds share.inpEmail = .ok none) (hs : s.inviteeUser = none) :
    share.block e s = .ok s := by
  rw [Share.block, h]
  show (match (none : Option UserData).or s.inviteeUser with
    | none => _
    | some user => _) = _
  rw [hs]
  rfl

/-- **A user, once found, is invited again** at every event that names no other. -/
theorem block_sends {found : Option UserData} {user : UserData} {path : List String}
    (h : e.finds share.inpEmail = .ok found) (hu : found.or s.inviteeUser = some user)
    (hp : share.invitationNode user.uid = .ok path) : share.block e s =
      .ok ⟨some user, s.sent ++ [⟨e, path, updateChild share.inviteeDic path e.db⟩]⟩ := by
  rw [Share.block, h]
  show (match found.or s.inviteeUser with
    | none => _
    | some user => _) = _
  rw [hu]
  simp only [hp, setValue_inviteeDic]
  rfl

theorem block_unreachable {found : Option UserData} {user : UserData} {x : NSException}
    (h : e.finds share.inpEmail = .ok found) (hu : found.or s.inviteeUser = some user)
    (hp : share.invitationNode user.uid = .error x) : share.block e s = .error x := by
  rw [Share.block, h]
  show (match found.or s.inviteeUser with
    | none => _
    | some user => _) = _
  rw [hu]
  simp only [hp]
  rfl

theorem findInvitee_some {inpEmail : String} {users : List FNode} {user : UserData}
    (h : findInvitee inpEmail users = .ok (some user)) : ∃ any ∈ users,
      stringForKey "email" any = .ok (some inpEmail) ∧ stringForKey "uiid" any = .ok user.uid := by
  induction users with
  | nil => cases h
  | cons any users ih =>
    rw [findInvitee] at h
    obtain ⟨email, hemail, h⟩ := Raising.bind_ok_iff.1 h
    split at h
    · rename_i heq
      obtain ⟨t, rfl, ht⟩ := isEqualToString_iff.1 heq
      cases ht
      obtain ⟨name, hname, h⟩ := Raising.bind_ok_iff.1 h
      obtain ⟨email', hemail', h⟩ := Raising.bind_ok_iff.1 h
      obtain ⟨uid, huid, h⟩ := Raising.bind_ok_iff.1 h
      cases h
      exact ⟨any, List.mem_cons_self, hemail, huid⟩
    · obtain ⟨any', hm, he, hu⟩ := ih h
      exact ⟨any', List.mem_cons_of_mem _ hm, he, hu⟩

/-! ## Sequences of events -/

/-- The invitation goes below a user who has the entered address in the snapshot of the event. -/
def Sent.Addressed (share : Share) (w : Sent) : Prop :=
  ∃ users, allValues w.event.order w.event.snapshot = .ok users ∧ ∃ any ∈ users, ∃ uid,
    stringForKey "email" any = .ok (some share.inpEmail) ∧ stringForKey "uiid" any = .ok uid ∧
      share.invitationNode uid = .ok w.invitationNode

/-- At most one invitation is sent, and it goes to a user with the entered address. -/
def SentOnce (share : Share) (sent : List Sent) : Prop :=
  sent.length ≤ 1 ∧ ∀ w ∈ sent, w.Addressed share

/-- There is a node for the invitation of the user. -/
def Share.Reaches (share : Share) (user : UserData) : Prop :=
  ∃ path, share.invitationNode user.uid = .ok path

/-- At the event the loop over the users ends, with a user who can be invited: the one it finds,
or else `user`. -/
def Share.Answers (share : Share) (user : UserData) (e : UsersEvent) : Prop :=
  ∃ found, e.finds share.inpEmail = .ok found ∧ share.Reaches (found.getD user)

/-- No event that can be answered comes after the first one with a user of the entered address. -/
def LastMatch (share : Share) (events : List UsersEvent) : Prop :=
  ∀ before e e' after user, events = before ++ e :: e' :: after →
    (∀ x ∈ before, x.finds share.inpEmail = .ok none) → e.finds share.inpEmail = .ok (some user) →
      share.Reaches user → ¬ share.Answers user e'

/-- What is sent stays sent. -/
theorem sent_before (share : Share) (events : List UsersEvent) (s : ShareState) :
    s.sent <+: (Raising.outcome (Raising.loop share.block events s)).sent := by
  refine Raising.outcome_loop (P := fun t : ShareState => s.sent <+: t.sent) (fun e _ t t' h hb => ?_)
    (List.prefix_refl _)
  obtain ⟨found, hf, hb⟩ := Raising.bind_ok_iff.1 hb
  simp only at hb
  split at hb
  · cases hb
    exact h
  · obtain ⟨path, -, hb⟩ := Raising.bind_ok_iff.1 hb
    obtain ⟨db, -, hb⟩ := Raising.bind_ok_iff.1 hb
    cases hb
    exact h.trans (List.prefix_append _ _)

theorem lastMatch_cons_idle {events : List UsersEvent} (h : e.finds share.inpEmail = .ok none) :
    LastMatch share (e :: events) ↔ LastMatch share events := by
  constructor
  · intro hl before e₁ e' after user he hb
    exact hl (e :: before) e₁ e' after user (by rw [he]; rfl) (List.forall_mem_cons.2 ⟨h, hb⟩)
  · intro hl before e₁ e' after user he hb hf
    cases before with
    | nil =>
      cases he
      rw [h] at hf
      cases hf
    | cons x before =>
      cases he
      exact hl before e₁ e' after user rfl (fun y hy => hb y (List.mem_cons_of_mem _ hy)) hf

/-- After the first event that is not idle only the next one matters. -/
theorem lastMatch_cons {events : List UsersEvent} (h : e.finds share.inpEmail ≠ .ok none) :
    LastMatch share (e :: events) ↔ ∀ e' after user, events = e' :: after →
      e.finds share.inpEmail = .ok (some user) → share.Reaches user → ¬ share.Answers user e' := by
  constructor
  · intro hl e' after user he
    exact hl [] e e' after user (by rw [he]; rfl) (fun x hx => nomatch hx)
  · intro hl before e₁ e' after user he hb
    cases before with
    | nil =>
      cases he
      exact hl e' after user rfl
    | cons x before =>
      cases he
      exact absurd (hb e List.mem_cons_self) h

/-- A call whose first match cannot be invited sends nothing. -/
theorem sentOnce_of_error {events : List UsersEvent} {x : NSException}
    (hb : share.block e ⟨none, []⟩ = .error x) : SentOnce share (share.sent (e :: events)) := by
  rw [Share.sent, Raising.loop, hb]
  exact ⟨Nat.zero_le 1, fun w h => by cases h⟩

theorem addressed_of_finds {user : UserData} {path : List String} {db : FNode}
    (h : e.finds share.inpEmail = .ok (some user)) (hp : share.invitationNode user.uid = .ok path) :
    Sent.Addressed share ⟨e, path, db⟩ := by
  obtain ⟨users, husers, h⟩ := Raising.bind_ok_iff.1 h
  obtain ⟨any, hm, hemail, huid⟩ := findInvitee_some h
  exact ⟨users, husers, any, hm, user.uid, hemail, huid, hp⟩

/-- After the invitation of `user` the next event decides. -/
theorem sentOnce_of_sent {user : UserData} {path : List String} {db : FNode} {events : List UsersEvent}
    (h : e.finds share.inpEmail = .ok (some user)) (hp : share.invitationNode user.uid = .ok path) :
    SentOnce share (Raising.outcome (Raising.loop share.block events ⟨some user, [⟨e, path, db⟩]⟩)).sent ↔
      ∀ e' after, events = e' :: after → ¬ share.Answers user e' := by
  have hone : SentOnce share [⟨e, path, db⟩] := by
    refine ⟨Nat.le_refl 1, fun w hw => ?_⟩
    rw [List.mem_singleton.1 hw]
    exact addressed_of_finds h hp
  cases events with
  | nil => exact iff_of_true hone fun e' after he => by cases he
  | cons e' after =>
    rw [Raising.loop]
    cases hf : e'.finds share.inpEmail with
    | error x =>
      rw [block_error hf]
      refine iff_of_true hone fun e₁ after₁ he ha => ?_
      cases he
      obtain ⟨found, ha, -⟩ := ha
      rw [hf] at ha
      cases ha
    | ok found =>
      have hor : found.or (some user) = some (found.getD user) := by cases found <;> rfl
      cases hp' : share.invitationNode (found.getD user).uid with
      | error x =>
        rw [block_unreachable hf hor hp']
        refine iff_of_true hone fun e₁ after₁ he ha => ?_
        cases he
        obtain ⟨found', ha, path', hr⟩ := ha
        rw [hf] at ha
        cases ha
        rw [hp'] at hr
        cases hr
      | ok path' =>
        rw [block_sends hf hor hp']
        refine iff_of_false (fun hs => ?_) fun hn => hn e' after rfl ⟨found, hf, path', hp'⟩
        have hle := (sent_before share after ⟨some (found.getD user), [⟨e, path, db⟩] ++
          [⟨e', path', updateChild share.inviteeDic path' e'.db⟩]⟩).length_le
        have htwo := hle.trans hs.1
        rw [List.length_append, List.length_singleton, List.length_singleton] at htwo
        omega

/-- **When an invitation is sent once, to its addressee**: unless the block can answer
a second event. -/
theorem sentOnce_iff (share : Share) (events : List UsersEvent) :
    SentOnce share (share.sent events) ↔ LastMatch share events := by
  induction events with
  | nil =>
    refine iff_of_true ⟨Nat.zero_le 1, fun w h => by cases h⟩ fun before e e' after user he => ?_
    cases before <;> cases he
  | cons e events ih =>
    cases hf : e.finds share.inpEmail with
    | error x =>
      rw [lastMatch_cons (by rw [hf]; simp)]
      refine iff_of_true (sentOnce_of_error (block_error hf)) fun e' after user _ h => ?_
      rw [hf] at h
      cases h
    | ok found =>
      cases found with
      | none =>
        rw [lastMatch_cons_idle hf, ← ih, Share.sent, Raising.loop, block_idle hf rfl]
        rfl
      | some user =>
        rw [lastMatch_cons (by rw [hf]; simp)]
        cases hp : share.invitationNode user.uid with
        | error x =>
          refine iff_of_true (sentOnce_of_error (block_unreachable hf Option.some_or hp))
            fun e' after user' _ h hr => ?_
          rw [hf] at h
          cases h
          obtain ⟨path, hr⟩ := hr
          rw [hp] at hr
          cases hr
        | ok path =>
          rw [Share.sent, Raising.loop, block_sends hf Option.some_or hp]
          refine (sentOnce_of_sent hf hp).trans ?_
          constructor
          · intro h e' after user' he hfu hr
            rw [hf] at hfu
            cases hfu
            exact h e' after he
          · exact fun h e' after he => h e' after user he hf ⟨path, hp⟩

/-! ## A share with Bob -/

/-- The database with Bob, who may have another address by now. -/
def bobUsers (email : String) : FNode := .children [("Users", .children [("u2", .children
  [("email", .leaf email), ("name", .leaf "Bob"), ("uiid", .leaf "u2")])])]

/-- Ann's device, with her list. -/
def annFood : Sys :=
  (annSys (bobUsers "bob@mail") []).withMem { AppData.init with curUser := ann, curLST := some ⟨1, [foodList]⟩ }

def bobShare : Share := ⟨"bob@mail", ann, some "Food"⟩

/-- The write of the invitation is a value event of its own, and Bob has changed his address when
the third one comes. -/
theorem not_sentOnce : ¬ ∀ (curLSTInt : Nat) (inpEmail : String) (s : Sys) (share : Share),
    inviteUserWithEmail curLSTInt inpEmail s = .ok share →
      ∀ events, SentOnce share (share.sent events) := by
  intro h
  have hbob := (h 0 "bob@mail" annFood bobShare rfl [⟨.byKey, bobUsers "bob@mail"⟩,
    ⟨.byKey, updateChild bobShare.inviteeDic ["Users", "u2", "invitations", "u1|Food"] (bobUsers "bob@mail")⟩,
    ⟨.byKey, bobUsers "bob@home"⟩]).1
  revert hbob
  decide

end itemViewController

end ShopingList
