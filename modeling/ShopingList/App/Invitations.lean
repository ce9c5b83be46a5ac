import ShopingList.App.Invite
import ShopingList.App.Delivery

/-!
# Invitations that are sent, read and rejected

What `ReadInvitations` decodes of a sent invitation ends where the record of the owner has a gap
(`readInvitation_inviteeDic`). `RemoveInvitation` looks for it below the node of the owner, where no
invitation of his is (`not_rejectUndoes`); `readsSent_iff` says which sequences of invitations are read back.
-/

namespace ShopingList

open FNode FValidation

namespace itemViewController

/-! ## One invitation -/

section
variable {share : Share} {n : String}

theorem leafAt_inviteeDic (h : share.listName = some n) :
    leafAt ["listName"] share.inviteeDic = some n ∧
    leafAt ["ListOwner"] share.inviteeDic = (storedOwner share.ownerUser.encodeWithCoder).name ∧
    leafAt ["email"] share.inviteeDic = (storedOwner share.ownerUser.encodeWithCoder).email ∧
    leafAt ["uid"] share.inviteeDic = (storedOwner share.ownerUser.encodeWithCoder).uid := by
  obtain ⟨e, ⟨nm, em, u⟩, l⟩ := share
  cases h
  cases nm <;> cases em <;> cases u <;>
    simp [Share.inviteeDic, UserClass.uidText, UserClass.encodeWithCoder, storedOwner, dictionary, objectsAndKeys,
      SortedDict.ofList, SortedDict.set, -String.lt_iff_ltb, leafAt, getChild, getImmediateChild, SortedDict.get,
      leafValue, emptyNode]

theorem isEmpty_inviteeDic (h : share.listName = some n) : share.inviteeDic.isEmpty = false := by
  by_contra he
  rw [Bool.not_eq_false] at he
  have hname := (leafAt_inviteeDic h).1
  rw [eq_emptyNode he, leafAt_emptyNode] at hname
  cases hname

/-- The values of an invitation are strings. -/
theorem stringForKey_inviteeDic (h : share.listName = some n) (key : String) :
    stringForKey key share.inviteeDic = .ok (leafAt [key] share.inviteeDic) := by
  have hints : ∀ k ∈ ["listName", "ListOwner", "email", "uid"], integerKey k = none := by decide
  have hleaves : LeavesIn (fun r => ∃ k ∈ ["listName", "ListOwner", "email", "uid"], r = [k]) share.inviteeDic :=
    leavesIn_dictionary _
  have hnormal : Normal share.inviteeDic := normal_dictionary _
  have hexports : share.inviteeDic.exportsDictionary = true := by
    refine hleaves.exportsDictionary hnormal ?_ ?_
    · rintro ⟨k, -, hk⟩
      cases hk
    · rintro k r ⟨k', hk', hr⟩
      cases hr
      exact hints k hk'
  refine hleaves.stringForKey hnormal hexports (isEmpty_inviteeDic h) ?_
  rintro r ⟨k, -, hr⟩
  cases hr
  rfl

/-- **What is read of an invitation**: the record of the owner ends at its first gap. -/
theorem readInvitation_inviteeDic (h : share.listName = some n) (addr : Nat) :
    ReadInvitations.readInvitation addr share.inviteeDic =
      .ok ⟨some n, .initWithCoder addr (storedOwner share.ownerUser.encodeWithCoder)⟩ := by
  obtain ⟨hname, howner, hemail, huid⟩ := leafAt_inviteeDic h
  rw [ReadInvitations.readInvitation, stringForKey_inviteeDic h, stringForKey_inviteeDic h,
    stringForKey_inviteeDic h, stringForKey_inviteeDic h, hname, howner, hemail, huid]
  rfl

/-- A uid is read back only of an owner with a name and an address. -/
theorem storedOwner_uid {u : UserData} {t : String} (h : (storedOwner u).uid = some t) :
    u.name.isSome = true ∧ u.email.isSome = true ∧ u.uid = some t := by
  obtain ⟨nm, em, uid⟩ := u
  cases nm with
  | none => cases h
  | some nm =>
    cases em with
    | none => cases h
    | some em => exact ⟨rfl, rfl, h⟩

theorem storedOwner_full {u : UserData} (hn : u.name.isSome = true) (he : u.email.isSome = true) :
    storedOwner u = u := by
  obtain ⟨nm, em, uid⟩ := u
  obtain ⟨nm, rfl⟩ := Option.isSome_iff_exists.1 hn
  obtain ⟨em, rfl⟩ := Option.isSome_iff_exists.1 he
  rfl

end

/-! ## Its place -/

section
variable {share : Share} {n : String}

theorem slash_title (hu : ∀ o ∈ share.ownerUser.uidText, '/' ∉ o.toList) (hn : share.listName = some n)
    (hslash : '/' ∉ n.toList) : '/' ∉ share.inivitationTitle.toList := by
  have hbar : '/' ∉ "|".toList := by decide
  rw [Share.inivitationTitle, hn, String.toList_append, String.toList_append, List.mem_append, List.mem_append]
  rintro ((ho | hb) | hm)
  · cases huid : share.ownerUser.uidText with
    | none =>
      rw [huid] at ho
      revert ho
      decide
    | some o =>
      rw [huid] at ho
      exact hu o huid ho
  · exact hbar hb
  · exact hslash hm

/-- A title without a slash is one key. -/
theorem invitationNode_iff {uid : Option String} {path : List String} (hslash : '/' ∉ share.inivitationTitle.toList) :
    share.invitationNode uid = .ok path ↔ isValidPathString (some share.inivitationTitle) = true ∧
      ∃ base, child userNode uid = .ok base ∧ path = base ++ ["invitations", share.inivitationTitle] := by
  have hinvitations : isValidKey "invitations" = true := by decide
  simp only [Share.invitationNode, Raising.bind_ok_iff, child_of_isValidKey hinvitations]
  constructor
  · rintro ⟨base, hb, ref, hr, hpath⟩
    cases hr
    have hvalid := isValidPathString_of_child hpath
    rw [child_of_isValidKey (isValidKey_iff.2 ⟨hvalid, hslash⟩)] at hpath
    cases hpath
    exact ⟨hvalid, base, hb, by rw [List.append_assoc]; rfl⟩
  · rintro ⟨hvalid, base, hb, rfl⟩
    refine ⟨base, hb, _, rfl, ?_⟩
    rw [child_of_isValidKey (isValidKey_iff.2 ⟨hvalid, hslash⟩), List.append_assoc]
    rfl

end

/-! ## Rejecting an invitation -/

/-- The block sends `w` to this user. -/
def Share.Invites (share : Share) (invitee : FIRUser) (w : Sent) : Prop :=
  ∃ s s' user, share.block w.event s = .ok s' ∧ s'.inviteeUser = some user ∧ user.uid = some invitee.uid ∧
    s'.sent = s.sent ++ [w]

/-- The invitations that the next read for the user decodes. -/
def ReadsNext (order : DictOrder) (user : FIRUser) (db : FNode) (next : Nat) (coords : List InvitationClass) : Prop :=
  ∃ dic values, objectForKey "invitations" (getChild (userNode ++ FPath.pieces user.uid) db) = .ok (some dic) ∧
    allValues order dic = .ok values ∧ ReadInvitations.readAll next values = .ok coords

/-- The rejection of the invitation, as it is decoded, brings back the tree below `Users`, and the next
read does not find the list. -/
def RejectUndoes (share : Share) (invitee : FIRUser) (w : Sent) (addr : Nat) : Prop :=
  ∃ inv db, ReadInvitations.readInvitation addr (getChild w.invitationNode w.db) = .ok inv ∧
    RemoveInvitation.removeWithInivitation (some invitee) inv w.db = .ok db ∧
    getChild userNode db = getChild userNode w.event.db ∧
    ∀ order next coords, ReadsNext order invitee db next coords →
      ∀ c ∈ coords, c.coords ≠ (share.listName, share.ownerUser.uidText)

section
variable {share : Share} {invitee : FIRUser} {w : Sent}

theorem Share.Invites.wrote (h : share.Invites invitee w) :
    share.invitationNode (some invitee.uid) = .ok w.invitationNode ∧
      w.db = updateChild share.inviteeDic w.invitationNode w.event.db := by
  obtain ⟨s, s', user, hblock, hinvitee, huid, hsent⟩ := h
  obtain ⟨found, -, hblock⟩ := Raising.bind_ok_iff.1 hblock
  simp only at hblock
  split at hblock
  · cases hblock
    have hlen := congrArg List.length hsent
    simp at hlen
  · obtain ⟨path, hpath, hblock⟩ := Raising.bind_ok_iff.1 hblock
    rw [setValue_inviteeDic] at hblock
    cases hblock
    cases hinvitee
    have hw := List.singleton_inj.1 (List.append_cancel_left hsent)
    have hnode : path = w.invitationNode := congrArg Sent.invitationNode hw
    rw [← huid, ← hnode]
    exact ⟨hpath, (congrArg Sent.db hw).symm⟩

/-- **A rejected invitation stays** where it was sent, if the invitee is not its owner. -/
theorem getChild_rejected {o : String} {inv : InvitationClass} {db : FNode} {path : List String}
    (hpath : share.invitationNode (some invitee.uid) = .ok path) (huid : inv.listOwner.uidText = some o)
    (ho : isValidKey o = true) (hinvitee : isValidKey invitee.uid = true) (hother : o ≠ invitee.uid)
    (h : RemoveInvitation.removeWithInivitation (some invitee) inv w.db = .ok db) :
    getChild path db = getChild path w.db := by
  obtain ⟨base, hb, hpath⟩ := Raising.bind_ok_iff.1 hpath
  obtain ⟨ref, hr, hpath⟩ := Raising.bind_ok_iff.1 hpath
  rw [userNode, child_of_isValidKey hinvitee] at hb
  cases hb
  obtain ⟨_, -, rfl⟩ := child_ok hr
  obtain ⟨_, -, rfl⟩ := child_ok hpath
  rw [RemoveInvitation.removeWithInivitation, if_neg (by simp), huid] at h
  obtain ⟨base, hb, h⟩ := Raising.bind_ok_iff.1 h
  obtain ⟨ref, hr, h⟩ := Raising.bind_ok_iff.1 h
  obtain ⟨gone, hgone, h⟩ := Raising.bind_ok_iff.1 h
  rw [userNode, child_of_isValidKey ho] at hb
  cases hb
  obtain ⟨_, -, rfl⟩ := child_ok hr
  obtain ⟨_, -, rfl⟩ := child_ok hgone
  cases h
  -- the two places are below different users
  refine getChild_updateChild_of_ne (fun hp => hother ?_) (fun hp => hother ?_) _
  · simp only [List.cons_append, List.nil_append, List.cons_prefix_cons] at hp
    exact hp.2.1
  · simp only [List.cons_append, List.nil_append, List.cons_prefix_cons] at hp
    exact hp.2.1.symm

/-- A stored invitation is read. -/
theorem mem_readNext {order : DictOrder} {next : Nat} {coords : List InvitationClass} {db : FNode} {title n : String}
    (hn : share.listName = some n)
    (h : getChild (userNode ++ FPath.pieces invitee.uid ++ ["invitations", title]) db = share.inviteeDic)
    (hread : ReadsNext order invitee db next coords) : ∃ c ∈ coords, c.listName = some n := by
  obtain ⟨dic, values, hdic, hvalues, hall⟩ := hread
  have hkid : getImmediateChild title dic = share.inviteeDic := by
    have hchild := objectForKey_ok hdic
    rw [getChild_append] at h
    rw [← h, getChild, getChild, getChild, hchild]
    rfl
  have hmem : share.inviteeDic ∈ values := by
    cases dic with
    | leaf v => cases hvalues
    | children kids =>
      rw [allValues] at hvalues
      split at hvalues
      · cases hvalues
      · cases hvalues
        rw [getImmediateChild] at hkid
        cases hget : SortedDict.get title kids with
        | none =>
          rw [hget] at hkid
          have hne := isEmpty_inviteeDic hn
          rw [← hkid] at hne
          cases hne
        | some c =>
          rw [hget] at hkid
          refine (order.perm kids).symm.subset (List.mem_map.2 ⟨(title, c), SortedDict.mem_of_get hget, hkid⟩)
  clear hdic hvalues hkid h
  induction values generalizing next coords with
  | nil => cases hmem
  | cons any values ih =>
    obtain ⟨c, hc, hall⟩ := Raising.bind_ok_iff.1 hall
    obtain ⟨cs, hcs, hall⟩ := Raising.bind_ok_iff.1 hall
    cases hall
    rcases List.mem_cons.1 hmem with rfl | hmem
    · rw [readInvitation_inviteeDic hn] at hc
      cases hc
      exact ⟨_, List.mem_cons_self, rfl⟩
    · obtain ⟨c', hc', hl⟩ := ih hcs hmem
      exact ⟨c', List.mem_cons_of_mem _ hc', hl⟩

/-- **A rejection leaves the invitation where it is.** -/
theorem getChild_of_reject {inv : InvitationClass} {db : FNode} {n : String} {addr : Nat} (h : share.Invites invitee w)
    (hn : share.listName = some n) (howner : ∀ o ∈ share.ownerUser.uidText, isValidKey o = true)
    (hinvitee : isValidKey invitee.uid = true) (hother : share.ownerUser.uidText ≠ some invitee.uid)
    (hinv : ReadInvitations.readInvitation addr (getChild w.invitationNode w.db) = .ok inv)
    (hremove : RemoveInvitation.removeWithInivitation (some invitee) inv w.db = .ok db) :
    getChild w.invitationNode db = share.inviteeDic := by
  obtain ⟨hpath, hdb⟩ := h.wrote
  have hdic : getChild w.invitationNode w.db = share.inviteeDic := by
    rw [hdb, getChild_updateChild_self]
  rw [hdic, readInvitation_inviteeDic hn] at hinv
  cases hinv
  -- without a uid the removal raises
  obtain ⟨o, huid⟩ : ∃ o, (storedOwner share.ownerUser.encodeWithCoder).uid = some o := by
    by_contra hno
    have hnone : (storedOwner share.ownerUser.encodeWithCoder).uid = none :=
      Option.eq_none_iff_forall_not_mem.2 fun o ho => hno ⟨o, ho⟩
    rw [RemoveInvitation.removeWithInivitation, if_neg (by simp)] at hremove
    obtain ⟨base, hb, -⟩ := Raising.bind_ok_iff.1 hremove
    rw [UserClass.uidText_init, hnone] at hb
    cases hb
  obtain ⟨-, -, ho⟩ := storedOwner_uid huid
  rw [← hdic]
  exact getChild_rejected hpath (by rw [UserClass.uidText_init]; exact huid) (howner o ho) hinvitee
    (fun he => hother (ho.trans (congrArg some he))) hremove

/-- **No rejection undoes an invitation** to another user than the owner: it removes a node below the
owner, or raises. -/
theorem not_rejectUndoes (h : share.Invites invitee w) (hname : LegalKey share.listName)
    (howner : ∀ o ∈ share.ownerUser.uidText, isValidKey o = true) (hinvitee : isValidKey invitee.uid = true)
    (hother : share.ownerUser.uidText ≠ some invitee.uid) (hnew : getChild w.invitationNode w.event.db = emptyNode)
    (addr : Nat) : ¬ RejectUndoes share invitee w addr := by
  rintro ⟨inv, db, hinv, hremove, htree, -⟩
  obtain ⟨n, hn, -⟩ := hname
  have hstays := getChild_of_reject h hn howner hinvitee hother hinv hremove
  obtain ⟨base, hb, hpath⟩ := Raising.bind_ok_iff.1 h.wrote.1
  obtain ⟨ref, hr, hpath⟩ := Raising.bind_ok_iff.1 hpath
  obtain ⟨_, -, rfl⟩ := child_ok hb
  obtain ⟨_, -, rfl⟩ := child_ok hr
  obtain ⟨_, -, hw⟩ := child_ok hpath
  rw [hw, List.append_assoc, List.append_assoc, getChild_append, htree, ← getChild_append, ← List.append_assoc,
    ← List.append_assoc, ← hw, hnew] at hstays
  have hne := isEmpty_inviteeDic hn
  rw [← hstays] at hne
  cases hne

/-- The rejected list is among the invitations that are read next. -/
theorem read_after_reject {inv : InvitationClass} {db : FNode} {n : String} {addr next : Nat} {order : DictOrder}
    {coords : List InvitationClass} (h : share.Invites invitee w) (hname : share.listName = some n)
    (hkey : isValidKey n = true) (howner : ∀ o ∈ share.ownerUser.uidText, isValidKey o = true)
    (hinvitee : isValidKey invitee.uid = true) (hother : share.ownerUser.uidText ≠ some invitee.uid)
    (hinv : ReadInvitations.readInvitation addr (getChild w.invitationNode w.db) = .ok inv)
    (hremove : RemoveInvitation.removeWithInivitation (some invitee) inv w.db = .ok db)
    (hread : ReadsNext order invitee db next coords) : ∃ c ∈ coords, c.listName = some n := by
  have hslash := slash_title (fun o ho => slash_notMem_of_isValidKey (howner o ho)) hname
    (slash_notMem_of_isValidKey hkey)
  obtain ⟨-, base, hb, hw⟩ := (invitationNode_iff hslash).1 h.wrote.1
  obtain ⟨_, he, rfl⟩ := child_ok hb
  cases he
  have hstays := getChild_of_reject h hname howner hinvitee hother hinv hremove
  rw [hw] at hstays
  exact mem_readNext hname hstays hread

end

/-! ### Bob rejects Ann's list -/

def bobUser : FIRUser := ⟨"u2", some "bob@mail", some "Bob"⟩

/-- The invitation to Bob. -/
def bobSent : Sent :=
  ⟨⟨.byKey, bobUsers "bob@mail"⟩, ["Users", "u2", "invitations", "u1|Food"],
    updateChild bobShare.inviteeDic ["Users", "u2", "invitations", "u1|Food"] (bobUsers "bob@mail")⟩

theorem invites_bob : bobShare.Invites bobUser bobSent :=
  ⟨⟨none, []⟩, _, ⟨some "Bob", some "bob@mail", some "u2"⟩, rfl, rfl, rfl, rfl⟩

theorem not_rejectUndoes_bob : ¬ RejectUndoes bobShare bobUser bobSent 9 :=
  not_rejectUndoes invites_bob (by decide) (by decide) (by decide) (by decide) rfl 9

theorem not_rejectUndoes_all : ¬ ∀ (share : Share) (invitee : FIRUser) (w : Sent) (addr : Nat),
    share.Invites invitee w → LegalKey share.listName → (∀ o ∈ share.ownerUser.uidText, isValidKey o = true) →
    isValidKey invitee.uid = true → share.ownerUser.uidText ≠ some invitee.uid →
    getChild w.invitationNode w.event.db = emptyNode → RejectUndoes share invitee w addr := by
  intro h
  obtain ⟨inv, db, hinv, hremove, htree, -⟩ := h bobShare bobUser bobSent 9 invites_bob (by decide) (by decide)
    (by decide) (by decide) rfl
  have hstays := getChild_of_reject invites_bob rfl (by decide) (by decide) (by decide) hinv hremove
  have hgone : getChild bobSent.invitationNode db = emptyNode :=
    congrArg (getChild ["u2", "invitations", "u1|Food"]) htree
  rw [hstays] at hgone
  exact absurd (congrArg isEmpty hgone) (by decide)

/-! ## Sequences of invitations -/

/-- The list and its owner. -/
def Share.coords (share : Share) : Coords := (share.listName, share.ownerUser.uidText)

/-- What the block writes for the invitee `uid`. -/
def Share.send (uid : Option String) (share : Share) (db : FNode) : Except NSException FNode := do
  setValue (← share.invitationNode uid) share.inviteeDic db

/-- An invitation by a user of `FIRAuth`, for a list whose name is a key. -/
structure Share.Proper (share : Share) : Prop where
  name : LegalKey share.listName
  uid : ∃ o, share.ownerUser.uidText = some o ∧ '|' ∉ o.toList ∧ '/' ∉ o.toList

/-- The last invitation for a list. -/
def lastShare (c : Coords) (shares : List Share) : Option Share := (shares.filter fun s => s.coords = c).getLast?

/-- One invitation is read for each list, with the address of the owner, and no others. -/
structure ReadsSent (shares : List Share) (coords : List InvitationClass) : Prop where
  one : ∀ share ∈ shares, ∃ inv, coords.filter (fun y => y.coords = share.coords) = [inv] ∧
    ∀ s ∈ lastShare share.coords shares, inv.listOwner.email = s.ownerUser.email
  others : ∀ inv ∈ coords, ∃ share ∈ shares, inv.coords = share.coords

/-- The last invitation for each list is by an owner with a name and an address. -/
def FullOwners (shares : List Share) : Prop :=
  ∀ share ∈ shares, ∀ s ∈ lastShare share.coords shares,
    s.ownerUser.name.isSome = true ∧ s.ownerUser.email.isSome = true

/-- The block's write is this one. -/
theorem Share.Invites.send {share : Share} {invitee : FIRUser} {w : Sent} (h : share.Invites invitee w) :
    share.send (some invitee.uid) w.event.db = .ok w.db := by
  obtain ⟨hpath, hdb⟩ := h.wrote
  rw [Share.send, hpath, hdb]
  exact setValue_inviteeDic share _ _

section
variable {shares : List Share} {uid : Option String} {base : List String} {db db' : FNode}

theorem Share.Proper.slash {share : Share} (h : share.Proper) : '/' ∉ share.inivitationTitle.toList := by
  obtain ⟨o, ho, -, hslash⟩ := h.uid
  obtain ⟨n, hn, hkey⟩ := h.name
  refine slash_title (fun o' ho' => ?_) hn (slash_notMem_of_isValidKey hkey)
  rw [ho] at ho'
  cases ho'
  exact hslash

/-- Lists with the same first `c` agree before and after it. -/
theorem eq_of_first {c : Char} {x x' y y' : List Char} (hx : c ∉ x) (hx' : c ∉ x') (h : x ++ c :: y = x' ++ c :: y') :
    x = x' ∧ y = y' := by
  induction x generalizing x' with
  | nil =>
    cases x' with
    | nil =>
      cases h
      exact ⟨rfl, rfl⟩
    | cons d x' =>
      cases h
      exact absurd List.mem_cons_self hx'
  | cons d x ih =>
    cases x' with
    | nil =>
      cases h
      exact absurd List.mem_cons_self hx
    | cons d' x' =>
      obtain ⟨rfl, htail⟩ := List.cons.inj h
      obtain ⟨rfl, rfl⟩ := ih (fun hm => hx (List.mem_cons_of_mem _ hm)) (fun hm => hx' (List.mem_cons_of_mem _ hm)) htail
      exact ⟨rfl, rfl⟩

/-- **Titles tell lists apart.** -/
theorem title_inj {s s' : Share} (h : s.Proper) (h' : s'.Proper) :
    s.inivitationTitle = s'.inivitationTitle ↔ s.coords = s'.coords := by
  obtain ⟨o, ho, hbar, -⟩ := h.uid
  obtain ⟨o', ho', hbar', -⟩ := h'.uid
  obtain ⟨n, hn, -⟩ := h.name
  obtain ⟨n', hn', -⟩ := h'.name
  rw [Share.inivitationTitle, Share.inivitationTitle, Share.coords, Share.coords, ho, ho', hn, hn']
  constructor
  · intro he
    have hl : o.toList ++ '|' :: n.toList = o'.toList ++ '|' :: n'.toList := by
      have hlist := congrArg String.toList he
      simpa [RemoveInvitation.formatted, String.toList_append] using hlist
    obtain ⟨hu, hnames⟩ := eq_of_first hbar hbar' hl
    rw [String.toList_inj.1 hu, String.toList_inj.1 hnames]
  · intro he
    cases he
    rfl

/-- The node of the invitations after they are sent. -/
theorem invitations_sent (hb : child userNode uid = .ok base) (hp : ∀ share ∈ shares, share.Proper)
    {kids : List (String × FNode)} (hkids : getChild (base ++ ["invitations"]) db = .children kids)
    (h : Raising.loop (Share.send uid) shares db = .ok db') :
    getChild (base ++ ["invitations"]) db' = .children ((shares.map fun s => (s.inivitationTitle, s.inviteeDic)).foldl
      (fun d p => SortedDict.set p.1 p.2 d) kids) := by
  induction shares generalizing db kids with
  | nil =>
    cases h
    exact hkids
  | cons share shares ih =>
    rw [Raising.loop] at h
    cases hsend : share.send uid db with
    | error e =>
      rw [hsend] at h
      cases h
    | ok db₁ =>
      rw [hsend] at h
      obtain ⟨path, hpath, hset⟩ := Raising.bind_ok_iff.1 hsend
      have hproper := hp share List.mem_cons_self
      obtain ⟨-, base', hb', rfl⟩ := (invitationNode_iff hproper.slash).1 hpath
      rw [hb] at hb'
      cases hb'
      rw [setValue_inviteeDic] at hset
      cases hset
      obtain ⟨n, hn, -⟩ := hproper.name
      refine ih (fun s hs => hp s (List.mem_cons_of_mem _ hs)) ?_ h
      rw [show base ++ ["invitations", share.inivitationTitle] = base ++ ["invitations"] ++ [share.inivitationTitle] by simp,
        getChild_updateChild, hkids, updateChild_singleton (isEmpty_inviteeDic hn)]

/-- The invitations that are stored. -/
def stored (shares : List Share) : List (String × FNode) :=
  SortedDict.ofList (shares.map fun s => (s.inivitationTitle, s.inviteeDic))

/-- Under a title is the last invitation for its list. -/
theorem share_of_stored (hp : ∀ share ∈ shares, share.Proper) {p : String × FNode} (h : p ∈ stored shares) :
    ∃ s ∈ shares, lastShare s.coords shares = some s ∧ p.1 = s.inivitationTitle ∧ p.2 = s.inviteeDic := by
  have hget := SortedDict.get_of_mem (SortedDict.sorted_ofList _) h
  rw [SortedDict.ofList, SortedDict.get_foldl_set, SortedDict.get_nil, Option.or_none, List.filter_map,
    List.getLast?_map, Option.map_map, Option.map_eq_some_iff] at hget
  obtain ⟨s, hlast, hs⟩ := hget
  have hmem := List.mem_filter.1 (List.mem_of_getLast? hlast)
  have htitle : s.inivitationTitle = p.1 := by simpa using hmem.2
  refine ⟨s, hmem.1, ?_, htitle.symm, hs.symm⟩
  rw [lastShare, ← hlast]
  refine congrArg List.getLast? (List.filter_congr fun s' hs' => ?_)
  rw [Function.comp_apply, ← htitle]
  exact decide_eq_decide.2 (title_inj (hp s' hs') (hp s hmem.1)).symm

theorem stored_of_share {s : Share} (h : s ∈ shares) : ∃ d, (s.inivitationTitle, d) ∈ stored shares :=
  SortedDict.key_mem_ofList (List.mem_map_of_mem h)

/-- What is read of a stored invitation. -/
def ReadOf (shares : List Share) (p : String × FNode) (inv : InvitationClass) : Prop :=
  ∃ s ∈ shares, lastShare s.coords shares = some s ∧ p.1 = s.inivitationTitle ∧
    ∃ addr, inv = ⟨s.listName, .initWithCoder addr (storedOwner s.ownerUser.encodeWithCoder)⟩

/-- The dictionary is read as a whole, in any order. -/
theorem readAll_stored (hp : ∀ share ∈ shares, share.Proper) {values : List FNode}
    (hv : ((stored shares).map Prod.snd).Perm values) (next : Nat) : ∃ coords coords',
      ReadInvitations.readAll next values = .ok coords ∧ coords'.Perm coords ∧
        List.Forall₂ (ReadOf shares) (stored shares) coords' := by
  have hread : ∀ d ∈ values, ∃ s ∈ shares, d = s.inviteeDic := by
    intro d hd
    obtain ⟨p, hpm, rfl⟩ := List.mem_map.1 (hv.symm.subset hd)
    obtain ⟨s, hs, -, -, hd⟩ := share_of_stored hp hpm
    exact ⟨s, hs, hd⟩
  obtain ⟨coords, hall, hrel⟩ : ∃ coords, ReadInvitations.readAll next values = .ok coords ∧ List.Forall₂
      (fun d inv => ∃ addr, ReadInvitations.readInvitation addr d = .ok inv) values coords := by
    clear hv
    induction values generalizing next with
    | nil => exact ⟨[], rfl, .nil⟩
    | cons d values ih =>
      obtain ⟨coords, hall, hrel⟩ := ih (next + 1) fun d' hd' => hread d' (List.mem_cons_of_mem _ hd')
      obtain ⟨s, hs, rfl⟩ := hread d List.mem_cons_self
      obtain ⟨n, hn, -⟩ := (hp s hs).name
      have hone := readInvitation_inviteeDic hn next
      exact ⟨_ :: coords, by rw [ReadInvitations.readAll, hone, hall]; rfl, .cons ⟨next, hone⟩ hrel⟩
  obtain ⟨coords', hrel', hperm⟩ := List.perm_comp_forall₂ hv hrel
  refine ⟨coords, coords', hall, hperm, ?_⟩
  rw [List.forall₂_map_left_iff] at hrel'
  have hboth := (List.forall₂_and_left (p := fun p => p ∈ stored shares) _ _).2 ⟨fun p hpm => hpm, hrel'⟩
  refine hboth.imp ?_
  rintro p inv ⟨hpm, addr, hinv⟩
  obtain ⟨s, hs, hlast, htitle, hd⟩ := share_of_stored hp hpm
  obtain ⟨n, hn, -⟩ := (hp s hs).name
  rw [hd, readInvitation_inviteeDic hn] at hinv
  cases hinv
  exact ⟨s, hs, hlast, htitle, addr, by rw [hn]⟩

theorem ReadsSent.perm {coords coords' : List InvitationClass} (h : ReadsSent shares coords)
    (hp : coords'.Perm coords) :
    ReadsSent shares coords' := by
  refine ⟨fun share hs => ?_, fun inv hinv => h.others inv (hp.subset hinv)⟩
  obtain ⟨inv, hone, hemail⟩ := h.one share hs
  have hfilter := hp.filter fun y => y.coords = share.coords
  rw [hone] at hfilter
  exact ⟨inv, List.perm_singleton.1 hfilter, hemail⟩

/-- A uid is only read of an owner with a name and an address. -/
theorem fullOwners_of_readsSent (hp : ∀ share ∈ shares, share.Proper) {coords : List InvitationClass}
    (h : List.Forall₂ (ReadOf shares) (stored shares) coords) (hr : ReadsSent shares coords) : FullOwners shares := by
  intro share hshare s hs
  obtain ⟨inv, hone, -⟩ := hr.one share hshare
  have hinv : inv ∈ coords.filter fun y => y.coords = share.coords := by
    rw [hone]
    exact List.mem_singleton_self _
  obtain ⟨hmem, hcoords⟩ := List.mem_filter.1 hinv
  have hcoords : inv.coords = share.coords := of_decide_eq_true hcoords
  obtain ⟨p, -, s', hs', hlast, -, addr, rfl⟩ := Raising.exists_left h hmem
  obtain ⟨o, ho, -⟩ := (hp share hshare).uid
  have huid : (storedOwner s'.ownerUser.encodeWithCoder).uid = some o := by
    have hsnd := congrArg Prod.snd hcoords
    rw [InvitationClass.coords, UserClass.uidText_init] at hsnd
    exact hsnd.trans ho
  obtain ⟨hname, hemail, ho'⟩ := storedOwner_uid huid
  have hsame : s'.coords = share.coords := by
    have hfst := congrArg Prod.fst hcoords
    exact Prod.ext hfst (ho'.trans ho.symm)
  rw [hsame] at hlast
  rw [hlast] at hs
  cases hs
  exact ⟨hname, hemail⟩

/-- With full owners every invitation is read as it was sent. -/
theorem readOf_full (hf : FullOwners shares) {p : String × FNode} {inv : InvitationClass} (h : ReadOf shares p inv) :
    ∃ s ∈ shares, p.1 = s.inivitationTitle ∧ inv.coords = s.coords ∧ lastShare s.coords shares = some s ∧
      inv.listOwner.email = s.ownerUser.email := by
  obtain ⟨s, hs, hlast, htitle, addr, rfl⟩ := h
  obtain ⟨hname, hemail⟩ := hf s hs s hlast
  have hfull : storedOwner s.ownerUser.encodeWithCoder = s.ownerUser.encodeWithCoder := storedOwner_full hname hemail
  rw [hfull]
  refine ⟨s, hs, htitle, ?_, hlast, rfl⟩
  rw [InvitationClass.coords, UserClass.uidText_init]
  rfl

/-- One invitation is read for each list. -/
theorem one_of_stored (hp : ∀ share ∈ shares, share.Proper) (hf : FullOwners shares) {coords : List InvitationClass}
    (h : List.Forall₂ (ReadOf shares) (stored shares) coords) {share : Share} (hshare : share ∈ shares) :
    ∃ d inv, coords.filter (fun y => y.coords = share.coords) = [inv] ∧
      ReadOf shares (share.inivitationTitle, d) inv := by
  have hfilter : List.Forall₂ (ReadOf shares) ((stored shares).filter fun p => p.1 = share.inivitationTitle)
      (coords.filter fun y => y.coords = share.coords) := by
    refine List.rel_filter (fun p inv hr => ?_) h
    obtain ⟨s, hs, htitle, hcoords, -⟩ := readOf_full hf hr
    show decide (p.1 = share.inivitationTitle) = true ↔ decide (inv.coords = share.coords) = true
    rw [decide_eq_true_eq, decide_eq_true_eq, htitle, hcoords]
    exact title_inj (hp s hs) (hp share hshare)
  obtain ⟨d, hd⟩ := stored_of_share hshare
  have hone : (stored shares).filter (fun p => p.1 = share.inivitationTitle) = [(share.inivitationTitle, d)] :=
    SortedDict.filter_key (SortedDict.sorted_ofList _) hd
  rw [hone] at hfilter
  obtain ⟨inv, hinv, hr⟩ := Raising.exists_singleton hfilter
  exact ⟨d, inv, hinv, hr⟩

/-- **The stored invitations are read back** if and only if their owners have names and addresses. -/
theorem readsSent_stored (hp : ∀ share ∈ shares, share.Proper) {coords : List InvitationClass}
    (h : List.Forall₂ (ReadOf shares) (stored shares) coords) : ReadsSent shares coords ↔ FullOwners shares := by
  refine ⟨fullOwners_of_readsSent hp h, fun hf => ⟨fun share hshare => ?_, fun inv hinv => ?_⟩⟩
  · obtain ⟨d, inv, hinv, hr⟩ := one_of_stored hp hf h hshare
    obtain ⟨s, hs, htitle, -, hlast, hemail⟩ := readOf_full hf hr
    have hsame : s.coords = share.coords := (title_inj (hp s hs) (hp share hshare)).1 htitle.symm
    refine ⟨inv, hinv, fun s' hs' => ?_⟩
    rw [hsame] at hlast
    rw [hlast] at hs'
    cases hs'
    exact hemail
  · obtain ⟨p, -, hr⟩ := Raising.exists_left h hinv
    obtain ⟨s, hs, -, hcoords, -⟩ := readOf_full hf hr
    exact ⟨s, hs, hcoords⟩

theorem stored_ne_nil (h : shares ≠ []) : stored shares ≠ [] := by
  obtain ⟨s, hs⟩ := List.exists_mem_of_ne_nil shares h
  obtain ⟨d, hd⟩ := stored_of_share hs
  exact List.ne_nil_of_mem hd

/-- A title is no index. -/
theorem integerKey_title (share : Share) : integerKey share.inivitationTitle = none := by
  have hbar : '|' ∈ share.inivitationTitle.toList := by
    rw [Share.inivitationTitle, String.toList_append, String.toList_append]
    exact List.mem_append_left _ (List.mem_append_right _ (by decide))
  unfold integerKey intForString
  split
  · rfl
  · rw [if_neg]
    rintro ⟨-, hall⟩
    have hdigit := List.all_eq_true.1 hall '|' hbar
    revert hdigit
    decide

/-- What the callback reads of a user's node with these invitations. -/
theorem callback_stored (hp : ∀ share ∈ shares, share.Proper) (hne : shares ≠ []) (order : DictOrder) {snapshot : FNode}
    (m : AppData) (hnode : getImmediateChild "invitations" snapshot = .children (stored shares)) : ∃ coords coords',
      ReadInvitations.callback order snapshot m =
        .ok { m with invitationsCoords := coords, next := m.next + coords.length } ∧
      coords'.Perm coords ∧ List.Forall₂ (ReadOf shares) (stored shares) coords' := by
  have hkey : integerKey "invitations" = none := by decide
  cases snapshot with
  | leaf v =>
    cases hs : stored shares with
    | nil => exact absurd hs (stored_ne_nil hne)
    | cons p kids =>
      rw [hs] at hnode
      cases hnode
  | children kids =>
    obtain ⟨c, hget⟩ : ∃ c, SortedDict.get "invitations" kids = some c := by
      by_contra hno
      have hnone : SortedDict.get "invitations" kids = none :=
        Option.eq_none_iff_forall_not_mem.2 fun c hc => hno ⟨c, hc⟩
      rw [getImmediateChild, hnone] at hnode
      exact stored_ne_nil hne (FNode.children.inj hnode).symm
    have hmem := SortedDict.mem_of_get hget
    rw [getImmediateChild, hget, Option.getD_some] at hnode
    have hobject : objectForKey "invitations" (.children kids) = .ok (some (.children (stored shares))) := by
      rw [objectForKey_children hmem hkey, hget, hnode]
    obtain ⟨p, hpm⟩ := List.exists_mem_of_ne_nil _ (stored_ne_nil hne)
    have hvalues : allValues order (.children (stored shares)) = .ok (order.allValues (stored shares)) := by
      obtain ⟨s, -, -, htitle, -⟩ := share_of_stored hp hpm
      exact allValues_children order hpm (htitle ▸ integerKey_title s)
    obtain ⟨coords, coords', hall, hperm, hrel⟩ := readAll_stored hp (order.perm (stored shares)).symm m.next
    refine ⟨coords, coords', ?_, hperm, hrel⟩
    have hchildren : hasChildren (.children kids) = true := by
      rw [hasChildren, Bool.not_eq_true', List.isEmpty_eq_false_iff]
      exact List.ne_nil_of_mem hmem
    rw [ReadInvitations.callback, if_pos hchildren, hobject]
    show (do
      let coordsReads ← ReadInvitations.readAll m.next (← allValues order (.children (stored shares)))
      return { m with invitationsCoords := coordsReads, next := m.next + coordsReads.length }) = _
    rw [hvalues]
    show (ReadInvitations.readAll m.next (order.allValues (stored shares)) >>= _) = _
    rw [hall]
    rfl

/-- **The invitations of a sequence are read back as they were sent** if and only if the last one for each
list is by an owner with a name and an address; an empty sequence leaves what was read before. -/
theorem readsSent_iff {order : DictOrder} {m : AppData} (hb : child userNode uid = .ok base)
    (hp : ∀ share ∈ shares, share.Proper) (hdb : Normal db) (hprofile : (getChild base db).exportsDictionary = true)
    (hnew : getChild (base ++ ["invitations"]) db = emptyNode)
    (hs : Raising.loop (Share.send uid) shares db = .ok db') :
    (∃ m', ReadInvitations.callback order (getChild base db') m = .ok m' ∧ ReadsSent shares m'.invitationsCoords) ↔
      FullOwners shares ∧ (shares = [] → m.invitationsCoords = []) := by
  by_cases hne : shares = []
  · subst hne
    cases hs
    have hread : ReadInvitations.callback order (getChild base db) m = .ok m := by
      rw [ReadInvitations.callback]
      split
      · rename_i hchildren
        have hnonempty : (getChild base db).isEmpty = false := by
          cases hn : getChild base db with
          | leaf v => rfl
          | children kids =>
            rw [hn, hasChildren, Bool.not_eq_true'] at hchildren
            exact hchildren
        rw [objectForKey_of_exports (hdb.getChild base) hprofile hnonempty, ← getChild_append, hnew]
        rfl
      · rfl
    constructor
    · rintro ⟨m', hm', hr⟩
      rw [hread] at hm'
      cases hm'
      refine ⟨fun share hshare => (List.not_mem_nil hshare).elim, fun _ => ?_⟩
      refine List.eq_nil_iff_forall_not_mem.2 fun inv hinv => ?_
      obtain ⟨share, hshare, -⟩ := hr.others inv hinv
      cases hshare
    · rintro ⟨-, hnil⟩
      refine ⟨m, hread, fun share hshare => (List.not_mem_nil hshare).elim, fun inv hinv => ?_⟩
      rw [hnil rfl] at hinv
      cases hinv
  · have hnode := invitations_sent hb hp hnew hs
    rw [getChild_append] at hnode
    obtain ⟨coords, coords', hcallback, hperm, hrel⟩ := callback_stored hp hne order m hnode
    have hiff := readsSent_stored hp hrel
    constructor
    · rintro ⟨m', hm', hr⟩
      rw [hcallback] at hm'
      cases hm'
      exact ⟨hiff.1 (hr.perm hperm), fun h => absurd h hne⟩
    · rintro ⟨hf, -⟩
      exact ⟨_, hcallback, (hiff.2 hf).perm hperm.symm⟩

end

/-! ### Invitations to Bob -/

/-- An owner without a name. -/
def namelessShare : Share := ⟨"bob@mail", ⟨none, some "carl@mail", some ⟨2, "u3"⟩⟩, some "Tools"⟩

theorem proper_bobShare : bobShare.Proper := ⟨⟨"Food", rfl, by decide⟩, "u1", rfl, by decide, by decide⟩

theorem proper_namelessShare : namelessShare.Proper := ⟨⟨"Tools", rfl, by decide⟩, "u3", rfl, by decide, by decide⟩

theorem normal_bobUsers : Normal (bobUsers "bob@mail") := by
  have hnode : bobUsers "bob@mail" =
      updateChild (dictionary [(some "bob@mail", "email"), (some "Bob", "name"), (some "u2", "uiid")])
        ["Users", "u2"] emptyNode := by
    rfl
  rw [hnode]
  exact normal_emptyNode.updateChild (normal_dictionary _) _

/-- Two lists, one of them shared twice. -/
def bobShares : List Share := [bobShare, namelessShare, bobShare]

theorem proper_bobShares : ∀ share ∈ bobShares, share.Proper :=
  List.forall_mem_cons.2 ⟨proper_bobShare, List.forall_mem_cons.2
    ⟨proper_namelessShare, List.forall_mem_singleton.2 proper_bobShare⟩⟩

theorem readsSent_iff_bob : ∃ db, Raising.loop (Share.send (some "u2")) bobShares (bobUsers "bob@mail") = .ok db ∧
    ((∃ m', ReadInvitations.callback .byKey (getChild ["Users", "u2"] db) AppData.init = .ok m' ∧
        ReadsSent bobShares m'.invitationsCoords) ↔
      FullOwners bobShares ∧ (bobShares = [] → AppData.init.invitationsCoords = [])) :=
  ⟨_, rfl, readsSent_iff (show child userNode (some "u2") = .ok ["Users", "u2"] from rfl) proper_bobShares
    normal_bobUsers rfl rfl rfl⟩

/-- The invitation of an owner without a name ends before his address and his uid. -/
theorem not_readsSent : ¬ ∀ (order : DictOrder) (m : AppData) (uid : Option String) (base : List String)
    (shares : List Share) (db db' : FNode), child userNode uid = .ok base → (∀ share ∈ shares, share.Proper) →
    Normal db → (getChild base db).exportsDictionary = true → getChild (base ++ ["invitations"]) db = emptyNode →
    Raising.loop (Share.send uid) shares db = .ok db' →
    ∃ m', ReadInvitations.callback order (getChild base db') m = .ok m' ∧ ReadsSent shares m'.invitationsCoords := by
  intro h
  obtain ⟨m', hm', hr⟩ := h .byKey AppData.init (some "u2") ["Users", "u2"] [namelessShare] (bobUsers "bob@mail")
    _ rfl (List.forall_mem_singleton.2 proper_namelessShare) normal_bobUsers rfl rfl rfl
  cases hm'
  obtain ⟨inv, hone, -⟩ := hr.one namelessShare (List.mem_singleton_self _)
  cases hone

end itemViewController

end ShopingList
