import ShopingList.App.Delivery
import ShopingList.App.Sessions

/-!
# What a turn leaves waiting

`Waits s a session pending` says that after the event `a` in the state `s` the session may be
`session` and the process may wait for `pending`. `step_waits` is the case split over the
events of a process that goes on.
-/

namespace ShopingList

open ListViewController FNode

inductive Waits (s : Sys) : Action → Option FIRUser → List Pending → Prop
  | same {a : Action} (h : ∀ now, a ≠ .launch now) : Waits s a s.currentUser s.pending
  | launch {now news} (h : Requests s news) : Waits s (.launch now) s.currentUser news
  | login {now news} (h : Requests s news) :
      Waits s (.login now) s.currentUser (s.pending ++ (news ++ [.signIn]))
  | register (n e : String) : Waits s (.register n e) s.currentUser (s.pending ++ [.createUser n e])
  | logout : Waits s .logout none s.pending
  | refresh (k : Nat) : Waits s (.refresh k) s.currentUser (s.pending.modify k (Pending.refresh s.db))
  | fired {k env p} (hk : s.pending[k]? = some p) :
      Waits s (.fire k env) s.currentUser (s.pending.eraseIdx k)
  | mergeBlock {k env n ref snapshot} (hk : s.pending[k]? = some (.mergeBlock n)) : Waits s (.fire k env)
      s.currentUser (s.pending.eraseIdx k ++ [.coordsCallback ref snapshot, .appendBlock])
  | loginBlock {k env user news} (hk : s.pending[k]? = some (.loginBlock user)) (h : Requests s news) :
      Waits s (.fire k env) s.currentUser (s.pending.eraseIdx k ++ news)
  | failed {k user p} (hk : s.pending[k]? = some p) (hp : p.isRead = false) :
      Waits s (.complete k user) s.currentUser (s.pending.eraseIdx k)
  | signIn {k user} (hk : s.pending[k]? = some .signIn) :
      Waits s (.complete k (some user)) (some user) (s.pending.eraseIdx k ++ [.loginBlock user])
  | createUser {k user n e} (hk : s.pending[k]? = some (.createUser n e)) :
      Waits s (.complete k (some user)) (some user) (s.pending.eraseIdx k ++ [.commitProfile n e user])
  | commitProfile {k user user' n e} (hk : s.pending[k]? = some (.commitProfile n e user')) :
      Waits s (.complete k (some user))
        (s.currentUser.map fun u => if u.uid = user'.uid then { u with displayName := some n } else u)
        (s.pending.eraseIdx k ++ [.registerBlock n e user'])

/-- The session and what waits after an event. -/
def HasWaits (s : Sys) (a : Action) (t : Sys) : Prop := Waits s a t.currentUser t.pending

section
variable {s : Sys} {turn : Turn}

theorem HasWaits.of_eq {t t' : Sys} {a : Action} (h : HasWaits s a t) (hu : t'.currentUser = t.currentUser)
    (hp : t'.pending = t.pending) : HasWaits s a t' := by
  rw [HasWaits, hu, hp]
  exact h

/-- A refreshed list of what waits. -/
theorem mem_modify {ps : List Pending} {p : Pending} {k : Nat} {f : Pending → Pending} (h : p ∈ ps.modify k f) :
    p ∈ ps ∨ ∃ q ∈ ps, p = f q := by
  obtain ⟨i, hi⟩ := List.mem_iff_getElem?.1 h
  rw [List.getElem?_modify] at hi
  obtain ⟨q, hq, he⟩ := Option.map_eq_some_iff.1 hi
  have hmem := List.mem_of_getElem? hq
  split at he
  · exact .inr ⟨q, hmem, he.symm⟩
  · exact .inl (he ▸ hmem)

theorem waits_fire {k : Nat} {env : Env} {p : Pending} (hk : s.pending[k]? = some p)
    (ht : Pending.run env (s.without k) p = some turn) (hrun : (settle turn).running = true) :
    HasWaits s (.fire k env) (settle turn) := by
  have herased : HasWaits s (.fire k env) (s.without k) := .fired hk
  cases p with
  | readCallback n ref snapshot =>
    cases ht
    obtain ⟨m, -, hm⟩ := settle_onMem hrun
    rw [hm]
    exact herased
  | mergeBlock n =>
    cases ht
    obtain ⟨s', hs'⟩ := ok_of_running hrun
    obtain ⟨hu, ⟨ref, snapshot, hp⟩, -⟩ := waits_mergeBlock hs'
    rw [hs', settle_ok, HasWaits, hu, hp]
    exact .mergeBlock hk
  | coordsCallback ref snapshot =>
    cases ht
    obtain ⟨m, -, hm⟩ := settle_onMem hrun
    rw [hm]
    exact herased
  | appendBlock =>
    cases ht
    exact herased
  | loginBlock user =>
    cases ht
    obtain ⟨s', hs'⟩ := ok_of_running hrun
    obtain ⟨hu, news, hp, hreq⟩ := pending_readData
      (show readData env.now ((s.without k).setTheUser user.displayName user.email user.uid) = .ok s' from hs')
    have hreq' : Requests s news := by
      cases hreq with
      | nobody h => exact .nobody h
      | read h href => exact .read h href
    rw [hs', settle_ok, HasWaits, hu, hp]
    exact .loginBlock hk hreq'
  | registerBlock n e user =>
    cases ht
    obtain ⟨db, running, rows, h⟩ := onlyCloud_registerBlock n e user (s.without k)
    rw [h]
    exact herased
  | signIn => cases ht
  | createUser n e => cases ht
  | commitProfile n e user => cases ht

theorem waits_complete {k : Nat} {user : Option FIRUser} {p : Pending} (hk : s.pending[k]? = some p)
    (ht : Pending.complete user (s.without k) p = some turn) : HasWaits s (.complete k user) (settle turn) := by
  cases p with
  | signIn =>
    cases user with
    | none =>
      cases ht
      exact .failed hk rfl
    | some user =>
      cases ht
      exact .signIn hk
  | createUser n e =>
    cases user with
    | none =>
      cases ht
      exact .failed hk rfl
    | some user =>
      cases ht
      exact .createUser hk
  | commitProfile n e user' =>
    cases user with
    | none =>
      cases ht
      exact .failed hk rfl
    | some user =>
      cases ht
      exact .commitProfile hk
  | _ => cases ht

theorem waits_launch (now : Moment) (hrun : (step (.launch now) s).running = true) :
    HasWaits s (.launch now) (step (.launch now) s) := by
  let s₀ : Sys := { s with
    mem := AppData.init, running := true, rows := [], screen := none, pending := [], observers := [] }
  have hstep : step (.launch now) s = settle (Sys.reload <$> readData now s₀) := rfl
  rw [hstep] at hrun ⊢
  cases hr : readData now s₀ with
  | error e =>
    rw [hr] at hrun
    cases hrun
  | ok s₁ =>
    obtain ⟨hu, news, hp, hreq⟩ := pending_readData hr
    have hreq' : Requests s news := by
      cases hreq with
      | nobody h => exact .nobody h
      | read h href => exact .read h href
    have hwaits : Waits s (.launch now) s.currentUser news := .launch hreq'
    rw [← List.nil_append news, show [] ++ news = s₁.pending from hp.symm, ← show s₁.currentUser = s.currentUser from hu]
      at hwaits
    exact hwaits

theorem event_waits {a : Action} (hne : ∀ now, a ≠ .launch now) (ht : event s a = some turn)
    (hrun : (settle turn).running = true) : HasWaits s a (settle turn) := by
  have hsame : HasWaits s a s := .same hne
  have hedit : a.isEdit = true → HasWaits s a (settle turn) := fun ha =>
    HasWaits.of_eq hsame (pending_edit ha ht).1 (pending_edit ha ht).2
  cases a with
  | launch now => exact absurd rfl (hne now)
  | login now =>
    obtain ⟨-, ht⟩ := Option.ite_none_right_eq_some.1 ht
    cases ht
    cases hr : readData now s with
    | error e =>
      rw [hr] at hrun
      cases hrun
    | ok s₁ =>
      obtain ⟨hu, news, hp, hreq⟩ := pending_readData hr
      have hwaits : Waits s (.login now) s.currentUser (s.pending ++ (news ++ [.signIn])) := .login hreq
      rw [← List.append_assoc, ← hp, ← hu] at hwaits
      exact hwaits
  | register n e =>
    obtain ⟨-, ht⟩ := Option.ite_none_right_eq_some.1 ht
    cases ht
    exact .register n e
  | logout =>
    obtain ⟨-, ht⟩ := Option.ite_none_right_eq_some.1 ht
    cases ht
    exact .logout
  | refresh k =>
    cases ht
    exact .refresh k
  | fire k env =>
    obtain ⟨p, hk, ht⟩ := Option.bind_eq_some_iff.1 ht
    exact waits_fire hk ht hrun
  | complete k user =>
    obtain ⟨p, hk, ht⟩ := Option.bind_eq_some_iff.1 ht
    exact waits_complete hk ht
  | _ => exact hedit rfl

/-- **What waits after a step** of a process that goes on. -/
theorem step_waits {a : Action} (hrun : (step a s).running = true) :
    HasWaits s a (step a s) ∧ (s.running = true ∨ ∃ now, a = .launch now) := by
  by_cases hl : ∃ now, a = .launch now
  · obtain ⟨now, rfl⟩ := hl
    exact ⟨waits_launch now hrun, .inr ⟨now, rfl⟩⟩
  · have hne : ∀ now, a ≠ .launch now := fun now e => hl ⟨now, e⟩
    cases hr : s.running with
    | false =>
      rw [step_stopped hr hne, hr] at hrun
      cases hrun
    | true =>
      refine ⟨?_, .inl rfl⟩
      rw [step_running hr] at hrun ⊢
      cases ht : event s a with
      | none => exact .same hne
      | some turn =>
        rw [ht] at hrun
        exact event_waits hne ht hrun

/-- Where something that waits after an event comes from. -/
inductive Comes (s : Sys) : Action → Pending → Prop
  | kept {a p} (hne : ∀ now, a ≠ .launch now) (h : p ∈ s.pending) : Comes s a p
  | refreshed {k p} (h : p ∈ s.pending) : Comes s (.refresh k) (p.refresh s.db)
  | requested {a p news} (hr : Requests s news) (h : p ∈ news) : Comes s a p
  | asked {a p} (h : p = .signIn ∨ (∃ n e, p = .createUser n e) ∨ (∃ ref snapshot, p = .coordsCallback ref snapshot) ∨
      p = .appendBlock) : Comes s a p
  | signed {k user p} (h : p = .loginBlock user ∨ ∃ n e, p = .commitProfile n e user) :
      Comes s (.complete k (some user)) p
  | named {a n e user} (hne : ∀ now, a ≠ .launch now) (h : .commitProfile n e user ∈ s.pending) :
      Comes s a (.registerBlock n e user)

theorem Waits.comes {a : Action} {session : Option FIRUser} {pending : List Pending} (h : Waits s a session pending) :
    ∀ p ∈ pending, Comes s a p := by
  have hadded : ∀ {ps news : List Pending}, (∀ p ∈ ps, Comes s a p) → (∀ p ∈ news, Comes s a p) →
      ∀ p ∈ ps ++ news, Comes s a p := fun hps hnews p hp => (List.mem_append.1 hp).elim (hps p) (hnews p)
  have hone : ∀ {q : Pending}, Comes s a q → ∀ p ∈ [q], Comes s a p := fun hq p hp => List.mem_singleton.1 hp ▸ hq
  have hold : (∀ now, a ≠ .launch now) → ∀ p ∈ s.pending, Comes s a p := fun hne p hp => .kept hne hp
  have herased : ∀ k, (∀ now, a ≠ .launch now) → ∀ p ∈ s.pending.eraseIdx k, Comes s a p := fun k hne p hp =>
    .kept hne (List.mem_of_mem_eraseIdx hp)
  cases h with
  | same hne => exact hold hne
  | launch hr => exact fun p hp => .requested hr hp
  | login hr => exact hadded (hold (by simp)) (hadded (fun p hp => .requested hr hp) (hone (.asked (.inl rfl))))
  | register n e => exact hadded (hold (by simp)) (hone (.asked (.inr (.inl ⟨n, e, rfl⟩))))
  | logout => exact hold (by simp)
  | refresh k =>
    intro p hp
    rcases mem_modify hp with hp | ⟨q, hq, rfl⟩
    · exact hold (by simp) p hp
    · exact .refreshed hq
  | fired hk => exact herased _ (by simp)
  | mergeBlock hk =>
    refine hadded (herased _ (by simp)) fun p hp => .asked ?_
    simp only [List.mem_cons, List.not_mem_nil, or_false] at hp
    rcases hp with rfl | rfl
    · exact .inr (.inr (.inl ⟨_, _, rfl⟩))
    · exact .inr (.inr (.inr rfl))
  | loginBlock hk hr => exact hadded (herased _ (by simp)) fun p hp => .requested hr hp
  | failed hk hp => exact herased _ (by simp)
  | signIn hk => exact hadded (herased _ (by simp)) (hone (.signed (.inl rfl)))
  | createUser hk => exact hadded (herased _ (by simp)) (hone (.signed (.inr ⟨_, _, rfl⟩)))
  | commitProfile hk =>
    exact hadded (herased _ (by simp)) (hone (.named (by simp) (List.mem_of_getElem? hk)))

/-- **What waits after a step** waited before, or the step has asked for it. -/
theorem step_comes {a : Action} (hrun : (step a s).running = true) {p : Pending} (hp : p ∈ (step a s).pending) :
    Comes s a p ∧ ((∀ now, a ≠ .launch now) → s.running = true) := by
  obtain ⟨hw, hr⟩ := step_waits hrun
  exact ⟨hw.comes p hp, fun hne => hr.resolve_right fun ⟨now, e⟩ => hne now e⟩

end

end ShopingList
