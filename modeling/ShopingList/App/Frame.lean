import ShopingList.App.Schema

/-!
# What a writer leaves alone

Every writer works at or below the place of its list (`step_below`). A list name is
split at its slashes, so the places of two lists are apart if and only if neither name
continues the other, and only then do the writers of one list leave the other one
as it is (`apart_frame_iff`).
-/

namespace ShopingList

open FNode FValidation

namespace Call

/-- The user and the list name that the path of a call is made of. -/
def target : Call → Option String × Option String
  | save _ curUser inpList => (curUser.uidText, inpList.listName)
  | saveItem _ _ inpList => (inpList.listOwner.uidText, inpList.listName)
  | deleteItem _ curUser _ inpList => (curUser.uidText, inpList.listName)
  | deleteList _ inpList => (inpList.listOwner.uidText, inpList.listName)

/-- A call that does not raise writes at or below the place of its list. -/
theorem perform_below {c : Call} {db db' : FNode} (h : c.perform db = .ok db') :
    db' = db ∨ ∃ ref r new, listRef c.target.1 c.target.2 = .ok ref ∧
      db' = updateChild new (ref ++ r) db := by
  cases c with
  | save currentUser curUser inpList =>
    cases currentUser with
    | none => cases h; exact .inl rfl
    | some u =>
      obtain ⟨-, -, ref, href, rfl⟩ := save_ok_iff.1 h
      exact .inr ⟨ref, [], _, href, by rw [List.append_nil]⟩
  | saveItem currentUser inpItem inpList =>
    cases currentUser with
    | none => cases h; exact .inl rfl
    | some u =>
      obtain ⟨ref, path, href, hpath, rfl⟩ := saveItem_ok_iff.1 h
      obtain ⟨k, -, rfl⟩ := itemRef_ok hpath
      exact .inr ⟨ref, _, _, href, rfl⟩
  | deleteItem currentUser curUser inpItem inpList =>
    cases currentUser with
    | none => cases h; exact .inl rfl
    | some u =>
      obtain ⟨ref, path, href, hpath, rfl⟩ := deleteItem_ok_iff.1 h
      obtain ⟨k, -, rfl⟩ := itemRef_ok hpath
      exact .inr ⟨ref, _, _, href, rfl⟩
  | deleteList currentUser inpList =>
    cases currentUser with
    | none => cases h; exact .inl rfl
    | some u =>
      obtain ⟨ref, href, rfl⟩ := deleteList_ok_iff.1 h
      exact .inr ⟨ref, [], _, href, by rw [List.append_nil]; rfl⟩

theorem step_below (c : Call) (db : FNode) : c.step db = db ∨
    ∃ ref r new, listRef c.target.1 c.target.2 = .ok ref ∧ c.step db = updateChild new (ref ++ r) db := by
  rw [step]
  cases h : c.perform db with
  | ok db' => exact perform_below h
  | error e => exact .inl rfl

end Call

/-- Neither path is at or below the other. -/
def Apart (p q : List String) : Prop := ¬ p <+: q ∧ ¬ q <+: p

instance (p q : List String) : Decidable (Apart p q) := inferInstanceAs (Decidable (_ ∧ _))

theorem Apart.append {p q : List String} (h : Apart p q) (r : List String) : Apart (p ++ r) q := by
  refine ⟨fun hp => h.1 ((List.prefix_append p r).trans hp), fun hq => ?_⟩
  rcases List.prefix_or_prefix_of_prefix hq (List.prefix_append p r) with h' | h'
  · exact h.2 h'
  · exact h.1 h'

theorem Apart.below {p q : List String} (h : Apart p q) (base : List String) :
    Apart (base ++ p) (base ++ q) :=
  ⟨fun hp => h.1 ((List.prefix_append_right_inj base).1 hp),
    fun hq => h.2 ((List.prefix_append_right_inj base).1 hq)⟩

/-- Removing a path that is not apart removes a leaf that the other one may hold. -/
theorem getChild_removeValue_ne {p q : List String} (h : ¬ Apart p q) :
    ∃ db, getChild q (removeValue p db) ≠ getChild q db := by
  by_cases hpq : p <+: q
  · refine ⟨updateChild (.leaf "") q emptyNode, fun he => ?_⟩
    have hleaf := leafAt_removeValue p q (updateChild (.leaf "") q emptyNode)
    rw [if_pos hpq, leafAt, he, getChild_updateChild_self] at hleaf
    cases hleaf
  · obtain ⟨r, rfl⟩ : q <+: p := by
      by_contra hqp
      exact h ⟨hpq, hqp⟩
    refine ⟨updateChild (.leaf "") (q ++ r) emptyNode, fun he => ?_⟩
    have hleaf := leafAt_removeValue (q ++ r) (q ++ r) (updateChild (.leaf "") (q ++ r) emptyNode)
    rw [if_pos (List.prefix_refl _), leafAt, getChild_append, he, ← getChild_append,
      getChild_updateChild_self] at hleaf
    cases hleaf

/-- The writers of the list `n` of the user `uid` leave the list `n'` at `base` as it is. -/
def LeavesAlone (uid n : String) (base : List String) (n' : String) : Prop :=
  ∀ (c : Call) (db : FNode), c.target = (some uid, some n) →
    getChild (base ++ FPath.pieces n') (c.step db) = getChild (base ++ FPath.pieces n') db

theorem listRef_of_base {uid n : String} {base : List String} (hb : child dataNode (some uid) = .ok base)
    (hn : isValidPathString (some n) = true) :
    listRef (some uid) (some n) = .ok (base ++ FPath.pieces n) :=
  Raising.bind_ok_iff.2 ⟨base, hb, if_pos hn⟩

theorem leavesAlone_of_apart {uid n n' : String} {base : List String}
    (hb : child dataNode (some uid) = .ok base) (hn : isValidPathString (some n) = true)
    (h : Apart (FPath.pieces n) (FPath.pieces n')) : LeavesAlone uid n base n' := by
  intro c db hc
  rcases c.step_below db with hs | ⟨ref, r, new, hr, hs⟩
  · rw [hs]
  · rw [hc, listRef_of_base hb hn] at hr
    cases hr
    obtain ⟨h1, h2⟩ := (h.below base).append r
    rw [hs, getChild_updateChild_of_ne h1 h2]

/-- Names without a slash continue each other only if they are equal. -/
theorem leavesAlone_of_isValidKey {uid n n' : String} {base : List String}
    (hb : child dataNode (some uid) = .ok base) (hn : isValidKey n = true) (hn' : isValidKey n' = true)
    (hne : n ≠ n') : LeavesAlone uid n base n' := by
  refine leavesAlone_of_apart hb (isValidPathString_of_isValidKey hn) ?_
  rw [FPath.pieces_of_isValidKey hn, FPath.pieces_of_isValidKey hn']
  constructor
  · intro h
    exact hne (List.cons_prefix_cons.1 h).1
  · intro h
    exact hne (List.cons_prefix_cons.1 h).1.symm

/-- **The frame of the writers.** -/
theorem apart_frame_iff {uid n n' : String} {base : List String}
    (hb : child dataNode (some uid) = .ok base) (hn : isValidPathString (some n) = true) :
    LeavesAlone uid n base n' ↔ Apart (FPath.pieces n) (FPath.pieces n') := by
  refine ⟨fun h => ?_, leavesAlone_of_apart hb hn⟩
  by_contra hna
  have hbase : ¬ Apart (base ++ FPath.pieces n) (base ++ FPath.pieces n') := by
    rintro ⟨h1, h2⟩
    exact hna ⟨fun hp => h1 ((List.prefix_append_right_inj base).2 hp),
      fun hq => h2 ((List.prefix_append_right_inj base).2 hq)⟩
  obtain ⟨db, hdb⟩ := getChild_removeValue_ne hbase
  -- the list itself is deleted
  let l : ShopingListsClass := ⟨0, some n, ⟨none, none, some ⟨0, uid⟩⟩, []⟩
  have hperform : (Call.deleteList (some ⟨uid, none, none⟩) l).perform db =
      .ok (removeValue (base ++ FPath.pieces n) db) :=
    deleteList_ok_iff.2 ⟨_, listRef_of_base hb hn, rfl⟩
  have hstep := h (.deleteList (some ⟨uid, none, none⟩) l) db rfl
  rw [Call.step, hperform] at hstep
  exact hdb hstep

theorem apart_frame_iff_food : LeavesAlone "u1" "Food/Drinks" ["Data", "u1"] "Food/Fruit" ↔
    Apart (FPath.pieces "Food/Drinks") (FPath.pieces "Food/Fruit") :=
  apart_frame_iff (by decide) (by decide)

theorem not_leavesAlone : ¬ ∀ (uid n n' : String) (base : List String),
    child dataNode (some uid) = .ok base → isValidPathString (some n) = true →
      isValidPathString (some n') = true → n ≠ n' → LeavesAlone uid n base n' := by
  intro h
  let food : ShopingListsClass := ⟨1, some "Food", ⟨none, none, some ⟨0, "u1"⟩⟩, []⟩
  have hfood := h "u1" "Food" "Food/Drinks" ["Data", "u1"] (by decide) (by decide) (by decide) (by decide)
    (.deleteList (some ⟨"u1", none, none⟩) food)
    (updateChild (.leaf "Food/Drinks") ["Data", "u1", "Food", "Drinks", "listName"] emptyNode) rfl
  have hname := congrArg (leafAt ["listName"]) hfood
  revert hname
  decide

end ShopingList
