import ShopingList.App.SharedLists
import ShopingList.App.UniqueNames

/-!
# A new current user

`SetTheUser` gives the new user the lists whose owner has the uid object of the old one; the delete
handler asks for the text of the uid. `splitsOwn_iff` says in which of the memories that a run reaches the two
find the same lists.
-/

namespace ShopingList

open ListViewController

/-- The user that `setWithName:AndEmail:AndUid:` makes. -/
def newUser (inpName inpEmail : Option String) (inpUid : String) (m : AppData) : UserClass :=
  ⟨inpName, inpEmail, some ⟨m.next, inpUid⟩⟩

/-- The lists of the current user go to the new one, and nothing else in `curLST` changes. -/
def SplitsOwn (inpName inpEmail : Option String) (inpUid : String) (m : AppData) : Prop :=
  elems (SetTheUser.setWithName inpName inpEmail inpUid m).curLST = (elems m.curLST).map fun l =>
    if belongs m.curUser l then { l with listOwner := newUser inpName inpEmail inpUid m } else l

/-- The lists of the current user have the object of his uid. -/
def OneUidObject (m : AppData) : Prop :=
  ∀ l ∈ elems m.curLST, belongs m.curUser l = true → samePointer l.listOwner.uid m.curUser.uid = true

instance (m : AppData) : Decidable (OneUidObject m) := inferInstanceAs (Decidable (∀ l ∈ _, _ → _))

/-- What `setWithName:AndEmail:AndUid:` does to `curLST`. -/
theorem curLST_setWithName (n e : Option String) (uid : String) (m : AppData) :
    elems (SetTheUser.setWithName n e uid m).curLST = (elems m.curLST).map fun l =>
      if samePointer l.listOwner.uid m.curUser.uid then { l with listOwner := newUser n e uid m } else l := by
  unfold SetTheUser.setWithName
  rw [AppData.mapLists_curLST]
  refine List.map_congr_left fun l hl => ?_
  have hmine : l ∈ (elems m.curLST).filter (fun any => samePointer any.listOwner.uid m.curUser.uid) ↔
      samePointer l.listOwner.uid m.curUser.uid = true := by
    rw [List.mem_filter]
    exact and_iff_right hl
  simp only [hmine]
  rfl

section
variable {m : AppData} {o : List Observer}

/-- Where uid strings are known by their addresses, the new user is no old one. -/
theorem ne_newUser (hs : Strings m o) {l : ShopingListsClass} (hl : l ∈ elems m.curLST) (n e : Option String)
    (uid : String) : l.listOwner ≠ newUser n e uid m := by
  intro he
  have hlt := hs.lt ⟨m.next, uid⟩ ⟨l.listOwner, mem_users_list (AppData.mem_lists_curLST hl), by rw [he]; rfl⟩
  exact Nat.lt_irrefl _ hlt

/-- A list with the uid object of the current user belongs to him. -/
theorem belongs_of_samePointer (hs : Strings m o) (hu : m.curUser.uid.isSome = true) {l : ShopingListsClass}
    (hl : l ∈ elems m.curLST) (hp : samePointer l.listOwner.uid m.curUser.uid = true) :
    belongs m.curUser l = true :=
  belongs_curUser hu (hs.uidText_eq (mem_users_list (AppData.mem_lists_curLST hl)) mem_users_curUser hp)

theorem splitsOwn_memory (hs : Strings m o) (hu : m.curUser.uid.isSome = true) (n e : Option String) (uid : String) :
    SplitsOwn n e uid m ↔ OneUidObject m := by
  rw [SplitsOwn, curLST_setWithName, List.map_inj_left]
  refine forall_congr' fun l => forall_congr' fun hl => ?_
  by_cases hp : samePointer l.listOwner.uid m.curUser.uid = true
  · have hb := belongs_of_samePointer hs hu hl hp
    exact iff_of_true (by rw [if_pos hp, if_pos hb]) fun _ => hp
  · rw [if_neg hp]
    by_cases hb : belongs m.curUser l = true
    · rw [if_pos hb]
      refine iff_of_false (fun he => ?_) fun h => hp (h hb)
      exact ne_newUser hs hl n e uid (congrArg ShopingListsClass.listOwner he)
    · rw [if_neg hb]
      exact iff_of_true rfl fun h => absurd h hb

end

/-- Every process that runs knows its strings by their addresses, and its user is the stored one. -/
theorem strings_run {s : Sys} (as : List Action) (hr : s.running = false) (hrun : (Run.run step as s).running = true) :
    Strings (Run.run step as s).mem (Run.run step as s).observers ∧
      SameUser (Run.run step as s).mem (Run.run step as s).files := by
  have hkept : Kept (fun m f o => Strings m o ∧ SameUser m f) (fun _ => True) (Run.run step as s) := by
    refine Run.run_invariant (fun a t hs => ?_) as ⟨trivial, fun h => by rw [hr] at h; cases h⟩
    exact hs.step (fun _ _ _ _ => trivial)
      (fun _ _ _ _ hread => ⟨strings_readsData strings_init hread, .launch hread⟩)
      fun _ hne h _ _ _ ho => ⟨strings_outcome h.1 ho, sameUser_outcome h.2 hne ho⟩
  exact hkept.2 hrun

/-- **A change of the user keeps own lists and the lists of others apart**, in a memory that a run reaches, if and
only if the current user's lists have the object of his uid. -/
theorem splitsOwn_iff {s : Sys} (as : List Action) (n e : Option String) (uid : String) (hr : s.running = false)
    (hrun : (Run.run step as s).running = true) :
    SplitsOwn n e uid (Run.run step as s).mem ↔ OneUidObject (Run.run step as s).mem := by
  obtain ⟨hs, hu⟩ := strings_run as hr hrun
  exact splitsOwn_memory hs hu.isSome n e uid

/-! ## Relaunches -/

theorem splitsOwn_iff_new : SplitsOwn (some "Ann") none "u1"
      (Run.run step [.launch annEnv.now, .newList "Tools"] newDevice).mem ↔
    OneUidObject (Run.run step [.launch annEnv.now, .newList "Tools"] newDevice).mem :=
  splitsOwn_iff _ _ _ _ rfl (by decide)

/-- An installation with a list of the user that was signed in. -/
def annInstallation : Sys :=
  let ann : UserData := ⟨some "Ann", some "ann@mail", some "Xq3vYb2TnVx0aLr8Zs5Wd7Ec1hHj"⟩
  { newDevice with files := ⟨some ann, some [⟨some "Food", ann, []⟩]⟩ }

/-- The owners in `data.plist` come back with strings of their own. -/
theorem not_splitsOwn : ¬ ∀ (s : Sys) (as : List Action) (n e : Option String) (uid : String), s.running = false →
    (Run.run step as s).running = true → SplitsOwn n e uid (Run.run step as s).mem := by
  intro h
  have hsplit := h annInstallation [.launch annEnv.now] none none "Bk7wRt4MnPz1cGy6Jd9Qf3Hs8vUe" rfl (by decide)
  obtain ⟨hs, hu⟩ := strings_run [.launch annEnv.now] (s := annInstallation) rfl (by decide)
  have hone := (splitsOwn_memory hs hu.isSome _ _ _).1 hsplit
  revert hone
  decide

end ShopingList
