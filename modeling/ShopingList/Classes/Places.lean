import ShopingList.Classes.CloudTree

/-!
# Places of lists

`SaveListOnCloud` stores a list at the path of its name below the user's node. A name whose path has
one piece makes the list a child of the node (`ListData.place`); lists with distinct places are then all that the
node holds (`HoldsLists`, `getImmediateChild_of_loop`) and all that is read of it (`HoldsLists.shows`).
-/

namespace ShopingList

open FNode FValidation KeyedMerge

/-! ## Places of lists -/

/-- The child of a user's node at which a list is stored. A path drops its empty pieces, and a name
of several pieces goes below another child. -/
def ListData.place (l : ListData) : Option String :=
  match l.listName.map FPath.pieces with
  | some [c] => some c
  | _ => none

theorem ListData.place_iff {l : ListData} {c : String} :
    l.place = some c ↔ ∃ n, l.listName = some n ∧ FPath.pieces n = [c] := by
  rw [ListData.place]
  cases l.listName with
  | none => simp
  | some n => rcases hp : FPath.pieces n with _ | ⟨p, _ | ⟨q, rest⟩⟩ <;> simp [hp]

theorem ListData.place_congr {a b : ListData} (h : a.listName = b.listName) : a.place = b.place := by
  rw [ListData.place, ListData.place, h]

/-- The lists have places next to each other. -/
structure SideBySide (ls : List ListData) : Prop where
  places : ∀ l ∈ ls, ∃ c, l.place = some c
  apart : ∀ l ∈ ls, ∀ l' ∈ ls, l.place = l'.place → l.listName = l'.listName

/-- Below the user's node there are these lists, each at its place, and nothing else. -/
structure HoldsLists (node : FNode) (ls : List ListData) : Prop where
  places : Distinct ListData.place ls
  children : ∀ c, getImmediateChild c node = ((lookup ListData.place c ls).map listNode).getD emptyNode

/-- A read of the user's node gets these lists, and there is one of them for every child. -/
structure ShowsLists (order : DictOrder) (node : FNode) (ls : List ListData) : Prop where
  read : ∀ ls', ReadDataFromCloud.readLists order node = .ok ls' → UpToOrder SameItems ls' ls
  nil : node.hasChildren = false → ls = []
  children : ∀ c, (getImmediateChild c node).isEmpty = false → ∃ l ∈ ls, l.place = some c

/-- The lists of a user's node: what is read of it, each list stored under its own name. -/
structure CloudContent (order : DictOrder) (node : FNode) (cloud : List ListData) : Prop where
  normal : node.Normal
  read : node.hasChildren = false ∧ cloud = [] ∨ ReadDataFromCloud.readLists order node = .ok cloud
  collection : Collection cloud
  ownNames : ∀ c n, leafAt [c, "listName"] node = some n → FPath.pieces n = [c]

section
variable {order : DictOrder} {node : FNode} {ls all : List ListData}

theorem SideBySide.distinct (h : SideBySide all) (hl : Distinct ListData.listName ls)
    (hnames : ∀ l ∈ ls, ∃ l' ∈ all, l.listName = l'.listName) : Distinct ListData.place ls := by
  constructor
  · refine List.Nodup.map_on (fun a ha b hb hab => hl.eq_of_key ha hb ?_) (List.Nodup.of_map _ hl.nodup)
    obtain ⟨a', ha', ea⟩ := hnames a ha
    obtain ⟨b', hb', eb⟩ := hnames b hb
    rw [ListData.place_congr ea, ListData.place_congr eb] at hab
    rw [ea, eb, h.apart a' ha' b' hb' hab]
  · intro a ha
    obtain ⟨a', ha', ea⟩ := hnames a ha
    rw [ListData.place_congr ea]
    exact h.places a' ha'

/-- Lists with distinct places are side by side, and so are all with their names. -/
theorem sideBySide_of_distinct (h : Distinct ListData.place ls)
    (hnames : ∀ l ∈ all, ∃ l' ∈ ls, l.listName = l'.listName) : SideBySide all := by
  constructor
  · intro a ha
    obtain ⟨a', ha', ea⟩ := hnames a ha
    rw [ListData.place_congr ea]
    exact h.keyed a' ha'
  · intro a ha b hb hab
    obtain ⟨a', ha', ea⟩ := hnames a ha
    obtain ⟨b', hb', eb⟩ := hnames b hb
    rw [ListData.place_congr ea, ListData.place_congr eb] at hab
    rw [ea, eb, h.eq_of_key ha' hb' hab]

theorem getImmediateChild_of_noChildren (h : node.hasChildren = false) (c : String) :
    getImmediateChild c node = emptyNode := by
  cases node with
  | leaf v => rfl
  | children kids =>
    rw [hasChildren, Bool.not_eq_false', List.isEmpty_iff] at h
    rw [h]
    rfl

/-- What a node holds is what it shows. -/
theorem HoldsLists.shows (h : HoldsLists node ls) (hn : node.Normal) (hl : Collection ls) :
    ShowsLists order node ls := by
  refine ⟨fun ls' hread => ?_, fun hno => ?_, fun c hc => ?_⟩
  · cases node with
    | leaf v => cases hread
    | children kids =>
      have hnode : FNode.children kids = nodeBy ListData.place listNode ls := by
        refine congrArg FNode.children (SortedDict.ext (hn [] kids rfl).1 (SortedDict.sorted_ofList _) fun c => ?_)
        have hchild : getChild [c] (.children kids) =
            ((lookup ListData.place c ls).map listNode).getD emptyNode := h.children c
        rw [get_entriesBy h.places, hn.get_eq, hchild]
        cases lookup ListData.place c ls <;> simp
      rw [hnode] at hread
      exact (readLists_nodeBy h.places hl hread).imp fun _ _ hab => hab.toSameItems
  · refine List.eq_nil_iff_forall_not_mem.2 fun l hm => ?_
    obtain ⟨c, hc⟩ := h.places.keyed l hm
    have hchild := h.children c
    rw [getImmediateChild_of_noChildren hno, h.places.lookup hm hc] at hchild
    have hempty := isEmpty_listNode l
    rw [← show emptyNode = listNode l from hchild] at hempty
    cases hempty
  · rw [h.children c] at hc
    cases hl : lookup ListData.place c ls with
    | none =>
      rw [hl] at hc
      cases hc
    | some l => exact ⟨l, lookup_some hl⟩

/-- Every child that is not empty is among the values of the dictionary. -/
theorem mem_of_getImmediateChild {c : String} {vals : List FNode} (h : allValues order node = .ok vals)
    (hc : (getImmediateChild c node).isEmpty = false) : getImmediateChild c node ∈ vals := by
  cases node with
  | leaf v => cases h
  | children kids =>
    rw [allValues] at h
    split at h
    · cases h
    · cases h
      rw [getImmediateChild] at hc ⊢
      cases hget : SortedDict.get c kids with
      | none =>
        rw [hget] at hc
        cases hc
      | some x => exact (order.perm kids).symm.subset (List.mem_map_of_mem (SortedDict.mem_of_get hget))

/-- The content of a node is what it shows. -/
theorem CloudContent.shows (h : CloudContent order node ls) : ShowsLists order node ls := by
  refine ⟨fun ls' hread => ?_, fun hno => ?_, fun c hc => ?_⟩
  · rcases h.read with ⟨hno, -⟩ | hls
    · cases node with
      | leaf v => cases hread
      | children kids =>
        rw [hasChildren, Bool.not_eq_false', List.isEmpty_iff] at hno
        subst hno
        cases hread
    · rw [hls] at hread
      cases hread
      exact ⟨ls, .refl _, List.forall₂_same.2 fun l _ => ⟨rfl, .refl _⟩⟩
  · rcases h.read with ⟨-, hnil⟩ | hls
    · exact hnil
    · cases node with
      | leaf v => cases hls
      | children kids =>
        rw [hasChildren, Bool.not_eq_false', List.isEmpty_iff] at hno
        subst hno
        cases hls
  · rcases h.read with ⟨hno, -⟩ | hls
    · rw [getImmediateChild_of_noChildren hno] at hc
      cases hc
    · obtain ⟨vals, hvals, hread⟩ := Raising.bind_ok_iff.1 hls
      obtain ⟨l, hl, hlist⟩ := Raising.exists_mem_of_mapM hread (mem_of_getImmediateChild hvals hc)
      -- the list has the name that is stored in the child
      obtain ⟨n, hn⟩ := h.collection.lists.keyed l hl
      refine ⟨l, hl, ListData.place_iff.2 ⟨n, hn, h.ownNames c n ?_⟩⟩
      have hname := (readList_ok hlist).1
      rw [hn] at hname
      exact hname

end

/-! ## Saves -/

section
variable {user : FIRUser} {base : List String} {curUser : UserClass} {lists : List ShopingListsClass} {db db' : FNode}

/-- **The saves of lists with distinct places** put each list at its own and change no other child. -/
theorem getImmediateChild_of_loop
    (hb : child dataNode curUser.uidText = .ok base)
    (h : Raising.loop (SaveListOnCloud.save (some user) curUser) lists db = .ok db')
    (hd : Distinct ListData.place (lists.map (·.encodeWithCoder))) (c : String) :
    getImmediateChild c (getChild base db') = ((lookup ListData.place c (lists.map (·.encodeWithCoder))).map
      listNode).getD (getImmediateChild c (getChild base db)) := by
  induction lists generalizing db with
  | nil =>
    cases h
    rfl
  | cons l lists ih =>
    rw [Raising.loop] at h
    cases hsave : SaveListOnCloud.save (some user) curUser l db with
    | error e =>
      rw [hsave] at h
      cases h
    | ok db₁ =>
      rw [hsave] at h
      obtain ⟨-, -, ref, href, rfl⟩ := save_ok_iff.1 hsave
      obtain ⟨base', n, hb', hn, rfl⟩ := listRef_ok href
      rw [hb] at hb'
      cases hb'
      obtain ⟨p, hp⟩ := hd.keyed _ List.mem_cons_self
      obtain ⟨n', hn', hpieces⟩ := ListData.place_iff.1 hp
      obtain rfl : n = n' := Option.some.inj (hn.symm.trans hn')
      rw [List.map_cons] at hd ⊢
      rw [ih h hd.of_cons, lookup_cons, hp, getChild_updateChild, hpieces]
      by_cases hcp : p = c
      · subst hcp
        have hno : lookup ListData.place p (lists.map (·.encodeWithCoder)) = none := by
          refine lookup_none.2 fun x hx hxp => ?_
          exact (List.nodup_cons.1 hd.nodup).1 (List.mem_map.2 ⟨x, hx, hxp.trans hp.symm⟩)
        rw [hno, if_pos rfl, getImmediateChild_updateChild, updateChild_nil]
        rfl
      · rw [if_neg (by simpa using hcp), getImmediateChild_updateChild_ne (Ne.symm hcp)]

theorem normal_of_loop (hb : child dataNode curUser.uidText = .ok base)
    (h : Raising.loop (SaveListOnCloud.save (some user) curUser) lists db = .ok db')
    (hn : (getChild base db).Normal) : (getChild base db').Normal := by
  refine Raising.of_loop_ok (P := fun db => (getChild base db).Normal) h ?_ hn
  intro l _ x y hx hsave
  obtain ⟨-, -, ref, href, rfl⟩ := save_ok_iff.1 hsave
  obtain ⟨base', n, hb', -, rfl⟩ := listRef_ok href
  rw [hb] at hb'
  cases hb'
  rw [getChild_updateChild]
  exact hx.updateChild (normal_listNode _) _

end

end ShopingList
