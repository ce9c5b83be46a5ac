import ShopingList.Lib.Raising
import ShopingList.Firebase.Node

/-!
# Stored trees

The database keeps the children of a node in the order of their keys, and no empty
child (`Normal`). Below a node that is not empty there is a leaf then (`exists_leaf`):
what is known of the places of the leaves (`LeavesIn`) decides what `value[key]` and
`value.allValues` do.
-/

namespace ShopingList

namespace FNode

variable {κ : Type}

/-- The children of a node. -/
def values : FNode κ → List (FNode κ)
  | .leaf _ => []
  | .children kids => kids.map Prod.snd

variable [LinearOrder κ]

/-- What the dictionary of the children has for a key. -/
def valueForKey (key : κ) : FNode κ → Option (FNode κ)
  | .leaf _ => none
  | .children kids => SortedDict.get key kids

/-- `snapshot.value` is a dictionary: neither a string nor an array nor `NSNull`. -/
def isDictionary : FNode → Bool
  | .leaf _ => false
  | .children kids => !(kids.isEmpty || isArray kids)

/-- `valForExport:` makes no array of the children. -/
def exportsDictionary : FNode → Bool
  | .leaf _ => false
  | .children kids => !isArray kids

/-- At every path the children are sorted, and none of them is empty. -/
def Normal (n : FNode κ) : Prop :=
  ∀ path kids, getChild path n = .children kids →
    SortedDict.Sorted kids ∧ ∀ p ∈ kids, p.2.isEmpty = false

/-- All leaves are at places in `L`. -/
def LeavesIn (L : List κ → Prop) (n : FNode κ) : Prop := ∀ path v, leafAt path n = some v → L path

/-! ## Normal trees -/

section
variable {n new : FNode κ} {kids : List (κ × FNode κ)} {k : κ} {c : FNode κ}

theorem normal_emptyNode : Normal (emptyNode : FNode κ) := by
  intro path kids h
  rw [getChild_emptyNode] at h
  cases h
  exact ⟨SortedDict.sorted_nil, by simp⟩

theorem normal_leaf (v : String) : Normal (.leaf v : FNode κ) := by
  intro path kids h
  cases path with
  | nil => cases h
  | cons k path =>
    rw [getChild_leaf_cons] at h
    cases h
    exact ⟨SortedDict.sorted_nil, by simp⟩

theorem Normal.getChild (h : Normal n) (path : List κ) : Normal (getChild path n) := by
  intro q kids hq
  rw [← getChild_append] at hq
  exact h _ _ hq

/-- A child is found under its key. -/
theorem Normal.getImmediateChild (h : Normal (.children kids)) (hc : (k, c) ∈ kids) :
    FNode.getImmediateChild k (.children kids) = c := by
  rw [FNode.getImmediateChild, SortedDict.get_of_mem (h [] kids rfl).1 hc]
  rfl

theorem normal_children (hs : SortedDict.Sorted kids)
    (h : ∀ p ∈ kids, p.2.isEmpty = false ∧ Normal p.2) : Normal (.children kids) := by
  intro path kids' hp
  cases path with
  | nil =>
    cases hp
    exact ⟨hs, fun p hp => (h p hp).1⟩
  | cons k path =>
    rw [FNode.getChild, FNode.getImmediateChild] at hp
    cases hget : SortedDict.get k kids with
    | none =>
      rw [hget] at hp
      exact normal_emptyNode path kids' hp
    | some c =>
      rw [hget] at hp
      exact (h (k, c) (SortedDict.mem_of_get hget)).2 path kids' hp

/-- A write of a child keeps the order and adds no empty child. -/
theorem kids_updateImmediateChild (h : ∀ kids, n = .children kids →
      SortedDict.Sorted kids ∧ ∀ p ∈ kids, p.2.isEmpty = false)
    (hk : updateImmediateChild k c n = .children kids) :
    SortedDict.Sorted kids ∧ ∀ p ∈ kids, p.2.isEmpty = false := by
  cases n with
  | leaf v =>
    rw [updateImmediateChild] at hk
    split at hk
    · cases hk
    · rename_i hc
      cases hk
      exact ⟨SortedDict.sorted_cons.2 ⟨by simp, SortedDict.sorted_nil⟩, by simpa using hc⟩
  | children old =>
    obtain ⟨hs, hne⟩ := h old rfl
    rw [updateImmediateChild] at hk
    split at hk
    · cases hk
      exact ⟨SortedDict.sorted_remove hs, fun p hp => hne p (List.mem_filter.1 hp).1⟩
    · rename_i hc
      cases hk
      refine ⟨SortedDict.sorted_set hs, fun p hp => ?_⟩
      rcases SortedDict.mem_set hp with rfl | hp
      · simpa using hc
      · exact hne p hp

theorem kids_updateChild_cons {r : List κ} (h : ∀ kids, n = .children kids →
      SortedDict.Sorted kids ∧ ∀ p ∈ kids, p.2.isEmpty = false)
    (hk : updateChild new (k :: r) n = .children kids) :
    SortedDict.Sorted kids ∧ ∀ p ∈ kids, p.2.isEmpty = false := by
  cases n with
  | leaf v =>
    rw [updateChild] at hk
    split at hk
    · cases hk
    · exact kids_updateImmediateChild h hk
  | children old =>
    rw [updateChild] at hk
    exact kids_updateImmediateChild h hk

/-- **Writes keep the tree normal.** -/
theorem Normal.updateChild (h : Normal n) (hnew : Normal new) (p : List κ) :
    Normal (updateChild new p n) := by
  intro q kids hq
  by_cases hp : p <+: q
  · obtain ⟨r, rfl⟩ := hp
    rw [getChild_append, getChild_updateChild_self] at hq
    exact hnew r kids hq
  · by_cases hp' : q <+: p
    · obtain ⟨r, rfl⟩ := hp'
      rw [getChild_updateChild] at hq
      cases r with
      | nil => exact absurd (by simp) hp
      | cons k r => exact kids_updateChild_cons (h q) hq
    · rw [getChild_updateChild_of_ne hp hp'] at hq
      exact h q kids hq

/-- A node that is not empty has a leaf. -/
theorem exists_leaf : ∀ {n : FNode κ}, Normal n → n.isEmpty = false → ∃ path v, leafAt path n = some v
  | .leaf v, _, _ => ⟨[], v, rfl⟩
  | .children [], _, h => by cases h
  | .children ((k, c) :: kids), hn, _ => by
    have hc : FNode.getImmediateChild k (.children ((k, c) :: kids)) = c :=
      hn.getImmediateChild List.mem_cons_self
    have hnormal : Normal c := hc ▸ hn.getChild [k]
    obtain ⟨path, v, hv⟩ := exists_leaf hnormal ((hn [] _ rfl).2 (k, c) List.mem_cons_self)
    refine ⟨k :: path, v, ?_⟩
    rw [leafAt, FNode.getChild, hc]
    exact hv

/-- The child at a key, if there is one, is the node below the key. -/
theorem Normal.get_eq (h : Normal (.children kids)) (k : κ) : SortedDict.get k kids =
    if (FNode.getChild [k] (.children kids)).isEmpty then none else some (FNode.getChild [k] (.children kids)) := by
  rw [FNode.getChild, FNode.getChild, FNode.getImmediateChild]
  cases hget : SortedDict.get k kids with
  | none => rfl
  | some c =>
    have hc : c.isEmpty = false := (h [] kids rfl).2 (k, c) (SortedDict.mem_of_get hget)
    rw [Option.getD_some, hc]
    rfl

/-- A node without leaves is empty. -/
theorem isEmpty_iff_leafAt (h : Normal n) : n.isEmpty = true ↔ ∀ path, leafAt path n = none := by
  constructor
  · intro he path
    rw [eq_emptyNode he, leafAt_emptyNode]
  · intro hno
    by_contra hne
    obtain ⟨path, v, hv⟩ := exists_leaf h (Bool.eq_false_iff.2 hne)
    rw [hno path] at hv
    cases hv

/-- **The leaves determine the tree.** -/
theorem Normal.ext {a b : FNode κ} (ha : Normal a) (hb : Normal b) (h : ∀ path, leafAt path a = leafAt path b) :
    a = b := by
  match a, b with
  | .leaf v, .leaf w =>
    have hroot := h []
    cases hroot
    rfl
  | .leaf v, .children kids => cases h []
  | .children kids, .leaf w => cases h []
  | .children kids, .children kids' =>
    refine congrArg FNode.children (SortedDict.ext (ha [] kids rfl).1 (hb [] kids' rfl).1 fun k => ?_)
    have hchild : ∀ path, leafAt path (FNode.getChild [k] (.children kids)) =
        leafAt path (FNode.getChild [k] (.children kids')) := fun path => by
      rw [← leafAt_append, ← leafAt_append]
      exact h _
    have hempty : (FNode.getChild [k] (.children kids)).isEmpty =
        (FNode.getChild [k] (.children kids')).isEmpty := by
      rw [Bool.eq_iff_iff, isEmpty_iff_leafAt (ha.getChild [k]), isEmpty_iff_leafAt (hb.getChild [k])]
      exact forall_congr' fun path => by rw [hchild path]
    rw [ha.get_eq, hb.get_eq, ← hempty]
    cases hget : SortedDict.get k kids with
    | none =>
      rw [ha.get_eq] at hget
      split at hget
      · rename_i he
        rw [if_pos he, if_pos he]
      · cases hget
    | some c =>
      have hmem := List.sizeOf_lt_of_mem (SortedDict.mem_of_get hget)
      have hc : FNode.getChild [k] (.children kids) = c := ha.getImmediateChild (SortedDict.mem_of_get hget)
      have hac : Normal c := hc ▸ ha.getChild [k]
      have he : c = FNode.getChild [k] (.children kids') :=
        Normal.ext hac (hb.getChild [k]) fun path => by rw [← hchild path, hc]
      rw [hc, ← he]
termination_by sizeOf a
decreasing_by
  simp only [Prod.mk.sizeOf_spec, FNode.children.sizeOf_spec] at hmem ⊢
  omega

/-- A removal undoes a write where nothing was, if the write went through no text. -/
theorem removeValue_updateChild {p : List κ} (hn : Normal n) (hnew : Normal new)
    (hempty : FNode.getChild p n = emptyNode) (habove : ∀ k < p.length, leafAt (p.take k) n = none) :
    removeValue p (FNode.updateChild new p n) = n := by
  refine ((hn.updateChild hnew p).updateChild normal_emptyNode p).ext hn fun q => ?_
  rw [← removeValue, leafAt_removeValue]
  split
  · rename_i hp
    obtain ⟨r, rfl⟩ := hp
    rw [leafAt_append, hempty, leafAt_emptyNode]
  · rename_i hp
    by_cases hq : q <+: p
    · -- above `p` there is no leaf, before or after
      have hlt : q.length < p.length := by
        refine Nat.lt_of_le_of_ne hq.length_le fun he => hp ?_
        exact hq.eq_of_length he ▸ List.prefix_refl q
      have hnone := habove q.length hlt
      rw [← List.prefix_iff_eq_take.1 hq] at hnone
      rcases leafAt_updateChild_off new hp n with e | e
      · exact e
      · rw [e, hnone]
    · rw [leafAt, leafAt, getChild_updateChild_of_ne hp hq]

end

/-! ## Places of leaves -/

section
variable {L : List κ → Prop} {n new : FNode κ} {kids : List (κ × FNode κ)} {k key : κ} {c : FNode κ}

theorem leavesIn_emptyNode : LeavesIn L emptyNode := by
  intro path v h
  rw [leafAt_emptyNode] at h
  cases h

theorem leavesIn_children (h : ∀ p ∈ kids, LeavesIn (fun r => L (p.1 :: r)) p.2) :
    LeavesIn L (.children kids) := by
  intro path v hv
  cases path with
  | nil => cases hv
  | cons k path =>
    rw [leafAt, FNode.getChild, FNode.getImmediateChild] at hv
    cases hget : SortedDict.get k kids with
    | none =>
      rw [hget, Option.getD_none, getChild_emptyNode] at hv
      cases hv
    | some c =>
      rw [hget] at hv
      exact h (k, c) (SortedDict.mem_of_get hget) path v hv

theorem leavesIn_leaf (h : L []) (v : String) : LeavesIn L (.leaf v) := by
  intro path w hw
  cases path with
  | nil => exact h
  | cons k path =>
    rw [leafAt, getChild_leaf_cons] at hw
    cases hw

theorem LeavesIn.mono {L' : List κ → Prop} (h : LeavesIn L n) (hL : ∀ r, L r → L' r) : LeavesIn L' n :=
  fun path v hv => hL path (h path v hv)

theorem LeavesIn.getChild (h : LeavesIn L n) (p : List κ) :
    LeavesIn (fun q => L (p ++ q)) (getChild p n) := by
  intro q v hq
  rw [← leafAt_append] at hq
  exact h _ v hq

theorem LeavesIn.updateChild {p : List κ} (h : LeavesIn L n)
    (hnew : LeavesIn (fun q => L (p ++ q)) new) : LeavesIn L (updateChild new p n) := by
  intro q v hq
  rcases leafAt_updateChild hq with ⟨r, rfl, hr⟩ | hq
  · exact hnew r v hr
  · exact h q v hq

/-- Below a child that is not empty there is a leaf. -/
theorem LeavesIn.exists_place (h : LeavesIn L (.children kids)) (hn : Normal (.children kids))
    (hc : (k, c) ∈ kids) : ∃ r, L (k :: r) := by
  have hget := hn.getImmediateChild hc
  have hnormal : Normal c := hget ▸ hn.getChild [k]
  obtain ⟨r, v, hv⟩ := exists_leaf hnormal ((hn [] _ rfl).2 (k, c) hc)
  refine ⟨r, h (k :: r) v ?_⟩
  rw [leafAt, FNode.getChild, hget]
  exact hv

/-- A node without a value of its own has children. -/
theorem LeavesIn.children (h : LeavesIn L n) (hroot : ¬ L []) : ∃ kids, n = .children kids := by
  cases n with
  | leaf v => exact absurd (h [] v rfl) hroot
  | children kids => exact ⟨kids, rfl⟩

end

section
variable {L : List String → Prop} {n : FNode} {kids : List (String × FNode)} {k key : String} {c : FNode}

/-- Keys that are no indices make the node a dictionary. -/
theorem LeavesIn.exportsDictionary (h : LeavesIn L n) (hn : Normal n) (hroot : ¬ L [])
    (hkeys : ∀ k r, L (k :: r) → integerKey k = none) : n.exportsDictionary = true := by
  obtain ⟨kids, rfl⟩ := h.children hroot
  rw [FNode.exportsDictionary, Bool.not_eq_true']
  cases kids with
  | nil => rfl
  | cons p kids =>
    obtain ⟨r, hr⟩ := h.exists_place hn (k := p.1) (c := p.2) List.mem_cons_self
    rw [isArray, List.all_cons, hkeys _ _ hr]
    rfl

/-- `value[key]` for a dictionary. -/
theorem objectForKey_of_exports (hn : Normal n) (hd : n.exportsDictionary = true) (hne : n.isEmpty = false)
    (key : String) : objectForKey key n =
      .ok (if (FNode.getChild [key] n).isEmpty then none else some (FNode.getChild [key] n)) := by
  cases n with
  | leaf v => cases hd
  | children kids =>
    rw [isEmpty] at hne
    rw [FNode.exportsDictionary, Bool.not_eq_true'] at hd
    rw [objectForKey, hne, hd, FNode.getChild, FNode.getChild, FNode.getImmediateChild]
    cases hget : SortedDict.get key kids with
    | none => rfl
    | some c =>
      have hc : c.isEmpty = false := (hn [] kids rfl).2 (key, c) (SortedDict.mem_of_get hget)
      simp [hc]

/-- `value[key]` where only a string can be. -/
theorem LeavesIn.stringForKey (h : LeavesIn L n) (hn : Normal n) (hd : n.exportsDictionary = true)
    (hne : n.isEmpty = false) (hkey : ∀ r, L (key :: r) → r = []) :
    FNode.stringForKey key n = .ok (leafAt [key] n) := by
  rw [FNode.stringForKey, objectForKey_of_exports hn hd hne, leafAt]
  have hchild := hn.getChild [key]
  have hleaves := h.getChild [key]
  cases hc : FNode.getChild [key] n with
  | leaf v => rfl
  | children kids =>
    rw [hc] at hchild hleaves
    cases kids with
    | nil => rfl
    | cons p kids =>
      obtain ⟨r, hr⟩ := hleaves.exists_place hchild (k := p.1) (c := p.2) List.mem_cons_self
      exact absurd (hkey _ hr) (List.cons_ne_nil _ _)

end

/-! ## Values that are read -/

section
variable {order : DictOrder} {key : String} {value c : FNode}

/-- Dictionaries, and they alone, have values for keys. -/
theorem objectForKey_iff {found : Option FNode} :
    objectForKey key value = .ok found ↔ value.isDictionary = true ∧ value.valueForKey key = found := by
  cases value with
  | leaf v => simp [objectForKey, isDictionary]
  | children kids =>
    rw [objectForKey, isDictionary, valueForKey]
    split
    · rename_i h
      simp [h]
    · rename_i h
      simp [h]

theorem objectForKey_ok {found : Option FNode} (h : objectForKey key value = .ok found) :
    getImmediateChild key value = found.getD emptyNode := by
  cases value with
  | leaf v => cases h
  | children kids =>
    rw [objectForKey] at h
    split at h
    · cases h
    · cases h
      rfl

theorem stringForKey_ok {v : Option String} (h : stringForKey key value = .ok v) : leafAt [key] value = v := by
  obtain ⟨found, hfound, h⟩ := Raising.bind_ok_iff.1 h
  rw [leafAt, FNode.getChild, FNode.getChild, objectForKey_ok hfound]
  cases found with
  | none =>
    cases h
    rfl
  | some x =>
    cases x with
    | leaf w =>
      cases h
      rfl
    | children kids => cases h

end

end FNode

end ShopingList
