import ShopingList.Firebase.ViewProcessor
import ShopingList.Firebase.Repo

/-!
# Changes of the children

The changes that an operation on a view collects say how the children of its node
went from what they were to what they are (`Turns`): a key without a change kept its
child. Each update adds its changes to those before it, and no combination of them is
illegal, since a change of a child is made from the child that is there
(`trackChildChange_says`).
-/

namespace ShopingList

open FImmutableTree hiding node child children isEmpty empty value

variable {κ : Type} [LinearOrder κ]

namespace FNode

section
variable {a b n c : FNode κ} {k : κ}

mutual

/-- `isEqual:` is equality. -/
theorem isEqual_eq_true : ∀ {a b : FNode κ}, a.Normal → b.Normal → (isEqual a b = true ↔ a = b)
  | .leaf v, .leaf w, _, _ => by
    rw [isEqual, beq_iff_eq, leaf.injEq]
    exact eq_comm
  | .leaf _, .children _, _, _ => by simp [isEqual]
  | .children _, .leaf _, _, _ => by simp [isEqual]
  | .children kids, .children otherKids, ha, hb => by
    obtain ⟨hsorted, hfull⟩ := ha [] kids rfl
    obtain ⟨hsorted', hfull'⟩ := hb [] otherKids rfl
    have hkids := kidsEqual_eq_true kids (.children otherKids)
      (fun p hp => ha.getImmediateChild hp ▸ ha.getChild [p.1]) hb
    rw [isEqual]
    split
    · rename_i hempty
      rw [Bool.and_eq_true, List.isEmpty_iff, List.isEmpty_iff] at hempty
      simp [hempty.1, hempty.2]
    · split
      · rename_i hlen
        rw [hkids]
        constructor
        · intro hall
          have hsub : kids ⊆ otherKids := fun p hp => by
            have hchild := hall p hp
            rw [getImmediateChild] at hchild
            cases hget : SortedDict.get p.1 otherKids with
            | none =>
              rw [hget] at hchild
              have hne := hfull p hp
              rw [hchild] at hne
              cases hne
            | some c =>
              rw [hget] at hchild
              exact SortedDict.mem_of_get (hget.trans (congrArg some hchild.symm))
          exact congrArg children (SortedDict.eq_of_subset hsorted hsorted' hsub (beq_iff_eq.1 hlen).ge)
        · intro heq p hp
          rw [← heq]
          exact (ha.getImmediateChild hp).symm
      · rename_i hlen
        refine ⟨fun h => Bool.noConfusion h, fun heq => ?_⟩
        cases heq
        exact absurd (beq_self_eq_true kids.length) hlen

theorem kidsEqual_eq_true : ∀ (kids : List (κ × FNode κ)) (other : FNode κ), (∀ p ∈ kids, p.2.Normal) →
    other.Normal → (kidsEqual kids other = true ↔ ∀ p ∈ kids, p.2 = getImmediateChild p.1 other)
  | [], _, _, _ => by simp [kidsEqual]
  | (key, node) :: kids, other, hkids, hother => by
    have hnode : isEqual node (getImmediateChild key other) = true ↔ node = getImmediateChild key other :=
      isEqual_eq_true (hkids _ List.mem_cons_self) (hother.getChild [key])
    rw [kidsEqual, Bool.and_eq_true, hnode,
      kidsEqual_eq_true kids other (fun p hp => hkids p (List.mem_cons_of_mem _ hp)) hother, List.forall_mem_cons]

end

theorem hasChild_eq_true : n.hasChild k = true ↔ (getImmediateChild k n).isEmpty = false := by
  unfold hasChild
  rw [Bool.not_eq_true']

theorem updateChild_singleton (k : κ) (c n : FNode κ) : updateChild c [k] n = updateImmediateChild k c n := by
  cases n with
  | leaf v =>
    rw [updateChild, updateChild_nil, updateImmediateChild]
    split <;> rfl
  | children kids => rw [updateChild, updateChild_nil]

theorem Normal.updateImmediateChild (h : Normal n) (hc : Normal c) (k : κ) :
    Normal (updateImmediateChild k c n) := by
  rw [← updateChild_singleton]
  exact h.updateChild hc [k]

/-- An update with the child that is there changes nothing. -/
theorem updateImmediateChild_self (h : Normal n) (k : κ) :
    updateImmediateChild k (getImmediateChild k n) n = n := by
  rw [← updateChild_singleton]
  exact updateChild_getChild h [k]

/-- The children enumerated are those that are not empty. -/
theorem mem_enumerateChildren (h : Normal n) : (k, c) ∈ n.enumerateChildren ↔
    getImmediateChild k n = c ∧ c.isEmpty = false := by
  cases n with
  | leaf v =>
    rw [enumerateChildren, getImmediateChild]
    constructor
    · exact fun hmem => absurd hmem List.not_mem_nil
    · rintro ⟨he, hne⟩
      rw [← he] at hne
      cases hne
  | children kids =>
    rw [enumerateChildren]
    constructor
    · exact fun hmem => ⟨h.getImmediateChild hmem, (h [] kids rfl).2 _ hmem⟩
    · rintro ⟨he, hne⟩
      rw [getImmediateChild] at he
      cases hget : SortedDict.get k kids with
      | none =>
        rw [hget] at he
        rw [← he] at hne
        cases hne
      | some c' =>
        rw [hget] at he
        exact SortedDict.mem_of_get (hget.trans (congrArg some he))

theorem isEmpty_of_not_enumerated (h : Normal n) (hk : ¬ ∃ e ∈ n.enumerateChildren, e.1 = k) :
    (getImmediateChild k n).isEmpty = true := by
  by_contra hne
  exact hk ⟨(k, _), (mem_enumerateChildren h).2 ⟨rfl, Bool.eq_false_iff.2 hne⟩, rfl⟩

theorem nodup_enumerateChildren (h : Normal n) : (n.enumerateChildren.map Prod.fst).Nodup := by
  cases n with
  | leaf v => exact List.nodup_nil
  | children kids => exact SortedDict.nodup_keys (h [] kids rfl).1

end

end FNode

open FNode

/-! ## One change -/

/-- What a change says of the child before and after; no change says that it is the same. -/
def Says (old new : FNode κ) : Option (FChildChange κ) → Prop
  | none => old = new
  | some (.childAdded node) => old.isEmpty = true ∧ new = node ∧ node.isEmpty = false
  | some (.childRemoved node) => old = node ∧ node.isEmpty = false ∧ new.isEmpty = true
  | some (.childChanged node oldNode) =>
    old = oldNode ∧ new = node ∧ oldNode.isEmpty = false ∧ node.isEmpty = false

/-- The changes say how the children of a node went to those of another. -/
def Turns (changes : FChildChangeAccumulator κ) (old new : FNode κ) : Prop :=
  ∀ key, Says (getImmediateChild key old) (getImmediateChild key new) (SortedDict.get key changes)

theorem turns_nil (n : FNode κ) : Turns [] n n := fun _ => rfl

namespace FChildChangeAccumulator

/-- **Changes compose.** A change of the child that the changes so far have led to is tracked. -/
theorem trackChildChange_says {key : κ} {change : FChildChange κ} {changes : FChildChangeAccumulator κ}
    {old mid new : FNode κ} (hbefore : Says old mid (SortedDict.get key changes))
    (hchange : Says mid new (some change)) :
    ∃ changes', trackChildChange key change changes = .ok changes' ∧
      Says old new (SortedDict.get key changes') ∧
      ∀ key', key' ≠ key → SortedDict.get key' changes' = SortedDict.get key' changes := by
  unfold trackChildChange
  have hset : ∀ change', Says old new (some change') →
      ∃ changes', (Except.ok (SortedDict.set key change' changes) : Except FViewException _) = .ok changes' ∧
        Says old new (SortedDict.get key changes') ∧
        ∀ key', key' ≠ key → SortedDict.get key' changes' = SortedDict.get key' changes := fun change' h =>
    ⟨_, rfl, by rwa [SortedDict.get_set, if_pos rfl], fun key' hne => by rw [SortedDict.get_set, if_neg hne]⟩
  cases hget : SortedDict.get key changes with
  | none =>
    rw [hget] at hbefore
    have hsame : old = mid := hbefore
    exact hset change (hsame ▸ hchange)
  | some oldChange =>
    rw [hget] at hbefore
    have hne : ∀ {n : FNode κ}, n.isEmpty = true → n.isEmpty = false → False := fun h h' => by rw [h] at h'; cases h'
    cases change with
    | childAdded node =>
      obtain ⟨hmid, rfl, hnew⟩ := hchange
      cases oldChange with
      | childAdded _ => exact (hne hmid (hbefore.2.1 ▸ hbefore.2.2)).elim
      | childRemoved oldNode => exact hset _ ⟨hbefore.1, rfl, hbefore.2.1, hnew⟩
      | childChanged _ _ => exact (hne hmid (hbefore.2.1 ▸ hbefore.2.2.2)).elim
    | childRemoved node =>
      obtain ⟨rfl, hmid, hnew⟩ := hchange
      cases oldChange with
      | childAdded _ =>
        refine ⟨_, rfl, ?_, fun key' hne => by rw [SortedDict.get_remove, if_neg hne]⟩
        rw [SortedDict.get_remove, if_pos rfl]
        exact (eq_emptyNode hbefore.1).trans (eq_emptyNode hnew).symm
      | childRemoved _ => exact (hne hbefore.2.2 hmid).elim
      | childChanged _ oldNode => exact hset _ ⟨hbefore.1, hbefore.2.2.1, hnew⟩
    | childChanged node _ =>
      obtain ⟨rfl, rfl, hmid, hnew⟩ := hchange
      cases oldChange with
      | childAdded _ => exact hset _ ⟨hbefore.1, rfl, hnew⟩
      | childRemoved _ => exact (hne hbefore.2.2 hmid).elim
      | childChanged _ oldNode => exact hset _ ⟨hbefore.1, rfl, hbefore.2.2.1, hnew⟩

end FChildChangeAccumulator

/-! ## The filter -/

/-- The assertion that only a debug build makes. -/
def FViewException.OfDebug (debug : Bool) (exception : FViewException) : Prop :=
  debug = true ∧ exception = .snapshotsDiffer

theorem FViewException.not_ofDebug_false (exception : FViewException) : ¬ exception.OfDebug false := fun h =>
  Bool.false_ne_true h.1

namespace FIndexedFilter

open FChildChangeAccumulator Raising

/-- A loop each step of which looks at one key and changes what is tracked for it. -/
theorem foldlM_keys {f : FChildChangeAccumulator κ → κ × FNode κ → Except FViewException (FChildChangeAccumulator κ)}
    {P Q : κ → Option (FChildChange κ) → Prop} {l : List (κ × FNode κ)} (hl : (l.map Prod.fst).Nodup)
    (hstep : ∀ e ∈ l, ∀ changes, P e.1 (SortedDict.get e.1 changes) → ∃ changes', f changes e = .ok changes' ∧
      Q e.1 (SortedDict.get e.1 changes') ∧
        ∀ key, key ≠ e.1 → SortedDict.get key changes' = SortedDict.get key changes)
    {changes : FChildChangeAccumulator κ} (hP : ∀ e ∈ l, P e.1 (SortedDict.get e.1 changes)) :
    ∃ changes', l.foldlM f changes = .ok changes' ∧ (∀ e ∈ l, Q e.1 (SortedDict.get e.1 changes')) ∧
      ∀ key, (∀ e ∈ l, key ≠ e.1) → SortedDict.get key changes' = SortedDict.get key changes := by
  induction l generalizing changes with
  | nil => exact ⟨changes, rfl, by simp, fun _ _ => rfl⟩
  | cons e l ih =>
    rw [List.map_cons, List.nodup_cons] at hl
    have hne : ∀ e' ∈ l, e'.1 ≠ e.1 := fun e' he' heq => hl.1 (heq ▸ List.mem_map_of_mem he')
    obtain ⟨changes₁, h₁, hQ, hother⟩ := hstep e List.mem_cons_self changes (hP e List.mem_cons_self)
    have hP₁ : ∀ e' ∈ l, P e'.1 (SortedDict.get e'.1 changes₁) := fun e' he' => by
      rw [hother e'.1 (hne e' he')]
      exact hP e' (List.mem_cons_of_mem e he')
    obtain ⟨changes', h', hQ', hother'⟩ := ih hl.2 (fun e' he' => hstep e' (List.mem_cons_of_mem e he')) hP₁
    refine ⟨changes', ?_, ?_, fun key hkey => ?_⟩
    · rw [List.foldlM_cons, h₁]
      exact h'
    · intro e' he'
      rcases List.mem_cons.1 he' with rfl | he'
      · rw [hother' e'.1 fun e'' he'' => (hne e'' he'').symm]
        exact hQ
      · exact hQ' e' he'
    · rw [hother' key fun e' he' => hkey e' (List.mem_cons_of_mem e he'), hother key (hkey e List.mem_cons_self)]

section
variable {old node new c : FNode κ} {k : κ} {affectedPath : List κ} {changes : FChildChangeAccumulator κ}
  {debug : Bool}

/-- After the first loop of `updateFullNode:` the children that go are gone. -/
theorem trackOld_loop (new : FNode κ) (hn : node.Normal) (h : Turns changes old node) :
    ∃ changes', node.enumerateChildren.foldlM (trackOld new) changes = .ok changes' ∧
      ∀ key, Says (getImmediateChild key old)
        (if new.hasChild key then getImmediateChild key node else emptyNode) (SortedDict.get key changes') := by
  let P : κ → Option (FChildChange κ) → Prop := fun key x =>
    Says (getImmediateChild key old) (getImmediateChild key node) x
  let Q : κ → Option (FChildChange κ) → Prop := fun key x =>
    Says (getImmediateChild key old) (if new.hasChild key then getImmediateChild key node else emptyNode) x
  have hstep : ∀ e ∈ node.enumerateChildren, ∀ changes₁, P e.1 (SortedDict.get e.1 changes₁) →
      ∃ changes₂, trackOld new changes₁ e = .ok changes₂ ∧ Q e.1 (SortedDict.get e.1 changes₂) ∧
        ∀ key, key ≠ e.1 → SortedDict.get key changes₂ = SortedDict.get key changes₁ := by
    intro e he changes₁ hsays
    obtain ⟨hchild, hfull⟩ := (mem_enumerateChildren hn).1 (show (e.1, e.2) ∈ _ from he)
    simp only [Q]
    unfold trackOld
    by_cases hnew : new.hasChild e.1 = true
    · rw [if_pos hnew, if_pos hnew]
      exact ⟨changes₁, rfl, hsays, fun _ _ => rfl⟩
    · rw [if_neg hnew, if_neg hnew]
      have hremoved : Says (getImmediateChild e.1 node) emptyNode (some (.childRemoved e.2)) := ⟨hchild, hfull, rfl⟩
      exact trackChildChange_says hsays hremoved
  obtain ⟨changes', hloop, hkeys, hother⟩ := foldlM_keys (nodup_enumerateChildren hn) hstep fun e _ => h e.1
  refine ⟨changes', hloop, fun key => ?_⟩
  by_cases hkey : ∃ e ∈ node.enumerateChildren, e.1 = key
  · obtain ⟨e, he, rfl⟩ := hkey
    exact hkeys e he
  · have hsays := h key
    rw [← hother key fun e he heq => hkey ⟨e, he, heq.symm⟩] at hsays
    split
    · exact hsays
    · rwa [eq_emptyNode (isEmpty_of_not_enumerated hn hkey)] at hsays

/-- **A full update turns the children into those of the new node.** -/
theorem updateFullNode_turns (hn : node.Normal) (hnew : new.Normal) (h : Turns changes old node) :
    ∃ changes', updateFullNode node new changes = .ok (new, changes') ∧ Turns changes' old new := by
  obtain ⟨changes₁, hloop₁, h₁⟩ := trackOld_loop new hn h
  let P : κ → Option (FChildChange κ) → Prop := fun key x =>
    Says (getImmediateChild key old) (if new.hasChild key then getImmediateChild key node else emptyNode) x
  let Q : κ → Option (FChildChange κ) → Prop := fun key x =>
    Says (getImmediateChild key old) (getImmediateChild key new) x
  have hstep : ∀ e ∈ new.enumerateChildren, ∀ changes₂, P e.1 (SortedDict.get e.1 changes₂) →
      ∃ changes₃, trackNew node changes₂ e = .ok changes₃ ∧ Q e.1 (SortedDict.get e.1 changes₃) ∧
        ∀ key, key ≠ e.1 → SortedDict.get key changes₃ = SortedDict.get key changes₂ := by
    intro e he changes₂ hsays
    obtain ⟨hchild, hfull⟩ := (mem_enumerateChildren hnew).1 (show (e.1, e.2) ∈ _ from he)
    simp only [P] at hsays
    rw [if_pos (hasChild_eq_true.2 (hchild ▸ hfull))] at hsays
    unfold trackNew
    by_cases hold : node.hasChild e.1 = true
    · rw [if_pos hold]
      have heq : isEqual (getImmediateChild e.1 node) e.2 = true ↔ getImmediateChild e.1 node = e.2 :=
        isEqual_eq_true (hn.getChild [e.1]) (hchild ▸ hnew.getChild [e.1])
      by_cases hsame : getImmediateChild e.1 node = e.2
      · simp only [heq.2 hsame, if_true]
        rw [hsame, ← hchild] at hsays
        exact ⟨changes₂, rfl, hsays, fun _ _ => rfl⟩
      · simp only [Bool.eq_false_iff.2 fun hi => hsame (heq.1 hi), Bool.false_eq_true, if_false]
        have hchanged : Says (getImmediateChild e.1 node) (getImmediateChild e.1 new)
            (some (.childChanged e.2 (getImmediateChild e.1 node))) :=
          ⟨rfl, hchild, hasChild_eq_true.1 hold, hfull⟩
        exact trackChildChange_says hsays hchanged
    · rw [if_neg hold]
      have hadded : Says (getImmediateChild e.1 node) (getImmediateChild e.1 new) (some (.childAdded e.2)) := by
        refine ⟨?_, hchild, hfull⟩
        rw [hasChild_eq_true, Bool.not_eq_false] at hold
        exact hold
      exact trackChildChange_says hsays hadded
  obtain ⟨changes', hloop, hkeys, hother⟩ :=
    foldlM_keys (nodup_enumerateChildren hnew) hstep fun e _ => h₁ e.1
  refine ⟨changes', ?_, fun key => ?_⟩
  · unfold updateFullNode
    rw [hloop₁]
    exact congrArg (· >>= fun changes' => Except.ok (new, changes')) hloop
  · by_cases hkey : ∃ e ∈ new.enumerateChildren, e.1 = key
    · obtain ⟨e, he, rfl⟩ := hkey
      exact hkeys e he
    · have hempty := isEmpty_of_not_enumerated hnew hkey
      have hsays := h₁ key
      rw [if_neg (by rw [hasChild_eq_true, hempty]; exact Bool.noConfusion),
        ← hother key fun e he heq => hkey ⟨e, he, heq.symm⟩] at hsays
      rwa [eq_emptyNode hempty]

/-- What `updateChildIn:` makes of a node: it does not look beside the affected path. -/
def Updated (node : FNode κ) (k : κ) (c : FNode κ) (affectedPath : List κ) (node' : FNode κ) : Prop :=
  node' = updateImmediateChild k c node ∨
    node' = node ∧ getChild affectedPath (getImmediateChild k node) = getChild affectedPath c ∧
      (getImmediateChild k node).isEmpty = c.isEmpty

theorem Updated.normal {node' : FNode κ} (hn : node.Normal) (hc : c.Normal) (h : Updated node k c affectedPath node') :
    node'.Normal := by
  rcases h with rfl | ⟨rfl, -⟩
  · exact hn.updateImmediateChild hc k
  · exact hn

/-- Beside the affected path the child is the same. -/
theorem Updated.eq {node' : FNode κ} (hn : node.Normal)
    (haff : getChild affectedPath (getImmediateChild k node) = getChild affectedPath c →
      (getImmediateChild k node).isEmpty = c.isEmpty → getImmediateChild k node = c)
    (h : Updated node k c affectedPath node') : node' = updateImmediateChild k c node := by
  rcases h with rfl | ⟨rfl, hchild, hempty⟩
  · rfl
  · rw [← haff hchild hempty, updateImmediateChild_self hn]

theorem updateImmediateChild_leaf (hleaf : node.isLeafNode = true) (hc : c.isEmpty = true) :
    updateImmediateChild k c node = node := by
  cases node with
  | leaf v => rw [updateImmediateChild, if_pos hc]
  | children kids => cases hleaf

/-- The changes that are tracked do not matter to the node. -/
theorem updated_of_updateChildIn {node' : FNode κ} {accumulator accumulator' : Option (FChildChangeAccumulator κ)}
    (hn : node.Normal) (hc : c.Normal)
    (h : updateChildIn debug node k c affectedPath accumulator = .ok (node', accumulator')) :
    Updated node k c affectedPath node' := by
  unfold updateChildIn at h
  cases hcond : isEqual (getChild affectedPath (getImmediateChild k node)) (getChild affectedPath c) &&
      (getImmediateChild k node).isEmpty == c.isEmpty with
  | true =>
    rw [Bool.and_eq_true, beq_iff_eq] at hcond
    have hpath := (isEqual_eq_true ((hn.getChild [k]).getChild affectedPath) (hc.getChild affectedPath)).1 hcond.1
    cases hdiffer : debug && !isEqual (getImmediateChild k node) c with
    | true =>
      simp only [hcond.1, hcond.2, hdiffer, beq_self_eq_true, Bool.and_true, if_true] at h
      cases h
    | false =>
      simp only [hcond.1, hcond.2, hdiffer, beq_self_eq_true, Bool.and_true, if_true] at h
      cases h
      exact .inr ⟨rfl, hpath, hcond.2⟩
  | false =>
    simp only [hcond, Bool.false_eq_true, if_false] at h
    cases htrack : trackChild node k (getImmediateChild k node) c accumulator with
    | error e =>
      rw [htrack] at h
      cases h
    | ok tracked =>
      rw [htrack] at h
      cases hleaf : node.isLeafNode && c.isEmpty with
      | true =>
        simp only [hleaf, if_true] at h
        cases h
        rw [Bool.and_eq_true] at hleaf
        exact .inl (updateImmediateChild_leaf hleaf.1 hleaf.2).symm
      | false =>
        simp only [hleaf] at h
        cases h
        exact .inl rfl

omit [LinearOrder κ] in
/-- A child that is the same at the affected path is left alone, or asserted to be the same. -/
theorem gives_unchanged {P : FNode κ × Option (FChildChangeAccumulator κ) → Prop}
    {accumulator : Option (FChildChangeAccumulator κ)} {differ : Bool} (h : P (node, accumulator)) :
    Gives (FViewException.OfDebug debug) P (do
      if debug && differ then throw .snapshotsDiffer
      return (node, accumulator)) := by
  cases hdebug : debug with
  | false => exact h
  | true =>
    cases differ with
    | false => exact h
    | true => exact ⟨rfl, rfl⟩

/-- One child is updated, and its change tracked. -/
theorem updateChildIn_turns (k : κ) (affectedPath : List κ) (hn : node.Normal) (hc : c.Normal)
    (h : Turns changes old node) :
    Gives (FViewException.OfDebug debug)
      (fun r => ∃ changes', r.2 = some changes' ∧ Updated node k c affectedPath r.1 ∧ Turns changes' old r.1)
      (updateChildIn debug node k c affectedPath (some changes)) := by
  unfold updateChildIn
  have hpath : isEqual (getChild affectedPath (getImmediateChild k node)) (getChild affectedPath c) = true ↔
      getChild affectedPath (getImmediateChild k node) = getChild affectedPath c :=
    isEqual_eq_true ((hn.getChild [k]).getChild affectedPath) (hc.getChild affectedPath)
  by_cases hsame : getChild affectedPath (getImmediateChild k node) = getChild affectedPath c ∧
      (getImmediateChild k node).isEmpty = c.isEmpty
  · obtain ⟨hchild, hempty⟩ := hsame
    simp only [hpath.2 hchild, hempty, beq_self_eq_true, Bool.and_true, if_true]
    exact gives_unchanged ⟨changes, rfl, .inr ⟨rfl, hchild, hempty⟩, h⟩
  · have hcond : (isEqual (getChild affectedPath (getImmediateChild k node)) (getChild affectedPath c) &&
        (getImmediateChild k node).isEmpty == c.isEmpty) = false := by
      rw [Bool.eq_false_iff]
      intro hand
      rw [Bool.and_eq_true, beq_iff_eq] at hand
      exact hsame ⟨hpath.1 hand.1, hand.2⟩
    have hne : getImmediateChild k node ≠ c := fun heq => hsame ⟨by rw [heq], by rw [heq]⟩
    have hnode : updateImmediateChild k c node = node → False := fun heq => hne (by
      have hget := getImmediateChild_updateImmediateChild k k c node
      rwa [if_pos rfl, heq] at hget)
    -- the change is one of the child that is there
    obtain ⟨changes', htrack, hsays, hkept⟩ : ∃ changes',
        trackChild node k (getImmediateChild k node) c (some changes) = .ok (some changes') ∧
          Says (getImmediateChild k old) c (SortedDict.get k changes') ∧
          ∀ key, key ≠ k → SortedDict.get key changes' = SortedDict.get key changes := by
      have htracked : ∀ change, Says (getImmediateChild k node) c (some change) →
          ∃ changes', some <$> trackChildChange k change changes = .ok (some changes') ∧
            Says (getImmediateChild k old) c (SortedDict.get k changes') ∧
            ∀ key, key ≠ k → SortedDict.get key changes' = SortedDict.get key changes := fun change hsays => by
        obtain ⟨changes', htrack, hsays', hkept⟩ := trackChildChange_says (h k) hsays
        exact ⟨changes', by rw [htrack]; rfl, hsays', hkept⟩
      unfold trackChild
      cases hempty : c.isEmpty with
      | true =>
        have hold : (getImmediateChild k node).isEmpty = false := by
          rw [← Bool.not_eq_true]
          exact fun he => hne ((eq_emptyNode he).trans (eq_emptyNode hempty).symm)
        simp only [if_true, hasChild_eq_true.2 hold]
        exact htracked _ ⟨rfl, hold, hempty⟩
      | false =>
        simp only [Bool.false_eq_true, if_false]
        cases hold : (getImmediateChild k node).isEmpty with
        | true =>
          simp only [if_true]
          exact htracked _ ⟨hold, rfl, hempty⟩
        | false =>
          simp only [Bool.false_eq_true, if_false]
          exact htracked _ ⟨rfl, rfl, hold, hempty⟩
    have hturns : Turns changes' old (updateImmediateChild k c node) := fun key => by
      rw [getImmediateChild_updateImmediateChild]
      split
      · rename_i hk
        rw [hk]
        exact hsays
      · rename_i hk
        rw [hkept key hk]
        exact h key
    simp only [hcond, htrack, Bool.false_eq_true, if_false]
    cases hleaf : node.isLeafNode && c.isEmpty with
    | true =>
      rw [Bool.and_eq_true] at hleaf
      exact absurd (updateImmediateChild_leaf hleaf.1 hleaf.2) hnode
    | false => exact ⟨changes', rfl, .inl rfl, hturns⟩

/-- Without an accumulator the node is updated in the same way. -/
theorem updateChildIn_untracked (k : κ) (affectedPath : List κ) (hn : node.Normal) (hc : c.Normal) :
    Gives (FViewException.OfDebug debug) (fun r => Updated node k c affectedPath r.1)
      (updateChildIn debug node k c affectedPath none) := by
  have hupdate : Gives (FViewException.OfDebug debug) (fun _ => True)
      (updateChildIn debug node k c affectedPath none) := by
    unfold updateChildIn
    simp only [trackChild]
    split
    · exact gives_unchanged trivial
    · cases hleaf : node.isLeafNode && c.isEmpty with
      | true => exact trivial
      | false => exact trivial
  cases hr : updateChildIn debug node k c affectedPath none with
  | error exception =>
    rw [hr] at hupdate
    exact hupdate
  | ok r => exact updated_of_updateChildIn hn hc hr

/-- Where the child is the same beside the affected path too, a debug build does what a release build does. -/
theorem updateChildIn_release {accumulator : Option (FChildChangeAccumulator κ)} (hn : node.Normal) (hc : c.Normal)
    (haff : getChild affectedPath (getImmediateChild k node) = getChild affectedPath c →
      (getImmediateChild k node).isEmpty = c.isEmpty → getImmediateChild k node = c) :
    updateChildIn debug node k c affectedPath accumulator =
      updateChildIn false node k c affectedPath accumulator := by
  unfold updateChildIn
  cases hcond : isEqual (getChild affectedPath (getImmediateChild k node)) (getChild affectedPath c) &&
      (getImmediateChild k node).isEmpty == c.isEmpty with
  | false => simp only [hcond, Bool.false_eq_true, if_false]
  | true =>
    rw [Bool.and_eq_true, beq_iff_eq] at hcond
    have hpath := (isEqual_eq_true ((hn.getChild [k]).getChild affectedPath) (hc.getChild affectedPath)).1 hcond.1
    have hsame : isEqual (getImmediateChild k node) c = true :=
      (isEqual_eq_true (hn.getChild [k]) hc).2 (haff hpath hcond.2)
    simp only [hsame, Bool.not_true, Bool.and_false]

end

end FIndexedFilter

end ShopingList
