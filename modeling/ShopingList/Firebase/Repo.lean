import ShopingList.Firebase.Acknowledged
import Mathlib.Logic.Relation
import Mathlib.Data.List.Infix

/-!
# The local view

The writes of a client and their acknowledgements, as `FRepo` passes them to the
write tree. In every state that such steps reach the visible writes are the layer of
the pending ones (`visibleWrites_of_reachable`), so the snapshot of a path is that of
the server with the pending writes made one after the other
(`eventCache_of_reachable`). The view stays as it is when the data of the oldest write
arrives and when the write is acknowledged (`eventCache_acknowledged`).
-/

namespace ShopingList

open FNode

open FImmutableTree hiding node child children

/-! ## Snapshots -/

variable {κ : Type} [LinearOrder κ]

namespace FWriteTree

section
variable {tree : FWriteTree κ} {server : FNode κ}

theorem eq_empty_of_isEmpty {w : FCompoundWrite κ} (h : w.isEmpty = true) (n : FNode κ) : w.applyToNode n = n := by
  unfold FCompoundWrite.applyToNode
  rw [eq_empty h]
  rfl

/-- A complete write decides what the server does not. -/
theorem getChild_of_complete (h : Compound tree.visibleWrites.writeTree) {path : List κ} {node : FNode κ}
    (hc : tree.visibleWrites.completeNodeAtPath path = some node) (n : FNode κ) :
    getChild path (tree.visibleWrites.applyToNode n) = node := by
  rw [FCompoundWrite.completeNodeAtPath_eq] at hc
  rw [FCompoundWrite.getChild_applyToNode h, FCompoundWrite.applyToNode,
    FCompoundWrite.writeTree_childCompoundWriteAtPath h]
  exact FCompoundWrite.applySubtreeWrite_of_value hc

/-- The branch for the snapshots of the views, which exclude no write and show no hidden one. -/
theorem eventCache_visible (treePath : List κ) (cache : Option (FNode κ)) :
    tree.calculateCompleteEventCacheAtPath treePath cache none false =
      match tree.visibleWrites.completeNodeAtPath treePath with
      | some shadowingNode => some shadowingNode
      | none =>
        let subMerge := tree.visibleWrites.childCompoundWriteAtPath treePath
        if subMerge.isEmpty then cache
        else if cache.isNone && !subMerge.hasCompleteWriteAtPath [] then none
        else some (subMerge.applyToNode (cache.getD emptyNode)) := rfl

/-- The snapshot at a path is that path of the server with the visible writes. -/
theorem eventCache_eq (h : Compound tree.visibleWrites.writeTree) (treePath : List κ) :
    tree.calculateCompleteEventCacheAtPath treePath (some (getChild treePath server)) none false =
      some (getChild treePath (tree.visibleWrites.applyToNode server)) := by
  rw [eventCache_visible]
  cases hc : tree.visibleWrites.completeNodeAtPath treePath with
  | some node => rw [getChild_of_complete h hc]
  | none =>
    rw [FCompoundWrite.getChild_applyToNode h]
    simp only [Option.isNone_some, Bool.false_and, Bool.false_eq_true, if_false, Option.getD_some]
    split
    · rename_i he
      rw [eq_empty_of_isEmpty he]
    · rfl

end

end FWriteTree

/-! ## Writes made twice -/

namespace FNode

section
variable {n : FNode κ} {writes : List (List κ × FNode κ)}

/-- A write of what is there changes nothing. -/
theorem updateChild_getChild (h : Normal n) (p : List κ) : updateChild (getChild p n) p n = n := by
  refine (h.updateChild (h.getChild p) p).ext h fun q => ?_
  by_cases hp : p <+: q
  · obtain ⟨r, rfl⟩ := hp
    rw [leafAt_updateChild_below, leafAt_append]
  · by_cases hq : q <+: p
    · obtain ⟨r, rfl⟩ := hq
      unfold leafAt
      rw [getChild_updateChild]
      cases r with
      | nil => exact absurd (by simp) hp
      | cons k r =>
        rw [leafValue_updateChild_cons, getChild_append]
        split
        · rfl
        · rename_i hne
          cases hleaf : getChild q n with
          | children kids => rfl
          | leaf v =>
            rw [hleaf, getChild_leaf_cons] at hne
            exact absurd isEmpty_emptyNode hne
    · unfold leafAt
      rw [getChild_updateChild_of_ne hp hq]

theorem Normal.writeAll (h : Normal n) (hw : ∀ e ∈ writes, e.2.Normal) : Normal (writeAll writes n) := by
  induction writes generalizing n with
  | nil => exact h
  | cons e writes ih =>
    exact ih (h.updateChild (hw e List.mem_cons_self) e.1) fun e' he' => hw e' (List.mem_cons_of_mem e he')

theorem writeAll_cons (e : List κ × FNode κ) (writes : List (List κ × FNode κ)) (n : FNode κ) :
    writeAll (e :: writes) n = writeAll writes (updateChild e.2 e.1 n) := rfl

theorem writeAll_append (writes writes' : List (List κ × FNode κ)) (n : FNode κ) :
    writeAll (writes ++ writes') n = writeAll writes' (writeAll writes n) := List.foldl_append ..

theorem getChild_writeAll_of_apart {p : List κ} (h : ∀ e ∈ writes, Incomparable e.1 p) :
    getChild p (writeAll writes n) = getChild p n := by
  induction writes generalizing n with
  | nil => rfl
  | cons e writes ih =>
    have he := h e List.mem_cons_self
    rw [writeAll_cons, ih fun e' he' => h e' (List.mem_cons_of_mem e he'), getChild_updateChild_of_ne he.1 he.2]

/-- Nodes written apart from each other are there afterwards. -/
theorem getChild_writeAll (h : (writes.map Prod.fst).Pairwise Incomparable) {e : List κ × FNode κ} (he : e ∈ writes) :
    getChild e.1 (writeAll writes n) = e.2 := by
  induction writes generalizing n with
  | nil => cases he
  | cons e' writes ih =>
    rw [List.map_cons, List.pairwise_cons] at h
    rcases List.mem_cons.1 he with rfl | he
    · have happ : ∀ e' ∈ writes, Incomparable e'.1 e.1 := fun e' he' =>
        ⟨(h.1 e'.1 (List.mem_map_of_mem he')).2, (h.1 e'.1 (List.mem_map_of_mem he')).1⟩
      rw [writeAll_cons, getChild_writeAll_of_apart happ, getChild_updateChild_self]
    · exact ih h.2 he

theorem writeAll_of_getChild (hn : Normal n) (h : ∀ e ∈ writes, getChild e.1 n = e.2) : writeAll writes n = n := by
  induction writes with
  | nil => rfl
  | cons e writes ih =>
    have he : updateChild e.2 e.1 n = n := by
      rw [← h e List.mem_cons_self]
      exact updateChild_getChild hn e.1
    rw [writeAll_cons, he]
    exact ih fun e' he' => h e' (List.mem_cons_of_mem e he')

/-- Writes that are apart from each other do nothing the second time. -/
theorem writeAll_twice (hn : Normal n) (hw : ∀ e ∈ writes, e.2.Normal)
    (h : (writes.map Prod.fst).Pairwise Incomparable) : writeAll writes (writeAll writes n) = writeAll writes n :=
  writeAll_of_getChild (hn.writeAll hw) fun _ he => getChild_writeAll h he

/-- Off the written paths a text stays, or it makes room. -/
theorem leafAt_writeAll_off {q : List κ} (h : ∀ e ∈ writes, ¬ e.1 <+: q) :
    leafAt q (writeAll writes n) = leafAt q n ∨ leafAt q (writeAll writes n) = none := by
  induction writes generalizing n with
  | nil => exact .inl rfl
  | cons e writes ih =>
    rcases ih (n := updateChild e.2 e.1 n) fun e' he' => h e' (List.mem_cons_of_mem e he') with hsame | hnone
    · rcases leafAt_updateChild_off e.2 (h e List.mem_cons_self) n with ho | ho
      · exact .inl (hsame.trans ho)
      · exact .inr (hsame.trans ho)
    · exact .inr hnone

theorem writable_of_not_isEmpty (h : ∀ e ∈ writes, e.2.isEmpty = false) : Writable n writes := by
  rintro old e new rfl he
  rw [h e (by simp)] at he
  cases he

/-- The first writes put no text in the way of the removals. -/
theorem Writable.writeAll {writes' : List (List κ × FNode κ)} (h : Writable n (writes ++ writes'))
    (happ : (writes.map Prod.fst).Pairwise Incomparable) : Writable (writeAll writes n) (writes ++ writes') := by
  intro old e new hsplit he q hq hne
  rcases h old e new hsplit he q hq hne with hnone | hcover
  · by_cases hc : ∃ e' ∈ old, e'.1 <+: q
    · exact .inr hc
    · left
      have hoff : ∀ e' ∈ writes, ¬ e'.1 <+: q := by
        intro e' he' hpre
        have hmem : e' ∈ old ++ e :: new := hsplit ▸ List.mem_append_left writes' he'
        rcases List.mem_append.1 hmem with hold | hnew
        · exact hc ⟨e', hold, hpre⟩
        · -- then the removal is one of the first writes itself
          rcases List.append_eq_append_iff.1 hsplit with ⟨rest, hold, hrest⟩ | ⟨rest, hwrites, hrest⟩
          · exact hc ⟨e', hold ▸ List.mem_append_left rest he', hpre⟩
          · cases rest with
            | nil =>
              rw [List.append_nil] at hwrites
              exact hc ⟨e', hwrites ▸ he', hpre⟩
            | cons x rest =>
              rw [List.cons_append] at hrest
              cases hrest
              rw [hwrites, List.map_append, List.map_cons, List.pairwise_append, List.pairwise_cons] at happ
              rw [hwrites] at he'
              rcases List.mem_append.1 he' with he' | he'
              · exact hc ⟨e', he', hpre⟩
              · rcases List.mem_cons.1 he' with rfl | he'
                · exact hne (hq.eq_of_length (Nat.le_antisymm hq.length_le hpre.length_le))
                · exact (happ.2.1.1 e'.1 (List.mem_map_of_mem he')).2 (hpre.trans hq)
      rcases leafAt_writeAll_off (n := n) hoff with ho | ho
      · rw [ho, hnone]
      · exact ho
  · exact .inr hcover

end

end FNode

/-! ## Runs -/

/-- The part of `FRepo` that the writes of the user go through. -/
structure FRepo (κ : Type) where
  pendingWriteTree : FWriteTree κ
  writeIdCounter : Int

namespace FRepo

def init : FRepo κ := ⟨.init, 0⟩

def set (path : List κ) (node : FNode κ) (repo : FRepo κ) : Except FWriteTreeAssertion (FRepo κ) := do
  let writeId := repo.writeIdCounter
  let tree ← repo.pendingWriteTree.addOverwriteAtPath path node writeId true
  return ⟨tree, writeId + 1⟩

/-- An update with empty data does nothing. -/
def update (path : List κ) (nodes : FCompoundWrite κ) (repo : FRepo κ) : Except FWriteTreeAssertion (FRepo κ) := do
  if nodes.isEmpty then return repo
  let writeId := repo.writeIdCounter
  let tree ← repo.pendingWriteTree.addMergeAtPath path nodes writeId
  return ⟨tree, writeId + 1⟩

def ackWrite (writeId : Int) (repo : FRepo κ) : Except FWriteTreeAssertion (FRepo κ) := do
  let (_, tree) ← repo.pendingWriteTree.removeWriteId writeId
  return { repo with pendingWriteTree := tree }

/-- A write by the user, or the answer of the server to one: no older pending write covers
a path of it, as when the answers come in the order of the writes. -/
inductive Step : FRepo κ → FRepo κ → Prop where
  | set {repo repo' : FRepo κ} {path : List κ} {node : FNode κ} (normal : node.Normal)
      (h : repo.set path node = .ok repo') : Step repo repo'
  | update {repo repo' : FRepo κ} {path : List κ} {nodes : FCompoundWrite κ}
      (compound : Compound nodes.writeTree) (children : ∀ p ∈ forEach nodes.writeTree, p.1.length ≤ 1)
      (h : repo.update path nodes = .ok repo') : Step repo repo'
  | ack {repo repo' : FRepo κ} {writeId : Int}
      (older : ∀ before w after, repo.pendingWriteTree.allWrites = before ++ w :: after →
        w.writeId = writeId → FWriteTree.NoneOlderAbove before w)
      (h : repo.ackWrite writeId = .ok repo') : Step repo repo'

def Reachable : FRepo κ → Prop := Relation.ReflTransGen Step init

/-- What every step keeps. -/
structure Inv (repo : FRepo κ) : Prop where
  layered : repo.pendingWriteTree.Layered
  counter : repo.pendingWriteTree.lastWriteId < repo.writeIdCounter
  positive : 0 ≤ repo.writeIdCounter

section
variable {repo repo' : FRepo κ}

/-- No assertion fails on a new write. -/
theorem Inv.set (h : Inv repo) {path : List κ} {node : FNode κ} (hn : node.Normal) :
    ∃ repo', repo.set path node = .ok repo' ∧ Inv repo' := by
  obtain ⟨tree, htree, hlayered, hlast⟩ := h.layered.addOverwrite path hn h.counter
  have hpos := h.positive
  refine ⟨⟨tree, repo.writeIdCounter + 1⟩, ?_, hlayered, ?_, ?_⟩
  · unfold FRepo.set
    simp only [htree]
    rfl
  · simp only
    omega
  · simp only
    omega

theorem Inv.update (h : Inv repo) {path : List κ} {nodes : FCompoundWrite κ}
    (hc : Compound nodes.writeTree) (hs : ∀ p ∈ forEach nodes.writeTree, p.1.length ≤ 1) :
    ∃ repo', repo.update path nodes = .ok repo' ∧ Inv repo' := by
  unfold FRepo.update
  cases hempty : nodes.isEmpty with
  | true => exact ⟨repo, rfl, h⟩
  | false =>
    obtain ⟨tree, htree, hlayered, hlast⟩ := h.layered.addMerge path hc hs h.counter
    have hpos := h.positive
    refine ⟨⟨tree, repo.writeIdCounter + 1⟩, ?_, hlayered, ?_, ?_⟩
    · simp only [htree]
      rfl
    · simp only
      omega
    · simp only
      omega

theorem Inv.ack (h : Inv repo) {writeId : Int}
    (older : ∀ before w after, repo.pendingWriteTree.allWrites = before ++ w :: after →
      w.writeId = writeId → FWriteTree.NoneOlderAbove before w)
    (hack : repo.ackWrite writeId = .ok repo') : Inv repo' := by
  unfold ackWrite at hack
  cases hremove : repo.pendingWriteTree.removeWriteId writeId with
  | error e =>
    rw [hremove] at hack
    cases hack
  | ok p =>
    obtain ⟨answer, tree⟩ := p
    rw [hremove] at hack
    cases hack
    obtain ⟨hlayered, hlast⟩ := h.layered.removeWriteId hremove older
    have hcounter := h.counter
    have hpos := h.positive
    refine ⟨hlayered, ?_, hpos⟩
    simp only
    omega

theorem inv_of_reachable (h : Reachable repo) : Inv repo := by
  induction h with
  | refl =>
    refine ⟨FWriteTree.layered_init, ?_, ?_⟩
    · simp [init, FWriteTree.init]
    · simp [init]
  | tail _ hstep ih =>
    cases hstep with
    | set hn h =>
      obtain ⟨repo', h', hinv⟩ := ih.set hn
      rw [h] at h'
      cases h'
      exact hinv
    | update hc hs h =>
      obtain ⟨repo', h', hinv⟩ := ih.update hc hs
      rw [h] at h'
      cases h'
      exact hinv
    | ack older h => exact ih.ack older h

omit [LinearOrder κ] in
/-- The oldest write is the one with its id. -/
theorem eq_oldest {w w' : FWriteRecord κ} {before after rest : List (FWriteRecord κ)}
    (hids : ((w :: rest).map (·.writeId)).Pairwise (· < ·)) (h : w :: rest = before ++ w' :: after)
    (hid : w'.writeId = w.writeId) : before = [] ∧ after = rest := by
  cases before with
  | nil =>
    cases h
    exact ⟨rfl, rfl⟩
  | cons b before =>
    rw [List.cons_append] at h
    cases h
    rw [List.map_cons, List.pairwise_cons] at hids
    have := hids.1 w'.writeId (List.mem_map_of_mem (by simp))
    omega

/-- No write is older than the oldest. -/
theorem none_older_oldest (h : Reachable repo) {w : FWriteRecord κ} {rest : List (FWriteRecord κ)}
    (hall : repo.pendingWriteTree.allWrites = w :: rest) :
    ∀ before w' after, repo.pendingWriteTree.allWrites = before ++ w' :: after → w'.writeId = w.writeId →
      FWriteTree.NoneOlderAbove before w' := by
  intro before w' after hsplit hid
  have hids := (inv_of_reachable h).layered.ids
  rw [hall] at hids hsplit
  rw [(eq_oldest hids hsplit hid).1]
  intro p hp
  cases hp

theorem Reachable.set (h : Reachable repo) (path : List κ) {node : FNode κ} (hn : node.Normal)
    (hset : repo.set path node = .ok repo') : Reachable repo' := h.tail (.set hn hset)

/-- The answer to the oldest write can come at any time. -/
theorem Reachable.ackOldest (h : Reachable repo) {w : FWriteRecord κ} {rest : List (FWriteRecord κ)}
    (hall : repo.pendingWriteTree.allWrites = w :: rest) (hack : repo.ackWrite w.writeId = .ok repo') :
    Reachable repo' := h.tail (.ack (none_older_oldest h hall) hack)

/-- **In every reachable state the visible writes are what building them from scratch gives.** -/
theorem visibleWrites_of_reachable (h : Reachable repo) :
    repo.pendingWriteTree.visibleWrites =
      FWriteTree.layerTreeFromWrites repo.pendingWriteTree.allWrites FWriteTree.defaultFilter [] :=
  (inv_of_reachable h).layered.visible

/-- Two writes, and the answer to the first. -/
theorem visibleWrites_of_reachable_two : ∃ r₁ r₂ r₃ : FRepo String,
    init.set ["a"] (.leaf "x") = .ok r₁ ∧ r₁.set ["c", "b"] (.leaf "y") = .ok r₂ ∧ r₂.ackWrite 0 = .ok r₃ ∧
      r₃.pendingWriteTree.visibleWrites =
        FWriteTree.layerTreeFromWrites r₃.pendingWriteTree.allWrites FWriteTree.defaultFilter [] := by
  have h₁ : Reachable (init : FRepo String) := .refl
  have h₂ := h₁.set ["a"] (normal_leaf "x") rfl
  have h₃ := h₂.set ["c", "b"] (normal_leaf "y") rfl
  exact ⟨_, _, _, rfl, rfl, rfl, visibleWrites_of_reachable (h₃.ackOldest rfl rfl)⟩

theorem applyToNode_of_inv (h : Inv repo) {server : FNode κ} (hs : server.Normal)
    (hw : server.Writable repo.pendingWriteTree.pending) :
    repo.pendingWriteTree.visibleWrites.applyToNode server =
      server.writeAll repo.pendingWriteTree.pending := by
  unfold FCompoundWrite.applyToNode
  rw [h.layered.visible, FWriteTree.writeTree_layerTreeFromWrites h.layered.plain]
  exact FCompoundWrite.applySubtreeWrite_layers hs (FWriteTree.normal_writes h.layered.plain) hw

theorem eventCache_of_inv (h : Inv repo) {server : FNode κ} (hs : server.Normal)
    (hw : server.Writable repo.pendingWriteTree.pending) (treePath : List κ) :
    repo.pendingWriteTree.calculateCompleteEventCacheAtPath treePath (some (getChild treePath server)) none
        false =
      some (getChild treePath (server.writeAll repo.pendingWriteTree.pending)) := by
  rw [FWriteTree.eventCache_eq h.layered.compound, applyToNode_of_inv h hs hw]

/-- **The view is the server with the pending writes made one after the other.** -/
theorem eventCache_of_reachable (h : Reachable repo) {server : FNode κ} (hs : server.Normal)
    (hw : server.Writable repo.pendingWriteTree.pending) (treePath : List κ) :
    repo.pendingWriteTree.calculateCompleteEventCacheAtPath treePath (some (getChild treePath server)) none
        false =
      some (getChild treePath (server.writeAll repo.pendingWriteTree.pending)) :=
  eventCache_of_inv (inv_of_reachable h) hs hw treePath

/-- A list that is written and removed again before the server answers. -/
theorem eventCache_of_reachable_list : ∃ r₁ r₂ : FRepo String,
    init.set ["user", "lists"] (.children [("Food", .leaf "x")]) = .ok r₁ ∧
      r₁.set ["user", "lists", "Food"] emptyNode = .ok r₂ ∧
      r₂.pendingWriteTree.calculateCompleteEventCacheAtPath ["user"]
          (some (getChild ["user"] (updateChild (.leaf "Ann") ["user", "name"] emptyNode))) none false =
        some (.children [("name", .leaf "Ann")]) := by
  have h₁ : Reachable (init : FRepo String) := .refl
  have hlist : (FNode.children [("Food", .leaf "x")]).Normal :=
    normal_emptyNode.updateChild (normal_leaf "x") ["Food"]
  have h₂ := h₁.set ["user", "lists"] hlist rfl
  have h₃ := h₂.set ["user", "lists", "Food"] normal_emptyNode rfl
  have hserver : (updateChild (.leaf "Ann") ["user", "name"] emptyNode).Normal :=
    normal_emptyNode.updateChild (normal_leaf "Ann") _
  refine ⟨_, _, rfl, rfl, eventCache_of_reachable h₃ hserver ?_ ["user"]⟩
  -- the removal goes through nodes with children, and through the list just written
  rintro old e new hsplit he q hq hne
  have hsplit : [(["user", "lists"], FNode.children [("Food", .leaf "x")]),
      (["user", "lists", "Food"], emptyNode)] = old ++ e :: new := hsplit
  cases old with
  | nil =>
    cases hsplit
    cases he
  | cons e' old =>
    cases old with
    | nil =>
      cases hsplit
      have hmem := (List.mem_inits q _).2 hq
      simp only [List.inits, List.map_cons, List.map_nil, List.mem_cons, List.not_mem_nil, or_false] at hmem
      rcases hmem with rfl | rfl | rfl | rfl
      · exact .inl rfl
      · exact .inl rfl
      · exact .inr ⟨_, List.mem_cons_self, List.prefix_rfl⟩
      · exact absurd rfl hne
    | cons e'' old =>
      have hlen := congrArg List.length hsplit
      simp only [List.length_cons, List.length_append, List.length_nil] at hlen
      omega

/-- The snapshot at a path, given the data of the server. -/
def view (treePath : List κ) (server : FNode κ) (repo : FRepo κ) : Option (FNode κ) :=
  repo.pendingWriteTree.calculateCompleteEventCacheAtPath treePath (some (getChild treePath server)) none false

theorem pending_set {path : List κ} {node : FNode κ} (hset : repo.set path node = .ok repo') :
    repo'.pendingWriteTree.pending = repo.pendingWriteTree.pending ++ [(path, node)] := by
  unfold FRepo.set FWriteTree.addOverwriteAtPath at hset
  by_cases hid : repo.writeIdCounter > repo.pendingWriteTree.lastWriteId
  · simp only [decide_eq_true hid] at hset
    cases hset
    exact List.flatMap_append
  · simp only [decide_eq_false hid] at hset
    cases hset

/-- **Offline, too, the view takes a write as the database would.** -/
theorem view_set {repo repo' : FRepo String} (h : Reachable repo) {path : List String} {node server : FNode}
    (hs : server.Normal)
    (value : FNode) (hnode : nodeFrom value = .ok node) (hn : node.Normal) (hset : repo.set path node = .ok repo')
    (hw : server.Writable repo'.pendingWriteTree.pending) :
    ∃ db db', repo.view [] server = some db ∧ FNode.setValue path value db = .ok db' ∧
      repo'.view [] server = some db' := by
  have hpending := pending_set hset
  have hbefore : server.Writable repo.pendingWriteTree.pending := by
    rw [hpending] at hw
    exact hw.left
  refine ⟨_, _, eventCache_of_inv (inv_of_reachable h) hs hbefore [], ?_,
    eventCache_of_inv (inv_of_reachable (h.set path hn hset)) hs hw []⟩
  rw [FNode.setValue, hnode, hpending, writeAll_append]
  rfl

/-- A list with two items, written below a user. -/
theorem view_set_list : ∃ r db db', init.set ["user", "Food"] (.children [("Bread", .leaf "1"), ("Milk", .leaf "2")]) =
      .ok r ∧ init.view [] (.children [("name", .leaf "Ann")]) = some db ∧
    FNode.setValue ["user", "Food"] (.children [("Bread", .leaf "1"), ("Milk", .leaf "2")]) db = .ok db' ∧
      r.view [] (.children [("name", .leaf "Ann")]) = some db' := by
  have hserver : (FNode.children [("name", .leaf "Ann")]).Normal :=
    normal_emptyNode.updateChild (normal_leaf "Ann") ["name"]
  have hlist : (FNode.children [("Bread", .leaf "1"), ("Milk", .leaf "2")]).Normal :=
    (normal_emptyNode.updateChild (normal_leaf "2") ["Milk"]).updateChild (normal_leaf "1") ["Bread"]
  have hset : init.set ["user", "Food"] (.children [("Bread", .leaf "1"), ("Milk", .leaf "2")]) = .ok _ := rfl
  have hnode : nodeFrom (.children [("Bread", .leaf "1"), ("Milk", .leaf "2")]) =
      .ok (.children [("Bread", .leaf "1"), ("Milk", .leaf "2")]) := by rfl
  obtain ⟨db, db', hdb, hwrite, hdb'⟩ := view_set .refl hserver _ hnode hlist hset
    (writable_of_not_isEmpty (by decide))
  exact ⟨_, db, db', hset, hdb, hwrite, hdb'⟩

/-- **The answer to the oldest write.** The view stays when the data of the write arrives,
and when the write goes after that. -/
theorem eventCache_acknowledged (h : Reachable repo) {w : FWriteRecord κ} {rest : List (FWriteRecord κ)}
    (hall : repo.pendingWriteTree.allWrites = w :: rest) {server : FNode κ} (hs : server.Normal)
    (hw : server.Writable repo.pendingWriteTree.pending)
    (hleft : (server.writeAll w.writes).Writable (rest.flatMap FWriteRecord.writes))
    (hack : repo.ackWrite w.writeId = .ok repo') (treePath : List κ) :
    repo.view treePath (server.writeAll w.writes) = repo.view treePath server ∧
      repo'.view treePath (server.writeAll w.writes) = repo.view treePath server := by
  have hlayered := (inv_of_reachable h).layered
  have hplain : w.Plain := hlayered.plain w (by rw [hall]; exact List.mem_cons_self)
  have hpending : repo.pendingWriteTree.pending = w.writes ++ rest.flatMap FWriteRecord.writes := by
    rw [FWriteTree.pending, hall, List.flatMap_cons]
  have hids := hlayered.ids
  rw [hall] at hids
  have hs' : (server.writeAll w.writes).Normal := hs.writeAll hplain.normal
  have hw' : (server.writeAll w.writes).Writable repo.pendingWriteTree.pending := by
    rw [hpending] at hw ⊢
    exact hw.writeAll hplain.apart
  have htwice : (server.writeAll w.writes).writeAll w.writes = server.writeAll w.writes :=
    writeAll_twice hs hplain.normal hplain.apart
  have hgone : Reachable repo' := h.ackOldest hall hack
  have hrest : repo'.pendingWriteTree.pending = rest.flatMap FWriteRecord.writes := by
    unfold ackWrite at hack
    cases hremove : repo.pendingWriteTree.removeWriteId w.writeId with
    | error e =>
      rw [hremove] at hack
      cases hack
    | ok p =>
      obtain ⟨answer, tree⟩ := p
      rw [hremove] at hack
      cases hack
      obtain ⟨before, w', after, hsplit, hid, hcases⟩ := FWriteTree.removeWriteId_cases hremove
      rw [hall] at hsplit
      obtain ⟨rfl, rfl⟩ := eq_oldest hids hsplit hid
      rcases hcases with ⟨-, -, rfl⟩ | ⟨-, -, rfl⟩ | ⟨-, -, rfl⟩ <;> rfl
  unfold view
  have hinv := inv_of_reachable h
  rw [eventCache_of_inv hinv hs hw, eventCache_of_inv hinv hs' hw',
    eventCache_of_inv (inv_of_reachable hgone) hs' (hrest ▸ hleft), hrest, hpending, writeAll_append,
    writeAll_append, htwice]
  exact ⟨rfl, rfl⟩

/-- The answer to the first of two writes. -/
theorem eventCache_acknowledged_two : ∃ r₁ r₂ r₃ : FRepo String,
    init.set ["a"] (.leaf "x") = .ok r₁ ∧ r₁.set ["a", "b"] (.leaf "y") = .ok r₂ ∧ r₂.ackWrite 0 = .ok r₃ ∧
      r₂.view [] (.children [("a", .leaf "x")]) = r₂.view [] emptyNode ∧
      r₃.view [] (.children [("a", .leaf "x")]) = r₂.view [] emptyNode := by
  have h₁ : Reachable (init : FRepo String) := .refl
  have h₂ := h₁.set ["a"] (normal_leaf "x") rfl
  have h₃ := h₂.set ["a", "b"] (normal_leaf "y") rfl
  refine ⟨_, _, _, rfl, rfl, rfl, eventCache_acknowledged h₃ rfl normal_emptyNode ?_ ?_ rfl []⟩
  · exact writable_of_not_isEmpty (by decide)
  · exact writable_of_not_isEmpty (by decide)

end

end FRepo

end ShopingList
