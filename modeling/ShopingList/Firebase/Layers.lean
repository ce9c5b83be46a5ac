import ShopingList.Firebase.CompoundWrite
import Mathlib.Data.List.Induction

/-!
# Layers and their writes

`layers` are the trees that writes build up one after the other; applied to a node
they do what the writes do (`applySubtreeWrite_layers`). Two trees that are
the same but for the subtree at `p` (`SameBut p`) stay so under every write that is not
at `p` or above it, and become equal under one that is. So a write that a later one
covers leaves no trace (`layers_covered`), and one that stands apart from all others
can be cut out of the tree (`setTree_layers`).
-/

namespace ShopingList

variable {κ : Type} [LinearOrder κ]

namespace FImmutableTree

/-- The tree of the writes. -/
def layers (writes : List (List κ × FNode κ)) (t : FImmutableTree κ (FNode κ)) : FImmutableTree κ (FNode κ) :=
  writes.foldl (fun t p => layer p.2 p.1 t) t

/-- Two paths, none of which contains the other. -/
def Incomparable (p q : List κ) : Prop := ¬ p <+: q ∧ ¬ q <+: p

/-- No value strictly above the path. -/
def FreeAbove (p : List κ) (t : FImmutableTree κ (FNode κ)) : Prop :=
  ∀ q, q <+: p → q ≠ p → valueAtPath q t = none

/-- The trees differ at most in the subtree at the path, and hold no value above it. -/
def SameBut : List κ → FImmutableTree κ (FNode κ) → FImmutableTree κ (FNode κ) → Prop
  | [], _, _ => True
  | k :: p, t, s =>
    t.value = none ∧ s.value = none ∧ SameBut p (child k t) (child k s) ∧
      ∀ k', k' ≠ k → child k' t = child k' s

section
variable {t s : FImmutableTree κ (FNode κ)} {p q : List κ} {new : FNode κ}

theorem FreeAbove.value {k : κ} (h : FreeAbove (k :: p) t) : t.value = none := by
  have hroot := h [] List.nil_prefix (List.cons_ne_nil k p).symm
  rwa [valueAtPath_nil] at hroot

theorem FreeAbove.child {k : κ} (h : FreeAbove (k :: p) t) : FreeAbove p (child k t) := by
  intro q hq hne
  rw [← valueAtPath_cons]
  exact h (k :: q) (List.cons_prefix_cons.2 ⟨rfl, hq⟩) fun he => hne (List.cons.inj he).2

/-- A write changes the tree below its path only, if nothing is written above. -/
theorem sameBut_layer (h : FreeAbove p t) : SameBut p (layer new p t) t := by
  induction p generalizing t with
  | nil => trivial
  | cons k p ih =>
    have hv := h.value
    rw [layer_cons k p hv]
    refine ⟨hv, hv, ?_, fun k' hk => ?_⟩
    · rw [child_setChild, if_pos rfl]
      exact ih h.child
    · rw [child_setChild, if_neg hk]

/-- Trees that are the same but for a subtree stay so under the other writes. -/
theorem SameBut.layer (h : SameBut p t s) (hq : ¬ q <+: p) :
    SameBut p (layer new q t) (layer new q s) := by
  induction p generalizing q t s with
  | nil => trivial
  | cons k p ih =>
    obtain ⟨ht, hs, hchild, hother⟩ := h
    cases q with
    | nil => exact absurd List.nil_prefix hq
    | cons k' q =>
      rw [layer_cons k' q ht, layer_cons k' q hs]
      refine ⟨ht, hs, ?_, fun k'' hk'' => ?_⟩
      · rw [child_setChild, child_setChild]
        by_cases hk : k = k'
        · subst hk
          rw [if_pos rfl, if_pos rfl]
          exact ih hchild fun hp => hq (List.cons_prefix_cons.2 ⟨rfl, hp⟩)
        · rw [if_neg hk, if_neg hk]
          exact hchild
      · rw [child_setChild, child_setChild]
        split
        · rename_i hk
          rw [hother k' (hk ▸ hk'')]
        · exact hother k'' hk''

/-- A write at the subtree or above it makes them equal. -/
theorem SameBut.layer_eq (h : SameBut p t s) (ht : Compound t) (hs : Compound s) (hnew : new.Normal)
    (hq : q <+: p) : FImmutableTree.layer new q t = FImmutableTree.layer new q s := by
  induction q generalizing p t s with
  | nil => rfl
  | cons k q ih =>
    cases p with
    | nil => cases List.prefix_nil.1 hq
    | cons k' p =>
      obtain ⟨rfl, hq'⟩ := List.cons_prefix_cons.1 hq
      obtain ⟨htv, hsv, hchild, hother⟩ := h
      refine (ht.layer hnew _).canonical.ext (hs.layer hnew _).canonical ?_ fun k' => ?_
      · rw [layer_cons k q htv, layer_cons k q hsv, value_setChild, value_setChild, htv, hsv]
      · rw [layer_cons k q htv, layer_cons k q hsv, child_setChild, child_setChild]
        split
        · exact ih hchild (ht.child k) (hs.child k) hq'
        · rename_i hk
          exact hother k' hk

/-- Without the subtrees they are the same. -/
theorem SameBut.setTree_eq (h : SameBut p t s) (ht : Canonical t) (hs : Canonical s) :
    setTree empty p t = setTree empty p s := by
  induction p generalizing t s with
  | nil => rw [setTree_nil, setTree_nil]
  | cons k p ih =>
    obtain ⟨htv, hsv, hchild, hother⟩ := h
    refine (ht.setTree canonical_empty _).ext (hs.setTree canonical_empty _) ?_ fun k' => ?_
    · rw [setTree_cons, setTree_cons, value_setChild, value_setChild, htv, hsv]
    · rw [setTree_cons, setTree_cons, child_setChild, child_setChild]
      split
      · exact ih hchild (ht.child k) (hs.child k)
      · rename_i hk
        exact hother k' hk

/-- A value of the tree after a write was there before, or its path is the written one. -/
theorem path_of_layer {v : FNode κ} (hv : valueAtPath q (layer new p t) = some v) :
    q = p ∨ ∃ v', valueAtPath q t = some v' := by
  induction p generalizing q t with
  | nil =>
    rw [layer] at hv
    cases q with
    | nil => exact .inl rfl
    | cons k q =>
      rw [valueAtPath_cons, child_ofValue, valueAtPath_empty] at hv
      cases hv
  | cons k p ih =>
    cases htv : t.value with
    | some w =>
      rw [layer_of_value k p htv] at hv
      cases q with
      | nil => exact .inr ⟨w, by rw [valueAtPath_nil, htv]⟩
      | cons k' q =>
        rw [valueAtPath_cons, child_ofValue, valueAtPath_empty] at hv
        cases hv
    | none =>
      rw [layer_cons k p htv] at hv
      cases q with
      | nil =>
        rw [valueAtPath_nil, value_setChild, htv] at hv
        cases hv
      | cons k' q =>
        rw [valueAtPath_cons, child_setChild] at hv
        rw [valueAtPath_cons]
        split at hv
        · rename_i hk
          subst hk
          exact (ih hv).imp (fun he => by rw [he]) id
        · exact .inr ⟨v, hv⟩

end

section
variable {writes before after : List (List κ × FNode κ)} {t s : FImmutableTree κ (FNode κ)}
  {p : List κ} {new : FNode κ}

theorem layers_append : layers (before ++ after) t = layers after (layers before t) :=
  List.foldl_append ..

theorem Compound.layers (h : Compound t) (hw : ∀ e ∈ writes, e.2.Normal) : Compound (layers writes t) := by
  induction writes generalizing t with
  | nil => exact h
  | cons e writes ih =>
    exact ih (h.layer (hw e List.mem_cons_self) e.1) fun e' he' => hw e' (List.mem_cons_of_mem e he')

theorem path_of_layers {q : List κ} {v : FNode κ} (hv : valueAtPath q (layers writes t) = some v) :
    (∃ e ∈ writes, e.1 = q) ∨ ∃ v', valueAtPath q t = some v' := by
  induction writes generalizing t with
  | nil => exact .inr ⟨v, hv⟩
  | cons e writes ih =>
    rcases ih hv with ⟨e', he', rfl⟩ | ⟨v', hv'⟩
    · exact .inl ⟨e', List.mem_cons_of_mem e he', rfl⟩
    · rcases path_of_layer hv' with rfl | h
      · exact .inl ⟨e, List.mem_cons_self, rfl⟩
      · exact .inr h

/-- The values of a layer are at the written paths. -/
theorem path_of_layers_empty {q : List κ} {v : FNode κ}
    (hv : valueAtPath q (layers writes empty) = some v) : ∃ e ∈ writes, e.1 = q := by
  rcases path_of_layers hv with h | ⟨v', hv'⟩
  · exact h
  · rw [valueAtPath_empty] at hv'
    cases hv'

theorem freeAbove_layers (h : ∀ e ∈ writes, e.1 <+: p → e.1 = p) : FreeAbove p (layers writes empty) := by
  intro q hq hne
  by_contra hv
  obtain ⟨v, hv⟩ := Option.ne_none_iff_exists'.1 hv
  obtain ⟨e, he, rfl⟩ := path_of_layers_empty hv
  exact hne (h e he hq)

/-- Same trees but for a subtree: a later write that covers it makes them equal. -/
theorem SameBut.layers_eq (h : SameBut p t s) (ht : Compound t) (hs : Compound s)
    (hw : ∀ e ∈ writes, e.2.Normal) (hcover : ∃ e ∈ writes, e.1 <+: p) :
    FImmutableTree.layers writes t = FImmutableTree.layers writes s := by
  induction writes generalizing t s with
  | nil =>
    obtain ⟨e, he, -⟩ := hcover
    cases he
  | cons e writes ih =>
    have hnew := hw e List.mem_cons_self
    by_cases hq : e.1 <+: p
    · exact congrArg (FImmutableTree.layers writes) (h.layer_eq ht hs hnew hq)
    · refine ih (h.layer hq) (ht.layer hnew e.1) (hs.layer hnew e.1)
        (fun e' he' => hw e' (List.mem_cons_of_mem e he')) ?_
      obtain ⟨e', he', hpre⟩ := hcover
      rcases List.mem_cons.1 he' with rfl | he'
      · exact absurd hpre hq
      · exact ⟨e', he', hpre⟩

theorem SameBut.layers (h : SameBut p t s) (hw : ∀ e ∈ writes, ¬ e.1 <+: p) :
    SameBut p (layers writes t) (layers writes s) := by
  induction writes generalizing t s with
  | nil => exact h
  | cons e writes ih =>
    exact ih (h.layer (hw e List.mem_cons_self)) fun e' he' => hw e' (List.mem_cons_of_mem e he')

/-- **A write that a later one covers leaves no trace**, if no older one stands above it. -/
theorem layers_covered (p : List κ) (new : FNode κ) (hw : ∀ e ∈ before ++ (p, new) :: after, e.2.Normal)
    (habove : ∀ e ∈ before, e.1 <+: p → e.1 = p) (hcover : ∃ e ∈ after, e.1 <+: p) :
    layers (before ++ (p, new) :: after) empty = layers (before ++ after) empty := by
  have hnew : new.Normal := hw (p, new) (by simp)
  have hbefore : Compound (layers before empty) :=
    compound_empty.layers fun e he => hw e (List.mem_append_left _ he)
  rw [layers_append, layers_append]
  exact (sameBut_layer (freeAbove_layers habove)).layers_eq (hbefore.layer hnew p) hbefore
    (fun e he => hw e (by simp [he])) hcover

/-- **A write that stands apart from all others can be cut out of the tree.** -/
theorem setTree_layers (p : List κ) (new : FNode κ) (hw : ∀ e ∈ before ++ (p, new) :: after, e.2.Normal)
    (hapart : ∀ e ∈ before ++ after, Incomparable e.1 p) :
    setTree empty p (layers (before ++ (p, new) :: after) empty) = layers (before ++ after) empty := by
  have hnew : new.Normal := hw (p, new) (by simp)
  have hwithout : ∀ e ∈ before ++ after, e.2.Normal := fun e he => by
    rcases List.mem_append.1 he with he | he
    · exact hw e (List.mem_append_left _ he)
    · exact hw e (by simp [he])
  have hall : Compound (layers (before ++ (p, new) :: after) empty) := compound_empty.layers hw
  have hrest : Compound (layers (before ++ after) empty) := compound_empty.layers hwithout
  have hfree : FreeAbove p (layers before empty) :=
    freeAbove_layers fun e he hpre => absurd hpre (hapart e (List.mem_append_left _ he)).1
  have hsame : SameBut p (layers (before ++ (p, new) :: after) empty) (layers (before ++ after) empty) := by
    rw [layers_append, layers_append]
    exact (sameBut_layer hfree).layers fun e he => (hapart e (List.mem_append_right _ he)).1
  rw [hsame.setTree_eq hall.canonical hrest.canonical]
  -- the other writes put nothing at the path or below it
  refine (hrest.canonical.setTree canonical_empty p).ext_valueAtPath hrest.canonical fun q => ?_
  by_cases hpre : p <+: q
  · obtain ⟨r, rfl⟩ := hpre
    rw [valueAtPath_setTree_append, valueAtPath_empty]
    by_contra hv
    obtain ⟨v, hv⟩ := Option.ne_none_iff_exists'.1 (Ne.symm hv)
    obtain ⟨e, he, hq⟩ := path_of_layers_empty hv
    exact (hapart e he).2 (hq ▸ List.prefix_append p r)
  · rw [valueAtPath_setTree_of_not _ _ hpre]

end

/-! ## The written node -/

section
variable {writes : List (List κ × FNode κ)} {t : FImmutableTree κ (FNode κ)} {p q : List κ}
  {n new : FNode κ}

theorem OpenAt.child {k : κ} (h : OpenAt (k :: p) t) : OpenAt p (child k t) := by
  intro q hq
  rw [← valueAtPath_cons]
  exact h (k :: q) (List.cons_prefix_cons.2 ⟨rfl, hq⟩)

theorem OpenAt.value (h : OpenAt p t) : t.value = none := by
  have hroot := h [] List.nil_prefix
  rwa [valueAtPath_nil] at hroot

/-- Where the tree is open after a write, it was before, and the path is not the
written one or below it. -/
theorem openAt_of_layer (h : OpenAt q (layer new p t)) : OpenAt q t ∧ ¬ p <+: q := by
  induction p generalizing q t with
  | nil => cases h.value
  | cons k p ih =>
    cases htv : t.value with
    | some v =>
      rw [layer_of_value k p htv] at h
      cases h.value
    | none =>
      rw [layer_cons k p htv] at h
      cases q with
      | nil => exact ⟨openAt_nil htv, fun hpre => by cases List.prefix_nil.1 hpre⟩
      | cons k' q =>
        have hchild := h.child
        rw [child_setChild] at hchild
        split at hchild
        · rename_i hk
          subst hk
          obtain ⟨hopen, hnot⟩ := ih hchild
          exact ⟨hopen.cons htv, fun hpre => hnot (List.cons_prefix_cons.1 hpre).2⟩
        · rename_i hk
          exact ⟨hchild.cons htv, fun hpre => hk (List.cons_prefix_cons.1 hpre).1.symm⟩

theorem openAt_of_layers (h : OpenAt q (layers writes t)) : OpenAt q t ∧ ∀ e ∈ writes, ¬ e.1 <+: q := by
  induction writes generalizing t with
  | nil => exact ⟨h, by simp⟩
  | cons e writes ih =>
    obtain ⟨hopen, hnot⟩ := ih h
    obtain ⟨hopen, hne⟩ := openAt_of_layer hopen
    refine ⟨hopen, fun e' he' => ?_⟩
    rcases List.mem_cons.1 he' with rfl | he'
    · exact hne
    · exact hnot e' he'

end

end FImmutableTree

namespace FNode

/-- No removal goes through a text of the node that no earlier write replaces. -/
def Writable (n : FNode κ) (writes : List (List κ × FNode κ)) : Prop :=
  ∀ old e new, writes = old ++ e :: new → e.2.isEmpty = true →
    ∀ q, q <+: e.1 → q ≠ e.1 → leafAt q n = none ∨ ∃ e' ∈ old, e'.1 <+: q

theorem Writable.left {n : FNode κ} {writes writes' : List (List κ × FNode κ)}
    (h : Writable n (writes ++ writes')) : Writable n writes := by
  rintro old e new rfl
  exact h old e (new ++ writes') (by simp)

end FNode

namespace FCompoundWrite

open FImmutableTree

/-- **The layer of the writes does what the writes do one after the other.** -/
theorem applySubtreeWrite_layers {n : FNode κ} {writes : List (List κ × FNode κ)} (hn : n.Normal)
    (hnormal : ∀ e ∈ writes, e.2.Normal) (hw : n.Writable writes) :
    applySubtreeWrite (layers writes empty) [] n = n.writeAll writes := by
  induction writes using List.reverseRecOn with
  | nil => rfl
  | append_singleton writes e ih =>
    have hbefore : ∀ e ∈ writes, e.2.Normal := fun e he => hnormal e (List.mem_append_left _ he)
    have hcompound : Compound (layers writes empty) := compound_empty.layers hbefore
    have hlayers : layers (writes ++ [e]) empty = layer e.2 e.1 (layers writes empty) := layers_append
    rw [hlayers, FNode.writeAll, List.foldl_append, applySubtreeWrite_layer hcompound hn (hnormal e (by simp)),
      ih hbefore hw.left]
    · rfl
    · intro he q hq hne hopen
      obtain ⟨-, hnot⟩ := openAt_of_layers hopen
      refine (hw writes e [] rfl he q hq hne).resolve_right ?_
      rintro ⟨e', he', hpre⟩
      exact hnot e' he' hpre

end FCompoundWrite

end ShopingList
