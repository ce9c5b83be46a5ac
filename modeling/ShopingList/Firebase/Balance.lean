import ShopingList.Firebase.LLRB

/-!
# Balance of the left-leaning trees

`LLRB c d t`: the tree `t` has root colour `c` and passes `check` with black
depth `d`. An insertion below a red node may leave it with a red left child
(`RedRed`), which the caller repairs or, at the root, the black paint does.

A removal has to meet a red node on its way: the node it enters is red, or its
left child is, or, when the key lies to the right, its right child (`Loose`).
The source starts at a black root without making it red, and removes the key
once more from where it is not; `remove_below` says why that does no harm.
-/

namespace ShopingList

namespace FLLRBNode

open SortedDict

variable {α β : Type}

/-- The three invariants, with the colour of the root and the black depth. -/
inductive LLRB : FLLRBColor → Nat → FLLRBNode α β → Prop
  | emptyNode : LLRB .black 0 emptyNode
  | red {k : α} {v : β} {d : Nat} {l r : FLLRBNode α β} :
      LLRB .black d l → LLRB .black d r → LLRB .red d (valueNode k v .red l r)
  | black {k : α} {v : β} {c : FLLRBColor} {d : Nat} {l r : FLLRBNode α β} :
      LLRB c d l → LLRB .black d r → LLRB .black (d + 1) (valueNode k v .black l r)

/-- A red node that may have a red left child. -/
inductive RedRed (d : Nat) : FLLRBNode α β → Prop
  | mk {k : α} {v : β} {c : FLLRBColor} {l r : FLLRBNode α β} :
      LLRB c d l → LLRB .black d r → RedRed d (valueNode k v .red l r)

theorem LLRB.isRed_eq {c : FLLRBColor} {d : Nat} {t : FLLRBNode α β} (h : LLRB c d t) :
    t.isRed = decide (c = .red) := by
  cases h <;> rfl

@[simp] theorem LLRB.isRed_of_red {d : Nat} {t : FLLRBNode α β} (h : LLRB .red d t) :
    t.isRed = true := h.isRed_eq

@[simp] theorem LLRB.isRed_of_black {d : Nat} {t : FLLRBNode α β} (h : LLRB .black d t) :
    t.isRed = false := h.isRed_eq

/-- What a passed `check` has seen. -/
theorem check_valueNode_ok {k : α} {v : β} {c : FLLRBColor} {l r : FLLRBNode α β} {d : Nat}
    (h : (valueNode k v c l r).check = .ok d) :
    (c = .red → l.isRed = false) ∧ r.isRed = false ∧
      ∃ dl, l.check = .ok dl ∧ ∃ dr, r.check = .ok dr ∧ dl = dr ∧
        dl + (if c = .red then 0 else 1) = d := by
  rw [check] at h
  by_cases h1 : c = .red ∧ l.isRed = true
  · simp [h1, bind, Except.bind] at h
  by_cases h2 : r.isRed = true
  · simp [h1, h2, bind, Except.bind] at h
  cases hl : l.check with
  | error e => simp [h1, h2, hl, bind, Except.bind] at h
  | ok dl =>
    cases hr : r.check with
    | error e => simp [h1, h2, hl, hr, bind, Except.bind] at h
    | ok dr =>
      by_cases h3 : dl = dr
      · simp [h1, h2, hl, hr, h3, bind, Except.bind, pure, Except.pure] at h
        subst h3
        refine ⟨fun hc => ?_, by simpa using h2, dl, rfl, dl, rfl, rfl, h⟩
        simpa [hc] using h1
      · simp [h1, h2, hl, hr, h3, bind, Except.bind] at h

/-- `check` passes exactly the trees with the invariants. -/
theorem check_eq_ok_iff {t : FLLRBNode α β} {d : Nat} : t.check = .ok d ↔ ∃ c, LLRB c d t := by
  constructor
  · intro h
    induction t generalizing d with
    | emptyNode =>
      cases h
      exact ⟨_, .emptyNode⟩
    | valueNode k v c l r ihl ihr =>
      obtain ⟨hc, hr, dl, hl, dr, hdr, hd, hret⟩ := check_valueNode_ok h
      obtain ⟨cl, hl⟩ := ihl hl
      obtain ⟨cr, hr'⟩ := ihr hdr
      obtain rfl : cr = .black := by
        rw [hr'.isRed_eq] at hr
        cases cr with
        | black => rfl
        | red => cases hr
      subst hd hret
      cases c with
      | black => exact ⟨_, .black hl hr'⟩
      | red =>
        have hcl := hc rfl
        rw [hl.isRed_eq] at hcl
        cases cl with
        | black => exact ⟨_, .red hl hr'⟩
        | red => cases hcl
  · rintro ⟨c, h⟩
    induction h with
    | emptyNode => rfl
    | red hl hr ihl ihr => simp [check, ihl, ihr, hl.isRed_of_black, hr.isRed_of_black, bind, Except.bind, pure, Except.pure]
    | black hl hr ihl ihr => simp [check, ihl, ihr, hr.isRed_of_black, bind, Except.bind, pure, Except.pure]

/-- `checkMaxDepth` answers YES. -/
theorem LLRB.two_pow_le {c : FLLRBColor} {d : Nat} {t : FLLRBNode α β} (h : LLRB c d t) :
    2 ^ d ≤ t.count + 1 := by
  induction h with
  | emptyNode => exact Nat.le_refl _
  | red hl hr ihl ihr =>
    rw [count]
    omega
  | black hl hr ihl ihr =>
    rw [count, Nat.pow_succ]
    omega

/-- The number of nodes on the longest way down. -/
def depth : FLLRBNode α β → Nat
  | emptyNode => 0
  | valueNode _ _ _ l r => max l.depth r.depth + 1

/-- At most every other node on the way is red. -/
theorem LLRB.depth_le {c : FLLRBColor} {d : Nat} {t : FLLRBNode α β} (h : LLRB c d t) :
    t.depth ≤ 2 * d + if c = .red then 1 else 0 := by
  induction h with
  | emptyNode => exact Nat.le_refl _
  | red hl hr ihl ihr =>
    simp only [depth, reduceCtorEq, if_false, if_true] at ihl ihr ⊢
    omega
  | @black _ _ c _ _ _ hl hr ihl ihr =>
    have hc : (if c = .red then 1 else 0) ≤ 1 := by split <;> omega
    simp only [depth, reduceCtorEq, if_false] at ihr ⊢
    omega

/-! ## Repairs -/

section FixUp

variable {k k' : α} {v v' : β} {c cl cr : FLLRBColor} {d : Nat} {l r rl rr : FLLRBNode α β}

theorem LLRB.isRed_left_left (h : LLRB c d l) : l.isRed = true → l.left.isRed = false := by
  intro hred
  cases h with
  | emptyNode => rfl
  | red hl _ => exact hl.isRed_of_black
  | black => cases hred

/-- Nothing to do. -/
theorem fixUp_right_black (hl : LLRB cl d l) (hr : LLRB .black d r) :
    (valueNode k v c l r).fixUp = valueNode k v c l r := by
  cases hc : l.isRed with
  | false => simp [fixUp, hr.isRed_of_black, hc]
  | true => simp [fixUp, hr.isRed_of_black, hc, hl.isRed_left_left hc]

/-- A red right child is leaned to the left. -/
theorem fixUp_right_red (hl : LLRB .black d l) (hrr : LLRB .black d rr) :
    (valueNode k v c l (valueNode k' v' .red rl rr)).fixUp =
      valueNode k' v' c (valueNode k v .red l rl) rr := by
  simp [fixUp, rotateLeft, hl.isRed_of_black, hrr.isRed_of_black]

/-- Two red children are painted black. -/
theorem fixUp_both_red {k₁ k₂ : α} {v₁ v₂ : β} {ll lr : FLLRBNode α β} (hll : LLRB .black d ll) :
    (valueNode k v c (valueNode k₁ v₁ .red ll lr) (valueNode k₂ v₂ .red rl rr)).fixUp =
      valueNode k v c.flip (valueNode k₁ v₁ .black ll lr) (valueNode k₂ v₂ .black rl rr) := by
  simp [fixUp, colorFlip, hll.isRed_of_black]

/-- A black node turns red when both children are. -/
theorem llrb_fixUp_black (hl : LLRB cl d l) (hr : LLRB cr d r) :
    LLRB (if cl = .red ∧ cr = .red then .red else .black) (d + 1)
      (valueNode k v .black l r).fixUp := by
  cases cr with
  | black =>
    rw [fixUp_right_black hl hr]
    simpa using LLRB.black hl hr
  | red =>
    cases hr with
    | red hrl hrr =>
      cases cl with
      | black =>
        rw [fixUp_right_red hl hrr]
        exact .black (.red hl hrl) hrr
      | red =>
        cases hl with
        | red hll hlr =>
          rw [fixUp_both_red hll]
          exact .red (.black hll hlr) (.black hrl hrr)

/-- An insertion below the left child of a black node. -/
theorem llrb_fixUp_redRed (hl : RedRed d l) (hr : LLRB .black d r) :
    ∃ c', LLRB c' (d + 1) (valueNode k v .black l r).fixUp := by
  obtain ⟨hll, hlr⟩ := hl
  rename_i k' v' c' ll lr
  cases hll with
  | emptyNode =>
    rw [fixUp_right_black (.red .emptyNode hlr) hr]
    exact ⟨_, .black (.red .emptyNode hlr) hr⟩
  | black h1 h2 =>
    rw [fixUp_right_black (.red (.black h1 h2) hlr) hr]
    exact ⟨_, .black (.red (.black h1 h2) hlr) hr⟩
  | red h1 h2 =>
    refine ⟨.red, ?_⟩
    simp only [fixUp, right_valueNode, hr.isRed_of_black, Bool.false_and, Bool.false_eq_true, if_false,
      left_valueNode, isRed_red, Bool.and_self, if_true, rotateRight, copyWith_valueNode, colorFlip]
    exact .red (.black h1 h2) (.black hlr hr)

/-- A red node leans a red child to the left, or turns black. -/
theorem fixUp_red (hl : LLRB .black d l) (hr : LLRB cr d r) : RedRed d (valueNode k v .red l r).fixUp := by
  cases hr with
  | emptyNode =>
    rw [fixUp_right_black hl .emptyNode]
    exact .mk hl .emptyNode
  | black h1 h2 =>
    rw [fixUp_right_black hl (.black h1 h2)]
    exact .mk hl (.black h1 h2)
  | red h1 h2 =>
    rw [fixUp_right_red hl h2]
    exact .mk (.red hl h1) h2

end FixUp

/-! ## Insertion -/

/-- What an insertion makes of a tree with root colour `c`. -/
def Inserted : FLLRBColor → Nat → FLLRBNode α β → Prop
  | .black, d, t => ∃ c, LLRB c d t
  | .red, d, t => RedRed d t

/-- The black paint the dictionary gives the root. -/
theorem LLRB.blacken {c : FLLRBColor} {d : Nat} {t : FLLRBNode α β} (h : LLRB c d t) :
    ∃ d', LLRB .black d' (t.copyWith none none (some .black) none none) := by
  cases h with
  | emptyNode => exact ⟨_, .emptyNode⟩
  | red hl hr => exact ⟨_, .black hl hr⟩
  | black hl hr => exact ⟨_, .black hl hr⟩

theorem RedRed.blacken {d : Nat} {t : FLLRBNode α β} (h : RedRed d t) :
    LLRB .black (d + 1) (t.copyWith none none (some .black) none none) := by
  obtain ⟨hl, hr⟩ := h
  exact .black hl hr

section Insertion

variable [LinearOrder α]

theorem llrb_insertKey {c : FLLRBColor} {d : Nat} {t : FLLRBNode α β} (k : α) (v : β)
    (h : LLRB c d t) : Inserted c d (t.insertKey k v) := by
  induction h with
  | emptyNode => exact ⟨_, .red .emptyNode .emptyNode⟩
  | red hl hr ihl ihr =>
    rw [insertKey]
    split
    · obtain ⟨c', hl'⟩ := ihl
      simp only [copyWith_valueNode, Option.getD_some, Option.getD_none]
      rw [fixUp_right_black hl' hr]
      exact .mk hl' hr
    · simp only [copyWith_valueNode, Option.getD_some, Option.getD_none]
      rw [fixUp_right_black hl hr]
      exact .mk hl hr
    · obtain ⟨c', hr'⟩ := ihr
      exact fixUp_red hl hr'
  | @black _ _ c _ _ _ hl hr ihl ihr =>
    rw [insertKey]
    split
    · cases c with
      | black =>
        obtain ⟨c', hl'⟩ := ihl
        exact ⟨_, llrb_fixUp_black hl' hr⟩
      | red => exact llrb_fixUp_redRed ihl hr
    · exact ⟨_, llrb_fixUp_black hl hr⟩
    · obtain ⟨c', hr'⟩ := ihr
      exact ⟨_, llrb_fixUp_black hl hr'⟩

theorem entries_insertKey {t : FLLRBNode α β} (k : α) (v : β) (h : Sorted t.entries) :
    (t.insertKey k v).entries = SortedDict.set k v t.entries := by
  induction t with
  | emptyNode => rfl
  | valueNode k' v' c l r ihl ihr =>
    rw [entries] at h
    obtain ⟨hl, hr, hlk, hkr⟩ := sorted_split.1 h
    rw [insertKey, entries]
    split
    · rename_i hcmp
      rw [entries_fixUp, copyWith_valueNode, entries, Option.getD_some, ihl hl,
        set_split_lt (p := (k', v')) (compare_lt_iff_lt.1 hcmp)]
      rfl
    · rename_i hcmp
      obtain rfl := compare_eq_iff_eq.1 hcmp
      rw [entries_fixUp, copyWith_valueNode, entries, set_split_eq hlk]
      rfl
    · rename_i hcmp
      rw [entries_fixUp, copyWith_valueNode, entries, Option.getD_some, ihr hr,
        set_split_gt hlk (compare_gt_iff_gt.1 hcmp)]
      rfl

end Insertion

/-! ## Steps down -/

section Steps

variable {k : α} {v : β} {c cl cr : FLLRBColor} {d : Nat} {l r t : FLLRBNode α β}

theorem LLRB.eq_emptyNode (h : LLRB .black 0 t) : t = FLLRBNode.emptyNode := by
  cases h
  rfl

theorem LLRB.node (c : FLLRBColor) (hl : LLRB .black d l) (hr : LLRB .black d r) :
    LLRB c (d + if c = .red then 0 else 1) (valueNode k v c l r) := by
  cases c with
  | red => exact .red hl hr
  | black => exact .black hl hr

theorem stepLeft_of_red (hl : l.isRed = true) : (valueNode k v c l r).stepLeft = valueNode k v c l r := by
  simp [stepLeft, hl]

theorem stepRight_of_red (hl : LLRB .black d l) (hr : r.isRed = true) :
    (valueNode k v c l r).stepRight = valueNode k v c l r := by
  simp [stepRight, hl.isRed_of_black, hr]

/-- Before a step to the left of two black children: the left child has or gets a
red left child, or both children turn red. -/
theorem stepLeft_black (hl : LLRB .black d l) (hr : LLRB .black d r) (hne : l.isEmpty = false) :
    (∃ k' v' l' r', (valueNode k v c l r).stepLeft = valueNode k' v' c l' r' ∧
      (k = k' ∨ (k, v) ∈ l'.entries) ∧
      LLRB .black d l' ∧ l'.left.isRed = true ∧ LLRB .black d r') ∨
    ∃ d' l' r', d = d' + 1 ∧ (valueNode k v c l r).stepLeft = valueNode k v c.flip l' r' ∧
      LLRB .red d' l' ∧ LLRB .red d' r' := by
  cases hl with
  | emptyNode => cases hne
  | @black k₁ v₁ c₁ d' ll lr hll hlr =>
    cases hr with
    | @black k₂ v₂ c₂ _ rl rr hrl hrr =>
      cases c₁ with
      | red =>
        refine .inl ⟨k, v, valueNode k₁ v₁ .black ll lr, valueNode k₂ v₂ .black rl rr, ?_,
          .inl rfl, .black hll hlr, hll.isRed_of_red, .black hrl hrr⟩
        simp [stepLeft, hll.isRed_of_red]
      | black =>
        cases c₂ with
        | red =>
          cases hrl with
          | @red k₃ v₃ _ rll rlr h1 h2 =>
            -- a node is borrowed from the right side
            refine .inl ⟨k₃, v₃, valueNode k v .black (valueNode k₁ v₁ .red ll lr) rll,
              valueNode k₂ v₂ .black rlr rr, ?_, .inr (by simp [entries]), .black (.red hll hlr) h1, rfl,
              .black h2 hrr⟩
            simp [stepLeft, moveRedLeft, colorFlip, rotateLeft, rotateRight, hll.isRed_of_black]
        | black =>
          refine .inr ⟨d', valueNode k₁ v₁ .red ll lr, valueNode k₂ v₂ .red rl rr, rfl, ?_,
            .red hll hlr, .red hrl hrr⟩
          simp [stepLeft, moveRedLeft, colorFlip, hll.isRed_of_black, hrl.isRed_of_black]

/-- Before a step to the right of two black children: the right child has a red
left child, or gets a red right child behind a borrowed node, or both turn red. -/
theorem stepRight_black (hl : LLRB .black d l) (hr : LLRB .black d r) (hne : r.isEmpty = false) :
    ((valueNode k v c l r).stepRight = valueNode k v c l r ∧ r.left.isRed = true) ∨
    (∃ k' v' l' d' a b, d = d' + 1 ∧
      (valueNode k v c l r).stepRight = valueNode k' v' c l' (valueNode k v .black a b) ∧
      LLRB .black d l' ∧ LLRB .black d' a ∧ LLRB .red d' b) ∨
    ∃ d' l' r', d = d' + 1 ∧ (valueNode k v c l r).stepRight = valueNode k v c.flip l' r' ∧
      LLRB .red d' l' ∧ LLRB .red d' r' := by
  cases hr with
  | emptyNode => cases hne
  | @black k₂ v₂ c₂ d' rl rr hrl hrr =>
    cases hl with
    | @black k₁ v₁ c₁ _ ll lr hll hlr =>
      cases c₂ with
      | red =>
        refine .inl ⟨?_, hrl.isRed_of_red⟩
        simp [stepRight, hrl.isRed_of_red]
      | black =>
        cases c₁ with
        | red =>
          cases hll with
          | @red k₃ v₃ _ lll llr h1 h2 =>
            -- a node is borrowed from the left side
            refine .inr (.inl ⟨k₁, v₁, valueNode k₃ v₃ .black lll llr, d', lr,
              valueNode k₂ v₂ .red rl rr, rfl, ?_, .black h1 h2, hlr, .red hrl hrr⟩)
            simp [stepRight, moveRedRight, colorFlip, rotateRight, hrl.isRed_of_black]
        | black =>
          refine .inr (.inr ⟨d', valueNode k₁ v₁ .red ll lr, valueNode k₂ v₂ .red rl rr, rfl, ?_,
            .red hll hlr, .red hrl hrr⟩)
          simp [stepRight, moveRedRight, colorFlip, hll.isRed_of_black, hrl.isRed_of_black]

end Steps

/-! ## The smallest entry -/

theorem head_entries_min {t : FLLRBNode α β} (h : t.isEmpty = false) :
    ∃ k v, t.min.key = some k ∧ t.min.value = some v ∧ t.entries.head? = some (k, v) := by
  induction t with
  | emptyNode => cases h
  | valueNode k v c l r ihl ihr =>
    rw [min]
    split
    · rename_i hl
      rw [eq_emptyNode hl]
      exact ⟨k, v, rfl, rfl, rfl⟩
    · rename_i hl
      obtain ⟨k', v', hk, hv, hh⟩ := ihl (by simpa using hl)
      refine ⟨k', v', hk, hv, ?_⟩
      rw [entries, List.head?_append, hh]
      rfl

/-- What a removal leaves of a tree with root colour `c`: a black root stays black. -/
structure Removed (c : FLLRBColor) (d : Nat) (es : List (α × β)) (t : FLLRBNode α β) : Prop where
  balanced : ∃ c', LLRB c' d t ∧ (c = .black → c' = .black)
  entries_eq : t.entries = es

theorem Removed.black {d : Nat} {es : List (α × β)} {t : FLLRBNode α β} (h : Removed .black d es t) :
    LLRB .black d t := by
  obtain ⟨c', hc, hb⟩ := h.balanced
  rwa [hb rfl] at hc

theorem tail_append_cons {l r : List (α × β)} {p : α × β} (h : l ≠ []) :
    (l ++ p :: r).tail = l.tail ++ p :: r := by
  cases l with
  | nil => exact absurd rfl h
  | cons q l => rfl

/-- `removeMin` takes the steps of `remove`. -/
theorem removeMin_of_stepLeft {k k' : α} {v v' : β} {c c' : FLLRBColor} {l r l' r' : FLLRBNode α β}
    (h : (valueNode k v c l r).stepLeft = valueNode k' v' c' l' r') (hne : l.isEmpty = false) :
    (valueNode k v c l r).removeMin = (valueNode k' v' c' l'.removeMin r').fixUp ∧
      l'.count < (valueNode k v c l r).count ∧
      (l'.isEmpty = false →
        (valueNode k v c l r).entries.tail = l'.entries.tail ++ (k', v') :: r'.entries) := by
  have hentries := entries_stepLeft (valueNode k v c l r)
  have hlt := count_left_lt hentries rfl
  rw [h, left_valueNode] at hlt
  refine ⟨?_, hlt, fun hl => ?_⟩
  · rw [removeMin, hne, stepMin_eq (by simpa using hne), h]
    rfl
  · rw [← hentries, h, entries, tail_append_cons]
    rintro hnil
    rw [isEmpty_eq, hnil] at hl
    cases hl

theorem removed_removeMin {c : FLLRBColor} {d : Nat} {t : FLLRBNode α β} (h : LLRB c d t)
    (hred : c = .red ∨ t.left.isRed = true) : Removed c d t.entries.tail t.removeMin := by
  induction hn : t.count using Nat.strong_induction_on generalizing c d t with
  | _ n ih =>
    subst hn
    cases h with
    | emptyNode =>
      rw [removeMin]
      exact ⟨⟨_, .emptyNode, id⟩, rfl⟩
    | @black k v _ _ l r hl hr =>
      have hred : l.isRed = true := by simpa using hred
      obtain ⟨hmin, hlt, htail⟩ := removeMin_of_stepLeft (k := k) (v := v) (c := .black) (r := r)
        (stepLeft_of_red hred) (isEmpty_of_isRed hred)
      rw [hmin, htail (isEmpty_of_isRed hred)]
      have hcl := hl.isRed_eq
      rw [hred, eq_comm, decide_eq_true_eq] at hcl
      obtain ⟨⟨cl, hl', -⟩, hes⟩ := ih _ hlt hl (.inl hcl) rfl
      refine ⟨⟨_, llrb_fixUp_black hl' hr, fun _ => if_neg (by simp)⟩, ?_⟩
      rw [entries_fixUp, entries, hes]
    | @red k v _ l r hl hr =>
      cases hempty : l.isEmpty with
      | true =>
        obtain rfl := eq_emptyNode hempty
        cases hl
        obtain rfl := hr.eq_emptyNode
        rw [removeMin]
        exact ⟨⟨_, .emptyNode, fun _ => rfl⟩, rfl⟩
      | false =>
        rcases stepLeft_black (k := k) (v := v) (c := .red) hl hr hempty with
          ⟨k', v', l', r', hs, -, hl', hll, hr'⟩ | ⟨d', l', r', rfl, hs, hl', hr'⟩
        · obtain ⟨hmin, hlt, htail⟩ := removeMin_of_stepLeft hs hempty
          have hne : l'.isEmpty = false := by
            cases l' with
            | emptyNode => cases hll
            | valueNode => rfl
          have hrem := ih _ hlt hl' (.inr hll) rfl
          rw [hmin, htail hne, fixUp_right_black hrem.black hr']
          refine ⟨⟨_, .red hrem.black hr', fun h => by cases h⟩, ?_⟩
          rw [entries, hrem.entries_eq]
        · obtain ⟨hmin, hlt, htail⟩ := removeMin_of_stepLeft hs hempty
          obtain ⟨⟨cl, hl'', -⟩, hes⟩ := ih _ hlt hl' (.inl rfl) rfl
          rw [hmin, htail (isEmpty_of_isRed hl'.isRed_of_red)]
          refine ⟨⟨_, llrb_fixUp_black hl'' hr', fun h => by cases h⟩, ?_⟩
          rw [entries_fixUp, entries, hes]

/-! ## Removal -/

section Removal

variable [LinearOrder α] {x k k' : α} {v v' : β} {c c' cl : FLLRBColor} {d : Nat}
  {l r l' r' t : FLLRBNode α β}

theorem remove_of_stepLeft (h : (valueNode k v c l r).stepLeft = valueNode k' v' c' l' r')
    (hx : x < k) :
    (valueNode k v c l r).remove x = (valueNode k' v' c' (l'.remove x) r').fixUp ∧
      l'.count < (valueNode k v c l r).count ∧
      (valueNode k v c l r).entries = l'.entries ++ (k', v') :: r'.entries := by
  have hentries := entries_stepLeft (valueNode k v c l r)
  have hlt := count_left_lt hentries rfl
  rw [h, left_valueNode] at hlt
  refine ⟨?_, hlt, ?_⟩
  · rw [remove, if_pos (compare_lt_iff_lt.2 hx), h]
    rfl
  · rw [← hentries, h, entries]

/-- A key below all of a tree leaves the invariants, the colour and the entries. -/
theorem remove_below (h : LLRB c d t) (hx : ∀ q ∈ t.entries, x < q.1) :
    LLRB c d (t.remove x) ∧ (t.remove x).entries = t.entries := by
  induction hn : t.count using Nat.strong_induction_on generalizing c d t with
  | _ n ih =>
    subst hn
    -- a step that keeps the colours, from a node whose left child may be red
    have hstep : ∀ {k k' : α} {v v' : β} {c cl : FLLRBColor} {d : Nat} {l r l' r' : FLLRBNode α β},
        t = valueNode k v c l r → (valueNode k v c l r).stepLeft = valueNode k' v' c l' r' →
        LLRB cl d l' → LLRB .black d r' → (t.remove x).entries = t.entries ∧
          ∃ l'', LLRB cl d l'' ∧ t.remove x = valueNode k' v' c l'' r' := by
      rintro k k' v v' c cl d l r l' r' rfl hs hl' hr'
      obtain ⟨hrem, hlt, hes⟩ := remove_of_stepLeft hs (hx (k, v) (by simp [entries]))
      obtain ⟨hl'', hes'⟩ := ih _ hlt hl' (fun q hq => hx q (by simp [hes, hq])) rfl
      refine ⟨?_, _, hl'', ?_⟩
      · rw [hrem, entries_fixUp, entries, hes', hes]
      · rw [hrem, fixUp_right_black hl'' hr']
    -- a step between two black children
    have hblack : ∀ {k : α} {v : β} {c : FLLRBColor} {d : Nat} {l r : FLLRBNode α β},
        t = valueNode k v c l r → LLRB .black d l → LLRB .black d r →
        LLRB c (d + if c = .red then 0 else 1) (t.remove x) ∧ (t.remove x).entries = t.entries := by
      rintro k v c d l r rfl hl hr
      cases hempty : l.isEmpty with
      | true =>
        have hs : (valueNode k v c l r).stepLeft = valueNode k v c l r := by simp [stepLeft, hempty]
        obtain ⟨hes, l'', hl'', hrem⟩ := hstep rfl hs hl hr
        exact ⟨hrem ▸ .node c hl'' hr, hes⟩
      | false =>
        rcases stepLeft_black (k := k) (v := v) (c := c) hl hr hempty with
          ⟨k', v', l', r', hs, -, hl', -, hr'⟩ | ⟨d', l', r', rfl, hs, hl', hr'⟩
        · obtain ⟨hes, l'', hl'', hrem⟩ := hstep rfl hs hl' hr'
          exact ⟨hrem ▸ .node c hl'' hr', hes⟩
        · obtain ⟨hrem, hlt, hes⟩ := remove_of_stepLeft hs (hx (k, v) (by simp [entries]))
          obtain ⟨hl'', hes'⟩ := ih _ hlt hl' (fun q hq => hx q (by simp [hes, hq])) rfl
          refine ⟨?_, by rw [hrem, entries_fixUp, entries, hes', hes]⟩
          rw [hrem]
          generalize l'.remove x = l'' at hl''
          cases hl'' with
          | red h1 h2 =>
            cases hr' with
            | red h3 h4 =>
              rw [fixUp_both_red h1, FLLRBColor.flip_flip]
              exact .node c (.black h1 h2) (.black h3 h4)
    cases h with
    | emptyNode =>
      rw [remove]
      exact ⟨.emptyNode, rfl⟩
    | red hl hr => exact hblack rfl hl hr
    | @black k v cl d l r hl hr =>
      cases cl with
      | black => exact hblack rfl hl hr
      | red =>
        obtain ⟨hes, l'', hl'', hrem⟩ := hstep rfl (stepLeft_of_red hl.isRed_of_red) hl hr
        exact ⟨hrem ▸ .black hl'' hr, hes⟩

/-- A step to the left, with what it leaves of the left side. -/
theorem remove_left (h : (valueNode k v c l r).stepLeft = valueNode k' v' c' l' r')
    (hsorted : Sorted (valueNode k v c l r).entries) (hx : x < k) (hk : k = k' ∨ (k, v) ∈ l'.entries)
    (hrem : Removed cl d (SortedDict.remove x l'.entries) (l'.remove x)) :
    ∃ l₁ c₁, (valueNode k v c l r).remove x = (valueNode k' v' c' l₁ r').fixUp ∧
      LLRB c₁ d l₁ ∧ (cl = .black → c₁ = .black) ∧
      l₁.entries ++ (k', v') :: r'.entries = SortedDict.remove x (valueNode k v c l r).entries := by
  obtain ⟨heq, -, hes⟩ := remove_of_stepLeft h hx
  obtain ⟨⟨c₁, hl₁, hc₁⟩, hes₁⟩ := hrem
  refine ⟨_, c₁, heq, hl₁, hc₁, ?_⟩
  rw [hes] at hsorted ⊢
  obtain ⟨-, -, hlk, hkr⟩ := sorted_split.1 hsorted
  have hx' : x < k' := by
    rcases hk with rfl | hk
    · exact hx
    · exact hx.trans (hlk _ hk)
  rw [hes₁, remove_append, remove_cons_ne hx'.ne', remove_of_below fun q hq => hx'.trans (hkr q hq)]

theorem remove_of_stepRight (h : (valueNode k v c l r).stepRight = valueNode k' v' c' l' r')
    (hx : k ≤ x) :
    (valueNode k v c l r).remove x =
      (if x = k' then
        if r'.isEmpty then emptyNode
        else
          let m := (valueNode k' v' c' l' r').takeSmallest
          (m.copyWith none none none none (some (m.right.remove x))).fixUp
      else (valueNode k' v' c' l' (r'.remove x)).fixUp) ∧
      r'.count < (valueNode k v c l r).count ∧
      (valueNode k v c l r).entries = l'.entries ++ (k', v') :: r'.entries := by
  have hentries := entries_stepRight (valueNode k v c l r)
  have hlt := count_right_lt hentries rfl
  rw [h, right_valueNode] at hlt
  refine ⟨?_, hlt, ?_⟩
  · rw [remove, if_neg fun hc => hx.not_gt (compare_lt_iff_lt.1 hc), h]
    by_cases hxk : x = k'
    · rw [if_pos hxk, if_pos (by simp [key, hxk])]
      rfl
    · rw [if_neg hxk, if_neg (by simpa [key] using hxk)]
      rfl
  · rw [← hentries, h, entries]

/-- The smallest entry of the right side moves up; the second removal finds nothing. -/
theorem takeSmallest_remove (hr : LLRB cl d r) (hred : cl = .red ∨ r.left.isRed = true)
    (hne : r.isEmpty = false) (hx : ∀ q ∈ r.entries, x < q.1) :
    ∃ k₁ v₁ r₁ c₁, (let m := (valueNode k v c l r).takeSmallest
        m.copyWith none none none none (some (m.right.remove x))) = valueNode k₁ v₁ c l r₁ ∧
      LLRB c₁ d r₁ ∧ (cl = .black → c₁ = .black) ∧ (k₁, v₁) :: r₁.entries = r.entries := by
  obtain ⟨k₁, v₁, hk, hv, hhead⟩ := head_entries_min hne
  obtain ⟨⟨c₁, hr₁, hc₁⟩, hes⟩ := removed_removeMin hr hred
  have hcons : (k₁, v₁) :: r.entries.tail = r.entries := by
    cases hr : r.entries with
    | nil =>
      rw [hr] at hhead
      cases hhead
    | cons p es =>
      rw [hr] at hhead
      cases hhead
      rfl
  have hbelow : ∀ q ∈ r.removeMin.entries, x < q.1 := by
    intro q hq
    rw [hes] at hq
    exact hx q (List.mem_of_mem_tail hq)
  obtain ⟨hr₂, hes₂⟩ := remove_below hr₁ hbelow
  refine ⟨k₁, v₁, r.removeMin.remove x, c₁, ?_, hr₂, hc₁, by rw [hes₂, hes, hcons]⟩
  simp [takeSmallest, hk, hv]

/-- A step to the right, with what it leaves of the right side. -/
theorem remove_right (h : (valueNode k v c l r).stepRight = valueNode k' v' c' l' r')
    (hsorted : Sorted (valueNode k v c l r).entries) (hx : k ≤ x) (hk : k' ≤ x)
    (hne : r'.isEmpty = false)
    (hmin : x = k' → LLRB cl d r' ∧ (cl = .red ∨ r'.left.isRed = true))
    (hrem : Removed cl d (SortedDict.remove x r'.entries) (r'.remove x)) :
    ∃ k₁ v₁ r₁ c₁, (valueNode k v c l r).remove x = (valueNode k₁ v₁ c' l' r₁).fixUp ∧
      LLRB c₁ d r₁ ∧ (cl = .black → c₁ = .black) ∧
      l'.entries ++ (k₁, v₁) :: r₁.entries = SortedDict.remove x (valueNode k v c l r).entries := by
  obtain ⟨heq, -, hes⟩ := remove_of_stepRight h hx
  rw [hes] at hsorted ⊢
  obtain ⟨-, -, hlk, hkr⟩ := sorted_split.1 hsorted
  rw [remove_append, remove_of_above fun q hq => lt_of_lt_of_le (hlk q hq) hk]
  by_cases hxk : x = k'
  · subst hxk
    obtain ⟨hllrb, hred⟩ := hmin rfl
    obtain ⟨k₁, v₁, r₁, c₁, hcopy, hr₁, hc₁, hes₁⟩ :=
      takeSmallest_remove (k := x) (v := v') (c := c') (l := l') hllrb hred hne hkr
    refine ⟨k₁, v₁, r₁, c₁, ?_, hr₁, hc₁, ?_⟩
    · rw [heq, if_pos rfl, if_neg (by simp [hne])]
      exact congrArg fixUp hcopy
    · rw [remove_cons_self, remove_of_below hkr, hes₁]
  · obtain ⟨⟨c₁, hr₁, hc₁⟩, hes₁⟩ := hrem
    refine ⟨k', v', _, c₁, ?_, hr₁, hc₁, ?_⟩
    · rw [heq, if_neg hxk]
    · rw [remove_cons_ne (Ne.symm hxk), hes₁]

/-- The nodes a removal may enter: a red node is here or one step on. -/
inductive Loose (x : α) : FLLRBColor → Nat → FLLRBNode α β → Prop
  | red {d : Nat} {t : FLLRBNode α β} : LLRB .red d t → Loose x .red d t
  | leftRed {k : α} {v : β} {d : Nat} {l r : FLLRBNode α β} : LLRB .red d l → LLRB .black d r →
      Loose x .black (d + 1) (valueNode k v .black l r)
  | rightRed {k : α} {v : β} {d : Nat} {l r : FLLRBNode α β} : LLRB .black d l → LLRB .red d r →
      k ≤ x → Loose x .black (d + 1) (valueNode k v .black l r)

theorem Loose.of_leftRed (h : LLRB .black d t) (hred : t.left.isRed = true) :
    Loose x .black d t := by
  cases h with
  | emptyNode => cases hred
  | @black _ _ c' _ _ _ hl hr =>
    cases c' with
    | red => exact .leftRed hl hr
    | black => simp [hl.isRed_of_black] at hred

/-- What a removal makes of a node with two black children. -/
inductive Rebuilt (c : FLLRBColor) : Nat → FLLRBNode α β → Prop
  | kept {k : α} {v : β} {d : Nat} {l r : FLLRBNode α β} : LLRB .black d l → LLRB .black d r →
      Rebuilt c d (valueNode k v c l r)
  | flipped {k : α} {v : β} {d : Nat} {c₁ c₂ : FLLRBColor} {l r : FLLRBNode α β} : LLRB c₁ d l →
      LLRB c₂ d r → c₁ = .red ∨ c₂ = .red → Rebuilt c (d + 1) (valueNode k v c.flip l r).fixUp
  | gone : Rebuilt c 0 emptyNode

theorem rebuilt_remove (hl : LLRB .black d l) (hr : LLRB .black d r)
    (hsorted : Sorted (valueNode k v c l r).entries)
    (ih : ∀ {s : FLLRBNode α β} {c' : FLLRBColor} {d' : Nat}, s.count < (valueNode k v c l r).count →
      Loose x c' d' s → Sorted s.entries →
      Removed c' d' (SortedDict.remove x s.entries) (s.remove x)) :
    Rebuilt c d ((valueNode k v c l r).remove x) ∧
      ((valueNode k v c l r).remove x).entries =
        SortedDict.remove x (valueNode k v c l r).entries := by
  have hnil : Removed .black 0 (SortedDict.remove x (emptyNode : FLLRBNode α β).entries)
      ((emptyNode : FLLRBNode α β).remove x) := by
    rw [remove]
    exact ⟨⟨_, .emptyNode, id⟩, rfl⟩
  rcases lt_or_ge x k with hx | hx
  · cases hempty : l.isEmpty with
    | true =>
      obtain rfl := eq_emptyNode hempty
      cases hl
      have hs : (valueNode k v c emptyNode r).stepLeft = valueNode k v c emptyNode r := rfl
      obtain ⟨l₁, c₁, heq, hl₁, hc₁, hes⟩ := remove_left hs hsorted hx (.inl rfl) hnil
      obtain rfl := hc₁ rfl
      rw [heq, fixUp_right_black hl₁ hr]
      exact ⟨.kept hl₁ hr, hes⟩
    | false =>
      rcases stepLeft_black (k := k) (v := v) (c := c) hl hr hempty with
        ⟨k', v', l', r', hs, hk, hl', hred, hr'⟩ | ⟨d', l', r', rfl, hs, hl', hr'⟩
      · obtain ⟨-, hlt, hent⟩ := remove_of_stepLeft hs hx
        have hsl := (sorted_split.1 (hent ▸ hsorted)).1
        obtain ⟨l₁, c₁, heq, hl₁, hc₁, hes⟩ :=
          remove_left hs hsorted hx hk (ih hlt (.of_leftRed hl' hred) hsl)
        obtain rfl := hc₁ rfl
        rw [heq, fixUp_right_black hl₁ hr']
        exact ⟨.kept hl₁ hr', hes⟩
      · obtain ⟨-, hlt, hent⟩ := remove_of_stepLeft hs hx
        have hsl := (sorted_split.1 (hent ▸ hsorted)).1
        obtain ⟨l₁, c₁, heq, hl₁, -, hes⟩ :=
          remove_left hs hsorted hx (.inl rfl) (ih hlt (.red hl') hsl)
        rw [heq]
        exact ⟨.flipped hl₁ hr' (.inr rfl), by rw [entries_fixUp, entries, hes]⟩
  · cases hempty : r.isEmpty with
    | true =>
      obtain rfl := eq_emptyNode hempty
      cases hr
      obtain rfl := hl.eq_emptyNode
      have hs : (valueNode k v c emptyNode emptyNode).stepRight =
          valueNode k v c (emptyNode : FLLRBNode α β) emptyNode := rfl
      obtain ⟨heq, -, -⟩ := remove_of_stepRight hs hx
      rw [show (emptyNode : FLLRBNode α β).isEmpty = true from rfl, if_pos rfl] at heq
      rw [heq]
      by_cases hxk : x = k
      · subst hxk
        rw [if_pos rfl]
        exact ⟨.gone, by simp [entries, SortedDict.remove]⟩
      · rw [if_neg hxk, remove, fixUp_right_black .emptyNode .emptyNode]
        refine ⟨.kept .emptyNode .emptyNode, ?_⟩
        simp [entries, SortedDict.remove, Ne.symm hxk]
    | false =>
      rcases stepRight_black (k := k) (v := v) (c := c) hl hr hempty with
        ⟨hs, hred⟩ | ⟨k', v', l', d', a, b, rfl, hs, hl', ha, hb⟩ | ⟨d', l', r', rfl, hs, hl', hr'⟩
      · obtain ⟨-, hlt, hent⟩ := remove_of_stepRight hs hx
        have hsr := (sorted_split.1 (hent ▸ hsorted)).2.1
        obtain ⟨k₁, v₁, r₁, c₁, heq, hr₁, hc₁, hes⟩ := remove_right hs hsorted hx hx hempty
          (fun _ => ⟨hr, .inr hred⟩) (ih hlt (.of_leftRed hr hred) hsr)
        obtain rfl := hc₁ rfl
        rw [heq, fixUp_right_black hl hr₁]
        exact ⟨.kept hl hr₁, hes⟩
      · obtain ⟨-, hlt, hent⟩ := remove_of_stepRight hs hx
        obtain ⟨-, hsr, -, hkr⟩ := sorted_split.1 (hent ▸ hsorted)
        have hk : k' < k := hkr (k, v) (by simp [entries])
        obtain ⟨k₁, v₁, r₁, c₁, heq, hr₁, hc₁, hes⟩ := remove_right hs hsorted hx (hk.le.trans hx) rfl
          (fun hxk => absurd (hxk ▸ hx) hk.not_ge) (ih hlt (.rightRed ha hb hx) hsr)
        obtain rfl := hc₁ rfl
        rw [heq, fixUp_right_black hl' hr₁]
        exact ⟨.kept hl' hr₁, hes⟩
      · obtain ⟨-, hlt, hent⟩ := remove_of_stepRight hs hx
        have hsr := (sorted_split.1 (hent ▸ hsorted)).2.1
        obtain ⟨k₁, v₁, r₁, c₁, heq, hr₁, -, hes⟩ := remove_right hs hsorted hx hx
          (isEmpty_of_isRed hr'.isRed_of_red) (fun _ => ⟨hr', .inl rfl⟩) (ih hlt (.red hr') hsr)
        rw [heq]
        exact ⟨.flipped hl' hr₁ (.inl rfl), by rw [entries_fixUp, entries, hes]⟩

theorem removed_of_loose (h : Loose x c d t) (hsorted : Sorted t.entries) :
    Removed c d (SortedDict.remove x t.entries) (t.remove x) := by
  induction hn : t.count using Nat.strong_induction_on generalizing c d t with
  | _ n ih =>
    subst hn
    have ih : ∀ {s : FLLRBNode α β} {c' : FLLRBColor} {d' : Nat}, s.count < t.count → Loose x c' d' s →
        Sorted s.entries → Removed c' d' (SortedDict.remove x s.entries) (s.remove x) :=
      fun hlt hs hsorted => ih _ hlt hs hsorted rfl
    cases h with
    | red h =>
      cases h with
      | @red k v _ l r hl hr =>
        obtain ⟨hreb, hes⟩ := rebuilt_remove hl hr hsorted ih
        refine ⟨?_, hes⟩
        generalize (valueNode k v .red l r).remove x = t' at hreb
        cases hreb with
        | kept hl hr => exact ⟨_, .red hl hr, fun h => by cases h⟩
        | flipped hl' hr' _ => exact ⟨_, llrb_fixUp_black hl' hr', fun h => by cases h⟩
        | gone => exact ⟨_, .emptyNode, fun _ => rfl⟩
    | @leftRed k v d l r hl hr =>
      rcases lt_or_ge x k with hx | hx
      · have hs := stepLeft_of_red (k := k) (v := v) (c := .black) (r := r) hl.isRed_of_red
        obtain ⟨-, hlt, hent⟩ := remove_of_stepLeft hs hx
        have hsl := (sorted_split.1 (hent ▸ hsorted)).1
        obtain ⟨l₁, c₁, heq, hl₁, -, hes⟩ :=
          remove_left hs hsorted hx (.inl rfl) (ih hlt (.red hl) hsl)
        rw [heq]
        exact ⟨⟨_, llrb_fixUp_black hl₁ hr, fun _ => if_neg (by simp)⟩, by
          rw [entries_fixUp, entries, hes]⟩
      · cases hl with
        | @red k₁ v₁ _ ll lr hll hlr =>
          -- the red left child moves up, the node moves into the right side
          have hs : (valueNode k v .black (valueNode k₁ v₁ .red ll lr) r).stepRight =
              valueNode k₁ v₁ .black ll (valueNode k v .red lr r) := by
            simp [stepRight, rotateRight]
          obtain ⟨-, hlt, hent⟩ := remove_of_stepRight hs hx
          obtain ⟨-, hsr, -, hkr⟩ := sorted_split.1 (hent ▸ hsorted)
          have hk : k₁ < k := hkr (k, v) (by simp [entries])
          obtain ⟨k₂, v₂, r₂, c₂, heq, hr₂, -, hes⟩ := remove_right hs hsorted hx (hk.le.trans hx) rfl
            (fun hxk => absurd (hxk ▸ hx) hk.not_ge) (ih hlt (.red (.red hlr hr)) hsr)
          rw [heq]
          exact ⟨⟨_, llrb_fixUp_black hll hr₂, fun _ => if_neg (by simp)⟩, by
            rw [entries_fixUp, entries, hes]⟩
    | @rightRed k v d l r hl hr hx =>
      have hs := stepRight_of_red (k := k) (v := v) (c := .black) hl hr.isRed_of_red
      obtain ⟨-, hlt, hent⟩ := remove_of_stepRight hs hx
      have hsr := (sorted_split.1 (hent ▸ hsorted)).2.1
      obtain ⟨k₁, v₁, r₁, c₁, heq, hr₁, -, hes⟩ := remove_right hs hsorted hx hx
        (isEmpty_of_isRed hr.isRed_of_red) (fun _ => ⟨hr, .inl rfl⟩) (ih hlt (.red hr) hsr)
      rw [heq]
      exact ⟨⟨_, llrb_fixUp_black hl hr₁, fun _ => if_neg (by simp)⟩, by
        rw [entries_fixUp, entries, hes]⟩

/-- Removal at a black root, painted black again. -/
theorem remove_root (h : LLRB .black d t) (hsorted : Sorted t.entries) :
    (∃ d', LLRB .black d' ((t.remove x).copyWith none none (some .black) none none)) ∧
      (t.remove x).entries = SortedDict.remove x t.entries := by
  cases h with
  | emptyNode =>
    rw [remove]
    exact ⟨⟨_, .emptyNode⟩, rfl⟩
  | @black k v c d l r hl hr =>
    cases c with
    | red =>
      have hrem := removed_of_loose (x := x) (.leftRed hl hr) hsorted
      exact ⟨hrem.black.blacken, hrem.entries_eq⟩
    | black =>
      obtain ⟨hreb, hes⟩ := rebuilt_remove hl hr hsorted fun _ hs hsorted => removed_of_loose hs hsorted
      refine ⟨?_, hes⟩
      generalize (valueNode k v .black l r).remove x = t' at hreb
      cases hreb with
      | kept hl hr => exact (LLRB.black hl hr).blacken
      | gone => exact ⟨_, .emptyNode⟩
      | @flipped _ _ _ c₁ c₂ _ _ hl' hr' hred =>
        cases c₁ with
        | black => exact ⟨_, (fixUp_red hl' hr').blacken⟩
        | red =>
          cases c₂ with
          | black =>
            rw [FLLRBColor.flip_black, fixUp_right_black hl' hr']
            exact ⟨_, (RedRed.mk hl' hr').blacken⟩
          | red =>
            cases hl' with
            | red hll hlr =>
              cases hr' with
              | red hrl hrr =>
                rw [fixUp_both_red hll]
                exact (LLRB.black (.black hll hlr) (.black hrl hrr)).blacken

end Removal

end FLLRBNode

end ShopingList
