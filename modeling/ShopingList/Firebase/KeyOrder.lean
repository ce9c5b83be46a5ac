import Mathlib.Data.Prod.Lex
import Mathlib.Data.List.Induction
import Mathlib.Data.List.Lex
import Mathlib.Order.Lattice

/-!
# The order of the keys

`[FUtilities compareKey:toKey:]`, the comparator of the children of a node: keys
that are 32-bit integers come first, by value and then by length, the others
after them, unichar by unichar; the sentinels `minName` and `maxName`, which are
told by identity, are the ends.

`rank` maps a key to a place in a linear order. Two different keys share a place
when both are zeroes of one length, one of them with a minus sign (`sameOrdering`); on all
other keys the comparator is a linear order.
-/

namespace ShopingList

/-- An `NSString` is the sequence of its unichars. -/
abbrev Unichars := List Nat

/-- A key, or one of the two sentinels. -/
inductive FName where
  | minName
  | name (s : Unichars)
  | maxName
  deriving DecidableEq, Repr

namespace FUtilities

def charMinus : Nat := 45

def charZero : Nat := 48

def isDigit (c : Nat) : Bool := charZero ≤ c && c ≤ charZero + 9

/-- The loop over the digits. -/
def digitsValue (digits : Unichars) : Int :=
  digits.foldl (fun (value : Int) (c : Nat) => value * 10 + ((c : Int) - charZero)) 0

def tryParseStringToInt (str : Unichars) : Option Int :=
  if str.length > 11 ∨ str.length = 0 then none
  else
    let negative : Bool := str.head? = some charMinus
    if negative ∧ str.length = 1 then none
    else
      let digits := if negative then str.tail else str
      if digits.all isDigit then
        let value := if negative then -digitsValue digits else digitsValue digits
        if value < -2147483648 ∨ value > 2147483647 then none else some value
      else none

/-- `[a compare:b options:NSLiteralSearch]`. -/
def literalCompare (a b : Unichars) : Ordering :=
  if a < b then .lt else if a = b then .eq else .gt

def compareKey : FName → FName → Ordering
  | .minName, .minName => .eq
  | .maxName, .maxName => .eq
  | .minName, _ => .lt
  | _, .maxName => .lt
  | _, .minName => .gt
  | .maxName, _ => .gt
  | .name a, .name b =>
    if a = b then .eq
    else
      match tryParseStringToInt a, tryParseStringToInt b with
      | some aAsInt, some bAsInt =>
        if aAsInt > bAsInt then .gt
        else if aAsInt < bAsInt then .lt
        else if a.length > b.length then .gt
        else if a.length < b.length then .lt
        else .eq
      | some _, none => .lt
      | none, some _ => .gt
      | none, none => literalCompare a b

/-! ## Ranks -/

/-- The place of a key: its class, then its value and length, or its unichars. -/
def rank : FName → ℕ ×ₗ ℤ ×ₗ ℕ ×ₗ List ℕ
  | .minName => toLex (0, toLex (0, toLex (0, [])))
  | .name s =>
    match tryParseStringToInt s with
    | some i => toLex (1, toLex (i, toLex (s.length, [])))
    | none => toLex (2, toLex (0, toLex (0, s)))
  | .maxName => toLex (3, toLex (0, toLex (0, [])))

theorem rank_some {s : Unichars} {i : Int} (h : tryParseStringToInt s = some i) :
    rank (.name s) = toLex (1, toLex (i, toLex (s.length, []))) := by
  rw [rank, h]

theorem literalCompare_lt_iff {a b : Unichars} : literalCompare a b = .lt ↔ a < b := by
  rw [literalCompare]
  split
  · simp [*]
  · split <;> simp [*]

theorem literalCompare_swap {a b : Unichars} (hab : a ≠ b) :
    literalCompare b a = (literalCompare a b).swap := by
  rcases lt_or_gt_of_ne hab with h | h
  · simp [literalCompare, h, h.not_gt, h.ne']
  · simp [literalCompare, h, h.not_gt, h.ne']

/-- Two integers: by value, then by length. -/
theorem compareKey_some {a b : Unichars} {i j : Int} (hab : a ≠ b)
    (ha : tryParseStringToInt a = some i) (hb : tryParseStringToInt b = some j) :
    compareKey (.name a) (.name b) =
      if i > j then .gt else if i < j then .lt
      else if a.length > b.length then .gt else if a.length < b.length then .lt else .eq := by
  simp [compareKey, hab, ha, hb]

/-- The comparator compares the ranks. -/
theorem compareKey_lt_iff (a b : FName) : compareKey a b = .lt ↔ rank a < rank b := by
  cases a with
  | minName =>
    cases b with
    | minName => simp [compareKey]
    | maxName => simp [compareKey, rank, Prod.Lex.toLex_lt_toLex]
    | name b =>
      cases hb : tryParseStringToInt b <;> simp [compareKey, rank, hb, Prod.Lex.toLex_lt_toLex]
  | maxName =>
    cases b with
    | minName => simp [compareKey, rank, Prod.Lex.toLex_lt_toLex]
    | maxName => simp [compareKey]
    | name b =>
      cases hb : tryParseStringToInt b <;> simp [compareKey, rank, hb, Prod.Lex.toLex_lt_toLex]
  | name a =>
    cases b with
    | minName =>
      cases ha : tryParseStringToInt a <;> simp [compareKey, rank, ha, Prod.Lex.toLex_lt_toLex]
    | maxName =>
      cases ha : tryParseStringToInt a <;> simp [compareKey, rank, ha, Prod.Lex.toLex_lt_toLex]
    | name b =>
      by_cases hab : a = b
      · simp [compareKey, hab]
      · cases ha : tryParseStringToInt a with
        | none =>
          cases hb : tryParseStringToInt b <;>
            simp [compareKey, rank, hab, ha, hb, Prod.Lex.toLex_lt_toLex, literalCompare_lt_iff]
        | some i =>
          cases hb : tryParseStringToInt b with
          | none => simp [compareKey, rank, hab, ha, hb, Prod.Lex.toLex_lt_toLex]
          | some j =>
            rw [compareKey_some hab ha hb, rank_some ha, rank_some hb]
            simp only [Prod.Lex.toLex_lt_toLex, lt_irrefl, false_or, true_and, and_false, or_false]
            split_ifs <;> simp <;> omega

theorem compareKey_swap (a b : FName) : compareKey b a = (compareKey a b).swap := by
  cases a with
  | minName => cases b <;> rfl
  | maxName => cases b <;> rfl
  | name a =>
    cases b with
    | minName => rfl
    | maxName => rfl
    | name b =>
      by_cases hab : a = b
      · simp [compareKey, hab]
      · have hba : b ≠ a := Ne.symm hab
        cases ha : tryParseStringToInt a with
        | none =>
          cases hb : tryParseStringToInt b with
          | none => simp [compareKey, hab, hba, ha, hb, literalCompare_swap hab]
          | some j => simp [compareKey, hab, hba, ha, hb]
        | some i =>
          cases hb : tryParseStringToInt b with
          | none => simp [compareKey, hab, hba, ha, hb]
          | some j =>
            rw [compareKey_some hab ha hb, compareKey_some hba hb ha]
            split_ifs <;> first | rfl | omega

theorem compareKey_gt_iff (a b : FName) : compareKey a b = .gt ↔ rank b < rank a := by
  rw [compareKey_swap b a, Ordering.swap_eq_gt, compareKey_lt_iff]

theorem compareKey_eq_iff (a b : FName) : compareKey a b = .eq ↔ rank a = rank b := by
  have hlt := compareKey_lt_iff a b
  have hgt := compareKey_gt_iff a b
  rcases lt_trichotomy (rank a) (rank b) with h | h | h
  · simp [hlt.2 h, h.ne]
  · cases hc : compareKey a b with
    | lt => exact absurd (hlt.1 hc) (by simp [h])
    | eq => simp [h]
    | gt => exact absurd (hgt.1 hc) (by simp [h])
  · simp [hgt.2 h, h.ne']

/-! ## Ties -/

theorem isDigit_iff {c : Nat} : isDigit c = true ↔ 48 ≤ c ∧ c ≤ 57 := by
  rw [isDigit, Bool.and_eq_true, decide_eq_true_eq, decide_eq_true_eq]
  rfl

/-- Digits of one length have one value only if they are the same. -/
theorem digitsValue_inj {a b : Unichars} (hlen : a.length = b.length) (ha : a.all isDigit)
    (hb : b.all isDigit) (h : digitsValue a = digitsValue b) : a = b := by
  induction a using List.reverseRecOn generalizing b with
  | nil => exact (List.length_eq_zero_iff.1 hlen.symm).symm
  | append_singleton a c ih =>
    rcases List.eq_nil_or_concat b with rfl | ⟨b, d, rfl⟩
    · simp at hlen
    · rw [List.concat_eq_append] at *
      simp only [List.length_append, List.length_singleton, Nat.add_right_cancel_iff] at hlen
      simp only [List.all_append, List.all_cons, List.all_nil, Bool.and_true, Bool.and_eq_true,
        isDigit_iff] at ha hb
      simp only [digitsValue, List.foldl_append, List.foldl_cons, List.foldl_nil, charZero] at h
      have hcd : c = d := by omega
      subst hcd
      rw [ih hlen ha.1 hb.1 (by unfold digitsValue charZero; omega)]

def zeros (n : Nat) : Unichars := List.replicate n charZero

theorem digitsValue_zeros (n : Nat) : digitsValue (zeros n) = 0 := by
  induction n with
  | zero => rfl
  | succ n ih =>
    rw [zeros, List.replicate_succ', digitsValue, List.foldl_append]
    change digitsValue (zeros n) * 10 + ((charZero : Int) - charZero) = 0
    rw [ih]
    rfl

theorem all_isDigit_zeros (n : Nat) : (zeros n).all isDigit := by
  rw [zeros, List.all_eq_true]
  intro c hc
  rw [List.eq_of_mem_replicate hc]
  rfl

theorem digitsValue_nonneg {a : Unichars} (ha : a.all isDigit) : 0 ≤ digitsValue a := by
  induction a using List.reverseRecOn with
  | nil => exact Int.le_refl _
  | append_singleton a c ih =>
    simp only [List.all_append, List.all_cons, List.all_nil, Bool.and_true, Bool.and_eq_true,
      isDigit_iff] at ha
    have := ih ha.1
    simp only [digitsValue, List.foldl_append, List.foldl_cons, List.foldl_nil, charZero] at this ⊢
    omega

theorem eq_zeros {a : Unichars} (ha : a.all isDigit) (h : digitsValue a = 0) : a = zeros a.length :=
  digitsValue_inj (by simp [zeros]) ha (all_isDigit_zeros _) (by rw [h, digitsValue_zeros])

/-- What a parsed key looks like. -/
theorem tryParseStringToInt_some {s : Unichars} {i : Int} (h : tryParseStringToInt s = some i) :
    s.length ≤ 11 ∧ s ≠ [] ∧ ((s.all isDigit ∧ i = digitsValue s) ∨
      ∃ digits, s = charMinus :: digits ∧ digits ≠ [] ∧ digits.all isDigit ∧ i = -digitsValue digits) := by
  rw [tryParseStringToInt] at h
  split at h
  · cases h
  · rename_i hlen
    have hne : s ≠ [] := fun hs => hlen (.inr (by rw [hs]; rfl))
    refine ⟨by omega, hne, ?_⟩
    by_cases hneg : s.head? = some charMinus
    · obtain ⟨digits, rfl⟩ : ∃ digits, s = charMinus :: digits := by
        cases s with
        | nil => cases hneg
        | cons c digits =>
          rw [List.head?_cons, Option.some_inj] at hneg
          exact ⟨digits, by rw [hneg]⟩
      simp only [List.head?_cons, decide_true, List.length_cons, true_and, if_true, List.tail_cons] at h
      split at h
      · cases h
      · rename_i h1
        split at h
        · rename_i hdigits
          split at h
          · cases h
          · cases h
            exact .inr ⟨digits, rfl, fun hd => h1 (by rw [hd]; rfl), hdigits, rfl⟩
        · cases h
    · simp only [hneg, decide_false, Bool.false_eq_true, false_and, if_false] at h
      split at h
      · rename_i hdigits
        split at h
        · cases h
        · cases h
          exact .inl ⟨hdigits, rfl⟩
      · cases h

/-- Two zeroes of one length, the second with a minus sign. -/
def SameZero (a b : FName) : Prop :=
  ∃ n, 1 ≤ n ∧ n ≤ 10 ∧ a = .name (zeros (n + 1)) ∧ b = .name (charMinus :: zeros n)

@[simp] theorem length_zeros (n : Nat) : (zeros n).length = n := by simp [zeros]

theorem tryParse_zeros {n : Nat} (h1 : 1 ≤ n) (h2 : n ≤ 11) : tryParseStringToInt (zeros n) = some 0 := by
  have hhead : (zeros n).head? = some charZero := by
    obtain ⟨m, rfl⟩ : ∃ m, n = m + 1 := ⟨n - 1, by omega⟩
    rfl
  have hall := all_isDigit_zeros n
  have hval := digitsValue_zeros n
  rw [tryParseStringToInt, length_zeros, if_neg (by omega), hhead]
  simp [charZero, charMinus, hall, hval]

theorem tryParse_minus_zeros {n : Nat} (h1 : 1 ≤ n) (h2 : n ≤ 10) :
    tryParseStringToInt (charMinus :: zeros n) = some 0 := by
  have hall := all_isDigit_zeros n
  have hval := digitsValue_zeros n
  have hn : n ≠ 0 := by omega
  rw [tryParseStringToInt, List.length_cons, length_zeros, if_neg (by omega)]
  simp [hall, hval, hn]

theorem rank_zeros {n : Nat} (h1 : 1 ≤ n) (h2 : n ≤ 11) :
    rank (.name (zeros n)) = toLex (1, toLex (0, toLex (n, []))) := by
  rw [rank_some (tryParse_zeros h1 h2), length_zeros]

theorem rank_minus_zeros {n : Nat} (h1 : 1 ≤ n) (h2 : n ≤ 10) :
    rank (.name (charMinus :: zeros n)) = toLex (1, toLex (0, toLex (n + 1, []))) := by
  rw [rank_some (tryParse_minus_zeros h1 h2), List.length_cons, length_zeros]

/-- Equal parsed keys are the same, or one of them is a negative zero. -/
theorem tie_of_some {a b : Unichars} {i : Int} (ha : tryParseStringToInt a = some i)
    (hb : tryParseStringToInt b = some i) (hlen : a.length = b.length) :
    a = b ∨ SameZero (.name a) (.name b) ∨ SameZero (.name b) (.name a) := by
  obtain ⟨hla, -, hsa⟩ := tryParseStringToInt_some ha
  obtain ⟨-, -, hsb⟩ := tryParseStringToInt_some hb
  clear ha hb
  have hzero : ∀ {x digits : Unichars}, x.length ≤ 11 → x.all isDigit → digits ≠ [] →
      digits.all isDigit → x.length = (charMinus :: digits).length →
      digitsValue x = -digitsValue digits → SameZero (.name x) (.name (charMinus :: digits)) := by
    intro x digits hlx hx hne hd hlen hval
    have h1 := digitsValue_nonneg hx
    have h2 := digitsValue_nonneg hd
    rw [List.length_cons] at hlen
    have hpos : 1 ≤ digits.length := List.length_pos_iff.2 hne
    refine ⟨digits.length, hpos, by omega, ?_, ?_⟩
    · rw [← hlen, ← eq_zeros hx (by omega)]
    · rw [← eq_zeros hd (by omega)]
  rcases hsa with ⟨ha, rfl⟩ | ⟨da, rfl, hne, hda, rfl⟩
  · rcases hsb with ⟨hb, hval⟩ | ⟨db, rfl, hne, hdb, hval⟩
    · exact .inl (digitsValue_inj hlen ha hb hval)
    · exact .inr (.inl (hzero hla ha hne hdb hlen hval))
  · rcases hsb with ⟨hb, hval⟩ | ⟨db, rfl, -, hdb, hval⟩
    · exact .inr (.inr (hzero (hlen ▸ hla) hb hne hda hlen.symm hval.symm))
    · left
      rw [digitsValue_inj (by simpa using hlen) hda hdb (by omega)]

theorem rank_eq_iff (a b : FName) : rank a = rank b ↔ a = b ∨ SameZero a b ∨ SameZero b a := by
  constructor
  · intro h
    cases a with
    | minName =>
      cases b with
      | minName => exact .inl rfl
      | maxName => simp [rank] at h
      | name b => cases hb : tryParseStringToInt b <;> simp [rank, hb] at h
    | maxName =>
      cases b with
      | minName => simp [rank] at h
      | maxName => exact .inl rfl
      | name b => cases hb : tryParseStringToInt b <;> simp [rank, hb] at h
    | name a =>
      cases b with
      | minName => cases ha : tryParseStringToInt a <;> simp [rank, ha] at h
      | maxName => cases ha : tryParseStringToInt a <;> simp [rank, ha] at h
      | name b =>
        cases ha : tryParseStringToInt a with
        | none =>
          cases hb : tryParseStringToInt b with
          | none => exact .inl (by simpa [rank, ha, hb] using h)
          | some j => simp [rank, ha, hb] at h
        | some i =>
          cases hb : tryParseStringToInt b with
          | none => simp [rank, ha, hb] at h
          | some j =>
            obtain ⟨rfl, hlen⟩ : i = j ∧ a.length = b.length := by simpa [rank, ha, hb] using h
            exact (tie_of_some ha hb hlen).imp (fun h => by rw [h]) id
  · rintro (rfl | ⟨n, h1, h2, rfl, rfl⟩ | ⟨n, h1, h2, rfl, rfl⟩)
    · rfl
    · rw [rank_zeros (by omega) (by omega), rank_minus_zeros h1 h2]
    · rw [rank_zeros (by omega) (by omega), rank_minus_zeros h1 h2]

/-- The comparator is a total preorder, with no ties but the negative zeroes. -/
theorem compareKey_order (a b c : FName) :
    compareKey b a = (compareKey a b).swap ∧
      (compareKey a b ≠ .gt → compareKey b c ≠ .gt → compareKey a c ≠ .gt) ∧
      (compareKey a b = .eq ↔ a = b ∨ SameZero a b ∨ SameZero b a) := by
  refine ⟨compareKey_swap a b, ?_, (compareKey_eq_iff a b).trans (rank_eq_iff a b)⟩
  simp only [ne_eq, compareKey_gt_iff, not_lt]
  exact le_trans

/-! ## Keys as texts -/

/-- The unichars of a text: one, or a surrogate pair, for each character. -/
def unichars (s : String) : Unichars :=
  s.toList.flatMap fun c =>
    if c.toNat < 0x10000 then [c.toNat]
    else [0xD800 + (c.toNat - 0x10000) / 0x400, 0xDC00 + (c.toNat - 0x10000) % 0x400]

/-- Two keys of a dictionary that `keyComparator` does not tell apart. -/
def sameOrdering (a b : String) : Bool :=
  unichars a ≠ unichars b && compareKey (.name (unichars a)) (.name (unichars b)) == .eq

/-- A zero that is not written `0`: the comparator may take another key for it. -/
def isZeroes (s : String) : Bool :=
  decide (tryParseStringToInt (unichars s) = some 0) && 1 < (unichars s).length

/-- **Tied keys are zeroes.** -/
theorem isZeroes_of_sameOrdering {a b : String} (h : sameOrdering a b = true) :
    isZeroes a = true ∧ isZeroes b = true := by
  rw [sameOrdering, Bool.and_eq_true, decide_eq_true_eq, beq_iff_eq, compareKey_eq_iff, rank_eq_iff] at h
  have hzeroes : ∀ x y : Unichars, SameZero (.name x) (.name y) →
      (tryParseStringToInt x = some 0 ∧ 1 < x.length) ∧ tryParseStringToInt y = some 0 ∧ 1 < y.length := by
    rintro x y ⟨n, h1, h2, hx, hy⟩
    cases hx
    cases hy
    refine ⟨⟨tryParse_zeros (by omega) (by omega), ?_⟩, tryParse_minus_zeros h1 h2, ?_⟩
    · rw [length_zeros]
      omega
    · rw [List.length_cons, length_zeros]
      omega
  simp only [isZeroes, Bool.and_eq_true, decide_eq_true_eq]
  obtain ⟨hne, heq | hzero | hzero⟩ := h
  · exact absurd (FName.name.inj heq) hne
  · exact hzeroes _ _ hzero
  · exact (hzeroes _ _ hzero).symm

end FUtilities

end ShopingList
