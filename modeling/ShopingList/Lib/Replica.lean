import Mathlib.Data.Option.Basic
import Mathlib.Tactic.Common

/-!
# Replicas

A `Store` maps keys to records and a record maps fields to values, both
partially. `merge` keeps every key and field of two stores; where both have a
value, `pick` chooses one. Nothing is assumed of the choice: `merge_self` needs
only that it is one of the two, and `alternate_eq_iff` says when two replicas
that exchange their stores through a third one twice end up equal.
-/

namespace Replica

variable {κ ι ν : Type}

abbrev Store (κ ι ν : Type) := κ → Option (ι → Option ν)

abbrev Pick (κ ι ν : Type) := κ → ι → ν → ν → ν

/-- The result is one of the two values. -/
def Chooses (pick : Pick κ ι ν) : Prop := ∀ k i a b, pick k i a b = a ∨ pick k i a b = b

def merge (pick : Pick κ ι ν) (s t : Store κ ι ν) : Store κ ι ν := fun k =>
  Option.merge (fun f g i => Option.merge (pick k i) (f i) (g i)) (s k) (t k)

/-- The value of a field of the record at a key. -/
def value (s : Store κ ι ν) (k : κ) (i : ι) : Option ν := (s k).bind fun f => f i

theorem ext {s t : Store κ ι ν} (hk : ∀ k, (s k).isSome = (t k).isSome)
    (hv : ∀ k i, value s k i = value t k i) : s = t := by
  funext k
  have hs := hk k
  have hi := hv k
  unfold value at hi
  cases hsk : s k with
  | none =>
    rw [hsk] at hs
    cases htk : t k with
    | none => rfl
    | some g => rw [htk] at hs; cases hs
  | some f =>
    cases htk : t k with
    | none => rw [hsk, htk] at hs; cases hs
    | some g =>
      rw [hsk, htk] at hi
      exact congrArg some (funext hi)

@[simp] theorem isSome_merge (pick : Pick κ ι ν) (s t : Store κ ι ν) (k : κ) :
    (merge pick s t k).isSome = ((s k).isSome || (t k).isSome) := by
  unfold merge
  cases s k <;> cases t k <;> rfl

@[simp] theorem value_merge (pick : Pick κ ι ν) (s t : Store κ ι ν) (k : κ) (i : ι) :
    value (merge pick s t) k i = Option.merge (pick k i) (value s k i) (value t k i) := by
  simp only [value, merge]
  cases s k with
  | none => cases t k <;> simp
  | some f => cases t k <;> simp

theorem option_merge_self {pick : ν → ν → ν} (h : ∀ a b, pick a b = a ∨ pick a b = b)
    (o : Option ν) : Option.merge pick o o = o := by
  cases o with
  | none => rfl
  | some a => rcases h a a with e | e <;> simp [Option.merge, e]

/-- Merging a store with itself changes nothing, whatever the choices. -/
theorem merge_self {pick : Pick κ ι ν} (h : Chooses pick) (s : Store κ ι ν) :
    merge pick s s = s := by
  refine ext (fun k => ?_) (fun k i => ?_)
  · rw [isSome_merge, Bool.or_self]
  · rw [value_merge, option_merge_self (h k i)]

/-! ## Two replicas and the store between them -/

/-- One value through the exchanges: `b` meets `a` at the second replica, the
winner meets `a` at the first, and its winner meets the former one again. -/
theorem pick_alternate_iff {p q r : ν → ν → ν} {a b : ν} (hp : p a b = a ∨ p a b = b)
    (hq : ∀ x y, q x y = x ∨ q x y = y) (hr : ∀ x y, r x y = x ∨ r x y = y) :
    q (p a b) a = r (q (p a b) a) (p a b) ↔ a = b ∨ p a b = a ∨ q b a = b ∨ r a b = a := by
  rcases hp with e | e
  · rw [e]
    refine iff_of_true ?_ (.inr (.inl rfl))
    rcases hq a a with e2 | e2 <;> rcases hr a a with e3 | e3 <;> rw [e2, e3]
  · rw [e]
    rcases hq b a with e2 | e2
    · rw [e2]
      refine iff_of_true ?_ (.inr (.inr (.inl rfl)))
      rcases hr b b with e3 | e3 <;> rw [e3]
    · rw [e2]
      constructor
      · exact fun h => .inr (.inr (.inr h.symm))
      · have same : a = b → a = r a b := fun h => by
          subst h
          rcases hr a a with e3 | e3 <;> rw [e3]
        rintro (h | h | h | h)
        · exact same h
        · exact same h.symm
        · exact same h
        · exact h.symm

/-- `d₁` and `d₂` exchange their stores through `c` in turns: `d₁`, `d₂`, `d₁`, `d₂`,
a replica and `c` being equal after its turn. The two replicas end up equal if and
only if no value of `d₂` displaces a different one of `d₁` and then gives way
to it at the third turn and displaces it again at the fourth. -/
theorem alternate_eq_iff {p₁ p₂ p₃ p₄ : Pick κ ι ν} (h₂ : Chooses p₂) (h₃ : Chooses p₃)
    (h₄ : Chooses p₄) {c d₁ d₂ m₁ m₂ m₃ m₄ : Store κ ι ν} (e₁ : m₁ = merge p₁ c d₁)
    (e₂ : m₂ = merge p₂ m₁ d₂) (e₃ : m₃ = merge p₃ m₂ m₁) (e₄ : m₄ = merge p₄ m₃ m₂) :
    m₃ = m₄ ↔ ∀ k i a b, Option.merge (p₁ k i) (value c k i) (value d₁ k i) = some a →
      value d₂ k i = some b → a = b ∨ p₂ k i a b = a ∨ p₃ k i b a = b ∨ p₄ k i a b = a := by
  have hkeys : ∀ k, (m₃ k).isSome = (m₄ k).isSome := by
    intro k
    simp only [e₄, e₃, e₂, isSome_merge]
    cases (m₁ k).isSome <;> cases (d₂ k).isSome <;> rfl
  have hval : ∀ k i, (value m₃ k i = value m₄ k i ↔ ∀ a b, value m₁ k i = some a →
      value d₂ k i = some b → a = b ∨ p₂ k i a b = a ∨ p₃ k i b a = b ∨ p₄ k i a b = a) := by
    intro k i
    rw [e₄, value_merge, e₃, value_merge, e₂, value_merge]
    cases h1 : value m₁ k i with
    | none =>
      simp only [Option.merge_none_left, Option.merge_none_right, option_merge_self (h₄ k i)]
      simp
    | some a =>
      cases h2 : value d₂ k i with
      | none =>
        simp only [Option.merge_none_right, option_merge_self (h₃ k i),
          option_merge_self (h₄ k i)]
        simp
      | some b =>
        simp only [Option.merge_some_some, Option.some.injEq]
        rw [pick_alternate_iff (h₂ k i a b) (h₃ k i) (h₄ k i)]
        constructor
        · rintro h _ _ rfl rfl
          exact h
        · exact fun h => h a b rfl rfl
  have hm : ∀ k i, value m₁ k i = Option.merge (p₁ k i) (value c k i) (value d₁ k i) := by
    intro k i
    rw [e₁, value_merge]
  constructor
  · intro h k i a b ha hb
    exact (hval k i).1 (by rw [h]) a b ((hm k i).trans ha) hb
  · intro h
    exact ext hkeys fun k i => (hval k i).2 fun a b ha hb => h k i a b ((hm k i).symm.trans ha) hb

end Replica
