import Mathlib.Data.Set.Function

/-!
# Objects at addresses

`Addressed addr next S`: the objects of `S` lie below the bound `next`, and no
two of them at one address. Objects made from the bound on are new (`Allocated`), so
a set of old and new objects is addressed again, below a later bound.
-/

namespace Addresses

variable {α : Type} {addr : α → Nat}

structure Addressed (addr : α → Nat) (next : Nat) (S : Set α) : Prop where
  lt : ∀ x ∈ S, addr x < next
  inj : Set.InjOn addr S

/-- Objects at different addresses from `next` on, below `next'`. -/
structure Allocated (addr : α → Nat) (next next' : Nat) (F : Set α) : Prop where
  le : next ≤ next'
  ge : ∀ x ∈ F, next ≤ addr x
  lt : ∀ x ∈ F, addr x < next'
  inj : Set.InjOn addr F

theorem Addressed.mono {next next' : Nat} {S S' : Set α} (h : Addressed addr next S) (hs : S' ⊆ S)
    (hle : next ≤ next') : Addressed addr next' S' :=
  ⟨fun x hx => Nat.lt_of_lt_of_le (h.lt x (hs hx)) hle, h.inj.mono hs⟩

/-- **New objects keep the addresses apart.** -/
theorem Addressed.grow {next next' : Nat} {S S' F : Set α} (h : Addressed addr next S)
    (hF : Allocated addr next next' F) (hs : S' ⊆ S ∪ F) : Addressed addr next' S' := by
  constructor
  · intro x hx
    rcases hs hx with hx | hx
    · have := h.lt x hx
      have := hF.le
      omega
    · exact hF.lt x hx
  · intro x hx y hy he
    rcases hs hx with hx | hx
    · rcases hs hy with hy | hy
      · exact h.inj hx hy he
      · have := h.lt x hx
        have := hF.ge y hy
        omega
    · rcases hs hy with hy | hy
      · have := hF.ge x hx
        have := h.lt y hy
        omega
      · exact hF.inj hx hy he

theorem Allocated.empty {next next' : Nat} (h : next ≤ next') : Allocated addr next next' ∅ :=
  ⟨h, fun _ hx => hx.elim, fun _ hx => hx.elim, Set.injOn_empty addr⟩

theorem Allocated.singleton (x : α) {next next' : Nat} (h : next ≤ addr x) (h' : addr x < next') :
    Allocated addr next next' {x} := by
  refine ⟨by omega, ?_, ?_, Set.injOn_singleton addr x⟩
  · rintro y rfl
    exact h
  · rintro y rfl
    exact h'

/-- New objects made one after the other. -/
theorem Allocated.union {n₁ n₂ n₃ : Nat} {F G : Set α} (hF : Allocated addr n₁ n₂ F) (hG : Allocated addr n₂ n₃ G) :
    Allocated addr n₁ n₃ (F ∪ G) := by
  have hle := hF.le
  have hle' := hG.le
  refine ⟨by omega, ?_, ?_, ?_⟩
  · rintro x (hx | hx)
    · exact hF.ge x hx
    · have := hG.ge x hx
      omega
  · rintro x (hx | hx)
    · have := hF.lt x hx
      omega
    · exact hG.lt x hx
  · have hA : Addressed addr n₂ F := ⟨hF.lt, hF.inj⟩
    exact (hA.grow hG (Set.Subset.refl _)).inj

theorem Allocated.mono {next next' : Nat} {F F' : Set α} (h : Allocated addr next next' F) (hs : F' ⊆ F) :
    Allocated addr next next' F' :=
  ⟨h.le, fun x hx => h.ge x (hs hx), fun x hx => h.lt x (hs hx), h.inj.mono hs⟩

end Addresses
