import Mathlib.Data.List.Perm.Basic

/-!
# Loops that can raise

`loop` runs a step over a list and stops at the first exception, keeping the
state that the exception found. `outcome` is the state left behind either way.
-/

namespace Raising

variable {α β ε σ : Type}

/-- A computation in sequence succeeds when both parts do. -/
theorem bind_ok_iff {x : Except ε α} {f : α → Except ε β} {b : β} :
    (x >>= f) = .ok b ↔ ∃ a, x = .ok a ∧ f a = .ok b := by
  cases x with
  | error e => exact iff_of_false (fun h => by cases h) fun ⟨_, h, _⟩ => by cases h
  | ok a => exact ⟨fun h => ⟨a, rfl, h⟩, fun ⟨_, h, h'⟩ => by cases h; exact h'⟩

/-- The computation gives what `P` says, or raises what `E` allows. -/
def Gives (E : ε → Prop) (P : α → Prop) : Except ε α → Prop
  | .ok a => P a
  | .error e => E e

section Gives
variable {E : ε → Prop} {P Q : α → Prop} {R : β → Prop} {x : Except ε α}

theorem Gives.imp (h : Gives E P x) (hPQ : ∀ a, P a → Q a) : Gives E Q x := by
  cases x with
  | error e => exact h
  | ok a => exact hPQ a h

theorem Gives.bind {f : α → Except ε β} (h : Gives E P x) (hf : ∀ a, P a → Gives E R (f a)) :
    Gives E R (x >>= f) := by
  cases x with
  | error e => exact h
  | ok a => exact hf a h

theorem Gives.of_ok {a : α} (h : Gives E P x) (hx : x = .ok a) : P a := by
  rw [hx] at h
  exact h

/-- What is never allowed is not raised. -/
theorem Gives.exists_ok (h : Gives E P x) (hE : ∀ e, ¬ E e) : ∃ a, x = .ok a ∧ P a := by
  cases x with
  | error e => exact absurd h (hE e)
  | ok a => exact ⟨a, rfl, h⟩

/-- What every step keeps or raises, a fold keeps or raises. -/
theorem gives_foldlM {P : σ → Prop} {f : σ → α → Except ε σ} {l : List α} {s : σ}
    (hstep : ∀ a ∈ l, ∀ s, P s → Gives E P (f s a)) (hs : P s) : Gives E P (l.foldlM f s) := by
  induction l generalizing s with
  | nil => exact hs
  | cons a l ih =>
    rw [List.foldlM_cons]
    exact (hstep a List.mem_cons_self s hs).bind fun s' hs' =>
      ih (fun b hb => hstep b (List.mem_cons_of_mem a hb)) hs'

end Gives

def loop (step : α → σ → Except ε σ) : List α → σ → Except (ε × σ) σ
  | [], s => .ok s
  | a :: as, s =>
    match step a s with
    | .ok s' => loop step as s'
    | .error e => .error (e, s)

def outcome : Except (ε × σ) σ → σ
  | .ok s => s
  | .error (_, s) => s

/-- What every step keeps, the loop keeps, whether or not it raises. -/
theorem outcome_loop {step : α → σ → Except ε σ} {P : σ → Prop} {as : List α} {s : σ}
    (h : ∀ a ∈ as, ∀ s s', P s → step a s = .ok s' → P s') (hs : P s) :
    P (outcome (loop step as s)) := by
  induction as generalizing s with
  | nil => exact hs
  | cons a as ih =>
    rw [loop]
    cases hstep : step a s with
    | ok s' =>
      exact ih (fun b hb => h b (List.mem_cons_of_mem _ hb)) (h a List.mem_cons_self s s' hs hstep)
    | error e => exact hs

theorem of_loop_ok {step : α → σ → Except ε σ} {P : σ → Prop} {as : List α} {s s' : σ}
    (hl : loop step as s = .ok s') (h : ∀ a ∈ as, ∀ s s', P s → step a s = .ok s' → P s')
    (hs : P s) : P s' := by
  have ho := outcome_loop h hs
  rw [hl] at ho
  exact ho

/-- A loop whose steps raise on certain elements runs up to the first of these. -/
theorem outcome_loop_takeWhile {step : α → σ → Except ε σ} {p : α → Bool} {f : α → σ → σ}
    (hok : ∀ a s, p a = true → step a s = .ok (f a s))
    (herror : ∀ a s, p a = false → ∃ e, step a s = .error e) (as : List α) (s : σ) :
    outcome (loop step as s) = (as.takeWhile p).foldl (fun s a => f a s) s := by
  induction as generalizing s with
  | nil => rfl
  | cons a as ih =>
    rw [loop, List.takeWhile_cons]
    cases hp : p a with
    | true =>
      rw [hok a s hp]
      exact ih _
    | false =>
      obtain ⟨e, he⟩ := herror a s hp
      rw [he]
      rfl

/-- In a loop that does not raise every step succeeds. -/
theorem ok_of_loop {step : α → σ → Except ε σ} {as : List α} {s s' : σ}
    (h : loop step as s = .ok s') : ∀ a ∈ as, ∃ x y, step a x = .ok y := by
  induction as generalizing s with
  | nil => simp
  | cons b as ih =>
    rw [loop] at h
    cases hstep : step b s with
    | error e => rw [hstep] at h; cases h
    | ok s₁ =>
      rw [hstep] at h
      intro a ha
      rcases List.mem_cons.1 ha with rfl | ha
      · exact ⟨s, s₁, hstep⟩
      · exact ih h a ha

theorem mapM_ok {f : α → Except ε β} {g : α → β} {l : List α} (h : ∀ a ∈ l, f a = .ok (g a)) :
    l.mapM f = .ok (l.map g) := by
  induction l with
  | nil => rfl
  | cons a l ih =>
    rw [List.mapM_cons, h a List.mem_cons_self, ih fun b hb => h b (List.mem_cons_of_mem _ hb)]
    rfl

theorem mapM_total {f : α → Except ε β} {l : List α} (h : ∀ a ∈ l, ∃ b, f a = .ok b) :
    ∃ ys, l.mapM f = .ok ys := by
  induction l with
  | nil => exact ⟨[], rfl⟩
  | cons a l ih =>
    obtain ⟨b, hb⟩ := h a List.mem_cons_self
    obtain ⟨ys, hys⟩ := ih fun c hc => h c (List.mem_cons_of_mem _ hc)
    exact ⟨b :: ys, by rw [List.mapM_cons, hb, hys]; rfl⟩

/-- A traversal that does not raise has read every element. -/
theorem forall₂_of_mapM {f : α → Except ε β} {l : List α} {ys : List β} (h : l.mapM f = .ok ys) :
    List.Forall₂ (fun a b => f a = .ok b) l ys := by
  induction l generalizing ys with
  | nil =>
    rw [List.mapM_nil] at h
    cases h
    exact .nil
  | cons a l ih =>
    rw [List.mapM_cons] at h
    cases ha : f a with
    | error e =>
      rw [ha] at h
      cases h
    | ok b =>
      cases hl : l.mapM f with
      | error e =>
        rw [ha, hl] at h
        cases h
      | ok bs =>
        rw [ha, hl] at h
        cases h
        exact .cons ha (ih hl)

/-- What a list relates to an element of the other one. -/
theorem exists_left {R : α → β → Prop} {l : List α} {ys : List β} (h : List.Forall₂ R l ys) {b : β} (hb : b ∈ ys) :
    ∃ a ∈ l, R a b := by
  induction h with
  | nil => cases hb
  | cons hab _ ih =>
    rcases List.mem_cons.1 hb with rfl | hb
    · exact ⟨_, List.mem_cons_self, hab⟩
    · obtain ⟨a, ha, he⟩ := ih hb
      exact ⟨a, List.mem_cons_of_mem _ ha, he⟩

theorem exists_right {R : α → β → Prop} {l : List α} {ys : List β} (h : List.Forall₂ R l ys) {a : α} (ha : a ∈ l) :
    ∃ b ∈ ys, R a b :=
  exists_left h.flip ha

/-- One element is related to one. -/
theorem exists_singleton {R : α → β → Prop} {a : α} {ys : List β} (h : List.Forall₂ R [a] ys) :
    ∃ b, ys = [b] ∧ R a b := by
  cases h with
  | cons hab hnil =>
    cases hnil
    exact ⟨_, rfl, hab⟩

theorem exists_mem_of_mapM {f : α → Except ε β} {l : List α} {ys : List β} (h : l.mapM f = .ok ys) {a : α}
    (ha : a ∈ l) : ∃ b ∈ ys, f a = .ok b :=
  exists_right (forall₂_of_mapM h) ha

theorem mem_of_mapM {f : α → Except ε β} {l : List α} {ys : List β} (h : l.mapM f = .ok ys) {b : β}
    (hb : b ∈ ys) : ∃ a ∈ l, f a = .ok b :=
  exists_left (forall₂_of_mapM h) hb

theorem ok_of_mapM {f : α → Except ε β} {l : List α} {ys : List β} (h : l.mapM f = .ok ys) {a : α}
    (ha : a ∈ l) : ∃ b, f a = .ok b := by
  obtain ⟨b, -, hb⟩ := exists_mem_of_mapM h ha
  exact ⟨b, hb⟩

/-- A traversal raises what it meets at an element. -/
theorem error_of_mapM {f : α → Except ε β} {l : List α} {e : ε} (h : l.mapM f = .error e) :
    ∃ a ∈ l, f a = .error e := by
  induction l with
  | nil =>
    rw [List.mapM_nil] at h
    cases h
  | cons a l ih =>
    rw [List.mapM_cons] at h
    cases ha : f a with
    | error e' =>
      rw [ha] at h
      cases h
      exact ⟨a, List.mem_cons_self, ha⟩
    | ok b =>
      cases hl : l.mapM f with
      | error e' =>
        rw [ha, hl] at h
        cases h
        obtain ⟨x, hx, he⟩ := ih hl
        exact ⟨x, List.mem_cons_of_mem _ hx, he⟩
      | ok bs =>
        rw [ha, hl] at h
        cases h

/-- What holds of all elements of one list holds of all of the other one. -/
theorem forall_iff_of_forall₂ {R : α → β → Prop} {P : α → Prop} {Q : β → Prop} {l : List α} {ys : List β}
    (h : List.Forall₂ R l ys) (hR : ∀ a b, R a b → (P a ↔ Q b)) : (∀ a ∈ l, P a) ↔ ∀ b ∈ ys, Q b := by
  constructor
  · intro hP b hb
    obtain ⟨a, ha, hab⟩ := exists_left h hb
    exact (hR a b hab).1 (hP a ha)
  · intro hQ a ha
    obtain ⟨b, hb, hab⟩ := exists_right h ha
    exact (hR a b hab).2 (hQ b hb)

/-- A traversal of elements each of which raises or gives what `R` says. -/
theorem mapM_cases {f : α → Except ε β} {D : α → Prop} {R : α → β → Prop} {l : List α}
    (h : ∀ a ∈ l, (¬ D a ∧ ∃ e, f a = .error e) ∨ D a ∧ ∃ b, f a = .ok b ∧ R a b) :
    (¬ (∀ a ∈ l, D a) ∧ ∃ e, l.mapM f = .error e) ∨
      (∀ a ∈ l, D a) ∧ ∃ ys, l.mapM f = .ok ys ∧ List.Forall₂ R l ys := by
  induction l with
  | nil => exact .inr ⟨List.forall_mem_nil D, [], rfl, .nil⟩
  | cons a l ih =>
    rw [List.mapM_cons, List.forall_mem_cons]
    rcases h a List.mem_cons_self with ⟨ha, e, he⟩ | ⟨ha, b, hb, hab⟩
    · exact .inl ⟨fun hall => ha hall.1, e, by rw [he]; rfl⟩
    rcases ih fun c hc => h c (List.mem_cons_of_mem _ hc) with ⟨hl, e, he⟩ | ⟨hl, ys, hys, hf⟩
    · exact .inl ⟨fun hall => hl hall.2, e, by rw [hb, he]; rfl⟩
    · exact .inr ⟨⟨ha, hl⟩, b :: ys, by rw [hb, hys]; rfl, .cons hab hf⟩

end Raising
