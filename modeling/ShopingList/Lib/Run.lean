import Mathlib.Data.List.Basic

/-!
# Runs

`run` takes the actions of a list one after the other; `Along C` says that every
one of them meets the condition `C` in the state it finds. What every
such step preserves holds at the end of every such run (`run_induct`).
-/

namespace Run

variable {σ α : Type} (step : α → σ → σ)

def run : List α → σ → σ
  | [], s => s
  | a :: as, s => run as (step a s)

/-- Every action meets the condition in the state it finds. -/
def Along (C : α → σ → Prop) : List α → σ → Prop
  | [], _ => True
  | a :: as, s => C a s ∧ Along C as (step a s)

instance (C : α → σ → Prop) [∀ a s, Decidable (C a s)] :
    ∀ as s, Decidable (Along step C as s)
  | [], _ => inferInstanceAs (Decidable True)
  | a :: as, s =>
    have : Decidable (Along step C as (step a s)) := instDecidableAlong C as (step a s)
    inferInstanceAs (Decidable (_ ∧ _))

variable {step}

theorem run_append (as bs : List α) (s : σ) :
    run step (as ++ bs) s = run step bs (run step as s) := by
  induction as generalizing s with
  | nil => rfl
  | cons a as ih => exact ih _

theorem along_append {C : α → σ → Prop} {as bs : List α} {s : σ} :
    Along step C (as ++ bs) s ↔ Along step C as s ∧ Along step C bs (run step as s) := by
  induction as generalizing s with
  | nil => simp [Along, run]
  | cons a as ih => simp only [List.cons_append, Along, run, ih, and_assoc]

/-- A condition along a run is one on each action and the run before it. -/
theorem along_iff_split {C : α → σ → Prop} {as : List α} {s : σ} :
    Along step C as s ↔ ∀ before a after, as = before ++ a :: after → C a (run step before s) := by
  constructor
  · rintro h before a after rfl
    exact (along_append.1 h).2.1
  · intro h
    induction as generalizing s with
    | nil => trivial
    | cons a as ih =>
      refine ⟨h [] a as rfl, ih fun before b after he => ?_⟩
      rw [he] at h
      exact h (a :: before) b after rfl

theorem Along.imp {C D : α → σ → Prop} (h : ∀ a s, C a s → D a s) {as : List α} {s : σ}
    (hc : Along step C as s) : Along step D as s := by
  induction as generalizing s with
  | nil => trivial
  | cons a as ih => exact ⟨h a s hc.1, ih hc.2⟩

/-- What every step meeting the condition preserves, every such run preserves. -/
theorem run_induct {C : α → σ → Prop} {P : σ → Prop} (h : ∀ a s, C a s → P s → P (step a s))
    {as : List α} {s : σ} (hc : Along step C as s) (hs : P s) : P (run step as s) := by
  induction as generalizing s with
  | nil => exact hs
  | cons a as ih => exact ih hc.2 (h a s hc.1 hs)

/-- What every step preserves, every run preserves. -/
theorem run_invariant {P : σ → Prop} (h : ∀ a s, P s → P (step a s)) (as : List α) {s : σ} (hs : P s) :
    P (run step as s) := by
  induction as generalizing s with
  | nil => exact hs
  | cons a as ih => exact ih (h a s hs)

/-- In a run whose actions meet `C`, with an invariant that `C` keeps, what the
two imply of an action holds along the run. -/
theorem along_of_invariant {C D : α → σ → Prop} {P : σ → Prop} (h : ∀ a s, C a s → P s → P (step a s))
    (hd : ∀ a s, C a s → P s → D a s) {as : List α} {s : σ} (hc : Along step C as s) (hs : P s) :
    Along step D as s := by
  induction as generalizing s with
  | nil => trivial
  | cons a as ih => exact ⟨hd a s hc.1 hs, ih hc.2 (h a s hc.1 hs)⟩

/-- Under an invariant that `C` keeps, conditions that agree step by step agree along runs. -/
theorem along_iff {C D : α → σ → Prop} {P : σ → Prop} (h : ∀ a s, C a s → P s → P (step a s))
    (hcd : ∀ a s, P s → (C a s ↔ D a s)) {as : List α} {s : σ} (hs : P s) :
    Along step C as s ↔ Along step D as s := by
  induction as generalizing s with
  | nil => exact Iff.rfl
  | cons a as ih =>
    simp only [Along]
    rw [← hcd a s hs]
    exact and_congr_right fun hc => ih (h a s hc hs)

end Run
