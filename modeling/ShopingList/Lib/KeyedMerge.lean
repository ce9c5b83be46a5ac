import Mathlib.Data.List.Nodup
import Mathlib.Data.List.Forall2
import Mathlib.Data.List.Perm.Basic
import Mathlib.Data.Option.Basic

/-!
# Merging lists of keyed entries

Two merges of lists whose entries carry an optional key, an entry without key
matching nothing: `unionBy` puts the unmatched entries first and the combined
ones last, `mergeBy` keeps the place of the first list's entries. On lists with
distinct keys both look up as `Option.merge` (`lookup_unionBy`,
`lookup_mergeBy`), and look-ups determine such a list up to order (`perm_of_lookup`).
-/

namespace KeyedMerge

variable {α β κ : Type}

/-! ## Lists up to order -/

/-- The lists are related entry by entry, in some order. -/
def UpToOrder (R : α → β → Prop) (as : List α) (bs : List β) : Prop :=
  ∃ l, as.Perm l ∧ List.Forall₂ R l bs

namespace UpToOrder

variable {γ : Type} {R : α → β → Prop}

theorem perm {as : List α} {l bs : List β} (h : UpToOrder R as l) (hp : l.Perm bs) :
    UpToOrder R as bs := by
  obtain ⟨m, hm, hf⟩ := h
  obtain ⟨m', hp', hf'⟩ := List.perm_comp_forall₂ hp.symm hf.flip
  exact ⟨m', hm.trans hf'.symm, hp'.flip⟩

theorem trans {S : β → γ → Prop} {T : α → γ → Prop} {as : List α} {bs : List β} {cs : List γ}
    (h : UpToOrder R as bs) (h' : UpToOrder S bs cs) (hT : ∀ a b c, R a b → S b c → T a c) :
    UpToOrder T as cs := by
  obtain ⟨l, hl, hf⟩ := h'
  obtain ⟨m, hm, hf'⟩ := h.perm hl
  refine ⟨m, hm, ?_⟩
  clear hm hl h
  induction hf' generalizing cs with
  | nil => cases hf; exact .nil
  | cons hab _ ih =>
    cases hf with
    | cons hbc hf => exact .cons (hT _ _ _ hab hbc) (ih hf)

theorem imp {S : α → β → Prop} {as : List α} {bs : List β} (h : UpToOrder R as bs)
    (hS : ∀ a b, R a b → S a b) : UpToOrder S as bs := by
  obtain ⟨l, hl, hf⟩ := h
  exact ⟨l, hl, hf.imp fun a b => hS a b⟩

theorem mem_left {as : List α} {bs : List β} (h : UpToOrder R as bs) {a : α} (ha : a ∈ as) :
    ∃ b ∈ bs, R a b := by
  obtain ⟨l, hl, hf⟩ := h
  have ha := hl.mem_iff.1 ha
  clear hl
  induction hf with
  | nil => cases ha
  | cons hab _ ih =>
    rename_i _ b _ _ _
    rcases List.mem_cons.1 ha with rfl | ha
    · exact ⟨b, List.mem_cons_self, hab⟩
    · obtain ⟨c, hc, hac⟩ := ih ha
      exact ⟨c, List.mem_cons_of_mem _ hc, hac⟩

theorem map_eq {f : α → γ} {g : β → γ} {as : List α} {bs : List β} (h : UpToOrder R as bs)
    (hR : ∀ a b, R a b → f a = g b) : (as.map f).Perm (bs.map g) := by
  obtain ⟨l, hl, hf⟩ := h
  refine (hl.map f).trans ?_
  clear hl
  induction hf with
  | nil => exact .refl _
  | cons hab _ ih =>
    rw [List.map_cons, List.map_cons, hR _ _ hab]
    exact ih.cons _

end UpToOrder

/-! ## Distinct keys -/

/-- Every entry has a key and no two have the same one. -/
structure Distinct (key : α → Option κ) (l : List α) : Prop where
  nodup : (l.map key).Nodup
  keyed : ∀ a ∈ l, ∃ k, key a = some k

namespace Distinct

variable {key : α → Option κ}

theorem of_cons {a : α} {l : List α} (h : Distinct key (a :: l)) : Distinct key l :=
  ⟨(List.nodup_cons.1 h.nodup).2, fun b hb => h.keyed b (List.mem_cons_of_mem _ hb)⟩

theorem eq_of_key {l : List α} (h : Distinct key l) {a b : α} (ha : a ∈ l) (hb : b ∈ l)
    (hk : key a = key b) : a = b := List.inj_on_of_nodup_map h.nodup ha hb hk

theorem sublist {l l' : List α} (h : Distinct key l) (hs : l'.Sublist l) : Distinct key l' :=
  ⟨h.nodup.sublist (hs.map key), fun a ha => h.keyed a (hs.subset ha)⟩

theorem perm {l l' : List α} (h : Distinct key l) (hp : l.Perm l') : Distinct key l' :=
  ⟨(hp.map key).nodup_iff.1 h.nodup, fun a ha => h.keyed a (hp.mem_iff.2 ha)⟩

theorem map {f : α → β} {key' : β → Option κ} {l : List α} (h : Distinct key l)
    (hf : ∀ a ∈ l, key' (f a) = key a) : Distinct key' (l.map f) := by
  constructor
  · have e : (l.map f).map key' = l.map key := by
      rw [List.map_map]
      exact List.map_congr_left hf
    rw [e]
    exact h.nodup
  · intro b hb
    obtain ⟨a, ha, rfl⟩ := List.mem_map.1 hb
    rw [hf a ha]
    exact h.keyed a ha

theorem append {as bs : List α} (ha : Distinct key as) (hb : Distinct key bs)
    (h : ∀ a ∈ as, ∀ b ∈ bs, key a ≠ key b) : Distinct key (as ++ bs) := by
  constructor
  · rw [List.map_append, List.nodup_append]
    refine ⟨ha.nodup, hb.nodup, fun x hx y hy => ?_⟩
    obtain ⟨a, ham, rfl⟩ := List.mem_map.1 hx
    obtain ⟨b, hbm, rfl⟩ := List.mem_map.1 hy
    exact h a ham b hbm
  · intro c hc
    exact (List.mem_append.1 hc).elim (ha.keyed c) (hb.keyed c)

end Distinct

theorem UpToOrder.distinct {key : α → Option κ} {key' : β → Option κ} {R : α → β → Prop} {as : List α} {bs : List β}
    (h : UpToOrder R as bs) (hR : ∀ a b, R a b → key a = key' b) (hb : Distinct key' bs) :
    Distinct key as := by
  refine ⟨(h.map_eq hR).nodup_iff.2 hb.nodup, fun a ha => ?_⟩
  obtain ⟨b, hbm, hab⟩ := h.mem_left ha
  rw [hR a b hab]
  exact hb.keyed b hbm

variable [DecidableEq κ]

instance (key : α → Option κ) (l : List α) : Decidable (Distinct key l) :=
  decidable_of_iff ((l.map key).Nodup ∧ ∀ a ∈ l, (key a).isSome)
    ⟨fun h => ⟨h.1, fun a ha => Option.isSome_iff_exists.1 (h.2 a ha)⟩,
      fun h => ⟨h.nodup, fun a ha => Option.isSome_iff_exists.2 (h.keyed a ha)⟩⟩

section
variable (key : α → Option κ)

/-- Both entries have a key and it is the same. -/
def sameKey (a b : α) : Bool :=
  match key a, key b with
  | some x, some y => decide (x = y)
  | _, _ => false

/-- The first entry with key `k`. -/
def lookup (k : κ) (l : List α) : Option α := l.find? fun a => decide (key a = some k)

def unionBy (comb : α → α → α) (as bs : List α) : List α :=
  as.filter (fun a => !bs.any (sameKey key a)) ++ bs.filter (fun b => !as.any (sameKey key b)) ++
    (as.filter fun a => bs.any (sameKey key a)).map fun a =>
      (bs.find? (fun b => sameKey key b a)).elim a (comb a)

def mergeBy (pick : α → α → α) (as bs : List α) : List α :=
  as.flatMap (fun a =>
    if bs.any (sameKey key a) then (bs.filter (sameKey key a)).map (pick a) else [a]) ++
  bs.filter fun b => !as.any (sameKey key b)

end

variable {key : α → Option κ}

theorem sameKey_iff {a b : α} : sameKey key a b = true ↔ ∃ k, key a = some k ∧ key b = some k := by
  unfold sameKey
  cases ha : key a <;> cases hb : key b <;> simp [eq_comm]

/-- An entry without a key matches none. -/
theorem sameKey_none {a : α} (h : key a = none) (b : α) : sameKey key a b = false := by
  rw [sameKey, h]

theorem sameKey_comm (a b : α) : sameKey key a b = sameKey key b a := by
  rw [Bool.eq_iff_iff, sameKey_iff, sameKey_iff]
  simp only [and_comm]

theorem any_sameKey {a : α} {bs : List α} :
    bs.any (sameKey key a) = true ↔ ∃ b ∈ bs, ∃ k, key a = some k ∧ key b = some k := by
  simp only [List.any_eq_true, sameKey_iff]

/-! ## Look-ups -/

theorem lookup_some {k : κ} {l : List α} {a : α} (h : lookup key k l = some a) :
    a ∈ l ∧ key a = some k :=
  ⟨List.mem_of_find?_eq_some h, by simpa using List.find?_some h⟩

theorem lookup_none {k : κ} {l : List α} : lookup key k l = none ↔ ∀ a ∈ l, key a ≠ some k := by
  simp [lookup]

theorem lookup_cons (k : κ) (a : α) (l : List α) :
    lookup key k (a :: l) = if key a = some k then some a else lookup key k l := by
  rw [lookup, List.find?_cons]
  by_cases h : key a = some k <;> simp [h, lookup]

theorem lookup_append (k : κ) (as bs : List α) :
    lookup key k (as ++ bs) = (lookup key k as).or (lookup key k bs) := List.find?_append

theorem Distinct.lookup {l : List α} (h : Distinct key l) {a : α} (ha : a ∈ l) {k : κ}
    (hk : key a = some k) : lookup key k l = some a := by
  cases hl : KeyedMerge.lookup key k l with
  | none => exact absurd hk (lookup_none.1 hl a ha)
  | some b =>
    obtain ⟨hb, hbk⟩ := lookup_some hl
    rw [h.eq_of_key hb ha (hbk.trans hk.symm)]

theorem Distinct.lookup_perm {l l' : List α} (h : Distinct key l) (hp : l.Perm l') (k : κ) :
    KeyedMerge.lookup key k l = KeyedMerge.lookup key k l' := by
  cases hl : KeyedMerge.lookup key k l with
  | none =>
    symm
    exact lookup_none.2 fun a ha => lookup_none.1 hl a (hp.mem_iff.2 ha)
  | some a =>
    obtain ⟨ha, hk⟩ := lookup_some hl
    exact ((h.perm hp).lookup (hp.mem_iff.1 ha) hk).symm

theorem lookup_map {f : α → β} {key' : β → Option κ} {l : List α} (hf : ∀ a ∈ l, key' (f a) = key a)
    (k : κ) : lookup key' k (l.map f) = (lookup key k l).map f := by
  induction l with
  | nil => rfl
  | cons a l ih =>
    rw [List.map_cons, lookup_cons, lookup_cons, hf a List.mem_cons_self,
      ih fun b hb => hf b (List.mem_cons_of_mem _ hb)]
    split <;> rfl

/-- Look-ups that agree up to `R` relate the lists entry by entry, up to order. -/
theorem perm_of_lookup {key' : β → Option κ} {R : α → β → Prop} {as : List α} {bs : List β}
    (ha : Distinct key as) (hb : Distinct key' bs)
    (h : ∀ k, Option.Rel R (lookup key k as) (lookup key' k bs)) :
    UpToOrder R as bs := by
  induction bs generalizing as with
  | nil =>
    cases as with
    | nil => exact ⟨[], .refl _, .nil⟩
    | cons a as =>
      obtain ⟨k, hk⟩ := ha.keyed a List.mem_cons_self
      have := h k
      rw [lookup_cons, if_pos hk] at this
      cases this
  | cons b bs ih =>
    obtain ⟨k, hk⟩ := hb.keyed b List.mem_cons_self
    have hkb := h k
    rw [lookup_cons k b bs, if_pos hk] at hkb
    cases hla : lookup key k as with
    | none => rw [hla] at hkb; cases hkb
    | some a =>
      rw [hla] at hkb
      obtain ⟨ham, hak⟩ := lookup_some hla
      obtain ⟨s, t, rfl⟩ := List.append_of_mem ham
      have hp : (s ++ a :: t).Perm (a :: (s ++ t)) := List.perm_middle
      have hd := ha.perm hp
      obtain ⟨l, hl, hf⟩ := ih hd.of_cons hb.of_cons fun j => by
        have hj := h j
        rw [ha.lookup_perm hp, lookup_cons, lookup_cons, hak, hk] at hj
        by_cases e : k = j
        · subst e
          have h1 : lookup key k (s ++ t) = none := lookup_none.2 fun c hc hck => by
            refine (List.nodup_cons.1 hd.nodup).1 ?_
            rw [hak, ← hck]
            exact List.mem_map_of_mem hc
          have h2 : lookup key' k bs = none := lookup_none.2 fun c hc hck => by
            refine (List.nodup_cons.1 hb.nodup).1 ?_
            rw [hk, ← hck]
            exact List.mem_map_of_mem hc
          rw [h1, h2]
          exact .none
        · simpa [e] using hj
      cases hkb with
      | some hR => exact ⟨a :: l, hp.trans (hl.cons a), .cons hR hf⟩

theorem UpToOrder.lookup {key' : β → Option κ} {R : α → β → Prop} {as : List α} {bs : List β}
    (h : UpToOrder R as bs) (hR : ∀ a b, R a b → key a = key' b) (hb : Distinct key' bs) (k : κ) :
    Option.Rel R (lookup key k as) (lookup key' k bs) := by
  have ha := h.distinct hR hb
  obtain ⟨l, hl, hf⟩ := h
  rw [ha.lookup_perm hl]
  clear ha hl hb
  induction hf with
  | nil => exact .none
  | cons hab _ ih =>
    rw [lookup_cons, lookup_cons, hR _ _ hab]
    split
    · exact .some hab
    · exact ih

/-! ## Merges -/

variable {comb pick : α → α → α} {as bs : List α}

/-- A combined entry comes from the first match. -/
theorem mem_unionBy_find {x : α} (h : x ∈ unionBy key comb as bs) :
    (x ∈ as ∧ ∀ b ∈ bs, sameKey key x b = false) ∨
    (x ∈ bs ∧ ∀ a ∈ as, sameKey key x a = false) ∨
    ∃ a ∈ as, ∃ b, bs.find? (fun b => sameKey key b a) = some b ∧ x = comb a b := by
  rw [unionBy, List.mem_append, List.mem_append] at h
  rcases h with (h | h) | h
  · rw [List.mem_filter] at h
    simp only [Bool.not_eq_true', List.any_eq_false, Bool.not_eq_true] at h
    exact .inl h
  · rw [List.mem_filter] at h
    simp only [Bool.not_eq_true', List.any_eq_false, Bool.not_eq_true] at h
    exact .inr (.inl h)
  · obtain ⟨a, ha, rfl⟩ := List.mem_map.1 h
    rw [List.mem_filter] at ha
    obtain ⟨ha, hab⟩ := ha
    obtain ⟨b, hb, hab⟩ := List.any_eq_true.1 hab
    cases hf : bs.find? (fun b => sameKey key b a) with
    | none =>
      have := List.find?_eq_none.1 hf b hb
      rw [sameKey_comm] at this
      exact absurd hab this
    | some c => exact .inr (.inr ⟨a, ha, c, hf, rfl⟩)

theorem mem_unionBy {x : α} (h : x ∈ unionBy key comb as bs) :
    (x ∈ as ∧ ∀ b ∈ bs, sameKey key x b = false) ∨
    (x ∈ bs ∧ ∀ a ∈ as, sameKey key x a = false) ∨
    ∃ a ∈ as, ∃ b ∈ bs, sameKey key a b = true ∧ x = comb a b := by
  rcases mem_unionBy_find h with h | h | ⟨a, ha, b, hf, rfl⟩
  · exact .inl h
  · exact .inr (.inl h)
  · have hs := List.find?_some hf
    rw [sameKey_comm] at hs
    exact .inr (.inr ⟨a, ha, b, List.mem_of_find?_eq_some hf, hs, rfl⟩)

theorem mem_unionBy_left {a : α} (ha : a ∈ as) (h : ∀ b ∈ bs, sameKey key a b = false) :
    a ∈ unionBy key comb as bs :=
  List.mem_append_left _ (List.mem_append_left _ (List.mem_filter.2 ⟨ha, by simpa using h⟩))

theorem mem_unionBy_right {b : α} (hb : b ∈ bs) (h : ∀ a ∈ as, sameKey key b a = false) :
    b ∈ unionBy key comb as bs :=
  List.mem_append_left _ (List.mem_append_right _ (List.mem_filter.2 ⟨hb, by simpa using h⟩))

theorem mem_unionBy_both {a b : α} (ha : a ∈ as) (h : bs.find? (fun b => sameKey key b a) = some b) :
    comb a b ∈ unionBy key comb as bs := by
  have hb := List.find?_some h
  rw [sameKey_comm] at hb
  refine List.mem_append_right _ (List.mem_map.2 ⟨a, List.mem_filter.2 ⟨ha, ?_⟩, by rw [h]; rfl⟩)
  exact List.any_eq_true.2 ⟨b, List.mem_of_find?_eq_some h, hb⟩

theorem mem_mergeBy {x : α} (h : x ∈ mergeBy key pick as bs) :
    (x ∈ as ∧ ∀ b ∈ bs, sameKey key x b = false) ∨
    (x ∈ bs ∧ ∀ a ∈ as, sameKey key x a = false) ∨
    ∃ a ∈ as, ∃ b ∈ bs, sameKey key a b = true ∧ x = pick a b := by
  rw [mergeBy, List.mem_append] at h
  rcases h with h | h
  · obtain ⟨a, ha, h⟩ := List.mem_flatMap.1 h
    split at h
    · obtain ⟨b, hb, rfl⟩ := List.mem_map.1 h
      rw [List.mem_filter] at hb
      exact .inr (.inr ⟨a, ha, b, hb.1, hb.2, rfl⟩)
    · rename_i hn
      rw [List.mem_singleton] at h
      subst h
      simp only [List.any_eq_true, not_exists, not_and, Bool.not_eq_true] at hn
      exact .inl ⟨ha, hn⟩
  · rw [List.mem_filter] at h
    simp only [Bool.not_eq_true', List.any_eq_false, Bool.not_eq_true] at h
    exact .inr (.inl h)

theorem mem_mergeBy_left {a : α} (ha : a ∈ as) (h : ∀ b ∈ bs, sameKey key a b = false) :
    a ∈ mergeBy key pick as bs := by
  refine List.mem_append_left _ (List.mem_flatMap.2 ⟨a, ha, ?_⟩)
  rw [if_neg]
  · exact List.mem_singleton_self a
  · simpa using h

theorem mem_mergeBy_right {b : α} (hb : b ∈ bs) (h : ∀ a ∈ as, sameKey key b a = false) :
    b ∈ mergeBy key pick as bs :=
  List.mem_append_right _ (List.mem_filter.2 ⟨hb, by simpa using h⟩)

theorem mem_mergeBy_both {a b : α} (ha : a ∈ as) (hb : b ∈ bs) (h : sameKey key a b = true) :
    pick a b ∈ mergeBy key pick as bs := by
  refine List.mem_append_left _ (List.mem_flatMap.2 ⟨a, ha, ?_⟩)
  rw [if_pos (List.any_eq_true.2 ⟨b, hb, h⟩)]
  exact List.mem_map.2 ⟨b, List.mem_filter.2 ⟨hb, h⟩, rfl⟩

/-! ## Look-ups of a merge -/

theorem lookup_filter_of_true {p : α → Bool} {k : κ} {l : List α}
    (h : ∀ a ∈ l, key a = some k → p a = true) : lookup key k (l.filter p) = lookup key k l := by
  induction l with
  | nil => rfl
  | cons a l ih =>
    have ih := ih fun b hb => h b (List.mem_cons_of_mem _ hb)
    rw [List.filter_cons]
    split
    · rw [lookup_cons, lookup_cons, ih]
    · rename_i hp
      rw [lookup_cons, if_neg fun hk => hp (h a List.mem_cons_self hk), ih]

theorem lookup_filter_of_false {p : α → Bool} {k : κ} {l : List α}
    (h : ∀ a ∈ l, key a = some k → p a = false) : lookup key k (l.filter p) = none :=
  lookup_none.2 fun a ha hk => by
    rw [List.mem_filter] at ha
    rw [h a ha.1 hk] at ha
    exact absurd ha.2 (by simp)

theorem any_sameKey_of_lookup {k : κ} {a b : α} (ha : key a = some k)
    (hb : lookup key k bs = some b) : bs.any (sameKey key a) = true :=
  any_sameKey.2 ⟨b, (lookup_some hb).1, k, ha, (lookup_some hb).2⟩

theorem any_sameKey_of_lookup_none {k : κ} {a : α} (ha : key a = some k)
    (hb : lookup key k bs = none) : bs.any (sameKey key a) = false := by
  rw [← Bool.not_eq_true, any_sameKey]
  rintro ⟨b, hbm, j, hj, hbj⟩
  rw [ha] at hj
  cases hj
  exact lookup_none.1 hb b hbm hbj

theorem lookup_unionBy (ha : Distinct key as)
    (hc : ∀ a b, key (comb a b) = key a) (k : κ) :
    lookup key k (unionBy key comb as bs) =
      Option.merge comb (lookup key k as) (lookup key k bs) := by
  rw [unionBy, lookup_append, lookup_append]
  have hmap : ∀ l : List α, lookup key k (l.map fun a =>
      (bs.find? (fun b => sameKey key b a)).elim a (comb a)) = (lookup key k l).map fun a =>
      (bs.find? (fun b => sameKey key b a)).elim a (comb a) := fun l =>
    lookup_map (fun a _ => by cases bs.find? (fun b => sameKey key b a) <;> simp [hc]) k
  rw [hmap]
  cases hla : lookup key k as with
  | none =>
    have hno := lookup_none.1 hla
    rw [lookup_filter_of_false fun a ha hk => absurd hk (hno a ha),
      lookup_filter_of_false (p := fun a => bs.any (sameKey key a)) fun a ha hk =>
        absurd hk (hno a ha),
      lookup_filter_of_true fun b _ hk => by simp [any_sameKey_of_lookup_none hk hla]]
    cases lookup key k bs <;> rfl
  | some a =>
    obtain ⟨ham, hak⟩ := lookup_some hla
    have heq : ∀ c ∈ as, key c = some k → c = a := fun c hc hk =>
      ha.eq_of_key hc ham (hk.trans hak.symm)
    rw [lookup_filter_of_false (p := fun b => !as.any (sameKey key b)) fun b _ hk => by
      simp [any_sameKey_of_lookup hk hla]]
    cases hlb : lookup key k bs with
    | none =>
      rw [lookup_filter_of_true fun c hc hk => by simp [any_sameKey_of_lookup_none hk hlb], hla]
      rfl
    | some b =>
      obtain ⟨hbm, hbk⟩ := lookup_some hlb
      rw [lookup_filter_of_false fun c hc hk => by simp [any_sameKey_of_lookup hk hlb],
        lookup_filter_of_true fun c hc hk => any_sameKey_of_lookup hk hlb, hla]
      -- the counterpart found is the entry looked up
      have hfind : bs.find? (fun c => sameKey key c a) = some b := by
        rw [← hlb, lookup]
        congr 1
        funext c
        rw [Bool.eq_iff_iff, sameKey_iff, hak]
        simp only [Option.some.injEq, decide_eq_true_eq]
        exact ⟨fun ⟨j, h1, h2⟩ => h2 ▸ h1, fun h => ⟨k, h, rfl⟩⟩
      simp [hfind, Option.merge]

theorem filter_sameKey {a b : α} {k : κ} (hb : Distinct key bs) (hk : key a = some k)
    (hlb : lookup key k bs = some b) : bs.filter (sameKey key a) = [b] := by
  induction bs with
  | nil => cases hlb
  | cons c bs ih =>
    rw [lookup_cons] at hlb
    rw [List.filter_cons]
    split at hlb
    · rename_i hck
      cases hlb
      rw [if_pos (sameKey_iff.2 ⟨k, hk, hck⟩)]
      congr 1
      rw [List.filter_eq_nil_iff]
      intro d hd hs
      obtain ⟨j, hj, hdj⟩ := sameKey_iff.1 hs
      refine (List.nodup_cons.1 hb.nodup).1 ?_
      rw [hck, ← hk, hj, ← hdj]
      exact List.mem_map_of_mem hd
    · rename_i hck
      rw [if_neg]
      · exact ih hb.of_cons hlb
      · intro hs
        obtain ⟨j, hj, hcj⟩ := sameKey_iff.1 hs
        exact hck (by rw [hcj, ← hj, hk])

theorem lookup_mergeBy (hb : Distinct key bs)
    (hp : ∀ a b, sameKey key a b = true → key (pick a b) = key a) (k : κ) :
    lookup key k (mergeBy key pick as bs) =
      Option.merge pick (lookup key k as) (lookup key k bs) := by
  rw [mergeBy, lookup_append]
  -- the entries made from `a` have the key of `a`
  have hleft : lookup key k (as.flatMap fun a =>
      if bs.any (sameKey key a) then (bs.filter (sameKey key a)).map (pick a) else [a]) =
      (lookup key k as).map fun a => (lookup key k bs).elim a (pick a) := by
    induction as with
    | nil => rfl
    | cons a as ih =>
      rw [List.flatMap_cons, lookup_append, ih, lookup_cons]
      by_cases hk : key a = some k
      · rw [if_pos hk]
        cases hlb : lookup key k bs with
        | none =>
          rw [if_neg (by rw [any_sameKey_of_lookup_none hk hlb]; simp), lookup_cons, if_pos hk]
          rfl
        | some b =>
          have hs : sameKey key a b = true := sameKey_iff.2 ⟨k, hk, (lookup_some hlb).2⟩
          rw [if_pos (any_sameKey_of_lookup hk hlb), filter_sameKey hb hk hlb, List.map_singleton,
            lookup_cons, if_pos ((hp a b hs).trans hk)]
          rfl
      · rw [if_neg hk]
        have hnone : lookup key k (if bs.any (sameKey key a) then
            (bs.filter (sameKey key a)).map (pick a) else [a]) = none := by
          refine lookup_none.2 fun c hc => ?_
          split at hc
          · obtain ⟨b, hbm, rfl⟩ := List.mem_map.1 hc
            rw [hp a b (List.mem_filter.1 hbm).2]
            exact hk
          · rw [List.mem_singleton.1 hc]
            exact hk
        rw [hnone, Option.none_or]
  rw [hleft]
  cases hla : lookup key k as with
  | none =>
    rw [lookup_filter_of_true fun b _ hk => by simp [any_sameKey_of_lookup_none hk hla]]
    cases lookup key k bs <;> rfl
  | some a => cases lookup key k bs <;> rfl

theorem distinct_unionBy (ha : Distinct key as) (hb : Distinct key bs)
    (hc : ∀ a b, key (comb a b) = key a) : Distinct key (unionBy key comb as bs) := by
  have hkey : ∀ a, key ((bs.find? (fun b => sameKey key b a)).elim a (comb a)) = key a := fun a => by
    cases bs.find? (fun b => sameKey key b a) <;> simp [hc]
  have hsep : ∀ {x y : α}, x ∈ as → y ∈ bs → as.any (sameKey key y) = false → key x ≠ key y := by
    intro x y hx hy hn he
    obtain ⟨k, hk⟩ := ha.keyed x hx
    rw [← Bool.not_eq_true, any_sameKey] at hn
    exact hn ⟨x, hx, k, he ▸ hk, hk⟩
  refine ((ha.sublist List.filter_sublist).append (hb.sublist List.filter_sublist) ?_).append
    ((ha.sublist List.filter_sublist).map fun a _ => hkey a) ?_
  · intro x hx y hy
    rw [List.mem_filter] at hx hy
    exact hsep hx.1 hy.1 (by simpa using hy.2)
  · intro x hx y hy
    obtain ⟨a, ham, rfl⟩ := List.mem_map.1 hy
    rw [List.mem_filter] at ham
    rw [hkey]
    rcases List.mem_append.1 hx with hx | hx
    · rw [List.mem_filter] at hx
      intro he
      have : x = a := ha.eq_of_key hx.1 ham.1 he
      subst this
      rw [ham.2] at hx
      exact absurd hx.2 (by simp)
    · rw [List.mem_filter] at hx
      exact (hsep ham.1 hx.1 (by simpa using hx.2)).symm

theorem distinct_mergeBy (ha : Distinct key as) (hb : Distinct key bs)
    (hp : ∀ a b, sameKey key a b = true → key (pick a b) = key a) :
    Distinct key (mergeBy key pick as bs) := by
  refine Distinct.append ?_ (hb.sublist List.filter_sublist) ?_
  · induction as with
    | nil => exact ⟨List.nodup_nil, fun a h => by cases h⟩
    | cons a as ih =>
      rw [List.flatMap_cons]
      obtain ⟨k, hk⟩ := ha.keyed a List.mem_cons_self
      have hmade : ∀ {a : α} {x : α}, x ∈ (if bs.any (sameKey key a) then
          (bs.filter (sameKey key a)).map (pick a) else [a]) → key x = key a := by
        intro a x hx
        split at hx
        · obtain ⟨b, hbm, rfl⟩ := List.mem_map.1 hx
          exact hp a b (List.mem_filter.1 hbm).2
        · rw [List.mem_singleton.1 hx]
      refine Distinct.append ⟨?_, fun x hx => ⟨k, (hmade hx).trans hk⟩⟩ (ih ha.of_cons) ?_
      · cases hlb : lookup key k bs with
        | none =>
          rw [if_neg (by rw [any_sameKey_of_lookup_none hk hlb]; simp)]
          exact List.nodup_singleton _
        | some b =>
          rw [if_pos (any_sameKey_of_lookup hk hlb), filter_sameKey hb hk hlb]
          exact List.nodup_singleton _
      · intro x hx y hy he
        obtain ⟨c, hc, hy⟩ := List.mem_flatMap.1 hy
        refine (List.nodup_cons.1 ha.nodup).1 ?_
        rw [← hmade hx, he, hmade hy]
        exact List.mem_map_of_mem hc
  · intro x hx y hy he
    obtain ⟨a, ham, hx⟩ := List.mem_flatMap.1 hx
    have hxa : key x = key a := by
      split at hx
      · obtain ⟨b, hbm, rfl⟩ := List.mem_map.1 hx
        exact hp a b (List.mem_filter.1 hbm).2
      · rw [List.mem_singleton.1 hx]
    rw [List.mem_filter] at hy
    obtain ⟨k, hk⟩ := ha.keyed a ham
    have : as.any (sameKey key y) = true :=
      any_sameKey.2 ⟨a, ham, k, by rw [← he, hxa, hk], hk⟩
    rw [this] at hy
    exact absurd hy.2 (by simp)

/-! ## Last entries -/

/-- The last entry with key `k`. -/
def last (key : α → Option κ) (k : κ) (l : List α) : Option α :=
  (l.filter fun a => decide (key a = some k)).getLast?

theorem last_append (k : κ) (as bs : List α) :
    last key k (as ++ bs) = (last key k bs).or (last key k as) := by
  rw [last, List.filter_append, List.getLast?_append]
  rfl

theorem last_cons (k : κ) (a : α) (l : List α) :
    last key k (a :: l) = (last key k l).or (if key a = some k then some a else none) := by
  have h : last key k [a] = if key a = some k then some a else none := by
    by_cases hk : key a = some k <;> simp [last, hk]
  rw [← h]
  exact last_append k [a] l

theorem last_none {k : κ} {l : List α} : last key k l = none ↔ ∀ a ∈ l, key a ≠ some k := by
  simp [last]

theorem last_some {k : κ} {l : List α} {a : α} (h : last key k l = some a) :
    a ∈ l ∧ key a = some k := by
  have hm := List.mem_of_getLast? h
  rw [List.mem_filter, decide_eq_true_eq] at hm
  exact hm

/-- The entries made from `a` and its matches. -/
theorem last_matches (hp : ∀ a b, sameKey key a b = true → key (pick a b) = key a) (a : α) (k : κ) :
    last key k (if bs.any (sameKey key a) then (bs.filter (sameKey key a)).map (pick a) else [a]) =
      (if key a = some k then some a else none).map fun a => (last key k bs).elim a (pick a) := by
  by_cases hk : key a = some k
  · have hf : bs.filter (sameKey key a) = bs.filter fun b => decide (key b = some k) := by
      refine List.filter_congr fun b _ => ?_
      rw [Bool.eq_iff_iff, sameKey_iff, decide_eq_true_eq]
      exact ⟨fun ⟨j, h1, h2⟩ => by rw [h2, ← h1, hk], fun h => ⟨k, hk, h⟩⟩
    rw [if_pos hk, Option.map_some]
    split
    · rename_i hany
      have hall : (bs.filter (sameKey key a)).map (pick a) =
          ((bs.filter (sameKey key a)).map (pick a)).filter fun c => decide (key c = some k) := by
        rw [eq_comm, List.filter_eq_self]
        intro c hc
        obtain ⟨b, hb, rfl⟩ := List.mem_map.1 hc
        rw [hp a b (List.mem_filter.1 hb).2, hk, decide_eq_true_eq]
      rw [last, ← hall, hf, List.getLast?_map]
      cases hl : last key k bs with
      | none =>
        obtain ⟨b, hb, j, hj, hbj⟩ := any_sameKey.1 hany
        refine absurd ?_ (last_none.1 hl b hb)
        rw [hbj, ← hj, hk]
      | some b =>
        rw [last] at hl
        rw [hl]
        rfl
    · rename_i hany
      have hl : last key k bs = none :=
        last_none.2 fun b hb hbk => hany (any_sameKey.2 ⟨b, hb, k, hk, hbk⟩)
      rw [hl, last_cons, if_pos hk]
      rfl
  · rw [if_neg hk, Option.map_none]
    refine last_none.2 fun c hc => ?_
    split at hc
    · obtain ⟨b, hb, rfl⟩ := List.mem_map.1 hc
      rw [hp a b (List.mem_filter.1 hb).2]
      exact hk
    · rw [List.mem_singleton.1 hc]
      exact hk

/-- The last entry of a merge is picked from the last entries, whether or not keys repeat. -/
theorem last_mergeBy (hp : ∀ a b, sameKey key a b = true → key (pick a b) = key a) (k : κ) :
    last key k (mergeBy key pick as bs) = Option.merge pick (last key k as) (last key k bs) := by
  have hleft : last key k (as.flatMap fun a =>
      if bs.any (sameKey key a) then (bs.filter (sameKey key a)).map (pick a) else [a]) =
      (last key k as).map fun a => (last key k bs).elim a (pick a) := by
    induction as with
    | nil => rfl
    | cons a as ih =>
      rw [List.flatMap_cons, last_append, ih, last_matches hp, last_cons, Option.map_or]
  have hright : last key k (bs.filter fun b => !as.any (sameKey key b)) =
      if (last key k as).isSome then none else last key k bs := by
    split
    · rename_i h
      obtain ⟨a, ha⟩ := Option.isSome_iff_exists.1 h
      obtain ⟨ham, hak⟩ := last_some ha
      refine last_none.2 fun b hb hbk => ?_
      rw [List.mem_filter, any_sameKey.2 ⟨a, ham, k, hbk, hak⟩] at hb
      cases hb.2
    · rename_i h
      rw [Bool.not_eq_true, Option.isSome_eq_false_iff, Option.isNone_iff_eq_none] at h
      rw [last, List.filter_filter, last]
      congr 1
      refine List.filter_congr fun b hb => ?_
      rw [Bool.and_eq_left_iff_imp, decide_eq_true_eq]
      intro hbk
      rw [Bool.not_eq_true', ← Bool.not_eq_true, any_sameKey]
      rintro ⟨a, ham, j, hj, haj⟩
      refine last_none.1 h a ham ?_
      rw [haj, ← hj, hbk]
  rw [mergeBy, last_append, hleft, hright]
  cases last key k as <;> cases last key k bs <;> rfl

/-! ## Merges of images -/

section
variable {key' : β → Option κ} {f : α → β}

theorem sameKey_map (hf : ∀ a, key' (f a) = key a) (a b : α) :
    sameKey key' (f a) (f b) = sameKey key a b := by
  rw [sameKey, sameKey, hf, hf]

theorem any_sameKey_map (hf : ∀ a, key' (f a) = key a) (a : α) (l : List α) :
    (l.map f).any (sameKey key' (f a)) = l.any (sameKey key a) := by
  rw [List.any_map]
  congr 1
  funext b
  exact sameKey_map hf a b

theorem map_unionBy {comb' : β → β → β} (hf : ∀ a, key' (f a) = key a)
    (hc : ∀ a b, f (comb a b) = comb' (f a) (f b)) :
    (unionBy key comb as bs).map f = unionBy key' comb' (as.map f) (bs.map f) := by
  simp only [unionBy, List.map_append, List.filter_map, List.map_map, Function.comp_def,
    any_sameKey_map hf]
  congr 1
  refine List.map_congr_left fun a _ => ?_
  rw [List.find?_map]
  simp only [Function.comp_def, sameKey_map hf]
  cases bs.find? (fun b => sameKey key b a) <;> simp [hc]

theorem map_mergeBy {pick' : β → β → β} (hf : ∀ a, key' (f a) = key a)
    (hp : ∀ a b, sameKey key a b = true → f (pick a b) = pick' (f a) (f b)) :
    (mergeBy key pick as bs).map f = mergeBy key' pick' (as.map f) (bs.map f) := by
  simp only [mergeBy, List.map_append, List.map_flatMap, List.flatMap_map, List.filter_map,
    Function.comp_def, any_sameKey_map hf]
  congr 1
  refine List.flatMap_congr fun a _ => ?_
  split
  · rw [List.map_map]
    simp only [sameKey_map hf, List.map_map]
    refine List.map_congr_left fun b hb => ?_
    exact hp a b (List.mem_filter.1 hb).2
  · rfl

end

end KeyedMerge
