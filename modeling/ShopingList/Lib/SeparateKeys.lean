import ShopingList.Lib.KeyedMerge
import Mathlib.Data.List.Count

/-!
# Keys that occur once

`Separate` lists have no two entries of one key; entries without key do not count.
Both merges of such lists have every key of either side once
(`separate_unionBy`, `separate_mergeBy`).
-/

namespace KeyedMerge

variable {α β κ : Type} {key : α → Option κ}

/-- No two entries have the same key. -/
def Separate (key : α → Option κ) (l : List α) : Prop := (l.filterMap key).Nodup

instance [DecidableEq κ] (key : α → Option κ) (l : List α) : Decidable (Separate key l) :=
  inferInstanceAs (Decidable (l.filterMap key).Nodup)

theorem Distinct.separate {l : List α} (h : Distinct key l) : Separate key l := by
  refine List.Nodup.of_map some ?_
  have e : (l.filterMap key).map some = l.map key := by
    have hk := h.keyed
    clear h
    induction l with
    | nil => rfl
    | cons a l ih =>
      obtain ⟨k, hka⟩ := hk a List.mem_cons_self
      rw [List.filterMap_cons_some hka, List.map_cons, List.map_cons, hka,
        ih fun b hb => hk b (List.mem_cons_of_mem _ hb)]
  rw [e]
  exact h.nodup

namespace Separate

theorem of_cons {a : α} {l : List α} (h : Separate key (a :: l)) : Separate key l := by
  unfold Separate at h
  cases hk : key a with
  | none => rwa [List.filterMap_cons_none hk] at h
  | some k =>
    rw [List.filterMap_cons_some hk] at h
    exact (List.nodup_cons.1 h).2

theorem ne_of_cons {a b : α} {l : List α} {k : κ} (h : Separate key (a :: l)) (ha : key a = some k)
    (hb : b ∈ l) : key b ≠ some k := by
  unfold Separate at h
  rw [List.filterMap_cons_some ha] at h
  exact fun hk => (List.nodup_cons.1 h).1 (List.mem_filterMap.2 ⟨b, hb, hk⟩)

theorem eq_of_key {a b : α} {k : κ} {l : List α} (h : Separate key l) (ha : a ∈ l) (hb : b ∈ l)
    (hak : key a = some k) (hbk : key b = some k) : a = b := by
  induction l with
  | nil => cases ha
  | cons c l ih =>
    rcases List.mem_cons.1 ha with rfl | hal
    · rcases List.mem_cons.1 hb with rfl | hbl
      · rfl
      · exact absurd hbk (h.ne_of_cons hak hbl)
    · rcases List.mem_cons.1 hb with rfl | hbl
      · exact absurd hak (h.ne_of_cons hbk hal)
      · exact ih h.of_cons hal hbl

theorem sublist {l l' : List α} (h : Separate key l) (hs : l'.Sublist l) : Separate key l' :=
  List.Nodup.sublist (hs.filterMap key) h

theorem append {as bs : List α} (ha : Separate key as) (hb : Separate key bs)
    (h : ∀ a ∈ as, ∀ b ∈ bs, ∀ k, key a = some k → key b ≠ some k) : Separate key (as ++ bs) := by
  rw [Separate, List.filterMap_append, List.nodup_append]
  refine ⟨ha, hb, fun k hk j hj => ?_⟩
  obtain ⟨a, ham, hak⟩ := List.mem_filterMap.1 hk
  obtain ⟨b, hbm, hbj⟩ := List.mem_filterMap.1 hj
  rintro rfl
  exact h a ham b hbm k hak hbj

theorem map {f : α → β} {key' : β → Option κ} {l : List α} (hf : ∀ a, key' (f a) = key a) :
    Separate key' (l.map f) ↔ Separate key l := by
  rw [Separate, Separate, List.filterMap_map]
  have e : key' ∘ f = key := funext hf
  rw [e]

end Separate

variable [DecidableEq κ] {comb pick : α → α → α} {as bs : List α}

/-- A separate list has at most one entry that matches. -/
theorem filter_sameKey_separate {a : α} (hb : Separate key bs) (h : bs.any (sameKey key a) = true) :
    ∃ b ∈ bs, sameKey key a b = true ∧ bs.filter (sameKey key a) = [b] := by
  induction bs with
  | nil => cases h
  | cons c bs ih =>
    by_cases hc : sameKey key a c = true
    · refine ⟨c, List.mem_cons_self, hc, ?_⟩
      obtain ⟨k, hk, hck⟩ := sameKey_iff.1 hc
      rw [List.filter_cons_of_pos hc, List.filter_eq_nil_iff.2]
      intro d hd hs
      obtain ⟨j, hj, hdj⟩ := sameKey_iff.1 hs
      rw [hk] at hj
      cases hj
      exact hb.ne_of_cons hck hd hdj
    · rw [List.any_cons, Bool.or_eq_true] at h
      obtain ⟨b, hbm, hab, hf⟩ := ih hb.of_cons (h.resolve_left hc)
      exact ⟨b, List.mem_cons_of_mem _ hbm, hab, by rw [List.filter_cons_of_neg hc, hf]⟩

/-- The keys of two lists, those of the first one and those that are only in the second. -/
theorem mem_keys_added (k : κ) :
    k ∈ as.filterMap key ++ (bs.filter fun b => !as.any (sameKey key b)).filterMap key ↔
      k ∈ as.filterMap key ∨ k ∈ bs.filterMap key := by
  rw [List.mem_append]
  refine or_congr_right' fun hk => ⟨fun h => ?_, fun h => ?_⟩
  · exact (List.filter_sublist.filterMap key).subset h
  · obtain ⟨b, hbm, hbk⟩ := List.mem_filterMap.1 h
    refine List.mem_filterMap.2 ⟨b, List.mem_filter.2 ⟨hbm, ?_⟩, hbk⟩
    rw [Bool.not_eq_true', ← Bool.not_eq_true, any_sameKey]
    rintro ⟨a, ham, j, hj, haj⟩
    rw [hbk] at hj
    cases hj
    exact hk (List.mem_filterMap.2 ⟨a, ham, haj⟩)

theorem nodup_keys_added (ha : Separate key as) (hb : Separate key bs) :
    (as.filterMap key ++ (bs.filter fun b => !as.any (sameKey key b)).filterMap key).Nodup := by
  rw [← List.filterMap_append]
  refine ha.append (hb.sublist List.filter_sublist) fun a ham b hbm k hak hbk => ?_
  rw [List.mem_filter] at hbm
  rw [any_sameKey.2 ⟨a, ham, k, hbk, hak⟩] at hbm
  cases hbm.2

section
variable (hp : ∀ a b, sameKey key a b = true → key (pick a b) = key a)
include hp

/-- The keys of a merge: those of the first list, then those that are only in the second. -/
theorem keys_mergeBy (hb : Separate key bs) : (mergeBy key pick as bs).filterMap key =
    as.filterMap key ++ (bs.filter fun b => !as.any (sameKey key b)).filterMap key := by
  have hone : ∀ a, (if bs.any (sameKey key a) then (bs.filter (sameKey key a)).map (pick a)
      else [a]).filterMap key = [a].filterMap key := by
    intro a
    split
    · rename_i h
      obtain ⟨b, -, hab, hf⟩ := filter_sameKey_separate hb h
      rw [hf, List.map_singleton, List.filterMap_cons, List.filterMap_cons, hp a b hab]
    · rfl
  rw [mergeBy, List.filterMap_append, List.filterMap_flatMap]
  congr 1
  rw [show (fun a => List.filterMap key (if bs.any (sameKey key a) = true then
    (bs.filter (sameKey key a)).map (pick a) else [a])) = fun a => [a].filterMap key from funext hone,
    ← List.filterMap_flatMap, List.flatMap_singleton']

theorem mem_keys_mergeBy (hb : Separate key bs) (k : κ) : k ∈ (mergeBy key pick as bs).filterMap key ↔
    k ∈ as.filterMap key ∨ k ∈ bs.filterMap key := by
  rw [keys_mergeBy hp hb]
  exact mem_keys_added k

theorem separate_mergeBy (ha : Separate key as) (hb : Separate key bs) :
    Separate key (mergeBy key pick as bs) := by
  rw [Separate, keys_mergeBy hp hb]
  exact nodup_keys_added ha hb

end

section
variable (hc : ∀ a b, key (comb a b) = key a)
include hc

theorem keys_unionBy : (unionBy key comb as bs).filterMap key =
    (as.filter fun a => !bs.any (sameKey key a)).filterMap key ++
      (bs.filter fun b => !as.any (sameKey key b)).filterMap key ++
        (as.filter fun a => bs.any (sameKey key a)).filterMap key := by
  rw [unionBy, List.filterMap_append, List.filterMap_append, List.filterMap_map]
  congr 2
  funext a
  rw [Function.comp_apply]
  cases bs.find? (fun b => sameKey key b a) <;> simp [hc]

/-- The keys of a union, up to order. -/
theorem keys_unionBy_perm : ((unionBy key comb as bs).filterMap key).Perm
    (as.filterMap key ++ (bs.filter fun b => !as.any (sameKey key b)).filterMap key) := by
  rw [keys_unionBy hc, List.append_assoc]
  refine (List.Perm.append_left _ List.perm_append_comm).trans ?_
  rw [← List.append_assoc]
  refine List.Perm.append_right _ ?_
  rw [← List.filterMap_append]
  refine List.Perm.filterMap key (List.perm_append_comm.trans ?_)
  exact List.filter_append_perm _ as

theorem mem_keys_unionBy (k : κ) : k ∈ (unionBy key comb as bs).filterMap key ↔
    k ∈ as.filterMap key ∨ k ∈ bs.filterMap key := by
  rw [(keys_unionBy_perm hc).mem_iff]
  exact mem_keys_added k

theorem separate_unionBy (ha : Separate key as) (hb : Separate key bs) :
    Separate key (unionBy key comb as bs) := by
  rw [Separate, (keys_unionBy_perm hc).nodup_iff]
  exact nodup_keys_added ha hb

end

end KeyedMerge
