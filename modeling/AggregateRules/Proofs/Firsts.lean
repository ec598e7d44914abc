import Mathlib.Data.List.Nodup

/-!
# Proofs/Firsts — the first of each kind in a list

Of the elements that share a key `firstsBy key` keeps the one that comes first, and it keeps them in
order.  To leave keys out before or after makes no difference (`firstsBy_filter`), so the rest of a
list can be taken on its own: what it adds to the head are its firsts under other keys
(`firstsBy_cons`).
-/

namespace AggregateRules

variable {α β : Type} [DecidableEq β] {key : α → β} {a : α} {b : β} {l : List α}

/-- The first element of each key, in their order. -/
def firstsBy (key : α → β) (l : List α) : List α :=
  l.eraseDupsBy fun a a' => decide (key a = key a')

@[simp] theorem firstsBy_nil (key : α → β) : firstsBy key [] = [] := rfl

theorem firstsBy_cons_filter (key : α → β) (a : α) (l : List α) :
    firstsBy key (a :: l) = a :: firstsBy key (l.filter fun a' => !decide (key a' = key a)) := by
  rw [firstsBy, List.eraseDupsBy_cons]
  simp [firstsBy]

/-- **A key is left out before the firsts are taken or after.** -/
theorem firstsBy_filter (key : α → β) (p : β → Bool) :
    ∀ l : List α, firstsBy key (l.filter fun a => p (key a)) =
      (firstsBy key l).filter fun a => p (key a)
  | [] => rfl
  | a :: l => by
      have ih := firstsBy_filter key p (l.filter fun a' => !decide (key a' = key a))
      rw [firstsBy_cons_filter, List.filter_cons, List.filter_cons]
      by_cases hp : p (key a) = true
      · rw [if_pos hp, if_pos hp, firstsBy_cons_filter, ← ih, List.filter_filter,
          List.filter_filter]
        simp only [Bool.and_comm]
      · -- what is left has another key anyway
        have hother : (l.filter fun a => p (key a)) =
            (l.filter fun a' => !decide (key a' = key a)).filter fun a => p (key a) := by
          rw [List.filter_filter]
          refine List.filter_congr fun a' _ => ?_
          by_cases hkey : key a' = key a
          · simp [hkey, hp]
          · simp [hkey]
        rw [if_neg hp, if_neg hp, hother, ih]
termination_by l => l.length
decreasing_by exact Nat.lt_succ_of_le (List.length_filter_le _ _)

/-- **The rest of a list adds its firsts under other keys.** -/
theorem firstsBy_cons (key : α → β) (a : α) (l : List α) :
    firstsBy key (a :: l) = a :: (firstsBy key l).filter fun a' => !decide (key a' = key a) := by
  rw [firstsBy_cons_filter, firstsBy_filter key fun b => !decide (b = key a)]

theorem firstsBy_sublist (key : α → β) : ∀ l : List α, (firstsBy key l).Sublist l
  | [] => List.Sublist.slnil
  | a :: l => by
      rw [firstsBy_cons]
      exact (List.filter_sublist.trans (firstsBy_sublist key l)).cons_cons a

/-- No key is lost. -/
theorem mem_map_firstsBy : ∀ {l : List α}, b ∈ (firstsBy key l).map key ↔ b ∈ l.map key
  | [] => Iff.rfl
  | a :: l => by
      have ih : b ∈ (firstsBy key l).map key ↔ b ∈ l.map key := mem_map_firstsBy
      rw [firstsBy_cons, List.map_cons, List.map_cons, List.mem_cons, List.mem_cons, ← ih]
      by_cases hb : b = key a
      · simp [hb]
      · have hrest : b ∈ ((firstsBy key l).filter fun a' => !decide (key a' = key a)).map key ↔
            b ∈ (firstsBy key l).map key := by
          constructor
          · intro h
            exact List.map_subset key (List.filter_subset_self _) h
          · intro h
            obtain ⟨a', ha', rfl⟩ := List.mem_map.mp h
            exact List.mem_map_of_mem (List.mem_filter.mpr ⟨ha', by simpa using hb⟩)
        rw [hrest]

/-- No key comes twice. -/
theorem nodup_map_firstsBy (key : α → β) : ∀ l : List α, ((firstsBy key l).map key).Nodup
  | [] => List.nodup_nil
  | a :: l => by
      rw [firstsBy_cons, List.map_cons, List.nodup_cons]
      refine ⟨fun ha => ?_, (nodup_map_firstsBy key l).sublist (List.filter_sublist.map key)⟩
      obtain ⟨a', ha', hkey⟩ := List.mem_map.mp ha
      simp [hkey] at ha'

/-- **Elements of distinct keys are all firsts.** -/
theorem firstsBy_eq_self : ∀ {l : List α}, (l.map key).Nodup → firstsBy key l = l
  | [], _ => rfl
  | a :: l, h => by
      obtain ⟨ha, hl⟩ := List.nodup_cons.mp h
      rw [firstsBy_cons, firstsBy_eq_self hl]
      refine congrArg (a :: ·) (List.filter_eq_self.mpr fun a' ha' => ?_)
      have hkey : key a' ≠ key a := fun hkey => ha (List.mem_map.mpr ⟨a', ha', hkey⟩)
      simpa using hkey

end AggregateRules
