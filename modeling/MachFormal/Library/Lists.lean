import Mathlib

/-!
# Lists with one replaced entry

Tables of records are lists, and a step replaces one of their entries.  The
lemmas say what such a replacement does to a sum, to a count and to the items
collected from all entries.
-/

namespace MachFormal.Library

/-! ## Sums and counts -/

section Sums

variable {α : Type} {xs : List α} {index : Nat} {old new : α}

theorem sum_map_set (f : α → Nat) (hold : xs[index]? = some old) :
    ((xs.set index new).map f).sum + f old = (xs.map f).sum + f new := by
  induction xs generalizing index with
  | nil => cases hold
  | cons x xs ih =>
      cases index with
      | zero =>
          simp only [List.getElem?_cons_zero, Option.some.injEq] at hold
          subst hold
          simp only [List.set_cons_zero, List.map_cons, List.sum_cons]
          omega
      | succ index =>
          have hrest := ih (List.getElem?_cons_succ.symm.trans hold)
          simp only [List.set_cons_succ, List.map_cons, List.sum_cons]
          omega

theorem le_sum_map (f : α → Nat) {x : α} (hx : x ∈ xs) : f x ≤ (xs.map f).sum :=
  List.le_sum_of_mem (List.mem_map_of_mem hx)

theorem exists_pos_of_sum_pos (f : α → Nat) (hpos : 0 < (xs.map f).sum) :
    ∃ x ∈ xs, 0 < f x := by
  obtain ⟨value, hmem, hvalue⟩ := List.sum_pos_iff_exists_pos_nat.mp hpos
  obtain ⟨x, hx, rfl⟩ := List.mem_map.mp hmem
  exact ⟨x, hx, hvalue⟩

theorem countP_set_add (p : α → Bool) (new : α) (hold : xs[index]? = some old) :
    (xs.set index new).countP p + (if p old then 1 else 0) =
      xs.countP p + (if p new then 1 else 0) := by
  obtain ⟨hlt, rfl⟩ := List.getElem?_eq_some_iff.mp hold
  have hle := List.boole_getElem_le_countP (p := p) hlt
  rw [List.countP_set hlt]
  omega

theorem countP_update [DecidableEq α] {β : Type} (p : β → Bool) (f : α → β) (v : β)
    {key : α} (hnodup : xs.Nodup) (hmem : key ∈ xs) :
    xs.countP (fun x => p (Function.update f key v x)) + (p (f key)).toNat =
      xs.countP (fun x => p (f x)) + (p v).toNat := by
  induction xs with
  | nil => cases hmem
  | cons x xs ih =>
      obtain ⟨hx, hxs⟩ := List.nodup_cons.mp hnodup
      by_cases hkey : key = x
      · subst hkey
        have hrest : xs.countP (fun y => p (Function.update f key v y)) =
            xs.countP (fun y => p (f y)) :=
          List.countP_congr (fun y hy => by
            have hne : y ≠ key := fun heq => hx (heq ▸ hy)
            rw [Function.update_of_ne hne])
        simp only [List.countP_cons, Function.update_self, hrest]
        cases p v <;> cases p (f key) <;> simp
      · have hrest := ih hxs ((List.mem_cons.mp hmem).resolve_left hkey)
        simp only [List.countP_cons, Function.update_of_ne (Ne.symm hkey)]
        omega

end Sums

/-! ## Items collected from the entries -/

section Collected

variable {α β : Type}

theorem flatMap_set_perm (f : α → List β) {xs : List α} {index : Nat} {old : α}
    (hold : xs[index]? = some old) (new : α) :
    ((xs.set index new).flatMap f ++ f old).Perm (xs.flatMap f ++ f new) := by
  induction xs generalizing index with
  | nil => cases hold
  | cons x xs ih =>
      cases index with
      | zero =>
          simp only [List.getElem?_cons_zero, Option.some.injEq] at hold
          subst hold
          simp only [List.set_cons_zero, List.flatMap_cons]
          calc (f new ++ xs.flatMap f ++ f x).Perm (f x ++ (f new ++ xs.flatMap f)) :=
                List.perm_append_comm
            _ = f x ++ f new ++ xs.flatMap f := (List.append_assoc _ _ _).symm
            (f x ++ f new ++ xs.flatMap f).Perm (f x ++ (xs.flatMap f ++ f new)) := by
                rw [List.append_assoc]
                exact List.perm_append_comm.append_left (f x)
            _ = f x ++ xs.flatMap f ++ f new := (List.append_assoc _ _ _).symm
      | succ index =>
          have hrest := ih (List.getElem?_cons_succ.symm.trans hold)
          simp only [List.set_cons_succ, List.flatMap_cons, List.append_assoc]
          exact hrest.append_left (f x)

/-- The items of a table some of whose slots are empty. -/
def items (slots : List (Option β)) : List β :=
  slots.flatMap Option.toList

theorem mem_items {slots : List (Option β)} {item : β} :
    item ∈ items slots ↔ some item ∈ slots := by
  simp [items, Option.mem_toList]

theorem items_set_perm {slots : List (Option β)} {index : Nat} {item : β}
    (hold : slots[index]? = some none) :
    (items (slots.set index (some item))).Perm (item :: items slots) := by
  have hset := flatMap_set_perm Option.toList hold (some item)
  simpa [items] using hset.trans List.perm_append_comm

theorem slot_unique {slots : List (Option β)} (hnodup : (items slots).Nodup) {i j : Nat}
    {item : β} (hi : slots[i]? = some (some item)) (hj : slots[j]? = some (some item)) :
    i = j := by
  induction slots generalizing i j with
  | nil => cases hi
  | cons slot slots ih =>
      have hmem : ∀ {k : Nat}, (slot :: slots)[k + 1]? = some (some item) → item ∈ items slots :=
        fun hk => mem_items.mpr (List.mem_of_getElem? (List.getElem?_cons_succ.symm.trans hk))
      have hsplit : (slot.toList ++ items slots).Nodup := hnodup
      obtain ⟨-, hslots, hdisjoint⟩ := List.nodup_append.mp hsplit
      have hfirst : (slot :: slots)[0]? = some (some item) → item ∉ items slots := by
        intro hzero hin
        refine hdisjoint item ?_ item hin rfl
        rw [Option.some.inj hzero]
        exact List.mem_singleton.mpr rfl
      cases i with
      | zero =>
          cases j with
          | zero => rfl
          | succ j => exact absurd (hmem hj) (hfirst hi)
      | succ i =>
          cases j with
          | zero => exact absurd (hmem hi) (hfirst hj)
          | succ j => rw [ih hslots (List.getElem?_cons_succ.symm.trans hi)
                (List.getElem?_cons_succ.symm.trans hj)]

/-! ## Tables of equally long rows -/

section Rows

variable {row : α → List β} {width : Nat}

theorem flatMap_getElem? {xs : List α} (hwidth : ∀ x ∈ xs, (row x).length = width) {i j : Nat}
    {x : α} (hx : xs[i]? = some x) (hj : j < width) :
    (xs.flatMap row)[i * width + j]? = (row x)[j]? := by
  induction xs generalizing i with
  | nil => cases hx
  | cons y ys ih =>
      have hy : (row y).length = width := hwidth y List.mem_cons_self
      rw [List.flatMap_cons]
      cases i with
      | zero =>
          obtain rfl : y = x := Option.some.inj hx
          rw [Nat.zero_mul, Nat.zero_add, List.getElem?_append_left (by omega)]
      | succ i =>
          have hindex : (i + 1) * width + j = (row y).length + (i * width + j) := by
            rw [hy, Nat.succ_mul]
            omega
          rw [hindex, List.getElem?_append_right (Nat.le_add_right _ _), Nat.add_sub_cancel_left]
          exact ih (fun z hz => hwidth z (List.mem_cons_of_mem y hz))
            (List.getElem?_cons_succ.symm.trans hx)

theorem flatMap_set_row {xs : List α} (hwidth : ∀ x ∈ xs, (row x).length = width) {i j : Nat}
    {x y : α} {v : β} (hx : xs[i]? = some x) (hj : j < width)
    (hy : row y = (row x).set j v) :
    (xs.set i y).flatMap row = (xs.flatMap row).set (i * width + j) v := by
  induction xs generalizing i with
  | nil => cases hx
  | cons z zs ih =>
      have hz : (row z).length = width := hwidth z List.mem_cons_self
      cases i with
      | zero =>
          obtain rfl : z = x := Option.some.inj hx
          rw [List.set_cons_zero, List.flatMap_cons, List.flatMap_cons, hy, Nat.zero_mul,
            Nat.zero_add, List.set_append_left _ _ (by omega)]
      | succ i =>
          have hindex : (i + 1) * width + j = (row z).length + (i * width + j) := by
            rw [hz, Nat.succ_mul]
            omega
          rw [List.set_cons_succ, List.flatMap_cons, List.flatMap_cons, hindex,
            List.set_append_right _ _ (Nat.le_add_right _ _), Nat.add_sub_cancel_left,
            ih (fun w hw => hwidth w (List.mem_cons_of_mem z hw))
              (List.getElem?_cons_succ.symm.trans hx)]

theorem flatMap_set_same {xs : List α} {i : Nat} {x y : α} (hx : xs[i]? = some x)
    (hy : row y = row x) : (xs.set i y).flatMap row = xs.flatMap row := by
  induction xs generalizing i with
  | nil => cases hx
  | cons z zs ih =>
      cases i with
      | zero =>
          obtain rfl : z = x := Option.some.inj hx
          rw [List.set_cons_zero, List.flatMap_cons, List.flatMap_cons, hy]
      | succ i =>
          rw [List.set_cons_succ, List.flatMap_cons, List.flatMap_cons,
            ih (List.getElem?_cons_succ.symm.trans hx)]

end Rows

end Collected

end MachFormal.Library
