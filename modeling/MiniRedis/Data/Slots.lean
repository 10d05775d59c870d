import Mathlib.Data.List.Perm.Basic
import Mathlib.Data.List.Nodup

namespace MiniRedis.Data

/-! Bucket arrays: a list of chains, read through its flattening. -/

theorem exists_split_of_getElem? {items : List α} {index : Nat} {item : α}
    (h : items[index]? = some item) :
    ∃ before after, items = before ++ item :: after ∧
      before.length = index ∧
      ∀ other, items.set index other = before ++ other :: after := by
  induction items generalizing index with
  | nil => simp at h
  | cons head tail ih =>
      cases index with
      | zero =>
          simp only [List.getElem?_cons_zero, Option.some.injEq] at h
          subst h
          exact ⟨[], tail, rfl, rfl, fun other => rfl⟩
      | succ index =>
          obtain ⟨before, after, hitems, hlength, hset⟩ := ih (by simpa using h)
          refine ⟨head :: before, after, by simp [hitems], by simp [hlength], ?_⟩
          intro other
          simp [hset other]

theorem flatten_set_perm {slots : List (List α)} {index : Nat}
    {chain : List α} (other : List α) (h : slots[index]? = some chain) :
    ((slots.set index other).flatten ++ chain).Perm
      (slots.flatten ++ other) := by
  obtain ⟨before, after, hslots, _, hset⟩ := exists_split_of_getElem? h
  rw [hset, hslots]
  simp only [List.flatten_append, List.flatten_cons, List.append_assoc]
  apply List.Perm.append_left
  calc
    (other ++ (after.flatten ++ chain)).Perm
        (other ++ (chain ++ after.flatten)) :=
      List.Perm.append_left other List.perm_append_comm
    _ = (other ++ chain) ++ after.flatten := by rw [List.append_assoc]
    (other ++ chain ++ after.flatten).Perm
        (chain ++ other ++ after.flatten) :=
      List.Perm.append_right after.flatten List.perm_append_comm
    _ = chain ++ (other ++ after.flatten) := by rw [List.append_assoc]
    (chain ++ (other ++ after.flatten)).Perm
        (chain ++ (after.flatten ++ other)) :=
      List.Perm.append_left chain List.perm_append_comm

theorem flatten_set_cons_perm {slots : List (List α)} {index : Nat}
    {chain : List α} (item : α) (h : slots[index]? = some chain) :
    (slots.set index (item :: chain)).flatten.Perm (item :: slots.flatten) := by
  have hperm := flatten_set_perm (item :: chain) h
  have hmove : (slots.flatten ++ item :: chain).Perm
      ((item :: slots.flatten) ++ chain) := List.perm_middle
  exact (List.perm_append_right_iff chain).mp (hperm.trans hmove)

theorem flatten_set_eraseIdx_perm {slots : List (List α)} {index depth : Nat}
    {chain : List α} {item : α} (h : slots[index]? = some chain)
    (hitem : chain[depth]? = some item) :
    slots.flatten.Perm
      (item :: (slots.set index (chain.eraseIdx depth)).flatten) := by
  obtain ⟨before, after, hchain, hlength, _⟩ := exists_split_of_getElem? hitem
  have herase : chain.eraseIdx depth = before ++ after := by
    rw [hchain, List.eraseIdx_append_of_length_le (by omega), hlength]
    simp
  have hperm := flatten_set_perm (chain.eraseIdx depth) h
  have hcons : chain.Perm (item :: chain.eraseIdx depth) := by
    rw [herase, hchain]
    exact List.perm_middle
  have hleft : ((slots.set index (chain.eraseIdx depth)).flatten ++ chain).Perm
      ((item :: (slots.set index (chain.eraseIdx depth)).flatten) ++
        chain.eraseIdx depth) :=
    (List.Perm.append_left _ hcons).trans List.perm_middle
  exact (List.perm_append_right_iff _).mp (hperm.symm.trans hleft)

theorem mem_flatten_iff_getElem? {slots : List (List α)} {item : α} :
    item ∈ slots.flatten ↔
      ∃ (index : Nat) (chain : List α),
        slots[index]? = some chain ∧ item ∈ chain := by
  rw [List.mem_flatten]
  constructor
  · rintro ⟨chain, hchain, hitem⟩
    obtain ⟨index, hindex⟩ := List.mem_iff_getElem?.mp hchain
    exact ⟨index, chain, hindex, hitem⟩
  · rintro ⟨index, chain, hindex, hitem⟩
    exact ⟨chain, List.mem_of_getElem? hindex, hitem⟩

end MiniRedis.Data
