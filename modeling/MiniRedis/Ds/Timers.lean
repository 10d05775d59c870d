import MiniRedis.Ds.HeapSpec

namespace MiniRedis.Ds

/-! The heap as a table of timers: which owners have one, and when it is
due. -/

section Linked

variable {ρ : Type}

theorem Heap.Valid.backed {heap : Heap ρ} (h : heap.Valid) {p : ρ} {i : Nat}
    (hin : p ∈ heap.items.map HeapItem.ref) (hidx : heap.index.idx p = some i) :
    ∃ item, heap.items[i]? = some item ∧ item.ref = p := by
  obtain ⟨item, hitem, rfl⟩ := List.mem_map.mp hin
  obtain ⟨j, hj⟩ := List.getElem?_of_mem hitem
  have hsynced := h.synced j item hj
  rw [hidx] at hsynced
  cases hsynced
  exact ⟨item, hj, rfl⟩

def Heap.timer (heap : Heap ρ) (p : ρ) : Option Nat := do
  let i ← heap.index.idx p
  let item ← heap.items[i]?
  some item.val

/-- Items and the index fields of the owners refer to each other. -/
structure Heap.Linked (heap : Heap ρ) (owners : List ρ) : Prop where
  valid : heap.Valid
  owned : ∀ item ∈ heap.items, item.ref ∈ owners
  backed : ∀ p ∈ owners, ∀ i, heap.index.idx p = some i →
    ∃ item, heap.items[i]? = some item ∧ item.ref = p

theorem Heap.Linked.empty (index : IndexMem ρ) :
    Heap.Linked ⟨[], index⟩ ([] : List ρ) where
  valid := ⟨fun i _ hi => absurd hi (Nat.not_lt_zero i), by simp⟩
  owned := by simp
  backed := by simp

variable {heap heap' : Heap ρ} {owners owners' : List ρ} {p : ρ}

theorem Heap.Linked.timer_eq_some (h : heap.Linked owners) (hp : p ∈ owners)
    (v : Nat) : heap.timer p = some v ↔ ⟨v, p⟩ ∈ heap.items := by
  constructor
  · intro htimer
    simp only [Heap.timer, Option.bind_eq_bind, Option.bind_eq_some_iff,
      Option.some.injEq] at htimer
    obtain ⟨i, hidx, item, hitem, rfl⟩ := htimer
    obtain ⟨other, hother, rfl⟩ := h.backed p hp i hidx
    rw [hitem] at hother
    cases hother
    exact List.mem_of_getElem? hitem
  · intro hmem
    obtain ⟨i, hi⟩ := List.getElem?_of_mem hmem
    have hidx := h.valid.synced i _ hi
    simp only at hidx
    simp [Heap.timer, hidx, hi]

theorem Heap.Linked.timer_eq_none (h : heap.Linked owners) (hp : p ∈ owners) :
    heap.timer p = none ↔ heap.index.idx p = none := by
  constructor
  · intro htimer
    cases hidx : heap.index.idx p with
    | none => rfl
    | some i =>
        obtain ⟨item, hitem, _⟩ := h.backed p hp i hidx
        simp [Heap.timer, hidx, hitem] at htimer
  · intro hidx
    simp [Heap.timer, hidx]

theorem Heap.Linked.timer_congr (h : heap.Linked owners)
    (h' : heap'.Linked owners') (hp : p ∈ owners) (hp' : p ∈ owners')
    (hitems : ∀ v, ⟨v, p⟩ ∈ heap'.items ↔ ⟨v, p⟩ ∈ heap.items) :
    heap'.timer p = heap.timer p := by
  apply Option.ext
  intro v
  rw [h'.timer_eq_some hp', h.timer_eq_some hp, hitems]

theorem Heap.Linked.owners_congr (h : heap.Linked owners)
    (hnone : heap.index.idx p = none)
    (hother : ∀ q, q ≠ p → (q ∈ owners' ↔ q ∈ owners)) :
    heap.Linked owners' := by
  refine ⟨h.valid, ?_, ?_⟩
  · intro item hitem
    have hne : item.ref ≠ p := by
      intro heq
      obtain ⟨i, hi⟩ := List.getElem?_of_mem hitem
      have hidx := h.valid.synced i item hi
      rw [heq, hnone] at hidx
      cases hidx
    exact (hother _ hne).mpr (h.owned item hitem)
  · intro q hq i hidx
    have hne : q ≠ p := by
      rintro rfl
      rw [hnone] at hidx
      cases hidx
    exact h.backed q ((hother q hne).mp hq) i hidx

end Linked

section Ops

variable {ρ : Type} [DecidableEq ρ] {heap : Heap ρ} {owners : List ρ} {p : ρ}

structure Retimed (heap heap' : Heap ρ) (owners : List ρ) (p : ρ)
    (due : Option Nat) : Prop where
  linked : heap'.Linked owners
  timer : heap'.timer p = due
  others : ∀ q ∈ owners, q ≠ p → heap'.timer q = heap.timer q

/-- Initialising the index field of a newcomer moves no timer. -/
theorem Heap.Linked.write_fresh (h : heap.Linked owners) (hp : p ∉ owners) :
    Heap.Linked { heap with index := heap.index.write p none } owners ∧
      ∀ q ∈ owners,
        Heap.timer { heap with index := heap.index.write p none } q =
          heap.timer q := by
  have hne : ∀ q ∈ owners, (heap.index.write p none).idx q =
      heap.index.idx q := by
    intro q hq
    apply IndexMem.write_other
    rintro rfl
    exact hp hq
  refine ⟨⟨⟨h.valid.ordered, ?_⟩, h.owned, ?_⟩, ?_⟩
  · intro i item hitem
    rw [hne item.ref (h.owned item (List.mem_of_getElem? hitem))]
    exact h.valid.synced i item hitem
  · intro q hq i hidx
    rw [hne q hq] at hidx
    exact h.backed q hq i hidx
  · intro q hq
    simp only [Heap.timer, hne q hq]

def OthersKept (p : ρ) (items rest : List (HeapItem ρ)) : Prop :=
  ∀ item : HeapItem ρ, item.ref ≠ p → (item ∈ rest ↔ item ∈ items)

omit [DecidableEq ρ] in
theorem Sifted.retimed {items rest : List (HeapItem ρ)} {heap' : Heap ρ}
    {v : Nat} (h : heap.Linked owners) (hp : p ∈ owners)
    (hsifted : Sifted items heap.index heap')
    (hitems : items.Perm (⟨v, p⟩ :: rest))
    (hrest : OthersKept p heap.items rest) :
    Retimed heap heap' owners p (some v) := by
  have hperm := hsifted.perm.trans hitems
  have hlinked : heap'.Linked owners := by
    refine ⟨hsifted.valid, ?_, ?_⟩
    · intro item hitem
      by_cases hne : item.ref = p
      · exact hne ▸ hp
      · rcases List.mem_cons.mp (hperm.mem_iff.mp hitem) with rfl | hin
        · exact absurd rfl hne
        · exact h.owned item ((hrest item hne).mp hin)
    · intro q hq i hidx
      by_cases hin : q ∈ heap'.items.map HeapItem.ref
      · exact hsifted.valid.backed hin hidx
      · -- an untouched index field still names an item, which is kept
        have hout := fun hmem => hin ((hsifted.perm.map _).mem_iff.mpr hmem)
        rw [hsifted.untouched q hout] at hidx
        obtain ⟨item, hitem, rfl⟩ := h.backed q hq i hidx
        apply absurd (List.mem_map_of_mem _) hin
        apply hperm.mem_iff.mpr
        by_cases hne : item.ref = p
        · refine absurd (List.mem_map.mpr ⟨⟨v, p⟩, ?_, hne.symm⟩) hin
          exact hperm.mem_iff.mpr List.mem_cons_self
        · exact List.mem_cons_of_mem _
            ((hrest item hne).mpr (List.mem_of_getElem? hitem))
  refine ⟨hlinked, ?_, ?_⟩
  · exact (hlinked.timer_eq_some hp v).mpr
      (hperm.mem_iff.mpr List.mem_cons_self)
  · intro q hq hne
    apply h.timer_congr hlinked hq hq
    intro w
    rw [hperm.mem_iff, List.mem_cons, hrest ⟨w, q⟩ hne]
    constructor
    · rintro (heq | hin)
      · exact absurd (congrArg HeapItem.ref heq) hne
      · exact hin
    · exact Or.inr

theorem heapUpsert_timer (h : heap.Linked owners) (hp : p ∈ owners) (v : Nat) :
    ∃ heap', heapUpsert heap (heap.index.idx p) ⟨v, p⟩ = some heap' ∧
      Retimed heap heap' owners p (some v) := by
  cases hidx : heap.index.idx p with
  | none =>
      have hfresh : p ∉ heap.items.map HeapItem.ref := by
        intro hin
        obtain ⟨item, hitem, rfl⟩ := List.mem_map.mp hin
        obtain ⟨i, hi⟩ := List.getElem?_of_mem hitem
        rw [h.valid.synced i item hi] at hidx
        cases hidx
      obtain ⟨heap', hupsert, hsifted⟩ :=
        heapUpsert_append (t := ⟨v, p⟩) h.valid hfresh
      exact ⟨heap', hupsert, hsifted.retimed h hp
        (List.perm_append_singleton _ _) (fun _ _ => Iff.rfl)⟩
  | some i =>
      obtain ⟨old, hold, rfl⟩ := h.backed p hp i hidx
      obtain ⟨hbound, hget⟩ := List.getElem?_eq_some_iff.mp hold
      obtain ⟨heap', hupsert, hsifted⟩ :=
        heapUpsert_replace (t := ⟨v, old.ref⟩) h.valid hold rfl
      refine ⟨heap', hupsert, hsifted.retimed h hp
        (List.set_perm_cons_eraseIdx hbound _) ?_⟩
      intro item hne
      rw [← (List.getElem_cons_eraseIdx_perm hbound).mem_iff, hget]
      have : item ≠ old := fun heq => hne (heq ▸ rfl)
      simp [this]

theorem heapDelete_timer (h : heap.Linked owners) (hp : p ∈ owners) {i : Nat}
    (hidx : heap.index.idx p = some i) :
    ∃ heap', heapDelete heap i = some heap' ∧
      Retimed heap { heap' with index := heap'.index.write p none } owners p
        none := by
  obtain ⟨old, hold, rfl⟩ := h.backed p hp i hidx
  obtain ⟨heap', hdelete, hvalid, hperm, huntouched⟩ :=
    heapDelete_spec h.valid hold
  have hdistinct := (hperm.map HeapItem.ref).nodup_iff.mp h.valid.distinct
  have hout : old.ref ∉ heap'.items.map HeapItem.ref :=
    (List.nodup_cons.mp hdistinct).1
  have hne : ∀ item ∈ heap'.items, item.ref ≠ old.ref := fun item hitem heq =>
    hout (List.mem_map.mpr ⟨item, hitem, heq⟩)
  have hlinked : Heap.Linked
      { heap' with index := heap'.index.write old.ref none } owners := by
    refine ⟨⟨hvalid.ordered, ?_⟩, ?_, ?_⟩
    · intro j item hj
      rw [IndexMem.write_other _ _ (hne item (List.mem_of_getElem? hj))]
      exact hvalid.synced j item hj
    · intro item hitem
      exact h.owned item (hperm.mem_iff.mpr (List.mem_cons_of_mem _ hitem))
    · intro q hq j hj
      by_cases heq : q = old.ref
      · rw [heq, IndexMem.write_self] at hj
        cases hj
      · rw [IndexMem.write_other _ _ heq] at hj
        by_cases hin : q ∈ heap'.items.map HeapItem.ref
        · exact hvalid.backed hin hj
        · rw [huntouched q hin] at hj
          obtain ⟨item, hitem, rfl⟩ := h.backed q hq j hj
          have hmem := hperm.mem_iff.mp (List.mem_of_getElem? hitem)
          rcases List.mem_cons.mp hmem with rfl | hkept
          · exact absurd rfl heq
          · exact absurd (List.mem_map_of_mem hkept) hin
  refine ⟨heap', hdelete, hlinked, ?_, ?_⟩
  · exact (hlinked.timer_eq_none hp).mpr (IndexMem.write_self _ _ _)
  · intro q hq hq'
    apply h.timer_congr hlinked hq hq
    intro w
    rw [hperm.mem_iff, List.mem_cons]
    constructor
    · exact Or.inr
    · rintro (rfl | hin)
      · exact absurd rfl hq'
      · exact hin

end Ops

end MiniRedis.Ds
