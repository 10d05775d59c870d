import MiniRedis.Ds.Heap
import Mathlib.Data.List.Nodup
import Mathlib.Data.List.Perm.Basic
import Mathlib.Data.Nat.Basic

namespace MiniRedis.Ds

open MiniRedis.Data

variable {ρ : Type}

/-! The heap operations keep the order and every owner's index. -/

def valAt (items : List (HeapItem ρ)) (i : Nat) : Nat :=
  (items[i]?.map HeapItem.val).getD 0

structure Heap.Valid (heap : Heap ρ) : Prop where
  ordered : HeapOrdered (valAt heap.items) heap.items.length
  synced : ∀ (i : Nat) (item : HeapItem ρ), heap.items[i]? = some item →
    heap.index.idx item.ref = some i

theorem Heap.Valid.distinct {heap : Heap ρ} (h : heap.Valid) :
    (heap.items.map HeapItem.ref).Nodup := by
  apply List.nodup_iff_getElem?_ne_getElem?.mpr
  intro i j hij hj heq
  rw [List.length_map] at hj
  obtain ⟨first, hfirst⟩ : ∃ first, heap.items[i]? = some first :=
    ⟨_, List.getElem?_eq_getElem (by omega)⟩
  obtain ⟨second, hsecond⟩ : ∃ second, heap.items[j]? = some second :=
    ⟨_, List.getElem?_eq_getElem hj⟩
  rw [List.getElem?_map, List.getElem?_map, hfirst, hsecond, Option.map_some,
    Option.map_some, Option.some.injEq] at heq
  have hsame := h.synced i first hfirst
  rw [heq, h.synced j second hsecond] at hsame
  cases hsame
  exact Nat.lt_irrefl _ hij

theorem valAt_eq {items : List (HeapItem ρ)} {i : Nat} {item : HeapItem ρ}
    (h : items[i]? = some item) : valAt items i = item.val := by
  simp [valAt, h]

theorem valAt_set_self {items : List (HeapItem ρ)} {pos : Nat}
    (item : HeapItem ρ) (h : pos < items.length) :
    valAt (items.set pos item) pos = item.val := by
  simp [valAt, h]

theorem valAt_set_other {items : List (HeapItem ρ)} {pos i : Nat}
    (item : HeapItem ρ) (h : i ≠ pos) :
    valAt (items.set pos item) i = valAt items i := by
  simp [valAt, List.getElem?_set_ne (Ne.symm h)]

/-- The array has a hole at `pos` that `t` will fill: everywhere else the
owners' indexes are right. -/
structure Sifting (heap : Heap ρ) (pos : Nat) (t : HeapItem ρ) : Prop where
  bound : pos < heap.items.length
  distinct : ((heap.items.set pos t).map HeapItem.ref).Nodup
  synced : ∀ (i : Nat) (item : HeapItem ρ), i ≠ pos →
    heap.items[i]? = some item → heap.index.idx item.ref = some i

theorem Sifting.ref_inj {heap : Heap ρ} {pos : Nat} {t : HeapItem ρ}
    (h : Sifting heap pos t) {i j : Nat} {first second : HeapItem ρ}
    (hi : (heap.items.set pos t)[i]? = some first)
    (hj : (heap.items.set pos t)[j]? = some second)
    (href : first.ref = second.ref) : i = j := by
  have hi' : ((heap.items.set pos t).map HeapItem.ref)[i]? =
      some first.ref := by rw [List.getElem?_map, hi, Option.map_some]
  have hj' : ((heap.items.set pos t).map HeapItem.ref)[j]? =
      some second.ref := by rw [List.getElem?_map, hj, Option.map_some]
  have hbound := (List.getElem?_eq_some_iff.mp hi').1
  exact (List.getElem?_inj hbound h.distinct).mp (by rw [hi', hj', href])

variable [DecidableEq ρ]

theorem IndexMem.write_self (index : IndexMem ρ) (ref : ρ)
    (value : Option Nat) : (index.write ref value).idx ref = value := by
  simp [IndexMem.write]

theorem IndexMem.write_other (index : IndexMem ρ) {ref other : ρ}
    (value : Option Nat) (hne : other ≠ ref) :
    (index.write ref value).idx other = index.idx other := by
  simp [IndexMem.write, hne]

structure Sifted (items : List (HeapItem ρ)) (index : IndexMem ρ)
    (heap : Heap ρ) : Prop where
  valid : heap.Valid
  perm : heap.items.Perm items
  untouched : ∀ ref, ref ∉ items.map HeapItem.ref →
    heap.index.idx ref = index.idx ref

theorem Sifting.finish {heap : Heap ρ} {pos : Nat} {t : HeapItem ρ}
    (h : Sifting heap pos t)
    (hordered : HeapOrdered (valAt (heap.items.set pos t))
      heap.items.length) :
    ∃ heap', heap.place pos t = some heap' ∧
      Sifted (heap.items.set pos t) heap.index heap' := by
  refine ⟨⟨heap.items.set pos t, heap.index.write t.ref (some pos)⟩,
    by simp [Heap.place, h.bound], ⟨?_, ?_⟩, List.Perm.refl _, ?_⟩
  · rw [List.length_set]
    exact hordered
  · intro i item hitem
    have hself : (heap.items.set pos t)[pos]? = some t := by
      rw [List.getElem?_set_self h.bound]
    by_cases href : item.ref = t.ref
    · rw [href, IndexMem.write_self, h.ref_inj hitem hself href]
    · rw [IndexMem.write_other _ _ href]
      have hne : i ≠ pos := by
        rintro rfl
        rw [hself] at hitem
        cases hitem
        exact href rfl
      rw [List.getElem?_set_ne (Ne.symm hne)] at hitem
      exact h.synced i item hne hitem
  · intro ref href
    apply IndexMem.write_other
    rintro rfl
    exact href (List.mem_map.mpr ⟨t, List.mem_set h.bound t, rfl⟩)

structure Moved (heap heap' : Heap ρ) (pos q : Nat) (t : HeapItem ρ) :
    Prop where
  sifting : Sifting heap' q t
  length : heap'.items.length = heap.items.length
  perm : (heap'.items.set q t).Perm (heap.items.set pos t)
  values : valAt (heap'.items.set q t) =
    fun i => valAt (heap.items.set pos t) (Equiv.swap pos q i)
  untouched : ∀ ref, ref ∉ (heap.items.set pos t).map HeapItem.ref →
    heap'.index.idx ref = heap.index.idx ref

theorem Sifting.move {heap : Heap ρ} {pos q : Nat} {t item : HeapItem ρ}
    (h : Sifting heap pos t) (hitem : heap.items[q]? = some item)
    (hne : q ≠ pos) :
    ∃ heap', heap.place pos item = some heap' ∧ Moved heap heap' pos q t := by
  have hq : q < heap.items.length := (List.getElem?_eq_some_iff.mp hitem).1
  have hitem' : (heap.items.set pos t)[q]? = some item := by
    rw [List.getElem?_set_ne (Ne.symm hne), hitem]
  have hperm : ((heap.items.set pos item).set q t).Perm
      (heap.items.set pos t) := by
    have hpos' : pos < (heap.items.set pos t).length := by simpa using h.bound
    have hq' : q < (heap.items.set pos t).length := by simpa using hq
    have hget : (heap.items.set pos t)[q] = item := by
      rw [List.getElem?_eq_getElem hq'] at hitem'
      exact Option.some.inj hitem'
    have hswap := List.set_set_perm hpos' hq'
    simpa [hget, List.set_set] using hswap
  have hsame : ∀ i, i ≠ pos → i ≠ q →
      ((heap.items.set pos item).set q t)[i]? = (heap.items.set pos t)[i]? := by
    intro i hi hi'
    rw [List.getElem?_set_ne (Ne.symm hi'), List.getElem?_set_ne (Ne.symm hi),
      List.getElem?_set_ne (Ne.symm hi)]
  refine ⟨⟨heap.items.set pos item, heap.index.write item.ref (some pos)⟩,
    by simp [Heap.place, h.bound], ⟨by simpa using hq, ?_, ?_⟩, by simp, hperm,
    ?_, ?_⟩
  · exact (hperm.map HeapItem.ref).nodup_iff.mpr h.distinct
  · intro i other hi hother
    by_cases hpos : i = pos
    · subst hpos
      rw [List.getElem?_set_self h.bound] at hother
      cases hother
      exact IndexMem.write_self _ _ _
    · rw [List.getElem?_set_ne (Ne.symm hpos)] at hother
      rw [IndexMem.write_other]
      · exact h.synced i other hpos hother
      · intro href
        apply hi
        apply h.ref_inj _ hitem' href
        rw [List.getElem?_set_ne (Ne.symm hpos), hother]
  · funext i
    by_cases hi : i = pos
    · subst hi
      rw [Equiv.swap_apply_left, valAt_set_other t (Ne.symm hne),
        valAt_set_self item h.bound, valAt_eq hitem']
    · by_cases hi' : i = q
      · subst hi'
        rw [Equiv.swap_apply_right, valAt_set_self t (by simpa using hq),
          valAt_set_self t h.bound]
      · rw [Equiv.swap_apply_of_ne_of_ne hi hi', valAt, hsame i hi hi', valAt]
  · intro ref href
    apply IndexMem.write_other
    rintro rfl
    exact href (List.mem_map.mpr ⟨item, List.mem_of_getElem? hitem', rfl⟩)

omit [DecidableEq ρ] in
theorem Moved.sifted {heap heap' result : Heap ρ} {pos q : Nat}
    {t : HeapItem ρ} (h : Moved heap heap' pos q t)
    (hresult : Sifted (heap'.items.set q t) heap'.index result) :
    Sifted (heap.items.set pos t) heap.index result where
  valid := hresult.valid
  perm := hresult.perm.trans h.perm
  untouched ref href := by
    rw [hresult.untouched ref, h.untouched ref href]
    rwa [(h.perm.map HeapItem.ref).mem_iff]

theorem heapUpLoop_spec {fuel pos : Nat} {heap : Heap ρ} {t : HeapItem ρ}
    (h : Sifting heap pos t)
    (hordered : UpOrdered (valAt (heap.items.set pos t))
      heap.items.length pos) (hfuel : pos < fuel) :
    ∃ heap', heapUpLoop t fuel heap pos = some heap' ∧
      Sifted (heap.items.set pos t) heap.index heap' := by
  induction fuel generalizing heap pos with
  | zero => omega
  | succ fuel ih =>
      by_cases hpos : pos > 0
      · have hlt : heapParent pos < pos := parentIndex_lt hpos
        have hbound := h.bound
        obtain ⟨parent, hparent⟩ : ∃ parent,
            heap.items[heapParent pos]? = some parent :=
          ⟨_, List.getElem?_eq_getElem (by omega)⟩
        have hvalue : valAt (heap.items.set pos t) (heapParent pos) =
            parent.val := by
          rw [valAt_set_other t (by omega), valAt_eq hparent]
        have hself : valAt (heap.items.set pos t) pos = t.val :=
          valAt_set_self t hbound
        by_cases hswap : parent.val > t.val
        · obtain ⟨heap', hplace, hmoved⟩ := h.move hparent (by omega)
          have hup : UpOrdered (valAt (heap'.items.set (heapParent pos) t))
              heap'.items.length (heapParent pos) := by
            rw [hmoved.values, hmoved.length]
            apply hordered.swap hpos hbound
            rw [hself]
            exact lt_of_lt_of_eq hswap hvalue.symm
          obtain ⟨result, hloop, hsifted⟩ := ih hmoved.sifting hup (by omega)
          refine ⟨result, ?_, hmoved.sifted hsifted⟩
          simp [heapUpLoop, hpos, hparent, hswap, hplace, hloop]
        · obtain ⟨result, hplace, hsifted⟩ := h.finish (hordered.finish (by
            intro _
            rw [hself]
            exact le_of_eq_of_le hvalue (not_lt.mp hswap)))
          refine ⟨result, ?_, hsifted⟩
          simp [heapUpLoop, hpos, hparent, hswap, hplace]
      · obtain ⟨result, hplace, hsifted⟩ :=
          h.finish (hordered.finish (fun hpos' => absurd hpos' hpos))
        refine ⟨result, ?_, hsifted⟩
        simp only [heapUpLoop, if_neg hpos, hplace]

omit [DecidableEq ρ] in
theorem smaller_spec (items : List (HeapItem ρ)) (child : Nat)
    (best : Nat × Nat) :
    ∃ best', smaller items items.length child best = some best' ∧
      ((best' = best ∧
          (child < items.length → best.2 ≤ valAt items child)) ∨
        (best' = (child, valAt items child) ∧ child < items.length ∧
          valAt items child < best.2)) := by
  by_cases hchild : child < items.length
  · obtain ⟨item, hitem⟩ : ∃ item, items[child]? = some item :=
      ⟨_, List.getElem?_eq_getElem hchild⟩
    have hvalue := valAt_eq hitem
    by_cases hlt : item.val < best.2
    · refine ⟨(child, item.val), ?_, ?_⟩
      · simp only [smaller, if_pos hchild, hitem, Option.bind_eq_bind,
          Option.bind_some, if_pos hlt]
      · rw [hvalue]
        exact .inr ⟨rfl, hchild, hlt⟩
    · refine ⟨best, ?_, .inl ⟨rfl, ?_⟩⟩
      · simp only [smaller, if_pos hchild, hitem, Option.bind_eq_bind,
          Option.bind_some, if_neg hlt]
      · intro _
        rw [hvalue]
        exact not_lt.mp hlt
  · refine ⟨best, by simp [smaller, hchild], .inl ⟨rfl, ?_⟩⟩
    exact fun hlt => absurd hlt hchild

structure Smallest (v : Nat → Nat) (n pos minPos : Nat) : Prop where
  stay : minPos = pos → ∀ i, 0 < i → i < n → parentIndex i = pos → v pos ≤ v i
  down : minPos ≠ pos → 0 < minPos ∧ minPos < n ∧ parentIndex minPos = pos ∧
    v minPos < v pos ∧
    ∀ i, 0 < i → i < n → parentIndex i = pos → v minPos ≤ v i

omit [DecidableEq ρ] in
theorem Sifting.smallest {heap : Heap ρ} {pos : Nat} {t : HeapItem ρ}
    (h : Sifting heap pos t) :
    ∃ best minPos minVal,
      smaller heap.items heap.items.length (heapLeft pos) (pos, t.val) =
        some best ∧
      smaller heap.items heap.items.length (heapRight pos) best =
        some (minPos, minVal) ∧
      Smallest (valAt (heap.items.set pos t)) heap.items.length pos minPos := by
  obtain ⟨best, hbest, hleft⟩ :=
    smaller_spec heap.items (heapLeft pos) (pos, t.val)
  obtain ⟨⟨minPos, minVal⟩, hmin, hright⟩ :=
    smaller_spec heap.items (heapRight pos) best
  have hself : valAt (heap.items.set pos t) pos = t.val :=
    valAt_set_self t h.bound
  have hl : valAt (heap.items.set pos t) (heapLeft pos) =
      valAt heap.items (heapLeft pos) :=
    valAt_set_other t (by unfold heapLeft; omega)
  have hr : valAt (heap.items.set pos t) (heapRight pos) =
      valAt heap.items (heapRight pos) :=
    valAt_set_other t (by unfold heapRight; omega)
  have hindex : pos < heapLeft pos ∧ pos < heapRight pos ∧
      parentIndex (heapLeft pos) = pos ∧
      parentIndex (heapRight pos) = pos := by
    unfold parentIndex heapLeft heapRight
    omega
  obtain ⟨hlgt, hrgt, hlparent, hrparent⟩ := hindex
  -- a bound on both children is a bound on every position below
  have hall : ∀ bound, (heapLeft pos < heap.items.length →
        bound ≤ valAt heap.items (heapLeft pos)) →
      (heapRight pos < heap.items.length →
        bound ≤ valAt heap.items (heapRight pos)) →
      ∀ i, 0 < i → i < heap.items.length → parentIndex i = pos →
        bound ≤ valAt (heap.items.set pos t) i := by
    intro bound hboundLeft hboundRight i hi hn heq
    rcases parentIndex_eq_iff.mp ⟨hi, heq⟩ with hchild | hchild
    · rw [show i = heapLeft pos by unfold heapLeft; omega] at hn ⊢
      exact hl ▸ hboundLeft hn
    · rw [show i = heapRight pos by unfold heapRight; omega] at hn ⊢
      exact hr ▸ hboundRight hn
  refine ⟨best, minPos, minVal, hbest, hmin, ?_⟩
  rcases hleft with ⟨rfl, hkeepLeft⟩ | ⟨rfl, hln, hltLeft⟩
  · rcases hright with ⟨heq, hkeepRight⟩ | ⟨heq, hrn, hltRight⟩
    · cases heq
      refine ⟨fun _ => ?_, fun hne => absurd rfl hne⟩
      rw [hself]
      exact hall t.val hkeepLeft hkeepRight
    · cases heq
      refine ⟨fun heq => by omega, fun _ => ⟨by omega, hrn, hrparent, ?_, ?_⟩⟩
      · rw [hself, hr]
        exact hltRight
      · rw [hr]
        exact hall _ (fun hln => le_trans (le_of_lt hltRight) (hkeepLeft hln))
          (fun _ => le_refl _)
  · rcases hright with ⟨heq, hkeepRight⟩ | ⟨heq, hrn, hltRight⟩
    · cases heq
      refine ⟨fun heq => by omega, fun _ => ⟨by omega, hln, hlparent, ?_, ?_⟩⟩
      · rw [hself, hl]
        exact hltLeft
      · rw [hl]
        exact hall _ (fun _ => le_refl _) hkeepRight
    · cases heq
      refine ⟨fun heq => by omega, fun _ => ⟨by omega, hrn, hrparent, ?_, ?_⟩⟩
      · rw [hself, hr]
        exact lt_trans hltRight hltLeft
      · rw [hr]
        exact hall _ (fun _ => le_of_lt hltRight) (fun _ => le_refl _)

theorem heapDownLoop_spec {fuel pos : Nat} {heap : Heap ρ} {t : HeapItem ρ}
    (h : Sifting heap pos t)
    (hordered : DownOrdered (valAt (heap.items.set pos t))
      heap.items.length pos) (hfuel : heap.items.length < pos + fuel) :
    ∃ heap', heapDownLoop t heap.items.length fuel heap pos = some heap' ∧
      Sifted (heap.items.set pos t) heap.index heap' := by
  induction fuel generalizing heap pos with
  | zero =>
      have hbound := h.bound
      omega
  | succ fuel ih =>
      obtain ⟨best, minPos, minVal, hbest, hmin, hsmallest⟩ := h.smallest
      by_cases hstay : minPos = pos
      · obtain ⟨result, hplace, hsifted⟩ :=
          h.finish (hordered.finish (hsmallest.stay hstay))
        refine ⟨result, ?_, hsifted⟩
        simp [heapDownLoop, hbest, hmin, hstay, hplace]
      · obtain ⟨hpos, hn, hparent, hlt, hleast⟩ := hsmallest.down hstay
        have hgt : pos < minPos := hparent ▸ parentIndex_lt hpos
        obtain ⟨item, hitem⟩ : ∃ item, heap.items[minPos]? = some item :=
          ⟨_, List.getElem?_eq_getElem hn⟩
        obtain ⟨heap', hplace, hmoved⟩ := h.move hitem (by omega)
        have hdown : DownOrdered (valAt (heap'.items.set minPos t))
            heap'.items.length minPos := by
          rw [hmoved.values, hmoved.length]
          exact hordered.swap hpos hn hparent hlt hleast
        obtain ⟨result, hloop, hsifted⟩ := ih hmoved.sifting hdown (by
          rw [hmoved.length]
          omega)
        rw [hmoved.length] at hloop
        refine ⟨result, ?_, hmoved.sifted hsifted⟩
        simp only [heapDownLoop, hbest, hmin, Option.bind_eq_bind,
          Option.bind_some, if_neg hstay, hitem, hplace, hloop]

/-- `heap_update` mends an array that is out of order at `pos` only. -/
theorem heapUpdate_spec {heap : Heap ρ} {pos : Nat} {t : HeapItem ρ}
    (hitem : heap.items[pos]? = some t) (h : Sifting heap pos t)
    (hordered : OrderedExcept (valAt heap.items) heap.items.length pos) :
    ∃ heap', heapUpdate heap pos heap.items.length = some heap' ∧
      Sifted heap.items heap.index heap' := by
  have hset : heap.items.set pos t = heap.items := by
    obtain ⟨hbound, hget⟩ := List.getElem?_eq_some_iff.mp hitem
    rw [← hget, List.set_getElem_self]
  have hvalue := valAt_eq hitem
  have hdown : (0 < pos → valAt heap.items (parentIndex pos) ≤ t.val) →
      ∃ heap', heapDown heap pos heap.items.length = some heap' ∧
        Sifted heap.items heap.index heap' := by
    intro habove
    have hordered' : DownOrdered (valAt (heap.items.set pos t))
        heap.items.length pos := by
      rw [hset]
      exact hordered.down (by rwa [hvalue])
    obtain ⟨heap', hloop, hsifted⟩ := heapDownLoop_spec h hordered'
      (by omega : heap.items.length < pos + (heap.items.length + 1))
    rw [hset] at hsifted
    exact ⟨heap', by simp [heapDown, hitem, hloop], hsifted⟩
  by_cases hpos : pos > 0
  · have hlt := parentIndex_lt hpos
    have hbound := h.bound
    obtain ⟨parent, hparent⟩ : ∃ parent,
        heap.items[heapParent pos]? = some parent :=
      ⟨_, List.getElem?_eq_getElem (by unfold heapParent; omega)⟩
    have hparentValue : valAt heap.items (parentIndex pos) = parent.val :=
      valAt_eq hparent
    by_cases hswap : parent.val > t.val
    · have hordered' : UpOrdered (valAt (heap.items.set pos t))
          heap.items.length pos := by
        rw [hset]
        exact hordered.up hpos (by rw [hvalue, hparentValue]; exact hswap)
      obtain ⟨heap', hloop, hsifted⟩ :=
        heapUpLoop_spec h hordered' (Nat.lt_succ_self pos)
      rw [hset] at hsifted
      refine ⟨heap', ?_, hsifted⟩
      simp only [heapUpdate, hitem, Option.bind_eq_bind, Option.bind_some,
        if_pos hpos, hparent, if_pos hswap, heapUp]
      exact hloop
    · obtain ⟨heap', hresult, hsifted⟩ := hdown (fun _ => by
        rw [hparentValue]
        exact not_lt.mp hswap)
      refine ⟨heap', ?_, hsifted⟩
      simp only [heapUpdate, hitem, Option.bind_eq_bind, Option.bind_some,
        if_pos hpos, hparent, if_neg hswap, hresult]
  · obtain ⟨heap', hresult, hsifted⟩ :=
      hdown (fun hpos' => absurd hpos' hpos)
    refine ⟨heap', ?_, hsifted⟩
    simp only [heapUpdate, hitem, Option.bind_eq_bind, Option.bind_some,
      if_neg hpos, hresult]

theorem Heap.Valid.overwrite {heap : Heap ρ} {pos : Nat} {t : HeapItem ρ}
    (h : heap.Valid) (hbound : pos < heap.items.length)
    (hdistinct : ((heap.items.set pos t).map HeapItem.ref).Nodup) :
    ∃ heap', heapUpdate { heap with items := heap.items.set pos t } pos
        heap.items.length = some heap' ∧
      Sifted (heap.items.set pos t) heap.index heap' := by
  have hsifting : Sifting { heap with items := heap.items.set pos t } pos t := by
    refine ⟨by simpa using hbound, ?_, ?_⟩
    · simp only [List.set_set]
      exact hdistinct
    · intro i item hi hitem
      rw [List.getElem?_set_ne (Ne.symm hi)] at hitem
      exact h.synced i item hitem
  have hordered : OrderedExcept (valAt (heap.items.set pos t))
      (heap.items.set pos t).length pos := by
    rw [List.length_set]
    apply (h.ordered.orderedExcept pos).congr
    intro i _ hi
    exact valAt_set_other t hi
  obtain ⟨heap', hupdate, hsifted⟩ := heapUpdate_spec
    (List.getElem?_set_self hbound) hsifting hordered
  rw [List.length_set] at hupdate
  exact ⟨heap', hupdate, hsifted⟩

theorem heapUpsert_replace {heap : Heap ρ} {pos : Nat} {old t : HeapItem ρ}
    (h : heap.Valid) (hitem : heap.items[pos]? = some old)
    (href : t.ref = old.ref) :
    ∃ heap', heapUpsert heap (some pos) t = some heap' ∧
      Sifted (heap.items.set pos t) heap.index heap' := by
  obtain ⟨hbound, hget⟩ := List.getElem?_eq_some_iff.mp hitem
  have hrefs : (heap.items.set pos t).map HeapItem.ref =
      heap.items.map HeapItem.ref := by
    rw [List.map_set, href, ← hget, ← List.getElem_map HeapItem.ref,
      List.set_getElem_self]
    simpa using hbound
  obtain ⟨heap', hupdate, hsifted⟩ :=
    h.overwrite hbound (by rw [hrefs]; exact h.distinct)
  refine ⟨heap', ?_, hsifted⟩
  simp only [heapUpsert, if_pos hbound, hupdate]

theorem heapUpsert_append {heap : Heap ρ} {t : HeapItem ρ} (h : heap.Valid)
    (hfresh : t.ref ∉ heap.items.map HeapItem.ref) :
    ∃ heap', heapUpsert heap none t = some heap' ∧
      Sifted (heap.items ++ [t]) heap.index heap' := by
  have hitem : (heap.items ++ [t])[heap.items.length]? = some t := by simp
  have hset : (heap.items ++ [t]).set heap.items.length t =
      heap.items ++ [t] := by simp
  have hsame : ∀ i, i < heap.items.length →
      (heap.items ++ [t])[i]? = heap.items[i]? :=
    fun i hi => List.getElem?_append_left hi
  have hsifting : Sifting { heap with items := heap.items ++ [t] }
      heap.items.length t := by
    refine ⟨by simp, ?_, ?_⟩
    · simp only [hset, List.map_append, List.map_cons, List.map_nil]
      rw [List.nodup_append]
      refine ⟨h.distinct, by simp, ?_⟩
      intro ref href other hother heq
      rw [List.mem_singleton] at hother
      exact hfresh (hother ▸ heq ▸ href)
    · intro i item hi hitem
      have hbound := (List.getElem?_eq_some_iff.mp hitem).1
      simp only [List.length_append, List.length_singleton] at hbound
      rw [hsame i (by omega)] at hitem
      exact h.synced i item hitem
  have hordered : OrderedExcept (valAt (heap.items ++ [t]))
      (heap.items ++ [t]).length heap.items.length := by
    rw [List.length_append, List.length_singleton]
    constructor
    · intro i hi hn hne hparent
      have hlt := parentIndex_lt hi
      simp only [valAt, hsame i (by omega), hsame (parentIndex i) (by omega)]
      exact h.ordered i hi (by omega)
    · intro _ i hi hn hparent
      have hlt := parentIndex_lt hi
      omega
  obtain ⟨heap', hupdate, hsifted⟩ := heapUpdate_spec hitem hsifting hordered
  refine ⟨heap', ?_, hsifted⟩
  simpa [heapUpsert, heapAppend] using hupdate

omit [DecidableEq ρ] in
theorem Heap.Valid.init {heap : Heap ρ} {init : List (HeapItem ρ)}
    {last : HeapItem ρ} (h : heap.Valid) (hsplit : heap.items = init ++ [last]) :
    Heap.Valid { heap with items := init } := by
  have hinit : ∀ i, i < init.length → heap.items[i]? = init[i]? := by
    intro i hi
    rw [hsplit, List.getElem?_append_left hi]
  have hlength : init.length ≤ heap.items.length := by simp [hsplit]
  refine ⟨?_, ?_⟩
  · apply (h.ordered.restrict hlength).congr
    intro i hi
    rw [valAt, valAt, hinit i hi]
  · intro i item hitem
    have hi := (List.getElem?_eq_some_iff.mp hitem).1
    exact h.synced i item (by rw [hinit i hi, hitem])

theorem perm_fill_gap {α : Type*} {init : List α} {last old : α} {pos : Nat}
    (h : init[pos]? = some old) :
    (init ++ [last]).Perm (old :: init.set pos last) := by
  obtain ⟨hpos, rfl⟩ := List.getElem?_eq_some_iff.mp h
  calc
    (init ++ [last]).Perm (last :: init) := List.perm_append_singleton _ _
    (last :: init).Perm (last :: init[pos] :: init.eraseIdx pos) :=
      (List.getElem_cons_eraseIdx_perm hpos).symm.cons last
    (last :: init[pos] :: init.eraseIdx pos).Perm
        (init[pos] :: last :: init.eraseIdx pos) := List.Perm.swap _ _ _
    (init[pos] :: last :: init.eraseIdx pos).Perm
        (init[pos] :: init.set pos last) :=
      (List.set_perm_cons_eraseIdx hpos last).symm.cons init[pos]

theorem heapDelete_spec {heap : Heap ρ} {pos : Nat} {old : HeapItem ρ}
    (h : heap.Valid) (hitem : heap.items[pos]? = some old) :
    ∃ heap', heapDelete heap pos = some heap' ∧ heap'.Valid ∧
      heap.items.Perm (old :: heap'.items) ∧
      ∀ ref, ref ∉ heap'.items.map HeapItem.ref →
        heap'.index.idx ref = heap.index.idx ref := by
  have hbound := (List.getElem?_eq_some_iff.mp hitem).1
  have hne : heap.items ≠ [] := fun heq => by simp [heq] at hbound
  obtain ⟨init, last, hsplit⟩ := List.eq_nil_or_concat heap.items
    |>.resolve_left hne
  rw [List.concat_eq_append] at hsplit
  have hlast : heap.items.getLast? = some last := by simp [hsplit]
  have hlength : heap.items.length = init.length + 1 := by simp [hsplit]
  by_cases hpos : pos < init.length
  · have hitems : (heap.items.set pos last).dropLast = init.set pos last := by
      rw [hsplit, List.set_append_left _ _ hpos, List.dropLast_concat]
    have hperm : heap.items.Perm (old :: init.set pos last) := by
      rw [hsplit, List.getElem?_append_left hpos] at hitem
      rw [hsplit]
      exact perm_fill_gap hitem
    have hnodup := (hperm.map HeapItem.ref).nodup_iff.mp h.distinct
    obtain ⟨heap', hupdate, hsifted⟩ :=
      (h.init hsplit).overwrite hpos (List.nodup_cons.mp hnodup).2
    refine ⟨heap', ?_, hsifted.valid, ?_, ?_⟩
    · simp only [heapDelete, hlast, Option.bind_eq_bind, Option.bind_some,
        if_pos hbound, hitems, List.length_set, if_pos hpos]
      exact hupdate
    · exact hperm.trans (hsifted.perm.symm.cons old)
    · intro ref href
      apply hsifted.untouched
      rwa [(hsifted.perm.map HeapItem.ref).mem_iff] at href
  · have hend : pos = init.length := by omega
    have hold : old = last := by
      rw [hend, hsplit] at hitem
      simpa using hitem.symm
    have hitems : (heap.items.set pos last).dropLast = init := by
      rw [hsplit, hend]
      simp
    refine ⟨{ heap with items := init }, ?_, h.init hsplit, ?_, fun _ _ => rfl⟩
    · simp only [heapDelete, hlast, Option.bind_eq_bind, Option.bind_some,
        if_pos hbound, hitems, if_neg hpos]
    · rw [hsplit, hold]
      exact List.perm_append_singleton _ _

omit [DecidableEq ρ] in
theorem Heap.Valid.root_least {heap : Heap ρ} {root item : HeapItem ρ}
    (h : heap.Valid) (hroot : heap.items[0]? = some root)
    (hitem : item ∈ heap.items) : root.val ≤ item.val := by
  obtain ⟨i, hi⟩ := List.getElem?_of_mem hitem
  have hle := h.ordered.root_le i (List.getElem?_eq_some_iff.mp hi).1
  rwa [valAt_eq hroot, valAt_eq hi] at hle

structure Reheaped (heap : Heap ρ) (items : List (HeapItem ρ))
    (heap' : Heap ρ) : Prop where
  valid : heap'.Valid
  distinct : (heap'.items.map HeapItem.ref).Nodup
  perm : heap'.items.Perm items
  unwritten : ∀ ref, ref ∉ heap'.items.map HeapItem.ref →
    heap'.index.idx ref = heap.index.idx ref
  least : ∀ root, heap'.items[0]? = some root → ∀ item ∈ heap'.items,
    root.val ≤ item.val

omit [DecidableEq ρ] in
theorem Reheaped.of_valid {heap heap' : Heap ρ} {items : List (HeapItem ρ)}
    (hvalid : heap'.Valid) (hperm : heap'.items.Perm items)
    (hunwritten : ∀ ref, ref ∉ heap'.items.map HeapItem.ref →
      heap'.index.idx ref = heap.index.idx ref) : Reheaped heap items heap' where
  valid := hvalid
  distinct := hvalid.distinct
  perm := hperm
  unwritten := hunwritten
  least _ hroot _ hitem := hvalid.root_least hroot hitem

omit [DecidableEq ρ] in
theorem Sifted.reheaped {heap heap' : Heap ρ} {items : List (HeapItem ρ)}
    (h : Sifted items heap.index heap') : Reheaped heap items heap' := by
  apply Reheaped.of_valid h.valid h.perm
  intro ref href
  apply h.untouched
  rwa [(h.perm.map HeapItem.ref).mem_iff] at href

/-- Replacing, adding and removing an item of a valid heap return, and leave a
valid heap of exactly the expected items. -/
theorem heap_operations_reheap {heap : Heap ρ} (h : heap.Valid) :
    (∀ (pos : Nat) (old t : HeapItem ρ), heap.items[pos]? = some old →
      t.ref = old.ref → ∃ heap', heapUpsert heap (some pos) t = some heap' ∧
        Reheaped heap (heap.items.set pos t) heap') ∧
    (∀ (pos : Option Nat) (t : HeapItem ρ),
      (∀ i, pos = some i → heap.items.length ≤ i) →
      t.ref ∉ heap.items.map HeapItem.ref →
      ∃ heap', heapUpsert heap pos t = some heap' ∧
        Reheaped heap (heap.items ++ [t]) heap') ∧
    ∀ pos, pos < heap.items.length → ∃ heap', heapDelete heap pos = some heap' ∧
      Reheaped heap (heap.items.eraseIdx pos) heap' := by
  refine ⟨?_, ?_, ?_⟩
  · intro pos old t hitem href
    obtain ⟨heap', hupsert, hsifted⟩ := heapUpsert_replace h hitem href
    exact ⟨heap', hupsert, hsifted.reheaped⟩
  · intro pos t hpos hfresh
    obtain ⟨heap', hupsert, hsifted⟩ := heapUpsert_append h hfresh
    refine ⟨heap', ?_, hsifted.reheaped⟩
    cases pos with
    | none => exact hupsert
    | some i =>
        have hout : ¬ i < heap.items.length := Nat.not_lt.mpr (hpos i rfl)
        rw [heapUpsert, if_neg hout]
        exact hupsert
  · intro pos hpos
    have hitem := List.getElem?_eq_getElem hpos
    obtain ⟨heap', hdelete, hvalid, hperm, hunwritten⟩ := heapDelete_spec h hitem
    refine ⟨heap', hdelete, Reheaped.of_valid hvalid ?_ hunwritten⟩
    have hsplit := List.getElem_cons_eraseIdx_perm hpos
    exact ((hsplit.trans hperm).cons_inv).symm

theorem heap_operations_reheap_two :
    ∃ heap', heapUpsert (⟨[⟨3, true⟩], ⟨fun _ => some 0⟩⟩ : Heap Bool) none
        ⟨1, false⟩ = some heap' ∧
      Reheaped ⟨[⟨3, true⟩], ⟨fun _ => some 0⟩⟩
        [⟨3, true⟩, ⟨1, false⟩] heap' := by
  have hvalid : Heap.Valid (⟨[⟨3, true⟩], ⟨fun _ => some 0⟩⟩ : Heap Bool) := by
    refine ⟨?_, ?_⟩
    · intro i hi hn
      simp only [List.length_singleton] at hn
      omega
    · intro i item hitem
      have hi := (List.getElem?_eq_some_iff.mp hitem).1
      simp only [List.length_singleton] at hi
      exact congrArg some (by omega)
  exact (heap_operations_reheap hvalid).2.1 none ⟨1, false⟩
    (by rintro _ ⟨⟩) (by decide)

end MiniRedis.Ds
