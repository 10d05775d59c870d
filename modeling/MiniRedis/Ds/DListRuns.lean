import MiniRedis.Ds.DList
import Mathlib.Data.List.Iterate
import Mathlib.Logic.Relation

namespace MiniRedis.Ds

variable {α : Type*}

/-! A ring read from any of its nodes, in both directions. -/

namespace DList

def mirror (list : DList α) : DList α := ⟨list.next, list.prev⟩

variable {list : DList α} {start stop node head : α}
  {nodes first second : List α}

theorem Path.mirror (h : list.Path start nodes stop) :
    list.mirror.Path stop nodes.reverse start := by
  induction nodes generalizing start with
  | nil => exact ⟨h.2, h.1⟩
  | cons node nodes ih =>
      rw [List.reverse_cons, path_append]
      exact ⟨ih h.2, h.1.2, h.1.1⟩

theorem Path.walk (h : list.Path start nodes stop) :
    List.iterate list.next (list.next start) (nodes.length + 1) =
      nodes ++ [stop] := by
  induction nodes generalizing start with
  | nil => rw [h.1]; rfl
  | cons node nodes ih =>
      rw [h.1.1, List.length_cons, List.iterate, ih h.2, List.cons_append]

theorem Path.next_mem (h : list.Path start nodes stop) :
    list.next start ∈ nodes ++ [stop] := by
  rw [← h.walk]
  exact List.mem_cons_self

theorem Ring.mirror (h : list.Ring head nodes) :
    list.mirror.Ring head nodes.reverse := by
  refine ⟨?_, h.path.mirror⟩
  have hperm : (head :: nodes.reverse).Perm (head :: nodes) :=
    nodes.reverse_perm.cons head
  exact hperm.nodup_iff.mpr h.nodup

/-- Any node of a ring may serve as its head. -/
theorem Ring.rotate (h : list.Ring head (first ++ node :: second)) :
    list.Ring node (second ++ head :: first) := by
  obtain ⟨hbefore, hbehind⟩ := path_append.mp h.path
  refine ⟨?_, path_append.mpr ⟨hbehind, hbefore⟩⟩
  have hperm : (node :: second ++ head :: first).Perm
      (head :: first ++ node :: second) := List.perm_append_comm
  exact hperm.nodup_iff.mpr h.nodup

theorem Ring.next_mem (h : list.Ring head nodes)
    (hnode : node ∈ head :: nodes) : list.next node ∈ head :: nodes := by
  rcases List.mem_cons.mp hnode with rfl | hmem
  · have hnext := h.path.next_mem
    rwa [List.mem_append, List.mem_singleton, or_comm, ← List.mem_cons] at hnext
  · obtain ⟨first, second, rfl⟩ := List.append_of_mem hmem
    have hnext := h.rotate.path.next_mem
    simp only [List.mem_append, List.mem_cons] at hnext ⊢
    tauto

theorem Ring.prev_mem (h : list.Ring head nodes)
    (hnode : node ∈ head :: nodes) : list.prev node ∈ head :: nodes := by
  have hmirror := h.mirror.next_mem (by simpa using hnode)
  simpa [DList.mirror] using hmirror

end DList

/-! The abstract sequence. -/

variable [DecidableEq α]

/-- The sequence with `rookie` just before `target`, or at the back if it has
no `target`. -/
def placeBefore (target rookie : α) : List α → List α
  | [] => [rookie]
  | node :: nodes =>
      if node = target then
        rookie :: node :: nodes
      else
        node :: placeBefore target rookie nodes

variable {list : DList α} {head target rookie node : α}
  {nodes first second known : List α}

theorem placeBefore_back (hout : target ∉ nodes) :
    placeBefore target rookie nodes = nodes ++ [rookie] := by
  induction nodes with
  | nil => rfl
  | cons node nodes ih =>
      rw [List.mem_cons, not_or] at hout
      obtain ⟨hnode, hnodes⟩ := hout
      rw [placeBefore, if_neg (Ne.symm hnode), ih hnodes, List.cons_append]

theorem placeBefore_target (hout : target ∉ first) :
    placeBefore target rookie (first ++ target :: second) =
      first ++ rookie :: target :: second := by
  induction first with
  | nil => simp [placeBefore]
  | cons node first ih =>
      rw [List.mem_cons, not_or] at hout
      obtain ⟨hnode, hfirst⟩ := hout
      rw [List.cons_append, placeBefore, if_neg (Ne.symm hnode), ih hfirst,
        List.cons_append]

theorem mem_placeBefore :
    node ∈ placeBefore target rookie nodes ↔ node = rookie ∨ node ∈ nodes := by
  induction nodes with
  | nil => simp [placeBefore]
  | cons other nodes ih =>
      rw [placeBefore]
      split
      · rw [List.mem_cons]
      · rw [List.mem_cons, ih, List.mem_cons, or_left_comm]

namespace DList

theorem Ring.insertBefore_of_mem (h : list.Ring head nodes)
    (htarget : target ∈ head :: nodes) (hout : rookie ∉ head :: nodes) :
    (dlistInsertBefore list target rookie).Ring head
      (placeBefore target rookie nodes) := by
  rcases List.mem_cons.mp htarget with rfl | hmem
  · rw [placeBefore_back (List.nodup_cons.mp h.nodup).1]
    exact h.insertBefore hout
  · obtain ⟨first, second, rfl⟩ := List.append_of_mem hmem
    have hfirst : target ∉ first := by
      have hnodes := (List.nodup_cons.mp h.nodup).2
      intro hin
      exact (List.nodup_append.mp hnodes).2.2 target hin target
        List.mem_cons_self rfl
    have hrotated : rookie ∉ target :: (second ++ head :: first) := by
      simp only [List.mem_cons, List.mem_append, not_or] at hout ⊢
      tauto
    have hring := h.rotate.insertBefore hrotated
    rw [List.append_assoc, List.cons_append] at hring
    rw [placeBefore_target hfirst, ← List.singleton_append,
      ← List.append_assoc]
    exact hring.rotate

def Unlinked (list : DList α) (node : α) : Prop :=
  list.next node = node ∧ list.prev node = node

theorem Unlinked.init : (dlistInit list node).Unlinked node :=
  ⟨Function.update_self .., Function.update_self ..⟩

theorem Unlinked.init_other {other : α} (h : list.Unlinked other)
    (hne : other ≠ node) : (dlistInit list node).Unlinked other :=
  ⟨(Function.update_of_ne hne _ _).trans h.1,
    (Function.update_of_ne hne _ _).trans h.2⟩

theorem Unlinked.init_self (h : list.Unlinked node) :
    dlistInit list node = list := by
  have hnext : Function.update list.next node node = list.next :=
    Function.update_eq_self_iff.mpr h.1.symm
  have hprev : Function.update list.prev node node = list.prev :=
    Function.update_eq_self_iff.mpr h.2.symm
  simp only [dlistInit, setNext, setPrev, hnext, hprev]

theorem Unlinked.detach (h : list.Unlinked node) :
    dlistDetach list node = list := by
  calc
    dlistDetach list node = dlistInit (dlistInit list node) node := by
      simp only [dlistDetach, h.1, h.2, dlistInit]
    _ = list := by rw [h.init_self, h.init_self]

theorem Unlinked.insertBefore_other {other : α} (h : list.Unlinked other)
    (hring : list.Ring head nodes) (htarget : target ∈ head :: nodes)
    (hout : other ∉ head :: nodes) (hne : other ≠ rookie) :
    (dlistInsertBefore list target rookie).Unlinked other := by
  have hprev : other ≠ list.prev target := fun heq =>
    hout (heq ▸ hring.prev_mem htarget)
  have htarget' : other ≠ target := fun heq => hout (heq ▸ htarget)
  constructor
  · rw [dlistInsertBefore_next, Function.update_of_ne hne,
      Function.update_of_ne hprev, h.1]
  · rw [dlistInsertBefore_prev, Function.update_of_ne htarget',
      Function.update_of_ne hne, h.2]

theorem Unlinked.detach_other {other : α} (h : list.Unlinked other)
    (hring : list.Ring head nodes) (hnode : node ∈ head :: nodes)
    (hout : other ∉ head :: nodes) :
    (dlistDetach list node).Unlinked other := by
  have hself : other ≠ node := fun heq => hout (heq ▸ hnode)
  have hprev : other ≠ list.prev node := fun heq =>
    hout (heq ▸ hring.prev_mem hnode)
  have hnext : other ≠ list.next node := fun heq =>
    hout (heq ▸ hring.next_mem hnode)
  constructor
  · rw [dlistDetach_next, Function.update_of_ne hself,
      Function.update_of_ne hprev, h.1]
  · rw [dlistDetach_prev, Function.update_of_ne hself,
      Function.update_of_ne hnext, h.2]

end DList

/-! Whole runs over one head. The state holds the links, the nodes that were
initialised and the abstract sequence. -/

inductive DListStep (head : α) :
    DList α × List α × List α → DList α × List α × List α → Prop
  | init {list : DList α} {known nodes : List α} (node : α)
      (apart : node ∉ head :: nodes) :
      DListStep head (list, known, nodes)
        (dlistInit list node, node :: known, nodes)
  | insertBefore {list : DList α} {known nodes : List α} (target rookie : α)
      (linked : target ∈ head :: nodes) (ready : rookie ∈ known)
      (unlinked : rookie ∉ nodes) :
      DListStep head (list, known, nodes)
        (dlistInsertBefore list target rookie, known,
          placeBefore target rookie nodes)
  | detach {list : DList α} {known nodes : List α} (node : α)
      (ready : node ∈ known) :
      DListStep head (list, known, nodes)
        (dlistDetach list node, known, nodes.erase node)

def DListReachable (head : α) (list : DList α) (known nodes : List α) :
    Prop :=
  ∃ memory : DList α, Relation.ReflTransGen (DListStep head)
    (dlistInit memory head, [], []) (list, known, nodes)

structure Sequenced (head : α) (state : DList α × List α × List α) : Prop where
  ring : state.1.Ring head state.2.2
  apart : head ∉ state.2.1
  unlinked : ∀ node ∈ state.2.1, node ∉ state.2.2 → state.1.Unlinked node

theorem Sequenced.init (memory : DList α) :
    Sequenced head (dlistInit memory head, [], []) where
  ring := ⟨List.nodup_singleton head, DList.Unlinked.init⟩
  apart := List.not_mem_nil
  unlinked := by simp

theorem Sequenced.initNode (h : Sequenced head (list, known, nodes))
    (hapart : node ∉ head :: nodes) :
    Sequenced head (dlistInit list node, node :: known, nodes) where
  ring := h.ring.init_other hapart
  apart := by
    rintro (_ | ⟨_, hmem⟩)
    · exact hapart List.mem_cons_self
    · exact h.apart hmem
  unlinked := by
    intro other hother hout
    by_cases heq : other = node
    · rw [heq]
      exact DList.Unlinked.init
    · have hknown := List.mem_of_ne_of_mem heq hother
      exact (h.unlinked other hknown hout).init_other heq

theorem Sequenced.insertBefore (h : Sequenced head (list, known, nodes))
    (hlinked : target ∈ head :: nodes) (hready : rookie ∈ known)
    (hout : rookie ∉ nodes) :
    Sequenced head (dlistInsertBefore list target rookie, known,
      placeBefore target rookie nodes) where
  ring := by
    apply h.ring.insertBefore_of_mem hlinked
    rw [List.mem_cons, not_or]
    exact ⟨fun heq => h.apart (heq ▸ hready), hout⟩
  apart := h.apart
  unlinked := by
    intro other hother hout'
    rw [mem_placeBefore, not_or] at hout'
    apply (h.unlinked other hother hout'.2).insertBefore_other h.ring hlinked
    · rw [List.mem_cons, not_or]
      exact ⟨fun heq => h.apart (heq ▸ hother), hout'.2⟩
    · exact hout'.1

theorem Sequenced.detach (h : Sequenced head (list, known, nodes))
    (hready : node ∈ known) :
    Sequenced head (dlistDetach list node, known, nodes.erase node) := by
  by_cases hmem : node ∈ nodes
  · refine ⟨?_, h.apart, ?_⟩
    · obtain ⟨first, second, hnodes⟩ := List.append_of_mem hmem
      have hring := h.ring
      dsimp only at hring ⊢
      rw [hnodes] at hring
      have hnodup := (List.nodup_cons.mp hring.nodup).2
      have hfirst : node ∉ first := fun hin =>
        (List.nodup_append.mp hnodup).2.2 node hin node List.mem_cons_self rfl
      rw [hnodes, List.erase_append_right _ hfirst, List.erase_cons_head]
      exact hring.detach
    · intro other hother hout
      by_cases heq : other = node
      · rw [heq]
        exact DList.Unlinked.init
      · have hout' : other ∉ nodes := fun hin =>
          hout ((List.mem_erase_of_ne heq).mpr hin)
        apply (h.unlinked other hother hout').detach_other h.ring
          (List.mem_cons_of_mem _ hmem)
        rw [List.mem_cons, not_or]
        exact ⟨fun hhead => h.apart (hhead ▸ hother), hout'⟩
  · rw [List.erase_of_not_mem hmem, (h.unlinked node hready hmem).detach]
    exact h

theorem Sequenced.step {state state' : DList α × List α × List α}
    (h : Sequenced head state) (hstep : DListStep head state state') :
    Sequenced head state' := by
  cases hstep with
  | init node apart => exact h.initNode apart
  | insertBefore target rookie linked ready unlinked =>
      exact h.insertBefore linked ready unlinked
  | detach node ready => exact h.detach ready

theorem DListReachable.sequenced
    (hreach : DListReachable head list known nodes) :
    Sequenced head (list, known, nodes) := by
  obtain ⟨memory, hrun⟩ := hreach
  have hall : ∀ state, Relation.ReflTransGen (DListStep head)
      (dlistInit memory head, [], []) state → Sequenced head state := by
    intro state hrun
    induction hrun with
    | refl => exact Sequenced.init memory
    | tail _ hstep ih => exact ih.step hstep
  exact hall _ hrun

/-- The links follow the abstract sequence in both directions, through every
run. -/
theorem dlist_refines_sequence
    (hreach : DListReachable head list known nodes) :
    List.iterate list.next (list.next head) (nodes.length + 1) =
      nodes ++ [head] ∧
    List.iterate list.prev (list.prev head) (nodes.length + 1) =
      nodes.reverse ++ [head] ∧
    (head :: nodes).Nodup ∧
    (∀ node ∈ known, node ∉ nodes →
      list.next node = node ∧ list.prev node = node) ∧
    (dlistEmpty list head = true ↔ nodes = []) ∧
    (∀ node ∈ known, node ∉ nodes → dlistDetach list node = list) := by
  have hseq := hreach.sequenced
  have hring : list.Ring head nodes := hseq.ring
  refine ⟨hring.path.walk, ?_, hring.nodup, hseq.unlinked, hring.empty_iff,
    fun node hknown hout => (hseq.unlinked node hknown hout).detach⟩
  have hback := hring.mirror.path.walk
  rwa [List.length_reverse] at hback

theorem dlist_refines_sequence_two :
    ∃ list : DList Nat, DListReachable 0 list [2, 1] [2, 1] ∧
      List.iterate list.next (list.next 0) 3 = [2, 1, 0] ∧
      List.iterate list.prev (list.prev 0) 3 = [1, 2, 0] := by
  let one := dlistInsertBefore (dlistInit (dlistInit {} 0) 1) 0 1
  have hreach : DListReachable 0
      (dlistInsertBefore (dlistInit one 2) 1 2) [2, 1] [2, 1] := by
    refine ⟨{}, ?_⟩
    have hone : Relation.ReflTransGen (DListStep 0) (dlistInit {} 0, [], [])
        (one, [1], [1]) :=
      (Relation.ReflTransGen.single (.init 1 (by decide))).tail
        (.insertBefore 0 1 (by decide) (by decide) (by decide))
    exact (hone.tail (.init 2 (by decide))).tail
      (.insertBefore 1 2 (by decide) (by decide) (by decide))
  obtain ⟨hnext, hprev, _⟩ := dlist_refines_sequence hreach
  exact ⟨_, hreach, hnext, hprev⟩

end MiniRedis.Ds
