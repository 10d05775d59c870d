import Mathlib.Data.List.Nodup
import Mathlib.Logic.Function.Basic

namespace MiniRedis.Ds

/-! The intrusive circular list, whose nodes are found by their addresses. A
node that was never linked points to itself. -/

variable {α : Type*} [DecidableEq α]

structure DList (α : Type*) where
  prev : α → α := fun node => node
  next : α → α := fun node => node

namespace DList

def setPrev (list : DList α) (node prev : α) : DList α :=
  { list with prev := Function.update list.prev node prev }

def setNext (list : DList α) (node next : α) : DList α :=
  { list with next := Function.update list.next node next }

end DList

def dlistInit (list : DList α) (node : α) : DList α :=
  (list.setNext node node).setPrev node node

def dlistEmpty (list : DList α) (node : α) : Bool := list.next node == node

def dlistDetach (list : DList α) (node : α) : DList α :=
  let prev := list.prev node
  let next := list.next node
  let list := list.setNext prev next
  let list := list.setPrev next prev
  dlistInit list node

/-- Before the head is at the back. -/
def dlistInsertBefore (list : DList α) (target rookie : α) : DList α :=
  let prev := list.prev target
  let list := list.setNext prev rookie
  let list := list.setPrev rookie prev
  let list := list.setNext rookie target
  list.setPrev target rookie

theorem dlistDetach_next (list : DList α) (node : α) :
    (dlistDetach list node).next = Function.update
      (Function.update list.next (list.prev node) (list.next node)) node node :=
  rfl

theorem dlistDetach_prev (list : DList α) (node : α) :
    (dlistDetach list node).prev = Function.update
      (Function.update list.prev (list.next node) (list.prev node)) node node :=
  rfl

theorem dlistInsertBefore_next (list : DList α) (target rookie : α) :
    (dlistInsertBefore list target rookie).next = Function.update
      (Function.update list.next (list.prev target) rookie) rookie target :=
  rfl

theorem dlistInsertBefore_prev (list : DList α) (target rookie : α) :
    (dlistInsertBefore list target rookie).prev = Function.update
      (Function.update list.prev rookie (list.prev target)) target rookie :=
  rfl

/-! In which order the nodes are linked. -/

def DList.Path (list : DList α) : α → List α → α → Prop
  | start, [], stop => list.next start = stop ∧ list.prev stop = start
  | start, node :: nodes, stop =>
      (list.next start = node ∧ list.prev node = start) ∧
        DList.Path list node nodes stop

structure DList.Ring (list : DList α) (head : α) (nodes : List α) : Prop where
  nodup : (head :: nodes).Nodup
  path : list.Path head nodes head

variable {list list' : DList α} {start stop node head rookie : α}
  {nodes first second : List α}

namespace DList

section Links

omit [DecidableEq α]

theorem Path.prev_mem (h : list.Path start nodes stop) :
    list.prev stop ∈ start :: nodes := by
  induction nodes generalizing start with
  | nil => simp [h.2]
  | cons node nodes ih => exact List.mem_cons_of_mem _ (ih h.2)

theorem path_append :
    list.Path start (first ++ node :: second) stop ↔
      list.Path start first node ∧ list.Path node second stop := by
  induction first generalizing start with
  | nil => rfl
  | cons other first ih =>
      rw [List.cons_append, Path, ih, Path, ← and_assoc]

theorem Path.retarget (h : list.Path start nodes stop)
    (hnodup : (start :: nodes).Nodup) {target : α}
    (hnext : list'.next (list.prev stop) = target)
    (hprev : list'.prev target = list.prev stop)
    (hnexts : ∀ other ∈ start :: nodes, other ≠ list.prev stop →
      list'.next other = list.next other)
    (hprevs : ∀ other ∈ nodes, list'.prev other = list.prev other) :
    list'.Path start nodes target := by
  induction nodes generalizing start with
  | nil =>
      rw [h.2] at hnext hprev
      exact ⟨hnext, hprev⟩
  | cons node nodes ih =>
      obtain ⟨hstart, hnodup⟩ := List.nodup_cons.mp hnodup
      have hne : start ≠ list.prev stop := by
        intro heq
        exact hstart (heq ▸ h.2.prev_mem)
      refine ⟨⟨?_, ?_⟩, ih h.2 hnodup ?_ ?_⟩
      · rw [hnexts start List.mem_cons_self hne, h.1.1]
      · rw [hprevs node List.mem_cons_self, h.1.2]
      · intro other hother
        exact hnexts other (List.mem_cons_of_mem _ hother)
      · intro other hother
        exact hprevs other (List.mem_cons_of_mem _ hother)

theorem Path.congr (h : list.Path start nodes stop)
    (hnexts : ∀ other ∈ start :: nodes, list'.next other = list.next other)
    (hprevs : ∀ other ∈ nodes, list'.prev other = list.prev other)
    (hstop : list'.prev stop = list.prev stop) :
    list'.Path start nodes stop := by
  induction nodes generalizing start with
  | nil =>
      refine ⟨?_, hstop.trans h.2⟩
      rw [hnexts start List.mem_cons_self, h.1]
  | cons node nodes ih =>
      refine ⟨⟨?_, ?_⟩, ih h.2 ?_ ?_⟩
      · rw [hnexts start List.mem_cons_self, h.1.1]
      · rw [hprevs node List.mem_cons_self, h.1.2]
      · intro other hother
        exact hnexts other (List.mem_cons_of_mem _ hother)
      · intro other hother
        exact hprevs other (List.mem_cons_of_mem _ hother)

theorem Ring.next_eq (h : list.Ring head (node :: nodes)) :
    list.next head = node :=
  h.path.1.1

theorem Ring.init (head : α) : ({} : DList α).Ring head [] :=
  ⟨List.nodup_singleton head, rfl, rfl⟩

end Links

theorem Ring.empty_iff (h : list.Ring head nodes) :
    dlistEmpty list head = true ↔ nodes = [] := by
  rw [dlistEmpty, beq_iff_eq]
  cases nodes with
  | nil => exact iff_of_true h.path.1 rfl
  | cons node nodes =>
      rw [h.next_eq]
      refine iff_of_false ?_ (by simp)
      rintro rfl
      exact (List.nodup_cons.mp h.nodup).1 List.mem_cons_self

theorem Ring.init_other (h : list.Ring head nodes) (hout : node ∉ head :: nodes) :
    (dlistInit list node).Ring head nodes := by
  have hne : ∀ other ∈ head :: nodes, other ≠ node := by
    rintro other hother rfl
    exact hout hother
  refine ⟨h.nodup, h.path.congr ?_ ?_ ?_⟩
  · intro other hother
    exact Function.update_of_ne (hne other hother) _ _
  · intro other hother
    exact Function.update_of_ne (hne other (List.mem_cons_of_mem _ hother)) _ _
  · exact Function.update_of_ne (hne head List.mem_cons_self) _ _

theorem Ring.insertBefore (h : list.Ring head nodes)
    (hout : rookie ∉ head :: nodes) :
    (dlistInsertBefore list head rookie).Ring head (nodes ++ [rookie]) := by
  have hhead : rookie ≠ head := fun heq => hout (heq ▸ List.mem_cons_self)
  have hlast : list.prev head ≠ rookie := fun heq => hout (heq ▸ h.path.prev_mem)
  have hne : ∀ other ∈ nodes, other ≠ rookie ∧ other ≠ head := by
    intro other hother
    refine ⟨?_, ?_⟩
    · rintro rfl
      exact hout (List.mem_cons_of_mem _ hother)
    · rintro rfl
      exact (List.nodup_cons.mp h.nodup).1 hother
  refine ⟨?_, path_append.mpr ⟨?_, ?_⟩⟩
  · rw [← List.cons_append, ← List.concat_eq_append]
    exact h.nodup.concat hout
  · apply h.path.retarget h.nodup
    · rw [dlistInsertBefore_next, Function.update_of_ne hlast,
        Function.update_self]
    · rw [dlistInsertBefore_prev, Function.update_of_ne hhead,
        Function.update_self]
    · intro other hother hother'
      have hrookie : other ≠ rookie := fun heq => hout (heq ▸ hother)
      rw [dlistInsertBefore_next, Function.update_of_ne hrookie,
        Function.update_of_ne hother']
    · intro other hother
      obtain ⟨hrookie, hother'⟩ := hne other hother
      rw [dlistInsertBefore_prev, Function.update_of_ne hother',
        Function.update_of_ne hrookie]
  · rw [Path, dlistInsertBefore_next, dlistInsertBefore_prev,
      Function.update_self, Function.update_self]
    exact ⟨rfl, rfl⟩

theorem Path.detach (h : list.Path start nodes node)
    (hnodup : (start :: nodes).Nodup) (hout : node ∉ start :: nodes)
    (hnext : list.next node ∉ nodes) (hself : list.next node ≠ node) :
    (dlistDetach list node).Path start nodes (list.next node) := by
  have hne : ∀ other ∈ start :: nodes, other ≠ node := by
    rintro other hother rfl
    exact hout hother
  apply h.retarget hnodup
  · rw [dlistDetach_next, Function.update_of_ne (hne _ h.prev_mem),
      Function.update_self]
  · rw [dlistDetach_prev, Function.update_of_ne hself, Function.update_self]
  · intro other hother hlast
    rw [dlistDetach_next, Function.update_of_ne (hne other hother),
      Function.update_of_ne hlast]
  · intro other hother
    have hbehind : other ≠ list.next node := fun heq => hnext (heq ▸ hother)
    rw [dlistDetach_prev,
      Function.update_of_ne (hne other (List.mem_cons_of_mem _ hother)),
      Function.update_of_ne hbehind]

theorem Ring.detach (h : list.Ring head (first ++ node :: second)) :
    (dlistDetach list node).Ring head (first ++ second) := by
  obtain ⟨hbefore, hbehind⟩ := path_append.mp h.path
  have hperm : (head :: first ++ node :: second).Perm
      (node :: (head :: first ++ second)) := List.perm_middle
  obtain ⟨hout, hrest⟩ := List.nodup_cons.mp (hperm.nodup_iff.mp h.nodup)
  have hfirst : (head :: first).Nodup := hrest.of_append_left
  have hnode : node ∉ head :: first :=
    fun hin => hout (List.mem_append_left _ hin)
  refine ⟨hrest, ?_⟩
  cases second with
  | nil =>
      rw [List.append_nil] at hout hrest ⊢
      have hhead : list.next node = head := hbehind.1
      have hpath := hbefore.detach hfirst hnode
      rw [hhead] at hpath
      exact hpath (List.nodup_cons.mp hfirst).1
        fun heq => hout (heq ▸ List.mem_cons_self)
  | cons next second =>
      have hnext : list.next node = next := hbehind.1.1
      obtain ⟨-, hsecond, hapart⟩ := List.nodup_append.mp hrest
      have hself : next ≠ node := fun heq =>
        hout (heq ▸ List.mem_append_right _ List.mem_cons_self)
      have hnew : next ∉ first := fun hin =>
        hapart next (List.mem_cons_of_mem _ hin) next List.mem_cons_self rfl
      have hpath := hbefore.detach hfirst hnode (hnext ▸ hnew) (hnext ▸ hself)
      rw [hnext] at hpath
      refine path_append.mpr ⟨hpath, hbehind.2.congr ?_ ?_ ?_⟩
      · intro other hother
        have hother' : other ≠ node := fun heq =>
          hout (heq ▸ List.mem_append_right _ hother)
        have hlast : other ≠ list.prev node := fun heq =>
          hapart _ hbefore.prev_mem other hother heq.symm
        rw [dlistDetach_next, Function.update_of_ne hother',
          Function.update_of_ne hlast]
      · intro other hother
        have hother' : other ≠ node := fun heq =>
          hout (heq ▸ List.mem_append_right _ (List.mem_cons_of_mem _ hother))
        have hnext' : other ≠ list.next node := by
          rw [hnext]
          rintro rfl
          exact (List.nodup_cons.mp hsecond).1 hother
        rw [dlistDetach_prev, Function.update_of_ne hother',
          Function.update_of_ne hnext']
      · have hhead : head ≠ node := fun heq =>
          hnode (heq ▸ List.mem_cons_self)
        have hnext' : head ≠ list.next node := by
          rw [hnext]
          exact hapart head List.mem_cons_self next List.mem_cons_self
        rw [dlistDetach_prev, Function.update_of_ne hhead,
          Function.update_of_ne hnext']

end DList

end MiniRedis.Ds
