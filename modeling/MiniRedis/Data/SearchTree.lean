import MiniRedis.Data.TreeContext
import Mathlib.Order.Lattice

namespace MiniRedis.Data

/-! Searching a tree whose in-order sequence is sorted. -/

section Descent

variable {α : Type}

def descend (goLeft : α → Bool) : BinaryTree α → Context α → Context α
  | .nil, context => context
  | .node label left right, context =>
      if goLeft label then descend goLeft left (⟨.left, label, right⟩ :: context)
      else descend goLeft right (⟨.right, label, left⟩ :: context)

theorem plug_descend (goLeft : α → Bool) (tree : BinaryTree α)
    (context : Context α) :
    (descend goLeft tree context).plug .nil = context.plug tree := by
  induction tree generalizing context with
  | nil => rfl
  | node label left right ihLeft ihRight =>
      rw [descend]
      split
      · exact ihLeft _
      · exact ihRight _

/-- A steering that is false up to some point of the sequence and true from
there on. -/
def Splits (goLeft : α → Bool) (nodes : List α) : Prop :=
  nodes.Pairwise fun first second => goLeft first = true → goLeft second = true

theorem descend_spec {goLeft : α → Bool} {tree : BinaryTree α}
    (context : Context α) (hsplits : Splits goLeft (inorder tree))
    (hbefore : ∀ label ∈ context.before, goLeft label = false)
    (hafter : ∀ label ∈ context.after, goLeft label = true) :
    (∀ label ∈ (descend goLeft tree context).before, goLeft label = false) ∧
      ∀ label ∈ (descend goLeft tree context).after, goLeft label = true := by
  induction tree generalizing context with
  | nil => exact ⟨hbefore, hafter⟩
  | node label left right ihLeft ihRight =>
      obtain ⟨hleft, hright, hcross⟩ := List.pairwise_append.mp hsplits
      obtain ⟨hroot, hright⟩ := List.pairwise_cons.mp hright
      rw [descend]
      split
      next hgo =>
        apply ihLeft _ hleft
        · simpa [Context.before, Frame.before] using hbefore
        · intro other hother
          simp only [Context.after, Frame.after, List.mem_append,
            List.mem_cons] at hother
          rcases hother with (rfl | hother) | hother
          · exact hgo
          · exact hroot other hother hgo
          · exact hafter other hother
      next hgo =>
        have hgo : goLeft label = false := by simpa using hgo
        apply ihRight _ hright
        · intro other hother
          simp only [Context.before, Frame.before, List.mem_append,
            List.mem_singleton] at hother
          rcases hother with hother | hother | rfl
          · exact hbefore other hother
          · by_contra htrue
            have := hcross other hother label (by simp) (by simpa using htrue)
            simp [hgo] at this
          · exact hgo
        · simpa [Context.after, Frame.after] using hafter

/-- The last node at which a search turned left. -/
def lowerBound (below : α → Bool) : BinaryTree α → Option α → Option α
  | .nil, found => found
  | .node label left right, found =>
      if below label then lowerBound below right found
      else lowerBound below left (some label)

/-- The lower bound is the first node of the sequence that is not below it. -/
theorem lowerBound_eq {below : α → Bool} {tree : BinaryTree α}
    (hsplits : Splits (fun label => !below label) (inorder tree))
    (found : Option α) :
    lowerBound below tree found =
      ((inorder tree).find? fun label => !below label).or found := by
  induction tree generalizing found with
  | nil => simp [lowerBound, inorder]
  | node label left right ihLeft ihRight =>
      obtain ⟨hleft, hright, hcross⟩ := List.pairwise_append.mp hsplits
      obtain ⟨hroot, hright⟩ := List.pairwise_cons.mp hright
      rw [lowerBound, inorder, List.find?_append, List.find?_cons]
      split
      next hbelow =>
        have hnone : (inorder left).find? (fun other => !below other) = none := by
          apply List.find?_eq_none.mpr
          intro other hother htrue
          have := hcross other hother label (by simp) htrue
          simp [hbelow] at this
        rw [ihRight hright, hnone, hbelow]
        rfl
      next hbelow =>
        rw [ihLeft hleft, show (!below label) = true by simpa using hbelow]
        simp

end Descent

section Sorted

variable {α κ : Type} [LinearOrder κ] {rank : α → κ}

def SortedBy (rank : α → κ) (nodes : List α) : Prop :=
  nodes.Pairwise fun first second => rank first < rank second

theorem SortedBy.nodup {nodes : List α} (h : SortedBy rank nodes) :
    nodes.Nodup := by
  apply List.Pairwise.imp _ h
  rintro first second hlt rfl
  exact lt_irrefl _ hlt

theorem SortedBy.insert {before after : List α} {label : α}
    (h : SortedBy rank (before ++ after))
    (hbefore : ∀ other ∈ before, ¬ rank label < rank other)
    (hafter : ∀ other ∈ after, rank label < rank other)
    (hfresh : ∀ other ∈ before, rank other ≠ rank label) :
    SortedBy rank (before ++ label :: after) := by
  obtain ⟨hleft, hright, hcross⟩ := List.pairwise_append.mp h
  apply List.pairwise_append.mpr
  refine ⟨hleft, List.pairwise_cons.mpr ⟨hafter, hright⟩, ?_⟩
  intro other hother next hnext
  rcases List.mem_cons.mp hnext with rfl | hnext
  · exact lt_of_le_of_ne (not_lt.mp (hbefore other hother)) (hfresh other hother)
  · exact hcross other hother next hnext

end Sorted

end MiniRedis.Data
