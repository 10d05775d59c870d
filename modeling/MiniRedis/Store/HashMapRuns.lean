import MiniRedis.Store.Rehashing
import Mathlib.Data.Multiset.Range

namespace MiniRedis.Store

open MiniRedis.Data

variable {α : Type} {hcode : α → UInt64} {hmap : HMap α}

/-! Iteration with a callback that never stops. -/

theorem chainForeach_of_true {f : α → σ → Bool × σ}
    (hf : ∀ node arg, (f node arg).1 = true) (chain : List α) (arg : σ) :
    chainForeach f chain arg =
      (true, chain.foldl (fun arg node => (f node arg).2) arg) := by
  induction chain generalizing arg with
  | nil => rfl
  | cons node next ih =>
      have hnode : f node arg = (true, (f node arg).2) := by
        rw [← hf node arg]
      rw [chainForeach, hnode]
      exact ih (f node arg).2

theorem slotsForeach_of_true {f : α → σ → Bool × σ}
    (hf : ∀ node arg, (f node arg).1 = true) (after : List (List α)) :
    ∀ (before : List (List α)) (arg : σ),
      slotsForeach f (before ++ after)
          (List.range' before.length after.length) arg =
        some (true,
          after.flatten.foldl (fun arg node => (f node arg).2) arg) := by
  induction after with
  | nil => intro before arg; rfl
  | cons chain after ih =>
      intro before arg
      have hslot : (before ++ chain :: after)[before.length]? =
          some chain := by simp
      have hnext := ih (before ++ [chain])
        (chain.foldl (fun arg node => (f node arg).2) arg)
      simp only [List.append_assoc, List.singleton_append, List.length_append,
        List.length_singleton] at hnext
      simp only [List.length_cons, List.range'_succ, slotsForeach, hslot,
        Option.bind_eq_bind, Option.bind_some, chainForeach_of_true hf,
        List.flatten_cons, List.foldl_append]
      exact hnext

theorem hForeach_of_true {f : α → σ → Bool × σ}
    (hf : ∀ node arg, (f node arg).1 = true) {htab : HTab α}
    (hwf : htab.WF hcode) (arg : σ) :
    hForeach f htab arg =
      some (true, htab.nodes.foldl (fun arg node => (f node arg).2) arg) := by
  cases htabEq : htab.tab with
  | none => simp [hForeach, HTab.nodes, HTab.chains, htabEq]
  | some tab =>
      have hslots := slotsForeach_of_true hf tab [] arg
      simpa [hForeach, HTab.nodes, HTab.chains, htabEq,
        ← hwf.capacity tab htabEq, List.range_eq_range'] using hslots

/-- A walk that is never stopped visits `newer` and then `older`, each slot in
order. -/
theorem hmForeach_of_true {f : α → σ → Bool × σ}
    (hf : ∀ node arg, (f node arg).1 = true) (hinv : hmap.Inv hcode)
    (arg : σ) :
    hmForeach f hmap arg =
      some (hmap.nodes.foldl (fun arg node => (f node arg).2) arg) := by
  simp [hmForeach, hForeach_of_true hf hinv.newer,
    hForeach_of_true hf hinv.older, HMap.nodes, List.foldl_append]

def HTab.Holds (hcode : α → UInt64) (htab : HTab α) (node : α) : Prop :=
  ∃ chain, htab.chains[slotOf (hcode node) htab.mask]? = some chain ∧
    node ∈ chain

theorem HTab.WF.holds_of_mem {htab : HTab α} (hwf : htab.WF hcode) {node : α}
    (hmem : node ∈ htab.nodes) : htab.Holds hcode node := by
  obtain ⟨i, chain, hchain, hnode⟩ := mem_flatten_iff_getElem?.mp hmem
  refine ⟨chain, ?_, hnode⟩
  rw [hwf.placed i chain hchain node hnode]
  exact hchain

theorem HMap.Inv.holds_in_one (hinv : hmap.Inv hcode) {node : α}
    (hmem : node ∈ hmap.nodes) :
    (hmap.newer.Holds hcode node ∧ node ∉ hmap.older.nodes) ∨
      (hmap.older.Holds hcode node ∧ node ∉ hmap.newer.nodes) := by
  have hdisjoint := List.disjoint_of_nodup_append hinv.nodup
  rcases List.mem_append.mp hmem with hnewer | holder
  · exact .inl ⟨hinv.newer.holds_of_mem hnewer, fun h => hdisjoint hnewer h⟩
  · exact .inr ⟨hinv.older.holds_of_mem holder, fun h => hdisjoint h holder⟩

/-- A probe whose comparison only accepts nodes with its own hash. -/
def Probe.Lawful (hcode : α → UInt64) (key : Probe α) : Prop :=
  ∀ node, key.eq node = true → hcode node = key.hcode

def Answers (key : Probe α) (stored : Multiset α) (found : Option α) : Prop :=
  (∀ node, found = some node → node ∈ stored ∧ key.eq node = true) ∧
    (found.isSome ↔ ∃ node ∈ stored, key.eq node = true)

theorem answers_of_found {key : Probe α} (hlawful : key.Lawful hcode)
    {nodes : List α} {found : Option α} (hfound : Found hcode key nodes found) :
    Answers key (nodes : Multiset α) found := by
  cases found with
  | none =>
      refine ⟨by simp, by simp, ?_⟩
      rintro ⟨node, hmem, heq⟩
      exact absurd ⟨hlawful node heq, heq⟩ (hfound node hmem)
  | some node =>
      refine ⟨?_, fun _ => ⟨node, hfound.1, hfound.2.2⟩, by simp⟩
      intro other hother
      cases hother
      exact ⟨hfound.1, hfound.2.2⟩

theorem Answers.eq_some {key : Probe α} {stored : Multiset α}
    {found : Option α} {node : α} (h : Answers key stored found)
    (hnode : node ∈ stored) (heq : ∀ other, key.eq other = true ↔ other = node) :
    found = some node := by
  obtain ⟨other, rfl⟩ := Option.isSome_iff_exists.mp
    (h.2.mpr ⟨node, hnode, (heq node).mpr rfl⟩)
  rw [(heq other).mp (h.1 other rfl).2]

/-! Whole runs, beside the multiset of nodes inserted and not yet deleted. -/

variable [DecidableEq α]

inductive HMapStep (hcode : α → UInt64) :
    HMap α × Multiset α → HMap α × Multiset α → Prop
  | insert {hmap hmap' : HMap α} {stored : Multiset α} (node : α)
      (fresh : node ∉ stored)
      (result : hmInsert hcode hmap node = some hmap') :
      HMapStep hcode (hmap, stored) (hmap', node ::ₘ stored)
  | lookup {hmap hmap' : HMap α} {stored : Multiset α} (key : Probe α)
      {found : Option α}
      (result : hmLookup hcode hmap key = some (hmap', found)) :
      HMapStep hcode (hmap, stored) (hmap', stored)
  | delete {hmap hmap' : HMap α} {stored : Multiset α} (key : Probe α)
      {found : Option α}
      (result : hmDelete hcode hmap key = some (hmap', found)) :
      HMapStep hcode (hmap, stored) (hmap', found.elim stored stored.erase)

def HMapReachable (hcode : α → UInt64) (hmap : HMap α)
    (stored : Multiset α) : Prop :=
  Relation.ReflTransGen (HMapStep hcode) ({}, 0) (hmap, stored)

def Tracks (hcode : α → UInt64) (state : HMap α × Multiset α) : Prop :=
  state.1.Inv hcode ∧ (state.1.nodes : Multiset α) = state.2

theorem erase_of_removed {before after : List α} {found : Option α}
    (hremoved : Removed before after found) :
    (after : Multiset α) =
      found.elim (before : Multiset α) (before : Multiset α).erase := by
  cases found with
  | none => exact Multiset.coe_eq_coe.mpr hremoved
  | some node =>
      have hcons : (before : Multiset α) = node ::ₘ (after : Multiset α) :=
        Multiset.coe_eq_coe.mpr hremoved
      simp [hcons]

theorem Tracks.step {state state' : HMap α × Multiset α}
    (htracks : Tracks hcode state) (hstep : HMapStep hcode state state') :
    Tracks hcode state' := by
  cases hstep with
  | insert node fresh result =>
      obtain ⟨hinv, hstored⟩ := htracks
      dsimp only at hinv hstored
      subst hstored
      obtain ⟨_, hresult, hinv', hperm⟩ := hmInsert_spec hinv fresh
      rw [result] at hresult
      cases hresult
      exact ⟨hinv', Multiset.coe_eq_coe.mpr hperm⟩
  | lookup key result =>
      obtain ⟨hinv, hstored⟩ := htracks
      dsimp only at hinv hstored
      subst hstored
      obtain ⟨_, _, hresult, hinv', hperm, _⟩ := hmLookup_spec key hinv
      rw [result] at hresult
      cases hresult
      exact ⟨hinv', Multiset.coe_eq_coe.mpr hperm⟩
  | delete key result =>
      obtain ⟨hinv, hstored⟩ := htracks
      dsimp only at hinv hstored
      subst hstored
      obtain ⟨_, _, hresult, hinv', _, hremoved⟩ := hmDelete_spec key hinv
      rw [result] at hresult
      cases hresult
      exact ⟨hinv', erase_of_removed hremoved⟩

theorem HMapReachable.tracks {stored : Multiset α}
    (hreach : HMapReachable hcode hmap stored) :
    Tracks hcode (hmap, stored) := by
  have hall : ∀ state, Relation.ReflTransGen (HMapStep hcode) ({}, 0) state →
      Tracks hcode state := by
    intro state hrun
    induction hrun with
    | refl => exact ⟨HMap.Inv.empty, rfl⟩
    | tail _ hstep ih => exact ih.step hstep
  exact hall (hmap, stored) hreach

theorem foldlM_range_succ {σ : Type} {f : σ → Nat → Option σ} {first last : σ}
    {n : Nat} (h : (List.range (n + 1)).foldlM f first = some last) :
    ∃ before, (List.range n).foldlM f first = some before ∧
      f before n = some last := by
  rw [List.range_succ, List.foldlM_append] at h
  obtain ⟨before, hbefore, hlast⟩ := Option.bind_eq_some_iff.mp h
  refine ⟨before, hbefore, ?_⟩
  simpa using hlast

theorem reachable_insertions {hcode : Nat → UInt64} {n : Nat} {hmap : HMap Nat}
    (h : (List.range n).foldlM (hmInsert hcode) {} = some hmap) :
    HMapReachable hcode hmap (Multiset.range n) := by
  induction n generalizing hmap with
  | zero =>
      cases h
      exact .refl
  | succ n ih =>
      obtain ⟨before, hbefore, hinsert⟩ := foldlM_range_succ h
      rw [Multiset.range_succ]
      exact (ih hbefore).tail (.insert n Multiset.notMem_range_self hinsert)

/-- The 256th insertion starts a migration of 32 slots that it leaves half
done. -/
theorem exists_migrating : ∃ hmap : HMap Nat,
    HMapReachable (fun n => UInt64.ofNat n) hmap (Multiset.range 256) ∧
      hmap.newer.size = 128 ∧ hmap.older.size = 128 ∧
      hmap.older.tab.isSome ∧ hmap.migratePos = 15 := by
  have heval : ((List.range 256).foldlM (hmInsert fun n => UInt64.ofNat n)
      {}).map (fun hmap => (hmap.newer.size, hmap.older.size,
        hmap.older.tab.isSome, hmap.migratePos)) = some (128, 128, true, 15) := by
    decide +kernel
  obtain ⟨hmap, hruns, heval⟩ := Option.map_eq_some_iff.mp heval
  simp only [Prod.mk.injEq] at heval
  exact ⟨hmap, reachable_insertions hruns, heval⟩

/-- Whatever point a migration has reached, the two tables together hold
exactly the nodes inserted and not deleted, and every operation answers from
both of them. -/
theorem hmap_refines_multiset {stored : Multiset α}
    (hreach : HMapReachable hcode hmap stored) :
    (hmap.nodes : Multiset α) = stored ∧ stored.Nodup ∧
    (∀ node ∈ stored,
      (hmap.newer.Holds hcode node ∧ node ∉ hmap.older.nodes) ∨
      (hmap.older.Holds hcode node ∧ node ∉ hmap.newer.nodes)) ∧
    hmap.newer.size = hmap.newer.nodes.length ∧
    hmap.older.size = hmap.older.nodes.length ∧
    hmSize hmap = stored.card ∧
    (∀ node, node ∉ stored → ∃ hmap',
      hmInsert hcode hmap node = some hmap' ∧
      (hmap'.nodes : Multiset α) = node ::ₘ stored) ∧
    (∀ key : Probe α, key.Lawful hcode → ∃ hmap' found,
      hmLookup hcode hmap key = some (hmap', found) ∧
      Answers key stored found ∧ (hmap'.nodes : Multiset α) = stored) ∧
    (∀ key : Probe α, key.Lawful hcode → ∃ hmap' found,
      hmDelete hcode hmap key = some (hmap', found) ∧
      Answers key stored found ∧
      (hmap'.nodes : Multiset α) = found.elim stored stored.erase) ∧
    (∀ {σ : Type} (f : α → σ → Bool × σ) (arg : σ),
      (∀ node arg, (f node arg).1 = true) →
      ∃ visited : List α, (visited : Multiset α) = stored ∧
        hmForeach f hmap arg =
          some (visited.foldl (fun arg node => (f node arg).2) arg)) := by
  obtain ⟨hinv, hstored⟩ := hreach.tracks
  dsimp only at hinv hstored
  subst hstored
  refine ⟨rfl, hinv.nodup, fun node hnode => hinv.holds_in_one hnode,
    hinv.newer.counted, hinv.older.counted, hinv.hmSize_eq, ?_, ?_, ?_, ?_⟩
  · intro node hfresh
    obtain ⟨hmap', hresult, _, hperm⟩ := hmInsert_spec hinv hfresh
    exact ⟨hmap', hresult, Multiset.coe_eq_coe.mpr hperm⟩
  · intro key hlawful
    obtain ⟨hmap', found, hresult, _, hperm, hfound⟩ := hmLookup_spec key hinv
    exact ⟨hmap', found, hresult, answers_of_found hlawful hfound,
      Multiset.coe_eq_coe.mpr hperm⟩
  · intro key hlawful
    obtain ⟨hmap', found, hresult, _, hfound, hremoved⟩ :=
      hmDelete_spec key hinv
    exact ⟨hmap', found, hresult, answers_of_found hlawful hfound,
      erase_of_removed hremoved⟩
  · intro σ f arg hf
    exact ⟨hmap.nodes, rfl, hmForeach_of_true hf hinv arg⟩

theorem hmap_refines_multiset_migrating : ∃ hmap : HMap Nat,
    hmap.newer.nodes.length = 128 ∧ hmap.older.nodes.length = 128 ∧
    (hmap.nodes : Multiset Nat) = Multiset.range 256 ∧
    (∃ hmap', hmLookup (fun n => UInt64.ofNat n) hmap ⟨200, (· == 200)⟩ =
      some (hmap', some 200)) ∧
    ∃ hmap', hmDelete (fun n => UInt64.ofNat n) hmap ⟨200, (· == 200)⟩ =
      some (hmap', some 200) ∧
      (hmap'.nodes : Multiset Nat) = (Multiset.range 256).erase 200 := by
  obtain ⟨hmap, hreach, hnewer, holder, -⟩ := exists_migrating
  obtain ⟨hnodes, -, -, hnewerSize, holderSize, -, -, hlookup, hdelete, -⟩ :=
    hmap_refines_multiset hreach
  have hlawful : Probe.Lawful (fun n => UInt64.ofNat n)
      (⟨200, (· == 200)⟩ : Probe Nat) := by
    intro node heq
    rw [beq_iff_eq.mp heq]
    rfl
  have hstored : 200 ∈ Multiset.range 256 := Multiset.mem_range.mpr (by decide)
  obtain ⟨looked, found, hlookup, hanswers, -⟩ := hlookup _ hlawful
  obtain rfl := hanswers.eq_some hstored (by simp)
  obtain ⟨deleted, found, hdelete, hanswers, hleft⟩ := hdelete _ hlawful
  obtain rfl := hanswers.eq_some hstored (by simp)
  exact ⟨hmap, hnewerSize.symm.trans hnewer, holderSize.symm.trans holder, hnodes,
    ⟨looked, hlookup⟩, deleted, hdelete, hleft⟩

end MiniRedis.Store
