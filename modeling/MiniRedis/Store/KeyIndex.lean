import MiniRedis.Store.Rehashing

namespace MiniRedis.Store

/-! A hash map whose nodes carry distinct keys and cache the keys' hashes. -/

variable {α κ : Type} {hcode hcode' : α → UInt64} {hmap : HMap α}
  {key key' : α → κ} {hash : κ → UInt64} {probe : Probe α} {sought : κ}

theorem HTab.WF.congr {htab : HTab α} (h : htab.WF hcode)
    (hagree : ∀ node ∈ htab.nodes, hcode' node = hcode node) :
    htab.WF hcode' := by
  refine ⟨h.unallocated, h.capacity, h.power, ?_, h.counted⟩
  intro i chain hchain node hnode
  rw [hagree node]
  · exact h.placed i chain hchain node hnode
  · exact Data.mem_flatten_iff_getElem?.mpr ⟨i, chain, hchain, hnode⟩

theorem HMap.Inv.congr (h : hmap.Inv hcode)
    (hagree : ∀ node ∈ hmap.nodes, hcode' node = hcode node) :
    hmap.Inv hcode' := by
  refine ⟨h.newer.congr ?_, h.older.congr ?_, h.nodup, h.target, h.swept⟩
  · intro node hnode
    exact hagree node (List.mem_append_left _ hnode)
  · intro node hnode
    exact hagree node (List.mem_append_right _ hnode)

structure HMap.Indexed (hcode : α → UInt64) (key : α → κ) (hash : κ → UInt64)
    (hmap : HMap α) : Prop where
  inv : hmap.Inv hcode
  hashed : ∀ node ∈ hmap.nodes, hcode node = hash (key node)
  distinct : ∀ first ∈ hmap.nodes, ∀ second ∈ hmap.nodes,
    key first = key second → first = second

structure Probe.Seeks (probe : Probe α) (nodes : List α) (key : α → κ)
    (hash : κ → UInt64) (sought : κ) : Prop where
  hcode : probe.hcode = hash sought
  eq : ∀ node ∈ nodes, probe.eq node = true ↔ key node = sought

namespace HMap.Indexed

theorem empty : HMap.Indexed hcode key hash ({} : HMap α) where
  inv := HMap.Inv.empty
  hashed := by simp [HMap.nodes]
  distinct := by simp [HMap.nodes]

theorem congr (h : hmap.Indexed hcode key hash)
    (hcodes : ∀ node ∈ hmap.nodes, hcode' node = hcode node)
    (hkeys : ∀ node ∈ hmap.nodes, key' node = key node) :
    hmap.Indexed hcode' key' hash := by
  refine ⟨h.inv.congr hcodes, ?_, ?_⟩
  · intro node hnode
    rw [hcodes node hnode, hkeys node hnode, h.hashed node hnode]
  · intro first hfirst second hsecond heq
    rw [hkeys first hfirst, hkeys second hsecond] at heq
    exact h.distinct first hfirst second hsecond heq

theorem of_perm {hmap' : HMap α} (h : hmap.Indexed hcode key hash)
    (hinv : hmap'.Inv hcode) (hsub : ∀ node ∈ hmap'.nodes, node ∈ hmap.nodes) :
    hmap'.Indexed hcode key hash := by
  refine ⟨hinv, ?_, ?_⟩
  · intro node hnode
    exact h.hashed node (hsub node hnode)
  · intro first hfirst second hsecond
    exact h.distinct first (hsub first hfirst) second (hsub second hsecond)

theorem found_iff (h : hmap.Indexed hcode key hash)
    (hprobe : probe.Seeks hmap.nodes key hash sought) {found : Option α}
    (hfound : Found hcode probe hmap.nodes found) (node : α) :
    found = some node ↔ node ∈ hmap.nodes ∧ key node = sought := by
  constructor
  · rintro rfl
    exact ⟨hfound.1, (hprobe.eq node hfound.1).mp hfound.2.2⟩
  · rintro ⟨hmem, hkey⟩
    cases found with
    | none =>
        refine absurd ⟨?_, (hprobe.eq node hmem).mpr hkey⟩ (hfound node hmem)
        rw [hprobe.hcode, h.hashed node hmem, hkey]
    | some other =>
        have hother := (hprobe.eq other hfound.1).mp hfound.2.2
        rw [h.distinct other hfound.1 node hmem (hother.trans hkey.symm)]

theorem lookup (h : hmap.Indexed hcode key hash)
    (hprobe : probe.Seeks hmap.nodes key hash sought) :
    ∃ hmap' found, hmLookup hcode hmap probe = some (hmap', found) ∧
      hmap'.Indexed hcode key hash ∧ hmap'.nodes.Perm hmap.nodes ∧
      ∀ node, found = some node ↔ node ∈ hmap.nodes ∧ key node = sought := by
  obtain ⟨hmap', found, hlookup, hinv, hperm, hfound⟩ :=
    hmLookup_spec probe h.inv
  refine ⟨hmap', found, hlookup, h.of_perm hinv ?_, hperm,
    h.found_iff hprobe hfound⟩
  intro node hnode
  exact hperm.mem_iff.mp hnode

theorem insert {node : α} (h : hmap.Indexed hcode key hash)
    (hfresh : node ∉ hmap.nodes) (hhash : hcode node = hash (key node))
    (hkey : ∀ other ∈ hmap.nodes, key other ≠ key node) :
    ∃ hmap', hmInsert hcode hmap node = some hmap' ∧
      hmap'.Indexed hcode key hash ∧
      hmap'.nodes.Perm (node :: hmap.nodes) := by
  obtain ⟨hmap', hinsert, hinv, hperm⟩ := hmInsert_spec h.inv hfresh
  have hmem : ∀ other, other ∈ hmap'.nodes ↔
      other = node ∨ other ∈ hmap.nodes := by
    intro other
    rw [hperm.mem_iff, List.mem_cons]
  refine ⟨hmap', hinsert, ⟨hinv, ?_, ?_⟩, hperm⟩
  · intro other hother
    rcases (hmem other).mp hother with rfl | hother
    · exact hhash
    · exact h.hashed other hother
  · intro first hfirst second hsecond heq
    rcases (hmem first).mp hfirst with rfl | hfirst
    · rcases (hmem second).mp hsecond with rfl | hsecond
      · rfl
      · exact absurd heq.symm (hkey second hsecond)
    · rcases (hmem second).mp hsecond with rfl | hsecond
      · exact absurd heq (hkey first hfirst)
      · exact h.distinct first hfirst second hsecond heq

theorem delete {node : α} (h : hmap.Indexed hcode key hash)
    (hnode : node ∈ hmap.nodes)
    (hprobe : probe.Seeks hmap.nodes key hash (key node)) :
    ∃ hmap', hmDelete hcode hmap probe = some (hmap', some node) ∧
      hmap'.Indexed hcode key hash ∧
      hmap.nodes.Perm (node :: hmap'.nodes) := by
  obtain ⟨hmap', found, hdelete, hinv, hfound, hremoved⟩ :=
    hmDelete_spec probe h.inv
  have hsome : found = some node :=
    (h.found_iff hprobe hfound node).mpr ⟨hnode, rfl⟩
  cases hsome
  have hperm : hmap.nodes.Perm (node :: hmap'.nodes) := hremoved
  refine ⟨hmap', hdelete, h.of_perm hinv ?_, hperm⟩
  intro other hother
  exact hperm.mem_iff.mpr (List.mem_cons_of_mem _ hother)

end HMap.Indexed

end MiniRedis.Store
