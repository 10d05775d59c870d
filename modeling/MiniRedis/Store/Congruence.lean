import MiniRedis.Store.Rehashing

namespace MiniRedis.Store

open MiniRedis.Data

/-! The hash map looks at the nodes that it stores, and at no others. -/

variable {α : Type} {hcode hcode' : α → UInt64} {hmap : HMap α} {htab : HTab α}
  {key key' : Probe α}

theorem hInsert_congr {node : α} (h : hcode' node = hcode node) :
    hInsert hcode' htab node = hInsert hcode htab node := by
  rw [hInsert, hInsert, h]

structure Probe.Alike (key key' : Probe α) (nodes : List α) : Prop where
  hcode : key'.hcode = key.hcode
  eq : ∀ node ∈ nodes, key'.eq node = key.eq node

theorem Probe.Alike.perm {nodes nodes' : List α} (h : key.Alike key' nodes)
    (hperm : nodes'.Perm nodes) : key.Alike key' nodes' :=
  ⟨h.hcode, fun node hnode => h.eq node (hperm.mem_iff.mp hnode)⟩

theorem hLookup_congr (hcodes : ∀ node ∈ htab.nodes, hcode' node = hcode node)
    (hkeys : key.Alike key' htab.nodes) :
    hLookup hcode' htab key' = hLookup hcode htab key := by
  unfold hLookup
  cases htable : htab.tab with
  | none => rfl
  | some tab =>
      dsimp only
      rw [hkeys.hcode]
      refine Option.bind_congr ?_
      intro chain hchain
      have hmem : ∀ node ∈ chain, node ∈ htab.nodes := by
        intro node hnode
        rw [HTab.nodes, HTab.chains, htable]
        exact List.mem_flatten.mpr ⟨chain, List.mem_of_getElem? hchain, hnode⟩
      have hbits : chain.map (fun cur => hcode' cur == key.hcode && key'.eq cur) =
          chain.map fun cur => hcode cur == key.hcode && key.eq cur := by
        refine List.map_congr_left ?_
        intro node hnode
        rw [hcodes node (hmem node hnode), hkeys.eq node (hmem node hnode)]
      have hfind := congrArg (List.findIdx? id) hbits
      rw [List.findIdx?_map, List.findIdx?_map, Function.id_comp,
        Function.id_comp] at hfind
      rw [hfind]

theorem hmMigrateStep_congr
    (hcodes : ∀ node ∈ hmap.nodes, hcode' node = hcode node) :
    hmMigrateStep hcode' hmap = hmMigrateStep hcode hmap := by
  unfold hmMigrateStep
  refine Option.bind_congr fun tab htab => Option.bind_congr fun chain hchain => ?_
  split
  · rfl
  · refine Option.bind_congr ?_
    rintro ⟨older, node⟩ hdetach
    have hnode : node ∈ hmap.nodes := by
      simp only [hDetach, htab, hchain, Option.bind_eq_bind, Option.bind_some,
        Option.bind_eq_some_iff] at hdetach
      obtain ⟨_, hhead, hdetach⟩ := hdetach
      cases hdetach
      rw [HMap.nodes, HTab.nodes, HTab.nodes, HTab.chains, HTab.chains, htab]
      exact List.mem_append_right _ (List.mem_flatten.mpr
        ⟨chain, List.mem_of_getElem? hchain, List.mem_of_getElem? hhead⟩)
    simp only [hInsert_congr (hcodes node hnode)]

theorem hmMigrate_congr (fuel nwork : Nat) (hinv : hmap.Inv hcode)
    (hcodes : ∀ node ∈ hmap.nodes, hcode' node = hcode node) :
    hmMigrate hcode' fuel nwork hmap = hmMigrate hcode fuel nwork hmap := by
  induction fuel generalizing nwork hmap with
  | zero => rfl
  | succ fuel ih =>
      rw [hmMigrate, hmMigrate]
      split
      next hgo =>
        obtain ⟨next, work, hstep, -, hmigrate⟩ := hmMigrateStep_spec hinv hgo.2
        rw [hmMigrateStep_congr hcodes, hstep, Option.bind_eq_bind,
          Option.bind_some]
        exact ih (nwork + work) hmigrate.inv fun node hnode =>
          hcodes node (hmigrate.perm.mem_iff.mp hnode)
      next => rfl

theorem hmHelpRehashing_congr (hinv : hmap.Inv hcode)
    (hcodes : ∀ node ∈ hmap.nodes, hcode' node = hcode node) :
    hmHelpRehashing hcode' hmap = hmHelpRehashing hcode hmap := by
  rw [hmHelpRehashing, hmHelpRehashing, hmMigrate_congr _ _ hinv hcodes]

structure HMap.Alike (hcode hcode' : α → UInt64) (key key' : Probe α)
    (hmap : HMap α) : Prop where
  newer : hLookup hcode' hmap.newer key' = hLookup hcode hmap.newer key
  older : hLookup hcode' hmap.older key' = hLookup hcode hmap.older key

theorem HMap.alike (hcodes : ∀ node ∈ hmap.nodes, hcode' node = hcode node)
    (hkeys : key.Alike key' hmap.nodes) : hmap.Alike hcode hcode' key key' where
  newer := hLookup_congr
    (fun node hnode => hcodes node (List.mem_append_left _ hnode))
    ⟨hkeys.hcode, fun node hnode => hkeys.eq node (List.mem_append_left _ hnode)⟩
  older := hLookup_congr
    (fun node hnode => hcodes node (List.mem_append_right _ hnode))
    ⟨hkeys.hcode, fun node hnode => hkeys.eq node (List.mem_append_right _ hnode)⟩

theorem hmLookup_congr (hinv : hmap.Inv hcode)
    (hcodes : ∀ node ∈ hmap.nodes, hcode' node = hcode node)
    (hkeys : key.Alike key' hmap.nodes) :
    hmLookup hcode' hmap key' = hmLookup hcode hmap key := by
  obtain ⟨next, hhelp, -, hperm, -⟩ := hmHelpRehashing_spec hinv
  have halike := HMap.alike (fun node hnode => hcodes node (hperm.mem_iff.mp hnode))
    (hkeys.perm hperm)
  rw [hmLookup, hmLookup, hmHelpRehashing_congr hinv hcodes, hhelp]
  simp only [Option.bind_eq_bind, Option.bind_some, halike.newer, halike.older]

theorem hmDelete_congr (hinv : hmap.Inv hcode)
    (hcodes : ∀ node ∈ hmap.nodes, hcode' node = hcode node)
    (hkeys : key.Alike key' hmap.nodes) :
    hmDelete hcode' hmap key' = hmDelete hcode hmap key := by
  obtain ⟨next, hhelp, -, hperm, -⟩ := hmHelpRehashing_spec hinv
  have halike := HMap.alike (fun node hnode => hcodes node (hperm.mem_iff.mp hnode))
    (hkeys.perm hperm)
  rw [hmDelete, hmDelete, hmHelpRehashing_congr hinv hcodes, hhelp]
  simp only [Option.bind_eq_bind, Option.bind_some, halike.newer, halike.older]

theorem hmInsert_congr {node : α} (hinv : hmap.Inv hcode)
    (hfresh : node ∉ hmap.nodes) (hself : hcode' node = hcode node)
    (hcodes : ∀ node ∈ hmap.nodes, hcode' node = hcode node) :
    hmInsert hcode' hmap node = hmInsert hcode hmap node := by
  obtain ⟨first, newer, hfirst, hinsert, hlinked, hperm, -⟩ :=
    hmLink_spec hinv hfresh
  obtain ⟨grown, hgrow, hgrown, hkept⟩ := hmGrow_spec hlinked
  have hall : ∀ other ∈ grown.nodes, hcode' other = hcode other := by
    intro other hother
    rcases List.mem_cons.mp ((hkept.trans hperm).mem_iff.mp hother) with rfl | hold
    · exact hself
    · exact hcodes other hold
  simp only [hmInsert, hfirst, hInsert_congr hself, hinsert, hgrow,
    Option.bind_eq_bind, Option.bind_some, hmHelpRehashing_congr hgrown hall]

end MiniRedis.Store
