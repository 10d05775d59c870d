import MiniRedis.Data.Linked
import MiniRedis.Store.Chains
import MiniRedis.Store.HashMapRuns

namespace MiniRedis.Store.Chained

open MiniRedis.Data

variable {α σ : Type} {hcode : α → UInt64} {next next' : Next α} {htab : HTab α}
  {plain plain' : Store.HTab α} {key : Probe α} {node : α}

/-! The chains of a table in memory. -/

structure HTab.Shows (next : Next α) (htab : HTab α) (plain : Store.HTab α) :
    Prop where
  mask : htab.mask = plain.mask
  size : htab.size = plain.size
  isSome : htab.tab.isSome = plain.tab.isSome
  linked : ∀ heads chains, htab.tab = some heads → plain.tab = some chains →
    LinkedHeads next heads chains

def Apart (nodes : List α) (next next' : Next α) : Prop :=
  ∀ p, p ∉ nodes → next' p = next p

theorem Apart.trans {nodes : List α} {next'' : Next α}
    (h : Apart nodes next next') (h' : Apart nodes next' next'') :
    Apart nodes next next'' := fun p hp => (h' p hp).trans (h p hp)

theorem Apart.mono {nodes more : List α} (h : Apart nodes next next')
    (hmore : ∀ p ∈ nodes, p ∈ more) : Apart more next next' :=
  fun p hp => h p fun hin => hp (hmore p hin)

namespace HTab.Shows

theorem empty : HTab.Shows next ({} : HTab α) {} :=
  ⟨rfl, rfl, rfl, by rintro _ _ ⟨⟩⟩

theorem congr (h : htab.Shows next plain)
    (hsame : ∀ p ∈ plain.nodes, next' p = next p) : htab.Shows next' plain := by
  refine ⟨h.mask, h.size, h.isSome, ?_⟩
  intro heads chains hheads hchains
  refine (h.linked heads chains hheads hchains).congr ?_
  simpa [Store.HTab.nodes, Store.HTab.chains, hchains] using hsame

theorem exists_heads (h : htab.Shows next plain) {chains : List (List α)}
    (hchains : plain.tab = some chains) :
    ∃ heads, htab.tab = some heads ∧ LinkedHeads next heads chains := by
  have hsome := h.isSome
  rw [hchains, Option.isSome_some] at hsome
  obtain ⟨heads, hheads⟩ := Option.isSome_iff_exists.mp hsome
  exact ⟨heads, hheads, h.linked heads chains hheads hchains⟩

theorem isNone (h : htab.Shows next plain) :
    htab.tab.isNone = plain.tab.isNone := by
  rw [← Option.not_isSome, h.isSome, Option.not_isSome]

theorem length_chain (h : htab.Shows next plain) (hwf : plain.WF hcode)
    {chains : List (List α)} (hchains : plain.tab = some chains) {chain : List α}
    (hchain : chain ∈ chains) : chain.length < htab.size + 1 := by
  rw [h.size, hwf.counted, Store.HTab.nodes, Store.HTab.chains, hchains]
  exact Nat.lt_succ_of_le (List.sublist_flatten_of_mem hchain).length_le

end HTab.Shows

theorem hInit_shows (next : Next α) {n : Nat}
    (hresult : Store.hInit n = some plain) :
    ∃ htab, hInit n = some htab ∧ htab.Shows next plain := by
  unfold Store.hInit at hresult
  split at hresult
  next hpower =>
    cases hresult
    refine ⟨_, if_pos hpower, rfl, rfl, rfl, ?_⟩
    rintro heads chains ⟨⟩ ⟨⟩
    exact .replicate n
  next => cases hresult

/-! Walking a chain. -/

def ownerAfter (slot : Nat) (before : List α) : Owner α :=
  match before.getLast? with
  | none => .slot slot
  | some p => .next p

theorem ownerAfter_nil (slot : Nat) : ownerAfter slot ([] : List α) = .slot slot := rfl

theorem ownerAfter_concat (slot : Nat) (init : List α) (p : α) :
    ownerAfter slot (init ++ [p]) = .next p := by
  rw [ownerAfter, List.getLast?_concat]

theorem load_ownerAfter {heads : List (Option α)} {chains : List (List α)}
    {slot : Nat} {before rest : List α} (hheads : htab.tab = some heads)
    (h : LinkedHeads next heads chains)
    (hchain : chains[slot]? = some (before ++ rest)) :
    htab.load next (ownerAfter slot before) = some rest.head? := by
  obtain ⟨head, hhead, hlinked⟩ := h.linked slot _ hchain
  rcases List.eq_nil_or_concat before with rfl | ⟨init, p, rfl⟩
  · have hfirst := hlinked.head_eq
    rw [List.nil_append] at hfirst
    rw [← hfirst, ownerAfter_nil]
    simp only [HTab.load, hheads, Option.bind_eq_bind, Option.bind_some, hhead]
  · rw [List.concat_append] at hlinked
    rw [List.concat_eq_append, ownerAfter_concat]
    exact congrArg some hlinked.rest.head_eq

theorem chainWalk_eq {heads : List (Option α)} {chains : List (List α)}
    {slot : Nat} (hheads : htab.tab = some heads)
    (h : LinkedHeads next heads chains) (rest : List α) :
    ∀ (before : List α) (fuel : Nat), chains[slot]? = some (before ++ rest) →
      rest.length < fuel →
        chainWalk hcode next htab key fuel (ownerAfter slot before) =
          some ((rest.findIdx? fun cur => hcode cur == key.hcode && key.eq cur).map
            fun depth => ownerAfter slot (before ++ rest.take depth)) := by
  induction rest with
  | nil =>
      intro before fuel hchain hfuel
      obtain ⟨fuel, rfl⟩ := Nat.exists_eq_succ_of_ne_zero (Nat.ne_of_gt hfuel)
      simp [chainWalk, load_ownerAfter hheads h hchain]
  | cons cur rest ih =>
      intro before fuel hchain hfuel
      obtain ⟨fuel, rfl⟩ :=
        Nat.exists_eq_succ_of_ne_zero (Nat.ne_of_gt (Nat.zero_lt_of_lt hfuel))
      simp only [chainWalk, load_ownerAfter hheads h hchain, List.head?_cons,
        Option.bind_eq_bind, Option.bind_some, List.findIdx?_cons]
      split
      next => simp
      next =>
        have hrest := ih (before ++ [cur]) fuel
          (by rw [List.append_assoc]; exact hchain)
          (Nat.lt_of_succ_lt_succ hfuel)
        rw [ownerAfter_concat] at hrest
        rw [hrest, Option.map_map]
        congr 2
        funext depth
        simp

structure Points (plain : Store.HTab α) (link : Link) (owner : Owner α) : Prop where
  exists_chain : ∃ chains before node after, plain.tab = some chains ∧
    chains[link.slot]? = some (before ++ node :: after) ∧
      before.length = link.depth ∧ owner = ownerAfter link.slot before

theorem hLookup_shows (h : htab.Shows next plain) (hwf : plain.WF hcode)
    {found : Option Link} (hresult : Store.hLookup hcode plain key = some found) :
    ∃ owner, hLookup hcode next htab key = some owner ∧
      Option.Rel (Points plain) found owner := by
  unfold Store.hLookup at hresult
  unfold hLookup
  cases hplain : plain.tab with
  | none =>
      rw [hplain] at hresult
      cases hresult
      refine ⟨none, if_pos ?_, .none⟩
      rw [h.isNone, hplain]
      rfl
  | some chains =>
      rw [hplain] at hresult
      obtain ⟨heads, hheads, hlinked⟩ := h.exists_heads hplain
      obtain ⟨chain, hchain, hresult⟩ := Option.bind_eq_some_iff.mp hresult
      cases hresult
      have hlength := h.length_chain hwf hplain (List.mem_of_getElem? hchain)
      have hwalk : chainWalk hcode next htab key (htab.size + 1) _ = _ :=
        chainWalk_eq hheads hlinked chain [] _ hchain hlength
      rw [if_neg (by simp [hheads]), h.mask]
      refine ⟨_, hwalk, ?_⟩
      cases hfind : chain.findIdx? fun cur =>
          hcode cur == key.hcode && key.eq cur with
      | none => exact .none
      | some depth =>
          refine .some ⟨chains, chain.take depth, ?_⟩
          have hlt := (List.findIdx?_eq_some_iff_getElem.mp hfind).1
          refine ⟨chain[depth], chain.drop (depth + 1), hplain, ?_, ?_, rfl⟩
          · rw [hchain, List.getElem_cons_drop, List.take_append_drop]
          · exact List.length_take_of_le (Nat.le_of_lt hlt)

theorem Points.load {link : Link} {owner : Owner α} (h : htab.Shows next plain)
    (hpoints : Points plain link owner) (hderef : plain.deref link = some node) :
    htab.load next owner = some (some node) := by
  obtain ⟨chains, before, first, after, hplain, hchain, hdepth, rfl⟩ :=
    hpoints.exists_chain
  obtain ⟨heads, hheads, hlinked⟩ := h.exists_heads hplain
  obtain ⟨_, _, hother, hchain', hnode⟩ := Store.HTab.deref_eq_some.mp hderef
  rw [hplain] at hother
  cases hother
  rw [hchain] at hchain'
  cases hchain'
  rw [← hdepth, List.getElem?_append_right (Nat.le_refl _), Nat.sub_self] at hnode
  cases hnode
  exact load_ownerAfter hheads hlinked hchain

/-! The two tables of a map. -/

variable {hmap : HMap α} {flat flat' : Store.HMap α}

structure HMap.Shows (next : Next α) (hmap : HMap α) (flat : Store.HMap α) :
    Prop where
  newer : hmap.newer.Shows next flat.newer
  older : hmap.older.Shows next flat.older
  migratePos : hmap.migratePos = flat.migratePos

theorem HMap.Shows.congr (h : hmap.Shows next flat)
    (hsame : ∀ p ∈ flat.nodes, next' p = next p) : hmap.Shows next' flat :=
  ⟨h.newer.congr fun p hp => hsame p (List.mem_append_left _ hp),
    h.older.congr fun p hp => hsame p (List.mem_append_right _ hp), h.migratePos⟩

theorem hmFirstTable_shows (h : hmap.Shows next flat)
    (hresult : Store.hmFirstTable flat = some plain) :
    ∃ htab, hmFirstTable hmap = some htab ∧ htab.Shows next plain := by
  unfold Store.hmFirstTable at hresult
  unfold hmFirstTable
  rw [h.newer.isNone]
  split at hresult
  next hnone =>
    obtain ⟨htab, hinit, hshows⟩ := hInit_shows next hresult
    exact ⟨htab, by rw [if_pos hnone, hinit], hshows⟩
  next hsome =>
    cases hresult
    exact ⟨hmap.newer, if_neg hsome, h.newer⟩

theorem hmGrow_shows (h : hmap.Shows next flat)
    (hresult : Store.hmGrow flat = some flat') :
    ∃ hmap', hmGrow hmap = some hmap' ∧ hmap'.Shows next flat' := by
  unfold Store.hmGrow at hresult
  unfold hmGrow
  rw [h.older.isNone, h.newer.size, h.newer.mask]
  split at hresult
  next hgrow =>
    rw [if_pos hgrow]
    unfold Store.hmTriggerRehashing at hresult
    unfold hmTriggerRehashing
    rw [h.older.isSome, h.newer.mask]
    split at hresult
    next => cases hresult
    next hidle =>
      obtain ⟨newer, hinit, hresult⟩ := Option.bind_eq_some_iff.mp hresult
      cases hresult
      obtain ⟨newer', hinit', hshows⟩ := hInit_shows next hinit
      refine ⟨{ newer := newer', older := hmap.newer, migratePos := 0 }, ?_, hshows,
        h.newer, rfl⟩
      rw [if_neg hidle, hinit']
      rfl
  next hkeep =>
    cases hresult
    exact ⟨hmap, if_neg hkeep, h⟩

/-! Iteration. -/

theorem chainForeach_eq (f : α → σ → Bool × σ) (chain : List α) :
    ∀ {head : Option α} {fuel : Nat} (arg : σ), Linked next head chain →
      chain.length < fuel →
        chainForeach f next fuel head arg = some (Store.chainForeach f chain arg) := by
  induction chain with
  | nil =>
      intro head fuel arg h hfuel
      obtain ⟨fuel, rfl⟩ := Nat.exists_eq_succ_of_ne_zero (Nat.ne_of_gt hfuel)
      cases h
      rfl
  | cons node rest ih =>
      intro head fuel arg h hfuel
      obtain ⟨fuel, rfl⟩ :=
        Nat.exists_eq_succ_of_ne_zero (Nat.ne_of_gt (Nat.zero_lt_of_lt hfuel))
      obtain ⟨rfl, hrest⟩ := h
      rw [chainForeach, Store.chainForeach]
      rcases f node arg with ⟨go, arg⟩
      cases go with
      | true => exact ih arg hrest (Nat.lt_of_succ_lt_succ hfuel)
      | false => rfl

theorem slotsForeach_eq (f : α → σ → Bool × σ) {heads : List (Option α)}
    {chains : List (List α)} {fuel : Nat} (h : LinkedHeads next heads chains)
    (hfuel : ∀ chain ∈ chains, chain.length < fuel) (slots : List Nat) (arg : σ) :
    slotsForeach f next fuel heads slots arg =
      Store.slotsForeach f chains slots arg := by
  induction slots generalizing arg with
  | nil => rfl
  | cons i slots ih =>
      rw [slotsForeach, Store.slotsForeach]
      cases hchain : chains[i]? with
      | none =>
          have hout := List.getElem?_eq_none_iff.mp hchain
          rw [← h.length] at hout
          rw [List.getElem?_eq_none_iff.mpr hout]
          rfl
      | some chain =>
          obtain ⟨head, hhead, hlinked⟩ := h.linked i chain hchain
          have hlength := hfuel chain (List.mem_of_getElem? hchain)
          simp only [hhead, Option.bind_eq_bind, Option.bind_some,
            chainForeach_eq f chain arg hlinked hlength]
          rcases Store.chainForeach f chain arg with ⟨go, arg⟩
          cases go with
          | true => exact ih arg
          | false => rfl

theorem hForeach_eq (f : α → σ → Bool × σ) (h : htab.Shows next plain)
    (hwf : plain.WF hcode) (arg : σ) :
    hForeach f next htab arg = Store.hForeach f plain arg := by
  unfold hForeach Store.hForeach
  cases hchains : plain.tab with
  | none =>
      have hnone := h.isNone
      rw [hchains, Option.isNone_none, Option.isNone_iff_eq_none] at hnone
      rw [hnone]
  | some chains =>
      obtain ⟨heads, hheads, hlinked⟩ := h.exists_heads hchains
      rw [hheads, h.mask]
      exact slotsForeach_eq f hlinked (fun _ => h.length_chain hwf hchains) _ arg

theorem hmForeach_eq (f : α → σ → Bool × σ) (h : hmap.Shows next flat)
    (hinv : flat.Inv hcode) (arg : σ) :
    hmForeach f next hmap arg = Store.hmForeach f flat arg := by
  unfold hmForeach Store.hmForeach
  rw [hForeach_eq f h.newer hinv.newer]
  refine bind_congr ?_
  rintro ⟨go, arg⟩
  cases go with
  | true => simp only [hForeach_eq f h.older hinv.older]
  | false => rfl

/-! Changing a chain. -/

variable [DecidableEq α]

theorem hInsert_shows (h : htab.Shows next plain) (hnew : node ∉ plain.nodes)
    (hresult : Store.hInsert hcode plain node = some plain') :
    ∃ next' htab', hInsert hcode next htab node = some (next', htab') ∧
      htab'.Shows next' plain' ∧ Apart [node] next next' := by
  obtain ⟨chains, hplain, hresult⟩ := Option.bind_eq_some_iff.mp hresult
  obtain ⟨chain, hchain, hresult⟩ := Option.bind_eq_some_iff.mp hresult
  cases hresult
  obtain ⟨heads, hheads, hlinked⟩ := h.exists_heads hplain
  obtain ⟨head, hhead, _⟩ := hlinked.linked _ chain hchain
  obtain ⟨hlt, _⟩ := List.getElem?_eq_some_iff.mp hhead
  refine ⟨Function.update next node head, { htab with
    tab := some (heads.set (slotOf (hcode node) plain.mask) (some node))
    size := htab.size + 1 }, ?_, ⟨h.mask, ?_, rfl, ?_⟩, ?_⟩
  · simp only [hInsert, HTab.load, HTab.store, h.mask, hheads, hhead,
      Option.bind_eq_bind, Option.bind_some, if_pos hlt]
  · exact congrArg (· + 1) h.size
  · rintro _ _ ⟨⟩ ⟨⟩
    refine hlinked.cons hchain hhead ?_
    simpa [Store.HTab.nodes, Store.HTab.chains, hplain] using hnew
  · intro p hp
    exact Function.update_of_ne (by simpa using hp) _ _

theorem hDetach_shows (h : htab.Shows next plain) (hnodup : plain.nodes.Nodup)
    {link : Link} {owner : Owner α} (hpoints : Points plain link owner)
    (hresult : Store.hDetach plain link = some (plain', node)) :
    ∃ next' htab', hDetach next htab owner = some (next', htab', node) ∧
      htab'.Shows next' plain' ∧ Apart plain.nodes next next' := by
  obtain ⟨chains, before, first, after, hplain, hchain, hdepth, rfl⟩ :=
    hpoints.exists_chain
  obtain ⟨heads, hheads, hlinked⟩ := h.exists_heads hplain
  have hload := load_ownerAfter hheads hlinked hchain
  have hnodes : plain.nodes = chains.flatten := by
    rw [Store.HTab.nodes, Store.HTab.chains, hplain, Option.getD_some]
  rw [hnodes] at hnodup
  have herase : (before ++ first :: after).eraseIdx link.depth = before ++ after := by
    rw [← hdepth, List.eraseIdx_append_of_length_le (Nat.le_refl _), Nat.sub_self]
    rfl
  have hfirst : (before ++ first :: after)[link.depth]? = some first := by
    rw [← hdepth, List.getElem?_append_right (Nat.le_refl _), Nat.sub_self]
    rfl
  simp only [Store.hDetach, hplain, hchain, hfirst, herase, Option.bind_eq_bind,
    Option.bind_some] at hresult
  cases hresult
  rcases List.eq_nil_or_concat before with rfl | ⟨init, p, rfl⟩
  · obtain ⟨_, hhead, _⟩ := hlinked.linked _ _ hchain
    obtain ⟨hlt, _⟩ := List.getElem?_eq_some_iff.mp hhead
    refine ⟨next, { htab with
      tab := some (heads.set link.slot (next node))
      size := htab.size - 1 }, ?_, ⟨h.mask, ?_, rfl, ?_⟩, fun _ _ => rfl⟩
    · rw [ownerAfter_nil] at hload ⊢
      simp only [hDetach, hload, List.head?_cons, Option.bind_eq_bind,
        Option.bind_some, HTab.store, hheads, if_pos hlt]
    · exact congrArg (· - 1) h.size
    · rintro _ _ ⟨⟩ ⟨⟩
      exact hlinked.unlink_head hchain
  · rw [List.concat_eq_append, List.append_assoc] at hchain ⊢
    refine ⟨Function.update next p (next node), { htab with size := htab.size - 1 },
      ?_, ⟨h.mask, ?_, ?_, ?_⟩, ?_⟩
    · rw [List.concat_eq_append, ownerAfter_concat] at hload
      rw [ownerAfter_concat]
      simp only [hDetach, hload, List.head?_cons, Option.bind_eq_bind,
        Option.bind_some, HTab.store]
    · exact congrArg (· - 1) h.size
    · simp [hheads]
    · rintro _ _ hheads' ⟨⟩
      rw [hheads] at hheads'
      cases hheads'
      exact hlinked.unlink hnodup hchain
    · intro q hq
      refine Function.update_of_ne ?_ _ _
      rintro rfl
      refine hq ?_
      rw [hnodes]
      exact List.mem_flatten.mpr ⟨_, List.mem_of_getElem? hchain, by simp⟩

theorem hmMigrateStep_shows (h : hmap.Shows next flat) (hinv : flat.Inv hcode)
    {work : Nat} (hresult : Store.hmMigrateStep hcode flat = some (flat', work)) :
    ∃ next' hmap', hmMigrateStep hcode next hmap = some (next', hmap', work) ∧
      hmap'.Shows next' flat' ∧ Apart flat.nodes next next' := by
  obtain ⟨chains, hplain, hresult⟩ := Option.bind_eq_some_iff.mp hresult
  obtain ⟨chain, hchain, hresult⟩ := Option.bind_eq_some_iff.mp hresult
  obtain ⟨heads, hheads, hlinked⟩ := h.older.exists_heads hplain
  have hload : hmap.older.load next (ownerAfter flat.migratePos []) = _ :=
    load_ownerAfter hheads hlinked hchain
  rw [ownerAfter_nil] at hload
  obtain ⟨_, holderNodup, hdisjoint⟩ := List.nodup_append'.mp hinv.nodup
  unfold hmMigrateStep
  rw [h.migratePos, hload]
  cases chain with
  | nil =>
      cases hresult
      exact ⟨next, _, rfl, ⟨h.newer, h.older, rfl⟩, fun _ _ => rfl⟩
  | cons first rest =>
      obtain ⟨⟨older, node⟩, hdetach, hresult⟩ := Option.bind_eq_some_iff.mp hresult
      obtain ⟨newer, hinsert, hresult⟩ := Option.bind_eq_some_iff.mp hresult
      cases hresult
      have hderef : flat.older.deref ⟨flat.migratePos, 0⟩ = some first :=
        Store.HTab.deref_eq_some.mpr ⟨chains, first :: rest, hplain, hchain, rfl⟩
      obtain ⟨_, hdetach', _, hperm, _⟩ := hDetach_spec hinv.older hderef
      rw [hdetach] at hdetach'
      cases hdetach'
      have hout := (List.nodup_cons.mp (hperm.nodup_iff.mp holderNodup)).1
      have hin : first ∈ flat.older.nodes := hperm.mem_iff.mpr List.mem_cons_self
      obtain ⟨between, older', hdetached, hshows, hapart⟩ :=
        hDetach_shows h.older holderNodup
          ⟨chains, [], first, rest, hplain, hchain, rfl, rfl⟩ hdetach
      have hnewer : hmap.newer.Shows between flat.newer :=
        h.newer.congr fun p hp => hapart p fun hp' => hdisjoint hp hp'
      obtain ⟨next', newer', hinserted, hshows', hapart'⟩ :=
        hInsert_shows hnewer (fun hp => hdisjoint hp hin) hinsert
      refine ⟨next', ⟨newer', older', flat.migratePos⟩, ?_,
        ⟨hshows', ?_, rfl⟩, ?_⟩
      · rw [ownerAfter_nil] at hdetached
        simp only [List.head?_cons, Option.bind_eq_bind,
          Option.bind_some, hdetached, hinserted]
      · refine hshows.congr fun p hp => hapart' p ?_
        rw [List.mem_singleton]
        rintro rfl
        exact hout hp
      · intro p hp
        have hp' : p ∉ flat.older.nodes := fun hold =>
          hp (List.mem_append_right _ hold)
        rw [hapart' p, hapart p hp']
        rw [List.mem_singleton]
        rintro rfl
        exact hp' hin

theorem hmMigrate_shows (fuel : Nat) :
    ∀ {nwork : Nat} {next : Next α} {hmap : HMap α} {flat flat' : Store.HMap α},
      hmap.Shows next flat → flat.Inv hcode →
        Store.hmMigrate hcode fuel nwork flat = some flat' →
          ∃ next' hmap', hmMigrate hcode fuel nwork next hmap = some (next', hmap') ∧
            hmap'.Shows next' flat' ∧ Apart flat.nodes next next' := by
  induction fuel with
  | zero =>
      intro nwork next hmap flat flat' _ _ hresult
      cases hresult
  | succ fuel ih =>
      intro nwork next hmap flat flat' h hinv hresult
      unfold Store.hmMigrate at hresult
      unfold hmMigrate
      rw [h.older.size]
      split at hresult
      next hgo =>
        rw [if_pos hgo]
        obtain ⟨between, work, hstep, _, hmoved⟩ := hmMigrateStep_spec hinv hgo.2
        rw [hstep] at hresult
        obtain ⟨next₁, hmap₁, hstep', hshows, hapart⟩ :=
          hmMigrateStep_shows h hinv hstep
        obtain ⟨next', hmap', hrest, hshows', hapart'⟩ :=
          ih hshows hmoved.inv hresult
        refine ⟨next', hmap', ?_, hshows', hapart.trans ?_⟩
        · rw [hstep']
          exact hrest
        · exact hapart'.mono fun p hp => hmoved.perm.mem_iff.mp hp
      next hstop =>
        cases hresult
        exact ⟨next, hmap, if_neg hstop, h, fun _ _ => rfl⟩

theorem hmHelpRehashing_shows (h : hmap.Shows next flat) (hinv : flat.Inv hcode)
    (hresult : Store.hmHelpRehashing hcode flat = some flat') :
    ∃ next' hmap', hmHelpRehashing hcode next hmap = some (next', hmap') ∧
      hmap'.Shows next' flat' ∧ Apart flat.nodes next next' := by
  obtain ⟨between, hmigrate, hresult⟩ := Option.bind_eq_some_iff.mp hresult
  obtain ⟨next', hmap', hmigrated, hshows, hapart⟩ :=
    hmMigrate_shows _ h hinv hmigrate
  simp only [hmHelpRehashing, h.older.mask]
  unfold hmMigrateFuel at hmigrated
  rw [hmigrated]
  simp only [Option.bind_eq_bind, Option.bind_some, hshows.older.size,
    hshows.older.isSome]
  split at hresult
  next hdone =>
    cases hresult
    exact ⟨next', _, if_pos hdone, ⟨hshows.newer, .empty, hshows.migratePos⟩, hapart⟩
  next hgoing =>
    cases hresult
    exact ⟨next', hmap', if_neg hgoing, hshows, hapart⟩

theorem hmInsert_shows (h : hmap.Shows next flat) (hinv : flat.Inv hcode)
    (hnew : node ∉ flat.nodes) (hresult : Store.hmInsert hcode flat node = some flat') :
    ∃ next' hmap', hmInsert hcode next hmap node = some (next', hmap') ∧
      hmap'.Shows next' flat' ∧ Apart (node :: flat.nodes) next next' := by
  obtain ⟨first, hfirst, hresult⟩ := Option.bind_eq_some_iff.mp hresult
  obtain ⟨newer, hinsert, hresult⟩ := Option.bind_eq_some_iff.mp hresult
  obtain ⟨grown, hgrow, hresult⟩ := Option.bind_eq_some_iff.mp hresult
  -- the invariants along the way
  obtain ⟨_, _, hfirst', hinsert', hlinked, hperm, _⟩ := hmLink_spec hinv hnew
  rw [hfirst] at hfirst'
  cases hfirst'
  rw [hinsert] at hinsert'
  cases hinsert'
  obtain ⟨_, hgrow', hgrown, hgrownPerm⟩ := hmGrow_spec hlinked
  rw [hgrow] at hgrow'
  cases hgrow'
  obtain ⟨_, hfirst', _, _, hnodes, _⟩ := hmFirstTable_spec hinv
  rw [hfirst] at hfirst'
  cases hfirst'
  -- the same steps in memory
  obtain ⟨table, htable, hshows⟩ := hmFirstTable_shows h hfirst
  have hout : node ∉ first.nodes := by
    rw [hnodes]
    exact fun hin => hnew (List.mem_append_left _ hin)
  obtain ⟨between, linked, hlink, hlinkedShows, hapart⟩ :=
    hInsert_shows hshows hout hinsert
  have hmapShows : HMap.Shows between { hmap with newer := linked }
      { flat with newer := newer } := by
    refine ⟨hlinkedShows, h.older.congr ?_, h.migratePos⟩
    intro p hp
    refine hapart p ?_
    rw [List.mem_singleton]
    rintro rfl
    exact hnew (List.mem_append_right _ hp)
  obtain ⟨grownMap, hgrowMap, hgrownShows⟩ := hmGrow_shows hmapShows hgrow
  obtain ⟨next', hmap', hhelp, hend, hapart'⟩ :=
    hmHelpRehashing_shows hgrownShows hgrown hresult
  refine ⟨next', hmap', ?_, hend, ?_⟩
  · simp only [hmInsert, htable, hlink, hgrowMap, Option.bind_eq_bind,
      Option.bind_some, hhelp]
  · refine Apart.trans (hapart.mono (by simp)) (hapart'.mono ?_)
    intro p hp
    exact (hgrownPerm.trans hperm).mem_iff.mp hp

theorem hmLookup_shows (h : hmap.Shows next flat) (hinv : flat.Inv hcode)
    {found : Option α} (hresult : Store.hmLookup hcode flat key = some (flat', found)) :
    ∃ next' hmap', hmLookup hcode next hmap key = some (next', hmap', found) ∧
      hmap'.Shows next' flat' ∧ Apart flat.nodes next next' := by
  obtain ⟨helped, hhelp, hresult⟩ := Option.bind_eq_some_iff.mp hresult
  obtain ⟨_, hhelp', hhelped, _⟩ := hmHelpRehashing_spec hinv
  rw [hhelp] at hhelp'
  cases hhelp'
  obtain ⟨next', hmap', hhelpMap, hshows, hapart⟩ := hmHelpRehashing_shows h hinv hhelp
  obtain ⟨newer, hnewer, hresult⟩ := Option.bind_eq_some_iff.mp hresult
  obtain ⟨owner, hnewerMap, hpoints⟩ := hLookup_shows hshows.newer hhelped.newer hnewer
  unfold hmLookup
  rw [hhelpMap]
  simp only [Option.bind_eq_bind, Option.bind_some, hnewerMap]
  cases hpoints with
  | some hpoints =>
      obtain ⟨node, hderef, hresult⟩ := Option.bind_eq_some_iff.mp hresult
      cases hresult
      refine ⟨next', hmap', ?_, hshows, hapart⟩
      simp only [hpoints.load hshows.newer hderef, Option.bind_some]
  | none =>
      obtain ⟨older, holder, hresult⟩ := Option.bind_eq_some_iff.mp hresult
      obtain ⟨owner, holderMap, hpoints⟩ :=
        hLookup_shows hshows.older hhelped.older holder
      simp only [holderMap, Option.bind_some]
      cases hpoints with
      | some hpoints =>
          obtain ⟨node, hderef, hresult⟩ := Option.bind_eq_some_iff.mp hresult
          cases hresult
          refine ⟨next', hmap', ?_, hshows, hapart⟩
          simp only [hpoints.load hshows.older hderef, Option.bind_some]
      | none =>
          cases hresult
          exact ⟨next', hmap', rfl, hshows, hapart⟩

theorem hmDelete_shows (h : hmap.Shows next flat) (hinv : flat.Inv hcode)
    {found : Option α} (hresult : Store.hmDelete hcode flat key = some (flat', found)) :
    ∃ next' hmap', hmDelete hcode next hmap key = some (next', hmap', found) ∧
      hmap'.Shows next' flat' ∧ Apart flat.nodes next next' := by
  obtain ⟨helped, hhelp, hresult⟩ := Option.bind_eq_some_iff.mp hresult
  obtain ⟨_, hhelp', hhelped, hperm, _⟩ := hmHelpRehashing_spec hinv
  rw [hhelp] at hhelp'
  cases hhelp'
  obtain ⟨between, hmap', hhelpMap, hshows, hapart⟩ :=
    hmHelpRehashing_shows h hinv hhelp
  obtain ⟨hnewerNodup, holderNodup, hdisjoint⟩ := List.nodup_append'.mp hhelped.nodup
  have hpart : ∀ {nodes : List α} {next' : Next α}, nodes ⊆ helped.nodes →
      Apart nodes between next' → Apart flat.nodes next next' :=
    fun hsub hmore => hapart.trans (hmore.mono fun p hp => hperm.mem_iff.mp (hsub hp))
  obtain ⟨newer, hnewer, hresult⟩ := Option.bind_eq_some_iff.mp hresult
  obtain ⟨owner, hnewerMap, hpoints⟩ := hLookup_shows hshows.newer hhelped.newer hnewer
  unfold hmDelete
  rw [hhelpMap]
  simp only [Option.bind_eq_bind, Option.bind_some, hnewerMap]
  cases hpoints with
  | some hpoints =>
      obtain ⟨⟨table, node⟩, hdetach, hresult⟩ := Option.bind_eq_some_iff.mp hresult
      cases hresult
      obtain ⟨next', newer', hdetached, hend, hmore⟩ :=
        hDetach_shows hshows.newer hnewerNodup hpoints hdetach
      refine ⟨next', { hmap' with newer := newer' }, ?_, ⟨hend, ?_, hshows.migratePos⟩,
        hpart (List.subset_append_left _ _) hmore⟩
      · simp only [hdetached, Option.bind_some]
      · exact hshows.older.congr fun p hp => hmore p fun hp' => hdisjoint hp' hp
  | none =>
      obtain ⟨older, holder, hresult⟩ := Option.bind_eq_some_iff.mp hresult
      obtain ⟨owner, holderMap, hpoints⟩ :=
        hLookup_shows hshows.older hhelped.older holder
      simp only [holderMap, Option.bind_some]
      cases hpoints with
      | some hpoints =>
          obtain ⟨⟨table, node⟩, hdetach, hresult⟩ := Option.bind_eq_some_iff.mp hresult
          cases hresult
          obtain ⟨next', older', hdetached, hend, hmore⟩ :=
            hDetach_shows hshows.older holderNodup hpoints hdetach
          refine ⟨next', { hmap' with older := older' }, ?_,
            ⟨?_, hend, hshows.migratePos⟩, hpart (List.subset_append_right _ _) hmore⟩
          · simp only [hdetached, Option.bind_some]
          · exact hshows.newer.congr fun p hp => hmore p fun hp' => hdisjoint hp hp'
      | none =>
          cases hresult
          exact ⟨between, hmap', rfl, hshows, hapart⟩

/-! Whole runs.  Between two operations the `next` of a node that is not in the
map can become anything: it is not initialised yet, or the node is freed. -/

structure ChainState (α : Type) where
  next : Next α
  hmap : HMap α := {}
  stored : Multiset α := 0

inductive ChainStep (hcode : α → UInt64) : ChainState α → ChainState α → Prop
  | insert {state : ChainState α} {next : Next α} {hmap : HMap α} (node : α)
      (fresh : node ∉ state.stored)
      (result : hmInsert hcode state.next state.hmap node = some (next, hmap)) :
      ChainStep hcode state ⟨next, hmap, node ::ₘ state.stored⟩
  | lookup {state : ChainState α} {next : Next α} {hmap : HMap α} (key : Probe α)
      {found : Option α}
      (result : hmLookup hcode state.next state.hmap key = some (next, hmap, found)) :
      ChainStep hcode state ⟨next, hmap, state.stored⟩
  | delete {state : ChainState α} {next : Next α} {hmap : HMap α} (key : Probe α)
      {found : Option α}
      (result : hmDelete hcode state.next state.hmap key = some (next, hmap, found)) :
      ChainStep hcode state ⟨next, hmap, found.elim state.stored state.stored.erase⟩
  | outside {state : ChainState α} (next : Next α)
      (same : ∀ p ∈ state.stored, next p = state.next p) :
      ChainStep hcode state { state with next := next }

def ChainReachable (hcode : α → UInt64) (state : ChainState α) : Prop :=
  ∃ next, Relation.ReflTransGen (ChainStep hcode) { next := next } state

/-- A map of chains that went through the same operations. -/
def Refines (hcode : α → UInt64) (state : ChainState α) (flat : Store.HMap α) :
    Prop :=
  HMapReachable hcode flat state.stored ∧ state.hmap.Shows state.next flat

theorem Refines.step {state state' : ChainState α} (h : Refines hcode state flat)
    (hstep : ChainStep hcode state state') : ∃ flat', Refines hcode state' flat' := by
  obtain ⟨hreach, hshows⟩ := h
  obtain ⟨hinv, hstored⟩ := hreach.tracks
  dsimp only at hinv hstored
  cases hstep with
  | insert node fresh result =>
      have hnew : node ∉ flat.nodes := by
        rw [← hstored] at fresh
        exact fresh
      obtain ⟨flat', hinsert, _⟩ := hmInsert_spec hinv hnew
      obtain ⟨_, _, hresult, hshows', _⟩ := hmInsert_shows hshows hinv hnew hinsert
      rw [result] at hresult
      cases hresult
      exact ⟨flat', hreach.tail (.insert node fresh hinsert), hshows'⟩
  | lookup key result =>
      obtain ⟨flat', found, hlookup, _⟩ := hmLookup_spec key hinv
      obtain ⟨_, _, hresult, hshows', _⟩ := hmLookup_shows hshows hinv hlookup
      rw [result] at hresult
      cases hresult
      exact ⟨flat', hreach.tail (.lookup key hlookup), hshows'⟩
  | delete key result =>
      obtain ⟨flat', found, hdelete, _⟩ := hmDelete_spec key hinv
      obtain ⟨_, _, hresult, hshows', _⟩ := hmDelete_shows hshows hinv hdelete
      rw [result] at hresult
      cases hresult
      exact ⟨flat', hreach.tail (.delete key hdelete), hshows'⟩
  | outside next same =>
      refine ⟨flat, hreach, hshows.congr ?_⟩
      intro p hp
      refine same p ?_
      rw [← hstored]
      exact hp

theorem ChainReachable.refines {state : ChainState α}
    (h : ChainReachable hcode state) : ∃ flat, Refines hcode state flat := by
  obtain ⟨next, hsteps⟩ := h
  induction hsteps with
  | refl => exact ⟨{}, .refl, .empty, .empty, rfl⟩
  | tail _ hstep ih =>
      obtain ⟨flat, hflat⟩ := ih
      exact hflat.step hstep

/-- The pointers of a map spell out the chains of a map without pointers that
went through the same operations, whatever happens to the nodes outside.  Every
operation returns, with the same answer as there, and writes to no node outside. -/
theorem chains_refine_map {state : ChainState α} (hreach : ChainReachable hcode state) :
    ∃ flat, HMapReachable hcode flat state.stored ∧
      state.hmap.Shows state.next flat ∧
      (∀ node, node ∉ state.stored → ∃ next hmap flat',
        hmInsert hcode state.next state.hmap node = some (next, hmap) ∧
        Store.hmInsert hcode flat node = some flat' ∧ hmap.Shows next flat' ∧
        ∀ p, p ≠ node → p ∉ state.stored → next p = state.next p) ∧
      (∀ key, ∃ next hmap flat' found,
        hmLookup hcode state.next state.hmap key = some (next, hmap, found) ∧
        Store.hmLookup hcode flat key = some (flat', found) ∧ hmap.Shows next flat' ∧
        ∀ p, p ∉ state.stored → next p = state.next p) ∧
      (∀ key, ∃ next hmap flat' found,
        hmDelete hcode state.next state.hmap key = some (next, hmap, found) ∧
        Store.hmDelete hcode flat key = some (flat', found) ∧ hmap.Shows next flat' ∧
        ∀ p, p ∉ state.stored → next p = state.next p) ∧
      ∀ {σ : Type} (f : α → σ → Bool × σ) (arg : σ),
        hmForeach f state.next state.hmap arg = Store.hmForeach f flat arg := by
  obtain ⟨flat, hflat, hshows⟩ := hreach.refines
  obtain ⟨hinv, hstored⟩ := hflat.tracks
  dsimp only at hinv hstored
  have hmem : ∀ p, p ∈ flat.nodes ↔ p ∈ state.stored := by
    intro p
    rw [← hstored]
    rfl
  refine ⟨flat, hflat, hshows, ?_, ?_, ?_, ?_⟩
  · intro node hnew
    rw [← hmem] at hnew
    obtain ⟨flat', hinsert, _⟩ := hmInsert_spec hinv hnew
    obtain ⟨next, hmap, hresult, hshows', hapart⟩ :=
      hmInsert_shows hshows hinv hnew hinsert
    refine ⟨next, hmap, flat', hresult, hinsert, hshows', ?_⟩
    intro p hne hout
    rw [← hmem] at hout
    exact hapart p (List.not_mem_cons_of_ne_of_not_mem hne hout)
  · intro key
    obtain ⟨flat', found, hlookup, _⟩ := hmLookup_spec key hinv
    obtain ⟨next, hmap, hresult, hshows', hapart⟩ := hmLookup_shows hshows hinv hlookup
    refine ⟨next, hmap, flat', found, hresult, hlookup, hshows', ?_⟩
    intro p hout
    exact hapart p (mt (hmem p).mp hout)
  · intro key
    obtain ⟨flat', found, hdelete, _⟩ := hmDelete_spec key hinv
    obtain ⟨next, hmap, hresult, hshows', hapart⟩ := hmDelete_shows hshows hinv hdelete
    refine ⟨next, hmap, flat', found, hresult, hdelete, hshows', ?_⟩
    intro p hout
    exact hapart p (mt (hmem p).mp hout)
  · intro σ f arg
    exact hmForeach_eq f hshows hinv arg

theorem chains_refine_map_collision : ∃ state : ChainState Nat,
    ChainReachable (fun _ => 3) state ∧ state.stored = {7, 9} ∧
      state.next 7 = some 9 ∧ ∃ flat,
        HMapReachable (fun _ => 3) flat {7, 9} ∧ state.hmap.Shows state.next flat := by
  have hsteps : Relation.ReflTransGen (ChainStep fun _ => 3)
      { next := fun _ => none } _ :=
    .tail (.single (.insert 9 (by simp) rfl)) (.insert 7 (by decide) rfl)
  have hreach : ChainReachable (fun _ => 3) _ := ⟨_, hsteps⟩
  obtain ⟨flat, hflat, hshows, _⟩ := chains_refine_map hreach
  exact ⟨_, hreach, rfl, rfl, flat, hflat, hshows⟩

end MiniRedis.Store.Chained
