import MiniRedis.Server.ActiveExpiry
import MiniRedis.Server.BackPressure
import MiniRedis.Server.Returns

namespace MiniRedis.Server

open MiniRedis.Data MiniRedis.Ds MiniRedis.Store MiniRedis.Protocol

/-! No step of the server fails: no assertion, no access outside a buffer and no
endless loop, as long as the sets can be counted. -/

variable {strtod : Bytes → Double × Nat} {db db' : Database} {e : Entry}
  {op : Op} {key : Bytes} {now before : UInt64} {bound : Nat}

def Sized (bound : Nat) (slot : Slot) : Prop :=
  ∀ e due, slot = some (e, due) → e.zset.hmap.nodes.length ≤ bound

theorem zset_names {zset : ZSet} {tree : BinaryTree Ptr} (h : zset.Inv tree) :
    (zset.hmap.nodes.map fun p => (zset.node p).name).Nodup ∧
      ∀ name, name ∈ (zset.hmap.nodes.map fun p => (zset.node p).name) ↔
        zset.scores name ≠ none := by
  refine ⟨h.index.inv.nodup.map_on h.index.distinct, ?_⟩
  intro name
  rw [Ne, h.maps.none_iff, List.mem_map]
  simp

theorem length_le_of_scores {zset zset' : ZSet} (name : Bytes)
    (h : ∃ tree, zset.Inv tree) (h' : ∃ tree, zset'.Inv tree)
    (hscores : ∀ other, other ≠ name → zset'.scores other = zset.scores other) :
    zset'.hmap.nodes.length ≤ zset.hmap.nodes.length + 1 := by
  obtain ⟨tree, htree⟩ := h
  obtain ⟨tree', htree'⟩ := h'
  obtain ⟨hnodup, hmem⟩ := zset_names htree'
  have hsubset : (zset'.hmap.nodes.map fun p => (zset'.node p).name) ⊆
      name :: zset.hmap.nodes.map fun p => (zset.node p).name := by
    intro other hother
    by_cases heq : other = name
    · exact heq ▸ .head _
    · rw [hmem, hscores other heq] at hother
      exact .tail _ (((zset_names htree).2 other).mpr hother)
  simpa using (List.subperm_of_subset hnodup hsubset).length_le

theorem Edits.sized {act : Entry → Option (Entry × Value)} {reply : Value}
    {scores : Bytes → Option Int} {zset : ZSet} {e' : Entry} {value : Value}
    (hedits : Edits act e reply scores zset) (hzset : ∃ tree, e.zset.Inv tree)
    (name : Bytes) (hscores : ∀ other, other ≠ name →
      scores other = e.zset.scores other) (hact : act e = some (e', value)) :
    e'.zset.hmap.nodes.length ≤ e.zset.hmap.nodes.length + 1 := by
  rw [hedits.eq] at hact
  cases hact
  refine length_le_of_scores name hzset hedits.inv ?_
  rw [hedits.scores]
  exact hscores

theorem onZset_sized {slot slot' : Slot} {value : Value}
    {missing : Option (Slot × Value)} {act : Entry → Option (Entry × Value)}
    (hslot : Sized bound slot)
    (hmissing : missing = some (slot', value) → Sized (bound + 1) slot')
    (hact : ∀ e due e' value, slot = some (e, due) → act e = some (e', value) →
      e'.zset.hmap.nodes.length ≤ e.zset.hmap.nodes.length + 1)
    (h : onZset missing act slot = some (slot', value)) :
    Sized (bound + 1) slot' := by
  rcases slot with _ | ⟨e, due⟩
  · exact hmissing h
  · have hsize := hslot e due rfl
    by_cases htype : e.type = .zset
    · rw [onZset_zset htype] at h
      obtain ⟨⟨e', reply⟩, heq, h⟩ := Option.bind_eq_some_iff.mp h
      cases h
      rintro _ _ ⟨⟩
      exact Nat.le_trans (hact e due e' reply rfl heq) (Nat.succ_le_succ hsize)
    · rw [onZset_wrong htype] at h
      cases h
      rintro _ _ ⟨⟩
      omega

theorem Op.act_sized {slot slot' : Slot} {value : Value} (hop : op.Valid)
    (hsets : ∀ e due, slot = some (e, due) → ∃ tree, e.zset.Inv tree)
    (hslot : Sized bound slot) (h : op.act key now slot = some (slot', value)) :
    Sized (bound + 1) slot' := by
  have hkept : Sized (bound + 1) slot := fun e due heq =>
    Nat.le_succ_of_le (hslot e due heq)
  cases op with
  | get =>
      cases slot <;> cases h <;> exact hkept
  | set new =>
      rcases slot with _ | ⟨e, due⟩
      · cases h
        rintro _ _ ⟨⟩
        exact Nat.zero_le _
      · simp only [Op.act] at h
        split at h <;> cases h
        · exact hkept
        · rintro _ _ ⟨⟩
          exact hkept e due rfl
  | del => cases slot <;> cases h <;> rintro _ _ ⟨⟩
  | ttl inMs =>
      rcases slot with _ | ⟨e, _ | due⟩ <;> cases h <;> exact hkept
  | persist =>
      rcases slot with _ | ⟨e, _ | due⟩ <;> cases h
      · exact hkept
      · exact hkept
      · rintro _ _ ⟨⟩
        exact hkept e _ rfl
  | expire unitMs n =>
      rcases slot with _ | ⟨e, due⟩
      · cases h
        exact hkept
      · simp only [Op.act] at h
        split at h <;> cases h
        · rintro _ _ ⟨⟩
        · rintro _ _ ⟨⟩
          exact hkept e due rfl
  | zadd score name =>
      refine onZset_sized hslot ?_ ?_ h
      · intro hmissing
        obtain ⟨⟨e, reply⟩, hact, hmissing⟩ := Option.bind_eq_some_iff.mp hmissing
        cases hmissing
        rintro _ _ ⟨⟩
        have hempty : ∃ tree, (zsetEntry key).zset.Inv tree := ZSet.Maps.empty.inv
        obtain ⟨zset, hedits⟩ := zaddEntry_edits name hop hempty
        have hgrown := hedits.sized hempty name
          (fun other hne => Function.update_of_ne hne _ _) hact
        exact Nat.le_trans hgrown (Nat.succ_le_succ (Nat.zero_le _))
      · intro e due e' reply hfound hact
        obtain ⟨zset, hedits⟩ := zaddEntry_edits name hop (hsets e due hfound)
        exact hedits.sized (hsets e due hfound) name
          (fun other hne => Function.update_of_ne hne _ _) hact
  | zrem name =>
      refine onZset_sized hslot (by rintro ⟨⟩; rintro _ _ ⟨⟩) ?_ h
      intro e due e' reply hfound hact
      obtain ⟨zset, hedits⟩ := zremEntry_edits name (hsets e due hfound)
      exact hedits.sized (hsets e due hfound) name
        (fun other hne => Function.update_of_ne hne _ _) hact
  | zscore name =>
      refine onZset_sized hslot (by rintro ⟨⟩; rintro _ _ ⟨⟩) ?_ h
      intro e due e' reply hfound hact
      obtain ⟨zset, answer, hedits, -⟩ := zscoreEntry_edits name (hsets e due hfound)
      exact hedits.sized (hsets e due hfound) name (fun _ _ => rfl) hact
  | zquery score name offset limit =>
      refine onZset_sized hslot (by rintro ⟨⟩; rintro _ _ ⟨⟩) ?_ h
      intro e due e' reply _ hact
      have hsame : e' = e := zqueryEntry_same _ _ _ _ _ _ hact
      rw [hsame]
      exact Nat.le_succ _

structure Countable (bound : Nat) (db : Database) : Prop where
  inv : db.Inv
  sized : ∀ key, Sized bound (db.stored key)

theorem Countable.mono {bound' : Nat} (h : Countable bound db)
    (hle : bound ≤ bound') : Countable bound' db :=
  ⟨h.inv, fun key e due hstored => Nat.le_trans (h.sized key e due hstored) hle⟩

theorem Countable.request (h : Countable bound db) (hbound : bound < 2 ^ 32)
    (strtod : Bytes → Double × Nat) (cmd : List Bytes) (out : Bytes)
    (clock : Clock) :
    ∃ db' out', doRequest strtod cmd db out clock = some (db', out') ∧
      Countable (bound + 1) db' := by
  have hlive : ∀ key, Sized bound (live clock.lookup (db.stored key)) :=
    fun key e due hlive =>
      h.sized key e due (Option.eq_some_of_filter_eq_some hlive)
  have hanswerable : (Request.ofCmd strtod cmd).Answerable db clock.lookup := by
    cases Request.ofCmd strtod cmd with
    | on key op =>
        cases op with
        | zquery => exact fun e due heq =>
            Nat.lt_of_le_of_lt (hlive key e due heq) hbound
        | _ => trivial
    | _ => trivial
  obtain ⟨⟨db', out'⟩, hresult⟩ := doRequest_returns h.inv out clock hanswerable
  refine ⟨db', out', hresult, ?_⟩
  have hanswers := doRequest_answers h.inv strtod cmd out clock
  rw [hresult] at hanswers
  generalize Request.ofCmd strtod cmd = request at hanswers
  cases hanswers with
  | reject => exact h.mono (Nat.le_succ bound)
  | keys => exact h.mono (Nat.le_succ bound)
  | @on key op _ hvalid hacts =>
      obtain ⟨slot, value, haction, hstores, -⟩ := hacts.of_some
      refine ⟨hstores.inv, ?_⟩
      intro other
      by_cases hkey : other = key
      · subst hkey
        rw [hstores.stored_self]
        exact Op.act_sized hvalid
          (fun e due heq =>
            exists_zsetInv h.inv (Option.eq_some_of_filter_eq_some heq))
          (hlive other) haction
      · rw [hstores.stored, Function.update_of_ne hkey]
        exact (h.mono (Nat.le_succ bound)).sized other

theorem Countable.respond (h : Countable bound db) (hbound : bound < 2 ^ 32)
    (strtod : Bytes → Double × Nat) (body : Bytes) (clock : Clock) :
    ∃ db' resp, respond strtod body db clock = some (db', resp) ∧
      Countable (bound + 1) db' := by
  rcases @respond_cases strtod body db clock with ⟨cmd, -, heq⟩ | ⟨-, heq⟩
  · rw [heq]
    exact h.request hbound strtod cmd [] clock
  · exact ⟨db, _, heq, h.mono (Nat.le_succ bound)⟩

theorem Countable.serve (strtod : Bytes → Double × Nat) (clocks : Nat → Clock)
    {bodies : List Bytes} (h : Countable bound db)
    (hbound : bound + bodies.length ≤ 2 ^ 32) (i : Nat) :
    ∃ db' exchanges, serve strtod clocks bodies i db = some (db', exchanges) ∧
      Countable (bound + bodies.length) db' := by
  induction bodies generalizing db bound i with
  | nil => exact ⟨db, [], rfl, h⟩
  | cons body bodies ih =>
      rw [List.length_cons] at hbound ⊢
      obtain ⟨between, resp, hrespond, hbetween⟩ :=
        h.respond (show bound < 2 ^ 32 by omega) strtod body (clocks i)
      obtain ⟨after, exchanges, hserve, hafter⟩ :=
        ih hbetween (by omega) (i + 1)
      refine ⟨after, ⟨body, clocks i, resp⟩ :: exchanges, ?_, hafter.mono (by omega)⟩
      simp only [Server.serve, hrespond, hserve, Option.bind_eq_bind,
        Option.bind_some]

theorem length_frames_le (stream : Bytes) :
    4 * (frames stream).1.length ≤ stream.length := by
  have hframes : ∀ bodies : List Bytes,
      4 * bodies.length ≤ (bodies.flatMap frame).length := by
    intro bodies
    induction bodies with
    | nil => exact Nat.le_refl 0
    | cons body bodies ih =>
        rw [List.flatMap_cons, List.length_append, List.length_cons, frame,
          List.length_append, length_writeU32]
        omega
  have hjoin := congrArg List.length (frames_join stream)
  have hle := hframes (frames stream).1
  rw [List.length_append] at hjoin
  omega

end MiniRedis.Server

namespace MiniRedis.EventLoop

open MiniRedis.Data MiniRedis.Ds MiniRedis.Store MiniRedis.Protocol
open MiniRedis.Server

variable {strtod : Bytes → Double × Nat} {s : Server} {fd : Nat} {ready : Ready}
  {before : UInt64} {loop : Loop} {c : Conn}

/-- The most requests that one read can complete. -/
def kMaxRequests : Nat := (4 + maxMsg + kReadSize) / 4

theorem handleRead_returns {bound : Nat} (hdb : Countable bound s.db)
    (hbound : bound + kMaxRequests ≤ 2 ^ 32)
    (hincoming : c.incoming.length < 4 + maxMsg) {input : ReadResult}
    (hsize : input.chunk.length ≤ kReadSize) (clocks : Nat → Clock) :
    ∃ c' db' exchanges,
      handleRead strtod c s.db input clocks = some (c', db', exchanges) ∧
        c.outgoing <+: c'.outgoing := by
  rcases @handleRead_eq strtod clocks c s.db input with
    ⟨-, close, heq⟩ | heq
  · exact ⟨_, _, _, heq, List.prefix_rfl⟩
  · have hframes := length_frames_le (c.incoming ++ input.chunk)
    rw [List.length_append] at hframes
    have hcount : (frames (c.incoming ++ input.chunk)).1.length ≤ kMaxRequests := by
      unfold kMaxRequests
      omega
    obtain ⟨db', exchanges, hserve, -⟩ := hdb.serve strtod clocks
      (show bound + (frames (c.incoming ++ input.chunk)).1.length ≤ 2 ^ 32 by
        omega) 0
    rw [heq, hserve]
    exact ⟨_, _, _, rfl, List.prefix_append _ _⟩

theorem handleWrite_returns {input : WriteResult}
    (hcount : ∀ count, input = .wrote count → count ≤ c.outgoing.length) :
    ∃ result, handleWrite c input = some result := by
  unfold handleWrite
  split
  · exact ⟨_, rfl⟩
  · cases input with
    | again => exact ⟨_, rfl⟩
    | failed => exact ⟨_, rfl⟩
    | wrote count =>
        dsimp only
        rw [if_pos (hcount count rfl)]
        split <;> exact ⟨_, rfl⟩

/-- The kernel delivers at most a buffer of bytes and accepts at most what it is
given. -/
structure Sane (s : Server) (fd : Nat) (ready : Ready) : Prop where
  size : ready.read.chunk.length ≤ kReadSize
  count : ∀ c count, s.conn fd = some c → ready.write = .wrote count →
    count ≤ c.outgoing.length

theorem handleReady_returns {bound : Nat} (hdb : Countable bound s.db)
    (hbound : bound + kMaxRequests ≤ 2 ^ 32)
    (hincoming : ∀ c, s.conn fd = some c → c.incoming.length < 4 + maxMsg)
    (hsane : Sane s fd ready) :
    ∃ s' traffic, handleReady strtod s fd ready = some (s', traffic) := by
  suffices hserved : ∃ between traffic closes,
      serveReady strtod s fd ready = some (between, traffic, closes) by
    obtain ⟨between, traffic, closes, hserved⟩ := hserved
    exact ⟨_, traffic, handleReady_eq_some.mpr ⟨between, closes, hserved, rfl⟩⟩
  unfold serveReady
  split
  · exact ⟨_, _, _, rfl⟩
  · cases hconn : s.conn fd with
    | none => exact ⟨_, _, _, rfl⟩
    | some c =>
        have hread : ∃ c' db' traffic, readPart strtod ready
            { c with lastActiveMs := ready.now } s.db = some (c', db', traffic) ∧
              c.outgoing <+: c'.outgoing := by
          unfold readPart
          split
          · obtain ⟨c', db', exchanges, hread, houtgoing⟩ :=
              @handleRead_returns strtod s { c with lastActiveMs := ready.now }
                bound hdb hbound (hincoming c hconn) ready.read hsane.size
                ready.clocks
            rw [hread]
            exact ⟨_, _, _, rfl, houtgoing⟩
          · exact ⟨_, _, _, rfl, List.prefix_rfl⟩
        obtain ⟨c', db', traffic, hread, houtgoing⟩ := hread
        have hwrite : ∃ result, writePart ready c' traffic = some result := by
          unfold writePart
          split
          · have hcount : ∀ count, ready.write = .wrote count →
                count ≤ c'.outgoing.length := fun count heq =>
              Nat.le_trans (hsane.count c count hconn heq) houtgoing.length_le
            obtain ⟨result, hwrite⟩ := handleWrite_returns hcount
            rw [hwrite]
            exact ⟨_, rfl⟩
          · exact ⟨_, rfl⟩
        obtain ⟨⟨c'', traffic'⟩, hwrite⟩ := hwrite
        simp only [Option.bind_eq_bind]
        rw [hread, Option.bind_some, hwrite, Option.bind_some]
        exact ⟨_, _, _, rfl⟩

/-- Whatever the clients send and whatever `poll`, `read` and `write` answer,
the timeout of `poll`, the handling of a connection, the timers and the steps of
the workers return, in every state that the loop reaches while no set comes near
`2 ^ 32` members. -/
theorem server_never_fails (hreach : ClockedReachable strtod before loop)
    (hsets : ∀ key e due, loop.server.db.stored key = some (e, due) →
      e.zset.hmap.nodes.length + kMaxRequests ≤ 2 ^ 32) :
    (∀ now, ∃ timeout, nextTimerMs loop.server now = some timeout) ∧
    (∀ fd ready, Sane loop.server fd ready → ∃ s' traffic,
      handleReady strtod loop.server fd ready = some (s', traffic)) ∧
    (∀ now, ∃ s', processTimers loop.server now = some s') ∧
    (∃ db, workerTake loop.server.db = some db) ∧
    ∀ ent, ∃ db, workerFinish loop.server.db ent = some db := by
  obtain ⟨order, hidle⟩ := hreach.idleInv
  have hinv := hreach.loopReachable.databaseInv
  have hsettled := hreach.loopReachable.settled.settled
  have hdb : Countable (2 ^ 32 - kMaxRequests) loop.server.db :=
    ⟨hinv, fun key e due hstored => Nat.le_sub_of_add_le (hsets key e due hstored)⟩
  refine ⟨?_, ?_, ?_, ?_, ?_⟩
  · intro now
    exact ⟨_, nextTimerMs_eq hidle hinv now⟩
  · intro fd ready hsane
    exact handleReady_returns hdb (by decide)
      (fun c hconn => (hsettled fd c hconn).length_incoming) hsane
  · intro now
    obtain ⟨s', -, -, hresult, -⟩ := processTimers_reaps hidle hinv now
    exact ⟨s', hresult⟩
  · obtain ⟨db, htake, -⟩ := workerTake_spec hinv
    exact ⟨db, htake⟩
  · intro ent
    obtain ⟨db, hfinish, -⟩ := workerFinish_spec hinv ent
    exact ⟨db, hfinish⟩

theorem server_never_fails_get : ∃ loop, ClockedReachable (fun _ => ({}, 0)) 5 loop ∧
    loop.server.conn 0 ≠ none ∧ ∃ s' traffic,
      handleReady (fun _ => ({}, 0)) loop.server 0 getRequest =
        some (s', traffic) := by
  have hreach : ClockedReachable (fun _ => ({}, 0)) 5
      ⟨acceptPart { idleTimeoutMs := 30000 } (some (.accepted 0)) 5, some []⟩ :=
    ⟨30000, 0, .single (.poll .nil (some (.accepted 0)) (fun _ _ => rfl)
      (by decide))⟩
  have hsane : Sane (acceptPart { idleTimeoutMs := 30000 } (some (.accepted 0)) 5) 0
      getRequest := ⟨by decide, by rintro c count _ ⟨⟩⟩
  refine ⟨_, hreach, ?_, ?_⟩
  · rw [acceptPart, acceptNew_conn, Function.update_self]
    exact Option.some_ne_none _
  · exact (server_never_fails hreach (by rintro key e due ⟨⟩)).2.1 0 getRequest hsane

end MiniRedis.EventLoop
