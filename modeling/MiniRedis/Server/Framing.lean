import MiniRedis.Data.StreamSplit
import MiniRedis.Server.Connection

namespace MiniRedis.Server

open MiniRedis.Data MiniRedis.Ds MiniRedis.Store MiniRedis.Protocol

/-! The frames of a byte stream, and the requests a connection processes of
them. -/

variable {strtod : Bytes → Double × Nat} {db db' : Database}
  {clocks : Nat → Clock}

def frame (body : Bytes) : Bytes := writeU32 body.length ++ body

/-- The body of the frame at the front, if it is complete and not too large,
and the bytes after it. -/
def splitFrame (stream : Bytes) : Option (Bytes × Bytes) := do
  let len ← readU32 stream 0
  if len > maxMsg then
    none
  else do
    let body ← readBytes stream 4 len
    some (body, stream.drop (4 + len))

def oversized (stream : Bytes) : Bool :=
  (readU32 stream 0).any fun len => maxMsg < len

section Frame

variable {body : Bytes}

theorem readU32_frame (rest : Bytes) (hle : body.length ≤ maxMsg) :
    readU32 (frame body ++ rest) 0 = some body.length := by
  have hsmall : body.length < 2 ^ 32 := by
    unfold maxMsg at hle
    omega
  have hheader : (frame body ++ rest).drop 0 =
      writeU32 body.length ++ (body ++ rest) := by
    rw [List.drop_zero, frame, List.append_assoc]
  exact readU32_of_drop (Nat.zero_le _) hsmall hheader

theorem drop_header (body rest : Bytes) :
    (frame body ++ rest).drop 4 = body ++ rest := by
  rw [frame, List.append_assoc, List.drop_left' (length_writeU32 _)]

theorem readBytes_frame (body rest : Bytes) :
    readBytes (frame body ++ rest) 4 body.length = some body :=
  readBytes_of_drop (by simp [frame]) (drop_header body rest)

theorem drop_frame (body rest : Bytes) :
    (frame body ++ rest).drop (4 + body.length) = rest := by
  rw [← List.drop_drop, drop_header, List.drop_left]

theorem length_frame (body : Bytes) : (frame body).length = 4 + body.length := by
  rw [frame, List.length_append, length_writeU32]

end Frame

theorem splitFrame_eq_some {stream body rest : Bytes} :
    splitFrame stream = some (body, rest) ↔
      stream = frame body ++ rest ∧ body.length ≤ maxMsg := by
  constructor
  · intro h
    obtain ⟨len, hlen, h⟩ := Option.bind_eq_some_iff.mp h
    split at h
    next => cases h
    next hle =>
      obtain ⟨chunk, hread, h⟩ := Option.bind_eq_some_iff.mp h
      cases h
      have hbound : 4 + len ≤ stream.length := by
        by_contra hshort
        rw [readBytes, if_neg hshort] at hread
        cases hread
      obtain ⟨value, hvalue, _, hheader⟩ := readU32_of_le stream 0 (by omega)
      obtain ⟨_, hbody, hlength, hdrop⟩ := readBytes_of_le stream 4 len hbound
      rw [hlen] at hvalue
      rw [hread] at hbody
      cases hvalue
      cases hbody
      refine ⟨?_, by omega⟩
      calc
        stream = writeU32 len ++ stream.drop 4 := hheader
        _ = frame body ++ stream.drop (4 + len) := by
          rw [hdrop, frame, hlength, List.append_assoc]
  · rintro ⟨rfl, hle⟩
    simp only [splitFrame, readU32_frame rest hle, readBytes_frame,
      Option.bind_eq_bind, Option.bind_some, if_neg (not_lt.mpr hle), drop_frame]

def frameSplitter : Splitter UInt8 Bytes where
  split := splitFrame
  shrinks := by
    intro stream rest body h
    obtain ⟨rfl, _⟩ := splitFrame_eq_some.mp h
    rw [List.length_append, length_frame]
    omega
  stable := by
    intro stream rest body later h
    obtain ⟨rfl, hle⟩ := splitFrame_eq_some.mp h
    exact splitFrame_eq_some.mpr ⟨List.append_assoc _ _ _, hle⟩

/-- The bodies of the complete frames at the front of a stream, up to the first
incomplete frame or oversized header, and the bytes from there on. -/
def frames (stream : Bytes) : List Bytes × Bytes := frameSplitter.items stream

theorem frames_of_none {stream : Bytes} (h : splitFrame stream = none) :
    frames stream = ([], stream) :=
  Splitter.items_of_none h

theorem frames_of_some {stream body rest : Bytes}
    (h : splitFrame stream = some (body, rest)) :
    frames stream = (body :: (frames rest).1, (frames rest).2) :=
  Splitter.items_of_some h

theorem splitFrame_frames (stream : Bytes) :
    splitFrame (frames stream).2 = none :=
  frameSplitter.split_items stream

theorem frames_append (stream later : Bytes) :
    frames (stream ++ later) =
      ((frames stream).1 ++ (frames ((frames stream).2 ++ later)).1,
        (frames ((frames stream).2 ++ later)).2) :=
  frameSplitter.items_append stream later

theorem frames_join (stream : Bytes) :
    (frames stream).1.flatMap frame ++ (frames stream).2 = stream := by
  induction stream using Splitter.items.induct frameSplitter with
  | case1 stream hsplit => rw [frames_of_none hsplit, List.flatMap_nil]; rfl
  | case2 stream body rest hsplit ih =>
      rw [frames_of_some hsplit, List.flatMap_cons, List.append_assoc, ih]
      exact (splitFrame_eq_some.mp hsplit).1.symm

theorem frames_flatMap {bodies : List Bytes} {rest : Bytes}
    (hbodies : ∀ body ∈ bodies, body.length ≤ maxMsg)
    (hrest : splitFrame rest = none) :
    frames (bodies.flatMap frame ++ rest) = (bodies, rest) := by
  induction bodies with
  | nil => exact frames_of_none hrest
  | cons body bodies ih =>
      obtain ⟨hbody, hbodies⟩ := List.forall_mem_cons.mp hbodies
      have hsplit : splitFrame ((body :: bodies).flatMap frame ++ rest) =
          some (body, bodies.flatMap frame ++ rest) := by
        rw [List.flatMap_cons, List.append_assoc]
        exact splitFrame_eq_some.mpr ⟨rfl, hbody⟩
      rw [frames_of_some hsplit, ih hbodies]

theorem splitFrame_eq_none {stream : Bytes} (h : splitFrame stream = none) :
    stream.length < 4 ∨ ∃ len, ¬ stream.length < 4 ∧
      readU32 stream 0 = some len ∧
      (maxMsg < len ∨ ¬ maxMsg < len ∧ stream.length < 4 + len) := by
  by_cases hheader : stream.length < 4
  · exact .inl hheader
  · obtain ⟨len, hlen, _⟩ := readU32_of_le stream 0 (by omega)
    refine .inr ⟨len, hheader, hlen, ?_⟩
    by_cases hlarge : maxMsg < len
    · exact .inl hlarge
    · refine .inr ⟨hlarge, ?_⟩
      by_contra hcomplete
      obtain ⟨body, hbody, _⟩ := readBytes_of_le stream 4 len (by omega)
      simp [splitFrame, hlen, hbody, hlarge] at h

theorem readU32_short {stream : Bytes} (h : stream.length < 4) :
    readU32 stream 0 = none := by
  rw [readU32, readBytes, if_neg (by omega), Option.map_none]

section Requests

variable {c : Conn} (clock : Clock)

theorem tryOneRequest_of_some {body rest : Bytes}
    (h : splitFrame c.incoming = some (body, rest)) :
    tryOneRequest strtod c db clock =
      (respond strtod body db clock).map fun result =>
        ({ c with
            outgoing := c.outgoing ++ frame result.2
            incoming := rest }, result.1,
          some ⟨body, clock, result.2⟩) := by
  obtain ⟨hincoming, hle⟩ := splitFrame_eq_some.mp h
  have hlength := congrArg List.length hincoming
  rw [List.length_append, length_frame] at hlength
  rw [tryOneRequest, if_neg (by omega), hincoming]
  simp only [readU32_frame rest hle, readBytes_frame, drop_frame,
    Option.bind_eq_bind, Option.bind_some, if_neg (not_lt.mpr hle)]
  rw [if_neg (by rw [List.length_append, length_frame]; omega)]
  cases respond strtod body db clock with
  | none => rfl
  | some result => simp [frame]

theorem tryOneRequest_of_none (h : splitFrame c.incoming = none) :
    tryOneRequest strtod c db clock =
      some ({ c with wantClose := c.wantClose || oversized c.incoming }, db,
        none) := by
  rcases splitFrame_eq_none h with hshort | ⟨len, hheader, hlen, hcases⟩
  · rw [tryOneRequest, if_pos hshort, oversized, readU32_short hshort,
      Option.any_none, Bool.or_false]
  · rw [tryOneRequest, if_neg hheader, oversized, hlen]
    rcases hcases with hlarge | ⟨hsmall, hpart⟩
    · simp [hlarge]
    · simp [hsmall, hpart]

end Requests

theorem respond_cases (body : Bytes) (db : Database) (clock : Clock) :
    (∃ cmd, parseReq body [] = some (0, cmd) ∧
      respond strtod body db clock = doRequest strtod cmd db [] clock) ∨
    ((∀ cmd, parseReq body [] ≠ some (0, cmd)) ∧
      respond strtod body db clock = some (db, badRequest)) := by
  rcases parseReq_cases body with ⟨cmd, hparse, _⟩ | ⟨cmd, hparse⟩
  · exact .inl ⟨cmd, hparse, by simp [respond, hparse]⟩
  · refine .inr ⟨?_, by simp [respond, hparse]⟩
    intro other haccept
    rw [hparse] at haccept
    cases haccept

theorem respond_encodeReq {cmd : List Bytes} {clock : Clock} (h : Encodable cmd) :
    respond strtod (encodeReq cmd) db clock = doRequest strtod cmd db [] clock := by
  simp [respond, parseReq_encodeReq h]

def serve (strtod : Bytes → Double × Nat) (clocks : Nat → Clock) :
    List Bytes → Nat → Database → Option (Database × List Exchange)
  | [], _, db => some (db, [])
  | body :: bodies, i, db => do
      let (db, resp) ← respond strtod body db (clocks i)
      let (db, exchanges) ← serve strtod clocks bodies (i + 1) db
      some (db, ⟨body, clocks i, resp⟩ :: exchanges)

def Exchange.reply (exchange : Exchange) : Bytes := frame exchange.resp

/-- The loop answers all complete frames, and sees the header after them. -/
theorem drainRequests_eq : ∀ (fuel i : Nat) (c : Conn) (db : Database),
    c.incoming.length < fuel →
    drainRequests strtod clocks fuel i c db =
      (serve strtod clocks (frames c.incoming).1 i db).map fun result =>
        ({ c with
            incoming := (frames c.incoming).2
            outgoing := c.outgoing ++ result.2.flatMap Exchange.reply
            wantClose := c.wantClose || oversized (frames c.incoming).2 },
          result.1, result.2) := by
  intro fuel
  induction fuel with
  | zero =>
      intro i c db hfuel
      exact absurd hfuel (Nat.not_lt_zero _)
  | succ fuel ih =>
      intro i c db hfuel
      cases hsplit : splitFrame c.incoming with
      | none =>
          simp [drainRequests, tryOneRequest_of_none (clocks i) hsplit,
            frames_of_none hsplit, serve]
      | some result =>
          obtain ⟨body, rest⟩ := result
          have hshorter := frameSplitter.shrinks hsplit
          rw [drainRequests, tryOneRequest_of_some (clocks i) hsplit,
            frames_of_some hsplit, serve]
          cases hrespond : respond strtod body db (clocks i) with
          | none => simp
          | some answered =>
              simp only [Option.map_some, Option.bind_eq_bind,
                Option.bind_some]
              rw [ih (i + 1) _ answered.1 (by simp only; omega)]
              cases serve strtod clocks (frames rest).1 (i + 1) answered.1 with
              | none => rfl
              | some result =>
                  simp [Exchange.reply, List.append_assoc]

theorem serve_bodies {bodies : List Bytes} {i : Nat}
    {exchanges : List Exchange}
    (h : serve strtod clocks bodies i db = some (db', exchanges)) :
    exchanges.map Exchange.body = bodies := by
  induction bodies generalizing i db exchanges with
  | nil =>
      cases h
      rfl
  | cons body bodies ih =>
      obtain ⟨_, _, h⟩ := Option.bind_eq_some_iff.mp h
      obtain ⟨_, hserve, h⟩ := Option.bind_eq_some_iff.mp h
      cases h
      rw [List.map_cons, ih hserve]

theorem serve_eq_none {bodies : List Bytes} {i : Nat}
    (h : serve strtod clocks bodies i db = none) :
    ∃ body ∈ bodies, ∃ db clock, respond strtod body db clock = none := by
  induction bodies generalizing i db with
  | nil => cases h
  | cons body bodies ih =>
      cases hrespond : respond strtod body db (clocks i) with
      | none => exact ⟨body, List.mem_cons_self, db, clocks i, hrespond⟩
      | some answered =>
          rw [serve, hrespond, Option.bind_eq_bind, Option.bind_some,
            Option.bind_eq_bind, Option.bind_eq_none_iff] at h
          cases hserve : serve strtod clocks bodies (i + 1) answered.1 with
          | none =>
              obtain ⟨later, hmem, hnone⟩ := ih hserve
              exact ⟨later, List.mem_cons_of_mem body hmem, hnone⟩
          | some result => cases h result hserve

def Conn.afterRead (c : Conn) (chunk : Bytes) (exchanges : List Exchange) :
    Conn :=
  let (_, rest) := frames (c.incoming ++ chunk)
  let outgoing := c.outgoing ++ exchanges.flatMap Exchange.reply
  { c with
    incoming := rest
    outgoing := outgoing
    wantRead := c.wantRead && outgoing.isEmpty
    wantWrite := c.wantWrite || !outgoing.isEmpty
    wantClose := c.wantClose || oversized rest }

/-- A read closes the connection or leaves it as it is, or it answers the
frames that are now complete. -/
theorem handleRead_eq (c : Conn) (db : Database) (input : ReadResult) :
    (input.chunk = [] ∧ ∃ close, handleRead strtod c db input clocks =
      some ({ c with wantClose := c.wantClose || close }, db, [])) ∨
    handleRead strtod c db input clocks =
      (serve strtod clocks (frames (c.incoming ++ input.chunk)).1 0 db).map
        fun result =>
          (c.afterRead input.chunk result.2, result.1, result.2) := by
  match input with
  | .again => exact .inl ⟨rfl, false, by simp [handleRead]⟩
  | .failed => exact .inl ⟨rfl, true, by simp [handleRead]⟩
  | .bytes [] => exact .inl ⟨rfl, true, by simp [handleRead]⟩
  | .bytes (byte :: chunk) =>
      refine .inr ?_
      rw [handleRead, drainRequests_eq _ _ _ _ (Nat.lt_succ_self _)]
      · simp only [ReadResult.chunk]
        cases serve strtod clocks (frames (c.incoming ++ byte :: chunk)).1 0
            db with
        | none => rfl
        | some result =>
            simp only [Option.map_some, Option.bind_eq_bind, Option.bind_some,
              Conn.afterRead]
            split
            next hsome => simp [hsome]
            next hnone => simp [not_not.mp hnone]
      · exact fun h => by cases h

theorem frames_frame {body : Bytes} (h : body.length ≤ maxMsg) :
    frames (frame body) = ([body], []) := by
  have hframes : frames ([body].flatMap frame ++ []) = ([body], []) :=
    frames_flatMap (by simpa using h) rfl
  simpa using hframes

theorem handleRead_frame {c : Conn} {body resp : Bytes} (hincoming : c.incoming = [])
    (hbody : body.length ≤ maxMsg)
    (hrespond : respond strtod body db (clocks 0) = some (db', resp)) :
    handleRead strtod c db (.bytes (frame body)) clocks =
      some (c.afterRead (frame body) [⟨body, clocks 0, resp⟩], db',
        [⟨body, clocks 0, resp⟩]) := by
  have hserve : serve strtod clocks [body] 0 db =
      some (db', [⟨body, clocks 0, resp⟩]) := by
    simp [serve, hrespond]
  rcases handleRead_eq c db (.bytes (frame body)) with ⟨hnil, -⟩ | heq
  · have hlength := congrArg List.length hnil
    rw [ReadResult.chunk, length_frame, List.length_nil] at hlength
    omega
  · rw [heq, ReadResult.chunk, hincoming, List.nil_append, frames_frame hbody, hserve]
    rfl
theorem handleRead_eq_none {c : Conn} {input : ReadResult}
    (h : handleRead strtod c db input clocks = none) :
    ∃ body ∈ (frames (c.incoming ++ input.chunk)).1, ∃ db clock,
      respond strtod body db clock = none := by
  rcases handleRead_eq c db input with ⟨_, _, heq⟩ | heq
  · rw [heq] at h
    cases h
  · rw [heq, Option.map_eq_none_iff] at h
    exact serve_eq_none h

def Conn.afterWrite (c : Conn) (rest : Bytes) : Conn :=
  { c with
    outgoing := rest
    wantRead := c.wantRead || rest.isEmpty
    wantWrite := c.wantWrite && !rest.isEmpty }

/-- A write closes the connection if it fails or leaves it as it is, or it sends
the front of what is outgoing. -/
theorem handleWrite_cases {c c' : Conn} {input : WriteResult} {sent : Bytes}
    (h : handleWrite c input = some (c', sent)) :
    (sent = [] ∧ ∃ close, (close = true → input = .failed) ∧
      c' = { c with wantClose := c.wantClose || close }) ∨
    ∃ rest, c.outgoing ≠ [] ∧ sent ++ rest = c.outgoing ∧
      c' = c.afterWrite rest := by
  unfold handleWrite at h
  split at h
  next =>
    cases h
    exact .inl ⟨rfl, false, by simp, by simp⟩
  next hsome =>
    cases input with
    | again =>
        cases h
        exact .inl ⟨rfl, false, by simp, by simp⟩
    | failed =>
        cases h
        exact .inl ⟨rfl, true, fun _ => rfl, by simp⟩
    | wrote count =>
        simp only at h
        split at h
        next =>
          refine .inr ⟨c.outgoing.drop count, hsome, ?_⟩
          split at h
          next hall =>
            cases h
            exact ⟨List.take_append_drop _ _, by simp [Conn.afterWrite, hall]⟩
          next hrest =>
            cases h
            exact ⟨List.take_append_drop _ _, by simp [Conn.afterWrite, hrest]⟩
        next => cases h

end MiniRedis.Server
