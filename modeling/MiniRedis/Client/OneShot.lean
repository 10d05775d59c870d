import MiniRedis.Client.Session

namespace MiniRedis.Client

open MiniRedis.Data MiniRedis.Ds MiniRedis.Store MiniRedis.Protocol
open MiniRedis.Server MiniRedis.EventLoop

/-! A command on the command line. -/

variable {strtod : Bytes → Double × Nat} {fd : Nat} {w : World} {ready : Ready}
  {showDouble : Double → Bytes} {args : List Bytes}

theorem oneShot_safe {loop : Loop} {trace : List Event}
    (hrun : LoopRun strtod loop trace) :
    (oneShot showDouble args).Safe (setting strtod fd)
      (fun _ w => w.session.exchanges.map Exchange.body <+: [encodeReq args])
      (fun code w => ∃ rc, (code = if rc = 0 then 0 else 1) ∧
        Sent strtod fd showDouble [] [] args [] rc w) (start loop trace) := by
  have hguard : Guards strtod fd
      (fun _ w => w.session.exchanges.map Exchange.body <+: [encodeReq args])
      [] [] args [] := by
    intro request w asked hasked hpending _ _
    exact hpending.served.2.1.trans hasked
  apply (sendCommand_safe hguard (start_rested hrun)).bind
  intro rc w hsent
  apply Program.Safe.call (Sent.stable rc) ?_ ?_ hsent
  · rintro w (⟨-, resp, hrested⟩ | ⟨-, asked, hasked, hpending⟩)
    · exact hrested.pending.served.2.1
    · exact hpending.served.2.1.trans hasked
  · intro w answer after hw heffect
    cases heffect
    refine .done ?_ ⟨rc, rfl, hw⟩
    rintro w w' hstep ⟨rc, hcode, hw⟩
    exact ⟨rc, hcode, Sent.stable rc hstep hw⟩

/-! Calls that are answered at once. -/

theorem writeAll_run {buffer : Bytes} (hbuffer : buffer ≠ []) :
    Relation.ReflTransGen (Program.Step (setting strtod fd))
      (writeAll buffer, w)
      (.done 0, { w with toServer := w.toServer ++ buffer }) := by
  have hnone : writeAll [] = .done 0 := by rw [writeAll, dif_pos rfl]
  have heffect := Effect.wrote w buffer (Fin.last buffer.length)
  rw [Fin.val_last, List.take_length] at heffect
  rw [writeAll, dif_neg hbuffer]
  refine .single (Program.Step.answered heffect ?_)
  dsimp only
  rw [dif_neg (by simpa using hbuffer), Fin.val_last, List.drop_length, hnone]

theorem sendCommand_run {args : List Bytes}
    (hfit : (encodeReq args).length ≤ maxMsg) :
    Relation.ReflTransGen (Program.Step (setting strtod fd))
      (sendCommand showDouble args, w)
      (readReply showDouble,
        { w with toServer := w.toServer ++ frame (encodeReq args) }) := by
  have hheader : writeU32 (encodeReq args).length ≠ [] :=
    List.length_pos_iff.mp (by rw [length_writeU32]; decide)
  have hbody : encodeReq args ≠ [] :=
    List.length_pos_iff.mp (by rw [length_encodeReq]; omega)
  rw [frame, ← List.append_assoc, sendCommand, if_neg (not_lt.mpr hfit)]
  exact (Program.Step.run_bind (writeAll_run hheader)).trans
    (Program.Step.run_bind (writeAll_run hbody))

theorem readFull_run {count : Nat} {chunk rest : Bytes} (hcount : count ≠ 0)
    (hchunk : chunk.length = count) (hclient : w.toClient = chunk ++ rest) :
    Relation.ReflTransGen (Program.Step (setting strtod fd)) (readFull count, w)
      (.done (0, chunk), { w with toClient := rest }) := by
  have hnone : readFull 0 = .done (0, []) := by rw [readFull, dif_pos rfl]
  rw [readFull, dif_neg hcount]
  refine .single (Program.Step.answered
    (.read w ⟨chunk, Nat.le_of_eq hchunk⟩ hclient) ?_)
  dsimp only
  rw [dif_neg (by omega), hchunk, Nat.sub_self, hnone, Program.bind, List.append_nil]

theorem readReply_run {resp : Bytes} (hresp : resp ≠ [])
    (hsmall : resp.length ≤ maxMsg) (hclient : w.toClient = frame resp) :
    Relation.ReflTransGen (Program.Step (setting strtod fd))
      (readReply showDouble, w)
      (.done 0, { w with
        toClient := []
        stdout := w.stdout ++ replyText showDouble resp }) := by
  have hlength : leValue (writeU32 resp.length) = resp.length :=
    leValue_leBytes_of_lt (Nat.lt_of_le_of_lt hsmall (by decide))
  have hpos := List.length_pos_iff.mpr hresp
  obtain ⟨ret, hprint⟩ := printValue_replyText showDouble hsmall
  have hheader := @readFull_run strtod fd w 4 (writeU32 resp.length) resp (by decide)
    (length_writeU32 _) hclient
  have hbody := @readFull_run strtod fd { w with toClient := resp } resp.length resp []
    (Nat.ne_of_gt hpos) rfl (List.append_nil _).symm
  refine (Program.Step.run_bind hheader).trans ?_
  dsimp only [Program.bind]
  rw [if_neg (by simp), hlength, if_neg (by omega)]
  refine (Program.Step.run_bind hbody).trans ?_
  dsimp only [Program.bind]
  rw [if_neg (by simp), hprint]
  exact .single (Program.Step.answered (.print _ _) rfl)

structure Stage (w : World) (loop : Loop) (phase : Phase)
    (toServer toClient : Bytes) (replies : List Bytes) : Prop where
  loop : w.loop = loop
  phase : w.phase = phase
  toServer : w.toServer = toServer
  toClient : w.toClient = toClient
  replies : w.replies = replies

section Stage

variable {loop loop' : Loop} {events : List Event} {toServer toClient : Bytes}
  {replies : List Bytes}

theorem Stage.served {rest : Bytes} {phase : Phase} (traffic : Traffic)
    (h : Stage w loop .opened (traffic.received ++ rest) toClient replies)
    (step : LoopEmits strtod loop events loop') (htraffic : session fd events = traffic)
    (hphase : (if (loop'.server.conn fd).isSome then .opened else .closed) = phase) :
    ∃ w', Serves strtod fd w w' ∧ w'.stdout = w.stdout ∧
      Stage w' loop' phase rest (toClient ++ traffic.sent)
        (replies ++ traffic.exchanges.map Exchange.resp) := by
  obtain ⟨rfl, hopened, hserver, rfl, rfl⟩ := h
  subst htraffic hphase
  exact ⟨_, .served step hopened hserver, rfl, rfl, rfl, rfl, rfl, List.map_append⟩

theorem Stage.quiet (fd : Nat) (h : Stage w loop .opened toServer toClient replies)
    (step : LoopEmits strtod loop events loop') (hquiet : session fd events = {})
    (hconn : (loop'.server.conn fd).isSome) :
    ∃ w', Serves strtod fd w w' ∧ w'.stdout = w.stdout ∧
      Stage w' loop' .opened toServer toClient replies := by
  obtain ⟨w', hserves, hout, hstage⟩ := Stage.served {} h step hquiet (if_pos hconn)
  rw [List.append_nil, List.map_nil, List.append_nil] at hstage
  exact ⟨w', hserves, hout, hstage⟩

end Stage

def sendReply : Ready where
  revents := { pollOut := true, pollHup := true }
  now := 0
  read := .again
  write := .wrote 5
  clocks := fun _ => ⟨0, 0⟩

theorem sendReply_handled : ∃ answered asked polled closed sent,
    handleReady (fun _ => ({}, 0)) oneClient 0 getRequest = some (answered, asked) ∧
    processTimers answered 0 = some polled ∧
    handleReady (fun _ => ({}, 0)) polled 0 sendReply = some (closed, sent) ∧
    (asked.received = getFrame ∧ asked.exchanges.map Exchange.resp = [[serNil]] ∧
      asked.sent = []) ∧
    (sent.received = [] ∧ sent.exchanges = [] ∧ sent.sent = frame [serNil]) ∧
    (∃ arg, pollArgs polled = [arg] ∧ arg.fd = 0 ∧ arg.pollOut = true) ∧
    ((answered.conn 0).isSome ∧ (polled.conn 0).isSome) ∧
    closed.conns = [none] ∧ processTimers closed 0 = some closed := by
  have heval : ((handleReady (fun _ => ({}, 0)) oneClient 0 getRequest).bind
      fun asked => (processTimers asked.1 0).bind fun polled =>
        (handleReady (fun _ => ({}, 0)) polled 0 sendReply).map fun sent =>
          ([asked.2.received, asked.2.sent, sent.2.received, sent.2.sent] ++
              asked.2.exchanges.map Exchange.resp,
            [(pollArgs polled).map PollFd.fd,
              [sent.2.exchanges.length, sent.1.db.ttl.items.length]],
            [(pollArgs polled).map PollFd.pollOut, sent.1.conns.map Option.isSome,
              [(asked.1.conn 0).isSome, (polled.conn 0).isSome,
                dlistEmpty sent.1.idle none]])) =
      some ([getFrame, [], [], frame [serNil], [serNil]], [[0], [0, 0]],
        [[true], [false], [true, true, true]]) := by
    decide +kernel
  obtain ⟨⟨answered, asked⟩, hasked, heval⟩ := Option.bind_eq_some_iff.mp heval
  obtain ⟨polled, htimers, heval⟩ := Option.bind_eq_some_iff.mp heval
  obtain ⟨⟨closed, sent⟩, hsent, heval⟩ := Option.map_eq_some_iff.mp heval
  simp only [Prod.mk.injEq, List.cons_append, List.nil_append, List.cons.injEq,
    and_true] at heval
  obtain ⟨⟨hreceived, hnone, hquiet, hbytes, hresp⟩, ⟨hfds, hexchanges, hkeys⟩, houts,
    hconns, hanswered, hpolled, hidle⟩ := heval
  refine ⟨answered, asked, polled, closed, sent, hasked, htimers, hsent,
    ⟨hreceived, hresp, hnone⟩,
    ⟨hquiet, List.eq_nil_of_length_eq_zero hexchanges, hbytes⟩, ?_,
    ⟨hanswered, hpolled⟩, ?_, ?_⟩
  · obtain ⟨arg, hone, hfd⟩ := List.map_eq_singleton_iff.mp hfds
    rw [hone] at houts
    exact ⟨arg, hone, hfd, (List.cons.inj houts).1⟩
  · obtain ⟨up, hone, hup⟩ := List.map_eq_singleton_iff.mp hconns
    cases up with
    | none => exact hone
    | some c => cases hup
  · have hkeys : reapKeys 0 closed.db = some closed.db := by
      rw [reapKeys, kMaxWorks, reapLoop, List.eq_nil_of_length_eq_zero hkeys]
      rfl
    simp [processTimers, reapIdle_succ, idleDue, hidle, hkeys]

theorem getRequest_served
    (h : Stage w ⟨{ idleTimeoutMs := 30000 }, none⟩ .waiting getFrame [] []) :
    ∃ w' s, Relation.ReflTransGen (Serves (fun _ => ({}, 0)) 0) w w' ∧
      w'.stdout = w.stdout ∧
      Stage w' ⟨s, some []⟩ .closed [] (frame [serNil]) [[serNil]] ∧
      s.conns = [none] ∧ processTimers s 0 = some s := by
  obtain ⟨answered, asked, polled, closed, sent, hasked, htimers, hsent,
    ⟨hreceived, hresp, hnone⟩, ⟨hquiet, hexchanges, hbytes⟩, ⟨arg, hargs, hfd, hout⟩,
    ⟨hanswered, hpolled⟩, hconns, hidle⟩ := sendReply_handled
  have hhandled : ∀ traffic, session 0 [.handled 0 traffic] = traffic := fun traffic => by
    simp [session, observe, Traffic.append]
  have haccept : LoopEmits (fun _ => ({}, 0)) w.loop [.accepted 0]
      ⟨oneClient, some []⟩ := by
    rw [h.loop]
    exact oneClient_accepted.emits
  obtain ⟨first, hfirst, hout0, hstage⟩ : ∃ first, Serves (fun _ => ({}, 0)) 0 w first ∧
      first.stdout = w.stdout ∧
      Stage first ⟨oneClient, some []⟩ .opened getFrame [] [] :=
    ⟨_, .accepted haccept h.phase, rfl, rfl, rfl, h.toServer, h.toClient, h.replies⟩
  -- the round in which the connection was accepted ends, and the request is read
  obtain ⟨w1, hstep1, hout1, hstage⟩ :=
    hstage.quiet 0 (LoopStep.timers oneClient_timers).emits rfl rfl
  obtain ⟨w2, hstep2, hout2, hstage⟩ := hstage.quiet 0
    (LoopStep.poll_single oneClient_pollArgs getRequest_polled).emits rfl rfl
  rw [← hreceived, ← List.append_nil asked.received] at hstage
  obtain ⟨w3, hstep3, hout3, hstage⟩ := hstage.served asked (LoopStep.handle hasked).emits
    (hhandled asked) (if_pos hanswered)
  -- then the reply is written
  obtain ⟨w4, hstep4, hout4, hstage⟩ :=
    hstage.quiet 0 (LoopStep.timers htimers).emits rfl hpolled
  obtain ⟨w5, hstep5, hout5, hstage⟩ := hstage.quiet 0
    (LoopStep.poll_single hargs (⟨by rintro ⟨⟩, fun _ => hout, by decide⟩ :
      Polled _ sendReply)).emits rfl hpolled
  have hwrite : Stage w5 ⟨polled, some [(0, sendReply)]⟩ .opened (sent.received ++ [])
      [] [[serNil]] := by
    rw [hnone, hfd, hresp] at hstage
    rw [hquiet]
    exact hstage
  have hgone : closed.conn 0 = none := by simp [Server.conn, hconns]
  obtain ⟨w6, hstep6, hout6, hstage⟩ := hwrite.served sent (LoopStep.handle hsent).emits
    (hhandled sent) (if_neg (by simp [hgone]))
  rw [hbytes, hexchanges] at hstage
  refine ⟨w6, closed, ?_, ?_, hstage, hconns, hidle⟩
  · exact .head hfirst (.head hstep1 (.head hstep2 (.head hstep3 (.head hstep4
      (.head hstep5 (.single hstep6))))))
  · rw [hout6, hout5, hout4, hout3, hout2, hout1, hout0]

/-- A command for a key that is not there, beside a server without other clients. -/
theorem sendCommand_get
    (h : Stage w ⟨{ idleTimeoutMs := 30000 }, none⟩ .waiting [] [] []) :
    ∃ w' s, Relation.ReflTransGen (Program.Step (setting (fun _ => ({}, 0)) 0))
        (sendCommand showDouble [ascii "GET", ascii "a"], w) (.done 0, w') ∧
      w'.stdout = w.stdout ++ replyText showDouble [serNil] ∧
      Stage w' ⟨s, some []⟩ .closed [] [] [[serNil]] ∧
      s.conns = [none] ∧ processTimers s 0 = some s := by
  have hfit : (encodeReq [ascii "GET", ascii "a"]).length ≤ maxMsg := by decide
  obtain ⟨hloop, hphase, hserver, hclient, hreplies⟩ := h
  have hsent : w.toServer ++ getFrame = getFrame := by rw [hserver, List.nil_append]
  obtain ⟨after, s, hserves, hout, hstage, hconns, hidle⟩ := @getRequest_served
    { w with toServer := w.toServer ++ getFrame }
    ⟨hloop, hphase, hsent, hclient, hreplies⟩
  have hread := @readReply_run (fun _ => ({}, 0)) 0 after showDouble [serNil] (by simp)
    (by decide) hstage.toClient
  refine ⟨_, s, (sendCommand_run hfit).trans
    ((hserves.lift (fun w => (_, w)) fun _ _ hstep => .others hstep).trans hread), ?_,
    ⟨hstage.loop, hstage.phase, hstage.toServer, rfl, hstage.replies⟩, hconns, hidle⟩
  rw [hout]

/-- A command given on the command line is executed at most once, also if the
client fails. The client exits with 0 exactly if it has printed the whole reply
to it, and prints nothing otherwise, if no reply is too long for its header. -/
theorem oneShot_exit {loop : Loop} {trace : List Event}
    {program : Program Answer Int} (hrun : LoopRun strtod loop trace)
    (hreach : Relation.ReflTransGen (Program.Step (setting strtod fd))
      (oneShot showDouble args, start loop trace) (program, w))
    (hsmall : w.Small) :
    w.session.exchanges.map Exchange.body <+: [encodeReq args] ∧
    ∀ code, program = .done code →
      (code = 0 ∧ w.session.exchanges.map Exchange.body = [encodeReq args] ∧
        ∃ resp, w.replies = [resp] ∧ w.stdout = replyText showDouble resp) ∨
      (code = 1 ∧ w.stdout = []) := by
  have hsafe := (oneShot_safe hrun).run hreach
  cases program with
  | call request next => exact ⟨hsafe.waits, by rintro code ⟨⟩⟩
  | done code =>
      obtain ⟨rc, hcode, hsent⟩ := hsafe.ends
      rcases hsent with ⟨hrc, resp, hrested⟩ | ⟨hrc, asked, hasked, hpending⟩
      · obtain ⟨-, hbodies, hreplies, hstdout⟩ := hrested.pending.served
        refine ⟨hbodies, ?_⟩
        rintro _ ⟨⟩
        have hcount := hbodies.length_le
        have hreplies := hreplies hsmall
        have hleast := hreplies.length_le
        rw [List.length_map] at hcount
        rw [World.replies, List.length_map] at hleast
        refine .inl ⟨by rw [hcode, if_pos hrc], ?_, resp, ?_, hstdout⟩
        · apply hbodies.eq_of_length
          rw [List.length_map]
          exact Nat.le_antisymm hcount hleast
        · refine (hreplies.eq_of_length ?_).symm
          rw [World.replies, List.length_map]
          exact Nat.le_antisymm hleast hcount
      · obtain ⟨-, hbodies, -, hstdout⟩ := hpending.served
        refine ⟨hbodies.trans hasked, ?_⟩
        rintro _ ⟨⟩
        exact .inr ⟨by rw [hcode, if_neg hrc], hstdout⟩

theorem oneShot_exit_get : ∃ w : World,
    Relation.ReflTransGen (Program.Step (setting (fun _ => ({}, 0)) 0))
      (oneShot (fun _ => []) [ascii "GET", ascii "a"],
        start ⟨{ idleTimeoutMs := 30000 }, none⟩ []) (.done 0, w) ∧
    w.session.exchanges.map Exchange.body = [encodeReq [ascii "GET", ascii "a"]] ∧
    ∃ resp, w.replies = [resp] ∧ w.stdout = replyText (fun _ => []) resp := by
  have hrun : LoopRun (fun _ => ({}, 0)) ⟨{ idleTimeoutMs := 30000 }, none⟩ [] :=
    .start 30000
  obtain ⟨w, s, hsent, -, hstage, -⟩ := @sendCommand_get
    (start ⟨{ idleTimeoutMs := 30000 }, none⟩ []) (fun _ => []) ⟨rfl, rfl, rfl, rfl, rfl⟩
  have hreach : Relation.ReflTransGen (Program.Step (setting (fun _ => ({}, 0)) 0))
      (oneShot (fun _ => []) [ascii "GET", ascii "a"],
        start ⟨{ idleTimeoutMs := 30000 }, none⟩ []) (.done 0, w) :=
    (Program.Step.run_bind hsent).tail (Program.Step.answered (.close w) rfl)
  have hsmall : w.Small := by
    rw [World.Small, hstage.replies]
    decide
  rcases (oneShot_exit hrun hreach hsmall).2 0 rfl with
    ⟨-, hexecuted, hshown⟩ | ⟨hcode, -⟩
  · exact ⟨w, hreach, hexecuted, hshown⟩
  · cases hcode

end MiniRedis.Client
