import MiniRedis.Client.Lines
import MiniRedis.Client.OneShot

namespace MiniRedis.Client

open MiniRedis.Data MiniRedis.Ds MiniRedis.Store MiniRedis.Protocol
open MiniRedis.Server MiniRedis.EventLoop

/-! What a user of the interactive client sees. -/

variable {strtod : Bytes → Double × Nat} {fd : Nat} {w : World}
  {showDouble : Double → Bytes}

def commands : List Bytes → List (List Bytes)
  | [] => []
  | line :: lines =>
      if line = ascii "exit" then []
      else if split line = [] then commands lines
      else split line :: commands lines

/-- What is shown for the lines of the input if their commands get these replies,
up to the first one without a reply. -/
def screen (showDouble : Double → Bytes) : List Bytes → List Bytes → Bytes
  | [], _ => prompt
  | line :: lines, replies =>
      if line = ascii "exit" then prompt
      else if split line = [] then prompt ++ screen showDouble lines replies
      else
        match replies with
        | [] => prompt
        | resp :: replies =>
            prompt ++ (replyText showDouble resp ++
              screen showDouble lines replies)

def Call.prints : Call → Bool
  | .print _ => true
  | _ => false

def printing : Program Answer Int → Bool
  | .call request _ => request.prints
  | .done _ => false

/-- The server has executed the commands of the first lines, at most one more
than were answered on the screen. -/
structure Seen (strtod : Bytes → Double × Nat) (fd : Nat)
    (showDouble : Double → Bytes) (lines asked replies : List Bytes)
    (out : Bytes) (w : World) : Prop where
  pending : Pending strtod fd asked replies out w
  asks : asked <+: (commands lines).map encodeReq
  count : asked.length ≤ replies.length + 1
  shows : out <+: greeting ++ screen showDouble lines replies

def Guarded (strtod : Bytes → Double × Nat) (fd : Nat)
    (showDouble : Double → Bytes) (lines : List Bytes) (request : Call)
    (w : World) : Prop :=
  request ≠ .undefined ∧ Progress fd request w ∧ ∃ asked replies out,
    Seen strtod fd showDouble lines asked replies out w ∧
    (request.prints = false → out = greeting ++ screen showDouble lines replies)

structure At (showDouble : Double → Bytes) (lines rest bodies replies : List Bytes)
    (out : Bytes) : Prop where
  left : (commands lines).map encodeReq = bodies ++ (commands rest).map encodeReq
  display : ∀ later, greeting ++ screen showDouble lines (replies ++ later) =
    out ++ screen showDouble rest later

section Lines

variable {lines rest bodies replies : List Bytes} {line out : Bytes}

theorem screen_exit (hline : line = ascii "exit") :
    screen showDouble (line :: rest) replies = prompt := by
  rw [screen.eq_def]
  simp only [if_pos hline]

theorem screen_blank (hline : line ≠ ascii "exit") (hargs : split line = []) :
    screen showDouble (line :: rest) replies =
      prompt ++ screen showDouble rest replies := by
  rw [screen.eq_def]
  simp only [if_neg hline, if_pos hargs]

theorem screen_command (hline : line ≠ ascii "exit") (hargs : split line ≠ []) :
    screen showDouble (line :: rest) [] = prompt ∧
      ∀ resp later, screen showDouble (line :: rest) (resp :: later) =
        prompt ++ (replyText showDouble resp ++ screen showDouble rest later) := by
  refine ⟨?_, ?_⟩
  · rw [screen.eq_def]
    simp only [if_neg hline, if_neg hargs]
  · intro resp later
    rw [screen.eq_def]
    simp only [if_neg hline, if_neg hargs]

theorem At.blank (h : At showDouble lines (line :: rest) bodies replies out)
    (hline : line ≠ ascii "exit") (hargs : split line = []) :
    At showDouble lines rest bodies replies (out ++ prompt) := by
  refine ⟨?_, ?_⟩
  · rw [h.left, commands, if_neg hline, if_pos hargs]
  · intro later
    rw [h.display, screen_blank hline hargs, List.append_assoc]

theorem At.command (h : At showDouble lines (line :: rest) bodies replies out)
    (hline : line ≠ ascii "exit") (hargs : split line ≠ []) (resp : Bytes) :
    At showDouble lines rest (bodies ++ [encodeReq (split line)])
      (replies ++ [resp]) (out ++ prompt ++ replyText showDouble resp) := by
  refine ⟨?_, ?_⟩
  · rw [h.left, commands, if_neg hline, if_neg hargs]
    simp
  · intro later
    rw [List.append_assoc, List.singleton_append, h.display,
      (screen_command hline hargs).2]
    simp only [List.append_assoc]

theorem At.prompted (h : At showDouble lines rest bodies replies out)
    (hrest : screen showDouble rest [] = prompt) :
    out ++ prompt = greeting ++ screen showDouble lines replies := by
  have hscreen := h.display []
  rw [List.append_nil, hrest] at hscreen
  exact hscreen.symm

theorem At.shows (h : At showDouble lines rest bodies replies out) :
    out <+: greeting ++ screen showDouble lines replies := by
  have hscreen := h.display []
  rw [List.append_nil] at hscreen
  rw [hscreen]
  exact List.prefix_append _ _

theorem At.seen (h : At showDouble lines rest bodies replies out) {shown : Bytes}
    (hw : Rested strtod fd bodies replies shown w)
    (hshown : shown <+: greeting ++ screen showDouble lines replies) :
    Seen strtod fd showDouble lines bodies replies shown w := by
  refine ⟨hw.pending, ?_, by rw [hw.length]; omega, hshown⟩
  rw [h.left]
  exact List.prefix_append _ _

theorem At.seen_command (h : At showDouble lines (line :: rest) bodies replies out)
    (hline : line ≠ ascii "exit") (hargs : split line ≠ [])
    (hlength : bodies.length = replies.length) {asked : List Bytes}
    (hasked : asked <+: bodies ++ [encodeReq (split line)])
    (hw : Pending strtod fd asked replies (out ++ prompt) w) :
    Seen strtod fd showDouble lines asked replies (out ++ prompt) w ∧
      out ++ prompt = greeting ++ screen showDouble lines replies := by
  have hprompted := h.prompted (screen_command hline hargs).1
  refine ⟨⟨hw, ?_, ?_, ?_⟩, hprompted⟩
  · rw [h.left, commands, if_neg hline, if_neg hargs, List.map_cons]
    refine hasked.trans ⟨(commands rest).map encodeReq, ?_⟩
    simp
  · have hle := hasked.length_le
    rw [List.length_append, List.length_singleton, hlength] at hle
    exact hle
  · rw [hprompted]

def Ended (strtod : Bytes → Double × Nat) (fd : Nat)
    (showDouble : Double → Bytes) (lines : List Bytes) (w : World) : Prop :=
  ∃ asked replies, Seen strtod fd showDouble lines asked replies
    (greeting ++ screen showDouble lines replies) w

theorem Ended.stable : Program.Stable (setting strtod fd)
    (Ended strtod fd showDouble lines) := by
  rintro w w' hstep ⟨asked, replies, h⟩
  exact ⟨asked, replies, Pending.stable hstep h.pending, h.asks, h.count, h.shows⟩

theorem prompt_safe {α : Type} {post : α → World → Prop}
    {next : Unit → Program Answer α}
    (hat : At showDouble lines rest bodies replies out)
    (hnext : ∀ w, Rested strtod fd bodies replies (out ++ prompt) w →
      (next ()).Safe (setting strtod fd) (Guarded strtod fd showDouble lines)
        post w)
    (h : Rested strtod fd bodies replies out w) :
    ((Program.ask (.print prompt)).bind next).Safe (setting strtod fd)
      (Guarded strtod fd showDouble lines) post w := by
  apply Program.Safe.call Rested.stable ?_ ?_ h
  · intro w hw
    exact ⟨by rintro ⟨⟩, .of_free fun _ => id, bodies, replies, out,
      hat.seen hw hat.shows,
      by rintro ⟨⟩⟩
  · intro w answer after hw heffect
    cases heffect
    exact hnext _ ⟨hw.fit, hw.small, hw.length, hw.talk.print prompt⟩

theorem repl_safe (hat : At showDouble lines rest bodies replies out)
    (h : Rested strtod fd bodies replies out w) :
    (repl showDouble rest).Safe (setting strtod fd)
      (Guarded strtod fd showDouble lines)
      (fun _ => Ended strtod fd showDouble lines) w := by
  induction rest generalizing bodies replies out w with
  | nil =>
      apply prompt_safe hat ?_ h
      intro w hw
      rw [hat.prompted rfl] at hw
      exact .done Ended.stable
        ⟨bodies, replies, hat.seen hw (List.prefix_refl _)⟩
  | cons line rest ih =>
      apply prompt_safe hat ?_ h
      intro w hw
      dsimp only
      split
      next hline =>
        rw [hat.prompted (screen_exit hline)] at hw
        exact .done Ended.stable
          ⟨bodies, replies, hat.seen hw (List.prefix_refl _)⟩
      next hline =>
        split
        next hargs =>
          have hguard : Guards strtod fd (Guarded strtod fd showDouble lines)
              bodies replies (split line) (out ++ prompt) := by
            intro request w asked hasked hpending hprogress hdefined
            obtain ⟨hseen, hscreen⟩ :=
              hat.seen_command hline hargs hw.length hasked hpending
            exact ⟨hdefined, hprogress, asked, replies, _, hseen,
              fun _ => hscreen⟩
          apply (sendCommand_safe hguard hw).bind
          intro rc w hsent
          rcases hsent with ⟨rfl, resp, hrested⟩ | ⟨hrc, asked, hasked, hpending⟩
          · rw [if_neg (by simp)]
            exact ih (hat.command hline hargs resp) hrested
          · rw [if_pos hrc]
            obtain ⟨hseen, hscreen⟩ :=
              hat.seen_command hline hargs hw.length hasked hpending
            refine .done Ended.stable ⟨asked, replies, ?_⟩
            rw [← hscreen]
            exact hseen
        next hargs =>
          exact ih (hat.blank hline (not_not.mp hargs)) hw

end Lines

theorem interactive_safe {loop : Loop} {trace : List Event}
    (hrun : LoopRun strtod loop trace) (lines : List Bytes) :
    (interactive showDouble lines).Safe (setting strtod fd)
      (Guarded strtod fd showDouble lines)
      (fun _ => Ended strtod fd showDouble lines) (start loop trace) := by
  apply Program.Safe.call Rested.stable ?_ ?_ (start_rested hrun)
  · intro w hw
    exact ⟨by rintro ⟨⟩, .of_free fun _ => id, [], [], [],
      ⟨hw.pending, List.nil_prefix, by simp, List.nil_prefix⟩, by rintro ⟨⟩⟩
  · intro w answer after hw heffect
    cases heffect
    have hrested : Rested strtod fd [] [] greeting
        { w with stdout := w.stdout ++ greeting } :=
      ⟨hw.fit, hw.small, hw.length, hw.talk.print greeting⟩
    apply (repl_safe ⟨rfl, fun _ => rfl⟩ hrested).bind
    intro _ w hended
    apply Program.Safe.call Ended.stable ?_ ?_ hended
    · rintro w ⟨asked, replies, hseen⟩
      exact ⟨by rintro ⟨⟩, .of_free fun _ => id, asked, replies, _, hseen,
        fun _ => rfl⟩
    · intro w answer after hw heffect
      cases heffect
      exact .done Ended.stable hw

theorem Seen.screen {lines asked replies : List Bytes} {out : Bytes}
    (h : Seen strtod fd showDouble lines asked replies out w) (hsmall : w.Small) :
    Linked strtod fd w ∧
    w.session.exchanges.map Exchange.body <+: (commands lines).map encodeReq ∧
    replies = w.replies.take replies.length ∧
    replies.length ≤ w.replies.length ∧ w.replies.length ≤ replies.length + 1 ∧
    w.stdout = out := by
  obtain ⟨hlinked, hbodies, hanswered, hstdout⟩ := h.pending.served
  have hanswered := hanswered hsmall
  refine ⟨hlinked, hbodies.trans h.asks,
    List.prefix_iff_eq_take.mp hanswered, hanswered.length_le, ?_, hstdout⟩
  have hle := hbodies.length_le
  have hcount := h.count
  rw [List.length_map] at hle
  rw [World.replies, List.length_map]
  omega

theorem split_get : split (ascii "GET a") = [ascii "GET", ascii "a"] := by
  rw [split_eq, if_neg (by decide), split_eq, if_neg (by decide), split_eq,
    if_pos (by decide)]
  decide

theorem repl_prompted {line : Bytes} {rest : List Bytes} (hline : line ≠ ascii "exit")
    (hargs : split line ≠ []) :
    Program.Step (setting strtod fd) (repl showDouble (line :: rest), w)
      ((sendCommand showDouble (split line)).bind fun rc =>
          if rc ≠ 0 then .done () else repl showDouble rest,
        { w with stdout := w.stdout ++ prompt }) := by
  refine Program.Step.answered (.print w prompt) ?_
  change (if line = ascii "exit" then _ else _) = _
  rw [if_neg hline, if_pos hargs]

/-- However the client, the server and its other clients interleave: the server
executes the commands of the lines in their order, each once, and what the user
sees is the lines' prompts with the replies to exactly these commands. At most
one command that was executed is not shown yet. No reply may be too long for its
header. -/
theorem repl_shows_replies {loop : Loop} {trace : List Event} {lines : List Bytes}
    {program : Program Answer Int} (hrun : LoopRun strtod loop trace)
    (hreach : Relation.ReflTransGen (Program.Step (setting strtod fd))
      (interactive showDouble lines, start loop trace) (program, w))
    (hsmall : w.Small) :
    (w.trace.foldlM (replay strtod) { pool := some {} } =
      some w.loop.server.db ∧
        (w.phase = .opened → w.session = session fd w.trace)) ∧
    w.session.exchanges.map Exchange.body <+: (commands lines).map encodeReq ∧
    (∃ shown, shown ≤ w.replies.length ∧ w.replies.length ≤ shown + 1 ∧
      w.stdout <+: greeting ++ screen showDouble lines (w.replies.take shown) ∧
      (printing program = false →
        w.stdout = greeting ++ screen showDouble lines (w.replies.take shown))) ∧
    ∀ next, program ≠ .call .undefined next := by
  have hsafe := (interactive_safe hrun lines).run hreach
  obtain ⟨asked, replies, out, hseen, hshown, hdefined⟩ : ∃ asked replies out,
      Seen strtod fd showDouble lines asked replies out w ∧
      (printing program = false →
        out = greeting ++ screen showDouble lines replies) ∧
      ∀ next, program ≠ .call .undefined next := by
    cases program with
    | done code =>
        obtain ⟨asked, replies, hseen⟩ := hsafe.ends
        exact ⟨asked, replies, _, hseen, fun _ => rfl, by rintro next ⟨⟩⟩
    | call request next =>
        obtain ⟨hrequest, -, asked, replies, out, hseen, hshown⟩ := hsafe.waits
        refine ⟨asked, replies, out, hseen, hshown, ?_⟩
        rintro other ⟨⟩
        exact hrequest rfl
  obtain ⟨hlinked, hexecuted, htake, hle, hlt, hstdout⟩ := hseen.screen hsmall
  refine ⟨⟨hlinked.run.serverRun.served.replays, ?_⟩, hexecuted,
    ⟨replies.length, hle, hlt, ?_, ?_⟩, hdefined⟩
  · intro hopen
    obtain ⟨_, _, hsession⟩ := hlinked.opened hopen
    exact hsession
  · rw [hstdout, ← htake]
    exact hseen.shows
  · intro hprinting
    rw [hstdout, ← htake]
    exact hshown hprinting

theorem repl_shows_replies_get : ∃ w : World,
    Relation.ReflTransGen (Program.Step (setting (fun _ => ({}, 0)) 0))
      (interactive (fun _ => []) [ascii "GET a"],
        start ⟨{ idleTimeoutMs := 30000 }, none⟩ []) (.done 0, w) ∧
    w.replies = [[serNil]] ∧
    w.session.exchanges.map Exchange.body <+: (commands [ascii "GET a"]).map encodeReq ∧
    w.stdout = greeting ++ prompt ++ ascii "(nil)\n" ++ prompt ∧
    ∃ shown, w.stdout = greeting ++
      screen (fun _ => []) [ascii "GET a"] (w.replies.take shown) := by
  obtain ⟨w, s, hsent, hout, hstage, -⟩ := @sendCommand_get
    { start ⟨{ idleTimeoutMs := 30000 }, none⟩ [] with stdout := greeting ++ prompt }
    (fun _ => []) ⟨rfl, rfl, rfl, rfl, rfl⟩
  have hlast : Program.Step (setting (fun _ => ({}, 0)) 0) (repl (fun _ => []) [], w)
      (.done (), { w with stdout := w.stdout ++ prompt }) :=
    Program.Step.answered (.print w prompt) rfl
  have hline : Relation.ReflTransGen (Program.Step (setting (fun _ => ({}, 0)) 0))
      (repl (fun _ => []) [ascii "GET a"],
        { start ⟨{ idleTimeoutMs := 30000 }, none⟩ [] with stdout := greeting })
      (.done (), { w with stdout := w.stdout ++ prompt }) := by
    rw [← split_get] at hsent
    have hcommand : Relation.ReflTransGen (Program.Step (setting (fun _ => ({}, 0)) 0))
        ((sendCommand (fun _ => []) (split (ascii "GET a"))).bind fun rc =>
          if rc ≠ 0 then .done () else repl (fun _ => []) [], _) _ :=
      (Program.Step.run_bind hsent).tail hlast
    exact .head (repl_prompted (by decide) (by simp [split_get])) hcommand
  have hreach : Relation.ReflTransGen (Program.Step (setting (fun _ => ({}, 0)) 0))
      (interactive (fun _ => []) [ascii "GET a"],
        start ⟨{ idleTimeoutMs := 30000 }, none⟩ [])
      (.done 0, { w with stdout := w.stdout ++ prompt }) :=
    .head (Program.Step.answered (.print _ greeting) rfl)
      ((Program.Step.run_bind hline).tail (Program.Step.answered (.close _) rfl))
  have hreplies : ({ w with stdout := w.stdout ++ prompt } : World).replies =
      [[serNil]] := hstage.replies
  have hsmall : ({ w with stdout := w.stdout ++ prompt } : World).Small := by
    rw [World.Small, hreplies]
    decide
  have htext : replyText (fun _ => []) [serNil] = ascii "(nil)\n" := by decide +kernel
  obtain ⟨-, hexecuted, ⟨shown, -, -, -, hscreen⟩, -⟩ :=
    repl_shows_replies (.start 30000) hreach hsmall
  exact ⟨_, hreach, hreplies, hexecuted, by rw [← htext, ← hout], shown, hscreen rfl⟩

def Attended (strtod : Bytes → Double × Nat) (fd : Nat) (request : Call) (w : World) :
    Prop :=
  Progress fd request w ∧ Linked strtod fd w

theorem oneShot_attended {loop : Loop} {trace : List Event}
    (hrun : LoopRun strtod loop trace) :
    (oneShot showDouble args).Safe (setting strtod fd) (Attended strtod fd)
      (fun _ _ => True) (start loop trace) := by
  have hguard : Guards strtod fd (Attended strtod fd) [] [] args [] := by
    intro request w asked _ hpending hprogress _
    exact ⟨hprogress, hpending.served.1⟩
  apply (sendCommand_safe hguard (start_rested hrun)).bind
  intro rc w hsent
  apply Program.Safe.call (Sent.stable rc) ?_ ?_ hsent
  · rintro w (⟨_, resp, hrested⟩ | ⟨_, asked, _, hpending⟩)
    · exact ⟨.of_free fun _ => id, hrested.pending.served.1⟩
    · exact ⟨.of_free fun _ => id, hpending.served.1⟩
  · intro w answer after _ _
    exact .done (fun _ _ _ _ => trivial) trivial

theorem client_attended {loop : Loop} {trace : List Event}
    {program : Program Answer Int} (hrun : LoopRun strtod loop trace)
    (hprogram : (∃ lines, program = interactive showDouble lines) ∨
      ∃ args, program = oneShot showDouble args) {request : Call}
    {next : Answer request → Program Answer Int}
    (hreach : Relation.ReflTransGen (Program.Step (setting strtod fd))
      (program, start loop trace) (.call request next, w)) :
    Attended strtod fd request w := by
  rcases hprogram with ⟨lines, rfl⟩ | ⟨args, rfl⟩
  · obtain ⟨_, hprogress, asked, replies, out, hseen, _⟩ :=
      ((interactive_safe hrun lines).run hreach).waits
    exact ⟨hprogress, hseen.pending.served.1⟩
  · exact ((oneShot_attended hrun).run hreach).waits

/-- Whatever the capacity of the socket buffers: while the client waits in a
call, `poll` has something to report to the server for the connection. -/
theorem client_never_deadlocks {loop : Loop} {trace : List Event}
    {program : Program Answer Int} {request : Call}
    {next : Answer request → Program Answer Int} {capacity : Nat} {c : Conn}
    (hrun : LoopRun strtod loop trace)
    (hprogram : (∃ lines, program = interactive showDouble lines) ∨
      ∃ args, program = oneShot showDouble args)
    (hreach : Relation.ReflTransGen (Program.Step (setting strtod fd))
      (program, start loop trace) (.call request next, w))
    (hsmall : w.Small) (hcapacity : 0 < capacity) (hphase : w.phase = .opened)
    (hconn : w.loop.server.conn fd = some c)
    (hblocked : clientBlocked capacity w request) :
    (c.wantRead = true ∧ w.toServer ≠ []) ∨
      (c.wantWrite = true ∧ c.outgoing ≠ [] ∧ w.toClient.length < capacity) := by
  obtain ⟨hprogress, hlinked⟩ := client_attended hrun hprogram hreach
  obtain ⟨hsettled, -⟩ := hlinked.conn hphase hconn
  have hwakes : ¬ serverBlocked capacity w c := fun hserver =>
    hprogress capacity c hcapacity hsmall hphase hconn ⟨hblocked, hserver⟩
  rw [serverBlocked, not_and_or, not_not, not_not] at hwakes
  rcases hwakes with hreads | ⟨hwrites, hroom⟩
  · exact .inl hreads
  · refine .inr ⟨hwrites, ?_, hroom⟩
    have hmode := hsettled.writes
    rw [hwrites] at hmode
    simpa using hmode.symm

theorem client_never_deadlocks_get : ∃ (w : World) (c : Conn)
    (next : Answer (.read 4) → Program Answer Int),
    Relation.ReflTransGen (Program.Step (setting (fun _ => ({}, 0)) 0))
      (oneShot (fun _ => []) [ascii "GET", ascii "a"],
        start ⟨{ idleTimeoutMs := 30000 }, none⟩ []) (.call (.read 4) next, w) ∧
      w.loop.server.conn 0 = some c ∧ clientBlocked 1 w (.read 4) ∧
      ((c.wantRead = true ∧ w.toServer ≠ []) ∨
        (c.wantWrite = true ∧ c.outgoing ≠ [] ∧ w.toClient.length < 1)) := by
  obtain ⟨next, hread⟩ : ∃ next,
      readReply (fun _ => []) = .call (.read 4) next :=
    ⟨_, by rw [readReply, readFull, dif_neg (by decide)]; rfl⟩
  have hfit : (encodeReq [ascii "GET", ascii "a"]).length ≤ maxMsg := by decide
  have hsent := @sendCommand_run (fun _ => ({}, 0)) 0
    (start ⟨{ idleTimeoutMs := 30000 }, none⟩ []) (fun _ => []) _ hfit
  rw [hread] at hsent
  have hreach : Relation.ReflTransGen (Program.Step (setting (fun _ => ({}, 0)) 0))
      (oneShot (fun _ => []) [ascii "GET", ascii "a"],
        start ⟨{ idleTimeoutMs := 30000 }, none⟩ []) _ :=
    (Program.Step.run_bind hsent).tail
      (.others (.accepted oneClient_accepted.emits rfl))
  have hwaits := client_never_deadlocks (.start 30000) (.inr ⟨_, rfl⟩) hreach
    (by rintro _ ⟨⟩) Nat.one_pos rfl rfl rfl
  exact ⟨_, _, _, hreach, rfl, rfl, hwaits⟩

end MiniRedis.Client
