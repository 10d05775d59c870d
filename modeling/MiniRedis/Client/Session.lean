import MiniRedis.Client.Progress

namespace MiniRedis.Client

open MiniRedis.Data MiniRedis.Ds MiniRedis.Store MiniRedis.Protocol
open MiniRedis.Server MiniRedis.EventLoop

/-! What the client's functions do beside the server. -/

variable {strtod : Bytes → Double × Nat} {fd : Nat} {w : World}
  {guard : Call → World → Prop}

section Transfer

variable {assertion : Bytes → World → Prop} {count : Nat}

def Wrote (assertion : Bytes → World → Prop) (rc : Int) (w : World) : Prop :=
  (rc = 0 ∧ assertion [] w) ∨ (rc ≠ 0 ∧ ∃ rest, assertion rest w)

def Got (count : Nat) (assertion : Bytes → World → Prop) (result : Int × Bytes)
    (w : World) : Prop :=
  (result.1 = 0 ∧ result.2.length = count ∧ assertion result.2 w) ∨
    (result.1 ≠ 0 ∧ ∃ got, assertion got w)

theorem Wrote.stable
    (hstable : ∀ rest, Program.Stable (setting strtod fd) (assertion rest))
    (rc : Int) : Program.Stable (setting strtod fd) (Wrote assertion rc) := by
  intro w w' hstep hw
  rcases hw with ⟨hrc, hw⟩ | ⟨hrc, rest, hw⟩
  · exact .inl ⟨hrc, hstable [] hstep hw⟩
  · exact .inr ⟨hrc, rest, hstable rest hstep hw⟩

theorem Got.stable
    (hstable : ∀ got, Program.Stable (setting strtod fd) (assertion got))
    (result : Int × Bytes) :
    Program.Stable (setting strtod fd) (Got count assertion result) := by
  intro w w' hstep hw
  rcases hw with ⟨hrc, hlength, hw⟩ | ⟨hrc, got, hw⟩
  · exact .inl ⟨hrc, hlength, hstable result.2 hstep hw⟩
  · exact .inr ⟨hrc, got, hstable got hstep hw⟩

theorem writeAll_safe (assertion : Bytes → World → Prop)
    (hstable : ∀ rest, Program.Stable (setting strtod fd) (assertion rest))
    (hwrote : ∀ rest w count, assertion rest w → assertion (rest.drop count)
      { w with toServer := w.toServer ++ rest.take count })
    (hguard : ∀ rest w, rest ≠ [] → assertion rest w → guard (.write rest) w)
    (buffer : Bytes) (h : assertion buffer w) :
    (writeAll buffer).Safe (setting strtod fd) guard (Wrote assertion) w := by
  induction buffer using writeAll.induct generalizing w with
  | case1 =>
      rw [writeAll, dif_pos rfl]
      exact .done (Wrote.stable hstable 0) (.inl ⟨rfl, h⟩)
  | case2 buffer hrest ih =>
      rw [writeAll, dif_neg hrest]
      apply Program.Safe.call (hstable buffer) (fun w => hguard buffer w hrest)
        ?_ h
      intro w answer after hw heffect
      cases heffect with
      | writeFailed =>
          exact .done (Wrote.stable hstable (-1)) (.inr ⟨by decide, buffer, hw⟩)
      | wrote _ count =>
          have hafter := hwrote buffer w count hw
          simp only
          split
          next =>
            exact .done (Wrote.stable hstable (-1)) (.inr ⟨by decide, _, hafter⟩)
          next hcount => exact ih count hcount hafter

theorem readFull_safe (assertion : Bytes → World → Prop) (count : Nat)
    (hstable : ∀ got, Program.Stable (setting strtod fd) (assertion got))
    (hread : ∀ got w chunk rest, w.toClient = chunk ++ rest → assertion got w →
      assertion (got ++ chunk) { w with toClient := rest })
    (hguard : ∀ got w more, got.length < count → assertion got w →
      guard (.read more) w) (h : assertion [] w) :
    (readFull count).Safe (setting strtod fd) guard (Got count assertion) w := by
  induction count using readFull.induct generalizing w assertion with
  | case1 =>
      rw [readFull, dif_pos rfl]
      exact .done (Got.stable hstable _) (.inl ⟨rfl, rfl, h⟩)
  | case2 count hrest ih =>
      rw [readFull, dif_neg hrest]
      apply Program.Safe.call (hstable [])
        (fun w => hguard [] w count (Nat.pos_of_ne_zero hrest)) ?_ h
      intro w answer after hw heffect
      cases heffect with
      | readFailed =>
          exact .done (Got.stable hstable _) (.inr ⟨by decide, [], hw⟩)
      | read chunk hclient =>
          have hafter := hread [] w chunk _ hclient hw
          simp only
          split
          next =>
            exact .done (Got.stable hstable _) (.inr ⟨by decide, _, hafter⟩)
          next hchunk =>
            -- The rest of the bytes is read after this chunk.
            have hsafe := ih chunk hchunk _
              (fun got => hstable (chunk.val ++ got))
              (fun got w more rest hclient hgot => by
                rw [← List.append_assoc]
                exact hread _ w more rest hclient hgot)
              (fun got w more hlength hgot => hguard _ w more
                (by rw [List.length_append]; omega) hgot)
              (by rwa [List.append_nil])
            apply hsafe.bind
            rintro ⟨rc, rest⟩ later hlater
            apply Program.Safe.done (Got.stable hstable _)
            rcases hlater with ⟨hrc, hlength, hlater⟩ | ⟨hrc, got, hlater⟩
            · refine .inl ⟨hrc, ?_, hlater⟩
              have hle := chunk.property
              simp only at hlength
              simp only [List.length_append]
              omega
            · exact .inr ⟨hrc, _, hlater⟩

end Transfer

/-- A command is under way: the client has asked no more than `asked` and has read
the replies `replies`, and maybe more. -/
structure Pending (strtod : Bytes → Double × Nat) (fd : Nat)
    (asked replies : List Bytes) (out : Bytes) (w : World) : Prop where
  fit : ∀ body ∈ asked, body.length ≤ maxMsg
  small : ∀ resp ∈ replies, resp.length ≤ maxMsg
  talk : ∃ written read, Talk strtod fd written read out w ∧
    written <+: asked.flatMap frame ∧ replies.flatMap frame <+: read

theorem Pending.stable {asked replies : List Bytes} {out : Bytes} :
    Program.Stable (setting strtod fd) (Pending strtod fd asked replies out) := by
  intro w w' hstep h
  obtain ⟨written, read, htalk, hwritten, hread⟩ := h.talk
  exact ⟨h.fit, h.small, written, read, Talk.stable hstep htalk, hwritten, hread⟩

structure Rested (strtod : Bytes → Double × Nat) (fd : Nat)
    (bodies replies : List Bytes) (out : Bytes) (w : World) : Prop where
  fit : ∀ body ∈ bodies, body.length ≤ maxMsg
  small : ∀ resp ∈ replies, resp.length ≤ maxMsg
  length : bodies.length = replies.length
  talk : Talk strtod fd (bodies.flatMap frame) (replies.flatMap frame) out w

theorem Rested.stable {bodies replies : List Bytes} {out : Bytes} :
    Program.Stable (setting strtod fd) (Rested strtod fd bodies replies out) := by
  intro w w' hstep h
  exact ⟨h.fit, h.small, h.length, Talk.stable hstep h.talk⟩

theorem Rested.pending {bodies replies : List Bytes} {out : Bytes}
    (h : Rested strtod fd bodies replies out w) :
    Pending strtod fd bodies replies out w :=
  ⟨h.fit, h.small, _, _, h.talk, List.prefix_refl _, List.prefix_refl _⟩

def replyText (showDouble : Double → Bytes) (resp : Bytes) : Bytes :=
  ((printValue showDouble (2 * resp.length + 1) resp resp.length 0).map
    Prod.snd).getD []

theorem Opens.length_le {levels : Nat} {p : Bytes} (h : Opens levels p) :
    5 * levels ≤ p.length := by
  induction h with
  | zero => exact Nat.zero_le _
  | succ _ _ _ _ ih =>
      simp only [List.length_cons, List.length_append, length_leBytes]
      omega

/-- No reply that the client accepts is nested too deeply for the printer. -/
theorem printValue_replyText (showDouble : Double → Bytes) {resp : Bytes}
    (hsmall : resp.length ≤ maxMsg) :
    ∃ ret, printValue showDouble (2 * resp.length + 1) resp resp.length 0 =
      some (ret, replyText showDouble resp) := by
  have hprinted : Printed showDouble 0 resp
      (printValue showDouble (2 * resp.length + 1) resp resp.length (0 : Nat)) :=
    printValue_printed (by decide) (Nat.le_refl _)
  rw [Nat.cast_zero] at hprinted
  rw [replyText]
  generalize printValue showDouble _ _ _ _ = result at hprinted ⊢
  cases hprinted with
  | value => exact ⟨_, rfl⟩
  | bad => exact ⟨_, rfl⟩
  | deep hopens =>
      have hle := hopens.length_le
      unfold maxMsg at hsmall
      omega

section Command

variable {showDouble : Double → Bytes} {bodies replies : List Bytes}
  {args : List Bytes} {out : Bytes}

/-- What `send_command` leaves: one more command answered and its reply printed,
or a command under way. -/
def Sent (strtod : Bytes → Double × Nat) (fd : Nat)
    (showDouble : Double → Bytes) (bodies replies : List Bytes)
    (args : List Bytes) (out : Bytes) (rc : Int) (w : World) : Prop :=
  (rc = 0 ∧ ∃ resp, Rested strtod fd (bodies ++ [encodeReq args])
    (replies ++ [resp]) (out ++ replyText showDouble resp) w) ∨
  (rc ≠ 0 ∧ ∃ asked, asked <+: bodies ++ [encodeReq args] ∧
    Pending strtod fd asked replies out w)

theorem Sent.stable (rc : Int) : Program.Stable (setting strtod fd)
    (Sent strtod fd showDouble bodies replies args out rc) := by
  intro w w' hstep h
  rcases h with ⟨hrc, resp, h⟩ | ⟨hrc, asked, hasked, h⟩
  · exact .inl ⟨hrc, resp, Rested.stable hstep h⟩
  · exact .inr ⟨hrc, asked, hasked, Pending.stable hstep h⟩

def Writing (strtod : Bytes → Double × Nat) (fd : Nat)
    (asked replies : List Bytes) (out tail rest : Bytes) (w : World) : Prop :=
  ∃ written, written ++ (rest ++ tail) = asked.flatMap frame ∧
    Talk strtod fd written (replies.flatMap frame) out w

def Reading (strtod : Bytes → Double × Nat) (fd : Nat)
    (asked replies : List Bytes) (out head got : Bytes) (w : World) : Prop :=
  Talk strtod fd (asked.flatMap frame) (replies.flatMap frame ++ (head ++ got))
    out w

section Stages

variable {asked : List Bytes} {head tail : Bytes}

theorem Writing.stable (rest : Bytes) : Program.Stable (setting strtod fd)
    (Writing strtod fd asked replies out tail rest) := by
  rintro w w' hstep ⟨written, hwritten, h⟩
  exact ⟨written, hwritten, Talk.stable hstep h⟩

theorem Writing.wrote {rest : Bytes}
    (h : Writing strtod fd asked replies out tail rest w) (count : Nat) :
    Writing strtod fd asked replies out tail (rest.drop count)
      { w with toServer := w.toServer ++ rest.take count } := by
  obtain ⟨written, hwritten, htalk⟩ := h
  refine ⟨written ++ rest.take count, ?_, htalk.wrote _⟩
  rw [← hwritten, List.append_assoc, ← List.append_assoc (rest.take count),
    List.take_append_drop]

theorem Reading.got {got chunk rest : Bytes}
    (hclient : w.toClient = chunk ++ rest)
    (h : Reading strtod fd asked replies out head got w) :
    Reading strtod fd asked replies out head (got ++ chunk)
      { w with toClient := rest } := by
  have hgot := Talk.got h hclient
  rwa [List.append_assoc, List.append_assoc] at hgot

theorem Writing.pending {rest : Bytes}
    (h : Writing strtod fd asked replies out tail rest w)
    (hfit : ∀ body ∈ asked, body.length ≤ maxMsg)
    (hsmall : ∀ resp ∈ replies, resp.length ≤ maxMsg) :
    Pending strtod fd asked replies out w := by
  obtain ⟨written, hwritten, htalk⟩ := h
  exact ⟨hfit, hsmall, written, _, htalk, ⟨_, hwritten⟩, List.prefix_refl _⟩

theorem Reading.pending {got : Bytes}
    (h : Reading strtod fd asked replies out head got w)
    (hfit : ∀ body ∈ asked, body.length ≤ maxMsg)
    (hsmall : ∀ resp ∈ replies, resp.length ≤ maxMsg) :
    Pending strtod fd asked replies out w :=
  ⟨hfit, hsmall, _, _, h, List.prefix_refl _, List.prefix_append _ _⟩

end Stages

theorem say_safe {request : Call} {assertion : World → Prop} {rc : Int}
    {post : Int → World → Prop}
    (hstable : Program.Stable (setting strtod fd) assertion)
    (hguard : ∀ w, assertion w → guard request w)
    (hpost : Program.Stable (setting strtod fd) (post rc))
    (heffect : ∀ w answer after, assertion w → Effect w request answer after →
      post rc after) (h : assertion w) :
    (say request rc).Safe (setting strtod fd) guard post w :=
  Program.Safe.call hstable hguard
    (fun w answer after hw hafter =>
      .done hpost (heffect w answer after hw hafter)) h

def Guards (strtod : Bytes → Double × Nat) (fd : Nat)
    (guard : Call → World → Prop) (bodies replies : List Bytes)
    (args : List Bytes) (out : Bytes) : Prop :=
  ∀ request w asked, asked <+: bodies ++ [encodeReq args] →
    Pending strtod fd asked replies out w → Progress fd request w →
    request ≠ .undefined → guard request w

theorem complain_safe {text : Bytes} {asked : List Bytes}
    (hguard : Guards strtod fd guard bodies replies args out)
    (hasked : asked <+: bodies ++ [encodeReq args])
    (h : Pending strtod fd asked replies out w) :
    (say (.complain text) (-1)).Safe (setting strtod fd) guard
      (Sent strtod fd showDouble bodies replies args out) w := by
  apply say_safe Pending.stable ?_ (Sent.stable (-1)) ?_ h
  · intro w hw
    exact hguard _ w asked hasked hw (.of_free fun _ => id) (by rintro ⟨⟩)
  · intro w answer after hw heffect
    cases heffect
    obtain ⟨written, read, htalk, hwritten, hread⟩ := hw.talk
    exact .inr ⟨by decide, asked, hasked, hw.fit, hw.small, written, read,
      htalk.complain text, hwritten, hread⟩

theorem print_safe {resp : Bytes}
    (hguard : Guards strtod fd guard bodies replies args out)
    (h : Rested strtod fd (bodies ++ [encodeReq args]) (replies ++ [resp]) out w) :
    (say (.print (replyText showDouble resp)) 0).Safe (setting strtod fd) guard
      (Sent strtod fd showDouble bodies replies args out) w := by
  apply say_safe Rested.stable ?_ (Sent.stable 0) ?_ h
  · intro w hw
    refine hguard _ w _ (List.prefix_refl _) ?_ (.of_free fun _ => id)
      (by rintro ⟨⟩)
    refine ⟨hw.fit, fun other hother => hw.small other (by simp [hother]), _, _,
      hw.talk, List.prefix_refl _, ?_⟩
    rw [List.flatMap_append]
    exact List.prefix_append _ _
  · intro w answer after hw heffect
    cases heffect
    exact .inl ⟨rfl, resp, hw.fit, hw.small, hw.length, hw.talk.print _⟩

theorem readReply_safe
    (hguard : Guards strtod fd guard bodies replies args out)
    (hlength : bodies.length = replies.length)
    (hfit : ∀ body ∈ bodies ++ [encodeReq args], body.length ≤ maxMsg)
    (hsmall : ∀ resp ∈ replies, resp.length ≤ maxMsg)
    (h : Reading strtod fd (bodies ++ [encodeReq args]) replies out [] [] w) :
    (readReply showDouble).Safe (setting strtod fd) guard
      (Sent strtod fd showDouble bodies replies args out) w := by
  have hpending : ∀ {head got w}, Reading strtod fd (bodies ++ [encodeReq args])
      replies out head got w →
      Pending strtod fd (bodies ++ [encodeReq args]) replies out w :=
    fun hw => hw.pending hfit hsmall
  have hwaits : ∀ {head got w count}, Short (head ++ got) →
      Reading strtod fd (bodies ++ [encodeReq args]) replies out head got w →
      guard (.read count) w :=
    fun hshort hw => hguard _ _ _ (List.prefix_refl _) (hpending hw)
      (Talk.progress_read hw hlength hfit hsmall hshort) (by rintro ⟨⟩)
  have hgives : ∀ {w}, Pending strtod fd (bodies ++ [encodeReq args]) replies
      out w → (Program.done (-1)).Safe (setting strtod fd) guard
        (Sent strtod fd showDouble bodies replies args out) w :=
    fun hw => .done (Sent.stable (-1))
      (.inr ⟨by decide, _, List.prefix_refl _, hw⟩)
  unfold readReply
  apply Program.Safe.bind (readFull_safe
    (Reading strtod fd (bodies ++ [encodeReq args]) replies out []) 4
    (fun _ => Talk.stable) (fun _ _ _ _ => Reading.got)
    (fun got w more hshort => hwaits (.header hshort)) h)
  rintro ⟨rc, hdr⟩ w hw
  rcases hw with ⟨rfl, hhdr, hw⟩ | ⟨hrc, got, hw⟩
  · simp only at hhdr hw
    have hheader := writeU32_leValue hhdr
    dsimp only
    rw [if_neg (by simp)]
    split
    next => exact complain_safe hguard (List.prefix_refl _) (hpending hw)
    next htotal =>
      rw [not_or, not_lt, not_lt] at htotal
      apply Program.Safe.bind (readFull_safe
        (Reading strtod fd (bodies ++ [encodeReq args]) replies out hdr)
        (leValue hdr) (fun _ => Talk.stable) (fun _ _ _ _ => Reading.got)
        (fun got w more hshort => hwaits (hheader ▸ .body htotal.2 hshort))
        (by simpa only [Reading, List.append_nil, List.nil_append] using hw))
      rintro ⟨rc, resp⟩ w hw
      rcases hw with ⟨rfl, hresp, hw⟩ | ⟨hrc, got, hw⟩
      · simp only at hresp hw
        obtain ⟨ret, hprint⟩ := printValue_replyText showDouble
          (show resp.length ≤ maxMsg by omega)
        dsimp only
        rw [if_neg (by simp), hprint]
        apply print_safe hguard
        refine ⟨hfit, ?_, by simp [hlength], ?_⟩
        · intro other hother
          rcases List.mem_append.mp hother with hold | hnew
          · exact hsmall other hold
          · rw [List.mem_singleton.mp hnew]
            omega
        · have hread : (replies ++ [resp]).flatMap frame =
              replies.flatMap frame ++ (hdr ++ resp) := by
            rw [List.flatMap_append, List.flatMap_singleton, frame, hresp, hheader]
          rw [hread]
          exact hw
      · dsimp only at hrc ⊢
        rw [if_pos hrc]
        exact hgives (hpending hw)
  · dsimp only at hrc ⊢
    rw [if_pos hrc]
    exact complain_safe hguard (List.prefix_refl _) (hpending hw)

theorem sendCommand_safe
    (hguard : Guards strtod fd guard bodies replies args out)
    (h : Rested strtod fd bodies replies out w) :
    (sendCommand showDouble args).Safe (setting strtod fd) guard
      (Sent strtod fd showDouble bodies replies args out) w := by
  unfold sendCommand
  dsimp only
  split
  next => exact complain_safe hguard (List.prefix_append _ _) h.pending
  next hbody =>
    have hfit : ∀ body ∈ bodies ++ [encodeReq args], body.length ≤ maxMsg := by
      intro body hmem
      rcases List.mem_append.mp hmem with hold | hnew
      · exact h.fit body hold
      · rw [List.mem_singleton.mp hnew]
        exact not_lt.mp hbody
    have hwaits : ∀ {tail rest w}, rest ≠ [] → Writing strtod fd
        (bodies ++ [encodeReq args]) replies out tail rest w →
        guard (.write rest) w := by
      rintro tail rest w hrest hw
      have hpending := hw.pending hfit h.small
      obtain ⟨written, hwritten, htalk⟩ := hw
      exact hguard _ w _ (List.prefix_refl _) hpending
        (htalk.progress_write h.length hfit h.small hwritten (by simp [hrest]))
        (by rintro ⟨⟩)
    have hgives : ∀ {tail rest w}, Writing strtod fd (bodies ++ [encodeReq args])
        replies out tail rest w →
        (Program.done (-1)).Safe (setting strtod fd) guard
          (Sent strtod fd showDouble bodies replies args out) w :=
      fun hw => .done (Sent.stable (-1)) (.inr ⟨by decide, _,
        List.prefix_refl _, hw.pending hfit h.small⟩)
    -- the header and then the body are written
    have hstart : Writing strtod fd (bodies ++ [encodeReq args]) replies out
        (encodeReq args) (writeU32 (encodeReq args).length) w :=
      ⟨_, by rw [List.flatMap_append, List.flatMap_singleton, frame], h.talk⟩
    apply Program.Safe.bind (writeAll_safe _ Writing.stable
      (fun _ _ count hw => hw.wrote count) (fun _ _ => hwaits) _ hstart)
    rintro rc w hw
    rcases hw with ⟨rfl, hw⟩ | ⟨hrc, rest, hw⟩
    · rw [if_neg (by simp)]
      have hbody : Writing strtod fd (bodies ++ [encodeReq args]) replies out []
          (encodeReq args) w := by
        obtain ⟨written, hwritten, htalk⟩ := hw
        exact ⟨written, by rw [← hwritten]; simp, htalk⟩
      apply Program.Safe.bind (writeAll_safe _ Writing.stable
        (fun _ _ count hw => hw.wrote count) (fun _ _ => hwaits) _ hbody)
      rintro rc w hw
      rcases hw with ⟨rfl, written, hwritten, htalk⟩ | ⟨hrc, rest, hw⟩
      · rw [if_neg (by simp)]
        rw [List.nil_append, List.append_nil] at hwritten
        apply readReply_safe hguard h.length hfit h.small
        rw [Reading, ← hwritten, List.append_nil, List.append_nil]
        exact htalk
      · rw [if_pos hrc]
        exact hgives hw
    · rw [if_pos hrc]
      exact hgives hw

end Command

def start (loop : Loop) (trace : List Event) : World :=
  { loop := loop, trace := trace }

theorem start_rested {loop : Loop} {trace : List Event}
    (hrun : LoopRun strtod loop trace) :
    Rested strtod fd [] [] [] (start loop trace) := by
  have hframes : frames [] = ([], []) := frames_of_none rfl
  refine ⟨by simp, by simp, rfl, ⟨hrun, fun _ => rfl, by rintro ⟨⟩, ?_, ?_⟩,
    rfl, rfl, rfl⟩
  · exact (congrArg Prod.fst hframes).symm
  · exact List.prefix_refl _

theorem Pending.served {asked replies : List Bytes} {out : Bytes}
    (h : Pending strtod fd asked replies out w) :
    Linked strtod fd w ∧ w.session.exchanges.map Exchange.body <+: asked ∧
      (w.Small → replies <+: w.replies) ∧ w.stdout = out := by
  obtain ⟨written, read, htalk, hwritten, hread⟩ := h.talk
  exact ⟨htalk.toLinked, htalk.executed h.fit hwritten,
    fun hw => htalk.answered hw h.small hread, htalk.shown⟩

end MiniRedis.Client
