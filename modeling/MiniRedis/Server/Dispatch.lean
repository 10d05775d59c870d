import MiniRedis.Server.SortedSets

namespace MiniRedis.Server

open MiniRedis.Data MiniRedis.Ds MiniRedis.Store MiniRedis.Protocol

/-! The dispatcher answers the request its argument vector carries. -/

variable {db : Database} {out : Bytes} {clock : Clock}
  {strtod : Bytes → Double × Nat}

def Handler.Fits : Handler → Nat → Prop
  | .get, size => size = 2
  | .set, size => size = 3
  | .del, size => size = 2
  | .keys, size => size = 1
  | .expire unitMs, size => size = 3 ∧ 0 < unitMs
  | .ttl _, size => size = 2
  | .persist, size => size = 2
  | .zadd, size => size = 4
  | .zrem, size => size = 3
  | .zscore, size => size = 3
  | .zquery, size => size = 6

theorem verbs_dispatched : ∀ verb ∈ verbs,
    dispatch verb.name verb.size = some verb.handler := by
  simp only [verbs, List.forall_mem_cons, List.not_mem_nil, false_imp_iff, implies_true,
    and_true]
  refine ⟨?_, ?_, ?_, ?_, ?_, ?_, ?_, ?_, ?_, ?_, ?_, ?_, ?_⟩ <;> rfl

theorem dispatch_eq_some {op : Bytes} {size : Nat} {handler : Handler} :
    dispatch op size = some handler ↔ ⟨op, size, handler⟩ ∈ verbs := by
  constructor
  · intro h
    obtain ⟨verb, hfind, rfl⟩ := Option.map_eq_some_iff.mp h
    have hverb := List.find?_some hfind
    simp only [Bool.and_eq_true, beq_iff_eq] at hverb
    rw [hverb.1, hverb.2]
    exact List.mem_of_find?_eq_some hfind
  · exact verbs_dispatched _

theorem verbs_fit : ∀ verb ∈ verbs, verb.handler.Fits verb.size := by
  simp [verbs, Handler.Fits]

theorem dispatch_fits {op : Bytes} {size : Nat} {handler : Handler}
    (h : dispatch op size = some handler) : handler.Fits size :=
  verbs_fit _ (dispatch_eq_some.mp h)

/-- A command: its verb in capitals, its arguments and what it asks for. -/
inductive Command (strtod : Bytes → Double × Nat) :
    Bytes → List Bytes → Request → Prop
  | get (key : Bytes) : Command strtod (ascii "GET") [key] (.on key .get)
  | set (key value : Bytes) :
      Command strtod (ascii "SET") [key, value] (.on key (.set value))
  | del (key : Bytes) : Command strtod (ascii "DEL") [key] (.on key .del)
  | keys : Command strtod (ascii "KEYS") [] .keys
  | expire (key : Bytes) {arg : Bytes} {seconds : Int}
      (number : str2int arg = some seconds) :
      Command strtod (ascii "EXPIRE") [key, arg] (.on key (.expire 1000 seconds))
  | pexpire (key : Bytes) {arg : Bytes} {ms : Int} (number : str2int arg = some ms) :
      Command strtod (ascii "PEXPIRE") [key, arg] (.on key (.expire 1 ms))
  | ttl (key : Bytes) : Command strtod (ascii "TTL") [key] (.on key (.ttl false))
  | pttl (key : Bytes) : Command strtod (ascii "PTTL") [key] (.on key (.ttl true))
  | persist (key : Bytes) : Command strtod (ascii "PERSIST") [key] (.on key .persist)
  | zadd (key name : Bytes) {arg : Bytes} {score : Double}
      (number : str2dbl strtod arg = some score) :
      Command strtod (ascii "ZADD") [key, arg, name] (.on key (.zadd score name))
  | zrem (key name : Bytes) :
      Command strtod (ascii "ZREM") [key, name] (.on key (.zrem name))
  | zscore (key name : Bytes) :
      Command strtod (ascii "ZSCORE") [key, name] (.on key (.zscore name))
  | zquery (key name : Bytes) {arg first most : Bytes} {score : Double}
      {offset limit : Int} (number : str2dbl strtod arg = some score)
      (start : str2int first = some offset) (bound : str2int most = some limit) :
      Command strtod (ascii "ZQUERY") [key, arg, name, first, most]
        (.on key (.zquery score name offset limit))

theorem Command.ofCmd {verb : Bytes} {args : List Bytes} {request : Request}
    (h : Command strtod (toUpper verb) args request) :
    Request.ofCmd strtod (verb :: args) = request := by
  generalize hop : toUpper verb = op at h
  have hdispatch : ∀ {handler}, ⟨op, (verb :: args).length, handler⟩ ∈ verbs →
      dispatch (toUpper verb) (verb :: args).length = some handler := fun hmem => by
    rw [hop]
    exact dispatch_eq_some.mpr hmem
  cases h with
  | get key => simp only [Request.ofCmd, @hdispatch .get (by simp [verbs])]
  | set key value => simp only [Request.ofCmd, @hdispatch .set (by simp [verbs])]
  | del key => simp only [Request.ofCmd, @hdispatch .del (by simp [verbs])]
  | keys => simp only [Request.ofCmd, @hdispatch .keys (by simp [verbs])]
  | expire key number =>
      simp only [Request.ofCmd, @hdispatch (.expire 1000) (by simp [verbs]), number]
  | pexpire key number =>
      simp only [Request.ofCmd, @hdispatch (.expire 1) (by simp [verbs]), number]
  | ttl key => simp only [Request.ofCmd, @hdispatch (.ttl false) (by simp [verbs])]
  | pttl key => simp only [Request.ofCmd, @hdispatch (.ttl true) (by simp [verbs])]
  | persist key => simp only [Request.ofCmd, @hdispatch .persist (by simp [verbs])]
  | zadd key name number =>
      simp only [Request.ofCmd, @hdispatch .zadd (by simp [verbs]), number]
  | zrem key name => simp only [Request.ofCmd, @hdispatch .zrem (by simp [verbs])]
  | zscore key name => simp only [Request.ofCmd, @hdispatch .zscore (by simp [verbs])]
  | zquery key name number start bound =>
      simp only [Request.ofCmd, @hdispatch .zquery (by simp [verbs]), number, start,
        bound]

theorem Command.of_ofCmd {verb : Bytes} {args : List Bytes} {request : Request}
    (h : Request.ofCmd strtod (verb :: args) = request)
    (haccept : ∀ code msg, request ≠ .reject code msg) :
    Command strtod (toUpper verb) args request := by
  have hverb : ∀ {size handler}, dispatch (toUpper verb) size = some handler →
      ⟨toUpper verb, size, handler⟩ ∈ verbs := dispatch_eq_some.mp
  simp only [verbs, List.mem_cons, Verb.mk.injEq, List.not_mem_nil, or_false] at hverb
  simp only [Request.ofCmd] at h
  split at h
  next hdispatch =>
    have hop : toUpper verb = ascii "KEYS" := by simpa using hverb hdispatch
    rw [hop, ← h]
    exact .keys
  next key hdispatch =>
    have hop : toUpper verb = ascii "GET" := by simpa using hverb hdispatch
    rw [hop, ← h]
    exact .get key
  next key value hdispatch =>
    have hop : toUpper verb = ascii "SET" := by simpa using hverb hdispatch
    rw [hop, ← h]
    exact .set key value
  next key hdispatch =>
    have hop : toUpper verb = ascii "DEL" := by simpa using hverb hdispatch
    rw [hop, ← h]
    exact .del key
  next unitMs key arg hdispatch =>
    split at h
    next n hnumber =>
      have hop : (toUpper verb = ascii "EXPIRE" ∧ unitMs = 1000) ∨
          (toUpper verb = ascii "PEXPIRE" ∧ unitMs = 1) := by
        simpa using hverb hdispatch
      obtain ⟨hop, rfl⟩ | ⟨hop, rfl⟩ := hop
      · rw [hop, ← h]
        exact .expire key hnumber
      · rw [hop, ← h]
        exact .pexpire key hnumber
    next => exact absurd h.symm (haccept _ _)
  next inMs key hdispatch =>
    have hop : (toUpper verb = ascii "TTL" ∧ inMs = false) ∨
        (toUpper verb = ascii "PTTL" ∧ inMs = true) := by
      simpa using hverb hdispatch
    obtain ⟨hop, rfl⟩ | ⟨hop, rfl⟩ := hop
    · rw [hop, ← h]
      exact .ttl key
    · rw [hop, ← h]
      exact .pttl key
  next key hdispatch =>
    have hop : toUpper verb = ascii "PERSIST" := by simpa using hverb hdispatch
    rw [hop, ← h]
    exact .persist key
  next key arg name hdispatch =>
    split at h
    next score hnumber =>
      have hop : toUpper verb = ascii "ZADD" := by simpa using hverb hdispatch
      rw [hop, ← h]
      exact .zadd key name hnumber
    next => exact absurd h.symm (haccept _ _)
  next key name hdispatch =>
    have hop : toUpper verb = ascii "ZREM" := by simpa using hverb hdispatch
    rw [hop, ← h]
    exact .zrem key name
  next key name hdispatch =>
    have hop : toUpper verb = ascii "ZSCORE" := by simpa using hverb hdispatch
    rw [hop, ← h]
    exact .zscore key name
  next key arg name first most hdispatch =>
    split at h
    next score offset limit hnumber hstart hbound =>
      have hop : toUpper verb = ascii "ZQUERY" := by simpa using hverb hdispatch
      rw [hop, ← h]
      exact .zquery key name hnumber hstart hbound
    next => exact absurd h.symm (haccept _ _)
    next => exact absurd h.symm (haccept _ _)
  next => exact absurd h.symm (haccept _ _)

/-- The requests that are not refused are those of the thirteen commands, with
their verbs in capital or small letters. -/
theorem ofCmd_eq_iff_command {cmd : List Bytes} {request : Request}
    (haccept : ∀ code msg, request ≠ .reject code msg) :
    Request.ofCmd strtod cmd = request ↔ ∃ verb args, cmd = verb :: args ∧
      Command strtod (toUpper verb) args request := by
  constructor
  · intro h
    cases cmd with
    | nil => exact absurd h.symm (haccept _ _)
    | cons verb args => exact ⟨verb, args, rfl, .of_ofCmd h haccept⟩
  · rintro ⟨verb, args, rfl, hcommand⟩
    exact hcommand.ofCmd

/-- No handler reads the verb. -/
theorem doRequest_congr_verb {verb verb' : Bytes} (h : toUpper verb = toUpper verb')
    (args : List Bytes) :
    doRequest strtod (verb :: args) db out clock =
      doRequest strtod (verb' :: args) db out clock := by
  simp only [doRequest, h, List.length_cons]
  cases dispatch (toUpper verb') (args.length + 1) with
  | none => rfl
  | some handler => cases handler <;> rfl

example : toUpper (ascii "zAdd") = toUpper (ascii "ZADD") := by decide

theorem str2dbl_not_nan {arg : Bytes} {score : Double}
    (h : str2dbl strtod arg = some score) : score.isNaN = false := by
  simp only [str2dbl] at h
  split at h
  · cases h
  · split at h
    next hend =>
      cases h
      exact hend.2
    next => cases h

theorem doKeys_eq (h : db.Inv) (out : Bytes) :
    doKeys db out = some (db, out ++
      (Value.arr (db.map.nodes.map fun p => .str (db.key p))).encode) := by
  have hfold : ∀ (nodes : List Ptr) (buffer : Bytes),
      nodes.foldl (fun buffer node => (keysCb db node buffer).2) buffer =
        buffer ++ encodeAll (nodes.map fun p => .str (db.key p)) := by
    intro nodes
    induction nodes with
    | nil => simp [encodeAll]
    | cons node nodes ih =>
        intro buffer
        rw [List.foldl_cons, ih]
        simp [keysCb, encodeAll]
  have hforeach := hmForeach_of_true (f := keysCb db) (fun _ _ => rfl)
    h.index.inv (outArr out db.map.nodes.length)
  have hcount := outArr_eq out (db.map.nodes.map fun p => .str (db.key p))
  rw [List.length_map] at hcount
  simp only [doKeys, h.index.inv.hmSize_eq, hforeach, hfold, hcount,
    Option.bind_eq_bind, Option.bind_some]

inductive Answers (db : Database) (out : Bytes) (clock : Clock) :
    Request → Option (Database × Bytes) → Prop
  | reject {code : Nat} {msg : Bytes}
      (hwf : (Value.err code msg).WellFormed) :
      Answers db out clock (.reject code msg)
        (some (db, out ++ (Value.err code msg).encode))
  | keys : Answers db out clock .keys (some (db, out ++
      (Value.arr (db.map.nodes.map fun p => .str (db.key p))).encode))
  | on {key : Bytes} {op : Op} {result : Option (Database × Bytes)}
      (hvalid : op.Valid) (hacts : Acts db key out
        (op.act key clock.act (live clock.lookup (db.stored key))) result) :
      Answers db out clock (.on key op) result

theorem doZquery_answers (verb key : Bytes) (h : db.Inv)
    (arg name offsetArg limitArg : Bytes) :
    Answers db out clock
      (match str2dbl strtod arg, str2int offsetArg, str2int limitArg with
        | some score, some offset, some limit =>
            .on key (.zquery score name offset limit)
        | some _, _, _ => notAnInteger
        | none, _, _ => notAFloat)
      (doZquery strtod [verb, key, arg, name, offsetArg, limitArg] db out
        clock) := by
  cases harg : str2dbl strtod arg with
  | none =>
      simp only [doZquery, List.getElem?_cons_succ, List.getElem?_cons_zero,
        Option.bind_eq_bind, Option.bind_some, harg, outErr_eq]
      exact .reject (.err (by decide) (by decide))
  | some score =>
      cases hoffset : str2int offsetArg with
      | none =>
          simp only [doZquery, List.getElem?_cons_succ,
            List.getElem?_cons_zero, Option.bind_eq_bind, Option.bind_some,
            harg, hoffset, outErr_eq]
          exact .reject (.err (by decide) (by decide))
      | some offset =>
          cases hlimit : str2int limitArg with
          | none =>
              simp only [doZquery, List.getElem?_cons_succ,
                List.getElem?_cons_zero, Option.bind_eq_bind, Option.bind_some,
                harg, hoffset, hlimit, outErr_eq]
              exact .reject (.err (by decide) (by decide))
          | some limit =>
              exact .on (str2dbl_not_nan harg) (doZquery_acts verb key out clock h
                arg name offsetArg limitArg harg hoffset hlimit)

theorem run_answers (h : db.Inv) (verb : Bytes) (args : List Bytes)
    {handler : Handler}
    (hdispatch : dispatch (toUpper verb) (verb :: args).length = some handler) :
    Answers db out clock (Request.ofCmd strtod (verb :: args))
      (handler.run strtod (verb :: args) db out clock) := by
  have hfits := dispatch_fits hdispatch
  simp only [Request.ofCmd, hdispatch]
  cases handler with
  | get =>
      obtain ⟨key, rfl⟩ := List.length_eq_one_iff.mp (Nat.succ.inj hfits)
      exact .on trivial (doGet_acts verb key out clock h)
  | set =>
      obtain ⟨key, value, rfl⟩ := List.length_eq_two.mp (Nat.succ.inj hfits)
      exact .on trivial (doSet_acts verb key out clock h value)
  | del =>
      obtain ⟨key, rfl⟩ := List.length_eq_one_iff.mp (Nat.succ.inj hfits)
      exact .on trivial (doDel_acts verb key out clock h)
  | keys =>
      obtain rfl := List.length_eq_zero_iff.mp (Nat.succ.inj hfits)
      simp only [Handler.run, doKeys_eq h]
      exact .keys
  | expire unitMs =>
      obtain ⟨hsize, hunit⟩ := hfits
      obtain ⟨key, arg, rfl⟩ := List.length_eq_two.mp (Nat.succ.inj hsize)
      cases harg : str2int arg with
      | none =>
          simp only [Handler.run, doExpire, List.getElem?_cons_succ,
            List.getElem?_cons_zero, Option.bind_eq_bind, Option.bind_some,
            harg, outErr_eq]
          exact .reject (.err (by decide) (by decide))
      | some n =>
          simp only [harg]
          exact .on hunit (doExpire_acts verb key out clock h arg hunit harg)
  | ttl inMs =>
      obtain ⟨key, rfl⟩ := List.length_eq_one_iff.mp (Nat.succ.inj hfits)
      exact .on trivial (doTtl_acts verb key out clock h inMs)
  | persist =>
      obtain ⟨key, rfl⟩ := List.length_eq_one_iff.mp (Nat.succ.inj hfits)
      exact .on trivial (doPersist_acts verb key out clock h)
  | zadd =>
      obtain ⟨key, arg, name, rfl⟩ :=
        List.length_eq_three.mp (Nat.succ.inj hfits)
      cases harg : str2dbl strtod arg with
      | none =>
          simp only [Handler.run, doZadd, List.getElem?_cons_succ,
            List.getElem?_cons_zero, Option.bind_eq_bind, Option.bind_some,
            harg, outErr_eq]
          exact .reject (.err (by decide) (by decide))
      | some score =>
          simp only [harg]
          exact .on (str2dbl_not_nan harg) (doZadd_acts verb key out clock h
            arg name harg (str2dbl_not_nan harg))
  | zrem =>
      obtain ⟨key, name, rfl⟩ := List.length_eq_two.mp (Nat.succ.inj hfits)
      exact .on trivial (doZrem_acts verb key out clock h name)
  | zscore =>
      obtain ⟨key, name, rfl⟩ := List.length_eq_two.mp (Nat.succ.inj hfits)
      exact .on trivial (doZscore_acts verb key out clock h name)
  | zquery =>
      have hfive := Nat.succ.inj hfits
      obtain ⟨key, rest, rfl⟩ := List.exists_cons_of_length_eq_add_one hfive
      have hfour := Nat.succ.inj hfive
      obtain ⟨arg, rest, rfl⟩ := List.exists_cons_of_length_eq_add_one hfour
      obtain ⟨name, offsetArg, limitArg, rfl⟩ :=
        List.length_eq_three.mp (Nat.succ.inj hfour)
      exact doZquery_answers verb key h arg name offsetArg limitArg

theorem doRequest_answers (h : db.Inv) (strtod : Bytes → Double × Nat)
    (cmd : List Bytes) (out : Bytes) (clock : Clock) :
    Answers db out clock (Request.ofCmd strtod cmd)
      (doRequest strtod cmd db out clock) := by
  cases cmd with
  | nil =>
      simp only [doRequest, outErr_eq]
      exact .reject (.err (by decide) (by decide))
  | cons verb args =>
      cases hdispatch : dispatch (toUpper verb) (verb :: args).length with
      | none =>
          simp only [doRequest, Request.ofCmd, hdispatch, outErr_eq]
          exact .reject (.err (by decide) (by decide))
      | some handler =>
          simp only [doRequest, hdispatch]
          exact run_answers h verb args hdispatch

theorem Request.ofCmd_valid {cmd : List Bytes} {key : Bytes} {op : Op}
    (h : Request.ofCmd strtod cmd = .on key op) : op.Valid := by
  have hanswers := doRequest_answers (Database.Inv.empty none (.inl rfl)) strtod
    cmd [] ⟨0, 0⟩
  rw [h] at hanswers
  cases hanswers with
  | on hvalid _ => exact hvalid

theorem doRequest_on (strtod : Bytes → Double × Nat) {cmd : List Bytes}
    {key : Bytes} {op : Op} {slot : Slot} {value : Value} (h : db.Inv)
    (hrequest : Request.ofCmd strtod cmd = .on key op)
    (hact : op.act key clock.act (live clock.lookup (db.stored key)) =
      some (slot, value)) (out : Bytes) :
    ∃ db', doRequest strtod cmd db out clock =
        some (db', out ++ value.encode) ∧ Stores db db' key slot := by
  have hanswers := doRequest_answers h strtod cmd out clock
  rw [hrequest] at hanswers
  generalize doRequest strtod cmd db out clock = result at hanswers ⊢
  cases hanswers with
  | on _ hacts =>
      rw [hact] at hacts
      cases hacts with
      | reply hstores => exact ⟨_, rfl, hstores⟩

end MiniRedis.Server
