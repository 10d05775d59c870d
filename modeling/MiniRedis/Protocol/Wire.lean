import MiniRedis.Common.Bytes
import MiniRedis.Data.LittleEndian

namespace MiniRedis.Protocol

open MiniRedis.Data

/-! Request bodies: `[u32 nstr]` followed by `nstr` length-prefixed strings.
Reads go through a cursor, and a read that leaves the buffer is `none`. -/

def maxMsg : Nat := 32 * 1024

def kMaxArgs : Nat := 200 * 1000

def writeU32 (value : Nat) : Bytes := leBytes 4 value

def readBytes (buffer : Bytes) (offset length : Nat) : Option Bytes :=
  if offset + length ≤ buffer.length then
    some ((buffer.drop offset).take length)
  else
    none

def readU32 (buffer : Bytes) (offset : Nat) : Option Nat :=
  (readBytes buffer offset 4).map leValue

/-- The argument loop of `parse_req`, from cursor `offset` with the arguments
`out` already pushed. -/
def parseArgs (buffer : Bytes) (nstr : Nat) :
    Nat → Nat → List Bytes → Option (Int × List Bytes)
  | 0, _, _ => none
  | fuel + 1, offset, out =>
      if out.length < nstr then
        if offset + 4 > buffer.length then
          some (-1, out)
        else do
          let len ← readU32 buffer offset
          if offset + 4 + len > buffer.length then
            some (-1, out)
          else do
            let arg ← readBytes buffer (offset + 4) len
            parseArgs buffer nstr fuel (offset + 4 + len) (out ++ [arg])
      else if offset ≠ buffer.length then
        some (-1, out)
      else
        some (0, out)

def parseReq (buffer : Bytes) (out : List Bytes) : Option (Int × List Bytes) :=
  if 4 > buffer.length then
    some (-1, out)
  else do
    let nstr ← readU32 buffer 0
    if nstr > kMaxArgs then
      some (-1, out)
    else
      parseArgs buffer nstr (nstr + 1) 4 out

/-! The body `send_command` builds. -/

def encodeArg (arg : Bytes) : Bytes := writeU32 arg.length ++ arg

def encodeArgs (args : List Bytes) : Bytes := args.flatMap encodeArg

def encodeReq (args : List Bytes) : Bytes :=
  writeU32 args.length ++ encodeArgs args

@[simp] theorem length_writeU32 (value : Nat) : (writeU32 value).length = 4 := by
  simp [writeU32]

theorem length_encodeReq (args : List Bytes) :
    (encodeReq args).length = 4 + (args.map fun arg => 4 + arg.length).sum := by
  simp [encodeReq, encodeArgs, encodeArg, List.length_flatMap]

theorem leValue_writeU32 {value : Nat} (h : value < 2 ^ 32) :
    leValue (writeU32 value) = value :=
  leValue_leBytes_of_lt (by norm_num at h ⊢; exact h)

theorem writeU32_leValue {bytes : Bytes} (h : bytes.length = 4) :
    writeU32 (leValue bytes) = bytes :=
  leBytes_leValue_of_length h

theorem readBytes_of_drop {buffer chunk rest : Bytes} {offset : Nat}
    (hoffset : offset ≤ buffer.length)
    (hdrop : buffer.drop offset = chunk ++ rest) :
    readBytes buffer offset chunk.length = some chunk := by
  have hlength := congrArg List.length hdrop
  simp only [List.length_drop, List.length_append] at hlength
  rw [readBytes, if_pos (by omega), hdrop, List.take_left']
  rfl

theorem readU32_of_drop {buffer rest : Bytes} {offset value : Nat}
    (hoffset : offset ≤ buffer.length) (hvalue : value < 2 ^ 32)
    (hdrop : buffer.drop offset = writeU32 value ++ rest) :
    readU32 buffer offset = some value := by
  have hread := readBytes_of_drop hoffset hdrop
  rw [length_writeU32] at hread
  simp [readU32, hread, leValue_writeU32 hvalue]

theorem readBytes_of_le (buffer : Bytes) (offset length : Nat)
    (hbound : offset + length ≤ buffer.length) :
    ∃ chunk, readBytes buffer offset length = some chunk ∧
      chunk.length = length ∧
      buffer.drop offset = chunk ++ buffer.drop (offset + length) := by
  refine ⟨(buffer.drop offset).take length, ?_, ?_, ?_⟩
  · simp [readBytes, hbound]
  · simp only [List.length_take, List.length_drop]
    omega
  · rw [← List.drop_drop, List.take_append_drop]

theorem readU32_of_le (buffer : Bytes) (offset : Nat)
    (hbound : offset + 4 ≤ buffer.length) :
    ∃ value, readU32 buffer offset = some value ∧ value < 2 ^ 32 ∧
      buffer.drop offset = writeU32 value ++ buffer.drop (offset + 4) := by
  obtain ⟨chunk, hread, hlength, hdrop⟩ := readBytes_of_le buffer offset 4 hbound
  refine ⟨leValue chunk, by simp [readU32, hread], ?_, ?_⟩
  · have hlt := leValue_lt chunk
    rw [hlength] at hlt
    norm_num at hlt ⊢
    exact hlt
  · rw [writeU32_leValue hlength]
    exact hdrop

theorem parseArgs_encodeArgs (buffer : Bytes) (nstr : Nat) (args : List Bytes) :
    ∀ (fuel offset : Nat) (out : List Bytes),
      offset ≤ buffer.length →
      buffer.drop offset = encodeArgs args →
      (∀ arg ∈ args, arg.length < 2 ^ 32) →
      out.length + args.length = nstr →
      args.length < fuel →
      parseArgs buffer nstr fuel offset out = some (0, out ++ args) := by
  induction args with
  | nil =>
      intro fuel offset out hoffset hdrop _ hcount hfuel
      obtain ⟨fuel, rfl⟩ := Nat.exists_eq_succ_of_ne_zero (by omega : fuel ≠ 0)
      have hend : offset = buffer.length := by
        have := congrArg List.length hdrop
        simp [encodeArgs] at this
        omega
      simp only [List.length_nil] at hcount
      simp [parseArgs, ← hcount, hend]
  | cons arg rest ih =>
      intro fuel offset out hoffset hdrop hshort hcount hfuel
      obtain ⟨fuel, rfl⟩ := Nat.exists_eq_succ_of_ne_zero (by omega : fuel ≠ 0)
      simp only [List.length_cons] at hcount hfuel
      have hsplit : buffer.drop offset =
          writeU32 arg.length ++ (arg ++ encodeArgs rest) := by
        rw [hdrop]
        simp [encodeArgs, encodeArg]
      have hlength := congrArg List.length hsplit
      simp only [List.length_drop, List.length_append, length_writeU32]
        at hlength
      have hlen := readU32_of_drop hoffset (hshort arg (by simp)) hsplit
      have hbody : buffer.drop (offset + 4) = arg ++ encodeArgs rest := by
        rw [← List.drop_drop, hsplit, List.drop_left' (length_writeU32 _)]
      have harg := readBytes_of_drop (by omega) hbody
      have htail : buffer.drop (offset + 4 + arg.length) = encodeArgs rest := by
        rw [← List.drop_drop, hbody, List.drop_left' rfl]
      have hnext := ih fuel (offset + 4 + arg.length) (out ++ [arg])
        (by omega) htail
        (fun other member => hshort other (by simp [member]))
        (by simp; omega) (by omega)
      have hmore : out.length < nstr := by omega
      have hheader : ¬ offset + 4 > buffer.length := by omega
      have hfits : ¬ offset + 4 + arg.length > buffer.length := by omega
      simp [parseArgs, hmore, hheader, hlen, hfits, harg, hnext]

theorem parseArgs_cases (buffer : Bytes) (nstr : Nat) :
    ∀ (fuel offset : Nat) (out : List Bytes),
      offset ≤ buffer.length →
      out.length ≤ nstr →
      nstr - out.length < fuel →
      (∃ args, parseArgs buffer nstr fuel offset out = some (0, out ++ args) ∧
        buffer.drop offset = encodeArgs args ∧
        out.length + args.length = nstr ∧
        ∀ arg ∈ args, arg.length < 2 ^ 32) ∨
      ∃ partialOut,
        parseArgs buffer nstr fuel offset out = some (-1, partialOut) := by
  intro fuel
  induction fuel with
  | zero => intro offset out _ _ hfuel; omega
  | succ fuel ih =>
      intro offset out hoffset hcount hfuel
      by_cases hmore : out.length < nstr
      · by_cases hheader : offset + 4 > buffer.length
        · exact .inr ⟨out, by simp [parseArgs, hmore, hheader]⟩
        · obtain ⟨len, hread, hlen, hdrop⟩ :=
            readU32_of_le buffer offset (by omega)
          by_cases hover : offset + 4 + len > buffer.length
          · exact .inr ⟨out, by simp [parseArgs, hmore, hheader, hread, hover]⟩
          · obtain ⟨arg, harg, harglen, hargdrop⟩ :=
              readBytes_of_le buffer (offset + 4) len (by omega)
            have hstep : parseArgs buffer nstr (fuel + 1) offset out =
                parseArgs buffer nstr fuel (offset + 4 + len)
                  (out ++ [arg]) := by
              simp [parseArgs, hmore, hheader, hread, hover, harg]
            rw [hstep]
            rcases ih (offset + 4 + len) (out ++ [arg]) (by omega)
                (by simp; omega) (by simp; omega) with
              ⟨args, hargs, htail, htotal, hshort⟩ | ⟨partialOut, hfail⟩
            · refine .inl ⟨arg :: args, ?_, ?_, ?_, ?_⟩
              · simpa using hargs
              · rw [hdrop, hargdrop, htail, ← harglen]
                simp [encodeArgs, encodeArg]
              · simp at htotal ⊢
                omega
              · intro other member
                rcases List.mem_cons.mp member with rfl | member
                · omega
                · exact hshort other member
            · exact .inr ⟨partialOut, hfail⟩
      · by_cases hend : offset = buffer.length
        · refine .inl ⟨[], ?_, ?_, ?_, ?_⟩
          · simp [parseArgs, hmore, hend]
          · simp [hend, encodeArgs]
          · simp
            omega
          · simp
        · exact .inr ⟨out, by simp [parseArgs, hmore, hend]⟩

def Encodable (args : List Bytes) : Prop :=
  args.length ≤ kMaxArgs ∧ ∀ arg ∈ args, arg.length < 2 ^ 32

theorem parseReq_encodeReq {args : List Bytes} (hargs : Encodable args) :
    parseReq (encodeReq args) [] = some (0, args) := by
  obtain ⟨hcount, hshort⟩ := hargs
  have hlength : (encodeReq args).length = 4 + (encodeArgs args).length := by
    simp [encodeReq]
  have hnstr : readU32 (encodeReq args) 0 = some args.length := by
    have hbound : args.length < 2 ^ 32 := by
      unfold kMaxArgs at hcount
      omega
    exact readU32_of_drop (Nat.zero_le _) hbound rfl
  have hdrop : (encodeReq args).drop 4 = encodeArgs args :=
    List.drop_left' (length_writeU32 _)
  have hloop := parseArgs_encodeArgs (encodeReq args) args.length args
    (args.length + 1) 4 [] (by omega) hdrop hshort (by simp) (by omega)
  have hheader : ¬ 4 > (encodeReq args).length := by omega
  have hcap : ¬ args.length > kMaxArgs := by omega
  simp only [parseReq, if_neg hheader, hnstr, Option.bind_eq_bind,
    Option.bind_some, if_neg hcap]
  simpa using hloop

theorem parseReq_cases (buffer : Bytes) :
    (∃ args, parseReq buffer [] = some (0, args) ∧
      buffer = encodeReq args ∧ Encodable args) ∨
    ∃ partialOut, parseReq buffer [] = some (-1, partialOut) := by
  by_cases hheader : 4 > buffer.length
  · exact .inr ⟨[], by simp [parseReq, hheader]⟩
  · obtain ⟨nstr, hread, _, hdrop⟩ :=
      readU32_of_le buffer 0 (by omega)
    by_cases hcap : nstr > kMaxArgs
    · exact .inr ⟨[], by simp [parseReq, hheader, hread, hcap]⟩
    · have hstep : parseReq buffer [] =
          parseArgs buffer nstr (nstr + 1) 4 [] := by
        simp [parseReq, hheader, hread, hcap]
      rw [hstep]
      rcases parseArgs_cases buffer nstr (nstr + 1) 4 [] (by omega)
          (by simp) (by simp) with
        ⟨args, hargs, htail, htotal, hshort⟩ | ⟨partialOut, hfail⟩
      · simp only [List.length_nil, Nat.zero_add] at htotal
        refine .inl ⟨args, by simpa using hargs, ?_, by omega, hshort⟩
        have hwhole : buffer = writeU32 nstr ++ buffer.drop 4 := by
          simpa using hdrop
        rw [encodeReq, htotal, ← htail]
        exact hwhole
      · exact .inr ⟨partialOut, hfail⟩

/-- `parse_req` accepts exactly the bodies the client builds, inverts the
encoder on them, rejects every other buffer and never reads past the end. -/
theorem parseReq_exact (buffer : Bytes) :
    (∀ args, parseReq buffer [] = some (0, args) ↔
      buffer = encodeReq args ∧ Encodable args) ∧
    ((¬ ∃ args, buffer = encodeReq args ∧ Encodable args) →
      ∃ partialOut, parseReq buffer [] = some (-1, partialOut)) ∧
    parseReq buffer [] ≠ none := by
  refine ⟨fun args => ⟨fun haccept => ?_, ?_⟩, ?_, ?_⟩
  · rcases parseReq_cases buffer with ⟨found, hfound, hencoded⟩ | ⟨_, hfail⟩
    · rw [hfound] at haccept
      cases haccept
      exact hencoded
    · rw [hfail] at haccept
      simp at haccept
  · rintro ⟨rfl, hargs⟩
    exact parseReq_encodeReq hargs
  · intro hother
    rcases parseReq_cases buffer with ⟨args, _, hencoded⟩ | hfail
    · exact absurd ⟨args, hencoded⟩ hother
    · exact hfail
  · rcases parseReq_cases buffer with ⟨_, h, _⟩ | ⟨_, h⟩ <;> simp [h]

end MiniRedis.Protocol
