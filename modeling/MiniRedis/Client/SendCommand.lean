import MiniRedis.Client.PrintValue
import MiniRedis.Data.Program
import Mathlib.Data.List.TakeWhile

namespace MiniRedis.Client

open MiniRedis.Data MiniRedis.Protocol
open MiniRedis.Server (ascii isSpace)

/-! The client as a program over the calls it makes. -/

/-- `print` and `complain` are the two output streams; `undefined` stands for
undefined behaviour and never returns. -/
inductive Call
  | write (buffer : Bytes)
  | read (count : Nat)
  | print (text : Bytes)
  | complain (text : Bytes)
  | close
  | undefined

/-- `none` is a negative result of `write` or `read`. Neither moves more bytes
than it was asked to. -/
abbrev Answer : Call → Type
  | .write buffer => Option (Fin (buffer.length + 1))
  | .read count => Option { chunk : Bytes // chunk.length ≤ count }
  | .print _ => Unit
  | .complain _ => Unit
  | .close => Unit
  | .undefined => Empty

def writeAll (buffer : Bytes) : Program Answer Int :=
  if _hrest : buffer = [] then
    .done 0
  else
    .call (.write buffer) fun
      | none => .done (-1)
      | some rv =>
          if hrv : rv.val = 0 then .done (-1)
          else writeAll (buffer.drop rv.val)
termination_by buffer.length
decreasing_by
  have _ := List.length_pos_iff.mpr _hrest
  rw [List.length_drop]
  omega

/-- With the bytes that were read. -/
def readFull (count : Nat) : Program Answer (Int × Bytes) :=
  if _hrest : count = 0 then
    .done (0, [])
  else
    .call (.read count) fun
      | none => .done (-1, [])
      | some chunk =>
          if hchunk : chunk.val.length = 0 then .done (-1, [])
          else (readFull (count - chunk.val.length)).bind fun (rc, rest) =>
            .done (rc, chunk.val ++ rest)
termination_by count

def crash : Program Answer Int :=
  .call .undefined fun answer => Empty.elim answer

def say (request : Call) (rc : Int) : Program Answer Int :=
  (Program.ask request).bind fun _ => .done rc

/-- The second half of `send_command`. `showDouble` is what a stream prints for
a `double`; the result of `print_value` is not used. -/
def readReply (showDouble : Double → Bytes) : Program Answer Int :=
  (readFull 4).bind fun (rc, hdr) =>
  if rc ≠ 0 then
    say (.complain (ascii "server closed\n")) (-1)
  else
    let total := leValue hdr
    if total < 1 ∨ total > maxMsg then
      say (.complain (ascii "bad reply\n")) (-1)
    else (readFull total).bind fun (rc, resp) =>
    if rc ≠ 0 then
      .done (-1)
    else
      match printValue showDouble (2 * resp.length + 1) resp resp.length 0 with
      | none => crash
      | some (_, text) => say (.print text) 0

def sendCommand (showDouble : Double → Bytes) (args : List Bytes) :
    Program Answer Int :=
  let body := encodeReq args
  if body.length > maxMsg then
    say (.complain (ascii "command too long\n")) (-1)
  else (writeAll (writeU32 body.length)).bind fun rc =>
  if rc ≠ 0 then
    .done (-1)
  else (writeAll body).bind fun rc =>
  if rc ≠ 0 then
    .done (-1)
  else
    readReply showDouble

theorem length_dropWhile_word {line rest : Bytes}
    (hline : line.dropWhile isSpace = rest) (hrest : rest ≠ []) :
    (rest.dropWhile fun c => !isSpace c).length < line.length := by
  obtain ⟨c, tail, rfl⟩ := List.exists_cons_of_ne_nil hrest
  have hc : isSpace c = false := by
    have hhead := List.head?_dropWhile_not isSpace line
    rw [hline] at hhead
    exact hhead
  have hle := List.length_dropWhile_le isSpace line
  have htail := List.length_dropWhile_le (fun c => !isSpace c) tail
  rw [List.dropWhile_cons_of_pos (by rw [hc]; rfl)]
  rw [hline, List.length_cons] at hle
  omega

def split (line : Bytes) : List Bytes :=
  let rest := line.dropWhile isSpace
  if _hrest : rest = [] then
    []
  else
    rest.takeWhile (fun c => !isSpace c) ::
      split (rest.dropWhile fun c => !isSpace c)
termination_by line.length
decreasing_by exact length_dropWhile_word rfl _hrest

/-- `main` with a command in its arguments, once it is connected. -/
def oneShot (showDouble : Double → Bytes) (args : List Bytes) :
    Program Answer Int :=
  (sendCommand showDouble args).bind fun rc =>
  (Program.ask .close).bind fun _ =>
  .done (if rc = 0 then 0 else 1)

def greeting : Bytes :=
  ascii "Connected. Type commands (e.g. 'set foo bar', 'keys'); 'exit' to quit.\n"

def prompt : Bytes := ascii "> "

/-- The loop of `main` over the lines of its input. -/
def repl (showDouble : Double → Bytes) : List Bytes → Program Answer Unit
  | [] => (Program.ask (.print prompt)).bind fun _ => .done ()
  | line :: lines =>
      (Program.ask (.print prompt)).bind fun _ =>
      if line = ascii "exit" then .done ()
      else
        let args := split line
        if args ≠ [] then
          (sendCommand showDouble args).bind fun rc =>
          if rc ≠ 0 then .done () else repl showDouble lines
        else
          repl showDouble lines

/-- `main` without arguments, once it is connected. -/
def interactive (showDouble : Double → Bytes) (lines : List Bytes) :
    Program Answer Int :=
  (Program.ask (.print greeting)).bind fun _ =>
  (repl showDouble lines).bind fun _ =>
  (Program.ask .close).bind fun _ =>
  .done 0

end MiniRedis.Client
