import MiniRedis.Common.Bytes
import MiniRedis.Data.Double
import MiniRedis.Data.LittleEndian
import MiniRedis.Data.MachineInt

namespace MiniRedis.Protocol

open MiniRedis.Data

/-! Typed replies.  The `out` functions append to a response buffer; a failed
assertion or a write outside the buffer is `none`. -/

def serNil : UInt8 := 0

def serErr : UInt8 := 1

def serStr : UInt8 := 2

def serInt : UInt8 := 3

def serDbl : UInt8 := 4

def serArr : UInt8 := 5

def errUnknown : Nat := 1

def errArg : Nat := 2

def errType : Nat := 3

def putU8 (out : Bytes) (v : UInt8) : Bytes := out ++ [v]

/-- The cast to `uint32_t` keeps the low four bytes. -/
def putU32 (out : Bytes) (v : Nat) : Bytes := out ++ leBytes 4 v

def putI64 (out : Bytes) (v : Int) : Bytes := out ++ leBytes 8 (castUInt64 v)

def putF64 (out : Bytes) (v : Double) : Bytes := out ++ leBytes 8 v.bits.toNat

def outNil (out : Bytes) : Bytes := putU8 out serNil

def outStr (out : Bytes) (s : Bytes) : Bytes :=
  putU32 (putU8 out serStr) s.length ++ s

def outInt (out : Bytes) (x : Int) : Bytes := putI64 (putU8 out serInt) x

def outDbl (out : Bytes) (x : Double) : Bytes := putF64 (putU8 out serDbl) x

def outErr (out : Bytes) (code : Nat) (msg : Bytes) : Bytes :=
  putU32 (putU32 (putU8 out serErr) code) msg.length ++ msg

def outArr (out : Bytes) (n : Nat) : Bytes := putU32 (putU8 out serArr) n

/-- The header with a placeholder count, and the placeholder's offset. -/
def outBeginArr (out : Bytes) : Bytes × Nat :=
  let out := putU32 (putU8 out serArr) 0
  (out, out.length - 4)

def outEndArr (out : Bytes) (ctx n : Nat) : Option Bytes := do
  let tag ← out[ctx - 1]?
  if tag = serArr ∧ ctx + 4 ≤ out.length then
    some (out.take ctx ++ leBytes 4 n ++ out.drop (ctx + 4))
  else
    none

/-! The grammar of replies. -/

inductive Value
  | nil
  | err (code : Nat) (msg : Bytes)
  | str (s : Bytes)
  | int (x : Int)
  | dbl (x : Double)
  | arr (items : List Value)

mutual

def Value.encode : Value → Bytes
  | .nil => [serNil]
  | .err code msg => serErr :: (leBytes 4 code ++ leBytes 4 msg.length ++ msg)
  | .str s => serStr :: (leBytes 4 s.length ++ s)
  | .int x => serInt :: leBytes 8 (castUInt64 x)
  | .dbl x => serDbl :: leBytes 8 x.bits.toNat
  | .arr items => serArr :: (leBytes 4 items.length ++ encodeAll items)

def encodeAll : List Value → Bytes
  | [] => []
  | value :: rest => value.encode ++ encodeAll rest

end

inductive Value.WellFormed : Value → Prop
  | nil : WellFormed .nil
  | err {code : Nat} {msg : Bytes} (hcode : code < 2 ^ 32)
      (hmsg : msg.length < 2 ^ 32) : WellFormed (.err code msg)
  | str {s : Bytes} (hs : s.length < 2 ^ 32) : WellFormed (.str s)
  | int {x : Int} (hlow : int64Min ≤ x) (hhigh : x ≤ int64Max) :
      WellFormed (.int x)
  | dbl {x : Double} : WellFormed (.dbl x)
  | arr {items : List Value} (hcount : items.length < 2 ^ 32)
      (hitems : ∀ value ∈ items, WellFormed value) : WellFormed (.arr items)

theorem encode_pos (value : Value) : 0 < value.encode.length := by
  cases value <;> exact Nat.succ_pos _

theorem length_encode_str (s : Bytes) :
    (Value.str s).encode.length = 5 + s.length := by
  change (leBytes 4 s.length ++ s).length + 1 = 5 + s.length
  rw [List.length_append, length_leBytes]
  omega

theorem length_encode_err (code : Nat) (msg : Bytes) :
    (Value.err code msg).encode.length = 9 + msg.length := by
  change (leBytes 4 code ++ leBytes 4 msg.length ++ msg).length + 1 =
    9 + msg.length
  rw [List.length_append, List.length_append, length_leBytes, length_leBytes]
  omega

theorem length_encode_int (x : Int) : (Value.int x).encode.length = 9 :=
  congrArg Nat.succ (length_leBytes 8 (castUInt64 x))

theorem length_encode_dbl (x : Double) : (Value.dbl x).encode.length = 9 :=
  congrArg Nat.succ (length_leBytes 8 x.bits.toNat)

theorem length_encode_arr (items : List Value) :
    (Value.arr items).encode.length =
      5 + (items.map fun item => item.encode.length).sum := by
  have hitems : (encodeAll items).length =
      (items.map fun item => item.encode.length).sum := by
    induction items with
    | nil => rfl
    | cons item items ih => simp [encodeAll, ih]
  simp [Value.encode, hitems]
  omega

@[simp] theorem outNil_eq (out : Bytes) :
    outNil out = out ++ Value.nil.encode := by
  rw [outNil, putU8, Value.encode]

@[simp] theorem outStr_eq (out s : Bytes) :
    outStr out s = out ++ (Value.str s).encode := by
  rw [outStr, putU32, putU8, List.append_assoc, List.append_assoc]
  rfl

@[simp] theorem outInt_eq (out : Bytes) (x : Int) :
    outInt out x = out ++ (Value.int x).encode :=
  List.append_assoc out [serInt] (leBytes 8 (castUInt64 x))

@[simp] theorem outDbl_eq (out : Bytes) (x : Double) :
    outDbl out x = out ++ (Value.dbl x).encode :=
  List.append_assoc out [serDbl] (leBytes 8 x.bits.toNat)

@[simp] theorem outErr_eq (out : Bytes) (code : Nat) (msg : Bytes) :
    outErr out code msg = out ++ (Value.err code msg).encode := by
  simp only [outErr, putU32, putU8, List.append_assoc]
  rfl

theorem outArr_eq (out : Bytes) (items : List Value) :
    outArr out items.length ++ encodeAll items =
      out ++ (Value.arr items).encode := by
  rw [outArr, putU32, putU8, List.append_assoc, List.append_assoc]
  rfl

/-- Patching the count in after the elements, with nothing before it
altered. -/
theorem outEndArr_eq (out : Bytes) (items : List Value) :
    outEndArr ((outBeginArr out).1 ++ encodeAll items) (outBeginArr out).2
        items.length =
      some (out ++ (Value.arr items).encode) := by
  have hlength : (leBytes 4 0).length = 4 := length_leBytes 4 0
  have hbuffer : (outBeginArr out).1 ++ encodeAll items =
      (out ++ [serArr]) ++ (leBytes 4 0 ++ encodeAll items) := by
    simp [outBeginArr, putU8, putU32]
  have hctx : (outBeginArr out).2 = (out ++ [serArr]).length := by
    simp [outBeginArr, putU8, putU32, hlength]
  rw [hbuffer, hctx]
  have htag : ((out ++ [serArr]) ++ (leBytes 4 0 ++ encodeAll items))[
      (out ++ [serArr]).length - 1]? = some serArr := by
    rw [List.getElem?_append_left (by simp)]
    simp
  have htail : ((out ++ [serArr]) ++ (leBytes 4 0 ++ encodeAll items)).drop
      ((out ++ [serArr]).length + 4) = encodeAll items := by
    rw [← List.drop_drop, List.drop_left]
    exact List.drop_left' hlength
  simp only [outEndArr, htag, Option.bind_eq_bind, Option.bind_some, htail,
    List.take_left]
  rw [if_pos ⟨trivial, by simp [hlength]; omega⟩]
  simp [Value.encode]

/-! A buffer starts with at most one value. -/

def Value.Readable (value : Value) : Prop :=
  ∀ (other : Value) (rest rest' : Bytes), other.WellFormed →
    value.encode ++ rest = other.encode ++ rest' → value = other ∧ rest = rest'

theorem encodeAll_readable {items : List Value}
    (hitems : ∀ value ∈ items, value.Readable) {others : List Value}
    (hothers : ∀ value ∈ others, value.WellFormed)
    (hlength : items.length = others.length) {rest rest' : Bytes}
    (h : encodeAll items ++ rest = encodeAll others ++ rest') :
    items = others ∧ rest = rest' := by
  induction items generalizing others with
  | nil =>
      cases others with
      | nil => exact ⟨rfl, h⟩
      | cons other others => cases hlength
  | cons value items ih =>
      cases others with
      | nil => cases hlength
      | cons other others =>
          rw [encodeAll, encodeAll, List.append_assoc, List.append_assoc] at h
          obtain ⟨rfl, htail⟩ := hitems value List.mem_cons_self other _ _
            (hothers other List.mem_cons_self) h
          obtain ⟨rfl, hrest⟩ := ih
            (fun item hitem => hitems item (List.mem_cons_of_mem _ hitem))
            (fun item hitem => hothers item (List.mem_cons_of_mem _ hitem))
            (Nat.succ.inj hlength) htail
          exact ⟨rfl, hrest⟩

theorem Value.WellFormed.readable {value : Value} (hvalue : value.WellFormed) :
    value.Readable := by
  induction hvalue with
  | nil =>
      intro other rest rest' hother h
      cases hother with
      | nil => exact ⟨rfl, (List.cons.inj h).2⟩
      | _ => exact absurd (List.cons.inj h).1 (by decide)
  | err hcode hmsg =>
      intro other rest rest' hother h
      cases hother with
      | err hcode' hmsg' =>
          simp only [Value.encode, List.cons_append, List.append_assoc] at h
          obtain ⟨rfl, htail⟩ :=
            leBytes_append_inj hcode hcode' (List.cons.inj h).2
          obtain ⟨hlength, htail⟩ := leBytes_append_inj hmsg hmsg' htail
          obtain ⟨rfl, hrest⟩ := List.append_inj htail hlength
          exact ⟨rfl, hrest⟩
      | _ => exact absurd (List.cons.inj h).1 (by decide)
  | str hs =>
      intro other rest rest' hother h
      cases hother with
      | str hs' =>
          simp only [Value.encode, List.cons_append, List.append_assoc] at h
          obtain ⟨hlength, htail⟩ :=
            leBytes_append_inj hs hs' (List.cons.inj h).2
          obtain ⟨rfl, hrest⟩ := List.append_inj htail hlength
          exact ⟨rfl, hrest⟩
      | _ => exact absurd (List.cons.inj h).1 (by decide)
  | int hlow hhigh =>
      intro other rest rest' hother h
      cases hother with
      | int hlow' hhigh' =>
          obtain ⟨hcast, hrest⟩ := leBytes_append_inj (castUInt64_lt _)
            (castUInt64_lt _) (List.cons.inj h).2
          rw [castUInt64_inj hlow hhigh hlow' hhigh' hcast]
          exact ⟨rfl, hrest⟩
      | _ => exact absurd (List.cons.inj h).1 (by decide)
  | dbl =>
      intro other rest rest' hother h
      cases hother with
      | dbl =>
          obtain ⟨hbits, hrest⟩ := leBytes_append_inj (UInt64.toNat_lt _)
            (UInt64.toNat_lt _) (List.cons.inj h).2
          exact ⟨congrArg (fun bits => Value.dbl ⟨bits⟩)
            (UInt64.toNat_inj.mp hbits), hrest⟩
      | _ => exact absurd (List.cons.inj h).1 (by decide)
  | arr hcount hitems ih =>
      intro other rest rest' hother h
      cases hother with
      | arr hcount' hitems' =>
          simp only [Value.encode, List.cons_append, List.append_assoc] at h
          obtain ⟨hlength, htail⟩ :=
            leBytes_append_inj hcount hcount' (List.cons.inj h).2
          obtain ⟨rfl, hrest⟩ :=
            encodeAll_readable ih hitems' hlength htail
          exact ⟨rfl, hrest⟩
      | _ => exact absurd (List.cons.inj h).1 (by decide)

end MiniRedis.Protocol
