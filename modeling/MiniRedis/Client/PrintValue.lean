import MiniRedis.Protocol.Serialize
import MiniRedis.Protocol.Wire
import MiniRedis.Server.Command

namespace MiniRedis.Client

open MiniRedis.Data
open MiniRedis.Protocol
open MiniRedis.Server (ascii)

/-! The client's reply printer.  `showDouble` is what a stream prints for a
`double`; the text printed so far is returned with the byte count, and a read
outside the buffer or an overflow of `depth` is `none`. -/

def indent (depth : Int) : Bytes :=
  (List.replicate depth.toNat (ascii "  ")).flatten

def showNat (n : Nat) : Bytes := ascii (toString n)

def showInt (x : Int) : Bytes := ascii (toString x)

mutual

/-- `p` is the memory from the pointer on and `n` the length handed over with
it. -/
def printValue (showDouble : Double → Bytes) :
    Nat → Bytes → Nat → Int → Option (Int × Bytes)
  | 0, _, _, _ => none
  | fuel + 1, p, n, depth =>
      if n < 1 then
        some (-1, ascii "(truncated)\n")
      else do
        let tag ← p[0]?
        if tag = serNil then
          some (1, indent depth ++ ascii "(nil)\n")
        else if tag = serInt then
          if n < 9 then
            some (-1, [])
          else do
            let v ← readBytes p 1 8
            some (9, indent depth ++ ascii "(integer) " ++
              showInt (castInt64 (leValue v)) ++ ascii "\n")
        else if tag = serDbl then
          if n < 9 then
            some (-1, [])
          else do
            let v ← readBytes p 1 8
            some (9, indent depth ++ ascii "(double) " ++
              showDouble ⟨UInt64.ofNat (leValue v)⟩ ++ ascii "\n")
        else if tag = serStr then
          if n < 5 then
            some (-1, [])
          else do
            let len ← readU32 p 1
            if n < 5 + len then
              some (-1, [])
            else do
              let s ← readBytes p 5 len
              some (5 + len, indent depth ++ ascii "\"" ++ s ++ ascii "\"\n")
        else if tag = serErr then
          if n < 9 then
            some (-1, [])
          else do
            let code ← readU32 p 1
            let len ← readU32 p 5
            if n < 9 + len then
              some (-1, [])
            else do
              let msg ← readBytes p 9 len
              some (9 + len, indent depth ++ ascii "(error " ++ showNat code ++
                ascii ") " ++ msg ++ ascii "\n")
        else if tag = serArr then
          if n < 5 then
            some (-1, [])
          else do
            let cnt ← readU32 p 1
            let (ret, text) ← printItems showDouble fuel p n depth cnt 5
            some (ret, indent depth ++ ascii "(array of " ++ showNat cnt ++
              ascii ")\n" ++ text)
        else
          some (-1, ascii "(bad tag " ++ showNat tag.toNat ++ ascii ")\n")

/-- The element loop, with `cnt` elements to go and `used` bytes consumed. -/
def printItems (showDouble : Double → Bytes) :
    Nat → Bytes → Nat → Int → Nat → Nat → Option (Int × Bytes)
  | _, _, _, _, 0, used => some (used, [])
  | 0, _, _, _, _ + 1, _ => none
  | fuel + 1, p, n, depth, cnt + 1, used => do
      -- `depth` is an `int`, and nothing limits the nesting of a reply
      let deeper ← checkedInt32 (depth + 1)
      let (c, text) ←
        printValue showDouble fuel (p.drop used) (subUInt64 n used) deeper
      if c < 0 then
        some (-1, text)
      else do
        let (ret, rest) ←
          printItems showDouble fuel p n depth cnt (used + c.toNat)
        some (ret, text ++ rest)

end

/-! What the text of a value is. -/

mutual

def render (showDouble : Double → Bytes) (depth : Int) : Value → Bytes
  | .nil => indent depth ++ ascii "(nil)\n"
  | .err code msg => indent depth ++ ascii "(error " ++ showNat code ++
      ascii ") " ++ msg ++ ascii "\n"
  | .str s => indent depth ++ ascii "\"" ++ s ++ ascii "\"\n"
  | .int x => indent depth ++ ascii "(integer) " ++ showInt x ++ ascii "\n"
  | .dbl x => indent depth ++ ascii "(double) " ++ showDouble x ++ ascii "\n"
  | .arr items => indent depth ++ ascii "(array of " ++
      showNat items.length ++ ascii ")\n" ++
        renderAll showDouble (depth + 1) items

def renderAll (showDouble : Double → Bytes) (depth : Int) :
    List Value → Bytes
  | [] => []
  | value :: rest =>
      render showDouble depth value ++ renderAll showDouble depth rest

end

/-! How many arrays the innermost value is inside of. -/

mutual

def nesting : Value → Nat
  | .arr items => nestingAll items
  | _ => 0

def nestingAll : List Value → Nat
  | [] => 0
  | value :: rest => max (nesting value + 1) (nestingAll rest)

end

inductive Opens : Nat → Bytes → Prop
  | zero (p : Bytes) : Opens 0 p
  | succ {levels cnt : Nat} {items : List Value} {p : Bytes}
      (hcnt : cnt < 2 ^ 32) (hitems : ∀ value ∈ items, value.WellFormed)
      (hlength : items.length < cnt) (hp : Opens levels p) :
      Opens (levels + 1) (serArr :: (leBytes 4 cnt ++ (encodeAll items ++ p)))

def Starts (p : Bytes) (value : Value) : Prop :=
  value.WellFormed ∧ value.encode <+: p

def StartsAll (p : Bytes) (items : List Value) : Prop :=
  (∀ value ∈ items, value.WellFormed) ∧ encodeAll items <+: p

inductive Printed (showDouble : Double → Bytes) (depth : Nat) (p : Bytes) :
    Option (Int × Bytes) → Prop
  | value {value : Value} (hvalue : Starts p value) :
      Printed showDouble depth p
        (some (value.encode.length, render showDouble depth value))
  | bad {text : Bytes} (hnone : ∀ value, ¬ Starts p value) :
      Printed showDouble depth p (some (-1, text))
  | deep (hopens : Opens (2 ^ 31 - depth) p) : Printed showDouble depth p none

inductive PrintedItems (showDouble : Double → Bytes) (depth cnt used : Nat)
    (q : Bytes) : Option (Int × Bytes) → Prop
  | items {items : List Value} (hitems : StartsAll q items)
      (hlength : items.length = cnt) :
      PrintedItems showDouble depth cnt used q
        (some ((used + (encodeAll items).length : Nat),
          renderAll showDouble (depth + 1) items))
  | bad {text : Bytes}
      (hnone : ∀ items, items.length = cnt → ¬ StartsAll q items) :
      PrintedItems showDouble depth cnt used q (some (-1, text))
  | deep {items : List Value} {rest : Bytes}
      (hitems : ∀ value ∈ items, value.WellFormed)
      (hlength : items.length < cnt) (hq : q = encodeAll items ++ rest)
      (hopens : Opens (2 ^ 31 - (depth + 1)) rest) :
      PrintedItems showDouble depth cnt used q none

section Fields

variable {showDouble : Double → Bytes} {depth : Nat} {p tail : Bytes}

def tagWidth (tag : UInt8) : Nat :=
  if tag = serStr ∨ tag = serArr then 5
  else if tag = serErr ∨ tag = serInt ∨ tag = serDbl then 9
  else 1

theorem tagWidth_le {value : Value} {tag : UInt8}
    (h : value.encode[0]? = some tag) : tagWidth tag ≤ value.encode.length := by
  cases value with
  | nil =>
      cases h
      decide
  | err code msg =>
      cases h
      rw [length_encode_err]
      exact Nat.le_add_right 9 _
  | str s =>
      cases h
      rw [length_encode_str]
      exact Nat.le_add_right 5 _
  | int x =>
      cases h
      rw [length_encode_int]
      decide
  | dbl x =>
      cases h
      rw [length_encode_dbl]
      decide
  | arr items =>
      cases h
      rw [length_encode_arr]
      exact Nat.le_add_right 5 _

theorem not_starts_of_short {tag : UInt8}
    (hlength : (tag :: tail).length < tagWidth tag) (value : Value) :
    ¬ Starts (tag :: tail) value := by
  rintro ⟨hvalue, hprefix⟩
  have hle := hprefix.length_le
  obtain ⟨rest, happend⟩ := hprefix
  have hhead : (value.encode ++ rest)[0]? = some tag := by
    rw [happend]
    rfl
  rw [List.getElem?_append_left (encode_pos value)] at hhead
  have hmin := tagWidth_le hhead
  omega

theorem Printed.of_encode {value : Value} {rest text : Bytes} {ret : Int}
    (hvalue : value.WellFormed) (hp : value.encode ++ rest = p)
    (hret : ret = value.encode.length)
    (htext : text = render showDouble depth value) :
    Printed showDouble depth p (some (ret, text)) := by
  subst hret htext
  exact .value ⟨hvalue, rest, hp⟩

theorem readBytes_field (tag : UInt8) (width value : Nat) (rest : Bytes) :
    readBytes (tag :: (leBytes width value ++ rest)) 1 width =
      some (leBytes width value) := by
  have hdrop : (tag :: (leBytes width value ++ rest)).drop 1 =
      leBytes width value ++ rest := rfl
  have hread := readBytes_of_drop (by simp) hdrop
  rwa [length_leBytes] at hread

theorem readU32_field {tag : UInt8} {value : Nat} {rest : Bytes}
    (hvalue : value < 256 ^ 4) :
    readU32 (tag :: (leBytes 4 value ++ rest)) 1 = some value := by
  rw [readU32, readBytes_field, Option.map_some, leValue_leBytes_of_lt hvalue]

theorem exists_string {len : Nat} {bytes : Bytes} (h : len ≤ bytes.length) :
    ∃ s rest, s.length = len ∧ bytes = s ++ rest :=
  ⟨bytes.take len, bytes.drop len, List.length_take_of_le h,
    (List.take_append_drop len bytes).symm⟩

theorem printValue_nil (fuel : Nat) :
    Printed showDouble depth (serNil :: tail)
      (printValue showDouble (fuel + 1) (serNil :: tail)
        (serNil :: tail).length depth) := by
  rw [printValue, if_neg (by simp)]
  simp only [List.getElem?_cons_zero, Option.bind_eq_bind, Option.bind_some,
    if_true]
  exact .of_encode .nil (by rw [Value.encode]; rfl) rfl (by rw [render])

theorem Printed.eight {tag : UInt8} (value : Nat → Value) {text : Bytes → Bytes}
    (htag : tagWidth tag = 9) (hvalue : ∀ bits, (value bits).WellFormed)
    (hencode : ∀ bits < 256 ^ 8, (value bits).encode = tag :: leBytes 8 bits)
    (htext : ∀ bits < 256 ^ 8,
      text (leBytes 8 bits) = render showDouble depth (value bits)) :
    Printed showDouble depth (tag :: tail)
      (if (tag :: tail).length < 9 then some (-1, [])
        else (readBytes (tag :: tail) 1 8).bind fun v => some (9, text v)) := by
  split
  case isTrue hshort =>
      exact Printed.bad (not_starts_of_short (htag ▸ hshort))
  case isFalse hlong =>
      obtain ⟨bits, rest, hbits, rfl⟩ :=
        exists_leBytes (show 8 ≤ tail.length by simpa using hlong)
      rw [readBytes_field, Option.bind_some]
      apply Printed.of_encode (hvalue bits)
      · rw [hencode bits hbits]
        rfl
      · rw [hencode bits hbits, List.length_cons, length_leBytes]
        rfl
      · exact htext bits hbits

theorem printValue_int (fuel : Nat) :
    Printed showDouble depth (serInt :: tail)
      (printValue showDouble (fuel + 1) (serInt :: tail)
        (serInt :: tail).length depth) := by
  have hnil : serInt ≠ serNil := by decide
  rw [printValue, if_neg (by simp)]
  simp only [List.getElem?_cons_zero, Option.bind_eq_bind, Option.bind_some,
    if_neg hnil, if_true]
  apply Printed.eight (fun bits => .int (castInt64 bits)) rfl
  · intro bits
    exact .int (castInt64_range bits).1 (castInt64_range bits).2
  · intro bits hbits
    rw [Value.encode, castUInt64_castInt64 (by simpa using hbits)]
  · intro bits hbits
    rw [leValue_leBytes_of_lt hbits, render]

theorem printValue_dbl (fuel : Nat) :
    Printed showDouble depth (serDbl :: tail)
      (printValue showDouble (fuel + 1) (serDbl :: tail)
        (serDbl :: tail).length depth) := by
  have hnil : serDbl ≠ serNil := by decide
  have hint : serDbl ≠ serInt := by decide
  rw [printValue, if_neg (by simp)]
  simp only [List.getElem?_cons_zero, Option.bind_eq_bind, Option.bind_some,
    if_neg hnil, if_neg hint, if_true]
  apply Printed.eight (fun bits => .dbl ⟨UInt64.ofNat bits⟩) rfl
  · exact fun _ => .dbl
  · intro bits hbits
    rw [Value.encode, UInt64.toNat_ofNat_of_lt' (by simpa using hbits)]
  · intro bits hbits
    rw [leValue_leBytes_of_lt hbits, render]

theorem printValue_str (fuel : Nat) :
    Printed showDouble depth (serStr :: tail)
      (printValue showDouble (fuel + 1) (serStr :: tail)
        (serStr :: tail).length depth) := by
  have hnil : serStr ≠ serNil := by decide
  have hint : serStr ≠ serInt := by decide
  have hdbl : serStr ≠ serDbl := by decide
  rw [printValue, if_neg (by simp)]
  simp only [List.getElem?_cons_zero, Option.bind_eq_bind, Option.bind_some,
    if_neg hnil, if_neg hint, if_neg hdbl, if_true]
  split
  case isTrue hshort =>
      exact Printed.bad (not_starts_of_short hshort)
  case isFalse hlong =>
      obtain ⟨len, rest, hlen, rfl⟩ :=
        exists_leBytes (show 4 ≤ tail.length by simpa using hlong)
      rw [readU32_field hlen, Option.bind_some]
      have hlength : (serStr :: (leBytes 4 len ++ rest)).length =
          5 + rest.length := by
        simp
        omega
      split
      case isTrue hshort =>
          apply Printed.bad
          rintro value ⟨hvalue, rest', happend⟩
          cases hvalue with
          | str hs =>
              simp only [Value.encode, List.cons_append, List.append_assoc]
                at happend
              obtain ⟨hs, rfl⟩ := leBytes_append_inj (by simpa using hs) hlen
                (List.cons.inj happend).2
              simp at hlength hshort
              omega
          | _ => exact absurd (List.cons.inj happend).1 (by decide)
      case isFalse hlong =>
          obtain ⟨s, rest, rfl, rfl⟩ := exists_string
            (show len ≤ rest.length by omega)
          have hdrop : (serStr :: (leBytes 4 s.length ++ (s ++ rest))).drop 5 =
              s ++ rest :=
            List.drop_left' (length_leBytes 4 s.length)
          rw [readBytes_of_drop (by simp) hdrop, Option.bind_some]
          apply Printed.of_encode (.str (by simpa using hlen))
          · simp only [Value.encode, List.cons_append, List.append_assoc]
            rfl
          · rw [length_encode_str]
            rfl
          · rw [render]

theorem printValue_err (fuel : Nat) :
    Printed showDouble depth (serErr :: tail)
      (printValue showDouble (fuel + 1) (serErr :: tail)
        (serErr :: tail).length depth) := by
  have hnil : serErr ≠ serNil := by decide
  have hint : serErr ≠ serInt := by decide
  have hdbl : serErr ≠ serDbl := by decide
  have hstr : serErr ≠ serStr := by decide
  rw [printValue, if_neg (by simp)]
  simp only [List.getElem?_cons_zero, Option.bind_eq_bind, Option.bind_some,
    if_neg hnil, if_neg hint, if_neg hdbl, if_neg hstr, if_true]
  split
  case isTrue hshort =>
      exact Printed.bad (not_starts_of_short hshort)
  case isFalse hlong =>
      have htail : 8 ≤ tail.length := by simpa using hlong
      obtain ⟨code, rest, hcode, rfl⟩ :=
        exists_leBytes (show 4 ≤ tail.length by omega)
      rw [List.length_append, length_leBytes] at htail
      obtain ⟨len, rest, hlen, rfl⟩ :=
        exists_leBytes (show 4 ≤ rest.length by omega)
      have hdrop : (serErr :: (leBytes 4 code ++ (leBytes 4 len ++ rest))).drop 5 =
          writeU32 len ++ rest :=
        List.drop_left' (length_leBytes 4 code)
      rw [readU32_field hcode, Option.bind_some,
        readU32_of_drop (by simp) (by simpa using hlen) hdrop, Option.bind_some]
      have hlength : (serErr ::
          (leBytes 4 code ++ (leBytes 4 len ++ rest))).length =
            9 + rest.length := by
        simp
        omega
      split
      case isTrue hshort =>
          apply Printed.bad
          rintro value ⟨hvalue, rest', happend⟩
          cases hvalue with
          | err hcode' hmsg =>
              simp only [Value.encode, List.cons_append, List.append_assoc]
                at happend
              obtain ⟨-, htail⟩ := leBytes_append_inj (by simpa using hcode')
                hcode (List.cons.inj happend).2
              obtain ⟨hmsg, rfl⟩ :=
                leBytes_append_inj (by simpa using hmsg) hlen htail
              simp at hlength hshort
              omega
          | _ => exact absurd (List.cons.inj happend).1 (by decide)
      case isFalse hlong =>
          obtain ⟨msg, rest, rfl, rfl⟩ := exists_string
            (show len ≤ rest.length by omega)
          have hmsg : (serErr :: (leBytes 4 code ++
              (leBytes 4 msg.length ++ (msg ++ rest)))).drop 9 = msg ++ rest := by
            rw [show (9 : Nat) = 5 + 4 from rfl, ← List.drop_drop, hdrop]
            exact List.drop_left' (length_leBytes 4 msg.length)
          rw [readBytes_of_drop (by simp; omega) hmsg, Option.bind_some]
          apply Printed.of_encode
            (.err (by simpa using hcode) (by simpa using hlen))
          · simp only [Value.encode, List.cons_append, List.append_assoc]
            rfl
          · simp [Value.encode]
            omega
          · rw [render]

theorem printValue_other (fuel : Nat) {tag : UInt8}
    (htag : tag ∉ [serNil, serInt, serDbl, serStr, serErr, serArr]) :
    Printed showDouble depth (tag :: tail)
      (printValue showDouble (fuel + 1) (tag :: tail)
        (tag :: tail).length depth) := by
  simp only [List.mem_cons, List.not_mem_nil, or_false, not_or] at htag
  obtain ⟨hnil, hint, hdbl, hstr, herr, harr⟩ := htag
  rw [printValue, if_neg (by simp)]
  simp only [List.getElem?_cons_zero, Option.bind_eq_bind, Option.bind_some,
    if_neg hnil, if_neg hint, if_neg hdbl, if_neg hstr, if_neg herr,
    if_neg harr]
  apply Printed.bad
  rintro value ⟨hvalue, rest, happend⟩
  cases hvalue <;> exact absurd (List.cons.inj happend).1.symm ‹_›

end Fields

section Calls

variable {showDouble : Double → Bytes} {depth fuel : Nat}

theorem checkedInt32_succ {depth : Nat} (hdepth : depth + 1 < 2 ^ 31) :
    checkedInt32 ((depth : Int) + 1) = some ((depth + 1 : Nat) : Int) := by
  rw [checkedInt32, if_pos (by unfold int32Min int32Max; omega)]
  rfl

theorem printValue_serArr (tail : Bytes) :
    printValue showDouble (fuel + 1) (serArr :: tail) (serArr :: tail).length
        depth =
      if (serArr :: tail).length < 5 then some (-1, [])
      else (readU32 (serArr :: tail) 1).bind fun cnt =>
        (printItems showDouble fuel (serArr :: tail) (serArr :: tail).length
            depth cnt 5).bind
          fun printed => some (printed.1, indent depth ++ ascii "(array of " ++
            showNat cnt ++ ascii ")\n" ++ printed.2) := by
  have hnil : serArr ≠ serNil := by decide
  have hint : serArr ≠ serInt := by decide
  have hdbl : serArr ≠ serDbl := by decide
  have hstr : serArr ≠ serStr := by decide
  have herr : serArr ≠ serErr := by decide
  rw [printValue, if_neg (by simp)]
  simp only [List.getElem?_cons_zero, Option.bind_eq_bind, Option.bind_some,
    if_neg hnil, if_neg hint, if_neg hdbl, if_neg hstr, if_neg herr, if_true]

theorem printValue_arr_eq {cnt : Nat} {rest : Bytes} (hcnt : cnt < 256 ^ 4) :
    printValue showDouble (fuel + 1) (serArr :: (leBytes 4 cnt ++ rest))
        (serArr :: (leBytes 4 cnt ++ rest)).length depth =
      (printItems showDouble fuel (serArr :: (leBytes 4 cnt ++ rest))
          (serArr :: (leBytes 4 cnt ++ rest)).length depth cnt 5).bind
        fun printed => some (printed.1, indent depth ++ ascii "(array of " ++
          showNat cnt ++ ascii ")\n" ++ printed.2) := by
  have hlong : ¬ (serArr :: (leBytes 4 cnt ++ rest)).length < 5 := by
    simp
  rw [printValue_serArr, if_neg hlong, readU32_field hcnt, Option.bind_some]

theorem printValue_arr_short {tail : Bytes} (hshort : tail.length < 4) :
    Printed showDouble depth (serArr :: tail)
      (printValue showDouble (fuel + 1) (serArr :: tail)
        (serArr :: tail).length depth) := by
  have hlength : (serArr :: tail).length < 5 := Nat.succ_lt_succ hshort
  rw [printValue_serArr, if_pos hlength]
  exact Printed.bad (not_starts_of_short hlength)

theorem printValue_arr {cnt : Nat} {q : Bytes} (hdepth : depth < 2 ^ 31)
    (hcnt : cnt < 256 ^ 4)
    (hitems : PrintedItems showDouble depth cnt 5 q
      (printItems showDouble fuel (serArr :: (leBytes 4 cnt ++ q))
        (serArr :: (leBytes 4 cnt ++ q)).length depth cnt 5)) :
    Printed showDouble depth (serArr :: (leBytes 4 cnt ++ q))
      (printValue showDouble (fuel + 1) (serArr :: (leBytes 4 cnt ++ q))
        (serArr :: (leBytes 4 cnt ++ q)).length depth) := by
  rw [printValue_arr_eq hcnt]
  generalize printItems showDouble fuel _ _ depth cnt 5 = result at hitems
  cases hitems with
  | @items items hstarts hlength =>
      obtain ⟨hwf, rest, rfl⟩ := hstarts
      subst hlength
      apply Printed.of_encode (.arr (by simpa using hcnt) hwf)
      · simp only [Value.encode, List.cons_append, List.append_assoc]
        rfl
      · simp [Value.encode]
        omega
      · rw [render]
  | bad hnone =>
      apply Printed.bad
      rintro value ⟨hvalue, rest, happend⟩
      cases hvalue with
      | @arr items hcount hwf =>
          simp only [Value.encode, List.cons_append, List.append_assoc]
            at happend
          obtain ⟨hcount, hrest⟩ := leBytes_append_inj
            (by simpa using hcount) hcnt (List.cons.inj happend).2
          exact hnone items hcount ⟨hwf, rest, hrest⟩
      | _ => exact absurd (List.cons.inj happend).1 (by decide)
  | @deep items rest hwf hlength hq hopens =>
      subst hq
      have hlevels : 2 ^ 31 - depth = 2 ^ 31 - (depth + 1) + 1 := by omega
      apply Printed.deep
      rw [hlevels]
      exact .succ (by simpa using hcnt) hwf hlength hopens

theorem checkedInt32_overflow {depth : Nat} (hdepth : 2 ^ 31 ≤ depth + 1) :
    checkedInt32 ((depth : Int) + 1) = none := by
  rw [checkedInt32, if_neg (by unfold int32Min int32Max; omega)]

theorem Starts.drop {p : Bytes} {used : Nat} {value : Value}
    (h : Starts (p.drop used) value) :
    p.drop used = value.encode ++ p.drop (used + value.encode.length) := by
  obtain ⟨-, rest, happend⟩ := h
  rw [← List.drop_drop, ← happend, List.drop_left]

theorem StartsAll.tail {p rest : Bytes} {value first : Value}
    {items : List Value} (hvalue : value.WellFormed)
    (h : StartsAll p (first :: items)) (hp : p = value.encode ++ rest) :
    StartsAll rest items := by
  obtain ⟨hwf, rest', happend⟩ := h
  rw [encodeAll, List.append_assoc, hp] at happend
  obtain ⟨-, hrest⟩ := (hwf first List.mem_cons_self).readable value _ _
    hvalue happend
  exact ⟨fun item hitem => hwf item (List.mem_cons_of_mem _ hitem), rest', hrest⟩

theorem PrintedItems.cons {value : Value} {cnt used : Nat} {q rest : Bytes}
    {result : Option (Int × Bytes)} (hvalue : value.WellFormed)
    (hq : q = value.encode ++ rest)
    (h : PrintedItems showDouble depth cnt (used + value.encode.length) rest
      result) :
    PrintedItems showDouble depth (cnt + 1) used q
      (result.bind fun printed => some (printed.1,
        render showDouble (depth + 1 : Nat) value ++ printed.2)) := by
  cases h with
  | @items items hrest hlength =>
      obtain ⟨hwf, tail, rfl⟩ := hrest
      have hstarts : StartsAll q (value :: items) :=
        ⟨List.forall_mem_cons.mpr ⟨hvalue, hwf⟩, tail, by
          rw [hq, encodeAll, List.append_assoc]⟩
      have hprinted : PrintedItems showDouble depth (cnt + 1) used q _ :=
        .items hstarts (congrArg (· + 1) hlength)
      rw [encodeAll, List.length_append, ← Nat.add_assoc, renderAll] at hprinted
      exact hprinted
  | bad hnone =>
      apply PrintedItems.bad
      intro items hlength hall
      cases items with
      | nil => cases hlength
      | cons first items =>
          exact hnone items (Nat.succ.inj hlength) (hall.tail hvalue hq)
  | @deep items tail hwf hlength hrest hopens =>
      exact .deep (List.forall_mem_cons.mpr ⟨hvalue, hwf⟩)
        (Nat.succ_lt_succ hlength)
        (by rw [hq, hrest, encodeAll, List.append_assoc]) hopens

theorem printItems_succ {p : Bytes} {cnt used : Nat} (hused : used ≤ p.length)
    (hdeep : depth + 1 < 2 ^ 31) :
    printItems showDouble (fuel + 1) p p.length depth (cnt + 1) used =
      (printValue showDouble fuel (p.drop used) (p.drop used).length
          (depth + 1 : Nat)).bind fun printed =>
        if printed.1 < 0 then
          some (-1, printed.2)
        else
          (printItems showDouble fuel p p.length depth cnt
            (used + printed.1.toNat)).bind fun rest =>
              some (rest.1, printed.2 ++ rest.2) := by
  rw [printItems, checkedInt32_succ hdeep, subUInt64, if_pos hused,
    ← List.length_drop]
  rfl

theorem printItems_value {p text : Bytes} {cnt used len : Nat}
    (hused : used ≤ p.length) (hdeep : depth + 1 < 2 ^ 31)
    (hprinted : printValue showDouble fuel (p.drop used) (p.drop used).length
      (depth + 1 : Nat) = some ((len : Int), text)) :
    printItems showDouble (fuel + 1) p p.length depth (cnt + 1) used =
      (printItems showDouble fuel p p.length depth cnt (used + len)).bind
        fun rest => some (rest.1, text ++ rest.2) := by
  have hneg : ¬ (len : Int) < 0 := by omega
  rw [printItems_succ hused hdeep, hprinted, Option.bind_some, if_neg hneg,
    Int.toNat_natCast]

theorem printItems_overflow {p : Bytes} {n cnt used : Nat}
    (hdeep : 2 ^ 31 ≤ depth + 1) :
    printItems showDouble (fuel + 1) p n depth (cnt + 1) used = none := by
  rw [printItems, checkedInt32_overflow hdeep]
  rfl

theorem printItems_cons {p : Bytes} {cnt used : Nat} (hdepth : depth < 2 ^ 31)
    (hused : used ≤ p.length)
    (hvalue : depth + 1 < 2 ^ 31 → Printed showDouble (depth + 1) (p.drop used)
      (printValue showDouble fuel (p.drop used) (p.drop used).length
        (depth + 1 : Nat)))
    (hitems : ∀ value, Starts (p.drop used) value →
      PrintedItems showDouble depth cnt (used + value.encode.length)
        (p.drop (used + value.encode.length))
        (printItems showDouble fuel p p.length depth cnt
          (used + value.encode.length))) :
    PrintedItems showDouble depth (cnt + 1) used (p.drop used)
      (printItems showDouble (fuel + 1) p p.length depth (cnt + 1) used) := by
  have hnil : ∀ value ∈ ([] : List Value), value.WellFormed := by simp
  by_cases hdeep : depth + 1 < 2 ^ 31
  · have hprinted := hvalue hdeep
    generalize hresult : printValue showDouble fuel _ _ _ = result at hprinted
    cases hprinted with
    | @value value hstarts =>
        rw [printItems_value hused hdeep hresult]
        exact (hitems value hstarts).cons hstarts.1 hstarts.drop
    | bad hnone =>
        rw [printItems_succ hused hdeep, hresult]
        apply PrintedItems.bad
        intro items hlength hall
        cases items with
        | nil => cases hlength
        | cons first items =>
            obtain ⟨hwf, rest, happend⟩ := hall
            rw [encodeAll, List.append_assoc] at happend
            exact hnone first ⟨hwf first List.mem_cons_self, _, happend⟩
    | deep hopens =>
        rw [printItems_succ hused hdeep, hresult]
        exact .deep hnil (by simp) rfl hopens
  · rw [printItems_overflow (by omega)]
    have hlevels : 2 ^ 31 - (depth + 1) = 0 := by omega
    exact .deep hnil (by simp) rfl (hlevels ▸ .zero _)

theorem printValue_step {p : Bytes} (hdepth : depth < 2 ^ 31)
    (hitems : ∀ cnt, 5 ≤ p.length →
      PrintedItems showDouble depth cnt 5 (p.drop 5)
        (printItems showDouble fuel p p.length depth cnt 5)) :
    Printed showDouble depth p
      (printValue showDouble (fuel + 1) p p.length depth) := by
  cases p with
  | nil =>
      apply Printed.bad
      rintro value ⟨_, hprefix⟩
      have hpos := encode_pos value
      rw [List.prefix_nil.mp hprefix] at hpos
      exact absurd hpos (by decide)
  | cons tag tail =>
      by_cases htag : tag ∈ [serNil, serInt, serDbl, serStr, serErr, serArr]
      · simp only [List.mem_cons, List.not_mem_nil, or_false] at htag
        obtain rfl | rfl | rfl | rfl | rfl | rfl := htag
        · exact printValue_nil fuel
        · exact printValue_int fuel
        · exact printValue_dbl fuel
        · exact printValue_str fuel
        · exact printValue_err fuel
        · by_cases hshort : tail.length < 4
          · exact printValue_arr_short hshort
          · obtain ⟨cnt, q, hcnt, rfl⟩ :=
              exists_leBytes (show 4 ≤ tail.length by omega)
            have hloop := hitems cnt (by simp)
            rw [List.drop_succ_cons, List.drop_left' (length_leBytes 4 cnt)]
              at hloop
            exact printValue_arr hdepth hcnt hloop
      · exact printValue_other fuel htag

/-- With fuel for two calls a byte every call returns, and what it returns is
what the buffer starts with. -/
theorem print_parsed (fuel : Nat) :
    (∀ (p : Bytes) (depth : Nat), depth < 2 ^ 31 → 2 * p.length + 1 ≤ fuel →
      Printed showDouble depth p
        (printValue showDouble fuel p p.length depth)) ∧
    ∀ (p : Bytes) (depth cnt used : Nat), depth < 2 ^ 31 → used ≤ p.length →
      2 * (p.length - used) + 2 ≤ fuel →
        PrintedItems showDouble depth cnt used (p.drop used)
          (printItems showDouble fuel p p.length depth cnt used) := by
  induction fuel with
  | zero =>
      constructor
      · intro p depth hdepth hfuel
        omega
      · intro p depth cnt used hdepth hused hfuel
        omega
  | succ fuel ih =>
      obtain ⟨ihvalue, ihitems⟩ := ih
      constructor
      · intro p depth hdepth hfuel
        apply printValue_step hdepth
        intro cnt hlength
        exact ihitems p depth cnt 5 hdepth hlength (by omega)
      · intro p depth cnt used hdepth hused hfuel
        cases cnt with
        | zero =>
            rw [printItems]
            have hstarts : StartsAll (p.drop used) [] :=
              ⟨by simp, by simp [encodeAll]⟩
            exact .items hstarts rfl
        | succ cnt =>
            apply printItems_cons hdepth hused
            · intro hdeep
              apply ihvalue _ _ hdeep
              rw [List.length_drop]
              omega
            · intro value hstarts
              have hpos := encode_pos value
              have hle := hstarts.2.length_le
              rw [List.length_drop] at hle
              exact ihitems p depth cnt _ hdepth (by omega) (by omega)

theorem printValue_printed {p : Bytes} (hdepth : depth < 2 ^ 31)
    (hfuel : 2 * p.length + 1 ≤ fuel) :
    Printed showDouble depth p (printValue showDouble fuel p p.length depth) :=
  (print_parsed fuel).1 p depth hdepth hfuel

theorem printItems_none {p rest : Bytes} {items : List Value} {cnt used : Nat}
    (hwf : ∀ value ∈ items, value.WellFormed)
    (hused : used ≤ p.length) (hdrop : p.drop used = encodeAll items ++ rest)
    (hfuel : 2 * (p.length - used) + 2 ≤ fuel)
    (hrest : ∀ fuel, depth + 1 < 2 ^ 31 → 2 * rest.length + 1 ≤ fuel →
      printValue showDouble fuel rest rest.length (depth + 1 : Nat) = none) :
    printItems showDouble fuel p p.length depth (items.length + cnt + 1) used =
      none := by
  obtain ⟨fuel, rfl⟩ := Nat.exists_eq_succ_of_ne_zero
    (show fuel ≠ 0 by omega)
  by_cases hdeep : depth + 1 < 2 ^ 31
  · induction items generalizing used fuel with
    | nil =>
        have hlength := congrArg List.length hdrop
        rw [List.length_drop, encodeAll, List.nil_append] at hlength
        rw [printItems_succ hused hdeep, hdrop, encodeAll, List.nil_append,
          hrest fuel hdeep (by omega), Option.bind_none]
    | cons value items ih =>
        rw [encodeAll, List.append_assoc] at hdrop
        have hvalue : value.WellFormed := hwf value List.mem_cons_self
        have hstarts : Starts (p.drop used) value := ⟨hvalue, _, hdrop.symm⟩
        have hpos := encode_pos value
        have hle := hstarts.2.length_le
        rw [List.length_drop] at hle
        have hprinted : Printed showDouble (depth + 1) (p.drop used)
            (printValue showDouble fuel (p.drop used) (p.drop used).length
              (depth + 1 : Nat)) :=
          printValue_printed hdeep (by rw [List.length_drop]; omega)
        have hcount : (value :: items).length + cnt + 1 =
            items.length + cnt + 1 + 1 := by
          rw [List.length_cons]
          omega
        rw [hcount]
        generalize hresult : printValue showDouble fuel _ _ _ = result at hprinted
        cases hprinted with
        | @value other hother =>
            obtain ⟨rfl, -⟩ := hvalue.readable other _ _ hother.1
              (hstarts.drop.symm.trans hother.drop)
            have hnext : p.drop (used + value.encode.length) =
                encodeAll items ++ rest :=
              List.append_cancel_left (hstarts.drop.symm.trans hdrop)
            obtain ⟨fuel, rfl⟩ := Nat.exists_eq_succ_of_ne_zero
              (show fuel ≠ 0 by omega)
            rw [printItems_value hused hdeep hresult,
              ih (fun item hitem => hwf item (List.mem_cons_of_mem _ hitem))
              (by omega) hnext fuel (by omega), Option.bind_none]
        | bad hnone => exact absurd hstarts (hnone value)
        | deep hopens =>
            rw [printItems_succ hused hdeep, hresult, Option.bind_none]
  · exact printItems_overflow (by omega)

theorem Opens.printValue_none {levels : Nat} {p : Bytes} (h : Opens levels p)
    (hdepth : depth < 2 ^ 31) (hlevels : 2 ^ 31 ≤ depth + levels)
    (hfuel : 2 * p.length + 1 ≤ fuel) :
    printValue showDouble fuel p p.length depth = none := by
  induction h generalizing depth fuel with
  | zero p => omega
  | @succ levels cnt items p hcnt hwf hlength hp ih =>
      obtain ⟨fuel, rfl⟩ := Nat.exists_eq_succ_of_ne_zero
        (show fuel ≠ 0 by omega)
      obtain ⟨cnt, rfl⟩ := Nat.exists_eq_add_of_lt hlength
      rw [printValue_arr_eq (by simpa using hcnt), printItems_none hwf]
      · rfl
      · simp
      · exact List.drop_left' (length_leBytes 4 _)
      · simp at hfuel ⊢
        omega
      · intro fuel hdeep hfuel
        exact ih hdeep (by omega) hfuel

end Calls

theorem nesting_lt {value : Value} {items : List Value} (h : value ∈ items) :
    nesting value < nestingAll items := by
  induction items with
  | nil => cases h
  | cons first rest ih =>
      rw [nestingAll]
      rcases List.mem_cons.mp h with rfl | hrest
      · omega
      · have hlt := ih hrest
        omega

theorem encodeAll_next {items others : List Value} {rest p : Bytes}
    (hitems : ∀ value ∈ items, value.WellFormed)
    (hothers : ∀ value ∈ others, value.WellFormed)
    (hlength : others.length < items.length)
    (h : encodeAll items ++ rest = encodeAll others ++ p) :
    ∃ value ∈ items, ∃ rest', p = value.encode ++ rest' := by
  induction others generalizing items with
  | nil =>
      cases items with
      | nil => cases hlength
      | cons value items =>
          refine ⟨value, List.mem_cons_self, encodeAll items ++ rest, ?_⟩
          rw [← List.append_assoc, ← encodeAll, h]
          rfl
  | cons other others ih =>
      cases items with
      | nil => cases hlength
      | cons value items =>
          rw [encodeAll, encodeAll, List.append_assoc, List.append_assoc] at h
          obtain ⟨hvalue, hitems⟩ := List.forall_mem_cons.mp hitems
          obtain ⟨hother, hothers⟩ := List.forall_mem_cons.mp hothers
          obtain ⟨-, htail⟩ := hvalue.readable other _ _ hother h
          obtain ⟨next, hmem, hnext⟩ :=
            ih hitems hothers (Nat.lt_of_succ_lt_succ hlength) htail
          exact ⟨next, List.mem_cons_of_mem _ hmem, hnext⟩

theorem Opens.le_nesting {levels : Nat} {p rest : Bytes} {value : Value}
    (h : Opens levels p) (hvalue : value.WellFormed)
    (hp : p = value.encode ++ rest) : levels ≤ nesting value := by
  induction h generalizing value rest with
  | zero p => exact Nat.zero_le _
  | @succ levels cnt items p hcnt hwf hlength hopens ih =>
      cases hvalue with
      | @arr values hcount hvalues =>
          simp only [Value.encode, List.cons_append, List.append_assoc] at hp
          obtain ⟨rfl, htail⟩ := leBytes_append_inj (by simpa using hcnt)
            (by simpa using hcount) (List.cons.inj hp).2
          obtain ⟨next, hmem, rest', hnext⟩ :=
            encodeAll_next hvalues hwf hlength htail.symm
          have hle := ih (hvalues next hmem) hnext
          have hlt := nesting_lt hmem
          rw [nesting]
          omega
      | _ => exact absurd (List.cons.inj hp).1 (by decide)

/-- Up to the depth an `int` counts, the printer consumes and prints exactly
the value a buffer starts with, and rejects every buffer that starts none. -/
theorem printValue_exact (showDouble : Double → Bytes) :
    (∀ (value : Value) (rest : Bytes) (depth fuel : Nat), value.WellFormed →
      depth + nesting value < 2 ^ 31 →
      2 * (value.encode ++ rest).length + 1 ≤ fuel →
        printValue showDouble fuel (value.encode ++ rest)
            (value.encode ++ rest).length depth =
          some ((value.encode.length : Int), render showDouble depth value)) ∧
    (∀ (p : Bytes) (depth fuel : Nat), depth < 2 ^ 31 →
      ¬ Opens (2 ^ 31 - depth) p → 2 * p.length + 1 ≤ fuel →
        ∃ ret text, printValue showDouble fuel p p.length depth =
            some (ret, text) ∧
          (ret = -1 ∨ 1 ≤ ret ∧ ret ≤ p.length ∧
            ∃! value : Value,
              value.WellFormed ∧ p.take ret.toNat = value.encode)) ∧
    ∀ value other : Value, value.WellFormed → other.WellFormed →
      value.encode <+: other.encode → value = other := by
  refine ⟨?_, ?_, ?_⟩
  · intro value rest depth fuel hvalue hnesting hfuel
    have hprinted : Printed showDouble depth (value.encode ++ rest)
        (printValue showDouble fuel (value.encode ++ rest)
          (value.encode ++ rest).length depth) :=
      printValue_printed (by omega) hfuel
    generalize printValue showDouble fuel _ _ depth = result at hprinted ⊢
    cases hprinted with
    | @value other hother =>
        obtain ⟨rest', happend⟩ := hother.2
        obtain ⟨rfl, -⟩ := hvalue.readable other _ _ hother.1 happend.symm
        rfl
    | bad hnone => exact absurd ⟨hvalue, rest, rfl⟩ (hnone value)
    | deep hopens =>
        have hle := hopens.le_nesting hvalue rfl
        omega
  · intro p depth fuel hdepth hopens hfuel
    have hprinted : Printed showDouble depth p
        (printValue showDouble fuel p p.length depth) :=
      printValue_printed hdepth hfuel
    generalize printValue showDouble fuel _ _ depth = result at hprinted ⊢
    cases hprinted with
    | @value value hstarts =>
        have hpos := encode_pos value
        have hle := hstarts.2.length_le
        have htake := List.prefix_iff_eq_take.mp hstarts.2
        refine ⟨_, _, rfl, .inr ⟨by omega, by omega, value, ?_, ?_⟩⟩
        · rw [Int.toNat_natCast, ← htake]
          exact ⟨hstarts.1, rfl⟩
        · rintro other ⟨hother, hencode⟩
          rw [Int.toNat_natCast, ← htake] at hencode
          exact (hother.readable value [] [] hstarts.1 (by rw [hencode])).1
    | bad hnone => exact ⟨-1, _, rfl, .inl rfl⟩
    | deep hdeep => exact absurd hdeep hopens
  · rintro value other hvalue hother ⟨rest, hrest⟩
    exact (hvalue.readable other rest [] hother (by rw [hrest, List.append_nil])).1

def nested : Nat → Value
  | 0 => .nil
  | levels + 1 => .arr [nested levels]

theorem nested_wellFormed (levels : Nat) : (nested levels).WellFormed := by
  induction levels with
  | zero => exact .nil
  | succ levels ih => exact .arr (by simp) (by simpa using ih)

theorem nested_opens (levels : Nat) : Opens levels (nested levels).encode := by
  induction levels with
  | zero => exact .zero _
  | succ levels ih =>
      rw [nested, Value.encode, encodeAll, encodeAll, List.append_nil]
      have hnil : ∀ value ∈ ([] : List Value), value.WellFormed := by simp
      exact .succ (by simp) hnil (by simp) ih

/-- At `2 ^ 31` arrays the depth of the innermost call is no `int`. -/
theorem printValue_depth_overflows : ∃ value : Value, value.WellFormed ∧
    ∀ (showDouble : Double → Bytes) (fuel : Nat),
      2 * value.encode.length + 1 ≤ fuel →
        printValue showDouble fuel value.encode value.encode.length 0 = none := by
  refine ⟨nested (2 ^ 31), nested_wellFormed _, ?_⟩
  intro showDouble fuel hfuel
  exact (nested_opens (2 ^ 31)).printValue_none (by decide) (by decide) hfuel

end MiniRedis.Client
