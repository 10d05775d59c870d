import MiniRedis.Server.DatabaseRuns
import Mathlib.Data.List.TakeWhile
import Mathlib.Data.Nat.Find

namespace MiniRedis.Server

open MiniRedis.Data MiniRedis.Ds MiniRedis.Store MiniRedis.Protocol

/-! The texts that are a number in full. -/

def unsigned (s : Bytes) : Bytes := s.drop (signLength s)

/-- White space, a sign and one or more decimal digits. -/
def isInteger (s : Bytes) : Bool :=
  let digits := unsigned (s.dropWhile isSpace)
  !digits.isEmpty && digits.all isDigit

def integerValue (s : Bytes) : Int :=
  let rest := s.dropWhile isSpace
  let value : Int := digitsValue (unsigned rest)
  clampInt64 (if rest.head? = some 45 then -value else value)

def isHexDigit (c : UInt8) : Bool :=
  isDigit c || (97 ≤ c && c ≤ 102) || (65 ≤ c && c ≤ 70)

def isExponent (mark : UInt8) : Bytes → Bool
  | [] => true
  | c :: rest =>
      (c == mark || c == mark - 32) && !(unsigned rest).isEmpty &&
        (unsigned rest).all isDigit

def isMantissa (digit : UInt8 → Bool) (mark : UInt8) (s : Bytes) : Bool :=
  let whole := s.takeWhile digit
  let rest := s.dropWhile digit
  if rest.head? = some 46 then
    let fraction := rest.tail.takeWhile digit
    (!whole.isEmpty || !fraction.isEmpty) &&
      isExponent mark (rest.tail.dropWhile digit)
  else
    !whole.isEmpty && isExponent mark rest

def isDecimal (s : Bytes) : Bool := isMantissa isDigit 101 s

def isHex (s : Bytes) : Bool :=
  toUpper (s.take 2) == ascii "0X" && isMantissa isHexDigit 112 (s.drop 2)

def isInf (s : Bytes) : Bool :=
  toUpper s == ascii "INF" || toUpper s == ascii "INFINITY"

def isNChar (c : UInt8) : Bool :=
  isDigit c || (97 ≤ c && c ≤ 122) || (65 ≤ c && c ≤ 90) || c == 95

def isNanBody (s : Bytes) : Bool :=
  toUpper (s.take 3) == ascii "NAN" &&
    (let rest := s.drop 3
    rest.isEmpty ||
      (rest.head? == some 40 && rest.getLast? == some 41 &&
        rest.tail.dropLast.all isNChar))

/-- White space, a sign and a number with at least one digit, or infinity. -/
def isNumber (s : Bytes) : Bool :=
  let body := unsigned (s.dropWhile isSpace)
  isDecimal body || isHex body || isInf body

def isNanText (s : Bytes) : Bool :=
  isNanBody (unsigned (s.dropWhile isSpace))

/-- The longest beginning of `s` that `strtod` converts, or 0. -/
def subjectEnd (s : Bytes) : Nat :=
  Nat.findGreatest
    (fun n => (isNumber (s.take n) || isNanText (s.take n)) = true) s.length

/-- `strtod` on C strings as the C standard has it. -/
structure Standard (strtod : Bytes → Double × Nat) : Prop where
  stop : ∀ s : Bytes, 0 ∉ s → (strtod s).2 = subjectEnd s
  nan : ∀ s : Bytes, 0 ∉ s →
    ((strtod s).1.isNaN = true ↔ isNanText (s.take (subjectEnd s)) = true)

/-! No number has a NUL in it. -/

theorem not_mem_of_all {p : UInt8 → Bool} (hp : p 0 = false) {s : Bytes}
    (h : s.all p = true) : 0 ∉ s := by
  intro hmem
  have hzero := List.all_eq_true.mp h 0 hmem
  rw [hp] at hzero
  cases hzero

theorem mem_dropWhile_of_mem {p : UInt8 → Bool} (hp : p 0 = false) {s : Bytes}
    (h : 0 ∈ s) : 0 ∈ s.dropWhile p := by
  have hsplit : s.takeWhile p ++ s.dropWhile p = s :=
    List.takeWhile_append_dropWhile
  rw [← hsplit] at h
  rcases List.mem_append.mp h with hmem | hmem
  · have hzero := List.mem_takeWhile_imp hmem
    rw [hp] at hzero
    cases hzero
  · exact hmem

theorem mem_unsigned_of_mem {s : Bytes} (h : 0 ∈ s) : 0 ∈ unsigned s := by
  cases s with
  | nil => exact h
  | cons c rest =>
      by_cases hsign : c = 43 ∨ c = 45
      · have hrest : 0 ∈ rest := by
          rcases List.mem_cons.mp h with rfl | hmem
          · simp at hsign
          · exact hmem
        simpa [unsigned, signLength, hsign] using hrest
      · simpa [unsigned, signLength, hsign] using h

theorem mem_body_of_mem {s : Bytes} (h : 0 ∈ s) :
    0 ∈ unsigned (s.dropWhile isSpace) :=
  mem_unsigned_of_mem (mem_dropWhile_of_mem rfl h)

theorem isInteger_no_nul {s : Bytes} (h : isInteger s = true) : 0 ∉ s := by
  intro hmem
  simp only [isInteger, Bool.and_eq_true] at h
  exact not_mem_of_all rfl h.2 (mem_body_of_mem hmem)

theorem mem_toUpper_of_mem {s : Bytes} (h : 0 ∈ s) : 0 ∈ toUpper s :=
  List.mem_map.mpr ⟨0, h, rfl⟩

theorem isExponent_no_nul {mark : UInt8} {s : Bytes}
    (hmark : mark ≠ 0 ∧ mark - 32 ≠ 0) (h : isExponent mark s = true) :
    0 ∉ s := by
  cases s with
  | nil => exact List.not_mem_nil
  | cons c rest =>
      simp only [isExponent, Bool.and_eq_true, Bool.or_eq_true, beq_iff_eq] at h
      obtain ⟨⟨hc, _⟩, hdigits⟩ := h
      rw [List.mem_cons, not_or]
      constructor
      · rintro rfl
        rcases hc with heq | heq
        · exact hmark.1 heq.symm
        · exact hmark.2 heq.symm
      · exact fun hmem =>
          not_mem_of_all rfl hdigits (mem_unsigned_of_mem hmem)

theorem isMantissa_no_nul {digit : UInt8 → Bool} {mark : UInt8} {s : Bytes}
    (hdigit : digit 0 = false) (hmark : mark ≠ 0 ∧ mark - 32 ≠ 0)
    (h : isMantissa digit mark s = true) : 0 ∉ s := by
  intro hmem
  have hrest := mem_dropWhile_of_mem hdigit hmem
  rw [isMantissa] at h
  split at h
  · next hpoint =>
    have htail : 0 ∈ (s.dropWhile digit).tail := by
      cases hs : s.dropWhile digit with
      | nil => simp [hs] at hrest
      | cons c rest =>
          rw [hs] at hrest hpoint
          rcases List.mem_cons.mp hrest with rfl | htail
          · simp at hpoint
          · exact htail
    simp only [Bool.and_eq_true] at h
    exact isExponent_no_nul hmark h.2 (mem_dropWhile_of_mem hdigit htail)
  · simp only [Bool.and_eq_true] at h
    exact isExponent_no_nul hmark h.2 hrest

theorem isHex_no_nul {s : Bytes} (h : isHex s = true) : 0 ∉ s := by
  simp only [isHex, Bool.and_eq_true, beq_iff_eq] at h
  intro hmem
  rw [← List.take_append_drop 2 s, List.mem_append] at hmem
  rcases hmem with hmem | hmem
  · have hzero := mem_toUpper_of_mem hmem
    rw [h.1] at hzero
    exact absurd hzero (by decide)
  · exact isMantissa_no_nul rfl (by decide) h.2 hmem

theorem isInf_no_nul {s : Bytes} (h : isInf s = true) : 0 ∉ s := by
  simp only [isInf, Bool.or_eq_true, beq_iff_eq] at h
  intro hmem
  have hzero := mem_toUpper_of_mem hmem
  rcases h with heq | heq
  · rw [heq] at hzero
    exact absurd hzero (by decide)
  · rw [heq] at hzero
    exact absurd hzero (by decide)

theorem isNumber_no_nul {s : Bytes} (h : isNumber s = true) : 0 ∉ s := by
  intro hmem
  have hbody := mem_body_of_mem hmem
  simp only [isNumber, Bool.or_eq_true] at h
  rcases h with (hdecimal | hhex) | hinf
  · exact isMantissa_no_nul rfl (by decide) hdecimal hbody
  · exact isHex_no_nul hhex hbody
  · exact isInf_no_nul hinf hbody

/-! A text for a NaN is no number. -/

theorem toUpper_take (s : Bytes) (n : Nat) :
    toUpper (s.take n) = (toUpper s).take n := List.map_take

theorem isDecimal_of_nan {s : Bytes} (h : isNanBody s = true) :
    isDecimal s = false := by
  simp only [isNanBody, Bool.and_eq_true, beq_iff_eq] at h
  cases s with
  | nil => exact absurd h.1 (by decide)
  | cons c rest =>
      have hhead : (if 97 ≤ c ∧ c ≤ 122 then c - 32 else c) = 78 :=
        (List.cons.inj h.1).1
      have hc : c = 110 ∨ c = 78 := by
        split at hhead
        · left
          rw [← UInt8.sub_add_cancel c 32, hhead]
          rfl
        · exact .inr hhead
      rcases hc with rfl | rfl
      · simp [isDecimal, isMantissa, isDigit]
      · simp [isDecimal, isMantissa, isDigit]

theorem isNumber_of_nan {s : Bytes} (h : isNanText s = true) :
    isNumber s = false := by
  have hbody := h
  simp only [isNanText, isNanBody, Bool.and_eq_true, beq_iff_eq,
    toUpper_take] at hbody
  have hhex : isHex (unsigned (s.dropWhile isSpace)) = false := by
    have htwo := congrArg (List.take 2) hbody.1
    rw [List.take_take] at htwo
    simp only [isHex, toUpper_take, Bool.and_eq_false_iff, beq_eq_false_iff_ne]
    left
    intro heq
    rw [show min 2 3 = 2 from rfl, heq] at htwo
    exact absurd htwo (by decide)
  have hinf : isInf (unsigned (s.dropWhile isSpace)) = false := by
    simp only [isInf, Bool.or_eq_false_iff, beq_eq_false_iff_ne]
    constructor
    · intro heq
      rw [heq] at hbody
      exact absurd hbody.1 (by decide)
    · intro heq
      rw [heq] at hbody
      exact absurd hbody.1 (by decide)
  simp only [isNumber, isDecimal_of_nan h, hhex, hinf, Bool.or_false]

/-! What the end-pointer test accepts. -/

theorem cStr_no_nul (s : Bytes) : 0 ∉ cStr s := by
  intro hmem
  have hzero := List.mem_takeWhile_imp hmem
  simp at hzero

theorem cStr_eq_self {s : Bytes} (h : 0 ∉ s) : cStr s = s := by
  apply List.takeWhile_eq_self_iff.mpr
  intro c hc
  simp only [bne_iff_ne, ne_eq]
  rintro rfl
  exact h hc

/-- `*end` is NUL exactly at the end of the C string. -/
theorem endsAt_iff {s : Bytes} {pos : Nat} (hle : pos ≤ (cStr s).length) :
    endsAt s pos = true ↔ pos = (cStr s).length := by
  have hsplit : s ++ [0] =
      cStr s ++ (s.dropWhile (fun c => c != 0) ++ [0]) := by
    rw [← List.append_assoc, cStr, List.takeWhile_append_dropWhile]
  rw [endsAt, beq_iff_eq, hsplit]
  rcases Nat.lt_or_eq_of_le hle with hlt | rfl
  · rw [List.getElem?_append_left hlt, List.getElem?_eq_getElem hlt]
    refine iff_of_false ?_ (Nat.ne_of_lt hlt)
    intro hzero
    exact cStr_no_nul s (Option.some.inj hzero ▸ List.getElem_mem hlt)
  · refine iff_of_true ?_ rfl
    rw [List.getElem?_append_right (Nat.le_refl _), Nat.sub_self]
    cases hdrop : s.dropWhile (fun c => c != 0) with
    | nil => rfl
    | cons c rest =>
        have hstop := List.head_dropWhile_not (fun c : UInt8 => c != 0)
          (by simp [hdrop] : s.dropWhile (fun c => c != 0) ≠ [])
        simp only [hdrop, List.head_cons, bne_eq_false_iff_eq] at hstop
        simp [hstop]

theorem signLength_le (s : Bytes) : signLength s ≤ s.length := by
  cases s with
  | nil => exact Nat.le_refl 0
  | cons c rest =>
      rw [signLength, List.length_cons]
      split
      · omega
      · omega

theorem takeWhile_length_eq_iff (p : UInt8 → Bool) (s : Bytes) :
    (s.takeWhile p).length = s.length ↔ s.all p = true := by
  rw [List.all_eq_true, ← List.takeWhile_eq_self_iff]
  exact ⟨fun h => (List.takeWhile_prefix p).eq_of_length h,
    fun h => congrArg List.length h⟩

theorem strtoll_none {s : Bytes}
    (h : (unsigned (s.dropWhile isSpace)).takeWhile isDigit = []) :
    strtoll s = (0, 0) ∧ isInteger s = false := by
  constructor
  · exact if_pos (by rw [← unsigned, h]; rfl)
  · cases hbody : unsigned (s.dropWhile isSpace) with
    | nil => simp [isInteger, hbody]
    | cons c rest =>
        rw [hbody] at h
        have hc : isDigit c = false := by
          by_contra hdigit
          simp [List.takeWhile_cons, hdigit] at h
        simp [isInteger, hbody, hc]

theorem strtoll_some {s : Bytes}
    (h : (unsigned (s.dropWhile isSpace)).takeWhile isDigit ≠ []) :
    strtoll s = (clampInt64 (if (s.dropWhile isSpace).head? = some 45 then
        -(digitsValue ((unsigned (s.dropWhile isSpace)).takeWhile isDigit) : Int)
      else digitsValue ((unsigned (s.dropWhile isSpace)).takeWhile isDigit)),
      s.length - (s.dropWhile isSpace).length +
        signLength (s.dropWhile isSpace) +
        ((unsigned (s.dropWhile isSpace)).takeWhile isDigit).length) :=
  if_neg (by rwa [← unsigned, List.isEmpty_iff])

/-- `strtoll` reads the whole of an integer and of nothing else. -/
theorem strtoll_spec (s : Bytes) :
    (strtoll s).2 ≤ s.length ∧
      ((strtoll s).2 = s.length ↔ s = [] ∨ isInteger s = true) ∧
      (isInteger s = true → (strtoll s).1 = integerValue s) := by
  by_cases hempty : (unsigned (s.dropWhile isSpace)).takeWhile isDigit = []
  · obtain ⟨hresult, hinteger⟩ := strtoll_none hempty
    rw [hresult, hinteger]
    refine ⟨Nat.zero_le _, ?_, by simp⟩
    rw [eq_comm, List.length_eq_zero_iff]
    simp
  · have hspace := List.length_dropWhile_le isSpace s
    have hsign := signLength_le (s.dropWhile isSpace)
    have hlength : (unsigned (s.dropWhile isSpace)).length =
        (s.dropWhile isSpace).length - signLength (s.dropWhile isSpace) :=
      List.length_drop
    have hdigits : ((unsigned (s.dropWhile isSpace)).takeWhile isDigit).length ≤
        (unsigned (s.dropWhile isSpace)).length :=
      (List.takeWhile_prefix isDigit).length_le
    have hbody : (unsigned (s.dropWhile isSpace)).isEmpty = false := by
      rw [List.isEmpty_eq_false_iff]
      intro hnil
      rw [hnil] at hempty
      exact hempty rfl
    have hs : s ≠ [] := by
      rintro rfl
      exact hempty rfl
    have hinteger : isInteger s = true ↔
        ((unsigned (s.dropWhile isSpace)).takeWhile isDigit).length =
          (unsigned (s.dropWhile isSpace)).length := by
      rw [takeWhile_length_eq_iff]
      simp [isInteger, hbody]
    rw [strtoll_some hempty]
    refine ⟨by simp only; omega, ?_, ?_⟩
    · rw [hinteger]
      simp only [hs, false_or]
      omega
    · intro h
      have hall : (unsigned (s.dropWhile isSpace)).takeWhile isDigit =
          unsigned (s.dropWhile isSpace) :=
        (List.takeWhile_prefix isDigit).eq_of_length (hinteger.mp h)
      rw [hall]
      rfl

theorem str2int_eq_some {s : Bytes} {n : Int} :
    str2int s = some n ↔ s ≠ [] ∧
      ((cStr s = [] ∧ n = 0) ∨
        (isInteger (cStr s) = true ∧ n = integerValue (cStr s))) := by
  obtain ⟨hle, hstop, hvalue⟩ := strtoll_spec (cStr s)
  have hends := (endsAt_iff hle).trans hstop
  rw [str2int]
  split
  · next hempty =>
    simp [List.isEmpty_iff.mp hempty]
  · next hempty =>
    have hs : s ≠ [] := fun hnil => hempty (by simp [hnil])
    simp only [hs, ne_eq, not_false_eq_true, true_and]
    by_cases hend : endsAt s (strtoll (cStr s)).2 = true
    · rw [if_pos hend, Option.some.injEq, eq_comm]
      rcases hends.mp hend with hnil | hinteger
      · simp [hnil, strtoll, isInteger, unsigned]
      · have hc : cStr s ≠ [] := by
          intro hnil
          rw [hnil] at hinteger
          cases hinteger
        simp only [hc, false_and, false_or, hinteger, true_and, hvalue hinteger]
    · rw [if_neg hend]
      have hreject := mt hends.mpr hend
      rw [not_or] at hreject
      simp [hreject.1, hreject.2]

/-! `strtod`. -/

theorem subjectEnd_le (s : Bytes) : subjectEnd s ≤ s.length :=
  Nat.findGreatest_le s.length

theorem subjectEnd_eq_length (s : Bytes) :
    subjectEnd s = s.length ↔
      s = [] ∨ isNumber s = true ∨ isNanText s = true := by
  rw [subjectEnd, Nat.findGreatest_eq_iff, List.take_length]
  simp only [Nat.le_refl, true_and, Bool.or_eq_true, ne_eq,
    List.length_eq_zero_iff]
  constructor
  · rintro ⟨hwhole, _⟩
    by_cases hs : s = []
    · exact .inl hs
    · exact .inr (hwhole hs)
  · rintro (rfl | hwhole)
    · exact ⟨fun h => absurd rfl h, fun n hlt hle => absurd hle (by omega)⟩
    · exact ⟨fun _ => hwhole, fun n hlt hle => absurd hle (by omega)⟩

theorem str2dbl_eq_some {strtod : Bytes → Double × Nat}
    (hstd : Standard strtod) {s : Bytes} {value : Double} :
    str2dbl strtod s = some value ↔ s ≠ [] ∧
      (cStr s = [] ∨ isNumber (cStr s) = true) ∧
      value = (strtod (cStr s)).1 := by
  have hnul := cStr_no_nul s
  have hends : endsAt s (strtod (cStr s)).2 = true ↔
      subjectEnd (cStr s) = (cStr s).length := by
    rw [hstd.stop _ hnul]
    exact endsAt_iff (subjectEnd_le (cStr s))
  rw [str2dbl]
  split
  · next hempty =>
    simp [List.isEmpty_iff.mp hempty]
  · next hempty =>
    have hs : s ≠ [] := fun hnil => hempty (by simp [hnil])
    have haccept : (endsAt s (strtod (cStr s)).2 = true ∧
          (strtod (cStr s)).1.isNaN = false) ↔
        (cStr s = [] ∨ isNumber (cStr s) = true) := by
      constructor
      · rintro ⟨hend, hnan⟩
        have hwhole := hends.mp hend
        rcases (subjectEnd_eq_length _).mp hwhole with hnil | hnumber | htext
        · exact .inl hnil
        · exact .inr hnumber
        · have hvalue := (hstd.nan _ hnul).mpr
            (by rw [hwhole, List.take_length]; exact htext)
          rw [hnan] at hvalue
          cases hvalue
      · intro haccept
        have hwhole := (subjectEnd_eq_length (cStr s)).mpr
          (haccept.imp_right .inl)
        refine ⟨hends.mpr hwhole, Bool.eq_false_iff.mpr fun hnan => ?_⟩
        have htext := (hstd.nan _ hnul).mp hnan
        rw [hwhole, List.take_length] at htext
        rcases haccept with hnil | hnumber
        · rw [hnil] at htext
          cases htext
        · rw [isNumber_of_nan htext] at hnumber
          cases hnumber
    simp only [hs, ne_eq, not_false_eq_true, true_and]
    by_cases hend : endsAt s (strtod (cStr s)).2 = true ∧
        (strtod (cStr s)).1.isNaN = false
    · rw [if_pos hend, Option.some.injEq, eq_comm]
      simp only [haccept.mp hend, true_and]
    · rw [if_neg hend]
      simp [mt haccept.mpr hend]

/-! The arguments that the handlers read as numbers. -/

def Handler.integers : Handler → List Nat
  | .expire _ => [2]
  | .zquery => [4, 5]
  | _ => []

def Handler.numbers : Handler → List Nat
  | .zadd => [2]
  | .zquery => [2]
  | _ => []

def Refused (strtod : Bytes → Double × Nat) (places : Handler → List Nat)
    (s : Bytes) : Prop :=
  ∀ (verb : Bytes) (args : List Bytes) (handler : Handler),
    dispatch (toUpper verb) (verb :: args).length = some handler →
    ∀ i ∈ places handler, (verb :: args)[i]? = some s →
    ∀ (db : Database) (out : Bytes) (clock : Clock), ∃ msg,
      doRequest strtod (verb :: args) db out clock =
        some (db, outErr out errArg msg)

structure StrictInteger (strtod : Bytes → Double × Nat) (s : Bytes) : Prop where
  whole : ∀ n, str2int s = some n → isInteger s = true ∧ n = integerValue s
  refused : isInteger s = false → Refused strtod Handler.integers s

structure StrictNumber (strtod : Bytes → Double × Nat) (s : Bytes) : Prop where
  whole : ∀ value, str2dbl strtod s = some value →
    isNumber s = true ∧ value = (strtod s).1 ∧ value.isNaN = false
  refused : isNumber s = false → Refused strtod Handler.numbers s

theorem doZquery_refused {strtod : Bytes → Double × Nat} {cmd : List Bytes}
    {offset limit : Bytes} (hsize : 2 < cmd.length)
    (hoffset : cmd[4]? = some offset) (hlimit : cmd[5]? = some limit)
    (h : str2int offset = none ∨ str2int limit = none) (db : Database)
    (out : Bytes) (clock : Clock) : ∃ msg,
      doZquery strtod cmd db out clock = some (db, outErr out errArg msg) := by
  rw [doZquery, List.getElem?_eq_getElem hsize, Option.bind_eq_bind,
    Option.bind_some]
  cases str2dbl strtod cmd[2] with
  | none => exact ⟨_, rfl⟩
  | some score =>
      refine ⟨ascii "value is not an integer", ?_⟩
      simp only [hoffset, hlimit, Option.bind_eq_bind, Option.bind_some]
      rcases h with hnone | hnone
      · rw [hnone]
      · cases str2int offset with
        | none => rfl
        | some n => rw [hnone]

theorem refused_integer {s : Bytes} (h : str2int s = none)
    (strtod : Bytes → Double × Nat) : Refused strtod Handler.integers s := by
  intro verb args handler hdispatch i hi hs db out clock
  have hfits := dispatch_fits hdispatch
  simp only [doRequest, hdispatch]
  cases handler with
  | expire unitMs =>
      obtain rfl := List.mem_singleton.mp hi
      refine ⟨ascii "value is not an integer", ?_⟩
      simp only [Handler.run, doExpire, hs, h, Option.bind_eq_bind,
        Option.bind_some]
  | zquery =>
      have hsize : (verb :: args).length = 6 := hfits
      have hfour := List.getElem?_eq_getElem (by omega : 4 < (verb :: args).length)
      have hfive := List.getElem?_eq_getElem (by omega : 5 < (verb :: args).length)
      have htwo : 2 < (verb :: args).length := by omega
      simp only [Handler.integers, List.mem_cons, List.not_mem_nil, or_false] at hi
      rcases hi with rfl | rfl
      · exact doZquery_refused htwo hs hfive (.inl h) db out clock
      · exact doZquery_refused htwo hfour hs (.inr h) db out clock
  | _ => cases hi

theorem refused_number {strtod : Bytes → Double × Nat} {s : Bytes}
    (h : str2dbl strtod s = none) : Refused strtod Handler.numbers s := by
  intro verb args handler hdispatch i hi hs db out clock
  simp only [doRequest, hdispatch]
  cases handler with
  | zadd =>
      obtain rfl := List.mem_singleton.mp hi
      refine ⟨ascii "value is not a valid float", ?_⟩
      simp only [Handler.run, doZadd, hs, h, Option.bind_eq_bind,
        Option.bind_some]
  | zquery =>
      obtain rfl := List.mem_singleton.mp hi
      refine ⟨ascii "value is not a valid float", ?_⟩
      simp only [Handler.run, doZquery, hs, h, Option.bind_eq_bind,
        Option.bind_some]
  | _ => cases hi

/-! Arguments without a NUL, or rejected for what stands before it. -/

def SafeInteger (s : Bytes) : Prop :=
  0 ∉ s ∨ (cStr s ≠ [] ∧ isInteger (cStr s) = false)

def SafeNumber (s : Bytes) : Prop :=
  0 ∉ s ∨ (cStr s ≠ [] ∧ isNumber (cStr s) = false)

theorem strictInteger_iff (strtod : Bytes → Double × Nat) (s : Bytes) :
    StrictInteger strtod s ↔ SafeInteger s := by
  constructor
  · intro hstrict
    by_cases hnul : 0 ∈ s
    · have hs : s ≠ [] := List.ne_nil_of_mem hnul
      have hreject : ∀ n, str2int s ≠ some n := fun n hn =>
        isInteger_no_nul (hstrict.whole n hn).1 hnul
      refine .inr ⟨fun hnil => ?_, Bool.eq_false_iff.mpr fun hinteger => ?_⟩
      · exact hreject _ (str2int_eq_some.mpr ⟨hs, .inl ⟨hnil, rfl⟩⟩)
      · exact hreject _ (str2int_eq_some.mpr ⟨hs, .inr ⟨hinteger, rfl⟩⟩)
    · exact .inl hnul
  · intro hsafe
    have hwhole : ∀ n, str2int s = some n →
        isInteger s = true ∧ n = integerValue s := by
      intro n hn
      obtain ⟨hs, haccept⟩ := str2int_eq_some.mp hn
      rcases hsafe with hnul | ⟨hc, hreject⟩
      · rw [cStr_eq_self hnul] at haccept
        exact haccept.resolve_left fun h => hs h.1
      · rw [hreject] at haccept
        simp [hc] at haccept
    refine ⟨hwhole, fun hinteger => refused_integer ?_ strtod⟩
    rw [Option.eq_none_iff_forall_ne_some]
    intro n hn
    rw [(hwhole n hn).1] at hinteger
    cases hinteger

theorem strictNumber_iff {strtod : Bytes → Double × Nat}
    (hstd : Standard strtod) (s : Bytes) :
    StrictNumber strtod s ↔ SafeNumber s := by
  constructor
  · intro hstrict
    by_cases hnul : 0 ∈ s
    · have hs : s ≠ [] := List.ne_nil_of_mem hnul
      have hreject : ¬ (cStr s = [] ∨ isNumber (cStr s) = true) := fun h =>
        isNumber_no_nul (hstrict.whole _
          ((str2dbl_eq_some hstd).mpr ⟨hs, h, rfl⟩)).1 hnul
      rw [not_or] at hreject
      exact .inr ⟨hreject.1, Bool.eq_false_iff.mpr hreject.2⟩
    · exact .inl hnul
  · intro hsafe
    have hwhole : ∀ value, str2dbl strtod s = some value →
        isNumber s = true ∧ value = (strtod s).1 ∧ value.isNaN = false := by
      intro value hvalue
      obtain ⟨hs, haccept, heq⟩ := (str2dbl_eq_some hstd).mp hvalue
      have hnan := str2dbl_not_nan hvalue
      rcases hsafe with hnul | ⟨hc, hreject⟩
      · rw [cStr_eq_self hnul] at haccept heq
        exact ⟨haccept.resolve_left hs, heq, hnan⟩
      · rw [hreject] at haccept
        simp [hc] at haccept
    refine ⟨hwhole, fun hnumber => refused_number ?_⟩
    rw [Option.eq_none_iff_forall_ne_some]
    intro value hvalue
    rw [(hwhole value hvalue).1] at hnumber
    cases hnumber

theorem numeric_arguments_iff {strtod : Bytes → Double × Nat}
    (hstd : Standard strtod) (s : Bytes) :
    (StrictInteger strtod s ↔ SafeInteger s) ∧
      (StrictNumber strtod s ↔ SafeNumber s) :=
  ⟨strictInteger_iff strtod s, strictNumber_iff hstd s⟩

/-- A function that stops where the standard has it, with zero for numbers. -/
def strtodStop (s : Bytes) : Double × Nat :=
  (if isNanText (s.take (subjectEnd s)) then ⟨0x7FF8000000000000⟩ else {},
    subjectEnd s)

theorem strtodStop_standard : Standard strtodStop where
  stop _ _ := rfl
  nan s _ := by
    rw [strtodStop]
    split
    · next h => simpa [h] using by decide
    · next h => simpa [h] using by decide

theorem numeric_arguments_iff_zero : Standard strtodStop ∧
    StrictInteger strtodStop (ascii "0") ∧ StrictNumber strtodStop (ascii "0") :=
  ⟨strtodStop_standard,
    (numeric_arguments_iff strtodStop_standard (ascii "0")).1.mpr
      (.inl (by decide)),
    (numeric_arguments_iff strtodStop_standard (ascii "0")).2.mpr
      (.inl (by decide))⟩

def plainKey : Database :=
  afterRequest strtodStop [ascii "SET", ascii "a", ascii "x"] ⟨0, 0⟩ {}

theorem plainKey_reachable : DatabaseReachable strtodStop plainKey :=
  DatabaseReachable.empty.request _ _

/-- A lone NUL is read as zero and deletes the key; of `5`, a NUL and `x` the
five is taken. -/
theorem expire_nul_deletes : DatabaseReachable strtodStop plainKey ∧
    isInteger [0] = false ∧
    (plainKey.stored (ascii "a")).isSome = true ∧
    (doRequest strtodStop [ascii "EXPIRE", ascii "a", [0]] plainKey []
      ⟨0, 0⟩).map (fun r => ((r.1.stored (ascii "a")).isSome, r.2)) =
        some (false, outInt [] 1) ∧
    isInteger [53, 0, 120] = false ∧ str2int [53, 0, 120] = some 5 ∧
    isNumber [0] = false ∧ str2dbl strtodStop [0] = some {} :=
  ⟨plainKey_reachable, by decide, by decide +kernel, by decide +kernel,
    by decide, by decide +kernel, by decide, by decide +kernel⟩

end MiniRedis.Server
