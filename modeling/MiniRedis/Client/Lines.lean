import MiniRedis.Client.SendCommand
import Mathlib.Algebra.Order.BigOperators.Group.List

namespace MiniRedis.Client

open MiniRedis.Data MiniRedis.Protocol
open MiniRedis.Server (ascii isSpace)

/-! The lines that a user can type, and the commands they stand for. -/

def Blank (text : Bytes) : Prop := ∀ c ∈ text, isSpace c = true

def Word (text : Bytes) : Prop := text ≠ [] ∧ ∀ c ∈ text, isSpace c = false

/-- The words `args` stand on the line, with white space between and around
them. -/
inductive Typed : List Bytes → Bytes → Prop
  | blank {spaces : Bytes} (hspaces : Blank spaces) : Typed [] spaces
  | last {spaces word : Bytes} (hspaces : Blank spaces) (hword : Word word) :
      Typed [word] (spaces ++ word)
  | more {spaces word rest : Bytes} {c : UInt8} {args : List Bytes}
      (hspaces : Blank spaces) (hword : Word word) (hc : isSpace c = true)
      (hrest : Typed args rest) : Typed (word :: args) (spaces ++ (word ++ c :: rest))

theorem split_eq (line : Bytes) :
    split line =
      if line.dropWhile isSpace = [] then []
      else (line.dropWhile isSpace).takeWhile (fun c => !isSpace c) ::
        split ((line.dropWhile isSpace).dropWhile fun c => !isSpace c) := by
  rw [split]
  rfl

theorem split_of_blank {line : Bytes} (h : line.dropWhile isSpace = []) :
    split line = [] := by
  rw [split_eq, if_pos h]

theorem span_word {word rest : Bytes} (hword : Word word)
    (hrest : ∀ c ∈ rest.head?, isSpace c = true) :
    (word ++ rest).takeWhile (fun c => !isSpace c) = word ∧
      (word ++ rest).dropWhile (fun c => !isSpace c) = rest := by
  have hinside : ∀ c ∈ word, (!isSpace c) = true := by
    intro c hc
    rw [hword.2 c hc]
    rfl
  rw [List.takeWhile_append_of_pos hinside, List.dropWhile_append_of_pos hinside]
  cases rest with
  | nil => exact ⟨List.append_nil word, rfl⟩
  | cons c tail => simp [hrest c rfl]

theorem split_of_word {line word rest : Bytes}
    (hline : line.dropWhile isSpace = word ++ rest) (hword : Word word)
    (hrest : ∀ c ∈ rest.head?, isSpace c = true) :
    split line = word :: split rest := by
  obtain ⟨htake, hdrop⟩ := span_word hword hrest
  rw [split_eq, if_neg (by simp [hline, hword.1]), hline, htake, hdrop]

theorem dropWhile_typed {spaces word rest : Bytes} (hspaces : Blank spaces)
    (hword : Word word) :
    (spaces ++ (word ++ rest)).dropWhile isSpace = word ++ rest := by
  obtain ⟨c, tail, rfl⟩ := List.exists_cons_of_ne_nil hword.1
  rw [List.dropWhile_append_of_pos hspaces, List.cons_append,
    List.dropWhile_cons_of_neg (by simp [hword.2 c List.mem_cons_self])]

theorem split_cons_space {c : UInt8} (hc : isSpace c = true) (line : Bytes) :
    split (c :: line) = split line := by
  rw [split_eq (c :: line), split_eq line, List.dropWhile_cons_of_pos hc]

theorem Typed.split_eq {args : List Bytes} {line : Bytes} (h : Typed args line) :
    split line = args := by
  induction h with
  | blank hspaces => exact split_of_blank (List.dropWhile_eq_nil_iff.mpr hspaces)
  | @last spaces word hspaces hword =>
      have hline : (spaces ++ (word ++ [])).dropWhile isSpace = word ++ [] :=
        dropWhile_typed hspaces hword
      rw [List.append_nil] at hline
      rw [split_of_word (hline.trans (List.append_nil word).symm) hword (by simp),
        split_of_blank rfl]
  | @more spaces word rest c args hspaces hword hc _ ih =>
      rw [split_of_word (dropWhile_typed hspaces hword) hword (by simpa using hc),
        split_cons_space hc, ih]

theorem exists_word {line : Bytes} (h : line.dropWhile isSpace ≠ []) :
    ∃ spaces word rest, line = spaces ++ (word ++ rest) ∧ Blank spaces ∧
      Word word ∧ ∀ c ∈ rest.head?, isSpace c = true := by
  have hhead := List.head_dropWhile_not isSpace h
  refine ⟨line.takeWhile isSpace,
    (line.dropWhile isSpace).takeWhile (fun c => !isSpace c),
    (line.dropWhile isSpace).dropWhile (fun c => !isSpace c), ?_, ?_, ⟨?_, ?_⟩, ?_⟩
  · rw [List.takeWhile_append_dropWhile, List.takeWhile_append_dropWhile]
  · exact fun c hc => List.mem_takeWhile_imp hc
  · obtain ⟨c, tail, hline⟩ := List.exists_cons_of_ne_nil h
    simp only [hline, List.head_cons] at hhead
    simp [hline, hhead]
  · intro c hc
    simpa using List.mem_takeWhile_imp hc
  · intro c hc
    have hstop := List.head?_dropWhile_not (fun c => !isSpace c)
      (line.dropWhile isSpace)
    rw [Option.mem_def.mp hc] at hstop
    simpa using hstop

theorem split_typed (line : Bytes) : Typed (split line) line := by
  induction hlength : line.length using Nat.strongRecOn generalizing line with
  | ind n ih =>
      by_cases hblank : line.dropWhile isSpace = []
      · rw [split_of_blank hblank]
        exact .blank (List.dropWhile_eq_nil_iff.mp hblank)
      · obtain ⟨spaces, word, rest, rfl, hspaces, hword, hrest⟩ :=
          exists_word hblank
        rw [split_of_word (dropWhile_typed hspaces hword) hword hrest]
        cases rest with
        | nil =>
            rw [split_of_blank rfl, List.append_nil]
            exact .last hspaces hword
        | cons c tail =>
            have hc : isSpace c = true := hrest c rfl
            rw [split_cons_space hc]
            refine .more hspaces hword hc (ih tail.length ?_ tail rfl)
            simp only [List.length_append, List.length_cons] at hlength
            omega

theorem Typed.words {args : List Bytes} {line : Bytes} (h : Typed args line) :
    ∀ arg ∈ args, Word arg := by
  induction h with
  | blank => simp
  | last _ hword => simpa using hword
  | more _ hword _ _ ih => exact List.forall_mem_cons.mpr ⟨hword, ih⟩

theorem exists_typed {args : List Bytes} (h : ∀ arg ∈ args, Word arg) :
    ∃ line, Typed args line := by
  induction args with
  | nil => exact ⟨[], .blank (by simp [Blank])⟩
  | cons word args ih =>
      obtain ⟨hword, hargs⟩ := List.forall_mem_cons.mp h
      obtain ⟨line, hline⟩ := ih hargs
      have hnone : Blank [] := by simp [Blank]
      exact ⟨_, .more hnone hword (show isSpace 32 = true from rfl) hline⟩

/-- Whatever fits in a frame is within the limits of `parse_req`. -/
theorem encodable_of_length {args : List Bytes}
    (h : (encodeReq args).length ≤ maxMsg) : Protocol.Encodable args := by
  rw [length_encodeReq] at h
  unfold maxMsg at h
  refine ⟨?_, ?_⟩
  · have hcount : 4 * args.length ≤ (args.map fun arg => 4 + arg.length).sum := by
      clear h
      induction args with
      | nil => simp
      | cons arg args ih =>
          rw [List.length_cons, List.map_cons, List.sum_cons]
          omega
    unfold kMaxArgs
    omega
  · intro arg hmem
    have hle := List.le_sum_of_mem
      (List.mem_map_of_mem (f := fun arg : Bytes => 4 + arg.length) hmem)
    omega

/-- A line stands for exactly the words on it, and the server reads exactly
these words out of the request. An argument that is empty or has white space in
it cannot be typed. -/
theorem typed_line_round_trip :
    (∀ line args, split line = args ↔ Typed args line) ∧
    (∀ line, (encodeReq (split line)).length ≤ maxMsg →
      parseReq (encodeReq (split line)) [] = some (0, split line)) ∧
    (∀ args, (∃ line, split line = args) ↔ ∀ arg ∈ args, Word arg) := by
  refine ⟨?_, ?_, ?_⟩
  · intro line args
    constructor
    · rintro rfl
      exact split_typed line
    · exact Typed.split_eq
  · intro line hfit
    exact parseReq_encodeReq (encodable_of_length hfit)
  · intro args
    constructor
    · rintro ⟨line, rfl⟩
      exact (split_typed line).words
    · intro hargs
      obtain ⟨line, hline⟩ := exists_typed hargs
      exact ⟨line, hline.split_eq⟩

end MiniRedis.Client
