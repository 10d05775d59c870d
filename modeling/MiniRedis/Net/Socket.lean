import MiniRedis.Data.Ledger
import Mathlib.Logic.Relation

namespace MiniRedis.Net

open MiniRedis.Data

/-! The owners of descriptors. -/

/-- A `Socket` object; `fd_` is `none` for `-1`. -/
structure Socket where
  fd : Option Nat := none
  deriving DecidableEq

/-- The open descriptors, the `Socket` objects by address, and the descriptors in
plain variables that somebody is still to close or to hand over. -/
structure Process where
  files : List Nat := []
  socket : Nat → Option Socket := fun _ => none
  held : Nat → Bool := fun _ => false

namespace Process

/-- `::close(fd)`. It fails on a descriptor that is not open, which by then may
be somebody else's. -/
def close (proc : Process) (fd : Nat) : Option Process :=
  if fd ∈ proc.files then
    some { proc with files := proc.files.erase fd }
  else
    none

/-- `if(fd_ >= 0) ::close(fd_);` -/
def closeOwn (proc : Process) (fd : Option Nat) : Option Process :=
  match fd with
  | some fd => proc.close fd
  | none => some proc

def setSocket (proc : Process) (p : Nat) (socket : Option Socket) : Process :=
  { proc with socket := Function.update proc.socket p socket }

def setHeld (proc : Process) (fd : Nat) (held : Bool) : Process :=
  { proc with held := Function.update proc.held fd held }

def hand (proc : Process) (fd : Option Nat) : Process :=
  match fd with
  | some fd => proc.setHeld fd false
  | none => proc

/-- `Socket()` and `Socket(fd)`. -/
def make (proc : Process) (p : Nat) (fd : Option Nat) : Option Process :=
  some ((proc.hand fd).setSocket p (some ⟨fd⟩))

/-- `Socket(std::move(other))`. -/
def makeFrom (proc : Process) (p other : Nat) : Option Process := do
  let source ← proc.socket other
  some ((proc.setSocket p (some ⟨source.fd⟩)).setSocket other (some ⟨none⟩))

/-- `~Socket()`. -/
def destroy (proc : Process) (p : Nat) : Option Process := do
  let socket ← proc.socket p
  let proc ← proc.closeOwn socket.fd
  some (proc.setSocket p none)

/-- `operator=(std::move(other))`. -/
def assign (proc : Process) (p other : Nat) : Option Process :=
  if p ≠ other then do
    let socket ← proc.socket p
    let source ← proc.socket other
    let proc ← proc.closeOwn socket.fd
    some ((proc.setSocket p (some ⟨source.fd⟩)).setSocket other (some ⟨none⟩))
  else
    some proc

def release (proc : Process) (p : Nat) : Option Process := do
  let socket ← proc.socket p
  let proc := proc.setSocket p (some ⟨none⟩)
  match socket.fd with
  | some fd => some (proc.setHeld fd true)
  | none => some proc

def reset (proc : Process) (p : Nat) (fd : Option Nat) : Option Process := do
  let socket ← proc.socket p
  let proc ← proc.closeOwn socket.fd
  some ((proc.hand fd).setSocket p (some ⟨fd⟩))

def openFile (proc : Process) (fd : Nat) : Process :=
  { proc.setHeld fd true with files := fd :: proc.files }

/-- `::close(fd)` on a descriptor in hand. -/
def closeFile (proc : Process) (fd : Nat) : Option Process := do
  let proc ← proc.close fd
  some (proc.setHeld fd false)

end Process

inductive SocketOp
  | make (p : Nat) (fd : Option Nat)
  | makeFrom (p other : Nat)
  | destroy (p : Nat)
  | assign (p other : Nat)
  | release (p : Nat)
  | reset (p : Nat) (fd : Option Nat)
  | openFile (fd : Nat)
  | closeFile (fd : Nat)

def SocketOp.run (proc : Process) : SocketOp → Option Process
  | .make p fd => proc.make p fd
  | .makeFrom p other => proc.makeFrom p other
  | .destroy p => proc.destroy p
  | .assign p other => proc.assign p other
  | .release p => proc.release p
  | .reset p fd => proc.reset p fd
  | .openFile fd => some (proc.openFile fd)
  | .closeFile fd => proc.closeFile fd

/-- The kernel opens descriptors that are not open, objects are made at free
addresses and used while they exist, and a descriptor that is handed over or
closed by hand is in hand. -/
def SocketOp.Allowed (proc : Process) : SocketOp → Prop
  | .make p fd => proc.socket p = none ∧ ∀ n ∈ fd, proc.held n = true
  | .makeFrom p other => proc.socket p = none ∧ proc.socket other ≠ none
  | .destroy p => proc.socket p ≠ none
  | .assign p other => proc.socket p ≠ none ∧ proc.socket other ≠ none
  | .release p => proc.socket p ≠ none
  | .reset p fd => proc.socket p ≠ none ∧ ∀ n ∈ fd, proc.held n = true
  | .openFile fd => fd ∉ proc.files
  | .closeFile fd => proc.held fd = true

inductive SocketReachable : Process → Prop
  | start : SocketReachable {}
  | tail {proc next : Process} (before : SocketReachable proc) (op : SocketOp)
      (allowed : op.Allowed proc) (result : op.run proc = some next) :
      SocketReachable next

/-! A descriptor is owned by an object or is in hand. -/

variable {proc next : Process} {p : Nat} {fd : Nat}

def Process.owner (proc : Process) : Nat ⊕ Nat → Option Nat
  | .inl p => (proc.socket p).bind Socket.fd
  | .inr fd => if proc.held fd then some fd else none

theorem owner_setSocket (proc : Process) (p : Nat) (socket : Option Socket) :
    (proc.setSocket p socket).owner =
      Function.update proc.owner (.inl p) (socket.bind Socket.fd) := by
  funext o
  cases o with
  | inl q =>
      by_cases heq : q = p
      · rw [heq, Function.update_self]
        simp only [Process.owner, Process.setSocket, Function.update_self]
      · rw [Function.update_of_ne (by simpa using heq)]
        simp only [Process.owner, Process.setSocket, Function.update_of_ne heq]
  | inr n => rw [Function.update_of_ne (by simp)]; rfl

theorem owner_setHeld (proc : Process) (fd : Nat) (held : Bool) :
    (proc.setHeld fd held).owner =
      Function.update proc.owner (.inr fd) (if held then some fd else none) := by
  funext o
  cases o with
  | inl q => rw [Function.update_of_ne (by simp)]; rfl
  | inr n =>
      by_cases heq : n = fd
      · rw [heq, Function.update_self]
        simp only [Process.owner, Process.setHeld, Function.update_self]
      · rw [Function.update_of_ne (by simpa using heq)]
        simp only [Process.owner, Process.setHeld, Function.update_of_ne heq]

def Process.Owned (proc : Process) : Prop := Exclusive proc.files proc.owner

namespace Process

theorem owner_of_socket {socket : Socket} (h : proc.socket p = some socket) :
    proc.owner (.inl p) = socket.fd := by
  rw [owner, h, Option.bind_some]

theorem owner_of_none (h : proc.socket p = none) : proc.owner (.inl p) = none := by
  rw [owner, h, Option.bind_none]

theorem owner_of_held (h : proc.held fd = true) : proc.owner (.inr fd) = some fd := by
  rw [owner, h, if_pos rfl]

theorem setSocket_setSocket (proc : Process) (p : Nat) (first second : Option Socket) :
    (proc.setSocket p first).setSocket p second = proc.setSocket p second := by
  rw [setSocket, setSocket, setSocket, Function.update_idem]

theorem hand_setSocket (proc : Process) (p : Nat) (socket : Option Socket)
    (fd : Option Nat) :
    (proc.setSocket p socket).hand fd = (proc.hand fd).setSocket p socket := by
  cases fd <;> rfl

theorem close_eq_some (h : proc.close fd = some next) :
    next = { proc with files := proc.files.erase fd } := by
  unfold close at h
  split at h
  next =>
    cases h
    rfl
  next => cases h

theorem closeFile_eq_some (h : proc.closeFile fd = some next) :
    next.socket = proc.socket ∧
      next.owner = Function.update proc.owner (.inr fd) none := by
  obtain ⟨closed, hclose, h⟩ := Option.bind_eq_some_iff.mp h
  cases h
  rw [close_eq_some hclose, owner_setHeld]
  exact ⟨rfl, rfl⟩

theorem destroy_eq_some (h : proc.destroy p = some next) :
    next.owner = Function.update proc.owner (.inl p) none := by
  obtain ⟨socket, _, h⟩ := Option.bind_eq_some_iff.mp h
  obtain ⟨closed, hclose, h⟩ := Option.bind_eq_some_iff.mp h
  cases h
  rw [owner_setSocket]
  cases hfd : socket.fd with
  | none =>
      rw [hfd] at hclose
      cases hclose
      rfl
  | some fd =>
      rw [hfd] at hclose
      rw [close_eq_some hclose]
      rfl

theorem Owned.give {fd : Option Nat} (h : proc.Owned)
    (hfree : proc.owner (.inl p) = none) (hheld : ∀ n ∈ fd, proc.held n = true) :
    ((proc.hand fd).setSocket p (some ⟨fd⟩)).Owned := by
  cases fd with
  | none =>
      unfold Owned
      rw [hand, owner_setSocket, Option.bind_some,
        Function.update_eq_self_iff.mpr hfree.symm]
      exact h
  | some n =>
      have hpass := h.pass (o := .inr n) hfree
      rw [owner_of_held (hheld n rfl)] at hpass
      unfold Owned
      rw [owner_setSocket, hand, owner_setHeld]
      exact hpass

theorem Owned.move {other : Nat} {source : Socket} (h : proc.Owned)
    (hne : p ≠ other) (hfree : proc.owner (.inl p) = none)
    (hsource : proc.socket other = some source) :
    ((proc.setSocket p (some ⟨source.fd⟩)).setSocket other
      (some ⟨none⟩)).Owned := by
  have hpass := h.pass (o := .inl other) hfree
  rw [owner_of_socket hsource, Function.update_comm (by simpa using hne.symm)] at hpass
  unfold Owned
  rw [owner_setSocket, owner_setSocket]
  exact hpass

theorem Owned.vacate {socket : Socket} (h : proc.Owned)
    (hsocket : proc.socket p = some socket) :
    ∃ files, proc.closeOwn socket.fd = some { proc with files := files } ∧
      ∀ empty : Option Socket, empty.bind Socket.fd = none →
        (setSocket { proc with files := files } p empty).Owned := by
  have howns := owner_of_socket hsocket
  cases hfd : socket.fd with
  | none =>
      refine ⟨proc.files, rfl, ?_⟩
      intro empty hempty
      unfold Owned
      rw [owner_setSocket, hempty,
        Function.update_eq_self_iff.mpr (howns.trans hfd).symm]
      exact h
  | some fd =>
      rw [hfd] at howns
      refine ⟨proc.files.erase fd, if_pos ((h.mem fd).mpr ⟨_, howns⟩), ?_⟩
      intro empty hempty
      unfold Owned
      rw [owner_setSocket, hempty]
      exact h.drop howns

end Process

/-- Every operation returns, and no descriptor is shared or lost by it. -/
theorem SocketOp.owned {op : SocketOp} (h : proc.Owned)
    (hallowed : op.Allowed proc) :
    ∃ next, op.run proc = some next ∧ next.Owned := by
  cases op with
  | make p fd => exact ⟨_, rfl, h.give (Process.owner_of_none hallowed.1) hallowed.2⟩
  | makeFrom p other =>
      obtain ⟨source, hsource⟩ := Option.ne_none_iff_exists'.mp hallowed.2
      have hne : p ≠ other := by
        rintro rfl
        exact hallowed.2 hallowed.1
      refine ⟨_, ?_, h.move hne (Process.owner_of_none hallowed.1) hsource⟩
      simp only [run, Process.makeFrom, hsource, Option.bind_eq_bind, Option.bind_some]
  | destroy p =>
      obtain ⟨socket, hsocket⟩ := Option.ne_none_iff_exists'.mp hallowed
      obtain ⟨files, hclose, hempty⟩ := h.vacate hsocket
      refine ⟨_, ?_, hempty none rfl⟩
      simp only [run, Process.destroy, hsocket, Option.bind_eq_bind, Option.bind_some,
        hclose]
  | assign p other =>
      by_cases heq : p = other
      · exact ⟨proc, if_neg (not_not.mpr heq), h⟩
      · obtain ⟨socket, hsocket⟩ := Option.ne_none_iff_exists'.mp hallowed.1
        obtain ⟨source, hsource⟩ := Option.ne_none_iff_exists'.mp hallowed.2
        obtain ⟨files, hclose, hempty⟩ := h.vacate hsocket
        have hmoved := (hempty (some ⟨none⟩) rfl).move heq
          (by rw [owner_setSocket, Function.update_self]; rfl)
          ((Function.update_of_ne (Ne.symm heq) _ _).trans hsource)
        rw [Process.setSocket_setSocket] at hmoved
        refine ⟨_, ?_, hmoved⟩
        simp only [run, Process.assign, if_pos heq, hsocket, hsource,
          Option.bind_eq_bind, Option.bind_some, hclose]
  | release p =>
      obtain ⟨socket, hsocket⟩ := Option.ne_none_iff_exists'.mp hallowed
      have howns := Process.owner_of_socket hsocket
      simp only [run, Process.release, hsocket, Option.bind_eq_bind, Option.bind_some]
      cases hfd : socket.fd with
      | none =>
          refine ⟨_, rfl, ?_⟩
          unfold Process.Owned
          rw [owner_setSocket, Option.bind_some,
            Function.update_eq_self_iff.mpr (howns.trans hfd).symm]
          exact h
      | some fd =>
          rw [hfd] at howns
          have hfree : proc.owner (.inr fd) = none := by
            cases hheld : proc.held fd with
            | false => rw [Process.owner, hheld]; rfl
            | true =>
                cases h.unique _ _ fd howns (Process.owner_of_held hheld)
          have hpass := h.pass (o := .inl p) hfree
          rw [howns] at hpass
          refine ⟨_, rfl, ?_⟩
          unfold Process.Owned
          rw [owner_setHeld, owner_setSocket]
          exact hpass
  | reset p fd =>
      obtain ⟨socket, hsocket⟩ := Option.ne_none_iff_exists'.mp hallowed.1
      obtain ⟨files, hclose, hempty⟩ := h.vacate hsocket
      have hgiven := (hempty (some ⟨none⟩) rfl).give
        (by rw [owner_setSocket, Function.update_self]; rfl) hallowed.2
      rw [Process.hand_setSocket, Process.setSocket_setSocket] at hgiven
      refine ⟨_, ?_, hgiven⟩
      simp only [run, Process.reset, hsocket, Option.bind_eq_bind, Option.bind_some,
        hclose]
  | openFile fd =>
      refine ⟨_, rfl, ?_⟩
      have hfree : proc.owner (.inr fd) = none := by
        cases hheld : proc.held fd with
        | false => rw [Process.owner, hheld]; rfl
        | true =>
            exact absurd ((h.mem fd).mpr ⟨_, Process.owner_of_held hheld⟩) hallowed
      have htaken := h.take hfree hallowed
      have howner := owner_setHeld proc fd true
      rw [if_pos rfl] at howner
      unfold Process.Owned
      rw [← howner] at htaken
      exact htaken
  | closeFile fd =>
      have howns := Process.owner_of_held hallowed
      have hopen := (h.mem fd).mpr ⟨_, howns⟩
      have hdropped := h.drop howns
      refine ⟨({ proc with files := proc.files.erase fd } : Process).setHeld fd false,
        ?_, ?_⟩
      · simp only [run, Process.closeFile, Process.close, if_pos hopen,
          Option.bind_eq_bind, Option.bind_some]
      · unfold Process.Owned
        rw [owner_setHeld]
        exact hdropped

theorem SocketReachable.owned (h : SocketReachable proc) : proc.Owned := by
  induction h with
  | start =>
      have hnone : ({} : Process).owner = fun _ => none := by
        funext o
        cases o <;> rfl
      unfold Process.Owned
      rw [hnone]
      exact .empty
  | tail _ op allowed result ih =>
      obtain ⟨_, hrun, howned⟩ := SocketOp.owned ih allowed
      rw [result] at hrun
      cases hrun
      exact howned

/-- Whatever a program does with sockets, two of them never own one descriptor,
what they own is open and in nobody's hands, no close fails, and when the last
object is gone and nothing is in hand every descriptor is closed. -/
theorem sockets_own_descriptors (hreach : SocketReachable proc) :
    (∀ p q fd, proc.socket p = some ⟨some fd⟩ → proc.socket q = some ⟨some fd⟩ →
      p = q) ∧
    (∀ p fd, proc.socket p = some ⟨some fd⟩ →
      fd ∈ proc.files ∧ proc.held fd = false) ∧
    (∀ op : SocketOp, op.Allowed proc → ∃ next, op.run proc = some next) ∧
    ((∀ p, proc.socket p = none) → (∀ fd, proc.held fd = false) →
      proc.files = []) := by
  have h := hreach.owned
  refine ⟨?_, ?_, ?_, ?_⟩
  · intro p q fd hp hq
    have hsame := h.unique _ _ fd (Process.owner_of_socket hp)
      (Process.owner_of_socket hq)
    exact Sum.inl.inj hsame
  · intro p fd hp
    have howns := Process.owner_of_socket hp
    refine ⟨(h.mem fd).mpr ⟨_, howns⟩, Bool.eq_false_iff.mpr ?_⟩
    intro hheld
    cases h.unique _ _ fd howns (Process.owner_of_held hheld)
  · intro op hallowed
    obtain ⟨next, hrun, -⟩ := SocketOp.owned h hallowed
    exact ⟨next, hrun⟩
  · intro hgone hempty
    refine Exclusive.eq_nil h ?_
    intro o
    cases o with
    | inl p => exact Process.owner_of_none (hgone p)
    | inr fd =>
        rw [Process.owner, hempty fd]
        rfl

theorem sockets_own_descriptors_listener : ∃ proc,
    SocketReachable proc ∧ proc.socket 0 = some ⟨some 3⟩ ∧
      3 ∈ proc.files ∧ proc.held 3 = false := by
  have hmade : SocketReachable _ := .tail .start (.make 0 none) ⟨rfl, by simp⟩ rfl
  have hopened : SocketReachable _ :=
    .tail hmade (.openFile 3) List.not_mem_nil rfl
  have hreset : SocketReachable _ :=
    .tail hopened (.reset 0 (some 3)) ⟨by rintro ⟨⟩, by rintro _ ⟨⟩; rfl⟩ rfl
  exact ⟨_, hreset, rfl, (sockets_own_descriptors hreset).2.1 0 3 rfl⟩

end MiniRedis.Net
