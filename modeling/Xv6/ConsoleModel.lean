import Xv6.RingBuffer
import Xv6.Runs

/-!
Console input: `consoleintr` and `consoleread` of `kernel/console.c`.

`cons.lock` is held for the whole of `consoleintr`, and in `consoleread` from the call, or from
the wakeup, to the next sleep or the return; so each of these is one step. A sleeper may be woken at
any time, and finds out for itself whether there is input. Echoing is left out, and the copies to
user memory succeed.
-/

namespace Xv6.ConsoleModel

open Function Runs RingBuffer

def INPUT_BUF_SIZE : ℕ := 128

instance : NeZero INPUT_BUF_SIZE := ⟨by decide⟩

def ctrlD : UInt8 := 0x04
def ctrlH : UInt8 := 0x08
def ctrlP : UInt8 := 0x10
def ctrlU : UInt8 := 0x15
def newline : UInt8 := 0x0a
def carriage : UInt8 := 0x0d
def delete : UInt8 := 0x7f

structure Cons where
  buf : Fin INPUT_BUF_SIZE → UInt8
  /-- Read, write and edit index. -/
  r : BitVec 32
  w : BitVec 32
  e : BitVec 32

def Cons.at (s : Cons) (i : BitVec 32) : UInt8 := s.buf (Fin.ofNat INPUT_BUF_SIZE i.toNat)

/-- The loop for `C('U')`; it stops when `e` has come down to `w`. -/
def killLine : ℕ → Cons → Cons
  | 0, s => s
  | k + 1, s =>
    if s.e ≠ s.w ∧ s.at (s.e - 1) ≠ newline then killLine k { s with e := s.e - 1 } else s

def store (s : Cons) (c : UInt8) : Cons :=
  let s := { s with
    buf := update s.buf (Fin.ofNat INPUT_BUF_SIZE s.e.toNat) c
    e := s.e + 1 }
  if c = newline ∨ c = ctrlD ∨ (s.e - s.r).toNat = INPUT_BUF_SIZE then { s with w := s.e } else s

def consoleintr (s : Cons) (c : UInt8) : Cons :=
  if c = ctrlP then s
  else if c = ctrlU then killLine (s.e - s.w).toNat s
  else if c = ctrlH ∨ c = delete then if s.e ≠ s.w then { s with e := s.e - 1 } else s
  else if c ≠ 0 ∧ (s.e - s.r).toNat < INPUT_BUF_SIZE then
    store s (if c = carriage then newline else c)
  else s

variable {P : Type} [DecidableEq P]

/-- What readers see: a byte copied to the memory of `p`, and the end of a read of `target` bytes,
with the number of bytes it returns, or `none` for -1. -/
inductive Event (P : Type)
  | out (p : P) (c : UInt8)
  | ret (p : P) (target : ℕ) (k : Option ℕ)
  deriving DecidableEq

/-- Where a process is: not reading, or asleep in a read with `n` bytes to go. -/
inductive Pc
  | idle
  | asleep (n target : ℕ)
  deriving DecidableEq

/-- The loop of `consoleread` with `n` bytes to go, until it sleeps or returns. -/
def consoleread (p : P) (killed : Bool) (target : ℕ) :
    ℕ → Cons → List (Event P) → Cons × Pc × List (Event P)
  | 0, s, log => (s, .idle, log ++ [.ret p target (some target)])
  | n + 1, s, log =>
    if s.r = s.w then
      if killed then (s, .idle, log ++ [.ret p target none]) else (s, .asleep (n + 1) target, log)
    else
      let c := s.at s.r
      let s := { s with r := s.r + 1 }
      if c = ctrlD then
        -- save `^D` for next time, to make sure the caller gets a 0-byte result
        let s := if n + 1 < target then { s with r := s.r - 1 } else s
        (s, .idle, log ++ [.ret p target (some (target - (n + 1)))])
      else if c = newline then
        (s, .idle, log ++ [.out p c] ++ [.ret p target (some (target - n))])
      else consoleread p killed target n s (log ++ [.out p c])

structure State (P : Type) where
  cons : Cons
  pc : P → Pc
  log : List (Event P)

inductive Act (P : Type)
  | intr (c : UInt8)
  | read (p : P) (n : ℤ) (killed : Bool)
  | resume (p : P) (killed : Bool)

/-- A read of no bytes, or of a negative number of them, does not enter the loop. -/
def step (s : State P) : Act P → Option (State P)
  | .intr c => some { s with cons := consoleintr s.cons c }
  | .read p n killed =>
    match s.pc p with
    | .idle =>
      let x := consoleread p killed n.toNat n.toNat s.cons s.log
      some ⟨x.1, update s.pc p x.2.1, x.2.2⟩
    | .asleep _ _ => none
  | .resume p killed =>
    match s.pc p with
    | .idle => none
    | .asleep n target =>
      let x := consoleread p killed target n s.cons s.log
      some ⟨x.1, update s.pc p x.2.1, x.2.2⟩

def start : State P := ⟨⟨fun _ => 0, 0, 0, 0⟩, fun _ => .idle, []⟩

end Xv6.ConsoleModel
