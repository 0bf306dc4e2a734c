/-
Runs of the ring buffer.

Whatever is done to a new buffer, the bytes in it are those of a bounded queue, its
pointers stay inside, and refused operations change nothing.  The caller has seen what
the queue would have handed back exactly when every operation met its condition.
-/

import Pttbbs.Common.VbufTransfers

namespace Pttbbs.Common.Vbuf

open Pttbbs.Lib

variable {v : VBUF} {capacity : Nat} {bytes rest : List UInt8}

theorem serves_of_next (holds : v.Holds capacity bytes) {op : Op}
    (next : fifoNext capacity bytes op = some rest) : Serves v capacity bytes op := by
  cases op with
  | add c => exact serves_add holds c
  | pop => exact serves_pop holds
  | popn n => exact serves_popn holds n
  | putblk p => exact serves_putblk holds p
  | getblk sz => exact serves_getblk holds sz
  | putstr s => exact serves_putstr holds s
  | strchr c => exact serves_strchr holds c
  | peekat i => exact serves_peekat holds i
  | getstr sz => exact serves_getstr holds sz
  | generalRead sz reader =>
      obtain ⟨result, returns, _⟩ := Option.map_eq_some_iff.mp next
      exact serves_generalRead holds sz returns
  | generalWrite sz writer =>
      obtain ⟨result, returns, _⟩ := Option.map_eq_some_iff.mp next
      exact serves_generalWrite holds sz returns

theorem holds_step (holds : v.Holds capacity bytes) {op : Op}
    (next : fifoNext capacity bytes op = some rest) :
    (advance v op).Holds capacity rest ∧ (Right v op ↔ Condition v op) := by
  obtain ⟨after, out, served, keeps, right, refuses⟩ := serves_of_next holds next
  constructor
  · rw [advance, served]
    exact keeps rest next
  · rw [← right]
    constructor
    · rintro ⟨other, otherOut, same, outRight, _⟩
      rw [served] at same
      injection same with same
      injection same with _ outEq
      rw [holds.same, holds.queue] at outRight
      exact outEq ▸ outRight
    · intro outRight
      refine ⟨after, out, served, ?_, refuses⟩
      rw [holds.same, holds.queue]
      exact outRight

theorem holds_run (holds : v.Holds capacity bytes) {ops : List Op}
    (served : fifoRun capacity bytes ops = some rest) :
    (run advance v ops).Holds capacity rest ∧
      (StepsMeet advance Right v ops ↔ StepsMeet advance Condition v ops) := by
  induction ops generalizing v bytes with
  | nil =>
      cases served
      exact ⟨holds, Iff.rfl⟩
  | cons op ops ih =>
      obtain ⟨next, here, later⟩ := Option.bind_eq_some_iff.mp served
      have one := holds_step holds here
      have others := ih one.1 later
      exact ⟨others.1, and_congr one.2 others.2⟩

/--
The buffer is a bounded queue in every run of calls that come to an end: it holds what
the queue holds, and the calls hand back what a queue would if and only if each of
them meets its condition.
-/
theorem fifo_run (mem : Nat → UInt8) {szbuf : Nat} (large : 1 < szbuf) {ops : List Op}
    (served : fifoRun (szbuf - 1) [] ops = some rest) :
    (run advance (vbufNew mem szbuf) ops).Holds (szbuf - 1) rest ∧
      (StepsMeet advance Right (vbufNew mem szbuf) ops ↔
        StepsMeet advance Condition (vbufNew mem szbuf) ops) :=
  holds_run (VBUF.vbufNew_holds mem large) served

/-- A run through both layouts of a buffer of four cells. -/
theorem fifo_run_both_layouts :
    (run advance (vbufNew (fun _ => 0) 4)
        [.putblk [1, 2, 3], .popn 2, .putblk [0, 5], .getstr 3, .peekat 0]).Holds 3 [5] ∧
      (StepsMeet advance Right (vbufNew (fun _ => 0) 4)
          [.putblk [1, 2, 3], .popn 2, .putblk [0, 5], .getstr 3, .peekat 0] ↔
        StepsMeet advance Condition (vbufNew (fun _ => 0) 4)
          [.putblk [1, 2, 3], .popn 2, .putblk [0, 5], .getstr 3, .peekat 0]) :=
  fifo_run (fun _ => 0) (by decide) (by decide)

theorem right_out {op : Op} (right : Right v op) :
    ∃ out, (step v op).map Prod.snd = some out ∧ OutRight v.capacity v.queue out op := by
  obtain ⟨next, out, served, outRight, _⟩ := right
  exact ⟨out, by rw [served]; rfl, outRight⟩

/--
A string of two bytes is taken as one of a single byte, the first byte of a queue that goes
round the end of the buffer is not there to peek at, and a read of one byte returns 0.
-/
theorem not_right_runs :
    ¬ StepsMeet advance Right (vbufNew (fun _ => 0) 8) [.putstr [97, 98], .getstr 8] ∧
      ¬ StepsMeet advance Right (vbufNew (fun _ => 0) 4)
        [.putblk [1, 2, 3], .popn 2, .putblk [4, 5], .peekat 0] ∧
      ¬ StepsMeet advance Right (vbufNew (fun _ => 0) 2) [.generalRead 0 [some [7]]] := by
  refine ⟨?_, ?_, ?_⟩
  · rintro ⟨_, taken, _⟩
    obtain ⟨out, seen, right⟩ := right_out taken
    have short : out = .string (some [97, 0]) := (Option.some.inj seen).symm
    have whole : out = .string (some [97, 98, 0]) := right.1
    rw [short] at whole
    revert whole
    decide
  · rintro ⟨_, _, _, peeked, _⟩
    obtain ⟨out, seen, right⟩ := right_out peeked
    have missed : out = .code (-1) := (Option.some.inj seen).symm
    have first : out = .code 3 := right
    rw [missed] at first
    revert first
    decide
  · rintro ⟨read, _⟩
    obtain ⟨out, seen, result, moved, right⟩ := right_out read
    have none : out = .code 0 := (Option.some.inj seen).symm
    have one : some (1, false) = some result := moved
    injection one with one
    rw [none, ← one] at right
    revert right
    decide

end Pttbbs.Common.Vbuf
