import MiniCore.Lib.Ring

/-!
# MiniCore.Kernel.Log

The log ring (`src/kernel/log.c`): 1024 bytes, the newest of everything written.

`head` is where the next byte goes and `count` saturates at the capacity, so
what is kept are the `count` bytes in front of `head` (`Log.contents`).  A byte
written appends to them and pushes the oldest one out of a full ring
(`contents_logPut`); by induction a run of writes leaves the last 1024 bytes of
their concatenation (`contents_logWrites`).
-/

namespace MiniCore

open Lib List

def logCapacity : Nat := 1024

/-- The static state of `log.c` without its lock, with the bounds its indices keep. -/
structure Log where
  buffer : Nat → UInt8
  head : Nat
  count : Nat
  head_lt : head < logCapacity
  count_le : count ≤ logCapacity

/-- `log_init`: the buffer keeps the bytes it had. -/
def logInit (log : Log) : Log :=
  { log with head := 0, count := 0, head_lt := by decide, count_le := by decide }

/-- The loop body of `log_write`. -/
def logPut (log : Log) (byte : UInt8) : Log where
  buffer := Function.update log.buffer log.head byte
  head := (log.head + 1) % logCapacity
  count := if log.count < logCapacity then log.count + 1 else log.count
  head_lt := Nat.mod_lt _ (by decide)
  count_le := by
    have := log.count_le
    split <;> omega

def logWrite (log : Log) (data : List UInt8) : Log := data.foldl logPut log

/-- `log_read` into the caller's array `data`: the amount, the array and the log. -/
def logRead (log : Log) (data : Nat → UInt8) (capacity : Nat) : Nat × (Nat → UInt8) × Log :=
  let amount := if log.count < capacity then log.count else capacity
  let start := (log.head + logCapacity - log.count) % logCapacity
  (amount,
    forRange amount
      (fun i data => Function.update data i (log.buffer ((start + i) % logCapacity))) data,
    log)

/-- A sequence of writes. -/
def logWrites (log : Log) (writes : List (List UInt8)) : Log := writes.foldl logWrite log

/-- The bytes kept, oldest first. -/
def Log.contents (log : Log) : List UInt8 := ringLast logCapacity log.buffer log.head log.count

namespace Log

variable {log : Log}

@[simp] theorem length_contents : log.contents.length = log.count := by simp [contents, ringLast]

@[simp] theorem contents_logInit : (logInit log).contents = [] := by
  simp [contents, ringLast, ringList, logInit]

theorem contents_logPut (byte : UInt8) :
    (logPut log byte).contents = (log.contents ++ [byte]).rtake logCapacity :=
  ringLast_push byte log.head_lt log.count_le

theorem contents_rtake : log.contents.rtake logCapacity = log.contents := by
  rw [rtake, length_contents, Nat.sub_eq_zero_of_le log.count_le, drop_zero]

/-- One write, of any length, leaves the newest bytes of the old contents and the
new ones. -/
theorem contents_logWrite (data : List UInt8) :
    (logWrite log data).contents = (log.contents ++ data).rtake logCapacity := by
  induction data generalizing log with
  | nil => rw [append_nil, contents_rtake, logWrite, foldl_nil]
  | cons byte data ih =>
    have hcons : logWrite log (byte :: data) = logWrite (logPut log byte) data := rfl
    rw [hcons, ih, contents_logPut, rtake_rtake_append, append_assoc, singleton_append]

/-- Splitting a write changes nothing, not even the state. -/
theorem logWrites_eq_flatten (writes : List (List UInt8)) :
    logWrites log writes = logWrite log writes.flatten := by
  rw [logWrites, logWrite, foldl_flatten]
  rfl

/-- What `log_read` returns, and the caller's array position by position. -/
theorem logRead_spec (log : Log) (data : Nat → UInt8) (capacity : Nat) :
    (logRead log data capacity).1 = (log.contents.take capacity).length ∧
    ∀ i, (logRead log data capacity).2.1 i = ((log.contents.take capacity)[i]?).getD (data i) := by
  have hamount : (if log.count < capacity then log.count else capacity) =
      (log.contents.take capacity).length := by
    rw [length_take, length_contents]
    split <;> omega
  refine ⟨hamount, fun i => ?_⟩
  simp only [logRead, forRange_update, hamount]
  split
  · rename_i hi
    rw [getElem?_eq_getElem hi, Option.getD_some, getElem_take]
    simp only [contents, ringLast, ringList, getElem_map, getElem_range]
  · rename_i hi
    rw [getElem?_eq_none (Nat.le_of_not_lt hi), Option.getD_none]

end Log

/-- The last `m` bytes of a sequence of writes, `m` the smaller of their total
and the capacity. -/
def newestBytes (writes : List (List UInt8)) : List UInt8 :=
  writes.flatten.rtake (min writes.flatten.length logCapacity)

theorem contents_logWrites (old : Log) (writes : List (List UInt8)) :
    (logWrites (logInit old) writes).contents = newestBytes writes := by
  have hmin : writes.flatten.length - logCapacity =
      writes.flatten.length - min writes.flatten.length logCapacity := by
    omega
  rw [Log.logWrites_eq_flatten, Log.contents_logWrite, Log.contents_logInit, nil_append,
    newestBytes, rtake, rtake, hmin]

/-- What `log_read` finds in a log that keeps `newest`. -/
structure LogReads (log : Log) (newest : List UInt8) (data : Nat → UInt8) (capacity : Nat) :
    Prop where
  /-- It returns the number of bytes it copies, -/
  amount : (logRead log data capacity).1 = min capacity newest.length
  /-- the first ones kept, in order, -/
  bytes : (range (min capacity newest.length)).map (logRead log data capacity).2.1 =
    newest.take capacity
  /-- stores nothing behind them, -/
  rest : ∀ i, min capacity newest.length ≤ i → (logRead log data capacity).2.1 i = data i
  /-- and leaves the log as it was. -/
  unchanged : (logRead log data capacity).2.2 = log

theorem Log.reads (log : Log) (data : Nat → UInt8) (capacity : Nat) :
    LogReads log log.contents data capacity := by
  obtain ⟨hamount, hdata⟩ := logRead_spec log data capacity
  rw [length_take] at hamount
  refine ⟨hamount, ext_getElem (by simp) fun i h1 h2 => ?_, fun i hi => ?_, rfl⟩
  · rw [getElem_map, getElem_range, hdata, getElem?_eq_getElem h2, Option.getD_some]
  · rw [hdata, getElem?_eq_none (by rwa [length_take]), Option.getD_none]

/-- **The log keeps the newest bytes**: after any writes since `log_init`, a read
of any capacity finds a prefix of them, and nothing depends on how the bytes
were split into writes. -/
theorem log_keeps_newest (old : Log) (writes : List (List UInt8)) :
    (newestBytes writes).length = min writes.flatten.length logCapacity ∧
    (∀ data capacity,
      LogReads (logWrites (logInit old) writes) (newestBytes writes) data capacity) ∧
    ∀ writes' : List (List UInt8), writes'.flatten = writes.flatten →
      logWrites (logInit old) writes' = logWrites (logInit old) writes := by
  refine ⟨?_, fun data capacity => ?_, fun writes' heq => ?_⟩
  · rw [newestBytes, rtake, length_drop]
    omega
  · rw [← contents_logWrites old]
    exact Log.reads _ data capacity
  · rw [Log.logWrites_eq_flatten, Log.logWrites_eq_flatten, heq]

end MiniCore
