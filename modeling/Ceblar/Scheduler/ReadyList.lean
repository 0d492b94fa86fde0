import Ceblar.Kernel.Pcb

/-! # The ready list (`scheduler/round_robin.c`) -/

namespace Ceblar

def Kernel.setNext (k : Kernel) (i : Nat) (n : Option Nat) : Kernel :=
  k.modify i fun p => { p with next := n }

/-- `while (q->next) q = q->next`. There are 32 processes, so a longer walk is on a cycle. -/
def lastReady (k : Kernel) : Nat → Nat → Except Halt Nat
  | 0, _ => .error .spin
  | fuel + 1, q =>
    match (k.processes q).next with
    | none => .ok q
    | some n => lastReady k fuel n

def enqueue (i : Nat) (k : Kernel) : Except Halt Kernel :=
  let p := k.processes i
  if !p.allocated || p.state = .zombie || p.cpuState.esp = 0 then .ok k
  else
    let k := k.setNext i none
    match k.readyHead with
    | none => .ok { k with readyHead := some i }
    | some h => do
      let q ← lastReady k (maxProcesses + 1) h
      return k.setNext q (some i)

/-- The loop of `next_ready`. Every round but the last clears a link, so there are at most as many
rounds as processes, and two more. -/
def nextReadyLoop : Nat → Kernel → Except Halt (PcbRef × Kernel)
  | 0, _ => .error .spin
  | fuel + 1, k =>
    match k.readyHead with
    | none => .ok (.idle, k)
    | some i =>
      let k := ({ k with readyHead := (k.processes i).next } : Kernel).setNext i none
      if (k.processes i).allocated ∧ (k.processes i).state = .ready then .ok (.slot i, k)
      else nextReadyLoop fuel k

def nextReady (k : Kernel) : Except Halt (PcbRef × Kernel) := nextReadyLoop (maxProcesses + 2) k

def schedulerAdd (i : Nat) (k : Kernel) : Except Halt (Int × Kernel) :=
  if !(k.processes i).allocated || (k.processes i).cpuState.esp = 0 then .ok (-1, k)
  else do
    let k ← enqueue i k
    return (0, k)

end Ceblar
