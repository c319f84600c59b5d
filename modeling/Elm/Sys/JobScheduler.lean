import Elm.Lib.Loop

/-!
# `JobScheduler`

The scheduler of `include/elm/sys/JobScheduler.h` and `src/sys_JobScheduler.cpp`.  A step is the one of
a thread in `run`, of the thread that calls `start` (the thread 0 of `run`), or a call to `stop` by any
thread.  `next` and `harvest` of the producer begin and end in different steps, and their results are
given by the steps: a job or a null pointer, the message of an exception or none.

The state also keeps what has happened: the jobs returned by `next`, run and harvested, and the
messages of the exceptions raised by `harvest`, the newest first.
-/

namespace Elm.Sys

/-- The member `state`. -/
inductive SchedulerState
  | wait | run | stop | exn
  deriving DecidableEq

/-- The places of a thread in `run`. -/
inductive Place (J : Type)
  | idle
  /-- Before the first lock of the mutex. -/
  | entering
  /-- At the condition of the loop. -/
  | test
  /-- In `prod->next()`. -/
  | next
  /-- Before the unlock of the loop. -/
  | taken (job : J)
  /-- In `job->run()`. -/
  | running (job : J)
  /-- Before the lock of the loop. -/
  | ran (job : J)
  /-- In `prod->harvest(job)`. -/
  | harvest (job : J)
  /-- Before the last unlock. -/
  | leaving
  | ended

/-- The places of the caller in `start`. -/
inductive Start
  | idle
  /-- `k` threads have been started. -/
  | starting (k : Nat)
  /-- In its own `run`. -/
  | running
  /-- `k` threads have been joined. -/
  | joining (k : Nat)
  | returned
  | threw (message : String)

/-- The scheduler, which makes `others` threads (`cnt - 1`). -/
structure JobScheduler (J : Type) where
  others : Nat
  state : SchedulerState
  mutex : Option Nat
  err : String
  start : Start
  threads : Nat → Place J
  returned : List J
  executed : List J
  harvested : List J
  raised : List String

namespace JobScheduler

variable {J : Type}

/-- The constructor and `setThreadCount`. -/
def new (others : Nat) : JobScheduler J :=
  ⟨others, .wait, none, "", .idle, fun _ => .idle, [], [], [], []⟩

/-- The thread `t` goes to a place. -/
def goto (s : JobScheduler J) (t : Nat) (place : Place J) : JobScheduler J :=
  { s with threads := Function.update s.threads t place }

/-- The steps of a thread in `run`. -/
inductive Act (J : Type)
  | lock
  | test
  | next (job : Option J)
  | unlock
  | run
  | harvest (exception : Option String)

/-- A step of the thread `t`. -/
def run (s : JobScheduler J) (t : Nat) (act : Act J) : Option (JobScheduler J) :=
  match s.threads t, act with
  | .entering, .lock => if s.mutex = none then some ({ s with mutex := some t }.goto t .test) else none
  | .test, .test => some (s.goto t (if s.state = .run then .next else .leaving))
  | .next, .next (some job) => some ({ s with returned := job :: s.returned }.goto t (.taken job))
  | .next, .next none => some (s.goto t .leaving)
  | .taken job, .unlock => some ({ s with mutex := none }.goto t (.running job))
  | .running job, .run => some ({ s with executed := job :: s.executed }.goto t (.ran job))
  | .ran job, .lock => if s.mutex = none then some ({ s with mutex := some t }.goto t (.harvest job)) else none
  | .harvest job, .harvest none => some ({ s with harvested := job :: s.harvested }.goto t .test)
  | .harvest job, .harvest (some message) =>
    some ({ s with
      harvested := job :: s.harvested, raised := message :: s.raised, err := message,
      state := .exn }.goto t .leaving)
  | .leaving, .unlock => some ({ s with mutex := none }.goto t .ended)
  | _, _ => none

/-- The steps of all the threads. -/
inductive Label (J : Type)
  /-- `start` up to `state = RUN`. -/
  | begin
  /-- The start of the next thread. -/
  | spawn
  /-- The call of `run` in `start`. -/
  | enter
  /-- Its return. -/
  | exit
  /-- The join of the next thread. -/
  | join
  /-- The end of `start`. -/
  | finish
  /-- `stop`. -/
  | stop
  | thread (t : Nat) (act : Act J)

/-- A step. -/
def step (s : JobScheduler J) : Label J → Option (JobScheduler J)
  | .begin =>
    match s.start with
    | .idle => some { s with state := .run, start := .starting 0 }
    | _ => none
  | .spawn =>
    match s.start with
    | .starting k =>
      if k < s.others then some ({ s with start := .starting (k + 1) }.goto (k + 1) .entering) else none
    | _ => none
  | .enter =>
    match s.start with
    | .starting k => if k = s.others then some ({ s with start := .running }.goto 0 .entering) else none
    | _ => none
  | .exit =>
    match s.start, s.threads 0 with
    | .running, .ended => some { s with start := .joining 0 }
    | _, _ => none
  | .join =>
    match s.start with
    | .joining k =>
      match s.threads (k + 1) with
      | .ended => if k < s.others then some { s with start := .joining (k + 1) } else none
      | _ => none
    | _ => none
  | .finish =>
    match s.start with
    | .joining k =>
      if k = s.others then
        if s.state = .exn then some { s with state := .wait, start := .threw s.err }
        else some { s with state := .wait, start := .returned }
      else none
    | _ => none
  | .stop => some { s with state := .stop }
  | .thread t act => s.run t act

/-- `start` has ended. -/
def Start.Ended : Start → Prop
  | .returned => True
  | .threw _ => True
  | _ => False

/-- `stop` is not called between an exception of `harvest` and the end of `start`. -/
def KeepsError (s : JobScheduler J) : Label J → Prop
  | .stop => s.state ≠ .exn
  | _ => True

end JobScheduler

end Elm.Sys
