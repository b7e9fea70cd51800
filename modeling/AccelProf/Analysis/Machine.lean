import AccelProf.Model.Tools
import AccelProf.Program.Journal

/-! The machine under the analyzers: its processes, who listens on its ports, and what happens to
them between two calls. -/

namespace Accel.Model
open Data Program Prog

inductive ProcStatus where
  | running
  | killed
  | exited (code : ℤ)
  deriving DecidableEq

/-- What can become of a process: a killed one is never again as before, an exited one stays so. -/
def ProcStatus.Later : ProcStatus → ProcStatus → Prop
  | .running, _ => True
  | .killed, st => st ≠ .running
  | .exited code, st => st = .exited code

/-- The processes started so far, by pid, and the process that listens on each port. -/
structure Pod where
  started : List ProcStatus
  listener : ℤ → Option Pid

namespace Pod
variable {w w₁ w' : Pod} {p : Pid} {st : ProcStatus}

def status (w : Pod) (p : Pid) : Option ProcStatus := w.started[p]?

/-- Only a running process that `kill` reaches dies of it. -/
def kill (w : Pod) (p : Pid) : Pod :=
  { w with started := w.started.modify p fun st => if st = .running then .killed else st }

/-- What the processes do by themselves: exit, and take or give up ports. -/
structure Drift (w w' : Pod) : Prop where
  length : w'.started.length = w.started.length
  later : ∀ p st, w.status p = some st → ∃ st', w'.status p = some st' ∧ st.Later st'
  bound : ∀ port p, w'.listener port = some p →
    (w.listener port = some p ∨ w.status p = some .running) ∧
      ∀ code, w'.status p ≠ some (.exited code)

/-- No process that stopped runs again. -/
def Advances (w w' : Pod) : Prop :=
  ∀ p st, w.status p = some st → ∃ st', w'.status p = some st' ∧ (st ≠ .running → st' ≠ .running)

def Stopped (p : Pid) (w : Pod) : Prop := ∃ st, w.status p = some st ∧ st ≠ .running

theorem Advances.refl (w : Pod) : Advances w w := fun _ st h => ⟨st, h, id⟩

theorem Advances.trans (h : Advances w w₁) (h' : Advances w₁ w') : Advances w w' := by
  intro p st hst
  obtain ⟨st₁, hst₁, hrun₁⟩ := h p st hst
  obtain ⟨st₂, hst₂, hrun₂⟩ := h' p st₁ hst₁
  exact ⟨st₂, hst₂, fun hne => hrun₂ (hrun₁ hne)⟩

theorem Stopped.advances (h : Stopped p w) (ha : Advances w w') : Stopped p w' := by
  obtain ⟨st, hst, hne⟩ := h
  obtain ⟨st', hst', hrun⟩ := ha p st hst
  exact ⟨st', hst', hrun hne⟩

theorem Drift.advances (h : Drift w w') : Advances w w' := by
  intro p st hst
  obtain ⟨st', hst', hlater⟩ := h.later p st hst
  refine ⟨st', hst', fun hne => ?_⟩
  cases st with
  | running => exact absurd rfl hne
  | killed => exact hlater
  | exited code =>
    have hlater : st' = .exited code := hlater
    rw [hlater]
    simp

theorem status_kill (w : Pod) (p q : Pid) : (w.kill p).status q =
    (w.status q).map fun st => if p = q ∧ st = .running then .killed else st := by
  unfold kill status
  rw [List.getElem?_modify]
  by_cases hpq : p = q
  · simp [hpq]
  · simp [hpq]

theorem kill_advances (w : Pod) (p : Pid) : Advances w (w.kill p) := by
  intro q st hst
  rw [status_kill, hst]
  refine ⟨_, rfl, fun hne => ?_⟩
  show (if p = q ∧ st = .running then ProcStatus.killed else st) ≠ .running
  split_ifs
  · simp
  · exact hne

theorem stopped_kill (h : w.status p = some st) : Stopped p (w.kill p) := by
  unfold Stopped
  rw [status_kill, h]
  refine ⟨_, rfl, ?_⟩
  show (if p = p ∧ st = .running then ProcStatus.killed else st) ≠ .running
  split_ifs with hrun
  · simp
  · exact fun he => hrun ⟨rfl, he⟩

theorem advances_append (w : Pod) (st : ProcStatus) :
    Advances w { w with started := w.started ++ [st] } := by
  intro q st' hst
  refine ⟨st', ?_, id⟩
  have hlt : q < w.started.length := (List.getElem?_eq_some_iff.1 hst).1
  show (w.started ++ [st])[q]? = some st'
  rw [List.getElem?_append_left hlt]
  exact hst

end Pod

/-- The answers of the machine and what the calls do. Any tool may fail to start and end in any way;
the calls of the clean-up do not raise. -/
def PodServes : Service ToolCall ToolAns Unit Pod := fun w c _ a w' =>
  match c, a with
  | .mkdtemp, _ => w' = w
  | .rmtree _, a => a = .ok () ∧ w' = w
  | .run .., _ => w' = w
  | .popen .., a => (∃ e, a = .error e ∧ w' = w) ∨
      a = .ok w.started.length ∧ w' = { w with started := w.started ++ [.running] }
  | .poll server, a => w' = w ∧ ∃ code, a = .ok code ∧
      ∀ n, code = some n ↔ w.status server = some (.exited n)
  | .readOutput _, _ => w' = w
  | .connect port, a => w' = w ∧ ((∃ e, a = .error e) ∨ a = .ok (w.listener port).isSome)
  | .monotonic, a => w' = w ∧ ∃ now, a = .ok now
  | .sleep _, a => a = .ok () ∧ w' = w
  | .terminate _, a => a = .ok () ∧ w' = w
  | .wait server _, a => w' = w ∧ ∃ code, a = .ok code ∧
      ∀ n, code = some n → w.status server = some (.exited n)
  | .kill server, a => a = .ok () ∧ w' = w.kill server

/-- Calls that start no process, signal none, and make and remove no directory. -/
def QuietTool : ToolCall → Prop
  | .mkdtemp => False
  | .rmtree _ => False
  | .popen .. => False
  | .terminate _ => False
  | .kill _ => False
  | _ => True

theorem podServes_quiet {w w' : Pod} {c : ToolCall} {l : Unit} {a : ToolAns c} (hc : QuietTool c)
    (h : PodServes w c l a w') : w' = w := by
  cases c with
  | run argv cwd timeout => exact h
  | poll server => exact h.1
  | readOutput server => exact h
  | connect port => exact h.1
  | monotonic => exact h.1
  | sleep seconds => exact h.2
  | wait server timeout => exact h.1
  | _ => exact hc.elim

section Sample

/-- A pod whose processes do nothing by themselves and whose tools print one line. -/
def Pod.serve (w : Pod) : (c : ToolCall) → ToolAns c × Pod
  | .mkdtemp => (.ok "/tmp/analyzer-0".toList, w)
  | .rmtree _ => (.ok (), w)
  | .run .. => (.ok (.exited 0 "row".toList []), w)
  | .popen .. => (.ok w.started.length, { w with started := w.started ++ [.running] })
  | .poll server => (.ok (match w.status server with
      | some (.exited n) => some n
      | _ => none), w)
  | .readOutput _ => (.ok [], w)
  | .connect port => (.ok (w.listener port).isSome, w)
  | .monotonic => (.ok 0, w)
  | .sleep _ => (.ok (), w)
  | .terminate _ => (.ok (), w)
  | .wait .. => (.ok none, w)
  | .kill server => (.ok (), w.kill server)

theorem podServes_serve (w : Pod) (c : ToolCall) :
    PodServes w c () (w.serve c).1 (w.serve c).2 := by
  cases c with
  | mkdtemp => rfl
  | rmtree path => exact ⟨rfl, rfl⟩
  | run argv cwd timeout => rfl
  | popen argv cwd => exact .inr ⟨rfl, rfl⟩
  | poll server =>
    refine ⟨rfl, _, rfl, fun n => ?_⟩
    cases hst : w.status server with
    | none => simp
    | some st => cases st <;> simp
  | readOutput server => rfl
  | connect port => exact ⟨rfl, .inr rfl⟩
  | monotonic => exact ⟨rfl, 0, rfl⟩
  | sleep seconds => exact ⟨rfl, rfl⟩
  | terminate server => exact ⟨rfl, rfl⟩
  | wait server timeout => exact ⟨rfl, none, rfl, nofun⟩
  | kill server => exact ⟨rfl, rfl⟩

/-- A killed process that still has its port. -/
def samplePod : Pod := ⟨[.killed], fun port => if port = 3002 then some 0 else none⟩

def sampleRoot : FileSystem := ⟨.empty, [], trivial, rfl, fun _ => ([], [])⟩

def sampleServer : Analyzer :=
  .server "db".toList ["serve".toList] 3002 ["ask".toList] [] (.float (.finite 60))

def sampleDesk : Desk := ⟨[("db".toList, sampleServer)], 600, fun _ => []⟩

end Sample

section Uses

theorem uses_tool {S : ToolCall → Prop} {c : ToolCall} (hc : S c) : (tool c).Uses S :=
  uses_perform hc

theorem uses_ofExceptTool {S : ToolCall → Prop} {α : Type} (x : Except ToolExc α) :
    (ofExcept x : Tool α).Uses S := by
  cases x with
  | ok a => trivial
  | error e => trivial

theorem uses_runOnce (name what : Str) (drop : List Json) (argv : List Str) (tmpDir : Str)
    (timeout : ℤ) : (runOnce name what drop argv tmpDir timeout).Uses QuietTool := by
  refine Uses.bind (uses_tool trivial) fun out => ?_
  cases out with
  | exited returncode stdout stderr => exact uses_ofExceptTool _
  | timedOut stdout => trivial

theorem uses_awaitPort (server : Pid) (port : ℤ) (deadline : PyFloat) (fuel : ℕ) :
    (awaitPort server port deadline fuel).Uses QuietTool := by
  induction fuel with
  | zero => trivial
  | succ fuel ih =>
    refine Uses.bind (uses_tool trivial) fun now => ?_
    split_ifs
    · trivial
    refine Uses.bind (uses_tool trivial) fun code => ?_
    cases code with
    | some returncode => trivial
    | none =>
      refine Uses.bind (uses_tool trivial) fun isOpen => ?_
      split_ifs
      · trivial
      · exact Uses.bind (uses_tool trivial) fun _ => ih

theorem uses_consult (fmt : PyFloat → Str) (spec : ServerSpec) (fuel : ℕ) (server : Pid)
    (query : List Str) (tmpDir : Str) (timeout : ℤ) :
    (consult fmt spec fuel server query tmpDir timeout).Uses QuietTool := by
  refine Uses.bind (uses_tool trivial) fun now => ?_
  refine Uses.bind (uses_ofExceptTool _) fun limit => ?_
  refine Uses.bind (uses_ofExceptTool _) fun deadline => ?_
  refine Uses.bind (uses_awaitPort ..) fun readiness => ?_
  cases readiness with
  | ready => exact uses_runOnce ..
  | died returncode => exact Uses.bind (uses_tool trivial) fun log => uses_ofExceptTool _
  | neverOpened => trivial

end Uses

end Accel.Model
