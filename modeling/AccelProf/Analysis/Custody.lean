import AccelProf.Analysis.Machine

/-! What an analysis acquires on the machine and gives back: one verification of the analyzers for
every reading of what it means to have a scratch directory or a server. -/

namespace Accel.Model
open Data Program Prog

variable {L W : Type} {R : Service ToolCall ToolAns L W} {K : Contract ToolCall ToolAns W}

/-- The conditions a thread passes through: it has nothing, it has the scratch directory `tmp`, it
has also started `server`. -/
structure Custody (R : Service ToolCall ToolAns L W) (K : Contract ToolCall ToolAns W) where
  free : W → Prop
  holds : Str → W → Prop
  serves : Str → Pid → W → Prop
  free_stable : Stable K free
  holds_stable : ∀ tmp, Stable K (holds tmp)
  serves_stable : ∀ tmp server, Stable K (serves tmp server)
  make : Performs R K free .mkdtemp fun
    | .ok tmp => holds tmp
    | .error _ => free
  launch : ∀ tmp argv cwd, Performs R K (holds tmp) (.popen argv cwd) fun
    | .ok server => serves tmp server
    | .error _ => holds tmp
  quiet_holds : ∀ tmp c, QuietTool c → Performs R K (holds tmp) c fun _ => holds tmp
  quiet_serves : ∀ tmp server c, QuietTool c →
    Performs R K (serves tmp server) c fun _ => serves tmp server
  poll : ∀ tmp server, Performs R K (serves tmp server) (.poll server) fun
    | .ok none => serves tmp server
    | .ok (some _) => holds tmp
    | .error _ => fun _ => False
  terminate : ∀ tmp server, Performs R K (serves tmp server) (.terminate server) fun a w =>
    a = .ok () ∧ serves tmp server w
  wait : ∀ tmp server seconds, Performs R K (serves tmp server) (.wait server seconds) fun
    | .ok none => serves tmp server
    | .ok (some _) => holds tmp
    | .error _ => fun _ => False
  kill : ∀ tmp server, Performs R K (serves tmp server) (.kill server) fun a w =>
    a = .ok () ∧ holds tmp w
  remove : ∀ tmp, Performs R K (holds tmp) (.rmtree tmp) fun a w => a = .ok () ∧ free w

theorem safe_ofCode_bind {α β : Type} {x : Except PyExc α} {f : α → Tool β}
    {Q : Except ToolExc β → W → Prop} {w : W} (herr : ∀ e, Safe R K Q (raise e : Tool β) w)
    (hf : ∀ a, Safe R K Q (f a) w) : Safe R K Q ((ofCode x).bind f) w := by
  cases x with
  | ok a => exact hf a
  | error e => exact herr (.code e)

namespace Custody
variable (D : Custody R K) {fs : FileSystem} {tmp : Str} {server : Pid} {w : W}

theorem safe_remove (hw : D.holds tmp w) :
    Safe R K (fun _ w => D.free w) (tool (.rmtree tmp)) w := by
  apply safe_perform (fun _ => D.free_stable)
  intro w₁ hi hr l a w₂ hs
  obtain ⟨hg, -, hfree⟩ := D.remove tmp w₁ hi (D.holds_stable tmp _ _ hw hi hr) l a w₂ hs
  exact ⟨hg, hfree⟩

theorem safe_quiet_holds {α : Type} {p : Tool α} (hp : p.Uses QuietTool) (hw : D.holds tmp w) :
    Safe R K (fun _ w => D.holds tmp w) p w :=
  safe_of_uses hp (D.holds_stable tmp) (fun c hc => D.quiet_holds tmp c hc) hw

theorem safe_quiet_serves {α : Type} {p : Tool α} (hp : p.Uses QuietTool)
    (hw : D.serves tmp server w) : Safe R K (fun _ w => D.serves tmp server w) p w :=
  safe_of_uses hp (D.serves_stable tmp server) (fun c hc => D.quiet_serves tmp server c hc) hw

/-- Stopping a server does not raise, and nothing of it is left. -/
theorem safe_stopServer (hw : D.serves tmp server w) :
    Safe R K (fun r w => r = .ok () ∧ D.holds tmp w) (stopServer server) w := by
  have hend : ∀ w, D.holds tmp w →
      Safe R K (fun r w => r = .ok () ∧ D.holds tmp w) (ret () : Tool Unit) w :=
    fun w hw w₁ hi hr => ⟨rfl, D.holds_stable tmp _ _ hw hi hr⟩
  apply (D.poll tmp server).bind (D.serves_stable tmp server) hw
  · intro code w₁ hw₁
    cases code with
    | some n => exact hend w₁ hw₁
    | none =>
      apply (D.terminate tmp server).bind (D.serves_stable tmp server) hw₁
      · intro _ w₂ hw₂
        apply (D.wait tmp server 5).bind (D.serves_stable tmp server) hw₂.2
        · intro code w₃ hw₃
          cases code with
          | some n => exact hend w₃ hw₃
          | none =>
            refine safe_perform
              (fun r w w₁ hq hi hr => ⟨hq.1, D.holds_stable tmp _ _ hq.2 hi hr⟩) ?_
            intro w₄ hi hr l a w₅ hs
            exact D.kill tmp server w₄ hi (D.serves_stable tmp server _ _ hw₃ hi hr) l a w₅ hs
        · exact fun e w₃ hfalse => hfalse.elim
      · exact fun e w₂ hw₂ => nomatch hw₂.1
  · exact fun e w₁ hfalse => hfalse.elim

theorem safe_tearDown (hw : D.serves tmp server w) :
    Safe R K (fun _ w => D.free w) (tearDown (some server) tmp) w := by
  apply Safe.bind
  apply (D.safe_stopServer hw).mono
  rintro r w₁ - ⟨rfl, hw₁⟩
  exact D.safe_remove hw₁

theorem safe_startServer {spec : ServerSpec} {runDir : Str} (hw : D.holds tmp w) :
    Safe R K (fun r w => match r with
      | .ok (server, _) => D.serves tmp server w
      | .error _ => D.holds tmp w) (startServer fs spec runDir tmp) w := by
  apply safe_ofCode_bind (fun e w₁ hi hr => D.holds_stable tmp _ _ hw hi hr)
  intro start
  apply safe_ofCode_bind (fun e w₁ hi hr => D.holds_stable tmp _ _ hw hi hr)
  intro query
  apply (D.launch tmp start tmp).bind (D.holds_stable tmp) hw
  · exact fun server w₁ hw₁ w₂ hi hr => D.serves_stable tmp server _ _ hw₁ hi hr
  · exact fun e w₁ hw₁ w₂ hi hr => D.holds_stable tmp _ _ hw₁ hi hr

variable {fmt : PyFloat → Str} {runDir : Str} {timeout : ℤ} {fuel : ℕ}

/-- However a server analyzer ends, it has nothing then. -/
theorem safe_runServer {spec : ServerSpec} (hw : D.free w) :
    Safe R K (fun _ w => D.free w) (runServer fs fmt spec fuel runDir timeout) w := by
  unfold runServer
  split_ifs
  · exact fun w₁ hi hr => D.free_stable _ _ hw hi hr
  apply D.make.bind D.free_stable hw
  · intro tmp w₁ hw₁
    apply Safe.bind
    apply Safe.attempt
    apply (D.safe_startServer hw₁).mono
    intro r w₂ _ hr
    cases r with
    | error e =>
      apply Safe.bind
      apply (D.safe_remove hr).mono
      intro r w₃ _ hw₃
      cases r with
      | ok u => exact fun w₄ hi hr => D.free_stable _ _ hw₃ hi hr
      | error e => exact hw₃
    | ok started =>
      apply Safe.ensuring (fun _ => D.free_stable)
      apply (D.safe_quiet_serves (uses_consult ..) hr).mono
      exact fun _ w₃ _ hw₃ => D.safe_tearDown hw₃
  · exact fun e w₁ hw₁ w₂ hi hr => D.free_stable _ _ hw₁ hi hr

theorem safe_runCommand {name : Str} {argvTemplate : List Str} {drop : List Json} (hw : D.free w) :
    Safe R K (fun _ w => D.free w) (runCommand fs name argvTemplate drop runDir timeout) w := by
  unfold runCommand
  split_ifs
  · exact fun w₁ hi hr => D.free_stable _ _ hw hi hr
  apply D.make.bind D.free_stable hw
  · intro tmp w₁ hw₁
    apply Safe.ensuring (fun _ => D.free_stable)
    refine (D.safe_quiet_holds ?_ hw₁).mono fun _ w₂ _ hw₂ => D.safe_remove hw₂
    exact (uses_ofExceptTool _).bind fun argv => uses_runOnce ..
  · exact fun e w₁ hw₁ w₂ hi hr => D.free_stable _ _ hw₁ hi hr

theorem safe_advise {desk : Desk} {name : Str} (hw : D.free w) :
    Safe R K (fun _ w => D.free w) (advise desk fs fuel runDir name) w := by
  unfold advise
  cases resolveAnalyzer name desk.extra with
  | error e => exact fun w₁ hi hr => D.free_stable _ _ hw hi hr
  | ok fn =>
    cases fn with
    | inventory =>
      show Safe R K _ (ofCode (inventory fs.toLocalFs runDir)) w
      cases inventory fs.toLocalFs runDir with
      | ok advice => exact fun w₁ hi hr => D.free_stable _ _ hw hi hr
      | error e => exact fun w₁ hi hr => D.free_stable _ _ hw hi hr
    | configured a =>
      cases a with
      | command name argv drop => exact D.safe_runCommand hw
      | server name start port query drop readyTimeout => exact D.safe_runServer hw

end Custody

/-- One request for advice, and the files as it finds them. -/
structure AdviceRequest where
  fs : FileSystem
  runDir : Str
  analyzer : Str
  fuel : ℕ

/-- Requests answered one after the other. An exception is the answer of its request only. -/
def session (desk : Desk) : List AdviceRequest → Tool (List (Except ToolExc Str))
  | [] => return []
  | request :: requests => do
    let advice ← (advise desk request.fs request.fuel request.runDir request.analyzer).attempt
    let rest ← session desk requests
    return advice :: rest

theorem Custody.safe_session (D : Custody R K) {desk : Desk} {requests : List AdviceRequest} {w : W}
    (hw : D.free w) : Safe R K (fun _ w => D.free w) (session desk requests) w := by
  induction requests generalizing w with
  | nil => exact fun w₁ hi hr => D.free_stable _ _ hw hi hr
  | cons request requests ih =>
    apply Safe.bind
    apply Safe.attempt
    apply (D.safe_advise hw).mono
    intro advice w₁ _ hw₁
    apply Safe.bind
    apply (ih hw₁).mono
    intro rest w₂ _ hw₂
    cases rest with
    | ok rest => exact fun w₃ hi hr => D.free_stable _ _ hw₂ hi hr
    | error e => exact hw₂

end Accel.Model
