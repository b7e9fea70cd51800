import AccelProf.Analysis.Machine

/-! The wait for a server's port ends in time, and what it reports is so. -/

namespace Accel.Model
open Data Program Prog

variable {W L α β : Type} {R : Service ToolCall ToolAns L W}

section Raises

/-- Everything the program can raise satisfies `P`. -/
def RaisesOnly (R : Service ToolCall ToolAns L W) (P : ToolExc → Prop) (p : Tool α) : Prop :=
  ∀ w tr e w', Exec R p w tr (.error e) w' → P e

variable {P : ToolExc → Prop}

theorem raisesOnly_ret (a : α) : RaisesOnly R P (ret a) := by
  rintro w tr e w' ⟨-, h, -⟩
  cases h

theorem raisesOnly_raise {e : ToolExc} (he : P e) : RaisesOnly R P (raise e : Tool α) := by
  rintro w tr e' w' ⟨-, h, -⟩
  cases h
  exact he

theorem raisesOnly_ofExcept {x : Except ToolExc α} (hx : ∀ e, x = .error e → P e) :
    RaisesOnly R P (ofExcept x) := by
  cases x with
  | ok a => exact raisesOnly_ret a
  | error e => exact raisesOnly_raise (hx e rfl)

theorem RaisesOnly.bind {p : Tool α} {f : α → Tool β} (hp : RaisesOnly R P p)
    (hf : ∀ a, RaisesOnly R P (f a)) : RaisesOnly R P (p.bind f) := by
  intro w tr e w' h
  rcases exec_bind.1 h with ⟨e', he, heq⟩ | ⟨a, tr₁, tr₂, w₁, -, h₂, -⟩
  · cases heq
    exact hp _ _ _ _ he
  · exact hf a _ _ _ _ h₂

theorem RaisesOnly.ensuring {p : Tool α} {fin : Tool Unit} (hp : RaisesOnly R P p)
    (hfin : RaisesOnly R P fin) : RaisesOnly R P (p.ensuring fin) := by
  intro w tr e w' h
  obtain ⟨out, tr₁, w₁, tr₂, rf, h₁, h₂, -, hr⟩ := exec_ensuring.1 h
  cases rf with
  | error e' =>
    cases hr
    exact hfin _ _ _ _ h₂
  | ok u =>
    cases out with
    | ok a => cases hr
    | error e' =>
      cases hr
      exact hp _ _ _ _ h₁

/-- A handler of what `p` raises. -/
theorem RaisesOnly.attempt_bind {p : Tool α} {f : Except ToolExc α → Tool β}
    (hp : RaisesOnly R P p) (hok : ∀ a, RaisesOnly R P (f (.ok a)))
    (herr : ∀ e, P e → RaisesOnly R P (f (.error e))) : RaisesOnly R P (p.attempt.bind f) := by
  intro w tr e w' h
  obtain ⟨out, tr₁, tr₂, w₁, h₁, h₂, -⟩ := exec_attempt_bind.1 h
  cases out with
  | ok a => exact hok a _ _ _ _ h₂
  | error e' => exact herr e' (hp _ _ _ _ h₁) _ _ _ _ h₂

end Raises

/-- A machine with a clock that never goes back, and on which a sleep takes its time. -/
structure Clocked (R : Service ToolCall ToolAns L W) (now : W → Seconds) : Prop where
  advances : ∀ {w c l a w'}, R w c l a w' → now w ≤ now w'
  reads : ∀ {w l t w'}, R w .monotonic l (.ok t) w' → now w ≤ t ∧ t ≤ now w'
  sleeps : ∀ {w d l u w'}, R w (.sleep d) l (.ok u) w' → now w + d ≤ now w'
  raises : ∀ {w c l e w'}, R w c l (.error e) w' → e ≠ .outOfFuel

section Wait
variable {now : W → Seconds} {server : Pid} {port : ℤ} {deadline : PyFloat} {w w' : W}
  {tr : List (Step ToolCall ToolAns L W)}

theorem Clocked.tool (hR : Clocked R now) (c : ToolCall) :
    RaisesOnly R (· ≠ .outOfFuel) (tool c) := by
  intro w tr e w' h
  obtain ⟨l, hs, -⟩ := exec_perform.1 h
  exact hR.raises hs

/-- A round of the wait: a call raises, the deadline has passed, the server is dead, the port is
open, or the wait goes on. -/
inductive Round (R : Service ToolCall ToolAns L W) (server : Pid) (port : ℤ) (deadline : PyFloat)
    (w : W) : Except ToolExc (Option Readiness) → W → Prop
  | failed {c : ToolCall} {l : L} {e : ToolExc} {w₁ w₂ : W} (hs : R w₁ c l (.error e) w₂) :
      Round R server port deadline w (.error e) w₂
  | late {l : L} {t : Seconds} {w₁ : W} (h₁ : R w .monotonic l (.ok t) w₁)
      (hlate : deadline.above t = false) :
      Round R server port deadline w (.ok (some .neverOpened)) w₁
  | died {l₁ l₂ : L} {t : Seconds} {n : ℤ} {w₁ w₂ : W} (h₁ : R w .monotonic l₁ (.ok t) w₁)
      (h₂ : R w₁ (.poll server) l₂ (.ok (some n)) w₂) :
      Round R server port deadline w (.ok (some (.died n))) w₂
  | opened {l₁ l₂ l₃ : L} {t : Seconds} {w₁ w₂ w₃ : W} (h₁ : R w .monotonic l₁ (.ok t) w₁)
      (h₂ : R w₁ (.poll server) l₂ (.ok none) w₂) (h₃ : R w₂ (.connect port) l₃ (.ok true) w₃) :
      Round R server port deadline w (.ok (some .ready)) w₃
  | waited {l₁ l₂ l₃ l₄ : L} {t : Seconds} {w₁ w₂ w₃ w₄ : W} (h₁ : R w .monotonic l₁ (.ok t) w₁)
      (htime : deadline.above t = true) (h₂ : R w₁ (.poll server) l₂ (.ok none) w₂)
      (h₃ : R w₂ (.connect port) l₃ (.ok false) w₃) (h₄ : R w₃ (.sleep (1 / 2)) l₄ (.ok ()) w₄) :
      Round R server port deadline w (.ok none) w₄

/-- A call and what follows it: the call raises or the rest runs on its answer. -/
theorem exec_tool_bind {c : ToolCall} {f : ToolResp c → Tool β} {r : Except ToolExc β}
    (h : Exec R ((tool c).bind f) w tr r w') :
    (∃ e l, R w c l (.error e) w' ∧ r = .error e) ∨
      ∃ b l w₁ tr', R w c l (.ok b) w₁ ∧ Exec R (f b) w₁ tr' r w' := by
  rcases exec_bind.1 h with ⟨e, he, rfl⟩ | ⟨b, tr₁, tr₂, w₁, h₁, h₂, -⟩
  · obtain ⟨l, hs, -⟩ := exec_perform.1 he
    exact .inl ⟨e, l, hs, rfl⟩
  · obtain ⟨l, hs, -⟩ := exec_perform.1 h₁
    exact .inr ⟨b, l, w₁, tr₂, hs, h₂⟩

theorem exec_ofExcept_bind {x : Except ToolExc α} {f : α → Tool β} {r : Except ToolExc β}
    (h : Exec R ((ofExcept x).bind f) w tr r w') :
    (∃ e, x = .error e ∧ r = .error e) ∨ ∃ a, x = .ok a ∧ Exec R (f a) w tr r w' := by
  cases x with
  | ok a => exact .inr ⟨a, rfl, h⟩
  | error e =>
    obtain ⟨-, rfl, -⟩ := h
    exact .inl ⟨e, rfl, rfl⟩

theorem exec_awaitPort {fuel : ℕ} {r : Except ToolExc Readiness}
    (h : Exec R (awaitPort server port deadline (fuel + 1)) w tr r w') :
    Round R server port deadline w (r.map some) w' ∨
      ∃ w₁ tr', Round R server port deadline w (.ok none) w₁ ∧
        Exec R (awaitPort server port deadline fuel) w₁ tr' r w' := by
  rcases exec_tool_bind h with ⟨e, l, hs, rfl⟩ | ⟨t, l₁, w₁, tr₁, h₁, h⟩
  · exact .inl (.failed hs)
  split_ifs at h with habove
  · obtain ⟨-, rfl, rfl⟩ := h
    exact .inl (.late h₁ (by simpa using habove))
  rcases exec_tool_bind h with ⟨e, l, hs, rfl⟩ | ⟨code, l₂, w₂, tr₂, h₂, h⟩
  · exact .inl (.failed hs)
  cases code with
  | some n =>
    obtain ⟨-, rfl, rfl⟩ := h
    exact .inl (.died h₁ h₂)
  | none =>
    rcases exec_tool_bind h with ⟨e, l, hs, rfl⟩ | ⟨isOpen, l₃, w₃, tr₃, h₃, h⟩
    · exact .inl (.failed hs)
    cases isOpen with
    | true =>
      obtain ⟨-, rfl, rfl⟩ := h
      exact .inl (.opened h₁ h₂ h₃)
    | false =>
      rcases exec_tool_bind h with ⟨e, l, hs, rfl⟩ | ⟨u, l₄, w₄, tr₄, h₄, h⟩
      · exact .inl (.failed hs)
      · exact .inr ⟨w₄, tr₄, .waited h₁ (by simpa using habove) h₂ h₃ h₄, h⟩

/-- Every round but the last sleeps half a second of the time that is left. -/
theorem awaitPort_ends (hR : Clocked R now) {limit : ℚ}
    (hlimit : ∀ q, deadline.above q = true → q < limit) {fuel : ℕ}
    (hfuel : 2 * (limit - now w) < fuel) {e : ToolExc}
    (h : Exec R (awaitPort server port deadline (fuel + 1)) w tr (.error e) w') :
    e ≠ .outOfFuel := by
  induction fuel generalizing w tr with
  | zero =>
    rcases exec_awaitPort h with hend | ⟨w₁, tr', hround, -⟩
    · cases hend with
      | failed hs => exact hR.raises hs
    · cases hround with
      | waited h₁ htime h₂ h₃ h₄ =>
        have hlt := hlimit _ htime
        have hle := (hR.reads h₁).1
        rw [Nat.cast_zero] at hfuel
        linarith
  | succ fuel ih =>
    rcases exec_awaitPort h with hend | ⟨w₁, tr', hround, h⟩
    · cases hend with
      | failed hs => exact hR.raises hs
    · cases hround with
      | waited h₁ htime h₂ h₃ h₄ =>
        apply ih _ h
        have hle₁ := hR.advances h₁
        have hle₂ := hR.advances h₂
        have hle₃ := hR.advances h₃
        have hle₄ := hR.sleeps h₄
        push_cast at hfuel
        linarith

end Wait

section Deadline

/-- The seconds the wait may take. -/
def limitSeconds (readyTimeout : Json) (timeout : ℤ) : ℚ :=
  match (minTimeout readyTimeout timeout).bind Json.toDouble with
  | .ok (.finite x) => x
  | _ => 0

/-- Rounds enough for every wait of an analyzer. -/
def roundsOf (desk : Desk) (name : Str) : ℕ :=
  match resolveAnalyzer name desk.extra with
  | .ok (.configured (.server _ _ _ _ _ readyTimeout)) =>
    ⌈2 * limitSeconds readyTimeout desk.timeoutS⌉₊ + 2
  | _ => 0

theorem toFloat_int_ne_posInf (n : ℤ) : PyVal.toFloat (.int n) ≠ some .posInf := by
  unfold PyVal.toFloat
  intro h
  dsimp only at h
  split_ifs at h
  cases h

theorem minTimeout_posInf {readyTimeout : Json} {timeout : ℤ} :
    minTimeout readyTimeout timeout ≠ .ok (.float .posInf) := by
  unfold minTimeout
  intro h
  cases hexact : readyTimeout.exact with
  | none =>
    rw [hexact] at h
    cases h
  | some y =>
    rw [hexact] at h
    have h := Except.ok.inj h
    split_ifs at h with habove
    subst h
    cases hexact
    exact habove rfl

/-- No limit is infinite, since the timeout of the whole call is not. -/
theorem limit_ne_posInf {readyTimeout limit : Json} {timeout : ℤ}
    (h : minTimeout readyTimeout timeout = .ok limit) : limit.toDouble ≠ .ok .posInf := by
  intro hinf
  cases limit with
  | bool b => cases hinf
  | int n =>
    have hinf : (PyVal.toFloat (.int n)).elim (.error .overflowError) .ok =
      (.ok .posInf : Except ToolExc PyFloat) := hinf
    cases hx : PyVal.toFloat (.int n) with
    | none =>
      rw [hx] at hinf
      cases hinf
    | some x =>
      rw [hx] at hinf
      obtain rfl : x = .posInf := Except.ok.inj hinf
      exact toFloat_int_ne_posInf n hx
  | float x =>
    obtain rfl : x = .posInf := Except.ok.inj hinf
    exact minTimeout_posInf h
  | _ => cases hinf

theorem deadline_bounded {readyTimeout limit : Json} {timeout : ℤ} {t : Seconds}
    {deadline : PyFloat} (hlimit : minTimeout readyTimeout timeout = .ok limit)
    (hdeadline : deadlineAt t limit = .ok deadline) {q : ℚ} (hq : deadline.above q = true) :
    q < t + limitSeconds readyTimeout timeout := by
  unfold deadlineAt at hdeadline
  unfold limitSeconds
  rw [hlimit]
  show q < t + match limit.toDouble with
    | .ok (.finite x) => x
    | _ => 0
  cases hx : limit.toDouble with
  | error e =>
    rw [hx] at hdeadline
    cases hdeadline
  | ok x =>
    rw [hx] at hdeadline
    obtain rfl := Except.ok.inj hdeadline
    cases x with
    | finite x => simpa [PyFloat.above, PyFloat.after] using hq
    | posInf => exact absurd hx (limit_ne_posInf hlimit)
    | negInf => cases hq
    | nan => cases hq

end Deadline

section Ends
variable {now : W → Seconds} {fs : FileSystem} {runDir : Str} {fuel : ℕ} {w w' : W}
  {tr : List (Step ToolCall ToolAns L W)}

theorem startsWithAny_raises {line : Str} {prefixes : List Json} {e : ToolExc}
    (h : startsWithAny line prefixes = .error e) : e = .typeError := by
  induction prefixes with
  | nil => cases h
  | cons p prefixes ih =>
    cases p with
    | str p =>
      unfold startsWithAny at h
      split_ifs at h
      exact ih h
    | _ =>
      cases h
      rfl

theorem keepLines_raises {prefixes : List Json} {lines : List Str} {e : ToolExc}
    (h : keepLines prefixes lines = .error e) : e = .typeError := by
  unfold keepLines at h
  generalize ([] : List Str) = keep at h
  induction lines generalizing keep with
  | nil => cases h
  | cons line lines ih =>
    rw [List.foldlM_cons, keepLine] at h
    cases hstart : startsWithAny (line.dropWhile isPySpace) prefixes with
    | error e' =>
      rw [hstart] at h
      cases h
      exact startsWithAny_raises hstart
    | ok dropped =>
      rw [hstart] at h
      exact ih _ h

theorem finalize_raises {name : Str} {returncode : ℤ} {stdout stderr : Str} {drop : List Json}
    {e : ToolExc} (h : finalize name returncode stdout stderr drop = .error e) :
    e = .typeError := by
  unfold finalize withoutNoise at h
  split_ifs at h with hcode hdrop
  · cases h
  · cases hkeep : keepLines drop (splitlines stdout) with
    | error e' =>
      rw [hkeep] at h
      cases h
      exact keepLines_raises hkeep
    | ok keep =>
      rw [hkeep] at h
      cases h

theorem raisesOnly_finalize {name : Str} {returncode : ℤ} {stdout stderr : Str} {drop : List Json} :
    RaisesOnly R (· ≠ .outOfFuel) (ofExcept (finalize name returncode stdout stderr drop)) := by
  apply raisesOnly_ofExcept
  intro e he
  rw [finalize_raises he]
  nofun

theorem raisesOnly_runOnce (hR : Clocked R now) (name what : Str) (drop : List Json)
    (argv : List Str) (tmpDir : Str) (timeout : ℤ) :
    RaisesOnly R (· ≠ .outOfFuel) (runOnce name what drop argv tmpDir timeout) := by
  apply (hR.tool _).bind
  intro out
  cases out with
  | exited returncode stdout stderr => exact raisesOnly_finalize
  | timedOut stdout => exact raisesOnly_ret _

theorem raisesOnly_ofCode {x : Except PyExc α} : RaisesOnly R (· ≠ .outOfFuel) (ofCode x) := by
  apply raisesOnly_ofExcept
  intro e he
  cases x with
  | ok a => cases he
  | error e =>
    cases he
    nofun

theorem minTimeout_raises {readyTimeout : Json} {timeout : ℤ} {e : ToolExc}
    (h : minTimeout readyTimeout timeout = .error e) : e = .typeError := by
  unfold minTimeout at h
  cases hexact : readyTimeout.exact with
  | none =>
    rw [hexact] at h
    cases h
    rfl
  | some x =>
    rw [hexact] at h
    cases h

theorem deadlineAt_raises {t : Seconds} {limit : Json} {e : ToolExc}
    (h : deadlineAt t limit = .error e) : e ≠ .outOfFuel := by
  cases limit with
  | int n =>
    have h : ((PyVal.toFloat (.int n)).elim (.error .overflowError) .ok :
      Except ToolExc PyFloat).map (PyFloat.after t) = .error e := h
    cases hx : PyVal.toFloat (.int n) with
    | none =>
      rw [hx] at h
      cases h
      nofun
    | some x =>
      rw [hx] at h
      cases h
  | bool b => cases h
  | float x => cases h
  | _ =>
    cases h
    nofun

theorem resolveAnalyzer_raises {name : Str} {extra : List (Str × Analyzer)} {e : ToolExc}
    (h : resolveAnalyzer name extra = .error e) : e ≠ .outOfFuel := by
  unfold resolveAnalyzer at h
  cases hfn : (registry extra).lookup name with
  | some fn =>
    rw [hfn] at h
    cases h
  | none =>
    rw [hfn] at h
    cases h
    nofun

theorem raisesOnly_consult (hR : Clocked R now) (fmt : PyFloat → Str) (spec : ServerSpec)
    (server : Pid) (query : List Str) (tmpDir : Str) {timeout : ℤ}
    (hfuel : ⌈2 * limitSeconds spec.readyTimeoutS timeout⌉₊ + 2 ≤ fuel) :
    RaisesOnly R (· ≠ .outOfFuel) (consult fmt spec fuel server query tmpDir timeout) := by
  intro w tr e w' h
  rcases exec_tool_bind h with ⟨e', l, hs, he⟩ | ⟨t, l, w₁, tr₁, hs, h⟩
  · cases he
    exact hR.raises hs
  rcases exec_ofExcept_bind h with ⟨e', hlimit, he⟩ | ⟨limit, hlimit, h⟩
  · cases he
    rw [minTimeout_raises hlimit]
    nofun
  rcases exec_ofExcept_bind h with ⟨e', hdeadline, he⟩ | ⟨deadline, hdeadline, h⟩
  · cases he
    exact deadlineAt_raises hdeadline
  -- the wait starts after the clock was read, so the limit still covers it
  obtain ⟨m, rfl⟩ : ∃ m, fuel = m + 1 := ⟨fuel - 1, by omega⟩
  have hm : 2 * (t + limitSeconds spec.readyTimeoutS timeout - now w₁) < m := by
    have hle := (hR.reads hs).2
    have hceil := Nat.le_ceil (2 * limitSeconds spec.readyTimeoutS timeout)
    have hcast : (⌈2 * limitSeconds spec.readyTimeoutS timeout⌉₊ : ℚ) + 2 ≤ m + 1 := by
      exact_mod_cast hfuel
    linarith
  rcases exec_bind.1 h with ⟨e', he, heq⟩ | ⟨readiness, tr₂, tr₃, w₂, -, h, -⟩
  · cases heq
    exact awaitPort_ends hR (fun q hq => deadline_bounded hlimit hdeadline hq) hm he
  cases readiness with
  | ready => exact raisesOnly_runOnce hR _ _ _ _ _ _ _ _ _ _ h
  | died returncode =>
    exact (hR.tool _).bind (fun log => raisesOnly_finalize) _ _ _ _ h
  | neverOpened =>
    obtain ⟨-, he, -⟩ := h
    cases he

theorem raisesOnly_startServer (hR : Clocked R now) (spec : ServerSpec) (tmpDir : Str) :
    RaisesOnly R (· ≠ .outOfFuel) (startServer fs spec runDir tmpDir) := by
  apply raisesOnly_ofCode.bind
  intro start
  apply raisesOnly_ofCode.bind
  intro query
  exact (hR.tool _).bind fun server => raisesOnly_ret _

theorem raisesOnly_tearDown (hR : Clocked R now) (server : Option Pid) (tmpDir : Str) :
    RaisesOnly R (· ≠ .outOfFuel) (tearDown server tmpDir) := by
  cases server with
  | none => exact hR.tool _
  | some server =>
    refine RaisesOnly.bind ((hR.tool _).bind fun code => ?_) fun _ => hR.tool _
    cases code with
    | some n => exact raisesOnly_ret _
    | none =>
      refine (hR.tool _).bind fun _ => (hR.tool _).bind fun code => ?_
      cases code with
      | some n => exact raisesOnly_ret _
      | none => exact hR.tool _

theorem raisesOnly_runServer (hR : Clocked R now) (fmt : PyFloat → Str) (spec : ServerSpec)
    {timeout : ℤ} (hfuel : ⌈2 * limitSeconds spec.readyTimeoutS timeout⌉₊ + 2 ≤ fuel) :
    RaisesOnly R (· ≠ .outOfFuel) (runServer fs fmt spec fuel runDir timeout) := by
  unfold runServer
  split_ifs
  · exact raisesOnly_raise nofun
  apply (hR.tool _).bind
  intro tmpDir
  apply (raisesOnly_startServer hR spec tmpDir).attempt_bind
  · intro started
    exact (raisesOnly_consult hR fmt spec _ _ _ hfuel).ensuring (raisesOnly_tearDown hR _ _)
  · exact fun e he => (raisesOnly_tearDown hR none tmpDir).bind fun _ => raisesOnly_raise he

theorem raisesOnly_runCommand (hR : Clocked R now) (name : Str) (argvTemplate : List Str)
    (drop : List Json) (timeout : ℤ) :
    RaisesOnly R (· ≠ .outOfFuel) (runCommand fs name argvTemplate drop runDir timeout) := by
  unfold runCommand
  split_ifs
  · exact raisesOnly_raise nofun
  apply (hR.tool _).bind
  intro tmpDir
  refine RaisesOnly.ensuring (raisesOnly_ofCode.bind fun argv => ?_) (hR.tool _)
  exact raisesOnly_runOnce hR _ _ _ _ _ _

/-- No request for advice waits for ever: the rounds of its wait for a port are bounded by what is
configured, whatever the machine does as long as its clock goes on. -/
theorem analysis_ends (hR : Clocked R now) {desk : Desk} {name : Str}
    (hfuel : roundsOf desk name ≤ fuel) {r : Except ToolExc Str}
    (h : Exec R (advise desk fs fuel runDir name) w tr r w') : r ≠ .error .outOfFuel := by
  have hends : RaisesOnly R (· ≠ .outOfFuel) (advise desk fs fuel runDir name) := by
    unfold advise
    unfold roundsOf at hfuel
    cases hfn : resolveAnalyzer name desk.extra with
    | error e => exact raisesOnly_raise (resolveAnalyzer_raises hfn)
    | ok fn =>
      rw [hfn] at hfuel
      cases fn with
      | inventory => exact raisesOnly_ofCode
      | configured a =>
        cases a with
        | command name argv drop => exact raisesOnly_runCommand hR _ _ _ _
        | server name start port query drop readyTimeout => exact raisesOnly_runServer hR _ _ hfuel
  rintro rfl
  exact hends _ _ _ _ h rfl

end Ends

section Truth

/-- The pod with a clock. Before each call the processes go on by themselves. -/
def TimedServes : Service ToolCall ToolAns Unit (Pod × Seconds) := fun s c l a s' =>
  (∃ w, s.1.Drift w ∧ PodServes w c l a s'.1) ∧ s.2 ≤ s'.2 ∧ a ≠ .error .outOfFuel ∧
    match c, a with
    | .monotonic, .ok t => s.2 ≤ t ∧ t ≤ s'.2
    | .sleep seconds, .ok _ => s.2 + seconds ≤ s'.2
    | _, _ => True

theorem clocked_timedServes : Clocked TimedServes Prod.snd where
  advances h := h.2.1
  reads h := h.2.2.2
  sleeps h := h.2.2.2
  raises h := fun he => h.2.2.1 (congrArg Except.error he)

/-- What the end of a wait says about the machine. -/
def Readiness.Holds (server : Pid) (port : ℤ) (deadline : PyFloat) (s : Pod × Seconds) :
    Readiness → Prop
  | .ready => (s.1.listener port).isSome
  | .died n => s.1.status server = some (.exited n)
  | .neverOpened => deadline.above s.2 = false

theorem above_antitone {deadline : PyFloat} {t t' : ℚ} (hle : t ≤ t')
    (h : deadline.above t = false) : deadline.above t' = false := by
  cases deadline with
  | finite x =>
    simp only [PyFloat.above, decide_eq_false_iff_not, not_lt] at h ⊢
    exact h.trans hle
  | posInf => cases h
  | negInf => rfl
  | nan => rfl

/-- A wait that returns reports what is so at that moment. -/
theorem wait_tells_truth {server : Pid} {port : ℤ} {deadline : PyFloat} {fuel : ℕ}
    {s s' : Pod × Seconds} {tr : List (Step ToolCall ToolAns Unit (Pod × Seconds))}
    {out : Readiness}
    (h : Exec TimedServes (awaitPort server port deadline fuel) s tr (.ok out) s') :
    out.Holds server port deadline s' := by
  induction fuel generalizing s tr with
  | zero => cases h.2.1
  | succ fuel ih =>
    rcases exec_awaitPort h with hend | ⟨s₁, tr', -, h⟩
    · cases hend with
      | late h₁ hlate => exact above_antitone h₁.2.2.2.2 hlate
      | died h₁ h₂ =>
        obtain ⟨⟨w, -, hw, code, hcode, hexit⟩, -⟩ := h₂
        show Pod.status s'.1 server = _
        rw [hw]
        exact (hexit _).1 (Except.ok.inj hcode).symm
      | opened h₁ h₂ h₃ =>
        obtain ⟨⟨w, -, hw, hopen⟩, -⟩ := h₃
        show (Pod.listener s'.1 port).isSome
        rw [hw]
        rcases hopen with ⟨e, he⟩ | hopen
        · cases he
        · exact (Except.ok.inj hopen).symm
    · exact ih h

section Grounds
variable {fmt : PyFloat → Str} {spec : ServerSpec} {fs : FileSystem} {runDir advice : Str}
  {timeout : ℤ} {fuel : ℕ} {s s' : Pod × Seconds}
  {tr : List (Step ToolCall ToolAns Unit (Pod × Seconds))}

def exitedText (spec : ServerSpec) (log : Str) : Str :=
  "server exited before opening port ".toList ++ decimal spec.readyPort ++ ":\n".toList ++ log

def neverOpenedText (fmt : PyFloat → Str) (spec : ServerSpec) (limit : Json) : Str :=
  "[analyzer '".toList ++ spec.name ++ "' server never opened port ".toList ++
    decimal spec.readyPort ++ " within ".toList ++ limit.numberText fmt ++ "s]".toList

/-- What advice rests on, from the state in which the server had just been started. -/
inductive Grounds (fmt : PyFloat → Str) (spec : ServerSpec) (query : List Str) (tmpDir : Str)
    (timeout : ℤ) (server : Pid) (s s' : Pod × Seconds) : Str → Prop
  | exited {n : ℤ} {log advice : Str} (hexit : s'.1.status server = some (.exited n))
      (hadvice : finalize spec.name (if n = 0 then 1 else n) [] (exitedText spec log) [] =
        .ok advice) : Grounds fmt spec query tmpDir timeout server s s' advice
  | late {limit : Json} (hlimit : minTimeout spec.readyTimeoutS timeout = .ok limit)
      (htime : s.2 + limitSeconds spec.readyTimeoutS timeout ≤ s'.2) :
      Grounds fmt spec query tmpDir timeout server s s' (bounded (neverOpenedText fmt spec limit))
  | asked {s₁ : Pod × Seconds} {tr : List (Step ToolCall ToolAns Unit (Pod × Seconds))}
      {advice : Str} (hopen : (s₁.1.listener spec.readyPort).isSome)
      (hquery : Exec TimedServes (runOnce spec.name "' query ".toList spec.dropLinePrefixes query
        tmpDir timeout) s₁ tr (.ok advice) s') :
      Grounds fmt spec query tmpDir timeout server s s' advice

theorem timed_le {p : Tool α} {r : Except ToolExc α} (h : Exec TimedServes p s tr r s') :
    s.2 ≤ s'.2 :=
  (Exec.of_uses (P := fun s₁ => s.2 ≤ s₁.2) (uses_of_forall (fun _ => trivial : ∀ _, True) p)
    (fun _ _ _ _ _ _ hle hs => hle.trans hs.2.1) h le_rfl).1

/-- At a deadline that has passed, at least the limit has gone by. -/
theorem deadline_passed {readyTimeout limit : Json} {t q : ℚ} {deadline : PyFloat}
    (hlimit : minTimeout readyTimeout timeout = .ok limit)
    (hdeadline : deadlineAt t limit = .ok deadline) (htq : t ≤ q)
    (hq : deadline.above q = false) : t + limitSeconds readyTimeout timeout ≤ q := by
  have hseconds : limitSeconds readyTimeout timeout = match limit.toDouble with
      | .ok (.finite x) => x
      | _ => 0 := by
    unfold limitSeconds
    rw [hlimit]
    rfl
  rw [hseconds]
  unfold deadlineAt at hdeadline
  cases hx : limit.toDouble with
  | error e =>
    rw [hx] at hdeadline
    cases hdeadline
  | ok x =>
    rw [hx] at hdeadline
    obtain rfl := Except.ok.inj hdeadline
    cases x with
    | finite x => simpa [PyFloat.above, PyFloat.after] using hq
    | posInf => cases hq
    | negInf => simpa using htq
    | nan => simpa using htq

theorem consult_grounds {query : List Str} {tmpDir : Str} {server : Pid}
    (h : Exec TimedServes (consult fmt spec fuel server query tmpDir timeout) s tr
      (.ok advice) s') :
    Grounds fmt spec query tmpDir timeout server s s' advice := by
  rcases exec_tool_bind h with ⟨e, l, -, he⟩ | ⟨t, l, s₁, tr₁, hclock, h⟩
  · cases he
  rcases exec_ofExcept_bind h with ⟨e, -, he⟩ | ⟨limit, hlimit, h⟩
  · cases he
  rcases exec_ofExcept_bind h with ⟨e, -, he⟩ | ⟨deadline, hdeadline, h⟩
  · cases he
  have hstart : s.2 ≤ t := hclock.2.2.2.1
  obtain ⟨readiness, tr₂, tr₃, s₂, hwait, h, -⟩ := exec_bind_ok.1 h
  have hholds := wait_tells_truth hwait
  cases readiness with
  | ready => exact .asked hholds h
  | neverOpened =>
    obtain ⟨-, hadvice, rfl⟩ := h
    obtain rfl := Except.ok.inj hadvice
    -- the wait began once the clock had been read
    have hlate : t ≤ s'.2 := hclock.2.2.2.2.trans (timed_le hwait)
    have htime := deadline_passed hlimit hdeadline hlate hholds
    exact .late hlimit (by linarith)
  | died n =>
    rcases exec_tool_bind h with ⟨e, l, -, he⟩ | ⟨log, l, s₃, tr₄, ⟨⟨w, hdrift, hread⟩, -⟩, h⟩
    · cases he
    -- an exit code stays, also while the log is read
    have hexit : s₃.1.status server = some (.exited n) := by
      obtain ⟨st, hst, hlater⟩ := hdrift.later server _ hholds
      rw [show s₃.1 = w from hread, hst, show st = .exited n from hlater]
    cases hadvice : finalize spec.name (if n = 0 then 1 else n) [] (exitedText spec log) [] with
    | error e =>
      unfold exitedText at hadvice
      rw [hadvice] at h
      cases h.2.1
    | ok text =>
      have hshown := hadvice
      unfold exitedText at hshown
      rw [hshown] at h
      obtain ⟨-, htext, rfl⟩ := h
      obtain rfl := Except.ok.inj htext
      exact .exited hexit hadvice

theorem mapError_ok {x : Except PyExc α} {a : α}
    (h : x.mapError ToolExc.code = .ok a) : x = .ok a := by
  cases x with
  | error e => cases h
  | ok b => exact congrArg Except.ok (Except.ok.inj h)

/-- A server that was started, with the argument lists that were expanded for it. -/
theorem startServer_ok {tmpDir : Str} {server : Pid} {query : List Str}
    (h : Exec TimedServes (startServer fs spec runDir tmpDir) s tr (.ok (server, query)) s') :
    ∃ start, expandArgv fs spec.startTemplate runDir tmpDir = .ok start ∧
      expandArgv fs spec.queryTemplate runDir tmpDir = .ok query ∧
      TimedServes s (.popen start tmpDir) () (.ok server) s' := by
  rcases exec_ofExcept_bind h with ⟨e, -, he⟩ | ⟨start, hstart, h⟩
  · cases he
  rcases exec_ofExcept_bind h with ⟨e, -, he⟩ | ⟨query', hquery, h⟩
  · cases he
  rcases exec_tool_bind h with ⟨e, l, -, he⟩ | ⟨server', l, s₁, tr₁, hopen, h⟩
  · cases he
  obtain ⟨-, hpair, rfl⟩ := h
  obtain ⟨rfl, rfl⟩ := Prod.mk.inj (Except.ok.inj hpair)
  exact ⟨start, mapError_ok hstart, mapError_ok hquery, hopen⟩

end Grounds

end Truth

section Sample

/-- The ports of exited processes are free again. -/
def Pod.settle (w : Pod) : Pod :=
  { w with listener := fun port => (w.listener port).filter fun p => match w.status p with
      | some (.exited _) => false
      | _ => true }

theorem Pod.drift_settle (w : Pod) : w.Drift w.settle := by
  refine ⟨rfl, fun p st hst => ⟨st, hst, ?_⟩, fun port p hp => ?_⟩
  · cases st with
    | running => trivial
    | killed => nofun
    | exited code => rfl
  · obtain ⟨hp, hlives⟩ := Option.filter_eq_some_iff.1 hp
    refine ⟨.inl hp, fun code hcode => ?_⟩
    have hcode : w.status p = some (.exited code) := hcode
    rw [hcode] at hlives
    cases hlives

/-- The sample pod with a clock that only sleeping moves. -/
def serveTimed (s : Pod × Seconds) : (c : ToolCall) → Unit × ToolAns c × (Pod × Seconds)
  | .monotonic => ((), .ok s.2, s.1.settle, s.2)
  | .sleep seconds => ((), .ok (), s.1.settle, s.2 + max seconds 0)
  | c => ((), (s.1.settle.serve c).1, (s.1.settle.serve c).2, s.2)

theorem timedServes_serve (s : Pod × Seconds) (c : ToolCall) :
    TimedServes s c (serveTimed s c).1 (serveTimed s c).2.1 (serveTimed s c).2.2 := by
  have hserve := podServes_serve s.1.settle c
  cases c with
  | monotonic => exact ⟨⟨_, s.1.drift_settle, rfl, _, rfl⟩, le_rfl, nofun, le_rfl, le_rfl⟩
  | sleep seconds =>
    refine ⟨⟨_, s.1.drift_settle, rfl, rfl⟩, ?_, nofun, ?_⟩
    · exact le_add_of_nonneg_right (le_max_right seconds 0)
    · exact add_le_add_right (le_max_left seconds 0) s.2
  | _ =>
    refine ⟨⟨_, s.1.drift_settle, hserve⟩, le_rfl, fun h => ?_, trivial⟩
    cases h

/-- A server that never opens its port. -/
theorem analysis_ends_sample : (run serveTimed
    (advise sampleDesk sampleRoot 122 ['/'] "db".toList) (⟨[], fun _ => none⟩, 0)).2.1 ≠
      .error .outOfFuel :=
  analysis_ends clocked_timedServes (by decide +kernel) (exec_run timedServes_serve)

def sampleSpec : ServerSpec :=
  ⟨"db".toList, ["serve".toList], 3002, ["ask".toList], [], .float (.finite 60)⟩

abbrev sampleServerRun : Tool Str := runServer sampleRoot (fun _ => []) sampleSpec 122 ['/'] 600

def blankPod : Pod × Seconds := (⟨[], fun _ => none⟩, 0)

def sampleAdvice : Str := neverOpenedText (fun _ => []) sampleSpec (.float (.finite 60))

end Sample

end Accel.Model
