import AccelProf.Analysis.Custody

/-! Analyses that run at the same time clean up after themselves and leave each other alone. -/

namespace Accel.Model
open Data Program Prog

variable {ι : Type}

abbrev ToolStep := Step ToolCall ToolAns Unit Pod

/-- The machine and what was asked of it, by thread. -/
abbrev Site (ι : Type) := Pod × Journal ι ToolCall ToolAns Unit Pod

section Holdings
variable {tr tr₁ tr₂ : List ToolStep} {st : ToolStep}

def dirsAfter (dirs : List Str) : (c : ToolCall) → ToolAns c → List Str
  | .mkdtemp, .ok path => path :: dirs
  | .rmtree path, _ => dirs.filter (· ≠ path)
  | _, _ => dirs

/-- The scratch directories that were made and not removed since. -/
def scratch (tr : List ToolStep) : List Str :=
  tr.foldl (fun dirs st => dirsAfter dirs st.call st.answer) []

def newServer : (c : ToolCall) → ToolAns c → List Pid
  | .popen .., .ok server => [server]
  | _, _ => []

/-- The servers that were started. -/
def servers (tr : List ToolStep) : List Pid := tr.flatMap fun st => newServer st.call st.answer

/-- After the calls `tr` a thread may remove its own scratch directories and signal its own servers,
and no others. -/
def Owns (tr : List ToolStep) : ToolCall → Prop
  | .rmtree path => path ∈ scratch tr
  | .terminate server => server ∈ servers tr
  | .kill server => server ∈ servers tr
  | _ => True

def OwnsAll (tr : List ToolStep) : Prop :=
  ∀ tr₁ st tr₂, tr = tr₁ ++ st :: tr₂ → Owns tr₁ st.call

theorem scratch_concat : scratch (tr ++ [st]) = dirsAfter (scratch tr) st.call st.answer := by
  simp [scratch]

theorem servers_concat : servers (tr ++ [st]) = servers tr ++ newServer st.call st.answer := by
  simp [servers]

theorem ownsAll_nil : OwnsAll [] := by
  intro tr₁ st tr₂ h
  simp at h

theorem OwnsAll.concat (h : OwnsAll tr) (hst : Owns tr st.call) : OwnsAll (tr ++ [st]) := by
  intro tr₁ st' tr₂ heq
  rcases append_singleton_eq_append_cons.1 heq with ⟨rfl, rfl, -⟩ | ⟨tr₃, -, rfl⟩
  · exact hst
  · exact h _ _ _ rfl

theorem dirsAfter_quiet {dirs : List Str} {c : ToolCall} {a : ToolAns c} (hc : QuietTool c) :
    dirsAfter dirs c a = dirs := by
  cases c with
  | mkdtemp => exact hc.elim
  | rmtree path => exact hc.elim
  | _ => rfl

theorem newServer_quiet {c : ToolCall} {a : ToolAns c} (hc : QuietTool c) : newServer c a = [] := by
  cases c with
  | popen argv cwd => exact hc.elim
  | _ => rfl

theorem owns_quiet {c : ToolCall} (hc : QuietTool c) : Owns tr c := by
  cases c with
  | rmtree path => exact hc.elim
  | terminate server => exact hc.elim
  | kill server => exact hc.elim
  | _ => trivial

end Holdings

section Pod
variable {w w' : Pod} {c : ToolCall} {l : Unit} {a : ToolAns c}

theorem Pod.status_isSome {p : Pid} : (w.status p).isSome ↔ p < w.started.length := by
  simp [Pod.status]

theorem Pod.Advances.length_le (h : w.Advances w') {p : Pid} (hp : p < w.started.length) :
    p < w'.started.length := by
  obtain ⟨st, hst⟩ := Option.isSome_iff_exists.1 (Pod.status_isSome.2 hp)
  obtain ⟨st', hst', -⟩ := h p st hst
  exact Pod.status_isSome.1 (by rw [hst']; rfl)

/-- Only a started server is new, and it gets the next pid. -/
theorem podServes_new (h : PodServes w c l a w') : ∀ p ∈ newServer c a,
    p = w.started.length ∧ p < w'.started.length := by
  intro p hp
  cases c with
  | popen argv cwd =>
    rcases h with ⟨e, rfl, -⟩ | ⟨rfl, rfl⟩
    · cases hp
    · obtain rfl := List.mem_singleton.1 hp
      exact ⟨rfl, by simp⟩
  | _ => cases hp

theorem podServes_advances (h : PodServes w c l a w') : w.Advances w' := by
  have hsame : w' = w → w.Advances w' := by
    rintro rfl
    exact .refl _
  cases c with
  | popen argv cwd =>
    rcases h with ⟨e, -, hw⟩ | ⟨-, rfl⟩
    · exact hsame hw
    · exact w.advances_append _
  | kill server =>
    obtain ⟨-, rfl⟩ := h
    exact w.kill_advances server
  | mkdtemp => exact hsame h
  | rmtree path => exact hsame h.2
  | terminate server => exact hsame h.2
  | run argv cwd timeout => exact hsame (podServes_quiet (c := .run argv cwd timeout) trivial h)
  | poll server => exact hsame h.1
  | readOutput server => exact hsame h
  | connect port => exact hsame h.1
  | monotonic => exact hsame h.1
  | sleep seconds => exact hsame h.2
  | wait server seconds => exact hsame h.1

end Pod

section Thread
variable [DecidableEq ι] {i j : ι} {s s' : Site ι} {dirs dirs' : List Str}
  {server server' : Option Pid}

/-- The calls of one thread. -/
def callsBy (i : ι) (J : Journal ι ToolCall ToolAns Unit Pod) : List ToolStep :=
  (J.filter (·.1 = i)).map Prod.snd

/-- What holds of the machine at any time. -/
structure Orderly (s : Site ι) : Prop where
  known : ∀ i, ∀ p ∈ servers (callsBy i s.2), p < s.1.started.length
  disjoint : ∀ i j p, p ∈ servers (callsBy i s.2) → p ∈ servers (callsBy j s.2) → i = j
  own : ∀ i, OwnsAll (callsBy i s.2)
  oneDir : ∀ i, (scratch (callsBy i s.2)).length ≤ 1
  oneServer : ∀ i, ∃ q, ∀ p ∈ servers (callsBy i s.2), some p = q ∨ s.1.Stopped p

/-- Thread `i` has exactly the scratch directories `dirs`, and of its servers only `server` may
still run. -/
structure Occupies (i : ι) (dirs : List Str) (server : Option Pid) (s : Site ι) : Prop where
  dirs : scratch (callsBy i s.2) = dirs
  stopped : ∀ p ∈ servers (callsBy i s.2), some p = server ∨ s.1.Stopped p
  started : ∀ p, server = some p → p ∈ servers (callsBy i s.2)

/-- Others neither revive a process nor act for thread `i`. -/
def tidyContract (i : ι) : Contract ToolCall ToolAns (Site ι) where
  inv := Orderly
  rely s s' := s.1.Advances s'.1 ∧ callsBy i s'.2 = callsBy i s.2
  guar s _ _ s' := Orderly s' ∧ s.1.Advances s'.1 ∧ ∀ j, j ≠ i → callsBy j s'.2 = callsBy j s.2
  rely_refl _ := ⟨.refl _, rfl⟩
  rely_trans h h' := ⟨h.1.trans h'.1, h'.2.trans h.2⟩

theorem Occupies.stable (i : ι) (dirs : List Str) (server : Option Pid) :
    Stable (tidyContract i) (Occupies i dirs server) := by
  rintro s s' h - ⟨ha, hcalls⟩
  refine ⟨by rw [hcalls]; exact h.dirs, fun p hp => ?_, fun p hp => by
    rw [hcalls]; exact h.started p hp⟩
  rw [hcalls] at hp
  exact (h.stopped p hp).imp id fun hs => hs.advances ha

theorem callsBy_own (J : Journal ι ToolCall ToolAns Unit Pod) (st : ToolStep) :
    callsBy i (J ++ [(i, st)]) = callsBy i J ++ [st] := by
  simp [callsBy]

theorem callsBy_other (hj : j ≠ i) (J : Journal ι ToolCall ToolAns Unit Pod) (st : ToolStep) :
    callsBy j (J ++ [(i, st)]) = callsBy j J := by
  simp [callsBy, Ne.symm hj]

/-- A call of thread `i` on its own things, by what it does to them. -/
theorem Occupies.step {c : ToolCall} {l : Unit} {a : ToolAns c} (hi : Orderly s)
    (hk : Occupies i dirs server s) (hs : Journaled PodServes i s c l a s')
    (hown : Owns (callsBy i s.2) c) (hdirs : dirsAfter dirs c a = dirs') (hlen : dirs'.length ≤ 1)
    (hstop : ∀ p, some p = server ∨ p ∈ newServer c a → some p = server' ∨ s'.1.Stopped p)
    (hstart : ∀ p, server' = some p → server = some p ∨ p ∈ newServer c a) :
    (tidyContract i).guar s c a s' ∧ Occupies i dirs' server' s' := by
  obtain ⟨hpod, hJ⟩ := hs
  have ha := podServes_advances hpod
  have hmine : callsBy i s'.2 = callsBy i s.2 ++ [⟨c, l, a, s'.1⟩] := by rw [hJ, callsBy_own]
  have hothers : ∀ j, j ≠ i → callsBy j s'.2 = callsBy j s.2 := fun j hj => by
    rw [hJ, callsBy_other hj]
  have hservers : servers (callsBy i s'.2) = servers (callsBy i s.2) ++ newServer c a := by
    rw [hmine, servers_concat]
  have hkeeps : Occupies i dirs' server' s' := by
    refine ⟨?_, fun p hp => ?_, fun p hp => ?_⟩
    · rw [hmine, scratch_concat, hk.dirs]
      exact hdirs
    · rw [hservers] at hp
      rcases List.mem_append.1 hp with hp | hp
      · rcases hk.stopped p hp with hp | hp
        · exact hstop p (.inl hp)
        · exact .inr (hp.advances ha)
      · exact hstop p (.inr hp)
    · rw [hservers]
      rcases hstart p hp with hp | hp
      · exact List.mem_append_left _ (hk.started p hp)
      · exact List.mem_append_right _ hp
  -- a server of thread `j` after the call is one of before or the new one
  have hold : ∀ j p, p ∈ servers (callsBy j s'.2) →
      p ∈ servers (callsBy j s.2) ∨ j = i ∧ p ∈ newServer c a := by
    intro j p hp
    by_cases hj : j = i
    · subst hj
      rw [hservers] at hp
      exact (List.mem_append.1 hp).imp id fun hp => ⟨rfl, hp⟩
    · rw [hothers j hj] at hp
      exact .inl hp
  refine ⟨⟨⟨fun j p hp => ?_, fun j k p hp hp' => ?_, fun j => ?_, fun j => ?_, fun j => ?_⟩, ha,
    hothers⟩, hkeeps⟩
  · rcases hold j p hp with hp | ⟨-, hp⟩
    · exact ha.length_le (hi.known j p hp)
    · exact (podServes_new hpod p hp).2
  · rcases hold j p hp with hj | ⟨rfl, hj⟩ <;> rcases hold k p hp' with hk₁ | ⟨rfl, hk₁⟩
    · exact hi.disjoint j k p hj hk₁
    · have hlt := hi.known j p hj
      rw [(podServes_new hpod p hk₁).1] at hlt
      exact absurd hlt (lt_irrefl _)
    · have hlt := hi.known k p hk₁
      rw [(podServes_new hpod p hj).1] at hlt
      exact absurd hlt (lt_irrefl _)
    · rfl
  · by_cases hj : j = i
    · subst hj
      rw [hmine]
      exact (hi.own j).concat hown
    · rw [hothers j hj]
      exact hi.own j
  · by_cases hj : j = i
    · subst hj
      rw [hkeeps.dirs]
      exact hlen
    · rw [hothers j hj]
      exact hi.oneDir j
  · by_cases hj : j = i
    · subst hj
      exact ⟨server', hkeeps.stopped⟩
    · rw [hothers j hj]
      obtain ⟨q, hq⟩ := hi.oneServer j
      exact ⟨q, fun p hp => (hq p hp).imp id fun h => h.advances ha⟩

/-- A call that neither starts nor signals nor makes nor removes. -/
theorem Occupies.quiet {c : ToolCall} {l : Unit} {a : ToolAns c} (hc : QuietTool c) (hi : Orderly s)
    (hk : Occupies i dirs server s) (hlen : dirs.length ≤ 1)
    (hs : Journaled PodServes i s c l a s') :
    (tidyContract i).guar s c a s' ∧ Occupies i dirs server s' := by
  apply hk.step hi hs (owns_quiet hc) (dirsAfter_quiet hc) hlen
  · intro p hp
    rw [newServer_quiet hc] at hp
    exact .inl (hp.resolve_right (by simp))
  · exact fun p hp => .inl hp

/-- A call that finds the server stopped, or stops it. -/
theorem Occupies.over {c : ToolCall} {l : Unit} {a : ToolAns c} {p : Pid} {tmp : Str}
    (hi : Orderly s) (hk : Occupies i [tmp] (some p) s) (hs : Journaled PodServes i s c l a s')
    (hown : Owns (callsBy i s.2) c) (hdirs : dirsAfter [tmp] c a = [tmp])
    (hnew : newServer c a = []) (hp : s'.1.Stopped p) :
    (tidyContract i).guar s c a s' ∧ Occupies i [tmp] none s' := by
  apply hk.step hi hs hown hdirs le_rfl
  · intro q hq
    rw [hnew] at hq
    obtain rfl := Option.some.inj (hq.resolve_right (by simp))
    exact .inr hp
  · exact fun q hq => nomatch hq

theorem Occupies.status (hi : Orderly s) {p : Pid} (hk : Occupies i dirs (some p) s) :
    ∃ st, s.1.status p = some st :=
  Option.isSome_iff_exists.1 (Pod.status_isSome.2 (hi.known i p (hk.started p rfl)))

theorem Pod.stopped_of_exited {w : Pod} {p : Pid} {code : ℤ}
    (h : w.status p = some (.exited code)) : w.Stopped p := ⟨_, h, by simp⟩

/-- Scratch directories and servers as the journal shows them. -/
def tidyCustody (i : ι) : Custody (Journaled PodServes i) (tidyContract i) where
  free := Occupies i [] none
  holds tmp := Occupies i [tmp] none
  serves tmp server := Occupies i [tmp] (some server)
  free_stable := Occupies.stable i [] none
  holds_stable tmp := Occupies.stable i [tmp] none
  serves_stable tmp server := Occupies.stable i [tmp] (some server)
  make := by
    intro s hi hk l a s' hs
    cases a with
    | ok tmp =>
      refine hk.step hi hs trivial rfl le_rfl (fun p hp => ?_) fun p hp => nomatch hp
      exact .inl (hp.resolve_right (List.not_mem_nil))
    | error e =>
      refine hk.step hi hs trivial rfl (Nat.zero_le 1) (fun p hp => ?_) fun p hp => nomatch hp
      exact .inl (hp.resolve_right (List.not_mem_nil))
  launch := by
    intro tmp argv cwd s hi hk l a s' hs
    cases a with
    | ok server =>
      refine hk.step hi hs trivial rfl le_rfl (fun p hp => ?_) fun p hp => ?_
      · obtain rfl := List.mem_singleton.1 (hp.resolve_left (by simp))
        exact .inl rfl
      · obtain rfl := Option.some.inj hp
        exact .inr (List.mem_singleton_self _)
    | error e =>
      refine hk.step hi hs trivial rfl le_rfl (fun p hp => ?_) fun p hp => nomatch hp
      exact .inl (hp.resolve_right (List.not_mem_nil))
  quiet_holds := fun tmp c hc s hi hk l a s' hs => hk.quiet hc hi le_rfl hs
  quiet_serves := fun tmp server c hc s hi hk l a s' hs => hk.quiet hc hi le_rfl hs
  poll := by
    intro tmp server s hi hk l a s' hs
    obtain ⟨hw, code, rfl, hcode⟩ := hs.1
    cases code with
    | none => exact hk.quiet trivial hi le_rfl hs
    | some n =>
      have hexit : s'.1.Stopped server := by
        rw [hw]
        exact Pod.stopped_of_exited ((hcode n).1 rfl)
      exact hk.over hi hs trivial rfl rfl hexit
  terminate := by
    intro tmp server s hi hk l a s' hs
    have hstep : (tidyContract i).guar s (.terminate server) a s' ∧
        Occupies i [tmp] (some server) s' := by
      apply hk.step hi hs (hk.started server rfl) rfl le_rfl
      · exact fun p hp => .inl (hp.resolve_right (List.not_mem_nil))
      · exact fun p hp => .inl hp
    exact ⟨hstep.1, hs.1.1, hstep.2⟩
  wait := by
    intro tmp server seconds s hi hk l a s' hs
    obtain ⟨hw, code, rfl, hcode⟩ := hs.1
    cases code with
    | none => exact hk.quiet trivial hi le_rfl hs
    | some n =>
      have hexit : s'.1.Stopped server := by
        rw [hw]
        exact Pod.stopped_of_exited (hcode n rfl)
      exact hk.over hi hs trivial rfl rfl hexit
  kill := by
    intro tmp server s hi hk l a s' hs
    obtain ⟨rfl, hw⟩ := hs.1
    obtain ⟨st, hst⟩ := hk.status hi
    have hdead : s'.1.Stopped server := by
      rw [hw]
      exact Pod.stopped_kill hst
    have hstep := hk.over hi hs (hk.started server rfl) rfl rfl hdead
    exact ⟨hstep.1, rfl, hstep.2⟩
  remove := by
    intro tmp s hi hk l a s' hs
    have hmem : tmp ∈ scratch (callsBy i s.2) := by
      rw [hk.dirs]
      exact List.mem_singleton_self _
    have hstep : (tidyContract i).guar s (.rmtree tmp) a s' ∧ Occupies i [] none s' := by
      have hgone : dirsAfter [tmp] (.rmtree tmp) a = [] := by simp [dirsAfter]
      apply hk.step hi hs hmem hgone (Nat.zero_le 1)
      · exact fun p hp => .inl (hp.resolve_right (List.not_mem_nil))
      · exact fun p hp => nomatch hp
    exact ⟨hstep.1, hs.1.1, hstep.2⟩

/-- Meanwhile the processes go on by themselves. -/
def Meanwhile (s s' : Site ι) : Prop := s.1.Drift s'.1 ∧ s'.2 = s.2

theorem orderly_blank (pod : Pod) : Orderly ((pod, []) : Site ι) := by
  refine ⟨fun i p hp => ?_, fun i j p hp => ?_, fun i => ownsAll_nil, fun i => Nat.zero_le 1,
    fun i => ⟨none, fun p hp => ?_⟩⟩
  all_goals cases hp

theorem keeps_blank (i : ι) (pod : Pod) : Occupies i [] none ((pod, []) : Site ι) :=
  ⟨rfl, fun _ hp => absurd hp List.not_mem_nil, fun _ hp => nomatch hp⟩

theorem Orderly.meanwhile (h : Orderly s) (hd : Meanwhile s s') : Orderly s' := by
  obtain ⟨hd, hJ⟩ := hd
  refine ⟨?_, ?_, ?_, ?_, fun i => ?_⟩
  all_goals rw [hJ]
  · exact fun i p hp => hd.advances.length_le (h.known i p hp)
  · exact h.disjoint
  · exact h.own
  · exact h.oneDir
  · obtain ⟨q, hq⟩ := h.oneServer i
    exact ⟨q, fun p hp => (hq p hp).imp id fun hs => hs.advances hd.advances⟩

/-- Whatever requests run at once and however each of them ends: no thread ever has more than one
scratch directory and one running server, it removes and signals only its own, and once it is
through it has neither. -/
theorem analyses_clean_up {desk : ι → Desk} {requests : ι → List AdviceRequest} {pod : Pod}
    {s : Pool ι ToolCall ToolAns ToolExc (List (Except ToolExc Str)) (Site ι)}
    (h : Pool.Reaches (fun i => Journaled PodServes i) Meanwhile
      ⟨(pod, []), fun i => session (desk i) (requests i)⟩ s) :
    Orderly s.world ∧ ∀ i, (s.thread i).ended = true →
      scratch (callsBy i s.world.2) = [] ∧
        ∀ p ∈ servers (callsBy i s.world.2), s.world.1.Stopped p := by
  have hpool := pool_invariant (K := tidyContract) (Q := fun i _ => Occupies i [] none)
    (fun _ => rfl) (fun _ _ _ _ _ _ hg => hg.1)
    (fun i j hij _ _ _ _ _ hg => ⟨hg.2.1, hg.2.2 j hij.symm⟩)
    (fun s s' hi he => ⟨hi.meanwhile he, fun j => ⟨he.1.advances, by rw [he.2]⟩⟩) h
    (orderly_blank pod) fun i => (tidyCustody i).safe_session (keeps_blank i pod)
  obtain ⟨hi, hsafe⟩ := hpool
  refine ⟨hi, fun i hend => ?_⟩
  obtain ⟨-, hkeeps⟩ := (hsafe i).of_ended hend hi
  exact ⟨hkeeps.dirs, fun p hp => (hkeeps.stopped p hp).resolve_left (by simp)⟩

end Thread

def sampleRequest : AdviceRequest := ⟨sampleRoot, ['/'], "db".toList, 4⟩

/-- A request whose server has to be killed, run to its end. -/
def sampleSession : Pool Unit ToolCall ToolAns ToolExc (List (Except ToolExc Str)) (Site Unit) :=
  Pool.schedule (journaling fun _ w c => ((), w.serve c))
    ⟨(samplePod, []), fun _ => session sampleDesk [sampleRequest]⟩ (List.replicate 12 ())

theorem reaches_sampleSession : Pool.Reaches (fun i => Journaled PodServes i) Meanwhile
    ⟨(samplePod, []), fun _ => session sampleDesk [sampleRequest]⟩ sampleSession :=
  reaches_schedule (journaled_journaling fun _ => podServes_serve) _ _

theorem sampleSession_ended : (sampleSession.thread ()).ended = true := by decide +kernel

theorem analyses_clean_up_sample : servers (callsBy () sampleSession.world.2) = [1] ∧
    sampleSession.world.1.Stopped 1 ∧ scratch (callsBy () sampleSession.world.2) = [] := by
  have hservers : servers (callsBy () sampleSession.world.2) = [1] := by decide +kernel
  obtain ⟨-, hend⟩ := analyses_clean_up reaches_sampleSession
  obtain ⟨hdirs, hstopped⟩ := hend () sampleSession_ended
  refine ⟨hservers, hstopped 1 ?_, hdirs⟩
  rw [hservers]
  exact List.mem_singleton_self 1

end Accel.Model
