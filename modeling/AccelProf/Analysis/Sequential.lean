import AccelProf.Analysis.Teardown

/-! A service that answers one request after the other: the only server that can answer a query is
the one its own request started. -/

namespace Accel.Model
open Data Program Prog

variable {s s' : Site Unit}

/-- The server was started by the request in progress: since then no request was over. -/
def Current (p : Pid) (J : Journal Unit ToolCall ToolAns Unit Pod) : Prop :=
  ∃ J₁ J₂ argv cwd l w, J = J₁ ++ ((), ⟨.popen argv cwd, l, .ok p, w⟩) :: J₂ ∧
    ∀ e ∈ J₂, ∀ path, e.2.call ≠ .rmtree path

theorem Current.concat {p : Pid} {J : Journal Unit ToolCall ToolAns Unit Pod} {st : ToolStep}
    (h : Current p J) (hst : ∀ path, st.call ≠ .rmtree path) : Current p (J ++ [((), st)]) := by
  obtain ⟨J₁, J₂, argv, cwd, l, w, rfl, hJ₂⟩ := h
  refine ⟨J₁, J₂ ++ [((), st)], argv, cwd, l, w, by simp, fun e he => ?_⟩
  rcases List.mem_append.1 he with he | he
  · exact hJ₂ e he
  · rw [List.mem_singleton.1 he]
    exact hst

def Pod.Idle (w : Pod) : Prop := ∀ p, w.status p ≠ some .running

/-- What runs belongs to the request in progress, and only what runs or was killed has a port. -/
structure Exclusive (s : Site Unit) : Prop where
  running : ∀ p, s.1.status p = some .running → Current p s.2
  bound : ∀ port p, s.1.listener port = some p →
    s.1.status p = some .running ∨ s.1.status p = some .killed

/-- Nobody else starts a process or revives one. -/
def soloContract : Contract ToolCall ToolAns (Site Unit) where
  inv := Exclusive
  rely s s' := (∀ p, s'.1.status p = some .running → s.1.status p = some .running) ∧
    s.1.Advances s'.1 ∧ s'.2 = s.2
  guar _ _ _ s' := Exclusive s'
  rely_refl _ := ⟨fun _ h => h, .refl _, rfl⟩
  rely_trans h h' := ⟨fun p hp => h.1 p (h'.1 p hp), h.2.1.trans h'.2.1, h'.2.2.trans h.2.2⟩

theorem Pod.Drift.running {w w' : Pod} (h : w.Drift w') {p : Pid}
    (hp : w'.status p = some .running) : w.status p = some .running := by
  have hlt : p < w.started.length := by
    rw [← h.length]
    exact Pod.status_isSome.1 (by rw [hp]; rfl)
  obtain ⟨st, hst⟩ := Option.isSome_iff_exists.1 (Pod.status_isSome.2 hlt)
  obtain ⟨st', hst', hlater⟩ := h.later p st hst
  obtain rfl : st' = .running := Option.some.inj (hst'.symm.trans hp)
  cases st with
  | running => exact hst
  | killed => exact absurd rfl hlater
  | exited code => cases hlater

theorem Exclusive.meanwhile (h : Exclusive s) (hm : Meanwhile s s') : Exclusive s' := by
  obtain ⟨hd, hJ⟩ := hm
  refine ⟨fun p hp => ?_, fun port p hp => ?_⟩
  · rw [hJ]
    exact h.running p (hd.running hp)
  · obtain ⟨hbefore, hnot⟩ := hd.bound port p hp
    have hthere : ∃ st, s.1.status p = some st := by
      rcases hbefore with hl | hrun
      · rcases h.bound port p hl with hst | hst
        · exact ⟨_, hst⟩
        · exact ⟨_, hst⟩
      · exact ⟨_, hrun⟩
    obtain ⟨st, hst⟩ := hthere
    obtain ⟨st', hst', -⟩ := hd.later p st hst
    cases st' with
    | running => exact .inl hst'
    | killed => exact .inr hst'
    | exited code => exact absurd hst' (hnot code)

/-- Only `server` may run. -/
structure Only (server : Pid) (s : Site Unit) : Prop where
  known : ∃ st, s.1.status server = some st
  only : ∀ p, s.1.status p = some .running → p = server

theorem idle_stable : Stable soloContract (fun s : Site Unit => s.1.Idle) := by
  rintro s s' h - ⟨hback, -⟩
  exact fun p hp => h p (hback p hp)

theorem only_stable (server : Pid) : Stable soloContract (Only server) := by
  rintro s s' h - ⟨hback, ha, -⟩
  obtain ⟨st, hst⟩ := h.known
  obtain ⟨st', hst', -⟩ := ha server st hst
  exact ⟨⟨st', hst'⟩, fun p hp => h.only p (hback p hp)⟩

/-- A call that leaves the processes alone and ends no request. -/
theorem Exclusive.same {c : ToolCall} {l : Unit} {a : ToolAns c} (hi : Exclusive s)
    (hs : Journaled PodServes () s c l a s') (hw : s'.1 = s.1) (hc : ∀ path, c ≠ .rmtree path) :
    Exclusive s' := by
  refine ⟨fun p hp => ?_, ?_⟩
  · rw [hs.2]
    rw [hw] at hp
    exact (hi.running p hp).concat hc
  · rw [hw]
    exact hi.bound

/-- Any call that leaves the processes alone while nothing runs. -/
theorem Exclusive.idle (hi : Exclusive s) (hidle : s.1.Idle) (hw : s'.1 = s.1) : Exclusive s' := by
  refine ⟨fun p hp => ?_, ?_⟩
  · rw [hw] at hp
    exact absurd hp (hidle p)
  · rw [hw]
    exact hi.bound

theorem Only.idle {server : Pid} (h : Only server s) (hs : s.1.status server ≠ some .running) :
    s.1.Idle := by
  intro p hp
  rw [h.only p hp] at hp
  exact hs hp

theorem Only.same {server : Pid} (h : Only server s) (hw : s'.1 = s.1) : Only server s' := by
  refine ⟨?_, ?_⟩
  all_goals rw [hw]
  · exact h.known
  · exact h.only

theorem Exclusive.launch {w : Pod} {argv : List Str} {cwd : Str} {l : Unit} (hi : Exclusive s)
    (hidle : s.1.Idle) (hw : w = { s.1 with started := s.1.started ++ [.running] })
    (hs : s' = (w, s.2 ++ [((), ⟨.popen argv cwd, l, .ok s.1.started.length, w⟩)])) :
    Exclusive s' ∧ Only s.1.started.length s' := by
  have hlast : ∀ p, w.status p = some .running → p = s.1.started.length := by
    intro p hp
    have hp : (s.1.started ++ [ProcStatus.running])[p]? = some .running := by rwa [hw] at hp
    by_cases hlt : p < s.1.started.length
    · rw [List.getElem?_append_left hlt] at hp
      exact absurd hp (hidle p)
    · have hle := (List.getElem?_eq_some_iff.1 hp).1
      rw [List.length_append, List.length_singleton] at hle
      exact Nat.le_antisymm (Nat.lt_succ_iff.1 hle) (Nat.not_lt.1 hlt)
  have hnew : w.status s.1.started.length = some .running := by
    rw [hw]
    exact List.getElem?_concat_length
  subst hs
  refine ⟨⟨fun p hp => ?_, fun port p hp => ?_⟩, ⟨_, hnew⟩, hlast⟩
  · rw [hlast p hp]
    exact ⟨s.2, [], argv, cwd, l, w, rfl, fun e he => absurd he List.not_mem_nil⟩
  · rw [hw] at hp
    have hst := (hi.bound port p hp).resolve_left (hidle p)
    refine .inr ?_
    have hlt : p < s.1.started.length := Pod.status_isSome.1 (by rw [hst]; rfl)
    show w.status p = some .killed
    rw [hw]
    show (s.1.started ++ [ProcStatus.running])[p]? = some .killed
    rw [List.getElem?_append_left hlt]
    exact hst

theorem Exclusive.kill {server : Pid} {l : Unit} {a : ToolAns (.kill server)} (hi : Exclusive s)
    (ho : Only server s) (hs : Journaled PodServes () s (.kill server) l a s') :
    Exclusive s' ∧ s'.1.Idle := by
  have hw : s'.1 = s.1.kill server := hs.1.2
  have hstatus : ∀ p, s'.1.status p =
      (s.1.status p).map fun st => if server = p ∧ st = .running then .killed else st := by
    intro p
    rw [hw, Pod.status_kill]
  have hidle : s'.1.Idle := by
    intro p hp
    rw [hstatus, Option.map_eq_some_iff] at hp
    obtain ⟨st, hst, hp⟩ := hp
    split_ifs at hp with hrun
    subst hp
    exact hrun ⟨(ho.only p hst).symm, rfl⟩
  refine ⟨⟨fun p hp => absurd hp (hidle p), fun port p hp => .inr ?_⟩, hidle⟩
  rw [hw] at hp
  rcases hi.bound port p hp with hst | hst
  · obtain rfl := ho.only p hst
    rw [hstatus, hst]
    simp
  · rw [hstatus, hst]
    simp

/-- One request at a time: nothing runs between two requests, and one server during one. -/
def soloCustody : Custody (Journaled PodServes ()) soloContract where
  free s := s.1.Idle
  holds _ s := s.1.Idle
  serves _ server := Only server
  free_stable := idle_stable
  holds_stable _ := idle_stable
  serves_stable _ := only_stable
  make := by
    intro s hi hidle l a s' hs
    have hw : s'.1 = s.1 := hs.1
    have hidle' : s'.1.Idle := by rwa [hw]
    refine ⟨hi.same hs hw nofun, ?_⟩
    cases a with
    | ok tmp => exact hidle'
    | error e => exact hidle'
  launch := by
    intro tmp argv cwd s hi hidle l a s' hs
    rcases hs.1 with ⟨e, rfl, hw⟩ | ⟨rfl, hw⟩
    · refine ⟨hi.same hs hw nofun, ?_⟩
      show s'.1.Idle
      rwa [hw]
    · exact hi.launch hidle hw (Prod.ext rfl hs.2)
  quiet_holds := by
    intro tmp c hc s hi hidle l a s' hs
    have hw := podServes_quiet hc hs.1
    refine ⟨hi.idle hidle hw, ?_⟩
    show s'.1.Idle
    rwa [hw]
  quiet_serves := by
    intro tmp server c hc s hi ho l a s' hs
    have hw := podServes_quiet hc hs.1
    refine ⟨hi.same hs hw ?_, ho.same hw⟩
    rintro path rfl
    exact hc
  poll := by
    intro tmp server s hi ho l a s' hs
    obtain ⟨hw, code, rfl, hcode⟩ := hs.1
    have ho' := ho.same hw
    refine ⟨hi.same hs hw nofun, ?_⟩
    cases code with
    | none => exact ho'
    | some n =>
      apply ho'.idle
      rw [hw, (hcode n).1 rfl]
      simp
  terminate := by
    intro tmp server s hi ho l a s' hs
    have hw := hs.1.2
    exact ⟨hi.same hs hw nofun, hs.1.1, ho.same hw⟩
  wait := by
    intro tmp server seconds s hi ho l a s' hs
    obtain ⟨hw, code, rfl, hcode⟩ := hs.1
    have ho' := ho.same hw
    refine ⟨hi.same hs hw nofun, ?_⟩
    cases code with
    | none => exact ho'
    | some n =>
      apply ho'.idle
      rw [hw, hcode n rfl]
      simp
  kill := by
    intro tmp server s hi ho l a s' hs
    obtain ⟨hi', hidle⟩ := hi.kill ho hs
    exact ⟨hi', hs.1.1, hidle⟩
  remove := by
    intro tmp s hi hidle l a s' hs
    have hw := hs.1.2
    refine ⟨hi.idle hidle hw, hs.1.1, ?_⟩
    rwa [hw]

/-- In a service that answers one request at a time, whatever the requests are and however they end:
a process that listens on a port was started by the request in progress, or it was killed; and
once the requests are answered nothing runs. -/
theorem own_server_answers {desk : Desk} {requests : List AdviceRequest} {pod : Pod}
    (hidle : pod.Idle) (hbound : ∀ port p, pod.listener port = some p →
      pod.status p = some .killed)
    {s : Pool Unit ToolCall ToolAns ToolExc (List (Except ToolExc Str)) (Site Unit)}
    (h : Pool.Reaches (fun i => Journaled PodServes i) Meanwhile
      ⟨(pod, []), fun _ => session desk requests⟩ s) :
    (∀ port p, s.world.1.listener port = some p →
      s.world.1.status p = some .running ∧ Current p s.world.2 ∨
        s.world.1.status p = some .killed) ∧
      ((s.thread ()).ended = true → s.world.1.Idle) := by
  have hblank : Exclusive (pod, []) :=
    ⟨fun p hp => absurd hp (hidle p), fun port p hp => .inr (hbound port p hp)⟩
  obtain ⟨hi, hsafe⟩ := pool_invariant (K := fun _ => soloContract)
    (Q := fun _ _ s => s.1.Idle) (fun _ => rfl) (fun _ _ _ _ _ _ hg => hg)
    (fun i j hij => absurd rfl hij)
    (fun s s' hi he => ⟨hi.meanwhile he, fun _ =>
      ⟨fun p hp => he.1.running hp, he.1.advances, he.2⟩⟩) h hblank
    fun _ => soloCustody.safe_session hidle
  refine ⟨fun port p hp => ?_, fun hend => ?_⟩
  · exact (hi.bound port p hp).imp_left fun hrun => ⟨hrun, hi.running p hrun⟩
  · obtain ⟨-, hidle'⟩ := (hsafe ()).of_ended hend hi
    exact hidle'

theorem samplePod_idle : samplePod.Idle := by
  intro p hp
  match p with
  | 0 => cases hp
  | p + 1 => cases hp

theorem own_server_answers_sample : sampleSession.world.1.listener 3002 = some 0 ∧
    sampleSession.world.1.status 0 = some .killed ∧ sampleSession.world.1.Idle := by
  have hbound : ∀ port p, samplePod.listener port = some p → samplePod.status p = some .killed := by
    intro port p hp
    unfold samplePod at hp
    dsimp only at hp
    split_ifs at hp
    obtain rfl := Option.some.inj hp
    rfl
  have hlistener : sampleSession.world.1.listener 3002 = some 0 := by decide +kernel
  obtain ⟨hports, hend⟩ := own_server_answers samplePod_idle hbound reaches_sampleSession
  have hidle := hend sampleSession_ended
  refine ⟨hlistener, ?_, hidle⟩
  rcases hports 3002 0 hlistener with ⟨hrun, -⟩ | hkilled
  · exact absurd hrun (hidle 0)
  · exact hkilled

end Accel.Model
