import AccelProf.Platform.Sweeping
import AccelProf.Spec.Reference

/-! Producers that look up or create the experiments of their aliases at the same time. -/

namespace Accel.Model
open Data Program Prog

variable {ι : Type} {i : ι} {s s' : State ι} {l : Fate} {name id : Str}

def IdsUnique (m : Mlflow) : Prop :=
  ∀ n n' id, m.experiments n = some id → m.experiments n' = some id → n = n'

/-- The name under which a call created an experiment. -/
def createdName : Step Call Ans Fate World → Option Str
  | ⟨.createExperiment name, _, .ok _, _⟩ => some name
  | _ => none

/-- How often an experiment was created under the name. -/
def creations (name : Str) (J : Journal ι Call Ans Fate World) : ℕ :=
  J.countP fun e => createdName e.2 = some name

theorem creations_append (J : Journal ι Call Ans Fate World) (e : ι × Step Call Ans Fate World) :
    creations name (J ++ [e]) = creations name J + if createdName e.2 = some name then 1
    else 0 := by
  simp [creations, List.countP_append, List.countP_cons]

/-- Ids are unique, and every creation has left its experiment behind. -/
structure Named (s : State ι) : Prop where
  unique : IdsUnique s.1.mlflow
  created : ∀ n, creations n s.2 = 0 ∨ creations n s.2 = 1 ∧ s.1.mlflow.experiments n ≠ none

def KeepsIds (s s' : State ι) : Prop :=
  ∀ n id, s.1.mlflow.experiments n = some id → s'.1.mlflow.experiments n = some id

/-- What others may do between two calls: create experiments with fresh ids, and anything else. -/
def Grows (s s' : State ι) : Prop := KeepsIds s s' ∧ IdsUnique s'.1.mlflow ∧ s'.2 = s.2

def naming : Contract Call Ans (State ι) where
  inv := Named
  rely := KeepsIds
  guar := fun s _ _ s' => Named s' ∧ KeepsIds s s'
  rely_refl := fun _ _ _ h => h
  rely_trans := fun h h' n id hn => h' n id (h n id hn)

/-- A call that creates no experiment. -/
theorem named_still {st : Step Call Ans Fate World} (hs : Named s) (hJ : s'.2 = s.2 ++ [(i, st)])
    (hw : s'.1 = s.1) (hc : createdName st = none) : Named s' where
  unique := by
    rw [hw]
    exact hs.unique
  created := fun n => by
    rw [hJ, creations_append, hc, hw]
    simpa using hs.created n

theorem journaled_getExperimentByName {a : Ans (.getExperimentByName name)}
    (h : Journaled (Serves Reliable) i s (.getExperimentByName name) l a s') :
    s'.1 = s.1 ∧ a = .ok (s.1.mlflow.experiments name) := by
  obtain ⟨⟨hl, hs⟩, -⟩ := h
  obtain rfl : l = .ok := hl
  exact ⟨hs.2, hs.1⟩

/-- `create_experiment` refuses a name that exists and else creates it under a fresh id. -/
theorem journaled_createExperiment {a : Ans (.createExperiment name)} (hs : Named s)
    (h : Journaled (Serves Reliable) i s (.createExperiment name) l a s') :
    Named s' ∧ KeepsIds s s' ∧ ∃ id, s'.1.mlflow.experiments name = some id ∧
      (a = .ok id ∨ ∃ e, a = .error e) := by
  obtain ⟨⟨hl, hserve⟩, hJ⟩ := h
  obtain rfl : l = .ok := hl
  simp only [Handle] at hserve
  cases hn : s.1.mlflow.experiments name with
  | some id =>
    rw [hn] at hserve
    obtain ⟨ha, hw⟩ := hserve
    subst ha
    refine ⟨named_still hs hJ hw rfl, fun n id h => by rwa [hw], id, by rw [hw, hn], .inr ⟨_, rfl⟩⟩
  | none =>
    rw [hn] at hserve
    obtain ⟨id, hfresh, ha, hw⟩ := hserve
    subst ha
    have hexp : s'.1.mlflow.experiments =
        Function.update s.1.mlflow.experiments name (some id) := by
      rw [hw]
    -- a new id for this name; no other name has it, or gets another one
    have hother : ∀ {n}, n ≠ name → s'.1.mlflow.experiments n = s.1.mlflow.experiments n :=
      fun h => by rw [hexp, Function.update_of_ne h]
    have hself : s'.1.mlflow.experiments name = some id := by rw [hexp, Function.update_self]
    refine ⟨⟨fun n n' id' h h' => ?_, fun n => ?_⟩, fun n id' h => ?_, id, hself, .inl rfl⟩
    · by_cases hnn : n = name <;> by_cases hnn' : n' = name
      · rw [hnn, hnn']
      · rw [hnn, hself] at h
        rw [hother hnn', ← h] at h'
        exact absurd h' (hfresh n')
      · rw [hnn', hself] at h'
        rw [hother hnn, ← h'] at h
        exact absurd h (hfresh n)
      · rw [hother hnn] at h
        rw [hother hnn'] at h'
        exact hs.unique n n' id' h h'
    · rw [hJ, creations_append]
      by_cases hnn : n = name
      · subst hnn
        -- a name without an experiment has not been created yet
        have h0 : creations n s.2 = 0 := (hs.created n).resolve_right fun h => h.2 hn
        exact .inr ⟨by simp [h0, createdName], by simp [hself]⟩
      · have hc : createdName ⟨.createExperiment name, .ok, .ok id, s'.1⟩ ≠ some n := fun h =>
          hnn (Option.some.inj h).symm
        rw [if_neg hc, Nat.add_zero, hother hnn]
        exact hs.created n
    · have hnn : n ≠ name := by
        rintro rfl
        rw [hn] at h
        cases h
      rw [hother hnn, h]

/-- The producer got the id of its alias's experiment. -/
def GotId (name : Str) (r : Except PyExc (Option Str)) (s : State ι) : Prop :=
  ∃ id, r = .ok (some id) ∧ s.1.mlflow.experiments name = some id

theorem stable_experiment : Stable (naming (ι := ι)) fun s => s.1.mlflow.experiments name =
    some id :=
  fun _ _ h _ hr => hr name id h

theorem safe_got (h : s.1.mlflow.experiments name = some id) :
    Safe (Journaled (Serves Reliable) i) naming (GotId name)
    (ret (some id) : Action (Option Str)) s :=
  safe_ret stable_experiment (fun _ h => ⟨id, rfl, h⟩) h

theorem safe_getExperimentByName : Safe (Journaled (Serves Reliable) i) naming
    (fun a s => ∃ x, a = .ok x ∧ ∀ id, x = some id → s.1.mlflow.experiments name = some id)
    (request (.getExperimentByName name)) s := by
  refine safe_perform (fun a s s' hs _ hr => ?_) fun s₁ hs _ l a s₂ h => ?_
  · obtain ⟨x, hx, hid⟩ := hs
    exact ⟨x, hx, fun id h => hr name id (hid id h)⟩
  · obtain ⟨hw, ha⟩ := journaled_getExperimentByName h
    have hkeeps : KeepsIds s₁ s₂ := fun n id hn => by rwa [hw]
    refine ⟨⟨named_still hs h.2 hw rfl, hkeeps⟩, _, ha, fun id hid => ?_⟩
    rw [hw, hid]

theorem safe_getExperimentByName_some (h : s.1.mlflow.experiments name = some id) :
    Safe (Journaled (Serves Reliable) i) naming
      (fun a s => a = .ok (some id) ∧ s.1.mlflow.experiments name = some id)
      (request (.getExperimentByName name)) s := by
  refine safe_perform (fun a s s' hs _ hr => ⟨hs.1, hr name id hs.2⟩) fun s₁ hs hr l a s₂ h' => ?_
  obtain ⟨hw, ha⟩ := journaled_getExperimentByName h'
  have hid : s₁.1.mlflow.experiments name = some id := hr name id h
  have hkeeps : KeepsIds s₁ s₂ := fun n id hn => by rwa [hw]
  exact ⟨⟨named_still hs h'.2 hw rfl, hkeeps⟩, by rw [ha, hid], by rw [hw, hid]⟩

/-- The lookup, the creation and the second lookup after a lost race all end with the experiment of
the alias. -/
theorem safe_experimentId (name : Str) : Safe (Journaled (Serves Reliable) i) naming (GotId name)
    (experimentId name true) s := by
  unfold experimentId
  refine Safe.bind (safe_getExperimentByName.mono ?_)
  rintro _ s₁ - ⟨x, rfl, hx⟩
  cases x with
  | some id => exact safe_got (hx id rfl)
  | none =>
    simp only [Bool.not_true, Bool.false_eq_true, if_false, bind_eq]
    have hcreate : Safe (Journaled (Serves Reliable) i) naming
        (fun a s => ∃ id, s.1.mlflow.experiments name = some id ∧ (a = .ok id ∨ ∃ e, a = .error e))
        (request (.createExperiment name)) s₁ := by
      refine safe_perform (fun a s s' hs _ hr => ?_) fun s₂ hs _ l a s₃ h => ?_
      · obtain ⟨id, hid, ha⟩ := hs
        exact ⟨id, hr name id hid, ha⟩
      · obtain ⟨hn, hk, hid⟩ := journaled_createExperiment hs h
        exact ⟨⟨hn, hk⟩, hid⟩
    refine Safe.bind (Safe.attempt (hcreate.mono ?_))
    rintro _ s₂ - ⟨id, hid, rfl | ⟨e, rfl⟩⟩
    · exact safe_got hid
    -- somebody else was first, so the second lookup finds the experiment
    · refine Safe.bind ((safe_getExperimentByName_some hid).mono ?_)
      rintro _ s₃ - ⟨rfl, hid₃⟩
      exact safe_got hid₃

theorem within_experimentId (name : Str) : (experimentId name true).Within 3 := by
  unfold experimentId
  refine within_bind_perform fun x => ?_
  cases x with
  | some id => exact within_ret 2 _
  | none =>
    intro a
    cases a with
    | ok id => exact within_ret 1 _
    | error e =>
      refine within_bind_perform fun x => ?_
      cases x with
      | some id => exact within_ret 0 _
      | none => exact within_raise 0 _

def lookups (name : ι → Str) (w : World) : Pool ι Call Ans PyExc (Option Str) (State ι) :=
  ⟨(w, []), fun i => experimentId (name i) true⟩

/-- Under every interleaving: no producer ever fails, each returns after at most three calls with
the id of its alias's experiment, two of them get the same id exactly when they have the same alias,
and no alias gets a second experiment. -/
theorem experimentId_agrees [DecidableEq ι] (name : ι → Str) {w : World} (hids : IdsUnique w.mlflow)
    {s : Pool ι Call Ans PyExc (Option Str) (State ι)}
    (h : Pool.Reaches (Journaled (Serves Reliable)) Grows (lookups name w) s) :
    (∀ i, (∃ id, s.thread i = .ret (some id) ∧ s.world.1.mlflow.experiments (name i) = some id) ∨
      (∃ c k, s.thread i = .call c k) ∧ callsOf i s.world.2 < 3) ∧
    (∀ i j a b, s.thread i = .ret a → s.thread j = .ret b → (a = b ↔ name i = name j)) ∧
    (∀ n n' id, s.world.1.mlflow.experiments n = some id →
      s.world.1.mlflow.experiments n' = some id → n = n') ∧
    ∀ n, creations n s.world.2 ≤ 1 := by
  have hstart : Named (lookups name w).world := ⟨hids, fun n => .inl rfl⟩
  have henv : ∀ s s' : State ι, Named s → Grows s s' → Named s' := fun s s' hs he => by
    obtain ⟨hkeeps, huniq, hJ⟩ := he
    refine ⟨huniq, fun n => ?_⟩
    rw [hJ]
    refine (hs.created n).imp_right fun hc => ⟨hc.1, ?_⟩
    obtain ⟨id, hid⟩ := Option.ne_none_iff_exists'.1 hc.2
    simp [hkeeps n id hid]
  -- names of experiments are never taken back, by a producer or by anybody else
  obtain ⟨hn, hsafe⟩ := pool_invariant (K := fun _ => naming) (fun _ => rfl)
    (fun _ _ _ _ _ _ hg => hg.1) (fun _ _ _ _ _ _ _ _ hg => hg.2)
    (fun s s' hs he => ⟨henv s s' hs he, fun _ => he.1⟩) h hstart
    (Q := fun i => GotId (name i)) fun i => safe_experimentId (name i)
  have hret : ∀ i a, s.thread i = .ret a →
      ∃ id, a = some id ∧ s.world.1.mlflow.experiments (name i) = some id := fun i a ha => by
    have hi := hsafe i
    rw [ha] at hi
    obtain ⟨id, hid, hexp⟩ := hi s.world hn fun _ _ h => h
    exact ⟨id, Except.ok.inj hid, hexp⟩
  refine ⟨fun i => ?_, fun i j a b ha hb => ?_, hn.unique, fun n => ?_⟩
  · cases ht : s.thread i with
    | ret a =>
      obtain ⟨id, rfl, hid⟩ := hret i a ht
      exact .inl ⟨id, rfl, hid⟩
    -- the end of a producer promises an id, so none has raised
    | raise e =>
      have hi := hsafe i
      rw [ht] at hi
      obtain ⟨id, hid, -⟩ := hi s.world hn fun _ _ h => h
      cases hid
    | call c k =>
      obtain ⟨m, hm, hw⟩ :=
        reaches_within (fun _ _ he => he.2.2) h (within_experimentId (name i)) rfl
      rw [ht] at hw
      cases m with
      | zero => exact hw.elim
      | succ m => exact .inr ⟨⟨c, k, rfl⟩, by omega⟩
  · obtain ⟨id, rfl, hid⟩ := hret i a ha
    obtain ⟨id', rfl, hid'⟩ := hret j b hb
    constructor
    · intro hab
      obtain rfl := Option.some.inj hab
      exact hn.unique _ _ _ hid hid'
    · intro hname
      rw [hname] at hid
      exact hid.symm.trans hid'
  · rcases hn.created n with h | h <;> omega

section Race

def noExperiments : World := World.of ['b'] [] [] []

def oneExperiment : World :=
  { noExperiments with mlflow := { noExperiments.mlflow with
    experiments := Function.update noExperiments.mlflow.experiments ['a'] (some ['0']) } }

theorem noExperiments_unique : IdsUnique noExperiments.mlflow := by
  intro n n' id h
  cases h

/-- Two producers find no experiment for one alias; the one that creates it second is refused and
looks again. -/
theorem experimentId_agrees_race : ∃ s : Pool Bool Call Ans PyExc (Option Str) (State Bool),
    Pool.Reaches (Journaled (Serves Reliable)) Grows (lookups (fun _ => ['a']) noExperiments) s ∧
    s.thread true = .ret (some ['0']) ∧ s.thread false = .ret (some ['0']) ∧
    creations ['a'] s.world.2 ≤ 1 := by
  let get (w : World) : Step Call Ans Fate World :=
    ⟨.getExperimentByName ['a'], .ok, .ok (w.mlflow.experiments ['a']), w⟩
  let J₁ : Journal Bool Call Ans Fate World := [(true, get noExperiments)]
  let J₂ := J₁ ++ [(false, get noExperiments)]
  let J₃ := J₂ ++ [(true, ⟨.createExperiment ['a'], .ok, .ok ['0'], oneExperiment⟩)]
  let J₄ := J₃ ++ [(false, ⟨.createExperiment ['a'], .ok, .error experimentExists, oneExperiment⟩)]
  let J₅ := J₄ ++ [(false, get oneExperiment)]
  have h₁ : Journaled (Serves Reliable) true (noExperiments, []) (.getExperimentByName ['a']) .ok
      (.ok none) (noExperiments, J₁) := ⟨⟨rfl, rfl, rfl⟩, rfl⟩
  have h₂ : Journaled (Serves Reliable) false (noExperiments, J₁) (.getExperimentByName ['a']) .ok
      (.ok none) (noExperiments, J₂) := ⟨⟨rfl, rfl, rfl⟩, rfl⟩
  have h₃ : Journaled (Serves Reliable) true (noExperiments, J₂) (.createExperiment ['a']) .ok
      (.ok ['0']) (oneExperiment, J₃) := by
    have hnone : noExperiments.mlflow.experiments ['a'] = none := rfl
    refine ⟨⟨rfl, ?_⟩, rfl⟩
    simp only [Handle, hnone]
    exact ⟨['0'], (fun n h => by cases h), rfl, rfl⟩
  have h₄ : Journaled (Serves Reliable) false (oneExperiment, J₃) (.createExperiment ['a']) .ok
      (.error experimentExists) (oneExperiment, J₄) := by
    have hsome : oneExperiment.mlflow.experiments ['a'] = some ['0'] := rfl
    refine ⟨⟨rfl, ?_⟩, rfl⟩
    simp only [Handle, hsome, and_self]
  have h₅ : Journaled (Serves Reliable) false (oneExperiment, J₄) (.getExperimentByName ['a']) .ok
      (.ok (some ['0'])) (oneExperiment, J₅) := ⟨⟨rfl, rfl, rfl⟩, rfl⟩
  have hreach : Pool.Reaches (Journaled (Serves Reliable)) Grows
      (lookups (fun _ => ['a']) noExperiments) ⟨_, _⟩ :=
    .head (.thread true rfl h₁) <| .head (.thread false rfl h₂) <| .head (.thread true rfl h₃) <|
      .head (.thread false rfl h₄) <| .single (.thread false rfl h₅)
  exact ⟨_, hreach, rfl, rfl, (experimentId_agrees _ noExperiments_unique hreach).2.2.2 ['a']⟩

end Race

end Accel.Model
