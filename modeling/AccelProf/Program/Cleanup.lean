import AccelProf.Program.RelyGuarantee

/-! Programs with a clean-up that runs however they end. -/

namespace Accel.Program
open Prog

variable {C : Type} {A : C → Type} {E L W α : Type}

/-- `try: p finally: fin`. What `fin` raises replaces the outcome of `p`. -/
def Prog.ensuring (p : Prog C A E α) (fin : Prog C A E Unit) : Prog C A E α :=
  p.attempt.bind fun out => fin.bind fun _ => ofExcept out

theorem Prog.Uses.ensuring {S : C → Prop} {p : Prog C A E α} {fin : Prog C A E Unit}
    (hp : p.Uses S) (hfin : fin.Uses S) : (p.ensuring fin).Uses S := by
  apply hp.attempt.bind
  intro out
  apply hfin.bind
  intro _
  cases out with
  | ok a => trivial
  | error e => trivial

/-- No call is left to make. -/
def Prog.ended : Prog C A E α → Bool
  | .call .. => false
  | _ => true

theorem Safe.of_ended {R : Service C A L W} {K : Contract C A W} {Q : Except E α → W → Prop}
    {p : Prog C A E α} {w : W} (h : Safe R K Q p w) (hp : p.ended = true) (hw : K.inv w) :
    ∃ r, Q r w := by
  cases p with
  | ret a => exact ⟨_, h w hw (K.rely_refl w)⟩
  | raise e => exact ⟨_, h w hw (K.rely_refl w)⟩
  | call c k => cases hp

section Exec
variable {R : Service C A L W} {w w' : W} {tr : List (Step C A L W)}

/-- The clean-up runs from wherever the program ended, and decides about the outcome only by
raising. -/
theorem exec_ensuring {p : Prog C A E α} {fin : Prog C A E Unit} {r : Except E α} :
    Exec R (p.ensuring fin) w tr r w' ↔ ∃ out tr₁ w₁ tr₂ rf, Exec R p w tr₁ out w₁ ∧
      Exec R fin w₁ tr₂ rf w' ∧ tr = tr₁ ++ tr₂ ∧ r = rf.bind fun _ => out := by
  unfold Prog.ensuring
  constructor
  · intro h
    obtain ⟨out, tr₁, tr₂, w₁, h₁, h₂, rfl⟩ := exec_attempt_bind.1 h
    rcases exec_bind.1 h₂ with ⟨e, he, rfl⟩ | ⟨u, tr₃, tr₄, w₂, h₃, h₄, rfl⟩
    · exact ⟨out, tr₁, w₁, tr₂, .error e, h₁, he, rfl, rfl⟩
    · have hend : tr₄ = [] ∧ r = out ∧ w' = w₂ := by
        cases out with
        | ok a => exact h₄
        | error e => exact h₄
      obtain ⟨rfl, rfl, rfl⟩ := hend
      exact ⟨r, tr₁, w₁, tr₃, .ok u, h₁, h₃, by rw [List.append_nil], rfl⟩
  · rintro ⟨out, tr₁, w₁, tr₂, rf, h₁, h₂, rfl, rfl⟩
    refine exec_attempt_bind.2 ⟨out, tr₁, tr₂, w₁, h₁, ?_, rfl⟩
    apply exec_bind.2
    cases rf with
    | error e => exact .inl ⟨e, h₂, rfl⟩
    | ok u =>
      refine .inr ⟨u, tr₂, [], w', h₂, ?_, by rw [List.append_nil]⟩
      cases out with
      | ok a => exact ⟨rfl, rfl, rfl⟩
      | error e => exact ⟨rfl, rfl, rfl⟩

end Exec

/-- The rule of clean-ups: the clean-up is verified from every end of the program. -/
theorem Safe.ensuring {R : Service C A L W} {K : Contract C A W} {Q : Except E α → W → Prop}
    {p : Prog C A E α} {fin : Prog C A E Unit} {w : W} (hQ : ∀ r, Stable K (Q r))
    (h : Safe R K (fun out w => Safe R K (fun rf w => Q (rf.bind fun _ => out) w) fin w) p w) :
    Safe R K Q (p.ensuring fin) w := by
  unfold Prog.ensuring
  apply Safe.bind
  apply Safe.attempt
  apply h.mono
  intro out w₁ _ hfin
  apply Safe.bind
  apply hfin.mono
  intro rf w₂ _ hq
  cases rf with
  | error e => exact hq
  | ok u =>
    cases out with
    | ok a => exact fun w₃ hi hr => hQ _ _ _ hq hi hr
    | error e => exact fun w₃ hi hr => hQ _ _ _ hq hi hr

section Performs
variable {B : C → Type} {R : Service C (fun c => Except E (B c)) L W}
  {K : Contract C (fun c => Except E (B c)) W}

/-- The specification of one call: made where `P` holds it keeps the guarantee, and its answer and
the world after it are as `Q` says. -/
def Performs (R : Service C (fun c => Except E (B c)) L W)
    (K : Contract C (fun c => Except E (B c)) W) (P : W → Prop) (c : C)
    (Q : Except E (B c) → W → Prop) : Prop :=
  ∀ w, K.inv w → P w → ∀ l a w', R w c l a w' → K.guar w c a w' ∧ Q a w'

/-- The rule of a call and what follows it. -/
theorem Performs.bind {P : W → Prop} {c : C} {Q : Except E (B c) → W → Prop}
    {f : B c → Prog C (fun c => Except E (B c)) E α} {Q' : Except E α → W → Prop} {w : W}
    (hc : Performs R K P c Q) (hP : Stable K P) (hw : P w)
    (hok : ∀ b w', Q (.ok b) w' → Safe R K Q' (f b) w')
    (herr : ∀ e w', Q (.error e) w' → Safe R K Q' (raise e) w') :
    Safe R K Q' ((perform c).bind f) w := by
  intro w₁ hi hr l a w₂ hs
  obtain ⟨hg, hq⟩ := hc w₁ hi (hP _ _ hw hi hr) l a w₂ hs
  refine ⟨hg, ?_⟩
  cases a with
  | ok b => exact hok b w₂ hq
  | error e => exact herr e w₂ hq

end Performs

end Accel.Program
