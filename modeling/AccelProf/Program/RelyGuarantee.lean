import AccelProf.Program.Interaction

/-! Rely-guarantee reasoning for programs that run interleaved over one world. -/

namespace Accel.Program
open Prog

variable {C : Type} {A : C → Type} {E L W α β ι : Type}

/-- What a program may count on between its calls (`inv`, `rely`) and what each of its own calls
promises to the others (`guar`). -/
structure Contract (C : Type) (A : C → Type) (W : Type) where
  inv : W → Prop
  rely : W → W → Prop
  guar : W → (c : C) → A c → W → Prop
  rely_refl : ∀ w, rely w w
  rely_trans : ∀ {a b c}, rely a b → rely b c → rely a c

/-- Started in `w`, with others acting within the rely between any two of its calls, the program
keeps its guarantee and ends with `Q`. -/
def Safe (R : Service C A L W) (K : Contract C A W) (Q : Except E α → W → Prop) :
    Prog C A E α → W → Prop
  | .ret a, w => ∀ w₁, K.inv w₁ → K.rely w w₁ → Q (.ok a) w₁
  | .raise e, w => ∀ w₁, K.inv w₁ → K.rely w w₁ → Q (.error e) w₁
  | .call c k, w => ∀ w₁, K.inv w₁ → K.rely w w₁ → ∀ l a w₂, R w₁ c l a w₂ →
      K.guar w₁ c a w₂ ∧ Safe R K Q (k a) w₂

def Stable (K : Contract C A W) (P : W → Prop) : Prop :=
  ∀ w w₁, P w → K.inv w₁ → K.rely w w₁ → P w₁

section Safe
variable {R : Service C A L W} {K : Contract C A W} {w w₁ : W}

theorem Safe.rely {Q : Except E α → W → Prop} {p : Prog C A E α} (h : Safe R K Q p w)
    (hr : K.rely w w₁) : Safe R K Q p w₁ := by
  cases p with
  | ret a => exact fun w₂ hi h₂ => h w₂ hi (K.rely_trans hr h₂)
  | raise e => exact fun w₂ hi h₂ => h w₂ hi (K.rely_trans hr h₂)
  | call c k => exact fun w₂ hi h₂ => h w₂ hi (K.rely_trans hr h₂)

theorem Safe.mono {Q Q' : Except E α → W → Prop} {p : Prog C A E α} (h : Safe R K Q p w)
    (hQ : ∀ r w, K.inv w → Q r w → Q' r w) : Safe R K Q' p w := by
  induction p generalizing w with
  | ret a => exact fun w₁ hi hr => hQ _ _ hi (h w₁ hi hr)
  | raise e => exact fun w₁ hi hr => hQ _ _ hi (h w₁ hi hr)
  | call c k ih =>
    intro w₁ hi hr l a w₂ hs
    obtain ⟨hg, hk⟩ := h w₁ hi hr l a w₂ hs
    exact ⟨hg, ih a hk⟩

theorem safe_of_rely {Q : Except E α → W → Prop} {p : Prog C A E α}
    (h : ∀ w₁, K.inv w₁ → K.rely w w₁ → Safe R K Q p w₁) : Safe R K Q p w := by
  cases p with
  | ret a => exact fun w₁ hi hr => h w₁ hi hr w₁ hi (K.rely_refl _)
  | raise e => exact fun w₁ hi hr => h w₁ hi hr w₁ hi (K.rely_refl _)
  | call c k => exact fun w₁ hi hr => h w₁ hi hr w₁ hi (K.rely_refl _)

/-- The rule of sequencing: `f` is verified from every world its first part can end in. -/
theorem Safe.bind {Q' : Except E β → W → Prop} {p : Prog C A E α} {f : α → Prog C A E β}
    (hp : Safe R K (fun r w => match r with
      | .ok a => Safe R K Q' (f a) w
      | .error e => Q' (.error e) w) p w) : Safe R K Q' (p.bind f) w := by
  induction p generalizing w with
  | ret a => exact safe_of_rely hp
  | raise e => exact hp
  | call c k ih =>
    intro w₁ hi hr l a w₂ hs
    obtain ⟨hg, hk⟩ := hp w₁ hi hr l a w₂ hs
    exact ⟨hg, ih a hk⟩

theorem Safe.attempt {Q : Except E (Except E α) → W → Prop} {p : Prog C A E α}
    (hp : Safe R K (fun r w => Q (.ok r) w) p w) : Safe R K Q p.attempt w := by
  induction p generalizing w with
  | ret a => exact hp
  | raise e => exact hp
  | call c k ih =>
    intro w₁ hi hr l a w₂ hs
    obtain ⟨hg, hk⟩ := hp w₁ hi hr l a w₂ hs
    exact ⟨hg, ih a hk⟩

theorem safe_perform {B : C → Type} {R : Service C (fun c => Except E (B c)) L W}
    {K : Contract C (fun c => Except E (B c)) W} {c : C} {Q : Except E (B c) → W → Prop}
    (hQ : ∀ r, Stable K (Q r))
    (h : ∀ w₁, K.inv w₁ → K.rely w w₁ → ∀ l a w₂, R w₁ c l a w₂ → K.guar w₁ c a w₂ ∧ Q a w₂) :
    Safe R K Q (perform c) w := by
  intro w₁ hi hr l a w₂ hs
  obtain ⟨hg, hq⟩ := h w₁ hi hr l a w₂ hs
  refine ⟨hg, ?_⟩
  cases a with
  | ok b => exact fun w₃ hi₃ hr₃ => hQ _ _ _ hq hi₃ hr₃
  | error e => exact fun w₃ hi₃ hr₃ => hQ _ _ _ hq hi₃ hr₃

/-- The rule of loops: a stable invariant of the accumulator that every body keeps. -/
theorem safe_foldlM {Q : Except E β → W → Prop} {I : β → W → Prop} {f : β → α → Prog C A E β}
    {xs : List α} (hI : ∀ b, Stable K (I b)) (hok : ∀ b w, I b w → Q (.ok b) w)
    (hstep : ∀ b, ∀ x ∈ xs, ∀ w, I b w → Safe R K (fun r w => match r with
      | .ok b' => I b' w
      | .error e => Q (.error e) w) (f b x) w) :
    ∀ {b w}, I b w → Safe R K Q (xs.foldlM f b) w := by
  induction xs with
  | nil => exact fun {b w} hb w₁ hi hr => hok b w₁ (hI b _ _ hb hi hr)
  | cons x xs ih =>
    intro b w hb
    rw [List.foldlM_cons]
    refine Safe.bind ((hstep b x (by simp) w hb).mono fun r w₁ _ hr => ?_)
    cases r with
    | ok b' => exact ih (fun b y hy => hstep b y (by simp [hy])) hr
    | error e => exact hr

/-- A program whose possible calls all keep a stable fact ends with that fact. -/
theorem safe_of_uses {S : C → Prop} {P : W → Prop} {p : Prog C A E α} (hp : p.Uses S)
    (hP : Stable K P) (hS : ∀ c, S c → ∀ w, K.inv w → P w → ∀ l a w', R w c l a w' →
      K.guar w c a w' ∧ P w') (hw : P w) : Safe R K (fun _ w => P w) p w := by
  induction p generalizing w with
  | ret a => exact fun w₁ hi hr => hP _ _ hw hi hr
  | raise e => exact fun w₁ hi hr => hP _ _ hw hi hr
  | call c k ih =>
    intro w₁ hi hr l a w₂ hs
    obtain ⟨hg, h₂⟩ := hS c hp.1 w₁ hi (hP _ _ hw hi hr) l a w₂ hs
    exact ⟨hg, ih a (hp.2 a) h₂⟩

/-- A stable fact that the program's own calls cannot break either can be carried along. -/
theorem Safe.frame {Q : Except E α → W → Prop} {P : W → Prop} {p : Prog C A E α}
    (hown : ∀ w c a w', K.guar w c a w' → K.inv w' ∧ K.rely w w') (hP : Stable K P)
    (h : Safe R K Q p w) (hw : P w) : Safe R K (fun r w => Q r w ∧ P w) p w := by
  induction p generalizing w with
  | ret a => exact fun w₁ hi hr => ⟨h w₁ hi hr, hP _ _ hw hi hr⟩
  | raise e => exact fun w₁ hi hr => ⟨h w₁ hi hr, hP _ _ hw hi hr⟩
  | call c k ih =>
    intro w₁ hi hr l a w₂ hs
    obtain ⟨hg, hk⟩ := h w₁ hi hr l a w₂ hs
    obtain ⟨hi₂, hr₂⟩ := hown _ _ _ _ hg
    exact ⟨hg, ih a hk (hP _ _ (hP _ _ hw hi hr) hi₂ hr₂)⟩

/-- A safe program run alone keeps the invariant and ends with its postcondition. -/
theorem Safe.exec {Q : Except E α → W → Prop} {p : Prog C A E α} {tr : List (Step C A L W)}
    {r : Except E α} {w' : W} (hinv : ∀ w c a w', K.inv w → K.guar w c a w' → K.inv w')
    (h : Safe R K Q p w) (hw : K.inv w) (hx : Exec R p w tr r w') : K.inv w' ∧ Q r w' := by
  induction p generalizing w tr with
  | ret a =>
    obtain ⟨-, rfl, rfl⟩ := hx
    exact ⟨hw, h _ hw (K.rely_refl _)⟩
  | raise e =>
    obtain ⟨-, rfl, rfl⟩ := hx
    exact ⟨hw, h _ hw (K.rely_refl _)⟩
  | call c k ih =>
    obtain ⟨l, a, w₁, tr', hs, -, hx⟩ := hx
    obtain ⟨hg, hk⟩ := h _ hw (K.rely_refl _) l a w₁ hs
    exact ih a hk (hinv _ _ _ _ hw hg) hx

end Safe

/-- Programs that share one world; the thread that moves makes one call. -/
structure Pool (ι C : Type) (A : C → Type) (E α W : Type) where
  world : W
  thread : ι → Prog C A E α

section Pool
variable [DecidableEq ι] (R : ι → Service C A L W) (env : W → W → Prop)

inductive Pool.Step : Pool ι C A E α W → Pool ι C A E α W → Prop
  | thread {s : Pool ι C A E α W} (i : ι) {c : C} {k : A c → Prog C A E α} {l : L} {a : A c}
      {w' : W} (hi : s.thread i = .call c k) (hs : R i s.world c l a w') :
      Pool.Step s ⟨w', Function.update s.thread i (k a)⟩
  | env {s : Pool ι C A E α W} {w' : W} (h : env s.world w') : Pool.Step s ⟨w', s.thread⟩

abbrev Pool.Reaches : Pool ι C A E α W → Pool ι C A E α W → Prop :=
  Relation.ReflTransGen (Pool.Step R env)

variable {R env}

/-- Threads that each keep their contract, and whose guarantees lie within the others' relies,
keep the common invariant under every interleaving. -/
theorem pool_invariant {K : ι → Contract C A W} {inv : W → Prop} (hK : ∀ i, (K i).inv = inv)
    (hinv : ∀ i w c a w', inv w → (K i).guar w c a w' → inv w')
    (hrely : ∀ i j, i ≠ j → ∀ w c a w', inv w → (K i).guar w c a w' → (K j).rely w w')
    (henv : ∀ w w', inv w → env w w' → inv w' ∧ ∀ j, (K j).rely w w')
    {Q : ι → Except E α → W → Prop} {s s' : Pool ι C A E α W} (h : Pool.Reaches R env s s')
    (h₀ : inv s.world) (hs : ∀ i, Safe (R i) (K i) (Q i) (s.thread i) s.world) :
    inv s'.world ∧ ∀ i, Safe (R i) (K i) (Q i) (s'.thread i) s'.world := by
  induction h with
  | refl => exact ⟨h₀, hs⟩
  | @tail t t' _ hstep ih =>
    obtain ⟨hi, hsafe⟩ := ih
    cases hstep with
    | @thread i c k l a w' hc hR =>
      have hcall := hsafe i
      rw [hc] at hcall
      obtain ⟨hg, hk⟩ := hcall _ (by rw [hK]; exact hi) ((K i).rely_refl _) l a w' hR
      refine ⟨hinv i _ _ _ _ hi hg, fun j => ?_⟩
      by_cases hj : j = i
      · subst hj
        simpa using hk
      · simpa [hj] using (hsafe j).rely (hrely i j (Ne.symm hj) _ _ _ _ hi hg)
    | env he =>
      obtain ⟨hi', hr⟩ := henv _ _ hi he
      exact ⟨hi', fun j => (hsafe j).rely (hr j)⟩

end Pool

end Accel.Program
