import AccelProf.Program.RelyGuarantee

/-! Interleavings that keep a journal of every call and the thread that made it, and schedules that
compute one interleaving. -/

namespace Accel.Program
open Prog

variable {C : Type} {A : C → Type} {E L W α ι : Type}

abbrev Journal (ι C : Type) (A : C → Type) (L W : Type) := List (ι × Step C A L W)

/-- The service `R` as thread `i` meets it, with its calls written into the journal. -/
def Journaled (R : Service C A L W) (i : ι) : Service C A L (W × Journal ι C A L W) :=
  fun s c l a s' => R s.1 c l a s'.1 ∧ s'.2 = s.2 ++ [(i, ⟨c, l, a, s'.1⟩)]

theorem exec_journaled {R : Service C A L W} (i : ι) {p : Prog C A E α} {w w' : W}
    {tr : List (Step C A L W)} {r : Except E α} (h : Exec R p w tr r w')
    (J : Journal ι C A L W) :
    ∃ tr', Exec (Journaled R i) p (w, J) tr' r (w', J ++ tr.map (i, ·)) := by
  induction p generalizing w tr J with
  | ret a =>
    obtain ⟨rfl, rfl, rfl⟩ := h
    exact ⟨[], by simp⟩
  | raise e =>
    obtain ⟨rfl, rfl, rfl⟩ := h
    exact ⟨[], by simp⟩
  | call c k ih =>
    obtain ⟨l, a, w₁, tr₁, hs, rfl, h⟩ := h
    obtain ⟨tr', h'⟩ := ih a h (J ++ [(i, ⟨c, l, a, w₁⟩)])
    refine ⟨_, l, a, (w₁, J ++ [(i, ⟨c, l, a, w₁⟩)]), tr', ⟨hs, rfl⟩, rfl, ?_⟩
    simpa using h'

section Calls
variable [DecidableEq ι] {R : ι → Service C A L W} {S : ι → C → Prop}
  {env : W × Journal ι C A L W → W × Journal ι C A L W → Prop}
  {s s' : Pool ι C A E α (W × Journal ι C A L W)}

/-- A thread whose program makes only certain calls has made only such calls. -/
theorem reaches_uses (henv : ∀ s s', env s s' → s'.2 = s.2)
    (h : Pool.Reaches (fun i => Journaled (R i) i) env s s') (hs : ∀ i, (s.thread i).Uses (S i))
    (hJ : ∀ e ∈ s.world.2, S e.1 e.2.call) :
    (∀ i, (s'.thread i).Uses (S i)) ∧ ∀ e ∈ s'.world.2, S e.1 e.2.call := by
  induction h with
  | refl => exact ⟨hs, hJ⟩
  | tail _ hstep ih =>
    obtain ⟨hs, hJ⟩ := ih
    cases hstep with
    | thread i hi hR =>
      have hu := hs i
      rw [hi] at hu
      refine ⟨fun j => ?_, fun e he => ?_⟩
      · by_cases hj : j = i
        · subst hj
          simpa using hu.2 _
        · simpa [hj] using hs j
      · rw [hR.2] at he
        rcases List.mem_append.1 he with he | he
        · exact hJ e he
        · rw [List.mem_singleton.1 he]
          exact hu.1
    | env he => exact ⟨hs, fun e h => hJ e (by rwa [← henv _ _ he])⟩

end Calls

section Within

/-- The program makes at most `n` calls, whatever it is answered. -/
def Prog.Within : ℕ → Prog C A E α → Prop
  | _, .ret _ => True
  | _, .raise _ => True
  | 0, .call _ _ => False
  | n + 1, .call _ k => ∀ a, (k a).Within n

theorem Prog.within_ret (n : ℕ) (a : α) : (Prog.ret a : Prog C A E α).Within n := by
  cases n <;> trivial

theorem Prog.within_raise (n : ℕ) (e : E) : (Prog.raise e : Prog C A E α).Within n := by
  cases n <;> trivial

theorem Prog.within_bind_perform {B : C → Type} {c : C} {n : ℕ}
    {f : B c → Prog C (fun c => Except E (B c)) E α} (hf : ∀ b, (f b).Within n) :
    ((Prog.perform c).bind f).Within (n + 1) := by
  intro a
  cases a with
  | ok b => exact hf b
  | error e => exact Prog.within_raise n e

variable [DecidableEq ι]

def callsOf (i : ι) (J : Journal ι C A L W) : ℕ := J.countP (·.1 = i)

theorem reaches_within {R : ι → Service C A L W}
    {env : W × Journal ι C A L W → W × Journal ι C A L W → Prop}
    {s s' : Pool ι C A E α (W × Journal ι C A L W)} (henv : ∀ s s', env s s' → s'.2 = s.2)
    (h : Pool.Reaches (fun i => Journaled (R i) i) env s s') {n : ℕ} {i : ι}
    (hs : (s.thread i).Within n) (hJ : s.world.2 = []) :
    ∃ m, m + callsOf i s'.world.2 = n ∧ (s'.thread i).Within m := by
  induction h with
  | refl => exact ⟨n, by simp [callsOf, hJ], hs⟩
  | @tail t t' _ hstep ih =>
    obtain ⟨m, hm, hw⟩ := ih
    cases hstep with
    | @thread j c k l a w' hj hR =>
      have hcalls : callsOf i w'.2 = callsOf i t.world.2 + if j = i then 1 else 0 := by
        rw [hR.2]
        simp [callsOf, List.countP_append, List.countP_cons]
      by_cases hji : j = i
      · subst hji
        rw [hj] at hw
        cases m with
        | zero => exact hw.elim
        | succ m =>
          refine ⟨m, ?_, by simpa using hw a⟩
          simp only [hcalls, if_pos]
          omega
      · refine ⟨m, ?_, by simpa [Ne.symm hji] using hw⟩
        simp only [hcalls, if_neg hji]
        omega
    | env he => exact ⟨m, by rw [henv _ _ he]; exact hm, hw⟩

end Within

/-- Where an element of a list that grew by one can stand. -/
theorem append_singleton_eq_append_cons {β : Type} {l l₁ l₂ : List β} {x y : β} :
    l ++ [x] = l₁ ++ y :: l₂ ↔
      l₁ = l ∧ y = x ∧ l₂ = [] ∨ ∃ l₃, l₂ = l₃ ++ [x] ∧ l = l₁ ++ y :: l₃ := by
  constructor
  · intro h
    rcases List.eq_nil_or_concat' l₂ with rfl | ⟨l₃, z, rfl⟩
    · obtain ⟨rfl, hxy⟩ := List.append_inj' h rfl
      exact .inl ⟨rfl, (List.singleton_inj.1 hxy).symm, rfl⟩
    · rw [← List.cons_append, ← List.append_assoc] at h
      obtain ⟨rfl, hz⟩ := List.append_inj' h rfl
      exact .inr ⟨l₃, by rw [hz], rfl⟩
  · rintro (⟨rfl, rfl, rfl⟩ | ⟨l₃, rfl, rfl⟩)
    · rfl
    · simp

section Schedule
variable [DecidableEq ι] (serve : ι → W → (c : C) → L × A c × W)

/-- Thread `i` makes its next call, if it has one. -/
def Pool.advance (s : Pool ι C A E α W) (i : ι) : Pool ι C A E α W :=
  match s.thread i with
  | .call c k =>
    let out := serve i s.world c
    ⟨out.2.2, Function.update s.thread i (k out.2.1)⟩
  | _ => s

def Pool.schedule (s : Pool ι C A E α W) (is : List ι) : Pool ι C A E α W :=
  is.foldl (Pool.advance serve) s

variable {serve} {R : ι → Service C A L W} {env : W → W → Prop}

theorem reaches_schedule (h : ∀ i w c, R i w c (serve i w c).1 (serve i w c).2.1 (serve i w c).2.2)
    (s : Pool ι C A E α W) (is : List ι) : Pool.Reaches R env s (s.schedule serve is) := by
  induction is generalizing s with
  | nil => exact .refl
  | cons i is ih =>
    refine Relation.ReflTransGen.trans ?_ (ih (s.advance serve i))
    rw [Pool.advance]
    split
    · next c k hi => exact .single (.thread i hi (h i s.world c))
    · exact .refl

end Schedule

/-- The services `serve` with a journal. -/
def journaling (serve : ι → W → (c : C) → L × A c × W) (i : ι) (s : W × Journal ι C A L W) (c : C) :
    L × A c × (W × Journal ι C A L W) :=
  let out := serve i s.1 c
  (out.1, out.2.1, (out.2.2, s.2 ++ [(i, ⟨c, out.1, out.2.1, out.2.2⟩)]))

theorem journaled_journaling {R : ι → Service C A L W} {serve : ι → W → (c : C) → L × A c × W}
    (h : ∀ i w c, R i w c (serve i w c).1 (serve i w c).2.1 (serve i w c).2.2) (i : ι)
    (s : W × Journal ι C A L W) (c : C) :
    Journaled (R i) i s c (journaling serve i s c).1 (journaling serve i s c).2.1
      (journaling serve i s c).2.2 :=
  ⟨h i s.1 c, rfl⟩

end Accel.Program
