import Mathlib

/-! Programs that act on the world only through calls to services. A call's answer decides how
the program continues, and an exception is a second way to end. -/

namespace Accel.Program

/-- A program over calls `C`, where call `c` is answered in `A c`. -/
inductive Prog (C : Type) (A : C → Type) (E α : Type) where
  | ret (a : α)
  | raise (e : E)
  | call (c : C) (k : A c → Prog C A E α)

/-- How services react: in world `w`, call `c` may be answered `a`, leaving world `w'`. The label
records what the environment decided. -/
abbrev Service (C : Type) (A : C → Type) (L W : Type) := W → (c : C) → L → A c → W → Prop

structure Step (C : Type) (A : C → Type) (L W : Type) where
  call : C
  label : L
  answer : A call
  after : W

variable {C : Type} {A : C → Type} {E L W α β : Type}

namespace Prog

def bind : Prog C A E α → (α → Prog C A E β) → Prog C A E β
  | ret a, f => f a
  | raise e, _ => raise e
  | call c k, f => call c fun a => bind (k a) f

instance : Monad (Prog C A E) where
  pure := ret
  bind := bind

/-- `try: ... except Exception as e: ...`, with the outcome handed on as a value. -/
def attempt : Prog C A E α → Prog C A E (Except E α)
  | ret a => ret (.ok a)
  | raise e => ret (.error e)
  | call c k => call c fun a => attempt (k a)

/-- The call `c` with the exception it may be answered with raised in the caller. -/
def perform {B : C → Type} (c : C) : Prog C (fun c => Except E (B c)) E (B c) :=
  call c fun
    | .ok b => ret b
    | .error e => raise e

/-- A computation without calls that may raise. -/
def ofExcept : Except E α → Prog C A E α
  | .ok a => ret a
  | .error e => raise e

@[simp] theorem ofExcept_ok (a : α) : (ofExcept (.ok a) : Prog C A E α) = ret a := rfl
@[simp] theorem ofExcept_error (e : E) : (ofExcept (.error e) : Prog C A E α) = raise e := rfl
@[simp] theorem pure_eq (a : α) : (pure a : Prog C A E α) = ret a := rfl
@[simp] theorem bind_eq (p : Prog C A E α) (f : α → Prog C A E β) : p >>= f = p.bind f := rfl
@[simp] theorem ret_bind (a : α) (f : α → Prog C A E β) : (ret a).bind f = f a := rfl
@[simp] theorem raise_bind (e : E) (f : α → Prog C A E β) : (raise e).bind f = raise e := rfl
@[simp] theorem call_bind (c : C) (k : A c → Prog C A E α) (f : α → Prog C A E β) :
    (call c k).bind f = call c fun a => (k a).bind f := rfl
@[simp] theorem attempt_ret (a : α) : (ret a : Prog C A E α).attempt = ret (.ok a) := rfl
@[simp] theorem attempt_raise (e : E) : (raise e : Prog C A E α).attempt = ret (.error e) := rfl
@[simp] theorem attempt_call (c : C) (k : A c → Prog C A E α) :
    (call c k).attempt = call c fun a => (k a).attempt := rfl

theorem bind_assoc {γ : Type} (p : Prog C A E α) (f : α → Prog C A E β) (g : β → Prog C A E γ) :
    (p.bind f).bind g = p.bind fun a => (f a).bind g := by
  induction p with
  | ret a => rfl
  | raise e => rfl
  | call c k ih => exact congrArg (call c) (funext ih)

theorem bind_ret (p : Prog C A E α) : p.bind ret = p := by
  induction p with
  | ret a => rfl
  | raise e => rfl
  | call c k ih => exact congrArg (call c) (funext ih)

end Prog

open Prog

/-- `Exec R p w tr r w'`: run alone from `w` against `R`, the program makes the calls `tr`, ends
with `r` and leaves `w'`. -/
def Exec (R : Service C A L W) :
    Prog C A E α → W → List (Step C A L W) → Except E α → W → Prop
  | .ret a, w, tr, r, w' => tr = [] ∧ r = .ok a ∧ w' = w
  | .raise e, w, tr, r, w' => tr = [] ∧ r = .error e ∧ w' = w
  | .call c k, w, tr, r, w' => ∃ l a w₁ tr', R w c l a w₁ ∧ tr = ⟨c, l, a, w₁⟩ :: tr' ∧
      Exec R (k a) w₁ tr' r w'

section Exec
variable {R R' : Service C A L W} {w w' : W} {tr : List (Step C A L W)}

@[simp] theorem exec_ret {a : α} {r : Except E α} :
    Exec R (.ret a) w tr r w' ↔ tr = [] ∧ r = .ok a ∧ w' = w := Iff.rfl

@[simp] theorem exec_raise {e : E} {r : Except E α} :
    Exec R (.raise e) w tr r w' ↔ tr = [] ∧ r = .error e ∧ w' = w := Iff.rfl

theorem exec_call {c : C} {k : A c → Prog C A E α} {r : Except E α} :
    Exec R (.call c k) w tr r w' ↔ ∃ l a w₁ tr', R w c l a w₁ ∧ tr = ⟨c, l, a, w₁⟩ :: tr' ∧
      Exec R (k a) w₁ tr' r w' := Iff.rfl

/-- A sequence either stops at an exception of its first part or runs both parts. -/
theorem exec_bind {p : Prog C A E α} {f : α → Prog C A E β} {r : Except E β} :
    Exec R (p.bind f) w tr r w' ↔
      (∃ e, Exec R p w tr (.error e) w' ∧ r = .error e) ∨
      ∃ a tr₁ tr₂ w₁, Exec R p w tr₁ (.ok a) w₁ ∧ Exec R (f a) w₁ tr₂ r w' ∧ tr = tr₁ ++ tr₂ := by
  induction p generalizing w tr with
  | ret a => simp
  | raise e =>
    constructor
    · rintro ⟨rfl, rfl, rfl⟩
      exact .inl ⟨e, ⟨rfl, rfl, rfl⟩, rfl⟩
    · rintro (⟨e', ⟨rfl, he, rfl⟩, rfl⟩ | ⟨a, tr₁, tr₂, w₁, ⟨-, h, -⟩, -⟩)
      · exact ⟨rfl, by cases he; rfl, rfl⟩
      · cases h
  | call c k ih =>
    simp only [call_bind, exec_call, ih]
    constructor
    · rintro ⟨l, a, w₁, tr', hR, rfl, ⟨e, he, rfl⟩ | ⟨b, tr₁, tr₂, w₂, h₁, h₂, rfl⟩⟩
      · exact .inl ⟨e, ⟨l, a, w₁, tr', hR, rfl, he⟩, rfl⟩
      · exact .inr ⟨b, _, tr₂, w₂, ⟨l, a, w₁, tr₁, hR, rfl, h₁⟩, h₂, rfl⟩
    · rintro (⟨e, ⟨l, a, w₁, tr', hR, rfl, he⟩, rfl⟩ |
        ⟨b, _, tr₂, w₂, ⟨l, a, w₁, tr₁, hR, rfl, h₁⟩, h₂, rfl⟩)
      · exact ⟨l, a, w₁, tr', hR, rfl, .inl ⟨e, he, rfl⟩⟩
      · exact ⟨l, a, w₁, _, hR, rfl, .inr ⟨b, tr₁, tr₂, w₂, h₁, h₂, rfl⟩⟩

theorem exec_bind_ok {p : Prog C A E α} {f : α → Prog C A E β} {b : β} :
    Exec R (p.bind f) w tr (.ok b) w' ↔ ∃ a tr₁ tr₂ w₁, Exec R p w tr₁ (.ok a) w₁ ∧
      Exec R (f a) w₁ tr₂ (.ok b) w' ∧ tr = tr₁ ++ tr₂ := by
  rw [exec_bind]
  constructor
  · rintro (⟨e, -, he⟩ | h)
    · cases he
    · exact h
  · exact .inr

theorem exec_attempt {p : Prog C A E α} {r : Except E (Except E α)} :
    Exec R p.attempt w tr r w' ↔ ∃ r', r = .ok r' ∧ Exec R p w tr r' w' := by
  induction p generalizing w tr with
  | ret a => simp; tauto
  | raise e => simp; tauto
  | call c k ih =>
    simp only [attempt_call, exec_call, ih]
    constructor
    · rintro ⟨l, a, w₁, tr', hR, rfl, r', rfl, h⟩
      exact ⟨r', rfl, l, a, w₁, tr', hR, rfl, h⟩
    · rintro ⟨r', rfl, l, a, w₁, tr', hR, rfl, h⟩
      exact ⟨l, a, w₁, tr', hR, rfl, r', rfl, h⟩

/-- What follows a program that cannot raise runs from wherever the program ended. -/
theorem exec_attempt_bind {p : Prog C A E α} {f : Except E α → Prog C A E β} {r : Except E β} :
    Exec R (p.attempt.bind f) w tr r w' ↔ ∃ out tr₁ tr₂ w₁, Exec R p w tr₁ out w₁ ∧
      Exec R (f out) w₁ tr₂ r w' ∧ tr = tr₁ ++ tr₂ := by
  rw [exec_bind]
  constructor
  · rintro (⟨e, he, -⟩ | ⟨out, tr₁, tr₂, w₁, h₁, h₂, rfl⟩)
    · obtain ⟨r', hr, -⟩ := exec_attempt.1 he
      cases hr
    · obtain ⟨r', hr, h₁⟩ := exec_attempt.1 h₁
      obtain rfl := Except.ok.inj hr
      exact ⟨out, tr₁, tr₂, w₁, h₁, h₂, rfl⟩
  · rintro ⟨out, tr₁, tr₂, w₁, h₁, h₂, rfl⟩
    exact .inr ⟨out, tr₁, tr₂, w₁, exec_attempt.2 ⟨out, rfl, h₁⟩, h₂, rfl⟩

theorem exec_perform {B : C → Type} {R : Service C (fun c => Except E (B c)) L W} {c : C}
    {tr : List (Step C (fun c => Except E (B c)) L W)} {r : Except E (B c)} :
    Exec R (perform c) w tr r w' ↔ ∃ l, R w c l r w' ∧ tr = [⟨c, l, r, w'⟩] := by
  rw [perform, exec_call]
  constructor
  · rintro ⟨l, a, w₁, tr', hs, rfl, h⟩
    cases a <;> obtain ⟨rfl, rfl, rfl⟩ := h <;> exact ⟨l, hs, rfl⟩
  · rintro ⟨l, hs, rfl⟩
    refine ⟨l, r, w', [], hs, rfl, ?_⟩
    cases r <;> exact ⟨rfl, rfl, rfl⟩

theorem Exec.mono {p : Prog C A E α} {r : Except E α} (hR : ∀ w c l a w', R w c l a w' →
    R' w c l a w') (h : Exec R p w tr r w') : Exec R' p w tr r w' := by
  induction p generalizing w tr with
  | ret a => exact h
  | raise e => exact h
  | call c k ih =>
    obtain ⟨l, a, w₁, tr', hs, rfl, h⟩ := h
    exact ⟨l, a, w₁, tr', hR _ _ _ _ _ hs, rfl, ih a h⟩

/-- An execution uses only the reactions that its trace shows. -/
theorem Exec.restrict {p : Prog C A E α} {r : Except E α} (h : Exec R p w tr r w')
    (hR : ∀ w, ∀ st ∈ tr, R w st.call st.label st.answer st.after →
      R' w st.call st.label st.answer st.after) : Exec R' p w tr r w' := by
  induction p generalizing w tr with
  | ret a => exact h
  | raise e => exact h
  | call c k ih =>
    obtain ⟨l, a, w₁, tr', hs, rfl, h⟩ := h
    obtain ⟨h₁, h₂⟩ := List.forall_mem_cons.1 fun st hst => fun w => hR w st hst
    exact ⟨l, a, w₁, tr', h₁ w hs, rfl, ih a h fun w st hst => h₂ st hst w⟩

theorem Exec.of_mem {p : Prog C A E α} {r : Except E α} (h : Exec R p w tr r w') {st : Step C A L W}
    (hst : st ∈ tr) : ∃ w₀, R w₀ st.call st.label st.answer st.after := by
  induction p generalizing w tr with
  | ret a =>
    obtain ⟨rfl, -⟩ := h
    cases hst
  | raise e =>
    obtain ⟨rfl, -⟩ := h
    cases hst
  | call c k ih =>
    obtain ⟨l, a, w₁, tr', hs, rfl, h⟩ := h
    rcases List.mem_cons.1 hst with rfl | hst
    · exact ⟨w, hs⟩
    · exact ih a h hst

end Exec

section Run
variable (serve : W → (c : C) → L × A c × W)

/-- The execution against services that leave no choice. -/
def run : Prog C A E α → W → List (Step C A L W) × Except E α × W
  | .ret a, w => ([], .ok a, w)
  | .raise e, w => ([], .error e, w)
  | .call c k, w =>
    let s := serve w c
    let out := run (k s.2.1) s.2.2
    (⟨c, s.1, s.2.1, s.2.2⟩ :: out.1, out.2)

@[simp] theorem run_ret (a : α) (w : W) :
    run serve (.ret a : Prog C A E α) w = ([], .ok a, w) := rfl
@[simp] theorem run_raise (e : E) (w : W) :
    run serve (.raise e : Prog C A E α) w = ([], .error e, w) := rfl

/-- A run of a sequence whose first part returns. -/
theorem run_bind_ok {p : Prog C A E α} {f : α → Prog C A E β} {w w₁ : W} {tr : List (Step C A L W)}
    {a : α} (h : run serve p w = (tr, .ok a, w₁)) : run serve (p.bind f) w =
      (tr ++ (run serve (f a) w₁).1, (run serve (f a) w₁).2) := by
  induction p generalizing w tr with
  | ret b =>
    simp only [run_ret, Prod.mk.injEq] at h
    obtain ⟨rfl, hb, rfl⟩ := h
    cases hb
    rfl
  | raise e => simp [run] at h
  | call c k ih =>
    simp only [run, Prod.mk.injEq] at h
    obtain ⟨rfl, hr⟩ := h
    simp only [call_bind, run, ih _ (Prod.ext rfl hr), List.cons_append]

theorem run_attempt (p : Prog C A E α) (w : W) :
    run serve p.attempt w = ((run serve p w).1, .ok (run serve p w).2.1, (run serve p w).2.2) := by
  induction p generalizing w with
  | ret a => rfl
  | raise e => rfl
  | call c k ih => simp only [attempt_call, run, ih]

variable {serve} in
theorem exec_run {R : Service C A L W} {p : Prog C A E α} {w : W}
    (h : ∀ w c, R w c (serve w c).1 (serve w c).2.1 (serve w c).2.2) :
    Exec R p w (run serve p w).1 (run serve p w).2.1 (run serve p w).2.2 := by
  induction p generalizing w with
  | ret a => exact ⟨rfl, rfl, rfl⟩
  | raise e => exact ⟨rfl, rfl, rfl⟩
  | call c k ih => exact ⟨_, _, _, _, h w c, rfl, ih _⟩

end Run

section Uses

/-- Every call the program can make, whatever it is answered, satisfies `S`. -/
def Prog.Uses (S : C → Prop) : Prog C A E α → Prop
  | .ret _ => True
  | .raise _ => True
  | .call c k => S c ∧ ∀ a, (k a).Uses S

variable {S S' : C → Prop}

@[simp] theorem uses_ret {a : α} : (Prog.ret a : Prog C A E α).Uses S := trivial
@[simp] theorem uses_raise {e : E} : (Prog.raise e : Prog C A E α).Uses S := trivial

theorem Prog.Uses.bind {p : Prog C A E α} {f : α → Prog C A E β} (hp : p.Uses S)
    (hf : ∀ a, (f a).Uses S) : (p.bind f).Uses S := by
  induction p with
  | ret a => exact hf a
  | raise e => trivial
  | call c k ih => exact ⟨hp.1, fun a => ih a (hp.2 a)⟩

theorem Prog.Uses.attempt {p : Prog C A E α} (hp : p.Uses S) : p.attempt.Uses S := by
  induction p with
  | ret a => trivial
  | raise e => trivial
  | call c k ih => exact ⟨hp.1, fun a => ih a (hp.2 a)⟩

theorem Prog.uses_perform {B : C → Type} {c : C} (hc : S c) :
    (Prog.perform c : Prog C (fun c => Except E (B c)) E (B c)).Uses S :=
  ⟨hc, fun a => by cases a <;> trivial⟩

theorem Prog.Uses.mono {p : Prog C A E α} (hp : p.Uses S) (h : ∀ c, S c → S' c) : p.Uses S' := by
  induction p with
  | ret a => trivial
  | raise e => trivial
  | call c k ih => exact ⟨h c hp.1, fun a => ih a (hp.2 a)⟩

theorem Prog.uses_of_forall (h : ∀ c, S c) (p : Prog C A E α) : p.Uses S := by
  induction p with
  | ret a => trivial
  | raise e => trivial
  | call c k ih => exact ⟨h c, ih⟩

theorem Prog.uses_foldlM {f : β → α → Prog C A E β} {xs : List α}
    (hf : ∀ b, ∀ x ∈ xs, (f b x).Uses S) (b : β) : (xs.foldlM f b).Uses S := by
  induction xs generalizing b with
  | nil => trivial
  | cons x xs ih =>
    rw [List.foldlM_cons]
    exact (hf b x (by simp)).bind fun b' => ih (fun b y hy => hf b y (by simp [hy])) b'

/-- Against services that answer every call it can make, a program has an execution. -/
theorem exec_exists {R : Service C A L W} {p : Prog C A E α} (hp : p.Uses S)
    (hR : ∀ w c, S c → ∃ l a w', R w c l a w') (w : W) : ∃ tr r w', Exec R p w tr r w' := by
  induction p generalizing w with
  | ret a => exact ⟨[], _, w, rfl, rfl, rfl⟩
  | raise e => exact ⟨[], _, w, rfl, rfl, rfl⟩
  | call c k ih =>
    obtain ⟨l, a, w₁, hs⟩ := hR w c hp.1
    obtain ⟨tr, r, w', h⟩ := ih a (hp.2 a) w₁
    exact ⟨_, r, w', l, a, w₁, tr, hs, rfl, h⟩

theorem Prog.Uses.calls {R : Service C A L W} {p : Prog C A E α} {w w' : W}
    {tr : List (Step C A L W)}
    {r : Except E α} (hp : p.Uses S) (h : Exec R p w tr r w') : ∀ st ∈ tr, S st.call := by
  induction p generalizing w tr with
  | ret a =>
    obtain ⟨rfl, -⟩ := h
    simp
  | raise e =>
    obtain ⟨rfl, -⟩ := h
    simp
  | call c k ih =>
    obtain ⟨l, a, w₁, tr', hs, rfl, h⟩ := h
    exact List.forall_mem_cons.2 ⟨hp.1, ih a (hp.2 a) h⟩

/-- What the calls of an execution preserve holds at its end and at every point of it. -/
theorem Exec.of_calls {R : Service C A L W} {p : Prog C A E α} {w w' : W} {tr : List (Step C A L W)}
    {r : Except E α} {P : W → Prop} (hP : ∀ w c l a w', S c → P w → R w c l a w' → P w')
    (h : Exec R p w tr r w') (htr : ∀ st ∈ tr, S st.call) (hw : P w) :
    P w' ∧ ∀ st ∈ tr, P st.after := by
  induction p generalizing w tr with
  | ret a =>
    obtain ⟨rfl, -, rfl⟩ := h
    simpa using hw
  | raise e =>
    obtain ⟨rfl, -, rfl⟩ := h
    simpa using hw
  | call c k ih =>
    obtain ⟨l, a, w₁, tr', hs, rfl, h⟩ := h
    obtain ⟨hc, htr'⟩ := List.forall_mem_cons.1 htr
    have hw₁ := hP _ _ _ _ _ hc hw hs
    have ⟨h', hpts⟩ := ih a h htr' hw₁
    exact ⟨h', List.forall_mem_cons.2 ⟨hw₁, hpts⟩⟩

/-- What the calls a program can make preserve holds at the end and at every point of its
executions, and no other call occurs. -/
theorem Exec.of_uses {R : Service C A L W} {p : Prog C A E α} {w w' : W}
    {tr : List (Step C A L W)} {r : Except E α} {P : W → Prop} (hp : p.Uses S)
    (hP : ∀ w c l a w', S c → P w → R w c l a w' → P w') (h : Exec R p w tr r w') (hw : P w) :
    P w' ∧ ∀ st ∈ tr, S st.call ∧ P st.after := by
  have hcalls := hp.calls h
  have ⟨h', hpts⟩ := h.of_calls hP hcalls hw
  exact ⟨h', fun st hst => ⟨hcalls st hst, hpts st hst⟩⟩

/-- What each call of an execution shows, when it is made where `P` holds and keeps it. -/
theorem Exec.of_steps {R : Service C A L W} {p : Prog C A E α} {w w' : W}
    {tr : List (Step C A L W)} {r : Except E α} {P : W → Prop} {Q : Step C A L W → Prop}
    (hp : p.Uses S) (hP : ∀ w c l a w', S c → P w → R w c l a w' → P w' ∧ Q ⟨c, l, a, w'⟩)
    (h : Exec R p w tr r w') (hw : P w) : ∀ st ∈ tr, Q st := by
  induction p generalizing w tr with
  | ret a =>
    obtain ⟨rfl, -⟩ := h
    simp
  | raise e =>
    obtain ⟨rfl, -⟩ := h
    simp
  | call c k ih =>
    obtain ⟨l, a, w₁, tr', hs, rfl, h⟩ := h
    obtain ⟨hw₁, hq⟩ := hP _ _ _ _ _ hp.1 hw hs
    exact List.forall_mem_cons.2 ⟨hq, ih a (hp.2 a) h hw₁⟩

end Uses

section Straight
variable {B : C → Type}

/-- The program raises what a call is answered with, and nothing else. -/
def Prog.Straight : Prog C (fun c => Except E (B c)) E α → Prop
  | .ret _ => True
  | .raise _ => False
  | .call _ k => (∀ e, k (.error e) = .raise e) ∧ ∀ b, (k (.ok b)).Straight

theorem Prog.straight_perform (c : C) :
    (Prog.perform c : Prog C (fun c => Except E (B c)) E (B c)).Straight :=
  ⟨fun _ => rfl, fun _ => trivial⟩

theorem Prog.Straight.bind {p : Prog C (fun c => Except E (B c)) E α}
    {f : α → Prog C (fun c => Except E (B c)) E β} (hp : p.Straight) (hf : ∀ a, (f a).Straight) :
    (p.bind f).Straight := by
  induction p with
  | ret a => exact hf a
  | raise e => exact hp.elim
  | call c k ih => exact ⟨fun e => congrArg (Prog.bind · f) (hp.1 e), fun b => ih _ (hp.2 b)⟩

theorem Prog.straight_foldlM {f : β → α → Prog C (fun c => Except E (B c)) E β}
    (hf : ∀ b x, (f b x).Straight) (xs : List α) (b : β) : (xs.foldlM f b).Straight := by
  induction xs generalizing b with
  | nil => trivial
  | cons x xs ih =>
    rw [List.foldlM_cons]
    exact (hf b x).bind ih

/-- A straight program returns when every call is answered with a value, and otherwise ends at the
first answer that is an exception, with that exception. -/
theorem Prog.Straight.exec {R : Service C (fun c => Except E (B c)) L W}
    {p : Prog C (fun c => Except E (B c)) E α} {w w' : W}
    {tr : List (Step C (fun c => Except E (B c)) L W)} {r : Except E α} (hp : p.Straight)
    (h : Exec R p w tr r w') :
    ((∃ a, r = .ok a) ∧ ∀ st ∈ tr, ∃ b, st.answer = .ok b) ∨
      ∃ e before last, r = .error e ∧ tr = before ++ [last] ∧
        (∀ st ∈ before, ∃ b, st.answer = .ok b) ∧ last.answer = .error e := by
  induction p generalizing w tr with
  | ret a =>
    obtain ⟨rfl, rfl, -⟩ := h
    exact .inl ⟨⟨a, rfl⟩, by simp⟩
  | raise e => exact hp.elim
  | call c k ih =>
    obtain ⟨l, a, w₁, tr', hs, rfl, h⟩ := h
    cases a with
    | error e =>
      rw [hp.1 e] at h
      obtain ⟨rfl, rfl, -⟩ := h
      exact .inr ⟨e, [], _, rfl, rfl, by simp, rfl⟩
    | ok b =>
      have hb : ∃ b', (⟨c, l, .ok b, w₁⟩ : Step C (fun c => Except E (B c)) L W).answer = .ok b' :=
        ⟨b, rfl⟩
      rcases ih _ (hp.2 b) h with ⟨hr, hall⟩ | ⟨e, before, last, rfl, rfl, hall, hlast⟩
      · exact .inl ⟨hr, List.forall_mem_cons.2 ⟨hb, hall⟩⟩
      · exact .inr ⟨e, _ :: before, last, rfl, rfl, List.forall_mem_cons.2 ⟨hb, hall⟩, hlast⟩

end Straight

section Lift
variable {C' : Type} {A' : C' → Type}

/-- A program among calls of which its own are a part. -/
def Prog.lift (f : C → C') (g : ∀ c, A' (f c) → A c) : Prog C A E α → Prog C' A' E α
  | .ret a => .ret a
  | .raise e => .raise e
  | .call c k => .call (f c) fun a => (k (g c a)).lift f g

/-- An execution among more calls, in a world of which the program sees a part, is one of the
program itself, call by call. -/
theorem exec_lift {W' : Type} (see : W → W') {f : C → C'} {g : ∀ c, A' (f c) → A c}
    {R : Service C' A' L W} {R' : Service C A L W'}
    (hR : ∀ w c l a w', R w (f c) l a w' → R' (see w) c l (g c a) (see w')) {p : Prog C A E α}
    {w w' : W} {tr : List (Step C' A' L W)} {r : Except E α} (h : Exec R (p.lift f g) w tr r w') :
    ∃ tr', Exec R' p (see w) tr' r (see w') ∧ tr.map Step.call = tr'.map fun st => f st.call := by
  induction p generalizing w tr with
  | ret a =>
    obtain ⟨rfl, rfl, rfl⟩ := h
    exact ⟨[], ⟨rfl, rfl, rfl⟩, rfl⟩
  | raise e =>
    obtain ⟨rfl, rfl, rfl⟩ := h
    exact ⟨[], ⟨rfl, rfl, rfl⟩, rfl⟩
  | call c k ih =>
    obtain ⟨l, a, w₁, tr₁, hs, rfl, h⟩ := h
    obtain ⟨tr', h', hcalls⟩ := ih _ h
    exact ⟨_, ⟨l, _, see w₁, tr', hR _ _ _ _ _ hs, rfl, h'⟩, congrArg (f c :: ·) hcalls⟩

theorem Prog.Uses.lift {S : C → Prop} {S' : C' → Prop} {f : C → C'} {g : ∀ c, A' (f c) → A c}
    {p : Prog C A E α} (hp : p.Uses S) (hS : ∀ c, S c → S' (f c)) : (p.lift f g).Uses S' := by
  induction p with
  | ret a => trivial
  | raise e => trivial
  | call c k ih => exact ⟨hS c hp.1, fun a => ih _ (hp.2 _)⟩

end Lift

end Accel.Program
