import Mathlib

/-! Texts for bytes: hexadecimal and base64, with the padding at the end. -/

namespace Accel.Data

section Hex

def hexDigit (n : ℕ) : Char := "0123456789abcdef".toList.getD n '0'

/-- Two digits for each byte. -/
def hexText (bytes : List UInt8) : List Char :=
  bytes.flatMap fun b => [hexDigit (b.toNat / 16), hexDigit (b.toNat % 16)]

end Hex

section Base64

def sextet (n : ℕ) : Char :=
  "ABCDEFGHIJKLMNOPQRSTUVWXYZabcdefghijklmnopqrstuvwxyz0123456789+/".toList.getD n 'A'

/-- Four characters for every three bytes, the last group padded with `=`. -/
def base64Text : List UInt8 → List Char
  | a :: b :: c :: rest =>
    sextet (a.toNat / 4) :: sextet (a.toNat % 4 * 16 + b.toNat / 16) ::
      sextet (b.toNat % 16 * 4 + c.toNat / 64) :: sextet (c.toNat % 64) :: base64Text rest
  | [a, b] =>
    [sextet (a.toNat / 4), sextet (a.toNat % 4 * 16 + b.toNat / 16), sextet (b.toNat % 16 * 4), '=']
  | [a] => [sextet (a.toNat / 4), sextet (a.toNat % 4 * 16), '=', '=']
  | [] => []

theorem sextet_inj : ∀ m < 64, ∀ n < 64, sextet m = sextet n → m = n := by
  have hnodup : ((List.range 64).map sextet).Nodup := by decide +kernel
  intro m hm n hn h
  exact List.inj_on_of_nodup_map hnodup (List.mem_range.2 hm) (List.mem_range.2 hn) h

theorem sextet_ne : ∀ n < 64, sextet n ≠ '=' ∧ sextet n ≠ '-' := by decide +kernel

/-- The characters of a group of three bytes give the bytes back. -/
theorem group_inj {a b c a' b' c' : UInt8} (h₁ : sextet (a.toNat / 4) = sextet (a'.toNat / 4))
    (h₂ : sextet (a.toNat % 4 * 16 + b.toNat / 16) = sextet (a'.toNat % 4 * 16 + b'.toNat / 16))
    (h₃ : sextet (b.toNat % 16 * 4 + c.toNat / 64) = sextet (b'.toNat % 16 * 4 + c'.toNat / 64))
    (h₄ : sextet (c.toNat % 64) = sextet (c'.toNat % 64)) : a = a' ∧ b = b' ∧ c = c' := by
  have hlt : ∀ x : UInt8, x.toNat < 256 := fun x => x.toNat_lt
  have := hlt a
  have := hlt b
  have := hlt c
  have := hlt a'
  have := hlt b'
  have := hlt c'
  have e₁ := sextet_inj _ (by omega) _ (by omega) h₁
  have e₂ := sextet_inj _ (by omega) _ (by omega) h₂
  have e₃ := sextet_inj _ (by omega) _ (by omega) h₃
  have e₄ := sextet_inj _ (by omega) _ (by omega) h₄
  exact ⟨UInt8.toNat_inj.1 (by omega), UInt8.toNat_inj.1 (by omega), UInt8.toNat_inj.1 (by omega)⟩

theorem last_ne (c : UInt8) : sextet (c.toNat % 64) ≠ '=' := (sextet_ne _ (by omega)).1

theorem third_ne (b : UInt8) : sextet (b.toNat % 16 * 4) ≠ '=' := (sextet_ne _ (by omega)).1

theorem base64Text_injective : Function.Injective base64Text := by
  intro bytes
  induction bytes using base64Text.induct with
  | case1 a b c rest ih =>
    intro bytes' h
    match bytes' with
    | a' :: b' :: c' :: rest' =>
      simp only [base64Text, List.cons.injEq] at h
      obtain ⟨h₁, h₂, h₃, h₄, h⟩ := h
      obtain ⟨rfl, rfl, rfl⟩ := group_inj h₁ h₂ h₃ h₄
      rw [ih h]
    | [a', b'] =>
      simp only [base64Text, List.cons.injEq] at h
      -- only a short group ends with the padding
      exact absurd h.2.2.2.1 (last_ne c)
    | [a'] =>
      simp only [base64Text, List.cons.injEq] at h
      exact absurd h.2.2.2.1 (last_ne c)
    | [] => cases h
  | case2 a b =>
    intro bytes' h
    match bytes' with
    | a' :: b' :: c' :: rest' =>
      simp only [base64Text, List.cons.injEq] at h
      exact absurd h.2.2.2.1.symm (last_ne c')
    | [a', b'] =>
      simp only [base64Text, List.cons.injEq] at h
      obtain ⟨h₁, h₂, h₃, -⟩ := h
      obtain ⟨rfl, rfl, -⟩ := @group_inj a b 0 a' b' 0 h₁ h₂ h₃ rfl
      rfl
    | [a'] =>
      simp only [base64Text, List.cons.injEq] at h
      exact absurd h.2.2.1 (third_ne b)
    | [] => cases h
  | case3 a =>
    intro bytes' h
    match bytes' with
    | a' :: b' :: c' :: rest' =>
      simp only [base64Text, List.cons.injEq] at h
      exact absurd h.2.2.2.1.symm (last_ne c')
    | [a', b'] =>
      simp only [base64Text, List.cons.injEq] at h
      exact absurd h.2.2.1.symm (third_ne b')
    | [a'] =>
      simp only [base64Text, List.cons.injEq] at h
      obtain ⟨h₁, h₂, -⟩ := h
      obtain ⟨rfl, -⟩ := @group_inj a 0 0 a' 0 0 h₁ h₂ rfl rfl
      rfl
    | [] => cases h
  | case4 =>
    intro bytes' h
    match bytes' with
    | _ :: _ :: _ :: _ => cases h
    | [_, _] => cases h
    | [_] => cases h
    | [] => rfl

/-- A dash never stands in a base64 text. -/
theorem dash_not_mem_base64Text (bytes : List UInt8) : '-' ∉ base64Text bytes := by
  have hne : ∀ n < 64, '-' ≠ sextet n := fun n hn h => (sextet_ne n hn).2 h.symm
  have hlt : ∀ x : UInt8, x.toNat < 256 := fun x => x.toNat_lt
  induction bytes using base64Text.induct with
  | case1 a b c rest ih =>
    have := hlt a
    have := hlt b
    have := hlt c
    simp only [base64Text, List.mem_cons, not_or]
    exact ⟨hne _ (by omega), hne _ (by omega), hne _ (by omega), hne _ (by omega), ih⟩
  | case2 a b =>
    have := hlt a
    have := hlt b
    simp only [base64Text, List.mem_cons, not_or]
    exact ⟨hne _ (by omega), hne _ (by omega), hne _ (by omega), by decide, List.not_mem_nil⟩
  | case3 a =>
    have := hlt a
    simp only [base64Text, List.mem_cons, not_or]
    exact ⟨hne _ (by omega), hne _ (by omega), by decide, by decide, List.not_mem_nil⟩
  | case4 => exact List.not_mem_nil

end Base64

end Accel.Data
